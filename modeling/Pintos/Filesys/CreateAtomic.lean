import Pintos.Filesys.RootDir

/-!
# Creating a file that cannot be named

`filesys_create` allocates a sector for the inode, then sectors for the data, and then enters the
name. Where it fails it gives back the sector of the inode only.
-/

open twos_complement bytes state_error

namespace pintos.filesys

namespace bitmap

variable {b : bitmap} {sector start cnt : Nat}

@[simp] theorem set_zero (b : bitmap) (start : Nat) (value : Bool) : b.set start 0 value = b := by
  have hbits : (b.set start 0 value).bits = b.bits := by
    funext i
    exact if_neg (by omega)
  cases b
  simpa [set] using hbits

/-- Giving back one sector of two allocations brings the map back only if the other was empty. -/
theorem set_back_iff (hsector : b.bits sector = false)
    (hfree : ∀ i < cnt, (b.set sector 1 true).bits (start + i) = false) :
    ((b.set sector 1 true).set start cnt true).set sector 1 false = b ↔ cnt = 0 := by
  constructor
  · intro hback
    by_contra hne
    have hfirst := hfree 0 (by omega)
    have hother : start ≠ sector := by
      rintro rfl
      simp [set] at hfirst
    have hwas : b.bits start = false := by
      simp only [set, Nat.add_zero] at hfirst
      split_ifs at hfirst
      exact hfirst
    have hnow := congrArg (fun m => m.bits start) hback
    simp only [set] at hnow
    rw [if_neg (by omega), if_pos (by omega), hwas] at hnow
    cases hnow
  · rintro rfl
    rw [set_zero]
    apply set_set
    intro i hi
    obtain rfl : i = 0 := by omega
    exact hsector

end bitmap

/-- No sector is allocated for the data of an empty file, and at least one for any other. -/
theorem bytes_to_sectors_eq_zero {length : Int} (hnonneg : 0 ≤ length) (hle : length ≤ 2147483647) :
    bytes_to_sectors length = 0 ↔ length = 0 := by
  constructor
  · intro hzero
    have hroom := le_bytes_to_sectors hnonneg hle
    omega
  · rintro rfl
    decide

/-- How often `filesys_create` asks for memory before it enters the name. -/
def create_questions (s : State) : Nat := root_questions s + (map_questions s + (1 + map_questions s))

/-- The inode and its data find sectors, and memory. -/
def InodeFits (s : State) (length : Int) : Prop := Memory s (create_questions s) ∧
  ∃ sector, s.free_map.scan 0 1 false = some sector ∧
    ((s.free_map.set sector 1 true).scan 0 (bytes_to_sectors length) false).isSome

/-- The free map, the root directory and the open inodes are as they were. -/
structure Unchanged (s t : State) : Prop where
  free_map : t.free_map = s.free_map
  root : ∀ i < 16, ∀ j < 20, entry t i j = entry s i j
  open_inodes : t.open_inodes = s.open_inodes
  inodes : t.inodes = s.inodes

section Create

variable {there : Set Nat} {s t u : State} {p : Ptr} {d : inode_disk}

namespace OpenedBy

theorem fs_device (h : OpenedBy s p t) : t.fs_device = s.fs_device := by
  cases h <;> rfl

theorem free_map (h : OpenedBy s p t) : t.free_map = s.free_map := by
  cases h <;> rfl

/-- Opening an inode leaves the file of the free map open. -/
theorem map_ready (h : OpenedBy s p t) (hready : MapReady s d) : MapReady t d := by
  obtain ⟨⟨hcnt, hlt, -, hfile⟩, hlength⟩ := hready
  obtain ⟨f, file, inode, hf, hstruct, hinode, hdeny, hdata, hon⟩ := hfile d rfl
  have hkept : ∃ inode', t.inodes file.inode = some inode' ∧ inode'.deny_write_cnt = 0 ∧ inode'.data = d := by
    cases h with
    | @again i asked hp hcnt' hasked =>
      by_cases hq : file.inode = p
      · subst hq
        obtain rfl := Option.some.inj (hinode.symm.trans hp)
        exact ⟨_, if_pos rfl, hdeny, hdata⟩
      · exact ⟨inode, (if_neg hq).trans hinode, hdeny, hdata⟩
    | @first i asked hp hcnt' hasked =>
      have hq : file.inode ≠ p := by
        rintro rfl
        rw [hp] at hinode
        cases hinode
      exact ⟨inode, (if_neg hq).trans hinode, hdeny, hdata⟩
  obtain ⟨inode', hinode', hdeny', hdata'⟩ := hkept
  cases h <;>
    exact ⟨⟨hcnt, hlt, nofun, fun d' hd => by
      obtain rfl := Option.some.inj hd
      exact ⟨f, file, inode', hf, hstruct, hinode', hdeny', hdata', hon⟩⟩, hlength⟩

theorem disk (h : OpenedBy s p t) (hd : Disk there s) : Disk there t := by
  cases h <;> exact { hd with }

end OpenedBy

/-- A release clears the bits, and writes the free map as far as memory allows. -/
theorem free_map_release_ends (hready : FreeMapReady s (some d)) (sector cnt : Nat) :
    Ends (free_map_release sector cnt) s fun _ t =>
      OnlyDevice (MapSector (some d)) { s with free_map := s.free_map.set sector cnt false } t := by
  obtain ⟨f, -, -, hf, -, -, -, -, hon⟩ := hready.file d rfl
  rw [free_map_release]
  apply (bitmap_check_ends sector cnt s).bind
  intro _ t ht
  rw [ht]
  apply Exec.Ends.after Exec.get_run
  by_cases hall : s.free_map.all sector cnt = true
  · apply Exec.Ends.after (Exec.ASSERT_run hall _)
    apply (bitmap_set_multiple_ends sector cnt false s).bind
    rintro _ _ rfl
    obtain ⟨saved, u, hsave, honly⟩ := free_map_save_run
      (hready.mark (b := s.free_map.set sector cnt false) rfl)
    rw [free_map_save_eq (s := { s with free_map := s.free_map.set sector cnt false }) hf] at hsave
    rw [hf] at hsave honly ⊢
    have hwrite : Ends (bitmap_write f >>= fun _ => pure ())
        { s with free_map := s.free_map.set sector cnt false, free_map_file := some f } fun _ t =>
        OnlyDevice (MapSector (some d))
          { s with free_map := s.free_map.set sector cnt false, free_map_file := some f } t :=
      Exec.Ends.after hsave (Exec.Ends.of_ok rfl honly)
    exact hwrite
  · exact Exec.Ends.of_error (Exec.bind_error (Exec.ASSERT_error hall _)) nofun

/-- The sectors in use are untouched, but for those of the free map's file. -/
structure Kept (s t : State) : Prop where
  size : t.fs_device.size = s.fs_device.size
  sector : ∀ x, ¬ MapSector (some (disk_inode s FREE_MAP_SECTOR)) x → x ∈ used s →
    t.fs_device.sector x = s.fs_device.sector x

theorem Kept.only (h : Kept s t) (honly : OnlyDevice (MapSector (some (disk_inode s FREE_MAP_SECTOR))) t u) :
    Kept s u :=
  ⟨honly.size.trans h.size, fun x hx hused => (honly.sector x hx).trans (h.sector x hx hused)⟩

/-- What `create_in` leaves behind where it fails: a sector for the inode, and `cnt` sectors for
data. -/
structure Failed (s : State) (sector cnt : Nat) (t : State) : Prop where
  kept : Kept s t
  ready : FreeMapReady t (some (disk_inode s FREE_MAP_SECTOR))
  free : s.free_map.bits sector = false
  map : ∃ start, t.free_map = (s.free_map.set sector 1 true).set start cnt true ∧
    ∀ i < cnt, (s.free_map.set sector 1 true).bits (start + i) = false

/-- The memory and the sectors that `create_in` needs before it enters the name. -/
def Fits (s : State) (length : Int) : Prop := Memory s (map_questions s + (1 + map_questions s)) ∧
  ∃ sector, s.free_map.scan 0 1 false = some sector ∧
    ((s.free_map.set sector 1 true).scan 0 (bytes_to_sectors length) false).isSome

/-- The data of the root directory lies on the device. -/
theorem Disk.root_on_device (h : Disk there s) (hlt : s.fs_device.size < 2 ^ 32) :
    OnDevice s.fs_device (disk_inode s ROOT_DIR_SECTOR) := by
  have hsector := h.in_range _ h.root_there _ (Or.inr h.root_owns)
  have hlength := h.root_length
  rw [root_sector] at hsector
  refine ⟨?_, ?_, ?_, hlt⟩ <;> rw [hlength]
  · omega
  · omega
  · exact hsector

/-- How `create_in` fails, once the root directory is open. -/
theorem create_in_fails (hd : Disk there s) (hready : MapReady s (disk_inode s FREE_MAP_SECTOR)) {d : dir}
    {inode : inode} (hp : s.inodes d.inode = some inode) (hdata : inode.data = disk_inode s ROOT_DIR_SECTOR)
    (name : List Byte) {size : Int} (hnonneg : 0 ≤ size) (hle : size ≤ 2147483647) :
    Ends (create_in (some d) name size) s fun r t => r.1 = false →
      (r.2 = 0 ∧ ¬ Fits s size ∧ Kept s t ∧ t.free_map = s.free_map) ∨
      (r.2 ≠ 0 ∧ ((¬ Fits s size ∧ Failed s r.2 0 t) ∨
        (Fits s size ∧ Failed s r.2 (bytes_to_sectors size) t))) := by
  obtain ⟨r, u, halloc, hnone, hsome⟩ := free_map_allocate_run hready.ready 1
  obtain ⟨hoom, hasked, hfound⟩ := (hready.free_map_allocate_asks 1).1 r u halloc
  have hopen := (free_map_allocate_leaves 1).ok _ _ _ halloc
  rw [create_in]
  apply Exec.Ends.after halloc
  cases r with
  | none =>
    have honly := hnone rfl
    have hfits : ¬ Fits s size := by
      rintro ⟨hmemory, sector, hscan, -⟩
      have hnot := (hfound sector).mpr ⟨hscan, (memory_add.mp hmemory).1⟩
      cases hnot
    apply Exec.Ends.of_ok rfl
    refine fun _ => .inl ⟨rfl, hfits, ⟨honly.size, fun x hx _ => honly.sector x hx⟩, ?_⟩
    rw [honly.same]
  | some sector =>
    obtain ⟨hin, hfree, honly⟩ := hsome sector rfl
    obtain ⟨hscan, hmemory⟩ := (hfound sector).mp rfl
    have hsector : s.free_map.bits sector = false := hfree 0 Nat.one_pos
    have hne : sector ≠ 0 := by
      rintro rfl
      have hused := hd.owned.used _ hd.free_map_there (sector_mem s _)
      rw [used, Set.mem_ofPred_eq, FREE_MAP_SECTOR, hsector] at hused
      cases hused
    have hmap : u.free_map = s.free_map.set sector 1 true := by rw [honly.same]
    have hsize : u.fs_device.size = s.fs_device.size := honly.size
    have hready' : MapReady u (disk_inode s FREE_MAP_SECTOR) :=
      (hready.mark (b := s.free_map.set sector 1 true) rfl).only honly
    have hmarked : u.free_map.bits sector = true := by simp [hmap, bitmap.set]
    obtain ⟨created, v, hcreate, hfail, hmade⟩ :=
      inode_create_run hready'.ready (by omega) hmarked hnonneg hle
    have hcreated : created = true ↔ (u.free_map.scan 0 (bytes_to_sectors size) false).isSome ∧
        Memory u (1 + map_questions u) := (hready'.inode_create_asks sector hnonneg).1 created v hcreate
    have hopen' := IsTrans.trans _ _ _ hopen ((inode_create_leaves sector size).ok _ _ _ hcreate)
    have hquestions : map_questions u = map_questions s := by rw [map_questions, map_questions, hsize]
    have hrest : Memory u (1 + map_questions u) ↔
        Memory { s with asked := s.asked + map_questions s } (1 + map_questions s) := by
      rw [hquestions]
      exact memory_congr hoom (hasked sector rfl)
    have hfits : Fits s size ↔ created = true := by
      rw [hcreated, hrest, hmap, Fits, memory_add]
      constructor
      · rintro ⟨⟨-, hmem⟩, sector', hscan', hroom⟩
        obtain rfl := Option.some.inj (hscan.symm.trans hscan')
        exact ⟨hroom, hmem⟩
      · rintro ⟨hroom, hmem⟩
        exact ⟨⟨hmemory, hmem⟩, sector, hscan, hroom⟩
    apply Exec.Ends.after hcreate
    cases created with
    | false =>
      have hnot : ¬ Fits s size := by
        rw [hfits]
        exact Bool.false_ne_true
      have honly' := hfail rfl
      apply Exec.Ends.of_ok rfl
      refine fun _ => .inr ⟨hne, .inl ⟨hnot, ?_, hready'.ready.only honly', hsector, 0, ?_,
        fun i hi => absurd hi (Nat.not_lt_zero i)⟩⟩
      · exact ⟨honly'.size.trans hsize, fun x hx _ => (honly'.sector x hx).trans (honly.sector x hx)⟩
      · rw [bitmap.set_zero, ← hmap, honly'.same]
    | true =>
      obtain ⟨start, hmade⟩ := hmade rfl
      have honly' := hmade.only
      have hfree' := hmade.free
      rw [hmap] at hfree'
      have hkept : Kept s v := by
        refine ⟨honly'.size.trans hsize, fun x hx hused => (honly'.sector x ?_).trans (honly.sector x hx)⟩
        have hbit : s.free_map.bits x = true := hused
        rintro (hmapped | rfl | ⟨hlow, hhigh⟩)
        · exact hx hmapped
        · rw [hsector] at hbit
          cases hbit
        · have hx' := hfree' (x - start) (by omega)
          rw [Nat.add_sub_cancel' hlow] at hx'
          simp only [bitmap.set] at hx'
          split_ifs at hx'
          rw [hbit] at hx'
          cases hx'
      have hpv : v.inodes d.inode = some inode := by
        rw [hopen'.inodes]
        exact hp
      have honv : OnDevice v.fs_device inode.data := by
        have hon := hd.root_on_device hready.ready.size_lt
        rw [hdata]
        exact ⟨hon.length_nonneg, hon.length_le, hkept.size ▸ hon.sectors, hkept.size ▸ hon.size_lt⟩
      rw [if_pos rfl]
      apply (dir_add_fails hpv honv (hdata ▸ hd.root_length) name sector).bind
      intro added w hw
      apply Exec.Ends.of_ok rfl
      intro hfalse
      have hasked' := hw hfalse
      refine .inr ⟨hne, .inr ⟨hfits.mpr rfl, hkept.only (hasked'.only_device _), ?_, hsector,
        start, ?_, hfree'⟩⟩
      · have hready'' := (hready'.ready.mark (b := u.free_map.set start
          (bytes_to_sectors size) true) rfl).only honly'
        exact hready''.only (hasked'.only_device fun _ => False)
      · rw [hasked'.same, ← hmap, honly'.same]

theorem dir_add_leaves (d : dir) (name : List Byte) (sector : Nat) : LeavesOpen (dir_add d name sector) := by
  have hslot : ∀ n ofs e, Reads (free_slot_loop d n ofs e) := by
    intro n
    induction n with
    | zero => exact fun _ _ => Exec.Frame.throw nofun
    | succ n ih =>
      intro ofs e
      apply Exec.Frame.bind (inode_read_at_reads _ _ _ _)
      rintro ⟨bytes_read, e⟩
      simp only
      split_ifs
      · exact Exec.Frame.pure _
      · exact ih _ _
      · exact Exec.Frame.pure _
  rw [dir_add]
  split_ifs
  · exact Exec.Frame.pure false
  · apply Exec.Frame.bind (lookup_reads d name).leaves
    intro found
    cases found with
    | some found => exact Exec.Frame.pure false
    | none =>
      apply Exec.Frame.bind (entry_turns_reads d).leaves
      intro turns
      apply Exec.Frame.bind Exec.Frame.get
      intro s
      apply Exec.Frame.bind (hslot _ _ _).leaves
      rintro ⟨e, ofs⟩
      exact Exec.Frame.bind (inode_write_at_leaves _ _ _ _) fun _ => Exec.Frame.pure _

theorem create_in_leaves (d : Option dir) (name : List Byte) (size : Int) :
    LeavesOpen (create_in d name size) := by
  cases d with
  | none => exact Exec.Frame.pure _
  | some d =>
    apply Exec.Frame.bind (free_map_allocate_leaves 1)
    intro sector
    cases sector with
    | none => exact Exec.Frame.pure _
    | some sector =>
      apply Exec.Frame.bind (inode_create_leaves sector size)
      intro created
      split_ifs
      · exact Exec.Frame.bind (dir_add_leaves d name sector) fun _ => Exec.Frame.pure _
      · exact Exec.Frame.pure _

/-- What is needed before the name is entered: memory for the root directory, and then the rest. -/
theorem inodeFits_iff (hopened : RootOpened s p t) (hasked : t.asked = s.asked + root_questions s)
    {size : Int} :
    InodeFits s size ↔ Memory s (root_questions s) ∧ Fits t size := by
  have hmemory : ∀ n, Memory t n ↔ Memory { s with asked := s.asked + root_questions s } n := by
    intro n
    exact memory_congr hopened.opened.oom hasked
  have hquestions : map_questions t = map_questions s := by
    rw [map_questions, map_questions, hopened.opened.fs_device]
  rw [InodeFits, Fits, create_questions, memory_add, hmemory, hquestions, hopened.opened.free_map, and_assoc]

theorem OpenedBy.kept (h : OpenedBy s p t) (hkept : Kept t u) : Kept s u := by
  cases h <;> exact ⟨hkept.size, hkept.sector⟩

/-- The root directory is closed again. -/
theorem RootOpened.dir_close {d : dir} (h : RootOpened s d.inode t) (hopen : SameOpen t u) :
    dir_close (some d) u = .ok ((), { u with inodes := s.inodes, open_inodes := s.open_inodes }) := by
  obtain ⟨inode, hp, -, hremoved⟩ := h.inode
  apply h.opened.inode_close hopen.inodes hopen.open_inodes
  intro i hi
  obtain rfl := Option.some.inj (hp.symm.trans hi)
  exact hremoved

/-- What has changed after that. -/
theorem unchanged_iff (hd : Disk there s) (hkept : Kept s u) :
    Unchanged s { u with inodes := s.inodes, open_inodes := s.open_inodes } ↔ u.free_map = s.free_map := by
  constructor
  · exact fun h => h.free_map
  · intro hmap
    have hfiles : SameFiles there s { u with inodes := s.inodes, open_inodes := s.open_inodes } :=
      hd.written hkept.size hkept.sector
    exact ⟨hmap, fun i hi j hj => hfiles.entry_eq hd hi hj, rfl, rfl⟩

theorem filesys_create_ends (h : Mounted there s) (name : List Byte) {size : Int} (hnonneg : 0 ≤ size)
    (hle : size ≤ 2147483647) : Ends (filesys_create name size) s fun r t =>
      r = false → (Unchanged s t ↔ size = 0 ∨ ¬ InodeFits s size) := by
  rw [filesys_create]
  apply h.dir_open_root.bind
  rintro dir t ⟨hnone, hsome⟩
  cases dir with
  | none =>
    obtain ⟨hasked, hmemory⟩ := hnone rfl
    have hnot : ¬ InodeFits s size := fun hfits => hmemory (memory_add.mp hfits.1).1
    apply Exec.Ends.of_ok rfl
    refine fun _ => iff_of_true ?_ (.inr hnot)
    rw [hasked.same]
    exact ⟨rfl, fun _ _ _ _ => rfl, rfl, rfl⟩
  | some d =>
    obtain ⟨hopened, hcount, hmemory⟩ := hsome d rfl
    obtain ⟨inode, hp, hdata, -⟩ := hopened.inode
    have hdisk : ∀ k, disk_inode t k = disk_inode s k := by
      intro k
      rw [disk_inode, hopened.opened.fs_device]
      rfl
    have hmap := hopened.opened.free_map
    have hready := hopened.opened.map_ready h.map
    rw [← hdisk] at hready hdata
    have hfits : InodeFits s size ↔ Fits t size := by
      rw [inodeFits_iff hopened hcount]
      exact and_iff_right hmemory
    have hfails := create_in_fails (hopened.opened.disk h.disk) hready hp hdata name hnonneg hle
    have hleaves := Exec.Ends.of_frame (s := t) (create_in_leaves (some d) name size) fun _ _ => id
    apply (hfails.and hleaves).bind
    rintro ⟨success, sector⟩ u ⟨hfail, hopen⟩
    dsimp only at hfail ⊢
    have hclosed : ∀ v, SameOpen t v → Ends (do
        filesys.dir_close (some d)
        return success) v fun r w => r = success ∧ w =
          { v with inodes := s.inodes, open_inodes := s.open_inodes } := by
      intro v hv
      apply Exec.Ends.after (hopened.dir_close hv)
      exact Exec.Ends.of_ok rfl ⟨rfl, rfl⟩
    cases success with
    | true =>
      rw [if_neg (by simp)]
      apply (hclosed u hopen).mono
      rintro r w ⟨rfl, -⟩ hr
      cases hr
    | false =>
      obtain ⟨rfl, hnot, hkept, hsame⟩ | ⟨hne, hcases⟩ := hfail rfl
      · rw [if_neg (by simp)]
        apply (hclosed u hopen).mono
        rintro r w ⟨rfl, rfl⟩ -
        rw [unchanged_iff h.disk (hopened.opened.kept hkept), hsame, hmap, hfits]
        exact iff_of_true rfl (.inr hnot)
      · obtain ⟨cnt, hfailed, hcnt⟩ : ∃ cnt, Failed t sector cnt u ∧
            (cnt = 0 ↔ size = 0 ∨ ¬ InodeFits s size) := by
          rw [hfits]
          obtain ⟨hnot, hfailed⟩ | ⟨hfit, hfailed⟩ := hcases
          · exact ⟨_, hfailed, iff_of_true rfl (.inr hnot)⟩
          · refine ⟨_, hfailed, ?_⟩
            rw [bytes_to_sectors_eq_zero hnonneg hle]
            simp [hfit]
        rw [if_pos ⟨rfl, hne⟩]
        apply (free_map_release_ends hfailed.ready sector 1).bind
        intro _ v honly
        have hv : SameOpen u v := by
          rw [honly.same]
          exact ⟨rfl, rfl, rfl, honly.asked⟩
        apply (hclosed v (IsTrans.trans _ _ _ hopen hv)).mono
        rintro r w ⟨rfl, rfl⟩ -
        obtain ⟨start, hmarked, hfree⟩ := hfailed.map
        have hback : v.free_map = ((s.free_map.set sector 1 true).set start cnt true).set sector 1 false := by
          rw [honly.same, ← hmap, ← hmarked]
        have hkept : Kept t v := ⟨honly.size.trans hfailed.kept.size, fun x hx hused =>
          (honly.sector x hx).trans (hfailed.kept.sector x hx hused)⟩
        rw [hmap] at hfree
        rw [unchanged_iff h.disk (hopened.opened.kept hkept), hback, ← hcnt]
        exact bitmap.set_back_iff (hmap ▸ hfailed.free) hfree

/-- A failed `filesys_create` has changed nothing exactly where it is asked for an empty file, or where
the sectors or the memory for the file are not there. -/
theorem filesys_create_atomic_iff (h : Mounted there s) (name : List Byte) {size : Int} (hnonneg : 0 ≤ size)
    (hle : size ≤ 2147483647) (hrun : filesys_create name size s = .ok (false, t)) :
    Unchanged s t ↔ size = 0 ∨ ¬ InodeFits s size :=
  (filesys_create_ends h name hnonneg hle).1 false t hrun rfl

theorem free_map_release_run (hready : FreeMapReady s (some d)) {sector cnt : Nat}
    (hin : sector + cnt ≤ s.fs_device.size) (hall : s.free_map.all sector cnt = true) :
    ∃ t, free_map_release sector cnt s = .ok ((), t) ∧ SameOpen s t := by
  obtain ⟨f, -, -, hf, -⟩ := hready.file d rfl
  obtain ⟨saved, u, hsave, honly⟩ := free_map_save_run (hready.mark (b := s.free_map.set sector cnt false) rfl)
  rw [free_map_save_eq (s := { s with free_map := s.free_map.set sector cnt false }) hf] at hsave
  refine ⟨u, ?_, ?_⟩
  · rw [free_map_release, Exec.bind_run (bitmap_check_run hready hin), Exec.bind_run Exec.get_run,
      Exec.bind_run (Exec.ASSERT_run hall _), Exec.bind_run (bitmap_set_multiple_run hready hin false), hf]
    rw [hf] at hsave
    exact Exec.bind_run hsave
  · rw [honly.same]
    exact ⟨rfl, rfl, rfl, honly.asked⟩

/-- A file without a name is not created, wherever there is room for it. -/
theorem filesys_create_nameless (h : Mounted there s) {d : dir} (hopen : dir_open_root s = .ok (some d, t))
    {size : Int} (hnonneg : 0 ≤ size) (hle : size ≤ 2147483647) (hfits : InodeFits s size) :
    ∃ u, filesys_create [] size s = .ok (false, u) := by
  obtain ⟨hopened, hcount, -⟩ := (h.dir_open_root.1 _ _ hopen).2 d rfl
  have hready := hopened.opened.map_ready h.map
  obtain ⟨hmemory, sector, hscan, hroom⟩ := ((inodeFits_iff hopened hcount).mp hfits).2
  obtain ⟨r, u, halloc, -, hsome⟩ := free_map_allocate_run hready.ready 1
  obtain ⟨hoom, hasked, hfound⟩ := (hready.free_map_allocate_asks 1).1 r u halloc
  obtain rfl : r = some sector := (hfound sector).mpr ⟨hscan, (memory_add.mp hmemory).1⟩
  obtain ⟨hin, hfree, honly⟩ := hsome sector rfl
  have hsize : u.fs_device.size = t.fs_device.size := honly.size
  have hmap : u.free_map = t.free_map.set sector 1 true := by rw [honly.same]
  have hmarked : u.free_map.bits sector = true := by simp [hmap, bitmap.set]
  have hready' : MapReady u (disk_inode s FREE_MAP_SECTOR) :=
    (hready.mark (b := t.free_map.set sector 1 true) rfl).only honly
  obtain ⟨created, v, hcreate, -, hmade⟩ := inode_create_run hready'.ready (by omega) hmarked hnonneg hle
  have hcreated : created = true ↔ _ := (hready'.inode_create_asks sector hnonneg).1 created v hcreate
  obtain rfl : created = true := by
    rw [hcreated, hmap]
    refine ⟨hroom, ?_⟩
    have hquestions : map_questions u = map_questions t := by rw [map_questions, map_questions, hsize]
    have hrest : Memory u (1 + map_questions t) ↔
        Memory { t with asked := t.asked + map_questions t } (1 + map_questions t) :=
      memory_congr hoom (hasked sector rfl)
    rw [hquestions, hrest]
    exact (memory_add.mp hmemory).2
  obtain ⟨start, hmade⟩ := hmade rfl
  have hready'' := (hready'.ready.mark (b := u.free_map.set start
      (bytes_to_sectors size) true) rfl).only hmade.only
  have hall : v.free_map.all sector 1 = true := by
    have hmap' : v.free_map = u.free_map.set start (bytes_to_sectors size) true := by rw [hmade.only.same]
    rw [bitmap.all_iff, hmap']
    intro i hi
    obtain rfl : i = 0 := by omega
    simp only [bitmap.set, Nat.add_zero, hmarked]
    split_ifs <;> rfl
  have hin' : sector + 1 ≤ v.fs_device.size := by
    have hsize' : v.fs_device.size = u.fs_device.size := hmade.only.size
    omega
  obtain ⟨w, hrelease, hvw⟩ := free_map_release_run hready'' hin' hall
  have htv := IsTrans.trans _ _ _ ((free_map_allocate_leaves 1).ok _ _ _ halloc)
    ((inode_create_leaves sector size).ok _ _ _ hcreate)
  have hclose := hopened.dir_close (IsTrans.trans _ _ _ htv hvw)
  have hne : sector ≠ 0 := by
    rintro rfl
    have hused := h.disk.owned.used _ h.disk.free_map_there (sector_mem s _)
    have hbit : s.free_map.bits 0 = false := hopened.opened.free_map ▸ hfree 0 Nat.one_pos
    rw [used, Set.mem_ofPred_eq, FREE_MAP_SECTOR, hbit] at hused
    cases hused
  have hadd : dir_add d [] sector v = .ok (false, v) := by
    rw [dir_add, if_pos (.inl rfl)]
    rfl
  have hcreate_in : create_in (some d) [] size t = .ok ((false, sector), v) := by
    rw [create_in, Exec.bind_run halloc]
    simp only [Exec.bind_run hcreate, if_pos, Exec.bind_run hadd]
    rfl
  rw [filesys_create, Exec.bind_run hopen, Exec.bind_run hcreate_in]
  dsimp only
  rw [if_pos ⟨rfl, hne⟩, Exec.bind_run hrelease, Exec.bind_run hclose]
  exact ⟨_, rfl⟩

end Create

/-- The on-disk inode of the free map of `small_disk`. -/
def small_map : inode_disk := { start := 2, length := 4, magic := INODE_MAGIC }

/-- A formatted device of eight sectors, with the free map's file open. -/
def small_disk : State where
  fs_device :=
    { size := 8
      sector := fun k =>
        if k = 0 then small_map.bytes
        else if k = 1 then inode_disk.bytes { start := 3, length := 320, magic := INODE_MAGIC }
        else fun _ => 0 }
  oom := fun _ => false
  asked := 2
  garbage := fun _ => 0
  inodes := fun p => if p = 0 then some (map_inode small_map) else none
  open_inodes := [0]
  files := fun f => if f = 1 then some { inode := 0, pos := 0, deny_write := false } else none
  free_map := { bit_cnt := 8, bits := fun k => decide (k < 4) }
  free_map_file := some 1

theorem small_disk_map : disk_inode small_disk 0 = small_map :=
  inode_disk.of_bytes_bytes (by decide) (by decide) (by decide) (by decide) fun _ _ => rfl

theorem small_disk_root : disk_inode small_disk 1 = { start := 3, length := 320, magic := INODE_MAGIC } :=
  inode_disk.of_bytes_bytes (by decide) (by decide) (by decide) (by decide) fun _ _ => rfl

theorem small_disk_sectors (x : Nat) :
    (x ∈ sectors_of small_disk 0 ↔ x = 0 ∨ x = 2) ∧ (x ∈ sectors_of small_disk 1 ↔ x = 1 ∨ x = 3) := by
  have hmap : bytes_to_sectors 4 = 1 := by decide
  have hroot : bytes_to_sectors 320 = 1 := by decide
  simp only [sectors_of, Set.mem_ofPred_eq, small_disk_map, small_disk_root, inode_disk.Owns,
    small_map, hmap, hroot]
  omega

theorem small_disk_mounted : Mounted {0, 1} small_disk where
  disk := by
    have hunused : ∀ i, dir_entry.in_use (entry small_disk i) = false := by
      intro i
      have hne : 3 + (ENTRY_SIZE * i + 19) / 512 ≠ 1 := by omega
      rw [dir_entry.in_use, entry, ROOT_DIR_SECTOR, small_disk_root, drop, block.content]
      simp [small_disk, hne]
    have hnamed : ∀ k, ¬ Named small_disk k := by
      rintro k ⟨i, -, huse, -⟩
      rw [hunused] at huse
      cases huse
    refine ⟨⟨?_, ?_⟩, ?_, ?_, by simp [FREE_MAP_SECTOR], by simp [ROOT_DIR_SECTOR], fun k hk => absurd hk (hnamed k),
      congrArg inode_disk.length small_disk_root, ?_, fun k hk => absurd hk (hnamed k)⟩
    · rintro k (rfl | rfl) x hx
      · obtain rfl | rfl := (small_disk_sectors x).1.mp hx <;> rfl
      · obtain rfl | rfl := (small_disk_sectors x).2.mp hx <;> rfl
    · rintro k (rfl | rfl) l (rfl | rfl) hkl
      · exact absurd rfl hkl
      · refine Set.disjoint_left.mpr fun x hx hx' => ?_
        have hx := (small_disk_sectors x).1.mp hx
        have hx' := (small_disk_sectors x).2.mp hx'
        omega
      · refine Set.disjoint_left.mpr fun x hx hx' => ?_
        have hx := (small_disk_sectors x).2.mp hx
        have hx' := (small_disk_sectors x).1.mp hx'
        omega
      · exact absurd rfl hkl
    · rintro k (rfl | rfl) x hx
      · obtain rfl | rfl := (small_disk_sectors x).1.mp hx <;> decide
      · obtain rfl | rfl := (small_disk_sectors x).2.mp hx <;> decide
    · rintro k (rfl | rfl)
      · rw [small_disk_map]
        exact fun howns => absurd howns.1 (by decide)
      · rw [small_disk_root]
        exact fun howns => absurd howns.1 (by decide)
    · intro i hi j hj huse
      rw [hunused] at huse
      cases huse
  map := by
    rw [FREE_MAP_SECTOR, small_disk_map]
    refine ⟨⟨rfl, by decide, by rintro ⟨⟩, ?_⟩, by decide⟩
    intro d hd
    obtain rfl := Option.some.inj hd
    exact ⟨1, _, _, rfl, rfl, rfl, rfl, rfl, by decide, by decide, by decide, by decide⟩
  fresh p hp := by
    refine if_neg ?_
    rintro rfl
    exact absurd hp (by decide)
  in_memory p hp := by
    obtain rfl : p = 0 := by simpa [small_disk] using hp
    exact ⟨_, rfl, by decide⟩
  root p hp inode hinode hsector := by
    obtain rfl : p = 0 := by simpa [small_disk] using hp
    obtain rfl := Option.some.inj hinode
    cases hsector

theorem small_disk_fits : InodeFits small_disk 1 :=
  ⟨fun _ _ => rfl, 4, by decide, by decide⟩

/-- The sector for the data of a file without a name stays allocated. -/
theorem filesys_create_leaks : ∃ t, filesys_create [] 1 small_disk = .ok (false, t) ∧
    ¬ Unchanged small_disk t := by
  have hopen : dir_open_root small_disk = .ok (some { inode := 2, pos := 0 }, _) := rfl
  obtain ⟨t, hrun⟩ := filesys_create_nameless small_disk_mounted hopen (by decide) (by decide) small_disk_fits
  have hchanged := (filesys_create_ends small_disk_mounted [] (show (0 : Int) ≤ 1 by decide) (by decide)).1
    false t hrun rfl
  refine ⟨t, hrun, ?_⟩
  rw [hchanged]
  simp [small_disk_fits]

/-- An empty file without a name leaves nothing behind. -/
theorem filesys_create_atomic_empty : ∃ t, filesys_create [] 0 small_disk = .ok (false, t) ∧
    Unchanged small_disk t := by
  have hopen : dir_open_root small_disk = .ok (some { inode := 2, pos := 0 }, _) := rfl
  obtain ⟨t, hrun⟩ := filesys_create_nameless small_disk_mounted hopen
    (show (0 : Int) ≤ 0 by decide) (by decide)
    ⟨fun _ _ => rfl, 4, by decide, by decide⟩
  exact ⟨t, hrun, (filesys_create_atomic_iff small_disk_mounted [] (by decide) (by decide) hrun).mpr (.inl rfl)⟩

end pintos.filesys
