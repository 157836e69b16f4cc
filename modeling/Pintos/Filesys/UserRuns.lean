import Pintos.Filesys.UserCalls

/-!
# What users rely on, whatever the others do

No call panics, no two files share a sector, and what one user writes another reads.
-/

open twos_complement bytes state_error ownership transition

namespace pintos.filesys

variable {s t u : State} {c : UserCall} {a : Answer} {f g : Ptr} {k : Nat} {o : OpenFile}

section Ownership

/-- With no other references, an inode is in memory as long as a file refers to it. -/
theorem Ready.opened_iff (h : Ready s) {p : Ptr} : (∃ inode, s.inodes p = some inode) ↔
    ∃ f file, s.files f = some file ∧ file.inode = p := by
  constructor
  · rintro ⟨inode, hp⟩
    obtain ⟨hpos, -, -⟩ := h.sound.counted.at_inode hp
    have hhandles : 0 < ((table nobody s).handles p).ncard := hpos
    obtain ⟨f, hf⟩ := (Set.ncard_pos (h.sound.counted.finite p)).mp hhandles
    simp only [sharing.Table.handles, table, Set.mem_ofPred_eq, Option.map_map, Option.map_eq_some_iff] at hf
    obtain ⟨file, hf, hinode⟩ := hf
    exact ⟨f, file, hf, hinode⟩
  · rintro ⟨f, file, hf, rfl⟩
    exact h.sound.counted.inode_of_file hf

/-- The files of users are those that are named or open. -/
theorem Ready.mem_users (h : Ready s) : k ∈ Users s ↔ Named s k ∨ ∃ f o, user_file s f = some o ∧
    o.file = k := by
  constructor
  · rintro ⟨hfree | hroot | hnamed | ⟨p, inode, hp, rfl⟩, huser⟩
    · exact absurd hfree huser.1
    · exact absurd hroot huser.2
    · exact .inl hnamed
    · obtain ⟨f, file, hf, rfl⟩ := h.opened_iff.mp ⟨inode, hp⟩
      refine .inr ⟨f, _, user_file_eq_some.mpr ⟨fun hmap => ?_, handle_run hf hp⟩, rfl⟩
      obtain ⟨f', file', i, hf', hfile', -, hi, hsector⟩ := h.sound.map_file
      obtain rfl := Option.some.inj (hmap.symm.trans hf')
      obtain rfl := Option.some.inj (hf.symm.trans hfile')
      obtain rfl := Option.some.inj (hp.symm.trans hi)
      exact huser.1 hsector
  · rintro (hnamed | ⟨f, o, ho, rfl⟩)
    · exact h.sound.named_user hnamed
    · exact h.sound.user_file_user ho

end Ownership

section Small

/-- A device of eight sectors that has been formatted, with memory for everything. -/
theorem small_users : ∃ s, users.Init s ∧ (∀ i, s.oom i = false) ∧
    (∀ i < 16, dir_entry.in_use (entry s i) = false) ∧
    HasRoom s 10 := by
  have hmount : Unmounted { small_device with fs_device := { size := 8, sector := fun _ _ => 1 } } :=
    ⟨fun _ => rfl, fun _ => rfl, rfl, by decide⟩
  obtain ⟨s, hrun⟩ := filesys_init_succeeds hmount.free_map_file (fun _ => rfl) hmount.size_lt
    (by decide : byte_cnt 8 ≠ 0) (by decide : 4 ≤ 8)
  have hformat := filesys_init_mounts hmount.inodes hmount.files hmount.free_map_file hmount.size_lt hrun
  refine ⟨s, ⟨_, hmount, hrun⟩, fun i => congrFun hformat.oom i, hformat.empty, ?_⟩
  have hready := hformat.ready
  have hsize : s.fs_device.size = 8 := hformat.size
  have hmap := hready.sound.map_length
  rw [hsize, show byte_cnt 8 = 4 by decide] at hmap
  have hroot := hready.sound.disk.root_length
  have hone : bytes_to_sectors ((4 : Nat) : Int) = 1 := by decide
  have hone' : bytes_to_sectors 320 = 1 := by decide
  -- Two sectors of the map, and two of the root directory.
  have hfree : ∀ x < 8, x ≠ 0 → x ≠ 1 → x ≠ (disk_inode s 0).start → x ≠ (disk_inode s 1).start →
      s.free_map.bits x = false := by
    intro x hx h0 h1 hm hr
    by_contra hbit
    obtain ⟨k, hk, hown⟩ := hformat.tight x (hsize ▸ hx) (by simpa using hbit)
    have hfixed : k = FREE_MAP_SECTOR ∨ k = ROOT_DIR_SECTOR := by
      by_contra hnot
      obtain hnamed | ⟨f, o, ho, -⟩ := hready.mem_users.mp
        ⟨hk, fun heq => hnot (.inl heq), fun heq => hnot (.inr heq)⟩
      · obtain ⟨i, hi, huse, -⟩ := hnamed
        rw [hformat.empty i hi] at huse
        cases huse
      · obtain ⟨hother, hhandle⟩ := user_file_eq_some.mp ho
        rw [handle_none (hformat.closed f hother)] at hhandle
        cases hhandle
    obtain rfl | rfl := hfixed <;> obtain hown | ⟨hlow, hhigh⟩ := hown
    · exact h0 hown
    · rw [hmap, hone] at hhigh
      rw [FREE_MAP_SECTOR] at hlow hhigh
      omega
    · exact h1 hown
    · rw [hroot, hone'] at hhigh
      rw [ROOT_DIR_SECTOR] at hlow hhigh
      omega
  have hpick : ∀ m r : Nat, (∃ x, 2 ≤ x ∧ x < 5 ∧ x ≠ m ∧ x ≠ r) ∧ ∃ x, 5 ≤ x ∧ x < 8 ∧ x ≠ m ∧ x ≠ r := by
    intro m r
    constructor
    · obtain h2 | h3 | h4 : (2 ≠ m ∧ 2 ≠ r) ∨ (3 ≠ m ∧ 3 ≠ r) ∨ (4 ≠ m ∧ 4 ≠ r) := by omega
      · exact ⟨2, by omega, by omega, h2⟩
      · exact ⟨3, by omega, by omega, h3⟩
      · exact ⟨4, by omega, by omega, h4⟩
    · obtain h5 | h6 | h7 : (5 ≠ m ∧ 5 ≠ r) ∨ (6 ≠ m ∧ 6 ≠ r) ∨ (7 ≠ m ∧ 7 ≠ r) := by omega
      · exact ⟨5, by omega, by omega, h5⟩
      · exact ⟨6, by omega, by omega, h6⟩
      · exact ⟨7, by omega, by omega, h7⟩
  obtain ⟨⟨x, hx, hx', hxm, hxr⟩, y, hy, hy', hym, hyr⟩ := hpick (disk_inode s 0).start (disk_inode s 1).start
  have hxfree := hfree x (by omega) (by omega) (by omega) hxm hxr
  have hyfree := hfree y (by omega) (by omega) (by omega) hym hyr
  have hcnt : s.free_map.bit_cnt = 8 := hready.sound.bit_cnt.trans hsize
  obtain ⟨sector, hscan⟩ := @bitmap.scan_of_group s.free_map x 1 false (by omega) fun i hi => by
    obtain rfl : i = 0 := by omega
    exact hxfree
  refine ⟨sector, hscan, ?_⟩
  rw [show bytes_to_sectors 10 = 1 by decide]
  -- One of the two is still free when the other has been taken.
  obtain ⟨z, hz, hzs, hzfree⟩ : ∃ z < 8, z ≠ sector ∧ s.free_map.bits z = false := by
    by_cases hxs : x = sector
    · exact ⟨y, hy', by omega, hyfree⟩
    · exact ⟨x, by omega, hxs, hxfree⟩
  obtain ⟨next, hnext⟩ := @bitmap.scan_of_group (s.free_map.set sector 1 true) z 1 false
    (show z + 1 ≤ s.free_map.bit_cnt by omega) fun i hi => by
    obtain rfl : i = 0 := by omega
    exact (if_neg (by omega)).trans hzfree
  rw [hnext]
  rfl

end Small

section Sectors

/-- A call that users may make returns, in every state that they reach and with memory running out at any
time. -/
theorem users_never_panic (h : users.Reachable s) (hcall : c.Allowed s) : ∃ a t, c.exec s = .ok (a, t) := by
  obtain ⟨a, t, hrun, -⟩ := returns_iff.mp ((users_ready h).returns hcall)
  exact ⟨a, t, hrun⟩

theorem users_never_panic_small : ∃ s, users.Reachable s ∧
    ∃ a t, (UserCall.filesys_create [97] 10).exec s = .ok (a, t) := by
  obtain ⟨s, hinit, -⟩ := small_users
  exact ⟨s, .init hinit, users_never_panic (.init hinit) ⟨by decide, by decide, by decide⟩⟩

/-- The free map, the root directory and the files that are named or open have sectors of their own, which are on
the device and in use; an inode is in memory once for each such file that is open, and counts its openers. -/
theorem users_own_sectors (h : users.Reachable s) :
    (∀ k, k ∈ There s ↔ k = FREE_MAP_SECTOR ∨ k = ROOT_DIR_SECTOR ∨ Named s k ∨
      ∃ f o, user_file s f = some o ∧ o.file = k) ∧
    (∀ k ∈ There s, ∀ l ∈ There s, ∀ x, x ∈ sectors_of s k → x ∈ sectors_of s l → k = l) ∧
    (∀ k ∈ There s, ∀ x ∈ sectors_of s k, x < s.fs_device.size ∧ s.free_map.bits x = true) ∧
    ∀ p inode, s.inodes p = some inode →
      inode.data = disk_inode s inode.sector ∧
      (∀ q i, s.inodes q = some i → i.sector = inode.sector → q = p) ∧
      0 < inode.open_cnt ∧ inode.open_cnt = {f | ∃ file, s.files f = some file ∧ file.inode = p}.ncard ∧
      inode.deny_write_cnt =
        {f | ∃ file, s.files f = some file ∧ file.inode = p ∧ file.deny_write = true}.ncard := by
  have hready := users_ready h
  have hsound := hready.sound
  refine ⟨fun k => ?_, fun k hk l hl x hx hx' => hsound.disk.owned.owner_unique hk hl hx hx',
    fun k hk x hx => ⟨hsound.disk.in_range k hk x hx, hsound.disk.owned.used k hk hx⟩, fun p inode hp => ?_⟩
  · by_cases huser : UserSector k
    · have hmem := hready.mem_users (k := k)
      rw [Users, Set.mem_ofPred_eq, and_iff_left huser] at hmem
      rw [hmem]
      simp [huser.1, huser.2]
    · have hfixed : k = FREE_MAP_SECTOR ∨ k = ROOT_DIR_SECTOR := by
        by_contra hnot
        exact huser ⟨fun heq => hnot (.inl heq), fun heq => hnot (.inr heq)⟩
      exact ⟨fun _ => hfixed.imp_right .inl, fun _ => hfixed.imp_right .inl⟩
  · obtain ⟨hpos, hopen, hdeny⟩ := hsound.counted.at_inode hp
    refine ⟨hsound.data p inode hp, fun q i hq hsector =>
      hsound.one_inode q p i inode hq hp hsector, ?_, ?_, ?_⟩
    · omega
    · rw [hopen]
      have hset : (table nobody s).handles p = {f | ∃ file, s.files f = some file ∧ file.inode = p} := by
        ext f
        simp [sharing.Table.handles, table]
      rw [sharing.Table.references, hset]
      rfl
    · rw [hdeny]
      have hset : (table nobody s).flagged p =
          {f | ∃ file, s.files f = some file ∧ file.inode = p ∧ file.deny_write = true} := by
        ext f
        simp [sharing.Table.flagged, table]
      rw [sharing.Table.flags, hset]

theorem users_own_sectors_small : ∃ s, users.Reachable s ∧
    ∀ x ∈ sectors_of s FREE_MAP_SECTOR, x ∉ sectors_of s ROOT_DIR_SECTOR := by
  obtain ⟨s, hinit, -⟩ := small_users
  obtain ⟨hthere, hapart, -⟩ := users_own_sectors (.init hinit)
  refine ⟨s, .init hinit, fun x hx hx' => ?_⟩
  exact absurd (hapart _ ((hthere _).mpr (.inl rfl)) _ ((hthere _).mpr (.inr (.inl rfl))) x hx hx') (by decide)

end Sectors

section Contents

/-- The call does not write the file. -/
def UserCall.Spares (s : State) (k : Nat) : UserCall → Prop
  | .file_write f _ _ => ∀ o, user_file s f = some o → o.file ≠ k
  | _ => True

/-- The file stays, and nobody writes it. -/
def Quiet (k : Nat) (s : State) (l : UserCall × Answer) : Prop := k ∈ Users s ∧ l.1.Spares s k

/-- Only writing a file changes it. -/
theorem Outcome.spares (h : Outcome s c a t) (hspares : c.Spares s k) (hs : k ∈ Users s) (ht : k ∈ Users t) :
    Untouched {k} s t := by
  have hboth : {k} ⊆ Users s ∩ Users t := Set.singleton_subset_iff.mpr ⟨hs, ht⟩
  obtain ⟨name, size, l, h⟩ | ⟨name, l, h⟩ | ⟨f, buffer, size, o, rfl, ho, h⟩ | h := h.changes
  · exact fun l hl => h.users l (hboth hl)
  · exact fun l hl => h.users l (hboth hl)
  · rintro l rfl
    exact h.others l ⟨hs, (hspares _ ho).symm⟩
  · exact fun l hl => h.users l (hboth hl)

/-- A file that stays there and that nobody writes is the same after any run. -/
theorem quiet_run (h : users.Reachable s) {ls : List (UserCall × Answer)}
    (hrun : (users.restrict (Quiet k)).Run s ls t) (ht : k ∈ Users t) : Untouched {k} s t := by
  induction hrun with
  | nil => exact Untouched.of_device rfl
  | @cons s s' t l ls hstep tail ih =>
    have hs' : k ∈ Users s' := by
      cases tail with
      | nil => exact ht
      | cons hnext _ => exact hnext.1.1
    have hfirst := ((users_ready h).step hstep.2).spares hstep.1.2 hstep.1.1 hs'
    exact hfirst.trans (ih (h.step hstep.2) ht)

/-- What is written to a file is read from it later, through any open file and after any calls that do not write
it; and besides what was written, what was there before. -/
theorem read_after_write {buffer buffer' b : Bytes} {size size' n m : Int} {v : State}
    {ls : List (UserCall × Answer)} {o' : OpenFile} (h : users.Reachable s)
    (hwrite : users.Step s (.file_write f buffer size, .amount n) t) (ho : user_file s f = some o)
    (hrun : (users.restrict (Quiet o.file)).Run t ls u)
    (hread : users.Step u (.file_read g buffer' size', .data m b) v) (ho' : user_file u g = some o')
    (hfile : o'.file = o.file) :
    (disk_inode u o.file).length = (disk_inode s o.file).length ∧
    ∀ i : Nat, (i : Int) < m → b i = if o.pos ≤ o'.pos + i ∧ o'.pos + i < o.pos + n
      then buffer (o'.pos + i - o.pos).toNat else data s o.file (o'.pos + i).toNat := by
  have hready := users_ready h
  have hreach := h.step hwrite
  have hreach' : users.Reachable u := hreach.run hrun.of_restrict
  have hready' := users_ready hreach'
  have hposition := hready.pos f o ho
  have hposition' := hready'.pos g o' ho'
  have hquiet := quiet_run hreach hrun (hfile ▸ hready'.sound.user_file_user ho')
  have hinode := hquiet.disk_inode_eq rfl
  have hwritten := hready.step hwrite
  have hanswer := hready'.step hread
  cases hwritten with
  | @wrote _ o₁ _ _ n _ ho₁ hdenied hn hdata hw hsound hhandle =>
    obtain rfl := Option.some.inj (ho.symm.trans ho₁)
    cases hanswer with
    | @read _ o₂ _ _ m _ ho₂ hm hr =>
      obtain rfl := Option.some.inj (ho'.symm.trans ho₂)
      refine ⟨by rw [hinode, hw.inode], fun i hi => ?_⟩
      have hin : i < m := Int.ofNat_lt.mp hi
      rw [copy_inside (Nat.zero_le i) (by omega)]
      -- The byte is in the file, which nobody has written since.
      have hbound := hm.le
      have hlength : ((o'.pos.toNat + i : Nat) : Int) < (disk_inode u o.file).length := by
        rw [← hfile]
        simp only [transfer_size] at hbound
        omega
      have hsame : data u o.file (o'.pos.toNat + i) = data t o.file (o'.pos.toNat + i) := by
        rw [data, data, hinode]
        apply hquiet.content_eq rfl (hsound.lies _ (hw.there ▸ (hready.sound.user_file_user ho).1))
        rwa [← hinode]
      rw [hfile, Nat.sub_zero, hsame, hdata, copy]
      have hplace : (o'.pos + i).toNat = o'.pos.toNat + i := by omega
      rw [hplace]
      split_ifs with hnat hint hint
      · congr 1
        omega
      · omega
      · omega
      · rfl

/-- One file of ten bytes, open twice. -/
theorem small_file : ∃ s f g o, users.Reachable s ∧ (∀ i, s.oom i = false) ∧ f ≠ g ∧ user_file s f = some o ∧
    user_file s g = some o ∧ o.pos = 0 ∧ (disk_inode s o.file).length = 10 ∧ ¬ Denied s o.file := by
  obtain ⟨s, hinit, hmem, hempty, hroom⟩ := small_users
  have hreach : users.Reachable s := .init hinit
  have hcall : (UserCall.filesys_create [97] 10).Allowed s := ⟨by decide, by decide, by decide⟩
  obtain ⟨a, t, hrun, houtcome⟩ := returns_iff.mp ((users_ready hreach).returns hcall)
  have hreach' := hreach.step (l := (_, a)) ⟨hcall, hrun⟩
  cases houtcome with
  | not_created h hwhy =>
    obtain hvalid | ⟨k, i, hi, huse, -⟩ | hall | hfull := hwhy.resolve_left (not_outOfMemory hmem)
    · exact absurd ⟨by decide, by decide, by decide⟩ hvalid
    · rw [hempty i hi] at huse
      cases huse
    · have huse := hall 0 (by decide)
      rw [hempty 0 (by decide)] at huse
      cases huse
    · exact absurd hroom hfull
  | created k h =>
    obtain ⟨i, hi, huse, hspells, hsector, hother, -⟩ := h.entry
    have honly : ∀ l, Names t [97] l → l = k := by
      rintro l ⟨j, hj, huse', -, rfl⟩
      by_cases hji : j = i
      · rw [hji, hsector]
      · rw [in_use_congr (hother j hj hji), hempty j hj] at huse'
        cases huse'
    have hnamed : Names t [97] k := ⟨i, hi, huse, hspells, hsector⟩
    -- The file is opened, once and again.
    have hopen : ∀ u, users.Reachable u → (∀ i, u.oom i = false) → (∀ l, Names u [97] l ↔ l = k) →
        ∃ f v, users.Reachable v ∧ u.free_map_file ≠ some f ∧ handle u f = none ∧
          Handled nobody f (some { file := k, pos := 0, deny_write := false }) u v := by
      intro u hu hmem' hnames
      have hcall' : (UserCall.filesys_open [97]).Allowed u := show 0 ∉ [97] by decide
      obtain ⟨b, v, hrun', houtcome'⟩ := returns_iff.mp ((users_ready hu).returns hcall')
      have hv := hu.step (l := (_, b)) ⟨hcall', hrun'⟩
      cases houtcome' with
      | not_opened _ hwhy => exact absurd ((hnames k).mpr rfl) (hwhy.resolve_left (not_outOfMemory hmem') k)
      | @opened _ f l _ hname hmap hnew hhandled =>
        obtain rfl := (hnames l).mp hname
        exact ⟨f, v, hv, hmap, hnew, hhandled⟩
    have hmem' : ∀ i, t.oom i = false := fun i => (congrFun h.oom i).trans (hmem i)
    obtain ⟨f, u, hu, hmap, -, hfirst⟩ := hopen t hreach' hmem' fun l => ⟨honly l, fun hl => hl ▸ hnamed⟩
    have hmem'' : ∀ i, u.oom i = false := fun i => (congrFun hfirst.oom i).trans (hmem' i)
    obtain ⟨g, v, hv, hmap', hnew, hsecond⟩ := hopen u hu hmem'' fun l =>
      (names_congr hfirst.entries).trans ⟨honly l, fun hl => hl ▸ hnamed⟩
    have hne : f ≠ g := by
      rintro rfl
      rw [hfirst.handle, Function.update_self] at hnew
      cases hnew
    have huser : k ∈ Users t := h.user
    have huser' : k ∈ Users u := ⟨hfirst.there ▸ huser.1, huser.2⟩
    have huser'' : k ∈ Users v := ⟨hsecond.there ▸ huser'.1, huser.2⟩
    refine ⟨v, f, g, { file := k, pos := 0, deny_write := false }, hv,
      fun i => (congrFun hsecond.oom i).trans (hmem'' i), hne, ?_, ?_, rfl, ?_, ?_⟩
    · rw [user_file_eq_some, hsecond.map_file, hfirst.map_file, hsecond.handle, Function.update_of_ne hne,
        hfirst.handle, Function.update_self]
      exact ⟨hmap, rfl⟩
    · rw [user_file_eq_some, hsecond.map_file, hsecond.handle, Function.update_self]
      exact ⟨hmap', rfl⟩
    · rw [hsecond.users.disk_inode_eq ⟨huser', huser''⟩, hfirst.users.disk_inode_eq ⟨huser, huser'⟩]
      exact h.length
    · rintro ⟨x, o, ho, hfile, hdeny⟩
      rw [hsecond.handle, hfirst.handle, h.handle] at ho
      by_cases hxg : x = g
      · rw [hxg, Function.update_self] at ho
        obtain rfl := Option.some.inj ho
        cases hdeny
      · rw [Function.update_of_ne hxg] at ho
        by_cases hxf : x = f
        · rw [hxf, Function.update_self] at ho
          obtain rfl := Option.some.inj ho
          cases hdeny
        · rw [Function.update_of_ne hxf] at ho
          obtain ⟨file, inode, -, hp, rfl⟩ := handle_eq_some ho
          have hsector : inode.sector = k := hfile
          exact h.fresh (hsector ▸ opened_there hp)

/-- Three bytes that one user writes, and another reads. -/
theorem read_after_write_small : ∃ s f g t v b, users.Reachable s ∧
    users.Step s (.file_write f (fun i => BitVec.ofNat 8 (i + 65)) 3, .amount 3) t ∧
    users.Step t (.file_read g (fun _ => 0) 20, .data 10 b) v ∧ b 0 = 65 ∧ b 2 = 67 := by
  obtain ⟨s, f, g, o, hreach, hmem, hne, hf, hg, hpos, hlength, hdenied⟩ := small_file
  have hready := users_ready hreach
  have hopen : ∀ {u : State} {h : Ptr}, user_file u h = some o →
      (user_file u h).isSome := fun heq => by rw [heq]; rfl
  have hwriting : (UserCall.file_write f (fun i => BitVec.ofNat 8 (i + 65)) 3).Allowed s :=
      ⟨hopen hf, by decide⟩
  obtain ⟨a, t, hwrite, houtcome⟩ := returns_iff.mp (hready.returns hwriting)
  have hready' := houtcome.ready hready
  have hstep : users.Step s (.file_write f (fun i => BitVec.ofNat 8 (i + 65)) 3, a) t := ⟨hwriting, hwrite⟩
  cases houtcome with
  | @wrote _ o₁ _ _ n _ ho₁ _ hn _ hw _ hhandle =>
    obtain rfl := Option.some.inj (hf.symm.trans ho₁)
    have hcount := (hn hdenied).resolve_right fun hshort => not_outOfMemory hmem hshort.2.2
    rw [hlength, hpos] at hcount
    obtain rfl : n = 3 := hcount
    have hg' : user_file t g = some o := by
      rw [user_file_update hw.map_file (user_file_eq_some.mp hf).1 hhandle, Function.update_of_ne hne.symm, hg]
    have hreading : (UserCall.file_read g (fun _ => 0) 20).Allowed t := ⟨hopen hg', by decide⟩
    obtain ⟨a', v, hread, houtcome'⟩ := returns_iff.mp (hready'.returns hreading)
    have hstep' : users.Step t (.file_read g (fun _ => 0) 20, a') v := ⟨hreading, hread⟩
    cases houtcome' with
    | @read _ o₂ _ _ m _ ho₂ hm _ =>
      obtain rfl := Option.some.inj (hg'.symm.trans ho₂)
      have hcount' := hm.resolve_right fun hshort => not_outOfMemory (hw.oom ▸ hmem) hshort.2.2
      rw [hw.inode, hlength, hpos] at hcount'
      obtain rfl : m = 10 := hcount'
      obtain ⟨-, hbytes⟩ := read_after_write hreach hstep hf (.nil t) hstep' hg' rfl
      refine ⟨s, f, g, t, v, _, hreach, hstep, hstep', (hbytes 0 (by decide)).trans ?_,
        (hbytes 2 (by decide)).trans ?_⟩
      · rw [hpos]
        rfl
      · rw [hpos]
        rfl

end Contents

end pintos.filesys
