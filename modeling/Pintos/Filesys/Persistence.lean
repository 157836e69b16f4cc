import Pintos.Filesys.FreeMapFile

/-!
# The free map outlives its file

After each call that changes the free map its file has the same bits, so that the map is
the same when the file has been closed and opened again.
-/

open twos_complement bytes state_error

namespace pintos.filesys

/-- A call that changes the free map. -/
inductive Call where
  | allocate (cnt : Nat)
  | release (sector cnt : Nat)
  deriving DecidableEq, Repr

def Call.exec : Call → Fs Unit
  | allocate cnt => do
    let _ ← free_map_allocate cnt
    return ()
  | release sector cnt => free_map_release sector cnt

def calls : List Call → Fs Unit
  | [] => return ()
  | c :: cs => do
    c.exec
    calls cs

/-- The `bitmap_write` of the call succeeds. -/
def Call.Saved (s : State) : Call → Prop
  | allocate cnt => ∀ start f, s.free_map.scan 0 cnt false = some start → s.free_map_file = some f →
      ∃ t, bitmap_write f { s with free_map := s.free_map.set start cnt true } = .ok (true, t)
  | release sector cnt => ∀ f, s.free_map_file = some f →
      ∃ t, bitmap_write f { s with free_map := s.free_map.set sector cnt false } = .ok (true, t)

/-- So does each one of a sequence. -/
def AllSaved (s : State) : List Call → Prop
  | [] => True
  | c :: cs => c.Saved s ∧ ∀ t, c.exec s = .ok ((), t) → AllSaved t cs

section Calls

variable {s t : State} {d : inode_disk} {f p : Ptr}

/-- The check of a range changes nothing. -/
theorem bitmap_check_eq_ok {start cnt : Nat} (hrun : bitmap_check start cnt s = .ok ((), t)) : t = s := by
  rw [bitmap_check, Exec.bind_run Exec.get_run, Exec.ASSERT_bind_eq_ok] at hrun
  exact (Exec.ASSERT_eq_ok.mp hrun.2).2

/-- An allocation in turn: the sectors that it finds, and whether the map is written. -/
theorem MapFile.free_map_allocate (h : MapFile s d f p) (htail : TailClear s) (cnt : Nat) :
    ∃ r t, free_map_allocate cnt s = .ok (r, t) ∧ MapFile t d f p ∧ TailClear t ∧ t.oom = s.oom ∧
      (r = none → t.free_map = s.free_map) ∧ ((Call.allocate cnt).Saved s → Stored s d → Stored t d) := by
  cases hscan : s.free_map.scan 0 cnt false with
  | none =>
    refine ⟨none, s, ?_, h, htail, rfl, fun _ => rfl, fun _ hstored => hstored⟩
    have hflip : bitmap_scan_and_flip 0 cnt false s = .ok (none, s) := by
      rw [bitmap_scan_and_flip, Exec.bind_run Exec.get_run]
      simp only [hscan]
      rfl
    rw [filesys.free_map_allocate, Exec.bind_run hflip]
    rfl
  | some start =>
    obtain ⟨hfits, hfree⟩ := bitmap.scan_eq_some hscan
    rw [h.bit_cnt] at hfits
    have hset := bitmap_set_multiple_run h.ready hfits true
    have hflip : bitmap_scan_and_flip 0 cnt false s =
        .ok (some start, { s with free_map := s.free_map.set start cnt true }) := by
      rw [bitmap_scan_and_flip, Exec.bind_run Exec.get_run]
      simp only [hscan]
      exact Exec.bind_run hset
    have hmarked := h.mark start cnt true
    obtain ⟨saved, t, hwrite, hfile, honly, hstored, -⟩ := hmarked.bitmap_write_run
    have hsave := (free_map_save_eq hmarked.free_map_file).trans hwrite
    have hsaved : (Call.allocate cnt).Saved s → saved = true := by
      intro hall
      obtain ⟨t', htrue⟩ := hall start f hscan h.free_map_file
      exact (Exec.ok_inj hwrite htrue).1
    have hmap : t.free_map = s.free_map.set start cnt true := by rw [honly.same]
    rw [filesys.free_map_allocate, Exec.bind_run hflip]
    simp only [Exec.bind_run hsave]
    cases saved with
    | true =>
      refine ⟨some start, t, rfl, hfile, ?_, by rw [honly.same], by simp, fun _ _ => hstored rfl⟩
      intro i hi
      rw [honly.size] at hi
      rw [hmap]
      exact (if_neg (show ¬ (start ≤ i ∧ i < start + cnt) by simp only at hi; omega)).trans (htail i hi)
    | false =>
      -- The map could not be written: the sectors are given back.
      have hback := bitmap_set_multiple_run hfile.ready (honly.size ▸ hfits) false
      have hsame : t.free_map.set start cnt false = s.free_map := by
        rw [hmap]
        exact bitmap.set_set hfree true
      rw [if_neg Bool.false_ne_true, Exec.bind_run hback]
      refine ⟨none, _, rfl, hfile.mark start cnt false, ?_, by rw [honly.same], fun _ => hsame,
        fun hall => absurd (hsaved hall) (by simp)⟩
      intro i hi
      simp only [hsame]
      rw [honly.size] at hi
      exact htail i hi

/-- A release that does not panic. -/
theorem MapFile.free_map_release (h : MapFile s d f p) (htail : TailClear s) {sector cnt : Nat}
    (hrun : free_map_release sector cnt s = .ok ((), t)) :
    MapFile t d f p ∧ TailClear t ∧ ((Call.release sector cnt).Saved s → Stored t d) := by
  rw [filesys.free_map_release, Exec.bind_eq_ok] at hrun
  obtain ⟨⟨⟩, s₁, hcheck, hrun⟩ := hrun
  obtain rfl := bitmap_check_eq_ok hcheck
  rw [Exec.bind_run Exec.get_run, Exec.ASSERT_bind_eq_ok, Exec.bind_eq_ok] at hrun
  obtain ⟨-, ⟨⟩, s₂, hset, hrun⟩ := hrun
  rw [bitmap_set_multiple, Exec.bind_run hcheck] at hset
  obtain ⟨-, rfl⟩ := Exec.ok_inj rfl hset
  simp only [h.free_map_file, Exec.bind_eq_ok] at hrun
  obtain ⟨saved, s₃, hwrite, hret⟩ := hrun
  obtain ⟨-, rfl⟩ := Exec.ok_inj rfl hret
  obtain ⟨b, t, hwrite', hfile, honly, hstored, -⟩ := (h.mark sector cnt false).bitmap_write_run
  have hwritten := hwrite'
  simp only [h.free_map_file] at hwritten
  obtain ⟨rfl, rfl⟩ := Exec.ok_inj hwritten hwrite
  refine ⟨hfile, ?_, ?_⟩
  · intro i hi
    rw [honly.size] at hi
    rw [honly.same]
    simp only [bitmap.set]
    split_ifs
    · rfl
    · exact htail i hi
  · intro hsaved
    obtain ⟨t', htrue⟩ := hsaved f h.free_map_file
    exact hstored (Exec.ok_inj hwrite' htrue).1

/-- What one call keeps. -/
theorem MapFile.call (h : MapFile s d f p) (htail : TailClear s) {c : Call} (hrun : c.exec s = .ok ((), t)) :
    MapFile t d f p ∧ TailClear t ∧ (c.Saved s → Stored s d → Stored t d) := by
  cases c with
  | allocate cnt =>
    obtain ⟨r, t', halloc, hfile, htail', -, -, hstored⟩ := h.free_map_allocate htail cnt
    rw [Call.exec, Exec.bind_run halloc] at hrun
    obtain ⟨-, rfl⟩ := Exec.ok_inj rfl hrun
    exact ⟨hfile, htail', hstored⟩
  | release sector cnt =>
    obtain ⟨hfile, htail', hstored⟩ := h.free_map_release htail hrun
    exact ⟨hfile, htail', fun hsaved _ => hstored hsaved⟩

/-- What a sequence of calls keeps. -/
theorem MapFile.calls (h : MapFile s d f p) (htail : TailClear s) {cs : List Call}
    (hrun : calls cs s = .ok ((), t)) :
    MapFile t d f p ∧ TailClear t ∧ (AllSaved s cs → Stored s d → Stored t d) := by
  induction cs generalizing s with
  | nil =>
    obtain ⟨-, rfl⟩ := Exec.ok_inj rfl hrun
    exact ⟨h, htail, fun _ hstored => hstored⟩
  | cons c cs ih =>
    rw [filesys.calls, Exec.bind_eq_ok] at hrun
    obtain ⟨⟨⟩, u, hcall, hrest⟩ := hrun
    obtain ⟨hfile, htail', hstored⟩ := h.call htail hcall
    obtain ⟨hfile', htail'', hstored'⟩ := ih hfile htail' hrest
    exact ⟨hfile', htail'', fun hsaved hs => hstored' (hsaved.2 u hcall) (hstored hsaved.1 hs)⟩

end Calls

section Reopen

variable {s t : State} {d : inode_disk} {f p : Ptr}

/-- Nothing is open, and the free map's file is on the device. -/
theorem free_map_open_run (h : MapInode s d) (hclosed : s.open_inodes = []) :
    (∀ t, free_map_open s = .ok ((), t) → (∃ f p, MapFile t d f p) ∧ TailClear t ∧ Stored t d ∧
      t.fs_device = s.fs_device ∧ t.oom = s.oom) ∧
    ((∀ i, s.oom i = false) → ∃ t, free_map_open s = .ok ((), t)) := by
  obtain ⟨r, u, f, v, hinode, hfile, hcases⟩ := open_map_file h hclosed
  simp only [FREE_MAP_SECTOR] at hinode
  rw [free_map_open, Exec.bind_run hinode, Exec.bind_run hfile, Exec.bind_run (Exec.modify_run _)]
  obtain ⟨rfl, i, hi⟩ | ⟨rfl, rfl⟩ := hcases
  · refine ⟨nofun, fun hmem => ?_⟩
    rw [hmem] at hi
    contradiction
  · obtain ⟨b, t, hread, hmap, hdevice, hoom, htail, hstored, hmem⟩ := (h.opened hclosed).bitmap_read_run
    dsimp only
    rw [Exec.bind_run hread]
    cases b with
    | false =>
      refine ⟨nofun, fun hall => ?_⟩
      exact nomatch hmem hall
    | true =>
      refine ⟨?_, fun _ => ⟨t, rfl⟩⟩
      intro t' hrun
      obtain ⟨-, rfl⟩ := Exec.ok_inj rfl hrun
      exact ⟨⟨_, _, hmap⟩, htail, hstored rfl, hdevice, hoom⟩

theorem not_outOfMemory (hmem : ∀ i, s.oom i = false) : ¬ OutOfMemory s := by
  rintro ⟨i, hi⟩
  exact Bool.false_ne_true ((hmem i).symm.trans hi)

/-- A bitmap is created where memory allows and it has elements. -/
theorem bitmap_create_run (bit_cnt : Nat) (s : State) :
    ∃ r asked, bitmap_create bit_cnt s = .ok (r, { s with asked := asked }) ∧
      (∀ b, r = some b → b.bit_cnt = bit_cnt ∧ (bit_cnt = 0 ∨ byte_cnt bit_cnt ≠ 0) ∧ ∀ i < bit_cnt,
      b.bits i = false) ∧
      ((∀ i, s.oom i = false) → byte_cnt bit_cnt ≠ 0 → r ≠ none) := by
  obtain ⟨m, asked, hmalloc, -, hnone⟩ := malloc_run s
  rw [bitmap_create, Exec.bind_run hmalloc]
  cases m with
  | none => exact ⟨none, asked, rfl, nofun, fun hmem => absurd (hnone rfl) (not_outOfMemory hmem)⟩
  | some m =>
    dsimp only
    by_cases hzero : byte_cnt bit_cnt = 0
    · rw [malloc_bytes, if_pos hzero, Exec.bind_run (Exec.pure_run _)]
      by_cases hcnt : bit_cnt = 0
      · rw [if_pos (Or.inr hcnt)]
        refine ⟨_, asked, rfl, ?_, fun _ hne => absurd hzero hne⟩
        intro b hb
        rw [← Option.some.inj hb]
        exact ⟨rfl, .inl hcnt, fun i hi => if_pos hi⟩
      · rw [if_neg (by simp [hcnt])]
        exact ⟨none, asked, rfl, nofun, fun _ hne => absurd hzero hne⟩
    · obtain ⟨bits, asked', hbits, -, hout⟩ := malloc_run { s with asked := asked }
      rw [malloc_bytes, if_neg hzero, Exec.bind_run hbits]
      cases bits with
      | none =>
        have hcnt : bit_cnt ≠ 0 := by
          rintro rfl
          exact hzero rfl
        rw [if_neg (by simp [hcnt])]
        exact ⟨none, asked', rfl, nofun, fun hmem => absurd (hout rfl) (not_outOfMemory hmem)⟩
      | some bits =>
        rw [if_pos (show (some bits).isSome = true ∨ bit_cnt = 0 from .inl rfl)]
        refine ⟨_, asked', rfl, ?_, fun _ _ => nofun⟩
        intro b hb
        rw [← Option.some.inj hb]
        exact ⟨rfl, .inr hzero, fun i hi => if_pos hi⟩

/-- A map with the first two bits set and the others clear. -/
theorem free_map_init_run (s : State) :
    (∀ t, free_map_init s = .ok ((), t) → ∃ asked b, t = { s with asked := asked, free_map := b } ∧
      b.bit_cnt = s.fs_device.size ∧ b.bits FREE_MAP_SECTOR = true ∧ b.bits ROOT_DIR_SECTOR = true ∧
      byte_cnt s.fs_device.size ≠ 0 ∧ ∀ i, 2 ≤ i → i < s.fs_device.size → b.bits i = false) ∧
    ((∀ i, s.oom i = false) → byte_cnt s.fs_device.size ≠ 0 → ∃ t, free_map_init s = .ok ((), t)) := by
  obtain ⟨r, asked, hcreate, hsome, hmem⟩ := bitmap_create_run s.fs_device.size s
  rw [free_map_init, Exec.bind_run Exec.get_run, Exec.bind_run hcreate]
  cases r with
  | none => exact ⟨nofun, fun hall hne => absurd rfl (hmem hall hne)⟩
  | some b =>
    obtain ⟨hcnt, hroom, hclear⟩ := hsome b rfl
    dsimp only
    by_cases hzero : b.bit_cnt ≠ 0
    · rw [Exec.bind_run (Exec.ASSERT_run hzero _)]
      refine ⟨?_, fun _ _ => ⟨_, rfl⟩⟩
      intro t hrun
      obtain ⟨-, rfl⟩ := Exec.ok_inj rfl hrun
      refine ⟨asked, _, rfl, hcnt, rfl, rfl, hroom.resolve_left fun h => hzero (hcnt.trans h), ?_⟩
      intro i hlow hi
      have hroot : i ≠ ROOT_DIR_SECTOR := by
        rw [ROOT_DIR_SECTOR]
        omega
      have hmap : i ≠ FREE_MAP_SECTOR := by
        rw [FREE_MAP_SECTOR]
        omega
      exact (if_neg hroot).trans ((if_neg hmap).trans (hclear i hi))
    · refine ⟨?_, ?_⟩
      · intro t hrun
        rw [Exec.ASSERT_bind_eq_ok] at hrun
        exact absurd hrun.1 hzero
      · intro _ hne
        rw [← hcnt, not_not.mp hzero] at hne
        exact absurd rfl hne

/-- `free_map_close`, `free_map_init` and `free_map_open` in turn. -/
def reopen : Fs Unit := do
  free_map_close
  free_map_init
  free_map_open

/-- Maps with the same bits in the same file are the same. -/
theorem Stored.free_map_eq (hs : MapInode s d) (ht : MapInode t d) (hdevice : t.fs_device = s.fs_device)
    (hstored : Stored s d) (hstored' : Stored t d) (htail : TailClear s) (htail' : TailClear t) :
    t.free_map = s.free_map := by
  have hcnt : t.free_map.bit_cnt = s.free_map.bit_cnt := by
    rw [ht.bit_cnt, hs.bit_cnt, hdevice]
  have hbits : t.free_map.bits = s.free_map.bits := by
    funext i
    by_cases hi : i < s.fs_device.size
    · rw [← hstored i hi, ← hstored' i (hdevice ▸ hi), hdevice]
    · rw [htail i (by omega), htail' i (by rw [hdevice]; omega)]
  cases hmap : t.free_map
  cases hmap' : s.free_map
  rw [hmap, hmap'] at hcnt hbits
  exact congrArg₂ bitmap.mk hcnt hbits

/-- The inode of the map when its file has been closed and the map created anew. -/
theorem MapFile.closed (h : MapFile s d f p) : MapInode { s with
    open_inodes := []
    inodes := fun q => if q = p then none else s.inodes q
    files := fun g => if g = f then none else s.files g } d :=
  ⟨h.bit_cnt, h.disk, h.on_device, h.apart, h.length, h.room⟩

/-- The map that is read back is the one that was there. -/
theorem MapFile.reopen (h : MapFile s d f p) (htail : TailClear s) (hstored : Stored s d) :
    (∀ t, reopen s = .ok ((), t) → t.free_map = s.free_map) ∧
    ((∀ i, s.oom i = false) → ∃ t, reopen s = .ok ((), t)) := by
  rw [filesys.reopen, Exec.bind_run h.free_map_close]
  obtain ⟨hinit, hmem⟩ := free_map_init_run { s with
    open_inodes := []
    inodes := fun q => if q = p then none else s.inodes q
    files := fun g => if g = f then none else s.files g }
  have hinode : ∀ (asked : Nat) (b : bitmap), b.bit_cnt = s.fs_device.size → MapInode { s with
      open_inodes := []
      inodes := fun q => if q = p then none else s.inodes q
      files := fun g => if g = f then none else s.files g
      asked := asked
      free_map := b } d :=
    fun _ _ hcnt => { h.closed with bit_cnt := hcnt, disk := h.disk, on_device := h.on_device }
  refine ⟨?_, ?_⟩
  · intro t hrun
    rw [Exec.bind_eq_ok] at hrun
    obtain ⟨⟨⟩, u, hrun', hrun⟩ := hrun
    obtain ⟨asked, b, rfl, hcnt, -⟩ := hinit u hrun'
    obtain ⟨⟨f', p', hmap⟩, htail', hstored', hdevice, -⟩ :=
      (free_map_open_run (hinode asked b hcnt) rfl).1 t hrun
    exact Stored.free_map_eq h.toMapInode hmap.toMapInode hdevice hstored hstored' htail htail'
  · intro hall
    obtain ⟨u, hrun'⟩ := hmem hall h.room
    obtain ⟨asked, b, rfl, hcnt, -⟩ := hinit u hrun'
    rw [Exec.bind_run hrun']
    exact (free_map_open_run (hinode asked b hcnt) rfl).2 hall

end Reopen

end pintos.filesys
