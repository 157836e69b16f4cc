import Pintos.Filesys.Transfers
import Pintos.Filesys.Inode

/-!
# Creating an inode

What the functions that `inode_create` calls leave in the free map and on the
device: the sectors that are allocated were free, and hold zeros afterwards.
-/

open twos_complement bytes state_error

namespace pintos.filesys

/-- Only sectors in `S` and the answers of `malloc` used up tell the states apart. -/
structure OnlyDevice (S : Nat → Prop) (s s' : State) : Prop where
  same : s' = { s with fs_device := s'.fs_device, asked := s'.asked }
  asked : s.asked ≤ s'.asked
  size : s'.fs_device.size = s.fs_device.size
  sector : ∀ k, ¬ S k → s'.fs_device.sector k = s.fs_device.sector k

namespace OnlyDevice

variable {S : Nat → Prop} {s t u : State}

theorem refl (S : Nat → Prop) (s : State) : OnlyDevice S s s :=
  ⟨rfl, Nat.le_refl _, rfl, fun _ _ => rfl⟩

theorem trans (h : OnlyDevice S s t) (h' : OnlyDevice S t u) : OnlyDevice S s u where
  same := by rw [h'.same, h.same]
  asked := h.asked.trans h'.asked
  size := h'.size.trans h.size
  sector k hk := (h'.sector k hk).trans (h.sector k hk)

theorem mono {S' : Nat → Prop} (h : OnlyDevice S s t) (hS : ∀ k, S k → S' k) : OnlyDevice S' s t :=
  ⟨h.same, h.asked, h.size, fun k hk => h.sector k fun hk' => hk (hS k hk')⟩

end OnlyDevice

theorem malloc_run (s : State) : ∃ r asked, malloc s = .ok (r, { s with asked := asked }) ∧ s.asked ≤ asked ∧
    (r = none → OutOfMemory s) := by
  refine ⟨_, s.asked + 1, rfl, Nat.le_succ _, ?_⟩
  cases hoom : s.oom s.asked with
  | true => exact fun _ => ⟨_, hoom⟩
  | false => simp

/-- The device sectors that an inode's data takes up. -/
def inode_disk.Owns (d : inode_disk) (k : Nat) : Prop := d.start ≤ k ∧ k < d.start + bytes_to_sectors d.length

/-- As many sectors are allocated as the bytes fill. Next to the largest length,
where rounding up overflows, it is more than that. -/
theorem le_bytes_to_sectors {length : Int} (hnonneg : 0 ≤ length) (hle : length ≤ 2147483647) :
    (length.toNat + 511) / 512 ≤ bytes_to_sectors length := by
  have hsum : int32 (int32 (length + 512) - 1) = int32 (length + 511) := by
    by_cases hfit : length ≤ 2147483135
    · rw [int32_of_range (x := length + 512) (by omega) (by omega)]
      congr 1
      omega
    · rw [int32_of_overflow (x := length + 512) (by omega) (by omega)]
      by_cases hlast : length = 2147483136
      · subst hlast
        decide
      · rw [int32_of_overflow (x := length + 511) (by omega) (by omega)]
        apply (int32_of_range ?_ ?_).trans <;> omega
  rw [bytes_to_sectors, SECTOR_SIZE, hsum]
  by_cases hfit : length ≤ 2147483136
  · rw [int32_of_range (x := length + 511) (by omega) (by omega), Int.tdiv_eq_ediv_of_nonneg (by omega), uint32]
    omega
  · rw [int32_of_overflow (x := length + 511) (by omega) (by omega), uint32]
    have hneg : (length + 511 - 4294967296).tdiv 512 = -((4294967296 - (length + 511)) / 512) := by
      rw [← neg_sub, Int.neg_tdiv, Int.tdiv_eq_ediv_of_nonneg (by omega)]
    rw [hneg]
    omega

/-- The free map covers the device, and its file can be written. `fm` is the inode
of that file, if there is one yet. -/
structure FreeMapReady (s : State) (fm : Option inode_disk) : Prop where
  bit_cnt : s.free_map.bit_cnt = s.fs_device.size
  size_lt : s.fs_device.size < 2 ^ 32
  absent : fm = none → s.free_map_file = none
  file : ∀ d, fm = some d → ∃ f file inode, s.free_map_file = some f ∧ s.files f = some file ∧
    s.inodes file.inode = some inode ∧ inode.deny_write_cnt = 0 ∧ inode.data = d ∧ OnDevice s.fs_device d

/-- The sectors that hold the free map's file. -/
def MapSector (fm : Option inode_disk) (k : Nat) : Prop := ∃ d, fm = some d ∧ d.Owns k

section FreeMap

variable {s : State} {fm : Option inode_disk}

/-- Bytes of a file are in sectors that it owns. -/
theorem overwrite_only {d : inode_disk} (hon : OnDevice s.fs_device d) (buffer : Bytes) {offset n : Nat}
    {asked : Nat} (hasked : s.asked ≤ asked) (hn : ((offset + n : Nat) : Int) ≤ d.length) :
    OnlyDevice d.Owns s { s with
      fs_device := s.fs_device.overwrite (512 * d.start + offset) buffer n
      asked := asked } where
  same := rfl
  asked := hasked
  size := rfl
  sector k hk := by
    funext o
    apply block.overwrite_outside
    have hle := le_bytes_to_sectors hon.length_nonneg hon.length_le
    simp only [inode_disk.Owns] at hk
    omega

theorem Stopped.le {offset n full : Nat} (h : Stopped s offset n full) : n ≤ full := by
  obtain rfl | ⟨hless, -, -⟩ := h <;> omega

/-- The free map's file is overwritten with the map, as far as memory allows. -/
theorem bitmap_write_run {d : inode_disk} {f : Ptr} (hready : FreeMapReady s (some d))
    (hf : s.free_map_file = some f) :
    ∃ (n : Nat) (asked : Nat), bitmap_write f s =
        .ok (decide ((n : Int) = int32 (byte_cnt s.free_map.bit_cnt)), { s with
          fs_device := s.fs_device.overwrite (512 * d.start) s.free_map.bytes n
          asked := asked }) ∧ s.asked ≤ asked ∧ (n : Int) ≤ d.length := by
  obtain ⟨f', file, inode, hfile, hstruct, hinode, hdeny, rfl, hon⟩ := hready.file d rfl
  obtain rfl : f = f' := Option.some.inj (hf.symm.trans hfile)
  have hsize := (int32_range (byte_cnt s.free_map.bit_cnt)).2
  obtain ⟨n, asked, hrun, hasked, hstop⟩ := inode_write_at_run hinode hdeny hon s.free_map.bytes
    (show 0 ≤ 2147483647 by omega) hsize
  have hderef : deref_file f s = .ok (file, s) := by simp only [deref_file, hstruct]
  refine ⟨n, asked, ?_, hasked, ?_⟩
  · rw [bitmap_write, Exec.bind_run Exec.get_run]
    have hwrite : file_write_at f s.free_map.bytes (int32 (byte_cnt s.free_map.bit_cnt)) 0 s =
        inode_write_at file.inode s.free_map.bytes (int32 (byte_cnt s.free_map.bit_cnt)) 0 s := by
      rw [file_write_at, Exec.bind_run hderef]
    rw [Exec.bind_run (hwrite.trans hrun)]
    rfl
  · have hnonneg := hon.length_nonneg
    have hle := hstop.le
    simp only [transfer_size] at hle
    omega

theorem bitmap_check_run {start cnt : Nat} (hready : FreeMapReady s fm) (h : start + cnt ≤ s.fs_device.size) :
    bitmap_check start cnt s = .ok ((), s) := by
  have hcnt := hready.bit_cnt
  have hlt := hready.size_lt
  have hwrap : uint32 (start + cnt) = start + cnt := by
    rw [uint32]
    omega
  have hstart : start ≤ s.free_map.bit_cnt := by omega
  have hend : uint32 (start + cnt) ≤ s.free_map.bit_cnt := by omega
  rw [bitmap_check, Exec.bind_run Exec.get_run, Exec.bind_run (Exec.ASSERT_run hstart _),
    Exec.ASSERT_run hend]

theorem bitmap_set_multiple_run {start cnt : Nat} (hready : FreeMapReady s fm)
    (h : start + cnt ≤ s.fs_device.size) (value : Bool) :
    bitmap_set_multiple start cnt value s =
      .ok ((), { s with free_map := s.free_map.set start cnt value }) := by
  rw [bitmap_set_multiple, Exec.bind_run (bitmap_check_run hready h)]
  rfl

namespace bitmap

variable {b : bitmap} {start cnt : Nat} {value : Bool}

theorem contains_eq_false : b.contains start cnt value = false ↔ ∀ i < cnt, b.bits (start + i) = !value := by
  rw [contains, List.any_eq_false]
  simp only [List.mem_range, beq_iff_eq]
  apply forall₂_congr
  intro i _
  cases b.bits (start + i) <;> cases value <;> simp

theorem all_iff : b.all start cnt = true ↔ ∀ i < cnt, b.bits (start + i) = true := by
  rw [all, Bool.not_eq_true', contains_eq_false]
  rfl

/-- The group that a scan finds is on the map and all set to the value. -/
theorem scan_eq_some {idx : Nat} (h : b.scan start cnt value = some idx) :
    idx + cnt ≤ b.bit_cnt ∧ ∀ i < cnt, b.bits (idx + i) = value := by
  rw [scan] at h
  split_ifs at h with hcnt
  have hmem := List.mem_of_find?_eq_some h
  have hfound := List.find?_some h
  simp only [List.mem_range'_1] at hmem
  simp only [Bool.not_eq_true', contains_eq_false, Bool.not_not] at hfound
  exact ⟨by omega, hfound⟩

/-- Setting a range that was clear and clearing it again changes nothing. -/
theorem set_set (h : ∀ i < cnt, b.bits (start + i) = value) (other : Bool) :
    (b.set start cnt other).set start cnt value = b := by
  have hbits : ((b.set start cnt other).set start cnt value).bits = b.bits := by
    funext i
    simp only [set]
    split_ifs with hin
    · have hi := h (i - start) (by omega)
      rw [Nat.add_sub_cancel' hin.1] at hi
      exact hi.symm
    · rfl
  cases b
  simpa [set] using hbits

end bitmap

/-- What an allocation leaves behind: its sectors were free and are marked, or
nothing has changed. In both cases the file of the free map may have been
written. -/
structure Allocated (cnt : Nat) (fm : Option inode_disk) (s : State) (start : Nat) (s' : State) : Prop where
  fits : start + cnt ≤ s.fs_device.size
  free : ∀ i < cnt, s.free_map.bits (start + i) = false
  only : OnlyDevice (MapSector fm) { s with free_map := s.free_map.set start cnt true } s'

/-- Marking sectors leaves the free map ready. -/
theorem FreeMapReady.mark {b : bitmap} (hready : FreeMapReady s fm) (hb : b.bit_cnt = s.free_map.bit_cnt) :
    FreeMapReady { s with free_map := b } fm :=
  ⟨hb.trans hready.bit_cnt, hready.size_lt, hready.absent, hready.file⟩

theorem FreeMapReady.only {S : Nat → Prop} {s' : State} (hready : FreeMapReady s fm) (h : OnlyDevice S s s') :
    FreeMapReady s' fm := by
  rw [h.same]
  refine ⟨?_, ?_, hready.absent, ?_⟩
  · exact hready.bit_cnt.trans h.size.symm
  · exact h.size ▸ hready.size_lt
  · intro d hd
    obtain ⟨f, file, inode, hf, hfile, hinode, hdeny, hdata, hon⟩ := hready.file d hd
    exact ⟨f, file, inode, hf, hfile, hinode, hdeny, hdata,
      ⟨hon.length_nonneg, hon.length_le, h.size ▸ hon.sectors, h.size ▸ hon.size_lt⟩⟩

theorem free_map_save_run (hready : FreeMapReady s fm) :
    ∃ b s', free_map_save s = .ok (b, s') ∧ OnlyDevice (MapSector fm) s s' := by
  rw [free_map_save, Exec.bind_run Exec.get_run]
  cases fm with
  | none =>
    rw [hready.absent rfl]
    exact ⟨true, s, rfl, OnlyDevice.refl _ s⟩
  | some d =>
    obtain ⟨f, -, -, hf, -, -, -, -, hon⟩ := hready.file d rfl
    obtain ⟨n, asked, hwrite, hasked, hn⟩ := bitmap_write_run hready hf
    rw [hf]
    refine ⟨_, _, hwrite, ?_⟩
    have honly := overwrite_only hon s.free_map.bytes hasked (show ((0 + n : Nat) : Int) ≤ d.length by omega)
    exact honly.mono fun k hk => ⟨d, rfl, hk⟩

theorem free_map_allocate_run (hready : FreeMapReady s fm) (cnt : Nat) :
    ∃ r s', free_map_allocate cnt s = .ok (r, s') ∧
      (r = none → OnlyDevice (MapSector fm) s s') ∧ ∀ start, r = some start → Allocated cnt fm s start s' := by
  cases hscan : s.free_map.scan 0 cnt false with
  | none =>
    refine ⟨none, s, ?_, fun _ => OnlyDevice.refl _ s, nofun⟩
    have hflip : bitmap_scan_and_flip 0 cnt false s = .ok (none, s) := by
      rw [bitmap_scan_and_flip, Exec.bind_run Exec.get_run]
      simp only [hscan]
      rfl
    rw [free_map_allocate, Exec.bind_run hflip]
    rfl
  | some start =>
    obtain ⟨hfits, hfree⟩ := bitmap.scan_eq_some hscan
    rw [hready.bit_cnt] at hfits
    have hset := bitmap_set_multiple_run hready hfits true
    have hflip : bitmap_scan_and_flip 0 cnt false s =
        .ok (some start, { s with free_map := s.free_map.set start cnt true }) := by
      rw [bitmap_scan_and_flip, Exec.bind_run Exec.get_run]
      simp only [hscan]
      exact Exec.bind_run hset
    have hmarked := hready.mark (b := s.free_map.set start cnt true) rfl
    obtain ⟨saved, t, hsave, honly⟩ := free_map_save_run hmarked
    rw [free_map_allocate, Exec.bind_run hflip]
    simp only [Exec.bind_run hsave]
    cases saved with
    | true =>
      refine ⟨some start, t, rfl, nofun, ?_⟩
      intro start' hstart
      obtain rfl := Option.some.inj hstart
      exact Allocated.mk hfits hfree honly
    | false =>
      -- The map could not be written: the sectors are given back.
      have hback := bitmap_set_multiple_run (hmarked.only honly) (honly.size ▸ hfits) false
      rw [if_neg Bool.false_ne_true, Exec.bind_run hback]
      refine ⟨none, _, rfl, fun _ => ?_, nofun⟩
      refine ⟨?_, honly.asked, honly.size, honly.sector⟩
      rw [honly.same]
      simp only [bitmap.set_set hfree]

end FreeMap

section Inode

variable {s : State} {fm : Option inode_disk}

theorem uint32_of_lt {n : Nat} (h : n < 2 ^ 32) : uint32 n = n := by
  rw [uint32]
  omega

/-- The on-disk inode that is written is read back. -/
theorem inode_disk.of_bytes_bytes {d : inode_disk} (hstart : d.start < 2 ^ 32) (hnonneg : 0 ≤ d.length)
    (hle : d.length ≤ 2147483647) (hmagic : d.magic < 2 ^ 32) {b : Bytes} (hb : ∀ i < 12, b i = d.bytes i) :
    of_bytes b = d := by
  have hword : ∀ ofs, ofs + 4 ≤ 12 → word b ofs = word d.bytes ofs := by
    intro ofs hofs
    apply word_congr
    intro i hi
    exact hb _ (by omega)
  have hlength : uint32 d.length < 2 ^ 32 := by
    rw [uint32]
    omega
  have hback : int32 (uint32 d.length : Nat) = d.length := by
    have hcast : ((uint32 d.length : Nat) : Int) = d.length := by
      rw [uint32]
      omega
    rw [hcast, int32_of_range (by omega) hle]
  cases d
  simp only [of_bytes, hword, Nat.reduceAdd, Nat.reduceLeDiff, inode_disk.bytes, mk.injEq]
  refine ⟨?_, ?_, ?_⟩
  · rw [word_store_word_ne _ (by omega), word_store_word_ne _ (by omega), word_store_word _ _ hstart]
  · rw [word_store_word_ne _ (by omega), word_store_word _ _ hlength, hback]
  · exact word_store_word _ _ hmagic

theorem zero_loop_run (start : Nat) (n : Nat) : ∀ (i : Nat) (s : State), start + i + n ≤ s.fs_device.size →
    s.fs_device.size < 2 ^ 32 →
    ∃ s', zero_loop start n i s = .ok ((), s') ∧
      OnlyDevice (fun k => start + i ≤ k ∧ k < start + i + n) s s' ∧
      ∀ k, start + i ≤ k → k < start + i + n → ∀ o < 512, s'.fs_device.sector k o = 0 := by
  induction n with
  | zero =>
    intro i s _ _
    exact ⟨s, rfl, OnlyDevice.refl _ s, fun k hlow hhigh => absurd hlow (by omega)⟩
  | succ n ih =>
    intro i s hfits hlt
    have hsector : uint32 (start + i) = start + i := uint32_of_lt (by omega)
    have hwrite := block_write_run (show start + i < s.fs_device.size by omega) fun _ => 0
    obtain ⟨s', hrun, honly, hzero⟩ := ih (i + 1)
      { s with fs_device := s.fs_device.store (start + i) fun _ => 0 } (by simpa [block.store] using (by omega))
      (by simpa [block.store] using hlt)
    refine ⟨s', ?_, ?_, ?_⟩
    · rw [zero_loop, hsector, Exec.bind_run hwrite, hrun]
    · refine ⟨honly.same, honly.asked, honly.size, ?_⟩
      intro k hk
      rw [honly.sector k (by omega)]
      exact block.store_ne _ (by omega)
    · intro k hlow hhigh o ho
      by_cases hk : k = start + i
      · rw [honly.sector k (by omega)]
        subst hk
        exact block.store_same (by simp only [BLOCK_SECTOR_SIZE]; omega)
      · exact hzero k (by omega) (by omega) o ho

/-- What the creation of an inode leaves behind. -/
structure Created (sector : Nat) (length : Int) (fm : Option inode_disk) (s : State) (start : Nat)
    (s' : State) : Prop where
  fits : start + bytes_to_sectors length ≤ s.fs_device.size
  free : ∀ i < bytes_to_sectors length, s.free_map.bits (start + i) = false
  only : OnlyDevice (fun k => MapSector fm k ∨ k = sector ∨ start ≤ k ∧ k < start + bytes_to_sectors length)
    { s with free_map := s.free_map.set start (bytes_to_sectors length) true } s'
  inode : inode_disk.of_bytes (s'.fs_device.sector sector) = { start, length, magic := INODE_MAGIC }
  zero : ∀ k, start ≤ k → k < start + bytes_to_sectors length → ∀ o < 512, s'.fs_device.sector k o = 0

theorem inode_create_run (hready : FreeMapReady s fm) {sector : Nat} (hsector : sector < s.fs_device.size)
    (hused : s.free_map.bits sector = true) {length : Int} (hnonneg : 0 ≤ length) (hle : length ≤ 2147483647) :
    ∃ r s', inode_create sector length s = .ok (r, s') ∧ (r = false → OnlyDevice (MapSector fm) s s') ∧
      (r = true → ∃ start, Created sector length fm s start s') := by
  rw [inode_create, Exec.bind_run (Exec.ASSERT_run hnonneg _)]
  obtain ⟨m, asked, hmalloc, hmore, -⟩ := malloc_run s
  rw [Exec.bind_run hmalloc]
  have hasked : OnlyDevice (MapSector fm) s { s with asked := asked } := ⟨rfl, hmore, rfl, fun _ _ => rfl⟩
  cases m with
  | none => exact ⟨false, _, rfl, fun _ => hasked, by simp⟩
  | some m =>
    obtain ⟨r, t, halloc, hnone, hsome⟩ := free_map_allocate_run (hready.only hasked) (bytes_to_sectors length)
    simp only [Exec.bind_run halloc]
    cases r with
    | none => exact ⟨false, t, rfl, fun _ => hasked.trans (hnone rfl), by simp⟩
    | some start =>
      have hlt := hready.size_lt
      obtain ⟨hfits, hfree, honly⟩ := hsome start rfl
      replace hfits : start + bytes_to_sectors length ≤ s.fs_device.size := hfits
      have hsize : t.fs_device.size = s.fs_device.size := honly.size
      have hwrite := block_write_run (s := t) (hsize ▸ hsector)
        (inode_disk.bytes { start, length, magic := INODE_MAGIC })
      obtain ⟨u, hzeros, hloop, hzero⟩ := zero_loop_run start (bytes_to_sectors length) 0
        { t with
          fs_device := t.fs_device.store sector (inode_disk.bytes { start, length, magic := INODE_MAGIC }) }
        (by simpa [block.store, hsize] using hfits) (by simpa [block.store, hsize] using hlt)
      simp only [Nat.add_zero] at hloop hzero
      -- The sector of the inode is in use already, and so is not one of those allocated.
      have hother : ¬ (start ≤ sector ∧ sector < start + bytes_to_sectors length) := by
        intro hin
        have hbit := hfree (sector - start) (by omega)
        rw [Nat.add_sub_cancel' hin.1] at hbit
        rw [hbit] at hused
        contradiction
      refine ⟨true, u, ?_, by simp, fun _ => ⟨start, hfits, hfree, ?_, ?_, hzero⟩⟩
      · simp only [Exec.bind_run hwrite, Exec.bind_run hzeros]
        rfl
      · refine ⟨?_, hmore.trans (honly.asked.trans hloop.asked), hloop.size.trans hsize, ?_⟩
        · rw [hloop.same, honly.same]
        · intro k hk
          rw [hloop.sector k (by tauto)]
          exact (block.store_ne _ (by tauto)).trans (honly.sector k (by tauto))
      · rw [hloop.sector sector hother]
        apply inode_disk.of_bytes_bytes
        · simp only
          omega
        · exact hnonneg
        · exact hle
        · simp only [INODE_MAGIC]
          omega
        · intro i hi
          exact block.store_same (by simp only [BLOCK_SECTOR_SIZE]; omega)

end Inode

end pintos.filesys
