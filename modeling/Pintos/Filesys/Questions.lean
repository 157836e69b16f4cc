import Pintos.Filesys.OpenFiles
import Pintos.Filesys.FreeMapFile

/-!
# How often a write asks for memory

A write asks once, when it first comes to a part of a sector, and is complete unless it gets no
memory then. So it is with what writes the free map.
-/

open twos_complement bytes state_error

namespace pintos.filesys

/-- Part of a sector is among the `n` bytes from `offset` on. -/
def Part (offset n : Nat) : Prop := n ≠ 0 ∧ ¬ (offset % 512 = 0 ∧ (offset + n) % 512 = 0)

instance (offset n : Nat) : Decidable (Part offset n) := by
  unfold Part
  infer_instance

/-- Whether a write of these bytes asks for memory. -/
abbrev Asks (bounce : Bool) (offset n : Nat) : Prop := bounce = false ∧ Part offset n

/-- The write of `n` bytes from `offset` on, after `moved` others, asks for memory where it needs it,
and then gets it or stops short. -/
structure Answered (bounce : Bool) (offset moved n : Nat) (s : State) (r : Int) (t : State) : Prop where
  oom : t.oom = s.oom
  asked : t.asked = s.asked + if Asks bounce offset n then 1 else 0
  complete : r = (moved + n : Nat) ↔ ¬ (Asks bounce offset n ∧ s.oom s.asked = true)

theorem Answered.zero (bounce : Bool) (offset moved : Nat) (s : State) :
    Answered bounce offset moved 0 s moved s := by
  refine ⟨rfl, ?_, ?_⟩ <;> simp [Asks, Part]

/-- There are no more questions after the one for the bounce buffer. -/
theorem Answered.of_bounce {bounce : Bool} {offset offset' moved moved' n n' : Nat} {s u : State} {r : Int}
    (h : Answered true offset' moved' n' { s with asked := s.asked + if bounce then 0 else 1 } r u)
    (hgot : (bounce || !s.oom s.asked) = true) (hpart : Part offset n) (hn : moved' + n' = moved + n) :
    Answered bounce offset moved n s r u := by
  obtain ⟨hoom, hasked, hcomplete⟩ := h
  refine ⟨hoom, ?_, ?_⟩
  · cases bounce <;> simpa [Asks, hpart] using hasked
  · have hmemory : ¬ (Asks bounce offset n ∧ s.oom s.asked = true) := by
      rintro ⟨⟨rfl, -⟩, hnone⟩
      simp [hnone] at hgot
    rw [← hn]
    simpa [Asks, hmemory] using hcomplete

theorem inode_write_loop_asks {b : block} {inode : inode} (hon : OnDevice b inode.data) (buffer : Bytes)
    (size : Int) (offset bytes_written : Nat) (bounce : Bool) (s : State) (ho : offset ≤ 2147483647)
    (hsize : bytes_written + size ≤ 2147483647) :
    Ends (inode_write_loop inode buffer size offset bytes_written bounce) s
      (Answered bounce offset bytes_written (transfer_size inode.data.length size offset) s) := by
  induction hm : size.toNat using Nat.strong_induction_on generalizing size offset bytes_written bounce s with
  | _ m ih =>
    have hlength := hon.length_le
    rw [inode_write_loop]
    by_cases hpos : size > 0
    · rw [if_pos hpos]
      have hchunk := @chunk_size_eq _ _ size _ hon ho
      have hmod : (offset : Int).tmod SECTOR_SIZE = (offset % 512 : Nat) := by
        rw [Int.tmod_eq_emod_of_nonneg (by omega)]
        rfl
      by_cases hnone : chunk_size inode size offset ≤ 0
      · have hzero : transfer_size inode.data.length size offset = 0 := by
          simp only [transfer_size]
          omega
        rw [dif_pos hnone, hzero]
        exact Exec.Ends.of_ok rfl (Answered.zero _ _ _ _)
      · rw [dif_neg hnone]
        obtain ⟨c, hc⟩ : ∃ c : Nat, chunk_size inode size offset = c :=
          ⟨_, (Int.toNat_of_nonneg (by omega)).symm⟩
        rw [hc] at hchunk hnone
        obtain ⟨hsize', hoffset', hmoved'⟩ := next_turn (show (c : Int) ≤ size by omega)
          (show offset + c ≤ 2147483647 by omega) hsize
        simp only [hc, hmod, hsize', hoffset', hmoved']
        clear hsize' hoffset' hmoved'
        obtain ⟨full, hfull⟩ : ∃ n, transfer_size inode.data.length (size - c)
          (offset + c : Nat) = n := ⟨_, rfl⟩
        have hall : transfer_size inode.data.length size offset = c + full := by
          simp only [transfer_size] at hfull ⊢
          omega
        -- The turns after the one that writes `c` bytes.
        have hturn : ∀ (sector : Nat) (bytes : Bytes) (bounce : Bool) (t : State), Ends (do
            block_write sector bytes
            inode_write_loop inode buffer (size - c) (offset + c : Nat) (bytes_written + c : Nat) bounce) t
            (Answered bounce (offset + c) (bytes_written + c) full t) := by
          intro sector bytes bounce t
          apply (block_write_ends sector bytes t).bind
          rintro _ u rfl
          have hrest := ih (size - c).toNat (by omega) (size - c) (offset + c) (bytes_written + c) bounce
            { t with fs_device := t.fs_device.store sector bytes } (by omega) (by omega) rfl
          rw [hfull] at hrest
          exact hrest.mono fun r v hv => ⟨hv.oom, hv.asked, hv.complete⟩
        rw [hall]
        by_cases hwhole : ((offset % 512 : Nat) : Int) = 0 ∧ (c : Int) = SECTOR_SIZE
        · have hpart : Part offset (c + full) ↔ Part (offset + c) full := by
            simp only [SECTOR_SIZE] at hwhole
            simp only [Part]
            omega
          rw [if_pos hwhole]
          apply (hturn _ _ bounce s).mono
          rintro r u ⟨hoom, hasked, hcomplete⟩
          refine ⟨hoom, ?_, ?_⟩
          · simpa only [Asks, hpart] using hasked
          · simpa only [Asks, hpart, Nat.add_assoc] using hcomplete
        · have hpart : Part offset (c + full) := by
            simp only [SECTOR_SIZE] at hwhole
            simp only [transfer_size] at hfull
            simp only [Part]
            omega
          rw [if_neg hwhole]
          apply (need_bounce_ends bounce s).bind
          rintro ok t ⟨hok, rfl⟩
          cases ok with
          | false =>
            obtain ⟨rfl, hoom⟩ : bounce = false ∧ s.oom s.asked = true := by simpa using hok.symm
            apply Exec.Ends.of_ok rfl
            refine ⟨rfl, ?_, ?_⟩
            · simp [Asks, hpart]
            · simp only [Asks, hpart, hoom, and_self, not_true_eq_false, iff_false]
              omega
          | true =>
            have hrest := fun sector bytes => (hturn sector bytes true
              { s with asked := s.asked + if bounce then 0 else 1 }).mono fun r u hu =>
                hu.of_bounce hok.symm hpart (Nat.add_assoc bytes_written c full)
            generalize (s.asked + if bounce = true then 0 else 1) = asked at hrest ⊢
            rw [if_pos rfl]
            split_ifs
            · apply (block_read_ends _ _).bind
              rintro _ u ⟨-, rfl⟩
              exact hrest _ _
            · apply Exec.Ends.after (Exec.pure_run _)
              exact hrest _ _
    · have hzero : transfer_size inode.data.length size offset = 0 := by
        simp only [transfer_size]
        omega
      rw [if_neg hpos, hzero]
      exact Exec.Ends.of_ok rfl (Answered.zero _ _ _ _)

/-- How often the free map asks for memory when it is written. -/
def map_questions (s : State) : Nat := if byte_cnt s.fs_device.size % 512 = 0 then 0 else 1

/-- Memory is there for the next `n` questions. -/
def Memory (s : State) (n : Nat) : Prop := ∀ i < n, s.oom (s.asked + i) = false

/-- The free map can be written to its file, and fills it. -/
structure MapReady (s : State) (d : inode_disk) : Prop where
  ready : FreeMapReady s (some d)
  length : d.length = byte_cnt s.fs_device.size

section FreeMap

variable {s t : State} {d : inode_disk} {f : Ptr}

theorem memory_add {m n : Nat} : Memory s (m + n) ↔ Memory s m ∧ Memory { s with asked := s.asked + m } n := by
  constructor
  · intro h
    refine ⟨fun i hi => h i (by omega), ?_⟩
    intro i hi
    rw [Nat.add_assoc]
    exact h (m + i) (by omega)
  · rintro ⟨hm, hn⟩ i hi
    by_cases hlow : i < m
    · exact hm i hlow
    · have hrest := hn (i - m) (by omega)
      rw [Nat.add_assoc, Nat.add_sub_cancel' (Nat.le_of_not_lt hlow)] at hrest
      exact hrest

theorem memory_one : Memory s 1 ↔ s.oom s.asked = false := by
  constructor
  · exact fun h => h 0 Nat.one_pos
  · intro h i hi
    obtain rfl : i = 0 := by omega
    exact h

theorem memory_zero : Memory s 0 := fun i hi => absurd hi (Nat.not_lt_zero i)

theorem memory_congr {n : Nat} (hoom : t.oom = s.oom) (hasked : t.asked = s.asked) : Memory t n ↔
    Memory s n := by
  simp only [Memory, hoom, hasked]

/-- The free map is written as a whole if memory is there for it. -/
theorem MapReady.bitmap_write_asks (h : MapReady s d) (hf : s.free_map_file = some f) :
    Ends (bitmap_write f) s fun b t => t.oom = s.oom ∧ t.asked = s.asked + map_questions s ∧
      (b = true ↔ Memory s (map_questions s)) := by
  obtain ⟨f', file, inode, hfile, hstruct, hinode, hdeny, rfl, hon⟩ := h.ready.file d rfl
  obtain rfl : f = f' := Option.some.inj (hf.symm.trans hfile)
  have hlength := h.length
  have hnonneg := hon.length_nonneg
  have hle := hon.length_le
  have hderef : deref_file f s = .ok (file, s) := by simp only [deref_file, hstruct]
  have hsize : int32 (byte_cnt s.free_map.bit_cnt) = inode.data.length := by
    rw [h.ready.bit_cnt, ← hlength]
    exact int32_of_range (by omega) hle
  have hfull : transfer_size inode.data.length inode.data.length (0 : Nat) = byte_cnt s.fs_device.size := by
    simp only [transfer_size]
    omega
  have hloop := inode_write_loop_asks hon s.free_map.bytes inode.data.length 0 0 false s (by omega) (by omega)
  rw [hfull] at hloop
  have hasks : (if Asks false 0 (byte_cnt s.fs_device.size) then 1 else 0) = map_questions s := by
    have hpart : Asks false 0 (byte_cnt s.fs_device.size) ↔ ¬ byte_cnt s.fs_device.size % 512 = 0 := by
      simp only [Asks, Part, eq_self, true_and]
      omega
    simp only [hpart, map_questions]
    split_ifs <;> rfl
  rw [bitmap_write]
  apply Exec.Ends.after Exec.get_run
  rw [hsize]
  apply Exec.Ends.bind (Q := fun r t => t.oom = s.oom ∧ t.asked = s.asked + map_questions s ∧
    (r = inode.data.length ↔ Memory s (map_questions s)))
  · rw [file_write_at]
    apply Exec.Ends.after hderef
    rw [inode_write_at]
    apply Exec.Ends.after (deref_run hinode)
    rw [if_neg (by simpa using hdeny)]
    apply hloop.mono
    rintro r t ⟨hoom, hasked, hcomplete⟩
    rw [hasks] at hasked
    refine ⟨hoom, hasked, ?_⟩
    rw [hlength]
    simp only [Nat.zero_add] at hcomplete
    rw [hcomplete]
    rw [← hasks]
    split_ifs with hasks'
    · simp [hasks', memory_one]
    · simp [hasks', memory_zero]
  · rintro r t ⟨hoom, hasked, hcomplete⟩
    apply Exec.Ends.of_ok rfl
    exact ⟨hoom, hasked, by simpa using hcomplete⟩

theorem MapReady.only {S : Nat → Prop} (h : MapReady s d) (honly : OnlyDevice S s t) : MapReady t d :=
  ⟨h.ready.only honly, honly.size ▸ h.length⟩

theorem MapReady.mark {b : bitmap} (h : MapReady s d) (hb : b.bit_cnt = s.free_map.bit_cnt) :
    MapReady { s with free_map := b } d :=
  ⟨h.ready.mark hb, h.length⟩

/-- An allocation succeeds if there are sectors, and memory to write the free map. -/
theorem MapReady.free_map_allocate_asks (h : MapReady s d) (cnt : Nat) :
    Ends (free_map_allocate cnt) s fun r t => t.oom = s.oom ∧
      (∀ start, r = some start → t.asked = s.asked + map_questions s) ∧
      ∀ start, r = some start ↔ s.free_map.scan 0 cnt false = some start ∧ Memory s (map_questions s) := by
  obtain ⟨f, -, -, hf, -⟩ := h.ready.file d rfl
  cases hscan : s.free_map.scan 0 cnt false with
  | none =>
    have hflip : bitmap_scan_and_flip 0 cnt false s = .ok (none, s) := by
      rw [bitmap_scan_and_flip, Exec.bind_run Exec.get_run]
      simp only [hscan]
      rfl
    apply Exec.Ends.after hflip
    apply Exec.Ends.of_ok rfl
    refine ⟨rfl, by rintro _ ⟨⟩, ?_⟩
    simp
  | some idx =>
    obtain ⟨hfits, hfree⟩ := bitmap.scan_eq_some hscan
    rw [h.ready.bit_cnt] at hfits
    have hset := bitmap_set_multiple_run h.ready hfits true
    have hflip : bitmap_scan_and_flip 0 cnt false s =
        .ok (some idx, { s with free_map := s.free_map.set idx cnt true }) := by
      rw [bitmap_scan_and_flip, Exec.bind_run Exec.get_run]
      simp only [hscan]
      exact Exec.bind_run hset
    have hmarked := h.mark (b := s.free_map.set idx cnt true) rfl
    apply Exec.Ends.after hflip
    have hsave : Ends free_map_save { s with free_map := s.free_map.set idx cnt true } fun b t =>
        t.oom = s.oom ∧
        t.asked = s.asked + map_questions s ∧ (b = true ↔ Memory s (map_questions s)) :=
      Exec.Ends.congr (free_map_save_eq hf) (hmarked.bitmap_write_asks hf)
    apply hsave.bind
    rintro saved t ⟨hoom, hasked, hsaved⟩
    cases saved with
    | true =>
      have hmemory := hsaved.mp rfl
      apply Exec.Ends.of_ok rfl
      refine ⟨hoom, fun _ _ => hasked, ?_⟩
      simp [hmemory]
    | false =>
      have hmemory : ¬ Memory s (map_questions s) := by simpa using hsaved
      apply (bitmap_set_multiple_ends idx cnt false t).bind
      rintro _ u rfl
      apply Exec.Ends.of_ok rfl
      refine ⟨hoom, by rintro _ ⟨⟩, ?_⟩
      simp [hmemory]

/-- Creating an inode succeeds if there are sectors for the data, and memory. -/
theorem MapReady.inode_create_asks (h : MapReady s d) (sector : Nat) {length : Int} (hnonneg : 0 ≤ length) :
    Ends (inode_create sector length) s fun r _ => r = true ↔
      (s.free_map.scan 0 (bytes_to_sectors length) false).isSome ∧ Memory s (1 + map_questions s) := by
  rw [inode_create]
  apply Exec.Ends.after (Exec.ASSERT_run hnonneg _)
  apply (malloc_ends s).bind
  rintro r t ⟨rfl, -, hgot⟩
  have hmemory : Memory s (1 + map_questions s) ↔ r ≠ none ∧
      Memory { s with asked := s.asked + 1 } (map_questions s) := by
    rw [memory_add, memory_one, Ne, hgot, Bool.not_eq_true]
  cases r with
  | none =>
    apply Exec.Ends.of_ok rfl
    simp [hmemory]
  | some m =>
    have hready : MapReady { s with asked := s.asked + 1 } d :=
      h.only (S := fun _ => False) ⟨rfl, Nat.le_succ _, rfl, fun _ _ => rfl⟩
    apply (hready.free_map_allocate_asks (bytes_to_sectors length)).bind
    rintro start t ⟨-, -, hstart⟩
    cases start with
    | none =>
      apply Exec.Ends.of_ok rfl
      have hnot : ¬ ((s.free_map.scan 0 (bytes_to_sectors length) false).isSome ∧
          Memory { s with asked := s.asked + 1 } (map_questions s)) := by
        rintro ⟨hroom, hmem⟩
        obtain ⟨start, hscan⟩ := Option.isSome_iff_exists.mp hroom
        have hnone := (hstart start).mpr ⟨hscan, hmem⟩
        cases hnone
      simp [hmemory, hnot]
    | some start =>
      obtain ⟨hscan, hmem⟩ := (hstart start).mp rfl
      have htrue : (s.free_map.scan 0 (bytes_to_sectors length) false).isSome ∧
          Memory s (1 + map_questions s) :=
        ⟨by simp [hscan], hmemory.mpr ⟨Option.some_ne_none m, hmem⟩⟩
      apply (block_write_ends _ _ t).bind
      intro _ u _
      apply (Exec.Ends.of_frame (zero_loop_leaves _ _ _) fun _ _ => id).bind
      intro _ v _
      exact Exec.Ends.of_ok rfl (iff_of_true rfl htrue)

end FreeMap

end pintos.filesys
