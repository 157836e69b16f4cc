import Pintos.Filesys.InodeData
import Mathlib.Tactic.Linarith

/-!
# What a transfer does to the device

The bytes of a device are numbered through its sectors. A transfer moves the
bytes that the file has from `offset` on, or fewer where the bounce buffer cannot
be allocated, and touches nothing else.
-/

open twos_complement bytes state_error

namespace pintos.filesys

/-- The device after `n` bytes of `buffer` have replaced those from the byte
numbered `base` on. -/
def block.overwrite (b : block) (base : Nat) (buffer : Bytes) (n : Nat) : block :=
  { b with sector := fun k o =>
      if base ≤ 512 * k + o ∧ 512 * k + o < base + n ∧ o < 512 then buffer (512 * k + o - base)
      else b.sector k o }

/-- The bytes of the sectors from `start` on, as one sequence. -/
def block.content (b : block) (start : Nat) : Bytes := fun i => b.sector (start + i / 512) (i % 512)

namespace block

variable {b : block} {buffer : Bytes}

@[simp] theorem overwrite_size (base n : Nat) : (b.overwrite base buffer n).size = b.size := rfl

@[simp] theorem overwrite_zero (base : Nat) : b.overwrite base buffer 0 = b := by
  have hsector : (b.overwrite base buffer 0).sector = b.sector := by
    funext k o
    apply if_neg
    omega
  cases b
  simpa [overwrite] using hsector

theorem overwrite_outside {base n k o : Nat} (h : 512 * k + o < base ∨ base + n ≤ 512 * k + o ∨ 512 ≤ o) :
    (b.overwrite base buffer n).sector k o = b.sector k o := by
  apply if_neg
  omega

/-- Overwriting two adjacent ranges. -/
theorem overwrite_overwrite (base ofs m n : Nat) :
    (b.overwrite base (drop buffer ofs) m).overwrite (base + m) (drop buffer (ofs + m)) n =
      b.overwrite base (drop buffer ofs) (m + n) := by
  simp only [overwrite, drop, mk.injEq, true_and]
  funext k o
  split_ifs <;> first | rfl | omega | (congr 1; omega)

/-- A sector written as a whole. -/
theorem store_eq_overwrite (k : Nat) : b.store k buffer = b.overwrite (512 * k) buffer 512 := by
  simp only [store, overwrite, BLOCK_SECTOR_SIZE, mk.injEq, true_and]
  funext k' o
  by_cases hk : k' = k
  · subst hk
    simp only [if_true, copy]
    split_ifs <;> first | rfl | omega | (congr 1; omega)
  · rw [if_neg hk, if_neg (by omega)]

/-- A part of a sector written back together with the rest of it. -/
theorem store_copy_eq_overwrite {k ofs sofs n : Nat} (h : ofs + n ≤ 512) :
    b.store k (copy (b.sector k) ofs buffer sofs n) = b.overwrite (512 * k + ofs) (drop buffer sofs) n := by
  simp only [store, overwrite, drop, BLOCK_SECTOR_SIZE, mk.injEq, true_and]
  funext k' o
  by_cases hk : k' = k
  · subst hk
    simp only [if_true, copy, Nat.zero_add, Nat.sub_zero]
    split_ifs <;> first | rfl | omega | (congr 1; omega)
  · rw [if_neg hk, if_neg (by omega)]

/-- Overwriting bytes of a file changes its content at these bytes. -/
theorem content_overwrite (start ofs n : Nat) :
    (b.overwrite (512 * start + ofs) buffer n).content start = copy (b.content start) ofs buffer 0 n := by
  funext i
  simp only [content, overwrite, copy]
  split_ifs <;> first | rfl | omega | (congr 1; omega)

end block

/-- The file's data lies on the device: `length` bytes from sector `start` on. -/
structure OnDevice (b : block) (d : inode_disk) : Prop where
  length_nonneg : 0 ≤ d.length
  length_le : d.length ≤ 2147483647
  sectors : d.start + (d.length.toNat + 511) / 512 ≤ b.size
  size_lt : b.size < 2 ^ 32

/-- The number of bytes that a file of this length has for a transfer. -/
def transfer_size (length size offset : Int) : Nat := (min size (length - offset)).toNat

section Turn

variable {b : block} {inode : inode} {size : Int} {offset : Nat}

theorem sector_left_eq (offset : Nat) : sector_left offset = 512 - (offset % 512 : Nat) := by
  simp only [sector_left, SECTOR_SIZE]
  rw [Int.tmod_eq_emod_of_nonneg (by omega)]
  apply int32_of_range <;> omega

theorem chunk_size_eq (hon : OnDevice b inode.data) (ho : offset ≤ 2147483647) :
    chunk_size inode size offset = min size (min (inode.data.length - offset)
      (512 - (offset % 512 : Nat))) := by
  have hnonneg := hon.length_nonneg
  have hle := hon.length_le
  simp only [chunk_size, inode_length, sector_left_eq]
  rw [int32_of_range (x := inode.data.length - offset) (by omega) (by omega)]
  split_ifs <;> omega

/-- A byte of the file is in the sector that `byte_to_sector` says, which the
device has. -/
theorem byte_to_sector_eq (hon : OnDevice b inode.data) (ho : (offset : Int) < inode.data.length) :
    byte_to_sector inode offset = inode.data.start + offset / 512 ∧
      inode.data.start + offset / 512 < b.size := by
  have hsectors := hon.sectors
  have hsize := hon.size_lt
  have hin : inode.data.start + offset / 512 < b.size := by omega
  refine ⟨?_, hin⟩
  rw [byte_to_sector, if_pos ho, uint32, Int.tdiv_eq_ediv_of_nonneg (by omega)]
  simp only [SECTOR_SIZE]
  omega

end Turn

/-- Memory ran out at some question to `malloc`. -/
def OutOfMemory (s : State) : Prop := ∃ i, s.oom i = true

theorem need_bounce_run (bounce : Bool) (s : State) :
    ∃ ok asked, need_bounce bounce s = .ok (ok, { s with asked := asked }) ∧ s.asked ≤ asked ∧
      (ok = false → OutOfMemory s) := by
  cases bounce with
  | true => exact ⟨true, s.asked, rfl, Nat.le_refl _, nofun⟩
  | false =>
    refine ⟨_, s.asked + 1, rfl, Nat.le_succ _, ?_⟩
    cases hoom : s.oom s.asked with
    | true => exact fun _ => ⟨_, hoom⟩
    | false => simp

/-- A transfer that stops short has moved nothing, or all up to a sector's end,
and memory has run out. -/
def Stopped (s : State) (offset n full : Nat) : Prop :=
  n = full ∨ (n < full ∧ (n = 0 ∨ 512 ∣ offset + n) ∧ OutOfMemory s)

/-- One turn of the loop moved `c` bytes, up to the end of the sector if more is to
be moved, and what follows stops. -/
theorem Stopped.after {s t : State} {offset c n : Nat} {length size : Int} (hoom : t.oom = s.oom)
    (hc : (c : Int) = min size (min (length - offset) (512 - (offset % 512 : Nat))))
    (h : Stopped t (offset + c) n (transfer_size length (size - c) (offset + c : Nat))) :
    Stopped s offset (c + n) (transfer_size length size offset) := by
  simp only [Stopped, transfer_size, OutOfMemory, hoom] at h ⊢
  obtain hfull | ⟨hless, hwhere, hout⟩ := h
  · left
    omega
  · refine Or.inr ⟨by omega, Or.inr ?_, hout⟩
    obtain hzero | hsector := hwhere
    · omega
    · omega

/-- The counters of the next turn do not overflow. -/
theorem next_turn {size : Int} {offset moved c : Nat} (hc : (c : Int) ≤ size)
    (ho : offset + c ≤ 2147483647) (hsize : moved + size ≤ 2147483647) :
    int32 (size - c) = size - c ∧ int32 (offset + c) = (offset + c : Nat) ∧
      int32 (moved + c) = (moved + c : Nat) := by
  refine ⟨int32_of_range ?_ ?_, ?_, ?_⟩
  · omega
  · omega
  · rw [← Nat.cast_add]
    apply int32_of_range <;> omega
  · rw [← Nat.cast_add]
    apply int32_of_range <;> omega

theorem inode_read_loop_run {inode : inode} (buffer : Bytes) (size : Int) (offset bytes_read : Nat)
    (bounce : Bool) (s : State) (hon : OnDevice s.fs_device inode.data) (ho : offset ≤ 2147483647)
    (hsize : bytes_read + size ≤ 2147483647) :
    ∃ n asked, inode_read_loop inode buffer size offset bytes_read bounce s =
        .ok ((((bytes_read + n : Nat) : Int),
          copy buffer bytes_read (s.fs_device.content inode.data.start) offset n), { s with asked := asked }) ∧
      s.asked ≤ asked ∧ Stopped s offset n (transfer_size inode.data.length size offset) := by
  induction hm : size.toNat using Nat.strong_induction_on
      generalizing buffer size offset bytes_read bounce s with
  | _ m ih =>
    have hlength := hon.length_le
    rw [inode_read_loop]
    by_cases hpos : size > 0
    · rw [if_pos hpos]
      have hchunk := @chunk_size_eq _ _ size _ hon ho
      have hmod : (offset : Int).tmod SECTOR_SIZE = (offset % 512 : Nat) := by
        rw [Int.tmod_eq_emod_of_nonneg (by omega)]
        rfl
      by_cases hnone : chunk_size inode size offset ≤ 0
      · rw [dif_pos hnone]
        refine ⟨0, s.asked, by simp, Nat.le_refl _, Or.inl ?_⟩
        simp only [transfer_size]
        omega
      · rw [dif_neg hnone]
        obtain ⟨c, hc⟩ : ∃ c : Nat, chunk_size inode size offset = c :=
          ⟨_, (Int.toNat_of_nonneg (by omega)).symm⟩
        rw [hc] at hchunk hnone
        obtain ⟨hsector, hin⟩ := byte_to_sector_eq hon (show (offset : Int) < inode.data.length by omega)
        obtain ⟨hsize', hoffset', hmoved'⟩ := next_turn (show (c : Int) ≤ size by omega)
          (show offset + c ≤ 2147483647 by omega) hsize
        simp only [hc, hmod, hsector, hsize', hoffset', hmoved', Int.toNat_natCast]
        clear hsize' hoffset' hmoved'
        have hcontent : ∀ i < c, s.fs_device.sector (inode.data.start + offset / 512) (offset % 512 + i) =
            s.fs_device.content inode.data.start (offset + i) := by
          intro i hi
          have hdiv : (offset + i) / 512 = offset / 512 := by omega
          have hrest : (offset + i) % 512 = offset % 512 + i := by omega
          rw [block.content, hdiv, hrest]
        -- What the turn reads, and what the turns after it do.
        have hturn : ∀ (bounce : Bool) (asked ofs : Nat), ofs = offset % 512 →
            ∃ n asked', (block_read (inode.data.start + offset / 512) >>= fun sector =>
                inode_read_loop inode (copy buffer bytes_read sector ofs c) (size - c)
                  (offset + c : Nat) (bytes_read + c : Nat) bounce) { s with asked := asked } =
              .ok ((((bytes_read + n : Nat) : Int),
                copy buffer bytes_read (s.fs_device.content inode.data.start) offset n),
                { s with asked := asked' }) ∧
              asked ≤ asked' ∧ Stopped s offset n (transfer_size inode.data.length size offset) := by
          intro bounce asked ofs hofs
          subst hofs
          have hread := block_read_run (s := { s with asked := asked }) hin
          obtain ⟨n, asked', hrun, hasked, hstop⟩ := ih (size - c).toNat (by omega)
            (copy buffer bytes_read (s.fs_device.content inode.data.start) offset c) (size - c) (offset + c)
            (bytes_read + c) bounce { s with asked := asked } hon (by omega) (by omega) rfl
          refine ⟨c + n, asked', ?_, hasked, hstop.after rfl hchunk⟩
          rw [Exec.bind_run hread, copy_congr hcontent, hrun]
          simp only [copy_copy, ← Nat.add_assoc]
        by_cases hfull : ((offset % 512 : Nat) : Int) = 0 ∧ (c : Int) = SECTOR_SIZE
        · rw [if_pos hfull]
          have hcount : c = 512 := Int.natCast_inj.mp hfull.2
          subst hcount
          exact hturn bounce s.asked 0 (by omega)
        · rw [if_neg hfull]
          obtain ⟨ok, asked, hbounce, hasked, hoom⟩ := need_bounce_run bounce s
          rw [Exec.bind_run hbounce]
          cases ok with
          | false =>
            refine ⟨0, asked, by simp, hasked, ?_⟩
            by_cases hzero : transfer_size inode.data.length size offset = 0
            · exact Or.inl hzero.symm
            · exact Or.inr ⟨by omega, Or.inl rfl, hoom rfl⟩
          | true =>
            obtain ⟨n, asked', hrun, hle, hstop⟩ := hturn true asked (offset % 512) rfl
            exact ⟨n, asked', hrun, hasked.trans hle, hstop⟩
    · rw [if_neg hpos]
      refine ⟨0, s.asked, by simp, Nat.le_refl _, Or.inl ?_⟩
      simp only [transfer_size]
      omega

theorem inode_write_loop_run {inode : inode} (buffer : Bytes) (size : Int) (offset bytes_written : Nat)
    (bounce : Bool) (s : State) (hon : OnDevice s.fs_device inode.data) (ho : offset ≤ 2147483647)
    (hsize : bytes_written + size ≤ 2147483647) :
    ∃ n asked, inode_write_loop inode buffer size offset bytes_written bounce s =
        .ok (((bytes_written + n : Nat) : Int), { s with
          fs_device := s.fs_device.overwrite (512 * inode.data.start + offset) (drop buffer bytes_written) n
          asked := asked }) ∧
      s.asked ≤ asked ∧ Stopped s offset n (transfer_size inode.data.length size offset) := by
  induction hm : size.toNat using Nat.strong_induction_on generalizing size offset bytes_written bounce s with
  | _ m ih =>
    have hlength := hon.length_le
    rw [inode_write_loop]
    by_cases hpos : size > 0
    · rw [if_pos hpos]
      have hchunk := @chunk_size_eq _ _ size _ hon ho
      have hmod : (offset : Int).tmod SECTOR_SIZE = (offset % 512 : Nat) := by
        rw [Int.tmod_eq_emod_of_nonneg (by omega)]
        rfl
      by_cases hnone : chunk_size inode size offset ≤ 0
      · rw [dif_pos hnone]
        refine ⟨0, s.asked, by simp, Nat.le_refl _, Or.inl ?_⟩
        simp only [transfer_size]
        omega
      · rw [dif_neg hnone]
        obtain ⟨c, hc⟩ : ∃ c : Nat, chunk_size inode size offset = c :=
          ⟨_, (Int.toNat_of_nonneg (by omega)).symm⟩
        rw [hc] at hchunk hnone
        obtain ⟨hsector, hin⟩ := byte_to_sector_eq hon (show (offset : Int) < inode.data.length by omega)
        obtain ⟨hsize', hoffset', hmoved'⟩ := next_turn (show (c : Int) ≤ size by omega)
          (show offset + c ≤ 2147483647 by omega) hsize
        simp only [hc, hmod, hsector, hsize', hoffset', hmoved', Int.toNat_natCast]
        clear hsize' hoffset' hmoved'
        -- What the turn writes, and what the turns after it do.
        have hturn : ∀ (bounce : Bool) (asked : Nat) (w : Bytes),
            s.fs_device.store (inode.data.start + offset / 512) w =
              s.fs_device.overwrite (512 * inode.data.start + offset) (drop buffer bytes_written) c →
            ∃ n asked', (block_write (inode.data.start + offset / 512) w >>= fun _ =>
                inode_write_loop inode buffer (size - c) (offset + c : Nat) (bytes_written + c : Nat) bounce)
                { s with asked := asked } = .ok (((bytes_written + n : Nat) : Int), { s with
                  fs_device := s.fs_device.overwrite (512 * inode.data.start + offset)
                    (drop buffer bytes_written) n
                  asked := asked' }) ∧
              asked ≤ asked' ∧ Stopped s offset n (transfer_size inode.data.length size offset) := by
          intro bounce asked w hstore
          have hwrite := block_write_run (s := { s with asked := asked }) hin w
          obtain ⟨n, asked', hrun, hasked, hstop⟩ := ih (size - c).toNat (by omega) (size - c) (offset + c)
            (bytes_written + c) bounce
            { s with asked := asked, fs_device := s.fs_device.store (inode.data.start + offset / 512) w }
            ⟨hon.length_nonneg, hon.length_le, hon.sectors, hon.size_lt⟩ (by omega) (by omega) rfl
          refine ⟨c + n, asked', ?_, hasked, hstop.after rfl hchunk⟩
          rw [Exec.bind_run hwrite, hrun]
          simp only [hstore, ← Nat.add_assoc, block.overwrite_overwrite]
        by_cases hfull : ((offset % 512 : Nat) : Int) = 0 ∧ (c : Int) = SECTOR_SIZE
        · rw [if_pos hfull]
          have hcount : c = 512 := Int.natCast_inj.mp hfull.2
          have hbase : 512 * (inode.data.start + offset / 512) = 512 * inode.data.start + offset := by omega
          apply hturn bounce s.asked
          rw [block.store_eq_overwrite, hbase, hcount]
        · rw [if_neg hfull]
          obtain ⟨ok, asked, hbounce, hasked, hoom⟩ := need_bounce_run bounce s
          rw [Exec.bind_run hbounce]
          cases ok with
          | false =>
            refine ⟨0, asked, by simp, hasked, ?_⟩
            by_cases hzero : transfer_size inode.data.length size offset = 0
            · exact Or.inl hzero.symm
            · exact Or.inr ⟨by omega, Or.inl rfl, hoom rfl⟩
          | true =>
            have hread := block_read_run (s := { s with asked := asked }) hin
            have hpart : ((offset % 512 : Nat) : Int) > 0 ∨ (c : Int) < sector_left offset := by
              rw [sector_left_eq]
              by_contra hnot
              apply hfull
              simp only [SECTOR_SIZE]
              omega
            have hbase : 512 * (inode.data.start + offset / 512) + offset % 512 =
                512 * inode.data.start + offset := by omega
            obtain ⟨n, asked', hrun, hle, hstop⟩ := hturn true asked
              (copy (s.fs_device.sector (inode.data.start + offset / 512))
              (offset % 512) buffer bytes_written c)
              (by rw [block.store_copy_eq_overwrite (by omega), hbase])
            refine ⟨n, asked', ?_, hasked.trans hle, hstop⟩
            rw [if_pos rfl, if_pos hpart, Exec.bind_run hread, hrun]
    · rw [if_neg hpos]
      refine ⟨0, s.asked, by simp, Nat.le_refl _, Or.inl ?_⟩
      simp only [transfer_size]
      omega

/-- `inode_read_at` reads what the file has from `offset` on. -/
theorem inode_read_at_run {s : State} {p : Ptr} {inode : inode} (hp : s.inodes p = some inode)
    (hon : OnDevice s.fs_device inode.data) (buffer : Bytes) {size : Int} {offset : Nat}
    (ho : offset ≤ 2147483647) (hsize : size ≤ 2147483647) :
    ∃ (n : Nat) (asked : Nat), inode_read_at p buffer size offset s =
        .ok (((n : Int), copy buffer 0 (s.fs_device.content inode.data.start) offset n),
          { s with asked := asked }) ∧
      s.asked ≤ asked ∧ Stopped s offset n (transfer_size inode.data.length size offset) := by
  obtain ⟨n, asked, hrun, hasked, hstop⟩ :=
    @inode_read_loop_run inode buffer size offset 0 false s hon ho (by omega)
  refine ⟨n, asked, ?_, hasked, hstop⟩
  have hderef : deref p s = .ok (inode, s) := by simp only [deref, hp]
  rw [inode_read_at, Exec.bind_run hderef]
  simpa using hrun

/-- `inode_write_at` overwrites what the file has from `offset` on. -/
theorem inode_write_at_run {s : State} {p : Ptr} {inode : inode} (hp : s.inodes p = some inode)
    (hdeny : inode.deny_write_cnt = 0) (hon : OnDevice s.fs_device inode.data) (buffer : Bytes)
    {size : Int} {offset : Nat} (ho : offset ≤ 2147483647) (hsize : size ≤ 2147483647) :
    ∃ (n : Nat) (asked : Nat), inode_write_at p buffer size offset s =
        .ok ((n : Int), { s with
          fs_device := s.fs_device.overwrite (512 * inode.data.start + offset) buffer n
          asked := asked }) ∧
      s.asked ≤ asked ∧ Stopped s offset n (transfer_size inode.data.length size offset) := by
  obtain ⟨n, asked, hrun, hasked, hstop⟩ :=
    @inode_write_loop_run inode buffer size offset 0 false s hon ho (by omega)
  refine ⟨n, asked, ?_, hasked, hstop⟩
  have hderef : deref p s = .ok (inode, s) := by simp only [deref, hp]
  have hdrop : drop buffer 0 = buffer := by
    funext i
    simp [drop]
  rw [inode_write_at, Exec.bind_run hderef, if_neg (by simpa using hdeny)]
  simpa [hdrop] using hrun

end pintos.filesys
