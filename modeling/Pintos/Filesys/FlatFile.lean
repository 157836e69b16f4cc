import Pintos.Filesys.Creation

/-!
# An inode's data is a flat array of bytes

A file, as its users see it, is so many bytes; a transfer moves as many as there
are from its offset on. Any sequence of `inode_read_at` and `inode_write_at`
behaves like that, and changes no other byte of the device.
-/

open twos_complement bytes state_error

namespace pintos.filesys

/-- A file as its users see it. -/
structure FlatFile where
  length : Int
  data : Bytes

/-- A call of `inode_read_at` or `inode_write_at`. -/
inductive Transfer where
  | read (buffer : Bytes) (size offset : Int)
  | write (buffer : Bytes) (size offset : Int)

/-- Sizes and offsets are of type `off_t`, and the offset is not negative. -/
def Transfer.Valid : Transfer → Prop
  | .read _ size offset | .write _ size offset =>
    0 ≤ offset ∧ offset ≤ 2147483647 ∧ -2147483648 ≤ size ∧ size ≤ 2147483647

namespace FlatFile

/-- The number of bytes that a transfer moves. -/
def count (f : FlatFile) (size offset : Int) : Int := max 0 (min size (f.length - offset))

/-- A transfer: its count, the caller's buffer and the file afterwards. -/
def transfer (f : FlatFile) : Transfer → (Int × Bytes) × FlatFile
  | .read buffer size offset =>
    ((f.count size offset, copy buffer 0 f.data offset.toNat (f.count size offset).toNat), f)
  | .write buffer size offset =>
    ((f.count size offset, buffer),
      { f with data := copy f.data offset.toNat buffer 0 (f.count size offset).toNat })

/-- A sequence of transfers. -/
def transfers (f : FlatFile) : List Transfer → List (Int × Bytes) × FlatFile
  | [] => ([], f)
  | t :: ts =>
    let (answer, f) := f.transfer t
    let (answers, f) := f.transfers ts
    (answer :: answers, f)

@[simp] theorem transfer_length (f : FlatFile) (t : Transfer) : (f.transfer t).2.length = f.length := by
  cases t <;> rfl

/-- Two files with the same bytes answer alike. -/
theorem transfer_congr {f g : FlatFile} (hlength : f.length = g.length)
    (hdata : ∀ i : Nat, (i : Int) < f.length → f.data i = g.data i) {t : Transfer} (ht : t.Valid) :
    (f.transfer t).1 = (g.transfer t).1 ∧
      ∀ i : Nat, (i : Int) < f.length → (f.transfer t).2.data i = (g.transfer t).2.data i := by
  have hcount : ∀ size offset, f.count size offset = g.count size offset := by
    intro size offset
    rw [count, count, hlength]
  cases t with
  | read buffer size offset =>
    have ho := ht.1
    refine ⟨?_, hdata⟩
    simp only [transfer, hcount]
    congr 1
    apply copy_congr
    intro i hi
    apply hdata
    rw [← hcount, count] at hi
    omega
  | write buffer size offset =>
    refine ⟨?_, ?_⟩
    · simp only [transfer, hcount]
    · intro i hi
      simp only [transfer, hcount, copy]
      rw [hdata i hi]

theorem transfers_congr (ts : List Transfer) : ∀ {f g : FlatFile}, f.length = g.length →
    (∀ i : Nat, (i : Int) < f.length → f.data i = g.data i) → (∀ t ∈ ts, t.Valid) →
    (f.transfers ts).1 = (g.transfers ts).1 ∧
      ∀ i : Nat, (i : Int) < f.length → (f.transfers ts).2.data i = (g.transfers ts).2.data i := by
  induction ts with
  | nil =>
    intro f g _ hdata _
    exact ⟨rfl, hdata⟩
  | cons t ts ih =>
    intro f g hlength hdata hvalid
    obtain ⟨hanswer, hdata'⟩ := transfer_congr hlength hdata (hvalid t (by simp))
    obtain ⟨hanswers, hrest⟩ := ih (f := (f.transfer t).2) (g := (g.transfer t).2) (by simpa using hlength)
      (by simpa using hdata') (fun t ht => hvalid t (by simp [ht]))
    refine ⟨?_, ?_⟩
    · simp only [transfers, hanswer, hanswers]
    · simpa only [transfers, transfer_length] using hrest

@[simp] theorem transfers_length (ts : List Transfer) : ∀ f : FlatFile,
    (f.transfers ts).2.length = f.length := by
  induction ts with
  | nil => exact fun _ => rfl
  | cons t ts ih =>
    intro f
    exact (ih _).trans (transfer_length f t)

end FlatFile

/-- The call on an inode. A write leaves the caller's buffer alone. -/
def transfer (p : Ptr) : Transfer → Fs (Int × Bytes)
  | .read buffer size offset => inode_read_at p buffer size offset
  | .write buffer size offset => do
    let bytes_written ← inode_write_at p buffer size offset
    return (bytes_written, buffer)

/-- A sequence of calls. -/
def transfers (p : Ptr) : List Transfer → Fs (List (Int × Bytes))
  | [] => return []
  | t :: ts => do
    let answer ← transfer p t
    let answers ← transfers p ts
    return answer :: answers

/-- The file that an inode's sectors hold. -/
def flat_file (b : block) (d : inode_disk) : FlatFile where
  length := d.length
  data := b.content d.start

/-- The devices differ at most in the `n` bytes from the one numbered `base` on. -/
def SameOutside (b b' : block) (base n : Nat) : Prop :=
  b'.size = b.size ∧ ∀ k o, 512 * k + o < base ∨ base + n ≤ 512 * k + o ∨ 512 ≤ o → b'.sector k o = b.sector k o

/-- One call does what the transfer does to the flat file. -/
theorem transfer_refines {s : State} {p : Ptr} {inode : inode} {t : Transfer} (hp : s.inodes p = some inode)
    (hdeny : inode.deny_write_cnt = 0) (hon : OnDevice s.fs_device inode.data)
    (hmem : ∀ i, s.oom i = false) (ht : t.Valid) :
    ∃ b asked, transfer p t s = .ok (((flat_file s.fs_device inode.data).transfer t).1,
        { s with fs_device := b, asked := asked }) ∧
      flat_file b inode.data = ((flat_file s.fs_device inode.data).transfer t).2 ∧
      SameOutside s.fs_device b (512 * inode.data.start) inode.data.length.toNat := by
  have hcount : ∀ {n offset : Nat} {size : Int}, Stopped s offset n
      (transfer_size inode.data.length size offset) →
      (n : Int) = (flat_file s.fs_device inode.data).count size offset := by
    intro n offset size hstop
    obtain rfl | ⟨-, -, i, hi⟩ := hstop
    · simp only [transfer_size, FlatFile.count, flat_file]
      omega
    · rw [hmem] at hi
      contradiction
  cases t with
  | read buffer size offset =>
    obtain ⟨hnonneg, ho, -, hsize⟩ := ht
    obtain ⟨offset, rfl⟩ := Int.eq_ofNat_of_zero_le hnonneg
    obtain ⟨n, asked, hrun, -, hstop⟩ := inode_read_at_run hp hon buffer
      (show offset ≤ 2147483647 by omega) hsize
    refine ⟨s.fs_device, asked, ?_, rfl, rfl, fun _ _ _ => rfl⟩
    simp only [FlatFile.transfer, ← hcount hstop, Int.toNat_natCast]
    exact hrun
  | write buffer size offset =>
    obtain ⟨hnonneg, ho, -, hsize⟩ := ht
    obtain ⟨offset, rfl⟩ := Int.eq_ofNat_of_zero_le hnonneg
    obtain ⟨n, asked, hrun, -, hstop⟩ := inode_write_at_run hp hdeny hon buffer
      (show offset ≤ 2147483647 by omega) hsize
    have hn := hcount hstop
    refine ⟨s.fs_device.overwrite (512 * inode.data.start + offset) buffer n, asked, ?_, ?_, rfl, ?_⟩
    · rw [transfer, Exec.bind_run hrun]
      simp only [FlatFile.transfer, ← hn]
      rfl
    · simp only [FlatFile.transfer, ← hn, Int.toNat_natCast]
      simp only [flat_file, block.content_overwrite]
    · intro k o hout
      apply block.overwrite_outside
      simp only [FlatFile.count, flat_file] at hn
      omega

/-- A sequence of calls does what the transfers do to the flat file. -/
theorem transfers_refine {p : Ptr} {inode : inode} (hdeny : inode.deny_write_cnt = 0) (ts : List Transfer) :
    ∀ {s : State}, s.inodes p = some inode → OnDevice s.fs_device inode.data → (∀ i, s.oom i = false) →
      (∀ t ∈ ts, t.Valid) →
      ∃ b asked, transfers p ts s = .ok (((flat_file s.fs_device inode.data).transfers ts).1,
          { s with fs_device := b, asked := asked }) ∧
        flat_file b inode.data = ((flat_file s.fs_device inode.data).transfers ts).2 ∧
        SameOutside s.fs_device b (512 * inode.data.start) inode.data.length.toNat := by
  induction ts with
  | nil =>
    intro s _ _ _ _
    exact ⟨s.fs_device, s.asked, rfl, rfl, rfl, fun _ _ _ => rfl⟩
  | cons t ts ih =>
    intro s hp hon hmem hvalid
    obtain ⟨b, asked, hrun, hfile, hsize, hsame⟩ := transfer_refines hp hdeny hon hmem (hvalid t (by simp))
    have hon' : OnDevice b inode.data :=
      ⟨hon.length_nonneg, hon.length_le, hsize ▸ hon.sectors, hsize ▸ hon.size_lt⟩
    obtain ⟨b', asked', hruns, hfiles, hsize', hsame'⟩ := ih (s := { s with fs_device := b, asked := asked })
      hp hon' hmem (fun t ht => hvalid t (by simp [ht]))
    simp only [hfile] at hruns hfiles
    refine ⟨b', asked', ?_, hfiles, hsize'.trans hsize, ?_⟩
    · rw [transfers, Exec.bind_run hrun, Exec.bind_run hruns]
      rfl
    · intro k o hout
      rw [hsame' k o hout, hsame k o hout]

/-- The open inode `p` holds the file `f`, and can be written. -/
structure HasFile (s : State) (p : Ptr) (inode : inode) (f : FlatFile) : Prop where
  is_open : s.inodes p = some inode
  writes_allowed : inode.deny_write_cnt = 0
  on_device : OnDevice s.fs_device inode.data
  length : inode.data.length = f.length
  data : ∀ i : Nat, (i : Int) < f.length → s.fs_device.content inode.data.start i = f.data i

/-- A file never written. -/
def FlatFile.zeros (length : Int) : FlatFile where
  length
  data := fun _ => 0

section Open

variable {s : State} {sector : Nat}

theorem open_inode_at_none (ps : List Ptr)
    (h : ∀ p ∈ ps, ∃ inode, s.inodes p = some inode ∧ inode.sector ≠ sector) :
    open_inode_at sector ps s = .ok (none, s) := by
  induction ps with
  | nil => rfl
  | cons p ps ih =>
    obtain ⟨inode, hp, hne⟩ := h p (by simp)
    have hderef : deref p s = .ok (inode, s) := by simp only [deref, hp]
    rw [open_inode_at, Exec.bind_run hderef, if_neg hne]
    exact ih fun q hq => h q (by simp [hq])

/-- The first opener of an inode reads it from the device. -/
theorem inode_open_first (hsector : sector < s.fs_device.size)
    (h : ∀ p ∈ s.open_inodes, ∃ inode, s.inodes p = some inode ∧ inode.sector ≠ sector)
    (hmem : s.oom s.asked = false) :
    inode_open sector s = .ok (some s.asked, { s with
      asked := s.asked + 1
      open_inodes := s.asked :: s.open_inodes
      inodes := fun q => if q = s.asked then some { sector, open_cnt := 1, removed := false,
                                                    deny_write_cnt := 0,
                                                    data := inode_disk.of_bytes (s.fs_device.sector sector) }
        else s.inodes q }) := by
  have hmalloc : malloc s = .ok (some s.asked, { s with asked := s.asked + 1 }) := by simp [malloc, hmem]
  rw [inode_open, Exec.bind_run Exec.get_run, Exec.bind_run (open_inode_at_none _ h)]
  have hread := block_read_run
    (s := { s with asked := s.asked + 1, open_inodes := s.asked :: s.open_inodes }) hsector
  simp only [Exec.bind_run hmalloc, Exec.bind_run (Exec.modify_run _)]
  rw [Exec.bind_run hread]
  rfl

end Open

/-- The calls answer as the flat file does and leave its bytes, and no others, as
the flat file has them; and an inode made by `inode_create` is a file of zeros. -/
theorem inode_data_is_flat :
    (∀ {s : State} {p : Ptr} {inode : inode} {f : FlatFile} {ts : List Transfer}, HasFile s p inode f →
      (∀ i, s.oom i = false) → (∀ t ∈ ts, t.Valid) →
      ∃ b asked, transfers p ts s = .ok ((f.transfers ts).1, { s with fs_device := b, asked := asked }) ∧
        HasFile { s with fs_device := b, asked := asked } p inode (f.transfers ts).2 ∧
        SameOutside s.fs_device b (512 * inode.data.start) inode.data.length.toNat) ∧
    (∀ {s s' : State} {fm : Option inode_disk} {sector : Nat} {length : Int}, FreeMapReady s fm →
      sector < s.fs_device.size → s.free_map.bits sector = true →
      (∀ p ∈ s.open_inodes, ∃ inode, s.inodes p = some inode ∧ inode.sector ≠ sector) →
      0 ≤ length → length ≤ 2147483647 → (∀ i, s.oom i = false) →
      inode_create sector length s = .ok (true, s') →
      ∃ p inode t, inode_open sector s' = .ok (some p, t) ∧ (∀ i, t.oom i = false) ∧
        HasFile t p inode (FlatFile.zeros length)) := by
  constructor
  · intro s p inode f ts hf hmem hvalid
    obtain ⟨b, asked, hrun, hfile, hsame⟩ :=
      transfers_refine hf.writes_allowed ts hf.is_open hf.on_device hmem hvalid
    obtain ⟨hanswers, hdata⟩ := FlatFile.transfers_congr ts (f := flat_file s.fs_device inode.data) hf.length
      (fun i hi => hf.data i (hf.length ▸ hi)) hvalid
    rw [hanswers] at hrun
    rw [← hfile] at hdata
    refine ⟨b, asked, hrun, ⟨hf.is_open, hf.writes_allowed, ?_, ?_, ?_⟩, hsame⟩
    · have hon := hf.on_device
      exact ⟨hon.length_nonneg, hon.length_le, hsame.1 ▸ hon.sectors, hsame.1 ▸ hon.size_lt⟩
    · rw [FlatFile.transfers_length]
      exact hf.length
    · intro i hi
      apply hdata
      rw [FlatFile.transfers_length, ← hf.length] at hi
      exact hi
  · intro s s' fm sector length hready hsector hused hclosed hnonneg hle hmem hcreate
    obtain ⟨r, t, hrun, -, hcreated⟩ := inode_create_run hready hsector hused hnonneg hle
    obtain ⟨rfl, rfl⟩ := Exec.ok_inj hrun hcreate
    obtain ⟨start, hfits, -, honly, hinode, hzero⟩ := hcreated rfl
    have hsize : t.fs_device.size = s.fs_device.size := honly.size
    have hclosed' : ∀ p ∈ t.open_inodes, ∃ inode, t.inodes p = some inode ∧ inode.sector ≠ sector := by
      rw [honly.same]
      exact hclosed
    have hmem' : ∀ i, t.oom i = false := by
      rw [honly.same]
      exact hmem
    have hopen := inode_open_first (hsize ▸ hsector) hclosed' (hmem' _)
    refine ⟨_, _, _, hopen, hmem', if_pos rfl, rfl, ?_, ?_, ?_⟩
    · have hsectors := le_bytes_to_sectors hnonneg hle
      have hlt := hready.size_lt
      have hdata : start + (length.toNat + 511) / 512 ≤ t.fs_device.size := by omega
      simp only [hinode]
      exact ⟨hnonneg, hle, hdata, by omega⟩
    · simp only [hinode, FlatFile.zeros]
    · intro i hi
      have hsectors := le_bytes_to_sectors hnonneg hle
      simp only [FlatFile.zeros] at hi
      simp only [hinode, block.content, FlatFile.zeros]
      exact hzero _ (by omega) (by omega) _ (by omega)

/-- A device of four sectors, the first two in use, without a free map file. -/
def small_device : State where
  fs_device := { size := 4, sector := fun _ _ => 1 }
  oom := fun _ => false
  asked := 0
  garbage := fun _ => 0
  inodes := fun _ => none
  open_inodes := []
  files := fun _ => none
  free_map := { bit_cnt := 4, bits := fun k => decide (k < 2) }
  free_map_file := none

/-- A file of five bytes in sector 1: three bytes written from byte 1 on, and then
all of them read. -/
theorem inode_data_is_flat_small :
    ∃ p t t' answers, transfers p [.write (fun i => BitVec.ofNat 8 (i + 7)) 3 1, .read (fun _ => 6) 9 0] t =
        .ok (answers, t') ∧ answers.map Prod.fst = [3, 5] ∧
      (answers.map fun answer => (List.range 6).map answer.2) =
      [[7, 8, 9, 10, 11, 12], [0, 7, 8, 9, 0, 6]] := by
  have hready : FreeMapReady small_device none := ⟨rfl, by decide, fun _ => rfl, nofun⟩
  obtain ⟨p, inode, t, hopen, hmem, hfile⟩ := inode_data_is_flat.2 (s := small_device) hready
    (by decide : 1 < 4) rfl nofun (by decide : (0 : Int) ≤ 5) (by decide) (fun _ => rfl) rfl
  obtain ⟨b, asked, hrun, -⟩ := inode_data_is_flat.1 hfile hmem (show ∀ t ∈
    [Transfer.write (fun i => BitVec.ofNat 8 (i + 7)) 3 1, .read (fun _ => 6) 9 0],
    t.Valid by simp [Transfer.Valid])
  exact ⟨p, t, _, _, hrun, by decide, by decide⟩

end pintos.filesys
