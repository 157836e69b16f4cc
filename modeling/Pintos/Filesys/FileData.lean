import Pintos.Filesys.Handles
import Pintos.Filesys.FlatFile

/-!
# Reading and writing files of users

A transfer moves the bytes of one file, and the position in it.
-/

open twos_complement bytes state_error ownership

namespace pintos.filesys

variable {held : Ptr → Nat} {s t u : State} {p f : Ptr} {inode : filesys.inode}
  {file : filesys.file} {k n : Nat}

/-- A step that writes to one file of a user, and changes nothing else for users on the device. -/
structure Written (k : Nat) (s t : State) : Prop where
  size : t.fs_device.size = s.fs_device.size
  oom : t.oom = s.oom
  asked : s.asked ≤ t.asked
  map_file : t.free_map_file = s.free_map_file
  entries : ∀ i < 16, ∀ j < 20, entry t i j = entry s i j
  inode : disk_inode t k = disk_inode s k
  others : Untouched (Users s \ {k}) s t
  there : There t = There s

theorem Written.refl (k : Nat) (s : State) : Written k s s :=
  ⟨rfl, rfl, Nat.le_refl _, rfl, fun _ _ _ _ => rfl, rfl, fun _ _ _ _ => rfl, rfl⟩

theorem Written.handled {v : Option OpenFile} (h : Written k s t) (hk : k ∈ Users s)
    (h' : Handled held f v t u) :
    Written k s u := by
  have husers : Users t = Users s := by simp only [Users, h.there]
  have husers' : Users t ∩ Users u = Users s := by
    simp only [Users, h'.there, h.there, Set.inter_self]
  have hall := h'.users
  rw [husers'] at hall
  exact ⟨h'.size.trans h.size, h'.oom.trans h.oom, h.asked.trans h'.asked, h'.map_file.trans h.map_file,
    fun i hi j hj => (h'.entries i hi j hj).trans (h.entries i hi j hj), (hall.disk_inode_eq hk).trans h.inode,
    h.others.trans fun l hl => hall l hl.1, h'.there.trans h.there⟩

/-- The data of one file of a user is written. -/
theorem Sound.written (h : Sound held s) (hp : s.inodes p = some inode) (huser : UserSector inode.sector)
    (honly : OnlyDevice inode.data.Owns s t) :
    Written inode.sector s t ∧ Sound held t ∧ handle t = handle s ∧ SameOpen s t := by
  have hopened : inode.sector ∈ There s := opened_there hp
  have hdata := h.data p inode hp
  have howner : ∀ l ∈ There s, ∀ x ∈ sectors_of s l, inode.data.Owns x → l = inode.sector := by
    intro l hl x hx howns
    exact h.disk.owned.owner_unique hl hopened hx (.inr (hdata ▸ howns))
  have hkept : ∀ l ∈ There s, t.fs_device.sector l = s.fs_device.sector l := by
    intro l hl
    refine honly.sector l fun howns => ?_
    have heq := howner l hl l (sector_mem s l) howns
    rw [hdata, heq] at howns
    exact h.disk.inode_apart _ hopened howns
  have hroot : t.fs_device.sector (root_sector s) = s.fs_device.sector (root_sector s) := by
    refine honly.sector _ fun howns => ?_
    exact huser.2 (howner _ h.disk.root_there _ (.inr h.disk.root_owns) howns).symm
  have hsame : SameFiles (There s) s t := ⟨honly.size, hkept, hroot⟩
  have hrest : t.free_map = s.free_map ∧ t.free_map_file = s.free_map_file ∧ t.oom = s.oom ∧ SameOpen s t := by
    rw [honly.same]
    exact ⟨rfl, rfl, rfl, rfl, rfl, rfl, honly.asked⟩
  obtain ⟨hmap, hfile, hoom, hopen⟩ := hrest
  have hused : ∀ l ∈ There s, sectors_of s l ⊆ used t := by
    rw [used, hmap]
    exact h.disk.owned.used
  obtain ⟨hsound, hthere⟩ := h.on_device hopen hfile hsame hused (by rw [hmap])
  refine ⟨⟨honly.size, hoom, honly.asked, hfile, fun i hi j hj => hsame.entry_eq h.disk hi hj,
    hsame.disk_inode_eq hopened, ?_, hthere⟩, hsound, ?_, hopen⟩
  · rintro l ⟨hl, hne⟩ x hx
    exact honly.sector x fun howns => hne (howner l hl.1 x hx howns)
  · simp only [funext_iff, filesys.handle, hopen.files, hopen.inodes, implies_true]

section Transfers

/-- Where a file is after a transfer. -/
theorem moved_pos {d : inode_disk} {b : block} (hon : OnDevice b d) {pos size : Int} (hpos : 0 ≤ pos)
    (hle : pos ≤ 2147483647) (hn : n ≤ transfer_size d.length size pos) :
    int32 (pos + n) = pos + n ∧ pos + n ≤ 2147483647 := by
  have hlength := hon.length_le
  have hend : pos + n ≤ 2147483647 := by
    rw [transfer_size] at hn
    omega
  exact ⟨int32_of_range (by omega) hend, hend⟩

theorem transfer_end {length size : Int} {offset : Nat} (hn : n ≤ transfer_size length size offset)
    (hne : n ≠ 0) : ((offset + n : Nat) : Int) ≤ length := by
  rw [transfer_size] at hn
  omega

/-- Bytes are read from where the file is, as many as it has or memory allows. -/
theorem Sound.file_read (h : Sound held s) (hf : s.free_map_file ≠ some f) (hstruct : s.files f = some file)
    (hp : s.inodes file.inode = some inode) (hpos : 0 ≤ file.pos) (hle : file.pos ≤ 2147483647) (buffer : Bytes)
    {size : Int} (hsize : size ≤ 2147483647) : Returns (file_read f buffer size) s fun r t => ∃ n : Nat,
      r = ((n : Int), copy buffer 0 (s.fs_device.content (disk_inode s inode.sector).start) file.pos.toNat n) ∧
      Stopped s file.pos.toNat n (transfer_size (disk_inode s inode.sector).length size file.pos) ∧
      Handled held f (some { file := inode.sector, pos := file.pos + n, deny_write := file.deny_write }) s t := by
  obtain ⟨pos, hnat⟩ := Int.eq_ofNat_of_zero_le hpos
  have hon := (h.lies _ (opened_there hp)).on_device
  rw [← h.data _ inode hp] at hon ⊢
  obtain ⟨n, asked, hrun, hasked, hstop⟩ := inode_read_at_run hp hon buffer
    (show pos ≤ 2147483647 by omega) hsize
  rw [← hnat] at hrun hstop
  have hsteady := h.only_asked (t := { s with asked := asked }) ⟨rfl, hasked⟩
  obtain ⟨hmoved, -⟩ := moved_pos hon hpos hle hstop.le
  rw [filesys.file_read]
  apply Exec.Ends.after (deref_file_run hstruct)
  apply Exec.Ends.after hrun
  have hfile : deref_file f { s with asked := asked } = .ok (file, { s with asked := asked }) :=
      deref_file_run hstruct
  apply Exec.Ends.after hfile
  rw [hmoved]
  apply (hsteady.sound.set_pos hf hstruct hp (file.pos + n)).bind
  rintro _ t ⟨-, hhandled⟩
  refine Exec.Ends.of_ok rfl ⟨n, ?_, ?_, ?_⟩
  · rw [hnat]
    rfl
  · rw [hnat] at hstop ⊢
    exact hstop
  · exact ⟨hsteady.toCalm.trans hhandled.toCalm Set.inter_subset_left, hhandled.sound, hhandled.there,
      hhandled.handle⟩

/-- What a write of `n` bytes to an open file leaves behind. -/
structure FileWritten (held : Ptr → Nat) (f : Ptr) (file : filesys.file) (inode : filesys.inode)
    (buffer : Bytes) (size : Int) (s : State) (n : Nat) (t : State) : Prop where
  count : if inode.deny_write_cnt = 0 then
    Stopped s file.pos.toNat n (transfer_size (disk_inode s inode.sector).length size file.pos) else n = 0
  content : t.fs_device.content (disk_inode s inode.sector).start =
    copy (s.fs_device.content (disk_inode s inode.sector).start) file.pos.toNat buffer 0 n
  written : Written inode.sector s t
  sound : Sound held t
  handle : handle t = Function.update (handle s) f
    (some { file := inode.sector, pos := file.pos + n, deny_write := file.deny_write })

/-- Bytes are written to where the file is, as many as it has room for or memory allows, unless writes are denied. -/
theorem Sound.file_write (h : Sound held s) (hf : s.free_map_file ≠ some f) (hstruct : s.files f = some file)
    (hp : s.inodes file.inode = some inode) (hpos : 0 ≤ file.pos) (hle : file.pos ≤ 2147483647) (buffer : Bytes)
    {size : Int} (hsize : size ≤ 2147483647) :
    Returns (file_write f buffer size) s fun r t => ∃ n : Nat, r = n ∧
      FileWritten held f file inode buffer size s n t := by
  have huser := h.user_files f file inode hstruct hf hp
  have hmember : inode.sector ∈ Users s := ⟨opened_there hp, huser⟩
  have hdata := h.data _ inode hp
  obtain ⟨pos, hnat⟩ := Int.eq_ofNat_of_zero_le hpos
  have hon := (h.lies _ (opened_there hp)).on_device
  have hfinish : ∀ (n : Nat) (u : State), n ≤ transfer_size (disk_inode s inode.sector).length size file.pos →
      u.fs_device.content (disk_inode s inode.sector).start =
        copy (s.fs_device.content (disk_inode s inode.sector).start) file.pos.toNat buffer 0 n →
      (if inode.deny_write_cnt = 0 then
        Stopped s file.pos.toNat n (transfer_size
          (disk_inode s inode.sector).length size file.pos) else n = 0) →
      Written inode.sector s u ∧ Sound held u ∧ handle u = handle s ∧ SameOpen s u →
      Returns (do
        let file ← deref_file f
        store_file f (some { file with pos := int32 (file.pos + n) })
        return (n : Int)) u fun r t => ∃ n : Nat, r = n ∧ FileWritten held f file inode buffer size s n t := by
    rintro n u hn hcontent hcount ⟨hwritten, hsound, hhandle, hopen⟩
    obtain ⟨hmoved, -⟩ := moved_pos hon hpos hle hn
    have hstruct' : u.files f = some file := hopen.files ▸ hstruct
    apply Exec.Ends.after (deref_file_run hstruct')
    rw [hmoved]
    apply (hsound.set_pos (hwritten.map_file ▸ hf) hstruct' (hopen.inodes ▸ hp) (file.pos + n)).bind
    rintro _ t ⟨hdevice, hhandled⟩
    exact Exec.Ends.of_ok rfl ⟨n, rfl, hcount, hdevice ▸ hcontent, hwritten.handled hmember hhandled,
      hhandled.sound,
      hhandled.handle.trans (hhandle ▸ rfl)⟩
  rw [filesys.file_write]
  apply Exec.Ends.after (deref_file_run hstruct)
  by_cases hdeny : inode.deny_write_cnt = 0
  · obtain ⟨n, asked, hrun, hasked, hstop⟩ :=
      inode_write_at_run hp hdeny (hdata ▸ hon) buffer (show pos ≤ 2147483647 by omega) hsize
    rw [← hnat, hdata] at hrun hstop
    apply Exec.Ends.after hrun
    have hcontent := @block.content_overwrite s.fs_device buffer (disk_inode s inode.sector).start pos n
    have hcount : file.pos.toNat = pos := by omega
    refine hfinish n _ hstop.le (hcount ▸ hcontent) ?_ ?_
    · rw [if_pos hdeny, hcount]
      exact hstop
    · refine h.written hp huser ?_
      by_cases hzero : n = 0
      · subst hzero
        rw [block.overwrite_zero]
        exact ⟨rfl, hasked, rfl, fun _ _ => rfl⟩
      · have hend := transfer_end (hnat ▸ hstop.le) hzero
        rw [← hdata] at hon hend ⊢
        exact overwrite_only hon buffer hasked hend
  · have hnothing : inode_write_at file.inode buffer size file.pos s = .ok (((0 : Nat) : Int), s) := by
      rw [inode_write_at, Exec.bind_run (deref_run hp), if_pos hdeny]
      rfl
    apply Exec.Ends.after hnothing
    refine hfinish 0 s (Nat.zero_le _) ?_ (by rw [if_neg hdeny]) ⟨Written.refl _ s, h, rfl, Std.Refl.refl s⟩
    funext i
    exact (copy_outside (by omega)).symm

end Transfers

end pintos.filesys
