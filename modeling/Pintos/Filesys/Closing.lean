import Pintos.Filesys.Sound

/-!
# Closing and removing

The last opener of a file that is removed gives its sectors back, and no sector of another file.
-/

open twos_complement bytes state_error ownership

namespace pintos.filesys

variable {held : Ptr → Nat} {s t u : State} {p f : Ptr} {inode : filesys.inode} {k : Nat}

section Release

variable {fm : Option inode_disk}

/-- Structures in memory besides those of the free map's file do not matter to it. -/
theorem FreeMapReady.beside (h : FreeMapReady s fm) (hnone : s.inodes p = none)
    (hmap : t.free_map = s.free_map) (hdevice : t.fs_device = s.fs_device)
    (hfile : t.free_map_file = s.free_map_file)
    (hfiles : ∀ g, s.free_map_file = some g → t.files g = s.files g)
    (hother : ∀ q, q ≠ p → t.inodes q = s.inodes q) : FreeMapReady t fm := by
  obtain ⟨hcnt, hlt, habsent, hopen⟩ := h
  refine ⟨by rw [hmap, hdevice, hcnt], hdevice ▸ hlt, fun hnone => hfile.trans (habsent hnone), fun d hd => ?_⟩
  obtain ⟨f, file, i, hf, hstruct, hi, hdeny, hdata, hon⟩ := hopen d hd
  refine ⟨f, file, i, hfile.trans hf, (hfiles f hf).trans hstruct, (hother _ ?_).trans hi, hdeny, hdata,
    hdevice ▸ hon⟩
  intro heq
  rw [heq, hnone] at hi
  cases hi

/-- Sectors in use are given back. -/
theorem free_map_release_only {d : inode_disk} (hready : FreeMapReady s (some d)) {sector cnt : Nat}
    (hin : sector + cnt ≤ s.fs_device.size) (hall : ∀ x, sector ≤ x → x < sector + cnt →
    s.free_map.bits x = true) :
    ∃ t, free_map_release sector cnt s = .ok ((), t) ∧ SameOpen s t ∧
      OnlyDevice (MapSector (some d)) { s with free_map := s.free_map.set sector cnt false } t := by
  have hset : s.free_map.all sector cnt = true :=
    bitmap.all_iff.mpr fun i hi => hall _ (Nat.le_add_right _ _) (by omega)
  obtain ⟨t, hrun, hopen⟩ := free_map_release_run hready hin hset
  exact ⟨t, hrun, hopen, (free_map_release_ends hready sector cnt).1 () t hrun⟩

end Release

section Forget

/-- The last opener that is not a file has gone. -/
theorem Sound.forget (h : Sound held s) (hheld : 0 < held p) (hp : s.inodes p = some inode)
    (hlast : inode.open_cnt - 1 = 0) (ht : t = { s with
      open_inodes := s.open_inodes.erase p
      inodes := fun q => if q = p then none else s.inodes q }) :
    Sound (release held p) t ∧ Calm s t ∧ handle t = handle s ∧ There t ⊆ There s ∧
      (∀ k ∈ There s, k ≠ inode.sector → k ∈ There t) ∧ ¬ Opened t inode.sector := by
  have hinodes : t.inodes = fun q => if q = p then none else s.inodes q := by rw [ht]
  have hopen : t.open_inodes = s.open_inodes.erase p ∧ t.files = s.files ∧ t.asked = s.asked := by
    rw [ht]
    exact ⟨rfl, rfl, rfl⟩
  have hkept : ∀ q i, t.inodes q = some i → q ≠ p ∧ s.inodes q = some i := by
    intro q i hq
    rw [hinodes] at hq
    simp only at hq
    split_ifs at hq with hqp
    exact ⟨hqp, hq⟩
  have hstays : ∀ q i, s.inodes q = some i → q ≠ p → t.inodes q = some i := by
    intro q i hq hne
    rw [hinodes]
    exact (if_neg hne).trans hq
  have hdevice : SameDevice s t := by
    rw [ht]
    exact ⟨rfl, rfl, rfl, rfl, Nat.le_refl _⟩
  have hcounted : Counted (release held p) t := by
    refine h.counted.close hheld hp hopen.2.2.ge hopen.2.1 ?_
    rw [hinodes, dropped, if_pos hlast]
  have hagree : ∀ q i j, s.inodes q = some i → t.inodes q = some j → j.sector = i.sector := by
    intro q i j hi hj
    rw [(hkept q j hj).2] at hi
    rw [Option.some.inj hi]
  have hthere : There t ⊆ There s := by
    rintro k (hk | hk | hk | ⟨q, i, hq, rfl⟩)
    · exact .inl hk
    · exact .inr (.inl hk)
    · exact named_there (hdevice.named_iff.mp hk)
    · exact opened_there (hkept q i hq).2
  refine ⟨h.in_memory hdevice hthere hcounted (fun g => .inl (congrFun hopen.2.1 g)) hagree
    (fun q => ?_) ?_ ?_ ?_ ?_,
    hdevice.calm,
    handle_congr h.counted hcounted hopen.2.1 hagree, hthere, ?_, ?_⟩
  · rw [hopen.1, h.nodup.mem_erase_iff, h.listed, hinodes]
    by_cases hq : q = p
    · simp [hq]
    · simp [hq]
  · rw [hopen.1]
    exact h.nodup.erase p
  · exact fun q q' i i' hi hi' hsector => h.one_inode q q' i i' (hkept q i hi).2 (hkept q' i' hi').2 hsector
  · exact fun q i hi => h.data q i (hkept q i hi).2
  · exact fun q i hi => h.removed q i (hkept q i hi).2
  · rintro k (hk | hk | hk | ⟨q, i, hq, rfl⟩) hne
    · exact .inl hk
    · exact .inr (.inl hk)
    · exact named_there (hdevice.named_iff.mpr hk)
    · refine opened_there (hstays q i hq ?_)
      rintro rfl
      exact hne (congrArg filesys.inode.sector (Option.some.inj (hq.symm.trans hp)))
  · rintro ⟨q, i, hq, hsector⟩
    exact (hkept q i hq).1 (h.one_inode q p i inode (hkept q i hq).2 hp hsector)

end Forget

section Close

/-- What closing an inode leaves behind. -/
structure Closed (held : Ptr → Nat) (p : Ptr) (inode : filesys.inode) (s t : State) :
    Prop extends Calm s t where
  sound : Sound (release held p) t
  there : There t ⊆ There s
  others : ∀ k ∈ There s, k ≠ inode.sector → k ∈ There t
  files : t.files = s.files
  handle : handle t = handle s
  stays : inode.open_cnt ≠ 1 → There t = There s
  gone : inode.open_cnt = 1 → ¬ Opened t inode.sector
  agree : ∀ q i j, s.inodes q = some i → t.inodes q = some j → j.sector = i.sector
  freed : used t = if inode.open_cnt = 1 ∧
    inode.removed = true then used s \ sectors_of s inode.sector else used s

/-- A file that stays there when it is closed. -/
theorem Closed.there_eq (h : Closed held p inode s t) (hstays : inode.sector ∈ There t) :
    There t = There s := by
  apply h.there.antisymm
  intro k hk
  by_cases heq : k = inode.sector
  · exact heq ▸ hstays
  · exact h.others k hk heq

/-- The free map without the sectors of the file. -/
def bitmap.without (b : bitmap) (inode : filesys.inode) : bitmap :=
  (b.set inode.sector 1 false).set inode.data.start (bytes_to_sectors inode.data.length) false

theorem bitmap.without_bits (b : bitmap) (inode : filesys.inode) (x : Nat) :
    (b.without inode).bits x = true ↔ b.bits x = true ∧ x ≠ inode.sector ∧ ¬ inode.data.Owns x := by
  simp only [without, set, inode_disk.Owns]
  split_ifs with hdata hsector
  · simp [hdata]
  · simp only [false_iff]
    rintro ⟨-, hne, -⟩
    omega
  · have hne : x ≠ inode.sector := by omega
    simp [hdata, hne]

/-- The inode of a removed file, and then its data, are given back. -/
theorem Sound.give_back (h : Sound held s) (hp : s.inodes p = some inode)
    (hready : FreeMapReady t (some (disk_inode s FREE_MAP_SECTOR)))
    (hmap : t.free_map = s.free_map) (hsize : t.fs_device.size = s.fs_device.size) :
    ∃ u v, free_map_release inode.sector 1 t = .ok ((), u) ∧
      free_map_release inode.data.start (bytes_to_sectors inode.data.length) u = .ok ((), v) ∧
      OnlyDevice (MapSector (some (disk_inode s FREE_MAP_SECTOR)))
        { t with free_map := s.free_map.without inode } v := by
  have hthere : inode.sector ∈ There s := opened_there hp
  have hdata := h.data p inode hp
  have hused := h.disk.owned.used _ hthere
  have hapart := h.disk.inode_apart _ hthere
  have hfits := (h.lies _ hthere).fits
  rw [← hdata] at hapart hfits
  have hsector : inode.sector < t.fs_device.size := hsize ▸ h.disk.in_range _ hthere _ (sector_mem s _)
  obtain ⟨u, hfirst, hopen, honly⟩ := @free_map_release_only t _ hready inode.sector 1 hsector
    fun x hlow hhigh => by
      obtain rfl : x = inode.sector := by omega
      rw [hmap]
      exact hused (sector_mem s _)
  have hready' := (hready.mark (b := t.free_map.set inode.sector 1 false) rfl).only honly
  have hbits : u.free_map = s.free_map.set inode.sector 1 false := by rw [honly.same, ← hmap]
  obtain ⟨v, hsecond, hopen', honly'⟩ := @free_map_release_only u _ hready' inode.data.start
    (bytes_to_sectors inode.data.length) (honly.size ▸ hsize ▸ hfits) fun x hlow hhigh => by
      have hbit : s.free_map.bits x = true := hused (.inr (hdata ▸ ⟨hlow, hhigh⟩))
      have hne : ¬ (inode.sector ≤ x ∧ x < inode.sector + 1) := by
        intro hin
        obtain rfl : x = inode.sector := by omega
        exact hapart ⟨hlow, hhigh⟩
      rw [hbits, bitmap.set]
      simp only [if_neg hne, hbit]
  refine ⟨u, v, hfirst, hsecond, ?_, honly.asked.trans honly'.asked,
    honly'.size.trans honly.size, fun x hx => (honly'.sector x hx).trans (honly.sector x hx)⟩
  rw [honly'.same, hbits, honly.same, bitmap.without]

/-- What is left when the last opener has gone. -/
theorem Sound.closed_last (h : Sound held s) (hheld : 0 < held p) (hp : s.inodes p = some inode)
    (hone : inode.open_cnt = 1) {b : bitmap}
    (hb : b = if inode.removed = true then s.free_map.without inode else s.free_map)
    (honly : OnlyDevice (MapSector (some (disk_inode s FREE_MAP_SECTOR))) { s with
      open_inodes := s.open_inodes.erase p
      inodes := fun q => if q = p then none else s.inodes q
      free_map := b } t) : Closed held p inode s t := by
  obtain ⟨w, hw⟩ : ∃ w : State, w = { s with
      open_inodes := s.open_inodes.erase p
      inodes := fun q => if q = p then none else s.inodes q } := ⟨_, rfl⟩
  obtain ⟨hsound, hcalm, hhandle, hthere, hothers, hgone⟩ := h.forget hheld hp (by omega) hw
  have hdevice : w.fs_device = s.fs_device ∧ w.free_map = s.free_map ∧ w.files = s.files := by
    rw [hw]
    exact ⟨rfl, rfl, rfl⟩
  have hinode : ∀ k, disk_inode w k = disk_inode s k := by
    intro k
    rw [disk_inode, hdevice.1]
    rfl
  have hsectors : ∀ k, sectors_of w k = sectors_of s k := by
    intro k
    rw [sectors_of, hinode]
    rfl
  have hopened : inode.sector ∈ There s := opened_there hp
  have howns : ∀ x, x ∈ sectors_of s inode.sector ↔ x = inode.sector ∨ inode.data.Owns x := by
    intro x
    rw [h.data p inode hp]
    rfl
  have hcnt : b.bit_cnt = w.free_map.bit_cnt := by
    rw [hb, hdevice.2.1]
    split_ifs <;> rfl
  have hused : ∀ k ∈ There w, ∀ x ∈ sectors_of w k, b.bits x = true := by
    intro k hk x hx
    rw [hsectors] at hx
    have hbit : s.free_map.bits x = true := h.disk.owned.used k (hthere hk) hx
    rw [hb]
    split_ifs with hremoved
    · -- The file is no longer named, and nobody else has it open.
      obtain ⟨hunnamed, hmap, hroot⟩ := h.removed p inode hp hremoved
      have hne : k ≠ inode.sector := by
        rintro rfl
        rcases hk with hk | hk | hk | hk
        · exact hmap hk
        · exact hroot hk
        · refine hunnamed ?_
          simpa only [Named, entry, hdevice.1, hinode] using hk
        · exact hgone hk
      have hnot : x ∉ sectors_of s inode.sector := fun hx' =>
        hne (h.disk.owned.owner_unique (hthere hk) hopened hx hx')
      rw [howns, not_or] at hnot
      exact (bitmap.without_bits _ _ x).mpr ⟨hbit, hnot⟩
    · exact hbit
  have hsteady : Steady (release held p) w t := by
    refine hsound.only_map hcnt hused ?_
    rw [hinode, hw]
    exact honly
  refine ⟨hcalm.trans hsteady.toCalm (hsteady.there ▸ Set.inter_subset_right), hsteady.sound,
    hsteady.there ▸ hthere, fun k hk hne => hsteady.there ▸ hothers k hk hne, ?_, hsteady.handle.trans hhandle,
    fun hmore => absurd hone hmore, fun _ => ?_, fun q i j hi hj => ?_, ?_⟩
  · rw [honly.same]
  · rw [Opened, honly.same]
    rw [Opened, hw] at hgone
    exact hgone
  · rw [honly.same] at hj
    simp only at hj
    split_ifs at hj
    rw [hi] at hj
    rw [Option.some.inj hj]
  · have hmap : t.free_map = b := by rw [honly.same]
    rw [used, hmap, hb]
    by_cases hremoved : inode.removed = true
    · rw [if_pos hremoved, if_pos ⟨hone, hremoved⟩]
      ext x
      rw [Set.mem_ofPred_eq, bitmap.without_bits, Set.mem_sdiff, howns, not_or]
      rfl
    · rw [if_neg hremoved, if_neg fun hboth => hremoved hboth.2]
      rfl

/-- The structure is freed. -/
theorem store_inode_none {v : Option filesys.inode}
    (hinodes : t.inodes = fun q => if q = p then v else s.inodes q) : store_inode p none t =
      .ok ((), { t with inodes := fun q => if q = p then none else s.inodes q }) := by
  have hfree : (fun q => if q = p then none else t.inodes q) = fun q => if q = p then none else s.inodes q := by
    rw [hinodes]
    funext q
    simp only
    split_ifs <;> rfl
  rw [store_inode, Exec.modify_run, hfree]

/-- One opener that is not a file closes the inode, while a file that has gave up its reference is still there. -/
theorem Sound.inode_close_beside {files : Ptr → Option filesys.file} (h : Sound held { s with files := files })
    (hfiles : ∀ g, s.free_map_file = some g → s.files g = files g) (hheld : 0 < held p)
    (hp : s.inodes p = some inode) :
    Returns (inode_close (some p)) s fun _ t => t.files = s.files ∧
      Closed held p inode { s with files := files } { t with files := files } := by
  rw [filesys.inode_close]
  apply Exec.Ends.after (deref_run hp)
  apply Exec.Ends.after (Exec.modify_run _)
  by_cases hlast : inode.open_cnt - 1 = 0
  · have hone : inode.open_cnt = 1 := by omega
    rw [if_pos hlast]
    apply Exec.Ends.after (Exec.modify_run _)
    split_ifs with hremoved
    · obtain ⟨w, hw⟩ : ∃ w : State, w = { s with
          files := files
          open_inodes := s.open_inodes.erase p
          inodes := fun q => if q = p then none else s.inodes q } := ⟨_, rfl⟩
      have hsound := (h.forget hheld hp hlast hw).1
      have hready : FreeMapReady w (some (disk_inode s FREE_MAP_SECTOR)) := by
        have hmap := hsound.map.ready
        rw [disk_inode, hw] at hmap
        rw [hw]
        exact hmap
      have hclosing : ∀ t : State, t.free_map = s.free_map → t.fs_device = s.fs_device →
          t.free_map_file = s.free_map_file → t.files = s.files → (∀ q, q ≠ p → t.inodes q = s.inodes q) →
          FreeMapReady t (some (disk_inode s FREE_MAP_SECTOR)) := by
        intro t hmap hdevice hfile hsame hother
        refine hready.beside (p := p) ?_ ?_ ?_ ?_ ?_ ?_ <;> rw [hw]
        · exact if_pos rfl
        · exact hmap
        · exact hdevice
        · exact hfile
        · intro g hg
          rw [hsame]
          exact hfiles g hg
        · intro q hq
          exact (hother q hq).trans (if_neg hq).symm
      obtain ⟨u, v, hfirst, hsecond, honly⟩ := h.give_back hp
        (hclosing { s with
          open_inodes := s.open_inodes.erase p
          inodes := fun q => if q = p then some
            { inode with open_cnt := inode.open_cnt - 1 } else s.inodes q } rfl rfl rfl rfl fun q hq =>
            if_neg hq) rfl rfl
      apply Exec.Ends.after hfirst
      apply Exec.Ends.after hsecond
      have hinodes : v.inodes = fun q => if q = p then some
          { inode with open_cnt := inode.open_cnt - 1 } else s.inodes q := by rw [honly.same]
      refine Exec.Ends.of_ok (store_inode_none hinodes) ⟨by rw [honly.same], h.closed_last hheld hp hone
        (if_pos hremoved).symm ⟨?_, honly.asked, honly.size, honly.sector⟩⟩
      rw [honly.same]
    · exact Exec.Ends.of_ok (store_inode_none rfl) ⟨rfl, h.closed_last hheld hp hone (if_neg hremoved).symm
        ⟨rfl, Nat.le_refl _, rfl, fun _ _ => rfl⟩⟩
  · rw [if_neg hlast]
    have hmore : inode.open_cnt ≠ 1 := by omega
    have hdropped : dropped inode = some { inode with open_cnt := inode.open_cnt - 1 } := if_neg hlast
    have hsteady := h.recount hp rfl (h.counted.close hheld hp (Nat.le_refl _) rfl (by rw [hdropped]))
    refine Exec.Ends.of_ok rfl ⟨rfl, hsteady.toCalm, hsteady.sound, hsteady.there.subset,
      fun k hk _ => hsteady.there ▸ hk, rfl, hsteady.handle, fun _ => hsteady.there,
        fun hone => absurd hone hmore,
      fun q i j hi hj => ?_, (if_neg fun hone => hmore hone.1).symm⟩
    simp only at hi hj
    split_ifs at hj with hqp
    · obtain rfl := Option.some.inj (hp.symm.trans (hqp ▸ hi))
      rw [← Option.some.inj hj]
    · rw [hi] at hj
      rw [Option.some.inj hj]

/-- One opener that is not a file closes the inode. -/
theorem Sound.inode_close (h : Sound held s) (hheld : 0 < held p) (hp : s.inodes p = some inode) :
    Returns (inode_close (some p)) s fun _ t => Closed held p inode s t := by
  have hclose : Returns (filesys.inode_close (some p)) s fun _ t => t.files = s.files ∧
      Closed held p inode s { t with files := s.files } := h.inode_close_beside (fun _ _ => rfl) hheld hp
  apply hclose.mono
  rintro _ t ⟨hfiles, hclosed⟩
  rwa [← hfiles] at hclosed

end Close

end pintos.filesys
