import Pintos.Lib.Sharing
import Pintos.Filesys.OpenFiles

/-!
# How often an inode is open and denied (`filesys/inode.c`, `filesys/file.c`)

An inode counts its openers and those of them that deny writes. The open files that refer to it
and their `deny_write` flags say what these counts should be.
-/

open twos_complement bytes state_error sharing

namespace pintos.filesys

/-- The open files as handles of inodes. `held` are the references to inodes that other code
has. -/
def table (held : Ptr → Nat) (s : State) : Table Ptr Ptr where
  handle f := (s.files f).map fun file => (file.inode, file.deny_write)
  held := held

/-- One reference more that other code has. -/
def acquire (held : Ptr → Nat) (p : Ptr) : Ptr → Nat := fun q => if q = p then held q + 1 else held q

/-- One reference less. -/
def release (held : Ptr → Nat) (p : Ptr) : Ptr → Nat := fun q => if q = p then held q - 1 else held q

/-- An inode that one opener less has open. -/
def dropped (inode : inode) : Option filesys.inode :=
  if inode.open_cnt - 1 = 0 then none else some { inode with open_cnt := inode.open_cnt - 1 }

/-- The counts of the inode at `p`, which is in memory as long as there are references to it. -/
def Counts (t : Table Ptr Ptr) (p : Ptr) : Option inode → Prop
  | none => t.references p = 0
  | some inode => 0 < t.references p ∧ inode.open_cnt = t.references p ∧ inode.deny_write_cnt = t.flags p

/-- The counts of all inodes are right, and structures are where `malloc` has put them. -/
structure Counted (held : Ptr → Nat) (s : State) : Prop where
  files : ∀ f, s.asked ≤ f → s.files f = none
  inodes : ∀ p, s.asked ≤ p → s.inodes p = none
  counts : ∀ p, Counts (table held s) p (s.inodes p)

section Table

variable {held : Ptr → Nat} {s s' : State} {f p : Ptr} {file : file} {inode : inode}

theorem table_handle (held : Ptr → Nat) (hf : s.files f = some file) :
    (table held s).handle f = some (file.inode, file.deny_write) := by
  simp [table, hf]

/-- One file changed. -/
theorem table_set {v : Option filesys.file} (h : s'.files = fun g => if g = f then v else s.files g) :
    table held s' = (table held s).set f (v.map fun file => (file.inode, file.deny_write)) := by
  simp only [table, Table.set, h, Table.mk.injEq, and_true]
  funext g
  split_ifs <;> rfl

theorem table_congr (h : s'.files = s.files) : table held s' = table held s := by
  simp only [table, h]

namespace Counted

theorem finite (h : Counted held s) : (table held s).Finite := by
  intro p
  apply (Set.finite_lt_nat s.asked).subset
  intro f hf
  by_contra hnot
  have hnone := h.files f (Nat.le_of_not_lt hnot)
  simp [Table.handles, table, hnone] at hf

theorem at_inode (h : Counted held s) (hp : s.inodes p = some inode) :
    0 < (table held s).references p ∧ inode.open_cnt = (table held s).references p ∧
      inode.deny_write_cnt = (table held s).flags p := by
  have hcounts := h.counts p
  rwa [hp] at hcounts

/-- An open file refers to an inode in memory. -/
theorem inode_of_file (h : Counted held s) (hf : s.files f = some file) :
    ∃ inode, s.inodes file.inode = some inode := by
  cases hp : s.inodes file.inode with
  | some inode => exact ⟨inode, rfl⟩
  | none =>
    have hcounts := h.counts file.inode
    have hpos := h.finite.references_pos (table_handle held hf)
    rw [hp] at hcounts
    exact absurd hcounts hpos.ne'

/-- A reference that other code has is to an inode in memory. -/
theorem inode_of_held (h : Counted held s) (hp : 0 < held p) : ∃ inode, s.inodes p = some inode := by
  cases hinode : s.inodes p with
  | some inode => exact ⟨inode, rfl⟩
  | none =>
    have hcounts := h.counts p
    rw [hinode] at hcounts
    have hzero : ((table held s).handles p).ncard + held p = 0 := hcounts
    omega

theorem same (h : Counted held s) (hsame : SameOpen s s') : Counted held s' where
  files f hf := by
    rw [hsame.files]
    exact h.files f (hsame.asked.trans hf)
  inodes p hp := by
    rw [hsame.inodes]
    exact h.inodes p (hsame.asked.trans hp)
  counts p := by
    rw [table_congr hsame.files, hsame.inodes]
    exact h.counts p

/-- A file comes to be open in a new block, or one that is open changes. -/
theorem set_file {v : Option filesys.file} {held' : Ptr → Nat} (h : Counted held s)
    (hasked : s.asked ≤ s'.asked)
    (hf : f < s'.asked) (hfiles : s'.files = fun g => if g = f then v else s.files g)
    (hinodes : s'.inodes = s.inodes)
    (hreferences : ∀ q, (table held' s').references q = (table held s).references q)
    (hflags : ∀ q, (table held' s').flags q = (table held s).flags q) : Counted held' s' where
  files g hg := by
    rw [hfiles]
    exact (if_neg (hf.trans_le hg).ne').trans (h.files g (hasked.trans hg))
  inodes p hp := by
    rw [hinodes]
    exact h.inodes p (hasked.trans hp)
  counts p := by
    have hcounts := h.counts p
    rw [hinodes]
    cases hp : s.inodes p with
    | none =>
      rw [hp] at hcounts
      exact (hreferences p).trans hcounts
    | some inode =>
      rw [hp] at hcounts
      simpa only [Counts, hreferences, hflags] using hcounts

/-- An inode and its references change together. -/
theorem set_inode {v : Option filesys.inode} {held' : Ptr → Nat} (h : Counted held s)
    (hasked : s.asked ≤ s'.asked) (hp : p < s'.asked) (hfiles : ∀ g, s'.asked ≤ g → s'.files g = none)
    (hinodes : s'.inodes = fun q => if q = p then v else s.inodes q)
    (hother : ∀ q, q ≠ p → (table held' s').references q = (table held s).references q ∧
      (table held' s').flags q = (table held s).flags q)
    (hcounts : Counts (table held' s') p v) : Counted held' s' where
  files := hfiles
  inodes q hq := by
    rw [hinodes]
    exact (if_neg (hp.trans_le hq).ne').trans (h.inodes q (hasked.trans hq))
  counts q := by
    rw [hinodes]
    by_cases hqp : q = p
    · subst hqp
      simpa using hcounts
    · have hq := h.counts q
      simp only [if_neg hqp]
      cases hinode : s.inodes q with
      | none =>
        rw [hinode] at hq
        exact (hother q hqp).1.trans hq
      | some inode =>
        rw [hinode] at hq
        simpa only [Counts, (hother q hqp).1, (hother q hqp).2] using hq

theorem lt_asked_of_inode (h : Counted held s) (hp : s.inodes p = some inode) : p < s.asked := by
  by_contra hnot
  rw [h.inodes p (Nat.le_of_not_lt hnot)] at hp
  cases hp

theorem lt_asked_of_file (h : Counted held s) (hf : s.files f = some file) : f < s.asked := by
  by_contra hnot
  rw [h.files f (Nat.le_of_not_lt hnot)] at hf
  cases hf

theorem files_above (h : Counted held s) (hasked : s.asked ≤ s'.asked) (hfiles : s'.files = s.files) :
    ∀ g, s'.asked ≤ g → s'.files g = none := by
  intro g hg
  rw [hfiles]
  exact h.files g (hasked.trans hg)

/-- Someone opens an inode that is in memory. -/
theorem reopen (h : Counted held s) (hp : s.inodes p = some inode) (hasked : s.asked ≤ s'.asked)
    (hfiles : s'.files = s.files)
    (hinodes : s'.inodes = fun q => if q = p then some { inode with open_cnt := inode.open_cnt + 1 }
      else s.inodes q) : Counted (acquire held p) s' := by
  obtain ⟨hpos, hopen, hdeny⟩ := h.at_inode hp
  have htable : table (acquire held p) s' = (table held s).acquire p := table_congr hfiles
  apply h.set_inode hasked ((h.lt_asked_of_inode hp).trans_le hasked) (h.files_above hasked hfiles) hinodes
  · intro q hq
    have hreferences := (table held s).references_acquire p q
    rw [if_neg hq] at hreferences
    rw [htable]
    exact ⟨hreferences, rfl⟩
  · have hreferences := (table held s).references_acquire p p
    rw [if_pos rfl] at hreferences
    rw [htable]
    refine ⟨by omega, ?_, hdeny⟩
    simp only
    omega

/-- An inode is read into a new block. -/
theorem create (h : Counted held s) (hasked : s.asked ≤ s'.asked) (hlow : s.asked ≤ p) (hp : p < s'.asked)
    (hfiles : s'.files = s.files) (hinodes : s'.inodes = fun q => if q = p then some inode else s.inodes q)
    (hopen : inode.open_cnt = 1) (hdeny : inode.deny_write_cnt = 0) : Counted (acquire held p) s' := by
  have htable : table (acquire held p) s' = (table held s).acquire p := table_congr hfiles
  have hnone := h.counts p
  rw [h.inodes p hlow] at hnone
  have hzero : (table held s).references p = 0 := hnone
  have hflags := h.finite.flags_le p
  apply h.set_inode hasked hp (h.files_above hasked hfiles) hinodes
  · intro q hq
    have hreferences := (table held s).references_acquire p q
    rw [if_neg hq] at hreferences
    rw [htable]
    exact ⟨hreferences, rfl⟩
  · have hreferences := (table held s).references_acquire p p
    rw [if_pos rfl, hzero] at hreferences
    rw [htable]
    refine ⟨by omega, by omega, ?_⟩
    rw [Table.flags_acquire]
    omega

/-- An opener other than a file closes an inode. -/
theorem close (h : Counted held s) (hheld : 0 < held p) (hp : s.inodes p = some inode)
    (hasked : s.asked ≤ s'.asked) (hfiles : s'.files = s.files)
    (hinodes : s'.inodes = fun q => if q = p then dropped inode else s.inodes q) :
    Counted (release held p) s' := by
  obtain ⟨hpos, hopen, hdeny⟩ := h.at_inode hp
  have htable : table (release held p) s' = (table held s).release p := table_congr hfiles
  have hreferences := fun q => Table.references_release (t := table held s) hheld q
  apply h.set_inode hasked ((h.lt_asked_of_inode hp).trans_le hasked) (h.files_above hasked hfiles) hinodes
  · intro q hq
    have hq' := hreferences q
    rw [if_neg hq, Nat.add_zero] at hq'
    rw [htable]
    exact ⟨hq', rfl⟩
  · have hp' := hreferences p
    rw [if_pos rfl] at hp'
    rw [htable, dropped]
    split_ifs with hlast
    · change ((table held s).release p).references p = 0
      omega
    · refine ⟨by omega, ?_, hdeny⟩
      simp only
      omega

/-- A reference is handed over to a new file. -/
theorem attach (h : Counted held s) (hheld : 0 < held p) (hasked : s.asked ≤ s'.asked) (hlow : s.asked ≤ f)
    (hf : f < s'.asked) {pos : Int}
    (hfiles : s'.files = fun g => if g = f then some { inode := p, pos, deny_write := false } else s.files g)
    (hinodes : s'.inodes = s.inodes) : Counted (release held p) s' := by
  have htable : table (release held p) s' = (table held s).attach f p := table_set hfiles
  have hnew : (table held s).handle f = none := by simp [table, h.files f hlow]
  apply h.set_file hasked hf hfiles hinodes
  · intro q
    rw [htable]
    exact Table.references_attach h.finite hnew hheld q
  · intro q
    rw [htable]
    exact Table.flags_attach h.finite hnew p q

/-- A file that denies no writes goes, and leaves its reference behind. -/
theorem detach (h : Counted held s) (hf : s.files f = some file) (hallowed : file.deny_write = false)
    (hasked : s.asked ≤ s'.asked) (hfiles : s'.files = fun g => if g = f then none else s.files g)
    (hinodes : s'.inodes = s.inodes) : Counted (acquire held file.inode) s' := by
  have htable : table (acquire held file.inode) s' = (table held s).detach f file.inode := table_set hfiles
  have hhandle := table_handle held hf
  rw [hallowed] at hhandle
  apply h.set_file hasked ((h.lt_asked_of_file hf).trans_le hasked) hfiles hinodes
  · intro q
    rw [htable]
    exact Table.references_detach h.finite hhandle q
  · intro q
    rw [htable]
    exact Table.flags_detach h.finite hhandle q

/-- A file changes its position. -/
theorem seek (h : Counted held s) (hf : s.files f = some file) (hasked : s.asked ≤ s'.asked) {pos : Int}
    (hfiles : s'.files = fun g => if g = f then some { file with pos } else s.files g)
    (hinodes : s'.inodes = s.inodes) : Counted held s' := by
  have htable : table held s' = (table held s).set f (some (file.inode, file.deny_write)) := table_set hfiles
  have hhandle := table_handle held hf
  have hsame : (table held s).set f (some (file.inode, file.deny_write)) = table held s := by
    rw [← hhandle]
    exact Table.set_self _ _
  rw [hsame] at htable
  apply h.set_file hasked ((h.lt_asked_of_file hf).trans_le hasked) hfiles hinodes
  · intro q
    rw [htable]
  · intro q
    rw [htable]

/-- A file that denies no writes begins to. -/
theorem deny (h : Counted held s) (hf : s.files f = some file) (hallowed : file.deny_write = false)
    (hp : s.inodes file.inode = some inode) (hasked : s.asked ≤ s'.asked)
    (hfiles : s'.files = fun g => if g = f then some { file with deny_write := true } else s.files g)
    (hinodes : s'.inodes = fun q => if q = file.inode then
      some { inode with deny_write_cnt := inode.deny_write_cnt + 1 } else s.inodes q) :
    Counted held s' := by
  obtain ⟨hpos, hopen, hdeny⟩ := h.at_inode hp
  have htable : table held s' = (table held s).set f (some (file.inode, true)) := table_set hfiles
  have hhandle := table_handle held hf
  rw [hallowed] at hhandle
  have hreferences := Table.references_flag h.finite hhandle true
  have hflags := Table.flags_raise h.finite hhandle
  apply h.set_inode hasked ((h.lt_asked_of_inode hp).trans_le hasked) _ hinodes
  · intro q hq
    have hq' := hflags q
    rw [if_neg hq] at hq'
    rw [htable]
    exact ⟨hreferences q, hq'⟩
  · have hp' := hflags file.inode
    rw [if_pos rfl] at hp'
    rw [htable]
    refine ⟨?_, ?_, ?_⟩
    · rw [hreferences]
      exact hpos
    · rw [hreferences]
      exact hopen
    · rw [hp']
      simp only
      omega
  · intro g hg
    rw [hfiles]
    exact (if_neg ((h.lt_asked_of_file hf).trans_le (hasked.trans hg)).ne').trans (h.files g (hasked.trans hg))

/-- A file that denies writes stops doing so. -/
theorem allow (h : Counted held s) (hf : s.files f = some file) (hdenied : file.deny_write = true)
    (hp : s.inodes file.inode = some inode) (hasked : s.asked ≤ s'.asked)
    (hfiles : s'.files = fun g => if g = f then some { file with deny_write := false } else s.files g)
    (hinodes : s'.inodes = fun q => if q = file.inode then
      some { inode with deny_write_cnt := inode.deny_write_cnt - 1 } else s.inodes q) :
    Counted held s' := by
  obtain ⟨hpos, hopen, hdeny⟩ := h.at_inode hp
  have htable : table held s' = (table held s).set f (some (file.inode, false)) := table_set hfiles
  have hhandle := table_handle held hf
  rw [hdenied] at hhandle
  have hreferences := Table.references_flag h.finite hhandle false
  have hflags := Table.flags_lower h.finite hhandle
  apply h.set_inode hasked ((h.lt_asked_of_inode hp).trans_le hasked) _ hinodes
  · intro q hq
    have hq' := hflags q
    rw [if_neg hq, Nat.add_zero] at hq'
    rw [htable]
    exact ⟨hreferences q, hq'⟩
  · have hp' := hflags file.inode
    rw [if_pos rfl] at hp'
    rw [htable]
    refine ⟨?_, ?_, ?_⟩
    · rw [hreferences]
      exact hpos
    · rw [hreferences]
      exact hopen
    · simp only
      omega
  · intro g hg
    rw [hfiles]
    exact (if_neg ((h.lt_asked_of_file hf).trans_le (hasked.trans hg)).ne').trans (h.files g (hasked.trans hg))

/-- No inode is denied more often than it is open. -/
theorem deny_write_cnt_le (h : Counted held s) (hp : s.inodes p = some inode) :
    inode.deny_write_cnt ≤ inode.open_cnt := by
  obtain ⟨-, hopen, hdeny⟩ := h.at_inode hp
  have hle := h.finite.flags_le p
  omega

/-- An inode that an open file denies writes to has a positive count. -/
theorem deny_write_cnt_pos (h : Counted held s) (hf : s.files f = some file) (hdenied : file.deny_write = true)
    (hp : s.inodes file.inode = some inode) : 0 < inode.deny_write_cnt := by
  obtain ⟨-, -, hdeny⟩ := h.at_inode hp
  have hhandle := table_handle held hf
  rw [hdenied] at hhandle
  have hpos := (Set.ncard_pos (h.finite.flagged file.inode)).mpr ⟨f, hhandle⟩
  rw [hdeny]
  exact Int.natCast_pos.mpr hpos

end Counted

end Table

end pintos.filesys
