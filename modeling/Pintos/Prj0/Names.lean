import Pintos.Prj0.Cores
import Pintos.Lib.Transition

/-!
# Names lead to live structures

As long as no command looks up the name of a slot that is out of use, commands reach
only cores that are there, and `quit` frees every core once.
-/

open pintos.kernel transition

namespace pintos.prj0_2

/-- A slot bears the name. -/
def Named {α : Type} (t : Table α) (name : List Char) : Prop := ∃ i, (t.slots i).name = name

theorem findTargetIndex_eq_none {α : Type} {t : Table α} {name : List Char} :
    findTargetIndex t name = none ↔ ¬ Named t name := by
  rw [findTargetIndex, Fin.find?_eq_none_iff, Named]
  simp

/-- The condition on the lookups of `delete` and `dumpdata`. -/
def Arrays.Clear (s : Arrays) (name : List Char) : Prop :=
  prj0_2.Clear s.listArray name ∧ (¬ Named s.listArray name → prj0_2.Clear s.hashArray name ∧
    (¬ Named s.hashArray name → prj0_2.Clear s.bitmapArray name))

/-- Names fit in their blocks, memory is there, and the names that are looked up are clear. -/
def Request.Clear (s : Arrays) : Request → Prop
  | .create_list memory name | .create_hashtable memory _ name => memory = true ∧ name.length < 50
  | .create_bitmap block name _ => block.isSome ∧ name.length < 50
  | .delete name | .dumpdata name => name.length < 50 ∧ s.Clear name
  | .list_command name _ => name.length < 50 ∧ prj0_2.Clear s.listArray name
  | .list_splice first second _ _ _ | .list_unique first second _ _ =>
    first.length < 50 ∧ prj0_2.Clear s.listArray first ∧
      (Named s.listArray first → second.length < 50 ∧ prj0_2.Clear s.listArray second)
  | .hash_command name _ => name.length < 50 ∧ prj0_2.Clear s.hashArray name
  | .bitmap_command name _ => name.length < 50 ∧ prj0_2.Clear s.bitmapArray name
  | .bitmap_expand block name _ => block.isSome ∧ name.length < 50 ∧ prj0_2.Clear s.bitmapArray name

/-- An empty hash table. -/
def Emptied (h : hash hash_item) : Prop := h.elem_cnt = 0 ∧ h.elems = []

theorem hash_clear_emptied (h : hash hash_item) : Emptied (kernel.hash_clear h).1 := by
  refine ⟨rfl, ?_⟩
  simp [kernel.hash_clear, hash.elems, List.map_const']

/-- The arrays are sound; lists and hash tables own their cores from their allocation on. -/
structure SoundArrays (s : Arrays) : Prop where
  lists : Sound slot.allocated (fun l : Items => l = []) s.listArray
  hashes : Sound slot.allocated Emptied s.hashArray
  bitmaps : SoundBitmaps s.bitmapArray

section Arrays

variable {s s' : Arrays} {name first second : List Char} {i : Fin ARRAY_SIZE} {c : Nat}

theorem soundArrays_init : SoundArrays init := ⟨.zero rfl, .zero rfl, .zero rfl⟩

theorem createList_meets {memory : Bool} (h : SoundArrays s) (hmemory : memory = true)
    (hname : name.length < 50) :
    Meets (fun t => Sound slot.allocated (fun l : Items => l = []) t ∧
      CreatesIn (fun l => l = []) s.listArray t name)
      (createList s.listArray memory name) :=
  create_meets h.lists (by rw [if_pos hmemory]; rfl) hname

theorem createHashtable_meets {memory : Bool} {garbage : List hash_item} (h : SoundArrays s)
    (hmemory : memory = true) (hname : name.length < 50) :
    Meets (fun t => Sound slot.allocated Emptied t ∧ CreatesIn Emptied s.hashArray t name)
      (createHashtable s.hashArray memory garbage name) := by
  refine create_meets h.hashes ?_ hname
  rw [kernel.hash_init, if_pos hmemory]
  exact hash_clear_emptied _

theorem list_splice_meets {walk : Items → Except Fault Unit}
    {work : Items → Items → Except Fault (Items × Items)}
    {twice : Items → Except Fault Items} (h : SoundArrays s)
    (hclear : (Request.list_splice first second walk work twice).Clear s) :
    Meets (Sound slot.allocated fun l : Items => l = [])
      (list_splice_command s.listArray first second walk work twice) := by
  obtain ⟨hlength, hfirst, hthen⟩ := hclear
  refine (meets_getName hlength).bind fun n hn => ?_
  subst hn
  cases hi : findTargetIndex s.listArray n with
  | none => exact h.lists
  | some i =>
    obtain ⟨hlength', hsecond⟩ := hthen ⟨i, (findTargetIndex_eq_some.mp hi).1⟩
    have hused := clear_iff.mp hfirst i hi
    obtain ⟨c, a, -, -, hcore, -⟩ := h.lists.work hused
    simp only [hcore]
    refine (meets_on_contents (walk a)).bind fun _ _ => (meets_getName hlength').bind fun m hm => ?_
    subst hm
    cases hj : findTargetIndex s.listArray m with
    | none => exact h.lists
    | some j =>
      have hused' := clear_iff.mp hsecond j hj
      obtain ⟨d, b, -, -, hcore', -⟩ := h.lists.work hused'
      simp only [hcore']
      exact work_on_meets h.lists hused hused' hcore hcore'

theorem list_unique_meets {work : Items → Items → Except Fault (Items × Items)}
    {twice : Items → Except Fault Items}
    (h : SoundArrays s) (hclear : (Request.list_unique first second work twice).Clear s) :
    Meets (Sound slot.allocated fun l : Items => l = [])
      (list_unique_command s.listArray first second work twice) := by
  obtain ⟨hlength, hfirst, hthen⟩ := hclear
  refine (meets_getName hlength).bind fun n hn => ?_
  subst hn
  cases hi : findTargetIndex s.listArray n with
  | none => exact h.lists
  | some i =>
    obtain ⟨hlength', hsecond⟩ := hthen ⟨i, (findTargetIndex_eq_some.mp hi).1⟩
    refine (meets_getName hlength').bind fun m hm => ?_
    subst hm
    cases hj : findTargetIndex s.listArray m with
    | none => exact h.lists
    | some j =>
      have hused := clear_iff.mp hfirst i hi
      have hused' := clear_iff.mp hsecond j hj
      obtain ⟨c, a, -, -, hcore, -⟩ := h.lists.work hused
      obtain ⟨d, b, -, -, hcore', -⟩ := h.lists.work hused'
      simp only [hcore, hcore']
      exact work_on_meets h.lists hused hused' hcore hcore'

/-- `delete` takes the first structure that it finds, and leaves it unreachable. -/
structure Deletes (s s' : Arrays) (name : List Char) : Prop where
  sound : SoundArrays s'
  list : ∀ i c, findTargetIndex s.listArray name = some i → (s.listArray.slots i).core = some c →
    Unreachable s'.listArray c
  hashtable : ∀ i c, findTargetIndex s.listArray name = none → findTargetIndex s.hashArray name = some i →
    (s.hashArray.slots i).core = some c → Unreachable s'.hashArray c
  bitmap : ∀ i c, findTargetIndex s.listArray name = none → findTargetIndex s.hashArray name = none →
    findTargetIndex s.bitmapArray name = some i → (s.bitmapArray.slots i).core = some c →
      Unreachable s'.bitmapArray c

theorem delete_deletes (h : SoundArrays s) (hclear : (Request.delete name).Clear s) :
    Meets (Deletes s · name) (s.delete name) := by
  obtain ⟨hlength, hlists, hothers⟩ := hclear
  refine (meets_getName hlength).bind fun n hn => ?_
  subst hn
  cases hi : findTargetIndex s.listArray n with
  | some i =>
    have hown := h.lists.used_owns i (clear_iff.mp hlists i hi)
    obtain ⟨c, -, hc, -, -⟩ := h.lists.core hown
    obtain ⟨t, hdelete, hsound, hgone, -⟩ := @delete_meets _ _ _ _ (fun _ => []) _ h.lists
      (fun _ => rfl) hown hc
    simp only [deleteList, hdelete]
    refine ⟨⟨hsound, h.hashes, h.bitmaps⟩, fun j d hj hd => ?_, by simp [hi], by simp [hi]⟩
    obtain rfl := Option.some.inj (hi.symm.trans hj)
    obtain rfl := Option.some.inj (hc.symm.trans hd)
    exact hgone
  | none =>
    obtain ⟨hhashes, hbitmaps⟩ := hothers (findTargetIndex_eq_none.mp hi)
    cases hj : findTargetIndex s.hashArray n with
    | some i =>
      have hown := h.hashes.used_owns i (clear_iff.mp hhashes i hj)
      obtain ⟨c, -, hc, -, -⟩ := h.hashes.core hown
      obtain ⟨t, hdelete, hsound, hgone, -⟩ :=
        @delete_meets _ _ _ _ (fun h => (kernel.hash_clear h).1) _ h.hashes hash_clear_emptied hown hc
      simp only [deleteHashtable, hdelete]
      refine ⟨⟨h.lists, hsound, h.bitmaps⟩, by simp [hi], fun j d _ hj' hd => ?_, by simp [hj]⟩
      obtain rfl := Option.some.inj (hj.symm.trans hj')
      obtain rfl := Option.some.inj (hc.symm.trans hd)
      exact hgone
    | none =>
      have hbitmap := hbitmaps (findTargetIndex_eq_none.mp hj)
      cases hk : findTargetIndex s.bitmapArray n with
      | some i =>
        have hused := clear_iff.mp hbitmap i hk
        obtain ⟨c, -, hc, -, -⟩ := h.bitmaps.core hused
        obtain ⟨t, hdelete, hsound, hgone, -⟩ := deleteBitmap_meets h.bitmaps hused hc
        simp only [hdelete]
        refine ⟨⟨h.lists, h.hashes, hsound⟩, by simp [hi], by simp [hj], fun j d _ _ hj' hd => ?_⟩
        obtain rfl := Option.some.inj (hk.symm.trans hj')
        obtain rfl := Option.some.inj (hc.symm.trans hd)
        exact hgone
      | none => exact ⟨h, by simp [hi], by simp [hj], by simp [hk]⟩

theorem dumpdata_meets (h : SoundArrays s) (hclear : (Request.dumpdata name).Clear s) :
    Meets SoundArrays (s.dumpdata name) := by
  obtain ⟨hlength, hlists, hothers⟩ := hclear
  refine (meets_getName hlength).bind fun n hn => ?_
  subst hn
  cases hi : findTargetIndex s.listArray n with
  | some i =>
    obtain ⟨c, a, -, -, hcore, -⟩ := h.lists.work (clear_iff.mp hlists i hi)
    simp only [hcore]
    exact h
  | none =>
    obtain ⟨hhashes, hbitmaps⟩ := hothers (findTargetIndex_eq_none.mp hi)
    cases hj : findTargetIndex s.hashArray n with
    | some i =>
      obtain ⟨c, a, -, -, hcore, -⟩ := h.hashes.work (clear_iff.mp hhashes i hj)
      simp only [hcore]
      exact h
    | none =>
      have hbitmap := hbitmaps (findTargetIndex_eq_none.mp hj)
      cases hk : findTargetIndex s.bitmapArray n with
      | some i =>
        obtain ⟨c, a, -, -, hcore, -⟩ := h.bitmaps.work (clear_iff.mp hbitmap i hk)
        simp only [hcore]
        exact h
      | none => exact h

/-- A command that meets the condition keeps the arrays sound. -/
theorem exec_sound (h : SoundArrays s) {r : Request} (hclear : r.Clear s) : Meets SoundArrays (r.exec s) := by
  cases r with
  | create_list memory name =>
    exact (createList_meets h hclear.1 hclear.2).bind fun t ht => ⟨ht.1, h.hashes, h.bitmaps⟩
  | create_hashtable memory garbage name =>
    exact (createHashtable_meets h hclear.1 hclear.2).bind fun t ht => ⟨h.lists, ht.1, h.bitmaps⟩
  | create_bitmap block name bit_cnt =>
    exact (createBitmap_meets h.bitmaps hclear.1 hclear.2).bind fun t ht => ⟨h.lists, h.hashes, ht.1⟩
  | delete name => exact (delete_deletes h hclear).weaken fun _ hd => hd.sound
  | dumpdata name => exact dumpdata_meets h hclear
  | list_command name work =>
    exact (command_meets h.lists hclear.1 hclear.2).bind fun t ht => ⟨ht, h.hashes, h.bitmaps⟩
  | list_splice first second walk work twice =>
    exact (list_splice_meets h hclear).bind fun t ht => ⟨ht, h.hashes, h.bitmaps⟩
  | list_unique first second work twice =>
    exact (list_unique_meets h hclear).bind fun t ht => ⟨ht, h.hashes, h.bitmaps⟩
  | hash_command name work =>
    exact (command_meets h.hashes hclear.1 hclear.2).bind fun t ht => ⟨h.lists, ht, h.bitmaps⟩
  | bitmap_command name work =>
    exact (command_meets h.bitmaps hclear.1 hclear.2).bind fun t ht => ⟨h.lists, h.hashes, ht⟩
  | bitmap_expand block name size =>
    exact (bitmap_expand_meets h.bitmaps hclear.1 hclear.2.1 hclear.2.2).bind fun t ht =>
      ⟨h.lists, h.hashes, ht⟩

/-- Slot `i` owns nothing. -/
structure Vacant (s : Arrays) (i : Fin ARRAY_SIZE) : Prop where
  list : (s.listArray.slots i).allocated = false
  hashtable : (s.hashArray.slots i).allocated = false
  bitmap : (s.bitmapArray.slots i).used = false

/-- What a part of `quit` leaves: the slots of `l` own nothing, nor do those that owned
nothing before. -/
structure Quits (s s' : Arrays) (l : List (Fin ARRAY_SIZE)) : Prop where
  sound : SoundArrays s'
  vacant : ∀ i, i ∈ l ∨ Vacant s i → Vacant s' i
  lists : s'.listArray.mallocs = s.listArray.mallocs
  hashes : s'.hashArray.mallocs = s.hashArray.mallocs
  bitmaps : s'.bitmapArray.mallocs = s.bitmapArray.mallocs

theorem quit_slot_quits (h : SoundArrays s) (i : Fin ARRAY_SIZE) : ∃ s', s.quit_slot i = .ok s' ∧
    Quits s s' [i] := by
  obtain ⟨l, hl, hlsound, hlfree, hlmallocs, hlother⟩ :=
    quit_meets (fun _ : Items => []) h.lists (fun _ => rfl) i
  obtain ⟨t, ht, htsound, htfree, htmallocs, htother⟩ :=
    quit_meets (fun h : hash hash_item => (kernel.hash_clear h).1) h.hashes hash_clear_emptied i
  obtain ⟨b, hb, hbsound, hbfree, hbmallocs, hbother⟩ := quit_bitmap_meets h.bitmaps i
  refine ⟨⟨l, t, b⟩, ?_, ⟨hlsound, htsound, hbsound⟩, fun j hj => ?_, hlmallocs, htmallocs, hbmallocs⟩
  · rw [Arrays.quit_slot, hl, ht, hb]
    rfl
  · by_cases heq : j = i
    · subst heq
      exact ⟨hlfree, htfree, hbfree⟩
    · obtain hmem | hvacant := hj
      · exact absurd (List.mem_singleton.mp hmem) heq
      · exact ⟨hlother j heq ▸ hvacant.list, htother j heq ▸ hvacant.hashtable, hbother j heq ▸ hvacant.bitmap⟩

theorem quit_slots_quit (l : List (Fin ARRAY_SIZE)) : ∀ {s : Arrays}, SoundArrays s →
    ∃ s', l.foldlM Arrays.quit_slot s = .ok s' ∧ Quits s s' l := by
  induction l with
  | nil =>
    intro s h
    exact ⟨s, rfl, h, fun i hi => hi.resolve_left List.not_mem_nil, rfl, rfl, rfl⟩
  | cons i l ih =>
    intro s h
    obtain ⟨s₁, hs₁, h₁⟩ := quit_slot_quits h i
    obtain ⟨s₂, hs₂, h₂⟩ := ih h₁.sound
    refine ⟨s₂, ?_, h₂.sound, fun j hj => h₂.vacant j ?_, h₂.lists.trans h₁.lists, h₂.hashes.trans h₁.hashes,
      h₂.bitmaps.trans h₁.bitmaps⟩
    · rw [List.foldlM_cons, hs₁]
      exact hs₂
    · obtain hmem | hvacant := hj
      · obtain rfl | hmem := List.mem_cons.mp hmem
        · exact .inr (h₁.vacant j (.inl (List.mem_singleton_self j)))
        · exact .inl hmem
      · exact .inr (h₁.vacant j (.inr hvacant))

/-- Without owners, every core has been freed once. -/
theorem Sound.all_freed {α : Type} {t : Table α} {owns : slot → Bool} {empty : α → Prop}
    (h : Sound owns empty t)
    (hvacant : ∀ i, owns (t.slots i) = false) (hc : c < t.mallocs) : t.frees c = 1 := by
  refine (h.dead c ?_).1 hc
  cases ha : t.heap c with
  | none => rfl
  | some a =>
    obtain ⟨-, -, i, hi, -⟩ := h.live c a ha
    cases (hvacant i).symm.trans hi

/-- Every core that was ever allocated has been freed once. -/
structure AllFreed (s s' : Arrays) : Prop where
  lists : ∀ c < s.listArray.mallocs, s'.listArray.frees c = 1
  hashes : ∀ c < s.hashArray.mallocs, s'.hashArray.frees c = 1
  bitmaps : ∀ c < s.bitmapArray.mallocs, s'.bitmapArray.frees c = 1

theorem quit_frees (h : SoundArrays s) : ∃ s', s.quit = .ok s' ∧ AllFreed s s' := by
  obtain ⟨s', hquit, hq⟩ := quit_slots_quit (List.finRange ARRAY_SIZE) h
  have hvacant : ∀ i, Vacant s' i := fun i => hq.vacant i (.inl (List.mem_finRange i))
  refine ⟨s', hquit, fun c hc => ?_, fun c hc => ?_, fun c hc => ?_⟩
  · exact hq.sound.lists.all_freed (fun i => (hvacant i).list) (hq.lists ▸ hc)
  · exact hq.sound.hashes.all_freed (fun i => (hvacant i).hashtable) (hq.hashes ▸ hc)
  · exact hq.sound.bitmaps.all_freed (fun i => (hvacant i).bitmap) (hq.bitmaps ▸ hc)

end Arrays

/-- The program as a transition system, up to `quit`. -/
def program : System Arrays Request := .ofStep (· = init) fun s r => (r.exec s).toOption

theorem reachable_sound {s : Arrays} (h : (program.restrict Request.Clear).Reachable s) : SoundArrays s := by
  refine h.restrict_invariant (I := SoundArrays) (fun s hs => ?_) fun s r s' _ hsound hclear hstep => ?_
  · rw [hs]
    exact soundArrays_init
  · have hmeets := exec_sound hsound hclear
    have hexec : (r.exec s).toOption = some s' := hstep
    cases hr : r.exec s with
    | error e =>
      rw [hr] at hexec
      cases hexec
    | ok t =>
      rw [hr] at hexec hmeets
      obtain rfl := Option.some.inj hexec
      exact hmeets

/-- What the names promise: names that are clear lead to structures in use, commands on
them reach only cores that are there, deleted structures are unreachable, new ones are
found and empty, and `quit` frees every core once. -/
structure NameLaw (s : Arrays) : Prop where
  lists_used : ∀ name i, Clear s.listArray name → findTargetIndex s.listArray name = some i →
    (s.listArray.slots i).used = true
  hashes_used : ∀ name i, Clear s.hashArray name → findTargetIndex s.hashArray name = some i →
    (s.hashArray.slots i).used = true
  bitmaps_used : ∀ name i, Clear s.bitmapArray name → findTargetIndex s.bitmapArray name = some i →
    (s.bitmapArray.slots i).used = true
  commands : ∀ r : Request, r.Clear s → ∀ e, r.exec s = .error e → e ≠ .null ∧ e ≠ .freed ∧ e ≠ .overflow
  deleted : ∀ name s', (Request.delete name).Clear s → (Request.delete name).exec s = .ok s' → Deletes s s' name
  created_list : ∀ memory name s', (Request.create_list memory name).Clear s →
    (Request.create_list memory name).exec s = .ok s' →
    CreatesIn (fun l => l = []) s.listArray s'.listArray name
  created_hashtable : ∀ memory garbage name s', (Request.create_hashtable memory garbage name).Clear s →
    (Request.create_hashtable memory garbage name).exec s = .ok s' →
    CreatesIn Emptied s.hashArray s'.hashArray name
  created_bitmap : ∀ block name bit_cnt s', (Request.create_bitmap block name bit_cnt).Clear s →
    (Request.create_bitmap block name bit_cnt).exec s = .ok s' →
    CreatesIn (fun _ => True) s.bitmapArray s'.bitmapArray name
  quit : ∃ s', s.quit = .ok s' ∧ AllFreed s s'

theorem Meets.ok {β : Type} {P : β → Prop} {x : Except Crash β} {b : β} (h : Meets P x)
    (hx : x = .ok b) : P b := by
  rw [hx] at h
  exact h

/-- The law holds in every run whose commands look up clear names only, with memory there
and names that fit. -/
theorem names_lead_to_structures {s : Arrays} (h : (program.restrict Request.Clear).Reachable s) :
    NameLaw s := by
  have hs := reachable_sound h
  refine ⟨fun name i hclear => clear_iff.mp hclear i, fun name i hclear => clear_iff.mp hclear i,
    fun name i hclear => clear_iff.mp hclear i, fun r hclear e he => ?_, fun name s' hclear he => ?_,
    fun memory name s' hclear he => ?_, fun memory garbage name s' hclear he => ?_,
    fun block name bit_cnt s' hclear he => ?_, quit_frees hs⟩
  · have hmeets := exec_sound hs hclear
    rw [he] at hmeets
    obtain ⟨fault, rfl⟩ := hmeets
    simp
  · exact (delete_deletes hs hclear).ok he
  · refine Meets.ok (P := fun t : Arrays => CreatesIn (fun l => l = []) s.listArray t.listArray name) ?_ he
    exact (createList_meets hs hclear.1 hclear.2).bind fun t ht => ht.2
  · refine Meets.ok (P := fun t : Arrays => CreatesIn Emptied s.hashArray t.hashArray name) ?_ he
    exact (createHashtable_meets hs hclear.1 hclear.2).bind fun t ht => ht.2
  · refine Meets.ok (P := fun t : Arrays => CreatesIn (fun _ => True) s.bitmapArray t.bitmapArray name) ?_ he
    exact (createBitmap_meets hs.bitmaps hclear.1 hclear.2).bind fun t ht => ht.2

instance {α : Type} (t : Table α) (name : List Char) : Decidable (Clear t name) :=
  inferInstanceAs (Decidable (∀ _, _ → _ → ∃ _, _ ∧ _ ∧ _))

instance {α : Type} (t : Table α) (name : List Char) : Decidable (Named t name) :=
  inferInstanceAs (Decidable (∃ _, _))

instance (s : Arrays) (name : List Char) : Decidable (s.Clear name) := inferInstanceAs (Decidable (_ ∧ _))

instance (s : Arrays) (r : Request) : Decidable (r.Clear s) := by
  cases r <;> exact inferInstanceAs (Decidable (_ ∧ _))

/-- A bitmap is deleted, and another one gets its name and its slot. -/
def reuse : List Request :=
  [.create_bitmap (some fun _ => 0) ['a'] 8, .create_list true ['b'], .delete ['a'],
    .create_bitmap (some fun _ => 0) ['a'] 8]

/-- The theorem after `reuse`. -/
theorem names_lead_to_structures_reused : ∃ s, findTargetIndex s.bitmapArray ['a'] = some 0 ∧
    (s.bitmapArray.slots 0).core = some 1 ∧ NameLaw s := by
  obtain ⟨s, hrun, hs⟩ := exists_of_any (checked (fun s r => decide (Request.Clear s r)) fun s r =>
    (r.exec s).toOption)
    init reuse (fun s => findTargetIndex s.bitmapArray ['a'] = some 0 ∧ (s.bitmapArray.slots 0).core = some 1)
    (by decide +kernel)
  obtain ⟨hfind, hcore⟩ := of_decide_eq_true hs
  have hreach : (program.restrict Request.Clear).Reachable s :=
    runLabels_checked (fun _ _ h => of_decide_eq_true h) rfl hrun
  exact ⟨s, hfind, hcore, names_lead_to_structures hreach⟩

/-- How a command ends the program. -/
def crash : Except Crash Arrays → Option Crash
  | .ok _ => none
  | .error e => some e

theorem crash_eq_some {x : Except Crash Arrays} {e : Crash} : crash x = some e ↔ x = .error e := by
  cases x with
  | ok s => simp [crash]
  | error f => simp [crash]

/-- A deleted bitmap is found under its old name, and freed again; at the start the empty
name leads to a slot without a list. -/
theorem deleted_bitmap_freed_again :
    (∃ s i, program.Reachable s ∧ findTargetIndex s.bitmapArray ['a'] = some i ∧
      (s.bitmapArray.slots i).used = false ∧ (Request.delete ['a']).exec s = .error .freed) ∧
      (Request.dumpdata []).exec init = .error .null := by
  constructor
  · obtain ⟨s, hrun, hs⟩ := exists_of_any (fun s (r : Request) => (r.exec s).toOption) init
      [.create_bitmap (some fun _ => 0) ['a'] 8, .delete ['a']]
      (fun s => findTargetIndex s.bitmapArray ['a'] = some 0 ∧ (s.bitmapArray.slots 0).used = false ∧
        crash ((Request.delete ['a']).exec s) = some .freed)
      (by decide +kernel)
    obtain ⟨hfind, hused, hcrash⟩ := of_decide_eq_true hs
    have hreach : program.Reachable s := runLabels_reachable rfl hrun
    exact ⟨s, 0, hreach, hfind, hused, crash_eq_some.mp hcrash⟩
  · exact crash_eq_some.mp (by decide +kernel)

end pintos.prj0_2
