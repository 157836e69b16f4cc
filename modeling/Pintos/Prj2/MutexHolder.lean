import Pintos.Prj2.FamilySteps

/-!
# Who holds `mutex`

While `mutex` is down, a process is between its `sema_down` and `sema_up`, unless one of them has
taken a page fault there.
-/

open interaction Prog transition

namespace pintos.prj2

variable {f f' f₁ : Family} {t u : ThreadId} {p p' q q' : Proc} {a : Act} {point : Point} {notes : List Note}

namespace Family

/-- The process that holds `mutex`, if one does. -/
structure Held (f : Family) (holder : Option ThreadId) : Prop where
  mutex : f.mutex = if holder.isNone then 1 else 0
  locked : ∀ t p, f.procs t = some p → (p.point.stage = .locked ↔ holder = some t)
  live : ∀ t, holder = some t → ∃ p, f.procs t = some p

/-- Moves that have nothing to do with `mutex`. -/
theorem Move.mutex_apart (hmove : f.Move t p a f₁ point notes) (hfault : a = .fault → p.point.stage ≠ .locked)
    (hlock : a ≠ .lock) (hunlock : a ≠ .unlock) :
    f₁.mutex = f.mutex ∧ p.point.stage ≠ .locked ∧ point.stage ≠ .locked := by
  cases hmove with
  | lock => exact absurd rfl hlock
  | unlock => exact absurd rfl hunlock
  | fault hs => exact ⟨rfl, hfault rfl, by simp⟩
  | find hs =>
    refine ⟨rfl, by simp [hs], ?_⟩
    cases f.find_child p.child_list _ <;> simp
  | poll_load_finish hs hf =>
    refine ⟨rfl, by simp [hs], ?_⟩
    simp only
    split <;> simp
  | finish hs hparent =>
    refine ⟨rfl, by simp [hs], ?_⟩
    simp only
    split <;> simp
  | @loaded success hs => cases success <;> exact ⟨rfl, by simp [hs], by simp⟩
  | waited hs => obtain hs | ⟨hs, -⟩ := hs <;> exact ⟨rfl, by simp [hs], by simp⟩
  | exits hs => obtain hs | hs := hs <;> exact ⟨rfl, by simp [hs], by simp⟩
  | die hs | create_none hs | create hs | free_copy hs | wait_ready hs | read_status hs | remove hs | release hs
    | killed hs | fails hs | store_status hs | ready hs | poll_deleted hs | unload hs | exec hs | judge hs
    | returns hs => exact ⟨rfl, by simp [hs], by simp [hs]⟩

theorem Held.step {holder : Option ThreadId} (h : f.Held holder) (hstep : f.Step t a f')
    (hfault : a = .fault → ∀ p, f.procs t = some p → p.point.stage ≠ .locked) : ∃ holder, f'.Held holder := by
  obtain ⟨p, f₁, point, notes, hp, hmove, rfl⟩ := id hstep
  -- the others keep their stages
  have hothers : ∀ u q', u ≠ t → ((f₁.go t point).note notes).procs u = some q' →
      (q'.point.stage = .locked ↔ holder = some u) := by
    intro u q' hne hu
    obtain ⟨q, hq, halike⟩ | ⟨hnone, -, rfl⟩ := hstep.kept hne hu
    · rw [halike.point]
      exact h.locked u q hq
    · refine iff_of_false (by simp [Proc.new]) fun hholder => ?_
      obtain ⟨q, hq⟩ := h.live u hholder
      rw [hnone] at hq
      cases hq
  by_cases hlock : a = .lock
  · subst hlock
    cases hmove with
    | lock hs hm =>
      have hnone : holder = none := by
        have hmutex := h.mutex
        split at hmutex
        · exact Option.isNone_iff_eq_none.mp ‹_›
        · omega
      subst hnone
      refine ⟨some t, ?_, fun u q' hu => ?_, fun u hu => ?_⟩
      · simp [h.mutex]
      · by_cases heq : u = t
        · subst heq
          rw [note_procs, go_procs, if_pos rfl] at hu
          obtain ⟨p₁, -, rfl⟩ := Option.map_eq_some_iff.mp hu
          simp
        · refine (hothers u q' heq hu).trans (iff_of_false nofun fun hsome => heq ?_)
          exact (Option.some.inj hsome).symm
      · obtain rfl := Option.some.inj hu
        rw [note_procs, go_procs, if_pos rfl]
        exact ⟨_, congrArg _ hp⟩
  by_cases hunlock : a = .unlock
  · subst hunlock
    cases hmove with
    | unlock hs =>
      obtain rfl := (h.locked t p hp).mp hs
      refine ⟨none, ?_, fun u q' hu => ?_, nofun⟩
      · simp [h.mutex]
      · by_cases heq : u = t
        · subst heq
          rw [note_procs, go_procs, if_pos rfl] at hu
          obtain ⟨p₁, -, rfl⟩ := Option.map_eq_some_iff.mp hu
          simp
        · refine (hothers u q' heq hu).trans (iff_of_false (fun hsome => heq ?_) nofun)
          exact (Option.some.inj hsome).symm
  obtain ⟨hmutex, hstage, hpoint⟩ := hmove.mutex_apart (fun ha => hfault ha p hp) hlock hunlock
  have hne : holder ≠ some t := fun heq => hstage ((h.locked t p hp).mpr heq)
  refine ⟨holder, hmutex.trans h.mutex, fun u q' hu => ?_, fun u hu => ?_⟩
  · by_cases heq : u = t
    · subst heq
      rw [note_procs, go_procs, if_pos rfl] at hu
      obtain ⟨p₁, -, rfl⟩ := Option.map_eq_some_iff.mp hu
      exact iff_of_false hpoint hne
    · exact hothers u q' heq hu
  · obtain ⟨q, hq⟩ := h.live u hu
    have heq : u ≠ t := fun heq => hne (heq ▸ hu)
    obtain ⟨q', hq', -⟩ := hstep.keeps heq hq
    exact ⟨q', hq'⟩

theorem Boot.held (h : f.Boot) : f.Held none := by
  obtain ⟨main, idle, -, rfl⟩ := h
  refine ⟨rfl, fun t p hp => iff_of_false ?_ nofun, nofun⟩
  obtain ⟨th, -, rfl⟩ := Option.map_eq_some_iff.mp hp
  exact nofun

end Family

/-- The step does not stray, and is no page fault of a process that holds `mutex`. -/
def faults_unlocked (s : World × History) (l : Label) : Prop :=
  (∀ w, l.event ≠ .stray w) ∧ ∀ addr, l.event = .fault addr → (s.2.points l.thread).stage ≠ .locked

/-- While `mutex` is down, a process holds it that goes on to its `sema_up`. -/
theorem mutex_holder {s : World × History} (h : (observed_processes.restrict faults_unlocked).Reachable s)
    (hmutex : s.1.mutex = 0) :
    ∃ t th, s.1.threads t = some th ∧ (s.2.points t).stage = .locked ∧
      Goes (fun p _ => p = ⟨.running, .idle⟩) (s.2.points t) th.code := by
  have hinv := family_invariant (I := fun f => ∃ holder, f.Held holder)
    (G := fun f t a => a = .fault → ∀ p, f.procs t = some p → p.point.stage ≠ .locked)
    (fun s l hg => hg.1) ?_ (fun f hf => ⟨none, hf.held⟩)
    (fun f t a f' hI hG hstep => by
      obtain ⟨holder, hheld⟩ := hI
      exact hheld.step hstep hG) h
  · obtain ⟨hpoint, holder, hheld⟩ := hinv
    obtain ⟨t, rfl⟩ : ∃ t, holder = some t := by
      cases holder with
      | none => cases hmutex.symm.trans hheld.mutex
      | some t => exact ⟨t, rfl⟩
    obtain ⟨p, hp⟩ := hheld.live t rfl
    obtain ⟨th, hth, rfl⟩ := Option.map_eq_some_iff.mp hp
    exact ⟨t, th, hth, (hheld.locked t _ hp).mpr rfl, hpoint t th hth⟩
  · rintro s l a ⟨-, hfault⟩ hshows rfl p hp
    obtain ⟨th, -, rfl⟩ := Option.map_eq_some_iff.mp hp
    cases hshows with
    | fault he => exact hfault _ he
    | request hth hcode he hreply ha => exact absurd rfl (Op.act_ne ha).1

/-- The initial thread starts a process, in page 2, that is loaded. -/
def start_labels : List Label :=
  [⟨0, .run_task [112]⟩, .grant 0 0 none, .grant 0 0 none, .grant 0 0 (some 2)] ++
    List.replicate 9 (.grant 2 0 none)

/-- The process calls `read`, for a byte of the keyboard, and has got the byte. -/
def read_labels : List Label :=
  [⟨2, .syscall 0⟩, .grant 2 8 none, .grant 2 0 none, .grant 2 0 none, .grant 2 1 none,
    .grant 2 0 none, .grant 2 0 none, .grant 2 0 none]

theorem mutex_holder_reads : ∃ s : World × History, s.1.mutex = 0 ∧ ∃ t th, s.1.threads t = some th ∧
    (s.2.points t).stage = .locked ∧ Goes (fun p _ => p = ⟨.running, .idle⟩) (s.2.points t) th.code := by
  obtain ⟨s, hs, hmutex, -⟩ := @observed_run faults_unlocked
    (fun _ l => match l.event with | .go _ | .syscall _ | .run_task _ => true | _ => false)
    (fun s l hl => ⟨fun w he => by simp [he] at hl, fun addr he => by simp [he] at hl⟩)
    (start_labels ++ read_labels) (fun s => s.1.mutex = 0) (by decide +kernel)
  exact ⟨s, of_decide_eq_true hmutex, mutex_holder hs (of_decide_eq_true hmutex)⟩

/-- The process faults in `read`: nobody holds `mutex`, which is down. -/
theorem mutex_holder_faults : ∃ s, observed_processes.Reachable s ∧ s.1.mutex = 0 ∧
    ∀ t, (s.2.points t).stage ≠ .locked := by
  obtain ⟨s, hs, htest, hrun⟩ := @observed_run (fun _ _ => True) (fun _ _ => true) (fun _ _ _ => trivial)
    (start_labels ++ read_labels ++ [⟨2, .fault 0⟩])
    (fun s => s.1.mutex = 0 && (List.range 3).all fun t => (s.2.points t).stage ≠ .locked) (by decide +kernel)
  rw [Bool.and_eq_true, List.all_eq_true] at htest
  refine ⟨s, hs.of_restrict, of_decide_eq_true htest.1, fun t => ?_⟩
  by_cases ht : t < 3
  · exact of_decide_eq_true (htest.2 t (List.mem_range.mpr ht))
  · rw [@points_within t 3 _ (Nat.not_lt.mp ht) _ _ _ (by decide +kernel) hrun]
    exact nofun

end pintos.prj2
