import Pintos.Prj2.Waiting
import Pintos.Prj2.MutexHolder

/-!
# The status that a parent gets

A wait for a child has the status that the child has left, unless an exception that `kill` handles
has ended the child: `kill` leaves no status.
-/

open interaction Prog transition

namespace pintos.prj2

/-- What the status of a child has to be: what it has passed to `exit`, which `page_fault` calls with -1, or
-1 after another exception. -/
def Ending.Promises : Ending → Int → Prop
  | .exit exit_status, status => status = exit_status
  | .killed _, status => status = -1
  | .load_failed, _ => True

/-- The step does not stray, and does not let `kill` end a process. -/
def kills_none (s : World × History) (l : Label) : Prop :=
  (∀ w, l.event ≠ .stray w) ∧ ∀ th vec_no k, s.1.threads l.thread = some th →
    th.code ≠ .ask (.mark (.ended (.killed vec_no))) k

/-- Whatever happens, waits, removals and accesses are as the notes of each process have it. -/
theorem proper_notes {s : World × History}
    (h : (observed_processes.restrict fun _ l => ∀ w, l.event ≠ .stray w).Reachable s) :
    Proper Ending.Leaves s.2.notes :=
  (family_invariant (I := Family.Reaping) (G := fun _ _ _ => True) (fun _ _ hg => hg) (fun _ _ _ _ _ => trivial)
    (fun _ hf => hf.reaping) (fun _ _ _ _ hf _ hstep => hf.step hstep) h).2.proper

/-- A request that lets `kill` end a process. -/
theorem killed_of_act {o : Op} {r : o.Ans} {vec_no : Nat} (ha : o.act r = some (.ends (.killed vec_no))) :
    o = .mark (.ended (.killed vec_no)) := by
  cases o with
  | mark m =>
    cases m with
    | ended how =>
      cases ha
      rfl
    | _ => cases ha
  | sema_down s | sema_up s => cases s <;> cases ha
  | _ => cases ha

theorem status_of_wait {s : World × History} (h : (observed_processes.restrict kills_none).Reachable s) :
    Proper Ending.Promises s.2.notes := by
  have hinv := family_invariant (I := fun f => f.Reaping ∧ ∀ tid vec_no, .ended tid (.killed vec_no) ∉ f.notes)
    (G := fun _ _ a => ∀ vec_no, a ≠ .ends (.killed vec_no)) (fun s l hg => hg.1) ?_ ?_ ?_ h
  · obtain ⟨-, hreaping, hkilled⟩ := hinv
    refine hreaping.proper.imp fun tid how status hmem hstatus => ?_
    cases how with
    | exit exit_status => exact hstatus
    | killed vec_no => exact absurd hmem (hkilled tid vec_no)
    | load_failed => trivial
  · rintro s l a ⟨-, hkill⟩ hshows vec_no rfl
    cases hshows with
    | request hth hcode he hreply ha =>
      obtain rfl := killed_of_act ha
      exact hkill _ vec_no _ hth hcode
  · intro f hf
    obtain ⟨_, _, -, -, hnotes, -⟩ := hf.procs
    exact ⟨hf.reaping, by simp [hnotes]⟩
  · rintro f t a f' ⟨hreaping, hkilled⟩ hkill hstep
    refine ⟨hreaping.step hstep, fun tid vec_no hmem => ?_⟩
    obtain ⟨p, f₁, point, notes, -, hmove, rfl⟩ := hstep
    rw [hmove.step_notes] at hmem
    obtain hmem | hmem := List.mem_append.mp hmem
    · exact hkill vec_no (hmove.ended_mem hmem).2
    · exact hkilled tid vec_no hmem

/-- The initial thread waits for the process that it has started, which has ended. -/
def wait_labels : List Label := List.replicate 7 (.grant 0 0 none)

/-- The process calls `exit` with 7, and the initial thread gets 7. -/
def exit_labels : List Label :=
  start_labels ++ [⟨2, .syscall 0⟩, .grant 2 1 none] ++ List.replicate 5 (.grant 2 7 none) ++ wait_labels

/-- Whether `kill` is about to end the process. -/
def is_killed (code : Kernel (Option Int)) : Bool :=
  match code with
  | .ask (.mark (.ended (.killed _))) _ => true
  | _ => false

/-- The test of `kills_none`. -/
def checks_kills (s : World × History) (l : Label) : Bool :=
  l.event.stays && (s.1.threads l.thread).all fun th => !is_killed th.code

theorem status_of_wait_exit : ∃ s : World × History, s.2.notes.head? = some (.waited 1 3 7) ∧
    Proper Ending.Promises s.2.notes := by
  obtain ⟨s, hs, hwaited, -⟩ := @observed_run kills_none
    checks_kills
    (fun s l hl => by
      rw [checks_kills, Bool.and_eq_true] at hl
      refine ⟨Event.not_stray hl.1, fun th vec_no k hth hcode => ?_⟩
      simp [hth, hcode, is_killed] at hl)
    exit_labels (fun s => s.2.notes.head? = some (.waited 1 3 7)) (by decide +kernel)
  exact ⟨s, of_decide_eq_true hwaited, status_of_wait hs⟩

/-- The process divides by zero. -/
def divide_labels : List Label :=
  start_labels ++ [⟨2, .exception { cs := .SEL_UCSEG, vec_no := 0, error_code := 0, fault_addr := 0 }⟩] ++
    List.replicate 2 (.grant 2 0 none) ++ wait_labels

/-- The process ends with a division by zero, if it ends. -/
def Note.divides : Note → Bool
  | .ended _ how => how = .killed 0
  | _ => true

/-- The initial thread has 0 from its first wait for the process 3, which has divided by zero. -/
def waited_killed : List Note → Bool
  | .waited 1 3 0 :: ns => awaitable 1 3 ns && ns.all Note.divides
  | _ => false

/-- The wait for a process that has divided by zero has the status 0. -/
theorem status_of_wait_killed : ∃ s, observed_processes.Reachable s ∧ ¬ Proper Ending.Promises s.2.notes := by
  obtain ⟨s, hs, htest, -⟩ := @observed_run (fun _ _ => True) (fun _ _ => true)
    (fun _ _ _ => trivial) divide_labels
    (fun s => waited_killed s.2.notes) (by decide +kernel)
  refine ⟨s, hs.of_restrict, fun hproper => ?_⟩
  unfold waited_killed at htest
  split at htest
  · rename_i ns hnotes
    rw [Bool.and_eq_true, List.all_eq_true] at htest
    rw [hnotes] at hproper
    obtain ⟨⟨how, hmem, hstatus⟩, -⟩ := (if_pos htest.1).mp hproper.1
    have hhow : how = .killed 0 := of_decide_eq_true (htest.2 _ hmem)
    rw [hhow] at hstatus
    cases hstatus
  · cases htest

/-- The statuses that processes leave are the ones that `process_wait` returns. -/
theorem proper_notes_killed : ∃ s : World × History, waited_killed s.2.notes = true ∧
    Proper Ending.Leaves s.2.notes := by
  obtain ⟨s, hs, htest, -⟩ := @observed_run (fun _ l => ∀ w, l.event ≠ .stray w) (fun _ l => l.event.stays)
    (fun _ _ hl => Event.not_stray hl) divide_labels (fun s => waited_killed s.2.notes) (by decide +kernel)
  exact ⟨s, htest, proper_notes hs⟩

end pintos.prj2
