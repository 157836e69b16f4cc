import Pintos.Lib.Placement
import Pintos.Prj3.Exec

/-!
# Where a thread is

The place of a thread is computed from its status and from the point of the
kernel code at which it was switched away. In a well-formed kernel the queues
hold exactly the threads whose place they are; as a thread has one place, its
`elem` is then in at most one list.
-/

open pintos.kernel transition placement

namespace pintos.prj3

inductive Place where
  /-- The page holds no thread. -/
  | unused
  | running
  | ready
  | sleeping
  | waiting (s : SemaRef)
  /-- Blocked by a direct call of `thread_block`. -/
  | parked
  /-- Still being created. -/
  | nascent
  /-- The idle thread, when it is neither running nor in a queue. -/
  | idling
  | dying
  /-- Blocked with nobody to wake it. -/
  | lost
  deriving DecidableEq, Repr

/-- The lists that a thread's `elem` can be in. -/
inductive QueueName where
  | ready
  | sleep
  | wait (s : SemaRef)
  deriving DecidableEq, Repr

def Kernel.queue (k : Kernel) : QueueName → List ThreadId
  | .ready => k.ready_list
  | .sleep => k.sleep_list
  | .wait s => (k.sema s).waiters

def Place.queue : Place → Option QueueName
  | .ready => some .ready
  | .sleeping => some .sleep
  | .waiting s => some (.wait s)
  | _ => none

/-- The places of a thread whose status is `THREAD_BLOCKED`. -/
def Place.blocked : Place → Bool
  | .sleeping | .waiting _ | .parked | .nascent | .idling | .lost => true
  | _ => false

/-- The code of a thread behind a pending call of `schedule`. -/
def resume_point : List Instr → List Instr
  | .schedule :: rest => rest
  | code => code

/-- The place of a blocked thread, by the point where it resumes. -/
def blocked_place (idle : Bool) : List Instr → Place
  | [] => .nascent
  | .kernel_thread _ :: _ => .nascent
  | .ret .thread_sleep :: _ => .sleeping
  | .sema_down_loop s :: _ => .waiting s
  | .ret .thread_block :: _ => if idle then .idling else .parked
  | _ => .lost

def status_place (idle : Bool) (th : Thread) : Place :=
  match th.status with
  | .THREAD_RUNNING => .running
  | .THREAD_READY => if idle then .idling else .ready
  | .THREAD_BLOCKED => blocked_place idle (resume_point th.code)
  | .THREAD_DYING => .dying

def place (k : Kernel) (t : ThreadId) : Place :=
  if (k.threads t).magic then status_place (decide (k.idle_thread = some t)) (k.threads t) else .unused

/-! ## What the pending code promises -/

/-- A piece of work that exactly one thread has to do: finish the creation of a
thread, or start the idle thread. -/
inductive Token where
  | page (t : ThreadId)
  | idle
  deriving DecidableEq, Repr

def ThreadFunc.tokens : ThreadFunc → List Token
  | .idle => [.idle]
  | .other => []

def Instr.tokens : Instr → List Token
  | .thread_create _ f => f.tokens
  | .palloc_get_page _ f => f.tokens
  | .init_thread t _ f => .page t :: f.tokens
  | .alloc_frames t f => .page t :: f.tokens
  | .thread_unblock t => [.page t]
  | .kernel_thread f => f.tokens
  | .idle => [.idle]
  | _ => []

def tokens (code : List Instr) : List Token := code.flatMap Instr.tokens

@[simp] theorem tokens_nil : tokens [] = [] := rfl

@[simp] theorem tokens_cons (i : Instr) (code : List Instr) :
    tokens (i :: code) = i.tokens ++ tokens code := rfl

@[simp] theorem tokens_append (code code' : List Instr) :
    tokens (code ++ code') = tokens code ++ tokens code' := by
  simp [tokens]

/-- The thread that an instruction of `thread_create` works on, and the place
where it must find it. -/
def Instr.target : Instr → Option (ThreadId × Place)
  | .init_thread t _ _ => some (t, .unused)
  | .alloc_frames t _ => some (t, .nascent)
  | .thread_unblock t => some (t, .nascent)
  | _ => none

/-- The instruction can be pending for thread `t`: only the thread itself waits
on the semaphore of its `cond_wait`, and no kernel function exits the thread or
initializes a semaphore for its caller. -/
def Instr.Pending (t : ThreadId) : Instr → Prop
  | .sema_down (.waiter u) => u = t
  | .sema_down_loop (.waiter u) => u = t
  | .sema_init _ _ => False
  | .thread_exit => False
  | _ => True

/-- The instructions of the idle thread. -/
def Instr.idle_only : Instr → Bool
  | .kernel_thread .idle | .idle | .idle_loop => true
  | .sema_up .idle_started | .thread_yield | .thread_block | .schedule => true
  | .intr_set_level _ => true
  | .ret (.sema_up .idle_started) | .ret .thread_block | .ret .timer_interrupt => true
  | _ => false

/-- The idle thread never gets to code other than its loop. -/
structure IdleCode (code : List Instr) : Prop where
  only : ∀ i ∈ code, i.idle_only
  loops : .kernel_thread .idle ∈ code ∨ .idle ∈ code ∨ .idle_loop ∈ code

/-- What every thread has still to execute. -/
structure Codes (k : Kernel) : Prop where
  pending : ∀ t, ∀ i ∈ (k.threads t).code, i.Pending t
  once : ∀ t, (tokens (k.threads t).code).Nodup
  unique : ∀ t u a, a ∈ tokens (k.threads t).code → a ∈ tokens (k.threads u).code → t = u
  idle_unset : ∀ t, .idle ∈ tokens (k.threads t).code → k.idle_thread = none
  idle : ∀ t, k.idle_thread = some t ∨ .kernel_thread .idle ∈ (k.threads t).code ∨
    .idle ∈ (k.threads t).code → IdleCode (k.threads t).code

/-- Threads under creation belong to the thread that creates them. -/
structure Creators (k : Kernel) : Prop where
  used : ∀ c t, .page t ∈ tokens (k.threads c).code → k.used_map t = true
  target : ∀ c, ∀ i ∈ (k.threads c).code, ∀ t p, i.target = some (t, p) → place k t = p
  created : ∀ t, place k t = .nascent → ∃ c, .page t ∈ tokens (k.threads c).code
  stack : ∀ t, place k t = .nascent → (k.threads t).code = [] ∨
    ∃ f, (k.threads t).code = [.kernel_thread f]

/-- A call of `schedule` is pending only in the running thread, at once. -/
structure Switching (k : Kernel) : Prop where
  others : ∀ t, t ≠ k.current → .schedule ∉ (k.threads t).code
  first : .schedule ∉ k.code.tail
  intr_off : k.code.head? = some .schedule → k.intr_level = .INTR_OFF

/-- The queues, the running thread and the pages agree with the places. -/
structure Settled (k : Kernel) : Prop where
  queues : Placed k.queue fun t => (place k t).queue
  found : ∀ t, place k t ≠ .lost
  current : is_thread k k.current
  running : ∀ t, place k t = .running ↔ t = k.current ∧ k.code.head? ≠ some .schedule
  dying : ∀ t, place k t = .dying →
    (t = k.initial_thread ∧ (k.threads t).code = []) ∨ (t = k.current ∧ k.code = [.schedule])
  used : ∀ t, is_thread k t → k.used_map t = true ∨ t = k.initial_thread
  initial : k.used_map k.initial_thread = false
  unused : ∀ t, ¬ is_thread k t → (k.threads t).code = []

/-- What holds in every reachable kernel state. -/
structure Wf (k : Kernel) : Prop where
  codes : Codes k
  creators : Creators k
  switching : Switching k
  settled : Settled k

/-! ## Computing places -/

theorem blocked_place_blocked (idle : Bool) (code : List Instr) :
    (blocked_place idle code).blocked = true := by
  unfold blocked_place
  split <;> try rfl
  split <;> rfl

theorem blocked_place_eq_parked {idle : Bool} {code : List Instr}
    (h : blocked_place idle code = .parked) : code.head? = some (.ret .thread_block) ∧ idle = false := by
  unfold blocked_place at h
  split at h <;> try cases h
  cases idle with
  | true => cases h
  | false => exact ⟨rfl, rfl⟩

theorem blocked_place_eq_idling {idle : Bool} {code : List Instr}
    (h : blocked_place idle code = .idling) : idle = true := by
  unfold blocked_place at h
  split at h <;> try cases h
  cases idle with
  | true => rfl
  | false => cases h

theorem place_eq (k : Kernel) (t : ThreadId) :
    place k t = if is_thread k t then status_place (decide (k.idle_thread = some t)) (k.threads t)
      else .unused := rfl

theorem place_of_thread {k : Kernel} {t : ThreadId} (h : is_thread k t) :
    place k t = status_place (decide (k.idle_thread = some t)) (k.threads t) := if_pos h

/-- The place depends on the thread's magic and status, on the idle thread and,
for a blocked thread, on its code. -/
theorem place_congr {k k' : Kernel} {t : ThreadId}
    (hmagic : (k'.threads t).magic = (k.threads t).magic)
    (hstatus : (k'.threads t).status = (k.threads t).status)
    (hcode : (k.threads t).status = .THREAD_BLOCKED → (k'.threads t).code = (k.threads t).code)
    (hidle : k'.idle_thread = some t ↔ k.idle_thread = some t) : place k' t = place k t := by
  simp only [place, hmagic, hidle, status_place, hstatus]
  cases h : (k.threads t).status with
  | THREAD_BLOCKED => rw [hcode h]
  | _ => rfl

/-- The status of a thread, read off its place. -/
theorem status_of_place {k : Kernel} {t : ThreadId} (h : is_thread k t) :
    match (k.threads t).status with
    | .THREAD_RUNNING => place k t = .running
    | .THREAD_READY => place k t = if k.idle_thread = some t then .idling else .ready
    | .THREAD_BLOCKED => (place k t).blocked = true ∧
        place k t = blocked_place (decide (k.idle_thread = some t)) (resume_point (k.threads t).code)
    | .THREAD_DYING => place k t = .dying := by
  rw [place_of_thread h, status_place]
  cases (k.threads t).status with
  | THREAD_BLOCKED => exact ⟨blocked_place_blocked _ _, rfl⟩
  | THREAD_READY => simp
  | THREAD_RUNNING => rfl
  | THREAD_DYING => rfl

theorem place_eq_unused {k : Kernel} {t : ThreadId} : place k t = .unused ↔ ¬ is_thread k t := by
  by_cases h : is_thread k t
  · have hs := status_of_place h
    refine ⟨fun hp => ?_, fun hn => absurd h hn⟩
    revert hs
    rw [hp]
    cases (k.threads t).status <;> simp [Place.blocked]
    split <;> simp
  · simp [place_eq, h]

theorem place_running {k : Kernel} {t : ThreadId} :
    place k t = .running ↔ is_thread k t ∧ (k.threads t).status = .THREAD_RUNNING := by
  by_cases h : is_thread k t
  · have hs := status_of_place h
    cases hst : (k.threads t).status with
    | THREAD_RUNNING => simpa [h, hst] using hs
    | THREAD_READY => by_cases hi : k.idle_thread = some t <;> simp_all
    | THREAD_BLOCKED =>
      rw [hst] at hs
      refine ⟨fun hp => ?_, fun hp => by simp at hp⟩
      simp [hp, Place.blocked] at hs
    | THREAD_DYING => simp_all
  · simp [place_eq, h]

theorem place_dying {k : Kernel} {t : ThreadId} :
    place k t = .dying ↔ is_thread k t ∧ (k.threads t).status = .THREAD_DYING := by
  by_cases h : is_thread k t
  · have hs := status_of_place h
    cases hst : (k.threads t).status with
    | THREAD_DYING => simpa [h, hst] using hs
    | THREAD_READY => by_cases hi : k.idle_thread = some t <;> simp_all
    | THREAD_BLOCKED =>
      rw [hst] at hs
      refine ⟨fun hp => ?_, fun hp => by simp at hp⟩
      simp [hp, Place.blocked] at hs
    | THREAD_RUNNING => simp_all
  · simp [place_eq, h]

theorem place_ready {k : Kernel} {t : ThreadId} :
    place k t = .ready ↔
      is_thread k t ∧ (k.threads t).status = .THREAD_READY ∧ k.idle_thread ≠ some t := by
  by_cases h : is_thread k t
  · have hs := status_of_place h
    cases hst : (k.threads t).status with
    | THREAD_READY => by_cases hi : k.idle_thread = some t <;> simp_all
    | THREAD_BLOCKED =>
      rw [hst] at hs
      refine ⟨fun hp => ?_, fun hp => by simp at hp⟩
      simp [hp, Place.blocked] at hs
    | THREAD_RUNNING => simp_all
    | THREAD_DYING => simp_all
  · simp [place_eq, h]

/-- A thread at a blocked place is blocked, unless it is the idle thread. -/
theorem blocked_of_place {k : Kernel} {t : ThreadId} (h : (place k t).blocked = true)
    (hidle : place k t ≠ .idling) :
    is_thread k t ∧ (k.threads t).status = .THREAD_BLOCKED ∧
      place k t = blocked_place (decide (k.idle_thread = some t)) (resume_point (k.threads t).code) := by
  have hthread : is_thread k t := by
    by_contra hnot
    rw [place_eq_unused.mpr hnot] at h
    simp [Place.blocked] at h
  have hs := status_of_place hthread
  refine ⟨hthread, ?_⟩
  revert hs
  cases (k.threads t).status with
  | THREAD_BLOCKED => exact fun hs => ⟨rfl, hs.2⟩
  | THREAD_READY =>
    intro hs
    by_cases hi : k.idle_thread = some t
    · exact absurd (by simpa [hi] using hs) hidle
    · simp [hs, hi, Place.blocked] at h
  | THREAD_RUNNING =>
    intro hs
    simp [hs, Place.blocked] at h
  | THREAD_DYING =>
    intro hs
    simp [hs, Place.blocked] at h

theorem place_of_blocked {k : Kernel} {t : ThreadId} (hthread : is_thread k t)
    (hstatus : (k.threads t).status = .THREAD_BLOCKED) :
    place k t = blocked_place (decide (k.idle_thread = some t)) (resume_point (k.threads t).code) := by
  rw [place_of_thread hthread, status_place, hstatus]

theorem place_of_ready {k : Kernel} {t : ThreadId} (hthread : is_thread k t)
    (hstatus : (k.threads t).status = .THREAD_READY) :
    place k t = if k.idle_thread = some t then .idling else .ready := by
  rw [place_of_thread hthread, status_place, hstatus]
  simp

end pintos.prj3
