import Pintos.Prj2.World

/-!
# Families of processes

What processes do to each other, without their code: a process is at a point, and moves on from it.
The code of processes does nothing else.
-/

open interaction transition

namespace pintos.prj2

/-- What the others see of a process. -/
structure Proc where
  tid : Int
  parent : ThreadId
  child_list : List ThreadId
  exit_status : Int
  ready_to_exit : Bool
  deleted_from_parent : Bool
  load_finish : Bool
  child_load_success : Bool
  point : Point

/-- A process that has just been created. -/
def Proc.new (tid : Int) (parent : ThreadId) : Proc where
  tid
  parent
  child_list := []
  exit_status := 0
  ready_to_exit := false
  deleted_from_parent := false
  load_finish := false
  child_load_success := true
  point := ⟨.loading, .idle⟩

/-- Processes, and what has happened among them. -/
structure Family where
  procs : ThreadId → Option Proc
  mutex : Nat
  next_tid : Int
  notes : List Note

namespace Family

def update (f : Family) (t : ThreadId) (g : Proc → Proc) : Family :=
  { f with procs := Function.update f.procs t ((f.procs t).map g) }

/-- A process goes on to a point. -/
def go (f : Family) (t : ThreadId) (point : Point) : Family := f.update t fun p => { p with point }

def note (f : Family) (notes : List Note) : Family := { f with notes := notes ++ f.notes }

/-- A new process, in the page `c`. -/
def create (f : Family) (t c : ThreadId) : Family :=
  let f' := f.update t fun p => { p with child_list := p.child_list ++ [c] }
  { f' with
    procs := Function.update f'.procs c (some (.new f.next_tid t))
    next_tid := f.next_tid + 1 }

/-- The notes of accesses to processes. -/
def accessed (f : Family) (p : Proc) (children : List ThreadId) : List Note :=
  children.filterMap fun c => (f.procs c).map fun q => .accessed p.tid q.tid

/-- The child with the `tid`. -/
def find_child (f : Family) (children : List ThreadId) (tid : Int) : Option ThreadId :=
  children.find? fun c => (f.procs c).any fun q => q.tid = tid

end Family

/-- The ways in which processes move. -/
inductive Act where
  | fault | die
  | lock | unlock
  | create (tid : Option Int) | poll_load_finish | free_copy
  | find (tid : Int) | wait_ready | read_status | remove | release | waited
  | ends (how : Ending) | store_status | ready | poll_deleted
  | unload | loaded (success : Bool) | finish
  | exec | judge | returns (res : Int)

/-- The process `p` at `t` moves: the family, the point and the notes afterwards. -/
inductive Family.Move (f : Family) (t : ThreadId) (p : Proc) : Act → Family → Point → List Note → Prop where
  | fault (hs : p.point.stage = .running ∨ p.point.stage = .locked) : f.Move t p .fault f ⟨.running, .idle⟩ []
  | die (hs : p.point.stage = .dying) :
      f.Move t p .die { f with procs := Function.update f.procs t none } p.point []
  | lock (hs : p.point.stage = .running) (hm : 0 < f.mutex) :
      f.Move t p .lock { f with mutex := f.mutex - 1 } { p.point with stage := .locked } []
  | unlock (hs : p.point.stage = .locked) :
      f.Move t p .unlock { f with mutex := f.mutex + 1 } { p.point with stage := .running } []
  | create_none (hs : p.point.stage = .running) (he : p.point.exec = .idle ∨ p.point.exec = .called) :
      f.Move t p (.create none) f ⟨.created none, p.point.exec.make none⟩ []
  | create {c : ThreadId} (hs : p.point.stage = .running) (he : p.point.exec = .idle ∨ p.point.exec = .called)
      (hc : f.procs c = none) :
      f.Move t p (.create (some f.next_tid)) (f.create t c)
        ⟨.created (some f.next_tid), p.point.exec.make (some f.next_tid)⟩
        (.created p.tid f.next_tid :: f.accessed p p.child_list)
  | poll_load_finish {tid : Option Int} (hs : p.point.stage = .created tid) (hf : p.load_finish = true) :
      f.Move t p .poll_load_finish f { p.point with stage := if tid.isSome then .running else .uncreated } []
  | free_copy (hs : p.point.stage = .uncreated) : f.Move t p .free_copy f { p.point with stage := .running } []
  | find {tid : Int} (hs : p.point.stage = .running) :
      f.Move t p (.find tid) f
        { p.point with stage := (f.find_child p.child_list tid).elim (.absent tid) (.found tid) }
        (f.accessed p p.child_list)
  | wait_ready {tid : Int} {c : ThreadId} {q : Proc} (hs : p.point.stage = .found tid c)
      (hc : f.procs c = some q) (hready : q.ready_to_exit = true) :
      f.Move t p .wait_ready f { p.point with stage := .awaited tid c } [.accessed p.tid q.tid]
  | read_status {tid : Int} {c : ThreadId} {q : Proc} (hs : p.point.stage = .awaited tid c)
      (hc : f.procs c = some q) :
      f.Move t p .read_status f { p.point with stage := .told tid c q.exit_status } [.accessed p.tid q.tid]
  | remove {tid : Int} {c : ThreadId} {status : Int} {q : Proc} (hs : p.point.stage = .told tid c status)
      (hc : f.procs c = some q) :
      f.Move t p .remove (f.update t fun p => { p with child_list := p.child_list.erase c })
        { p.point with stage := .removed tid c status }
        (.removed p.tid q.tid :: f.accessed p p.child_list)
  | release {tid : Int} {c : ThreadId} {status : Int} {q : Proc} (hs : p.point.stage = .removed tid c status)
      (hc : f.procs c = some q) :
      f.Move t p .release (f.update c fun q => { q with deleted_from_parent := true })
        { p.point with stage := .released tid status } [.released p.tid q.tid, .accessed p.tid q.tid]
  | waited {tid status : Int} (hs : p.point.stage = .released tid status ∨
        p.point.stage = .absent tid ∧ status = -1) :
      f.Move t p .waited f { p.point with stage := .running } [.waited p.tid tid status]
  | exits {status : Int} (hs : p.point.stage = .running ∨ p.point.stage = .loading) :
      f.Move t p (.ends (.exit status)) f { p.point with stage := .exiting status }
        [.ended p.tid (.exit status)]
  | killed {vec_no : Nat} (hs : p.point.stage = .running) :
      f.Move t p (.ends (.killed vec_no)) f { p.point with stage := .closing } [.ended p.tid (.killed vec_no)]
  | fails (hs : p.point.stage = .failed) :
      f.Move t p (.ends .load_failed) f { p.point with stage := .closing } [.ended p.tid .load_failed]
  | store_status {status : Int} (hs : p.point.stage = .exiting status) :
      f.Move t p .store_status (f.update t fun p => { p with exit_status := status })
        { p.point with stage := .closing } []
  | ready (hs : p.point.stage = .closing) :
      f.Move t p .ready (f.update t fun p => { p with ready_to_exit := true })
        { p.point with stage := .ready } []
  | poll_deleted (hs : p.point.stage = .ready) (hd : p.deleted_from_parent = true) :
      f.Move t p .poll_deleted f { p.point with stage := .dying } []
  | unload {q : Proc} (hs : p.point.stage = .loading) (hparent : f.procs p.parent = some q) :
      f.Move t p .unload (f.update p.parent fun q => { q with child_load_success := false })
        { p.point with stage := .unloaded } []
  | loaded {success : Bool} (hs : p.point.stage = if success then .loading else .unloaded) :
      f.Move t p (.loaded success) f { p.point with stage := .loaded success } [.loaded p.tid success]
  | finish {success : Bool} {q : Proc} (hs : p.point.stage = .loaded success)
      (hparent : f.procs p.parent = some q) :
      f.Move t p .finish (f.update p.parent fun q => { q with load_finish := true })
        { p.point with stage := if success then .running else .failed } []
  | exec (hs : p.point.stage = .running) (he : p.point.exec = .idle) :
      f.Move t p .exec f { p.point with exec := .called } [.exec_called p.tid]
  | judge (hs : p.point.stage = .running) (he : p.point.exec.calls = true) :
      f.Move t p .judge f { p.point with exec := p.point.exec.judge p.child_load_success } []
  | returns {res : Int} (hs : p.point.stage = .running) (he : p.point.exec = .judged res) :
      f.Move t p (.returns res) f { p.point with exec := .idle } [.exec_returned p.tid res]

/-- One move of one process. -/
def Family.Step (f : Family) (t : ThreadId) (a : Act) (f' : Family) : Prop :=
  ∃ p f₁ point notes, f.procs t = some p ∧ f.Move t p a f₁ point notes ∧ f' = (f₁.go t point).note notes

/-- The process of a thread. -/
def Thread.proc (th : Thread) (point : Point) : Proc where
  tid := th.tid
  parent := th.parent
  child_list := th.child_list
  exit_status := th.exit_status
  ready_to_exit := th.ready_to_exit
  deleted_from_parent := th.deleted_from_parent
  load_finish := th.load_finish
  child_load_success := th.child_load_success
  point

/-- The family of processes in a world. -/
def World.family (w : World) (h : History) : Family where
  procs t := (w.threads t).map fun th => th.proc (h.points t)
  mutex := w.mutex
  next_tid := w.next_tid
  notes := h.notes

/-- The code of every thread goes on from where the thread is. -/
def World.OnPoint (w : World) (h : History) : Prop :=
  ∀ t th, w.threads t = some th → Goes (fun p _ => p = ⟨.running, .idle⟩) (h.points t) th.code

end pintos.prj2
