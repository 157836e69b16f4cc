import Pintos.Prj2.Strings

/-!
# The stages of kernel code

Kernel code makes the requests that other processes notice in a fixed order. The stage of a thread
is what its last such requests have been; whatever is answered, its code goes on from there.
-/

open interaction Prog

namespace pintos.prj2

/-- Where a thread is in the kernel, or that it is in none of these places. -/
inductive Stage where
  | running
  | locked
  | created (tid : Option Int)
  | uncreated
  | found (tid : Int) (child : ThreadId)
  | absent (tid : Int)
  | awaited (tid : Int) (child : ThreadId)
  | told (tid : Int) (child : ThreadId) (status : Int)
  | removed (tid : Int) (child : ThreadId) (status : Int)
  | released (tid : Int) (status : Int)
  | loading
  | unloaded
  | loaded (success : Bool)
  | failed
  | exiting (status : Int)
  | closing
  | ready
  | dying
  deriving DecidableEq

/-- Where a thread is in a call of `exec`, if it is in one. -/
inductive ExecStage where
  | idle
  | called
  | made (tid : Option Int)
  | judged (res : Int)
  deriving DecidableEq

/-- A request that no other process notices. -/
def Op.neutral : Op → Bool
  | .load _ | .load_word _ | .store _ _ | .query _ | .own | .set_own _ => true
  | .sema_down .fd_wait | .sema_up .fd_wait => true
  | .palloc_free_page | .shutdown_power_off | .panic | .spin | .wild => true
  | _ => false

/-- A request that accesses user memory. -/
def Op.accesses : Op → Bool
  | .load _ | .load_word _ | .store _ _ => true
  | _ => false

/-- Whether neutral requests may be made. -/
def Stage.works : Stage → Bool
  | .running | .locked | .loading | .closing => true
  | _ => false

/-- Whether user memory may be accessed. -/
def Stage.touches : Stage → Bool
  | .running | .locked => true
  | _ => false

/-- The stage after the end of a process. -/
def Stage.ends : Stage → Ending → Option Stage
  | .running, .exit status | .loading, .exit status => some (.exiting status)
  | .running, .killed _ => some .closing
  | .failed, .load_failed => some .closing
  | _, _ => none

/-- The stage after a point of the source that is recorded. -/
def Stage.marked (s : Stage) : Mark → Option Stage
  | .exec_called | .exec_returned _ => if s = .running then some .running else none
  | .loaded success => if s = if success then .loading else .unloaded then some (.loaded success) else none
  | .ended how => s.ends how
  | .waited tid status =>
    if s = .released tid status ∨ s = .absent tid ∧ status = -1 then some .running else none

/-- The stage after a request, by its answer, if the request may be made. -/
def Stage.next (s : Stage) : (o : Op) → Option (o.Ans → Stage)
  | .load _ | .load_word _ | .store _ _ => if s.touches then some fun _ => s else none
  | .query _ | .own | .set_own _ | .sema_down .fd_wait | .sema_up .fd_wait =>
    if s.works then some fun _ => s else none
  | .shutdown_power_off | .panic | .spin | .wild => if s.works then some fun _ => s else none
  | .palloc_free_page =>
    match s with
    | .uncreated => some fun _ => .running
    | .failed => some fun _ => .failed
    | s => if s.works then some fun _ => s else none
  | .sema_down .mutex => match s with
    | .running => some fun _ => .locked
    | _ => none
  | .sema_up .mutex => match s with
    | .locked => some fun _ => .running
    | _ => none
  | .thread_create _ _ => match s with
    | .running => some .created
    | _ => none
  | .poll_load_finish => match s with
    | .created tid => some fun _ => if tid.isSome then .running else .uncreated
    | _ => none
  | .child_load_success => match s with
    | .running => some fun _ => .running
    | _ => none
  | .find_child tid => match s with
    | .running => some fun child => child.elim (.absent tid) (.found tid)
    | _ => none
  | .poll_ready_to_exit c => match s with
    | .found tid child => if c = child then some fun _ => .awaited tid child else none
    | _ => none
  | .child_exit_status c => match s with
    | .awaited tid child => if c = child then some (.told tid child) else none
    | _ => none
  | .list_remove c => match s with
    | .told tid child status => if c = child then some fun _ => .removed tid child status else none
    | _ => none
  | .deleted_from_parent c => match s with
    | .removed tid child status => if c = child then some fun _ => .released tid status else none
    | _ => none
  | .parent_child_load_success => match s with
    | .loading => some fun _ => .unloaded
    | _ => none
  | .parent_load_finish => match s with
    | .loaded success => some fun _ => if success then .running else .failed
    | _ => none
  | .exit_status status => match s with
    | .exiting status' => if status = status' then some fun _ => .closing else none
    | _ => none
  | .ready_to_exit => match s with
    | .closing => some fun _ => .ready
    | _ => none
  | .poll_deleted_from_parent => match s with
    | .ready => some fun _ => .dying
    | _ => none
  | .schedule_dying => match s with
    | .dying => some nofun
    | _ => none
  | .mark m => (s.marked m).map fun s' _ => s'

/-- After `thread_create`. -/
def ExecStage.make : ExecStage → Option Int → ExecStage
  | .called, tid => .made tid
  | e, _ => e

/-- In a call of `exec`, before its result. -/
def ExecStage.calls : ExecStage → Bool
  | .called | .made _ => true
  | _ => false

/-- What the call of `exec` returns, after a look at `child_load_success`. -/
def ExecStage.judge : ExecStage → Bool → ExecStage
  | .made tid, true => .judged (tid.getD TID_ERROR)
  | _, _ => .judged (-1)

def ExecStage.next (e : ExecStage) : (o : Op) → Option (o.Ans → ExecStage)
  | .mark .exec_called => if e = .idle then some fun _ => .called else none
  | .mark (.exec_returned res) => if e = .judged res then some fun _ => .idle else none
  | .thread_create _ _ => if e = .idle ∨ e = .called then some e.make else none
  | .child_load_success => if e.calls then some e.judge else none
  | _ => some fun _ => e

/-- Where a thread is. -/
structure Point where
  stage : Stage
  exec : ExecStage
  deriving DecidableEq

def Point.next (p : Point) (o : Op) : Option (o.Ans → Point) :=
  (p.stage.next o).bind fun f => (p.exec.next o).map fun g r => ⟨f r, g r⟩

/-- The code goes through the discipline from `p` on, and ends with `Q`. -/
abbrev Goes {α : Type} (Q : Point → α → Prop) (p : Point) (code : Kernel α) : Prop :=
  Follows Point.next Q p code

/-- The code ends where it started. -/
abbrev Stays {α : Type} (p : Point) (code : Kernel α) : Prop := Goes (fun p' _ => p' = p) p code

section Code

variable {α β : Type} {code : Kernel α} {f : α → Kernel β} {p : Point}

/-- The code makes neutral requests only. -/
def Neutral (code : Kernel α) : Prop := code.Only fun o => o.neutral = true

theorem Neutral.bind (h : Neutral code) (hf : ∀ a, Neutral (f a)) : Neutral (code >>= f) := Only.bind h hf

theorem neutral_ret (a : α) : Neutral (ret a : Kernel α) := trivial

theorem neutral_request {o : Op} (h : o.neutral = true) : Neutral (request o) := ⟨h, fun _ => trivial⟩

theorem neutral_ask (q : Query) : Neutral (ask q) := neutral_request rfl

theorem neutral_final {o : Op} {hempty : o.Ans = Empty} (h : o.neutral = true) :
    Neutral (final o hempty : Kernel α) :=
  ⟨h, fun r => (hempty ▸ r : Empty).elim⟩

theorem neutral_ite {p : Prop} [Decidable p] {a b : Kernel α} (ha : Neutral a) (hb : Neutral b) :
    Neutral (if p then a else b) := by
  split <;> assumption

theorem neutral_wild {p : Prop} [Decidable p] : Neutral (when p wild) :=
  neutral_ite (neutral_request rfl) (neutral_ret ())

theorem neutral_panic : Neutral (panic : Kernel α) := neutral_final rfl

theorem neutral_spin : Neutral (spin : Kernel α) := neutral_final rfl

theorem neutral_shutdown : Neutral (shutdown_power_off : Kernel α) := neutral_final rfl

theorem neutral_get (p : CharPtr) (i : Nat) : Neutral (p.get i) := by
  cases p with
  | user addr => exact neutral_request rfl
  | kernel s => exact neutral_ret _

theorem neutral_strlen (p : CharPtr) : Neutral (strlen p) := by
  have hloop : ∀ n i, Neutral (strlen_loop p n i) := by
    intro n
    induction n with
    | zero => exact fun _ => neutral_spin
    | succ n ih =>
      intro i
      exact (neutral_get p i).bind fun c => neutral_ite (neutral_ret i) (ih (i + 1))
  exact neutral_ite neutral_panic (hloop _ 0)

theorem neutral_strcmp (a b : CharPtr) : Neutral (strcmp a b) := by
  have hloop : ∀ n i, Neutral (strcmp_loop a b n i) := by
    intro n
    induction n with
    | zero => exact fun _ => neutral_spin
    | succ n ih =>
      intro i
      exact (neutral_get a i).bind fun c => (neutral_get b i).bind fun d =>
        neutral_ite (ih (i + 1)) (neutral_ret _)
  exact neutral_ite neutral_panic (hloop _ 0)

theorem neutral_memcpy_from (p : CharPtr) (n : Nat) : ∀ i, Neutral (memcpy_from p n i) := by
  induction n with
  | zero => exact fun _ => neutral_ret []
  | succ n ih => exact fun i => (neutral_get p i).bind fun c => (ih (i + 1)).bind fun _ => neutral_ret _

theorem neutral_strlcpy (p : CharPtr) (size : Nat) : Neutral (strlcpy p size) :=
  (neutral_strlen p).bind fun _ => neutral_memcpy_from p _ 0

theorem neutral_memcpy_to (addr : Addr) (c : Nat → Byte) (n : Nat) : ∀ i, Neutral (memcpy_to addr c n i) := by
  induction n with
  | zero => exact fun _ => neutral_ret ()
  | succ n ih => exact fun i => (neutral_request rfl).bind fun _ => ih (i + 1)

theorem neutral_read_input (addr : Addr) (n : Nat) : ∀ i, Neutral (read_input addr n i) := by
  induction n with
  | zero => exact fun _ => neutral_ret ()
  | succ n ih =>
    exact fun i => (neutral_ask _).bind fun c => (neutral_request rfl).bind fun _ => ih (i + 1)

theorem neutral_lookup (name : CharPtr) (dir : List DirEntry) : Neutral (lookup name dir) := by
  induction dir with
  | nil => exact neutral_ret false
  | cons e rest ih =>
    exact neutral_ite ((neutral_strcmp name _).bind fun r => neutral_ite (neutral_ret true) ih) ih

theorem neutral_dir_add (dir : List DirEntry) (name : CharPtr) : Neutral (dir_add dir name) := by
  refine neutral_ite neutral_panic ((neutral_get _ 0).bind fun c => neutral_ite (neutral_ret false) ?_)
  refine (neutral_strlen name).bind fun len => neutral_ite (neutral_ret false) ?_
  refine (neutral_lookup name dir).bind fun found => neutral_ite (neutral_ret false) ?_
  exact (neutral_strlcpy name _).bind fun _ => neutral_ask _

theorem neutral_with_root {failure : α} {body : List DirEntry → Kernel α}
    (h : ∀ dir, Neutral (body dir)) : Neutral (with_root failure body) := by
  refine (neutral_ask _).bind fun dir => ?_
  cases dir with
  | none => exact neutral_ret failure
  | some dir => exact h dir

theorem neutral_filesys_open (name : CharPtr) : Neutral (filesys_open name) :=
  neutral_with_root fun dir => neutral_ite neutral_panic <|
    (neutral_lookup name dir).bind fun _ => neutral_ite (neutral_ask _) (neutral_ret none)

theorem neutral_filesys_create (name : CharPtr) (size : Int) : Neutral (filesys_create name size) :=
  neutral_with_root fun dir => (neutral_ask _).bind fun _ =>
    neutral_ite (neutral_ite neutral_panic <| (neutral_ask _).bind fun _ =>
      neutral_ite (neutral_dir_add dir name) (neutral_ret false)) (neutral_ret false)

theorem neutral_filesys_remove (name : CharPtr) : Neutral (filesys_remove name) :=
  neutral_with_root fun dir => neutral_ite neutral_panic <| (neutral_lookup name dir).bind fun _ =>
    neutral_ite (neutral_ask _) (neutral_ret false)

theorem neutral_inode_loop {file : File} {copy : Nat → Nat → Kernel Unit}
    (hcopy : ∀ i n, Neutral (copy i n)) (n : Nat) : ∀ size offset bytes bounce,
    Neutral (inode_loop file copy n size offset bytes bounce) := by
  induction n with
  | zero => exact fun _ _ bytes _ => neutral_ret bytes
  | succ n ih =>
    intro size offset bytes bounce
    refine neutral_ite (neutral_ret bytes) (neutral_ite ?_ ?_)
    · exact (hcopy _ _).bind fun _ => ih _ _ _ _
    · exact (neutral_ask _).bind fun got =>
        neutral_ite ((hcopy _ _).bind fun _ => ih _ _ _ _) (neutral_ret bytes)

theorem neutral_file_read (f : FilePtr) (addr : Addr) (size : Int) : Neutral (file_read f addr size) :=
  (neutral_ask _).bind fun _ => neutral_inode_loop (fun i n => neutral_memcpy_to _ _ n i) _ _ _ _ _

theorem neutral_file_write (f : FilePtr) (deny : Bool) (addr : Addr) (size : Int) :
    Neutral (file_write f deny addr size) :=
  (neutral_ask _).bind fun _ => neutral_ite (neutral_ret 0) <|
    neutral_inode_loop (fun i n => (neutral_memcpy_from _ n i).bind fun _ => neutral_ret ()) _ _ _ _ _

theorem neutral_install_file (cur : Own) (f : FilePtr) : Neutral (install_file cur f) := by
  unfold install_file
  split
  · exact (neutral_request rfl).bind fun _ => (neutral_request rfl).bind fun _ =>
      (neutral_request rfl).bind fun _ => (neutral_request rfl).bind fun _ => neutral_ret _
  · exact neutral_ret _

theorem neutral_open_locked (cur : Own) (file : CharPtr) : Neutral (open_locked cur file) := by
  refine (neutral_filesys_open file).bind fun opened => ?_
  cases opened with
  | none => exact neutral_ret _
  | some new_file =>
    exact (neutral_install_file cur new_file).bind fun res => (neutral_strcmp file _).bind fun differ =>
      (neutral_ite (neutral_request rfl) (neutral_ret ())).bind fun _ => neutral_ret res

theorem neutral_read_locked (cur : Own) (fd : Int) (addr : Addr) (size : Word) :
    Neutral (read_locked cur fd addr size) := by
  unfold read_locked
  refine neutral_ite ((neutral_read_input addr _ 0).bind fun _ => neutral_ret _)
    (neutral_ite ?_ (neutral_ret _))
  split
  · exact neutral_ret _
  · exact (neutral_file_read _ addr _).bind fun n => neutral_ret _

theorem neutral_write_locked (cur : Own) (fd : Int) (addr : Addr) (size : Word) :
    Neutral (write_locked cur fd addr size) := by
  unfold write_locked
  refine neutral_ite ((neutral_memcpy_from _ _ 0).bind fun _ => neutral_ret _) (neutral_ite ?_ (neutral_ret _))
  split
  · exact neutral_ret _
  · exact (neutral_file_write _ _ addr _).bind fun n => neutral_ret _

theorem neutral_free_fd (fd : Nat) : Neutral (free_fd fd) :=
  (neutral_request rfl).bind fun _ => (neutral_request rfl).bind fun _ =>
    (neutral_request rfl).bind fun _ => neutral_request rfl

theorem neutral_file_of (cur : Own) (fd : Int) : Neutral (file_of cur fd) :=
  neutral_wild.bind fun _ => neutral_ret _

theorem next_neutral {o : Op} (ho : o.neutral = true) (hp : p.stage = .running ∨ p.stage = .locked) :
    ∃ after, p.next o = some after ∧ ∀ r, after r = p := by
  obtain ⟨s, e⟩ := p
  cases o with
  | sema_down sema =>
    cases sema with
    | mutex => cases ho
    | fd_wait => obtain rfl | rfl := hp <;> exact ⟨_, rfl, fun _ => rfl⟩
  | sema_up sema =>
    cases sema with
    | mutex => cases ho
    | fd_wait => obtain rfl | rfl := hp <;> exact ⟨_, rfl, fun _ => rfl⟩
  | load _ | load_word _ | store _ _ | query _ | own | set_own _ | palloc_free_page | wild | shutdown_power_off
    | panic | spin => obtain rfl | rfl := hp <;> exact ⟨_, rfl, fun _ => rfl⟩
  | _ => cases ho

/-- Neutral code changes no stage in which such code may be. -/
theorem Neutral.stays (h : Neutral code) (hp : p.stage = .running ∨ p.stage = .locked) : Stays p code :=
  Only.follows h fun _ ho => next_neutral ho hp

theorem next_silent {o : Op} (ho : o.neutral = true) (hbytes : o.bytes = [])
    (hp : p.stage = .running ∨ p.stage = .loading ∨ p.stage = .closing) :
    ∃ after, p.next o = some after ∧ ∀ r, after r = p := by
  obtain ⟨s, e⟩ := p
  cases o with
  | sema_down sema =>
    cases sema with
    | mutex => cases ho
    | fd_wait => obtain rfl | rfl | rfl := hp <;> exact ⟨_, rfl, fun _ => rfl⟩
  | sema_up sema =>
    cases sema with
    | mutex => cases ho
    | fd_wait => obtain rfl | rfl | rfl := hp <;> exact ⟨_, rfl, fun _ => rfl⟩
  | query _ | own | set_own _ | palloc_free_page | wild | shutdown_power_off | panic | spin =>
    obtain rfl | rfl | rfl := hp <;> exact ⟨_, rfl, fun _ => rfl⟩
  | load _ | load_word _ | store _ _ => cases hbytes
  | _ => cases ho

/-- Nor does it change other stages, if it leaves user memory alone. -/
theorem Neutral.stays_silent (h : Neutral code) (hsilent : Silent code)
    (hp : p.stage = .running ∨ p.stage = .loading ∨ p.stage = .closing) : Stays p code :=
  Only.follows (Only.and h hsilent) fun _ ho => next_silent ho.1 ho.2 hp

theorem stays_ret (a : α) : Stays p (ret a : Kernel α) := rfl

theorem Stays.bind {Q : Point → β → Prop} (h : Stays p code) (hf : ∀ a, Goes Q p (f a)) :
    Goes Q p (code >>= f) :=
  Follows.bind h fun _ a hp => hp ▸ hf a

theorem goes_ite {c : Prop} [Decidable c] {Q : Point → α → Prop} {a b : Kernel α} (ha : Goes Q p a)
    (hb : Goes Q p b) : Goes Q p (if c then a else b) := by
  split <;> assumption

/-- A request, and the code after it. -/
theorem goes_request {o : Op} {Q : Point → β → Prop} {f : o.Ans → Kernel β} {g : o.Ans → Point}
    (h : p.next o = some g) (hf : ∀ r, Goes Q (g r) (f r)) : Goes Q p (request o >>= f) :=
  ⟨g, h, hf⟩

theorem goes_final {o : Op} {hempty : o.Ans = Empty} {g : o.Ans → Point} {Q : Point → α → Prop}
    (h : p.next o = some g) : Goes Q p (final o hempty : Kernel α) :=
  ⟨g, h, fun r => (hempty ▸ r : Empty).elim⟩

theorem goes_thread_exit {e : ExecStage} {Q : Point → α → Prop} :
    Goes Q ⟨.closing, e⟩ (thread_exit : Kernel α) :=
  goes_request rfl fun _ => goes_request rfl fun _ => goes_final rfl

theorem neutral_close_files (cur : Own) (fds : List Nat) : Neutral (close_files cur fds) := by
  induction fds with
  | nil => exact neutral_ret ()
  | cons i rest ih => exact (neutral_ite (neutral_free_fd i) (neutral_ret ())).bind fun _ => ih

theorem goes_exit {Q : Point → α → Prop} (status : Int) (hp : p.stage = .running ∨ p.stage = .loading) :
    Goes Q p (exit status : Kernel α) := by
  obtain ⟨s, e⟩ := p
  have hstatus : Goes Q ⟨.exiting status, e⟩ (do
      request (.exit_status status)
      let cur ← request .own
      close_files cur (List.range' 2 (FD_CNT - 2))
      thread_exit : Kernel α) := by
    refine goes_request (g := fun _ => ⟨.closing, e⟩) (by simp [Point.next, Stage.next, ExecStage.next]) ?_
    exact fun _ => goes_request rfl fun cur => ((neutral_close_files cur _).stays_silent
      (plain_close_files cur _).silent (.inr (.inr rfl))).bind fun _ => goes_thread_exit
  obtain rfl | rfl := hp
  · exact goes_request rfl fun _ => hstatus
  · exact goes_request rfl fun _ => hstatus

theorem stays_check_address (addr : Addr) (hp : p.stage = .running) : Stays p (check_address addr) :=
  goes_ite (stays_ret ()) (goes_exit (-1) (.inl hp))

theorem stays_get_command (site : Site) {file_name : CharPtr} (hp : p.stage = .running ∨ p.stage = .loading)
    (hget : ∀ i, Stays p (file_name.get i)) : Stays p (get_command site file_name) := by
  have hsilent : p.stage = .running ∨ p.stage = .loading ∨ p.stage = .closing := hp.imp_right .inl
  have hloop : ∀ buffer n idx command, Stays p (get_command_loop file_name buffer n idx command) := by
    intro buffer n
    induction n with
    | zero => exact fun _ _ => neutral_spin.stays_silent silent_spin hsilent
    | succ n ih =>
      intro idx command
      refine (hget idx).bind fun ch => goes_ite (goes_exit (-1) hp) ?_
      exact (neutral_wild.stays_silent (silent_ite (silent_request rfl) (silent_ret ())) hsilent).bind fun _ =>
        goes_ite (stays_ret command) (ih _ _)
  exact ((neutral_ask _).stays_silent (silent_ask_query _) hsilent).bind fun buffer => hloop buffer _ _ _

theorem stays_get (s : CharPtr) (i : Nat) (hp : p.stage = .running) : Stays p (s.get i) :=
  (neutral_get s i).stays (.inl hp)

/-! ## Processes -/

/-- What `process_execute` leaves of the call of `exec` that it is in. -/
def ExecStage.Executed (e : ExecStage) (p : Point) (res : Int) : Prop :=
  p.stage = .running ∧ (p.exec = e ∧ res = TID_ERROR ∨ ∃ tid, p.exec = e.make tid ∧ res = tid.getD TID_ERROR)

theorem goes_process_execute (file_name : CharPtr) {e : ExecStage} (he : e = .idle ∨ e = .called) :
    Goes e.Executed ⟨.running, e⟩ (process_execute file_name) := by
  refine ((neutral_ask _).stays (.inl rfl)).bind fun page => goes_ite ?_ ⟨rfl, .inl ⟨rfl, rfl⟩⟩
  refine ((neutral_strlcpy file_name PGSIZE).stays (.inl rfl)).bind fun fn_copy => ?_
  refine (stays_get_command _ (.inl rfl) fun i => stays_get file_name i rfl).bind fun command => ?_
  have hcreate : Point.next ⟨.running, e⟩ (.thread_create command fn_copy) =
      some fun tid => ⟨.created tid, e.make tid⟩ := by
    simp [Point.next, Stage.next, ExecStage.next, he]
  refine goes_request hcreate fun tid => goes_request rfl fun _ => ?_
  cases tid with
  | none => exact goes_request rfl fun _ => ⟨rfl, .inr ⟨none, rfl, rfl⟩⟩
  | some tid =>
    exact ((neutral_ite (neutral_request rfl) (neutral_ret ())).stays (.inl rfl)).bind fun _ =>
      ⟨rfl, .inr ⟨some tid, rfl, rfl⟩⟩

theorem stays_process_wait (child_tid : Int) {e : ExecStage} :
    Stays ⟨.running, e⟩ (process_wait child_tid) := by
  refine goes_request rfl fun found => ?_
  cases found with
  | none =>
    refine goes_request (g := fun _ => ⟨.running, e⟩) ?_ fun _ => rfl
    simp [Point.next, Stage.next, Stage.marked, ExecStage.next]
  | some child =>
    refine goes_request (g := fun _ => ⟨.awaited child_tid child, e⟩) ?_ fun _ => ?_
    · simp [Point.next, Stage.next, ExecStage.next]
    refine goes_request (g := fun status => ⟨.told child_tid child status, e⟩) ?_ fun status => ?_
    · simp [Point.next, Stage.next, ExecStage.next]
    refine goes_request (g := fun _ => ⟨.removed child_tid child status, e⟩) ?_ fun _ => ?_
    · simp [Point.next, Stage.next, ExecStage.next]
    refine goes_request (g := fun _ => ⟨.released child_tid status, e⟩) ?_ fun _ => ?_
    · simp [Point.next, Stage.next, ExecStage.next]
    refine goes_request (g := fun _ => ⟨.running, e⟩) ?_ fun _ => rfl
    simp [Point.next, Stage.next, Stage.marked, ExecStage.next]

/-- The code of the initial thread. -/
theorem stays_run_task (task : Str) : Stays ⟨.running, .idle⟩ (run_task task) := by
  refine Follows.bind (goes_process_execute (.kernel task) (.inl rfl)) fun p tid hp => ?_
  obtain ⟨s, e⟩ := p
  obtain ⟨rfl, hexec⟩ := hp
  obtain rfl : e = .idle := by
    obtain ⟨rfl, -⟩ | ⟨tid, rfl, -⟩ := hexec <;> rfl
  exact (stays_process_wait tid).bind fun _ => rfl

theorem stays_load_body (file_name : Str) {e : ExecStage} : Stays ⟨.loading, e⟩ (load_body file_name) := by
  have hp : Stage.loading = .running ∨ Stage.loading = .loading ∨ Stage.loading = .closing := .inr (.inl rfl)
  have hask (q : Query) : Stays ⟨.loading, e⟩ (ask q) := (neutral_ask q).stays_silent (silent_ask_query q) hp
  refine (hask _).bind fun _ => goes_ite ?_ (stays_ret false)
  refine (stays_get_command _ (.inr rfl) fun _ => stays_ret _).bind fun command => ?_
  refine ((neutral_filesys_open _).stays_silent (silent_filesys_open_kernel command) hp).bind fun file => ?_
  cases file with
  | none => exact stays_ret false
  | some file =>
    refine (hask _).bind fun _ => goes_ite ?_ (stays_ret false)
    refine (neutral_wild.stays_silent (silent_ite (silent_request rfl) (silent_ret ())) hp).bind fun _ => ?_
    exact (hask _).bind fun _ => goes_ite (stays_ret true) (goes_exit (-1) (.inr rfl))

/-- The load of a process ends with its result. -/
theorem goes_load (file_name : Str) {e : ExecStage} :
    Goes (fun p success => p = ⟨.loaded success, e⟩) ⟨.loading, e⟩ (load file_name) := by
  refine (stays_load_body file_name).bind fun success => ?_
  cases success with
  | false => exact goes_request rfl fun _ => goes_request rfl fun _ => rfl
  | true => exact goes_request rfl fun _ => rfl

/-- The code of a new process. -/
theorem goes_start_process (file_name : Str) :
    Goes (fun p _ => p = ⟨.running, .idle⟩) ⟨.loading, .idle⟩ (start_process file_name) := by
  refine Follows.bind (goes_load file_name) fun p success hp => ?_
  obtain rfl := hp
  cases success with
  | false =>
    exact goes_request rfl fun _ => goes_request rfl fun _ => goes_request rfl fun _ => goes_thread_exit
  | true => exact goes_request rfl fun _ => goes_request rfl fun _ => rfl

theorem stays_kill (f : IntrFrame) {e : ExecStage} : Stays ⟨.running, e⟩ (kill f) := by
  unfold kill
  split
  · exact goes_request rfl fun _ => goes_thread_exit
  · exact goes_final rfl

theorem stays_page_fault (f : IntrFrame) {e : ExecStage} : Stays ⟨.running, e⟩ (page_fault f) :=
  goes_ite (goes_exit (-1) (.inl rfl)) (stays_kill f)

theorem stays_intr_handler (f : IntrFrame) {e : ExecStage} : Stays ⟨.running, e⟩ (intr_handler f) :=
  goes_ite (stays_kill f) (goes_ite (stays_page_fault f) (stays_ret none))

/-! ## System calls -/

section Syscalls

variable {e : ExecStage}

/-- Code under the semaphore. -/
theorem stays_locked {body : Kernel α} (h : Neutral body) (hf : ∀ a, Stays ⟨.running, e⟩ (f a)) :
    Stays ⟨.running, e⟩ (do sema_down .mutex; let res ← body; sema_up .mutex; f res : Kernel β) :=
  goes_request rfl fun _ => (h.stays (.inr rfl)).bind fun res => goes_request rfl fun _ => hf res

/-- A call of `exec` returns the thread that it has made if `child_load_success` says so. -/
theorem stays_exec (filename : CharPtr) : Stays ⟨.running, .idle⟩ (exec filename) := by
  refine goes_request rfl fun _ => ?_
  refine (stays_get_command _ (.inl rfl) fun i => stays_get filename i rfl).bind fun command => ?_
  refine ((neutral_filesys_open _).stays (.inl rfl)).bind fun file => ?_
  have hfile : Goes (ExecStage.Executed .called) ⟨.running, .called⟩ (exec_file file filename) :=
    goes_ite (goes_process_execute filename (.inr rfl)) ⟨rfl, .inl ⟨rfl, rfl⟩⟩
  refine hfile.bind fun p res hp => ?_
  obtain ⟨s, e⟩ := p
  obtain ⟨rfl, hexec⟩ := hp
  have hcalls : e.calls = true := by
    obtain ⟨rfl, -⟩ | ⟨tid, rfl, -⟩ := hexec <;> rfl
  have hjudge : Point.next ⟨.running, e⟩ .child_load_success =
      some fun success => ⟨.running, e.judge success⟩ := by
    simp [Point.next, Stage.next, ExecStage.next, hcalls]
  refine goes_request hjudge fun success => goes_request (g := fun _ => ⟨.running, .idle⟩) ?_ fun _ => rfl
  obtain ⟨rfl, rfl⟩ | ⟨tid, rfl, rfl⟩ := hexec <;> cases success <;>
    simp [Point.next, Stage.next, Stage.marked, ExecStage.next, ExecStage.judge, ExecStage.make, TID_ERROR]

theorem stays_fibonacci (n : Int) : Stays ⟨.running, e⟩ (fibonacci n) :=
  ((neutral_ask _).stays (.inl rfl)).bind fun _ =>
    goes_ite ((neutral_wild.stays (.inl rfl)).bind fun _ => rfl) (goes_exit (-1) (.inl rfl))

theorem stays_create (file : CharPtr) (size : Int) : Stays ⟨.running, e⟩ (create file size) :=
  goes_ite (goes_exit (-1) (.inl rfl)) ((neutral_filesys_create file size).stays (.inl rfl))

theorem stays_open (file : CharPtr) : Stays ⟨.running, e⟩ (open_ file) :=
  goes_ite rfl <| goes_request rfl fun cur => stays_locked (neutral_open_locked cur file) fun _ => rfl

theorem stays_read (fd : Int) (buffer : Addr) (size : Word) : Stays ⟨.running, e⟩ (read fd buffer size) :=
  (stays_check_address buffer rfl).bind fun _ => goes_request rfl fun cur =>
    stays_locked (neutral_read_locked cur fd buffer size) fun _ => rfl

theorem stays_write (fd : Int) (buffer : Addr) (size : Word) : Stays ⟨.running, e⟩ (write fd buffer size) :=
  (stays_check_address buffer rfl).bind fun _ => goes_request rfl fun cur =>
    stays_locked (neutral_write_locked cur fd buffer size) fun _ => rfl

theorem neutral_filesize (fd : Int) : Neutral (filesize fd) := by
  refine (neutral_request rfl).bind fun cur => (neutral_file_of cur fd).bind fun file => ?_
  cases file with
  | none => exact neutral_panic
  | some file => exact (neutral_ask _).bind fun _ => neutral_ret _

theorem neutral_seek (fd : Int) (position : Word) : Neutral (seek fd position) := by
  refine (neutral_request rfl).bind fun cur => (neutral_file_of cur fd).bind fun file => ?_
  cases file with
  | none => exact neutral_panic
  | some file => exact neutral_ite neutral_panic (neutral_ret ())

theorem neutral_tell (fd : Int) : Neutral (tell fd) := by
  refine (neutral_request rfl).bind fun cur => (neutral_file_of cur fd).bind fun file => ?_
  cases file with
  | none => exact neutral_panic
  | some file => exact (neutral_ask _).bind fun _ => neutral_ret _

theorem neutral_close (fd : Int) : Neutral (close fd) :=
  (neutral_request rfl).bind fun cur => (neutral_file_of cur fd).bind fun _ => neutral_free_fd _

theorem stays_check_args (esp : Addr) (argc : Nat) : Stays ⟨.running, e⟩ (check_args esp argc) := by
  induction argc with
  | zero => exact rfl
  | succ argc ih => exact ih.bind fun _ => stays_check_address _ rfl

theorem stays_arg (esp : Addr) (i : Nat) : Stays ⟨.running, e⟩ (arg esp i) :=
  (neutral_request rfl).stays (.inl rfl)

theorem stays_dispatch (esp : Addr) (nr : Sysno) : Stays ⟨.running, .idle⟩ (dispatch esp nr) := by
  cases nr with
  | SYS_HALT => exact neutral_shutdown.stays (.inl rfl)
  | SYS_EXIT =>
    exact (stays_check_args esp 1).bind fun _ => (stays_arg esp 1).bind fun status => goes_exit _ (.inl rfl)
  | SYS_EXEC =>
    exact (stays_check_args esp 1).bind fun _ => (stays_arg esp 1).bind fun filename =>
      (stays_exec _).bind fun _ => rfl
  | SYS_WAIT =>
    exact (stays_check_args esp 1).bind fun _ => (stays_arg esp 1).bind fun pid =>
      (stays_process_wait _).bind fun _ => rfl
  | SYS_CREATE =>
    exact (stays_check_args esp 2).bind fun _ => (stays_arg esp 1).bind fun file =>
      (stays_arg esp 2).bind fun size => (stays_create _ _).bind fun _ => rfl
  | SYS_REMOVE =>
    exact (stays_check_args esp 1).bind fun _ => (stays_arg esp 1).bind fun file =>
      ((neutral_filesys_remove _).stays (.inl rfl)).bind fun _ => rfl
  | SYS_OPEN =>
    exact (stays_check_args esp 1).bind fun _ => (stays_arg esp 1).bind fun file =>
      (stays_open _).bind fun _ => rfl
  | SYS_FILESIZE =>
    exact (stays_check_args esp 1).bind fun _ => (stays_arg esp 1).bind fun fd =>
      ((neutral_filesize _).stays (.inl rfl)).bind fun _ => rfl
  | SYS_READ =>
    exact (stays_check_args esp 3).bind fun _ => (stays_arg esp 1).bind fun fd =>
      (stays_arg esp 2).bind fun buffer => (stays_arg esp 3).bind fun size =>
        (stays_read _ _ _).bind fun _ => rfl
  | SYS_WRITE =>
    exact (stays_check_args esp 3).bind fun _ => (stays_arg esp 1).bind fun fd =>
      (stays_arg esp 2).bind fun buffer => (stays_arg esp 3).bind fun size =>
        (stays_write _ _ _).bind fun _ => rfl
  | SYS_SEEK =>
    exact (stays_check_args esp 2).bind fun _ => (stays_arg esp 1).bind fun fd =>
      (stays_arg esp 2).bind fun position => ((neutral_seek _ _).stays (.inl rfl)).bind fun _ => rfl
  | SYS_TELL =>
    exact (stays_check_args esp 1).bind fun _ => (stays_arg esp 1).bind fun fd =>
      ((neutral_tell _).stays (.inl rfl)).bind fun _ => rfl
  | SYS_CLOSE =>
    exact (stays_check_args esp 1).bind fun _ => (stays_arg esp 1).bind fun fd =>
      ((neutral_close _).stays (.inl rfl)).bind fun _ => rfl
  | SYS_FIBO =>
    exact (stays_check_args esp 1).bind fun _ => (stays_arg esp 1).bind fun n =>
      (stays_fibonacci _).bind fun _ => rfl
  | SYS_MAX =>
    exact (stays_check_args esp 4).bind fun _ => (stays_arg esp 1).bind fun a =>
      (stays_arg esp 2).bind fun b => (stays_arg esp 3).bind fun c => (stays_arg esp 4).bind fun d => rfl

theorem stays_syscall_handler (esp : Addr) : Stays ⟨.running, .idle⟩ (syscall_handler esp) := by
  refine (stays_check_address esp rfl).bind fun _ => goes_request rfl fun syscall => ?_
  split
  · exact stays_dispatch esp _
  · exact rfl

end Syscalls

end Code

end pintos.prj2
