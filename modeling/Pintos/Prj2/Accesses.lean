import Pintos.Prj2.Syscall

/-!
# The user memory that kernel code accesses

The code runs against a fixed memory and fixed answers of the rest of the
kernel. Each lemma says when one function accesses user addresses only.
-/

open interaction Prog

namespace pintos.prj2

/-- A memory and the answers to all other requests. -/
structure Machine where
  mem : Memory
  answer : (o : Op) → Option o.Ans

/-- The answer to a request. An access to memory that is not mapped for it gets
none, and the process goes on in `page_fault`. -/
def Machine.reply (m : Machine) : (o : Op) → Option o.Ans
  | .load addr => m.mem.byte addr
  | .load_word addr => m.mem.word addr
  | .store addr _ => if m.mem.stores addr then some () else none
  | .mark _ => some ()
  | .wild => some ()
  | o => m.answer o

theorem reply_load (m : Machine) (addr : Addr) : m.reply (.load addr) = m.mem.byte addr := rfl

theorem reply_load_word (m : Machine) (addr : Addr) :
    m.reply (.load_word addr) = m.mem.word addr := rfl

theorem reply_store (m : Machine) (addr : Addr) (c : Byte) :
    m.reply (.store addr c) = if m.mem.stores addr then some () else none := rfl

/-- The bytes of user memory that a request accesses. -/
def Op.bytes : Op → List Addr
  | load addr => [addr]
  | load_word addr => [addr, addr + 1, addr + 2, addr + 3]
  | store addr _ => [addr]
  | _ => []

/-- The bytes that the code accesses through user pointers. -/
def accessed {α : Type} (m : Machine) (code : Kernel α) : List Addr :=
  (code.granted m.reply).flatMap Op.bytes

/-- The code accesses no kernel address on the user's behalf. -/
def UserOnly {α : Type} (m : Machine) (code : Kernel α) : Prop :=
  ∀ addr ∈ accessed m code, is_user_vaddr addr = true

variable {m : Machine} {α β : Type}

@[simp] theorem userOnly_ret (a : α) : UserOnly m (ret a) := by
  simp [UserOnly, accessed]

theorem userOnly_ask {o : Op} {k : o.Ans → Kernel α} :
    UserOnly m (.ask o k) ↔
      ∀ r, m.reply o = some r → (∀ addr ∈ o.bytes, is_user_vaddr addr = true) ∧ UserOnly m (k r) := by
  cases h : m.reply o with
  | none => simp [UserOnly, accessed, granted_of_none h]
  | some r =>
    simp only [UserOnly, accessed, granted_of_some h, List.flatMap_cons, List.mem_append, or_imp,
      forall_and, Option.some.injEq, forall_eq']

theorem userOnly_bind {code : Kernel α} {f : α → Kernel β} :
    UserOnly m (code >>= f) ↔
      UserOnly m code ∧ ∀ a, code.value m.reply = some a → UserOnly m (f a) := by
  simp only [UserOnly, accessed, granted_bind, List.flatMap_append, List.mem_append, or_imp,
    forall_and]
  cases code.value m.reply <;> simp

/-- Continue with a value. -/
theorem userOnly_bind_ret {code : Kernel α} {f : α → β} :
    UserOnly m (code >>= fun a => ret (f a)) ↔ UserOnly m code := by
  rw [userOnly_bind]
  exact and_iff_left fun a _ => userOnly_ret (f a)

/-- A request that accesses no user memory. -/
theorem userOnly_request {o : Op} (h : o.bytes = []) : UserOnly m (request o) :=
  userOnly_ask.mpr fun r _ => ⟨by simp [h], userOnly_ret r⟩

theorem value_request {o : Op} : (request o).value m.reply = m.reply o := by
  cases h : m.reply o with
  | none => exact value_of_none h
  | some r => exact value_of_some h

theorem value_ask {q : Query} : (ask q).value m.reply = m.answer (.query q) := value_request

/-- Continue after a request that accesses no user memory. -/
theorem userOnly_request_bind {o : Op} {f : o.Ans → Kernel α} (h : o.bytes = []) :
    UserOnly m (request o >>= f) ↔ ∀ r, m.reply o = some r → UserOnly m (f r) := by
  rw [userOnly_bind, value_request]
  exact and_iff_right (userOnly_request h)

theorem value_bind_some {code : Kernel α} {f : α → Kernel β} {b : β} :
    (code >>= f).value m.reply = some b ↔
      ∃ a, code.value m.reply = some a ∧ (f a).value m.reply = some b := by
  rw [value_bind, Option.bind_eq_some_iff]

theorem value_ask_bind_some {q : Query} {f : q.Ans → Kernel β} {b : β} :
    (ask q >>= f).value m.reply = some b ↔
      ∃ r, m.answer (.query q) = some r ∧ (f r).value m.reply = some b := by
  rw [value_bind_some, value_ask]

/-! ## Code without user pointers -/

/-- The code makes no access to user memory, whatever it is answered. -/
def Silent (code : Kernel α) : Prop := code.Only fun o => o.bytes = []

theorem Silent.userOnly {code : Kernel α} (h : Silent code) : UserOnly m code := by
  induction code with
  | ret a => exact userOnly_ret a
  | ask o k ih =>
    refine userOnly_ask.mpr fun r _ => ⟨?_, ih r (h.2 r)⟩
    rw [h.1]
    simp

theorem silent_ret (a : α) : Silent (ret a : Kernel α) := trivial

theorem silent_ask {o : Op} {k : o.Ans → Kernel α} (h : o.bytes = []) (hk : ∀ r, Silent (k r)) :
    Silent (.ask o k) :=
  ⟨h, hk⟩

theorem Silent.bind {code : Kernel α} {f : α → Kernel β} (h : Silent code)
    (hf : ∀ a, Silent (f a)) : Silent (code >>= f) :=
  Only.bind h hf

theorem silent_request {o : Op} (h : o.bytes = []) : Silent (request o) :=
  silent_ask h silent_ret

theorem silent_final {o : Op} {h : o.Ans = Empty} (hbytes : o.bytes = []) :
    Silent (final o h : Kernel α) :=
  silent_ask hbytes fun r => (h ▸ r : Empty).elim

theorem silent_spin : Silent (spin : Kernel α) := silent_final rfl

theorem silent_ask_query (q : Query) : Silent (ask q) := silent_request rfl

theorem silent_panic : Silent (panic : Kernel α) := silent_final rfl

theorem silent_ite {p : Prop} [Decidable p] {a b : Kernel α} (ha : Silent a) (hb : Silent b) :
    Silent (if p then a else b) := by
  split <;> assumption

/-- A request that accesses no user memory and is no failure of the kernel. -/
def Op.plain (o : Op) : Bool := o.bytes = [] && o ≠ .wild && o ≠ .panic

/-- The code makes plain requests only. -/
def Plain (code : Kernel α) : Prop := code.Only fun o => o.plain = true

theorem Plain.silent {code : Kernel α} (h : Plain code) : Silent code :=
  h.mono fun o ho => by
    simp only [Op.plain, Bool.and_eq_true, decide_eq_true_eq] at ho
    exact ho.1.1

theorem plain_ret (a : α) : Plain (ret a : Kernel α) := trivial

theorem Plain.bind {code : Kernel α} {f : α → Kernel β} (h : Plain code)
    (hf : ∀ a, Plain (f a)) : Plain (code >>= f) :=
  Only.bind h hf

theorem plain_request {o : Op} (h : o.plain = true) : Plain (request o) := ⟨h, fun _ => trivial⟩

theorem plain_ask (q : Query) : Plain (ask q) := plain_request rfl

theorem plain_final {o : Op} {h : o.Ans = Empty} (hplain : o.plain = true) :
    Plain (final o h : Kernel α) :=
  ⟨hplain, fun r => (h ▸ r : Empty).elim⟩

theorem plain_ite {p : Prop} [Decidable p] {a b : Kernel α} (ha : Plain a) (hb : Plain b) :
    Plain (if p then a else b) := by
  split <;> assumption

theorem plain_thread_exit : Plain (thread_exit : Kernel α) :=
  (plain_request rfl).bind fun _ => (plain_request rfl).bind fun _ => plain_final rfl

theorem plain_free_fd (fd : Nat) : Plain (free_fd fd) :=
  (plain_request rfl).bind fun _ => (plain_request rfl).bind fun _ =>
    (plain_request rfl).bind fun _ => plain_request rfl

theorem plain_close_files (cur : Own) (fds : List Nat) : Plain (close_files cur fds) := by
  induction fds with
  | nil => exact plain_ret ()
  | cons i rest ih =>
    exact (plain_ite (plain_free_fd i) (plain_ret _)).bind fun _ => ih

theorem plain_exit (status : Int) : Plain (exit status : Kernel α) :=
  (plain_request rfl).bind fun _ => (plain_request rfl).bind fun _ =>
    (plain_request rfl).bind fun cur => (plain_close_files cur _).bind fun _ => plain_thread_exit

theorem plain_check_address (addr : Addr) : Plain (check_address addr) :=
  plain_ite (plain_ret ()) (plain_exit (-1))

theorem plain_install_file (cur : Own) (f : FilePtr) : Plain (install_file cur f) := by
  unfold install_file
  split
  · exact (plain_request rfl).bind fun _ => (plain_request rfl).bind fun _ =>
      (plain_request rfl).bind fun _ => (plain_request rfl).bind fun _ => plain_ret _
  · exact plain_ret _

theorem silent_exit (status : Int) : Silent (exit status : Kernel α) := (plain_exit status).silent

theorem value_final {o : Op} {h : o.Ans = Empty} :
    (final o h : Kernel α).value m.reply = none := by
  cases hr : m.reply o with
  | none => exact value_of_none hr
  | some r => exact (h ▸ r : Empty).elim

theorem value_spin : (spin : Kernel α).value m.reply = none := value_final

theorem value_panic : (panic : Kernel α).value m.reply = none := value_final

theorem value_thread_exit : (thread_exit : Kernel α).value m.reply = none := by
  simp only [thread_exit, value_bind, value_final, Option.bind_fun_none]

/-- `exit` does not return. -/
theorem value_exit (status : Int) : (exit status : Kernel α).value m.reply = none := by
  simp only [exit, value_bind, value_thread_exit, Option.bind_fun_none]

/-- `check_address` returns for user addresses only. -/
theorem value_check_address (addr : Addr) :
    (check_address addr).value m.reply = if is_user_vaddr addr then some () else none := by
  unfold check_address
  split
  · rfl
  · exact value_exit (-1)

theorem userOnly_check_address_bind {addr : Addr} {f : Unit → Kernel α} :
    UserOnly m (check_address addr >>= f) ↔ (is_user_vaddr addr = true → UserOnly m (f ())) := by
  rw [userOnly_bind, value_check_address, and_iff_right (plain_check_address addr).silent.userOnly]
  cases is_user_vaddr addr with
  | false => simp
  | true => exact ⟨fun h _ => h () rfl, fun h _ _ => h rfl⟩

theorem userOnly_ask_bind {q : Query} {f : q.Ans → Kernel α} :
    UserOnly m (ask q >>= f) ↔ ∀ r, m.answer (.query q) = some r → UserOnly m (f r) :=
  userOnly_request_bind rfl

theorem userOnly_with_root {failure : α} {body : List DirEntry → Kernel α} :
    UserOnly m (with_root failure body) ↔
      ∀ dir, m.answer (.query .dir_open_root) = some (some dir) → UserOnly m (body dir) := by
  rw [with_root, userOnly_ask_bind]
  constructor
  · exact fun h dir hdir => h (some dir) hdir
  · intro h dir hdir
    cases dir with
    | none => exact userOnly_ret failure
    | some dir => exact h dir hdir

theorem value_with_root {failure a : α} {body : List DirEntry → Kernel α} (ha : a ≠ failure) :
    (with_root failure body).value m.reply = some a ↔
      ∃ dir, m.answer (.query .dir_open_root) = some (some dir) ∧
        (body dir).value m.reply = some a := by
  rw [with_root, value_ask_bind_some]
  constructor
  · rintro ⟨dir, hdir, h⟩
    cases dir with
    | none =>
      cases h
      exact absurd rfl ha
    | some dir => exact ⟨dir, hdir, h⟩
  · rintro ⟨dir, hdir, h⟩
    exact ⟨some dir, hdir, h⟩

theorem silent_with_root {failure : α} {body : List DirEntry → Kernel α}
    (h : ∀ dir, Silent (body dir)) : Silent (with_root failure body) := by
  refine (silent_ask_query _).bind fun dir => ?_
  cases dir with
  | none => exact silent_ret failure
  | some dir => exact h dir

end pintos.prj2
