import Pintos.Prj2.Buffers

/-!
# System calls on files and failures of the kernel

A call is robust when it neither leaves the file table nor fails an assertion,
whatever else it does: it may return, exit, wait or fault.
-/

open interaction Prog

namespace pintos.prj2

variable {m : Machine} {α β : Type} {addr : Addr}

/-- A request that is no failure of the kernel. -/
def Op.tame (o : Op) : Prop := o ≠ .wild ∧ o ≠ .panic

/-- The code neither leaves the objects it works on nor fails an assertion. -/
def Robust {α : Type} (m : Machine) (code : Kernel α) : Prop := ∀ o ∈ code.asked m.reply, o.tame

/-- The code is robust whatever it is answered. -/
def Tame (code : Kernel α) : Prop := code.Only Op.tame

theorem Tame.robust {code : Kernel α} (h : Tame code) : Robust m code := h.asked

theorem Plain.tame {code : Kernel α} (h : Plain code) : Tame code :=
  h.mono fun o ho => by
    simp only [Op.plain, Bool.and_eq_true, decide_eq_true_eq] at ho
    exact ⟨ho.1.2, ho.2⟩

theorem robust_bind {code : Kernel α} {f : α → Kernel β} :
    Robust m (code >>= f) ↔
      Robust m code ∧ ∀ a, code.value m.reply = some a → Robust m (f a) := by
  simp only [Robust, asked_bind, List.mem_append, or_imp, forall_and]
  cases code.value m.reply <;> simp

theorem robust_ask_bind {q : Query} {f : q.Ans → Kernel α} :
    Robust m (ask q >>= f) ↔ ∀ r, m.answer (.query q) = some r → Robust m (f r) := by
  rw [robust_bind, value_ask]
  exact and_iff_right (plain_ask q).tame.robust

theorem robust_own_bind {f : Own → Kernel α} :
    Robust m (request .own >>= f) ↔ ∀ cur, m.answer .own = some cur → Robust m (f cur) := by
  rw [robust_bind, value_request]
  exact and_iff_right (plain_request rfl).tame.robust

theorem not_robust_panic : ¬Robust m (panic : Kernel α) := by
  intro h
  have hasked : Op.panic ∈ (panic : Kernel α).asked m.reply := by simp [panic, final, asked]
  exact (h .panic hasked).2 rfl

theorem tame_ret (a : α) : Tame (ret a : Kernel α) := trivial

theorem Tame.bind {code : Kernel α} {f : α → Kernel β} (h : Tame code)
    (hf : ∀ a, Tame (f a)) : Tame (code >>= f) :=
  Only.bind h hf

theorem tame_request {o : Op} (h : o.tame) : Tame (request o) := ⟨h, fun _ => trivial⟩

theorem tame_ite {p : Prop} [Decidable p] {a b : Kernel α} (ha : Tame a) (hb : Tame b) :
    Tame (if p then a else b) := by
  split <;> assumption

theorem tame_spin : Tame (spin : Kernel α) := (plain_final rfl).tame

theorem tame_sema_down (sema : Sema) : Tame (sema_down sema) := (plain_request rfl).tame

theorem tame_sema_up (sema : Sema) : Tame (sema_up sema) := (plain_request rfl).tame

/-! ## Strings and buffers -/

theorem tame_get (p : CharPtr) (i : Nat) : Tame (p.get i) := by
  cases p with
  | user addr => exact tame_request (by simp [Op.tame])
  | kernel s => exact tame_ret _

theorem tame_strlen_loop (p : CharPtr) (n i : Nat) : Tame (strlen_loop p n i) := by
  induction n generalizing i with
  | zero => exact tame_spin
  | succ n ih => exact (tame_get p i).bind fun c => tame_ite (tame_ret i) (ih (i + 1))

theorem tame_strcmp_loop (a b : CharPtr) (n i : Nat) : Tame (strcmp_loop a b n i) := by
  induction n generalizing i with
  | zero => exact tame_spin
  | succ n ih =>
    exact (tame_get a i).bind fun c => (tame_get b i).bind fun d =>
      tame_ite (ih (i + 1)) (tame_ret _)

theorem tame_strlen (hne : addr ≠ 0) : Tame (strlen (.user addr)) := by
  rw [strlen, if_neg (is_null_iff.not.mpr hne)]
  exact tame_strlen_loop _ _ _

theorem tame_strcmp (hne : addr ≠ 0) (s : Str) : Tame (strcmp (.user addr) (.kernel s)) := by
  have hnull : ¬((CharPtr.user addr).is_null || (CharPtr.kernel s).is_null) = true := by
    rw [Bool.or_eq_true, not_or]
    exact ⟨is_null_iff.not.mpr hne, by simp [CharPtr.is_null]⟩
  rw [strcmp, if_neg hnull]
  exact tame_strcmp_loop _ _ _ _

theorem tame_memcpy_from (p : CharPtr) (n i : Nat) : Tame (memcpy_from p n i) := by
  induction n generalizing i with
  | zero => exact tame_ret []
  | succ n ih => exact (tame_get p i).bind fun c => (ih (i + 1)).bind fun _ => tame_ret _

theorem tame_store (c : Byte) : Tame (store_byte addr c) := tame_request (by simp [Op.tame])

theorem tame_memcpy_to (c : Nat → Byte) (n i : Nat) : Tame (memcpy_to addr c n i) := by
  induction n generalizing i with
  | zero => exact tame_ret ()
  | succ n ih => exact (tame_store _).bind fun _ => ih (i + 1)

theorem tame_read_input (n i : Nat) : Tame (read_input addr n i) := by
  induction n generalizing i with
  | zero => exact tame_ret ()
  | succ n ih => exact (plain_ask _).tame.bind fun c => (tame_store c).bind fun _ => ih (i + 1)

theorem tame_lookup (hne : addr ≠ 0) (dir : List DirEntry) : Tame (lookup (.user addr) dir) := by
  induction dir with
  | nil => exact tame_ret false
  | cons e rest ih =>
    exact tame_ite ((tame_strcmp hne e.name).bind fun r => tame_ite (tame_ret true) ih) ih

theorem tame_dir_add (hne : addr ≠ 0) (dir : List DirEntry) : Tame (dir_add dir (.user addr)) := by
  rw [dir_add, if_neg (is_null_iff.not.mpr hne)]
  refine (tame_get _ 0).bind fun c => tame_ite (tame_ret false) ?_
  refine (tame_strlen hne).bind fun len => tame_ite (tame_ret false) ?_
  refine (tame_lookup hne dir).bind fun found => tame_ite (tame_ret false) ?_
  refine Tame.bind ?_ fun _ => (plain_ask _).tame
  exact (tame_strlen hne).bind fun len => tame_memcpy_from _ _ _

theorem tame_inode_loop {file : File} {copy : Nat → Nat → Kernel Unit}
    (hcopy : ∀ i n, Tame (copy i n)) (n size offset bytes : Nat) (bounce : Bool) :
    Tame (inode_loop file copy n size offset bytes bounce) := by
  induction n generalizing size offset bytes bounce with
  | zero => exact tame_ret bytes
  | succ n ih =>
    refine tame_ite (tame_ret bytes) (tame_ite ?_ ?_)
    · exact (hcopy _ _).bind fun _ => ih _ _ _ _
    · exact (plain_ask _).tame.bind fun got =>
        tame_ite ((hcopy _ _).bind fun _ => ih _ _ _ _) (tame_ret bytes)

theorem tame_file_read (f : FilePtr) (size : Int) : Tame (file_read f addr size) :=
  (plain_ask _).tame.bind fun _ =>
    tame_inode_loop (fun i n => tame_memcpy_to _ n i) _ _ _ _ _

theorem tame_file_write (f : FilePtr) (deny : Bool) (size : Int) :
    Tame (file_write f deny addr size) :=
  (plain_ask _).tame.bind fun _ => tame_ite (tame_ret 0) <|
    tame_inode_loop (fun i n => (tame_memcpy_from _ n i).bind fun _ => tame_ret ()) _ _ _ _ _

/-! ## The calls -/

theorem robust_with_root {failure : α} {f : List DirEntry → Kernel α} :
    Robust m (with_root failure f) ↔
      ∀ dir, m.answer (.query .dir_open_root) = some (some dir) → Robust m (f dir) := by
  rw [with_root, robust_ask_bind]
  constructor
  · exact fun h dir hdir => h (some dir) hdir
  · intro h dir hdir
    cases dir with
    | none => exact (tame_ret failure).robust
    | some dir => exact h dir hdir

theorem robust_create {initial_size : Int} :
    Robust m (create (.user addr) initial_size) ↔
      (addr ≠ 0 → ∀ dir, m.answer (.query .dir_open_root) = some (some dir) →
        m.answer (.query .free_map_allocate) = some true → 0 ≤ initial_size) := by
  unfold create
  by_cases hne : addr = 0
  · rw [if_pos (is_null_iff.mpr hne)]
    exact iff_of_true (plain_exit (-1)).tame.robust fun h => absurd hne h
  · rw [if_neg (is_null_iff.not.mpr hne), imp_iff_right hne, filesys_create, robust_with_root]
    refine forall₂_congr fun dir _ => ?_
    rw [create_in, robust_ask_bind]
    constructor
    · intro h hallocate
      by_contra hsize
      have hpanic := h true hallocate
      rw [if_pos rfl, if_pos (by omega)] at hpanic
      exact not_robust_panic hpanic
    · intro h allocated hallocate
      cases allocated with
      | false => exact (tame_ret false).robust
      | true =>
        have hsize := h hallocate
        rw [if_pos rfl, if_neg (by omega)]
        exact ((plain_ask _).tame.bind fun created =>
          tame_ite (tame_dir_add hne dir) (tame_ret false)).robust

theorem robust_remove :
    Robust m (remove (.user addr)) ↔
      ∀ dir, m.answer (.query .dir_open_root) = some (some dir) → addr ≠ 0 := by
  rw [remove, filesys_remove, robust_with_root]
  refine forall₂_congr fun dir _ => ?_
  unfold dir_remove
  by_cases hne : addr = 0
  · rw [if_pos (is_null_iff.mpr hne)]
    exact iff_of_false not_robust_panic (not_not.mpr hne)
  · rw [if_neg (is_null_iff.not.mpr hne)]
    exact iff_of_true ((tame_lookup hne dir).bind fun found =>
      tame_ite (plain_ask _).tame (tame_ret false)).robust hne

theorem robust_open : Robust m (open_ (.user addr)) := by
  unfold open_
  by_cases hne : addr = 0
  · rw [if_pos (is_null_iff.mpr hne)]
    exact (tame_ret (-1)).robust
  · rw [if_neg (is_null_iff.not.mpr hne)]
    refine ((plain_request rfl).tame.bind fun cur => (tame_sema_down _).bind fun _ => Tame.bind ?_
      fun res => (tame_sema_up _).bind fun _ => tame_ret res).robust
    refine Tame.bind ?_ fun file => ?_
    · refine (plain_ask _).tame.bind fun dir => ?_
      cases dir with
      | none => exact tame_ret none
      | some dir =>
        change Tame (if _ then _ else _)
        rw [if_neg (is_null_iff.not.mpr hne)]
        exact (tame_lookup hne dir).bind fun found => tame_ite (plain_ask _).tame (tame_ret none)
    · cases file with
      | none => exact tame_ret (-1)
      | some f =>
        exact (plain_install_file cur f).tame.bind fun res => (tame_strcmp hne cur.name).bind fun r =>
          (tame_ite (plain_request rfl).tame (tame_ret ())).bind fun _ => tame_ret res

theorem robust_read {fd : Int} {size : Word} : Robust m (read fd addr size) := by
  refine ((plain_check_address addr).tame.bind fun _ => (plain_request rfl).tame.bind fun cur =>
    (tame_sema_down _).bind fun _ => Tame.bind ?_ fun res =>
      (tame_sema_up _).bind fun _ => tame_ret res).robust
  refine tame_ite ((tame_read_input _ _).bind fun _ => tame_ret _) (tame_ite ?_ (tame_ret (-1)))
  cases cur.files fd.toNat with
  | none => exact tame_ret (-1)
  | some f => exact (tame_file_read f _).bind fun n => tame_ret _

theorem robust_write {fd : Int} {size : Word} : Robust m (write fd addr size) := by
  refine ((plain_check_address addr).tame.bind fun _ => (plain_request rfl).tame.bind fun cur =>
    (tame_sema_down _).bind fun _ => Tame.bind ?_ fun res =>
      (tame_sema_up _).bind fun _ => tame_ret res).robust
  refine tame_ite ((tame_memcpy_from _ _ _).bind fun _ => tame_ret _) (tame_ite ?_ (tame_ret (-1)))
  cases cur.files fd.toNat with
  | none => exact tame_ret (-1)
  | some f => exact (tame_file_write f _ _).bind fun n => tame_ret _

/-- The index is one of the file table. -/
def IsFd (fd : Int) : Prop := 0 ≤ fd ∧ fd < FD_CNT

/-- The entry of the file table has a file. -/
def IsOpen (cur : Own) (fd : Int) : Prop := IsFd fd ∧ cur.files fd.toNat ≠ none

/-- Using an entry of the file table needs an index of the table. -/
theorem robust_file_of_bind {cur : Own} {fd : Int} {f : Option FilePtr → Kernel α} :
    Robust m (file_of cur fd >>= f) ↔ IsFd fd ∧ Robust m (f (cur.files fd.toNat)) := by
  have htable : ¬(fd < 0 ∨ FD_CNT ≤ fd) ↔ IsFd fd := by
    simp only [IsFd]
    omega
  unfold file_of when
  by_cases hfd : fd < 0 ∨ FD_CNT ≤ fd
  · rw [if_pos hfd]
    refine iff_of_false (fun h => ?_) fun h => (htable.mpr h.1) hfd
    have hasked : Op.wild ∈ (wild >>= fun _ => f (cur.files fd.toNat)).asked m.reply := by
      simp [wild, request, asked]
    exact (h .wild hasked).1 rfl
  · rw [if_neg hfd]
    exact (and_iff_right (htable.mp hfd)).symm

theorem robust_filesize {fd : Int} :
    Robust m (filesize fd) ↔ ∀ cur, m.answer .own = some cur → IsOpen cur fd := by
  rw [filesize, robust_own_bind]
  refine forall₂_congr fun cur _ => robust_file_of_bind.trans (and_congr_right fun _ => ?_)
  cases cur.files fd.toNat with
  | none => exact iff_of_false not_robust_panic (by simp)
  | some f => exact iff_of_true ((plain_ask _).tame.bind fun _ => tame_ret _).robust (by simp)

theorem robust_tell {fd : Int} :
    Robust m (tell fd) ↔ ∀ cur, m.answer .own = some cur → IsOpen cur fd := by
  rw [tell, robust_own_bind]
  refine forall₂_congr fun cur _ => robust_file_of_bind.trans (and_congr_right fun _ => ?_)
  cases cur.files fd.toNat with
  | none => exact iff_of_false not_robust_panic (by simp)
  | some f => exact iff_of_true ((plain_ask _).tame.bind fun _ => tame_ret _).robust (by simp)

theorem robust_seek {fd : Int} {position : Word} :
    Robust m (seek fd position) ↔
      ∀ cur, m.answer .own = some cur → IsOpen cur fd ∧ 0 ≤ position.toInt := by
  rw [seek, robust_own_bind]
  refine forall₂_congr fun cur _ => robust_file_of_bind.trans ?_
  rw [IsOpen, and_assoc]
  refine and_congr_right fun _ => ?_
  cases cur.files fd.toNat with
  | none => exact iff_of_false not_robust_panic (by simp)
  | some f =>
    change Robust m (if _ then _ else _) ↔ _
    by_cases hposition : position.toInt < 0
    · rw [if_pos hposition]
      exact iff_of_false not_robust_panic fun h => by omega
    · rw [if_neg hposition]
      exact iff_of_true (tame_ret ()).robust ⟨by simp, by omega⟩

theorem robust_close {fd : Int} :
    Robust m (close fd) ↔ ∀ cur, m.answer .own = some cur → IsFd fd := by
  rw [close, robust_own_bind]
  refine forall₂_congr fun cur _ => robust_file_of_bind.trans ?_
  exact and_iff_left (plain_free_fd _).tame.robust

/-- The calls of the file system. -/
inductive FileCall where
  | create (file : Addr) (initial_size : Word)
  | remove (file : Addr)
  | open_ (file : Addr)
  | filesize (fd : Int)
  | read (fd : Int) (buffer : Addr) (size : Word)
  | write (fd : Int) (buffer : Addr) (size : Word)
  | seek (fd : Int) (position : Word)
  | tell (fd : Int)
  | close (fd : Int)

/-- What `dispatch` runs for the call, without the value it leaves in `eax`. -/
def FileCall.code : FileCall → Kernel Unit
  | create file initial_size => do let _ ← prj2.create (.user file) initial_size.toInt
  | remove file => do let _ ← prj2.remove (.user file)
  | open_ file => do let _ ← prj2.open_ (.user file)
  | filesize fd => do let _ ← prj2.filesize fd
  | read fd buffer size => do let _ ← prj2.read fd buffer size
  | write fd buffer size => do let _ ← prj2.write fd buffer size
  | seek fd position => prj2.seek fd position
  | tell fd => do let _ ← prj2.tell fd
  | close fd => prj2.close fd

/-- The arguments that the kernel itself relies on, given the file table and the
answers of the file system. -/
def FileCall.Expected (m : Machine) : FileCall → Prop
  | create file initial_size => file ≠ 0 → ∀ dir,
    m.answer (.query .dir_open_root) = some (some dir) →
      m.answer (.query .free_map_allocate) = some true → 0 ≤ initial_size.toInt
  | remove file => ∀ dir, m.answer (.query .dir_open_root) = some (some dir) → file ≠ 0
  | filesize fd | tell fd => ∀ cur, m.answer .own = some cur → IsOpen cur fd
  | seek fd position => ∀ cur, m.answer .own = some cur → IsOpen cur fd ∧ 0 ≤ position.toInt
  | close fd => ∀ cur, m.answer .own = some cur → IsFd fd
  | open_ _ | read _ _ _ | write _ _ _ => True

theorem robust_bind_ret {code : Kernel α} {f : α → β} :
    Robust m (code >>= fun a => ret (f a)) ↔ Robust m code := by
  rw [robust_bind]
  exact and_iff_left fun a _ => (tame_ret (f a)).robust

/-- A file system call stays in the file table and fails no assertion exactly when
its arguments are the expected ones. -/
theorem file_calls_robust (m : Machine) (call : FileCall) :
    (Op.wild ∉ call.code.asked m.reply ∧ Op.panic ∉ call.code.asked m.reply) ↔ call.Expected m := by
  have hrobust : (Op.wild ∉ call.code.asked m.reply ∧ Op.panic ∉ call.code.asked m.reply) ↔
      Robust m call.code := by
    constructor
    · rintro ⟨hwild, hpanic⟩ o ho
      exact ⟨fun h => hwild (h ▸ ho), fun h => hpanic (h ▸ ho)⟩
    · exact fun h => ⟨fun ho => (h _ ho).1 rfl, fun ho => (h _ ho).2 rfl⟩
  rw [hrobust]
  cases call with
  | create file initial_size => exact robust_bind_ret.trans robust_create
  | remove file => exact robust_bind_ret.trans robust_remove
  | open_ file => exact iff_true_intro (robust_bind_ret.mpr robust_open)
  | filesize fd => exact robust_bind_ret.trans robust_filesize
  | read fd buffer size => exact iff_true_intro (robust_bind_ret.mpr robust_read)
  | write fd buffer size => exact iff_true_intro (robust_bind_ret.mpr robust_write)
  | seek fd position => exact robust_seek
  | tell fd => exact robust_bind_ret.trans robust_tell
  | close fd => exact robust_close

/-- The fields of a process that has opened nothing. -/
def nothing_open : Own where
  name := []
  files := fun _ => none
  fd_used := fun _ => false
  current_file := none

/-- A machine that only answers with these fields. -/
def answers_own (cur : Own) : Machine where
  mem := { byte := fun _ => none, writable := fun _ => false }
  answer := fun
    | .own => some cur
    | _ => none

/-- The size of a descriptor that is not open fails the assertion of
`file_length`. -/
theorem filesize_of_closed_panics :
    ∃ (m : Machine) (cur : Own), m.answer .own = some cur ∧ IsFd 2 ∧
      Op.panic ∈ (FileCall.filesize 2).code.asked m.reply :=
  ⟨answers_own nothing_open, nothing_open, rfl, ⟨by decide, by decide⟩, by decide +kernel⟩

end pintos.prj2
