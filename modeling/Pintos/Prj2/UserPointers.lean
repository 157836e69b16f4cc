import Pintos.Prj2.Buffers

/-!
# System calls and the end of user memory

`check_address` looks at the first byte of a word, a string or a buffer. The
theorem says for which stacks, memories and answers of the rest of the kernel a
system call nevertheless stays below `PHYS_BASE`.
-/

open interaction Prog

namespace pintos.prj2

variable {m : Machine} {α : Type} {addr : Addr}

/-! ## File names -/

theorem userOnly_dir_add {dir : List DirEntry} (hne : addr ≠ 0) :
    UserOnly m (dir_add dir (.user addr)) ↔ Ends m.mem is_nul addr 0 := by
  rw [dir_add, if_neg (is_null_iff.not.mpr hne), userOnly_get_bind]
  constructor
  · intro h
    cases hbyte : m.mem.byte (addr + BitVec.ofNat 32 0) with
    | none => exact ends_of_none hbyte
    | some c =>
      obtain ⟨huser, h⟩ := h c hbyte
      by_cases hc : c = 0
      · exact (ends_of_some hbyte).mpr ⟨huser, .inl (by simpa [is_nul] using hc)⟩
      · rw [if_neg hc, userOnly_bind, userOnly_strlen] at h
        exact h.1 hne
  · intro hends c hbyte
    refine ⟨((ends_of_some hbyte).mp hends).1, ?_⟩
    split
    · exact userOnly_ret false
    · rw [userOnly_bind, userOnly_strlen]
      refine ⟨fun _ => hends, fun len _ => ?_⟩
      split
      · exact userOnly_ret false
      · rw [userOnly_bind, userOnly_lookup]
        refine ⟨fun _ e _ _ => hends.differs, fun found _ => ?_⟩
        split
        · exact userOnly_ret false
        · rw [userOnly_bind, userOnly_strlcpy]
          exact ⟨fun _ => hends, fun _ _ => (silent_ask_query _).userOnly⟩

/-- `create` reads the name once the file is allocated. -/
def CreateEnds (m : Machine) (file : Addr) (initial_size : Int) : Prop :=
  ∀ dir, m.answer (.query .dir_open_root) = some (some dir) →
    m.answer (.query .free_map_allocate) = some true → 0 ≤ initial_size →
      m.answer (.query (.inode_create initial_size)) = some true →
        file ≠ 0 → Ends m.mem is_nul file 0

theorem userOnly_create {initial_size : Int} :
    UserOnly m (create (.user addr) initial_size) ↔ CreateEnds m addr initial_size := by
  unfold create
  by_cases hne : addr = 0
  · rw [if_pos (is_null_iff.mpr hne)]
    exact iff_of_true (silent_exit (-1)).userOnly fun _ _ _ _ _ h => absurd hne h
  · rw [if_neg (is_null_iff.not.mpr hne), filesys_create, userOnly_with_root]
    refine forall₂_congr fun dir _ => ?_
    rw [create_in, userOnly_ask_bind]
    constructor
    · intro h hallocate hsize hcreate _
      have h := h true hallocate
      rw [if_pos rfl, if_neg (by omega), userOnly_ask_bind] at h
      exact (userOnly_dir_add hne).mp (h true hcreate)
    · intro h allocated hallocate
      cases allocated with
      | false => exact userOnly_ret false
      | true =>
        rw [if_pos rfl]
        by_cases hsize : initial_size < 0
        · rw [if_pos hsize]
          exact silent_panic.userOnly
        · rw [if_neg hsize, userOnly_ask_bind]
          intro created hcreate
          cases created with
          | false => exact userOnly_ret false
          | true => exact (userOnly_dir_add hne).mpr (h hallocate (by omega) hcreate hne)

theorem userOnly_remove : UserOnly m (remove (.user addr)) ↔ NamesEnd m addr := by
  rw [remove, filesys_remove, userOnly_with_root]
  refine forall₂_congr fun dir _ => ?_
  unfold dir_remove
  by_cases hne : addr = 0
  · rw [if_pos (is_null_iff.mpr hne)]
    exact iff_of_true silent_panic.userOnly fun h => absurd hne h
  · rw [if_neg (is_null_iff.not.mpr hne), userOnly_bind, userOnly_lookup]
    exact and_iff_left fun _ _ => (silent_ite (silent_ask_query _) (silent_ret false)).userOnly

/-- `open` compares the name once it has the file system. -/
def OpenEnds (m : Machine) (file : Addr) : Prop :=
  ∀ cur, m.answer .own = some cur → m.answer (.sema_down .mutex) = some () → NamesEnd m file

theorem userOnly_open_locked {cur : Own} :
    UserOnly m (open_locked cur (.user addr)) ↔ NamesEnd m addr := by
  rw [open_locked, userOnly_bind, userOnly_filesys_open]
  refine and_iff_left_of_imp fun hends file hfile => ?_
  cases file with
  | none => exact userOnly_ret (-1)
  | some f =>
    refine userOnly_bind.mpr ⟨(plain_install_file cur f).silent.userOnly, fun res _ => ?_⟩
    rw [userOnly_bind, userOnly_strcmp]
    refine ⟨fun _ => (ends_of_filesys_open hends hfile).differs, fun differ _ => ?_⟩
    exact ((silent_ite (silent_request rfl) (silent_ret ())).bind fun _ => silent_ret res).userOnly

theorem userOnly_locked {res : Kernel Int} :
    UserOnly m (do sema_down .mutex; let r ← res; sema_up .mutex; return r) ↔
      (m.answer (.sema_down .mutex) = some () → UserOnly m res) := by
  rw [sema_down, userOnly_request_bind rfl]
  have hbody : UserOnly m (do let r ← res; sema_up .mutex; return r) ↔ UserOnly m res := by
    rw [userOnly_bind]
    exact and_iff_left fun r _ => ((silent_request rfl).bind fun _ => silent_ret r).userOnly
  exact ⟨fun h hdown => hbody.mp (h () hdown), fun h _ hdown => hbody.mpr (h hdown)⟩

theorem userOnly_open : UserOnly m (open_ (.user addr)) ↔ OpenEnds m addr := by
  unfold open_
  by_cases hne : addr = 0
  · rw [if_pos (is_null_iff.mpr hne)]
    exact iff_of_true (userOnly_ret (-1)) fun _ _ _ _ _ h => absurd hne h
  · rw [if_neg (is_null_iff.not.mpr hne), userOnly_request_bind rfl]
    refine forall₂_congr fun cur _ => ?_
    rw [userOnly_locked, userOnly_open_locked]

/-! ## Command lines -/

/-- `exec` copies the first word, and the whole command line once the word names a
file and there is a page for the copy. -/
structure ExecEnds (m : Machine) (filename : Addr) : Prop where
  command : CommandEnds m .exec filename
  line : ∀ command, m.answer (.query (.malloc .exec 128)) = some true →
    CommandAt m.mem filename command → Opens m command →
      m.answer (.query .palloc_get_page) = some true → filename ≠ 0 →
        Ends m.mem is_nul filename 0

theorem silent_thread_create (name fn_copy : Str) : Silent (thread_create name fn_copy) :=
  (silent_request rfl).bind fun _ => silent_ret _

theorem userOnly_process_execute :
    UserOnly m (process_execute (.user addr)) ↔
      (m.answer (.query .palloc_get_page) = some true → addr ≠ 0 → Ends m.mem is_nul addr 0) := by
  rw [process_execute, userOnly_ask_bind]
  constructor
  · intro h hpage
    have h := h true hpage
    rw [if_pos rfl, userOnly_bind, userOnly_strlcpy] at h
    exact h.1
  · intro h page hpage
    cases page with
    | false => exact userOnly_ret TID_ERROR
    | true =>
      rw [if_pos rfl, userOnly_bind, userOnly_strlcpy]
      refine ⟨h hpage, fun fn_copy hcopy => ?_⟩
      obtain ⟨len, hlen, -⟩ := value_bind_some.mp hcopy
      rw [userOnly_bind, userOnly_get_command]
      refine ⟨commandEnds_of_ends (h hpage (value_strlen hlen).1), fun command _ => ?_⟩
      exact ((silent_thread_create command fn_copy).bind fun tid =>
        (silent_request rfl).bind fun _ =>
          (silent_ite (silent_request rfl) (silent_ret ())).bind fun _ => silent_ret tid).userOnly

theorem userOnly_exec : UserOnly m (exec (.user addr)) ↔ ExecEnds m addr := by
  have hfile : ∀ file, UserOnly m (exec_file file (.user addr)) ↔
      (file.isSome = true → m.answer (.query .palloc_get_page) = some true → addr ≠ 0 →
        Ends m.mem is_nul addr 0) := by
    intro file
    cases file with
    | none => simp [exec_file]
    | some f => simpa [exec_file] using userOnly_process_execute
  have hlast : ∀ res : Int, Silent (do
      let success ← request .child_load_success
      let res := if success then res else -1
      mark (.exec_returned res)
      return res) := fun _ =>
    (silent_request rfl).bind fun _ => (silent_request rfl).bind fun _ => silent_ret _
  have hrest : ∀ file, UserOnly m (do
      let res ← exec_file file (.user addr)
      let success ← request .child_load_success
      let res := if success then res else -1
      mark (.exec_returned res)
      return res) ↔ UserOnly m (exec_file file (.user addr)) := fun file => by
    rw [userOnly_bind]
    exact and_iff_left fun res _ => (hlast res).userOnly
  rw [exec, mark, userOnly_request_bind rfl]
  constructor
  · intro h
    have h := h () rfl
    rw [userOnly_bind, userOnly_get_command] at h
    refine ⟨h.1, fun command hmalloc hcommand hopens hpage hne => ?_⟩
    have hvalue := h.2 command (value_get_command.mpr ⟨hmalloc, hcommand⟩)
    obtain ⟨f, hf⟩ := (value_filesys_open_kernel hcommand.no_nul).mpr hopens
    rw [userOnly_bind] at hvalue
    exact (hfile (some f)).mp ((hrest _).mp (hvalue.2 (some f) hf)) rfl hpage hne
  · rintro ⟨hcommand, hline⟩ _ _
    rw [userOnly_bind, userOnly_get_command]
    refine ⟨hcommand, fun command hvalue => ?_⟩
    obtain ⟨hmalloc, hat⟩ := value_get_command.mp hvalue
    rw [userOnly_bind]
    refine ⟨(silent_filesys_open_kernel command).userOnly, fun file hopen => ?_⟩
    refine (hrest file).mpr ((hfile file).mpr fun hsome hpage hne => ?_)
    obtain ⟨f, rfl⟩ := Option.isSome_iff_exists.mp hsome
    exact hline command hmalloc hat
      ((value_filesys_open_kernel hat.no_nul).mp ⟨f, hopen⟩) hpage hne

/-! ## Buffers -/

/-- What `read` does once the buffer has been checked: it stores what comes from
the keyboard, or what the file has. -/
structure ReadEnds (m : Machine) (fd : Int) (buffer : Addr) (size : Word) (cur : Own) : Prop where
  input : fd = 0 → BufferEnds (Receives m buffer) buffer size.toNat
  file : ∀ f file, 2 ≤ fd → fd < FD_CNT → cur.files fd.toNat = some f →
    m.answer (.query (.file f)) = some file →
      BufferEnds (Stores m buffer) buffer (moved file (Bounces m) size.toInt.toNat file.pos)

/-- What `write` does once the buffer has been checked. -/
structure WriteEnds (m : Machine) (fd : Int) (buffer : Addr) (size : Word) (cur : Own) : Prop where
  console : fd = 1 → BufferEnds (Loads m buffer) buffer size.toNat
  file : ∀ f file, 2 ≤ fd → fd < FD_CNT → cur.files fd.toNat = some f →
    m.answer (.query (.file f)) = some file → file.deny_write = false → cur.current_file ≠ some f →
      BufferEnds (Loads m buffer) buffer (moved file (Bounces m) size.toInt.toNat file.pos)

theorem userOnly_file_read {f : FilePtr} {size : Int} (hbuffer : is_user_vaddr addr = true) :
    UserOnly m (file_read f addr size) ↔ ∀ file, m.answer (.query (.file f)) = some file →
      BufferEnds (Stores m addr) addr (moved file (Bounces m) size.toNat file.pos) := by
  rw [file_read, userOnly_ask_bind]
  refine forall₂_congr fun file _ => ?_
  rw [userOnly_inode_read_at, within_iff hbuffer]

theorem userOnly_file_write {f : FilePtr} {deny : Bool} {size : Int}
    (hbuffer : is_user_vaddr addr = true) :
    UserOnly m (file_write f deny addr size) ↔
      ∀ file, m.answer (.query (.file f)) = some file → file.deny_write = false → deny = false →
        BufferEnds (Loads m addr) addr (moved file (Bounces m) size.toNat file.pos) := by
  rw [file_write, userOnly_ask_bind]
  refine forall₂_congr fun file _ => ?_
  rw [userOnly_inode_write_at, within_iff hbuffer, Bool.or_eq_false_iff, and_imp]
  exact Iff.rfl

theorem userOnly_read_locked {cur : Own} {fd : Int} {size : Word}
    (hbuffer : is_user_vaddr addr = true) :
    UserOnly m (read_locked cur fd addr size) ↔ ReadEnds m fd addr size cur := by
  unfold read_locked
  by_cases hinput : fd = 0
  · rw [if_pos hinput]
    refine Iff.trans (userOnly_bind_ret (f := fun _ => size.toInt)) ?_
    rw [userOnly_read_input, within_iff hbuffer]
    exact ⟨fun h => ⟨fun _ => h, fun f file hlow => absurd hlow (by omega)⟩, fun h => h.input hinput⟩
  · rw [if_neg hinput]
    by_cases hfd : 2 ≤ fd ∧ fd < FD_CNT
    · rw [if_pos hfd]
      cases hfile : cur.files fd.toNat with
      | none =>
        refine iff_of_true (userOnly_ret (-1)) ⟨fun h => absurd h hinput, fun f _ _ _ hf => ?_⟩
        cases hfile.symm.trans hf
      | some f =>
        refine Iff.trans (userOnly_bind_ret (f := fun n : Nat => (n : Int))) ?_
        rw [userOnly_file_read hbuffer]
        constructor
        · refine fun h => ⟨fun h => absurd h hinput, fun f' file _ _ hf hanswer => ?_⟩
          cases hfile.symm.trans hf
          exact h file hanswer
        · exact fun h file hanswer => h.file f file hfd.1 hfd.2 hfile hanswer
    · rw [if_neg hfd]
      exact iff_of_true (userOnly_ret (-1))
        ⟨fun h => absurd h hinput, fun f _ hlow hhigh => absurd ⟨hlow, hhigh⟩ hfd⟩

theorem userOnly_write_locked {cur : Own} {fd : Int} {size : Word}
    (hbuffer : is_user_vaddr addr = true) :
    UserOnly m (write_locked cur fd addr size) ↔ WriteEnds m fd addr size cur := by
  unfold write_locked
  by_cases hconsole : fd = 1
  · rw [if_pos hconsole]
    refine Iff.trans (userOnly_bind_ret (f := fun _ => size.toInt)) ?_
    rw [userOnly_memcpy_from, within_iff hbuffer]
    exact ⟨fun h => ⟨fun _ => h, fun f file hlow => absurd hlow (by omega)⟩,
      fun h => h.console hconsole⟩
  · rw [if_neg hconsole]
    by_cases hfd : 2 ≤ fd ∧ fd < FD_CNT
    · rw [if_pos hfd]
      cases hfile : cur.files fd.toNat with
      | none =>
        refine iff_of_true (userOnly_ret (-1)) ⟨fun h => absurd h hconsole, fun f _ _ _ hf => ?_⟩
        cases hfile.symm.trans hf
      | some f =>
        refine Iff.trans (userOnly_bind_ret (f := fun n : Nat => (n : Int))) ?_
        rw [userOnly_file_write hbuffer]
        constructor
        · refine fun h => ⟨fun h => absurd h hconsole, fun f' file _ _ hf hanswer hdeny hcur => ?_⟩
          cases hfile.symm.trans hf
          exact h file hanswer hdeny (decide_eq_false hcur)
        · exact fun h file hanswer hdeny hcur =>
            h.file f file hfd.1 hfd.2 hfile hanswer hdeny (of_decide_eq_false hcur)
    · rw [if_neg hfd]
      exact iff_of_true (userOnly_ret (-1))
        ⟨fun h => absurd h hconsole, fun f _ hlow hhigh => absurd ⟨hlow, hhigh⟩ hfd⟩

theorem userOnly_checked {code : Own → Kernel Int} {Q : Own → Prop}
    (hcode : is_user_vaddr addr = true → ∀ cur, UserOnly m (code cur) ↔ Q cur) :
    UserOnly m (do
        check_address addr
        let cur ← request .own
        sema_down .mutex
        let res ← code cur
        sema_up .mutex
        return res) ↔
      (is_user_vaddr addr = true → ∀ cur, m.answer .own = some cur →
        m.answer (.sema_down .mutex) = some () → Q cur) := by
  rw [userOnly_check_address_bind]
  refine forall_congr' fun huser => ?_
  rw [userOnly_request_bind rfl]
  refine forall₂_congr fun cur _ => ?_
  rw [userOnly_locked, hcode huser cur]

/-! ## Argument words -/

theorem toNat_arg_addr {esp : Addr} {i : Nat} (hesp : is_user_vaddr esp = true) (hi : i ≤ 5) :
    (arg_addr esp i).toNat = esp.toNat + 4 * i := by
  have huser := is_user_vaddr_iff.mp hesp
  have hbase : PHYS_BASE.toNat = 3221225472 := rfl
  rw [arg_addr, BitVec.toNat_add, BitVec.toNat_ofNat]
  omega

/-- A word that starts in user memory. -/
theorem userOnly_load_word_bind {f : Word → Kernel α} (huser : is_user_vaddr addr = true) :
    UserOnly m (load_word addr >>= f) ↔
      ∀ w, m.mem.word addr = some w → addr.toNat + 4 ≤ PHYS_BASE.toNat ∧ UserOnly m (f w) := by
  change UserOnly m (.ask (.load_word addr) f) ↔ _
  rw [userOnly_ask, reply_load_word]
  refine forall₂_congr fun w _ => and_congr_left fun _ => ?_
  have hfirst := is_user_vaddr_iff.mp huser
  have hbase : PHYS_BASE.toNat = 3221225472 := rfl
  simp only [Op.bytes, List.mem_cons, List.not_mem_nil, or_false, forall_eq_or_imp, forall_eq,
    is_user_vaddr_iff, BitVec.toNat_add]
  simp only [BitVec.reduceToNat]
  omega

/-- The words that follow the system call number are these. -/
def ArgsAt (mem : Memory) (esp : Addr) (i : Nat) (args : List Word) : Prop :=
  ∀ j (h : j < args.length), mem.word (arg_addr esp (i + j)) = some args[j]

/-- Load `n` argument words from word `i` on. -/
def load_args (esp : Addr) : Nat → Nat → Kernel (List Word)
  | 0, _ => return []
  | n + 1, i => do
    let w ← arg esp i
    let rest ← load_args esp n (i + 1)
    return w :: rest

theorem argsAt_cons {mem : Memory} {esp : Addr} {i : Nat} {w : Word} {args : List Word} :
    ArgsAt mem esp i (w :: args) ↔ mem.word (arg_addr esp i) = some w ∧ ArgsAt mem esp (i + 1) args := by
  constructor
  · intro h
    refine ⟨h 0 (Nat.zero_lt_succ _), fun j hj => ?_⟩
    have hword := h (j + 1) (Nat.succ_lt_succ hj)
    rwa [List.getElem_cons_succ, show i + (j + 1) = i + 1 + j by omega] at hword
  · rintro ⟨hw, hargs⟩ j hj
    cases j with
    | zero => exact hw
    | succ j =>
      rw [List.getElem_cons_succ, show i + (j + 1) = i + 1 + j by omega]
      exact hargs j (Nat.lt_of_succ_lt_succ hj)

/-- Only the last of some words that start in user memory can leave it. -/
theorem userOnly_load_args_bind {esp : Addr} {n i : Nat} {f : List Word → Kernel α}
    (hesp : is_user_vaddr esp = true) (hi : i + n ≤ 5) (hn : 0 < n)
    (hlast : esp.toNat + 4 * (i + n - 1) < PHYS_BASE.toNat) :
    UserOnly m (load_args esp n i >>= f) ↔ ∀ args, args.length = n → ArgsAt m.mem esp i args →
      esp.toNat + 4 * (i + n) ≤ PHYS_BASE.toNat ∧ UserOnly m (f args) := by
  induction n generalizing i f with
  | zero => omega
  | succ n ih =>
    have haddr := toNat_arg_addr hesp (show i ≤ 5 by omega)
    have huser : is_user_vaddr (arg_addr esp i) = true :=
      is_user_vaddr_iff.mpr (by rw [haddr]; omega)
    simp only [load_args, arg, bind_assoc, pure_eq, ret_bind]
    rw [userOnly_load_word_bind huser, haddr]
    cases n with
    | zero =>
      constructor
      · intro h args hlen hargs
        obtain ⟨w, rfl⟩ := List.length_eq_one_iff.mp hlen
        obtain ⟨hword, hrest⟩ := h w (argsAt_cons.mp hargs).1
        exact ⟨by omega, hrest⟩
      · intro h w hw
        obtain ⟨hend, hrest⟩ := h [w] rfl (argsAt_cons.mpr ⟨hw, fun j hj => absurd hj (by simp)⟩)
        exact ⟨by omega, hrest⟩
    | succ n =>
      have hstep : ∀ w, UserOnly m (load_args esp (n + 1) (i + 1) >>= fun rest => f (w :: rest)) ↔ _ :=
        fun w => ih (i := i + 1) (f := fun rest => f (w :: rest)) (by omega) (by omega) (by omega)
      constructor
      · intro h args hlen hargs
        obtain ⟨w, rest, rfl⟩ := List.exists_cons_of_length_eq_add_one hlen
        obtain ⟨hw, hrest⟩ := argsAt_cons.mp hargs
        obtain ⟨hend, hbody⟩ := (hstep w).mp (h w hw).2 rest (by simpa using hlen) hrest
        exact ⟨by omega, hbody⟩
      · intro h w hw
        refine ⟨by omega, (hstep w).mpr fun rest hlen hrest => ?_⟩
        obtain ⟨hend, hbody⟩ := h (w :: rest) (by simpa using hlen) (argsAt_cons.mpr ⟨hw, hrest⟩)
        exact ⟨by omega, hbody⟩

theorem userOnly_check_args_bind {esp : Addr} {n : Nat} {f : Unit → Kernel α}
    (hesp : is_user_vaddr esp = true) (hn : n ≤ 5) :
    UserOnly m (check_args esp n >>= f) ↔
      (esp.toNat + 4 * n < PHYS_BASE.toNat → UserOnly m (f ())) := by
  have huser := is_user_vaddr_iff.mp hesp
  induction n generalizing f with
  | zero => exact ⟨fun h _ => h, fun h => h (by omega)⟩
  | succ n ih =>
    simp only [check_args, bind_assoc]
    refine (ih (by omega)).trans ?_
    rw [userOnly_check_address_bind, is_user_vaddr_iff, toNat_arg_addr hesp hn]
    exact ⟨fun h hlt => h (by omega) hlt, fun h _ hlt => h hlt⟩

/-! ## The handler -/

/-- Number of argument words. -/
def Sysno.argc : Sysno → Nat
  | SYS_HALT => 0
  | SYS_CREATE | SYS_SEEK => 2
  | SYS_READ | SYS_WRITE => 3
  | SYS_MAX => 4
  | _ => 1

/-- What a case of the `switch` does with its argument words. -/
def body : Sysno → List Word → Kernel (Option Int)
  | .SYS_HALT, [] => shutdown_power_off
  | .SYS_EXIT, [status] => exit status.toInt
  | .SYS_EXEC, [filename] => do return some (← exec (.user filename))
  | .SYS_WAIT, [pid] => do return some (← wait pid.toInt)
  | .SYS_CREATE, [file, initial_size] => do
    return some (← create (.user file) initial_size.toInt).toInt
  | .SYS_REMOVE, [file] => do return some (← remove (.user file)).toInt
  | .SYS_OPEN, [file] => do return some (← open_ (.user file))
  | .SYS_FILESIZE, [fd] => do return some (← filesize fd.toInt)
  | .SYS_READ, [fd, buffer, size] => do return some (← read fd.toInt buffer size)
  | .SYS_WRITE, [fd, buffer, size] => do return some (← write fd.toInt buffer size)
  | .SYS_SEEK, [fd, position] => do
    seek fd.toInt position
    return none
  | .SYS_TELL, [fd] => do return some (← tell fd.toInt)
  | .SYS_CLOSE, [fd] => do
    close fd.toInt
    return none
  | .SYS_FIBO, [n] => do return some (← fibonacci n.toInt)
  | .SYS_MAX, [a, b, c, d] => return some (max_of_four_int a.toInt b.toInt c.toInt d.toInt)
  | _, _ => return none

/-- Every case checks its argument words, loads them and does its work. -/
theorem dispatch_eq (esp : Addr) (nr : Sysno) :
    dispatch esp nr =
      check_args esp nr.argc >>= fun _ => load_args esp nr.argc 1 >>= body nr := by
  cases nr <;> simp only [dispatch, Sysno.argc, load_args, body, bind_assoc, pure_eq, ret_bind,
    check_args]

theorem silent_shutdown : Silent (shutdown_power_off : Kernel α) := silent_final rfl

theorem silent_wait (pid : Int) : Silent (wait pid) := by
  refine (silent_request rfl).bind fun child => ?_
  cases child with
  | none => exact (silent_request rfl).bind fun _ => silent_ret _
  | some child =>
    exact (silent_request rfl).bind fun _ => (silent_request rfl).bind fun status =>
      (silent_request rfl).bind fun _ => (silent_request rfl).bind fun _ =>
        (silent_request rfl).bind fun _ => silent_ret status

theorem silent_fibonacci (n : Int) : Silent (fibonacci n) :=
  (silent_ask_query _).bind fun _ => silent_ite
    ((silent_ite (silent_request rfl) (silent_ret ())).bind fun _ => silent_ret _) (silent_exit (-1))

theorem silent_file_of (cur : Own) (fd : Int) : Silent (file_of cur fd) :=
  (silent_ite (silent_request rfl) (silent_ret ())).bind fun _ => silent_ret _

theorem silent_filesize (fd : Int) : Silent (filesize fd) := by
  refine (silent_request rfl).bind fun cur => (silent_file_of cur fd).bind fun file => ?_
  cases file with
  | none => exact silent_panic
  | some f => exact (silent_ask_query _).bind fun _ => silent_ret _

theorem silent_tell (fd : Int) : Silent (tell fd) := by
  refine (silent_request rfl).bind fun cur => (silent_file_of cur fd).bind fun file => ?_
  cases file with
  | none => exact silent_panic
  | some f => exact (silent_ask_query _).bind fun _ => silent_ret _

theorem silent_seek (fd : Int) (position : Word) : Silent (seek fd position) := by
  refine (silent_request rfl).bind fun cur => (silent_file_of cur fd).bind fun file => ?_
  cases file with
  | none => exact silent_panic
  | some f => exact silent_ite silent_panic (silent_ret ())

theorem silent_close (fd : Int) : Silent (close fd) :=
  (silent_request rfl).bind fun cur => (silent_file_of cur fd).bind fun _ => (plain_free_fd _).silent

/-- What a call must meet, given its argument words, to stay below `PHYS_BASE`. -/
def BodyEnds (m : Machine) : Sysno → List Word → Prop
  | .SYS_EXEC, [filename] => ExecEnds m filename
  | .SYS_CREATE, [file, initial_size] => CreateEnds m file initial_size.toInt
  | .SYS_REMOVE, [file] => NamesEnd m file
  | .SYS_OPEN, [file] => OpenEnds m file
  | .SYS_READ, [fd, buffer, size] => is_user_vaddr buffer = true → ∀ cur, m.answer .own = some cur →
    m.answer (.sema_down .mutex) = some () → ReadEnds m fd.toInt buffer size cur
  | .SYS_WRITE, [fd, buffer, size] => is_user_vaddr buffer = true → ∀ cur, m.answer .own = some cur →
    m.answer (.sema_down .mutex) = some () → WriteEnds m fd.toInt buffer size cur
  | _, _ => True

theorem userOnly_body {nr : Sysno} {args : List Word} (hlen : args.length = nr.argc) :
    UserOnly m (body nr args) ↔ BodyEnds m nr args := by
  have hsilent : ∀ {β : Type} {code : Kernel β} {f : β → Option Int}, Silent code →
      (UserOnly m (code >>= fun b => ret (f b)) ↔ True) := fun h =>
    iff_true_intro (userOnly_bind_ret.mpr h.userOnly)
  cases nr
  case SYS_HALT =>
    obtain rfl := List.eq_nil_of_length_eq_zero hlen
    exact iff_true_intro silent_shutdown.userOnly
  case SYS_EXIT =>
    obtain ⟨status, rfl⟩ := List.length_eq_one_iff.mp hlen
    exact iff_true_intro (silent_exit _).userOnly
  case SYS_EXEC =>
    obtain ⟨filename, rfl⟩ := List.length_eq_one_iff.mp hlen
    exact (userOnly_bind_ret (f := some)).trans userOnly_exec
  case SYS_WAIT =>
    obtain ⟨pid, rfl⟩ := List.length_eq_one_iff.mp hlen
    exact hsilent (f := some) (silent_wait _)
  case SYS_CREATE =>
    obtain ⟨file, initial_size, rfl⟩ := List.length_eq_two.mp hlen
    exact (userOnly_bind_ret (f := fun b : Bool => some b.toInt)).trans userOnly_create
  case SYS_REMOVE =>
    obtain ⟨file, rfl⟩ := List.length_eq_one_iff.mp hlen
    exact (userOnly_bind_ret (f := fun b : Bool => some b.toInt)).trans userOnly_remove
  case SYS_OPEN =>
    obtain ⟨file, rfl⟩ := List.length_eq_one_iff.mp hlen
    exact (userOnly_bind_ret (f := some)).trans userOnly_open
  case SYS_FILESIZE =>
    obtain ⟨fd, rfl⟩ := List.length_eq_one_iff.mp hlen
    exact hsilent (f := some) (silent_filesize _)
  case SYS_READ =>
    obtain ⟨fd, buffer, size, rfl⟩ := List.length_eq_three.mp hlen
    exact (userOnly_bind_ret (f := some)).trans
      (userOnly_checked fun huser cur => userOnly_read_locked huser)
  case SYS_WRITE =>
    obtain ⟨fd, buffer, size, rfl⟩ := List.length_eq_three.mp hlen
    exact (userOnly_bind_ret (f := some)).trans
      (userOnly_checked fun huser cur => userOnly_write_locked huser)
  case SYS_SEEK =>
    obtain ⟨fd, position, rfl⟩ := List.length_eq_two.mp hlen
    exact hsilent (f := fun _ => none) (silent_seek _ _)
  case SYS_TELL =>
    obtain ⟨fd, rfl⟩ := List.length_eq_one_iff.mp hlen
    exact hsilent (f := some) (silent_tell _)
  case SYS_CLOSE =>
    obtain ⟨fd, rfl⟩ := List.length_eq_one_iff.mp hlen
    exact hsilent (f := fun _ => none) (silent_close _)
  case SYS_FIBO =>
    obtain ⟨n, rfl⟩ := List.length_eq_one_iff.mp hlen
    exact hsilent (f := some) (silent_fibonacci _)
  case SYS_MAX =>
    match args, hlen with
    | [a, b, c, d], _ => exact iff_true_intro (userOnly_ret _)

/-- What the stack and the memory must meet: the word at the stack pointer and the
last argument word end in user memory, or a word before is not present, and the
call itself stays there. -/
def CallEnds (m : Machine) (esp : Addr) : Prop :=
  is_user_vaddr esp = true → ∀ w, m.mem.word esp = some w →
    esp.toNat + 4 ≤ PHYS_BASE.toNat ∧
      ∀ nr, Sysno.ofWord w = some nr → esp.toNat + 4 * nr.argc < PHYS_BASE.toNat →
        ∀ args, args.length = nr.argc → ArgsAt m.mem esp 1 args →
          esp.toNat + 4 * (1 + nr.argc) ≤ PHYS_BASE.toNat ∧ BodyEnds m nr args

theorem argc_le (nr : Sysno) : nr.argc ≤ 4 := by
  cases nr <;> decide

theorem userOnly_dispatch {esp : Addr} {nr : Sysno} (hesp : is_user_vaddr esp = true)
    (hword : esp.toNat + 4 ≤ PHYS_BASE.toNat) :
    UserOnly m (dispatch esp nr) ↔
      (esp.toNat + 4 * nr.argc < PHYS_BASE.toNat →
        ∀ args, args.length = nr.argc → ArgsAt m.mem esp 1 args →
          esp.toNat + 4 * (1 + nr.argc) ≤ PHYS_BASE.toNat ∧ BodyEnds m nr args) := by
  have hargc := argc_le nr
  rw [dispatch_eq, userOnly_check_args_bind hesp (by omega)]
  refine forall_congr' fun hchecked => ?_
  rcases Nat.eq_zero_or_pos nr.argc with hzero | hpos
  · rw [hzero]
    refine Iff.trans (userOnly_body hzero.symm) ⟨fun h args hlen _ => ?_, fun h => ?_⟩
    · obtain rfl := List.eq_nil_of_length_eq_zero hlen
      exact ⟨by omega, h⟩
    · exact (h [] rfl fun j hj => absurd hj (by simp)).2
  · rw [userOnly_load_args_bind hesp (by omega) hpos (by omega)]
    refine forall₂_congr fun args hlen => forall_congr' fun _ => and_congr_right fun _ => ?_
    exact userOnly_body hlen

/-- A system call accesses no byte at or above `PHYS_BASE` on the user's behalf
exactly when every word, string and buffer it uses ends below, or a byte before
the end of user memory cannot be accessed. -/
theorem syscall_handler_user_only (m : Machine) (esp : Addr) :
    (∀ addr ∈ accessed m (syscall_handler esp), addr.toNat < PHYS_BASE.toNat) ↔ CallEnds m esp := by
  have huser : (∀ addr ∈ accessed m (syscall_handler esp), addr.toNat < PHYS_BASE.toNat) ↔
      UserOnly m (syscall_handler esp) :=
    forall₂_congr fun _ _ => is_user_vaddr_iff.symm
  rw [huser, syscall_handler, userOnly_check_address_bind]
  refine forall_congr' fun hesp => ?_
  rw [userOnly_load_word_bind hesp]
  refine forall₂_congr fun w _ => and_congr_right fun hword => ?_
  cases hnr : Sysno.ofWord w with
  | none => simp
  | some nr => simpa using userOnly_dispatch hesp hword

/-- A machine whose memory is mapped everywhere and whose kernel never answers. -/
def mapped_everywhere : Machine where
  mem := { byte := fun _ => some 0, writable := fun _ => true }
  answer := fun _ => none

/-- The word at a stack pointer three bytes below `PHYS_BASE` has a byte above. -/
theorem syscall_handler_kernel_access :
    ∃ m esp, is_user_vaddr esp = true ∧
      ∃ addr ∈ accessed m (syscall_handler esp), PHYS_BASE.toNat ≤ addr.toNat :=
  ⟨mapped_everywhere, 0xBFFFFFFD#32, by decide, PHYS_BASE, by decide, by decide⟩

end pintos.prj2
