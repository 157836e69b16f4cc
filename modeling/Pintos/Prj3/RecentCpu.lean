import Pintos.Prj3.SemaOrder
import Pintos.Prj3.Synch
import Mathlib.Algebra.Order.Ring.Abs
import Mathlib.Tactic.Linarith
import Mathlib.Tactic.Ring

/-!
# Bounds on `load_avg` and `recent_cpu`

With at most `n ≤ 300` threads ready or running at each second and every nice
value in `[-20, 20]`, `load_avg` stays within `[0, n]` and `recent_cpu` within
`[-(240 n + 120), 240 n + 120]`, so that neither wraps.
-/

open twos_complement pintos.kernel transition

namespace pintos.prj3

variable {k k' k₁ : Kernel} {env : Env} {i : Instr} {l : Label} {t u : ThreadId}

/-! ## The recurrences -/

/-- Truncated division by a positive number brings a number closer to zero. -/
theorem abs_tdiv_le {x b q : Int} (hb : 0 < b) (hx : |x| ≤ q * b) : |x.tdiv b| ≤ q := by
  have habs : |x.tdiv b| = |x| / b := by
    rw [Int.abs_eq_natAbs, Int.natAbs_tdiv, Int.abs_eq_natAbs]
    change ((x.natAbs / b.natAbs : Nat) : Int) = x.natAbs / b
    rw [Int.natCast_ediv, Int.natCast_natAbs b, abs_of_pos hb]
  rw [habs]
  exact Int.ediv_le_of_le_mul hb hx

theorem new_load_avg_bound {load ready n : Int} (hn : n ≤ 300) (hload : 0 ≤ load ∧ load ≤ n * F)
    (hready : 0 ≤ ready ∧ ready ≤ n) :
    0 ≤ new_load_avg load ready ∧ new_load_avg load ready ≤ n * F := by
  have hcoef : fp_div_fp (int_to_fp 59) (int_to_fp 60) = 16110 := by decide
  have hcoef' : fp_div_fp (int_to_fp 1) (int_to_fp 60) = 273 := by decide
  rw [new_load_avg, hcoef, hcoef']
  simp only [fp_add_fp, fp_mul_fp, fp_mul_int, F] at hload ⊢
  rw [int64_of_range (by omega) (by omega), Int.tdiv_eq_ediv_of_nonneg (by omega)]
  have hsum : 16110 * load / 16384 + 273 * ready ≤ n * 16384 := by omega
  have hold : int32 (16110 * load / 16384) = 16110 * load / 16384 :=
    int32_of_range (by omega) (by omega)
  have hnew : int32 (273 * ready) = 273 * ready := int32_of_range (by omega) (by omega)
  rw [hold, hnew, int32_of_range (by omega) (by omega)]
  exact ⟨by omega, hsum⟩

/-- `(2*load_avg)/(2*load_avg + 1)`, the coefficient of `new_recent_cpu`. -/
def coefficient (load : Int) : Int := (2 * load * F).tdiv (2 * load + F)

theorem coefficient_bound {load n : Int} (hload : 0 ≤ load ∧ load ≤ n * F) :
    0 ≤ coefficient load ∧ coefficient load * (2 * n + 1) ≤ 2 * n * F := by
  simp only [coefficient, F] at hload ⊢
  obtain ⟨hlow, hhigh⟩ := hload
  rw [Int.tdiv_eq_ediv_of_nonneg (by omega)]
  generalize ha : 2 * load * 16384 / (2 * load + 16384) = a
  have hnonneg : 0 ≤ a := ha ▸ Int.ediv_nonneg (by omega) (by omega)
  have hmul : a * (2 * load + 16384) ≤ 2 * load * 16384 := ha ▸ Int.ediv_mul_le _ (by omega)
  have hle : a ≤ 16384 := by nlinarith
  -- `a F ≤ 2 load (F - a)`, and `load` is at most `n F`
  have hstep : load * (16384 - a) ≤ n * 16384 * (16384 - a) :=
    mul_le_mul_of_nonneg_right hhigh (by omega)
  exact ⟨hnonneg, by nlinarith⟩

/-- Nothing wraps in `new_recent_cpu` when `load_avg` and `recent_cpu` are in bounds. -/
theorem new_recent_cpu_eq {load cpu nice n : Int} (hn : n ≤ 300) (hload : 0 ≤ load ∧ load ≤ n * F)
    (hcpu : |cpu| ≤ F * (240 * n + 120)) (hnice : -20 ≤ nice ∧ nice ≤ 20) :
    new_recent_cpu load cpu nice = (coefficient load * cpu).tdiv F + nice * F ∧
      |(coefficient load * cpu).tdiv F| ≤ 240 * n * F := by
  obtain ⟨hnonneg, hcoef⟩ := coefficient_bound hload
  have hn0 : 0 ≤ n := by
    simp only [F] at hload
    omega
  have hle : coefficient load ≤ F := by
    simp only [F] at hcoef ⊢
    nlinarith
  have hprod : |coefficient load * cpu| ≤ 240 * n * F * F := by
    rw [abs_mul, abs_of_nonneg hnonneg]
    calc coefficient load * |cpu|
      _ ≤ coefficient load * (F * (240 * n + 120)) := mul_le_mul_of_nonneg_left hcpu hnonneg
      _ = 120 * F * (coefficient load * (2 * n + 1)) := by ring
      _ ≤ 120 * F * (2 * n * F) := mul_le_mul_of_nonneg_left hcoef (by decide)
      _ = 240 * n * F * F := by ring
  have hquot : |(coefficient load * cpu).tdiv F| ≤ 240 * n * F := abs_tdiv_le (by decide) hprod
  have hdiv : fp_div_fp (fp_mul_int load 2) (fp_add_int (fp_mul_int load 2) 1) = coefficient load := by
    simp only [F] at hload hle
    have htwice : int32 (load * 2) = load * 2 := int32_of_range (by omega) (by omega)
    have hone : int32 (1 * F) = F := by decide
    have hsum : int32 (load * 2 + F) = load * 2 + F := int32_of_range (by simp only [F]; omega)
        (by simp only [F]; omega)
    have hscaled : int64 (load * 2 * F) = load * 2 * F := int64_of_range (by simp only [F]; omega)
        (by simp only [F]; omega)
    rw [fp_mul_int, fp_add_int, fp_div_fp, htwice, hone, hsum, hscaled, mul_comm load 2]
    exact int32_of_range (by rw [← coefficient]; omega) (by rw [← coefficient]; omega)
  refine ⟨?_, hquot⟩
  rw [new_recent_cpu, hdiv]
  simp only [fp_add_int, fp_mul_fp, F] at hprod hquot ⊢
  rw [abs_le] at hprod hquot
  rw [int64_of_range (by omega) (by omega), int32_of_range (x := nice * 16384) (by omega) (by omega),
    int32_of_range (x := (coefficient load * cpu).tdiv 16384) (by omega) (by omega),
    int32_of_range (by omega) (by omega)]

theorem new_recent_cpu_bound {load cpu nice n : Int} (hn : n ≤ 300) (hload : 0 ≤ load ∧ load ≤ n * F)
    (hcpu : |cpu| ≤ F * (240 * n + 120)) (hnice : -20 ≤ nice ∧ nice ≤ 20) :
    |new_recent_cpu load cpu nice| ≤ F * (240 * n + 20) := by
  obtain ⟨heq, hquot⟩ := new_recent_cpu_eq hn hload hcpu hnice
  rw [heq]
  simp only [F] at hquot ⊢
  rw [abs_le] at hquot ⊢
  omega

/-- The charge for one tick. -/
theorem fp_add_one {cpu n : Int} (hn : n ≤ 300) (hcpu : |cpu| < F * (240 * n + 120)) :
    fp_add_int cpu 1 = cpu + F := by
  simp only [fp_add_int, F] at hcpu ⊢
  rw [abs_lt] at hcpu
  rw [int32_of_range (x := 1 * 16384) (by omega) (by omega), int32_of_range (by omega) (by omega), one_mul]

/-! ## Steps of threads -/

/-- The members that mlfqs computes the priority from. -/
def Thread.account (th : Thread) : Int × Int := (th.recent_cpu, th.nice)

/-- No thread is charged: its account stays, or is 0 as in a new page. -/
structure KeepsCpu (k k' : Kernel) : Prop where
  load_avg : k'.load_avg = k.load_avg
  idle : k'.idle_thread = k.idle_thread
  account : ∀ t, (k'.threads t).account = (k.threads t).account ∨ (k'.threads t).account = 0
  all_list : ∀ t ∈ k'.all_list, t ∈ k.all_list ∨ (k'.threads t).account = 0

theorem KeepsCpu.recent_cpu (h : KeepsCpu k k') (t : ThreadId) :
    (k'.threads t).recent_cpu = (k.threads t).recent_cpu ∨ (k'.threads t).recent_cpu = 0 :=
  (h.account t).imp (congrArg Prod.fst) (congrArg Prod.fst)

theorem KeepsCpu.nice (h : KeepsCpu k k') (t : ThreadId) :
    (k'.threads t).nice = (k.threads t).nice ∨ (k'.threads t).nice = 0 :=
  (h.account t).imp (congrArg Prod.snd) (congrArg Prod.snd)

theorem KeepsCpu.refl (k : Kernel) : KeepsCpu k k :=
  ⟨rfl, rfl, fun _ => .inl rfl, fun _ ht => .inl ht⟩

theorem KeepsCpu.trans {k'' : Kernel} (h : KeepsCpu k k') (h' : KeepsCpu k' k'') : KeepsCpu k k'' where
  load_avg := h'.load_avg.trans h.load_avg
  idle := h'.idle.trans h.idle
  account t := by
    obtain h' | h' := h'.account t
    · rw [h']
      exact h.account t
    · exact .inr h'
  all_list t ht := by
    obtain ht | hzero := h'.all_list t ht
    · obtain ht | hzero := h.all_list t ht
      · exact .inl ht
      · apply Or.inr
        obtain h' | h' := h'.account t
        · rw [h', hzero]
        · exact h'
    · exact .inr hzero

theorem KeepsCpu.update (k : Kernel) (t : ThreadId) (f : Thread → Thread)
    (hf : ∀ th, (f th).account = th.account ∨ (f th).account = 0) : KeepsCpu k (k.update t f) where
  load_avg := rfl
  idle := rfl
  account u := by
    by_cases hu : u = t
    · simpa [hu] using hf (k.threads t)
    · simp [hu]
  all_list _ hu := .inl hu

@[simp] theorem set_code_account (k : Kernel) (code : List Instr) (t : ThreadId) :
    ((k.set_code code).threads t).account = (k.threads t).account := by
  by_cases ht : t = k.current <;> simp [ht, Thread.account]

theorem KeepsCpu.set_code (h : KeepsCpu k k') (code : List Instr) : KeepsCpu k (k'.set_code code) :=
  h.trans ⟨rfl, rfl, fun t => .inl (set_code_account k' code t), fun _ ht => .inl ht⟩

theorem KeepsCpu.set_status (h : KeepsCpu k k') (t : ThreadId) (s : ThreadStatus) :
    KeepsCpu k (k'.update t fun th => { th with status := s }) :=
  h.trans (.update k' t (fun th => { th with status := s }) fun _ => .inl rfl)

/-- A new or a freed page is zero. -/
theorem KeepsCpu.write_page (k : Kernel) (t : ThreadId) (th : Thread) (hzero : th.account = 0) :
    KeepsCpu k (k.update t fun _ => th) :=
  .update k t (fun _ => th) fun _ => .inr hzero

theorem KeepsCpu.ready_insert (k : Kernel) (t : ThreadId) : KeepsCpu k (ready_insert k t) :=
  (KeepsCpu.update k t (fun th => { th with arrival := k.arrivals }) fun _ => .inl rfl).trans
    ⟨rfl, rfl, fun _ => .inl rfl, fun _ ht => .inl ht⟩

theorem KeepsCpu.make_ready (k : Kernel) (t : ThreadId) : KeepsCpu k (make_ready k t) :=
  (KeepsCpu.ready_insert k t).set_status t _

theorem KeepsCpu.block (k : Kernel) (is : List Instr) : KeepsCpu k (block k is) :=
  ((KeepsCpu.refl k).set_status k.current _).set_code _

theorem schedule_keeps_cpu (he : schedule k = .ok k') : KeepsCpu k k' := by
  obtain ⟨next, -, -, -, -, hk'⟩ := schedule_ok.mp he
  have hswitch : KeepsCpu k (switch_to k next) :=
    ((KeepsCpu.refl k).set_status next _).trans ⟨rfl, rfl, fun _ => .inl rfl, fun _ ht => .inl ht⟩
  obtain ⟨-, rfl⟩ | ⟨-, -, rfl⟩ := hk'
  · exact hswitch
  · exact hswitch.trans ((KeepsCpu.write_page _ _ .zero rfl).trans
      ⟨rfl, rfl, fun _ => .inl rfl, fun _ ht => .inl ht⟩)

/-- Every instruction but `inherit`, `thread_set_nice` and the one in which the
idle thread makes itself known leaves the accounting as it is. -/
theorem exec_keeps_cpu (hidle : i ≠ .idle) (hinherit : ∀ t, i ≠ .inherit t)
    (hnice : ∀ n, i ≠ .thread_set_nice n) (he : exec k env i = .ok k') :
    KeepsCpu k k' := by
  have hfields (k₁ : Kernel) (hload : k₁.load_avg = k.load_avg) (hidle : k₁.idle_thread = k.idle_thread)
      (hthreads : k₁.threads = k.threads) (hall : k₁.all_list = k.all_list) : KeepsCpu k k₁ :=
    ⟨hload, hidle, fun t => .inl (by rw [hthreads]), fun t ht => .inl (by rwa [hall] at ht)⟩
  cases i with
  | idle => exact absurd rfl hidle
  | inherit t => exact absurd rfl (hinherit t)
  | thread_set_nice n => exact absurd rfl (hnice n)
  | schedule => exact schedule_keeps_cpu he
  | thread_yield =>
    obtain ⟨k₁, hy, he⟩ := bind_eq_ok_iff.mp he
    obtain ⟨-, -, -, rfl⟩ := thread_yield_ok.mp hy
    obtain rfl := ok_eq_ok.mp he
    refine KeepsCpu.set_code (KeepsCpu.set_status ?_ _ _) _
    split
    · exact (hfields { k with intr_level := .INTR_OFF } rfl rfl rfl rfl).trans (.ready_insert _ _)
    · exact hfields _ rfl rfl rfl rfl
  | thread_block =>
    obtain ⟨k₁, hb, he⟩ := bind_eq_ok_iff.mp he
    obtain ⟨-, -, -, -, rfl⟩ := thread_block_ok.mp hb
    obtain rfl := ok_eq_ok.mp he
    exact .block k _
  | thread_unblock t =>
    obtain ⟨-, -, rfl⟩ := thread_unblock_ok.mp he
    exact .make_ready k t
  | thread_exit =>
    simp only [exec, thread_exit, ASSERT_bind_ok, thread_current_bind_ok, ok_eq_ok] at he
    obtain ⟨-, -, -, rfl⟩ := he
    have hleave : KeepsCpu k { k with intr_level := .INTR_OFF, all_list := k.all_list.erase k.current } :=
      ⟨rfl, rfl, fun _ => .inl rfl, fun t ht => .inl (List.mem_of_mem_erase ht)⟩
    refine hleave.trans ?_
    exact .update _ _ (fun th => { th with status := .THREAD_DYING, code := [.schedule] }) fun _ => .inl rfl
  | palloc_get_page p f =>
    obtain rfl := ok_eq_ok.mp he
    unfold palloc_get_page
    split
    · exact KeepsCpu.set_code (.refl k) _
    · rename_i t ht
      have hallocate : KeepsCpu k (allocate k t) :=
        (KeepsCpu.write_page k t .zero rfl).trans ⟨rfl, rfl, fun _ => .inl rfl, fun _ ht => .inl ht⟩
      exact hallocate.set_code _
  | init_thread t p f =>
    obtain ⟨-, rfl⟩ := init_thread_ok.mp he
    refine KeepsCpu.set_code ?_ _
    refine (KeepsCpu.write_page k t
      { Thread.zero with status := .THREAD_BLOCKED, priority := p, magic := true } rfl).trans
      ⟨rfl, rfl, fun _ => .inl rfl, fun u hu => ?_⟩
    obtain hu | hu := List.mem_append.mp hu
    · exact .inl hu
    · apply Or.inr
      simp [List.mem_singleton.mp hu, init_page, Thread.zero, Thread.account]
  | alloc_frames t f =>
    obtain ⟨-, rfl⟩ := alloc_frames_ok.mp he
    exact KeepsCpu.set_code (.update k t (fun th => { th with code := [.kernel_thread f] }) fun _ => .inl rfl) _
  | thread_sleep n =>
    obtain ⟨-, -, -, -, rfl⟩ := thread_sleep_ok.mp he
    refine KeepsCpu.trans ?_ (.block _ _)
    exact (KeepsCpu.update k k.current (fun th => { th with alarm_ticks := int32 n }) fun _ => .inl rfl).trans
      ⟨rfl, rfl, fun _ => .inl rfl, fun _ ht => .inl ht⟩
  | sema_up s =>
    obtain ⟨k₁, hwake, he⟩ := bind_eq_ok_iff.mp he
    obtain rfl := ok_eq_ok.mp he
    have hwoken : KeepsCpu k k₁ := by
      obtain ⟨-, rfl⟩ | ⟨t, ws, -, -, -, rfl⟩ := sema_wake_ok.mp hwake
      · exact hfields _ rfl rfl rfl rfl
      · apply KeepsCpu.trans _ (.make_ready _ t)
        apply hfields <;> rfl
    have hup : KeepsCpu k (k₁.set_sema s { k₁.sema s with value := ((k₁.sema s).value + 1) % 2 ^ 32 }) :=
      hwoken.trans ⟨rfl, rfl, fun _ => .inl rfl, fun _ ht => .inl ht⟩
    exact hup.set_code _
  | sema_down_loop s =>
    by_cases hv : (k.sema s).value = 0
    · obtain ⟨-, -, -, -, rfl⟩ := (sema_down_loop_ok hv).mp he
      exact (hfields (enqueue_waiter k s) rfl rfl rfl rfl).trans (.block _ _)
    · simp only [exec, sema_down_loop] at he
      rw [if_neg hv, ok_eq_ok] at he
      subst he
      exact hfields _ rfl rfl rfl rfl
  | intr_set_level level =>
    simp only [exec, ASSERT_bind_ok, ok_eq_ok] at he
    exact he.2 ▸ hfields _ rfl rfl rfl rfl
  | ret f =>
    obtain rfl := ok_eq_ok.mp he
    exact .refl _
  | kernel_thread f =>
    cases f with
    | idle =>
      obtain rfl := ok_eq_ok.mp he
      exact (hfields { k with intr_level := .INTR_ON } rfl rfl rfl rfl).set_code _
    | other =>
      obtain rfl := ok_eq_ok.mp he
      exact hfields _ rfl rfl rfl rfl
  | idle_loop =>
    obtain rfl := ok_eq_ok.mp he
    exact (hfields { k with intr_level := .INTR_OFF } rfl rfl rfl rfl).set_code _
  | next_tid t =>
    obtain rfl := ok_eq_ok.mp he
    exact (hfields { k with next_tid := int32 (k.next_tid + 1) } rfl rfl rfl rfl).set_code _
  | set_tid t tid =>
    obtain rfl := ok_eq_ok.mp he
    exact .update k t (fun th => { th with tid }) fun _ => .inl rfl
  | thread_set_priority p =>
    simp only [exec, thread_current_bind_ok, ok_eq_ok] at he
    obtain ⟨-, -, rfl⟩ := he
    exact KeepsCpu.set_code (.update k k.current (fun th =>
      { th with priority := int32 p }) fun _ => .inl rfl) _
  | store_priority p =>
    obtain rfl := ok_eq_ok.mp he
    exact .update k k.current (fun th => { th with priority := int32 p }) fun _ => .inl rfl
  | preempt_test p =>
    simp only [exec] at he
    split at he <;> obtain rfl := ok_eq_ok.mp he
    · exact .refl _
    · exact KeepsCpu.set_code (.refl k) _
  | compare_front p e =>
    simp only [exec] at he
    split at he <;> obtain rfl := ok_eq_ok.mp he
    · exact KeepsCpu.set_code (.refl k) _
    · exact .refl _
  | timer_sleep_from start n =>
    simp only [exec, ASSERT_bind_ok, ok_eq_ok] at he
    obtain ⟨-, rfl⟩ := he
    exact (hfields { k with intr_level := .INTR_OFF } rfl rfl rfl rfl).set_code _
  | sema_init s n =>
    obtain rfl := ok_eq_ok.mp he
    exact hfields _ rfl rfl rfl rfl
  | sema_down s =>
    simp only [exec, ASSERT_bind_ok, ok_eq_ok] at he
    obtain ⟨-, rfl⟩ := he
    exact (hfields { k with intr_level := .INTR_OFF } rfl rfl rfl rfl).set_code _
  | sema_try_down s =>
    simp only [exec, sema_try_down] at he
    split at he <;> obtain rfl := ok_eq_ok.mp he
    · exact (hfields (k.set_sema s { k.sema s with value := (k.sema s).value - 1 }) rfl rfl rfl rfl).set_code _
    · exact KeepsCpu.set_code (.refl k) _
  | lock_acquire l =>
    simp only [exec, ASSERT_bind_ok, thread_current_bind_ok, ok_eq_ok] at he
    obtain ⟨-, -, -, -, rfl⟩ := he
    exact KeepsCpu.set_code (.refl k) _
  | set_holder l =>
    simp only [exec, thread_current_bind_ok, ok_eq_ok] at he
    obtain ⟨-, -, rfl⟩ := he
    exact hfields _ rfl rfl rfl rfl
  | lock_try_acquire l =>
    simp only [exec, sema_try_down, ASSERT_bind_ok, thread_current_bind_ok] at he
    obtain ⟨-, -, -, he⟩ := he
    by_cases hv : (k.sema (.lock l)).value > 0
    · simp only [hv, ↓reduceIte, ok_eq_ok] at he
      subst he
      exact (hfields (k.set_sema (.lock l) { k.sema (.lock l) with value := (k.sema (.lock l)).value - 1 })
        rfl rfl rfl rfl).set_code _
    · simp only [hv, ↓reduceIte, Bool.false_eq_true, ok_eq_ok] at he
      subst he
      exact KeepsCpu.set_code (.refl k) _
  | lock_release l =>
    simp only [exec, ASSERT_bind_ok, thread_current_bind_ok, ok_eq_ok] at he
    obtain ⟨-, -, -, rfl⟩ := he
    exact (hfields (k.set_holder l none) rfl rfl rfl rfl).set_code _
  | cond_wait c l =>
    simp only [exec, ASSERT_bind_ok, thread_current_bind_ok, ok_eq_ok] at he
    obtain ⟨-, -, -, -, rfl⟩ := he
    apply KeepsCpu.set_code
    apply hfields <;> rfl
  | cond_signal c l =>
    simp only [exec, ASSERT_bind_ok, thread_current_bind_ok] at he
    obtain ⟨-, -, -, -, he⟩ := he
    split at he <;> obtain rfl := ok_eq_ok.mp he
    · exact KeepsCpu.set_code (.refl k) _
    · exact (hfields (k.set_cond c _) rfl rfl rfl rfl).set_code _
  | cond_broadcast c l =>
    simp only [exec] at he
    split at he <;> obtain rfl := ok_eq_ok.mp he <;> exact KeepsCpu.set_code (.refl k) _
  | thread_create p f | recompute_priority | max_priority_in_ready p | timer_sleep n =>
    obtain rfl := ok_eq_ok.mp he
    exact KeepsCpu.set_code (.refl k) _

/-- A child takes over the accounting of the thread that creates it. -/
theorem exec_inherit (he : exec k env (.inherit t) = .ok k') :
    k'.load_avg = k.load_avg ∧ k'.idle_thread = k.idle_thread ∧ k'.all_list = k.all_list ∧
      ∀ u, (k'.threads u).account = (k.threads u).account ∨
        (k'.threads u).account = (k.threads k.current).account := by
  simp only [exec] at he
  split at he <;> obtain rfl := ok_eq_ok.mp he
  · refine ⟨rfl, rfl, rfl, fun u => ?_⟩
    by_cases hu : u = t <;> simp [hu, Thread.account]
  · exact ⟨rfl, rfl, rfl, fun u => .inl rfl⟩

theorem exec_thread_set_nice {n : Int} (he : exec k env (.thread_set_nice n) = .ok k') :
    k'.load_avg = k.load_avg ∧ k'.idle_thread = k.idle_thread ∧ k'.all_list = k.all_list ∧
      ∀ u, (k'.threads u).recent_cpu = (k.threads u).recent_cpu ∧
        ((k'.threads u).nice = (k.threads u).nice ∨ (k'.threads u).nice = int32 n) := by
  simp only [exec, thread_current_bind_ok, ok_eq_ok] at he
  obtain ⟨-, -, rfl⟩ := he
  refine ⟨rfl, rfl, rfl, fun u => ?_⟩
  by_cases hu : u = k.current <;> simp [hu]

theorem exec_idle (he : exec k env .idle = .ok k') :
    k'.load_avg = k.load_avg ∧ k'.idle_thread = some k.current ∧ k'.all_list = k.all_list ∧
      ∀ u, (k'.threads u).account = (k.threads u).account := by
  simp only [exec, thread_current_bind_ok, ok_eq_ok] at he
  obtain ⟨-, -, rfl⟩ := he
  refine ⟨rfl, rfl, rfl, fun u => ?_⟩
  by_cases hu : u = k.current <;> simp [hu, Thread.account]

/-! ## Ticks -/

/-- `recent_cpu` of a thread after `update_periodic_recent_cpu`. -/
def charged_cpu (k : Kernel) (t : ThreadId) : Int :=
  if t = k.current ∧ k.idle_thread ≠ some k.current then fp_add_int (k.threads t).recent_cpu 1
  else (k.threads t).recent_cpu

theorem charged_threads_eq (k : Kernel) (t : ThreadId) :
    (charged k).threads t = { k.threads t with recent_cpu := charged_cpu k t } := by
  unfold charged charged_cpu
  split <;> by_cases ht : t = k.current <;> simp_all

/-- No accounting is done. -/
structure SameCpu (k k' : Kernel) : Prop where
  load_avg : k'.load_avg = k.load_avg
  recent_cpu : ∀ t, (k'.threads t).recent_cpu = (k.threads t).recent_cpu
  nice : ∀ t, (k'.threads t).nice = (k.threads t).nice

theorem SameCpu.trans {k'' : Kernel} (h : SameCpu k k') (h' : SameCpu k' k'') : SameCpu k k'' where
  load_avg := h'.load_avg.trans h.load_avg
  recent_cpu t := (h'.recent_cpu t).trans (h.recent_cpu t)
  nice t := (h'.nice t).trans (h.nice t)

theorem SameCpu.foldl (f : Thread → Thread) (hcpu : ∀ th, (f th).recent_cpu = th.recent_cpu)
    (hnice : ∀ th, (f th).nice = th.nice) (l : List ThreadId) (k : Kernel) :
    SameCpu k (l.foldl (fun k t => k.update t f) k) := by
  induction l generalizing k with
  | nil => exact ⟨rfl, fun _ => rfl, fun _ => rfl⟩
  | cons u l ih =>
    have hupdate : SameCpu k (k.update u f) := by
      refine ⟨rfl, fun t => ?_, fun t => ?_⟩
      · by_cases ht : t = u <;> simp [ht, hcpu]
      · by_cases ht : t = u <;> simp [ht, hnice]
    exact hupdate.trans (ih (k.update u f))

theorem ripened_same_cpu (k : Kernel) : SameCpu k (ripened k) := by
  unfold ripened
  split
  · exact .foldl age (fun _ => rfl) (fun _ => rfl) k.ready_list k
  · exact ⟨rfl, fun _ => rfl, fun _ => rfl⟩

/-- The new priorities follow from the accounting and leave it as it is. -/
theorem mlfqs_updated_same_cpu (k : Kernel) :
    Calm (spent k) (mlfqs_updated k) ∧ SameCpu (spent k) (mlfqs_updated k) := by
  unfold mlfqs_updated
  split
  · refine ⟨(recomputed_calm _).trans (sorted_calm _), ?_⟩
    exact (SameCpu.foldl recompute (fun _ => rfl) (fun _ => rfl) (spent k).all_list (spent k)).trans
      ⟨rfl, fun _ => rfl, fun _ => rfl⟩
  · exact ⟨.refl _, rfl, fun _ => rfl, fun _ => rfl⟩

theorem leave_interrupt_accounting (k : Kernel) : (leave_interrupt k).load_avg = k.load_avg ∧
    ∀ t, ((leave_interrupt k).threads t).recent_cpu = (k.threads t).recent_cpu ∧
      ((leave_interrupt k).threads t).nice = (k.threads t).nice := by
  refine ⟨rfl, fun t => ?_⟩
  by_cases ht : t = k.current <;> simp [leave_interrupt, ht]

/-- The decay leaves out the idle thread and the threads not in the list. -/
theorem foldl_decay_other {l : List ThreadId} (ht : t ∈ l → k.idle_thread = some t) :
    (l.foldl decay k).threads t = k.threads t := by
  induction l generalizing k with
  | nil => rfl
  | cons u l ih =>
    have hidle : (decay k u).idle_thread = k.idle_thread := (decay_calm k u).idle
    rw [List.foldl_cons, ih fun hmem => hidle.trans (ht (.tail u hmem))]
    by_cases hu : t = u
    · subst hu
      rw [decay, if_neg fun hd => hd.2 (ht (.head l))]
    · exact decay_threads hu

theorem foldl_decay_load_avg (l : List ThreadId) (k : Kernel) : (l.foldl decay k).load_avg = k.load_avg := by
  induction l generalizing k with
  | nil => rfl
  | cons u l ih =>
    rw [List.foldl_cons, ih]
    unfold decay
    split <;> rfl

theorem foldl_decay_nice (l : List ThreadId) (k : Kernel) (t : ThreadId) :
    ((l.foldl decay k).threads t).nice = (k.threads t).nice := by
  induction l generalizing k with
  | nil => rfl
  | cons u l ih =>
    rw [List.foldl_cons, ih]
    unfold decay
    split
    · by_cases ht : t = u <;> simp [ht]
    · rfl

/-- The number of threads that are ready or running, the idle thread apart. -/
def ready_or_running (k : Kernel) : Nat :=
  k.ready_list.length + if k.idle_thread = some k.current then 0 else 1

/-- What a tick with mlfqs makes of the accounting. -/
structure Ticked (k k' : Kernel) : Prop where
  ticks : k'.ticks = k.ticks + 1
  all_list : k'.all_list = k.all_list
  idle : k'.idle_thread = k.idle_thread
  nice : ∀ t, (k'.threads t).nice = (k.threads t).nice
  load : ready_or_running k' = (run_queue k).length + if k.idle_thread = some k.current then 0 else 1
  load_avg : k'.load_avg = if (k.ticks + 1) % TIMER_FREQ = 0 then next_load_avg k else k.load_avg
  recent_cpu : ∀ t ∈ k.all_list, k.idle_thread ≠ some t → (k'.threads t).recent_cpu =
    if (k.ticks + 1) % TIMER_FREQ = 0 then
      new_recent_cpu (next_load_avg k) (charged_cpu k t) (k.threads t).nice
    else charged_cpu k t
  others : ∀ t, (t ∈ k.all_list → k.idle_thread = some t) → (k'.threads t).recent_cpu = charged_cpu k t

/-- The accounting of a tick with mlfqs, after the sleepers have been woken. -/
theorem spent_ticked {k₂ : Kernel} (hl : k₂.all_list.Nodup)
    (hlive : ∀ t ∈ k₂.all_list, (k₂.threads t).status ≠ .THREAD_DYING) (hw : Waking k k₁ (due k))
    (hcalm : Calm k₁ k₂) (hsame : SameCpu k₁ k₂) : Ticked k (spent k₂) := by
  have hready : k₂.ready_list.length = (run_queue k).length :=
    (hcalm.ready_list.trans hw.ready_list).length_eq
  have hidle : k₂.idle_thread = k.idle_thread := hcalm.idle.trans hw.idle
  have hcurrent : k₂.current = k.current := hcalm.current.trans hw.current
  have hall : k₂.all_list = k.all_list := hcalm.all_list.trans hw.all_list
  have hticks : k₂.ticks = k.ticks + 1 := hcalm.ticks.trans hw.ticks
  have hnice (t : ThreadId) : (k₂.threads t).nice = (k.threads t).nice := (hsame.nice t).trans (hw.nice t)
  have hcharged (t : ThreadId) : charged_cpu k₂ t = charged_cpu k t := by
    rw [charged_cpu, charged_cpu, hcurrent, hidle, hsame.recent_cpu, hw.recent_cpu]
  have hload : (charged k₂).load_avg = k.load_avg := by
    rw [← hw.load_avg, ← hsame.load_avg]
    unfold charged
    split <;> rfl
  have hc := charged_calm k₂
  have hnext : new_load_avg (charged k₂).load_avg (int32 ((charged k₂).ready_list.length +
      if (charged k₂).idle_thread = some (charged k₂).current then 0 else 1)) = next_load_avg k := by
    rw [hload, (charged_accounts k₂).ready_list, hready, hc.idle, hidle, hc.current, hcurrent, next_load_avg]
  have hs := spent_calm k₂
  refine ⟨hs.ticks.trans hticks, hs.all_list.trans hall, hs.idle.trans hidle, fun t => ?_,
    ?_, ?_, fun t ht hne => ?_, fun t ht => ?_⟩
  · rw [← hnice]
    unfold spent
    split
    · rw [decayed, update_recent_cpu, foldl_decay_nice]
      change ((charged k₂).threads t).nice = (k₂.threads t).nice
      rw [charged_threads_eq]
    · rw [charged_threads_eq]
  · rw [ready_or_running, (hs.ready_list.trans (hcalm.ready_list.trans hw.ready_list)).length_eq,
      hs.idle, hidle,
      hs.current, hcurrent, run_queue]
  · unfold spent
    rw [hticks]
    split
    · rw [decayed, update_recent_cpu, foldl_decay_load_avg]
      exact hnext
    · exact hload
  · rw [← hall] at ht
    rw [← hidle] at hne
    have hown := charged_threads_eq k₂ t
    unfold spent
    rw [hticks, ← hcharged, ← hnice]
    split
    · rw [decayed_threads (by rwa [hc.all_list]) (by rwa [hc.all_list]) (by rw [hown]; exact hlive t ht)
        (by rwa [hc.idle]), hnext, hown]
    · rw [hown]
  · rw [← hall, ← hidle] at ht
    unfold spent
    split
    · rw [decayed, update_recent_cpu, foldl_decay_other]
      · change ((charged k₂).threads t).recent_cpu = charged_cpu k t
        rw [charged_threads_eq]
        exact hcharged t
      · intro hmem
        exact hc.idle.trans (ht (hc.all_list ▸ hmem))
    · rw [charged_threads_eq]
      exact hcharged t

theorem Ticked.of_spent (h : Ticked k (spent k₁)) : Ticked k (leave_interrupt (mlfqs_updated k₁)) := by
  obtain ⟨hcalm, hsame⟩ := mlfqs_updated_same_cpu k₁
  obtain ⟨hload, hleave⟩ := leave_interrupt_accounting (mlfqs_updated k₁)
  have hcpu (t : ThreadId) : ((leave_interrupt (mlfqs_updated k₁)).threads t).recent_cpu =
      ((spent k₁).threads t).recent_cpu := (hleave t).1.trans (hsame.recent_cpu t)
  exact {
    ticks := hcalm.ticks.trans h.ticks
    all_list := hcalm.all_list.trans h.all_list
    idle := hcalm.idle.trans h.idle
    nice := fun t => ((hleave t).2.trans (hsame.nice t)).trans (h.nice t)
    load := by
      rw [← h.load, ready_or_running, ready_or_running, ← hcalm.ready_list.length_eq, ← hcalm.idle,
        ← hcalm.current]
      rfl
    load_avg := (hload.trans hsame.load_avg).trans h.load_avg
    recent_cpu := fun t ht hidle => (hcpu t).trans (h.recent_cpu t ht hidle)
    others := fun t ht => (hcpu t).trans (h.others t ht) }

theorem Wf.ticked (h : Wf k) (hl : Listed k) (hmlfqs : k.thread_mlfqs = true)
    (hs : prj3.step k .timer = some k') : Ticked k k' := by
  obtain ⟨hon, he⟩ := step_ok hs
  obtain ⟨k₁, -, hw, -, -, rfl⟩ := h.tick hon he
  have hcalm := ripened_calm k₁
  have hlive : ∀ t ∈ (ripened k₁).all_list, ((ripened k₁).threads t).status ≠ .THREAD_DYING := by
    intro t ht
    rw [hcalm.all_list, hw.all_list] at ht
    rw [hcalm.status, hw.status]
    split
    · simp
    · exact ((hl.mem t).mp ht).2
  have hnodup : (ripened k₁).all_list.Nodup := by
    rw [hcalm.all_list, hw.all_list]
    exact hl.nodup
  have hticked := spent_ticked hnodup hlive hw hcalm (ripened_same_cpu k₁)
  rw [accounted, if_pos (hw.modes.1.trans hmlfqs)]
  exact hticked.of_spent

/-! ## Runs with bounded load -/

/-- With mlfqs and nice values in `[-20, 20]`, at most `n` threads are ready or
running when a tick ends a second. -/
structure Moderate (n : Nat) (k : Kernel) (l : Label) : Prop where
  mlfqs : k.thread_mlfqs = true
  nice : ∀ t ∈ k.all_list, -20 ≤ (k.threads t).nice ∧ (k.threads t).nice ≤ 20
  load : l = .timer → (k.ticks + 1) % TIMER_FREQ = 0 → ∀ k' ∈ step k .timer, ready_or_running k' ≤ n

/-- The accounting is in bounds. The last conjunct is on the threads that decay
once a second, so that none is charged for more than a hundred ticks in between. -/
structure Accounted (n : Nat) (k : Kernel) : Prop where
  load_avg : 0 ≤ k.load_avg ∧ k.load_avg ≤ n * F
  recent_cpu : ∀ t, |(k.threads t).recent_cpu| ≤ F * (240 * n + 120)
  decays : ∀ t ∈ k.all_list, k.idle_thread ≠ some t →
    |(k.threads t).recent_cpu| ≤ F * (240 * n + 20 + k.ticks % TIMER_FREQ)

/-- What one tick adds. -/
theorem Accounted.charged {n : Nat} (h : Accounted n k) (hn : n ≤ 300) (ht : t ∈ k.all_list)
    (hidle : k.idle_thread ≠ some t) :
    |charged_cpu k t| ≤ F * (240 * n + 20 + (k.ticks % TIMER_FREQ + 1)) := by
  have hcpu := h.decays t ht hidle
  have hlt : k.ticks % TIMER_FREQ < 100 := Int.emod_lt_of_pos _ (by decide)
  unfold charged_cpu
  split
  · rw [fp_add_one (n := n) (by omega) (by simp only [F] at hcpu ⊢; omega)]
    simp only [F] at hcpu ⊢
    rw [abs_le] at hcpu ⊢
    omega
  · simp only [F] at hcpu ⊢
    omega

theorem Accounted.tick_load_avg {n : Nat} (h : Accounted n k) (hn : n ≤ 300) (hg : Moderate n k .timer)
    (hticked : Ticked k k') (hs : step k .timer = some k') : 0 ≤ k'.load_avg ∧ k'.load_avg ≤ n * F := by
  rw [hticked.load_avg]
  split
  · rename_i hsecond
    have hready := hg.load rfl hsecond k' hs
    have hcount : ((run_queue k).length + if k.idle_thread = some k.current then 0 else 1 : Int) =
        ready_or_running k' := by
      rw [hticked.load]
      split <;> simp
    rw [next_load_avg, hcount, int32_of_range (by omega) (by omega)]
    exact new_load_avg_bound (by omega) h.load_avg (by omega)
  · exact h.load_avg

theorem Accounted.tick {n : Nat} (h : Accounted n k) (hn : n ≤ 300) (hg : Moderate n k .timer)
    (hcurrent : k.current ∈ k.all_list) (hticked : Ticked k k') (hs : step k .timer = some k') :
    Accounted n k' := by
  have hload := h.tick_load_avg hn hg hticked hs
  have hdecays : ∀ t ∈ k'.all_list, k'.idle_thread ≠ some t →
      |(k'.threads t).recent_cpu| ≤ F * (240 * n + 20 + k'.ticks % TIMER_FREQ) := by
    intro t ht hidle
    rw [hticked.all_list] at ht
    rw [hticked.idle] at hidle
    have hcharged := h.charged hn ht hidle
    have hlt : k.ticks % TIMER_FREQ < 100 := Int.emod_lt_of_pos _ (by decide)
    rw [hticked.recent_cpu t ht hidle, hticked.ticks]
    have hload' := hticked.load_avg
    split
    · rename_i hsecond
      rw [if_pos hsecond] at hload'
      rw [hsecond, add_zero, ← hload']
      apply new_recent_cpu_bound (by omega) hload _ (hg.nice t ht)
      simp only [F] at hcharged ⊢
      omega
    · rename_i hsecond
      simp only [TIMER_FREQ] at hcharged hsecond ⊢
      have hnext : (k.ticks + 1) % 100 = k.ticks % 100 + 1 := by omega
      rwa [hnext]
  refine ⟨hload, fun t => ?_, hdecays⟩
  by_cases ht : t ∈ k.all_list ∧ k.idle_thread ≠ some t
  · have hlt : k'.ticks % TIMER_FREQ < 100 := Int.emod_lt_of_pos _ (by decide)
    have hcpu := hdecays t (by rw [hticked.all_list]; exact ht.1) (by rw [hticked.idle]; exact ht.2)
    simp only [F] at hcpu ⊢
    omega
  · have hidle : t ∈ k.all_list → k.idle_thread = some t := by
      intro hmem
      by_contra hne
      exact ht ⟨hmem, hne⟩
    rw [hticked.others t hidle, charged_cpu, if_neg]
    · exact h.recent_cpu t
    · rintro ⟨rfl, hne⟩
      exact hne (hidle hcurrent)

theorem Accounted.keeps_cpu {n : Nat} (h : Accounted n k) (hkeeps : KeepsCpu k k')
    (hticks : k'.ticks = k.ticks) :
    Accounted n k' := by
  have hmod : 0 ≤ k.ticks % TIMER_FREQ := Int.emod_nonneg _ (by decide)
  refine ⟨by rw [hkeeps.load_avg]; exact h.load_avg, fun t => ?_, fun t ht hidle => ?_⟩
  · obtain hcpu | hcpu := hkeeps.recent_cpu t
    · rw [hcpu]
      exact h.recent_cpu t
    · rw [hcpu, abs_zero]
      simp only [F]
      omega
  · rw [hticks]
    have hzero : (k'.threads t).recent_cpu = 0 →
        |(k'.threads t).recent_cpu| ≤ F * (240 * n + 20 + k.ticks % TIMER_FREQ) := by
      intro hcpu
      rw [hcpu, abs_zero]
      simp only [F]
      omega
    obtain ht | hzero' := hkeeps.all_list t ht
    · obtain hcpu | hcpu := hkeeps.recent_cpu t
      · rw [hcpu]
        rw [hkeeps.idle] at hidle
        exact h.decays t ht hidle
      · exact hzero hcpu
    · exact hzero (congrArg Prod.fst hzero')

theorem Wf.current_listed (h : Wf k) (hl : Listed k) (hrun : k.code.head? ≠ some .schedule) :
    k.current ∈ k.all_list := by
  obtain ⟨hthread, hrunning⟩ := place_running.mp (h.current_running hrun)
  exact (hl.mem _).mpr ⟨hthread, by simp [hrunning]⟩

/-- The idle thread creates no thread. -/
theorem Wf.inherit_not_idle (h : Wf k) {rest : List Instr} (hcode : k.code = .inherit t :: rest) :
    k.idle_thread ≠ some k.current := by
  intro hidle
  have hcur : (k.threads k.current).code = .inherit t :: rest := hcode
  have honly := (h.codes.idle k.current (.inl hidle)).only (.inherit t) (by simp [hcur])
  cases honly

theorem Accounted.inherit {n : Nat} {rest : List Instr} (h : Accounted n k) (hw : Wf k) (hl : Listed k)
    (hticks : k'.ticks = k.ticks) (hcode : k.code = .inherit t :: rest)
    (he : exec (k.set_code rest) env (.inherit t) = .ok k') : Accounted n k' := by
  obtain ⟨hload, hidle, hall, haccount⟩ := exec_inherit he
  have hcpu' (u : ThreadId) : (k'.threads u).recent_cpu = (k.threads u).recent_cpu ∨
      (k'.threads u).recent_cpu = (k.threads k.current).recent_cpu := by
    have hu := haccount u
    rw [Kernel.set_code_current, set_code_account, set_code_account] at hu
    exact hu.imp (congrArg Prod.fst) (congrArg Prod.fst)
  have hcurrent := h.decays k.current (hw.current_listed hl (by simp [hcode])) (hw.inherit_not_idle hcode)
  refine ⟨by rw [hload]; exact h.load_avg, fun u => ?_, fun u hu hne => ?_⟩
  · obtain hu | hu := hcpu' u <;> rw [hu] <;> exact h.recent_cpu _
  · rw [hticks]
    rw [hall] at hu
    rw [hidle] at hne
    obtain hcpu | hcpu := hcpu' u <;> rw [hcpu]
    · exact h.decays u hu hne
    · exact hcurrent

theorem Accounted.idle {n : Nat} {rest : List Instr} (h : Accounted n k) (hw : Wf k)
    (hticks : k'.ticks = k.ticks) (hcode : k.code = .idle :: rest)
    (he : exec (k.set_code rest) env .idle = .ok k') : Accounted n k' := by
  obtain ⟨hload, -, hall, haccount⟩ := exec_idle he
  have hcur : (k.threads k.current).code = .idle :: rest := hcode
  have hnone : k.idle_thread = none := hw.codes.idle_unset k.current (by simp [hcur, Instr.tokens])
  have hset (u : ThreadId) : (k'.threads u).recent_cpu = (k.threads u).recent_cpu :=
    congrArg Prod.fst ((haccount u).trans (set_code_account k rest u))
  refine ⟨by rw [hload]; exact h.load_avg, fun u => ?_, fun u hu _ => ?_⟩
  · rw [hset]
    exact h.recent_cpu u
  · rw [hset, hticks]
    rw [hall] at hu
    exact h.decays u hu (by simp [hnone])

theorem Accounted.set_nice {n : Nat} {m : Int} {rest : List Instr} (h : Accounted n k)
    (hticks : k'.ticks = k.ticks)
    (he : exec (k.set_code rest) env (.thread_set_nice m) = .ok k') : Accounted n k' := by
  obtain ⟨hload, hidle, hall, hcpu⟩ := exec_thread_set_nice he
  have hset (u : ThreadId) : (k'.threads u).recent_cpu = (k.threads u).recent_cpu :=
    (hcpu u).1.trans (congrArg Prod.fst (set_code_account k rest u))
  refine ⟨by rw [hload]; exact h.load_avg, fun u => ?_, fun u hu hne => ?_⟩
  · rw [hset]
    exact h.recent_cpu u
  · rw [hset, hticks]
    rw [hall] at hu
    rw [hidle] at hne
    exact h.decays u hu hne

theorem Wf.step_accounted {n : Nat} (hw : Wf k) (hl : Listed k) (h : Accounted n k) (hn : n ≤ 300)
    (hg : Moderate n k l) (hs : prj3.step k l = some k') : Accounted n k' := by
  cases hi : k.executes l with
  | none =>
    have htimer : l = .timer := by
      cases l with
      | timer => rfl
      | call c => cases hi
      | next env => exact absurd (List.head?_eq_none_iff.mp hi) (step_ok hs).1.1
    subst htimer
    have hrun := hw.switching.not_pending (step_ok hs).1
    exact h.tick hn hg (hw.current_listed hl hrun) (hw.ticked hl hg.mlfqs hs) hs
  | some i =>
    have hne : l ≠ .timer := by
      rintro rfl
      cases hi
    have hticks := (hw.step_effect hne hs).ticks
    obtain ⟨env, rest, hcode, he⟩ := step_exec hs hi
    by_cases hinherit : ∃ t, i = .inherit t
    · obtain ⟨t, rfl⟩ := hinherit
      obtain ⟨rest', hcode'⟩ := executes_next hs hi fun c => by cases c <;> simp [Call.instr]
      obtain rfl : rest' = rest := by simpa [hcode'] using hcode
      exact h.inherit hw hl hticks hcode' he
    by_cases hidle : i = .idle
    · subst hidle
      obtain ⟨rest', hcode'⟩ := executes_next hs hi fun c => by cases c <;> simp [Call.instr]
      obtain rfl : rest' = rest := by simpa [hcode'] using hcode
      exact h.idle hw hticks hcode' he
    by_cases hnice : ∃ n, i = .thread_set_nice n
    · obtain ⟨m, rfl⟩ := hnice
      exact h.set_nice hticks he
    · have hkeeps := exec_keeps_cpu hidle (fun t ht => hinherit ⟨t, ht⟩) (fun m hm => hnice ⟨m, hm⟩) he
      exact h.keeps_cpu (((KeepsCpu.refl k).set_code rest).trans hkeeps) hticks

theorem reachable_accounted {n : Nat} (hn : n ≤ 300) (h : (kernel.restrict (Moderate n)).Reachable k) :
    Accounted n k := by
  refine h.restrict_invariant (fun s hs => ?_) fun s l s' hr hacc hg hs =>
    (reachable_wf hr).step_accounted (reachable_listed hr) hacc hn hg hs
  obtain ⟨mlfqs, aging, t₀, rfl⟩ := hs
  have hcpu (t : ThreadId) : ((boot mlfqs aging t₀).threads t).recent_cpu = 0 := by
    by_cases ht : t = t₀ <;> simp [boot, ht, Thread.zero]
  refine ⟨?_, fun t => ?_, fun t _ _ => ?_⟩
  · simp only [boot, F]
    omega
  · rw [hcpu, abs_zero]
    simp only [F]
    omega
  · rw [hcpu, abs_zero]
    have hmod : 0 ≤ (boot mlfqs aging t₀).ticks % TIMER_FREQ := Int.emod_nonneg _ (by decide)
    simp only [F]
    omega

/-! ## Runs without ticks -/

/-- Every nice value, also one in an unused page, is in range. -/
def NiceInRange (k : Kernel) : Prop := ∀ t, -20 ≤ (k.threads t).nice ∧ (k.threads t).nice ≤ 20

/-- A step of a thread that, if it sets a nice value, sets one in range. -/
def sets_nice_in_range (k : Kernel) (l : Label) : Bool :=
  k.thread_mlfqs &&
    match k.executes l with
    | some (.thread_set_nice m) => -20 ≤ m ∧ m ≤ 20
    | some _ => true
    | none => false

theorem NiceInRange.moderate (h : NiceInRange k) (hl : sets_nice_in_range k l = true) (n : Nat) :
    Moderate n k l := by
  unfold sets_nice_in_range at hl
  rw [Bool.and_eq_true] at hl
  refine ⟨hl.1, fun t _ => h t, ?_⟩
  rintro rfl
  simp [Kernel.executes] at hl

theorem NiceInRange.step (h : NiceInRange k) (hl : sets_nice_in_range k l = true)
    (hs : prj3.step k l = some k') : NiceInRange k' := by
  unfold sets_nice_in_range at hl
  rw [Bool.and_eq_true] at hl
  cases hi : k.executes l with
  | none => simp [hi] at hl
  | some i =>
    obtain ⟨env, rest, -, he⟩ := step_exec hs hi
    have hset (u : ThreadId) : ((k.set_code rest).threads u).nice = (k.threads u).nice :=
      congrArg Prod.snd (set_code_account k rest u)
    intro t
    by_cases hinherit : ∃ u, i = .inherit u
    · obtain ⟨u, rfl⟩ := hinherit
      obtain haccount | haccount := (exec_inherit he).2.2.2 t <;>
        rw [show (k'.threads t).nice = _ from congrArg Prod.snd haccount] <;>
        simp only [Thread.account, hset, Kernel.set_code_current] <;> exact h _
    by_cases hidle : i = .idle
    · subst hidle
      rw [show (k'.threads t).nice = _ from congrArg Prod.snd ((exec_idle he).2.2.2 t)]
      simp only [Thread.account, hset]
      exact h t
    by_cases hnice : ∃ m, i = .thread_set_nice m
    · obtain ⟨m, rfl⟩ := hnice
      have hrange : -20 ≤ m ∧ m ≤ 20 := by simpa [hi] using hl.2
      obtain hn | hn := ((exec_thread_set_nice he).2.2.2 t).2
      · rw [hn, hset]
        exact h t
      · rw [hn, int32_of_range (by omega) (by omega)]
        exact hrange
    · have hkeeps := exec_keeps_cpu hidle (fun u hu => hinherit ⟨u, hu⟩) (fun m hm => hnice ⟨m, hm⟩) he
      obtain hn | hn := hkeeps.nice t
      · rw [hn, hset]
        exact h t
      · rw [hn]
        omega

/-- Up to the first tick there is no load to bound. -/
theorem nice_run_moderate (n : Nat) (h : (kernel.restrict fun k l => sets_nice_in_range k l =
    true).Reachable k) :
    (kernel.restrict (Moderate n)).Reachable k ∧ NiceInRange k := by
  induction h with
  | init hinit =>
    refine ⟨.init hinit, fun t => ?_⟩
    obtain ⟨mlfqs, aging, t₀, rfl⟩ := hinit
    by_cases ht : t = t₀ <;> simp [boot, ht, Thread.zero]
  | step _ hs ih => exact ⟨ih.1.step ⟨ih.2.moderate hs.1 n, hs.2⟩, ih.2.step hs.1 hs.2⟩

/-! ## The report -/

/-- `thread_get_recent_cpu`. -/
def thread_get_recent_cpu (k : Kernel) : Except Assertion Int := do
  let cur ← thread_current k
  .ok (round_to_nearest (fp_mul_int (k.threads cur).recent_cpu 100))

/-- The integer is nearest to the fixed-point number. -/
def Nearest (x v : Int) : Prop := 2 * |v * F - x| ≤ F

/-- `thread_get_recent_cpu` returns 100 times `recent_cpu`, rounded to the nearest integer. -/
def ReportsCpu (k : Kernel) : Prop :=
  ∃ v, thread_get_recent_cpu k = .ok v ∧ Nearest ((k.threads k.current).recent_cpu * 100) v

/-- Neither `recent_cpu * 100` nor the sum that rounds it wraps. -/
def Unwrapped (k : Kernel) : Prop :=
  let x := (k.threads k.current).recent_cpu * 100
  int32 x = x ∧ if x ≥ 0 then int32 (x + F / 2) = x + F / 2 else int32 (x - F / 2) = x - F / 2

/-- The largest `recent_cpu` of which 100 times can be rounded in an `int`: 1310.7. -/
def RECENT_CPU_MAX : Int := 21474754

theorem int32_eq_iff {x : Int} : int32 x = x ↔ -2147483648 ≤ x ∧ x ≤ 2147483647 := by
  constructor
  · intro h
    rw [← h]
    exact int32_range x
  · rintro ⟨hlow, hhigh⟩
    exact int32_of_range hlow hhigh

theorem unwrapped_iff (k : Kernel) :
    Unwrapped k ↔ |(k.threads k.current).recent_cpu| ≤ RECENT_CPU_MAX := by
  simp only [Unwrapped, int32_eq_iff, RECENT_CPU_MAX, F, abs_le]
  split <;> omega

/-- A number whose rounding does not wrap is rounded to the nearest integer. -/
theorem round_to_nearest_nearest {x : Int} (hx : |x| ≤ 2147475455) : Nearest x (round_to_nearest x) := by
  rw [abs_le] at hx
  simp only [Nearest, round_to_nearest, F]
  split
  · rw [int32_of_range (x := x + 16384 / 2) (by omega) (by omega), Int.tdiv_eq_ediv_of_nonneg (by omega),
      int32_of_range (by omega) (by omega)]
    have hle : |(x + 16384 / 2) / 16384 * 16384 - x| ≤ 8192 := by
      rw [abs_le]
      omega
    omega
  · rw [int32_of_range (x := x - 16384 / 2) (by omega) (by omega), ← neg_neg (x - 16384 / 2), Int.neg_tdiv,
      Int.tdiv_eq_ediv_of_nonneg (by omega), int32_of_range (by omega) (by omega)]
    have hle : |-(-(x - 16384 / 2) / 16384) * 16384 - x| ≤ 8192 := by
      rw [abs_le]
      omega
    omega

/-- Up to the bound the report is right. -/
theorem report_nearest {cpu : Int} (hcpu : |cpu| ≤ RECENT_CPU_MAX) :
    Nearest (cpu * 100) (round_to_nearest (fp_mul_int cpu 100)) := by
  simp only [RECENT_CPU_MAX, abs_le] at hcpu
  rw [fp_mul_int, int32_of_range (by omega) (by omega)]
  apply round_to_nearest_nearest
  rw [abs_le]
  omega

theorem int32_add (x : Int) : int32 (x + 4294967296) = int32 x := by
  simp only [int32, wrap]
  exact Int.add_bmod_right x (4294967296 : Nat)

/-- What `round_to_nearest` can return. -/
theorem round_to_nearest_range (x : Int) : -131072 ≤ round_to_nearest x ∧ round_to_nearest x ≤ 131071 := by
  have hquot (y : Int) : -131072 ≤ (int32 y).tdiv F ∧ (int32 y).tdiv F ≤ 131071 := by
    obtain ⟨hlow, hhigh⟩ := int32_range y
    simp only [F]
    obtain hy | hy := le_total 0 (int32 y)
    · rw [Int.tdiv_eq_ediv_of_nonneg hy]
      omega
    · rw [← neg_neg (int32 y), Int.neg_tdiv, Int.tdiv_eq_ediv_of_nonneg (by omega)]
      omega
  unfold round_to_nearest
  split
  · obtain ⟨hlow, hhigh⟩ := hquot (x + F / 2)
    rw [int32_of_range (by omega) (by omega)]
    exact ⟨hlow, hhigh⟩
  · obtain ⟨hlow, hhigh⟩ := hquot (x - F / 2)
    rw [int32_of_range (by omega) (by omega)]
    exact ⟨hlow, hhigh⟩

/-- Past the bound the report is wrong. -/
theorem report_not_nearest {cpu : Int} (hcpu : RECENT_CPU_MAX < |cpu|) :
    ¬ Nearest (cpu * 100) (round_to_nearest (fp_mul_int cpu 100)) := by
  intro hnearest
  have hrange := round_to_nearest_range (fp_mul_int cpu 100)
  simp only [Nearest, F] at hnearest
  have hclose : |round_to_nearest (fp_mul_int cpu 100) * 16384 - cpu * 100| ≤ 8192 := by omega
  rw [abs_le] at hclose
  simp only [RECENT_CPU_MAX, lt_abs] at hcpu
  obtain hcpu | hcpu := hcpu
  · omega
  -- only the lowest result is near enough, and it is not the one computed
  have hresult : round_to_nearest (fp_mul_int cpu 100) = -131072 := by omega
  by_cases hfits : -2147483648 ≤ cpu * 100
  · rw [fp_mul_int, int32_of_range hfits (by omega), round_to_nearest, if_neg (by omega)] at hresult
    simp only [F] at hresult
    have hwrap : int32 (cpu * 100 - 16384 / 2) = cpu * 100 - 16384 / 2 + 4294967296 := by
      rw [← int32_add]
      exact int32_of_range (by omega) (by omega)
    rw [hwrap, Int.tdiv_eq_ediv_of_nonneg (by omega), int32_of_range (by omega) (by omega)] at hresult
    omega
  · rw [fp_mul_int, ← int32_add, int32_of_range (by omega) (by omega), round_to_nearest,
      if_pos (by omega)] at hresult
    simp only [F] at hresult
    have hwrap : int32 (cpu * 100 + 4294967296 + 16384 / 2) = cpu * 100 + 8192 := by
      rw [show cpu * 100 + 4294967296 + 16384 / 2 = cpu * 100 + 8192 + 4294967296 by omega, int32_add]
      exact int32_of_range (by omega) (by omega)
    rw [hwrap, ← neg_neg (cpu * 100 + 8192), Int.neg_tdiv, Int.tdiv_eq_ediv_of_nonneg (by omega),
      int32_of_range (by omega) (by omega)] at hresult
    omega

theorem thread_get_recent_cpu_ok (hw : Wf k) (hcode : k.code = []) : thread_get_recent_cpu k =
    .ok (round_to_nearest (fp_mul_int (k.threads k.current).recent_cpu 100)) := by
  obtain ⟨hthread, hrunning⟩ := place_running.mp (hw.current_running (by simp [hcode]))
  rw [thread_get_recent_cpu, thread_current_bind_ok]
  exact ⟨hthread, hrunning, rfl⟩

theorem reports_cpu_iff (hw : Wf k) (hcode : k.code = []) :
    ReportsCpu k ↔ |(k.threads k.current).recent_cpu| ≤ RECENT_CPU_MAX := by
  have hok := thread_get_recent_cpu_ok hw hcode
  constructor
  · rintro ⟨v, hv, hnearest⟩
    rw [hok, Except.ok.injEq] at hv
    rw [← hv] at hnearest
    by_contra hlt
    exact report_not_nearest (not_le.mp hlt) hnearest
  · intro hle
    exact ⟨_, hok, report_nearest hle⟩

/-- In a run with bounded load, the report is right, and nothing wraps, exactly
when `recent_cpu` is at most 1310.7; with four threads or fewer it always is. -/
theorem recent_cpu_report {k : Kernel} (hcode : k.code = []) :
    ((kernel.restrict (Moderate 300)).Reachable k →
      (ReportsCpu k ↔ |(k.threads k.current).recent_cpu| ≤ RECENT_CPU_MAX) ∧
      (Unwrapped k ↔ |(k.threads k.current).recent_cpu| ≤ RECENT_CPU_MAX)) ∧
    ((kernel.restrict (Moderate 4)).Reachable k → ReportsCpu k ∧ Unwrapped k) := by
  constructor
  · intro h
    exact ⟨reports_cpu_iff (reachable_wf h.of_restrict) hcode, unwrapped_iff k⟩
  · intro h
    have hacc := reachable_accounted (by omega) h
    have hle : |(k.threads k.current).recent_cpu| ≤ RECENT_CPU_MAX := by
      have hcpu := hacc.recent_cpu k.current
      simp only [F] at hcpu
      simp only [RECENT_CPU_MAX]
      omega
    exact ⟨(reports_cpu_iff (reachable_wf h.of_restrict) hcode).mpr hle, (unwrapped_iff k).mpr hle⟩

/-- The report of `main` when it has started the idle thread. -/
theorem recent_cpu_report_in_main : ∃ k,
    runLabels (checked sets_nice_in_range step) (boot true false 0) start_up = some k ∧
      k.thread_mlfqs = true ∧ ReportsCpu k ∧ Unwrapped k ∧ |(k.threads k.current).recent_cpu| ≤
        RECENT_CPU_MAX := by
  obtain ⟨k, hrun, hk⟩ := exists_of_any (checked sets_nice_in_range step) (boot true false 0) start_up
    (fun k => k.code = [] ∧ k.thread_mlfqs = true) (by decide +kernel)
  obtain ⟨hcode, hmlfqs⟩ := of_decide_eq_true hk
  have hreach : (kernel.restrict fun k l => sets_nice_in_range k l = true).Reachable k :=
    runLabels_checked (fun _ _ h => h) ⟨true, false, 0, rfl⟩ hrun
  obtain ⟨hreports, hunwrapped⟩ := (recent_cpu_report hcode).2 (nice_run_moderate 4 hreach).1
  exact ⟨k, hrun, hmlfqs, hreports, hunwrapped,
    ((recent_cpu_report hcode).1 (nice_run_moderate 300 hreach).1).1.mp hreports⟩

end pintos.prj3
