import Pintos.Filesys.StoreRefined

/-!
# The calls on the store

What each call does to the store, for code that calls the file system and relies on the answers.
-/

open twos_complement bytes state_error transition file_store

namespace pintos.filesys

/-- The file system is in order, and memory does not run out. -/
structure InOrder (s : State) : Prop where
  ready : Ready s
  mem : ∀ i, s.oom i = false
  unique : UniqueNames s

variable {s t : State} {c : UserCall} {a : Answer} {f g : Ptr} {k : Nat} {o : Opener Nat} {name : List Byte}
  {size : Int} {d : List Byte}

namespace InOrder

theorem call (h : InOrder s) (hcall : c.Allowed s) : ∃ a t, c.exec s = .ok (a, t) ∧ InOrder t ∧
    Spec (HasRoom s) (store s) c a (store t) := by
  obtain ⟨a, t, hrun, houtcome⟩ := returns_iff.mp (h.ready.returns hcall)
  have hmem := not_outOfMemory h.mem
  exact ⟨a, t, hrun, ⟨houtcome.ready h.ready, houtcome.oom ▸ h.mem, houtcome.unique hmem h.unique⟩,
    houtcome.spec h.ready hmem h.unique⟩

/-- A handle of the store is a file that a user has open. -/
theorem user_file (ho : (store s).opener f = some o) : (user_file s f).isSome := by
  simp only [store, Option.map_eq_some_iff] at ho
  obtain ⟨o', ho', -⟩ := ho
  rw [ho']
  rfl

theorem names (h : InOrder s) (hk : (store s).name name = some k) :
    Names s name k := (store_name h.unique).mp hk

theorem valid (h : InOrder s) : (store s).Valid where
  live k := by
    rw [h.ready.live_iff h.unique]
    simp [store]
  one_name n n' k hn hn' := by
    obtain ⟨i, hi, huse, hspells, hsector⟩ := h.names hn
    obtain ⟨j, hj, huse', hspells', hsector'⟩ := h.names hn'
    have hij := h.ready.sound.disk.one_name i hi j hj huse huse' (hsector.trans hsector'.symm)
    exact hspells.unique (hij ▸ hspells')

/-- Other code asks for memory. -/
theorem malloc (h : InOrder s) : ∃ p t, filesys.malloc s = .ok (some p, t) ∧ InOrder t ∧ store t = store s := by
  have hsteady := h.ready.sound.only_asked (t := { s with asked := s.asked + 1 }) ⟨rfl, Nat.le_succ _⟩
  have hunique : UniqueNames { s with asked := s.asked + 1 } := h.unique.congr fun i hi _ =>
      hsteady.entries i hi
  have hready : Ready { s with asked := s.asked + 1 } := by
    refine ⟨hsteady.sound, fun g o ho => h.ready.pos g o ?_⟩
    rwa [user_file_congr hsteady.map_file hsteady.handle] at ho
  refine ⟨s.asked, _, ?_, ⟨hready, h.mem, hunique⟩, h.ready.store_steady hsteady h.unique hunique⟩
  rw [filesys.malloc, if_neg (by simp [h.mem])]

theorem filesys_create (h : InOrder s) (hname : 0 ∉ name) (hnonneg : 0 ≤ size) (hle : size ≤ 2147483647) :
    (∃ t, filesys.filesys_create name size s = .ok (true, t) ∧ InOrder t ∧ ∃ k,
      (store s).Step (.create name k (List.replicate size.toNat 0)) (store t)) ∨
    ∃ t, filesys.filesys_create name size s = .ok (false, t) ∧ InOrder t ∧ store t = store s ∧
      Spec (HasRoom s) (store s) (.filesys_create name size) (.success false) (store s) := by
  obtain ⟨a, t, hrun, horder, hspec⟩ := h.call (c := .filesys_create name size) ⟨hname, hnonneg, hle⟩
  rw [UserCall.exec, Exec.bind_eq_ok] at hrun
  obtain ⟨b, u, hcreate, hrun⟩ := hrun
  obtain ⟨rfl, rfl⟩ := Exec.ok_inj rfl hrun
  cases b with
  | true =>
    obtain ⟨-, -, -, k, hstep⟩ := hspec
    exact .inl ⟨u, hcreate, horder, k, hstep⟩
  | false => exact .inr ⟨u, hcreate, horder, hspec.1, hspec.1 ▸ hspec⟩

theorem filesys_open (h : InOrder s) (hname : 0 ∉ name) (hk : (store s).name name = some k) : ∃ f t,
    filesys.filesys_open name s = .ok (some f, t) ∧ InOrder t ∧ (store s).opener f = none ∧
      store t = (store s).set_opener f (some { file := k, pos := 0, deny_write := false }) := by
  obtain ⟨a, t, hrun, horder, hspec⟩ := h.call (c := .filesys_open name) hname
  rw [UserCall.exec, Exec.bind_eq_ok] at hrun
  obtain ⟨r, u, hopen, hrun⟩ := hrun
  obtain ⟨rfl, rfl⟩ := Exec.ok_inj rfl hrun
  cases r with
  | none => exact absurd (hspec.2.symm.trans hk) (by simp)
  | some f =>
    simp only [Spec] at hspec
    generalize hτ : store u = τ at hspec
    cases hspec with
    | open_by_name hname hnew =>
      obtain rfl := Option.some.inj (hname.symm.trans hk)
      exact ⟨f, u, hopen, horder, hnew, hτ⟩

theorem file_length (h : InOrder s) (ho : (store s).opener f = some o)
    (hd : (store s).content o.file = some d) :
    ∃ t, filesys.file_length f s = .ok ((d.length : Int), t) ∧ InOrder t ∧ store t = store s := by
  obtain ⟨a, t, hrun, horder, hspec⟩ := h.call (c := .file_length f) (user_file ho)
  rw [UserCall.exec, Exec.bind_eq_ok] at hrun
  obtain ⟨n, u, hlength, hrun⟩ := hrun
  obtain ⟨rfl, rfl⟩ := Exec.ok_inj rfl hrun
  obtain ⟨hstore, o', d', ho', hd', rfl⟩ := hspec
  obtain rfl := Option.some.inj (ho.symm.trans ho')
  obtain rfl := Option.some.inj (hd.symm.trans hd')
  exact ⟨u, hlength, horder, hstore⟩

theorem file_read (h : InOrder s) (ho : (store s).opener f = some o) (hd : (store s).content o.file = some d)
    (buffer : Bytes) (hsize : size ≤ 2147483647) : ∃ t,
      filesys.file_read f buffer size s = .ok ((((d.drop o.pos).take size.toNat).length,
        copy buffer 0 (fun i => ((d.drop o.pos).take size.toNat).getD i 0) 0
          ((d.drop o.pos).take size.toNat).length), t) ∧ InOrder t ∧
      store t = (store s).set_opener f (some { o with pos := o.pos + min size.toNat (d.length - o.pos) }) := by
  obtain ⟨a, t, hrun, horder, hspec⟩ := h.call (c := .file_read f buffer size) ⟨user_file ho, hsize⟩
  rw [UserCall.exec, Exec.bind_eq_ok] at hrun
  obtain ⟨⟨n, b⟩, u, hread, hrun⟩ := hrun
  obtain ⟨rfl, rfl⟩ := Exec.ok_inj rfl hrun
  obtain ⟨e, hstep, rfl, rfl⟩ := hspec
  generalize hτ : store u = τ at hstep
  cases hstep with
  | read ho' hd' =>
    obtain rfl := Option.some.inj (ho.symm.trans ho')
    obtain rfl := Option.some.inj (hd.symm.trans hd')
    exact ⟨u, hread, horder, hτ⟩

theorem file_write (h : InOrder s) (ho : (store s).opener f = some o) (hd : (store s).content o.file = some d)
    (hdenied : ¬ (store s).Denied o.file) (buffer : Bytes) {n : Nat} (hsize : size ≤ 2147483647)
    (hn : n = min size.toNat (d.length - o.pos)) : ∃ t,
      filesys.file_write f buffer size s = .ok ((n : Int), t) ∧ InOrder t ∧ store t = { store s with
        content := Function.update (store s).content o.file
          (some (overwrite d o.pos (((List.range size.toNat).map buffer).take n)))
        opener := Function.update (store s).opener f (some { o with pos := o.pos + n }) } := by
  obtain ⟨a, t, hrun, horder, hspec⟩ := h.call (c := .file_write f buffer size) ⟨user_file ho, hsize⟩
  rw [UserCall.exec, Exec.bind_eq_ok] at hrun
  obtain ⟨m, u, hwrite, hrun⟩ := hrun
  obtain ⟨rfl, rfl⟩ := Exec.ok_inj rfl hrun
  obtain ⟨m, rfl, hstep⟩ := hspec
  generalize hτ : store u = τ at hstep
  cases hstep with
  | write ho' hd' hm =>
    obtain rfl := Option.some.inj (ho.symm.trans ho')
    obtain rfl := Option.some.inj (hd.symm.trans hd')
    rw [if_neg hdenied, List.length_map, List.length_range, ← hn] at hm
    exact ⟨u, hm ▸ hwrite, horder, hm ▸ hτ⟩

theorem file_close (h : InOrder s) (ho : (store s).opener f = some o) : ∃ t,
    filesys.file_close (some f) s = .ok ((), t) ∧ InOrder t ∧
      store t = ((store s).set_opener f none).keep_live := by
  obtain ⟨a, t, hrun, horder, hspec⟩ := h.call (c := .file_close f) (user_file ho)
  rw [UserCall.exec, Exec.bind_eq_ok] at hrun
  obtain ⟨⟨⟩, u, hclose, hrun⟩ := hrun
  obtain ⟨rfl, rfl⟩ := Exec.ok_inj rfl hrun
  generalize hτ : store u = τ at hspec
  cases hspec with
  | close => exact ⟨u, hclose, horder, hτ⟩

end InOrder

end pintos.filesys
