import Pintos.Devices.Partition
import Mathlib.Data.List.Nodup
import Mathlib.Data.List.Range

/-!
# What a scan finds

The partitions that the tables on a device describe, and when a scan finds them.
-/

open bytes

namespace pintos.devices

/-- The partition table in a sector. -/
def table_of (b : block) (sector : Nat) : partition_table := partition_table.of_bytes (b.sector sector)

/-- There is a partition table in the sector. -/
def Readable (b : block) (sector : Nat) : Prop := sector < b.size ∧ (table_of b sector).signature = 0xaa55

/-- The sectors that the table in sector 0 leads to, with their primary extended sectors. -/
inductive Reachable (b : block) : Nat → Nat → Prop where
  | first : Reachable b 0 0
  | primary {e : partition_table_entry} : Readable b 0 → e ∈ (table_of b 0).partitions → e.is_empty = false →
      e.is_extended = true → Reachable b e.offset e.offset
  | logical {sector primary : Nat} {e : partition_table_entry} : Reachable b sector primary → sector ≠ 0 →
      Readable b sector → e ∈ (table_of b sector).partitions → e.is_empty = false → e.is_extended = true →
      Reachable b (e.offset + primary) primary

/-- A table describes the partition, whatever its number. -/
def Described (b : block) (f : Found) : Prop :=
  ∃ primary e, Reachable b f.table primary ∧ Readable b f.table ∧
    (table_of b f.table).partitions[f.index]? = some e ∧ e.is_empty = false ∧ e.is_extended = false ∧
    f.type = e.type ∧ f.start = f.table + e.offset ∧ f.size = e.size

/-- The partition is inside the device. -/
def Inside (b : block) (f : Found) : Prop := f.start < b.size ∧ f.start + f.size ≤ b.size

instance (b : block) : DecidablePred (Inside b) := fun _ => inferInstanceAs (Decidable (_ ∧ _))

/-- The partitions found in a trace. -/
def founds (events : List Event) : List Found :=
  events.filterMap fun
    | .found f => some f
    | _ => none

/-- The block devices registered in a trace. -/
def registrations (events : List Event) : List Registered :=
  events.filterMap fun
    | .register p => some p
    | _ => none

/-- A scan that does what it is for. -/
structure Correct (b : block) (events : List Event) : Prop where
  own_sector : ∀ table sector, Event.read table sector ∈ events → sector = table
  described : ∀ f, Described b f ↔ ∃ g ∈ founds events, g = { f with part_nr := g.part_nr }
  once : ((founds events).map fun f => (f.table, f.index)).Nodup
  numbered : (founds events).map (·.part_nr) = List.range' 1 (founds events).length
  registered : registrations events = ((founds events).filter (Inside b)).map (registered b)

/-- No extended partition in sector 0 is inside the device. -/
def NoExtended (b : block) : Prop :=
  Readable b 0 → ∀ e ∈ (table_of b 0).partitions, e.is_empty = false → e.is_extended = true → b.size ≤ e.offset

section Recursion

variable {b : block} {read_table : Nat → Nat → Nat → Option (Nat × List Event)} {sector primary : Nat}

/-- Every extended partition of a table is followed. -/
theorem parse_partitions_follows {e : partition_table_entry} {i : Nat} (hempty : e.is_empty = false)
    (hextended : e.is_extended = true) {entries : List (partition_table_entry × Nat)} :
    ∀ {part_nr part_nr' : Nat} {events : List Event}, (e, i) ∈ entries →
      parse_partitions read_table b sector primary entries part_nr = some (part_nr', events) →
      ∃ nr nr' inner, read_table (next_table sector primary e.offset).1
        (next_table sector primary e.offset).2 nr =
        some (nr', inner) ∧ ∀ event ∈ inner, event ∈ events := by
  induction entries with
  | nil =>
    intro _ _ _ hmem _
    contradiction
  | cons entry entries ih =>
    obtain ⟨e', j⟩ := entry
    intro part_nr part_nr' events hmem hparse
    rw [parse_partitions] at hparse
    obtain heq | hmem := List.mem_cons.mp hmem
    · obtain ⟨rfl, rfl⟩ := Prod.mk.inj heq
      rw [if_neg (by simp [hempty]), if_pos hextended] at hparse
      obtain ⟨⟨nr', inner⟩, hread, hparse⟩ := Option.bind_eq_some_iff.mp hparse
      obtain ⟨⟨nr'', rest⟩, -, hparse⟩ := Option.bind_eq_some_iff.mp hparse
      obtain ⟨-, rfl⟩ := Prod.mk.inj (Option.some.inj hparse)
      refine ⟨part_nr, nr', inner, hread, ?_⟩
      intro event hevent
      exact List.mem_append_left _ (List.mem_cons_of_mem _ hevent)
    · split_ifs at hparse with hempty' hextended'
      · exact ih hmem hparse
      · obtain ⟨⟨nr', inner⟩, -, hparse⟩ := Option.bind_eq_some_iff.mp hparse
        obtain ⟨⟨nr'', rest⟩, hrest, hparse⟩ := Option.bind_eq_some_iff.mp hparse
        obtain ⟨-, rfl⟩ := Prod.mk.inj (Option.some.inj hparse)
        obtain ⟨nr, nr', inner', hread, hevents⟩ := ih hmem hrest
        exact ⟨nr, nr', inner', hread, fun event hevent => List.mem_append_right _ (hevents event hevent)⟩
      · obtain ⟨⟨nr'', rest⟩, hrest, hparse⟩ := Option.bind_eq_some_iff.mp hparse
        obtain ⟨-, rfl⟩ := Prod.mk.inj (Option.some.inj hparse)
        obtain ⟨nr, nr', inner', hread, hevents⟩ := ih hmem hrest
        exact ⟨nr, nr', inner', hread, fun event hevent => List.mem_append_right _ (hevents event hevent)⟩

/-- Reading a table that is there. -/
theorem read_partition_table_readable (hread : Readable b 0) (hsector : sector < b.size)
    {n part_nr part_nr' : Nat}
    {events : List Event} (hrun : read_partition_table (n + 1) b sector primary part_nr =
    some (part_nr', events)) :
    ∃ rest, parse_partitions (read_partition_table n b) b sector primary
      (table_of b 0).partitions.zipIdx part_nr =
      some (part_nr', rest) ∧ events = .read sector 0 :: rest := by
  have hsignature : ¬ (partition_table.of_bytes (b.sector 0)).signature ≠ 0xaa55 := fun h => h hread.2
  rw [read_partition_table, if_neg (Nat.not_le_of_lt hsector)] at hrun
  simp only [if_neg hsignature] at hrun
  obtain ⟨⟨nr, rest⟩, hparse, hrun⟩ := Option.bind_eq_some_iff.mp hrun
  obtain ⟨rfl, rfl⟩ := Prod.mk.inj (Option.some.inj hrun)
  exact ⟨rest, hparse, rfl⟩

/-- The extended partitions of sector 0 are followed. -/
theorem read_partition_table_follows (hread : Readable b 0) {e : partition_table_entry}
    (he : e ∈ (table_of b 0).partitions) (hempty : e.is_empty = false) (hextended : e.is_extended = true)
    {n part_nr part_nr' : Nat} {events : List Event}
    (hrun : read_partition_table (n + 1) b 0 0 part_nr = some (part_nr', events)) :
    ∃ nr nr' inner, read_partition_table n b e.offset e.offset nr = some (nr', inner) ∧
      ∀ event ∈ inner, event ∈ events := by
  obtain ⟨rest, hparse, rfl⟩ := read_partition_table_readable hread hread.1 hrun
  obtain ⟨i, hi⟩ := List.mem_iff_getElem?.mp he
  have hmem : (e, i) ∈ (table_of b 0).partitions.zipIdx := List.mem_zipIdx_iff_getElem?.mpr hi
  obtain ⟨nr, nr', inner, hinner, hevents⟩ := parse_partitions_follows hempty hextended hmem hparse
  exact ⟨nr, nr', inner, hinner, fun event hevent => List.mem_cons_of_mem _ (hevents event hevent)⟩

/-- An extended partition at sector 0 leads nowhere else, for ever. -/
theorem read_partition_table_endless (hread : Readable b 0) {e : partition_table_entry}
    (he : e ∈ (table_of b 0).partitions) (hempty : e.is_empty = false) (hextended : e.is_extended = true)
    (hoffset : e.offset = 0) (n : Nat) : ∀ part_nr, read_partition_table n b 0 0 part_nr = none := by
  induction n with
  | zero => exact fun _ => rfl
  | succ n ih =>
    intro part_nr
    rw [Option.eq_none_iff_forall_ne_some]
    rintro ⟨part_nr', events⟩ hrun
    obtain ⟨nr, nr', inner, hinner, -⟩ := read_partition_table_follows hread he hempty hextended hrun
    rw [hoffset, ih nr] at hinner
    contradiction

/-- A scan that ends and reads every table from its own sector meets no extended partition. -/
theorem noExtended_of_own_sector {n : Nat} {events : List Event} (hscan : partition_scan n b = some events)
    (hown : ∀ table sector, Event.read table sector ∈ events → sector = table) : NoExtended b := by
  intro hread e he hempty hextended
  by_contra hinside
  have hinside : e.offset < b.size := Nat.lt_of_not_le hinside
  obtain ⟨⟨part_nr, found⟩, hrun, hscan⟩ := Option.bind_eq_some_iff.mp hscan
  have hevents : ∀ event ∈ found, event ∈ events := by
    intro event hevent
    dsimp only at hscan
    split_ifs at hscan
    · rw [← Option.some.inj hscan]
      exact List.mem_append_left _ hevent
    · rwa [← Option.some.inj hscan]
  cases n with
  | zero => contradiction
  | succ n =>
    obtain ⟨nr, nr', inner, hinner, hfound⟩ := read_partition_table_follows hread he hempty hextended hrun
    obtain hoffset | hoffset := eq_or_ne e.offset 0
    · rw [hoffset, read_partition_table_endless hread he hempty hextended hoffset n] at hinner
      contradiction
    · cases n with
      | zero => contradiction
      | succ n =>
        obtain ⟨rest, -, rfl⟩ := read_partition_table_readable hread hinside hinner
        have hwrong := hown e.offset 0 (hevents _ (hfound _ List.mem_cons_self))
        exact hoffset hwrong.symm

end Recursion

section Scan

/-- The partitions among the entries of the table in sector 0. -/
def table_partitions : List (partition_table_entry × Nat) → Nat → List Found
  | [], _ => []
  | (e, i) :: entries, part_nr =>
    if e.is_empty || e.is_extended then table_partitions entries part_nr
    else ⟨0, i, e.type, e.offset, e.size, part_nr + 1⟩ :: table_partitions entries (part_nr + 1)

variable {b : block} {entries : List (partition_table_entry × Nat)}

theorem table_partitions_numbered (entries : List (partition_table_entry × Nat)) : ∀ part_nr,
    (table_partitions entries part_nr).map (·.part_nr) =
      List.range' (part_nr + 1) (table_partitions entries part_nr).length := by
  induction entries with
  | nil => exact fun _ => rfl
  | cons entry entries ih =>
    obtain ⟨e, i⟩ := entry
    intro part_nr
    rw [table_partitions]
    split_ifs
    · exact ih part_nr
    · rw [List.map_cons, List.length_cons, List.range'_succ, ih (part_nr + 1)]

theorem table_partitions_places (entries : List (partition_table_entry × Nat)) : ∀ part_nr,
    ((table_partitions entries part_nr).map fun f => (f.table, f.index)).Sublist
      (entries.map fun entry => (0, entry.2)) := by
  induction entries with
  | nil => exact fun _ => List.Sublist.slnil
  | cons entry entries ih =>
    obtain ⟨e, i⟩ := entry
    intro part_nr
    rw [table_partitions]
    split_ifs
    · exact (ih part_nr).cons _
    · exact (ih (part_nr + 1)).cons_cons _

theorem mem_table_partitions (entries : List (partition_table_entry × Nat)) (f : Found) : ∀ part_nr,
    (∃ g ∈ table_partitions entries part_nr, g = { f with part_nr := g.part_nr }) ↔
      ∃ e, (e, f.index) ∈ entries ∧ e.is_empty = false ∧ e.is_extended = false ∧ f.table = 0 ∧ f.type = e.type ∧
        f.start = e.offset ∧ f.size = e.size := by
  induction entries with
  | nil => simp [table_partitions]
  | cons entry entries ih =>
    obtain ⟨e, i⟩ := entry
    intro part_nr
    rw [table_partitions]
    split_ifs with hskip
    · rw [ih part_nr]
      constructor
      · rintro ⟨e', hmem, hrest⟩
        exact ⟨e', List.mem_cons_of_mem _ hmem, hrest⟩
      · rintro ⟨e', hmem, hempty, hextended, hrest⟩
        obtain heq | hmem := List.mem_cons.mp hmem
        · obtain ⟨rfl, -⟩ := Prod.mk.inj heq
          simp [hempty, hextended] at hskip
        · exact ⟨e', hmem, hempty, hextended, hrest⟩
    · simp only [Bool.or_eq_true, not_or, Bool.not_eq_true] at hskip
      constructor
      · rintro ⟨g, hmem, hg⟩
        obtain rfl | hmem := List.mem_cons.mp hmem
        · obtain ⟨htable, hindex, htype, hstart, hsize, -⟩ := Found.mk.inj hg
          exact ⟨e, hindex ▸ List.mem_cons_self, hskip.1, hskip.2, htable.symm, htype.symm,
            hstart.symm, hsize.symm⟩
        · obtain ⟨e', hmem', hrest⟩ := (ih (part_nr + 1)).mp ⟨g, hmem, hg⟩
          exact ⟨e', List.mem_cons_of_mem _ hmem', hrest⟩
      · rintro ⟨e', hmem, hempty, hextended, htable, htype, hstart, hsize⟩
        obtain heq | hmem := List.mem_cons.mp hmem
        · obtain ⟨rfl, rfl⟩ := Prod.mk.inj heq
          refine ⟨_, List.mem_cons_self, ?_⟩
          rw [← htable, ← htype, ← hstart, ← hsize]
        · obtain ⟨g, hmem', hg⟩ := (ih (part_nr + 1)).mpr ⟨e', hmem, hempty, hextended, htable, htype,
            hstart, hsize⟩
          exact ⟨g, List.mem_cons_of_mem _ hmem', hg⟩

theorem founds_append (events events' : List Event) : founds (events ++ events') = founds events ++
    founds events' :=
  List.filterMap_append

theorem registrations_append (events events' : List Event) :
    registrations (events ++ events') = registrations events ++ registrations events' :=
  List.filterMap_append

theorem found_partition_registrations (b : block) {f : Found} (hstart : f.start < 2 ^ 32)
    (hsize : f.size < 2 ^ 32) :
    registrations (found_partition b f) = if Inside b f then [registered b f] else [] := by
  have hdevice := b.size_lt
  rw [found_partition]
  by_cases hinside : Inside b f
  · obtain ⟨hpast, hend⟩ := hinside
    have hsum : (f.start + f.size) % 2 ^ 32 = f.start + f.size := Nat.mod_eq_of_lt (by omega)
    rw [if_neg (by omega), hsum, if_neg (by omega), if_pos ⟨hpast, hend⟩]
    rfl
  · have hout : b.size ≤ f.start ∨ b.size < f.start + f.size := by
      by_contra hnot
      exact hinside ⟨by omega, by omega⟩
    rw [if_neg hinside]
    split_ifs with hpast hend
    · rfl
    · rfl
    · exfalso
      omega

theorem found_partition_founds (b : block) (f : Found) : founds (found_partition b f) = [] := by
  rw [found_partition]
  split_ifs <;> rfl

theorem found_partition_reads (b : block) (f : Found) (table sector : Nat) :
    Event.read table sector ∉ found_partition b f := by
  rw [found_partition]
  split_ifs <;> simp

/-- The loop over a table of sector 0 where other tables give messages only. -/
theorem parse_partitions_run {read_table : Nat → Nat → Nat → Option (Nat × List Event)}
    (hbytes : ∀ entry ∈ entries, entry.1.offset < 2 ^ 32 ∧ entry.1.size < 2 ^ 32)
    (hread : ∀ entry ∈ entries, entry.1.is_empty = false → entry.1.is_extended = true → ∀ part_nr,
      ∃ text, read_table entry.1.offset entry.1.offset part_nr = some (part_nr, [.message text])) : ∀ part_nr,
    ∃ events, parse_partitions read_table b 0 0 entries part_nr =
        some (part_nr + (table_partitions entries part_nr).length, events) ∧
      founds events = table_partitions entries part_nr ∧
      registrations events = ((table_partitions entries part_nr).filter (Inside b)).map (registered b) ∧
      ∀ table sector, Event.read table sector ∉ events := by
  induction entries with
  | nil => exact fun part_nr => ⟨[], rfl, rfl, rfl, fun _ _ h => absurd h List.not_mem_nil⟩
  | cons entry entries ih =>
    intro part_nr
    have ih := ih (fun entry h => hbytes entry (List.mem_cons_of_mem _ h))
      (fun entry h => hread entry (List.mem_cons_of_mem _ h))
    obtain ⟨e, i⟩ := entry
    obtain ⟨hoffset, hsize⟩ := hbytes (e, i) List.mem_cons_self
    rw [parse_partitions, table_partitions]
    by_cases hempty : e.is_empty = true
    · simpa [hempty] using ih part_nr
    by_cases hextended : e.is_extended = true
    · obtain ⟨text, htable⟩ := hread (e, i) List.mem_cons_self (by simpa using hempty) hextended part_nr
      obtain ⟨events, hrest, hfounds, hregistered, hreads⟩ := ih part_nr
      have hnext : next_table 0 0 e.offset = (e.offset, e.offset) := rfl
      refine ⟨extended_message b 0 :: [.message text] ++ events, ?_, ?_, ?_, ?_⟩
      · simp [hempty, hextended, hnext, htable, hrest]
      · rw [hextended, Bool.or_true, if_pos rfl]
        exact hfounds
      · rw [hextended, Bool.or_true, if_pos rfl]
        exact hregistered
      · intro table sector hmem
        simp only [extended_message, List.cons_append, List.nil_append, List.mem_cons, reduceCtorEq,
          false_or] at hmem
        exact hreads table sector hmem
    · have hskip : (e.is_empty || e.is_extended) = false := by simp [hempty, hextended]
      obtain ⟨events, hrest, hfounds, hregistered, hreads⟩ := ih (part_nr + 1)
      have hstart : (e.offset + 0) % 2 ^ 32 = e.offset := Nat.mod_eq_of_lt hoffset
      have hregister := found_partition_registrations b
        (f := ⟨0, i, e.type, e.offset, e.size, part_nr + 1⟩) hoffset hsize
      refine ⟨.found ⟨0, i, e.type, e.offset, e.size, part_nr + 1⟩ ::
        (found_partition b ⟨0, i, e.type, e.offset, e.size, part_nr + 1⟩ ++ events), ?_, ?_, ?_, ?_⟩
      · rw [if_neg hempty, if_neg hextended, hstart, hrest, hskip]
        simp only [Bool.false_eq_true, if_false, List.length_cons, Option.bind_eq_bind, Option.bind_some,
          Option.pure_def, List.cons_append]
        rw [Nat.add_assoc part_nr 1, Nat.add_comm 1]
      · have hnone := found_partition_founds b ⟨0, i, e.type, e.offset, e.size, part_nr + 1⟩
        rw [hskip, ← hfounds]
        exact congrArg (_ :: ·) ((founds_append _ _).trans (by rw [hnone, List.nil_append]))
      · rw [hskip]
        refine (registrations_append _ _).trans ?_
        rw [hregister, hregistered]
        by_cases hinside : Inside b ⟨0, i, e.type, e.offset, e.size, part_nr + 1⟩
        · simp [hinside]
        · simp [hinside]
      · intro table sector hmem
        obtain h | hmem := List.mem_cons.mp hmem
        · contradiction
        · obtain hmem | hmem := List.mem_append.mp hmem
          · exact found_partition_reads b _ table sector hmem
          · exact hreads table sector hmem

theorem table_of_lt {sector : Nat} {e : partition_table_entry} (he : e ∈ (table_of b sector).partitions) :
    e.offset < 2 ^ 32 ∧ e.size < 2 ^ 32 := by
  obtain ⟨i, -, rfl⟩ := List.mem_map.mp he
  exact ⟨word_lt _ _, word_lt _ _⟩

/-- Only the table in sector 0 is reached where it has no extended partition inside the device. -/
theorem reachable_noExtended (hnone : NoExtended b) {sector primary : Nat}
    (hreach : Reachable b sector primary) :
    sector = 0 ∨ b.size ≤ sector := by
  induction hreach with
  | first => exact Or.inl rfl
  | primary hread he hempty hextended => exact Or.inr (hnone hread _ he hempty hextended)
  | logical _ hsector hread _ _ _ ih =>
    obtain h | h := ih
    · exact absurd h hsector
    · exact absurd hread.1 (Nat.not_lt_of_le h)

theorem described_noExtended (hnone : NoExtended b) (f : Found) : Described b f ↔
    Readable b 0 ∧ ∃ e, (e, f.index) ∈ (table_of b 0).partitions.zipIdx ∧ e.is_empty = false ∧
      e.is_extended = false ∧ f.table = 0 ∧ f.type = e.type ∧ f.start = e.offset ∧ f.size = e.size := by
  constructor
  · rintro ⟨primary, e, hreach, hread, hentry, hempty, hextended, htype, hstart, hsize⟩
    obtain htable | hpast := reachable_noExtended hnone hreach
    · rw [htable] at hread hentry hstart
      exact ⟨hread, e, List.mem_zipIdx_iff_getElem?.mpr hentry, hempty, hextended, htable, htype,
        hstart.trans (Nat.zero_add _), hsize⟩
    · exact absurd hread.1 (Nat.not_lt_of_le hpast)
  · rintro ⟨hread, e, hmem, hempty, hextended, htable, htype, hstart, hsize⟩
    have hreach : Reachable b f.table 0 := htable.symm ▸ Reachable.first
    refine ⟨0, e, hreach, htable.symm ▸ hread, ?_, hempty, hextended, htype, ?_, hsize⟩
    · rw [htable]
      exact List.mem_zipIdx_iff_getElem?.mp hmem
    · rw [hstart, htable, Nat.zero_add]

theorem Correct.append_message {events : List Event} (h : Correct b events) (text : String) :
    Correct b (events ++ [.message text]) := by
  have hfounds : founds (events ++ [.message text]) = founds events :=
    (founds_append _ _).trans (List.append_nil _)
  have hregistered : registrations (events ++ [.message text]) = registrations events :=
    (registrations_append _ _).trans (List.append_nil _)
  refine ⟨?_, ?_, ?_, ?_, ?_⟩
  · intro table sector hmem
    obtain hmem | hmem := List.mem_append.mp hmem
    · exact h.own_sector table sector hmem
    · simp at hmem
  · rw [hfounds]
    exact h.described
  · rw [hfounds]
    exact h.once
  · rw [hfounds]
    exact h.numbered
  · rw [hfounds, hregistered]
    exact h.registered

/-- Without a table in sector 0, a trace without partitions is correct. -/
theorem correct_of_not_readable (hread : ¬ Readable b 0) {events : List Event} (hfounds : founds events = [])
    (hregistered : registrations events = [])
    (hown : ∀ table sector, Event.read table sector ∈ events → sector = table) : Correct b events := by
  have hnone : NoExtended b := fun h => absurd h hread
  refine ⟨hown, ?_, ?_, ?_, ?_⟩
  · intro f
    rw [described_noExtended hnone, hfounds]
    simp [hread]
  · simp [hfounds]
  · simp [hfounds]
  · simp [hfounds, hregistered]

/-- Reading the table in sector 0 without extended partitions inside the device. -/
theorem read_partition_table_noExtended (hnone : NoExtended b) :
    ∃ n part_nr events, read_partition_table n b 0 0 0 = some (part_nr, events) ∧ Correct b events := by
  by_cases hsize : b.size = 0
  · have hread : ¬ Readable b 0 := fun hread => absurd hread.1 (by omega)
    refine ⟨1, 0, _, if_pos (Nat.le_of_eq hsize), correct_of_not_readable hread rfl rfl ?_⟩
    simp
  have hinside : ¬ b.size ≤ 0 := by omega
  by_cases hsignature : (partition_table.of_bytes (b.sector 0)).signature = 0xaa55
  · have hread : Readable b 0 := ⟨by omega, hsignature⟩
    obtain ⟨events, hparse, hfounds, hregistered, hreads⟩ :=
      @parse_partitions_run b (table_of b 0).partitions.zipIdx (read_partition_table 1 b)
        (fun entry h => table_of_lt (List.fst_mem_of_mem_zipIdx h))
        (fun entry h hempty hextended part_nr => by
          have hpast := hnone hread entry.1 (List.fst_mem_of_mem_zipIdx h) hempty hextended
          exact ⟨_, if_pos hpast⟩) 0
    have hrun : read_partition_table 2 b 0 0 0 =
        some (0 + (table_partitions (table_of b 0).partitions.zipIdx 0).length, .read 0 0 :: events) := by
      have hpt : partition_table.of_bytes (b.sector 0) = table_of b 0 := rfl
      rw [read_partition_table, if_neg hinside]
      simp only [ne_eq, hsignature, not_true_eq_false, if_false]
      rw [hpt, hparse]
      rfl
    refine ⟨2, _, _, hrun, ?_⟩
    have hfounds' : founds (.read 0 0 :: events) = table_partitions
        (table_of b 0).partitions.zipIdx 0 := hfounds
    refine ⟨?_, ?_, ?_, ?_, ?_⟩
    · intro table sector hmem
      obtain heq | hmem := List.mem_cons.mp hmem
      · obtain ⟨rfl, rfl⟩ := Event.read.inj heq
        rfl
      · exact absurd hmem (hreads table sector)
    · intro f
      rw [described_noExtended hnone, hfounds', mem_table_partitions]
      simp only [hread, true_and]
    · rw [hfounds']
      refine (table_partitions_places _ 0).nodup ?_
      have hindices : ((table_of b 0).partitions.zipIdx.map Prod.snd).Nodup := by
        rw [List.zipIdx_map_snd]
        exact List.nodup_range'
      have hplaces : (table_of b 0).partitions.zipIdx.map (fun entry => (0, entry.2)) =
          ((table_of b 0).partitions.zipIdx.map Prod.snd).map fun i => (0, i) := by
        rw [List.map_map]
        rfl
      rw [hplaces]
      exact hindices.map fun a b hab => (Prod.mk.inj hab).2
    · rw [hfounds']
      exact table_partitions_numbered _ 0
    · rw [hfounds']
      exact hregistered
  · have hread : ¬ Readable b 0 := fun hread => hsignature hread.2
    have hrun : read_partition_table 1 b 0 0 0 =
        some (0, [.read 0 0, .message s!"{b.name}: Invalid partition table signature\n"]) := by
      rw [read_partition_table, if_neg hinside]
      simp only [ne_eq, hsignature, not_false_eq_true, if_true]
    refine ⟨1, _, _, hrun, correct_of_not_readable hread rfl rfl ?_⟩
    intro table sector hmem
    simp only [List.mem_cons, Event.read.injEq, reduceCtorEq, List.not_mem_nil, or_false] at hmem
    rw [hmem.1, hmem.2]

/-- A scan ends, reads every table from its own sector and registers what it should
exactly on a device without extended partitions inside it. -/
theorem partition_scan_correct_iff (b : block) :
    (∃ n events, partition_scan n b = some events ∧ Correct b events) ↔ NoExtended b := by
  constructor
  · rintro ⟨n, events, hscan, hcorrect⟩
    exact noExtended_of_own_sector hscan hcorrect.own_sector
  · intro hnone
    obtain ⟨n, part_nr, events, hrun, hcorrect⟩ := read_partition_table_noExtended hnone
    by_cases hnr : part_nr = 0
    · refine ⟨n, _, ?_, hcorrect.append_message s!"{b.name}: Device contains no partitions\n"⟩
      rw [partition_scan, hrun]
      exact if_pos hnr
    · refine ⟨n, events, ?_, hcorrect⟩
      rw [partition_scan, hrun]
      exact if_neg hnr

/-- A device of ten sectors; the table in sector 0 has an extended partition at sector 9. -/
def extended_device : block where
  name := "hda"
  size := 10
  size_lt := by decide
  sector := fun _ i =>
    if i = 450 then 5#8 else if i = 454 then 9#8 else if i = 458 then 1#8
    else if i = 510 then 0x55#8 else if i = 511 then 0xaa#8 else 0#8

/-- The table of the extended partition is read from sector 0. -/
theorem extended_table_not_read :
    ¬ ∀ b : block, ∃ n events, partition_scan n b = some events ∧ Correct b events := by
  intro hall
  obtain ⟨n, events, hscan, hcorrect⟩ := hall extended_device
  have hnone := noExtended_of_own_sector hscan hcorrect.own_sector
  have hread : Readable extended_device 0 := ⟨by decide, by decide⟩
  have hpast := hnone hread ⟨5, 9, 1⟩ (by decide) (by decide) (by decide)
  exact absurd hpast (by decide)

end Scan

end pintos.devices
