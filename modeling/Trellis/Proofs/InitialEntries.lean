import Trellis.Proofs.InPlace
import Trellis.Proofs.Refinement
import Trellis.Proofs.Soundness

/-!
# Initial distributions by entries

What a list of entries makes of the initial distribution. Entries are judged one
by one in their order, and then by their total (`initialFault?`, `setInitial_eq`);
but the distribution only depends on the last entry of each state (`effective`,
`setInitial_perm`). Only an excess over one is refused while there is a state
without an entry, and such states take up what is missing (`StartsAs`), so that
finishing never objects to the total (`nearOne_completed`).
`setInitial_by_entries` states all of this.
-/

namespace Trellis.Builder

variable {S E K : Type} {Q : Alphabet S} {A : Alphabet E} [Field K] [LinearOrder K]
  [DecidableEq S]

/-! ### What entries say -/

/-- Why an entry is refused: first for its state, then for its value. -/
def entryFault? (Q : Alphabet S) (entry : S × K) : Option (Error S E K) :=
  if entry.1 ∉ Q.symbols then some (.unknownState .setInitial entry.1)
  else if 0 ≤ entry.2 ∧ entry.2 ≤ 1 then none
  else some (.invalidProbability .setInitial entry.2 .outsideUnitInterval)

/-- What a list of entries gives to a state: the last entry of the state counts. -/
def effective (entries : List (S × K)) (k : Q.Code) : Option K :=
  SparseBuilder.lastGiven entries (Q.symbol k)

/-- The states that have no entry. -/
def omitted (Q : Alphabet S) (entries : List (S × K)) : Finset Q.Code :=
  {k | (effective entries k).isNone = true}

/-- The sum of what the entries give. -/
def effectiveTotal (Q : Alphabet S) (entries : List (S × K)) : K :=
  ∑ k : Q.Code, (effective entries k).getD 0

/-- What is wrong with the total of the entries. States without an entry make up for
what is missing, but not for an excess. -/
def totalFault? (Q : Alphabet S) (entries : List (S × K)) : Option (ProbabilityFault S) :=
  if 1 + tolerance < effectiveTotal Q entries then some .initialAboveOne
  else if omitted Q entries = ∅ ∧ tolerance < |effectiveTotal Q entries - 1| then
    some .initialIncomplete
  else none

/-- Why a list of entries is refused: for the first entry with a fault, or for its
total. -/
def initialFault? (Q : Alphabet S) (entries : List (S × K)) : Option (Error S E K) :=
  (entries.findSome? (entryFault? Q)).or <|
    (totalFault? Q entries).map (.invalidProbability .setInitial (effectiveTotal Q entries))

/-- The states with an entry start with what it gives, the others with equal parts
of what is left of one. -/
structure StartsAs (entries : List (S × K)) (row : Vector K Q.size) : Prop where
  given : ∀ k p, effective entries k = some p → row.get k = p
  omitted : ∀ k, effective entries k = none →
    row.get k = max (1 - effectiveTotal Q entries) 0 / ((omitted Q entries).card : K)
  sum : (Builder.omitted Q entries).Nonempty →
    ∑ k, row.get k = max (effectiveTotal Q entries) 1

/-! ### Reading -/

/-- Entries are refused one by one. -/
theorem requireEntries_eq (entries : List (S × K)) :
    (SparseBuilder.requireEntries Q entries : Except (Error S E K) Unit) =
      match entries.findSome? (entryFault? Q) with
      | some e => .error e
      | none => .ok () := by
  induction entries with
  | nil => rfl
  | cons entry rest ih =>
    obtain ⟨state, p⟩ := entry
    rw [List.findSome?_cons, SparseBuilder.requireEntries, ih, SparseBuilder.requireState,
      SparseBuilder.requireProbability, require, require, entryFault?]
    by_cases known : state ∈ Q.symbols
    · by_cases unit : 0 ≤ p ∧ p ≤ 1
      · simp [known, unit, bind, Except.bind]
      · simp [known, unit, bind, Except.bind]
    · simp [known, bind, Except.bind]

theorem readEntries_eq (entries : List (S × K)) :
    (readEntries (.replicate Q.size none) entries : Except (Error S E K) _) =
      match entries.findSome? (entryFault? Q) with
      | some e => .error e
      | none => .ok (.ofFn (effective entries)) := by
  have lockstep := Represents.readEntries (E := E) (.replicate Q.size none) entries
  rw [requireEntries_eq] at lockstep
  generalize (readEntries (.replicate Q.size none) entries : Except (Error S E K) _) = read
    at lockstep
  cases faulty : entries.findSome? (entryFault? (E := E) Q) with
  | some e =>
    rw [faulty] at lockstep
    cases lockstep
    rfl
  | none =>
    rw [faulty] at lockstep
    cases lockstep with
    | returned values =>
      refine congrArg Except.ok (Row.ext fun k => ?_)
      rw [values, Row.get_replicate, Option.or_none, Row.get_ofFn, effective]

/-! ### Totals -/

section Totals

variable (entries : List (S × K))

theorem givenTotal_effective :
    givenTotal (.ofFn (effective entries) : Given Q K) = effectiveTotal Q entries := by
  have sum := sum_map_filterMap_id (K := K) id (List.ofFn (effective (Q := Q) entries))
  rw [List.map_id, List.map_ofFn, List.sum_ofFn] at sum
  rw [givenTotal, totalFromFirst_eq_total zero_add, total_eq_sum, Vector.toList_ofFn, sum]
  refine Finset.sum_congr rfl fun k _ => ?_
  cases given : effective entries k with
  | none => simp [given]
  | some p => simp [given]

omit [Field K] [LinearOrder K] in
theorem missing_effective :
    missing (.ofFn (effective entries) : Given Q K) = (omitted Q entries).card := by
  rw [missing, Vector.toList_ofFn, List.ofFn_eq_map, List.countP_map, omitted, ← countP_finRange]
  rfl

/-- What a state starts with: what it is given, or its part of the rest. -/
theorem get_completed_effective (k : Q.Code) :
    (completed (.ofFn (effective entries) : Given Q K)).get k =
      (effective entries k).getD
        (max (1 - effectiveTotal Q entries) 0 / ((omitted Q entries).card : K)) := by
  rw [completed, Row.get_map, Row.get_ofFn, remainingShare, givenTotal_effective,
    missing_effective, max_def]

theorem sum_completed_effective :
    ∑ k, (completed (.ofFn (effective entries) : Given Q K)).get k =
      effectiveTotal Q entries + (omitted Q entries).card *
        (max (1 - effectiveTotal Q entries) 0 / ((omitted Q entries).card : K)) := by
  have parts : ∀ k, (completed (.ofFn (effective entries) : Given Q K)).get k =
      (effective entries k).getD 0 + if (effective entries k).isNone = true then
        max (1 - effectiveTotal Q entries) 0 / ((omitted Q entries).card : K) else 0 := by
    intro k
    rw [get_completed_effective]
    cases effective entries k with
    | none => simp
    | some p => simp
  simp only [parts, Finset.sum_add_distrib, ← Finset.sum_filter, Finset.sum_const, nsmul_eq_mul]
  rfl

variable [IsStrictOrderedRing K]

/-- Where states are omitted, they take up what is left of one. -/
theorem sum_completed_of_omitted (open_ended : (omitted Q entries).Nonempty) :
    ∑ k, (completed (.ofFn (effective entries) : Given Q K)).get k =
      max (effectiveTotal Q entries) 1 := by
  have occupied : ((omitted Q entries).card : K) ≠ 0 := by
    exact_mod_cast open_ended.card_ne_zero
  rw [sum_completed_effective, ← mul_div_assoc, mul_div_cancel_left₀ _ occupied,
    ← max_add_add_left, add_sub_cancel, add_zero, max_comm]

/-- The distribution of a list that is not refused is near one: one tolerance bounds
its excess, and it falls short only if no state is omitted. -/
theorem nearOne_completed (accepted : totalFault? Q entries = none) :
    NearOne (∑ k, (completed (.ofFn (effective entries) : Given Q K)).get k) := by
  unfold totalFault? at accepted
  split at accepted
  · cases accepted
  rename_i moderate
  split at accepted
  · cases accepted
  rename_i settled
  by_cases complete : omitted Q entries = ∅
  · rw [sum_completed_effective, complete, Finset.card_empty, Nat.cast_zero, zero_mul, add_zero,
      nearOne_iff]
    exact not_lt.mp fun far => settled ⟨complete, far⟩
  · rw [sum_completed_of_omitted entries (Finset.nonempty_iff_ne_empty.mpr complete)]
    have excess : effectiveTotal Q entries ≤ 1 + tolerance := not_lt.mp moderate
    have slack : (1 : K) ≤ 1 + tolerance := le_add_of_nonneg_right tolerance_pos.le
    exact ⟨sub_le_iff_le_add'.mpr (max_le excess slack),
      (sub_nonpos.mpr (le_max_right _ _)).trans tolerance_pos.le⟩

end Totals

/-! ### Setting -/

section Setting

variable [IsStrictOrderedRing K]

/-- A list of entries is refused, or makes an initial distribution; nothing else of
the builder has a part in it. -/
theorem setInitial_eq (b : Builder Q A K) (entries : List (S × K)) :
    (b.setInitial entries : Except (Error S E K) _) =
      match initialFault? Q entries with
      | some e => .error e
      | none => .ok { b with initial := some (completed (.ofFn (effective entries))) } := by
  rw [setInitial, readEntries_eq, initialFault?, totalFault?]
  cases entries.findSome? (entryFault? Q) with
  | some e => rfl
  | none =>
    simp only [bind, Except.bind, givenTotal_effective, missing_effective, Finset.card_eq_zero,
      nearOne_iff, not_le, Option.none_or]
    split
    · rfl
    · split
      · rfl
      · rfl

theorem startsAs_completed (entries : List (S × K)) :
    StartsAs entries (completed (.ofFn (effective entries)) : Vector K Q.size) where
  given k p given := by rw [get_completed_effective, given, Option.getD_some]
  omitted k missing := by rw [get_completed_effective, missing, Option.getD_none]
  sum := sum_completed_of_omitted entries

omit [IsStrictOrderedRing K] in
/-- The same entries in an order that leaves every state its last one are refused, if
none of them has a fault, exactly as they were, or make the same distribution. -/
theorem setInitial_perm (b : Builder Q A K) {entries other : List (S × K)}
    (perm : other.Perm entries)
    (same : ∀ state, SparseBuilder.lastGiven other state = SparseBuilder.lastGiven entries state)
    (faultless : entries.findSome? (entryFault? (E := E) Q) = none) :
    (b.setInitial other : Except (Error S E K) _) = b.setInitial entries := by
  have faultless' : other.findSome? (entryFault? (E := E) Q) = none := by
    rw [List.findSome?_eq_none_iff] at faultless ⊢
    exact fun entry mem => faultless entry (perm.mem_iff.mp mem)
  have values : (effective other : Q.Code → Option K) = effective entries :=
    funext fun k => same (Q.symbol k)
  rw [setInitial, setInitial, readEntries_eq, readEntries_eq, faultless, faultless', values]

/-- **Initial distributions by entries.** A list of entries is refused for the first
of them with a fault, or for a total that exceeds one or, with an entry for every
state, is not one; tables that are edited in place are then left as they were.
Otherwise every state with an entry starts with what its last entry gives, and the
others with equal parts of the rest. Of the order of the entries only the last one
of each state matters, and finishing does not object to the distribution. -/
theorem setInitial_by_entries (b : Builder Q A K) (entries : List (S × K)) :
    (∀ e, b.setInitial entries = .error e ↔ initialFault? Q entries = some e) ∧
    (∀ t : Tables Q A K, t.builder = b → ∀ e s, (Tables.setInitial entries).run t = .error e s →
      s = t ∧ b.setInitial entries = .error e) ∧
    ∀ c, b.setInitial entries = .ok c →
      (∃ row, c = { b with initial := some row } ∧ StartsAs entries row) ∧
      (∀ other : List (S × K), other.Perm entries →
        (∀ state, SparseBuilder.lastGiven other state = SparseBuilder.lastGiven entries state) →
        b.setInitial other = .ok c) ∧
      ∀ operation value,
        c.build ≠ .error (.invalidProbability operation value .initialTotal) := by
  refine ⟨fun e => ?_, ?_, fun c set => ?_⟩
  · rw [setInitial_eq]
    cases initialFault? Q entries with
    | none => simp
    | some fault => simp
  · rintro t rfl e s failed
    exact (t.follows_setInitial entries).eq_of_error failed
  · have accepted := set
    rw [setInitial_eq] at accepted
    cases refused : initialFault? (E := E) Q entries with
    | some e =>
      rw [refused] at accepted
      cases accepted
    | none =>
      rw [refused] at accepted
      cases accepted
      obtain ⟨faultless, total⟩ := Option.or_eq_none_iff.mp refused
      refine ⟨⟨_, rfl, startsAs_completed entries⟩, fun other perm same => ?_, ?_⟩
      · rw [b.setInitial_perm perm same faultless, set]
      · exact build_ne_initialTotal (nearOne_completed entries (Option.map_eq_none_iff.mp total))

/-- An unknown state is reported before a later value that is no probability; a
repeated state has its last entry, and the other one makes up for the rest. -/
theorem setInitial_machine :
    Machine.builder.setInitial [(1, 1), (7, 1 / 2), (2, 5)] =
        .error (.unknownState .setInitial 7) ∧
      Machine.builder.setInitial [(1, 1), (2, 1 / 4), (1, 1 / 4)] =
        .error (.invalidProbability .setInitial (1 / 2) .initialIncomplete) ∧
      ∃ c row, Machine.builder.setInitial [(1, 1), (1, 1 / 4)] = .ok c ∧ c.initial = some row ∧
        row.get Machine.working = 1 / 4 ∧ row.get Machine.failed = 3 / 4 := by
  obtain ⟨unknown, -, -⟩ := setInitial_by_entries Machine.builder [(1, 1), (7, 1 / 2), (2, 5)]
  obtain ⟨short, -, -⟩ :=
    setInitial_by_entries Machine.builder [(1, 1), (2, 1 / 4), (1, 1 / 4)]
  obtain ⟨failed, -, accepted⟩ := setInitial_by_entries Machine.builder [(1, 1), (1, 1 / 4)]
  refine ⟨(unknown _).mpr (by decide +kernel), (short _).mpr (by decide +kernel), ?_⟩
  cases set : Machine.builder.setInitial [(1, 1), (1, 1 / 4)] with
  | error e =>
    have faultless : initialFault? (E := Nat) Machine.states [(1, (1 : ℚ)), (1, 1 / 4)] = none := by
      decide +kernel
    cases faultless.symm.trans ((failed e).mp set)
  | ok c =>
    obtain ⟨⟨row, rfl, starts⟩, -⟩ := accepted c set
    refine ⟨_, row, rfl, rfl, starts.given _ _ (by decide +kernel), ?_⟩
    rw [starts.omitted _ (by decide +kernel)]
    decide +kernel

end Setting

end Trellis.Builder
