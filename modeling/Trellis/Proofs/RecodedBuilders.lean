import Trellis.Proofs.Finishing
import Trellis.Proofs.Recoding
import Trellis.Proofs.Transcripts

/-!
# Builders by other codes

Every definite edit does the same to a builder by other codes (`apply_recode`): the
same edits are refused for the same reasons, and what is left is the same builder by
those codes (`run_recode`). So finishing succeeds for both or for none
(`build_recode`).
-/

namespace Trellis

variable {S E α : Type} {Q Q' : Alphabet S} {A A' : Alphabet E}

/-! ### Known states and symbols -/

namespace Recoding

theorem stateCode_eq [DecidableEq S] (q : Recoding Q Q') (operation : Operation) (state : S) :
    (Q'.stateCode operation state : Except (Error S E α) _) =
      q.code <$> Q.stateCode operation state := by
  rw [Alphabet.stateCode, Alphabet.stateCode, q.codeOf?_eq]
  cases Q.codeOf? state <;> rfl

theorem symbolCode_eq [DecidableEq E] (a : Recoding A A') (operation : Operation) (symbol : E) :
    (A'.symbolCode operation symbol : Except (Error S E α) _) =
      a.code <$> A.symbolCode operation symbol := by
  rw [Alphabet.symbolCode, Alphabet.symbolCode, a.codeOf?_eq]
  cases A.codeOf? symbol <;> rfl

theorem stateCodes_eq [DecidableEq S] (q : Recoding Q Q') (operation : Operation)
    (states : List S) : (Q'.stateCodes operation states : Except (Error S E α) _) =
      List.map q.code <$> Q.stateCodes operation states := by
  rw [Alphabet.stateCodes, Alphabet.stateCodes, q.encode_eq]
  cases Q.encode states <;> rfl

theorem symbolCodes_eq [DecidableEq E] (a : Recoding A A') (operation : Operation)
    (symbols : List E) : (A'.symbolCodes operation symbols : Except (Error S E α) _) =
      List.map a.code <$> A.symbolCodes operation symbols := by
  rw [Alphabet.symbolCodes, Alphabet.symbolCodes, a.encode_eq]
  cases A.encode symbols <;> rfl

end Recoding

/-! ### Parameters -/

namespace Parameters

variable (q : Recoding Q Q') (a : Recoding A A')

/-- The same parameters by other codes. -/
def recode (p : Parameters Q A α) : Parameters Q' A' α where
  transitions := p.transitions.recode q.code q.code
  emissions := p.emissions.recode q.code a.code

variable (p : Parameters Q A α) (k l : Q.Code) (x : A.Code)

@[simp] theorem transitions_recode :
    (p.recode q a).transitions.get (q.code k) (q.code l) = p.transitions.get k l :=
  p.transitions.get_recode q.code q.code k l

@[simp] theorem emissions_recode :
    (p.recode q a).emissions.get (q.code k) (a.code x) = p.emissions.get k x :=
  p.emissions.get_recode q.code a.code k x

variable {q a p} in
theorem eq_recode {r : Parameters Q' A' α}
    (transitions : ∀ k l, r.transitions.get (q.code k) (q.code l) = p.transitions.get k l)
    (emissions : ∀ k x, r.emissions.get (q.code k) (a.code x) = p.emissions.get k x) :
    r = p.recode q a := by
  obtain ⟨rt, re⟩ := r
  congr
  · exact Table.eq_recode transitions
  · exact Table.eq_recode emissions

@[simp] theorem allows_recode : (p.recode q a).allows (q.code k) (q.code l) = p.allows k l := by
  rw [allows, allows, transitions_recode]

@[simp] theorem transition_recode [Zero α] :
    (p.recode q a).transition (q.code k) (q.code l) = p.transition k l := by
  rw [transition, transition, transitions_recode]

@[simp] theorem emission_recode :
    (p.recode q a).emission (q.code k) (a.code x) = p.emission k x := by
  rw [emission, emission, emissions_recode]

theorem sum_transition_recode {K : Type} [Field K] (p : Parameters Q A K) (k : Q.Code) :
    ∑ l, (p.recode q a).transition (q.code k) l = ∑ l, p.transition k l := by
  rw [← q.code.sum_comp]
  simp only [transition_recode]

theorem sum_emission_recode {K : Type} [Field K] (p : Parameters Q A K) (k : Q.Code) :
    ∑ x, (p.recode q a).emission (q.code k) x = ∑ x, p.emission k x := by
  rw [← a.code.sum_comp]
  simp only [emission_recode]

theorem arc?_recode [DecidableEq S] (source target : S) :
    (p.recode q a).arc? source target = p.arc? source target := by
  simp only [arc?, q.codeOf?_eq]
  cases Q.codeOf? source with
  | none => rfl
  | some k =>
    cases Q.codeOf? target with
    | none => rfl
    | some l => exact p.transitions_recode q a k l

theorem emission?_recode [DecidableEq S] [DecidableEq E] (state : S) (symbol : E) :
    (p.recode q a).emission? state symbol = p.emission? state symbol := by
  simp only [emission?, q.codeOf?_eq, a.codeOf?_eq]
  cases Q.codeOf? state with
  | none => rfl
  | some k =>
    cases A.codeOf? symbol with
    | none => rfl
    | some x => exact congrArg some (p.emissions_recode q a k x)

/-- The entries of a group in another order. -/
theorem transitionGroup_recode :
    ((p.recode q a).transitionGroup (q.code k)).Perm (p.transitionGroup k) := by
  rw [transitionGroup, recode, Table.row_recode]
  exact (Row.toList_recode_perm q.code _).filterMap id

theorem emissionGroup_recode :
    ((p.recode q a).emissionGroup (q.code k)).Perm (p.emissionGroup k) := by
  rw [emissionGroup, recode, Table.row_recode]
  exact Row.toList_recode_perm a.code _

/-- What does not depend on the order of a group does not depend on the codes. -/
theorem mapGroups_recode {f : Group α → Entry α → Entry α}
    (unordered : ∀ g h : Group α, g.Perm h → f g = f h) :
    (p.recode q a).mapGroups f = (p.mapGroups f).recode q a := by
  refine eq_recode (fun k l => ?_) fun k x => ?_
  · simp [unordered _ _ (p.transitionGroup_recode q a k)]
  · simp [unordered _ _ (p.emissionGroup_recode q a k)]

theorem setArc_recode (e : Option (Entry α)) :
    (p.recode q a).setArc (q.code k) (q.code l) e = (p.setArc k l e).recode q a :=
  congrArg (Parameters.mk · _) (p.transitions.set_recode q.code q.code k l e)

theorem setEmission_recode (e : Entry α) :
    (p.recode q a).setEmission (q.code k) (a.code x) e = (p.setEmission k x e).recode q a :=
  congrArg (Parameters.mk _) (p.emissions.set_recode q.code a.code k x e)

theorem reweigh_recode (arcs : Table Q.size Q.size α) (emissions : Table Q.size A.size α) :
    (p.recode q a).reweigh (arcs.recode q.code q.code) (emissions.recode q.code a.code) =
      (p.reweigh arcs emissions).recode q a :=
  eq_recode (fun k l => by simp) fun k x => by simp

end Parameters

namespace Group

variable {K : Type} [Field K] [LinearOrder K] {g h : Group K}

theorem mass_perm (perm : g.Perm h) : g.mass = h.mass :=
  total_perm (perm.map Entry.probability)

theorem equalize_perm (perm : g.Perm h) : equalize g = equalize h := by
  funext e
  rw [equalize, equalize, perm.length_eq]

theorem fill_perm (perm : g.Perm h) : g.fill g.mass = h.fill h.mass := by
  funext e
  rw [fill, fill, mass_perm perm, equalize_perm perm]

end Group

/-! ### Builders -/

namespace Builder

variable (q : Recoding Q Q') (a : Recoding A A')

/-- The same builder by other codes. -/
def recode (b : Builder Q A α) : Builder Q' A' α where
  toParameters := b.toParameters.recode q a
  initial := b.initial.map (Row.recode q.code)

theorem toParameters_recode (b : Builder Q A α) :
    (b.recode q a).toParameters = b.toParameters.recode q a := rfl

theorem setArc_recode (b : Builder Q A α) (k l : Q.Code) (e : Option (Entry α)) :
    (b.recode q a).setArc (q.code k) (q.code l) e = (b.setArc k l e).recode q a :=
  ext (b.toParameters.setArc_recode q a k l e) rfl

theorem setEmissionEntry_recode (b : Builder Q A α) (k : Q.Code) (x : A.Code) (e : Entry α) :
    (b.recode q a).setEmissionEntry (q.code k) (a.code x) e =
      (b.setEmissionEntry k x e).recode q a :=
  ext (b.toParameters.setEmission_recode q a k x e) rfl

/-! ### Single entries -/

section Entries

theorem empty_recode [Zero α] [One α] :
    (empty : Builder Q' A' α) = (empty : Builder Q A α).recode q a :=
  ext (Parameters.eq_recode (fun k l => by simp [empty]) fun k x => by simp [empty]) rfl

variable [DecidableEq S] (b : Builder Q A α)

theorem knownArc_recode (operation : Operation) (source target : S) :
    ((b.recode q a).knownArc operation source target : Except (Error S E α) _) =
      Prod.map q.code (Prod.map q.code id) <$> b.knownArc operation source target := by
  simp only [knownArc, q.stateCode_eq, map_bind, bind_map_left]
  refine bind_congr fun k => bind_congr fun l => ?_
  simp only [recode, Parameters.transitions_recode]
  cases b.transitions.get k l <;> rfl

theorem destroy_recode (source target : S) :
    ((b.recode q a).destroy source target : Except (Error S E α) _) =
      recode q a <$> b.destroy source target := by
  simp only [destroy, knownArc_recode, map_bind, bind_map_left]
  refine bind_congr fun (k, l, _) => ?_
  exact congrArg Except.ok (b.setArc_recode q a k l none)

variable [Arithmetic α]

omit [DecidableEq S] in
theorem allowAll_recode : (b.recode q a).allowAll = b.allowAll.recode q a := by
  refine ext (Parameters.eq_recode (fun k l => ?_) fun k x => ?_) rfl
  · simp [allowAll]
  · exact b.emissions_recode q a k x

theorem allow_recode (source target : S) (p c : α) :
    ((b.recode q a).allow source target p c : Except (Error S E α) _) =
      recode q a <$> b.allow source target p c := by
  simp only [allow, q.stateCode_eq, map_bind, bind_map_left]
  refine bind_congr fun k => bind_congr fun l => bind_congr fun _ => bind_congr fun _ => ?_
  simp only [recode, Parameters.allows_recode]
  split
  · rfl
  · exact congrArg Except.ok (b.setArc_recode q a k l _)

theorem setTransition_recode (source target : S) (p : α) :
    ((b.recode q a).setTransition source target p : Except (Error S E α) _) =
      recode q a <$> b.setTransition source target p := by
  simp only [setTransition, knownArc_recode, map_bind, bind_map_left]
  refine bind_congr fun (k, l, e) => bind_congr fun _ => ?_
  exact congrArg Except.ok (b.setArc_recode q a k l _)

theorem setTransitionPseudocount_recode (source target : S) (c : α) :
    ((b.recode q a).setTransitionPseudocount source target c : Except (Error S E α) _) =
      recode q a <$> b.setTransitionPseudocount source target c := by
  simp only [setTransitionPseudocount, knownArc_recode, map_bind, bind_map_left]
  refine bind_congr fun (k, l, e) => bind_congr fun _ => ?_
  exact congrArg Except.ok (b.setArc_recode q a k l _)

theorem setEmission_recode [DecidableEq E] (state : S) (symbol : E) (p : α) :
    ((b.recode q a).setEmission state symbol p : Except (Error S E α) _) =
      recode q a <$> b.setEmission state symbol p := by
  simp only [setEmission, q.stateCode_eq, a.symbolCode_eq, map_bind, bind_map_left]
  refine bind_congr fun k => bind_congr fun x => bind_congr fun _ => ?_
  rw [recode, Parameters.emissions_recode]
  exact congrArg Except.ok (b.setEmissionEntry_recode q a k x _)

theorem setEmissionPseudocount_recode [DecidableEq E] (state : S) (symbol : E) (c : α) :
    ((b.recode q a).setEmissionPseudocount state symbol c : Except (Error S E α) _) =
      recode q a <$> b.setEmissionPseudocount state symbol c := by
  simp only [setEmissionPseudocount, q.stateCode_eq, a.symbolCode_eq, map_bind, bind_map_left]
  refine bind_congr fun k => bind_congr fun x => bind_congr fun _ => ?_
  rw [recode, Parameters.emissions_recode]
  exact congrArg Except.ok (b.setEmissionEntry_recode q a k x _)

end Entries

/-! ### Shares -/

theorem missing_recode (given : Given Q α) :
    missing (Q := Q') (Row.recode q.code given) = missing given :=
  (Row.toList_recode_perm q.code given).countP_eq _

section Exact

variable {K : Type} [Field K] [LinearOrder K]

theorem uniformInitial_recode :
    (uniformInitial : Vector K Q'.size) = Row.recode q.code uniformInitial := by
  rw [uniformInitial, uniformInitial, ← Row.replicate_recode, q.size_eq]

theorem givenTotal_recode (given : Given Q K) :
    givenTotal (Q := Q') (Row.recode q.code given) = givenTotal given := by
  rw [givenTotal, givenTotal, totalFromFirst_eq_total zero_add, totalFromFirst_eq_total zero_add]
  exact total_perm ((Row.toList_recode_perm q.code given).filterMap id)

theorem completed_recode (given : Given Q K) :
    completed (Q := Q') (Row.recode q.code given) = Row.recode q.code (completed given) := by
  rw [completed, completed, remainingShare, remainingShare, givenTotal_recode, missing_recode]
  exact Row.map_recode q.code _ given

variable (b : Builder Q A K)

theorem setEqual_recode : (b.recode q a).setEqual = b.setEqual.recode q a :=
  ext (b.toParameters.mapGroups_recode q a fun _ _ => Group.equalize_perm)
    (congrArg some (uniformInitial_recode q))

variable [DecidableEq S]

theorem readEntries_recode (given : Given Q K) (entries : List (S × K)) :
    (readEntries (Q := Q') (Row.recode q.code given) entries : Except (Error S E K) _) =
      Row.recode q.code <$> readEntries given entries := by
  induction entries generalizing given with
  | nil => rfl
  | cons entry rest ih =>
    obtain ⟨state, p⟩ := entry
    simp only [readEntries, q.stateCode_eq, map_bind, bind_map_left]
    refine bind_congr fun k => bind_congr fun _ => ?_
    rw [← ih, ← Row.set_recode]

theorem setInitial_recode (entries : List (S × K)) :
    ((b.recode q a).setInitial entries : Except (Error S E K) _) =
      recode q a <$> b.setInitial entries := by
  simp only [setInitial]
  rw [Row.replicate_recode q.code, readEntries_recode]
  simp only [map_bind, bind_map_left]
  refine bind_congr fun given => ?_
  rw [givenTotal_recode, missing_recode, completed_recode]
  split
  · rfl
  · split
    · rfl
    · rfl

/-! ### Runs -/

/-- Every definite edit does the same by other codes. -/
theorem apply_recode [DecidableEq E] (edit : DefiniteEdit S E K) :
    (b.recode q a).apply edit.val = recode q a <$> b.apply edit.val := by
  obtain ⟨edit, definite⟩ := edit
  cases edit with
  | allow source target p c => exact b.allow_recode q a source target p c
  | allowAll => exact congrArg Except.ok (b.allowAll_recode q a)
  | destroy source target => exact b.destroy_recode q a source target
  | setTransition source target p => exact b.setTransition_recode q a source target p
  | setTransitionPseudocount source target c =>
    exact b.setTransitionPseudocount_recode q a source target c
  | setEmission state symbol p => exact b.setEmission_recode q a state symbol p
  | setEmissionPseudocount state symbol c =>
    exact b.setEmissionPseudocount_recode q a state symbol c
  | setInitial entries => exact b.setInitial_recode q a entries
  | setEqual => exact congrArg Except.ok (b.setEqual_recode q a)
  | randomize words => exact definite.elim

theorem step_recode [DecidableEq E] (edit : DefiniteEdit S E K) :
    (b.recode q a).step edit = Prod.map id (recode q a) (b.step edit) := by
  rw [step, step, apply_recode]
  cases b.apply edit.val <;> rfl

/-- What is refused of a run, edit by edit. -/
def refusals [DecidableEq E] (b : Builder Q A K) :
    List (DefiniteEdit S E K) → List (Option (Error S E K))
  | [] => []
  | edit :: rest => (b.step edit).1 :: (b.step edit).2.refusals rest

/-- What a run leaves. Edits that are refused leave the builder as it is. -/
def after [DecidableEq E] (b : Builder Q A K) (edits : List (DefiniteEdit S E K)) :
    Builder Q A K :=
  edits.foldl (fun b edit => (b.step edit).2) b

/-- A run does the same by other codes. -/
theorem run_recode [DecidableEq E] (edits : List (DefiniteEdit S E K)) :
    (b.recode q a).refusals edits = b.refusals edits ∧
      (b.recode q a).after edits = (b.after edits).recode q a := by
  induction edits generalizing b with
  | nil => exact ⟨rfl, rfl⟩
  | cons edit rest ih =>
    obtain ⟨refused, left⟩ := ih (b.step edit).2
    rw [refusals, refusals, after, after, List.foldl_cons, List.foldl_cons, step_recode]
    exact ⟨congrArg _ refused, left⟩

end Exact

end Builder

/-! ### Finishing -/

/-- The same model by other codes. -/
def Model.recode (q : Recoding Q Q') (a : Recoding A A') (m : Model Q A α) : Model Q' A' α :=
  .ofParameters (m.toParameters.recode q a) (Row.recode q.code m.initial)

theorem Model.toParameters_recode (q : Recoding Q Q') (a : Recoding A A') (m : Model Q A α) :
    (m.recode q a).toParameters = m.toParameters.recode q a := rfl

theorem Model.get_initial_recode (q : Recoding Q Q') (a : Recoding A A') (m : Model Q A α)
    (k : Q.Code) : (m.recode q a).initial.get (q.code k) = m.initial.get k :=
  Row.get_recode q.code m.initial k

namespace Builder

variable {K : Type} [Field K] [LinearOrder K] (q : Recoding Q Q') (a : Recoding A A')
  (b : Builder Q A K)

theorem initialOrUniform_recode :
    (b.recode q a).initialOrUniform = Row.recode q.code b.initialOrUniform := by
  rw [initialOrUniform, initialOrUniform, recode, uniformInitial_recode q]
  cases b.initial <;> rfl

theorem finished_recode : (b.recode q a).finished = b.finished.recode q a :=
  Model.ext_parameters (b.toParameters.mapGroups_recode q a fun _ _ => Group.fill_perm)
    (b.initialOrUniform_recode q a)

theorem sum_initial_recode :
    ∑ k, (b.recode q a).initialOrUniform.get k = ∑ k, b.initialOrUniform.get k := by
  rw [← q.code.sum_comp, initialOrUniform_recode]
  simp only [Row.get_recode]

theorem fault?_recode : (b.recode q a).fault? = none ↔ b.fault? = none := by
  rw [fault?_eq_none_iff, fault?_eq_none_iff, sum_initial_recode, q.code.surjective.forall,
    q.code.surjective.forall]
  simp only [toParameters_recode, Parameters.sum_transition_recode,
    Parameters.sum_emission_recode]

/-- A fault is told by symbols, so it is one by other codes as well. -/
theorem HasFault.of_recode {sum : K} {fault : ProbabilityFault S}
    (faulty : (b.recode q a).HasFault sum fault) : b.HasFault sum fault := by
  cases faulty with
  | initial far =>
    rw [sum_initial_recode] at far ⊢
    exact .initial far
  | transitions k' occupied far =>
    obtain ⟨k, rfl⟩ := q.code.surjective k'
    rw [toParameters_recode, Parameters.sum_transition_recode] at occupied far ⊢
    rw [q.symbol_code]
    exact .transitions k occupied far
  | emissions k' occupied far =>
    obtain ⟨k, rfl⟩ := q.code.surjective k'
    rw [toParameters_recode, Parameters.sum_emission_recode] at occupied far ⊢
    rw [q.symbol_code]
    exact .emissions k occupied far

/-- Finishing succeeds by both codes, or finds a fault by both; which one it
finds may depend on their order. -/
theorem build_recode :
    (∃ m, b.build = .ok m ∧ (b.recode q a).build = .ok (m.recode q a)) ∨
      ∃ sum fault sum' fault', b.HasFault sum fault ∧ b.HasFault sum' fault' ∧
        b.build = .error (.invalidProbability .build sum fault) ∧
        (b.recode q a).build = .error (.invalidProbability .build sum' fault') := by
  rcases b.build_cases with ⟨sane, built⟩ | ⟨sum, fault, failed, faulty⟩
  · have built' := build_eq_ok_iff.mpr ⟨(b.fault?_recode q a).mpr sane, b.finished_recode q a⟩
    exact .inl ⟨_, built, built'⟩
  · rcases (b.recode q a).build_cases with ⟨sane', -⟩ | ⟨sum', fault', failed', faulty'⟩
    · have built := build_eq_ok_iff.mpr ⟨(b.fault?_recode q a).mp sane', rfl⟩
      cases failed.symm.trans built
    · exact .inr ⟨sum, fault, sum', fault', faulty, .of_recode q a b faulty', failed, failed'⟩

end Builder

end Trellis
