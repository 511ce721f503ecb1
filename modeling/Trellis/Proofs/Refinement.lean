import Trellis.Proofs.InPlace
import Trellis.Proofs.Runs
import Trellis.Proofs.SparseBuilder

/-!
# Tables by name

A builder keeps tables by code; a sparse builder says by name what has been set.
Each represents the other after every run of definite edits (`Represents.apply`,
`Represents.step`): they refuse the same edits for the same reasons, and give the
same answers (`Represents.answers_eq`). Every edit is a sequence of requirements
with one change at its end, so one rule for sequences (`Lockstep.bind`) and one
lemma for each kind of change carry the proof. Tables that are edited in place
follow the builder in turn, so all three have one transcript
(`transcript_eq_sparse`). Nothing is assumed of the numbers.
-/

namespace Trellis

variable {S E α : Type} {Q : Alphabet S} {A : Alphabet E}

/-! ### Operations in lockstep -/

/-- Two operations refuse for the same reason or return related values. -/
inductive Lockstep {ε β γ : Type} (R : β → γ → Prop) : Except ε β → Except ε γ → Prop where
  | refused (e : ε) : Lockstep R (.error e) (.error e)
  | returned {b : β} {c : γ} : R b c → Lockstep R (.ok b) (.ok c)

namespace Lockstep

variable {ε β γ β' γ' : Type} {R : β → γ → Prop} {T : β' → γ' → Prop}

/-- A sequence of two operations is in lockstep with a sequence of two. -/
theorem bind {x : Except ε β} {y : Except ε γ} {f : β → Except ε β'} {g : γ → Except ε γ'}
    (first : Lockstep R x y) (next : ∀ b c, R b c → Lockstep T (f b) (g c)) :
    Lockstep T (x >>= f) (y >>= g) := by
  cases first with
  | refused e => exact .refused e
  | returned related => exact next _ _ related

theorem mono {x : Except ε β} {y : Except ε γ} {R' : β → γ → Prop} (first : Lockstep R x y)
    (weaker : ∀ b c, R b c → R' b c) : Lockstep R' x y := by
  cases first with
  | refused e => exact .refused e
  | returned related => exact .returned (weaker _ _ related)

/-- A requirement that both make leaves them a proof of it. -/
theorem require {condition : Prop} [Decidable condition] (error : ε) :
    Lockstep (fun (_ _ : Unit) => condition) (Trellis.require condition error)
      (Trellis.require condition error) := by
  unfold Trellis.require
  split
  · rename_i holds
    exact .returned holds
  · exact .refused error

/-- What one refuses on a condition, the other refuses without its contrary. -/
theorem guard {refused required : Prop} [Decidable refused] [Decidable required] {error : ε}
    {x : Except ε β} {g : Unit → Except ε γ} (contrary : refused ↔ ¬ required)
    (next : required → Lockstep R x (g ())) :
    Lockstep R (if refused then .error error else x) (Trellis.require required error >>= g) := by
  by_cases holds : required
  · rw [if_neg (contrary.not_left.mpr holds), Trellis.require, if_pos holds]
    exact next holds
  · rw [if_pos (contrary.mpr holds), Trellis.require, if_neg holds]
    exact .refused error

end Lockstep

/-! ### Requirements -/

theorem lockstep_stateCode [DecidableEq S] (operation : Operation) (state : S) :
    Lockstep (fun k _ => state = Q.symbol k)
      (Q.stateCode operation state : Except (Error S E α) _)
      (SparseBuilder.requireState Q operation state) := by
  unfold Alphabet.stateCode SparseBuilder.requireState require
  split
  · rename_i k found
    rw [if_pos (Q.isSome_codeOf?.mp (by rw [found]; rfl))]
    exact .returned (Q.codeOf?_eq_some_iff.mp found).symm
  · rename_i unknown
    rw [if_neg (Q.codeOf?_eq_none_iff.mp unknown)]
    exact .refused _

theorem lockstep_symbolCode [DecidableEq E] (operation : Operation) (symbol : E) :
    Lockstep (fun x _ => symbol = A.symbol x)
      (A.symbolCode operation symbol : Except (Error S E α) _)
      (SparseBuilder.requireSymbol A operation symbol) := by
  unfold Alphabet.symbolCode SparseBuilder.requireSymbol require
  split
  · rename_i x found
    rw [if_pos (A.isSome_codeOf?.mp (by rw [found]; rfl))]
    exact .returned (A.codeOf?_eq_some_iff.mp found).symm
  · rename_i unknown
    rw [if_neg (A.codeOf?_eq_none_iff.mp unknown)]
    exact .refused _

/-! ### Representation -/

/-- A row by code lists what a function of the names gives, in the order of the alphabet. -/
theorem Alphabet.toList_eq_map {β : Type} {row : Vector β Q.size} {f : S → β}
    (values : ∀ k, f (Q.symbol k) = row.get k) : row.toList = Q.symbols.map f := by
  rw [Row.toList_eq_ofFn, List.ofFn_eq_map, ← Q.map_symbol_codes, List.map_map]
  exact List.map_congr_left fun k _ => (values k).symm

section Represents

variable [DecidableEq S]

/-- A builder has in its tables, by code, what a sparse builder has by name. -/
structure Represents (b : Builder Q A α) (r : SparseBuilder Q A α) : Prop where
  arcs : ∀ k l, r.arcs.lookup (Q.symbol k, Q.symbol l) = b.transitions.get k l
  known : ∀ source target, (source, target) ∈ r.arcs → source ∈ Q.symbols ∧ target ∈ Q.symbols
  emissions : ∀ k x, r.emissions (Q.symbol k) (A.symbol x) = b.emissions.get k x
  initial : r.initial.map (fun given k => given (Q.symbol k)) = b.initial.map Vector.get

namespace Represents

variable {b : Builder Q A α} {r : SparseBuilder Q A α}

theorem empty [Arithmetic α] : Represents (Builder.empty : Builder Q A α) .empty where
  arcs k l := by simp [SparseBuilder.empty, Builder.empty]
  known _ _ mem := absurd mem Finmap.notMem_empty
  emissions k x := by simp [SparseBuilder.empty, Builder.empty]
  initial := rfl

variable (represents : Represents b r)
include represents

/-! ### Changes -/

theorem setArc (k l : Q.Code) (e : Entry α) :
    Represents (b.setArc k l (some e)) (r.setArc (Q.symbol k) (Q.symbol l) e) where
  arcs i j := by
    rw [Builder.setArc, Parameters.setArc, Table.get_set, SparseBuilder.setArc]
    split
    · rename_i same
      rw [← same.1, ← same.2, Finmap.lookup_insert]
    · rename_i differ
      rw [Finmap.lookup_insert_of_ne, represents.arcs]
      simpa [Q.symbol_inj, eq_comm] using differ
  known source target mem := by
    rcases Finmap.mem_insert.mp mem with new | old
    · cases new
      exact ⟨Q.symbol_mem k, Q.symbol_mem l⟩
    · exact represents.known source target old
  emissions := represents.emissions
  initial := represents.initial

theorem dropArc (k l : Q.Code) :
    Represents (b.setArc k l none) (r.dropArc (Q.symbol k) (Q.symbol l)) where
  arcs i j := by
    rw [Builder.setArc, Parameters.setArc, Table.get_set, SparseBuilder.dropArc]
    split
    · rename_i same
      rw [← same.1, ← same.2, Finmap.lookup_erase]
    · rename_i differ
      rw [Finmap.lookup_erase_ne, represents.arcs]
      simpa [Q.symbol_inj, eq_comm] using differ
  known source target mem := represents.known source target (Finmap.mem_erase.mp mem).2
  emissions := represents.emissions
  initial := represents.initial

theorem setEmissionEntry [DecidableEq E] (k : Q.Code) (x : A.Code) (e : Entry α) :
    Represents (b.setEmissionEntry k x e) (r.setEmission (Q.symbol k) (A.symbol x) e) where
  arcs := represents.arcs
  known := represents.known
  emissions i y := by
    rw [Builder.setEmissionEntry, Parameters.setEmission, Table.get_set,
      ← represents.emissions i y, SparseBuilder.setEmission]
    by_cases state : k = i
    · subst state
      simp [Function.update_apply, A.symbol_inj, eq_comm]
    · have other : Q.symbol i ≠ Q.symbol k := fun same => state (Q.symbol_inj.mp same).symm
      simp [Function.update_of_ne other, state]
  initial := represents.initial

/-! ### Answers -/

theorem lookup_eq_arc? (source target : S) :
    r.arcs.lookup (source, target) = b.arc? source target := by
  by_cases known : source ∈ Q.symbols ∧ target ∈ Q.symbols
  · obtain ⟨k, rfl⟩ := Q.mem_symbols_iff.mp known.1
    obtain ⟨l, rfl⟩ := Q.mem_symbols_iff.mp known.2
    rw [represents.arcs, Parameters.arc?_symbol]
  · have unlisted : r.arcs.lookup (source, target) = none :=
      Finmap.lookup_eq_none.mpr fun mem => known (represents.known source target mem)
    have forbidden : b.arc? source target = none := by
      rw [Option.eq_none_iff_forall_ne_some]
      intro e arc
      exact known (Parameters.mem_symbols_of_arc? arc)
    rw [unlisted, forbidden]

theorem emission?_eq [DecidableEq E] (state : S) (symbol : E) :
    r.emission? state symbol = b.emission? state symbol := by
  unfold SparseBuilder.emission?
  split
  · rename_i known
    obtain ⟨k, rfl⟩ := Q.mem_symbols_iff.mp known.1
    obtain ⟨x, rfl⟩ := A.mem_symbols_iff.mp known.2
    rw [represents.emissions, Parameters.emission?_symbol]
  · rename_i unknown
    rw [← b.isSome_emission?, Option.not_isSome_iff_eq_none] at unknown
    exact unknown.symm

theorem initialProbability?_eq (state : S) :
    (if state ∈ Q.symbols then r.initial.map fun given => given state else none) =
      b.initialProbability? state := by
  have initial := represents.initial
  split
  · rename_i known
    obtain ⟨k, rfl⟩ := Q.mem_symbols_iff.mp known
    have at_k := congrArg (Option.map fun given => given k) initial
    rw [Option.map_map, Option.map_map] at at_k
    rw [Builder.initialProbability?, Alphabet.codeOf?_symbol]
    refine at_k.trans ?_
    cases b.initial with
    | none => rfl
    | some row => rfl
  · rename_i unknown
    rw [Builder.initialProbability?, Q.codeOf?_eq_none_iff.mpr unknown]
    rfl

theorem arcs_eq : (Q.symbols ×ˢ Q.symbols).filter (· ∈ r.arcs) = b.arcs := by
  have row : ∀ k : Q.Code, (Q.symbols.map (Prod.mk (Q.symbol k))).filter (· ∈ r.arcs) =
      (b.targets k).map fun l => (Q.symbol k, Q.symbol l) := by
    intro k
    rw [← Q.map_symbol_codes, List.map_map, List.filter_map, Parameters.targets]
    congr 1
    refine List.filter_congr fun l _ => ?_
    rw [Parameters.allows, ← represents.arcs]
    simp [← Finmap.lookup_isSome]
  calc (Q.symbols ×ˢ Q.symbols).filter (· ∈ r.arcs)
    _ = (Q.codes.flatMap fun k => Q.symbols.map (Prod.mk (Q.symbol k))).filter (· ∈ r.arcs) := by
        rw [← Q.flatMap_symbols fun source => Q.symbols.map (Prod.mk source)]
        rfl
    _ = Q.codes.flatMap fun k => (b.targets k).map fun l => (Q.symbol k, Q.symbol l) := by
        simp only [List.filter_flatMap, row]

/-- A builder and the sparse builder it represents give the same answers. -/
theorem answers_eq [DecidableEq E] : b.answers = r.answers := by
  simp only [SparseBuilder.answers, represents.lookup_eq_arc?, represents.emission?_eq,
    represents.initialProbability?_eq, represents.arcs_eq]
  rfl

/-! ### Whole tables -/

theorem outdegree_symbol (k : Q.Code) :
    r.outdegree (Q.symbol k) = (b.transitionGroup k).length := by
  have row : (b.transitions.row k).toList =
      Q.symbols.map fun target => r.arcs.lookup (Q.symbol k, target) :=
    Alphabet.toList_eq_map (represents.arcs k)
  rw [Parameters.transitionGroup, row, List.filterMap_map, List.length_filterMap_eq_countP,
    SparseBuilder.outdegree]
  simp [← Finmap.lookup_isSome]

section Arithmetic

variable [Arithmetic α]

theorem allowAll :
    Represents b.allowAll
      { r with arcs := SparseBuilder.tabulate Q fun _ => some ⟨0, defaultPseudocount⟩ } where
  arcs k l := by
    rw [SparseBuilder.lookup_tabulate, if_pos ⟨Q.symbol_mem k, Q.symbol_mem l⟩, Builder.allowAll,
      Table.get_ofFn]
  known _ _ mem := SparseBuilder.mem_symbols_of_mem_tabulate mem
  emissions := represents.emissions
  initial := represents.initial

theorem setEqual : Represents b.setEqual r.setEqual where
  arcs k l := by
    rw [SparseBuilder.setEqual, SparseBuilder.lookup_tabulate,
      if_pos ⟨Q.symbol_mem k, Q.symbol_mem l⟩, represents.arcs, represents.outdegree_symbol,
      Builder.setEqual, Parameters.transitions_mapGroups]
    rfl
  known _ _ mem := SparseBuilder.mem_symbols_of_mem_tabulate mem
  emissions k x := by
    simp only [Builder.setEqual, Parameters.emissions_mapGroups, SparseBuilder.setEqual,
      represents.emissions, Group.equalize, Parameters.emissionGroup, Vector.length_toList]
  initial := by
    simp only [SparseBuilder.setEqual, Builder.setEqual, Option.map_some, Option.some.injEq]
    funext k
    rw [Builder.uniformInitial, Row.get_replicate]

/-! ### Initial distributions -/

omit represents in
/-- Entries are read as far as they are required; the last one for a state is kept. -/
theorem readEntries (given : Builder.Given Q α) (entries : List (S × α)) :
    Lockstep (fun result _ => ∀ k, result.get k =
        (SparseBuilder.lastGiven entries (Q.symbol k)).or (given.get k))
      (Builder.readEntries given entries : Except (Error S E α) _)
      (SparseBuilder.requireEntries Q entries) := by
  induction entries generalizing given with
  | nil => exact .returned fun k => rfl
  | cons entry rest ih =>
    obtain ⟨state, p⟩ := entry
    refine (lockstep_stateCode .setInitial state).bind fun k _ at_k => ?_
    refine (Lockstep.require _).bind fun _ _ _ => ?_
    refine (ih (given.set k (some p))).mono fun result _ values i => ?_
    rw [values, SparseBuilder.lastGiven_cons, Option.or_assoc, Row.get_set, at_k]
    by_cases same : k = i
    · simp [same]
    · simp [same, Q.symbol_inj]

theorem setInitial (entries : List (S × α)) :
    Lockstep Represents (b.setInitial entries : Except (Error S E α) _) (r.setInitial entries) := by
  refine (readEntries _ entries).bind fun given _ values => ?_
  simp only [Row.get_replicate, Option.or_none] at values
  have row : given.toList = Q.symbols.map (SparseBuilder.lastGiven entries) :=
    Alphabet.toList_eq_map fun k => (values k).symm
  have sum : Builder.givenTotal given =
      totalFromFirst (Q.symbols.filterMap (SparseBuilder.lastGiven entries)) := by
    rw [Builder.givenTotal, row, List.filterMap_map]
    rfl
  have missing : Builder.missing given =
      Q.symbols.countP fun state => (SparseBuilder.lastGiven entries state).isNone := by
    rw [Builder.missing, row, List.countP_map]
    rfl
  simp only [← sum, ← missing]
  refine Lockstep.guard not_not.symm fun _ => ?_
  refine Lockstep.guard Classical.not_imp.symm fun _ => ?_
  refine .returned ⟨represents.arcs, represents.known, represents.emissions, ?_⟩
  simp only [Option.map_some, Option.some.injEq]
  funext k
  rw [Builder.completed, Row.get_map, values]
  simp only [Builder.remainingShare, sum, missing]

end Arithmetic

/-! ### Edits -/

/-- An arc that has to be there has the same entry in both. -/
theorem knownArc (operation : Operation) (source target : S) :
    Lockstep (fun found e =>
        source = Q.symbol found.1 ∧ target = Q.symbol found.2.1 ∧ found.2.2 = e)
      (b.knownArc operation source target : Except (Error S E α) _)
      (r.entryOf operation source target) := by
  refine (lockstep_stateCode operation source).bind fun k _ at_k => ?_
  refine (lockstep_stateCode operation target).bind fun l _ at_l => ?_
  rw [at_k, at_l, represents.arcs]
  cases b.transitions.get k l with
  | none => exact .refused _
  | some e => exact .returned ⟨rfl, rfl, rfl⟩

variable [DecidableEq E] [Arithmetic α]

theorem allow (source target : S) (p c : α) (definite) :
    Lockstep Represents (b.allow source target p c : Except (Error S E α) _)
      (r.apply ⟨.allow source target p c, definite⟩) := by
  refine (lockstep_stateCode .allowTransition source).bind fun k _ at_k => ?_
  refine (lockstep_stateCode .allowTransition target).bind fun l _ at_l => ?_
  refine (Lockstep.require _).bind fun _ _ _ => ?_
  refine (Lockstep.require _).bind fun _ _ _ => ?_
  rw [at_k, at_l]
  refine Lockstep.guard ?_ fun _ => .returned (represents.setArc k l _)
  rw [not_not, ← Finmap.lookup_isSome, represents.arcs]
  rfl

theorem destroy (source target : S) (definite) :
    Lockstep Represents (b.destroy source target : Except (Error S E α) _)
      (r.apply ⟨.destroy source target, definite⟩) := by
  refine (represents.knownArc .destroyTransition source target).bind ?_
  rintro ⟨k, l, _⟩ _ ⟨rfl, rfl, -⟩
  exact .returned (represents.dropArc k l)

theorem setTransition (source target : S) (p : α) (definite) :
    Lockstep Represents (b.setTransition source target p : Except (Error S E α) _)
      (r.apply ⟨.setTransition source target p, definite⟩) := by
  refine (represents.knownArc .setTransition source target).bind ?_
  rintro ⟨k, l, e⟩ _ ⟨rfl, rfl, rfl⟩
  refine (Lockstep.require _).bind fun _ _ _ => ?_
  exact .returned (represents.setArc k l _)

theorem setTransitionPseudocount (source target : S) (c : α) (definite) :
    Lockstep Represents (b.setTransitionPseudocount source target c : Except (Error S E α) _)
      (r.apply ⟨.setTransitionPseudocount source target c, definite⟩) := by
  refine (represents.knownArc .setTransitionPseudocount source target).bind ?_
  rintro ⟨k, l, e⟩ _ ⟨rfl, rfl, rfl⟩
  refine (Lockstep.require _).bind fun _ _ _ => ?_
  exact .returned (represents.setArc k l _)

theorem setEmission (state : S) (symbol : E) (p : α) (definite) :
    Lockstep Represents (b.setEmission state symbol p : Except (Error S E α) _)
      (r.apply ⟨.setEmission state symbol p, definite⟩) := by
  refine (lockstep_stateCode .setEmission state).bind fun k _ at_k => ?_
  refine (lockstep_symbolCode .setEmission symbol).bind fun x _ at_x => ?_
  refine (Lockstep.require _).bind fun _ _ _ => ?_
  rw [at_k, at_x, represents.emissions]
  exact .returned (represents.setEmissionEntry k x _)

theorem setEmissionPseudocount (state : S) (symbol : E) (c : α) (definite) :
    Lockstep Represents (b.setEmissionPseudocount state symbol c : Except (Error S E α) _)
      (r.apply ⟨.setEmissionPseudocount state symbol c, definite⟩) := by
  refine (lockstep_stateCode .setEmissionPseudocount state).bind fun k _ at_k => ?_
  refine (lockstep_symbolCode .setEmissionPseudocount symbol).bind fun x _ at_x => ?_
  refine (Lockstep.require _).bind fun _ _ _ => ?_
  rw [at_k, at_x, represents.emissions]
  exact .returned (represents.setEmissionEntry k x _)

/-- **One edit.** A definite edit is refused by both for the same reason, or done by both. -/
theorem apply (edit : DefiniteEdit S E α) :
    Lockstep Represents (b.apply edit.val) (r.apply edit) := by
  obtain ⟨edit, definite⟩ := edit
  cases edit with
  | allow source target p c => exact represents.allow source target p c definite
  | allowAll => exact .returned represents.allowAll
  | destroy source target => exact represents.destroy source target definite
  | setTransition source target p => exact represents.setTransition source target p definite
  | setTransitionPseudocount source target c =>
    exact represents.setTransitionPseudocount source target c definite
  | setEmission state symbol p => exact represents.setEmission state symbol p definite
  | setEmissionPseudocount state symbol c =>
    exact represents.setEmissionPseudocount state symbol c definite
  | setInitial entries => exact represents.setInitial entries
  | setEqual => exact .returned represents.setEqual
  | randomize words => exact definite.elim

/-- Both take the same step, and represent each other after it. -/
theorem step (edit : DefiniteEdit S E α) :
    (b.step edit).1 = (r.step edit).1 ∧ Represents (b.step edit).2 (r.step edit).2 := by
  have applied := represents.apply edit
  rw [Builder.step, SparseBuilder.step]
  generalize b.apply edit.val = x at applied
  generalize r.apply edit = y at applied
  cases applied with
  | refused e => exact ⟨rfl, represents⟩
  | returned related => exact ⟨rfl, related⟩

end Represents

end Represents

/-! ### Runs -/

section Runs

variable [Arithmetic α] [DecidableEq S] [DecidableEq E]

/-- A run over the tables in place shows what the run over their builder shows. -/
theorem Tables.transcript_eq (t : Tables Q A α) (edits : List (DefiniteEdit S E α)) :
    transcript Tables.step Tables.answers t edits =
      transcript Builder.step Builder.answers t.builder edits := by
  refine Trellis.transcript_eq (R := fun s b => s.builder = b) ?_ ?_ rfl edits
  · rintro s _ edit rfl
    exact s.step_builder edit
  · rintro s _ rfl
    exact s.answers_builder

theorem Represents.transcript_eq {b : Builder Q A α} {r : SparseBuilder Q A α}
    (represents : Represents b r) (edits : List (DefiniteEdit S E α)) :
    transcript Builder.step Builder.answers b edits =
      transcript SparseBuilder.step SparseBuilder.answers r edits :=
  Trellis.transcript_eq (fun _ _ edit related => related.step edit)
    (fun _ _ related => related.answers_eq) represents edits

/-- **Tables by code refine maps by name.** Whatever definite edits are made, from
empty tables that are edited in place, from the empty builder and from the empty
sparse builder: they end alike at every step, with the same refusal or with none,
and every question by name is answered alike after it. An edit that is refused
changes no answer. -/
theorem transcript_eq_sparse (Q : Alphabet S) (A : Alphabet E)
    (edits : List (DefiniteEdit S E α)) :
    transcript Tables.step Tables.answers (Tables.empty : Tables Q A α) edits =
        transcript SparseBuilder.step SparseBuilder.answers (.empty : SparseBuilder Q A α) edits ∧
      transcript Builder.step Builder.answers (Builder.empty : Builder Q A α) edits =
        transcript SparseBuilder.step SparseBuilder.answers (.empty : SparseBuilder Q A α) edits ∧
      List.IsChain Event.Settles (⟨none, (Tables.empty : Tables Q A α).answers⟩ ::
        transcript Tables.step Tables.answers (Tables.empty : Tables Q A α) edits) := by
  have start : Represents (Builder.empty : Builder Q A α) .empty := .empty
  have sparse := start.transcript_eq edits
  refine ⟨?_, sparse, ?_⟩
  · rw [Tables.transcript_eq, Tables.builder_empty]
    exact sparse
  · refine settles_transcript (fun t edit refused => ?_) _ _ edits
    rw [Tables.step_eq_self refused]

/-- An arc that is forbidden in place and allowed again has its new numbers, and none in
between. An unknown state is refused before a bad number is, and a bad number before an
arc that is there already; a missing arc before a bad number. -/
example : (transcript Tables.step Tables.answers
    (Tables.empty : Tables Machine.states Machine.symbols ℚ)
    [⟨.allow 1 3 2 1, trivial⟩, ⟨.allow 1 2 (1 / 2) 3, trivial⟩, ⟨.allow 1 2 2 1, trivial⟩,
      ⟨.destroy 1 2, trivial⟩, ⟨.setTransition 1 2 2, trivial⟩, ⟨.allow 1 2 (1 / 4) 1, trivial⟩,
      ⟨.allow 1 2 1 1, trivial⟩]).map
      (fun event => (event.refusal, event.answers.transitionProbability 1 2,
        event.answers.transitionPseudocount 1 2)) =
    [(some (.unknownState .allowTransition 3), none, none), (none, some (1 / 2), some 3),
      (some (.invalidProbability .allowTransition 2 .outsideUnitInterval), some (1 / 2), some 3),
      (none, none, none), (some (.notAllowed 1 2), none, none), (none, some (1 / 4), some 1),
      (some (.alreadyAllowed 1 2), some (1 / 4), some 1)] := by
  decide +kernel

end Runs

end Trellis
