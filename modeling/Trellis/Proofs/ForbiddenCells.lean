import Trellis.Proofs.FinishingInPlace
import Trellis.Proofs.Runs

/-!
# The cells of forbidden arcs

Tables that are edited in place keep two numbers for every pair of states, a
probability and a pseudocount, and what reads them without looking at the mask takes
the numbers of a forbidden arc as they are. Both are zero in all tables there are
(`Reachable.blank`): the tables start with zeros, and an operation that writes a cell
of an arc either asks for the arc to be allowed or writes zero (`Blank.perform`).
Every model there is, is the content of such tables (`exists_tables_of_reachable`).
What a model tells of an arc is then the number in the cell, whatever the mask says
(`Blank.transition_eq`, `Blank.transitionPseudocount_eq`).
-/

namespace Trellis

variable {S E α K σ : Type} {Q : Alphabet S} {A : Alphabet E}

/-! ### Cells outside a mask -/

namespace Table

variable {n m : Nat}

/-- The cells that a mask leaves out hold zero. -/
def ZeroOutside [Zero α] (mask : Table n m Bool) (cells : Table n m α) : Prop :=
  ∀ i j, mask.get i j = false → cells.get i j = 0

namespace ZeroOutside

variable [Zero α] {mask : Table n m Bool} {cells : Table n m α}

/-- A cell is written together with its place in the mask: it holds zero if it is left
out from now on. -/
theorem set (outside : ZeroOutside mask cells) (i : Fin n) (j : Fin m) {inside : Bool} {a : α}
    (zero : inside = false → a = 0) : ZeroOutside (mask.set i j inside) (cells.set i j a) := by
  intro k l out
  rw [get_set] at out ⊢
  by_cases here : i = k ∧ j = l
  · rw [if_pos here] at out ⊢
    exact zero out
  · rw [if_neg here] at out ⊢
    exact outside k l out

/-- A cell in the mask may be written on its own. -/
theorem set_inside (outside : ZeroOutside mask cells) {i : Fin n} {j : Fin m}
    (inside : mask.get i j = true) (a : α) : ZeroOutside mask (cells.set i j a) := by
  intro k l out
  rw [get_set]
  split
  · rename_i here
    obtain ⟨rfl, rfl⟩ := here
    cases inside.symm.trans out
  · exact outside k l out

theorem ofFn_true (cells : Table n m α) : ZeroOutside (.ofFn fun _ _ => true) cells := by
  intro i j out
  rw [get_ofFn] at out
  cases out

end ZeroOutside

end Table

namespace Tables

/-- A forbidden arc has zero in both of its cells. -/
structure Blank [Zero α] (t : Tables Q A α) : Prop where
  probabilities : t.allowed.ZeroOutside t.probabilities
  pseudocounts : t.allowed.ZeroOutside t.pseudocounts

/-! ### Writing -/

section Writing

variable [Arithmetic α] {t s : Tables Q A α}

theorem blank_empty : (empty : Tables Q A α).Blank where
  probabilities k l _ := Table.get_ofFn _ k l
  pseudocounts k l _ := Table.get_ofFn _ k l

/-- Both numbers of an arc are written with its place in the mask. -/
theorem Blank.setArc (blank : t.Blank) (k l : Q.Code) {allowed : Bool} {p c : α}
    (zero : allowed = false → p = 0 ∧ c = 0) :
    Blank { t with
      allowed := t.allowed.set k l allowed
      probabilities := t.probabilities.set k l p
      pseudocounts := t.pseudocounts.set k l c } where
  probabilities := blank.probabilities.set k l fun forbidden => (zero forbidden).1
  pseudocounts := blank.pseudocounts.set k l fun forbidden => (zero forbidden).2

theorem Blank.setProbability (blank : t.Blank) {k l : Q.Code}
    (allowed : t.allowed.get k l = true) (p : α) :
    Blank { t with probabilities := t.probabilities.set k l p } where
  probabilities := blank.probabilities.set_inside allowed p
  pseudocounts := blank.pseudocounts

theorem Blank.setPseudocount (blank : t.Blank) {k l : Q.Code}
    (allowed : t.allowed.get k l = true) (c : α) :
    Blank { t with pseudocounts := t.pseudocounts.set k l c } where
  probabilities := blank.probabilities
  pseudocounts := blank.pseudocounts.set_inside allowed c

/-- To replace all probabilities drops those of forbidden arcs. -/
theorem Blank.replace (blank : t.Blank) (initial : Option (Vector α Q.size))
    (arcs : Table Q.size Q.size α) (emissions : Table Q.size A.size α) :
    (t.replace initial arcs emissions).Blank where
  probabilities k l forbidden := by
    have kept : (t.replace initial arcs emissions).allowed = t.allowed := rfl
    rw [kept] at forbidden
    exact (Table.get_ofFn _ k l).trans (if_neg (Bool.eq_false_iff.mp forbidden))
  pseudocounts := blank.pseudocounts

omit [Arithmetic α] in
theorem Blank.of_unwritten [Zero α] (blank : t.Blank) (unwritten : Unwritten t s) : s.Blank where
  probabilities k l forbidden := by
    rw [unwritten.allowed] at forbidden
    rw [unwritten.forbidden k l forbidden, blank.probabilities k l forbidden]
  pseudocounts := by
    rw [unwritten.allowed, unwritten.pseudocounts]
    exact blank.pseudocounts

end Writing

/-! ### Edits -/

/-- However an operation ends, the tables it leaves are blank. -/
def LeavesBlank [Zero α] {β : Type} (t : Tables Q A α) (operation : Editing Q A α β) : Prop :=
  match operation.run t with
  | .ok _ s => s.Blank
  | .error _ s => s.Blank

namespace LeavesBlank

variable [Arithmetic α] {t s : Tables Q A α}

theorem check {β : Type} {test : Except (Error S E α) β} {f : β → Editing Q A α Unit}
    (blank : t.Blank) (next : ∀ b, t.LeavesBlank (f b)) :
    t.LeavesBlank (Tables.check test >>= f) := by
  cases test with
  | error e => exact blank
  | ok b => exact next b

theorem read {f : Tables Q A α → Editing Q A α Unit} (next : t.LeavesBlank (f t)) :
    t.LeavesBlank (get >>= f) := next

theorem refused (blank : t.Blank) (e : Error S E α) :
    t.LeavesBlank (throw e : Editing Q A α Unit) := blank

theorem written {operation : Editing Q A α Unit} (writes : operation.run t = .ok () s)
    (blank : s.Blank) : t.LeavesBlank operation := by
  rw [LeavesBlank, writes]
  exact blank

/-- What follows the lookup of an arc may count on the arc. -/
theorem allowedArc [DecidableEq S] {operation : Operation} {source target : S}
    {f : Q.Code × Q.Code → Editing Q A α Unit} (blank : t.Blank)
    (next : ∀ k l, t.allowed.get k l = true → t.LeavesBlank (f (k, l))) :
    t.LeavesBlank (Tables.allowedArc operation source target >>= f) := by
  unfold Tables.allowedArc
  simp only [bind_assoc]
  refine check blank fun k => check blank fun l => read ?_
  cases allowed : t.allowed.get k l with
  | true => exact next k l allowed
  | false => exact refused blank _

end LeavesBlank

section Edits

variable [Arithmetic α] {t : Tables Q A α}

theorem leavesBlank_allowAll : t.LeavesBlank allowAll :=
  .written (run_modify_three _ _ _) ⟨.ofFn_true _, .ofFn_true _⟩

theorem Blank.setEqual (blank : t.Blank) : t.LeavesBlank setEqual := by
  have loop := run_forM_equalizeFrom { t with initial := some Builder.uniformInitial } Q.codes
  refine .written ((run_bind (run_modify _)).trans ((run_bind loop).trans (run_modify _)))
    ⟨fun k l forbidden => ?_, blank.pseudocounts⟩
  have absent : l ∉ t.targets k := t.notMem_targets k forbidden
  exact (Table.get_ofFn _ k l).trans ((if_neg fun shared => absent shared.2).trans
    (blank.probabilities k l forbidden))

variable [DecidableEq S] [DecidableEq E]

/-- **One edit** leaves the cells of forbidden arcs at zero, whether it is refused or not:
an arc gets numbers with its place in the mask, and loses both with it. -/
theorem Blank.perform (blank : t.Blank) (edit : DefiniteEdit S E α) :
    t.LeavesBlank (perform edit) := by
  obtain ⟨edit, definite⟩ := edit
  cases edit with
  | allow source target p c =>
    refine .check blank fun k => .check blank fun l => .check blank fun _ =>
      .check blank fun _ => .read ?_
    split
    · exact .refused blank _
    · exact .written (run_modify_three _ _ _) (blank.setArc k l nofun)
  | allowAll => exact leavesBlank_allowAll
  | destroy source target =>
    refine .allowedArc blank fun k l _ => ?_
    exact .written (run_modify_three _ _ _) (blank.setArc k l fun _ => ⟨rfl, rfl⟩)
  | setTransition source target p =>
    refine .allowedArc blank fun k l allowed => .check blank fun _ => ?_
    exact .written (run_modify _) (blank.setProbability allowed p)
  | setTransitionPseudocount source target c =>
    refine .allowedArc blank fun k l allowed => .check blank fun _ => ?_
    exact .written (run_modify _) (blank.setPseudocount allowed c)
  | setEmission state symbol p =>
    refine .check blank fun k => .check blank fun x => .check blank fun _ => ?_
    exact .written (run_modify _) ⟨blank.probabilities, blank.pseudocounts⟩
  | setEmissionPseudocount state symbol c =>
    refine .check blank fun k => .check blank fun x => .check blank fun _ => ?_
    exact .written (run_modify _) ⟨blank.probabilities, blank.pseudocounts⟩
  | setInitial entries =>
    refine .check blank fun given => ?_
    dsimp only
    split
    · exact .refused blank _
    · split
      · exact .refused blank _
      · exact .written (run_modify _) ⟨blank.probabilities, blank.pseudocounts⟩
  | setEqual => exact blank.setEqual
  | randomize words => exact definite.elim

theorem Blank.step (blank : t.Blank) (edit : DefiniteEdit S E α) : (t.step edit).2.Blank := by
  have left := blank.perform edit
  rw [LeavesBlank] at left
  rw [Tables.step]
  cases ending : (Tables.perform edit).run t with
  | ok _ s =>
    rw [ending] at left
    exact left
  | error e s =>
    rw [ending] at left
    exact left

end Edits

/-! ### Runs -/

section Runs

variable [DecidableEq S] [DecidableEq E] [Field K] [LinearOrder K]

/-- The tables there are: what operations in place make out of the empty tables. To
start again from a finished model is to go on with its tables. -/
inductive Reachable : Tables Q A K → Prop where
  | empty : Reachable empty
  | edit {t : Tables Q A K} (e : DefiniteEdit S E K) : Reachable t → Reachable (t.step e).2
  | randomize {t : Tables Q A K} (words : Stream' UInt64) :
      Reachable t → Reachable (Drawing.randomize.run (t, words)).2.1
  | finish {t s : Tables Q A K} : Reachable t → finish.run t = .ok () s → Reachable s
  | reestimate {σ : Type} {t : Tables Q A K} (options : Estimation)
      (counts : Counts (.ofModel Q.size A.size) K σ) :
      Reachable t → Reachable (t.reestimate options counts)

/-- **The cells of forbidden arcs are zero** after every history, those of their
probabilities and those of their pseudocounts. -/
theorem Reachable.blank {t : Tables Q A K} (reach : t.Reachable) : t.Blank := by
  induction reach with
  | empty => exact blank_empty
  | edit e _ ih => exact ih.step e
  | @randomize t words _ ih =>
    obtain ⟨s, run, -, unwritten⟩ := Drawing.run_randomize t words
    rw [run]
    exact ih.of_unwritten unwritten
  | @finish t s _ finished ih =>
    rcases t.finish_cases with ⟨e, r, -, failed⟩ | ⟨-, filled⟩
    · cases failed.symm.trans finished
    · cases filled.symm.trans finished
      exact ih.of_unwritten t.unwritten_filled
  | reestimate _ _ _ ih => exact ih.replace _ _ _

/-- Tables that hold what a run has in hand. -/
def Holds (t : Tables Q A K) : Stage Q A K → Prop
  | .building b => t.builder = b
  | .finished m => t.builder = .ofModel m

/-- **One operation** of a run can be done in place. -/
theorem Reachable.simulate {t : Tables Q A K} (reach : t.Reachable) {before after : Stage Q A K}
    (holds : t.Holds before) (step : before.Step after) :
    ∃ s : Tables Q A K, s.Reachable ∧ s.Holds after := by
  cases step with
  | @edit b c e applied =>
    obtain rfl : t.builder = b := holds
    by_cases definite : e.Definite
    · rcases t.step_cases ⟨e, definite⟩ with ⟨_, refused, -⟩ | ⟨s, succeeded, left⟩
      · cases refused.symm.trans applied
      · cases succeeded.symm.trans applied
        refine ⟨s, ?_, rfl⟩
        have moved := reach.edit ⟨e, definite⟩
        rwa [left] at moved
    · -- Only a random edit is left: its words are taken off a stream.
      cases e with
      | randomize words =>
        obtain ⟨s, run, drawn, -⟩ := Drawing.run_randomize t words
        cases applied
        refine ⟨s, ?_, drawn⟩
        have moved := reach.randomize words
        rwa [run] at moved
      | _ => exact absurd trivial definite
  | build built =>
    obtain rfl : t.builder = _ := holds
    obtain ⟨finished, kept⟩ := finish_of_build built
    exact ⟨t.filled, reach.finish finished, kept⟩
  | reopen m => exact ⟨t, reach, holds⟩
  | @estimate _ m r options counts _ estimated =>
    -- To estimate is to replace the probabilities and to finish.
    rw [Model.estimate, ← builder_reestimate holds options counts] at estimated
    obtain ⟨finished, kept⟩ := finish_of_build estimated
    exact ⟨_, (reach.reestimate options counts).finish finished, kept⟩

/-- **Every model there is** is the content of tables that operations in place have made. -/
theorem exists_tables_of_reachable {m : Model Q A K} (reach : m.Reachable) :
    ∃ t : Tables Q A K, t.Reachable ∧ t.builder = .ofModel m := by
  have run : ∀ stage : Stage Q A K, stage.Reachable → ∃ t : Tables Q A K, t.Reachable ∧
      t.Holds stage := by
    intro stage reach
    induction reach with
    | refl => exact ⟨empty, .empty, builder_empty⟩
    | tail _ step ih =>
      obtain ⟨t, made, holds⟩ := ih
      exact made.simulate holds step
  exact run _ reach

end Runs

/-! ### The cells of a model -/

section Held

variable [Zero α] {t : Tables Q A α} {m : Model Q A α}

/-- The probability of an arc, allowed or not, is the number in its cell. -/
theorem Blank.transition_eq (blank : t.Blank) (held : t.builder = .ofModel m) (k l : Q.Code) :
    m.transition k l = t.probabilities.get k l := by
  rw [Parameters.transition, transitions_of_held held]
  cases allowed : t.allowed.get k l with
  | true => rfl
  | false => exact (blank.probabilities k l allowed).symm

/-- The pseudocount of an arc, allowed or not, is the number in its cell. -/
theorem Blank.transitionPseudocount_eq (blank : t.Blank) (held : t.builder = .ofModel m)
    (k l : Q.Code) : m.transitionPseudocount k l = t.pseudocounts.get k l := by
  rw [Parameters.transitionPseudocount, transitions_of_held held]
  cases allowed : t.allowed.get k l with
  | true => rfl
  | false => exact (blank.pseudocounts k l allowed).symm

omit [Zero α] in
theorem emission_of_held (held : t.builder = .ofModel m) (k : Q.Code) (x : A.Code) :
    m.emission k x = t.emissionProbabilities.get k x := by
  rw [Parameters.emission, emissions_of_held held]

omit [Zero α] in
theorem emissionPseudocount_of_held (held : t.builder = .ofModel m) (k : Q.Code) (x : A.Code) :
    m.emissionPseudocount k x = t.emissionPseudocounts.get k x := by
  rw [Parameters.emissionPseudocount, emissions_of_held held]

end Held

end Tables

end Trellis
