import Trellis.Alphabet.Lookup
import Trellis.Builder.Basic

/-!
# Single entries

Each operation looks up its states and symbol, checks its numbers and returns
the changed builder. An operation that is refused returns no builder, so the
caller keeps the one it had.
-/

namespace Trellis

variable {S E α : Type} [Arithmetic α]

/-- Refuses a probability outside the unit interval. -/
def checkProbability (operation : Operation) (p : α) : Except (Error S E α) Unit :=
  if 0 ≤ p ∧ p ≤ 1 then .ok ()
  else .error (.invalidProbability operation p .outsideUnitInterval)

/-- Refuses a pseudocount that is negative or not finite. -/
def checkPseudocount (operation : Operation) (c : α) : Except (Error S E α) Unit :=
  if IsFinite c ∧ 0 ≤ c then .ok () else .error (.invalidPseudocount operation c)

namespace Builder

variable {Q : Alphabet S} {A : Alphabet E}

def setArc (b : Builder Q A α) (k l : Q.Code) (e : Option (Entry α)) : Builder Q A α :=
  { b with toParameters := b.toParameters.setArc k l e }

def setEmissionEntry (b : Builder Q A α) (k : Q.Code) (x : A.Code) (e : Entry α) :
    Builder Q A α :=
  { b with toParameters := b.toParameters.setEmission k x e }

/-- Allows every arc, with probability zero and the default pseudocount. What
the arcs had before is forgotten. -/
def allowAll (b : Builder Q A α) : Builder Q A α :=
  { b with transitions := .ofFn fun _ _ => some ⟨0, defaultPseudocount⟩ }

variable [DecidableEq S] [DecidableEq E]

/-- Allows an arc. The numbers are checked before the arc is. -/
def allow (b : Builder Q A α) (source target : S) (p : α) (c : α := defaultPseudocount) :
    Except (Error S E α) (Builder Q A α) := do
  let k ← Q.stateCode .allowTransition source
  let l ← Q.stateCode .allowTransition target
  checkProbability .allowTransition p
  checkPseudocount .allowTransition c
  if b.allows k l then .error (.alreadyAllowed source target)
  else .ok (b.setArc k l (some ⟨p, c⟩))

/-- The codes and the entry of an arc, which has to be allowed. -/
def knownArc (b : Builder Q A α) (operation : Operation) (source target : S) :
    Except (Error S E α) (Q.Code × Q.Code × Entry α) := do
  let k ← Q.stateCode operation source
  let l ← Q.stateCode operation target
  match b.transitions.get k l with
  | some e => .ok (k, l, e)
  | none => .error (.notAllowed source target)

/-- Forbids an arc and drops its entry. -/
def destroy (b : Builder Q A α) (source target : S) : Except (Error S E α) (Builder Q A α) := do
  let (k, l, _) ← b.knownArc .destroyTransition source target
  .ok (b.setArc k l none)

/-- Sets the probability of an allowed arc. -/
def setTransition (b : Builder Q A α) (source target : S) (p : α) :
    Except (Error S E α) (Builder Q A α) := do
  let (k, l, e) ← b.knownArc .setTransition source target
  checkProbability .setTransition p
  .ok (b.setArc k l (some { e with probability := p }))

/-- Sets the pseudocount of an allowed arc. -/
def setTransitionPseudocount (b : Builder Q A α) (source target : S) (c : α) :
    Except (Error S E α) (Builder Q A α) := do
  let (k, l, e) ← b.knownArc .setTransitionPseudocount source target
  checkPseudocount .setTransitionPseudocount c
  .ok (b.setArc k l (some { e with pseudocount := c }))

/-- Sets the probability that a state emits a symbol. -/
def setEmission (b : Builder Q A α) (state : S) (symbol : E) (p : α) :
    Except (Error S E α) (Builder Q A α) := do
  let k ← Q.stateCode .setEmission state
  let x ← A.symbolCode .setEmission symbol
  checkProbability .setEmission p
  .ok (b.setEmissionEntry k x { b.emissions.get k x with probability := p })

/-- Sets the pseudocount of an emission. -/
def setEmissionPseudocount (b : Builder Q A α) (state : S) (symbol : E) (c : α) :
    Except (Error S E α) (Builder Q A α) := do
  let k ← Q.stateCode .setEmissionPseudocount state
  let x ← A.symbolCode .setEmissionPseudocount symbol
  checkPseudocount .setEmissionPseudocount c
  .ok (b.setEmissionEntry k x { b.emissions.get k x with pseudocount := c })

end Builder

end Trellis
