import Trellis.Builder.Initial

/-!
# Finishing a model

A builder is finished if its initial distribution, and every group that is not
vacant, totals one (`Builder.fault?`). A missing initial distribution and the vacant
groups become uniform; nothing else changes (`Builder.finished`). `Builder.build`
does both.
-/

namespace Trellis.Builder

variable {S E α : Type} {Q : Alphabet S} {A : Alphabet E} [Arithmetic α]

/-- The initial distribution, uniform if none was set. -/
def initialOrUniform (b : Builder Q A α) : Vector α Q.size := b.initial.getD uniformInitial

/-- The fault of a group that has a total, with this total. -/
def groupFault? (sum : α) (fault : ProbabilityFault S) : Option (α × ProbabilityFault S) :=
  if IsFaulty sum then some (sum, fault) else none

/-- The first fault: of the initial distribution, then of the arcs by source,
then of the emissions by state. -/
def fault? (b : Builder Q A α) : Option (α × ProbabilityFault S) :=
  let sum := rowTotal b.initialOrUniform.toList
  if ¬ NearOne sum then some (sum, .initialTotal)
  else
    (Q.codes.findSome? fun k =>
      groupFault? (b.transitionGroup k).mass (.transitionTotal (Q.symbol k))) <|>
    (Q.codes.findSome? fun k =>
      groupFault? (b.emissionGroup k).rowMass (.emissionTotal (Q.symbol k)))

/-- The model with every vacant group filled. -/
def finished (b : Builder Q A α) : Model Q A α :=
  .ofParameters
    { transitions := (b.mapGroups fun g => g.fill g.mass).transitions
      emissions := (b.mapGroups fun g => g.fill g.rowMass).emissions }
    b.initialOrUniform

/-- Finishes the builder, or reports its first fault. -/
def build (b : Builder Q A α) : Except (Error S E α) (Model Q A α) :=
  match b.fault? with
  | some (sum, fault) => .error (.invalidProbability .build sum fault)
  | none => .ok b.finished

end Trellis.Builder
