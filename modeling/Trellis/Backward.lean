import Trellis.Forward

/-!
# Scaled backward recursion

The backward row of a position says, for each state, how probable the later
symbols are after it, divided by the scales of the later positions
(`Model.backward`). The scales may be any numbers, one for each symbol.
-/

namespace Trellis.Model

variable {S E α : Type} {Q : Alphabet S} {A : Alphabet E} [Arithmetic α]

/-- The row before a position, given the symbol, the scale and the row there. -/
def backwardRow (m : Model Q A α) (x : A.Code) (scale : α) (next : Vector α Q.size) :
    Vector α Q.size :=
  .ofFn fun k =>
    total ((m.successors k).map fun l => m.transition k l * m.emission l x * next.get l) / scale

/-- The row of a position and the rows after it, given the symbols and scales of
the later positions. -/
def backwardRows (m : Model Q A α) :
    List (A.Code × α) → Vector α Q.size × List (Vector α Q.size)
  | [] => (.replicate Q.size 1, [])
  | (x, scale) :: later =>
    let (next, rows) := m.backwardRows later
    (m.backwardRow x scale next, next :: rows)

/-- The backward recursion over a sequence, with the scales it is to divide by. -/
def backward (m : Model Q A α) (xs : List A.Code) (scales : List α) :
    Except (Error S E α) (List (Vector α Q.size)) :=
  if scales.length = xs.length then
    match xs.zip scales with
    | [] => .ok []
    | _ :: later =>
      let (first, rows) := m.backwardRows later
      .ok (first :: rows)
  else
    .error (.sizeMismatch .backward xs.length scales.length)

end Trellis.Model
