import Trellis.Arithmetic

/-!
# Columns

The columns a decoder searches: a list with at least one member. The best
column is the first one whose score exceeds all before it, and the first of all
if none exceeds `bottom` (`Columns.best`).
-/

namespace Trellis

/-- A first column and the rest. -/
structure Columns (β : Type) where
  first : β
  rest : List β
deriving DecidableEq, Repr

namespace Columns

variable {β γ : Type}

/-- The columns in order, the first one included. -/
def toList (cs : Columns β) : List β := cs.first :: cs.rest

def map (f : β → γ) (cs : Columns β) : Columns γ := ⟨f cs.first, cs.rest.map f⟩

/-- The columns of a list, if it has any. -/
def ofList? : List β → Option (Columns β)
  | [] => none
  | b :: bs => some ⟨b, bs⟩

@[simp] theorem toList_map (f : β → γ) (cs : Columns β) :
    (cs.map f).toList = cs.toList.map f := rfl

section Score

variable {σ : Type} [Score σ]

/-- Keeps the better of a champion and a column; the champion wins a tie. -/
def better (score : β → σ) (champion : σ × β) (b : β) : σ × β :=
  if champion.1 < score b then (score b, b) else champion

/-- The best score and its column. -/
def best (score : β → σ) (cs : Columns β) : σ × β :=
  cs.toList.foldl (better score) (Score.bottom, cs.first)

/-- Every column has the score of what cannot happen. -/
def Dead (score : β → σ) (cs : Columns β) : Prop := ∀ b ∈ cs.toList, score b ≤ Score.bottom

instance (score : β → σ) (cs : Columns β) : Decidable (cs.Dead score) :=
  inferInstanceAs (Decidable (∀ b ∈ cs.toList, score b ≤ Score.bottom))

end Score

end Columns

end Trellis
