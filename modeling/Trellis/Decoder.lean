import Trellis.Alphabet.Lookup
import Trellis.Columns
import Trellis.Model

/-!
# Decoding

The best state path for a sequence of symbols, by keeping for each searched
state the best path that ends in it (`Decoder.search`). The scores are those of a
table of logarithms; the recursion adds and compares them and assumes nothing else.

A survivor stands for a cell of the score row of its position, together with all
back pointers that are met from it: it carries the states before it, where a decoder
over tables stores for each column the column it comes from and follows these at the
end. That decoder, with its rows and the walk back, finds the same paths and errors
(`InBounds.decode`, `InBounds.decodeOver`).
-/

namespace Trellis

variable {S E α σ : Type}

/-- The scores a decoder adds up. -/
structure Decoder (Q : Alphabet S) (A : Alphabet E) (σ : Type) where
  initial : Vector σ Q.size
  transition : Table Q.size Q.size σ
  emission : Table Q.size A.size σ
deriving DecidableEq

/-- A path of states with its score. -/
structure Path (τ σ : Type) where
  states : List τ
  score : σ
deriving DecidableEq, Repr

/-- The best path that ends in a state: its score, and the states before in
reverse order. -/
structure Survivor (κ σ : Type) where
  state : κ
  score : σ
  earlier : List κ
deriving DecidableEq, Repr

namespace Path

variable {τ υ : Type}

def map (f : τ → υ) (p : Path τ σ) : Path υ σ := ⟨p.states.map f, p.score⟩

/-- The states of a path, written one after another. -/
def concat (text : τ → String) (p : Path τ σ) : String := String.join (p.states.map text)

end Path

namespace Decoder

variable {Q : Alphabet S} {A : Alphabet E}

/-- The logarithms of a model's dense tables. -/
def ofModel [Zero α] [Logarithm α σ] (m : Model Q A α) : Decoder Q A σ where
  initial := m.initial.map Logarithm.log
  transition := .ofFn fun k l => Logarithm.log (m.transition k l)
  emission := .ofFn fun k x => Logarithm.log (m.emission k x)

section Score

variable [Score σ]

/-- The path of one state. -/
def start (d : Decoder Q A σ) (x : A.Code) (k : Q.Code) : Survivor Q.Code σ :=
  ⟨k, d.initial.get k + d.emission.get k x, []⟩

/-- The best continuation of the survivors to a state that emits a symbol. -/
def extend (d : Decoder Q A σ) (x : A.Code) (survivors : Columns (Survivor Q.Code σ))
    (k : Q.Code) : Survivor Q.Code σ :=
  let (score, previous) := survivors.best fun v => v.score + d.transition.get v.state k
  ⟨k, score + d.emission.get k x, previous.state :: previous.earlier⟩

/-- Goes on from the survivors at a position, and fails at the first position
where no path is left. -/
def proceed (d : Decoder Q A σ) (search : Columns Q.Code) (position : Nat)
    (survivors : Columns (Survivor Q.Code σ)) :
    List A.Code → Except Nat (Columns (Survivor Q.Code σ))
  | [] => if survivors.Dead Survivor.score then .error position else .ok survivors
  | x :: rest =>
    if survivors.Dead Survivor.score then .error position
    else d.proceed search (position + 1) (search.map (d.extend x survivors)) rest

/-- The best path over the searched states, or the first position where every
path is impossible. The empty sequence has the empty path. -/
def search (d : Decoder Q A σ) (states : Columns Q.Code) :
    List A.Code → Except Nat (Path Q.Code σ)
  | [] => .ok ⟨[], 0⟩
  | x :: rest => do
    let survivors ← d.proceed states 0 (states.map (d.start x)) rest
    let (score, last) := survivors.best Survivor.score
    .ok ⟨last.earlier.reverse ++ [last.state], score⟩

end Score

/-- The columns of the whole alphabet. -/
def wholeAlphabet (Q : Alphabet S) : Columns Q.Code :=
  ⟨⟨0, Q.size_pos⟩, Q.codes.tail⟩

section Symbols

variable [Score σ] [DecidableEq S] [DecidableEq E]

/-- Searches the given states for the best path of a sequence of symbols. -/
def searchSymbols (d : Decoder Q A σ) (states : Columns Q.Code) (symbols : List E) :
    Except (Error S E α) (Path S σ) := do
  let xs ← A.symbolCodes .decode symbols
  let path ← (d.search states xs).mapError fun position => .numerical position .noPath
  .ok (path.map Q.symbol)

/-- The best path over all states. -/
def decode (d : Decoder Q A σ) (symbols : List E) : Except (Error S E α) (Path S σ) :=
  d.searchSymbols (wholeAlphabet Q) symbols

/-- The best path over the listed states. -/
def decodeOver (d : Decoder Q A σ) (states : List S) (symbols : List E) :
    Except (Error S E α) (Path S σ) := do
  let ks ← Q.stateCodes .decode states
  match Columns.ofList? ks with
  | none => .error .noStatesToSearch
  | some columns => d.searchSymbols columns symbols

/-- Decodes each sequence for itself, in order. -/
def decodeBatch (d : Decoder Q A σ) (sequences : List (List E)) :
    List (Except (Error S E α) (Path S σ)) :=
  sequences.map d.decode

end Symbols

end Decoder

end Trellis
