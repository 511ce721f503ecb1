import Trellis.Error

/-!
# Looking up symbols

Codes of states and symbols that an operation has to know (`Alphabet.stateCode`,
`Alphabet.symbolCodes`); the error names the operation and the first of them that is
unknown.
-/

namespace Trellis

namespace Alphabet

variable {S E α : Type} [DecidableEq S] [DecidableEq E]

/-- The two alphabets of a model, states first. -/
def ofLists (states : List S) (symbols : List E) :
    Except (Error S E α) (Alphabet S × Alphabet E) := do
  let Q ← (ofList states).mapError .stateAlphabet
  let A ← (ofList symbols).mapError .symbolAlphabet
  return (Q, A)

/-- The code of a state, which the operation has to know. -/
def stateCode (Q : Alphabet S) (operation : Operation) (state : S) :
    Except (Error S E α) Q.Code :=
  match Q.codeOf? state with
  | some k => .ok k
  | none => .error (.unknownState operation state)

/-- The code of a symbol, which the operation has to know. -/
def symbolCode (A : Alphabet E) (operation : Operation) (symbol : E) :
    Except (Error S E α) A.Code :=
  match A.codeOf? symbol with
  | some x => .ok x
  | none => .error (.unknownSymbol operation symbol)

/-- The codes of a list of states, which the operation has to know. -/
def stateCodes (Q : Alphabet S) (operation : Operation) (states : List S) :
    Except (Error S E α) (List Q.Code) :=
  (Q.encode states).mapError (.unknownState operation)

/-- The codes of a list of symbols, which the operation has to know. -/
def symbolCodes (A : Alphabet E) (operation : Operation) (symbols : List E) :
    Except (Error S E α) (List A.Code) :=
  (A.encode symbols).mapError (.unknownSymbol operation)

end Alphabet

end Trellis
