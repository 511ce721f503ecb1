import Trellis.Text.Quoted

/-!
# Symbols

States and emissions of mixed kind: text, whole numbers and single letters.
Symbols of different kinds are never equal, even where they are written alike.
-/

namespace Trellis

/-- A symbol that is text, a whole number or a letter. -/
inductive Symbol where
  | text (value : String)
  | number (value : Int)
  | letter (value : Char)
deriving DecidableEq, Repr

namespace Symbol

/-- A symbol without marks, as it stands in a written path. -/
def plain : Symbol → String
  | .text s => s
  | .number n => toString n
  | .letter c => c.toString

instance : Quoted Symbol where
  quoted
    | .text s => quoted s
    | .number n => quoted n
    | .letter c => quoted c

end Symbol

end Trellis
