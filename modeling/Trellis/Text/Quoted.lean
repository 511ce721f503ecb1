import Trellis.Text.Unprintable

/-!
# Quoted text

A value as it is quoted in a message. Text stands between quotation marks; the
mark itself, the backslash and what cannot be printed are escaped.
-/

namespace Trellis

/-- How a value is quoted in a message. -/
class Quoted (τ : Type) where
  quoted : τ → String

export Quoted (quoted)

namespace Text

/-- A character by the hexadecimal digits of its code point. -/
def codePointEscape (c : Char) : List Char :=
  ['\\', 'u', '\x7b'] ++ Nat.toDigits 16 c.toNat ++ ['\x7d']

/-- A character between two marks of the given kind. -/
def escaped (mark c : Char) : List Char :=
  if c = '\x00' then ['\\', '0']
  else if c = '\t' then ['\\', 't']
  else if c = '\n' then ['\\', 'n']
  else if c = '\r' then ['\\', 'r']
  else if c = '\\' ∨ c = mark then ['\\', c]
  else if isUnprintable c then codePointEscape c
  else [c]

def quotedBetween (mark : Char) (cs : List Char) : String :=
  String.ofList (mark :: cs.flatMap (escaped mark) ++ [mark])

end Text

instance : Quoted String where
  quoted s := Text.quotedBetween '\x22' s.toList

instance : Quoted Char where
  quoted c := Text.quotedBetween '\x27' [c]

instance : Quoted Int where
  quoted n := toString n

end Trellis
