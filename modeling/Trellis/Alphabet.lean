/-!
# Alphabets

A finite ordered set of symbols. A symbol's code is its position, so codes and
symbols determine each other (`codeOf?_eq_some_iff`, `codeOf?_symbol`); every table
of this library is indexed by codes. A list makes an alphabet if it is not empty and
repeats nothing (`Alphabet.ofList`).
-/

namespace Trellis

/-- A nonempty list of distinct symbols, in declaration order. -/
structure Alphabet (τ : Type) where
  symbols : List τ
  symbols_ne_nil : symbols ≠ []
  nodup : symbols.Nodup

namespace Alphabet

variable {τ : Type}

/-- Why a list of symbols is no alphabet. -/
inductive Fault (τ : Type) where
  | empty
  | duplicate (symbol : τ)
deriving DecidableEq, Repr

abbrev size (Q : Alphabet τ) : Nat := Q.symbols.length

/-- Positions in the declaration order. -/
abbrev Code (Q : Alphabet τ) : Type := Fin Q.size

/-- All codes, in declaration order. -/
def codes (Q : Alphabet τ) : List Q.Code := List.finRange Q.size

/-- The symbol with a code. -/
def symbol (Q : Alphabet τ) (k : Q.Code) : τ := Q.symbols.get k

/-- The symbol at a position, if the alphabet reaches that far. -/
def symbol? (Q : Alphabet τ) (position : Nat) : Option τ := Q.symbols[position]?

theorem size_pos (Q : Alphabet τ) : 0 < Q.size :=
  List.length_pos_iff.mpr Q.symbols_ne_nil

theorem mem_symbols_iff (Q : Alphabet τ) {s : τ} : s ∈ Q.symbols ↔ ∃ k, Q.symbol k = s :=
  List.mem_iff_get

theorem symbol_mem (Q : Alphabet τ) (k : Q.Code) : Q.symbol k ∈ Q.symbols :=
  Q.mem_symbols_iff.mpr ⟨k, rfl⟩

theorem map_symbol_codes (Q : Alphabet τ) : Q.codes.map Q.symbol = Q.symbols := by
  apply List.ext_getElem
  · simp [codes]
  · simp [codes, symbol]

theorem flatMap_symbols {β : Type} (Q : Alphabet τ) (f : τ → List β) :
    Q.symbols.flatMap f = Q.codes.flatMap fun k => f (Q.symbol k) := by
  have symbols := congrArg (List.flatMap f) Q.map_symbol_codes
  rw [List.flatMap_map] at symbols
  exact symbols.symm

theorem symbol_inj (Q : Alphabet τ) {k l : Q.Code} : Q.symbol k = Q.symbol l ↔ k = l := by
  simp only [symbol, List.get_eq_getElem, List.getElem_inj Q.nodup, Fin.ext_iff]

section DecidableEq

variable [DecidableEq τ]

/-- The first of the symbols that occurs in `seen` or earlier in the list. -/
def firstRepeat? (seen : List τ) : List τ → Option τ
  | [] => none
  | s :: rest => if s ∈ seen then some s else firstRepeat? (s :: seen) rest

theorem firstRepeat?_eq_none {xs seen : List τ} (h : firstRepeat? seen xs = none) :
    xs.Nodup ∧ ∀ s ∈ xs, s ∉ seen := by
  induction xs generalizing seen with
  | nil => simp
  | cons s rest ih =>
    unfold firstRepeat? at h
    split at h
    · contradiction
    · rename_i fresh
      obtain ⟨nodup, unseen⟩ := ih h
      refine ⟨List.nodup_cons.mpr ⟨fun mem => ?_, nodup⟩, ?_⟩
      · exact unseen s mem (List.mem_cons_self ..)
      · intro t mem
        rcases List.mem_cons.mp mem with rfl | mem
        · exact fresh
        · exact fun seen => unseen t mem (List.mem_cons_of_mem _ seen)

/-- The alphabet of a list of symbols. A list without symbols is refused, and
so is one that repeats a symbol; the first repetition is named. -/
def ofList (symbols : List τ) : Except (Fault τ) (Alphabet τ) :=
  if ne : symbols = [] then
    .error .empty
  else
    match repeated : firstRepeat? [] symbols with
    | some s => .error (.duplicate s)
    | none => .ok ⟨symbols, ne, (firstRepeat?_eq_none repeated).1⟩

/-- The code of a symbol, if the alphabet has it. -/
def codeOf? (Q : Alphabet τ) (s : τ) : Option Q.Code := Q.symbols.finIdxOf? s

def contains (Q : Alphabet τ) (s : τ) : Bool := (Q.codeOf? s).isSome

/-- The codes of a sequence, or the first symbol that has none. -/
def encode (Q : Alphabet τ) : List τ → Except τ (List Q.Code)
  | [] => .ok []
  | s :: rest =>
    match Q.codeOf? s with
    | none => .error s
    | some k => (Q.encode rest).map (k :: ·)

theorem codeOf?_eq_some_iff (Q : Alphabet τ) {s : τ} {k : Q.Code} :
    Q.codeOf? s = some k ↔ Q.symbol k = s := by
  rw [codeOf?, List.finIdxOf?_eq_some_iff]
  refine ⟨fun h => h.1, fun h => ⟨h, fun j lt eq => ?_⟩⟩
  exact Nat.ne_of_lt lt ((List.getElem_inj Q.nodup).mp (eq.trans h.symm))

theorem codeOf?_symbol (Q : Alphabet τ) (k : Q.Code) : Q.codeOf? (Q.symbol k) = some k :=
  Q.codeOf?_eq_some_iff.mpr rfl

theorem codeOf?_eq_none_iff (Q : Alphabet τ) {s : τ} : Q.codeOf? s = none ↔ s ∉ Q.symbols :=
  List.finIdxOf?_eq_none_iff

theorem isSome_codeOf? (Q : Alphabet τ) {s : τ} : (Q.codeOf? s).isSome ↔ s ∈ Q.symbols := by
  rw [Option.isSome_iff_ne_none, ne_eq, codeOf?_eq_none_iff, Decidable.not_not]

/-- Symbols of known codes have these codes. -/
theorem encode_map_symbol (Q : Alphabet τ) (ks : List Q.Code) :
    Q.encode (ks.map Q.symbol) = .ok ks := by
  induction ks with
  | nil => rfl
  | cons k rest ih =>
    rw [List.map_cons, encode, codeOf?_symbol, ih]
    rfl

theorem encode_symbols (Q : Alphabet τ) : Q.encode Q.symbols = .ok Q.codes := by
  rw [← Q.map_symbol_codes]
  exact Q.encode_map_symbol Q.codes

theorem length_of_encode {Q : Alphabet τ} {symbols : List τ} {ks : List Q.Code}
    (known : Q.encode symbols = .ok ks) : ks.length = symbols.length := by
  induction symbols generalizing ks with
  | nil =>
    cases known
    rfl
  | cons s rest ih =>
    rw [encode] at known
    split at known
    · cases known
    · cases later : Q.encode rest with
      | error t =>
        rw [later] at known
        cases known
      | ok codes =>
        rw [later] at known
        cases known
        exact congrArg Nat.succ (ih later)

end DecidableEq

end Alphabet

end Trellis
