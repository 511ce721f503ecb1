import Mathlib.Data.List.Nodup
import Trellis.Proofs.Encoding

/-!
# Maps of codes

An alphabet can be kept in two forms: the list of its symbols, and a hash map from
each symbol to its code. One pass over the list fills the map, and stops at a symbol
that is in it already. After the pass the two forms are inverse to each other, which
holds of every part of the list that has been entered (`Inverse.insert`,
`Inverse.fill`). `CodeMap.made` states for any list of symbols which map it makes, if it
makes one: the numbers of its symbols (`Numbers`) and what is encoded by them
(`Encodes`). The code map of an alphabet has the codes of the alphabet
(`Alphabet.codeOf?_codeMap`, `Alphabet.encode_codeMap`).
-/

namespace Trellis

variable {τ : Type} [DecidableEq τ]

namespace Alphabet

/-! ### Repetitions -/

theorem firstRepeat?_eq_some_iff {seen symbols : List τ} {s : τ} :
    firstRepeat? seen symbols = some s ↔ ∃ before after, symbols = before ++ s :: after ∧
      before.Nodup ∧ (∀ t ∈ before, t ∉ seen) ∧ (s ∈ seen ∨ s ∈ before) := by
  induction symbols generalizing seen with
  | nil => simp [firstRepeat?]
  | cons t rest ih =>
    rw [firstRepeat?]
    constructor
    · intro repeated
      split at repeated
      · rename_i old
        cases repeated
        exact ⟨[], rest, rfl, List.nodup_nil, by simp, .inl old⟩
      · rename_i fresh
        obtain ⟨before, after, rfl, nodup, unseen, met⟩ := ih.mp repeated
        refine ⟨t :: before, after, rfl, ?_, ?_, ?_⟩
        · exact List.nodup_cons.mpr ⟨fun again => unseen t again List.mem_cons_self, nodup⟩
        · intro u mem
          rcases List.mem_cons.mp mem with rfl | mem
          · exact fresh
          · exact fun old => unseen u mem (List.mem_cons_of_mem t old)
        · rw [List.mem_cons] at met ⊢
          tauto
    · rintro ⟨_ | ⟨u, before⟩, after, split, nodup, unseen, met⟩
      · cases split
        rw [if_pos (met.resolve_right List.not_mem_nil)]
      · cases split
        rw [if_neg (unseen t List.mem_cons_self)]
        rw [List.nodup_cons] at nodup
        refine ih.mpr ⟨before, after, rfl, nodup.2, fun u mem old => ?_, ?_⟩
        · rcases List.mem_cons.mp old with rfl | old
          · exact nodup.1 mem
          · exact unseen u (List.mem_cons_of_mem t mem) old
        · rw [List.mem_cons] at met ⊢
          tauto

/-- A symbol repeats an earlier one, and it is the first in the list that does. -/
def FirstRepeat (symbols : List τ) (s : τ) : Prop :=
  ∃ before after, symbols = before ++ s :: after ∧ before.Nodup ∧ s ∈ before

theorem firstRepeat_iff {symbols : List τ} {s : τ} :
    FirstRepeat symbols s ↔ firstRepeat? [] symbols = some s := by
  simp [firstRepeat?_eq_some_iff, FirstRepeat]

theorem ofList_eq_empty_iff {symbols : List τ} : ofList symbols = .error .empty ↔ symbols = [] := by
  unfold ofList
  split
  · simp_all
  · rename_i something
    split
    · simp [something]
    · simp [something]

theorem ofList_eq_duplicate_iff {symbols : List τ} {s : τ} :
    ofList symbols = .error (.duplicate s) ↔ FirstRepeat symbols s := by
  rw [firstRepeat_iff]
  unfold ofList
  split
  · rename_i nothing
    simp [nothing, firstRepeat?]
  · split
    · rename_i t repeated
      simp [repeated]
    · rename_i never
      simp [never]

theorem symbols_of_ofList {symbols : List τ} {Q : Alphabet τ} (made : ofList symbols = .ok Q) :
    Q.symbols = symbols := by
  unfold ofList at made
  split at made
  · cases made
  · split at made
    · cases made
    · cases made
      rfl

/-- A list makes an alphabet exactly if it has symbols and repeats none; they are the symbols
of the alphabet. -/
theorem exists_ofList_iff {symbols : List τ} :
    (∃ Q, ofList symbols = .ok Q) ↔ symbols ≠ [] ∧ symbols.Nodup := by
  constructor
  · rintro ⟨Q, made⟩
    rw [← symbols_of_ofList made]
    exact ⟨Q.symbols_ne_nil, Q.nodup⟩
  · rintro ⟨something, nodup⟩
    cases made : ofList symbols with
    | ok Q => exact ⟨Q, rfl⟩
    | error fault =>
      cases fault with
      | empty => exact absurd (ofList_eq_empty_iff.mp made) something
      | duplicate s =>
        obtain ⟨before, after, rfl, -, again⟩ := ofList_eq_duplicate_iff.mp made
        exact absurd rfl ((List.nodup_append.mp nodup).2.2 s again s List.mem_cons_self)

end Alphabet

/-! ### Two forms of an alphabet -/

variable [Hashable τ]

/-- Symbols in order, and a number for each. -/
structure CodeMap (τ : Type) [DecidableEq τ] [Hashable τ] where
  symbols : List τ
  codes : Std.HashMap τ Nat

namespace CodeMap

/-- Enters symbols under consecutive numbers, up to one that has been entered before. -/
def enter (codes : Std.HashMap τ Nat) (next : Nat) :
    List τ → Except (Alphabet.Fault τ) (Std.HashMap τ Nat)
  | [] => .ok codes
  | s :: rest =>
    let (known, codes) := codes.containsThenInsert s next
    if known then .error (.duplicate s) else enter codes (next + 1) rest

/-- The code map of a list of symbols, if that is neither empty nor repeats a symbol. -/
def ofList (symbols : List τ) : Except (Alphabet.Fault τ) (CodeMap τ) :=
  if symbols.isEmpty then
    .error .empty
  else
    (enter ∅ 0 symbols).map fun codes => ⟨symbols, codes⟩

def size (C : CodeMap τ) : Nat := C.symbols.length

def codeOf? (C : CodeMap τ) (s : τ) : Option Nat := C.codes[s]?

def contains (C : CodeMap τ) (s : τ) : Bool := C.codes.contains s

/-- The symbol that a number stands for. -/
def symbol? (C : CodeMap τ) (code : Nat) : Option τ := C.symbols[code]?

/-- The code of a symbol, or what is said about an unknown one. -/
def codeOr {ε : Type} (C : CodeMap τ) (unknown : τ → ε) (s : τ) : Except ε Nat :=
  match C.codeOf? s with
  | some code => .ok code
  | none => .error (unknown s)

/-- The codes of a sequence, or what is said about its first unknown symbol. -/
def encode {ε : Type} (C : CodeMap τ) (unknown : τ → ε) (symbols : List τ) :
    Except ε (List Nat) :=
  symbols.mapM (C.codeOr unknown)

/-! ### Filling the map -/

/-- The map after symbols have been entered, none of them for the second time. -/
def fill (codes : Std.HashMap τ Nat) (next : Nat) : List τ → Std.HashMap τ Nat
  | [] => codes
  | s :: rest => fill (codes.insert s next) (next + 1) rest

/-- The map holds the positions of the symbols entered so far, and nothing else. -/
def Inverse (codes : Std.HashMap τ Nat) (entered : List τ) : Prop :=
  ∀ (s : τ) (c : Nat), codes[s]? = some c ↔ entered[c]? = some s

theorem Inverse.empty : Inverse (∅ : Std.HashMap τ Nat) [] := by
  intro s c
  simp

/-- **One symbol.** -/
theorem Inverse.insert {codes : Std.HashMap τ Nat} {entered : List τ} {s : τ}
    (inverse : Inverse codes entered) (fresh : s ∉ entered) :
    Inverse (codes.insert s entered.length) (entered ++ [s]) := by
  intro t c
  rw [Std.HashMap.getElem?_insert]
  by_cases same : s = t
  · subst same
    rw [beq_self_eq_true, if_pos rfl, Option.some.injEq]
    constructor
    · rintro rfl
      exact List.getElem?_concat_length
    · intro here
      -- any other number is that of an earlier symbol, or past the end
      by_contra earlier
      rw [List.getElem?_append] at here
      split at here
      · exact fresh (List.mem_of_getElem? here)
      · have past : c - entered.length ≠ 0 := by omega
        simp [past] at here
  · rw [if_neg (by simpa using same), inverse t c, List.getElem?_append]
    split
    · rfl
    · rename_i outside
      rw [List.getElem?_eq_none (Nat.not_lt.mp outside), List.getElem?_singleton]
      split
      · simp [same]
      · rfl

/-- **Some symbols**, one after another. -/
theorem Inverse.fill {codes : Std.HashMap τ Nat} {entered rest : List τ}
    (inverse : Inverse codes entered) (nodup : (entered ++ rest).Nodup) :
    Inverse (fill codes entered.length rest) (entered ++ rest) := by
  induction rest generalizing codes entered with
  | nil => rwa [List.append_nil]
  | cons s rest ih =>
    rw [List.append_cons] at nodup ⊢
    have fresh : s ∉ entered := fun old =>
      (List.nodup_append.mp (List.nodup_append.mp nodup).1).2.2 s old s (by simp) rfl
    have next := ih (inverse.insert fresh) nodup
    rwa [List.length_append, List.length_singleton] at next

/-- The pass stops where the list first repeats what the map has. -/
theorem enter_eq {codes : Std.HashMap τ Nat} {seen : List τ}
    (known : ∀ s, codes.contains s = true ↔ s ∈ seen) (next : Nat) (symbols : List τ) :
    enter codes next symbols =
      match Alphabet.firstRepeat? seen symbols with
      | some s => .error (.duplicate s)
      | none => .ok (fill codes next symbols) := by
  induction symbols generalizing codes seen next with
  | nil => rfl
  | cons s rest ih =>
    rw [enter, Alphabet.firstRepeat?, fill]
    simp only [Std.HashMap.containsThenInsert_fst, Std.HashMap.containsThenInsert_snd]
    by_cases old : s ∈ seen
    · rw [if_pos ((known s).mpr old), if_pos old]
    · rw [if_neg (fun present => old ((known s).mp present)), if_neg old]
      refine ih (fun t => ?_) (next + 1)
      rw [Std.HashMap.contains_insert, Bool.or_eq_true, known, List.mem_cons, beq_iff_eq, eq_comm]

end CodeMap

namespace Alphabet

/-- The code map of an alphabet. -/
def codeMap (Q : Alphabet τ) : CodeMap τ := ⟨Q.symbols, CodeMap.fill ∅ 0 Q.symbols⟩

/-- A list of symbols makes a code map exactly if it makes an alphabet, and then the code map of
this alphabet; else both are refused alike. -/
theorem codeMap_ofList (symbols : List τ) :
    CodeMap.ofList symbols = (ofList symbols).map codeMap := by
  have unentered : ∀ s : τ, (∅ : Std.HashMap τ Nat).contains s = true ↔ s ∈ ([] : List τ) := by
    simp
  unfold CodeMap.ofList ofList
  rw [CodeMap.enter_eq unentered]
  by_cases nothing : symbols = []
  · simp [nothing, Except.map]
  · simp only [List.isEmpty_iff, nothing, if_false, dif_neg, not_false_eq_true]
    split
    · rename_i s repeated
      split
      · rename_i t again
        cases repeated.symm.trans again
        rfl
      · rename_i never
        cases repeated.symm.trans never
    · rename_i never
      split
      · rename_i s repeated
        cases never.symm.trans repeated
      · rfl

section CodeMap

variable (Q : Alphabet τ)

theorem inverse_codeMap : CodeMap.Inverse Q.codeMap.codes Q.symbols :=
  CodeMap.Inverse.empty.fill Q.nodup

theorem size_codeMap : Q.codeMap.size = Q.size := rfl

/-- The code map of an alphabet has the codes of the alphabet, as numbers. -/
theorem codeOf?_codeMap (s : τ) : Q.codeMap.codeOf? s = (Q.codeOf? s).map Fin.val := by
  have holds : Q.codeMap.codes[s]? = (Q.codeOf? s).map Fin.val := by
    refine Option.ext fun c => (Q.inverse_codeMap s c).trans ?_
    rw [Option.map_eq_some_iff]
    constructor
    · intro here
      obtain ⟨inside, rfl⟩ := List.getElem?_eq_some_iff.mp here
      exact ⟨⟨c, inside⟩, Q.codeOf?_symbol ⟨c, inside⟩, rfl⟩
    · rintro ⟨k, code, rfl⟩
      rw [← Q.codeOf?_eq_some_iff.mp code]
      exact List.getElem?_eq_getElem k.isLt
  exact holds

theorem codeOr_codeMap {ε : Type} (unknown : τ → ε) (s : τ) :
    Q.codeMap.codeOr unknown s =
      match Q.codeOf? s with
      | some k => .ok k.val
      | none => .error (unknown s) := by
  rw [CodeMap.codeOr, codeOf?_codeMap]
  cases Q.codeOf? s with
  | none => rfl
  | some k => rfl

/-- A sequence has the same codes by the map, or the same first symbol without one. -/
theorem encode_codeMap {ε : Type} (unknown : τ → ε) (symbols : List τ) :
    Q.codeMap.encode unknown symbols =
      ((Q.encode symbols).mapError unknown).map (List.map Fin.val) := by
  induction symbols with
  | nil => rfl
  | cons s rest ih =>
    rw [CodeMap.encode, List.mapM_cons, ← CodeMap.encode, ih, codeOr_codeMap, encode]
    cases Q.codeOf? s with
    | none => rfl
    | some k =>
      cases Q.encode rest with
      | error t => rfl
      | ok ks => rfl

end CodeMap

end Alphabet

/-! ### What a code map tells -/

namespace CodeMap

/-- The symbols are numbered from zero in the order of the list, and a symbol and a number
determine each other. -/
structure Numbers (C : CodeMap τ) (symbols : List τ) : Prop where
  size_eq : C.size = symbols.length
  symbol?_eq : ∀ c, C.symbol? c = symbols[c]?
  isSome_symbol? : ∀ c, (C.symbol? c).isSome = true ↔ c < C.size
  codeOf?_eq_some_iff : ∀ s c, C.codeOf? s = some c ↔ C.symbol? c = some s
  contains_iff : ∀ s, C.contains s = true ↔ s ∈ symbols

/-- Sequences of listed symbols have numbers, which are numbers of symbols and stand for the
sequence; any other sequence is refused for its first unlisted symbol. -/
structure Encodes (C : CodeMap τ) (symbols : List τ) : Prop where
  exists_iff : ∀ {ε : Type} (unknown : τ → ε) sequence,
    (∃ codes, C.encode unknown sequence = .ok codes) ↔ ∀ s ∈ sequence, s ∈ symbols
  decodes : ∀ {ε : Type} (unknown : τ → ε) sequence codes,
    C.encode unknown sequence = .ok codes →
      (∀ c ∈ codes, c < C.size) ∧ codes.map C.symbol? = sequence.map some
  error_iff : ∀ {ε : Type} (unknown : τ → ε) sequence e,
    C.encode unknown sequence = .error e ↔ ∃ before s after, sequence = before ++ s :: after ∧
      (∀ t ∈ before, t ∈ symbols) ∧ s ∉ symbols ∧ e = unknown s

end CodeMap

namespace Alphabet

variable (Q : Alphabet τ)

theorem symbol?_val (k : Q.Code) : Q.codeMap.symbol? k.val = some (Q.symbol k) :=
  List.getElem?_eq_getElem k.isLt

theorem numbers_codeMap : Q.codeMap.Numbers Q.symbols where
  size_eq := rfl
  symbol?_eq _ := rfl
  isSome_symbol? _ := by rw [CodeMap.symbol?, isSome_getElem?]; rfl
  codeOf?_eq_some_iff := Q.inverse_codeMap
  contains_iff s := by
    rw [CodeMap.contains, Std.HashMap.contains_eq_isSome_getElem?]
    have code : Q.codeMap.codes[s]? = (Q.codeOf? s).map Fin.val := Q.codeOf?_codeMap s
    rw [code, Option.isSome_map, isSome_codeOf?]

theorem encodes_codeMap : Q.codeMap.Encodes Q.symbols where
  exists_iff unknown sequence := by
    rw [encode_codeMap]
    cases encoded : Q.encode sequence with
    | error s =>
      obtain ⟨before, after, rfl, -, strange⟩ := encode_eq_error_iff_split.mp encoded
      refine iff_of_false ?_ fun known => strange (known s (by simp))
      rintro ⟨codes, encoded⟩
      cases encoded
    | ok ks =>
      have known : ∀ s ∈ sequence, s ∈ Q.symbols := by
        rw [← encode_eq_ok_iff.mp encoded]
        intro s mem
        obtain ⟨k, -, rfl⟩ := List.mem_map.mp mem
        exact Q.symbol_mem k
      exact iff_of_true ⟨ks.map Fin.val, rfl⟩ known
  decodes unknown sequence codes encoded := by
    rw [encode_codeMap] at encoded
    cases known : Q.encode sequence with
    | error s =>
      rw [known] at encoded
      cases encoded
    | ok ks =>
      rw [known] at encoded
      cases encoded
      rw [← encode_eq_ok_iff.mp known]
      constructor
      · intro c mem
        obtain ⟨k, -, rfl⟩ := List.mem_map.mp mem
        exact k.isLt
      · rw [List.map_map, List.map_map]
        exact List.map_congr_left fun k _ => Q.symbol?_val k
  error_iff unknown sequence e := by
    rw [encode_codeMap]
    cases encoded : Q.encode sequence with
    | error s =>
      constructor
      · intro failed
        cases failed
        obtain ⟨before, after, split, known, strange⟩ := encode_eq_error_iff_split.mp encoded
        exact ⟨before, s, after, split, known, strange, rfl⟩
      · rintro ⟨before, t, after, split, known, strange, rfl⟩
        have first := encode_eq_error_iff_split.mpr ⟨before, after, split, known, strange⟩
        cases encoded.symm.trans first
        rfl
    | ok ks =>
      constructor
      · intro failed
        cases failed
      · rintro ⟨before, t, after, split, known, strange, rfl⟩
        have first := encode_eq_error_iff_split.mpr ⟨before, after, split, known, strange⟩
        cases encoded.symm.trans first

end Alphabet

/-- What becomes of a list: the code map of an alphabet, if there are symbols and none
repeats an earlier one; otherwise what is wrong, with the first repetition there is. -/
structure CodeMap.Made (symbols : List τ) : Prop where
  ofList_eq : ofList symbols = (Alphabet.ofList symbols).map Alphabet.codeMap
  exists_iff : (∃ C, ofList symbols = .ok C) ↔ symbols ≠ [] ∧ symbols.Nodup
  empty_iff : ofList symbols = .error .empty ↔ symbols = []
  duplicate_iff : ∀ s, ofList symbols = .error (.duplicate s) ↔ Alphabet.FirstRepeat symbols s
  numbers : ∀ C, ofList symbols = .ok C → C.Numbers symbols
  encodes : ∀ C, ofList symbols = .ok C → C.Encodes symbols

/-- Code maps are those of alphabets. -/
theorem CodeMap.exists_of_ofList {symbols : List τ} {C : CodeMap τ}
    (made : ofList symbols = .ok C) : ∃ Q : Alphabet τ, Q.symbols = symbols ∧ C = Q.codeMap := by
  rw [Alphabet.codeMap_ofList] at made
  cases alphabet : Alphabet.ofList symbols with
  | error fault =>
    rw [alphabet] at made
    cases made
  | ok Q =>
    rw [alphabet] at made
    cases made
    exact ⟨Q, Alphabet.symbols_of_ofList alphabet, rfl⟩

/-- Whatever the list is, it makes the map that it should, or none for the reason given. -/
theorem CodeMap.made (symbols : List τ) : Made symbols where
  ofList_eq := Alphabet.codeMap_ofList symbols
  exists_iff := by
    rw [← Alphabet.exists_ofList_iff, Alphabet.codeMap_ofList]
    cases Alphabet.ofList symbols with
    | error fault => exact iff_of_false nofun nofun
    | ok Q => exact iff_of_true ⟨_, rfl⟩ ⟨Q, rfl⟩
  empty_iff := by
    rw [← Alphabet.ofList_eq_empty_iff, Alphabet.codeMap_ofList]
    cases Alphabet.ofList symbols with
    | error fault => simp [Except.map]
    | ok Q => simp [Except.map]
  duplicate_iff s := by
    rw [← Alphabet.ofList_eq_duplicate_iff, Alphabet.codeMap_ofList]
    cases Alphabet.ofList symbols with
    | error fault => simp [Except.map]
    | ok Q => simp [Except.map]
  numbers C made := by
    obtain ⟨Q, rfl, rfl⟩ := exists_of_ofList made
    exact Q.numbers_codeMap
  encodes C made := by
    obtain ⟨Q, rfl, rfl⟩ := exists_of_ofList made
    exact Q.encodes_codeMap

end Trellis
