import Trellis.Alphabet.Lookup

/-!
# Encoding

A sequence has codes exactly if it is made of symbols of the alphabet
(`encode_eq_ok_iff`). If it is not, the first of its symbols that is unknown is
reported (`encode_eq_error_iff`, `encode_eq_error_iff_split`).
-/

namespace Trellis.Alphabet

variable {τ : Type} [DecidableEq τ] {Q : Alphabet τ} {symbols : List τ}

/-- The first of the symbols that the alphabet does not know. -/
def firstUnknown? (Q : Alphabet τ) (symbols : List τ) : Option τ := symbols.find? (· ∉ Q.symbols)

/-- The codes of a sequence are the codes that spell it. -/
theorem encode_eq_ok_iff {ks : List Q.Code} :
    Q.encode symbols = .ok ks ↔ ks.map Q.symbol = symbols := by
  constructor
  · intro known
    induction symbols generalizing ks with
    | nil =>
      cases known
      rfl
    | cons s rest ih =>
      rw [encode] at known
      split at known
      · cases known
      · rename_i k code
        cases later : Q.encode rest with
        | error t =>
          rw [later] at known
          cases known
        | ok codes =>
          rw [later] at known
          cases known
          rw [List.map_cons, Q.codeOf?_eq_some_iff.mp code, ih later]
  · rintro rfl
    exact Q.encode_map_symbol ks

/-- What is reported is the first symbol that is unknown. -/
theorem encode_eq_error_iff {s : τ} :
    Q.encode symbols = .error s ↔ Q.firstUnknown? symbols = some s := by
  induction symbols with
  | nil => simp [encode, firstUnknown?]
  | cons t rest ih =>
    rw [encode, firstUnknown?, List.find?_cons]
    cases code : Q.codeOf? t with
    | none => simp [Q.codeOf?_eq_none_iff.mp code]
    | some k =>
      have known : t ∈ Q.symbols := Q.isSome_codeOf?.mp (code ▸ rfl)
      rw [decide_eq_false (not_not_intro known), ← firstUnknown?, ← ih]
      cases Q.encode rest with
      | error u => simp [Except.map]
      | ok ks => simp [Except.map]

/-- Where the first unknown symbol stands. -/
theorem encode_eq_error_iff_split {s : τ} :
    Q.encode symbols = .error s ↔ ∃ before after, symbols = before ++ s :: after ∧
      (∀ t ∈ before, t ∈ Q.symbols) ∧ s ∉ Q.symbols := by
  rw [encode_eq_error_iff, firstUnknown?, List.find?_eq_some_iff_append]
  simp only [decide_not, Bool.not_eq_true', decide_eq_false_iff_not, Bool.not_not,
    decide_eq_true_eq]
  constructor
  · rintro ⟨unknown, before, after, split, known⟩
    exact ⟨before, after, split, known, unknown⟩
  · rintro ⟨before, after, split, known, unknown⟩
    exact ⟨unknown, before, after, split, known⟩

theorem encode_eq_ok (known : Q.firstUnknown? symbols = none) :
    Q.encode symbols = .ok (symbols.filterMap Q.codeOf?) := by
  cases encoded : Q.encode symbols with
  | error s => cases known.symm.trans (encode_eq_error_iff.mp encoded)
  | ok ks =>
    have decodes : Q.codeOf? ∘ Q.symbol = some := funext Q.codeOf?_symbol
    rw [← encode_eq_ok_iff.mp encoded, List.filterMap_map, decodes, List.filterMap_some]

end Trellis.Alphabet
