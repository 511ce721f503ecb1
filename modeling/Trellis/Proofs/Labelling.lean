import Trellis.Proofs.Decoding
import Trellis.Proofs.KnownPaths

/-!
# Decoded paths as labels

A decoded path labels the symbols it was decoded from: the labelled sequence can
be counted, and its log-likelihood is the score of the path
(`labelledCounts_of_decoded`). The decoder never asks which arcs are allowed. It
carries the score of a path along with the path (`Decoder.Genuine`,
`genuine_proceed`), and a score other than that of what cannot happen has no
forbidden arc in it (`forbiddenStep?_of_pathScore`). Only the order of the scores
is used, not that addition keeps it, so what is decoded need not be a best path
here.
-/

namespace Trellis

variable {S E α σ : Type} {Q : Alphabet S} {A : Alphabet E}

/-! ### Sums of scores -/

section Sums

variable [Score σ] [OrderedScore σ]

theorem foldl_add_bottom (scores : List σ) :
    scores.foldl (· + ·) (Score.bottom : σ) = Score.bottom := by
  induction scores with
  | nil => rfl
  | cons a rest ih => rw [List.foldl_cons, OrderedScore.bottom_add, ih]

theorem foldl_add_of_mem {scores : List σ} (mem : Score.bottom ∈ scores) (a : σ) :
    scores.foldl (· + ·) a = Score.bottom := by
  induction scores generalizing a with
  | nil => cases mem
  | cons b rest ih =>
    rw [List.foldl_cons]
    rcases List.mem_cons.mp mem with rfl | later
    · rw [OrderedScore.add_bottom, foldl_add_bottom]
    · exact ih later _

/-- One score of what cannot happen makes a whole sum impossible. -/
theorem totalFromFirst_of_mem {scores : List σ} (mem : Score.bottom ∈ scores) :
    totalFromFirst scores = Score.bottom := by
  cases scores with
  | nil => cases mem
  | cons a rest =>
    rcases List.mem_cons.mp mem with rfl | later
    · exact foldl_add_bottom rest
    · exact foldl_add_of_mem later a

end Sums

namespace Decoder

/-! ### What a search returns -/

section Search

variable [Score σ] [OrderedScore σ]

/-- Genuine survivors stay genuine to the end of a search, which leaves some of
them possible. -/
theorem genuine_proceed {d : Decoder Q A σ} {search : Columns Q.Code} {position : Nat}
    {rest seen : List A.Code} {survivors final : Columns (Survivor Q.Code σ)}
    (genuine : ∀ v ∈ survivors.toList, d.Genuine search seen v)
    (found : d.proceed search position survivors rest = .ok final) :
    (∀ v ∈ final.toList, d.Genuine search (rest.reverse ++ seen) v) ∧
      ¬ final.Dead Survivor.score :=
  proceed_invariant (fun seen survivors => ∀ v ∈ survivors.toList, d.Genuine search seen v)
    (fun _ _ x here => genuine_extend here x) genuine found

/-- The best of columns that are not all impossible is possible. -/
theorem bottom_lt_best {β : Type} {score : β → σ} {cs : Columns β} (alive : ¬ cs.Dead score) :
    Score.bottom < (cs.best score).1 := by
  rw [OrderedScore.lt_iff_not_le]
  intro impossible
  refine alive fun b mem => ?_
  exact OrderedScore.le_trans (cs.le_best score mem) impossible

/-- What a search returns is a possible path over the searched states, with its
own score. -/
theorem search_eq_ok {d : Decoder Q A σ} {search : Columns Q.Code} {x : A.Code}
    {rest : List A.Code} {path : Path Q.Code σ}
    (found : d.search search (x :: rest) = .ok path) :
    ∃ k earlier, PathOver search.toList (rest.length + 1) (k :: earlier) ∧
      path = ⟨(k :: earlier).reverse, d.scoreTo k earlier (x :: rest).reverse⟩ ∧
      Score.bottom < path.score := by
  obtain ⟨final, proceeded, rfl⟩ := exists_final_of_search found
  obtain ⟨genuine, alive⟩ := genuine_proceed (d.genuine_start search x) proceeded
  rw [← List.reverse_cons] at genuine
  obtain ⟨mem, attained⟩ := final.best_mem Survivor.score
  obtain ⟨walked, score⟩ := genuine _ mem
  rw [List.length_reverse, List.length_cons] at walked
  refine ⟨_, _, walked, ?_, bottom_lt_best alive⟩
  rw [← score, ← attained]

/-- Over the tables of a model, the score of a found path is that of its factors. -/
theorem search_ofModel_eq_ok [Zero α] [Logarithm α σ] {m : Model Q A α}
    {search : Columns Q.Code} {xs : List A.Code} (observed : xs ≠ []) {path : Path Q.Code σ}
    (found : (ofModel m : Decoder Q A σ).search search xs = .ok path) :
    PathOver search.toList xs.length path.states ∧
      path.score = m.pathScore path.states xs ∧ Score.bottom < path.score := by
  obtain ⟨x, rest, rfl⟩ := List.exists_cons_of_ne_nil observed
  obtain ⟨k, earlier, walked, rfl, possible⟩ := search_eq_ok found
  have aligned : earlier.length + 1 = (x :: rest).reverse.length := by
    rw [List.length_reverse, List.length_cons]
    exact walked.1
  have score := m.pathScore_reverse (σ := σ) k earlier (x :: rest).reverse aligned
  rw [List.reverse_reverse] at score
  exact ⟨walked.reverse, score.symm, possible⟩

end Search

/-! ### Possible paths take no forbidden arc -/

/-- A path with a score other than that of what cannot happen has no factor zero. -/
theorem forbiddenStep?_of_pathScore [Zero α] [Score σ] [OrderedScore σ] [Logarithm α σ]
    (log_zero : Logarithm.log (0 : α) = (Score.bottom : σ)) {m : Model Q A α}
    {states : List Q.Code} {xs : List A.Code} (aligned : states.length = xs.length)
    (possible : (Score.bottom : σ) < m.pathScore states xs) : m.forbiddenStep? states = none := by
  refine Model.forbiddenStep?_of_factors aligned fun p mem zero => ?_
  have impossible : (Score.bottom : σ) ∈ (m.factors (states.zip xs)).map Logarithm.log := by
    rw [← log_zero, ← zero]
    exact List.mem_map_of_mem mem
  rw [Model.pathScore, totalFromFirst_of_mem impossible] at possible
  exact OrderedScore.lt_irrefl _ possible

/-! ### Decoding by symbol -/

section Symbols

variable [Score σ] [DecidableEq S] [DecidableEq E]

omit [DecidableEq S] in
/-- A path that was decoded was found among the codes of the symbols. -/
theorem searchSymbols_eq_ok {d : Decoder Q A σ} {columns : Columns Q.Code} {symbols : List E}
    {path : Path S σ}
    (decoded : d.searchSymbols columns symbols = (.ok path : Except (Error S E α) _)) :
    ∃ xs found, A.encode symbols = .ok xs ∧ d.search columns xs = .ok found ∧
      path = found.map Q.symbol := by
  obtain ⟨xs, known, decoded⟩ := bind_eq_ok.mp decoded
  obtain ⟨found, searched, returned⟩ := bind_eq_ok.mp decoded
  cases returned
  exact ⟨xs, found, mapError_eq_ok.mp known, mapError_eq_ok.mp searched, rfl⟩

theorem decodeOver_eq_ok {d : Decoder Q A σ} {states : List S} {symbols : List E}
    {path : Path S σ}
    (decoded : d.decodeOver states symbols = (.ok path : Except (Error S E α) _)) :
    ∃ columns, Q.encode states = .ok columns.toList ∧
      d.searchSymbols columns symbols = (.ok path : Except (Error S E α) _) := by
  obtain ⟨ks, listed, decoded⟩ := bind_eq_ok.mp decoded
  rw [Alphabet.stateCodes, mapError_eq_ok] at listed
  cases ks with
  | nil => cases decoded
  | cons k rest => exact ⟨⟨k, rest⟩, listed, decoded⟩

end Symbols

variable [Arithmetic α] [Score σ] [OrderedScore σ] [Logarithm α σ] [DecidableEq S] [DecidableEq E]

/-- **A decoded path labels its symbols.** The decoded path and the symbols make a
labelled sequence; the sequence can be counted, so the path takes no forbidden
arc; and what is counted has the score of the path as its log-likelihood. This
holds of every model, in any arithmetic where nothing is lost by adding to zero
and the logarithm of zero is the score of what cannot happen. -/
theorem labelledCounts_of_decoded (zero_add : ∀ a : σ, 0 + a = a)
    (log_zero : Logarithm.log (0 : α) = (Score.bottom : σ)) (m : Model Q A α)
    {symbols : List E} (observed : symbols ≠ []) {path : Path S σ}
    (decoded : (ofModel m : Decoder Q A σ).decode symbols = (.ok path : Except (Error S E α) _) ∨
      ∃ states, (ofModel m : Decoder Q A σ).decodeOver states symbols =
        (.ok path : Except (Error S E α) _)) :
    ∃ (sequence : Sequence S E) (counts : Counts (.ofModel Q.size A.size) α σ),
      Sequence.ofStates symbols path.states = (.ok sequence : Except (Error S E α) _) ∧
      m.labelledCounts sequence = (.ok counts : Except (Error S E α) _) ∧
      counts.logLikelihood = path.score := by
  have searched : ∃ columns, (ofModel m : Decoder Q A σ).searchSymbols columns symbols =
      (.ok path : Except (Error S E α) _) := by
    rcases decoded with whole | ⟨states, listed⟩
    · exact ⟨_, whole⟩
    · obtain ⟨columns, -, searched⟩ := decodeOver_eq_ok listed
      exact ⟨columns, searched⟩
  obtain ⟨columns, searched⟩ := searched
  obtain ⟨xs, found, known, reached, rfl⟩ := searchSymbols_eq_ok searched
  have nonempty : xs ≠ [] := by
    rintro rfl
    have length := Alphabet.length_of_encode known
    exact observed (List.length_eq_zero_iff.mp length.symm)
  obtain ⟨walked, score, possible⟩ := search_ofModel_eq_ok nonempty reached
  rw [score] at possible
  obtain ⟨sequence, labelled, counted⟩ := Model.labelledCounts_of_forbiddenStep? (σ := σ) known
    nonempty walked.1 (forbiddenStep?_of_pathScore log_zero walked.1 possible)
  refine ⟨sequence, _, labelled, counted, ?_⟩
  calc (m.pathCounts (found.states.zip xs) : Counts _ α σ).logLikelihood
    _ = total ((m.factors (found.states.zip xs)).map Logarithm.log) := rfl
    _ = m.pathScore found.states xs := (totalFromFirst_eq_total zero_add _).symm
    _ = found.score := score.symm

theorem labelledCounts_machine :
    ∃ (path : Path Nat EReal) (sequence : Sequence Nat Nat)
      (counts : Counts (.ofModel 2 2) ℚ EReal),
      ((ofModel Machine.model : Decoder _ _ EReal).decode [0, 0, 1] :
        Except (Error Nat Nat ℚ) _) = .ok path ∧
      Sequence.ofStates [0, 0, 1] path.states = (.ok sequence : Except (Error Nat Nat ℚ) _) ∧
      Machine.model.labelledCounts sequence = (.ok counts : Except (Error Nat Nat ℚ) _) ∧
      counts.logLikelihood = path.score := by
  have known : Machine.symbols.encode [0, 0, 1] = .ok Machine.shown := by decide
  have possible : (Score.bottom : EReal) <
      Machine.model.pathScore [Machine.working, Machine.working, Machine.failed] Machine.shown :=
    (Machine.model_reachable.wellFormed.bottom_lt_pathScore_iff _ _).mpr (by decide +kernel)
  rcases decode_cases (σ := EReal) Machine.model known (by decide) with
    ⟨states, -, decoded, -⟩ | ⟨-, -, -, impossible, -⟩
  · obtain ⟨sequence, counts, labels⟩ := labelledCounts_of_decoded zero_add
      (LawfulLogarithm.log_zero (K := ℚ)) Machine.model (by decide) (.inl decoded)
    exact ⟨_, sequence, counts, decoded, labels⟩
  · rw [impossible [Machine.working, Machine.working, Machine.failed] rfl] at possible
    exact absurd possible (lt_irrefl _)

end Decoder

end Trellis
