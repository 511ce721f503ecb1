import Trellis.Proofs.Decoding
import Trellis.Proofs.RecodedModels

/-!
# Decoding by other codes

The decoder breaks ties by the order of the states, so by other codes it may
find another of the best paths. It finds one with the same score, or stops at
the same position (`decode_recode`, `decodeOver_recode`), since the scores of all
paths say which score and which position that is (`FindsScore.unique`).
-/

namespace Trellis

variable {S E K σ : Type} {Q Q' : Alphabet S} {A A' : Alphabet E} [Field K] [Score σ]
  [Logarithm K σ]

namespace Decoder

/-- What the scores of the paths over the searched states say about decoding:
the greatest of them if it is possible, else the first prefix over which all are
impossible. Which of the best paths is found is left open. -/
inductive FindsScore (m : Model Q A K) (search : List Q.Code) (xs : List A.Code) :
    Except Nat σ → Prop where
  | found {states : List Q.Code} : PathOver search xs.length states →
      (∀ others, PathOver search xs.length others →
        m.pathScore others xs ≤ (m.pathScore states xs : σ)) →
      (Score.bottom : σ) < m.pathScore states xs →
      FindsScore m search xs (.ok (m.pathScore states xs))
  | stopped {t : Nat} :
      (∀ states, PathOver search xs.length states →
        m.pathScore states xs = (Score.bottom : σ)) →
      (∀ states, PathOver search (t + 1) states →
        m.pathScore states (xs.take (t + 1)) = (Score.bottom : σ)) →
      (∀ s < t, ∃ states, PathOver search (s + 1) states ∧
        (Score.bottom : σ) < m.pathScore states (xs.take (s + 1))) →
      FindsScore m search xs (.error t)

variable {m : Model Q A K} {search : List Q.Code} {xs : List A.Code}
  {result result' : Except Nat σ}

/-- The scores of the paths leave no choice. -/
theorem FindsScore.unique [OrderedScore σ] (finds : FindsScore m search xs result)
    (finds' : FindsScore m search xs result') : result = result' := by
  have contrary : ∀ {score : σ}, score = Score.bottom → ¬ Score.bottom < score := by
    rintro _ rfl
    exact OrderedScore.lt_irrefl _
  cases finds with
  | found path best possible =>
    cases finds' with
    | found path' best' possible' =>
      exact congrArg Except.ok (OrderedScore.le_antisymm (best' _ path) (best _ path'))
    | stopped impossible _ _ => exact absurd possible (contrary (impossible _ path))
  | @stopped t impossible here before =>
    cases finds' with
    | found path' _ possible' => exact absurd possible' (contrary (impossible _ path'))
    | @stopped u _ here' before' =>
      rcases lt_trichotomy t u with lt | rfl | lt
      · obtain ⟨states, path, possible⟩ := before' t lt
        exact absurd possible (contrary (here _ path))
      · rfl
      · obtain ⟨states, path, possible⟩ := before u lt
        exact absurd possible (contrary (here' _ path))

theorem findsScore_search [MonotoneScore σ] (m : Model Q A K) (columns : Columns Q.Code)
    (observed : xs ≠ []) :
    FindsScore m columns.toList xs
      (Path.score <$> (ofModel m : Decoder Q A σ).search columns xs) := by
  rcases search_ofModel_cases (σ := σ) m columns observed with
    ⟨states, path, found, best, others, path', possible⟩ | ⟨t, -, failed, impossible, here, before⟩
  · rw [found]
    refine .found path best ?_
    rw [OrderedScore.lt_iff_not_le] at possible ⊢
    exact fun le => possible (OrderedScore.le_trans (best others path') le)
  · rw [failed]
    exact .stopped impossible here before

/-! ### Other codes -/

section Recode

variable (q : Recoding Q Q') (a : Recoding A A')

theorem pathScore_recode (m : Model Q A K) (states : List Q.Code) (xs : List A.Code) :
    (m.recode q a).pathScore (states.map q.code) (xs.map a.code) =
      (m.pathScore states xs : σ) := by
  rw [Model.pathScore, Model.pathScore, List.zip_map, Model.factors_recode]

variable {search' : List Q'.Code} (members : ∀ k, q.code k ∈ search' ↔ k ∈ search)
include members

omit [Field K] [Score σ] [Logarithm K σ] in
theorem pathOver_recode {n : Nat} {states : List Q.Code} :
    PathOver search' n (states.map q.code) ↔ PathOver search n states := by
  simp [PathOver, members]

/-- A path by other codes is a path with the same scores. -/
theorem FindsScore.of_recode
    (finds : FindsScore (m.recode q a) search' (xs.map a.code) result) :
    FindsScore m search xs result := by
  have path_iff : ∀ n (states : List Q.Code),
      PathOver search' n (states.map q.code) ↔ PathOver search n states :=
    fun _ _ => pathOver_recode q members
  have lift := List.map_surjective_iff.mpr q.code.surjective
  cases finds with
  | @found states' path best possible =>
    obtain ⟨states, rfl⟩ := lift states'
    rw [pathScore_recode] at possible ⊢
    rw [List.length_map] at path best
    refine .found ((path_iff _ _).mp path) (fun others other => ?_) possible
    have le := best (others.map q.code) ((path_iff _ _).mpr other)
    rwa [pathScore_recode, pathScore_recode] at le
  | @stopped t impossible here before =>
    simp only [← List.map_take, List.length_map] at impossible here before
    refine .stopped (fun states path => ?_) (fun states path => ?_) fun s earlier => ?_
    · rw [← pathScore_recode q a m]
      exact impossible _ ((path_iff _ _).mpr path)
    · rw [← pathScore_recode q a m]
      exact here _ ((path_iff _ _).mpr path)
    · obtain ⟨states', path, possible⟩ := before s earlier
      obtain ⟨states, rfl⟩ := lift states'
      rw [pathScore_recode] at possible
      exact ⟨states, (path_iff _ _).mp path, possible⟩

end Recode

variable [MonotoneScore σ] (q : Recoding Q Q') (a : Recoding A A') (m : Model Q A K)

/-- A search over the same states finds the same score or stops at the same position. -/
theorem search_recode {columns : Columns Q.Code} {columns' : Columns Q'.Code}
    (members : ∀ k, q.code k ∈ columns'.toList ↔ k ∈ columns.toList) (xs : List A.Code) :
    Path.score <$> (ofModel (m.recode q a) : Decoder Q' A' σ).search columns' (xs.map a.code) =
      Path.score <$> (ofModel m : Decoder Q A σ).search columns xs := by
  cases xs with
  | nil => rfl
  | cons x rest =>
    have finds := findsScore_search (σ := σ) (m.recode q a) columns'
      (List.cons_ne_nil (a.code x) (rest.map a.code))
    exact (finds.of_recode q a members).unique (findsScore_search m columns (by simp))

variable [DecidableEq E]

theorem searchSymbols_recode {columns : Columns Q.Code} {columns' : Columns Q'.Code}
    (members : ∀ k, q.code k ∈ columns'.toList ↔ k ∈ columns.toList) (symbols : List E) :
    Path.score <$> ((ofModel (m.recode q a) : Decoder Q' A' σ).searchSymbols columns' symbols :
        Except (Error S E K) _) =
      Path.score <$> (ofModel m : Decoder Q A σ).searchSymbols columns symbols := by
  -- Naming the states of a path leaves its score alone.
  have scores : ∀ {κ : Type} (found : Except Nat (Path κ σ)) (name : κ → S),
      Path.score <$> (do
        let path ← found.mapError fun position =>
          (.numerical position .noPath : Error S E K)
        .ok (path.map name)) =
      (Path.score <$> found).mapError fun position => .numerical position .noPath := by
    intro κ found name
    cases found <;> rfl
  simp only [searchSymbols, a.symbolCodes_eq, bind_map_left]
  rw [map_bind, map_bind]
  refine bind_congr fun xs => ?_
  exact (scores _ _).trans ((congrArg _ (search_recode q a m members xs)).trans (scores _ _).symm)

/-- Decoding finds the same score, or stops at the same position. -/
theorem decode_recode (symbols : List E) :
    Path.score <$> ((ofModel (m.recode q a) : Decoder Q' A' σ).decode symbols :
        Except (Error S E K) _) =
      Path.score <$> (ofModel m : Decoder Q A σ).decode symbols := by
  refine searchSymbols_recode q a m (fun k => ?_) symbols
  simp [toList_wholeAlphabet, Alphabet.codes]

/-- So it does over listed states. -/
theorem decodeOver_recode [DecidableEq S] (states : List S) (symbols : List E) :
    Path.score <$> ((ofModel (m.recode q a) : Decoder Q' A' σ).decodeOver states symbols :
        Except (Error S E K) _) =
      Path.score <$> (ofModel m : Decoder Q A σ).decodeOver states symbols := by
  simp only [decodeOver, q.stateCodes_eq, bind_map_left, map_bind]
  refine bind_congr fun ks => ?_
  cases ks with
  | nil => rfl
  | cons k rest =>
    refine searchSymbols_recode q a m (fun l => ?_) symbols
    simp [Columns.toList, q.code.injective.eq_iff]

end Decoder

end Trellis
