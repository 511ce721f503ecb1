import Trellis.Proofs.Decoding

/-!
# Decoding and the forward recursion agree

The decoder maximizes over state paths where the forward recursion sums over
them, so the two find the same prefixes possible and stop at the same position
(`forward_fails_iff`, `decode_fails_iff`). The best path is never more probable
than the sequence (`jointProbability_le`), and exactly as probable if it is the
only possible path (`eq_sum_iff_existsUnique`). `decode_forward_agree` says all of
this of the two results. The scores here are exact logarithms: the logarithm
turns products into sums and keeps the order of probabilities.
-/

namespace Trellis

variable {S E K σ : Type} {Q : Alphabet S} {A : Alphabet E} [Field K] [LinearOrder K]
  [IsStrictOrderedRing K]

/-- A member of a sum that is not negative is the whole sum exactly if it is
the only positive one. -/
theorem eq_sum_iff_existsUnique {ι : Type} [DecidableEq ι] {s : Finset ι} {f : ι → K}
    (nonneg : ∀ i, 0 ≤ f i) {a : ι} (mem : a ∈ s) (positive : 0 < f a) :
    f a = ∑ i ∈ s, f i ↔ ∃! i, i ∈ s ∧ 0 < f i := by
  have split := Finset.add_sum_erase s f mem
  constructor
  · intro whole
    have others : ∑ i ∈ s.erase a, f i = 0 := by
      rw [← whole] at split
      exact left_eq_add.mp split.symm
    have vanish := (Finset.sum_eq_zero_iff_of_nonneg fun i _ => nonneg i).mp others
    refine ⟨a, ⟨mem, positive⟩, ?_⟩
    rintro i ⟨member, counts⟩
    by_contra ne
    exact counts.ne' (vanish i (Finset.mem_erase.mpr ⟨ne, member⟩))
  · rintro ⟨only, -, unique⟩
    have vanish : ∀ i ∈ s.erase a, f i = 0 := by
      intro i member
      obtain ⟨ne, member⟩ := Finset.mem_erase.mp member
      by_contra counts
      have here := unique i ⟨member, (nonneg i).lt_of_ne (Ne.symm counts)⟩
      exact ne (here.trans (unique a ⟨mem, positive⟩).symm)
    rw [← split, Finset.sum_eq_zero vanish, add_zero]

namespace Model

/-! ### Possible prefixes -/

/-- The position at which a sequence becomes impossible: no path can emit the
prefix that ends there, and every shorter prefix is possible. -/
def DiesAt (m : Model Q A K) (xs : List A.Code) (t : Nat) : Prop :=
  t < xs.length ∧ m.probability (xs.take (t + 1)) = 0 ∧
    ∀ s < t, 0 < m.probability (xs.take (s + 1))

omit [IsStrictOrderedRing K] in
theorem DiesAt.unique {m : Model Q A K} {xs : List A.Code} {t u : Nat} (first : m.DiesAt xs t)
    (second : m.DiesAt xs u) : t = u := by
  obtain ⟨-, zero, before⟩ := first
  obtain ⟨-, zero', before'⟩ := second
  rcases lt_trichotomy t u with lt | eq | lt
  · exact absurd zero (before' t lt).ne'
  · exact eq
  · exact absurd zero' (before u lt).ne'

namespace WellFormed

variable {m : Model Q A K}

/-- A sequence is possible exactly if some path has a score other than that of
what cannot happen. -/
theorem probability_pos_iff_pathScore [Score σ] [OrderedScore σ] [Logarithm K σ]
    [LawfulLogarithm K σ] (sound : m.WellFormed) (xs : List A.Code) :
    0 < m.probability xs ↔
      ∃ states : List Q.Code, states.length = xs.length ∧
        (Score.bottom : σ) < m.pathScore states xs := by
  have nonneg : ∀ states ∈ Q.paths xs.length, 0 ≤ m.jointProbability states xs :=
    fun states _ => sound.jointProbability_nonneg states xs
  rw [probability, Finset.sum_pos_iff_of_nonneg nonneg]
  simp only [Alphabet.mem_paths, sound.bottom_lt_pathScore_iff]

theorem not_diesAt (sound : m.WellFormed) {xs : List A.Code} (positive : 0 < m.probability xs)
    (t : Nat) : ¬ m.DiesAt xs t := by
  rintro ⟨-, zero, -⟩
  exact (sound.probability_take_pos positive (t + 1)).ne' zero

/-- The forward recursion fails where the sequence becomes impossible. -/
theorem forward_fails_iff (sound : m.WellFormed) (xs : List A.Code) (t : Nat) :
    (∃ fault, m.forward xs = (.error (.numerical t fault) : Except (Error S E K) _)) ↔
      m.DiesAt xs t := by
  by_cases positive : 0 < m.probability xs
  · refine iff_of_false ?_ (sound.not_diesAt positive t)
    rintro ⟨fault, failed⟩
    cases xs with
    | nil => cases failed
    | cons x rest => cases (sound.forward_eq_ok positive).symm.trans failed
  · obtain ⟨u, bound, failed, dies⟩ := sound.forward_eq_error positive
    constructor
    · rintro ⟨fault, failed'⟩
      cases failed.symm.trans failed'
      exact ⟨bound, dies⟩
    · intro dies'
      obtain rfl := dies'.unique ⟨bound, dies⟩
      exact ⟨_, failed⟩

/-- A path alone is at most as probable as the sequence. -/
theorem jointProbability_le (sound : m.WellFormed) {states : List Q.Code} {xs : List A.Code}
    (aligned : states.length = xs.length) : m.jointProbability states xs ≤ m.probability xs :=
  Finset.single_le_sum (fun others _ => sound.jointProbability_nonneg others xs)
    (Alphabet.mem_paths.mpr aligned)

end WellFormed

end Model

namespace Decoder

variable [DecidableEq S] [DecidableEq E] [Score σ] [MonotoneScore σ] [Logarithm K σ]
  [LawfulLogarithm K σ] {m : Model Q A K} {symbols : List E} {xs : List A.Code}

omit [MonotoneScore σ] [LawfulLogarithm K σ] [DecidableEq S] [LinearOrder K]
  [IsStrictOrderedRing K] in
theorem decode_nil (known : A.encode symbols = .ok []) :
    ((ofModel m : Decoder Q A σ).decode symbols : Except (Error S E K) _) = .ok ⟨[], 0⟩ := by
  rw [decode, searchSymbols_eq _ _ known]
  rfl

omit [DecidableEq S] in
/-- Decoding fails where the sequence becomes impossible. -/
theorem decode_fails_iff (sound : m.WellFormed) (known : A.encode symbols = .ok xs) (t : Nat) :
    (∃ fault, (ofModel m : Decoder Q A σ).decode symbols =
        (.error (.numerical t fault) : Except (Error S E K) _)) ↔
      m.DiesAt xs t := by
  by_cases observed : xs = []
  · subst observed
    rw [decode_nil known]
    constructor
    · rintro ⟨fault, failed⟩
      cases failed
    · rintro ⟨bound, -⟩
      cases bound
  rcases decode_cases (σ := σ) m known observed with
    ⟨states, aligned, decoded, -, possible⟩ | ⟨u, bound, failed, -, here, before⟩
  · have positive := (sound.probability_pos_iff_pathScore xs).mpr ⟨states, aligned, possible⟩
    refine iff_of_false ?_ (sound.not_diesAt positive t)
    rintro ⟨fault, failed⟩
    cases decoded.symm.trans failed
  · have prefix_length : ∀ s ≤ u, (xs.take (s + 1)).length = s + 1 := by
      intro s le
      rw [List.length_take]
      omega
    have dies : m.DiesAt xs u := by
      refine ⟨bound, ?_, fun s lt => ?_⟩
      · by_contra counts
        obtain ⟨states, aligned, possible⟩ := (sound.probability_pos_iff_pathScore (σ := σ) _).mp
          ((sound.probability_nonneg _).lt_of_ne (Ne.symm counts))
        rw [prefix_length u le_rfl] at aligned
        rw [here states aligned] at possible
        exact OrderedScore.lt_irrefl _ possible
      · obtain ⟨states, aligned, possible⟩ := before s lt
        rw [← prefix_length s lt.le] at aligned
        exact (sound.probability_pos_iff_pathScore _).mpr ⟨states, aligned, possible⟩
    constructor
    · rintro ⟨fault, failed'⟩
      cases failed.symm.trans failed'
      exact dies
    · intro dies'
      obtain rfl := dies'.unique dies
      exact ⟨_, failed⟩

omit [DecidableEq S] in
/-- A decoded path has the score of a path that can emit the symbols. -/
theorem exists_of_decode (sound : m.WellFormed) (known : A.encode symbols = .ok xs)
    {path : Path S σ}
    (decoded : (ofModel m : Decoder Q A σ).decode symbols = (.ok path : Except (Error S E K) _)) :
    ∃ states : List Q.Code, states.length = xs.length ∧ 0 < m.jointProbability states xs ∧
      path.score = Logarithm.log (m.jointProbability states xs) := by
  by_cases observed : xs = []
  · subst observed
    cases (decode_nil known).symm.trans decoded
    have joint : m.jointProbability [] [] = 1 := rfl
    refine ⟨[], rfl, ?_, ?_⟩
    · rw [joint]
      exact one_pos
    · rw [joint, LawfulLogarithm.log_one]
  · rcases decode_cases (σ := σ) m known observed with
      ⟨states, aligned, found, -, possible⟩ | ⟨t, -, failed, -⟩
    · cases decoded.symm.trans found
      exact ⟨states, aligned, (sound.bottom_lt_pathScore_iff states xs).mp possible,
        sound.pathScore_eq_log states xs⟩
    · cases decoded.symm.trans failed

/-- **Decoding and the forward recursion agree on what is possible.** One fails
at a position exactly if the other does. Where both succeed, the score of the
best path is at most the log-likelihood of the sequence, and equal to it exactly
if one path alone is possible, as for the empty sequence. -/
theorem decode_forward_agree (reach : m.Reachable) (known : A.encode symbols = .ok xs) :
    (∀ t, (∃ fault, (ofModel m : Decoder Q A σ).decode symbols =
        (.error (.numerical t fault) : Except (Error S E K) _)) ↔
      ∃ fault, m.forward xs = (.error (.numerical t fault) : Except (Error S E K) _)) ∧
    ∀ path steps,
      (ofModel m : Decoder Q A σ).decode symbols = (.ok path : Except (Error S E K) _) →
      m.forward xs = (.ok steps : Except (Error S E K) _) →
        path.score ≤ ForwardStep.logLikelihood steps ∧
        (path.score = ForwardStep.logLikelihood steps ↔ xs = [] ∨
          ∃! states : List Q.Code,
            states.length = xs.length ∧ 0 < m.jointProbability states xs) := by
  have sound := reach.wellFormed
  have nonneg := fun states => sound.jointProbability_nonneg states xs
  refine ⟨fun t => ?_, ?_⟩
  · rw [decode_fails_iff sound known, sound.forward_fails_iff]
  intro path steps decoded computed
  have positive := sound.probability_pos computed
  obtain ⟨steps', computed', -, likelihood⟩ := sound.exists_forward (σ := σ) positive
  cases computed.symm.trans computed'
  obtain ⟨states, aligned, possible, score⟩ := exists_of_decode sound known decoded
  rw [likelihood, score]
  refine ⟨log_le_log possible.le (sound.jointProbability_le aligned), ?_⟩
  have alone : m.jointProbability states xs = m.probability xs ↔
      ∃! states : List Q.Code, states.length = xs.length ∧ 0 < m.jointProbability states xs := by
    rw [Model.probability,
      eq_sum_iff_existsUnique nonneg (Alphabet.mem_paths.mpr aligned) possible]
    simp only [Alphabet.mem_paths]
  rw [log_inj possible.le positive.le, alone]
  -- The empty sequence has one path only, and it is possible.
  refine (or_iff_right_of_imp ?_).symm
  rintro rfl
  refine ⟨states, ⟨aligned, possible⟩, ?_⟩
  rintro others ⟨length, -⟩
  rw [List.length_eq_zero_iff.mp length, List.length_eq_zero_iff.mp aligned]

/-- A working machine may fail at the end or not, so no path has all of the
probability of what it shows. -/
theorem decode_forward_machine :
    ∃ (path : Path Nat EReal) (steps : List (ForwardStep 2 ℚ)),
      ((ofModel Machine.model : Decoder _ _ EReal).decode [0, 0, 1] :
        Except (Error Nat Nat ℚ) _) = .ok path ∧
      (Machine.model.forward Machine.shown : Except (Error Nat Nat ℚ) _) = .ok steps ∧
      path.score ≤ ForwardStep.logLikelihood steps ∧
      path.score ≠ ForwardStep.logLikelihood steps := by
  have known : Machine.symbols.encode [0, 0, 1] = .ok Machine.shown := by decide
  have sound := Machine.model_reachable.wellFormed
  have positive : 0 < Machine.model.probability Machine.shown := by decide +kernel
  obtain ⟨steps, computed, -⟩ := sound.exists_forward (σ := EReal) positive
  obtain ⟨agree, scores⟩ :=
    decode_forward_agree (σ := EReal) Machine.model_reachable known
  rcases decode_cases (σ := EReal) Machine.model known (by decide) with
    ⟨states, -, decoded, -⟩ | ⟨t, -, failed, -⟩
  · obtain ⟨le, alone⟩ := scores _ steps decoded computed
    refine ⟨_, steps, decoded, computed, le, fun same => ?_⟩
    rcases alone.mp same with empty | ⟨only, -, unique⟩
    · cases empty
    · have works := unique [Machine.working, Machine.working, Machine.working]
        ⟨rfl, by decide +kernel⟩
      have fails := unique [Machine.working, Machine.working, Machine.failed]
        ⟨rfl, by decide +kernel⟩
      exact absurd (works.trans fails.symm) (by decide)
  · obtain ⟨fault, failed'⟩ := (agree t).mp ⟨_, failed⟩
    cases computed.symm.trans failed'

end Decoder

end Trellis
