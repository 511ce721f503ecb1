import Trellis.Proofs.Labelling

/-!
# Ties

Several paths may be best. Of these the decoder returns the one that comes first
when paths are compared from the last position backwards, by the place of their
states in the searched list (`FirstOfBest`, `decodeOver_firstOfBest`). Each choice of
a column favours what is listed first (`foldl_better_first`, `best_leads`); that the
choices of all positions together favour one path needs exact scores, which cancel
(`IsLog.add_right_cancel`), so that a best path is best up to each of its positions
(`leads_extend`). Rounded scores may tie where the path up to a position is not a
best one.
-/

namespace Trellis

variable {S E K σ : Type} {Q : Alphabet S} {A : Alphabet E}

/-- Where two lists of states first differ, one of them has the state that is
listed first. -/
def ListedFirst (ks : List Q.Code) : List Q.Code → List Q.Code → Prop :=
  List.Lex fun k l => ks.idxOf k < ks.idxOf l

/-- In the order of the alphabet, what is listed first is what has the least code. -/
theorem listedFirst_codes : ListedFirst Q.codes = List.Lex (· < ·) := by
  have order : (fun k l : Q.Code => Q.codes.idxOf k < Q.codes.idxOf l) = (· < ·) := by
    funext k l
    rw [Alphabet.codes, List.idxOf_finRange, List.idxOf_finRange, Fin.lt_def]
  rw [← order]
  rfl

/-! ### The first of the best columns -/

namespace Columns

variable {β κ : Type} [Score σ] [OrderedScore σ]

/-- A champion that is replaced is replaced by the first of those that no other
exceeds. -/
theorem foldl_better_first (score : β → σ) (xs : List β) (champion : σ × β) :
    xs.foldl (better score) champion = champion ∨
      ∃ front back, xs = front ++ (xs.foldl (better score) champion).2 :: back ∧
        champion.1 < (xs.foldl (better score) champion).1 ∧
        ∀ b ∈ front, score b < (xs.foldl (better score) champion).1 := by
  induction xs generalizing champion with
  | nil => exact .inl rfl
  | cons b rest ih =>
    rw [List.foldl_cons]
    by_cases exceeds : champion.1 < score b
    · have crowned : better score champion b = (score b, b) := if_pos exceeds
      rw [crowned]
      rcases ih (score b, b) with unchanged | ⟨front, back, split, above, below⟩
      · rw [unchanged]
        exact .inr ⟨[], rest, rfl, exceeds, by simp⟩
      · refine .inr ⟨b :: front, back, congrArg (b :: ·) split, ?_, ?_⟩
        · exact OrderedScore.lt_of_le_of_lt (OrderedScore.le_of_lt exceeds) above
        · intro c mem
          rcases List.mem_cons.mp mem with rfl | mem
          · exact above
          · exact below c mem
    · have kept : better score champion b = champion := if_neg exceeds
      rw [kept]
      rcases ih champion with unchanged | ⟨front, back, split, above, below⟩
      · exact .inl unchanged
      · refine .inr ⟨b :: front, back, congrArg (b :: ·) split, above, ?_⟩
        intro c mem
        rcases List.mem_cons.mp mem with rfl | mem
        · exact OrderedScore.lt_of_le_of_lt (OrderedScore.not_lt.mp exceeds) above
        · exact below c mem

/-- Whatever is listed before the best column has a lower score. -/
theorem exists_front_of_best (score : β → σ) (cs : Columns β) :
    ∃ front back, cs.toList = front ++ (cs.best score).2 :: back ∧
      ∀ b ∈ front, score b < (cs.best score).1 := by
  rcases foldl_better_first score cs.toList (Score.bottom, cs.first) with
    unchanged | ⟨front, back, split, -, below⟩
  · have default : cs.best score = (Score.bottom, cs.first) := unchanged
    rw [default]
    exact ⟨[], cs.rest, rfl, by simp⟩
  · exact ⟨front, back, split, below⟩

/-- A state whose columns all have the best score is not listed before that of
the best column. -/
theorem idxOf_best_le [DecidableEq κ] (score : β → σ) (cs : Columns β) (state : β → κ) {k : κ}
    (attains : ∀ b ∈ cs.toList, state b = k → (cs.best score).1 ≤ score b) :
    (cs.toList.map state).idxOf (state (cs.best score).2) ≤ (cs.toList.map state).idxOf k := by
  obtain ⟨front, back, split, below⟩ := cs.exists_front_of_best score
  have absent : k ∉ front.map state := by
    intro mem
    obtain ⟨b, earlier, rfl⟩ := List.mem_map.mp mem
    have listed : b ∈ cs.toList := by
      rw [split]
      exact List.mem_append_left _ earlier
    exact OrderedScore.lt_iff_not_le.mp (below b earlier) (attains b listed rfl)
  rw [split, List.map_append, List.map_cons, List.idxOf_append_of_notMem absent]
  by_cases repeated : state (cs.best score).2 ∈ front.map state
  · rw [List.idxOf_append_of_mem repeated]
    exact (List.idxOf_lt_length_of_mem repeated).le.trans (Nat.le_add_right _ _)
  · rw [List.idxOf_append_of_notMem repeated, List.idxOf_cons_self]
    exact Nat.add_le_add_left (Nat.zero_le _) _

end Columns

/-! ### Exact scores cancel -/

section Cancel

variable (K) [Field K] [LinearOrder K] [Logarithm K σ]

/-- A score that is the logarithm of a number that is not negative. -/
def IsLog (a : σ) : Prop := ∃ x : K, 0 ≤ x ∧ Logarithm.log x = a

variable {K} [IsStrictOrderedRing K] [Score σ] [LawfulLogarithm K σ] {a b c : σ}

omit [IsStrictOrderedRing K] [Score σ] [LawfulLogarithm K σ] in
theorem isLog_log {x : K} (nonneg : 0 ≤ x) : IsLog K (Logarithm.log x : σ) := ⟨x, nonneg, rfl⟩

theorem IsLog.add (ha : IsLog K a) (hb : IsLog K b) : IsLog K (a + b) := by
  obtain ⟨x, hx, rfl⟩ := ha
  obtain ⟨y, hy, rfl⟩ := hb
  exact ⟨x * y, mul_nonneg hx hy, LawfulLogarithm.log_mul hx hy⟩

/-- A score that is possible cancels. This is where exact scores are needed: rounded sums
may agree though their terms differ. -/
theorem IsLog.add_right_cancel [OrderedScore σ] (ha : IsLog K a) (hb : IsLog K b)
    (hc : IsLog K c) (possible : Score.bottom < b + c) (same : a + c = b + c) : a = b := by
  obtain ⟨x, hx, rfl⟩ := ha
  obtain ⟨y, hy, rfl⟩ := hb
  obtain ⟨z, hz, rfl⟩ := hc
  rw [← LawfulLogarithm.log_mul hy hz] at possible same
  rw [← LawfulLogarithm.log_mul hx hz, log_inj (mul_nonneg hx hz) (mul_nonneg hy hz)] at same
  have positive : 0 < y * z := (bottom_lt_log_iff (mul_nonneg hy hz)).mp possible
  rw [mul_right_cancel₀ (right_ne_zero_of_mul positive.ne') same]

end Cancel

namespace Decoder

/-! ### Survivors -/

/-- The survivor comes first among the best paths to its state, if it is possible. -/
def Leads [Score σ] (d : Decoder Q A σ) (search : Columns Q.Code) (seen : List A.Code)
    (v : Survivor Q.Code σ) : Prop :=
  Score.bottom < v.score → ∀ earlier, PathOver search.toList seen.length (v.state :: earlier) →
    d.scoreTo v.state earlier seen = v.score →
      earlier = v.earlier ∨ ListedFirst search.toList v.earlier earlier

theorem leads_start [Score σ] (d : Decoder Q A σ) (search : Columns Q.Code) (x : A.Code) :
    ∀ v ∈ (search.map (d.start x)).toList, d.Leads search [x] v := by
  intro v mem
  rw [Columns.toList_map] at mem
  obtain ⟨k, -, rfl⟩ := List.mem_map.mp mem
  intro possible earlier path best
  exact .inl (List.length_eq_zero_iff.mp (Nat.succ.inj path.1))

/-- Among leading survivors the best one leads over every path to a state whose
survivors have the best score. -/
theorem best_leads [Score σ] [OrderedScore σ] {d : Decoder Q A σ} {search : Columns Q.Code}
    {seen : List A.Code} {survivors : Columns (Survivor Q.Code σ)}
    (survive : d.Survive search seen survivors)
    (leads : ∀ v ∈ survivors.toList, d.Leads search seen v) (score : Survivor Q.Code σ → σ)
    {j : Q.Code} {earlier : List Q.Code} (path : PathOver search.toList seen.length (j :: earlier))
    (attains : ∀ u ∈ survivors.toList, u.state = j → (survivors.best score).1 ≤ score u)
    (best : (survivors.best score).2.state = j →
      Score.bottom < (survivors.best score).2.score ∧
        d.scoreTo j earlier seen = (survivors.best score).2.score) :
    j :: earlier = (survivors.best score).2.state :: (survivors.best score).2.earlier ∨
      ListedFirst search.toList
        ((survivors.best score).2.state :: (survivors.best score).2.earlier) (j :: earlier) := by
  obtain ⟨mem, -⟩ := survivors.best_mem score
  have place := survivors.idxOf_best_le score Survivor.state attains
  rw [survive.states] at place
  rcases Nat.lt_or_eq_of_le place with before | same
  · exact .inr (.rel before)
  · have listed : (survivors.best score).2.state ∈ search.toList := by
      rw [← survive.states]
      exact List.mem_map_of_mem mem
    obtain rfl := (List.idxOf_inj listed).mp same
    obtain ⟨possible, attained⟩ := best rfl
    rcases leads _ mem possible earlier path attained with rfl | first
    · exact .inl rfl
    · exact .inr (.cons first)

variable [Field K] [LinearOrder K] [IsStrictOrderedRing K] [Score σ] [Logarithm K σ]
  [LawfulLogarithm K σ] {m : Model Q A K}

/-- The score of a path to a state is the logarithm of its joint probability. -/
theorem scoreTo_eq_log (sound : m.WellFormed) {ks : List Q.Code} {k : Q.Code}
    {earlier : List Q.Code} {seen : List A.Code} (path : PathOver ks seen.length (k :: earlier)) :
    (ofModel m : Decoder Q A σ).scoreTo k earlier seen =
      Logarithm.log (m.jointProbability (k :: earlier).reverse seen.reverse) := by
  rw [← m.pathScore_reverse k earlier seen path.1, sound.pathScore_eq_log]

theorem isLog_scoreTo (sound : m.WellFormed) {ks : List Q.Code} {k : Q.Code}
    {earlier : List Q.Code} {seen : List A.Code} (path : PathOver ks seen.length (k :: earlier)) :
    IsLog K ((ofModel m : Decoder Q A σ).scoreTo k earlier seen) := by
  rw [scoreTo_eq_log sound path]
  exact isLog_log (sound.jointProbability_nonneg _ _)

variable [MonotoneScore σ]

/-- Leading survivors are followed by leading survivors. What ties with the best
continuation to a state ties with it before the symbol is emitted, and what ties
there from the same state before ties with the survivor in that state. -/
theorem leads_extend (sound : m.WellFormed) {search : Columns Q.Code} {seen : List A.Code}
    {survivors : Columns (Survivor Q.Code σ)}
    (survive : (ofModel m : Decoder Q A σ).Survive search seen survivors)
    (leads : ∀ v ∈ survivors.toList, (ofModel m : Decoder Q A σ).Leads search seen v)
    (x : A.Code) :
    ∀ v ∈ (search.map ((ofModel m : Decoder Q A σ).extend x survivors)).toList,
      (ofModel m : Decoder Q A σ).Leads search (x :: seen) v := by
  intro v mem
  rw [Columns.toList_map] at mem
  obtain ⟨k, -, rfl⟩ := List.mem_map.mp mem
  intro possible earlier path ties
  obtain ⟨j, earlier, rfl, shorter⟩ := path.exists_cons survive.seen_ne
  set arrive : Survivor Q.Code σ → σ := fun v =>
    v.score + (ofModel m : Decoder Q A σ).transition.get v.state k with arrive_eq
  obtain ⟨previous, attained⟩ := survivors.best_mem arrive
  obtain ⟨walked, score⟩ := survive.genuine _ previous
  have arc : ∀ i, IsLog K ((ofModel m : Decoder Q A σ).transition.get i k) := by
    intro i
    simp only [ofModel, Table.get_ofFn]
    exact isLog_log (sound.parameters.transition_nonneg i k)
  have emitted : IsLog K ((ofModel m : Decoder Q A σ).emission.get k x) := by
    simp only [ofModel, Table.get_ofFn]
    exact isLog_log (sound.parameters.emission_nonneg k x)
  have survivor_log : IsLog K (survivors.best arrive).2.score := by
    rw [score]
    exact isLog_scoreTo sound walked
  have best_log : IsLog K (survivors.best arrive).1 := by
    rw [attained]
    exact survivor_log.add (arc _)
  have before_emission : (ofModel m : Decoder Q A σ).scoreTo j earlier seen +
      (ofModel m : Decoder Q A σ).transition.get j k = (survivors.best arrive).1 :=
    ((isLog_scoreTo sound shorter).add (arc j)).add_right_cancel best_log emitted possible ties
  have arrived : Score.bottom < (survivors.best arrive).1 :=
    OrderedScore.bottom_lt_of_bottom_lt_add possible
  refine best_leads survive leads arrive shorter ?_ ?_
  · intro u member state
    subst state
    rw [← before_emission]
    exact MonotoneScore.add_le_add_right (survive.best u member earlier shorter) _
  · intro state
    subst state
    rw [attained] at arrived before_emission
    refine ⟨OrderedScore.bottom_lt_of_bottom_lt_add arrived, ?_⟩
    exact (isLog_scoreTo sound shorter).add_right_cancel survivor_log (arc _) arrived
      before_emission

/-! ### The search -/

/-- The last survivors survive and lead, so the best of them leads over every path
with its score. -/
theorem final_leads (sound : m.WellFormed) {search : Columns Q.Code} {x : A.Code}
    {rest : List A.Code} {final : Columns (Survivor Q.Code σ)}
    (proceeded : (ofModel m : Decoder Q A σ).proceed search 0
      (search.map ((ofModel m).start x)) rest = .ok final)
    {j : Q.Code} {earlier : List Q.Code}
    (path : PathOver search.toList (x :: rest).length (j :: earlier))
    (ties : (ofModel m : Decoder Q A σ).scoreTo j earlier (x :: rest).reverse =
      (final.best Survivor.score).1) :
    j :: earlier = (final.best Survivor.score).2.state ::
        (final.best Survivor.score).2.earlier ∨
      ListedFirst search.toList ((final.best Survivor.score).2.state ::
        (final.best Survivor.score).2.earlier) (j :: earlier) := by
  obtain ⟨⟨survive, leads⟩, alive⟩ := proceed_invariant
    (fun seen survivors => (ofModel m : Decoder Q A σ).Survive search seen survivors ∧
      ∀ v ∈ survivors.toList, (ofModel m : Decoder Q A σ).Leads search seen v)
    (fun _ _ y here => ⟨here.1.extend y, leads_extend sound here.1 here.2 y⟩)
    ⟨.start search x, leads_start _ search x⟩ proceeded
  rw [← List.reverse_cons] at survive leads
  have reversed : PathOver search.toList (x :: rest).reverse.length (j :: earlier) := by
    rwa [List.length_reverse]
  obtain ⟨-, attained⟩ := final.best_mem Survivor.score
  refine best_leads survive leads Survivor.score reversed ?_ ?_
  · intro u member state
    subst state
    rw [← ties]
    exact survive.best u member earlier reversed
  · intro _
    rw [← attained]
    exact ⟨bottom_lt_best alive, ties⟩

/-- Among the paths over listed states none is more probable than this one, and
those as probable come later when compared from the last position backwards. -/
def FirstOfBest (m : Model Q A K) (ks : List Q.Code) (xs : List A.Code)
    (states : List Q.Code) : Prop :=
  ∀ others, PathOver ks xs.length others →
    m.jointProbability others xs ≤ m.jointProbability states xs ∧
    (m.jointProbability others xs = m.jointProbability states xs →
      others = states ∨ ListedFirst ks states.reverse others.reverse)

/-- A search returns the first of the best paths. -/
theorem firstOfBest_of_search (sound : m.WellFormed) {search : Columns Q.Code}
    {xs : List A.Code} {path : Path Q.Code σ}
    (found : (ofModel m : Decoder Q A σ).search search xs = .ok path) :
    PathOver search.toList xs.length path.states ∧
      FirstOfBest m search.toList xs path.states := by
  cases xs with
  | nil =>
    cases found
    refine ⟨⟨rfl, by simp⟩, ?_⟩
    intro others walked
    obtain rfl := List.length_eq_zero_iff.mp walked.1
    exact ⟨le_rfl, fun _ => .inl rfl⟩
  | cons x rest =>
    rcases search_ofModel_cases (σ := σ) m search (List.cons_ne_nil x rest) with
      ⟨states, walked, succeeded, best, -⟩ | ⟨t, -, failed, -⟩
    · cases found.symm.trans succeeded
      refine ⟨walked, ?_⟩
      intro others other
      constructor
      · have bound := best others other
        rw [sound.pathScore_eq_log, sound.pathScore_eq_log] at bound
        by_contra exceeds
        have above := LawfulLogarithm.log_lt_log (σ := σ)
          (sound.jointProbability_nonneg states (x :: rest)) (not_le.mp exceeds)
        exact OrderedScore.lt_iff_not_le.mp above bound
      · intro ties
        obtain ⟨final, proceeded, path_eq⟩ := exists_final_of_search found
        obtain ⟨states_eq, score_eq⟩ := Path.mk.inj path_eq
        obtain ⟨j, earlier, rfl, reversed⟩ := other.exists_reverse
        have aligned : PathOver search.toList (x :: rest).reverse.length (j :: earlier) := by
          rwa [List.length_reverse]
        have score : (ofModel m : Decoder Q A σ).scoreTo j earlier (x :: rest).reverse =
            (final.best Survivor.score).1 := by
          rw [← score_eq, sound.pathScore_eq_log, ← ties, scoreTo_eq_log sound aligned,
            List.reverse_reverse]
        rw [states_eq, List.reverse_reverse, List.reverse_reverse, List.reverse_inj]
        exact final_leads sound proceeded reversed score
    · cases found.symm.trans failed

/-! ### Decoding by symbol -/

variable [DecidableEq S] [DecidableEq E]

/-- **Ties go to what is listed first, from the last position backwards.** If
decoding over listed states succeeds, the path is one over these states, no other
is more probable, and every other path that is as probable has, at the last
position where the two differ, a state that is listed later. Where a state is
listed more than once, its first place counts. Decoding without a list compares
the states in the order of the alphabet. -/
theorem decodeOver_firstOfBest (reach : m.Reachable) {symbols : List E} {xs : List A.Code}
    (known : A.encode symbols = .ok xs) :
    (∀ (states : List S) (ks : List Q.Code) (path : Path S σ), Q.encode states = .ok ks →
      (ofModel m : Decoder Q A σ).decodeOver states symbols =
        (.ok path : Except (Error S E K) _) →
      ∃ best, path.states = best.map Q.symbol ∧ PathOver ks xs.length best ∧
        ∀ others, PathOver ks xs.length others →
          m.jointProbability others xs ≤ m.jointProbability best xs ∧
          (m.jointProbability others xs = m.jointProbability best xs →
            others = best ∨
              List.Lex (fun k l => ks.idxOf k < ks.idxOf l) best.reverse others.reverse)) ∧
    ∀ path : Path S σ,
      (ofModel m : Decoder Q A σ).decode symbols = (.ok path : Except (Error S E K) _) →
      ∃ best : List Q.Code, path.states = best.map Q.symbol ∧ best.length = xs.length ∧
        ∀ others : List Q.Code, others.length = xs.length →
          m.jointProbability others xs ≤ m.jointProbability best xs ∧
          (m.jointProbability others xs = m.jointProbability best xs →
            others = best ∨ List.Lex (· < ·) best.reverse others.reverse) := by
  have sound := reach.wellFormed
  have searched : ∀ (columns : Columns Q.Code) (path : Path S σ),
      (ofModel m : Decoder Q A σ).searchSymbols columns symbols =
        (.ok path : Except (Error S E K) _) →
      ∃ best, path.states = best.map Q.symbol ∧ PathOver columns.toList xs.length best ∧
        FirstOfBest m columns.toList xs best := by
    intro columns path decoded
    obtain ⟨ys, found, known', reached, rfl⟩ := searchSymbols_eq_ok decoded
    cases known.symm.trans known'
    exact ⟨found.states, rfl, firstOfBest_of_search sound reached⟩
  constructor
  · intro states ks path listed decoded
    obtain ⟨columns, listed', decoded⟩ := decodeOver_eq_ok decoded
    cases listed.symm.trans listed'
    exact searched columns path decoded
  · intro path decoded
    obtain ⟨best, states, walked, first⟩ := searched _ path decoded
    rw [toList_wholeAlphabet] at first walked
    refine ⟨best, states, walked.1, ?_⟩
    intro others length
    have compared := first others (PathOver.codes_iff.mpr length)
    rwa [listedFirst_codes] at compared

/-- Each of two states is followed by the other. -/
def alternatingBuilder : Builder Machine.states Machine.symbols ℚ where
  transitions := ⟨#v[#v[none, some ⟨1, 1⟩], #v[some ⟨1, 1⟩, none]]⟩
  emissions := .ofFn fun _ _ => ⟨0, 1⟩
  initial := none

def alternating : Model Machine.states Machine.symbols ℚ := alternatingBuilder.finished

theorem alternating_reachable : alternating.Reachable :=
  (Builder.Reachable.empty.applyAll
    (show Builder.empty.applyAll [.allow 1 2 1 1, .allow 2 1 1 1] = .ok alternatingBuilder by
      decide +kernel)).build
    (show alternatingBuilder.build = .ok alternating by decide +kernel)

/-- Both paths over two symbols tie. The one that ends in the state listed first
begins in the state listed last. -/
theorem decodeOver_alternating :
    ∃ path : Path Nat EReal,
      ((ofModel alternating : Decoder _ _ EReal).decodeOver [2, 1] [0, 0] :
        Except (Error Nat Nat ℚ) _) = .ok path ∧ path.states = [1, 2] := by
  have listed : Machine.states.encode [2, 1] =
      .ok (Columns.toList ⟨Machine.failed, [Machine.working]⟩) := by decide
  have known : Machine.symbols.encode [0, 0] = .ok (Machine.shown.take 2) := by decide
  obtain ⟨restricted, -⟩ :=
    decodeOver_firstOfBest (σ := EReal) alternating_reachable known
  have sound := alternating_reachable.wellFormed
  rcases search_ofModel_cases (σ := EReal) alternating ⟨Machine.failed, [Machine.working]⟩
    (show Machine.shown.take 2 ≠ [] by decide) with
    ⟨states, -, found, -⟩ | ⟨-, -, -, impossible, -⟩
  · have decoded : ((ofModel alternating : Decoder _ _ EReal).decodeOver [2, 1] [0, 0] :
        Except (Error Nat Nat ℚ) _) = .ok ⟨states.map Machine.states.symbol,
          alternating.pathScore states (Machine.shown.take 2)⟩ := by
      rw [decodeOver_eq _ listed, searchSymbols_eq _ _ known, found]
      rfl
    obtain ⟨best, states_eq, walked, first⟩ := restricted _ _ _ listed decoded
    refine ⟨_, decoded, states_eq.trans ?_⟩
    have compared := first [Machine.working, Machine.failed] ⟨rfl, by decide⟩
    obtain ⟨k, l, rfl⟩ := List.length_eq_two.mp walked.1
    clear * - compared
    revert k l
    decide +kernel
  · have possible := (sound.bottom_lt_pathScore_iff (σ := EReal)
      [Machine.working, Machine.failed] (Machine.shown.take 2)).mpr (by decide +kernel)
    rw [impossible [Machine.working, Machine.failed] ⟨rfl, by decide⟩] at possible
    exact absurd possible (lt_irrefl _)

end Decoder

end Trellis
