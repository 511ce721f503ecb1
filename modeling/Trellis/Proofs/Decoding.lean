import Trellis.Decoder
import Trellis.Proofs.Forward
import Trellis.StatePath

/-!
# Optimal paths

The decoder finds a best path over the searched states, and fails at the first
prefix over which every path is impossible (`Decoder.decodeOver_optimal`). The
survivors at a position are genuine paths with the scores of those paths
(`Survive.genuine`), and no path of the prefix that ends in the same state has a
better one (`Survive.best`); one position keeps both (`Survive.extend`,
`proceed_cases`). Both hold of impossible survivors too, so the choice made where
nothing is possible never matters.
-/

namespace Trellis

variable {S E α σ : Type} {Q : Alphabet S} {A : Alphabet E}

/-! ### The best column -/

namespace Columns

variable {β : Type} [Score σ] [OrderedScore σ]

theorem foldl_better (score : β → σ) (xs : List β) (champion : σ × β) :
    champion.1 ≤ (xs.foldl (better score) champion).1 ∧
      (∀ b ∈ xs, score b ≤ (xs.foldl (better score) champion).1) ∧
      (xs.foldl (better score) champion = champion ∨
        (xs.foldl (better score) champion).2 ∈ xs ∧
          (xs.foldl (better score) champion).1 = score (xs.foldl (better score) champion).2) := by
  induction xs generalizing champion with
  | nil => exact ⟨OrderedScore.le_refl _, by simp, .inl rfl⟩
  | cons b rest ih =>
    obtain ⟨above, bound, origin⟩ := ih (better score champion b)
    rw [List.foldl_cons]
    have kept : champion.1 ≤ (better score champion b).1 ∧
        score b ≤ (better score champion b).1 := by
      unfold better
      split
      · rename_i lt
        exact ⟨OrderedScore.le_of_lt lt, OrderedScore.le_refl _⟩
      · rename_i ge
        exact ⟨OrderedScore.le_refl _, OrderedScore.not_lt.mp ge⟩
    refine ⟨OrderedScore.le_trans kept.1 above, ?_, ?_⟩
    · intro c mem
      rcases List.mem_cons.mp mem with rfl | mem
      · exact OrderedScore.le_trans kept.2 above
      · exact bound c mem
    · rcases origin with unchanged | ⟨mem, eq⟩
      · rw [unchanged]
        unfold better
        split
        · exact .inr ⟨List.mem_cons_self, rfl⟩
        · exact .inl rfl
      · exact .inr ⟨List.mem_cons_of_mem _ mem, eq⟩

theorem le_best (score : β → σ) (cs : Columns β) {b : β} (mem : b ∈ cs.toList) :
    score b ≤ (cs.best score).1 :=
  (foldl_better score cs.toList _).2.1 b mem

/-- The best column is one of the columns and has the best score, even where
no column exceeds the score of what cannot happen. -/
theorem best_mem (score : β → σ) (cs : Columns β) :
    (cs.best score).2 ∈ cs.toList ∧ (cs.best score).1 = score (cs.best score).2 := by
  have first : cs.first ∈ cs.toList := List.mem_cons_self
  obtain ⟨-, -, unchanged | attained⟩ := foldl_better score cs.toList (Score.bottom, cs.first)
  · have default : cs.best score = (Score.bottom, cs.first) := unchanged
    have bound := cs.le_best score first
    rw [default] at bound ⊢
    exact ⟨first, (OrderedScore.le_bottom_iff.mp bound).symm⟩
  · exact attained

end Columns

/-! ### Scores of paths -/

/-- A path of a length over listed states. -/
def PathOver (ks : List Q.Code) (n : Nat) (states : List Q.Code) : Prop :=
  states.length = n ∧ ∀ k ∈ states, k ∈ ks

/-- A path that ends after more than one position goes through a state before. -/
theorem PathOver.exists_cons {ks : List Q.Code} {n : Nat} {k : Q.Code} {earlier : List Q.Code}
    (path : PathOver ks (n + 1) (k :: earlier)) (later : n ≠ 0) :
    ∃ j others, earlier = j :: others ∧ PathOver ks n (j :: others) := by
  have length : earlier.length = n := Nat.succ.inj path.1
  cases earlier with
  | nil => exact absurd length.symm later
  | cons j others => exact ⟨j, others, rfl, length, fun i mem => path.2 i (.tail _ mem)⟩

/-- The score of a path and the symbols it emits: the logarithms of its factors
added from left to right. -/
def Model.pathScore [Zero α] [Score σ] [Logarithm α σ] (m : Model Q A α)
    (states : List Q.Code) (symbols : List A.Code) : σ :=
  totalFromFirst ((m.factors (states.zip symbols)).map Logarithm.log)

namespace Decoder

variable [Score σ]

/-- The score of the path that ends in a state, given the earlier states and
the symbols in reverse order. -/
def scoreTo (d : Decoder Q A σ) (k : Q.Code) : List Q.Code → List A.Code → σ
  | [], x :: _ => d.initial.get k + d.emission.get k x
  | j :: earlier, x :: symbols =>
    d.scoreTo j earlier symbols + d.transition.get j k + d.emission.get k x
  | _, [] => 0

/-! ### Survivors -/

/-- The survivor is a path over the searched states and these symbols, given in
reverse order, with the score of this path. -/
def Genuine (d : Decoder Q A σ) (search : Columns Q.Code) (seen : List A.Code)
    (v : Survivor Q.Code σ) : Prop :=
  PathOver search.toList seen.length (v.state :: v.earlier) ∧
    v.score = d.scoreTo v.state v.earlier seen

theorem genuine_start (d : Decoder Q A σ) (search : Columns Q.Code) (x : A.Code) :
    ∀ v ∈ (search.map (d.start x)).toList, d.Genuine search [x] v := by
  intro v mem
  rw [Columns.toList_map] at mem
  obtain ⟨k, listed, rfl⟩ := List.mem_map.mp mem
  refine ⟨⟨rfl, fun j member => ?_⟩, rfl⟩
  rw [List.mem_singleton.mp member]
  exact listed

/-- A path that goes on with the best survivor is a path, and its score is the
score of the survivor carried on; the order of the scores is all that is used. -/
theorem genuine_extend [OrderedScore σ] {d : Decoder Q A σ} {search : Columns Q.Code}
    {seen : List A.Code} {survivors : Columns (Survivor Q.Code σ)}
    (genuine : ∀ v ∈ survivors.toList, d.Genuine search seen v) (x : A.Code) :
    ∀ v ∈ (search.map (d.extend x survivors)).toList, d.Genuine search (x :: seen) v := by
  intro v mem
  rw [Columns.toList_map] at mem
  obtain ⟨k, listed, rfl⟩ := List.mem_map.mp mem
  obtain ⟨previous, attained⟩ := survivors.best_mem fun v => v.score + d.transition.get v.state k
  obtain ⟨path, score⟩ := genuine _ previous
  refine ⟨⟨congrArg Nat.succ path.1, fun j member => ?_⟩, ?_⟩
  · rcases List.mem_cons.mp member with rfl | member
    · exact listed
    · exact path.2 j member
  · rw [score] at attained
    exact congrArg (· + d.emission.get k x) attained

/-- The survivors after some symbols, given in reverse order: one for each
searched state. -/
structure Survive (d : Decoder Q A σ) (search : Columns Q.Code) (seen : List A.Code)
    (survivors : Columns (Survivor Q.Code σ)) : Prop where
  states : survivors.toList.map Survivor.state = search.toList
  genuine : ∀ v ∈ survivors.toList,
    PathOver search.toList seen.length (v.state :: v.earlier) ∧
      v.score = d.scoreTo v.state v.earlier seen
  best : ∀ v ∈ survivors.toList, ∀ earlier,
    PathOver search.toList seen.length (v.state :: earlier) →
      d.scoreTo v.state earlier seen ≤ v.score

/-- Every path that ends over these symbols has the score of what cannot happen. -/
def Impossible (d : Decoder Q A σ) (search : Columns Q.Code) (seen : List A.Code) : Prop :=
  ∀ k earlier, PathOver search.toList seen.length (k :: earlier) →
    d.scoreTo k earlier seen = Score.bottom

namespace Survive

variable {d : Decoder Q A σ} {search : Columns Q.Code} {seen : List A.Code}
  {survivors : Columns (Survivor Q.Code σ)}

theorem exists_state (survive : d.Survive search seen survivors) {k : Q.Code}
    (mem : k ∈ search.toList) : ∃ v ∈ survivors.toList, v.state = k := by
  rw [← survive.states] at mem
  exact List.mem_map.mp mem

/-- A survivor has a state, so a symbol was seen. -/
theorem seen_ne (survive : d.Survive search seen survivors) : seen.length ≠ 0 := by
  intro unseen
  have one := (survive.genuine survivors.first List.mem_cons_self).1.1
  rw [unseen] at one
  cases one

variable [OrderedScore σ]

theorem start (search : Columns Q.Code) (x : A.Code) :
    d.Survive search [x] (search.map (d.start x)) where
  states := by
    rw [Columns.toList_map, List.map_map]
    exact List.map_id _
  genuine := d.genuine_start search x
  best v mem earlier path := by
    rw [Columns.toList_map] at mem
    obtain ⟨k, -, rfl⟩ := List.mem_map.mp mem
    have none_earlier : earlier = [] := List.length_eq_zero_iff.mp (Nat.succ.inj path.1)
    rw [none_earlier]
    exact OrderedScore.le_refl _

theorem dead_iff (survive : d.Survive search seen survivors) :
    survivors.Dead Survivor.score ↔ d.Impossible search seen := by
  constructor
  · intro dead k earlier path
    obtain ⟨v, mem, rfl⟩ := survive.exists_state (path.2 k List.mem_cons_self)
    exact OrderedScore.le_bottom_iff.mp
      (OrderedScore.le_trans (survive.best v mem earlier path) (dead v mem))
  · intro impossible v mem
    obtain ⟨path, score⟩ := survive.genuine v mem
    rw [score, impossible _ _ path]
    exact OrderedScore.le_refl _

end Survive

/-- **One position.** The survivors after a further symbol are genuine and best again. -/
theorem Survive.extend [MonotoneScore σ] {d : Decoder Q A σ} {search : Columns Q.Code}
    {seen : List A.Code} {survivors : Columns (Survivor Q.Code σ)}
    (survive : d.Survive search seen survivors) (x : A.Code) :
    d.Survive search (x :: seen) (search.map (d.extend x survivors)) where
  states := by
    rw [Columns.toList_map, List.map_map]
    exact List.map_id _
  genuine := genuine_extend survive.genuine x
  best v mem earlier path := by
    rw [Columns.toList_map] at mem
    obtain ⟨k, -, rfl⟩ := List.mem_map.mp mem
    obtain ⟨j, earlier, rfl, shorter⟩ := path.exists_cons survive.seen_ne
    obtain ⟨u, member, rfl⟩ := survive.exists_state (shorter.2 j List.mem_cons_self)
    refine MonotoneScore.add_le_add_right (OrderedScore.le_trans ?_
      (survivors.le_best (fun v => v.score + d.transition.get v.state k) member)) _
    exact MonotoneScore.add_le_add_right (survive.best u member earlier shorter) _

/-! ### The search -/

/-- What survivors keep from one symbol to the next, they keep to the end of a
search, which leaves some of them possible. -/
theorem proceed_invariant {d : Decoder Q A σ} {search : Columns Q.Code}
    (holds : List A.Code → Columns (Survivor Q.Code σ) → Prop)
    (step : ∀ seen survivors x, holds seen survivors →
      holds (x :: seen) (search.map (d.extend x survivors)))
    {position : Nat} {rest seen : List A.Code} {survivors final : Columns (Survivor Q.Code σ)}
    (here : holds seen survivors) (found : d.proceed search position survivors rest = .ok final) :
    holds (rest.reverse ++ seen) final ∧ ¬ final.Dead Survivor.score := by
  induction rest generalizing position seen survivors with
  | nil =>
    rw [proceed] at found
    split at found
    · cases found
    · rename_i alive
      cases found
      exact ⟨here, alive⟩
  | cons x rest ih =>
    rw [proceed] at found
    split at found
    · cases found
    · have later := ih (step seen survivors x here) found
      rwa [List.reverse_cons, List.append_assoc, List.singleton_append]

/-- A search returns the path of the best of the last survivors. -/
theorem exists_final_of_search {d : Decoder Q A σ} {search : Columns Q.Code} {x : A.Code}
    {rest : List A.Code} {path : Path Q.Code σ}
    (found : d.search search (x :: rest) = .ok path) :
    ∃ final, d.proceed search 0 (search.map (d.start x)) rest = .ok final ∧
      path = ⟨((final.best Survivor.score).2.state ::
        (final.best Survivor.score).2.earlier).reverse, (final.best Survivor.score).1⟩ := by
  rw [Decoder.search] at found
  obtain ⟨final, proceeded, returned⟩ := bind_eq_ok.mp found
  refine ⟨final, proceeded, ?_⟩
  rw [List.reverse_cons]
  exact (Except.ok.inj returned).symm

variable [MonotoneScore σ]

/-- A path that goes on after an impossible prefix is impossible. -/
theorem Impossible.cons {d : Decoder Q A σ} {search : Columns Q.Code} {seen : List A.Code}
    (impossible : d.Impossible search seen) (ne : seen ≠ []) (x : A.Code) :
    d.Impossible search (x :: seen) := by
  intro k earlier path
  obtain ⟨j, earlier, rfl, shorter⟩ := path.exists_cons (mt List.length_eq_zero_iff.mp ne)
  rw [scoreTo, impossible j earlier shorter, OrderedScore.bottom_add, OrderedScore.bottom_add]

theorem Impossible.append {d : Decoder Q A σ} {search : Columns Q.Code} {seen : List A.Code}
    (impossible : d.Impossible search seen) (ne : seen ≠ []) (later : List A.Code) :
    d.Impossible search (later ++ seen) := by
  induction later with
  | nil => exact impossible
  | cons x rest ih => exact ih.cons (by simp [ne]) x

/-- The survivors after all symbols, or the first prefix that is impossible. -/
theorem proceed_cases {d : Decoder Q A σ} {search : Columns Q.Code} {seen : List A.Code}
    {survivors : Columns (Survivor Q.Code σ)} (survive : d.Survive search seen survivors)
    (position : Nat) (rest : List A.Code) :
    (∃ final, d.proceed search position survivors rest = .ok final ∧
      d.Survive search (rest.reverse ++ seen) final ∧
      ¬ d.Impossible search (rest.reverse ++ seen)) ∨
    ∃ t ≤ rest.length, d.proceed search position survivors rest = .error (position + t) ∧
      d.Impossible search ((rest.take t).reverse ++ seen) ∧
      ∀ s < t, ¬ d.Impossible search ((rest.take s).reverse ++ seen) := by
  induction rest generalizing position seen survivors with
  | nil =>
    by_cases dead : survivors.Dead Survivor.score
    · exact .inr ⟨0, le_rfl, if_pos dead, survive.dead_iff.mp dead, by simp⟩
    · exact .inl ⟨survivors, if_neg dead, survive, mt survive.dead_iff.mpr dead⟩
  | cons x rest ih =>
    by_cases dead : survivors.Dead Survivor.score
    · exact .inr ⟨0, Nat.zero_le _, if_pos dead, survive.dead_iff.mp dead, by simp⟩
    · have step : d.proceed search position survivors (x :: rest) =
          d.proceed search (position + 1) (search.map (d.extend x survivors)) rest := if_neg dead
      have shift : ∀ xs : List A.Code, (x :: xs).reverse ++ seen = xs.reverse ++ (x :: seen) := by
        intro xs
        rw [List.reverse_cons, List.append_assoc, List.singleton_append]
      rw [step, shift]
      rcases ih (survive.extend x) (position + 1) with found | ⟨t, bound, failed, here, before⟩
      · exact .inl found
      · refine .inr ⟨t + 1, Nat.succ_le_succ bound, ?_, ?_, fun s lt => ?_⟩
        · rw [failed, Nat.add_right_comm, Nat.add_assoc]
        · rwa [List.take_succ_cons, shift]
        · cases s with
          | zero => exact mt survive.dead_iff.mpr dead
          | succ s =>
            rw [List.take_succ_cons, shift]
            exact before s (Nat.lt_of_succ_lt_succ lt)

/-- The search finds a path that no other exceeds, or stops at the first
impossible prefix. -/
theorem search_cases (d : Decoder Q A σ) (search : Columns Q.Code) (x : A.Code)
    (rest : List A.Code) :
    (∃ k earlier, PathOver search.toList (rest.length + 1) (k :: earlier) ∧
      d.search search (x :: rest) =
        .ok ⟨(k :: earlier).reverse, d.scoreTo k earlier (x :: rest).reverse⟩ ∧
      (∀ j others, PathOver search.toList (rest.length + 1) (j :: others) →
        d.scoreTo j others (x :: rest).reverse ≤ d.scoreTo k earlier (x :: rest).reverse) ∧
      ¬ d.Impossible search (x :: rest).reverse) ∨
    ∃ t ≤ rest.length, d.search search (x :: rest) = .error t ∧
      d.Impossible search ((x :: rest).take (t + 1)).reverse ∧
      ∀ s < t, ¬ d.Impossible search ((x :: rest).take (s + 1)).reverse := by
  have start := Survive.start (d := d) search x
  rcases d.proceed_cases start 0 rest with ⟨final, found, survive, possible⟩ | failure
  · left
    rw [← List.reverse_cons] at survive possible
    have seen_length : (x :: rest).reverse.length = rest.length + 1 := by simp
    obtain ⟨mem, attained⟩ := final.best_mem Survivor.score
    obtain ⟨path, score⟩ := survive.genuine _ mem
    rw [seen_length] at path
    refine ⟨_, _, path, ?_, fun j others other => ?_, possible⟩
    · rw [Decoder.search, found, List.reverse_cons, ← score, ← attained]
      rfl
    · rw [← score, ← attained]
      rw [← seen_length] at other
      obtain ⟨u, member, rfl⟩ := survive.exists_state (other.2 j List.mem_cons_self)
      exact OrderedScore.le_trans (survive.best u member others other)
        (final.le_best Survivor.score member)
  · right
    obtain ⟨t, bound, failed, here, before⟩ := failure
    refine ⟨t, bound, ?_, by rwa [List.take_succ_cons, List.reverse_cons], fun s lt => ?_⟩
    · rw [Decoder.search, failed, Nat.zero_add]
      rfl
    · rw [List.take_succ_cons, List.reverse_cons]
      exact before s lt

end Decoder

/-! ### Factors in order -/

namespace Model

variable [Zero α] (m : Model Q A α)

theorem laterFactors_concat (i j k : Q.Code) (front : List (Q.Code × A.Code)) (y x : A.Code) :
    m.laterFactors i (front ++ [(j, y)] ++ [(k, x)]) =
      m.laterFactors i (front ++ [(j, y)]) ++ [m.transition j k, m.emission k x] := by
  induction front generalizing i with
  | nil => rfl
  | cons p rest ih => simp only [List.cons_append, laterFactors, ih]

theorem factors_concat (j k : Q.Code) (front : List (Q.Code × A.Code)) (y x : A.Code) :
    m.factors (front ++ [(j, y)] ++ [(k, x)]) =
      m.factors (front ++ [(j, y)]) ++ [m.transition j k, m.emission k x] := by
  cases front with
  | nil => rfl
  | cons p rest => simp only [List.cons_append, factors, laterFactors_concat]

theorem factors_ne_nil (path : List (Q.Code × A.Code)) (k : Q.Code) (x : A.Code) :
    m.factors (path ++ [(k, x)]) ≠ [] := by
  cases path <;> simp [factors]

end Model

theorem totalFromFirst_append_pair [Score σ] {xs : List σ} (ne : xs ≠ []) (a b : σ) :
    totalFromFirst (xs ++ [a, b]) = totalFromFirst xs + a + b := by
  cases xs with
  | nil => exact absurd rfl ne
  | cons x rest => simp [totalFromFirst]

/-- The score of a path, added up from its end. -/
theorem Model.pathScore_reverse [Zero α] [Score σ] [Logarithm α σ] (m : Model Q A α)
    (k : Q.Code) (earlier : List Q.Code) (seen : List A.Code)
    (aligned : earlier.length + 1 = seen.length) :
    m.pathScore (k :: earlier).reverse seen.reverse =
      (Decoder.ofModel m : Decoder Q A σ).scoreTo k earlier seen := by
  induction earlier generalizing k seen with
  | nil =>
    obtain ⟨x, rfl⟩ := List.length_eq_one_iff.mp aligned.symm
    simp [pathScore, factors, laterFactors, totalFromFirst, Decoder.scoreTo, Decoder.ofModel]
  | cons j earlier ih =>
    cases seen with
    | nil => simp at aligned
    | cons x seen =>
      cases seen with
      | nil => simp at aligned
      | cons y seen =>
        have shorter : earlier.length + 1 = (y :: seen).length := Nat.succ.inj aligned
        have lengths : earlier.reverse.length = seen.reverse.length := by
          simpa using Nat.succ.inj shorter
        have front : (j :: earlier).reverse.zip (y :: seen).reverse =
            earlier.reverse.zip seen.reverse ++ [(j, y)] := by
          rw [List.reverse_cons, List.reverse_cons, List.zip_append lengths]
          rfl
        have whole : (k :: j :: earlier).reverse.zip (x :: y :: seen).reverse =
            earlier.reverse.zip seen.reverse ++ [(j, y)] ++ [(k, x)] := by
          rw [List.reverse_cons, List.reverse_cons (a := x),
            List.zip_append (by simpa using shorter), front]
          rfl
        have ne : ((m.factors (earlier.reverse.zip seen.reverse ++ [(j, y)])).map
            (Logarithm.log : α → σ)) ≠ [] := by
          simpa using m.factors_ne_nil _ j y
        have step := ih j (y :: seen) shorter
        rw [pathScore, front] at step
        rw [pathScore, whole, factors_concat, List.map_append, List.map_cons, List.map_cons,
          List.map_nil, totalFromFirst_append_pair ne, step]
        simp [Decoder.scoreTo, Decoder.ofModel]

theorem PathOver.exists_reverse {ks : List Q.Code} {n : Nat} {states : List Q.Code}
    (path : PathOver ks (n + 1) states) :
    ∃ k earlier, states = (k :: earlier).reverse ∧ PathOver ks (n + 1) (k :: earlier) := by
  obtain ⟨length, listed⟩ := path
  cases reversed : states.reverse with
  | nil => simp [List.reverse_eq_nil_iff.mp reversed] at length
  | cons k earlier =>
    have eq : states = (k :: earlier).reverse := by rw [← reversed, List.reverse_reverse]
    refine ⟨k, earlier, eq, ?_, fun j mem => listed j ?_⟩
    · rw [← length, eq, List.length_reverse]
    · rwa [eq, List.mem_reverse]

theorem PathOver.reverse {ks : List Q.Code} {n : Nat} {states : List Q.Code}
    (path : PathOver ks n states) : PathOver ks n states.reverse :=
  ⟨by rw [List.length_reverse, path.1], fun k mem => path.2 k (List.mem_reverse.mp mem)⟩

/-- Every path is one over all states. -/
theorem PathOver.codes_iff {n : Nat} {states : List Q.Code} :
    PathOver Q.codes n states ↔ states.length = n := by
  constructor
  · exact fun path => path.1
  · exact fun length => ⟨length, fun k _ => List.mem_finRange k⟩

section Search

variable [Zero α] [Score σ] [Logarithm α σ] (m : Model Q A α) (search : Columns Q.Code)

theorem Decoder.impossible_ofModel_iff {xs : List A.Code} (ne : xs ≠ []) :
    (Decoder.ofModel m : Decoder Q A σ).Impossible search xs.reverse ↔
      ∀ states, PathOver search.toList xs.length states →
        m.pathScore states xs = (Score.bottom : σ) := by
  obtain ⟨n, length⟩ := Nat.exists_eq_succ_of_ne_zero (mt List.length_eq_zero_iff.mp ne)
  constructor
  · intro impossible states path
    rw [length] at path
    obtain ⟨k, earlier, rfl, reversed⟩ := path.exists_reverse
    rw [← List.reverse_reverse xs, m.pathScore_reverse k earlier xs.reverse]
    · exact impossible k earlier (by rwa [List.length_reverse, length])
    · rw [List.length_reverse, length]
      exact reversed.1
  · intro bottoms k earlier path
    rw [← m.pathScore_reverse k earlier xs.reverse path.1, List.reverse_reverse]
    rw [List.length_reverse] at path
    exact bottoms _ path.reverse

variable [MonotoneScore σ]

/-- A prefix that is not impossible has a path with a score of its own. -/
theorem Decoder.exists_of_not_impossible {xs : List A.Code} (ne : xs ≠ [])
    (possible : ¬ (Decoder.ofModel m : Decoder Q A σ).Impossible search xs.reverse) :
    ∃ states, PathOver search.toList xs.length states ∧
      (Score.bottom : σ) < m.pathScore states xs := by
  simp only [impossible_ofModel_iff m search ne, not_forall] at possible
  obtain ⟨states, path, score⟩ := possible
  exact ⟨states, path, OrderedScore.lt_iff_not_le.mpr (mt OrderedScore.le_bottom_iff.mp score)⟩

/-- **The search is optimal.** -/
theorem Decoder.search_ofModel_cases {xs : List A.Code} (ne : xs ≠ []) :
    (∃ states, PathOver search.toList xs.length states ∧
      (Decoder.ofModel m : Decoder Q A σ).search search xs =
        .ok ⟨states, m.pathScore states xs⟩ ∧
      (∀ others, PathOver search.toList xs.length others →
        m.pathScore others xs ≤ (m.pathScore states xs : σ)) ∧
      ∃ others, PathOver search.toList xs.length others ∧
        (Score.bottom : σ) < m.pathScore others xs) ∨
    ∃ t < xs.length, (Decoder.ofModel m : Decoder Q A σ).search search xs = .error t ∧
      (∀ others, PathOver search.toList xs.length others →
        m.pathScore others xs = (Score.bottom : σ)) ∧
      (∀ others, PathOver search.toList (t + 1) others →
        m.pathScore others (xs.take (t + 1)) = (Score.bottom : σ)) ∧
      ∀ s < t, ∃ others, PathOver search.toList (s + 1) others ∧
        (Score.bottom : σ) < m.pathScore others (xs.take (s + 1)) := by
  obtain ⟨x, rest, rfl⟩ := List.exists_cons_of_ne_nil ne
  have prefix_length : ∀ s, s ≤ rest.length → ((x :: rest).take (s + 1)).length = s + 1 := by
    intro s bound
    rw [List.length_take, List.length_cons, min_eq_left (Nat.succ_le_succ bound)]
  have prefix_ne : ∀ s, (x :: rest).take (s + 1) ≠ [] := fun s => by simp
  rcases (Decoder.ofModel m : Decoder Q A σ).search_cases search x rest with
    ⟨k, earlier, path, found, best, possible⟩ | ⟨t, bound, failed, here, before⟩
  · left
    have scores : ∀ j others, PathOver search.toList (rest.length + 1) (j :: others) →
        m.pathScore (j :: others).reverse (x :: rest) =
          (Decoder.ofModel m : Decoder Q A σ).scoreTo j others (x :: rest).reverse := by
      intro j others other
      rw [← m.pathScore_reverse j others, List.reverse_reverse]
      rw [List.length_reverse, List.length_cons, ← other.1, List.length_cons]
    refine ⟨_, path.reverse, ?_, fun others other => ?_,
      exists_of_not_impossible m search ne possible⟩
    · rw [found, scores k earlier path]
    · obtain ⟨j, earlier', rfl, other'⟩ := PathOver.exists_reverse other
      rw [scores j earlier' other', scores k earlier path]
      exact best j earlier' other'
  · right
    refine ⟨t, Nat.lt_succ_of_le bound, failed, ?_, ?_, fun s lt => ?_⟩
    · refine (impossible_ofModel_iff m search ne).mp ?_
      rw [← List.take_append_drop (t + 1) (x :: rest), List.reverse_append]
      exact here.append (by simp) _
    · have bottoms := (impossible_ofModel_iff m search (prefix_ne t)).mp here
      rwa [prefix_length t bound] at bottoms
    · have found := exists_of_not_impossible m search (prefix_ne s) (before s lt)
      rwa [prefix_length s (lt.le.trans bound)] at found

end Search

/-! ### Exact scores -/

section Exact

variable {K : Type} [Field K] [LinearOrder K] [IsStrictOrderedRing K] [Score σ] [Logarithm K σ]
  [LawfulLogarithm K σ] {m : Model Q A K}

/-- The exact score of a path is the logarithm of its joint probability. -/
theorem Model.WellFormed.pathScore_eq_log (sound : m.WellFormed) (states : List Q.Code)
    (symbols : List A.Code) :
    (m.pathScore states symbols : σ) = Logarithm.log (m.jointProbability states symbols) :=
  totalFromFirst_map_log (sound.factors_nonneg _)

/-- A path is possible exactly if its joint probability is positive. -/
theorem Model.WellFormed.bottom_lt_pathScore_iff [OrderedScore σ] (sound : m.WellFormed)
    (states : List Q.Code) (symbols : List A.Code) :
    (Score.bottom : σ) < m.pathScore states symbols ↔
      0 < m.jointProbability states symbols := by
  rw [sound.pathScore_eq_log, bottom_lt_log_iff (sound.jointProbability_nonneg states symbols)]

end Exact

/-! ### Decoding by symbol -/

section Symbols

theorem Columns.ofList?_of_ne_nil {β : Type} {xs : List β} (ne : xs ≠ []) :
    ∃ cs, Columns.ofList? xs = some cs ∧ cs.toList = xs := by
  obtain ⟨b, rest, rfl⟩ := List.exists_cons_of_ne_nil ne
  exact ⟨⟨b, rest⟩, rfl, rfl⟩

theorem Decoder.toList_wholeAlphabet (Q : Alphabet S) : (wholeAlphabet Q).toList = Q.codes := by
  have ne : Q.codes ≠ [] := by
    rw [Alphabet.codes, ne_eq, List.finRange_eq_nil_iff]
    exact Q.size_pos.ne'
  have first : Q.codes.head ne = ⟨0, Q.size_pos⟩ := by
    simp [Alphabet.codes, List.head_eq_getElem]
  rw [wholeAlphabet, Columns.toList, ← first]
  exact List.cons_head_tail ne

variable [Score σ] [DecidableEq S] [DecidableEq E]

theorem Decoder.decodeOver_eq (d : Decoder Q A σ) {states : List S} {columns : Columns Q.Code}
    (listed : Q.encode states = .ok columns.toList) (symbols : List E) :
    (d.decodeOver states symbols : Except (Error S E α) (Path S σ)) =
      d.searchSymbols columns symbols := by
  rw [decodeOver, Alphabet.stateCodes, listed]
  rfl

/-- Decoding over the whole alphabet is decoding over the list of its symbols. -/
theorem Decoder.decodeOver_symbols (d : Decoder Q A σ) (symbols : List E) :
    (d.decodeOver Q.symbols symbols : Except (Error S E α) (Path S σ)) = d.decode symbols :=
  d.decodeOver_eq (by rw [Q.encode_symbols, toList_wholeAlphabet]) symbols

omit [DecidableEq S] in
theorem Decoder.searchSymbols_eq (d : Decoder Q A σ) (columns : Columns Q.Code)
    {symbols : List E} {xs : List A.Code} (known : A.encode symbols = .ok xs) :
    (d.searchSymbols columns symbols : Except (Error S E α) (Path S σ)) =
      ((d.search columns xs).mapError fun position => .numerical position .noPath).map
        (Path.map Q.symbol) := by
  rw [searchSymbols, Alphabet.symbolCodes, known]
  rfl

variable [Zero α] [Logarithm α σ] [MonotoneScore σ]

omit [DecidableEq S] in
/-- Decoding finds a possible path that no other exceeds, or stops at the first
prefix over which every path is impossible. -/
theorem Decoder.decode_cases (m : Model Q A α) {symbols : List E} {xs : List A.Code}
    (known : A.encode symbols = .ok xs) (observed : xs ≠ []) :
    (∃ states : List Q.Code, states.length = xs.length ∧
      ((ofModel m : Decoder Q A σ).decode symbols : Except (Error S E α) _) =
        .ok ⟨states.map Q.symbol, m.pathScore states xs⟩ ∧
      (∀ others : List Q.Code, others.length = xs.length →
        m.pathScore others xs ≤ (m.pathScore states xs : σ)) ∧
      (Score.bottom : σ) < m.pathScore states xs) ∨
    ∃ t < xs.length,
      ((ofModel m : Decoder Q A σ).decode symbols : Except (Error S E α) _) =
        .error (.numerical t .noPath) ∧
      (∀ states : List Q.Code, states.length = xs.length →
        m.pathScore states xs = (Score.bottom : σ)) ∧
      (∀ states : List Q.Code, states.length = t + 1 →
        m.pathScore states (xs.take (t + 1)) = (Score.bottom : σ)) ∧
      ∀ s < t, ∃ states : List Q.Code, states.length = s + 1 ∧
        (Score.bottom : σ) < m.pathScore states (xs.take (s + 1)) := by
  have cases := search_ofModel_cases (σ := σ) m (wholeAlphabet Q) observed
  simp only [toList_wholeAlphabet, PathOver.codes_iff] at cases
  have decoded : ((ofModel m : Decoder Q A σ).decode symbols : Except (Error S E α) _) = _ :=
    searchSymbols_eq _ (wholeAlphabet Q) known
  rcases cases with ⟨states, length, found, best, others, length', possible⟩ |
    ⟨t, bound, failed, impossible, here, before⟩
  · refine .inl ⟨states, length, ?_, best, ?_⟩
    · rw [decoded, found]
      rfl
    · rw [OrderedScore.lt_iff_not_le] at possible ⊢
      exact fun impossible => possible (OrderedScore.le_trans (best others length') impossible)
  · refine .inr ⟨t, bound, ?_, impossible, here, before⟩
    rw [decoded, failed]
    rfl

/-- **Decoding is optimal over the searched states.** If some path over the
listed states is possible, the decoder returns such a path with its score, which
no other path over them exceeds; otherwise it fails at the first prefix over
which every path is impossible. Decoding without a list searches all states. -/
theorem Decoder.decodeOver_optimal (m : Model Q A α) {states : List S} {symbols : List E}
    {ks : List Q.Code} {xs : List A.Code} (listed : Q.encode states = .ok ks) (searched : ks ≠ [])
    (known : A.encode symbols = .ok xs) (observed : xs ≠ []) :
    ((∃ path, PathOver ks xs.length path ∧ (Score.bottom : σ) < m.pathScore path xs) →
      ∃ path, PathOver ks xs.length path ∧
        ((ofModel m : Decoder Q A σ).decodeOver states symbols : Except (Error S E α) _) =
          .ok ⟨path.map Q.symbol, m.pathScore path xs⟩ ∧
        ∀ other, PathOver ks xs.length other → m.pathScore other xs ≤ (m.pathScore path xs : σ)) ∧
    ((¬ ∃ path, PathOver ks xs.length path ∧ (Score.bottom : σ) < m.pathScore path xs) →
      ∃ t < xs.length,
        ((ofModel m : Decoder Q A σ).decodeOver states symbols : Except (Error S E α) _) =
          .error (.numerical t .noPath) ∧
        (∀ path, PathOver ks (t + 1) path →
          m.pathScore path (xs.take (t + 1)) = (Score.bottom : σ)) ∧
        ∀ s < t, ∃ path, PathOver ks (s + 1) path ∧
          (Score.bottom : σ) < m.pathScore path (xs.take (s + 1))) ∧
    ((ofModel m : Decoder Q A σ).decode symbols : Except (Error S E α) _) =
      (ofModel m).decodeOver Q.symbols symbols := by
  obtain ⟨columns, some_columns, rfl⟩ := Columns.ofList?_of_ne_nil searched
  have decoded : ((ofModel m : Decoder Q A σ).decodeOver states symbols :
      Except (Error S E α) _) =
      (((ofModel m : Decoder Q A σ).search columns xs).mapError fun position =>
        .numerical position .noPath).map (Path.map Q.symbol) := by
    rw [decodeOver_eq _ listed, searchSymbols_eq _ columns known]
  refine ⟨?_, ?_, ((ofModel m).decodeOver_symbols symbols).symm⟩
  · rintro ⟨possible, covered, score⟩
    rcases search_ofModel_cases m columns observed with
      ⟨path, found, succeeded, best, -⟩ | ⟨t, -, -, impossible, -, -⟩
    · refine ⟨path, found, ?_, best⟩
      rw [decoded, succeeded]
      rfl
    · rw [impossible possible covered] at score
      exact absurd (OrderedScore.le_refl _) (OrderedScore.lt_iff_not_le.mp score)
  · intro impossible
    rcases search_ofModel_cases m columns observed with
      ⟨-, -, -, -, possible⟩ | ⟨t, bound, failed, -, here, before⟩
    · exact absurd possible impossible
    · refine ⟨t, bound, ?_, here, before⟩
      rw [decoded, failed]
      rfl

theorem Decoder.decodeOver_machine :
    ∃ path, PathOver [Machine.failed, Machine.working, Machine.failed] 3 path ∧
      ((ofModel Machine.model : Decoder _ _ EReal).decodeOver [2, 1, 2] [0, 0, 1] :
          Except (Error Nat Nat ℚ) _) =
        .ok ⟨path.map Machine.states.symbol, Machine.model.pathScore path Machine.shown⟩ := by
  have listed : Machine.states.encode [2, 1, 2] =
      .ok [Machine.failed, Machine.working, Machine.failed] := by decide
  have known : Machine.symbols.encode [0, 0, 1] = .ok Machine.shown := by decide
  have possible : (Score.bottom : EReal) <
      Machine.model.pathScore [Machine.working, Machine.working, Machine.failed] Machine.shown :=
    (Machine.model_reachable.wellFormed.bottom_lt_pathScore_iff _ _).mpr (by decide +kernel)
  obtain ⟨found, -, -⟩ :=
    decodeOver_optimal (σ := EReal) Machine.model listed (by simp) known (by decide)
  have covered : PathOver [Machine.failed, Machine.working, Machine.failed] Machine.shown.length
      [Machine.working, Machine.working, Machine.failed] := ⟨rfl, by simp⟩
  obtain ⟨path, searched, decoded, -⟩ := found ⟨_, covered, possible⟩
  exact ⟨path, searched, decoded⟩

end Symbols

end Trellis
