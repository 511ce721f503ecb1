import Mathlib.Data.List.ProdSigma
import Mathlib.Data.List.Sort
import Trellis.Builder.Build
import Trellis.Proofs.InPlace
import Trellis.Proofs.Runs

/-!
# The lists of arcs

The arcs of a model are listed twice, by source and by target. Both lists can be
filled in one pass over the mask (`Adjacency.scan`), row by row, each arc at the
end of the list of its source and of the list of its target. The pass visits the
cells in lexicographic order, so what a list has so far is sorted
(`Records.visit`, `Records.foldl`): in the list of a source the cells of one row
follow each other, and the list of a target is extended at most once in a row.
The pass leaves the lists that a model stores (`scan_eq_ofMask`), and what a
builder and its finished model tell of arcs by name is this mask (`arcs_listed`).
Nothing is assumed of the numbers.
-/

namespace Trellis

namespace Adjacency

variable {n : Nat}

/-! ### One pass over a mask -/

def noArcs : Adjacency n where
  successors := .replicate n []
  predecessors := .replicate n []

/-- Adds an arc at the end of the list of its source and of that of its target. -/
def push (a : Adjacency n) (k l : Fin n) : Adjacency n where
  successors := a.successors.set k (a.successors.get k ++ [l]) k.isLt
  predecessors := a.predecessors.set l (a.predecessors.get l ++ [k]) l.isLt

/-- Visits a cell of the mask. -/
def visit (mask : Table n n Bool) (a : Adjacency n) (cell : Fin n × Fin n) : Adjacency n :=
  if mask.get cell.1 cell.2 then a.push cell.1 cell.2 else a

/-- The cells of a mask, row by row. -/
def cells (n : Nat) : List (Fin n × Fin n) := List.finRange n ×ˢ List.finRange n

/-- Lists the arcs of a mask in one pass over its cells. -/
def scan (mask : Table n n Bool) : Adjacency n := (cells n).foldl (visit mask) noArcs

/-- Each list is strictly increasing and holds exactly what the mask allows. -/
structure Lists (a : Adjacency n) (allows : Fin n → Fin n → Bool) : Prop where
  successors_sorted : ∀ k, (a.successors.get k).SortedLT
  mem_successors : ∀ k l, l ∈ a.successors.get k ↔ allows k l = true
  predecessors_sorted : ∀ l, (a.predecessors.get l).SortedLT
  mem_predecessors : ∀ k l, k ∈ a.predecessors.get l ↔ allows k l = true

/-- Both lists hold the allowed cells among those that were visited, in the order in
which they were. -/
structure Records (mask : Table n n Bool) (visited : List (Fin n × Fin n)) (a : Adjacency n) :
    Prop where
  successors : ∀ k, a.successors.get k =
    (visited.filter fun c => c.1 = k ∧ mask.get c.1 c.2 = true).map Prod.snd
  predecessors : ∀ l, a.predecessors.get l =
    (visited.filter fun c => c.2 = l ∧ mask.get c.1 c.2 = true).map Prod.fst

namespace Records

variable {mask : Table n n Bool} {visited : List (Fin n × Fin n)} {a : Adjacency n}

theorem noArcs : Records mask [] noArcs where
  successors k := by simp [Adjacency.noArcs]
  predecessors l := by simp [Adjacency.noArcs]

/-- **One cell.** -/
theorem visit (records : Records mask visited a) (cell : Fin n × Fin n) :
    Records mask (visited ++ [cell]) (a.visit mask cell) := by
  obtain ⟨i, j⟩ := cell
  unfold Adjacency.visit
  split
  · rename_i allowed
    constructor
    · intro k
      rw [push, Row.get_set, List.filter_append, List.map_append, ← records.successors]
      split
      · rename_i here
        subst here
        simp [allowed]
      · rename_i elsewhere
        simp [elsewhere]
    · intro l
      rw [push, Row.get_set, List.filter_append, List.map_append, ← records.predecessors]
      split
      · rename_i here
        subst here
        simp [allowed]
      · rename_i elsewhere
        simp [elsewhere]
  · rename_i forbidden
    constructor
    · intro k
      simp [records.successors, forbidden]
    · intro l
      simp [records.predecessors, forbidden]

/-- **Some cells**, one after another. -/
theorem foldl (records : Records mask visited a) (later : List (Fin n × Fin n)) :
    Records mask (visited ++ later) (later.foldl (Adjacency.visit mask) a) := by
  induction later generalizing visited a with
  | nil => rwa [List.append_nil]
  | cons cell rest ih =>
    rw [← List.singleton_append, ← List.append_assoc]
    exact ih (records.visit cell)

/-- The pass over all cells of a mask leaves lists that record all its arcs. -/
theorem scan (mask : Table n n Bool) : Records mask (cells n) (scan mask) := noArcs.foldl (cells n)

end Records

/-! ### The order of the cells -/

theorem mem_cells (cell : Fin n × Fin n) : cell ∈ cells n :=
  List.mem_product.mpr ⟨List.mem_finRange _, List.mem_finRange _⟩

theorem pairwise_cells (n : Nat) : (cells n).Pairwise (Prod.Lex (· < ·) (· < ·)) := by
  refine List.pairwise_flatMap.mpr ⟨fun k _ => ?_, ?_⟩
  · refine List.pairwise_map.mpr ((List.pairwise_lt_finRange n).imp fun less => ?_)
    exact .right k less
  · refine (List.pairwise_lt_finRange n).imp fun {k l} less => ?_
    intro c of_k d of_l
    obtain ⟨i, -, rfl⟩ := List.mem_map.mp of_k
    obtain ⟨j, -, rfl⟩ := List.mem_map.mp of_l
    exact .left i j less

theorem lists_scan (mask : Table n n Bool) : (scan mask).Lists mask.get := by
  have records := Records.scan mask
  constructor
  · intro k
    rw [records.successors, List.sortedLT_iff_pairwise, List.pairwise_map, List.pairwise_filter]
    refine (pairwise_cells n).imp fun {c d} before ofC ofD => ?_
    have row : c.1 = d.1 := by simp_all
    rcases Prod.lex_iff.mp before with first | ⟨-, second⟩
    · exact absurd row first.ne
    · exact second
  · intro k l
    rw [records.successors]
    simp [mem_cells]
  · intro l
    rw [records.predecessors, List.sortedLT_iff_pairwise, List.pairwise_map, List.pairwise_filter]
    refine (pairwise_cells n).imp fun {c d} before ofC ofD => ?_
    have column : c.2 = d.2 := by simp_all
    rcases Prod.lex_iff.mp before with first | ⟨-, second⟩
    · exact first
    · exact absurd column second.ne
  · intro k l
    rw [records.predecessors]
    simp [mem_cells]

theorem lists_ofMask (allows : Fin n → Fin n → Bool) : (ofMask allows).Lists allows where
  successors_sorted k := by
    rw [successors_ofMask, List.sortedLT_iff_pairwise]
    exact (List.pairwise_lt_finRange n).filter _
  mem_successors k l := by simp [successors_ofMask]
  predecessors_sorted l := by
    rw [predecessors_ofMask, List.sortedLT_iff_pairwise]
    exact (List.pairwise_lt_finRange n).filter _
  mem_predecessors k l := by simp [predecessors_ofMask]

/-- There is one way to list the arcs of a mask. -/
theorem Lists.unique {a b : Adjacency n} {allows : Fin n → Fin n → Bool} (first : a.Lists allows)
    (second : b.Lists allows) : a = b := by
  obtain ⟨_, _⟩ := a
  obtain ⟨_, _⟩ := b
  congr 1
  · refine Row.ext fun k => ?_
    refine (first.successors_sorted k).eq_of_mem_iff (second.successors_sorted k) fun l => ?_
    exact (first.mem_successors k l).trans (second.mem_successors k l).symm
  · refine Row.ext fun l => ?_
    refine (first.predecessors_sorted l).eq_of_mem_iff (second.predecessors_sorted l) fun k => ?_
    exact (first.mem_predecessors k l).trans (second.mem_predecessors k l).symm

/-- The pass lists what is listed by filtering the states once for each state. -/
theorem scan_eq_ofMask (mask : Table n n Bool) : scan mask = ofMask mask.get :=
  (lists_scan mask).unique (lists_ofMask mask.get)

end Adjacency

variable {S E α : Type} {Q : Alphabet S} {A : Alphabet E}

/-! ### Arcs by name -/

theorem Alphabet.map_symbol_filter (Q : Alphabet S) (p : S → Bool) :
    (Q.codes.filter fun k => p (Q.symbol k)).map Q.symbol = Q.symbols.filter p := by
  rw [← Q.map_symbol_codes, List.filter_map]
  rfl

namespace Model

variable [DecidableEq S] (m : Model Q A α)

theorem isAllowed_symbol (k l : Q.Code) :
    m.isAllowed (Q.symbol k) (Q.symbol l) = m.allows k l := by
  rw [isAllowed, Parameters.arc?_symbol]
  rfl

/-- Only known states have arcs. -/
theorem mem_symbols_of_isAllowed {m : Model Q A α} {source target : S}
    (allowed : m.isAllowed source target = true) : source ∈ Q.symbols ∧ target ∈ Q.symbols := by
  obtain ⟨e, arc⟩ := Option.isSome_iff_exists.mp allowed
  exact Parameters.mem_symbols_of_arc? arc

/-- The states that can follow a state, in the order of the alphabet. -/
theorem transitionsFrom_eq (source : S) :
    m.transitionsFrom source = Q.symbols.filter fun target => m.isAllowed source target := by
  cases code : Q.codeOf? source with
  | none =>
    have unknown := Q.codeOf?_eq_none_iff.mp code
    rw [transitionsFrom, code, Option.elim_none, eq_comm, List.filter_eq_nil_iff]
    exact fun target _ allowed => unknown (mem_symbols_of_isAllowed allowed).1
  | some k =>
    obtain rfl := Q.codeOf?_eq_some_iff.mp code
    rw [transitionsFrom, code, Option.elim_some, successors_eq, ← Q.map_symbol_filter]
    simp only [isAllowed_symbol]

/-- The states that a state can follow, in the order of the alphabet. -/
theorem transitionsTo_eq (target : S) :
    m.transitionsTo target = Q.symbols.filter fun source => m.isAllowed source target := by
  cases code : Q.codeOf? target with
  | none =>
    have unknown := Q.codeOf?_eq_none_iff.mp code
    rw [transitionsTo, code, Option.elim_none, eq_comm, List.filter_eq_nil_iff]
    exact fun source _ allowed => unknown (mem_symbols_of_isAllowed allowed).2
  | some l =>
    obtain rfl := Q.codeOf?_eq_some_iff.mp code
    rw [transitionsTo, code, Option.elim_some, predecessors_eq, ← Q.map_symbol_filter]
    simp only [isAllowed_symbol]

/-- The arcs there are, among the pairs of states in order. -/
theorem arcs_eq : m.arcs = (Q.symbols ×ˢ Q.symbols).filter fun arc => m.isAllowed arc.1 arc.2 := by
  have rows : (Q.symbols ×ˢ Q.symbols : List (S × S)) =
      Q.symbols.flatMap fun source => Q.symbols.map (Prod.mk source) := rfl
  rw [rows, Q.flatMap_symbols, List.filter_flatMap, Parameters.arcs]
  refine List.flatMap_congr fun k _ => ?_
  rw [List.filter_map, ← Q.map_symbol_codes, List.filter_map, List.map_map]
  simp only [Function.comp_def, isAllowed_symbol]
  rfl

end Model

/-- By name, the arcs of a model are those of a list. Whatever lists the states before
or after a state, or all arcs, lists each once and in the order of the alphabet. -/
structure Model.NamesArcs [DecidableEq S] (m : Model Q A α) (arcs : List (S × S)) : Prop where
  mem_transitionsFrom : ∀ s u, u ∈ m.transitionsFrom s ↔ (s, u) ∈ arcs
  mem_transitionsTo : ∀ s u, s ∈ m.transitionsTo u ↔ (s, u) ∈ arcs
  isAllowed : ∀ s u, m.isAllowed s u = true ↔ (s, u) ∈ arcs
  transitionsFrom_ordered : ∀ s, (m.transitionsFrom s).Nodup ∧
    (m.transitionsFrom s).Sublist Q.symbols
  transitionsTo_ordered : ∀ s, (m.transitionsTo s).Nodup ∧ (m.transitionsTo s).Sublist Q.symbols
  arcs_ordered : arcs.Nodup ∧ arcs.Sublist (Q.symbols ×ˢ Q.symbols)
  unknown : ∀ s ∉ Q.symbols, m.transitionsFrom s = [] ∧ m.transitionsTo s = []

theorem Model.namesArcs [DecidableEq S] (m : Model Q A α) : m.NamesArcs m.arcs where
  mem_transitionsFrom s u := by
    rw [transitionsFrom_eq, arcs_eq, List.mem_filter, List.mem_filter, List.mem_product]
    exact ⟨fun mem => ⟨mem_symbols_of_isAllowed mem.2, mem.2⟩, fun mem => ⟨mem.1.2, mem.2⟩⟩
  mem_transitionsTo s u := by
    rw [transitionsTo_eq, arcs_eq, List.mem_filter, List.mem_filter, List.mem_product]
    exact ⟨fun mem => ⟨mem_symbols_of_isAllowed mem.2, mem.2⟩, fun mem => ⟨mem.1.1, mem.2⟩⟩
  isAllowed s u := by
    rw [arcs_eq, List.mem_filter, List.mem_product]
    exact ⟨fun allowed => ⟨mem_symbols_of_isAllowed allowed, allowed⟩, fun mem => mem.2⟩
  transitionsFrom_ordered s := by
    rw [transitionsFrom_eq]
    exact ⟨Q.nodup.filter _, List.filter_sublist⟩
  transitionsTo_ordered s := by
    rw [transitionsTo_eq]
    exact ⟨Q.nodup.filter _, List.filter_sublist⟩
  arcs_ordered := by
    rw [arcs_eq]
    exact ⟨(Q.nodup.product Q.nodup).filter _, List.filter_sublist⟩
  unknown s unknown := by
    rw [transitionsFrom_eq, transitionsTo_eq, List.filter_eq_nil_iff, List.filter_eq_nil_iff]
    exact ⟨fun u _ allowed => unknown (mem_symbols_of_isAllowed allowed).1,
      fun u _ allowed => unknown (mem_symbols_of_isAllowed allowed).2⟩

/-! ### Models that are built -/

section Build

variable [Arithmetic α]

theorem Builder.allows_of_build {b : Builder Q A α} {m : Model Q A α}
    (built : b.build = (.ok m : Except (Error S E α) _)) (k l : Q.Code) :
    m.allows k l = b.allows k l := by
  unfold Builder.build at built
  split at built
  · cases built
  · cases built
    have arcs : b.finished.transitions = (b.mapGroups fun g => g.fill g.mass).transitions := rfl
    rw [Parameters.allows, arcs]
    exact Parameters.allows_mapGroups _ b.toParameters k l

theorem Builder.arcs_of_build {b : Builder Q A α} {m : Model Q A α}
    (built : b.build = (.ok m : Except (Error S E α) _)) : m.arcs = b.arcs := by
  have allows : ∀ k, m.allows k = b.allows k := fun k => funext (allows_of_build built k)
  simp only [Parameters.arcs, Parameters.targets, allows]

/-- **The lists of a model are its mask.** One pass over any mask lists, for each state,
exactly the states that it has arcs to and exactly those that it has arcs from, in
strictly increasing order. The lists of a model are those of the mask it was built from,
whether that is a table or the arcs of a builder; so the states after a state, the states
before it, the test for an arc and the arcs of the builder tell the same by name. -/
theorem arcs_listed [DecidableEq S] :
    (∀ (n : Nat) (mask : Table n n Bool), (Adjacency.scan mask).Lists mask.get) ∧
    ∀ (b : Builder Q A α) (m : Model Q A α), b.build = (.ok m : Except (Error S E α) _) →
      (∀ t : Tables Q A α, t.builder = b → m.adjacency = .scan t.allowed) ∧
      m.adjacency.Lists b.allows ∧
      m.NamesArcs b.arcs := by
  refine ⟨fun n mask => Adjacency.lists_scan mask, fun b m built => ?_⟩
  have allows : m.allows = b.allows :=
    funext fun k => funext (Builder.allows_of_build built k)
  refine ⟨?_, ?_, ?_⟩
  · rintro t rfl
    have mask : m.allows = t.allowed.get := by
      rw [allows]
      exact funext fun k => funext (t.allows_builder k)
    rw [Adjacency.scan_eq_ofMask, m.adjacency_eq, mask]
  · rw [m.adjacency_eq, allows]
    exact Adjacency.lists_ofMask b.allows
  · rw [← Builder.arcs_of_build built]
    exact m.namesArcs

end Build

/-- The failed state follows the working one and itself has no arcs; state 3 is unknown. -/
theorem arcs_machine :
    Machine.builder.build = (.ok Machine.model : Except (Error Nat Nat ℚ) _) ∧
      Machine.model.NamesArcs [(1, 1), (1, 2)] ∧
      Machine.model.transitionsFrom 3 = [] ∧
      Machine.model.adjacency.predecessors.get Machine.failed = [Machine.working] := by
  have built : Machine.builder.build = (.ok Machine.model : Except (Error Nat Nat ℚ) _) := by
    decide +kernel
  obtain ⟨-, listed⟩ := arcs_listed (Q := Machine.states) (A := Machine.symbols) (α := ℚ)
  obtain ⟨-, lists, names⟩ := listed Machine.builder Machine.model built
  have arcs : Machine.builder.arcs = [(1, 1), (1, 2)] := by decide +kernel
  rw [arcs] at names
  refine ⟨built, names, (names.unknown 3 (by decide)).1, ?_⟩
  refine (lists.predecessors_sorted _).eq_of_mem_iff (by decide) fun k => ?_
  rw [lists.mem_predecessors]
  revert k
  decide +kernel

end Trellis
