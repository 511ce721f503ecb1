import Trellis.Arithmetic

/-!
# Count maps

Counts keyed by a pair, such as a state and a state, in the order in which the
keys first came, and their relative frequencies among the keys with the same
first component (`CountMap.frequencies`).
-/

namespace Trellis

/-- A finite map from pairs to numbers. -/
structure CountMap (F T α : Type) where
  entries : List ((F × T) × α)
  nodup : (entries.map Prod.fst).Nodup

namespace CountMap

variable {F T α : Type}

def empty : CountMap F T α := ⟨[], List.nodup_nil⟩

def keys (c : CountMap F T α) : List (F × T) := c.entries.map Prod.fst

/-- Replaces each count by a function of its key and itself. -/
def mapCounts (f : F × T → α → α) (c : CountMap F T α) : CountMap F T α where
  entries := c.entries.map fun (key, count) => (key, f key count)
  nodup := by
    have : Prod.fst ∘ (fun (key, count) => (key, f key count)) = (Prod.fst : (F × T) × α → _) := rfl
    rw [List.map_map, this]
    exact c.nodup

@[simp] theorem keys_mapCounts (f : F × T → α → α) (c : CountMap F T α) :
    (c.mapCounts f).keys = c.keys := by
  simp only [keys, mapCounts, List.map_map]
  rfl

variable [DecidableEq F] [DecidableEq T]

/-- The count for a key, if the map has the key. -/
def get? (c : CountMap F T α) (key : F × T) : Option α := c.entries.lookup key

/-- A count for a key; it takes the place of an earlier one. -/
def insert (c : CountMap F T α) (key : F × T) (count : α) : CountMap F T α :=
  if fresh : key ∈ c.keys then
    c.mapCounts fun k old => if k = key then count else old
  else
    ⟨c.entries ++ [(key, count)], by
      simp only [List.map_append, List.map_cons, List.map_nil]
      refine List.nodup_append.mpr ⟨c.nodup, by simp, ?_⟩
      intro a mem b eq
      rw [List.mem_singleton] at eq
      exact fun same => fresh (eq ▸ same ▸ mem)⟩

/-- The map of a list of counts, of which the last for each key remains. -/
def ofList (entries : List ((F × T) × α)) : CountMap F T α :=
  entries.foldl (fun c (key, count) => c.insert key count) empty

variable [Arithmetic α]

/-- The sum of the counts whose keys start with `source`. -/
def groupTotal (c : CountMap F T α) (source : F) : α :=
  total ((c.entries.filter (·.1.1 = source)).map Prod.snd)

/-- The relative frequencies within each group, zero in a group without counts. -/
def frequencies (c : CountMap F T α) : CountMap F T α :=
  c.mapCounts fun key count =>
    if 0 < c.groupTotal key.1 then count / c.groupTotal key.1 else 0

end CountMap

end Trellis
