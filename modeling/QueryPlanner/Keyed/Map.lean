import QueryPlanner.Keyed.Set

/-!
# Finite maps from numbered keys

A `KeyedMap` lists its entries in ascending order of their keys, one entry a key.
`get?_insert` describes the effect of an insertion on later look-ups.
-/

namespace QueryPlanner

variable {κ α β : Type} [Numbered κ]

/-- Entries ordered by the number of their key. -/
def entryBefore (left right : κ × β) : Prop := Numbered.before left.1 right.1

/-- A finite map, kept as the ascending list of its entries. -/
structure KeyedMap (κ : Type) [Numbered κ] (β : Type) where
  entries : List (κ × β)
  ascending : entries.Pairwise entryBefore

namespace KeyedMap

/-- Two maps are equal when they list the same entries. -/
instance [DecidableEq κ] [DecidableEq β] : DecidableEq (KeyedMap κ β) := fun left right =>
  if same : left.entries = right.entries then
    isTrue (by cases left; cases right; cases same; rfl)
  else
    isFalse (fun equal => same (by rw [equal]))

/-- Insert an entry into an ascending list, replacing the entry with the same key. -/
def insertInto (key : κ) (value : β) : List (κ × β) → List (κ × β)
  | [] => [(key, value)]
  | head :: tail =>
    if Numbered.number key < Numbered.number head.1 then (key, value) :: head :: tail
    else if Numbered.number head.1 < Numbered.number key then head :: insertInto key value tail
    else (key, value) :: tail

/-- An insertion leaves only old entries and the new one. -/
theorem mem_of_mem_insertInto {key : κ} {value : β} {entry : κ × β} {entries : List (κ × β)}
    (member : entry ∈ insertInto key value entries) : entry = (key, value) ∨ entry ∈ entries := by
  induction entries with
  | nil => simpa [insertInto] using member
  | cons head tail ih =>
    unfold insertInto at member
    split at member
    · simpa using member
    · split at member
      · rcases List.mem_cons.mp member with rfl | member
        · simp
        · rcases ih member with h | h <;> simp [h]
      · rcases List.mem_cons.mp member with rfl | member
        · simp
        · simp [member]

/-- Insertion keeps a list of entries ascending. -/
theorem insertInto_ascending {key : κ} {value : β} {entries : List (κ × β)}
    (sorted : entries.Pairwise entryBefore) :
    (insertInto key value entries).Pairwise entryBefore := by
  induction entries with
  | nil => simp [insertInto]
  | cons head tail ih =>
    obtain ⟨first, rest⟩ := List.pairwise_cons.mp sorted
    unfold insertInto
    split
    · rename_i smaller
      refine List.pairwise_cons.mpr ⟨?_, sorted⟩
      intro other member
      rcases List.mem_cons.mp member with rfl | member
      · exact smaller
      · exact Nat.lt_trans smaller (first other member)
    · split
      · rename_i larger
        refine List.pairwise_cons.mpr ⟨?_, ih rest⟩
        intro other member
        rcases mem_of_mem_insertInto member with rfl | member
        · exact larger
        · exact first other member
      · rename_i notSmaller notLarger
        refine List.pairwise_cons.mpr ⟨?_, rest⟩
        intro other member
        have above : Numbered.number head.1 < Numbered.number other.1 := first other member
        show Numbered.number key < Numbered.number other.1
        omega

/-- The map without entries. -/
def empty : KeyedMap κ β := ⟨[], .nil⟩

instance : Inhabited (KeyedMap κ β) := ⟨empty⟩

/-- The map with an entry added or replaced. -/
def insert (key : κ) (value : β) (map : KeyedMap κ β) : KeyedMap κ β :=
  ⟨insertInto key value map.entries, insertInto_ascending map.ascending⟩

/-- The map of the listed entries, a later one replacing an earlier one with the same key. -/
def ofList (entries : List (κ × β)) : KeyedMap κ β :=
  entries.foldl (fun map entry => map.insert entry.1 entry.2) empty

/-- The value stored under a key. -/
def get? [DecidableEq κ] (map : KeyedMap κ β) (key : κ) : Option β :=
  map.entries.lookup key

/-- Whether a key has an entry. -/
def contains [DecidableEq κ] (map : KeyedMap κ β) (key : κ) : Bool :=
  (map.get? key).isSome

/-- Whether the map has no entry. -/
def isEmpty (map : KeyedMap κ β) : Bool := map.entries.isEmpty

/-- The number of entries. -/
def size (map : KeyedMap κ β) : Nat := map.entries.length

/-- The keys in ascending order. -/
def keys (map : KeyedMap κ β) : List κ := map.entries.map Prod.fst

/-- The set of keys. -/
def keySet (map : KeyedMap κ β) : KeyedSet κ :=
  ⟨map.keys, List.pairwise_map.mpr map.ascending⟩

/-- Change every value, keeping the keys. -/
def mapValues (change : β → α) (map : KeyedMap κ β) : KeyedMap κ α :=
  { entries := map.entries.map (fun entry => (entry.1, change entry.2))
    ascending := by
      rw [List.pairwise_map]
      exact map.ascending }

/-- The entries whose key satisfies a test. -/
def filterKeys (test : κ → Bool) (map : KeyedMap κ β) : KeyedMap κ β :=
  ⟨map.entries.filter (fun entry => test entry.1), map.ascending.filter _⟩

/-- After an insertion the new key has the new value and every other key its old one. -/
theorem get?_insert [DecidableEq κ] {key other : κ} {value : β} {map : KeyedMap κ β} :
    (map.insert key value).get? other = if other = key then some value else map.get? other := by
  obtain ⟨entries, sorted⟩ := map
  show (insertInto key value entries).lookup other =
    if other = key then some value else entries.lookup other
  induction entries with
  | nil =>
    unfold insertInto
    by_cases h : other = key
    · simp [h]
    · have miss : (other == key) = false := by simp [h]
      simp [List.lookup_cons, miss, h]
  | cons head tail ih =>
    obtain ⟨headKey, headValue⟩ := head
    unfold insertInto
    split
    · by_cases h : other = key
      · simp [h]
      · have miss : (other == key) = false := by simp [h]
        simp [List.lookup_cons, miss, h]
    · split
      · rename_i larger
        have distinct : headKey ≠ key := fun same => by simp [same] at larger
        have tailLookup := ih (List.pairwise_cons.mp sorted).2
        by_cases h : other = headKey
        · subst h; simp [distinct]
        · have miss : (other == headKey) = false := by simp [h]
          simp only [List.lookup_cons, miss, tailLookup]
      · rename_i notSmaller notLarger
        have same : key = headKey :=
          Numbered.number_injective _ _ (Nat.le_antisymm (Nat.le_of_not_lt notLarger)
            (Nat.le_of_not_lt notSmaller))
        subst same
        by_cases h : other = key
        · simp [h]
        · have miss : (other == key) = false := by simp [h]
          simp [List.lookup_cons, miss, h]

end KeyedMap

end QueryPlanner
