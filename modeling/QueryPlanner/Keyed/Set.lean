import QueryPlanner.Keyed.Numbered

/-!
# Finite sets of numbered keys

A `KeyedSet` lists its elements in ascending order without repeats, so two sets with the same
elements are equal. `mem_insert`, `mem_union`, `mem_inter` and `mem_diff` describe the operations
through membership.
-/

namespace QueryPlanner

variable {κ : Type} [Numbered κ]

/-- A finite set of keys, kept as the ascending list of its elements. -/
structure KeyedSet (κ : Type) [Numbered κ] where
  toList : List κ
  ascending : toList.Pairwise Numbered.before

namespace KeyedSet

/-- Two sets are equal when they list the same elements. -/
instance [DecidableEq κ] : DecidableEq (KeyedSet κ) := fun left right =>
  if same : left.toList = right.toList then
    isTrue (by cases left; cases right; cases same; rfl)
  else
    isFalse (fun equal => same (by rw [equal]))

/-- Insert a key into an ascending list, keeping the list as it is when the key is present. -/
def insertInto (key : κ) : List κ → List κ
  | [] => [key]
  | head :: tail =>
    if Numbered.number key < Numbered.number head then key :: head :: tail
    else if Numbered.number head < Numbered.number key then head :: insertInto key tail
    else head :: tail

/-- Insertion adds the key and nothing else. -/
theorem mem_insertInto {key other : κ} {keys : List κ} :
    other ∈ insertInto key keys ↔ other = key ∨ other ∈ keys := by
  induction keys with
  | nil => simp [insertInto]
  | cons head tail ih =>
    unfold insertInto
    split
    · simp
    · split
      · simp only [List.mem_cons, ih]
        constructor
        · rintro (h | h | h) <;> simp [h]
        · rintro (h | h | h) <;> simp [h]
      · have same : key = head := Numbered.number_injective _ _ (by omega)
        simp [same]

/-- Insertion keeps a list ascending. -/
theorem insertInto_ascending {key : κ} {keys : List κ} (sorted : keys.Pairwise Numbered.before) :
    (insertInto key keys).Pairwise Numbered.before := by
  induction keys with
  | nil => simp [insertInto]
  | cons head tail ih =>
    obtain ⟨first, rest⟩ := List.pairwise_cons.mp sorted
    unfold insertInto
    split
    · rename_i smaller
      refine List.pairwise_cons.mpr ⟨?_, sorted⟩
      intro other member
      rcases List.mem_cons.mp member with rfl | member
      · exact smaller
      · exact Nat.lt_trans smaller (first other member)
    · split
      · rename_i larger
        refine List.pairwise_cons.mpr ⟨?_, ih rest⟩
        intro other member
        rcases mem_insertInto.mp member with rfl | member
        · exact larger
        · exact first other member
      · exact sorted

/-- The set without elements. -/
def empty : KeyedSet κ := ⟨[], .nil⟩

instance : Inhabited (KeyedSet κ) := ⟨empty⟩

/-- The set with one more element. -/
def insert (key : κ) (set : KeyedSet κ) : KeyedSet κ :=
  ⟨insertInto key set.toList, insertInto_ascending set.ascending⟩

/-- The elements that satisfy a test. -/
def filter (test : κ → Bool) (set : KeyedSet κ) : KeyedSet κ :=
  ⟨set.toList.filter test, set.ascending.filter _⟩

/-- The set of the listed keys, in any order and with any repeats. -/
def ofList (keys : List κ) : KeyedSet κ :=
  keys.foldl (fun set key => set.insert key) empty

/-- Membership of a key. -/
def contains [DecidableEq κ] (set : KeyedSet κ) (key : κ) : Bool :=
  decide (key ∈ set.toList)

/-- The number of elements. -/
def size (set : KeyedSet κ) : Nat := set.toList.length

/-- Whether the set has no element. -/
def isEmpty (set : KeyedSet κ) : Bool := set.toList.isEmpty

/-- The elements of either set. -/
def union (left right : KeyedSet κ) : KeyedSet κ :=
  right.toList.foldl (fun set key => set.insert key) left

/-- The elements of both sets. -/
def inter [DecidableEq κ] (left right : KeyedSet κ) : KeyedSet κ :=
  left.filter right.contains

/-- The elements of the first set that are not in the second. -/
def diff [DecidableEq κ] (left right : KeyedSet κ) : KeyedSet κ :=
  left.filter (fun key => !right.contains key)

/-- Whether every element of the first set is in the second. -/
def subset [DecidableEq κ] (left right : KeyedSet κ) : Bool :=
  left.toList.all right.contains

/-- A key is an element when the list has it. -/
instance : Membership κ (KeyedSet κ) := ⟨fun set key => key ∈ set.toList⟩

theorem mem_iff {set : KeyedSet κ} {key : κ} : key ∈ set ↔ key ∈ set.toList := Iff.rfl

/-- The elements determine a set. -/
theorem eq_of_mem_iff {left right : KeyedSet κ} (h : ∀ key, key ∈ left ↔ key ∈ right) :
    left = right := by
  have hnodup (set : KeyedSet κ) : set.toList.Nodup :=
    set.ascending.imp (S := fun left right => left ≠ right) (by
      rintro left _ hbefore rfl
      exact Nat.lt_irrefl _ hbefore)
  have hperm : left.toList.Perm right.toList :=
    (List.perm_ext_iff_of_nodup (hnodup left) (hnodup right)).mpr h
  have hlists : left.toList = right.toList :=
    hperm.eq_of_pairwise (fun _ _ _ _ hle hge => absurd hle (Nat.lt_asymm hge))
      left.ascending right.ascending
  cases left
  cases right
  cases hlists
  rfl

@[simp] theorem mem_empty {key : κ} : key ∈ (empty : KeyedSet κ) ↔ False := by
  simp [mem_iff, empty]

@[simp] theorem mem_insert {set : KeyedSet κ} {key other : κ} :
    other ∈ set.insert key ↔ other = key ∨ other ∈ set :=
  mem_insertInto

@[simp] theorem mem_filter {set : KeyedSet κ} {test : κ → Bool} {key : κ} :
    key ∈ set.filter test ↔ key ∈ set ∧ test key = true := by
  simp [mem_iff, filter]

@[simp] theorem contains_iff [DecidableEq κ] {set : KeyedSet κ} {key : κ} :
    set.contains key = true ↔ key ∈ set := by
  simp [contains, mem_iff]

instance [DecidableEq κ] (set : KeyedSet κ) (key : κ) : Decidable (key ∈ set) :=
  decidable_of_iff _ contains_iff

theorem mem_foldl_insert {keys : List κ} {set : KeyedSet κ} {key : κ} :
    key ∈ keys.foldl (fun found next => found.insert next) set ↔ key ∈ set ∨ key ∈ keys := by
  induction keys generalizing set with
  | nil => simp
  | cons head tail ih =>
    simp only [List.foldl_cons, ih, mem_insert, List.mem_cons]
    constructor
    · rintro ((h | h) | h) <;> simp [h]
    · rintro (h | h | h) <;> simp [h]

@[simp] theorem mem_ofList {keys : List κ} {key : κ} : key ∈ ofList keys ↔ key ∈ keys := by
  simp [ofList, mem_foldl_insert]

@[simp] theorem mem_union {left right : KeyedSet κ} {key : κ} :
    key ∈ left.union right ↔ key ∈ left ∨ key ∈ right := by
  simp only [union, mem_foldl_insert]
  rfl

@[simp] theorem mem_inter [DecidableEq κ] {left right : KeyedSet κ} {key : κ} :
    key ∈ left.inter right ↔ key ∈ left ∧ key ∈ right := by
  simp [inter]

@[simp] theorem mem_diff [DecidableEq κ] {left right : KeyedSet κ} {key : κ} :
    key ∈ left.diff right ↔ key ∈ left ∧ key ∉ right := by
  unfold diff
  rw [mem_filter]
  simp [contains, mem_iff]

theorem subset_iff [DecidableEq κ] {left right : KeyedSet κ} :
    left.subset right = true ↔ ∀ key, key ∈ left → key ∈ right := by
  simp [subset, contains, mem_iff]

theorem eq_empty_of_subset [DecidableEq κ] {set : KeyedSet κ} (h : set.subset empty = true) :
    set = empty :=
  eq_of_mem_iff fun key => ⟨subset_iff.mp h key, fun hkey => (mem_empty.mp hkey).elim⟩

theorem sublist_of_subset [DecidableEq κ] {left right : KeyedSet κ}
    (h : left.subset right = true) : left.toList.Sublist right.toList := by
  have hsame : left = right.filter left.contains := by
    refine eq_of_mem_iff fun key => ?_
    rw [mem_filter, contains_iff]
    exact ⟨fun hkey => ⟨subset_iff.mp h key hkey, hkey⟩, And.right⟩
  rw [hsame]
  exact List.filter_sublist

end KeyedSet

end QueryPlanner
