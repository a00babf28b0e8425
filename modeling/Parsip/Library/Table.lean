import Mathlib.Data.List.AList

-- Finite maps with one value a key, as an association list without repeated keys. The order of the
-- list is the order in which the map is iterated.

def Table (κ ν : Type*) [DecidableEq κ] :=
  AList fun _ : κ => ν

namespace Table

variable {κ ν : Type*} [DecidableEq κ]

instance [DecidableEq ν] : DecidableEq (Table κ ν) :=
  inferInstanceAs (DecidableEq (AList fun _ : κ => ν))

instance : EmptyCollection (Table κ ν) where
  emptyCollection := (∅ : AList fun _ : κ => ν)

def lookup (t : Table κ ν) (k : κ) : Option ν :=
  AList.lookup k t

def insert (t : Table κ ν) (k : κ) (v : ν) : Table κ ν :=
  AList.insert k v t

def erase (t : Table κ ν) (k : κ) : Table κ ν :=
  AList.erase k t

def contains (t : Table κ ν) (k : κ) : Bool :=
  (t.lookup k).isSome

def toList (t : Table κ ν) : List (κ × ν) :=
  t.entries.map fun e => (e.fst, e.snd)

def values (t : Table κ ν) : List ν :=
  t.toList.map Prod.snd

def size (t : Table κ ν) : Nat :=
  t.toList.length

variable {t : Table κ ν} {k k' : κ} {v : ν}

@[simp, grind =]
theorem lookup_empty : (∅ : Table κ ν).lookup k = none :=
  AList.lookup_empty k

@[simp, grind =]
theorem lookup_insert : (t.insert k v).lookup k' = if k' = k then some v else t.lookup k' := by
  split
  case isTrue h  => subst h; exact AList.lookup_insert t
  case isFalse h => exact AList.lookup_insert_ne h

@[simp, grind =]
theorem lookup_erase : (t.erase k).lookup k' = if k' = k then none else t.lookup k' := by
  split
  case isTrue h  => subst h; exact AList.lookup_erase k' t
  case isFalse h => exact AList.lookup_erase_ne h

theorem erase_insert (h : t.lookup k = none) : (t.insert k v).erase k = t := by
  rw [erase, insert, AList.insert_of_notMem <| AList.lookup_eq_none.mp h]
  exact AList.ext <| List.kerase_cons_eq rfl

@[simp]
theorem contains_eq_true : t.contains k = true ↔ ∃ v, t.lookup k = some v :=
  Option.isSome_iff_exists

@[simp]
theorem contains_eq_false : t.contains k = false ↔ t.lookup k = none := by
  simp [contains]

theorem mem_toList : (k, v) ∈ t.toList ↔ t.lookup k = some v := by
  refine Iff.trans ?_ (AList.mem_lookup_iff (s := t)).symm
  simp only [toList, List.mem_map, Prod.mk.injEq]
  constructor
  case mp  => rintro ⟨e, he, rfl, rfl⟩; exact he
  case mpr => exact fun h => ⟨_, h, rfl, rfl⟩

theorem nodup_keys : (t.toList.map Prod.fst).Nodup := by
  rw [toList, List.map_map]
  exact t.keys_nodup

theorem nodup_toList : t.toList.Nodup :=
  nodup_keys.of_map

theorem eq_empty_of_toList (h : t.toList = []) : t = ∅ :=
  AList.ext <| List.map_eq_nil_iff.mp h

theorem size_insert (h : t.lookup k = none) : (t.insert k v).size = t.size + 1 := by
  rw [size, insert, AList.insert_of_notMem <| AList.lookup_eq_none.mp h]
  rfl

theorem mem_values : v ∈ t.values ↔ ∃ k, t.lookup k = some v := by
  simp [values, ← mem_toList]

end Table
