/-
# Lookups in sorted maps

What is found after one key is set or dropped, maps whose values are computed from those
of another map, and maps built by setting keys one after another.
-/
import ChunkDb.Lib.SortedMap

namespace SortedMap

open List

variable {K V W : Type*} [LinearOrder K]

/-- A map is determined by what is found in it. -/
theorem ext_find {m m' : SortedMap K V} (h : ∀ k, m.find k = m'.find k) : m = m' := by
  apply ext_mem
  rintro ⟨k, v⟩
  rw [← find_eq_some_iff, ← find_eq_some_iff, h k]

@[simp] theorem find_empty (k : K) : (empty : SortedMap K V).find k = none := rfl

variable (m : SortedMap K V)

theorem find_assign (k k' : K) (v : V) :
    (m.assign k v).find k' = if k' = k then some v else m.find k' := by
  by_cases hk : k' = k
  · rw [if_pos hk, find_eq_some_iff, mem_assign]
    exact Or.inl ⟨hk, rfl⟩
  · rw [if_neg hk]
    apply Option.ext
    intro v'
    rw [find_eq_some_iff, mem_assign, find_eq_some_iff]
    simp [hk]

@[simp] theorem find_assign_self (k : K) (v : V) :
    (m.assign k v).find k = some v := by
  rw [find_assign, if_pos rfl]

theorem find_assign_of_ne {k k' : K} (h : k' ≠ k) (m : SortedMap K V) (v : V) :
    (m.assign k v).find k' = m.find k' := by
  rw [find_assign, if_neg h]

theorem find_remove (k k' : K) :
    (m.remove k).find k' = if k' = k then none else m.find k' := by
  by_cases hk : k' = k
  · rw [if_pos hk, find_eq_none_iff]
    intro v hv
    exact ((mem_remove m k k' v).1 hv).1 hk
  · rw [if_neg hk]
    apply Option.ext
    intro v'
    rw [find_eq_some_iff, mem_remove, find_eq_some_iff]
    simp [hk]

/-- A new key adds what is written for its entry. -/
theorem length_flatMap_assign_new (f : K × V → List W) {m : SortedMap K V} {k : K}
    (h : m.find k = none) (v : V) : ((m.assign k v).entries.flatMap f).length
      = (m.entries.flatMap f).length + (f (k, v)).length := by
  have hweight := weight_merge (fun entry => (f entry).length) m [(k, some v)]
    (keysAscending_singleton _)
  rw [assign_eq_merge]
  simpa [h, put, weight, length_flatMap] using hweight

theorem length_assign_new {m : SortedMap K V} {k : K} (h : m.find k = none) (v : V) :
    (m.assign k v).entries.length = m.entries.length + 1 := by
  simpa using length_flatMap_assign_new (fun entry => [entry]) h v

/-- The map with each value computed from its key and its old value. -/
def mapValues (f : K → V → W) (m : SortedMap K V) : SortedMap K W where
  entries := m.entries.map fun entry => (entry.1, f entry.1 entry.2)
  ascending := by
    rw [KeysAscending, pairwise_map]
    exact m.ascending

theorem find_mapValues (f : K → V → W) (m : SortedMap K V) (k : K) :
    (m.mapValues f).find k = (m.find k).map (f k) := by
  apply Option.ext
  intro w
  rw [find_eq_some_iff, Option.map_eq_some_iff]
  simp only [mapValues, mem_map, Prod.mk.injEq, Prod.exists]
  constructor
  · rintro ⟨k', v, hmem, rfl, rfl⟩
    exact ⟨v, (find_eq_some_iff m k' v).2 hmem, rfl⟩
  · rintro ⟨v, hfind, rfl⟩
    exact ⟨k, v, (find_eq_some_iff m k v).1 hfind, rfl, rfl⟩

/-- Setting the keys of a list, one after another. -/
def assignAll (m : SortedMap K V) (l : List (K × V)) : SortedMap K V :=
  l.foldl (fun m entry => m.assign entry.1 entry.2) m

theorem find_assignAll {l : List (K × V)} (h : KeysAscending l) (m : SortedMap K V) (k : K) :
    (m.assignAll l).find k = ((l.find? (fun e => e.1 = k)).map Prod.snd).or (m.find k) := by
  induction l generalizing m with
  | nil => simp [assignAll]
  | cons entry l ih =>
    obtain ⟨hhead, htail⟩ := pairwise_cons.1 h
    have hstep : m.assignAll (entry :: l) = (m.assign entry.1 entry.2).assignAll l := rfl
    rw [hstep, ih htail, find?_cons]
    by_cases hk : entry.1 = k
    · -- no later entry has this key
      have hnone : l.find? (fun e => decide (e.1 = k)) = none := by
        rw [find?_eq_none]
        intro e he heq
        exact (hhead e he).ne (hk.trans (of_decide_eq_true heq).symm)
      subst hk
      rw [hnone]
      simp
    · rw [find_assign_of_ne (Ne.symm hk)]
      simp [hk]

/-- A map is its entries, set one after another. -/
theorem assignAll_entries : (empty : SortedMap K V).assignAll m.entries = m := by
  apply ext_find
  intro k
  rw [find_assignAll m.ascending, find_empty, Option.or_none]
  rfl

end SortedMap
