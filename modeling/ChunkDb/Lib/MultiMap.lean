/-
# Multimaps as key-sorted lists

A multimap keeps its entries in ascending key order, those of one key in the order they came.
The order is a field of `MultiMap`.

* `MultiMap.emplace` puts an entry behind those with its key or a smaller one;
* `MultiMap.erase` takes one entry out;
* `MultiMap.equalRange` has the values of one key.
-/
import Mathlib.Tactic

variable {K V : Type*} [LinearOrder K]

/-- The entries of a multimap in ascending key order. -/
structure MultiMap (K V : Type*) [LinearOrder K] where
  entries : List (K × V)
  ascending : entries.Pairwise (fun a b => a.1 ≤ b.1)

namespace MultiMap

open List

/-- Nothing. -/
def empty : MultiMap K V := ⟨[], List.Pairwise.nil⟩

/-- The values in the order of their keys. -/
def values (m : MultiMap K V) : List V := m.entries.map Prod.snd

/-- The first and the last entry. -/
def first? (m : MultiMap K V) : Option (K × V) := m.entries.head?

def last? (m : MultiMap K V) : Option (K × V) := m.entries.getLast?

/-- The values of a key, in the order they came. -/
def equalRange (m : MultiMap K V) (k : K) : List V :=
  (m.entries.filter (fun e => e.1 = k)).map Prod.snd

/-- Put an entry where it belongs. -/
def insertEntry (k : K) (v : V) : List (K × V) → List (K × V)
  | [] => [(k, v)]
  | e :: rest => if e.1 ≤ k then e :: insertEntry k v rest else (k, v) :: e :: rest

theorem perm_insertEntry (k : K) (v : V) (l : List (K × V)) :
    (insertEntry k v l).Perm ((k, v) :: l) := by
  induction l with
  | nil => exact .refl _
  | cons e rest ih =>
    unfold insertEntry
    split
    · exact (ih.cons e).trans (.swap ..)
    · exact .refl _

theorem ascending_insertEntry (k : K) (v : V) {l : List (K × V)}
    (h : l.Pairwise (fun a b => a.1 ≤ b.1)) :
    (insertEntry k v l).Pairwise (fun a b => a.1 ≤ b.1) := by
  induction l with
  | nil => exact pairwise_singleton _ _
  | cons e rest ih =>
    obtain ⟨hhead, htail⟩ := pairwise_cons.mp h
    unfold insertEntry
    split
    · rename_i hle
      refine pairwise_cons.mpr ⟨fun e' he' => ?_, ih htail⟩
      rcases mem_cons.mp ((perm_insertEntry k v rest).mem_iff.mp he') with rfl | hold
      · exact hle
      · exact hhead e' hold
    · rename_i hlt
      have hkey : k ≤ e.1 := (not_le.mp hlt).le
      refine pairwise_cons.mpr ⟨fun e' he' => ?_, h⟩
      rcases mem_cons.mp he' with rfl | hold
      · exact hkey
      · exact hkey.trans (hhead e' hold)

theorem filter_insertEntry (k : K) (v : V) {l : List (K × V)}
    (h : l.Pairwise (fun a b => a.1 ≤ b.1)) (k' : K) :
    (insertEntry k v l).filter (fun e => e.1 = k')
      = l.filter (fun e => e.1 = k') ++ if k = k' then [(k, v)] else [] := by
  induction l with
  | nil =>
    unfold insertEntry
    by_cases hk : k = k'
    · simp [hk]
    · simp [hk]
  | cons e rest ih =>
    obtain ⟨hhead, htail⟩ := pairwise_cons.mp h
    unfold insertEntry
    split
    · rw [filter_cons, filter_cons, ih htail]
      split <;> rfl
    · rename_i hlt
      by_cases hk : k = k'
      · -- the entries behind have greater keys
        have hnone : (e :: rest).filter (fun e => e.1 = k') = [] := by
          refine filter_eq_nil_iff.mpr fun e' he' => ?_
          have hge : e.1 ≤ e'.1 := by
            rcases mem_cons.mp he' with rfl | hold
            · exact le_rfl
            · exact hhead e' hold
          have hne : e'.1 ≠ k' := (hk ▸ (not_le.mp hlt).trans_le hge).ne'
          simpa using hne
        rw [filter_cons_of_pos (by simpa using hk), hnone, if_pos hk]
        rfl
      · rw [filter_cons_of_neg (by simpa using hk), if_neg hk, append_nil]

/-- Put an entry behind those with its key or a smaller one. -/
def emplace (m : MultiMap K V) (k : K) (v : V) : MultiMap K V :=
  ⟨insertEntry k v m.entries, ascending_insertEntry k v m.ascending⟩

/-- Take one entry out. -/
def erase [DecidableEq V] (m : MultiMap K V) (k : K) (v : V) : MultiMap K V :=
  ⟨m.entries.erase (k, v), m.ascending.sublist erase_sublist⟩

variable {m : MultiMap K V} {k : K} {v : V}

theorem perm_emplace (m : MultiMap K V) (k : K) (v : V) :
    (m.emplace k v).entries.Perm ((k, v) :: m.entries) :=
  perm_insertEntry k v m.entries

@[simp] theorem mem_emplace {e : K × V} :
    e ∈ (m.emplace k v).entries ↔ e = (k, v) ∨ e ∈ m.entries := by
  rw [(perm_emplace m k v).mem_iff, mem_cons]

theorem equalRange_emplace_self (m : MultiMap K V) (k : K) (v : V) :
    (m.emplace k v).equalRange k = m.equalRange k ++ [v] := by
  rw [equalRange, emplace, filter_insertEntry k v m.ascending, if_pos rfl, map_append]
  rfl

theorem equalRange_emplace_of_ne {k' : K} (h : k ≠ k') (m : MultiMap K V) (v : V) :
    (m.emplace k v).equalRange k' = m.equalRange k' := by
  rw [equalRange, emplace, filter_insertEntry k v m.ascending, if_neg h, append_nil]
  rfl

theorem mem_equalRange : v ∈ m.equalRange k ↔ (k, v) ∈ m.entries := by
  rw [equalRange, mem_map]
  constructor
  · rintro ⟨⟨k', v'⟩, he, rfl⟩
    obtain ⟨hmem, hkey⟩ := mem_filter.mp he
    obtain rfl : k' = k := by simpa using hkey
    exact hmem
  · intro he
    exact ⟨(k, v), mem_filter.mpr ⟨he, by simp⟩, rfl⟩

/-- The first entry has the smallest key. -/
theorem le_of_first? {e : K × V} (h : m.first? = some e) : ∀ e' ∈ m.entries, e.1 ≤ e'.1 := by
  intro e' he'
  have hasc := m.ascending
  rw [first?] at h
  cases hm : m.entries with
  | nil => rw [hm] at he'; exact absurd he' not_mem_nil
  | cons head rest =>
    rw [hm] at h hasc he'
    obtain rfl : head = e := by simpa using h
    rcases mem_cons.mp he' with rfl | hold
    · exact le_rfl
    · exact (pairwise_cons.mp hasc).1 e' hold

/-- The last entry has the greatest key. -/
theorem le_of_last? {e : K × V} (h : m.last? = some e) : ∀ e' ∈ m.entries, e'.1 ≤ e.1 := by
  intro e' he'
  obtain ⟨front, hfront⟩ := getLast?_eq_some_iff.mp h
  have hasc := m.ascending
  rw [hfront, pairwise_append] at hasc
  rw [hfront] at he'
  rcases mem_append.mp he' with hold | hlast
  · exact hasc.2.2 e' hold e (mem_singleton_self e)
  · rw [mem_singleton.mp hlast]

theorem equalRange_sublist {m' : MultiMap K V} (h : m'.entries.Sublist m.entries) (k : K) :
    (m'.equalRange k).Sublist (m.equalRange k) :=
  (h.filter _).map _

section Erase

variable [DecidableEq V]

theorem erase_sublist (m : MultiMap K V) (k : K) (v : V) :
    (m.erase k v).entries.Sublist m.entries :=
  List.erase_sublist

theorem perm_erase (h : (k, v) ∈ m.entries) : m.entries.Perm ((k, v) :: (m.erase k v).entries) :=
  perm_cons_erase h

/-- Where every value is there once, an entry that is taken out is gone. -/
theorem mem_erase (hnodup : m.values.Nodup) {e : K × V} :
    e ∈ (m.erase k v).entries ↔ e ≠ (k, v) ∧ e ∈ m.entries :=
  (List.Nodup.of_map _ hnodup).mem_erase_iff

theorem nodup_values_erase (hnodup : m.values.Nodup) : (m.erase k v).values.Nodup :=
  hnodup.sublist ((erase_sublist m k v).map _)

end Erase

theorem mem_of_first? {e : K × V} (h : m.first? = some e) : e ∈ m.entries :=
  mem_of_mem_head? h

end MultiMap
