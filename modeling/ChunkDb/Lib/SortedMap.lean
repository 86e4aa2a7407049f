/-
# Finite maps as key-sorted lists

A finite map kept as a list of entries in strictly ascending key order.  The
order is a field of `SortedMap`, so a map out of order cannot be built.

* `SortedMap.find`, `assign`, `remove` look up, set and drop one key;
* `SortedMap.merge` applies a list of changes in ascending key order in one pass.

Each operation is characterised by its entries (`mem_assign`, `mem_remove`,
`mem_merge`), and a map is determined by its entries (`SortedMap.ext_mem`), so two
ways of computing a map are compared entry by entry.  `weight` adds up a measure
of the entries; `weight_merge` says how a change moves it.
-/
import Mathlib.Tactic

variable {K V : Type*} [LinearOrder K]

/-- Keys in strictly ascending order. -/
def KeysAscending {A : Type*} (l : List (K × A)) : Prop := l.Pairwise (fun a b => a.1 < b.1)

instance {A : Type*} (l : List (K × A)) : Decidable (KeysAscending l) := by
  unfold KeysAscending
  infer_instance

theorem keysAscending_singleton {A : Type*} (e : K × A) : KeysAscending [e] :=
  List.pairwise_singleton _ _

/-- A finite map: its entries in strictly ascending key order. -/
@[ext] structure SortedMap (K V : Type*) [LinearOrder K] where
  entries : List (K × V)
  ascending : KeysAscending entries

instance [DecidableEq V] : DecidableEq (SortedMap K V) := fun a b =>
  decidable_of_iff (a.entries = b.entries) SortedMap.ext_iff.symm

namespace SortedMap

open List

/-! ## Entry lists -/

/-- The entries below a key, as the walk up to it passes them. -/
def below {A : Type*} (l : List (K × A)) (k : K) : List (K × A) := l.takeWhile (fun e => e.1 < k)

/-- The entries that follow a key, its own entry skipped. -/
def above {A : Type*} (l : List (K × A)) (k : K) : List (K × A) :=
  match l.dropWhile (fun e => e.1 < k) with
  | [] => []
  | e :: rest => if e.1 = k then rest else e :: rest

/-- The entry a change leaves at its key, if any. -/
def put (k : K) : Option V → List (K × V)
  | none => []
  | some v => [(k, v)]

omit [LinearOrder K] in
theorem mem_put {k k' : K} {v : V} {c : Option V} : (k', v) ∈ put k c ↔ k' = k ∧ c = some v := by
  cases c with
  | none => simp [put]
  | some w => simp [put, eq_comm]

/-- One pass over the entries that applies changes in ascending key order. -/
def mergeEntries : List (K × V) → List (K × Option V) → List (K × V)
  | l, [] => l
  | l, (k, c) :: cs => below l k ++ put k c ++ mergeEntries (above l k) cs

theorem below_eq_filter {A : Type*} (l : List (K × A)) (h : KeysAscending l) (k : K) :
    below l k = l.filter (fun e => e.1 < k) := by
  induction l with
  | nil => rfl
  | cons e l ih =>
    obtain ⟨hhead, htail⟩ := pairwise_cons.mp h
    unfold below
    by_cases hk : e.1 < k
    · rw [takeWhile_cons_of_pos (by simpa using hk), filter_cons_of_pos (by simpa using hk)]
      congr 1
      exact ih htail
    · rw [takeWhile_cons_of_neg (by simpa using hk), filter_cons_of_neg (by simpa using hk)]
      symm
      apply filter_eq_nil_iff.mpr
      intro a ha
      simpa using le_trans (not_lt.mp hk) (hhead a ha).le

theorem above_eq_filter {A : Type*} (l : List (K × A)) (h : KeysAscending l) (k : K) :
    above l k = l.filter (fun e => k < e.1) := by
  induction l with
  | nil => rfl
  | cons e l ih =>
    obtain ⟨hhead, htail⟩ := pairwise_cons.mp h
    unfold above
    by_cases hk : e.1 < k
    · rw [dropWhile_cons_of_pos (by simpa using hk), filter_cons_of_neg (by simpa using hk.le)]
      exact ih htail
    · have hall : ∀ a ∈ l, k < a.1 := fun a ha => lt_of_le_of_lt (not_lt.mp hk) (hhead a ha)
      have hfilter : l.filter (fun e => k < e.1) = l :=
        filter_eq_self.mpr (fun a ha => by simpa using hall a ha)
      rw [dropWhile_cons_of_neg (by simpa using hk)]
      by_cases heq : e.1 = k
      · rw [filter_cons_of_neg (by simp [heq]), hfilter]
        simp [heq]
      · have hlt : k < e.1 := lt_of_le_of_ne (not_lt.mp hk) (Ne.symm heq)
        rw [filter_cons_of_pos (by simpa using hlt), hfilter]
        simp [heq]

theorem keysAscending_below {A : Type*} {l : List (K × A)} (h : KeysAscending l) (k : K) :
    KeysAscending (below l k) := by
  rw [below_eq_filter l h]
  exact List.Pairwise.filter _ h

theorem keysAscending_above {A : Type*} {l : List (K × A)} (h : KeysAscending l) (k : K) :
    KeysAscending (above l k) := by
  rw [above_eq_filter l h]
  exact List.Pairwise.filter _ h

theorem mem_below {A : Type*} {l : List (K × A)} (h : KeysAscending l) {k : K} {e : K × A} :
    e ∈ below l k ↔ e ∈ l ∧ e.1 < k := by
  rw [below_eq_filter l h]
  simp

theorem mem_above {A : Type*} {l : List (K × A)} (h : KeysAscending l) {k : K} {e : K × A} :
    e ∈ above l k ↔ e ∈ l ∧ k < e.1 := by
  rw [above_eq_filter l h]
  simp

variable (l : List (K × V))

/-- The entries after a pass: what the changes put, and the old entries at keys
no change names. -/
theorem mem_mergeEntries (cs : List (K × Option V)) (hl : KeysAscending l)
    (hcs : KeysAscending cs) (k : K) (v : V) :
    (k, v) ∈ mergeEntries l cs ↔ (k, some v) ∈ cs ∨ (k ∉ cs.map Prod.fst ∧ (k, v) ∈ l) := by
  induction cs generalizing l with
  | nil => simp [mergeEntries]
  | cons c cs ih =>
    obtain ⟨kc, c⟩ := c
    obtain ⟨hhead, htail⟩ := pairwise_cons.mp hcs
    have hkeys : ∀ k' ∈ cs.map Prod.fst, kc < k' := by
      intro k' hk'
      obtain ⟨e, he, rfl⟩ := mem_map.mp hk'
      exact hhead e he
    rw [mergeEntries, mem_append, mem_append, mem_below hl, mem_put,
      ih _ (keysAscending_above hl kc) htail, mem_above hl, mem_cons, map_cons,
      mem_cons, Prod.mk.injEq]
    rcases lt_trichotomy k kc with hlt | rfl | hgt
    · have hnot : k ∉ cs.map Prod.fst := fun hk => absurd (hkeys k hk) (not_lt.mpr hlt.le)
      have hnot' : (k, some v) ∉ cs := fun hk => hnot (mem_map_of_mem hk)
      simp [hlt, hlt.ne, hlt.not_gt, hnot, hnot']
    · have hnot' : (k, some v) ∉ cs := fun hk => absurd (hhead _ hk) (lt_irrefl _)
      simp [hnot', eq_comm]
    · simp [hgt.not_gt, hgt.ne', hgt]

theorem keysAscending_mergeEntries (cs : List (K × Option V))
    (hl : KeysAscending l) (hcs : KeysAscending cs) : KeysAscending (mergeEntries l cs) := by
  induction cs generalizing l with
  | nil => exact hl
  | cons c cs ih =>
    obtain ⟨kc, c⟩ := c
    obtain ⟨hhead, htail⟩ := pairwise_cons.mp hcs
    have habove : ∀ e ∈ mergeEntries (above l kc) cs, kc < e.1 := by
      intro e he
      rcases (mem_mergeEntries _ _ (keysAscending_above hl kc) htail e.1 e.2).mp he with h | ⟨_, h⟩
      · exact hhead _ h
      · exact ((mem_above hl).mp h).2
    have hput : ∀ e ∈ put kc c, e.1 = kc := fun e he => (mem_put.mp he).1
    refine pairwise_append.mpr ⟨pairwise_append.mpr
      ⟨keysAscending_below hl kc, ?_, ?_⟩, ih _ (keysAscending_above hl kc) htail, ?_⟩
    · cases c <;> simp [put]
    · intro a ha b hb
      rw [hput b hb]
      exact ((mem_below hl).mp ha).2
    · intro a ha b hb
      rcases mem_append.mp ha with ha | ha
      · exact lt_trans ((mem_below hl).mp ha).2 (habove b hb)
      · rw [hput a ha]
        exact habove b hb

/-! ## Maps -/

/-- A map is determined by its entries. -/
theorem ext_mem (a b : SortedMap K V) (h : ∀ e, e ∈ a.entries ↔ e ∈ b.entries) : a = b := by
  have hnodup : ∀ m : SortedMap K V, m.entries.Nodup := fun m =>
    m.ascending.imp (fun hab heq => absurd (congrArg Prod.fst heq) (ne_of_lt hab))
  have hperm : a.entries.Perm b.entries := (perm_ext_iff_of_nodup (hnodup a) (hnodup b)).mpr h
  apply SortedMap.ext
  refine hperm.eq_of_pairwise ?_ a.ascending b.ascending
  intro x y _ _ hxy hyx
  exact absurd (lt_trans hxy hyx) (lt_irrefl _)

/-- The map without entries. -/
def empty : SortedMap K V := ⟨[], List.Pairwise.nil⟩

/-- The value at a key. -/
def find (m : SortedMap K V) (k : K) : Option V :=
  (m.entries.find? (fun e => e.1 = k)).map Prod.snd

/-- The map with the value at a key set. -/
def assign (m : SortedMap K V) (k : K) (v : V) : SortedMap K V where
  entries := below m.entries k ++ (k, v) :: above m.entries k
  ascending := by
    have h := keysAscending_mergeEntries m.entries [(k, some v)] m.ascending (keysAscending_singleton _)
    simpa [mergeEntries, put] using h

/-- The map with a key dropped. -/
def remove (m : SortedMap K V) (k : K) : SortedMap K V where
  entries := below m.entries k ++ above m.entries k
  ascending := by
    have h := keysAscending_mergeEntries m.entries [(k, none)] m.ascending (keysAscending_singleton _)
    simpa [mergeEntries, put] using h

/-- The map after changes in ascending key order. -/
def merge (m : SortedMap K V) (cs : List (K × Option V)) (h : KeysAscending cs) : SortedMap K V where
  entries := mergeEntries m.entries cs
  ascending := keysAscending_mergeEntries m.entries cs m.ascending h

variable (m : SortedMap K V)

theorem assign_eq_merge (k : K) (v : V) :
    m.assign k v = m.merge [(k, some v)] (keysAscending_singleton _) := by
  apply SortedMap.ext
  simp [assign, merge, mergeEntries, put]

theorem remove_eq_merge (k : K) :
    m.remove k = m.merge [(k, none)] (keysAscending_singleton _) := by
  apply SortedMap.ext
  simp [remove, merge, mergeEntries, put]

theorem mem_merge (cs : List (K × Option V)) (h : KeysAscending cs) (k : K)
    (v : V) :
    (k, v) ∈ (m.merge cs h).entries
      ↔ (k, some v) ∈ cs ∨ (k ∉ cs.map Prod.fst ∧ (k, v) ∈ m.entries) :=
  mem_mergeEntries m.entries cs m.ascending h k v

theorem mem_assign (k k' : K) (v v' : V) :
    (k', v') ∈ (m.assign k v).entries ↔ (k' = k ∧ v' = v) ∨ (k' ≠ k ∧ (k', v') ∈ m.entries) := by
  rw [assign_eq_merge, mem_merge]
  simp

theorem mem_remove (k k' : K) (v' : V) :
    (k', v') ∈ (m.remove k).entries ↔ k' ≠ k ∧ (k', v') ∈ m.entries := by
  rw [remove_eq_merge, mem_merge]
  simp

theorem find_entries_eq_some_iff (h : KeysAscending l) (k : K) (v : V) :
    (l.find? (fun e => e.1 = k)).map Prod.snd = some v ↔ (k, v) ∈ l := by
  induction l with
  | nil => simp
  | cons e l ih =>
    obtain ⟨k', v'⟩ := e
    obtain ⟨hhead, htail⟩ := pairwise_cons.mp h
    by_cases hk : k' = k
    · have hnot : (k, v) ∉ l := fun hmem => absurd (hhead _ hmem) (by simp [hk])
      rw [find?_cons_of_pos (by simp [hk]), mem_cons]
      simp [hk, hnot, eq_comm]
    · rw [find?_cons_of_neg (by simp [hk]), ih htail, mem_cons]
      simp [Ne.symm hk]

/-- An entry is found at its key, and nothing else is. -/
theorem find_eq_some_iff (k : K) (v : V) :
    m.find k = some v ↔ (k, v) ∈ m.entries :=
  find_entries_eq_some_iff m.entries m.ascending k v

theorem find_eq_none_iff (k : K) :
    m.find k = none ↔ ∀ v, (k, v) ∉ m.entries := by
  rw [Option.eq_none_iff_forall_ne_some]
  simp only [ne_eq, find_eq_some_iff]

/-- A list in key order has one entry for a key. -/
theorem eq_of_mem_of_mem {l : List (K × V)} (h : KeysAscending l) {k : K} {v v' : V}
    (hv : (k, v) ∈ l) (hv' : (k, v') ∈ l) : v = v' := by
  rw [← find_entries_eq_some_iff l h] at hv hv'
  exact Option.some.inj (hv.symm.trans hv')

/-- After a merge the key of a change holds what the change says. -/
theorem find_merge {cs : List (K × Option V)} (h : KeysAscending cs) {k : K}
    {c : Option V} (hmem : (k, c) ∈ cs) : (m.merge cs h).find k = c := by
  cases c with
  | some v =>
    rw [find_eq_some_iff, mem_merge]
    exact .inl hmem
  | none =>
    rw [find_eq_none_iff]
    intro v hv
    rcases (mem_merge m cs h k v).mp hv with hv | ⟨hnot, _⟩
    · exact Option.some_ne_none v (eq_of_mem_of_mem h hv hmem)
    · exact hnot (mem_map_of_mem hmem)

/-! ## Weights -/

/-- The total of a measure of the entries. -/
def weight {A : Type*} (f : K × A → ℕ) (l : List (K × A)) : ℕ := (l.map f).sum

omit [LinearOrder K] in
theorem weight_append {A : Type*} (f : K × A → ℕ) (a b : List (K × A)) :
    weight f (a ++ b) = weight f a + weight f b := by
  rw [weight, map_append, sum_append, weight, weight]

variable (f : K × V → ℕ)

/-- The entries below a key, at it and above it make up the whole. -/
theorem weight_split (m : SortedMap K V) (k : K) :
    weight f m.entries
      = weight f (below m.entries k) + weight f (put k (m.find k))
        + weight f (above m.entries k) := by
  have hself : m.merge [(k, m.find k)] (keysAscending_singleton _) = m := by
    apply ext_mem
    intro e
    rw [mem_merge, mem_singleton, Prod.mk.injEq, eq_comm (b := m.find k), find_eq_some_iff]
    by_cases hk : e.1 = k
    · simp [← hk]
    · simp [hk]
  have hentries : mergeEntries m.entries [(k, m.find k)] = m.entries :=
    congrArg SortedMap.entries hself
  rw [← weight_append, ← weight_append]
  exact congrArg (weight f) hentries.symm

theorem find_above (k k' : K) (h : k < k') :
    find ⟨above m.entries k, keysAscending_above m.ascending k⟩ k' = m.find k' := by
  apply Option.ext
  intro v
  rw [find_eq_some_iff, find_eq_some_iff, mem_above m.ascending]
  simp [h]

/-- What the changes take away and what they put account for the weight after a
pass. -/
theorem weight_merge (m : SortedMap K V) (cs : List (K × Option V))
    (h : KeysAscending cs) :
    weight f (m.merge cs h).entries + (cs.map (fun c => weight f (put c.1 (m.find c.1)))).sum
      = weight f m.entries + (cs.map (fun c => weight f (put c.1 c.2))).sum := by
  induction cs generalizing m with
  | nil => simp [merge, mergeEntries]
  | cons c cs ih =>
    obtain ⟨k, c⟩ := c
    obtain ⟨hhead, htail⟩ := pairwise_cons.mp h
    have hrest := ih ⟨above m.entries k, keysAscending_above m.ascending k⟩ htail
    have hfind : (cs.map (fun c => weight f (put c.1
          (find ⟨above m.entries k, keysAscending_above m.ascending k⟩ c.1)))).sum
        = (cs.map (fun c => weight f (put c.1 (m.find c.1)))).sum := by
      congr 1
      apply map_congr_left
      intro c hc
      rw [find_above m k c.1 (hhead c hc)]
    rw [hfind] at hrest
    have hsplit := weight_split f m k
    have hmerge : weight f (m.merge ((k, c) :: cs) h).entries
        = weight f (below m.entries k) + weight f (put k c)
          + weight f (mergeEntries (above m.entries k) cs) := by
      rw [← weight_append, ← weight_append]
      rfl
    simp only [merge] at hrest
    simp only [map_cons, sum_cons]
    omega

/-- What the changes take away was part of the whole. -/
theorem weight_find_le (m : SortedMap K V) (cs : List (K × Option V))
    (h : KeysAscending cs) :
    (cs.map (fun c => weight f (put c.1 (m.find c.1)))).sum ≤ weight f m.entries := by
  have hremove : KeysAscending (cs.map (fun c => (c.1, (none : Option V)))) :=
    pairwise_map.mpr h
  have hweight := weight_merge f m _ hremove
  have hnone : ((cs.map (fun c => (c.1, (none : Option V)))).map
      (fun c => weight f (put c.1 c.2))).sum = 0 := by
    simp [Function.comp_def, put, weight]
  rw [hnone, map_map] at hweight
  simp only [Function.comp_def] at hweight
  omega

end SortedMap
