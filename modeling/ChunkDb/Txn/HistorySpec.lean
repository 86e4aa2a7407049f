/-
# What the operations of the history keep

Every operation of `TxnHistory` keeps `TxnHistory.Rep`: the two structures have the same nodes,
the counters are right, the limit holds, and nothing is kept that no snapshot needs.

* `pruneLocked_spec`, `expireLocked_spec`, `evictLoop_spec` : the loops;
* `publish_spec` : what a published write leaves for the snapshots;
* `endSnapshot_spec`, `validateAndEnd_spec`, `registerPublish_rep`.
-/
import ChunkDb.Txn.History

namespace ChunkDb

open List Function MultiMap

namespace TxnHistory

/-! ## The invariant -/

/-- The state of the maps, the links and the counters between two steps of the code; `nodes` are
the kept states in the order of their links, and `counting` snapshots are counted that are not
registered yet. -/
structure Core (h : TxnHistory) (nodes : List ℕ) (counting : ℕ) : Prop where
  isList : h.links.IsList nodes
  sorted : nodes.Pairwise (fun a b => (h.node a).tag ≤ (h.node b).tag)
  values_perm : h.kept.values.Perm nodes
  key_eq : ∀ e ∈ h.kept.entries, e.1 = (h.node e.2).coord
  increasing : ∀ coord, ((h.kept.equalRange coord).map fun n => (h.node n).tag).Pairwise (· < ·)
  bytes_eq : ∀ n ∈ nodes, (h.node n).bytes = keptStateBytes h.overhead (h.node n).state
  keptBytes_eq : h.keptBytes = (nodes.map fun n => (h.node n).bytes).sum
  keptBytes_le : h.keptBytes ≤ h.limitBytes
  fresh : ∀ n ∈ nodes, n < h.nextNode
  openCount_eq : h.openCount = h.byVersion.entries.length + counting
  mem_byVersion : ∀ e, e ∈ h.byVersion.entries
    ↔ (h.snapshot e.2).registered = true ∧ (h.snapshot e.2).version = e.1
  mem_byDeadline : ∀ e, e ∈ h.byDeadline.entries
    ↔ (h.snapshot e.2).registered = true ∧ (h.snapshot e.2).deadline = e.1
  nodup_byVersion : h.byVersion.values.Nodup
  nodup_byDeadline : h.byDeadline.values.Nodup

/-- The invariant between the operations: no kept state can be dropped. -/
def Rep (h : TxnHistory) (counting : ℕ) : Prop :=
  ∃ nodes, h.Core nodes counting ∧ h.prunable = none

/-- Snapshots may be gone, and kept states that none of the snapshots left reads. -/
structure Shrinks (h h' : TxnHistory) : Prop where
  node_eq : h'.node = h.node
  nextNode_eq : h'.nextNode = h.nextNode
  limitBytes_eq : h'.limitBytes = h.limitBytes
  overhead_eq : h'.overhead = h.overhead
  version_eq : ∀ id, (h'.snapshot id).version = (h.snapshot id).version
  registered : ∀ id, (h'.snapshot id).registered = true → (h.snapshot id).registered = true
  kept_sublist : h'.kept.entries.Sublist h.kept.entries
  kept_of : ∀ e ∈ h.kept.entries, ∀ id, (h'.snapshot id).registered = true →
    (h.snapshot id).version < (h.node e.2).tag → e ∈ h'.kept.entries

namespace Shrinks

variable {h h' h'' : TxnHistory}

theorem refl (h : TxnHistory) : h.Shrinks h :=
  ⟨rfl, rfl, rfl, rfl, fun _ => rfl, fun _ hr => hr, List.Sublist.refl _, fun _ he _ _ _ => he⟩

theorem trans (h₁ : h.Shrinks h') (h₂ : h'.Shrinks h'') : h.Shrinks h'' where
  node_eq := h₂.node_eq.trans h₁.node_eq
  nextNode_eq := h₂.nextNode_eq.trans h₁.nextNode_eq
  limitBytes_eq := h₂.limitBytes_eq.trans h₁.limitBytes_eq
  overhead_eq := h₂.overhead_eq.trans h₁.overhead_eq
  version_eq := fun id => (h₂.version_eq id).trans (h₁.version_eq id)
  registered := fun id hr => h₁.registered id (h₂.registered id hr)
  kept_sublist := h₂.kept_sublist.trans h₁.kept_sublist
  kept_of := by
    intro e he id hr hlt
    have hmid := h₁.kept_of e he id (h₂.registered id hr) hlt
    refine h₂.kept_of e hmid id hr ?_
    rw [h₁.version_eq, h₁.node_eq]
    exact hlt

end Shrinks

/-! ## One step of a loop -/

namespace Core

variable {h : TxnHistory} {nodes : List ℕ} {counting : ℕ}

theorem mem_nodes (hcore : h.Core nodes counting) {e : ChunkCoord × ℕ} (he : e ∈ h.kept.entries) :
    e.2 ∈ nodes :=
  hcore.values_perm.mem_iff.mp (mem_map_of_mem he)

theorem mem_kept (hcore : h.Core nodes counting) {n : ℕ} (hn : n ∈ nodes) :
    ((h.node n).coord, n) ∈ h.kept.entries := by
  obtain ⟨e, he, rfl⟩ := mem_map.mp (hcore.values_perm.mem_iff.mpr hn)
  rw [← hcore.key_eq e he]
  exact he

theorem length_entries (hcore : h.Core nodes counting) : h.kept.entries.length = nodes.length := by
  rw [← hcore.values_perm.length_eq, values, length_map]

/-- An entry of a map of the snapshots, after a snapshot was taken out. -/
theorem mem_erase_iff (key : TxnSnapshot → ℕ) {m : MultiMap ℕ ℕ} {snapshot : ℕ → TxnSnapshot}
    (hm : ∀ e, e ∈ m.entries ↔ (snapshot e.2).registered = true ∧ key (snapshot e.2) = e.1)
    (hnodup : m.values.Nodup) {id : ℕ} (ended : TxnSnapshot) (hended : ended.registered = false)
    (e : ℕ × ℕ) :
    e ∈ (m.erase (key (snapshot id)) id).entries
      ↔ (update snapshot id ended e.2).registered = true
        ∧ key (update snapshot id ended e.2) = e.1 := by
  rw [mem_erase hnodup, hm]
  by_cases heq : e.2 = id
  · rw [heq, update_self, hended]
    simp only [Bool.false_eq_true, false_and, iff_false, not_and]
    intro hne _ hkey
    exact hne (Prod.ext hkey.symm heq)
  · rw [update_of_ne heq]
    exact and_iff_right fun hsame => heq (congrArg Prod.snd hsame)

/-- A registered snapshot leaves the maps and the count. -/
theorem unregister (hcore : h.Core nodes counting) {id : ℕ}
    (hid : (h.snapshot id).registered = true) (reason : Option TxnConflictReason) :
    (h.unregisterLocked id reason).Core nodes counting where
  __ := hcore
  openCount_eq := by
    have hmem : ((h.snapshot id).version, id) ∈ h.byVersion.entries :=
      (hcore.mem_byVersion _).mpr ⟨hid, rfl⟩
    have hlength := (perm_erase hmem).length_eq
    have hcount := hcore.openCount_eq
    rw [length_cons] at hlength
    change h.openCount - 1 = (h.byVersion.erase _ _).entries.length + counting
    omega
  mem_byVersion := mem_erase_iff TxnSnapshot.version hcore.mem_byVersion hcore.nodup_byVersion _ rfl
  mem_byDeadline :=
    mem_erase_iff TxnSnapshot.deadline hcore.mem_byDeadline hcore.nodup_byDeadline _ rfl
  nodup_byVersion := nodup_values_erase hcore.nodup_byVersion
  nodup_byDeadline := nodup_values_erase hcore.nodup_byDeadline

/-- The oldest node leaves both structures. -/
theorem eraseOldest {n : ℕ} {rest : List ℕ} (hcore : h.Core (n :: rest) counting) :
    (h.eraseLocked n).Core rest counting := by
  have hmem := hcore.mem_kept mem_cons_self
  have hperm := perm_erase hmem
  have hsub := erase_sublist h.kept (h.node n).coord n
  have hbytes := hcore.keptBytes_eq
  rw [map_cons, sum_cons] at hbytes
  exact {
    isList := (LinkedList.isList_unlink hcore.isList : (h.links.unlink n).IsList ([] ++ rest))
    sorted := (pairwise_cons.mp hcore.sorted).2
    values_perm := by
      have hvalues := hperm.map Prod.snd
      rw [map_cons] at hvalues
      exact (hvalues.symm.trans hcore.values_perm).cons_inv
    key_eq := fun e he => hcore.key_eq e (hsub.subset he)
    increasing := fun coord =>
      (hcore.increasing coord).sublist ((equalRange_sublist hsub coord).map _)
    bytes_eq := fun m hm => hcore.bytes_eq m (mem_cons_of_mem _ hm)
    keptBytes_eq := by
      change h.keptBytes - (h.node n).bytes = _
      rw [hbytes, Nat.add_sub_cancel_left]
      rfl
    keptBytes_le := (Nat.sub_le _ _).trans hcore.keptBytes_le
    fresh := fun m hm => hcore.fresh m (mem_cons_of_mem _ hm)
    __ := hcore
    nodup_byDeadline := hcore.nodup_byDeadline }

end Core

theorem shrinks_unregister (h : TxnHistory) (id : ℕ) (reason : Option TxnConflictReason) :
    h.Shrinks (h.unregisterLocked id reason) where
  node_eq := rfl
  nextNode_eq := rfl
  limitBytes_eq := rfl
  overhead_eq := rfl
  version_eq := by
    intro other
    change (update h.snapshot id _ other).version = _
    by_cases heq : other = id
    · rw [heq, update_self]
    · rw [update_of_ne heq]
  registered := by
    intro other hother
    change (update h.snapshot id _ other).registered = true at hother
    by_cases heq : other = id
    · rw [heq, update_self] at hother
      exact absurd hother Bool.false_ne_true
    · rwa [update_of_ne heq] at hother
  kept_sublist := List.Sublist.refl _
  kept_of := fun _ he _ _ _ => he

/-- A snapshot that is unregistered is not registered any more. -/
theorem not_registered_unregister (h : TxnHistory) (id : ℕ) (reason : Option TxnConflictReason) :
    ((h.unregisterLocked id reason).snapshot id).registered = false := by
  change (update h.snapshot id _ id).registered = false
  rw [update_self]

/-! ## Dropping what no snapshot needs -/

section Prune

variable {h : TxnHistory} {nodes : List ℕ} {counting : ℕ}

/-- What the oldest snapshot is not older than, no snapshot is. -/
theorem Core.le_first_iff (hcore : h.Core nodes counting) {tag : ℕ} :
    (∀ e, h.byVersion.first? = some e → tag ≤ e.1)
      ↔ ∀ id, (h.snapshot id).registered = true → tag ≤ (h.snapshot id).version := by
  constructor
  · intro hall id hid
    have hmem := (hcore.mem_byVersion ((h.snapshot id).version, id)).mpr ⟨hid, rfl⟩
    cases hfirst : h.byVersion.first? with
    | none =>
      rw [head?_eq_none_iff.mp hfirst] at hmem
      exact absurd hmem not_mem_nil
    | some e => exact (hall e hfirst).trans (le_of_first? hfirst _ hmem)
  · intro hall e hfirst
    obtain ⟨hid, hversion⟩ := (hcore.mem_byVersion e).mp (mem_of_first? hfirst)
    rw [← hversion]
    exact hall e.2 hid

/-- The node that is dropped is the oldest, where no snapshot is older than its tag. -/
theorem prunable_eq_some (hcore : h.Core nodes counting) {n : ℕ} :
    h.prunable = some n ↔ nodes.head? = some n
      ∧ ∀ id, (h.snapshot id).registered = true → (h.node n).tag ≤ (h.snapshot id).version := by
  unfold prunable
  rw [hcore.isList.oldest_eq, ← hcore.le_first_iff]
  cases nodes.head? with
  | none => exact iff_of_false (by rintro ⟨⟩) (by rintro ⟨⟨⟩, _⟩)
  | some m =>
    cases h.byVersion.first? with
    | none => exact (and_iff_left (by rintro e ⟨⟩)).symm
    | some e =>
      by_cases hle : (h.node m).tag ≤ e.1
      · refine (iff_of_eq (congrArg (· = _) (if_pos hle))).trans (and_iff_left_of_imp ?_).symm
        rintro ⟨⟩ _ ⟨⟩
        exact hle
      · refine (iff_of_eq (congrArg (· = _) (if_neg hle))).trans (iff_of_false (by rintro ⟨⟩) ?_)
        rintro ⟨⟨⟩, hall⟩
        exact hle (hall e rfl)

/-- Nothing can be dropped exactly where every kept state has an older snapshot. -/
theorem prunable_eq_none (hcore : h.Core nodes counting) :
    h.prunable = none ↔ ∀ n ∈ nodes, ∃ id, (h.snapshot id).registered = true
      ∧ (h.snapshot id).version < (h.node n).tag := by
  constructor
  · intro hnone n hn
    by_contra! hall
    cases nodes with
    | nil => exact absurd hn not_mem_nil
    | cons m rest =>
      have hle : (h.node m).tag ≤ (h.node n).tag := by
        rcases mem_cons.mp hn with rfl | hrest
        · exact le_rfl
        · exact (pairwise_cons.mp hcore.sorted).1 n hrest
      rw [(prunable_eq_some hcore).mpr ⟨rfl, fun id hid => hle.trans (hall id hid)⟩] at hnone
      cases hnone
  · intro hall
    refine Option.eq_none_iff_forall_ne_some.mpr fun n hn => ?_
    obtain ⟨hhead, hle⟩ := (prunable_eq_some hcore).mp hn
    obtain ⟨id, hid, hlt⟩ := hall n (mem_of_head? hhead)
    exact absurd (hle id hid) (not_le.mpr hlt)

theorem shrinks_eraseOldest {n : ℕ} {rest : List ℕ} (hcore : h.Core (n :: rest) counting)
    (hold : ∀ id, (h.snapshot id).registered = true → (h.node n).tag ≤ (h.snapshot id).version) :
    h.Shrinks (h.eraseLocked n) where
  node_eq := rfl
  nextNode_eq := rfl
  limitBytes_eq := rfl
  overhead_eq := rfl
  version_eq := fun _ => rfl
  registered := fun _ hr => hr
  kept_sublist := MultiMap.erase_sublist ..
  kept_of := by
    intro e he id hid hlt
    have hnodup : h.kept.values.Nodup := hcore.values_perm.nodup_iff.mpr hcore.isList.nodup
    refine (mem_erase hnodup).mpr ⟨?_, he⟩
    rintro rfl
    exact absurd hlt (not_lt.mpr (hold id hid))

/-- The loop ends when nothing can be dropped any more. -/
theorem pruneLoop_spec {fuel : ℕ} (hcore : h.Core nodes counting) (hfuel : nodes.length ≤ fuel) :
    (∃ left, (pruneLoop fuel h).Core left counting) ∧ (pruneLoop fuel h).prunable = none
      ∧ h.Shrinks (pruneLoop fuel h) ∧ (pruneLoop fuel h).snapshot = h.snapshot
      ∧ (pruneLoop fuel h).byVersion = h.byVersion := by
  induction fuel generalizing h nodes with
  | zero =>
    obtain rfl := length_eq_zero_iff.mp (Nat.le_zero.mp hfuel)
    exact ⟨⟨_, hcore⟩, (prunable_eq_none hcore).mpr nofun, .refl h, rfl, rfl⟩
  | succ fuel ih =>
    unfold pruneLoop
    cases hn : h.prunable with
    | none => exact ⟨⟨_, hcore⟩, hn, .refl h, rfl, rfl⟩
    | some n =>
      obtain ⟨hhead, hold⟩ := (prunable_eq_some hcore).mp hn
      obtain ⟨rest, rfl⟩ := head?_eq_some_iff.mp hhead
      rw [length_cons] at hfuel
      obtain ⟨hleft, hdone, hshrinks, hsame⟩ :=
        ih hcore.eraseOldest (Nat.le_of_succ_le_succ hfuel)
      exact ⟨hleft, hdone, (shrinks_eraseOldest hcore hold).trans hshrinks, hsame⟩

theorem pruneLocked_spec (hcore : h.Core nodes counting) :
    h.pruneLocked.Rep counting ∧ h.Shrinks h.pruneLocked ∧ h.pruneLocked.snapshot = h.snapshot
      ∧ h.pruneLocked.byVersion = h.byVersion := by
  obtain ⟨⟨left, hleft⟩, hdone, hshrinks, hsame⟩ :=
    pruneLoop_spec hcore hcore.length_entries.symm.le
  exact ⟨⟨left, hleft, hdone⟩, hshrinks, hsame⟩

/-- A snapshot ends. -/
theorem unregister_prune_spec (hrep : h.Rep counting) {id : ℕ}
    (hid : (h.snapshot id).registered = true) (reason : Option TxnConflictReason) :
    (h.unregisterLocked id reason).pruneLocked.Rep counting
      ∧ h.Shrinks (h.unregisterLocked id reason).pruneLocked
      ∧ ((h.unregisterLocked id reason).pruneLocked.snapshot id).registered = false := by
  obtain ⟨nodes, hcore, _⟩ := hrep
  obtain ⟨hpruned, hshrinks, hsnapshot, _⟩ := pruneLocked_spec (hcore.unregister hid reason)
  refine ⟨hpruned, (shrinks_unregister h id reason).trans hshrinks, ?_⟩
  rw [hsnapshot]
  exact not_registered_unregister h id reason

end Prune

/-! ## Deadlines -/

section Expire

variable {h : TxnHistory} {nodes : List ℕ} {counting : ℕ}

theorem expireLoop_true (now fuel : ℕ) (h : TxnHistory) : (expireLoop now fuel h true).2 = true := by
  induction fuel generalizing h with
  | zero => rfl
  | succ fuel ih =>
    unfold expireLoop
    cases h.byDeadline.first? with
    | none => rfl
    | some e =>
      dsimp only
      split
      · exact ih _
      · rfl

theorem expireLoop_spec (now fuel : ℕ) (hcore : h.Core nodes counting) (expired : Bool) :
    (expireLoop now fuel h expired).1.Core nodes counting
      ∧ h.Shrinks (expireLoop now fuel h expired).1
      ∧ ((expireLoop now fuel h expired).2 = false → (expireLoop now fuel h expired).1 = h) := by
  induction fuel generalizing h expired with
  | zero => exact ⟨hcore, .refl h, fun _ => rfl⟩
  | succ fuel ih =>
    unfold expireLoop
    cases hfirst : h.byDeadline.first? with
    | none => exact ⟨hcore, .refl h, fun _ => rfl⟩
    | some e =>
      dsimp only
      split
      · have hid := ((hcore.mem_byDeadline e).mp (mem_of_first? hfirst)).1
        obtain ⟨hleft, hshrinks, _⟩ := ih (hcore.unregister hid (some .duration)) true
        refine ⟨hleft, (shrinks_unregister h _ _).trans hshrinks, fun hfalse => ?_⟩
        rw [expireLoop_true] at hfalse
        cases hfalse
      · exact ⟨hcore, .refl h, fun _ => rfl⟩

theorem expireLocked_spec (hrep : h.Rep counting) (now : ℕ) :
    (h.expireLocked now).Rep counting ∧ h.Shrinks (h.expireLocked now) := by
  obtain ⟨nodes, hcore, hdone⟩ := hrep
  obtain ⟨hleft, hshrinks, hsame⟩ := expireLoop_spec now h.byDeadline.entries.length hcore false
  unfold expireLocked
  dsimp only
  split
  · obtain ⟨hpruned, hpruning, _⟩ := pruneLocked_spec hleft
    exact ⟨hpruned, hshrinks.trans hpruning⟩
  · rename_i hexpired
    rw [hsame (by simpa using hexpired)]
    exact ⟨⟨nodes, hcore, hdone⟩, .refl h⟩

end Expire

/-! ## Publishing -/

/-- The history keeps a state. -/
def Keeps (h : TxnHistory) (kept : TxnKeptState) : Prop := ∃ e ∈ h.kept.entries, h.node e.2 = kept

theorem Shrinks.keeps {h h' : TxnHistory} (hs : h.Shrinks h') {kept : TxnKeptState}
    (hk : h'.Keeps kept) : h.Keeps kept := by
  obtain ⟨e, he, rfl⟩ := hk
  exact ⟨e, hs.kept_sublist.subset he, by rw [hs.node_eq]⟩

/-- What a snapshot that is left reads is kept. -/
theorem Shrinks.keeps_of {h h' : TxnHistory} (hs : h.Shrinks h') {kept : TxnKeptState}
    (hk : h.Keeps kept) {id : ℕ} (hid : (h'.snapshot id).registered = true)
    (hlt : (h'.snapshot id).version < kept.tag) : h'.Keeps kept := by
  obtain ⟨e, he, rfl⟩ := hk
  rw [hs.version_eq] at hlt
  exact ⟨e, hs.kept_of e he id hid hlt, by rw [hs.node_eq]⟩

section Publish

variable {h : TxnHistory} {nodes : List ℕ} {counting : ℕ} {state : TxnKeptState}

theorem exists_of_needed (hneeded : h.needed state = true) :
    ∃ e ∈ h.byVersion.entries, e.1 < state.tag := by
  unfold needed at hneeded
  cases hfirst : h.byVersion.first? with
  | none =>
    rw [hfirst] at hneeded
    cases hneeded
  | some e =>
    rw [hfirst] at hneeded
    dsimp only at hneeded
    split at hneeded
    · cases hneeded
    · rename_i hlt
      exact ⟨e, mem_of_first? hfirst, not_le.mp hlt⟩

/-- A state that is not needed: each older snapshot has another state of the chunk to read. -/
theorem exists_kept_of_not_needed (hcore : h.Core nodes counting) (hneeded : h.needed state = false)
    {id : ℕ} (hid : (h.snapshot id).registered = true) (hlt : (h.snapshot id).version < state.tag) :
    ∃ kept, h.Keeps kept ∧ kept.coord = state.coord ∧ (h.snapshot id).version < kept.tag := by
  have hmem := (hcore.mem_byVersion ((h.snapshot id).version, id)).mpr ⟨hid, rfl⟩
  unfold needed at hneeded
  cases hfirst : h.byVersion.first? with
  | none =>
    rw [head?_eq_none_iff.mp hfirst] at hmem
    exact absurd hmem not_mem_nil
  | some e =>
    rw [hfirst] at hneeded
    dsimp only at hneeded
    have hle := le_of_first? hfirst _ hmem
    rw [if_neg (not_le.mpr (hle.trans_lt hlt))] at hneeded
    cases hlast : (h.kept.equalRange state.coord).getLast? with
    | none =>
      rw [hlast] at hneeded
      cases hneeded
    | some n =>
      cases hnewest : h.byVersion.last? with
      | none =>
        rw [hlast, hnewest] at hneeded
        cases hneeded
      | some newest =>
        rw [hlast, hnewest] at hneeded
        have hentry := mem_equalRange.mp (mem_of_getLast? hlast)
        have habove : newest.1 < (h.node n).tag := by simpa using hneeded
        exact ⟨h.node n, ⟨_, hentry, rfl⟩, (hcore.key_eq _ hentry).symm,
          (le_of_last? hnewest _ hmem).trans_lt habove⟩

/-- After the loop there is room, or the state is not needed. -/
theorem evictLoop_spec (state : TxnKeptState) {fuel : ℕ} (hrep : h.Rep counting)
    (hfuel : h.byVersion.entries.length ≤ fuel) :
    (evictLoop state fuel h).Rep counting ∧ h.Shrinks (evictLoop state fuel h)
      ∧ ((evictLoop state fuel h).needed state = true →
        (evictLoop state fuel h).keptBytes + state.bytes ≤ (evictLoop state fuel h).limitBytes) := by
  induction fuel generalizing h with
  | zero =>
    refine ⟨hrep, .refl h, fun hneeded => ?_⟩
    change h.needed state = true at hneeded
    obtain ⟨e, hmem, _⟩ := exists_of_needed hneeded
    rw [length_eq_zero_iff.mp (Nat.le_zero.mp hfuel)] at hmem
    exact absurd hmem not_mem_nil
  | succ fuel ih =>
    unfold evictLoop
    split
    · rename_i hover
      cases hfirst : h.byVersion.first? with
      | none =>
        refine ⟨hrep, .refl h, fun hneeded => ?_⟩
        obtain ⟨e, hmem, _⟩ := exists_of_needed hneeded
        rw [head?_eq_none_iff.mp hfirst] at hmem
        exact absurd hmem not_mem_nil
      | some e =>
        obtain ⟨nodes, hcore, hdone⟩ := hrep
        have hmem := mem_of_first? hfirst
        obtain ⟨hid, hversion⟩ := (hcore.mem_byVersion e).mp hmem
        obtain ⟨hnext, hshrinks, _⟩ := unregister_prune_spec ⟨nodes, hcore, hdone⟩ hid
          (some .historyLimit)
        have hlength : (h.unregisterLocked e.2
            (some .historyLimit)).pruneLocked.byVersion.entries.length ≤ fuel := by
          have hcore' := hcore.unregister hid (some .historyLimit)
          rw [(pruneLocked_spec hcore').2.2.2]
          change (h.byVersion.erase _ _).entries.length ≤ fuel
          have hperm := (perm_erase hmem).length_eq
          rw [length_cons] at hperm
          rw [hversion]
          omega
        obtain ⟨hlast, hrest, hroom⟩ := ih hnext hlength
        exact ⟨hlast, hshrinks.trans hrest, hroom⟩
    · rename_i hover
      refine ⟨hrep, .refl h, fun hneeded => ?_⟩
      exact not_lt.mp fun hlt => hover ⟨hneeded, hlt⟩

/-- The nodes in front of a place in the list are not tagged above what the last of them is. -/
theorem Core.tag_le_of_last {pre post : List ℕ} {tag : ℕ} (hcore : h.Core (pre ++ post) counting)
    (hlast : ∀ b, pre.getLast? = some b → (h.node b).tag ≤ tag) : ∀ a ∈ pre, (h.node a).tag ≤ tag := by
  intro a ha
  have hsorted := (pairwise_append.mp hcore.sorted).1
  cases hb : pre.getLast? with
  | none =>
    rw [getLast?_eq_none_iff.mp hb] at ha
    exact absurd ha not_mem_nil
  | some b =>
    have hle := hlast b hb
    obtain ⟨front, rfl⟩ := getLast?_eq_some_iff.mp hb
    rcases mem_append.mp ha with hold | hself
    · exact ((pairwise_append.mp hsorted).2.2 a hold b (mem_singleton_self b)).trans hle
    · rw [mem_singleton.mp hself]
      exact hle

/-- A state that there is room for goes into both structures. -/
theorem insertKept_rep (hcore : h.Core nodes counting) (hdone : h.prunable = none)
    (hneeded : h.needed state = true) (hroom : h.keptBytes + state.bytes ≤ h.limitBytes)
    (hbytes : state.bytes = keptStateBytes h.overhead state.state)
    (htags : ∀ kept, h.Keeps kept → kept.coord = state.coord → kept.tag < state.tag) :
    (h.insertKept state).Rep counting := by
  obtain ⟨pre, post, rfl, hwalk, hpost, hpre⟩ := LinkedList.exists_walkBack
    (p := fun node => state.tag < (h.node node).tag) hcore.isList hcore.length_entries.symm.le
  have hfresh : h.nextNode ∉ pre ++ post := fun hmem => absurd (hcore.fresh _ hmem) (lt_irrefl _)
  have hnode : ∀ n ∈ pre ++ post, (h.insertKept state).node n = h.node n := by
    intro n hn
    exact update_of_ne (hcore.fresh n hn).ne ..
  have hself : (h.insertKept state).node h.nextNode = state := update_self ..
  have hlinks : (h.insertKept state).links = h.links.link pre.getLast? h.nextNode := by
    rw [← hwalk]
    rfl
  have hmem : ∀ n, n ∈ pre ++ h.nextNode :: post ↔ n = h.nextNode ∨ n ∈ pre ++ post := by
    intro n
    simp only [mem_append, mem_cons]
    tauto
  have hcore' : (h.insertKept state).Core (pre ++ h.nextNode :: post) counting := {
    isList := by
      rw [hlinks]
      exact LinkedList.isList_link hcore.isList hfresh
    sorted := by
      have hsorted := pairwise_append.mp hcore.sorted
      have hfront := hcore.tag_le_of_last fun b hb => by simpa using hpre b hb
      have hback : ∀ b ∈ post, state.tag ≤ (h.node b).tag := fun b hb => by
        have hlt : state.tag < (h.node b).tag := by simpa using hpost b hb
        exact hlt.le
      refine pairwise_append.mpr ⟨?_, pairwise_cons.mpr ⟨fun b hb => ?_, ?_⟩, fun a ha b hb => ?_⟩
      · refine hsorted.1.imp_of_mem fun {a b} ha hb hle => ?_
        rw [hnode a (mem_append_left _ ha), hnode b (mem_append_left _ hb)]
        exact hle
      · rw [hself, hnode b (mem_append_right _ hb)]
        exact hback b hb
      · refine hsorted.2.1.imp_of_mem fun {a b} ha hb hle => ?_
        rw [hnode a (mem_append_right _ ha), hnode b (mem_append_right _ hb)]
        exact hle
      · rw [hnode a (mem_append_left _ ha)]
        rcases mem_cons.mp hb with rfl | hb
        · rw [hself]
          exact hfront a ha
        · rw [hnode b (mem_append_right _ hb)]
          exact hsorted.2.2 a ha b hb
    values_perm := by
      have hperm := (perm_emplace h.kept state.coord h.nextNode).map Prod.snd
      exact hperm.trans ((hcore.values_perm.cons _).trans perm_middle.symm)
    key_eq := by
      intro e he
      rcases mem_emplace.mp he with rfl | hold
      · rw [hself]
      · rw [hnode e.2 (hcore.mem_nodes hold)]
        exact hcore.key_eq e hold
    increasing := by
      intro coord
      have hold : ∀ n ∈ h.kept.equalRange coord, (h.insertKept state).node n = h.node n :=
        fun n hn => hnode n (hcore.mem_nodes (mem_equalRange.mp hn))
      have hmap : (h.kept.equalRange coord).map (fun n => ((h.insertKept state).node n).tag)
          = (h.kept.equalRange coord).map fun n => (h.node n).tag :=
        map_congr_left fun n hn => by rw [hold n hn]
      change ((h.kept.emplace state.coord h.nextNode).equalRange coord |>.map _).Pairwise _
      by_cases hcoord : state.coord = coord
      · subst hcoord
        rw [equalRange_emplace_self, map_append, hmap, pairwise_append]
        refine ⟨hcore.increasing _, pairwise_singleton _ _, fun a ha b hb => ?_⟩
        obtain ⟨n, hn, rfl⟩ := mem_map.mp ha
        obtain rfl := mem_singleton.mp hb
        have hentry := mem_equalRange.mp hn
        dsimp only
        rw [hself]
        exact htags _ ⟨_, hentry, rfl⟩ (hcore.key_eq _ hentry).symm
      · rw [equalRange_emplace_of_ne hcoord, hmap]
        exact hcore.increasing coord
    bytes_eq := by
      intro n hn
      rcases (hmem n).mp hn with rfl | hold
      · rw [hself]
        exact hbytes
      · rw [hnode n hold]
        exact hcore.bytes_eq n hold
    keptBytes_eq := by
      have hsame : ∀ l : List ℕ, (∀ n ∈ l, n ∈ pre ++ post) →
          (l.map fun n => ((h.insertKept state).node n).bytes) = l.map fun n => (h.node n).bytes :=
        fun l hl => map_congr_left fun n hn => by rw [hnode n (hl n hn)]
      change h.keptBytes + state.bytes = _
      rw [map_append, map_cons, hself, hsame pre fun n hn => mem_append_left _ hn,
        hsame post fun n hn => mem_append_right _ hn, hcore.keptBytes_eq, map_append,
        sum_append, sum_append, sum_cons]
      omega
    keptBytes_le := hroom
    fresh := by
      intro n hn
      change n < h.nextNode + 1
      rcases (hmem n).mp hn with rfl | hold
      · exact Nat.lt_succ_self _
      · exact (hcore.fresh n hold).trans (Nat.lt_succ_self _)
    __ := hcore
    nodup_byDeadline := hcore.nodup_byDeadline }
  refine ⟨_, hcore', (prunable_eq_none hcore').mpr fun n hn => ?_⟩
  rcases (hmem n).mp hn with rfl | hold
  · obtain ⟨e, he, hlt⟩ := exists_of_needed hneeded
    obtain ⟨hid, hversion⟩ := (hcore.mem_byVersion e).mp he
    rw [hself]
    exact ⟨e.2, hid, hversion.trans_lt hlt⟩
  · rw [hnode n hold]
    exact (prunable_eq_none hcore).mp hdone n hold

/-- What a published write leaves: every snapshot that is left and older than the write has a state
of the chunk to read, and no other state came in or got lost. -/
structure Published (h h' : TxnHistory) (state : TxnKeptState) : Prop where
  overhead_eq : h'.overhead = h.overhead
  version_eq : ∀ id, (h'.snapshot id).version = (h.snapshot id).version
  registered : ∀ id, (h'.snapshot id).registered = true → (h.snapshot id).registered = true
  keeps : ∀ kept, h'.Keeps kept → h.Keeps kept ∨ kept = state
  keeps_of : ∀ kept, h.Keeps kept → ∀ id, (h'.snapshot id).registered = true →
    (h'.snapshot id).version < kept.tag → h'.Keeps kept
  covers : ∀ id, (h'.snapshot id).registered = true → (h'.snapshot id).version < state.tag →
    ∃ kept, h'.Keeps kept ∧ kept.coord = state.coord ∧ (h'.snapshot id).version < kept.tag
      ∧ kept.tag ≤ state.tag

/-- A write whose state is not needed has published. -/
theorem Shrinks.published {h h' : TxnHistory} (hs : h.Shrinks h') (hcore : h'.Core nodes counting)
    (hneeded : h'.needed state = false)
    (htags : ∀ kept, h.Keeps kept → kept.coord = state.coord → kept.tag < state.tag) :
    h.Published h' state where
  __ := hs
  keeps := fun _ hk => .inl (hs.keeps hk)
  keeps_of := fun _ hk _ hid hlt => hs.keeps_of hk hid hlt
  covers := by
    intro id hid hlt
    obtain ⟨kept, hkept, hcoord, habove⟩ := exists_kept_of_not_needed hcore hneeded hid hlt
    exact ⟨kept, hkept, hcoord, habove, (htags kept (hs.keeps hkept) hcoord).le⟩

/-- A write whose state is kept has published. -/
theorem Shrinks.published_insertKept {h h' : TxnHistory} (hs : h.Shrinks h')
    (hcore : h'.Core nodes counting) : h.Published (h'.insertKept state) state := by
  have hnode : ∀ e ∈ h'.kept.entries, (h'.insertKept state).node e.2 = h'.node e.2 := fun e he =>
    update_of_ne (hcore.fresh _ (hcore.mem_nodes he)).ne ..
  have hself : (h'.insertKept state).Keeps state :=
    ⟨(state.coord, h'.nextNode), mem_emplace.mpr (.inl rfl), update_self ..⟩
  refine ⟨hs.overhead_eq, hs.version_eq, hs.registered, ?_, ?_, ?_⟩
  · rintro kept ⟨e, he, rfl⟩
    rcases mem_emplace.mp he with rfl | hold
    · exact .inr (update_self ..)
    · rw [hnode e hold]
      exact .inl (hs.keeps ⟨e, hold, rfl⟩)
  · intro kept hk id hid hlt
    obtain ⟨e, he, rfl⟩ := hs.keeps_of hk hid hlt
    exact ⟨e, mem_emplace.mpr (.inr he), hnode e he⟩
  · exact fun id _ hlt => ⟨state, hself, rfl, hlt, le_rfl⟩

theorem publish_spec (hrep : h.Rep counting) (now : ℕ)
    (hbytes : state.bytes = keptStateBytes h.overhead state.state)
    (htags : ∀ kept, h.Keeps kept → kept.coord = state.coord → kept.tag < state.tag) :
    (h.publish now (some state)).1.Rep counting ∧ h.Published (h.publish now (some state)).1 state := by
  obtain ⟨hexpired, hexpire⟩ := expireLocked_spec hrep now
  unfold publish
  dsimp only
  by_cases hneeded : (h.expireLocked now).needed state = true
  · rw [if_pos hneeded]
    obtain ⟨hroomRep, hevict, hroom⟩ := evictLoop_spec state hexpired le_rfl
    have hshrinks := hexpire.trans hevict
    set left := evictLoop state (h.expireLocked now).byVersion.entries.length (h.expireLocked now)
    by_cases hstill : left.needed state = true
    · rw [if_pos hstill]
      obtain ⟨nodes, hcore, hdone⟩ := hroomRep
      refine ⟨insertKept_rep hcore hdone hstill (hroom hstill) ?_ fun kept hk => ?_,
        hshrinks.published_insertKept hcore⟩
      · rw [hshrinks.overhead_eq]
        exact hbytes
      · exact htags kept (hshrinks.keeps hk)
    · rw [if_neg hstill]
      refine ⟨hroomRep, ?_⟩
      obtain ⟨nodes, hcore, _⟩ := hroomRep
      exact hshrinks.published hcore (by simpa using hstill) htags
  · rw [if_neg hneeded]
    refine ⟨hexpired, ?_⟩
    obtain ⟨nodes, hcore, _⟩ := hexpired
    exact hexpire.published hcore (by simpa using hneeded) htags

end Publish

/-! ## Registering, ending and reading -/

section Snapshots

variable {h : TxnHistory} {nodes : List ℕ} {counting : ℕ}

theorem rep_new (limitBytes overhead : ℕ) (node : ℕ → TxnKeptState) :
    (new limitBytes overhead node).Rep 0 :=
  ⟨[], { isList := LinkedList.isList_empty
         sorted := List.Pairwise.nil
         values_perm := .refl _
         key_eq := nofun
         increasing := fun _ => List.Pairwise.nil
         bytes_eq := nofun
         keptBytes_eq := rfl
         keptBytes_le := Nat.zero_le _
         fresh := nofun
         openCount_eq := rfl
         mem_byVersion := fun _ => iff_of_false not_mem_nil fun hr => absurd hr.1 Bool.false_ne_true
         mem_byDeadline := fun _ => iff_of_false not_mem_nil fun hr => absurd hr.1 Bool.false_ne_true
         nodup_byVersion := nodup_nil
         nodup_byDeadline := nodup_nil }, rfl⟩

theorem Core.withOpenCount (hcore : h.Core nodes counting) {openCount counting' : ℕ}
    (hcount : openCount = h.byVersion.entries.length + counting') :
    { h with openCount }.Core nodes counting' :=
  { hcore with openCount_eq := hcount }

theorem registerCount_spec (hrep : h.Rep counting) (now : ℕ) :
    (h.registerCount now).Rep (counting + 1) ∧ h.Shrinks (h.registerCount now) := by
  obtain ⟨⟨nodes, hcore, hdone⟩, hshrinks⟩ := expireLocked_spec hrep now
  refine ⟨⟨nodes, hcore.withOpenCount ?_, hdone⟩, { hshrinks with }⟩
  rw [hcore.openCount_eq]
  rfl

theorem registerFail_rep (hrep : h.Rep (counting + 1)) : h.registerFail.Rep counting := by
  obtain ⟨nodes, hcore, hdone⟩ := hrep
  refine ⟨nodes, hcore.withOpenCount ?_, hdone⟩
  rw [hcore.openCount_eq]
  rfl

section Emplace

variable {key : TxnSnapshot → ℕ} {m : MultiMap ℕ ℕ} {snapshot : ℕ → TxnSnapshot}
  (hm : ∀ e, e ∈ m.entries ↔ (snapshot e.2).registered = true ∧ key (snapshot e.2) = e.1)

include hm

/-- An entry of a map of the snapshots, after a new snapshot came in. -/
theorem mem_emplace_iff {id : ℕ} (hid : (snapshot id).registered = false) (new : TxnSnapshot)
    (hnew : new.registered = true) (e : ℕ × ℕ) :
    e ∈ (m.emplace (key new) id).entries ↔ (update snapshot id new e.2).registered = true
      ∧ key (update snapshot id new e.2) = e.1 := by
  rw [mem_emplace, hm]
  by_cases heq : e.2 = id
  · rw [heq, update_self, hid, hnew]
    simp only [Bool.false_eq_true, false_and, or_false, true_and]
    constructor
    · rintro rfl
      rfl
    · intro hkey
      exact Prod.ext hkey.symm heq
  · rw [update_of_ne heq]
    refine or_iff_right fun hsame => heq ?_
    rw [hsame]

theorem nodup_values_emplace (hnodup : m.values.Nodup) {k id : ℕ}
    (hid : (snapshot id).registered = false) : (m.emplace k id).values.Nodup := by
  refine ((perm_emplace m k id).map Prod.snd).nodup_iff.mpr
    (nodup_cons.mpr ⟨fun hmem => ?_, hnodup⟩)
  obtain ⟨e, he, rfl⟩ := mem_map.mp hmem
  cases hid.symm.trans ((hm e).mp he).1

end Emplace

/-- A snapshot that is counted is registered; it must be a new one. -/
theorem registerPublish_rep (hrep : h.Rep (counting + 1)) {id : ℕ} (version deadline : ℕ)
    (hid : (h.snapshot id).registered = false) :
    (h.registerPublish id version deadline).Rep counting := by
  obtain ⟨nodes, hcore, hdone⟩ := hrep
  have hcore' : (h.registerPublish id version deadline).Core nodes counting :=
    { hcore with
      openCount_eq := by
        change h.openCount = (h.byVersion.emplace version id).entries.length + counting
        rw [(perm_emplace h.byVersion version id).length_eq, hcore.openCount_eq, length_cons]
        omega
      mem_byVersion := mem_emplace_iff hcore.mem_byVersion hid ⟨version, deadline, true, none⟩ rfl
      mem_byDeadline := mem_emplace_iff hcore.mem_byDeadline hid ⟨version, deadline, true, none⟩ rfl
      nodup_byVersion := nodup_values_emplace hcore.mem_byVersion hcore.nodup_byVersion hid
      nodup_byDeadline := nodup_values_emplace hcore.mem_byDeadline hcore.nodup_byDeadline hid }
  refine ⟨nodes, hcore', (prunable_eq_none hcore').mpr fun n hn => ?_⟩
  obtain ⟨older, holder, hlt⟩ := (prunable_eq_none hcore).mp hdone n hn
  have hne : older ≠ id := by
    rintro rfl
    cases holder.symm.trans hid
  refine ⟨older, ?_, ?_⟩
  · exact (congrArg TxnSnapshot.registered (update_of_ne hne ..)).trans holder
  · exact (congrArg TxnSnapshot.version (update_of_ne hne ..)).trans_lt hlt

theorem endSnapshot_spec (hrep : h.Rep counting) (id : ℕ) :
    (h.endSnapshot id).Rep counting ∧ h.Shrinks (h.endSnapshot id) := by
  unfold endSnapshot
  split
  · rename_i hid
    obtain ⟨hnext, hshrinks, _⟩ := unregister_prune_spec hrep hid none
    exact ⟨hnext, hshrinks⟩
  · exact ⟨hrep, .refl h⟩

/-- A kept state is found under its chunk. -/
theorem Core.mem_equalRange (hcore : h.Core nodes counting) {kept : TxnKeptState}
    (hkept : h.Keeps kept) : kept ∈ (h.kept.equalRange kept.coord).map h.node := by
  obtain ⟨e, he, rfl⟩ := hkept
  refine mem_map_of_mem (MultiMap.mem_equalRange.mpr ?_)
  rw [← hcore.key_eq e he]
  exact he

/-- What `OldestAboveLocked` finds: the kept state of the chunk with the smallest tag above the
version. -/
theorem oldestAbove_eq_some (hcore : h.Core nodes counting) {coord : ChunkCoord} {version : ℕ}
    {kept : TxnKeptState} (hfound : h.oldestAbove coord version = some kept) :
    h.Keeps kept ∧ kept.coord = coord ∧ version < kept.tag
      ∧ ∀ other, h.Keeps other → other.coord = coord → version < other.tag → kept.tag ≤ other.tag := by
  unfold oldestAbove at hfound
  have hincreasing := hcore.increasing coord
  rw [show ((h.kept.equalRange coord).map fun n => (h.node n).tag)
    = ((h.kept.equalRange coord).map h.node).map TxnKeptState.tag by rw [map_map]; rfl,
    pairwise_map] at hincreasing
  obtain ⟨hlt, before, after, hsplit, hbefore⟩ := find?_eq_some_iff_append.mp hfound
  have hmem : kept ∈ (h.kept.equalRange coord).map h.node := mem_of_find?_eq_some hfound
  obtain ⟨n, hn, rfl⟩ := mem_map.mp hmem
  have hentry := mem_equalRange.mp hn
  refine ⟨⟨_, hentry, rfl⟩, (hcore.key_eq _ hentry).symm, by simpa using hlt, ?_⟩
  intro other hkept hcoord habove
  have hother := hcore.mem_equalRange hkept
  rw [hcoord, hsplit] at hother
  rw [hsplit] at hincreasing
  rcases mem_append.mp hother with hearly | hlate
  · have hnot := hbefore _ hearly
    simp only [Bool.not_eq_eq_eq_not, Bool.not_true, decide_eq_false_iff_not] at hnot
    exact absurd habove hnot
  · rcases mem_cons.mp hlate with hsame | hlate
    · rw [hsame]
    · exact ((pairwise_cons.mp (pairwise_append.mp hincreasing).2.1).1 _ hlate).le

theorem oldestAbove_eq_none (hcore : h.Core nodes counting) {coord : ChunkCoord} {version : ℕ}
    (hnone : h.oldestAbove coord version = none) :
    ∀ kept, h.Keeps kept → kept.coord = coord → ¬ version < kept.tag := by
  rintro kept hkept rfl
  simpa using find?_eq_none.mp hnone _ (hcore.mem_equalRange hkept)

/-- `RequireRegisteredLocked` passes exactly a registered snapshot. -/
theorem requireRegistered_eq_ok {id : ℕ} :
    h.requireRegistered id = .ok () ↔ (h.snapshot id).registered = true := by
  unfold requireRegistered
  split
  · rename_i hid
    exact iff_of_true rfl hid
  · rename_i hid
    refine iff_of_false ?_ hid
    split <;> exact nofun

/-- What `ValidateAndEnd` reports of a snapshot that is still registered. -/
theorem validateAndEnd_snd {now id : ℕ} (coords : List ChunkCoord)
    (hid : ((h.expireLocked now).snapshot id).registered = true) :
    (h.validateAndEnd now id coords).2
      = if coords.any fun coord => ((h.expireLocked now).oldestAbove coord
          ((h.expireLocked now).snapshot id).version).isSome
        then .error (.ofReason .chunkChanged) else .ok () := by
  unfold validateAndEnd
  dsimp only
  rw [requireRegistered_eq_ok.mpr hid]

theorem validateAndEnd_eq_ok {now id : ℕ} {coords : List ChunkCoord}
    (hok : (h.validateAndEnd now id coords).2 = .ok ()) :
    ((h.expireLocked now).snapshot id).registered = true ∧ ∀ coord ∈ coords,
      ((h.expireLocked now).oldestAbove coord
        ((h.expireLocked now).snapshot id).version).isSome = false := by
  cases hrequire : (h.expireLocked now).requireRegistered id with
  | error e =>
    rw [validateAndEnd] at hok
    dsimp only at hok
    rw [hrequire] at hok
    cases hok
  | ok u =>
    have hid := requireRegistered_eq_ok.mp hrequire
    rw [validateAndEnd_snd coords hid] at hok
    split at hok
    · cases hok
    · rename_i hany
      exact ⟨hid, fun coord hcoord => Bool.eq_false_iff.mpr fun hsome =>
        hany (any_eq_true.mpr ⟨coord, hcoord, hsome⟩)⟩

/-- `ValidateAndEnd` keeps the invariant, and the snapshot is not registered after it. -/
theorem validateAndEnd_spec (hrep : h.Rep counting) (now id : ℕ) (coords : List ChunkCoord) :
    (h.validateAndEnd now id coords).1.Rep counting ∧ h.Shrinks (h.validateAndEnd now id coords).1
      ∧ ((h.validateAndEnd now id coords).1.snapshot id).registered = false := by
  obtain ⟨hexpired, hexpire⟩ := expireLocked_spec hrep now
  unfold validateAndEnd
  dsimp only
  cases hrequire : (h.expireLocked now).requireRegistered id with
  | error e =>
    refine ⟨hexpired, hexpire, ?_⟩
    by_contra hid
    rw [requireRegistered_eq_ok.mpr (by simpa using hid)] at hrequire
    cases hrequire
  | ok u =>
    have hid := requireRegistered_eq_ok.mp hrequire
    obtain ⟨hnext, hshrinks, hended⟩ := unregister_prune_spec hexpired hid none
    exact ⟨hnext, hexpire.trans hshrinks, hended⟩

end Snapshots

end TxnHistory

end ChunkDb
