/-
# Snapshot isolation

A commit adds to the log under the locks of its chunks, and a published state takes the place of
the one that waited; so every step keeps `TxnStore.Inv`, and every run has it.

* `TxnRun.read_isolated` : a read at a snapshot returns the state of the writes up to its version;
* `TxnRun.history_represented` : the history's structures and counters after every run.
-/
import ChunkDb.Txn.Steps

namespace ChunkDb

open List Function TxnWrite

namespace TxnStore

variable {initial : ChunkCoord → StoredState} {s : TxnStore} {t : ℕ}

/-! ## The commit -/

section Commit

variable (s) (t : ℕ) (w : TxnWrite) (changes : List (ChunkCoord × ChunkState)) (version : ℕ)
  (keeps : List TxnKeptState)

/-- The table after a commit. -/
def committed : TxnStore :=
  { s.setThread t (.publishing w (keeps.map fun kept =>
      w.fillKeep s.history.overhead (s.chunks kept.coord) kept)) with
    chunks := applyChanges version changes s.chunks
    log := s.log ++ [⟨version, w, changes⟩] }

end Commit

section Commit

variable {w : TxnWrite} {changes : List (ChunkCoord × ChunkState)} {version : ℕ}
  {keeps : List TxnKeptState}

theorem threads_committed_self : (s.committed t w changes version keeps).threads t
    = .publishing w (keeps.map fun kept =>
      w.fillKeep s.history.overhead (s.chunks kept.coord) kept) :=
  update_self ..

variable {t' bound : ℕ} {coord : ChunkCoord} {state : ChunkState}

theorem threads_committed_of_ne (hne : t' ≠ t) :
    (s.committed t w changes version keeps).threads t' = s.threads t' :=
  update_of_ne hne ..

theorem Versioned.mem_targets (hversioned : s.Versioned w changes version)
    (hsome : changes.lookup coord = some state) : (coord, true) ∈ w.targets := by
  have hmem := mem_of_lookup_eq_some hsome
  rw [hversioned.changes_eq] at hmem
  exact mem_targets_of_mem_changes hmem

/-- Before a write commits, its chunks have the states just below its version. -/
theorem Versioned.chunks_eq (hversioned : s.Versioned w changes version) (hinv : s.Inv initial)
    (hcoord : coord ∈ w.coords) : s.chunks coord = stateBelow initial s.log coord version := by
  rw [hinv.chunks_eq coord]
  refine stateBelow_congr fun write hwrite => ?_
  have hlt := hversioned.writes_lt coord hcoord write hwrite
  exact iff_of_true (hlt.trans hversioned.lt_clock) hlt

/-- A commit leaves the state below its version, and below every version of a sealed chunk. -/
theorem Versioned.stateBelow_committed (hversioned : s.Versioned w changes version)
    (hle : (coord, true) ∈ w.targets → bound ≤ version) :
    stateBelow initial (s.committed t w changes version keeps).log coord bound
      = stateBelow initial s.log coord bound := by
  refine stateBelow_append fun hne => ?_
  obtain ⟨state, hsome⟩ := Option.ne_none_iff_exists'.mp hne
  exact hle (hversioned.mem_targets hsome)

theorem writesTo_committed_of_some (hsome : changes.lookup coord = some state) :
    writesTo (s.committed t w changes version keeps).log coord
      = writesTo s.log coord ++ [(version, ⟨state, version, true⟩)] :=
  writesTo_append_of_some hsome

theorem writesTo_committed_of_none (hnone : changes.lookup coord = none) :
    writesTo (s.committed t w changes version keeps).log coord = writesTo s.log coord :=
  writesTo_append_of_none hnone

/-- A commit leaves the chunks alone that another thread has locked. -/
theorem Inv.lookup_eq_none (hinv : s.Inv initial)
    (hthread : s.threads t = .prepared w changes version keeps)
    (hversioned : s.Versioned w changes version) (hne : t' ≠ t) {target : ChunkCoord × Bool}
    (hheld : target ∈ (s.threads t').held) : changes.lookup target.1 = none := by
  by_contra hsome
  obtain ⟨state, hsome⟩ := Option.ne_none_iff_exists'.mp hsome
  refine hinv.locks t t' hne.symm target.1 target.2 ?_ hheld
  rw [hthread]
  exact hversioned.mem_targets hsome

theorem Inv.frame_committed (hinv : s.Inv initial)
    (hthread : s.threads t = .prepared w changes version keeps)
    (hversioned : s.Versioned w changes version) (hne : t' ≠ t) :
    Frame initial s (s.committed t w changes version keeps) (s.threads t') where
  __ := hinv.onward
  keeps_held := fun _ hkept => .inl hkept
  sealed_of := fun _ _ hsealed => hsealed.setThread nofun
  below_eq := by
    intro coord bound hsealed
    refine hversioned.stateBelow_committed fun htarget => ?_
    exact hsealed.2 t version (by rw [hthread]; rfl) (by rw [hthread]; exact htarget)
  writes_eq := fun target hheld =>
    writesTo_committed_of_none (hinv.lookup_eq_none hthread hversioned hne hheld)
  chunks_eq := by
    intro target hheld
    change applyChanges version changes s.chunks target.1 = _
    rw [applyChanges, hinv.lookup_eq_none hthread hversioned hne hheld]
  commits_of := by
    intro commit hcommit
    rcases mem_append.mp hcommit with hold | hnew
    · exact .inl hold
    · obtain rfl := mem_singleton.mp hnew
      refine .inr ⟨fun coord hheld hcoord => ?_, hinv.taken_ne t t' hne.symm version ?_⟩
      · obtain ⟨exclusive, htarget⟩ := mem_coords.mp hcoord
        refine hinv.locks t' t hne coord exclusive hheld ?_
        rw [hthread]
        exact htarget
      · rw [hthread]
        rfl

/-- The states that wait after a commit: none, or the replaced state of every change. -/
theorem Reserved.left_eq (hreserved : s.Reserved w changes version keeps) :
    (keeps.map fun kept => w.fillKeep s.history.overhead (s.chunks kept.coord) kept) = []
      ∧ (∀ id, s.Registered id → version ≤ s.snapshotVersion id)
      ∧ (∀ sampled, s.registering = some (.sampled sampled) → version ≤ sampled)
    ∨ (keeps.map fun kept => w.fillKeep s.history.overhead (s.chunks kept.coord) kept)
      = changes.map fun change => .reserve s.history.overhead change.1 version
        (s.chunks change.1) := by
  refine hreserved.imp (fun hnone => ?_) fun hkeeps => ?_
  · exact ⟨by rw [hnone.1]; rfl, hnone.2⟩
  · rw [hkeeps, map_map]
    refine map_congr_left fun change _ => ?_
    rw [comp_apply, coord_prepareKeep, fillKeep_prepareKeep]

theorem Inv.publishing_committed (hinv : s.Inv initial)
    (hversioned : s.Versioned w changes version)
    (hreserved : s.Reserved w changes version keeps) :
    (s.committed t w changes version keeps).Publishing initial w (keeps.map fun kept =>
      w.fillKeep s.history.overhead (s.chunks kept.coord) kept) := by
  rcases hreserved.left_eq with ⟨hnone, _⟩ | hleft
  · rw [hnone]
    exact ⟨nodup_nil, nofun, nofun, nofun, nofun⟩
  · rw [hleft]
    have htargets : ∀ change ∈ changes, (change.1, true) ∈ w.targets := by
      rw [hversioned.changes_eq]
      exact fun change hchange => mem_targets_of_mem_changes hchange
    refine ⟨?_, ?_, ?_, ?_, ?_⟩
    · rw [map_map]
      have hnodup := nodup_changes hversioned.valid s.chunks
      rw [← hversioned.changes_eq] at hnodup
      exact hnodup
    all_goals
      intro kept hkept
      obtain ⟨change, hchange, rfl⟩ := mem_map.mp hkept
    · exact htargets change hchange
    · rfl
    · obtain ⟨state, hsome⟩ := exists_lookup_of_mem hchange
      refine ⟨⟨(version, ⟨state, version, true⟩), ?_, rfl⟩, ?_⟩
      · change _ ∈ writesTo (s.committed t w changes version keeps).log change.1
        rw [writesTo_committed_of_some hsome]
        exact mem_append_right _ mem_cons_self
      · have hcoord := mem_coords.mpr ⟨true, htargets change hchange⟩
        exact (hversioned.chunks_eq hinv hcoord).trans
          (hversioned.stateBelow_committed fun _ => le_rfl).symm
    · intro other hother hcoord
      obtain ⟨write, hwrite, htag⟩ := (hinv.kept other hother).committed
      rw [← htag]
      refine hversioned.writes_lt other.coord ?_ write hwrite
      rw [hcoord]
      exact mem_coords.mpr ⟨true, htargets change hchange⟩

theorem Inv.pending_committed (hthread : s.threads t = .prepared w changes version keeps) {tag : ℕ}
    (hpending : s.Pending coord tag) :
    (s.committed t w changes version keeps).Pending coord tag := by
  refine Pending.setThread hpending ?_
  rw [hthread]
  exact nil_subset _

/-- A write to a chunk after the commit is one from before it, or the commit's own. -/
theorem mem_writesTo_committed {write : ℕ × StoredState}
    (hwrite : write ∈ writesTo (s.committed t w changes version keeps).log coord) :
    write ∈ writesTo s.log coord
      ∨ (∃ state, changes.lookup coord = some state) ∧ write.1 = version := by
  obtain ⟨commit, hcommit, state, hsome, rfl⟩ := mem_writesTo.mp hwrite
  rcases mem_append.mp hcommit with hold | hnew
  · exact .inl (mem_writesTo.mpr ⟨commit, hold, state, hsome, rfl⟩)
  · obtain rfl := mem_singleton.mp hnew
    exact .inr ⟨⟨state, hsome⟩, rfl⟩

/-- A write above a snapshot leaves a state for it to publish. -/
theorem Reserved.pending (hreserved : s.Reserved w changes version keeps)
    (hsome : changes.lookup coord = some state)
    (hbound : (∃ id, s.Registered id ∧ s.snapshotVersion id = bound)
      ∨ s.registering = some (.sampled bound)) (hlt : bound < version) :
    (s.committed t w changes version keeps).Pending coord version := by
  rcases hreserved.left_eq with ⟨_, hregistered, hsampled⟩ | hleft
  · rcases hbound with ⟨id, hid, rfl⟩ | hphase
    · exact absurd (hregistered id hid) (not_le.mpr hlt)
    · exact absurd (hsampled bound hphase) (not_le.mpr hlt)
  · refine ⟨t, .reserve s.history.overhead coord version (s.chunks coord), ?_, rfl, rfl⟩
    rw [threads_committed_self]
    change _ ∈ keeps.map _
    rw [hleft]
    exact mem_map.mpr ⟨(coord, state), mem_of_lookup_eq_some hsome, rfl⟩

theorem Committed.committed {commit : TxnCommit} (hcommitted : s.Committed initial commit)
    (hmem : commit ∈ s.log) (hversioned : s.Versioned w changes version) :
    (s.committed t w changes version keeps).Committed initial commit where
  changes_eq := by
    refine hcommitted.changes_eq.trans (changes_congr fun coord hcoord => ?_)
    refine (hversioned.stateBelow_committed fun htarget => ?_).symm
    exact (hversioned.commits_lt coord htarget commit hmem (mem_coords.mpr ⟨true, hcoord⟩)).le
  snapshot_lt := hcommitted.snapshot_lt
  lt_next := hcommitted.lt_next
  unchanged := by
    intro id hid coord hcoord write hwrite hlt
    rcases mem_writesTo_committed hwrite with hold | ⟨⟨state, hsome⟩, hnew⟩
    · exact hcommitted.unchanged id hid coord hcoord write hold hlt
    · have := hversioned.commits_lt coord (hversioned.mem_targets hsome) commit hmem hcoord
      omega

theorem Versioned.committed (hversioned : s.Versioned w changes version) (hinv : s.Inv initial) :
    (s.committed t w changes version keeps).Committed initial ⟨version, w, changes⟩ where
  changes_eq := by
    refine hversioned.changes_eq.trans (changes_congr fun coord hcoord => ?_)
    exact (hversioned.chunks_eq hinv (mem_coords.mpr ⟨true, hcoord⟩)).trans
      (hversioned.stateBelow_committed fun _ => le_rfl).symm
  snapshot_lt := hversioned.snapshot_lt
  lt_next := hversioned.lt_next
  unchanged := by
    intro id hid coord hcoord write hwrite hlt
    rcases mem_writesTo_committed hwrite with hold | ⟨_, hnew⟩
    · exact hversioned.unchanged id hid coord hcoord write hold
    · exact absurd hnew hlt.ne

/-- A commit keeps the invariant. -/
theorem Inv.commit (hinv : s.Inv initial)
    (hthread : s.threads t = .prepared w changes version keeps) :
    (s.committed t w changes version keeps).Inv initial := by
  obtain ⟨hversioned, hreserved⟩ :
      s.Versioned w changes version ∧ s.Reserved w changes version keeps := hinv.ok hthread
  have hlocks : s.Compatible t w.targets :=
    hinv.compatible (by rw [hthread]; exact List.Subset.refl _)
  have hchunk : ∀ coord state, changes.lookup coord = some state → coord ∈ w.coords :=
    fun coord state hsome => mem_coords.mpr ⟨true, hversioned.mem_targets hsome⟩
  exact {
    rep := hinv.rep
    locks := Compatible.locks hlocks hinv
    threadOk := by
      intro t'
      by_cases heq : t' = t
      · subst heq
        rw [threads_committed_self]
        exact hinv.publishing_committed hversioned hreserved
      · rw [threads_committed_of_ne heq]
        exact (hinv.threadOk t').frame (hinv.frame_committed hthread hversioned heq)
    taken_ne := hinv.taken_ne_setThread nofun
    snapshot_lt := hinv.snapshot_lt
    sampled_lt := hinv.sampled_lt
    commits_lt := by
      intro commit hcommit
      rcases mem_append.mp hcommit with hold | hnew
      · exact hinv.commits_lt commit hold
      · obtain rfl := mem_singleton.mp hnew
        exact hversioned.lt_clock
    fresh := hinv.fresh
    chunks_eq := by
      intro coord
      change applyChanges version changes s.chunks coord = _
      rw [applyChanges]
      cases hlookup : changes.lookup coord with
      | some state =>
        have hstate : stateBelow initial (s.log ++ [⟨version, w, changes⟩]) coord s.clock
            = ⟨state, version, true⟩ := stateBelow_append_of_some hlookup hversioned.lt_clock
        exact hstate.symm
      | none =>
        exact (hinv.chunks_eq coord).trans
          (stateBelow_of_writesTo (writesTo_committed_of_none hlookup)).symm
    increasing := by
      intro coord
      cases hlookup : changes.lookup coord with
      | none =>
        rw [writesTo_committed_of_none hlookup]
        exact hinv.increasing coord
      | some state =>
        rw [writesTo_committed_of_some hlookup, map_append]
        refine pairwise_append.mpr ⟨hinv.increasing coord, pairwise_singleton _ _, ?_⟩
        intro low hlow high hhigh
        obtain ⟨write, hwrite, rfl⟩ := mem_map.mp hlow
        obtain rfl := mem_singleton.mp hhigh
        exact hversioned.writes_lt coord (hchunk coord state hlookup) write hwrite
    nodup := by
      change ((s.log ++ [_]).map TxnCommit.version).Nodup
      rw [map_append]
      refine nodup_append.mpr ⟨hinv.nodup, nodup_singleton _, ?_⟩
      intro low hlow high hhigh
      obtain ⟨commit, hcommit, rfl⟩ := mem_map.mp hlow
      obtain rfl := mem_singleton.mp hhigh
      exact hversioned.commits_ne commit hcommit
    kept := by
      intro kept hkept
      obtain ⟨⟨write, hwrite, htag⟩, hstate⟩ := hinv.kept kept hkept
      refine ⟨⟨write, ?_, htag⟩, hstate.trans (hversioned.stateBelow_committed ?_).symm⟩
      · obtain ⟨commit, hcommit, state, hsome, rfl⟩ := mem_writesTo.mp hwrite
        exact mem_writesTo.mpr ⟨commit, mem_append_left _ hcommit, state, hsome, rfl⟩
      · intro htarget
        rw [← htag]
        exact (hversioned.writes_lt _ (mem_coords.mpr ⟨true, htarget⟩) write hwrite).le
    covered := by
      intro id hid coord write hwrite hlt
      rcases mem_writesTo_committed hwrite with hold | ⟨⟨state, hsome⟩, hnew⟩
      · exact (hinv.covered id hid coord write hold hlt).imp_right (Inv.pending_committed hthread)
      · rw [hnew] at hlt ⊢
        exact .inr (hreserved.pending hsome (.inl ⟨id, hid, rfl⟩) hlt)
    sampled := by
      intro bound hphase coord write hwrite hlt
      rcases mem_writesTo_committed hwrite with hold | ⟨⟨state, hsome⟩, hnew⟩
      · exact Inv.pending_committed hthread (hinv.sampled bound hphase coord write hold hlt)
      · rw [hnew] at hlt ⊢
        exact hreserved.pending hsome (.inr hphase) hlt
    reads := by
      intro read hread
      obtain ⟨hnext, hversion, hsealed, hstate⟩ := hinv.reads read hread
      refine ⟨hnext, hversion, hsealed.setThread nofun, hstate.trans ?_⟩
      refine (hversioned.stateBelow_committed fun htarget => ?_).symm
      exact hsealed.2 t version (by rw [hthread]; rfl) (by rw [hthread]; exact htarget)
    commits := by
      intro commit hcommit
      rcases mem_append.mp hcommit with hold | hnew
      · exact (hinv.commits commit hold).committed hold hversioned
      · obtain rfl := mem_singleton.mp hnew
        exact hversioned.committed hinv }

end Commit

/-! ## Publishing a replaced state -/

section Publish

variable {w : TxnWrite} {kept : TxnKeptState} {left : List TxnKeptState} {now : ℕ}

/-- The table after a state is published. -/
def published (s : TxnStore) (t now : ℕ) (w : TxnWrite) (kept : TxnKeptState)
    (left : List TxnKeptState) : TxnStore :=
  { s.setThread t (.publishing w left) with history := (s.history.publish now (some kept)).1 }

theorem threads_published_self : (s.published t now w kept left).threads t = .publishing w left :=
  update_self ..

theorem threads_published_of_ne {t' : ℕ} (hne : t' ≠ t) :
    (s.published t now w kept left).threads t' = s.threads t' :=
  update_of_ne hne ..

theorem Inv.frame_published (hinv : s.Inv initial)
    (hthread : s.threads t = .publishing w (kept :: left))
    (hpublishing : s.Publishing initial w (kept :: left))
    (hpublished : s.history.Published (s.history.publish now (some kept)).1 kept) {t' : ℕ}
    (hne : t' ≠ t) : Frame initial s (s.published t now w kept left) (s.threads t') where
  __ := hinv.onward
  overhead_eq := hpublished.overhead_eq
  version_eq := fun id _ => hpublished.version_eq id
  registered_of := fun id _ hid => hpublished.registered id hid
  registered_new := fun id hge hid =>
    absurd (hinv.fresh id (hpublished.registered id hid)) (not_lt.mpr hge)
  keeps_of := fun id _ hid other hother hlt =>
    hpublished.keeps_of other hother id hid ((hpublished.version_eq id).trans_lt hlt)
  keeps_held := by
    intro other hother
    refine (hpublished.keeps other hother).imp_right ?_
    rintro rfl hheld
    refine hinv.locks t t' hne.symm other.coord true ?_ hheld
    rw [hthread]
    exact hpublishing.mem_targets other mem_cons_self
  sealed_of := fun _ _ hsealed => hsealed.setThread nofun
  below_eq := fun _ _ _ => rfl
  writes_eq := fun _ _ => rfl
  chunks_eq := fun _ _ => rfl
  commits_of := fun _ => .inl

theorem Publishing.published (hpublishing : s.Publishing initial w (kept :: left))
    (hpublished : s.history.Published (s.history.publish now (some kept)).1 kept) :
    (s.published t now w kept left).Publishing initial w left where
  nodup := (nodup_cons.mp hpublishing.nodup).2
  mem_targets := fun other hother => hpublishing.mem_targets other (mem_cons_of_mem _ hother)
  bytes_eq := by
    intro other hother
    rw [hpublishing.bytes_eq other (mem_cons_of_mem _ hother)]
    exact congrArg (keptStateBytes · other.state) hpublished.overhead_eq.symm
  replaced := fun other hother =>
    (hpublishing.replaced other (mem_cons_of_mem _ hother)).of_writesTo rfl
  tags_lt := by
    intro other hother found hfound hcoord
    rcases hpublished.keeps found hfound with hold | rfl
    · exact hpublishing.tags_lt other (mem_cons_of_mem _ hother) found hold hcoord
    · refine absurd ?_ (nodup_cons.mp hpublishing.nodup).1
      rw [hcoord]
      exact mem_map_of_mem hother

/-- What waited is published, or waits still. -/
theorem Pending.published (hthread : s.threads t = .publishing w (kept :: left))
    {coord : ChunkCoord} {tag : ℕ} (hpending : s.Pending coord tag) :
    (kept.coord = coord ∧ kept.tag = tag) ∨ (s.published t now w kept left).Pending coord tag := by
  obtain ⟨t', other, hother, hsame⟩ := hpending
  by_cases heq : t' = t
  · subst heq
    rw [hthread] at hother
    rcases mem_cons.mp hother with rfl | hlater
    · exact .inl hsame
    · exact .inr ⟨t', other, by rw [threads_published_self]; exact hlater, hsame⟩
  · exact .inr ⟨t', other, by rw [threads_published_of_ne heq]; exact hother, hsame⟩

theorem Inv.publish (hinv : s.Inv initial) (hthread : s.threads t = .publishing w (kept :: left))
    (hnone : s.registering = none) : (s.published t now w kept left).Inv initial := by
  have hpublishing : s.Publishing initial w (kept :: left) := hinv.ok hthread
  obtain ⟨hrep, hpublished⟩ := TxnHistory.publish_spec (hinv.rep_none hnone) now
    (hpublishing.bytes_eq kept mem_cons_self) (hpublishing.tags_lt kept mem_cons_self)
  have hlocks : s.Compatible t w.targets :=
    hinv.compatible (by rw [hthread]; exact List.Subset.refl _)
  have hversion : ∀ id, (s.published t now w kept left).snapshotVersion id = s.snapshotVersion id :=
    hpublished.version_eq
  exact {
    rep := by
      change TxnHistory.Rep _ (s.registering.elim 0 fun _ => 1)
      rw [hnone]
      exact hrep
    locks := Compatible.locks hlocks hinv
    threadOk := by
      intro t'
      by_cases heq : t' = t
      · subst heq
        rw [threads_published_self]
        exact hpublishing.published hpublished
      · rw [threads_published_of_ne heq]
        exact (hinv.threadOk t').frame (hinv.frame_published hthread hpublishing hpublished heq)
    taken_ne := hinv.taken_ne_setThread nofun
    snapshot_lt := fun id => (hversion id).trans_lt (hinv.snapshot_lt id)
    sampled_lt := hinv.sampled_lt
    commits_lt := hinv.commits_lt
    fresh := fun id hid => hinv.fresh id (hpublished.registered id hid)
    chunks_eq := hinv.chunks_eq
    increasing := hinv.increasing
    nodup := hinv.nodup
    kept := by
      intro other hother
      rcases hpublished.keeps other hother with hold | rfl
      · exact (hinv.kept other hold).of_writesTo rfl
      · exact (hpublishing.replaced other mem_cons_self).of_writesTo rfl
    covered := by
      intro id hid coord write hwrite hlt
      have hcovers := hpublished.covers id hid
      rcases hinv.covered id (hpublished.registered id hid) coord write hwrite
        (hversion id ▸ hlt) with ⟨other, hother, hcoord, habove, hle⟩ | hpending
      · rw [← hversion id] at habove
        exact .inl ⟨other, hpublished.keeps_of other hother id hid habove, hcoord, habove, hle⟩
      · refine (hpending.published hthread).imp_left ?_
        rintro ⟨rfl, htag⟩
        rw [← htag] at hlt ⊢
        exact hcovers hlt
    sampled := fun bound hphase => absurd (hnone.symm.trans hphase) (by rintro ⟨⟩)
    reads := by
      intro read hread
      obtain ⟨hnext, hread, hsealed, hstate⟩ := hinv.reads read hread
      exact ⟨hnext, hread.trans (hversion _).symm, hsealed.setThread nofun, hstate⟩
    commits := by
      intro commit hcommit
      obtain ⟨hchanges, hlt, hnext, hunchanged⟩ := hinv.commits commit hcommit
      refine ⟨hchanges, fun id hid => ?_, hnext, fun id hid => ?_⟩
      · rw [hversion id]
        exact hlt id hid
      · rw [hversion id]
        exact hunchanged id hid }

end Publish

/-! ## Every run -/

theorem inv_opened {clock : ℕ} (hpos : 0 < clock) (limitBytes overhead : ℕ)
    (node : ℕ → TxnKeptState) : (opened clock limitBytes overhead node initial).Inv initial where
  rep := TxnHistory.rep_new limitBytes overhead node
  locks := nofun
  threadOk := fun _ => trivial
  taken_ne := nofun
  snapshot_lt := fun _ => hpos
  sampled_lt := nofun
  commits_lt := nofun
  fresh := nofun
  chunks_eq := fun _ => rfl
  increasing := fun _ => List.Pairwise.nil
  nodup := nodup_nil
  kept := nofun
  covered := nofun
  sampled := nofun
  reads := nofun
  commits := nofun

/-- Every step keeps the invariant. -/
theorem Inv.step {s' : TxnStore} (hinv : s.Inv initial) (hstep : TxnStep s s') :
    s'.Inv initial := by
  cases hstep with
  | raiseClock clock hle => exact hinv.raiseClock hle
  | expire now hnone =>
    obtain ⟨hrep, hshrinks⟩ := TxnHistory.expireLocked_spec (hinv.rep_none hnone) now
    exact hinv.shrink hnone hrep hshrinks
  | endSnapshot id hnone =>
    obtain ⟨hrep, hshrinks⟩ := TxnHistory.endSnapshot_spec (hinv.rep_none hnone) id
    exact hinv.shrink hnone hrep hshrinks
  | registerCount now hnone => exact hinv.registerCount hnone now
  | registerSample hcounted => exact hinv.registerSample hcounted
  | registerPublish version deadline hsampled => exact hinv.registerPublish deadline hsampled
  | registerFail phase hsome => exact hinv.registerFail hsome
  | readCopy t id coord hidle hid hfree => exact hinv.readCopy hidle hid hfree
  | readVisit t id now coord copied found hthread hnone hfound =>
    exact hinv.readVisit hthread hnone hfound
  | readFails t id now coord copied error hthread hnone _ =>
    obtain ⟨hrep, hshrinks⟩ := TxnHistory.expireLocked_spec (hinv.rep_none hnone) now
    refine Inv.idle (hinv.shrink hnone hrep hshrinks) ?_
    change (s.threads t).pending = []
    rw [hthread]
    rfl
  | commitEmpty id now hnone =>
    obtain ⟨hrep, hshrinks, _⟩ :=
      TxnHistory.validateAndEnd_spec (hinv.rep_none hnone) now id []
    exact hinv.shrink hnone hrep hshrinks
  | begin t w hidle hvalid hid =>
    exact hinv.setThread ⟨hvalid, hid, rfl⟩ (hinv.compatible (nil_subset _))
      nofun (by rw [hidle]; exact nil_subset _)
  | lock t w held todo target hthread hfree => exact hinv.lock hthread hfree
  | ready t w held hthread hplain =>
    have hok := hinv.ok hthread
    refine hinv.setThread ⟨hok.1, hok.2.1, ?_, ?_⟩ (hinv.compatible ?_)
      nofun (by rw [hthread]; exact nil_subset _)
    · rw [hplain]
      exact nofun
    · rw [hplain]
      exact nofun
    · rw [hthread]
      change w.targets ⊆ held
      rw [← hok.2.2, append_nil]
      exact List.Subset.refl _
  | validate t id now w held hthread hid hnone hvalid =>
    exact hinv.validate hthread hid hnone hvalid
  | validateFails t id now w held error hthread hid hnone _ =>
    obtain ⟨hrep, hshrinks, _⟩ :=
      TxnHistory.validateAndEnd_spec (hinv.rep_none hnone) now id w.coords
    refine Inv.idle (hinv.shrink hnone hrep hshrinks) ?_
    change (s.threads t).pending = []
    rw [hthread]
    rfl
  | takeVersion t w hthread _ => exact hinv.takeVersion hthread
  | prepare t w changes version hthread => exact hinv.prepare hthread
  | commit t w changes version keeps hthread => exact hinv.commit hthread
  | publish t now w kept left hthread hnone => exact hinv.publish hthread hnone
  | done t w hthread =>
    refine hinv.idle ?_
    rw [hthread]
    rfl
  | abort t hnot =>
    refine hinv.idle ?_
    cases hthread : s.threads t with
    | publishing w left => exact absurd hthread (hnot w left)
    | _ => rfl

end TxnStore

theorem TxnRun.inv {initial : ChunkCoord → StoredState} {s : TxnStore} (hrun : TxnRun initial s) :
    s.Inv initial := by
  induction hrun with
  | opened clock limitBytes overhead node hpos =>
    exact TxnStore.inv_opened hpos limitBytes overhead node
  | step _ hstep ih => exact ih.step hstep

/-- **Snapshot isolation.**  A read at a snapshot returns the state that all writes to the chunk up
to the snapshot's version leave, those committed after the read included. -/
theorem TxnRun.read_isolated {initial : ChunkCoord → StoredState} {s : TxnStore}
    (hrun : TxnRun initial s) {read : TxnRead} (hread : read ∈ s.reads) :
    read.state = stateAt initial s.log read.version read.coord := by
  have hinv := hrun.inv
  rw [stateAt_eq_stateBelow (hinv.increasing read.coord)]
  exact (hinv.reads read hread).state_eq

/-! ## A run -/

/-- A table without chunks. -/
def emptyChunks (_ : ChunkCoord) : StoredState := ⟨⟨[], [], .empty⟩, 0, false⟩

/-- A write of one chunk. -/
def firstWrite : TxnWrite := .plain true ⟨0, 0⟩ fun _ => ⟨[1], [1], .empty⟩

/-- A lock is free when one thread at most is at work, and does not hold it. -/
theorem free_of_idle {s : TxnStore} {t : ℕ} {coord : ChunkCoord}
    (hself : ∀ other, (coord, other) ∉ (s.threads t).held)
    (hidle : ∀ t' ≠ t, s.threads t' = .idle) (exclusive : Bool) : s.Free coord exclusive := by
  intro t' other hheld
  by_cases heq : t' = t
  · rw [heq] at hheld
    exact absurd hheld (hself other)
  · rw [hidle t' heq] at hheld
    exact absurd hheld not_mem_nil

/-- What is left of a run in which a read at a snapshot comes after a write above it. -/
structure BehindWrite (s : TxnStore) : Prop where
  run : TxnRun emptyChunks s
  registering : s.registering = none
  threads : ∀ t, s.threads t = .idle
  reads : s.reads = [⟨0, 0, ⟨0, 0⟩, emptyChunks ⟨0, 0⟩⟩]
  log : s.log = [⟨1, firstWrite, [(⟨0, 0⟩, ⟨[1], [1], .empty⟩)]⟩]
  payload : (s.chunks ⟨0, 0⟩).payload = [1]
  openCount : s.history.openCount = 1
  nextSnapshot : s.nextSnapshot = 1
  registered : ((s.history.expireLocked 0).snapshot 0).registered = true
  version : (s.history.snapshot 0).version = 0

theorem exists_behindWrite : ∃ s, BehindWrite s := by
  have r₀ : TxnRun emptyChunks (.opened 1 1000 64
      (fun _ => .reserve 64 ⟨0, 0⟩ 0 (emptyChunks ⟨0, 0⟩)) emptyChunks) :=
    .opened 1 1000 64 _ Nat.one_pos
  have r₁ := r₀.step (.registerCount 0 rfl)
  have r₂ := r₁.step (.registerSample rfl)
  have r₃ := r₂.step (.registerPublish 0 10 rfl)
  have r₄ := r₃.step (.begin 0 firstWrite rfl trivial nofun)
  have r₅ := r₄.step (.lock 0 firstWrite [] [] (⟨0, 0⟩, true) rfl
    (free_of_idle (t := 0) (fun _ => not_mem_nil) (fun t hne => by
      simp only [TxnStore.setThread, TxnStore.opened, update_of_ne hne]) _))
  have r₆ := r₅.step (.ready 0 firstWrite _ rfl rfl)
  have r₇ := r₆.step (.takeVersion 0 firstWrite rfl (cons_ne_nil _ _))
  have r₈ := r₇.step (.prepare 0 firstWrite _ _ rfl)
  have r₉ := r₈.step (.commit 0 firstWrite _ _ _ rfl)
  have r₁₀ := r₉.step (.publish 0 0 firstWrite _ _ rfl rfl)
  have r₁₁ := r₁₀.step (.done 0 firstWrite rfl)
  have r₁₂ := r₁₁.step (.readCopy 0 0 ⟨0, 0⟩ rfl Nat.one_pos
    (free_of_idle (t := 0) (fun _ => not_mem_nil) (fun t hne => by
      simp only [TxnStore.setThread, TxnStore.opened, update_of_ne hne]) _))
  have r₁₃ := r₁₂.step (.readVisit 0 0 0 ⟨0, 0⟩ _ (some (emptyChunks ⟨0, 0⟩)) rfl rfl
    (by decide +kernel))
  refine ⟨_, r₁₃, rfl, fun t => ?_, rfl, rfl, rfl, rfl, rfl, by decide +kernel, rfl⟩
  by_cases heq : t = 0
  · subst heq
    rfl
  · simp only [TxnStore.setThread, TxnStore.opened, update_of_ne heq]

theorem TxnRun.read_isolated_behind_write :
    ∃ s, ∃ read ∈ s.reads, TxnRun emptyChunks s ∧ (s.chunks read.coord).payload = [1]
      ∧ read.state.payload = [] ∧ read.state = stateAt emptyChunks s.log read.version read.coord := by
  obtain ⟨s, hs⟩ := exists_behindWrite
  have hread : ⟨0, 0, ⟨0, 0⟩, emptyChunks ⟨0, 0⟩⟩ ∈ s.reads := by
    rw [hs.reads]
    exact mem_cons_self
  exact ⟨s, _, hread, hs.run, hs.payload, rfl, hs.run.read_isolated hread⟩

/-! ## The history between its operations -/

/-- The structures and the counters of a history: `nodes` are the kept states in the order of their
links. -/
structure TxnHistory.Represented (h : TxnHistory) (nodes : List ℕ) : Prop where
  isList : h.links.IsList nodes
  sorted : nodes.Pairwise fun a b => (h.node a).tag ≤ (h.node b).tag
  values_perm : h.kept.values.Perm nodes
  key_eq : ∀ e ∈ h.kept.entries, e.1 = (h.node e.2).coord
  keptBytes_eq : h.keptBytes = (nodes.map fun n => keptStateBytes h.overhead (h.node n).state).sum
  keptBytes_le : h.keptBytes ≤ h.limitBytes
  increasing : ∀ coord, ((h.kept.equalRange coord).map fun n => (h.node n).tag).Pairwise (· < ·)
  above_oldest : ∀ n ∈ nodes, ∀ id, (h.snapshot id).registered = true →
    (∀ other, (h.snapshot other).registered = true →
      (h.snapshot id).version ≤ (h.snapshot other).version) →
    (h.snapshot id).version < (h.node n).tag
  nothing_kept : (∀ id, (h.snapshot id).registered = false) → nodes = []
  openCount_eq : ∃ ids : List ℕ, ids.Nodup
    ∧ (∀ id, id ∈ ids ↔ (h.snapshot id).registered = true) ∧ h.openCount = ids.length

theorem TxnHistory.Rep.represented {h : TxnHistory} (hrep : h.Rep 0) :
    ∃ nodes, h.Represented nodes := by
  obtain ⟨nodes, hcore, hdone⟩ := hrep
  have holder := (TxnHistory.prunable_eq_none hcore).mp hdone
  refine ⟨nodes, hcore.isList, hcore.sorted, hcore.values_perm, hcore.key_eq, ?_,
    hcore.keptBytes_le, hcore.increasing, ?_, ?_, h.byVersion.values, hcore.nodup_byVersion, ?_, ?_⟩
  · rw [hcore.keptBytes_eq]
    exact congrArg List.sum (map_congr_left hcore.bytes_eq)
  · intro n hn id _ hleast
    obtain ⟨older, hregistered, hlt⟩ := holder n hn
    exact (hleast older hregistered).trans_lt hlt
  · intro hnone
    refine eq_nil_iff_forall_not_mem.mpr fun n hn => ?_
    obtain ⟨older, hregistered, _⟩ := holder n hn
    exact Bool.noConfusion ((hnone older).symm.trans hregistered)
  · intro id
    constructor
    · intro hmem
      obtain ⟨e, he, rfl⟩ := mem_map.mp hmem
      exact ((hcore.mem_byVersion e).mp he).1
    · intro hid
      exact mem_map.mpr ⟨_, (hcore.mem_byVersion ((h.snapshot id).version, id)).mpr ⟨hid, rfl⟩, rfl⟩
  · rw [hcore.openCount_eq]
    exact (length_map _).symm

/-- After every run of the operations, between two of them, the history is represented as it
should be. -/
theorem TxnRun.history_represented {initial : ChunkCoord → StoredState} {s : TxnStore}
    (hrun : TxnRun initial s) (hnone : s.registering = none) :
    ∃ nodes, s.history.Represented nodes :=
  (hrun.inv.rep_none hnone).represented

theorem TxnRun.history_represented_behind_write :
    ∃ s, TxnRun emptyChunks s ∧ s.history.openCount = 1 ∧ ∃ nodes, s.history.Represented nodes := by
  obtain ⟨s, hs⟩ := exists_behindWrite
  exact ⟨s, hs.run, hs.openCount, hs.run.history_represented hs.registering⟩

end ChunkDb
