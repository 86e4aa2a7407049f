/-
# Serializability

A transaction that still has its snapshot is refused for a changed chunk exactly when a write above
the snapshot is committed to one of its chunks.  So the committed writes, run one after the other
in the order of their versions, find the states they found in the run, and leave the chunks as
they are; what a committed transaction read is what it would read there.
-/
import ChunkDb.Txn.Isolation

namespace ChunkDb

open List

/-- The committed writes run one after the other, each from the states it finds. -/
def serialRun (initial : ChunkCoord → StoredState) (commits : List TxnCommit) :
    ChunkCoord → StoredState :=
  commits.foldl (fun chunks commit =>
    applyChanges commit.version (commit.write.changes chunks) chunks) initial

namespace TxnStore

variable {initial : ChunkCoord → StoredState} {s : TxnStore}

/-! ## The order of the versions -/

theorem Inv.pairwise_lt (hinv : s.Inv initial) :
    (inVersionOrder s.log).Pairwise fun lhs rhs => lhs.version < rhs.version := by
  have hnodup : ((inVersionOrder s.log).map TxnCommit.version).Nodup :=
    ((perm_inVersionOrder s.log).map TxnCommit.version).nodup_iff.mpr hinv.nodup
  exact ((pairwise_inVersionOrder s.log).and (pairwise_map.mp hnodup)).imp
    fun hboth => lt_of_le_of_ne hboth.1 hboth.2

variable {before after : List TxnCommit} {commit : TxnCommit}

/-- The commits before one in version order leave the states just below its version. -/
theorem Inv.replayCommits_before (hinv : s.Inv initial)
    (horder : inVersionOrder s.log = before ++ commit :: after) (coord : ChunkCoord) :
    replayCommits initial before coord = stateBelow initial s.log coord commit.version := by
  have hsorted := hinv.pairwise_lt
  rw [horder] at hsorted
  obtain ⟨_, hlater, hbefore⟩ := pairwise_append.mp hsorted
  have hwrites : writesTo s.log coord
      = writesTo before coord ++ writesTo (commit :: after) coord := by
    rw [← writesTo_inVersionOrder (hinv.increasing coord), horder]
    exact filterMap_append
  have hlow : ∀ write ∈ writesTo before coord, write.1 < commit.version := by
    intro write hwrite
    obtain ⟨other, hother, _, _, rfl⟩ := mem_writesTo.mp hwrite
    exact hbefore other hother commit mem_cons_self
  have hhigh : ∀ write ∈ writesTo (commit :: after) coord, ¬ write.1 < commit.version := by
    intro write hwrite
    obtain ⟨other, hother, _, _, rfl⟩ := mem_writesTo.mp hwrite
    rcases mem_cons.mp hother with rfl | hmem
    · exact lt_irrefl _
    · exact ((pairwise_cons.mp hlater).1 other hmem).not_gt
  rw [replayCommits_apply, stateBelow, hwrites, filter_append,
    filter_eq_self.mpr fun write hwrite => by simpa using hlow write hwrite,
    filter_eq_nil_iff.mpr fun write hwrite => by simpa using hhigh write hwrite, append_nil]

theorem Inv.replayCommits_all (hinv : s.Inv initial) :
    replayCommits initial (inVersionOrder s.log) = s.chunks := by
  funext coord
  rw [replayCommits_apply, writesTo_inVersionOrder (hinv.increasing coord), hinv.chunks_eq coord,
    stateBelow, filter_eq_self.mpr]
  intro write hwrite
  obtain ⟨commit, hcommit, _, _, rfl⟩ := mem_writesTo.mp hwrite
  simpa using hinv.commits_lt commit hcommit

theorem Inv.committed_of_order (hinv : s.Inv initial)
    (horder : inVersionOrder s.log = before ++ commit :: after) : s.Committed initial commit := by
  refine hinv.commits commit ((perm_inVersionOrder s.log).mem_iff.mp ?_)
  rw [horder]
  exact mem_append_right _ mem_cons_self

/-- Each write finds in the serial run what it found. -/
theorem Inv.changes_before (hinv : s.Inv initial)
    (horder : inVersionOrder s.log = before ++ commit :: after) :
    commit.changes = commit.write.changes (replayCommits initial before) := by
  rw [(hinv.committed_of_order horder).changes_eq]
  exact TxnWrite.changes_congr fun coord _ => (hinv.replayCommits_before horder coord).symm

theorem Inv.serialRun_eq (hinv : s.Inv initial) (horder : inVersionOrder s.log = before ++ after) :
    serialRun initial before = replayCommits initial before := by
  induction before using List.reverseRecOn generalizing after with
  | nil => rfl
  | append_singleton before commit ih =>
    rw [append_assoc] at horder
    have hbefore := ih horder
    rw [serialRun, replayCommits, foldl_concat, foldl_concat]
    change applyChanges _ (commit.write.changes (serialRun initial before))
      (serialRun initial before) = applyChanges _ _ (replayCommits initial before)
    rw [hbefore, ← hinv.changes_before horder]

/-- What a committed transaction read is what it finds in the serial run. -/
theorem Inv.read_before (hinv : s.Inv initial)
    (horder : inVersionOrder s.log = before ++ commit :: after) {read : TxnRead}
    (hread : read ∈ s.reads) (hid : commit.write.snapshot? = some read.id)
    (hcoord : read.coord ∈ commit.write.coords) :
    read.state = replayCommits initial before read.coord := by
  have hcommitted := hinv.committed_of_order horder
  have hreturned := hinv.reads read hread
  rw [hinv.replayCommits_before horder, hreturned.state_eq, hreturned.version_eq]
  have hlt := hcommitted.snapshot_lt read.id hid
  refine stateBelow_congr fun write hwrite => ⟨fun hbelow => by omega, fun hbelow => ?_⟩
  exact Nat.lt_succ_of_le (hcommitted.unchanged read.id hid read.coord hcoord write hwrite hbelow)

/-! ## Validation -/

/-- A committed write of a chunk, in terms of the log. -/
theorem exists_write_iff {log : List TxnCommit} {coord : ChunkCoord} {version : ℕ} :
    (∃ write ∈ writesTo log coord, version < write.1)
      ↔ ∃ commit ∈ log, version < commit.version ∧ coord ∈ commit.changes.map Prod.fst := by
  constructor
  · rintro ⟨write, hwrite, hlt⟩
    obtain ⟨commit, hcommit, state, hsome, rfl⟩ := mem_writesTo.mp hwrite
    exact ⟨commit, hcommit, hlt, mem_map.mpr ⟨_, mem_of_lookup_eq_some hsome, rfl⟩⟩
  · rintro ⟨commit, hcommit, hlt, hcoord⟩
    obtain ⟨change, hchange, rfl⟩ := mem_map.mp hcoord
    obtain ⟨state, hsome⟩ := exists_lookup_of_mem hchange
    exact ⟨_, mem_writesTo.mpr ⟨commit, hcommit, state, hsome, rfl⟩, hlt⟩

/-- `ValidateAndEnd` of a transaction that holds its locks and still has its snapshot. -/
theorem Inv.validateAndEnd_iff (hinv : s.Inv initial) {t id now : ℕ} {w : TxnWrite}
    {held : List (ChunkCoord × Bool)} (hthread : s.threads t = .locking w held [])
    (hnone : s.registering = none)
    (hid : ((s.history.expireLocked now).snapshot id).registered = true) :
    (s.history.validateAndEnd now id w.coords).2 = .error (.ofReason .chunkChanged)
      ↔ ∃ coord ∈ w.coords, ∃ commit ∈ s.log,
        (s.history.snapshot id).version < commit.version ∧ coord ∈ commit.changes.map Prod.fst := by
  obtain ⟨hrep, hshrinks⟩ := TxnHistory.expireLocked_spec (hinv.rep_none hnone) now
  have hchanged := (hinv.shrink hnone hrep hshrinks).changed_iff hthread hid
  rw [← hshrinks.version_eq id]
  simp only [exists_write_iff] at hchanged
  refine Iff.trans ?_ hchanged
  rw [TxnHistory.validateAndEnd_snd w.coords hid]
  split
  · rename_i hany
    exact iff_of_true rfl (any_eq_true.mp hany)
  · rename_i hany
    exact iff_of_false nofun fun hsome => hany (any_eq_true.mpr hsome)

end TxnStore

/-- **Exact conflicts and serializability.**  Validation reports a changed chunk exactly when a
write above the snapshot is committed to one; and the committed writes are equivalent to their
serial run in version order, with the reads of each transaction as they are just before it. -/
theorem TxnRun.serializable {initial : ChunkCoord → StoredState} {s : TxnStore}
    (hrun : TxnRun initial s) :
    (∀ t w held id now, s.threads t = .locking w held [] → s.registering = none →
      ((s.history.expireLocked now).snapshot id).registered = true →
      ((s.history.validateAndEnd now id w.coords).2 = .error (.ofReason .chunkChanged)
        ↔ ∃ coord ∈ w.coords, ∃ commit ∈ s.log, (s.history.snapshot id).version < commit.version
          ∧ coord ∈ commit.changes.map Prod.fst))
    ∧ ((inVersionOrder s.log).Pairwise fun lhs rhs => lhs.version < rhs.version)
    ∧ serialRun initial (inVersionOrder s.log) = s.chunks
    ∧ ∀ before commit after, inVersionOrder s.log = before ++ commit :: after →
      commit.changes = commit.write.changes (serialRun initial before)
      ∧ ∀ read ∈ s.reads, commit.write.snapshot? = some read.id →
        read.coord ∈ commit.write.coords → read.state = serialRun initial before read.coord := by
  have hinv := hrun.inv
  refine ⟨fun t w held id now hthread hnone hid => hinv.validateAndEnd_iff hthread hnone hid,
    hinv.pairwise_lt, ?_, fun before commit after horder => ⟨?_, fun read hread hid hcoord => ?_⟩⟩
  · rw [hinv.serialRun_eq (append_nil _).symm]
    exact hinv.replayCommits_all
  · rw [hinv.serialRun_eq horder]
    exact hinv.changes_before horder
  · rw [hinv.serialRun_eq horder]
    exact hinv.read_before horder hread hid hcoord

/-! ## A run with a conflict -/

/-- A transaction that writes the chunk at the origin. -/
def secondWrite : TxnWrite := .transaction 0 [] [(⟨0, 0⟩, ⟨[2], [1], .empty⟩)]

theorem targets_secondWrite : secondWrite.targets = [(⟨0, 0⟩, true)] := by
  simp [secondWrite, TxnWrite.targets]

/-- After the write above its snapshot, a transaction takes its locks. -/
theorem BehindWrite.locked {s : TxnStore} (hs : BehindWrite s) :
    TxnRun emptyChunks ((s.setThread 0 (.locking secondWrite [] secondWrite.targets)).setThread 0
      (.locking secondWrite ([] ++ [(⟨0, 0⟩, true)]) [])) := by
  have hbegin := hs.run.step (.begin 0 secondWrite (hs.threads 0)
    ⟨cons_ne_nil _ _, pairwise_singleton _ _⟩ fun id hid => by
      cases hid
      rw [hs.nextSnapshot]
      exact Nat.one_pos)
  refine hbegin.step (.lock 0 secondWrite [] [] (⟨0, 0⟩, true) ?_ (free_of_idle (t := 0) ?_ ?_ _))
  · rw [TxnStore.threads_setThread_self, targets_secondWrite]
  · rw [TxnStore.threads_setThread_self]
    exact fun _ => not_mem_nil
  · intro t hne
    rw [TxnStore.threads_setThread_of_ne hne]
    exact hs.threads t

theorem TxnRun.serializable_conflict :
    ∃ s, TxnRun emptyChunks s ∧ s.log ≠ [] ∧ s.reads ≠ []
      ∧ (s.history.validateAndEnd 0 0 secondWrite.coords).2 = .error (.ofReason .chunkChanged)
      ∧ serialRun emptyChunks (inVersionOrder s.log) = s.chunks := by
  obtain ⟨s, hs⟩ := exists_behindWrite
  obtain ⟨hconflict, _, hserial, _⟩ := hs.locked.serializable
  refine ⟨_, hs.locked, ?_, ?_, ?_, hserial⟩
  · change s.log ≠ []
    rw [hs.log]
    exact cons_ne_nil _ _
  · change s.reads ≠ []
    rw [hs.reads]
    exact cons_ne_nil _ _
  · refine (hconflict 0 secondWrite _ 0 0 TxnStore.threads_setThread_self hs.registering
      hs.registered).mpr ⟨⟨0, 0⟩, ?_, ⟨1, firstWrite, [(⟨0, 0⟩, ⟨[1], [1], .empty⟩)]⟩, ?_, ?_, ?_⟩
    · rw [TxnWrite.coords, targets_secondWrite]
      exact mem_cons_self
    · change _ ∈ s.log
      rw [hs.log]
      exact mem_cons_self
    · change (s.history.snapshot 0).version < 1
      rw [hs.version]
      exact Nat.one_pos
    · exact mem_cons_self

end ChunkDb
