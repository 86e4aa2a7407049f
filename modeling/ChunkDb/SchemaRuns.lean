/-
# Runs of schema changes

What any sequence of accepted ALTER TABLE steps keeps: every schema on the way is valid,
undoing the recorded steps gives back the schema of each version, and an id once taken is
never given to another column.
-/
import ChunkDb.Layout
import ChunkDb.Lib.Runs

open Relation List

namespace ChunkDb

/-! ## One step -/

/-- The ids of the columns of a schema. -/
def TableSchema.ids (schema : TableSchema) : List UInt32 := schema.columns.map Column.id

/-- What a step makes of the ids: those of before, and at most the next free one. -/
structure KeepsIds (schema next : TableSchema) : Prop where
  valid : validateTableSchema next = .ok ()
  nextColumnId_le : schema.nextColumnId ≤ next.nextColumnId
  ids : ∀ id ∈ next.ids, id ∈ schema.ids ∨ id = schema.nextColumnId

/-- **Every step keeps the ids and makes a valid schema.** -/
theorem AlterStep.keepsIds {schema next : TableSchema} (h : AlterStep schema next)
    (hvalid : validateTableSchema schema = .ok ()) : KeepsIds schema next := by
  rcases alterStep_effect hvalid h with ⟨hsame, hnext⟩ | hnext
  · refine ⟨hnext, ?_, ?_⟩ <;> rw [hsame]
    · exact UInt32.le_refl _
    · exact fun id hid => .inl hid
  · cases hnext with
    | add column hid h =>
      obtain ⟨-, hnext, rfl⟩ := nextVersion_eq_ok h
      refine ⟨hnext, ?_, ?_⟩
      · -- the new id is below the next one, so the counter did not wrap
        have hbelow := (validateTableSchema_eq_ok hnext).2.2.1.idsBelow column
          (mem_append_right _ (mem_singleton_self _))
        rw [hid] at hbelow
        exact UInt32.le_of_lt hbelow
      · intro id hmem
        simp only [TableSchema.ids, map_append, mem_append, map_cons, map_nil,
          mem_singleton, hid] at hmem
        exact hmem
    | drop hget h =>
      obtain ⟨-, hnext, rfl⟩ := nextVersion_eq_ok h
      exact ⟨hnext, UInt32.le_refl _, fun id hmem => .inl (map_subset _ (eraseIdx_subset ..) hmem)⟩
    | replace hget hreplaces h =>
      obtain ⟨-, hnext, rfl⟩ := nextVersion_eq_ok h
      refine ⟨hnext, UInt32.le_refl _, fun id hmem => .inl ?_⟩
      obtain ⟨column, hcolumn, rfl⟩ := mem_map.1 hmem
      obtain ⟨b, hb, hid⟩ := exists_id_of_mem_set hget hreplaces.id_eq hcolumn
      exact mem_map.2 ⟨b, hb, hid⟩

/-- Earlier versions do not depend on the narrowing in progress. -/
theorem schemaAtVersion_pending (schema : TableSchema) (pending : Option PendingNarrowing)
    {version : ℕ} (h : version < schema.version) :
    schemaAtVersion { schema with pending } version = schemaAtVersion schema version := by
  unfold schemaAtVersion
  dsimp only
  rw [schemaAtVersionLoop, schemaAtVersionLoop, if_pos h, if_pos h]
  rfl

/-! ## Runs -/

/-- The schemas that a sequence of accepted changes leads to. -/
abbrev Alters : TableSchema → TableSchema → Prop := ReflTransGen AlterStep

section

variable {first past schema : TableSchema}

theorem Alters.valid (h : Alters first schema) (hfirst : validateTableSchema first = .ok ()) :
    validateTableSchema schema = .ok () :=
  Runs.invariant (I := fun s => validateTableSchema s = .ok ()) h hfirst
    fun _ _ hvalid step => (step.keepsIds hvalid).valid

theorem Alters.nextColumnId_le (h : Alters past schema)
    (hpast : validateTableSchema past = .ok ()) : past.nextColumnId ≤ schema.nextColumnId := by
  refine (Runs.invariant (I := fun s => validateTableSchema s = .ok () ∧
    past.nextColumnId ≤ s.nextColumnId) h ⟨hpast, UInt32.le_refl _⟩ ?_).2
  rintro s t ⟨hvalid, hle⟩ step
  have hkeeps := step.keepsIds hvalid
  exact ⟨hkeeps.valid, UInt32.le_trans hle hkeeps.nextColumnId_le⟩

/-- A column that a step adds has an id that no earlier schema used. -/
theorem Alters.fresh_id {next : TableSchema} (h : Alters past schema)
    (hpast : validateTableSchema past = .ok ()) (step : AlterStep schema next) {id : UInt32}
    (hmem : id ∈ next.ids) (hnew : id ∉ schema.ids) : id ∉ past.ids := by
  have hvalid := h.valid hpast
  have hid : id = schema.nextColumnId :=
    ((step.keepsIds hvalid).ids id hmem).resolve_left hnew
  intro hold
  obtain ⟨column, hcolumn, rfl⟩ := mem_map.1 hold
  have hbelow := (validateTableSchema_eq_ok hpast).2.2.1.idsBelow column hcolumn
  exact UInt32.lt_irrefl _ (UInt32.lt_of_lt_of_le hbelow (hid ▸ h.nextColumnId_le hpast))

/-- Undoing steps gives back a schema from before them. -/
theorem Alters.schemaAtVersion_eq (h : Alters past schema)
    (hpast : validateTableSchema past = .ok ()) :
    past.version ≤ schema.version ∧ ∃ undone, schemaAtVersion schema past.version = .ok undone ∧
      withoutPendingNarrowing undone = withoutPendingNarrowing past := by
  have hpos : 0 < past.version := by
    have := (validateTableSchema_eq_ok hpast).1
    omega
  refine (Runs.invariant (I := fun s => validateTableSchema s = .ok () ∧
    past.version ≤ s.version ∧ ∃ undone, schemaAtVersion s past.version = .ok undone ∧
      withoutPendingNarrowing undone = withoutPendingNarrowing past) h
    ⟨hpast, le_rfl, past, schemaAtVersion_self past hpos.ne', rfl⟩ ?_).2
  rintro s t ⟨hvalid, hle, undone, hundone, heq⟩ step
  refine ⟨(step.keepsIds hvalid).valid, ?_⟩
  rcases alterStep_cases hvalid step with hsame | hadjacent
  · -- only the narrowing in progress changed
    have hversion : t.version = s.version := by rw [hsame]
    refine ⟨by omega, ?_⟩
    by_cases hcurrent : past.version = s.version
    · rw [hcurrent, schemaAtVersion_self s (by omega)] at hundone
      cases hundone
      refine ⟨t, by rw [hcurrent, ← hversion, schemaAtVersion_self t (by omega)], ?_⟩
      rw [← heq, hsame]
      rfl
    · refine ⟨undone, ?_, heq⟩
      rw [← hundone, hsame]
      exact schemaAtVersion_pending s _ (by omega)
  · have hversion : t.version = s.version + 1 := hadjacent.version
    refine ⟨by omega, ?_⟩
    rw [hadjacent.schemaAtVersion_eq hpos hle]
    by_cases hcurrent : past.version = s.version
    · rw [hcurrent, schemaAtVersion_self s (by omega)] at hundone
      cases hundone
      refine ⟨withoutPendingNarrowing s, ?_, heq⟩
      rw [hcurrent]
      exact schemaAtVersion_self (withoutPendingNarrowing s) (show s.version ≠ 0 by omega)
    · refine ⟨undone, ?_, heq⟩
      rw [← hundone]
      exact schemaAtVersion_pending s none (by omega)

/-- Every version on the way was current. -/
theorem Alters.exists_version (h : Alters first schema)
    (hfirst : validateTableSchema first = .ok ()) {version : ℕ} (hle : first.version ≤ version)
    (hcurrent : version ≤ schema.version) :
    ∃ past, Alters first past ∧ Alters past schema ∧ past.version = version := by
  induction h with
  | refl => exact ⟨first, .refl, .refl, by omega⟩
  | tail hrun step ih =>
    rename_i s t
    by_cases hversion : version ≤ s.version
    · obtain ⟨past, hbefore, hafter, heq⟩ := ih hversion
      exact ⟨past, hbefore, hafter.tail step, heq⟩
    · refine ⟨t, hrun.tail step, .refl, ?_⟩
      rcases alterStep_cases (Alters.valid hrun hfirst) step with hsame | hadjacent
      · have : t.version = s.version := by rw [hsame]
        omega
      · have : t.version = s.version + 1 := hadjacent.version
        omega

/-- **The schema history is reversible.**  In a run of accepted changes from a valid schema of
version 1, every version up to the current one was that of a schema on the way; every schema on
the way is valid, is what `SchemaAtVersion` gives back for its version, and its columns have
distinct ids; and a column that a step adds has an id that no column on the way had before. -/
theorem schema_history_reversible (hfirst : validateTableSchema first = .ok ())
    (hversion : first.version = 1) (h : Alters first schema) :
    (∀ version, 1 ≤ version → version ≤ schema.version →
        ∃ past, Alters first past ∧ Alters past schema ∧ past.version = version) ∧
      ∀ past, Alters first past → Alters past schema →
        validateTableSchema past = .ok () ∧ 1 ≤ past.version ∧ past.version ≤ schema.version ∧
        (∃ undone, schemaAtVersion schema past.version = .ok undone ∧
          withoutPendingNarrowing undone = withoutPendingNarrowing past) ∧
        past.ids.Nodup ∧
        ∀ before after, Alters past before → AlterStep before after → Alters after schema →
          ∀ id ∈ after.ids, id ∉ before.ids → id ∉ past.ids := by
  refine ⟨fun version hpos hle => h.exists_version hfirst (by omega) hle, ?_⟩
  intro past hbefore hafter
  have hvalid := hbefore.valid hfirst
  obtain ⟨hlength, -, hcolumns, -⟩ := validateTableSchema_eq_ok hvalid
  obtain ⟨hle, hundone⟩ := hafter.schemaAtVersion_eq hvalid
  refine ⟨hvalid, by omega, hle, hundone, hcolumns.idsDistinct, ?_⟩
  intro before after hrun step _ id hmem hnew
  exact hrun.fresh_id hvalid step hmem hnew

theorem schema_history_reversible_noted :
    ∃ undone, schemaAtVersion notedSchema 1 = .ok undone ∧
      withoutPendingNarrowing undone = withoutPendingNarrowing cellsSchema := by
  have hvalid : validateTableSchema cellsSchema = .ok () := by decide +kernel
  have hrun : Alters cellsSchema notedSchema :=
    .single (.addColumn noteColumn false addColumn_cellsSchema)
  exact ((schema_history_reversible hvalid rfl hrun).2 cellsSchema .refl hrun).2.2.2.1

end

end ChunkDb
