/-
# Images across schema versions

An image written while the table was at one schema version is read by a store whose table is
at a later one: the recorded steps give back the layout the image was written in.
-/
import ChunkDb.ImageSpec
import ChunkDb.SchemaRuns
import ChunkDb.SchemaSteps

namespace ChunkDb

namespace Table

variable {table : Table}

/-- Layouts of all versions are placed under the same limit. -/
theorem IsLayout.limit_eq {version : ℕ} {layout : ChunkLayout}
    (h : table.IsLayout version layout) : layout.payloadBytesLimit = kMaxChunkPayloadBytes := by
  have hlayout := h.layoutAt_eq
  rw [Geometry.layoutAt] at hlayout
  split at hlayout
  · cases hlayout
    exact table.geometry.limit_eq
  · obtain ⟨schema, -, hmake⟩ := bind_eq_ok.1 hlayout
    rw [(ChunkLayout.make_eq_ok hmake).2.2, table.geometry.limit_eq]

end Table

/-- Layouts of the same columns and sizes have the same payload. -/
theorem ChunkLayout.payloadBytes_congr {a b : ChunkLayout}
    (hcolumns : a.schema.columns = b.schema.columns) (hblocks : a.blockCount = b.blockCount)
    (hlimit : a.payloadBytesLimit = b.payloadBytesLimit) : a.payloadBytes = b.payloadBytes := by
  have hplaced := a.placed
  rw [hcolumns, hblocks, hlimit, b.placed] at hplaced
  exact (Prod.mk.inj (Except.ok.inj hplaced)).2.symm

/-- A table that has been altered since reads what was written before. -/
theorem Table.exists_reads (table : Table) {written : Geometry}
    (hblocks : table.geometry.config.chunkBlockCount = written.config.chunkBlockCount)
    (hrun : Alters written.layout.schema table.geometry.layout.schema) :
    ∃ layout, table.geometry.Reads written layout := by
  obtain ⟨hlength, -⟩ := validateTableSchema_eq_ok written.layout.valid
  obtain ⟨hle, undone, hundone, heq⟩ := hrun.schemaAtVersion_eq written.layout.valid
  obtain ⟨layout, hlayout⟩ := table.exists_layout
    (show 0 < written.layout.schema.version by omega) hle
  obtain rfl : layout.schema = undone := Except.ok.inj (hlayout.schema_eq.symm.trans hundone)
  have hcolumns : layout.schema.columns = written.layout.schema.columns := by
    have hboth := congrArg TableSchema.columns heq
    exact hboth
  have hcount : layout.blockCount = written.layout.blockCount := by
    rw [hlayout.blockCount_eq, written.blockCount_eq, ← hblocks]
    rfl
  have hlimit : layout.payloadBytesLimit = written.layout.payloadBytesLimit := by
    rw [hlayout.limit_eq, written.limit_eq]
  exact ⟨layout, hlayout.layoutAt_eq, hle, hblocks, hcount,
    ChunkLayout.payloadBytes_congr hcolumns hcount hlimit, hcolumns⟩

/-- The geometry of the cells before the notes were added. -/
def CellsShape.cellsGeometry (shape : CellsShape) : Geometry where
  config := shape.config
  layout := shape.cellsLayout
  checked := shape.check_config rfl
  blockCount_eq := rfl
  limit_eq := rfl

/-- The label of the first image of a chunk. -/
def cellsLabel : ImageLabel := ⟨⟨0, 0⟩, StoreId.ofByte 1, 1, 2⟩

end ChunkDb
