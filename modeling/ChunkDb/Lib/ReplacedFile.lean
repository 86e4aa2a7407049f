/-
# A file that is only ever replaced

A file that is replaced by renaming a whole new version over it, on a disk that keeps a
rename only once the directory is synced.  Until then a power loss may leave any version
since the last sync.
-/
import Mathlib.Data.List.Basic

/-- The version that the last sync made durable, and the ones renamed over it since, newest
first. -/
structure ReplacedFile (α : Type*) where
  synced : α
  unsynced : List α

namespace ReplacedFile

open List

variable {α : Type*}

/-- What a reader sees. -/
def visible (f : ReplacedFile α) : α := f.unsynced.headD f.synced

/-- A rename over the file. -/
def replace (f : ReplacedFile α) (a : α) : ReplacedFile α := ⟨f.synced, a :: f.unsynced⟩

/-- A sync of the directory. -/
def sync (f : ReplacedFile α) : ReplacedFile α := ⟨f.visible, []⟩

/-- What a power loss may leave. -/
def Survives (f : ReplacedFile α) (a : α) : Prop := a ∈ f.synced :: f.unsynced

/-- The file after a power loss that left this version. -/
def lost (a : α) : ReplacedFile α := ⟨a, []⟩

@[simp] theorem survives_lost {a b : α} : (lost a).Survives b ↔ b = a := mem_singleton

@[simp] theorem survives_sync {f : ReplacedFile α} {a : α} :
    f.sync.Survives a ↔ a = f.visible := mem_singleton

theorem survives_replace {f : ReplacedFile α} {a b : α} :
    (f.replace a).Survives b ↔ b = a ∨ f.Survives b := by
  simp only [Survives, replace, mem_cons]
  exact or_left_comm

/-- What a reader sees may survive. -/
theorem survives_visible (f : ReplacedFile α) : f.Survives f.visible := by
  obtain ⟨synced, unsynced⟩ := f
  cases unsynced with
  | nil => exact mem_cons_self
  | cons newest older => exact mem_cons_of_mem _ mem_cons_self

end ReplacedFile
