import Mathlib.Data.String.Basic
import Takl.Lib.LastWriteWins
import Takl.Model.Domain

/-!
# Rows and versions (`internal/engine/store/store.go`, data part)

`Row` is the Go struct, with a nil-able payload. Its version is the pair
`(HLC, owner)` in the lexicographic order; `newer_iff` says that the
source's `newer` is the strict order on versions, so the last-write-wins
library applies at `Row.id` and `Row.version`.
-/

namespace Takl

/-- `store.Kind`: an open Go string type, since any text can arrive in a
pulled row. -/
structure Kind where
  name : String
  deriving DecidableEq, Repr

def kindRunner : Kind := ⟨"runner"⟩
def kindMeta : Kind := ⟨"meta"⟩
def kindEvent : Kind := ⟨"event"⟩

/-- `store.Kinds`. -/
def kinds : List Kind := [kindRunner, kindMeta]

theorem kindRunner_ne_kindMeta : kindRunner ≠ kindMeta := by decide

/-- Events are not in the table of rows. -/
theorem ne_kindEvent {kind : Kind} (h : kind ∈ kinds) : kind ≠ kindEvent :=
  ne_of_mem_of_not_mem h (by decide)

/-- `store.Row`. -/
structure Row where
  kind : Kind
  key : String
  owner : String
  hlc : HLC
  tombstone : Bool
  payload : Option Bytes
  deriving DecidableEq, Repr

namespace Row

/-- The primary key of the rows table. -/
def id (r : Row) : Kind × String := (r.kind, r.key)

/-- What conflicts are decided by: the HLC, then the owner. -/
def version (r : Row) : HLC ×ₗ String := toLex (r.hlc, r.owner)

theorem id_eq {a b : Row} : a.id = b.id ↔ a.kind = b.kind ∧ a.key = b.key := by
  simp [id]

theorem version_lt {a b : Row} :
    a.version < b.version ↔ a.hlc < b.hlc ∨ (a.hlc = b.hlc ∧ a.owner < b.owner) :=
  Prod.Lex.toLex_lt_toLex

theorem version_eq {a b : Row} : a.version = b.version ↔ a.hlc = b.hlc ∧ a.owner = b.owner := by
  simp [version]

/-- The HLC is the leading component. -/
theorem hlc_le_of_version_le {a b : Row} (h : a.version ≤ b.version) : a.hlc ≤ b.hlc := by
  rcases Prod.Lex.toLex_le_toLex.mp h with h | ⟨h, _⟩
  · exact h.le
  · exact h.le

theorem version_lt_of_hlc_lt {a b : Row} (h : a.hlc < b.hlc) : a.version < b.version :=
  version_lt.mpr (.inl h)

end Row

/-- `newer`. -/
def newer (a b : Row) : Bool :=
  if a.hlc.compare b.hlc = 1 then true
  else if a.hlc.compare b.hlc = -1 then false
  else decide (a.owner > b.owner)

theorem HLC.compare_eq_one {h o : HLC} : h.compare o = 1 ↔ o < h := by
  rw [← HLC.compare_pos]
  unfold HLC.compare
  split_ifs <;> simp

theorem HLC.compare_eq_neg_one {h o : HLC} : h.compare o = -1 ↔ h < o := by
  rw [← HLC.compare_neg]
  unfold HLC.compare
  split_ifs <;> simp

/-- **`newer` is the strict order on versions.** -/
@[simp] theorem newer_iff {a b : Row} : newer a b = true ↔ b.version < a.version := by
  rw [Row.version_lt]
  simp only [newer, HLC.compare_eq_one, HLC.compare_eq_neg_one]
  rcases lt_trichotomy a.hlc b.hlc with h | h | h
  · simp [h, h.not_gt, h.ne']
  · simp [h]
  · simp [h]

theorem newer_eq_false {a b : Row} : newer a b = false ↔ a.version ≤ b.version := by
  rw [← Bool.not_eq_true, newer_iff, not_lt]

/-- The rows table. -/
abbrev RowTable := KeyedTable Row.id

namespace RowTable

/-- For the key of `r`, the table holds a version at least as great. -/
abbrev Covers (t : RowTable) (r : Row) : Prop := KeyedTable.Covers Row.version t r

/-- No key of `t` has gone back in `t'`. -/
abbrev Advances (t t' : RowTable) : Prop := KeyedTable.Advances Row.version t t'

/-- Last-write-wins merge of a batch. -/
abbrev mergeAll (t : RowTable) (rs : List Row) : RowTable := KeyedTable.mergeAll Row.version t rs

end RowTable

end Takl
