import Mathlib.Data.List.Nodup

/-!
# Keyed tables

A table with a primary key, as the list of its rows: `key` reads the key
off a row, and the rows' keys are pairwise distinct. The list order is the
scan order and carries no meaning; every fact below is stated through
membership or through `get`, so callers never see it.

* `get` is `SELECT … WHERE key = ?`;
* `upsert` is `INSERT … ON CONFLICT (key) DO UPDATE` (replace in place,
  else append);
* `deleteWhere` and `updateWhere` are the bulk statements.
-/

/-- Rows with pairwise distinct keys: the uniqueness a primary key gives
is a field, so a table with two rows of one key cannot be built. -/
structure KeyedTable {α κ : Type} (key : α → κ) where
  rows : List α
  nodup : (rows.map key).Nodup

namespace KeyedTable

variable {α κ : Type} {key : α → κ}

instance : Membership α (KeyedTable key) := ⟨fun t x => x ∈ t.rows⟩

theorem mem_def {t : KeyedTable key} {x : α} : x ∈ t ↔ x ∈ t.rows := Iff.rfl

instance [DecidableEq α] (x : α) (t : KeyedTable key) : Decidable (x ∈ t) :=
  inferInstanceAs (Decidable (x ∈ t.rows))

instance {p : α → Prop} [DecidablePred p] (t : KeyedTable key) : Decidable (∀ x ∈ t, p x) :=
  inferInstanceAs (Decidable (∀ x ∈ t.rows, p x))

instance {p : α → Prop} [DecidablePred p] (t : KeyedTable key) : Decidable (∃ x ∈ t, p x) :=
  inferInstanceAs (Decidable (∃ x ∈ t.rows, p x))

instance [DecidableEq α] : DecidableEq (KeyedTable key) := fun s t =>
  decidable_of_iff (s.rows = t.rows) (by cases s; cases t; simp)

/-- The table with no rows. -/
def empty : KeyedTable key := ⟨[], List.nodup_nil⟩

@[simp] theorem not_mem_empty (x : α) : x ∉ (empty : KeyedTable key) :=
  List.not_mem_nil

/-- The key determines the row. -/
theorem eq_of_key_eq {t : KeyedTable key} {x y : α} (hx : x ∈ t) (hy : y ∈ t)
    (h : key x = key y) : x = y :=
  List.inj_on_of_nodup_map t.nodup hx hy h

/-! ## Lookup -/

section Lookup
variable [DecidableEq κ]

/-- The row with key `k`, if there is one. -/
def get (t : KeyedTable key) (k : κ) : Option α :=
  t.rows.find? fun r => decide (key r = k)

theorem get_eq_some {t : KeyedTable key} {k : κ} {x : α} :
    t.get k = some x ↔ x ∈ t ∧ key x = k := by
  constructor
  · intro h
    exact ⟨List.mem_of_find?_eq_some h, by simpa using List.find?_some h⟩
  · rintro ⟨hx, rfl⟩
    cases hf : t.get (key x) with
    | none =>
      have hall := List.find?_eq_none.mp hf x hx
      simp at hall
    | some y =>
      have hy : y ∈ t := List.mem_of_find?_eq_some hf
      have hk : key y = key x := by simpa using List.find?_some hf
      rw [eq_of_key_eq hy hx hk]

theorem get_key {t : KeyedTable key} {x : α} (hx : x ∈ t) : t.get (key x) = some x :=
  get_eq_some.mpr ⟨hx, rfl⟩

theorem get_eq_none {t : KeyedTable key} {k : κ} :
    t.get k = none ↔ ∀ x ∈ t, key x ≠ k := by
  simp [get, mem_def]

/-- Two tables with the same rows answer every lookup alike. -/
theorem get_eq_of_mem_iff {s t : KeyedTable key} (h : ∀ x, x ∈ s ↔ x ∈ t) (k : κ) :
    s.get k = t.get k := by
  cases ht : t.get k with
  | none => exact get_eq_none.mpr fun x hx => get_eq_none.mp ht x ((h x).mp hx)
  | some x =>
    obtain ⟨hx, hk⟩ := get_eq_some.mp ht
    exact get_eq_some.mpr ⟨(h x).mpr hx, hk⟩

end Lookup

/-! ## Upsert -/

section Upsert
variable [DecidableEq κ]

/-- Replace the row with `x`'s key, or append `x`. -/
def upsertRows (key : α → κ) (x : α) : List α → List α
  | [] => [x]
  | y :: ys => if key y = key x then x :: ys else y :: upsertRows key x ys

theorem mem_upsertRows {x y : α} {l : List α} (hl : (l.map key).Nodup) :
    y ∈ upsertRows key x l ↔ y = x ∨ (y ∈ l ∧ key y ≠ key x) := by
  induction l with
  | nil => simp [upsertRows]
  | cons z zs ih =>
    simp only [List.map_cons, List.nodup_cons, List.mem_map, not_exists, not_and] at hl
    obtain ⟨hz, hzs⟩ := hl
    by_cases hk : key z = key x
    · simp only [upsertRows, if_pos hk, List.mem_cons]
      constructor
      · rintro (rfl | hy)
        · exact .inl rfl
        · exact .inr ⟨.inr hy, fun h => hz y hy (h.trans hk.symm)⟩
      · rintro (rfl | ⟨rfl | hy, hne⟩)
        · exact .inl rfl
        · exact absurd hk hne
        · exact .inr hy
    · simp only [upsertRows, if_neg hk, List.mem_cons, ih hzs]
      constructor
      · rintro (rfl | rfl | ⟨hy, hne⟩)
        · exact .inr ⟨.inl rfl, hk⟩
        · exact .inl rfl
        · exact .inr ⟨.inr hy, hne⟩
      · rintro (rfl | ⟨rfl | hy, hne⟩)
        · exact .inr (.inl rfl)
        · exact .inl rfl
        · exact .inr (.inr ⟨hy, hne⟩)

theorem nodup_upsertRows (x : α) {l : List α} (hl : (l.map key).Nodup) :
    ((upsertRows key x l).map key).Nodup := by
  induction l with
  | nil => simp [upsertRows]
  | cons z zs ih =>
    have hcons := hl
    simp only [List.map_cons, List.nodup_cons, List.mem_map, not_exists, not_and] at hl
    obtain ⟨hz, hzs⟩ := hl
    by_cases hk : key z = key x
    · simpa [upsertRows, if_pos hk, ← hk] using hcons
    · simp only [upsertRows, if_neg hk, List.map_cons, List.nodup_cons, List.mem_map,
        not_exists, not_and]
      refine ⟨fun y hy => ?_, ih hzs⟩
      rcases (mem_upsertRows hzs).mp hy with rfl | ⟨hy, _⟩
      · exact fun h => hk h.symm
      · exact hz y hy

/-- `INSERT … ON CONFLICT (key) DO UPDATE`. -/
def upsert (t : KeyedTable key) (x : α) : KeyedTable key :=
  ⟨upsertRows key x t.rows, nodup_upsertRows x t.nodup⟩

theorem mem_upsert {t : KeyedTable key} {x y : α} :
    y ∈ t.upsert x ↔ y = x ∨ (y ∈ t ∧ key y ≠ key x) :=
  mem_upsertRows t.nodup

theorem mem_upsert_self (t : KeyedTable key) (x : α) : x ∈ t.upsert x :=
  mem_upsert.mpr (.inl rfl)

theorem mem_upsert_of_ne {t : KeyedTable key} {x y : α} (hy : y ∈ t)
    (hne : key y ≠ key x) : y ∈ t.upsert x :=
  mem_upsert.mpr (.inr ⟨hy, hne⟩)

theorem get_upsert (t : KeyedTable key) (x : α) (k : κ) :
    (t.upsert x).get k = if key x = k then some x else t.get k := by
  split
  · next h => exact get_eq_some.mpr ⟨mem_upsert_self t x, h⟩
  · next h =>
    cases hk : t.get k with
    | none =>
      rw [get_eq_none] at hk ⊢
      intro y hy
      rcases mem_upsert.mp hy with rfl | ⟨hy, _⟩
      · exact h
      · exact hk y hy
    | some y =>
      obtain ⟨hy, rfl⟩ := get_eq_some.mp hk
      exact get_key (mem_upsert_of_ne hy fun he => h he.symm)

@[simp] theorem get_upsert_self (t : KeyedTable key) (x : α) :
    (t.upsert x).get (key x) = some x := by
  rw [get_upsert, if_pos rfl]

theorem get_upsert_of_ne (t : KeyedTable key) {x : α} {k : κ} (h : key x ≠ k) :
    (t.upsert x).get k = t.get k := by
  rw [get_upsert, if_neg h]

/-- After a batch of rows with distinct keys a lookup finds the batch's row,
else what was there. -/
theorem get_foldl_upsert {l : List α} (hl : (l.map key).Nodup) (t : KeyedTable key) (k : κ) :
    (l.foldl upsert t).get k = (l.find? fun r => decide (key r = k)).or (t.get k) := by
  induction l generalizing t with
  | nil => simp
  | cons x xs ih =>
    simp only [List.map_cons, List.nodup_cons, List.mem_map, not_exists, not_and] at hl
    obtain ⟨hx, hxs⟩ := hl
    rw [List.foldl_cons, ih hxs, get_upsert, List.find?_cons]
    by_cases hk : key x = k
    · have hnone : xs.find? (fun r => decide (key r = k)) = none := by
        rw [List.find?_eq_none]
        intro y hy
        simpa using fun h => hx y hy (h.trans hk.symm)
      simp [hk, hnone]
    · simp [hk]

end Upsert

/-! ## Bulk statements -/

/-- `DELETE … WHERE p`. -/
def deleteWhere (t : KeyedTable key) (p : α → Bool) : KeyedTable key :=
  ⟨t.rows.filter fun x => !p x, (List.filter_sublist.map key).nodup t.nodup⟩

theorem mem_deleteWhere {t : KeyedTable key} {p : α → Bool} {x : α} :
    x ∈ t.deleteWhere p ↔ x ∈ t ∧ p x = false := by
  simp [deleteWhere, mem_def]

/-- `UPDATE … SET f WHERE p`, for an assignment `f` that leaves the key
columns alone. -/
def updateWhere (t : KeyedTable key) (p : α → Bool) (f : α → α)
    (hf : ∀ x, key (f x) = key x) : KeyedTable key :=
  ⟨t.rows.map fun x => if p x then f x else x, by
    rw [List.map_map]
    have : key ∘ (fun x => if p x then f x else x) = key := by
      funext x
      by_cases hp : p x <;> simp [hp, hf]
    rw [this]
    exact t.nodup⟩

theorem mem_updateWhere {t : KeyedTable key} {p : α → Bool} {f : α → α}
    (hf : ∀ x, key (f x) = key x) {y : α} :
    y ∈ t.updateWhere p f hf ↔
      (∃ x ∈ t, p x = true ∧ y = f x) ∨ (y ∈ t ∧ p y = false) := by
  simp only [updateWhere, mem_def, List.mem_map]
  constructor
  · rintro ⟨x, hx, rfl⟩
    by_cases hp : p x
    · exact .inl ⟨x, hx, hp, by simp [hp]⟩
    · exact .inr (by simp [hp, hx])
  · rintro (⟨x, hx, hp, rfl⟩ | ⟨hy, hp⟩)
    · exact ⟨x, hx, by simp [hp]⟩
    · exact ⟨y, hy, by simp [hp]⟩

end KeyedTable
