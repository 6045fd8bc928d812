import Mathlib.Order.Lattice
import Takl.Lib.KeyedTable

/-!
# Last write wins on keyed tables

Rows carry a version (`ver`, into any linear order) and a replica installs
an incoming row only when its version beats the incumbent's. `merge` is
that rule for one row, `mergeAll` for a batch read left to right.

The vocabulary the rest is stated in:

* `Covers t x` — for `x`'s key, `t` holds a version at least as great;
* `Advances t t'` — `t'` covers everything `t` holds, i.e. no key went
  back;
* `Greatest S x` — `x` is the top version of its key among the rows of `S`;
* `Consistent S` — within `S` a key and a version determine the row.

`mem_mergeAll_iff` is the join: over consistent rows, the merged table
holds exactly the greatest row of every key, whatever the batch order.
-/

namespace KeyedTable

variable {α κ ν : Type} {key : α → κ} [LinearOrder ν] (ver : α → ν)

/-- `t` holds, for the key of `x`, a version at least as great. -/
def Covers (t : KeyedTable key) (x : α) : Prop :=
  ∃ y ∈ t, key y = key x ∧ ver x ≤ ver y

/-- No key of `t` has gone back in `t'`. -/
def Advances (t t' : KeyedTable key) : Prop :=
  ∀ x ∈ t, Covers ver t' x

/-- `x` is in `S` and no row of `S` with its key has a greater version. -/
def Greatest (key : α → κ) (S : α → Prop) (x : α) : Prop :=
  S x ∧ ∀ y, S y → key y = key x → ver y ≤ ver x

/-- Within `S`, a key and a version determine the row. -/
def Consistent (key : α → κ) (S : α → Prop) : Prop :=
  ∀ x y, S x → S y → key x = key y → ver x = ver y → x = y

instance [DecidableEq κ] (t : KeyedTable key) (x : α) : Decidable (Covers ver t x) :=
  inferInstanceAs (Decidable (∃ y ∈ t.rows, key y = key x ∧ ver x ≤ ver y))

variable {ver}

theorem covers_of_mem {t : KeyedTable key} {x : α} (hx : x ∈ t) : Covers ver t x :=
  ⟨x, hx, rfl, le_rfl⟩

theorem Covers.of_le {t : KeyedTable key} {x y : α} (h : Covers ver t x)
    (hk : key y = key x) (hv : ver y ≤ ver x) : Covers ver t y := by
  obtain ⟨z, hz, hzk, hzv⟩ := h
  exact ⟨z, hz, hzk.trans hk.symm, hv.trans hzv⟩

theorem Advances.refl (t : KeyedTable key) : Advances ver t t := fun _ hx => covers_of_mem hx

theorem Covers.advance {t t' : KeyedTable key} {x : α} (h : Covers ver t x)
    (ha : Advances ver t t') : Covers ver t' x := by
  obtain ⟨y, hy, hk, hv⟩ := h
  exact (ha y hy).of_le hk.symm hv

theorem Advances.trans {t t' t'' : KeyedTable key} (h : Advances ver t t')
    (h' : Advances ver t' t'') : Advances ver t t'' :=
  fun x hx => (h x hx).advance h'

/-- A table of rows of `S` that covers every row of `S` holds exactly the
greatest ones. -/
theorem mem_iff_greatest {S : α → Prop} (hS : Consistent ver key S) {t : KeyedTable key}
    (hsub : ∀ x ∈ t, S x) (hcov : ∀ x, S x → Covers ver t x) (x : α) :
    x ∈ t ↔ Greatest ver key S x := by
  constructor
  · intro hx
    refine ⟨hsub x hx, fun y hy hk => ?_⟩
    obtain ⟨z, hz, hzk, hzv⟩ := hcov y hy
    rwa [eq_of_key_eq hz hx (hzk.trans hk)] at hzv
  · intro hx
    obtain ⟨z, hz, hzk, hzv⟩ := hcov x hx.1
    have hle : ver z ≤ ver x := hx.2 z (hsub z hz) hzk
    rwa [hS x z hx.1 (hsub z hz) hzk.symm (le_antisymm hzv hle)]

/-! ## One row -/

section Merge
variable [DecidableEq κ]

/-- Overwriting a key by a version at least as great loses nothing. -/
theorem advances_upsert {t : KeyedTable key} {x : α}
    (h : ∀ c ∈ t, key c = key x → ver c ≤ ver x) : Advances ver t (t.upsert x) := by
  intro y hy
  by_cases hk : key y = key x
  · exact ⟨x, mem_upsert_self t x, hk.symm, h y hy hk⟩
  · exact covers_of_mem (mem_upsert_of_ne hy hk)

theorem covers_upsert_self (t : KeyedTable key) (x : α) : Covers ver (t.upsert x) x :=
  covers_of_mem (mem_upsert_self t x)

variable (ver) in
/-- Install `x` unless the incumbent's version is at least as great. -/
def merge (t : KeyedTable key) (x : α) : KeyedTable key :=
  match t.get (key x) with
  | some c => if ver c < ver x then t.upsert x else t
  | none => t.upsert x

variable (ver) in
/-- Everything a merge can do: keep the table, which then covers the row
already, or install the row over strictly older ones. -/
theorem merge_cases (t : KeyedTable key) (x : α) :
    (t.merge ver x = t ∧ Covers ver t x) ∨
      (t.merge ver x = t.upsert x ∧ ∀ c ∈ t, key c = key x → ver c < ver x) := by
  unfold merge
  cases hg : t.get (key x) with
  | none =>
    exact .inr ⟨rfl, fun c hc hk => absurd hk (get_eq_none.mp hg c hc)⟩
  | some c =>
    obtain ⟨hc, hck⟩ := get_eq_some.mp hg
    by_cases hlt : ver c < ver x
    · refine .inr ⟨if_pos hlt, fun d hd hdk => ?_⟩
      rwa [eq_of_key_eq hd hc (hdk.trans hck.symm)]
    · exact .inl ⟨if_neg hlt, c, hc, hck, not_lt.mp hlt⟩

theorem covers_merge_self (t : KeyedTable key) (x : α) : Covers ver (t.merge ver x) x := by
  rcases merge_cases ver t x with ⟨h, hc⟩ | ⟨h, _⟩
  · rwa [h]
  · rw [h]
    exact covers_upsert_self t x

theorem advances_merge (t : KeyedTable key) (x : α) : Advances ver t (t.merge ver x) := by
  rcases merge_cases ver t x with ⟨h, _⟩ | ⟨h, hlt⟩
  · rw [h]
    exact .refl t
  · rw [h]
    exact advances_upsert fun c hc hk => (hlt c hc hk).le

theorem mem_of_mem_merge {t : KeyedTable key} {x y : α} (h : y ∈ t.merge ver x) :
    y ∈ t ∨ y = x := by
  rcases merge_cases ver t x with ⟨he, _⟩ | ⟨he, _⟩
  · exact .inl (he ▸ h)
  · rw [he] at h
    exact (mem_upsert.mp h).elim .inr fun h => .inl h.1

/-- Rows under other keys are untouched. -/
theorem get_merge_of_ne (t : KeyedTable key) {x : α} {k : κ} (h : key x ≠ k) :
    (t.merge ver x).get k = t.get k := by
  rcases merge_cases ver t x with ⟨he, _⟩ | ⟨he, _⟩ <;> rw [he]
  exact get_upsert_of_ne t h

/-- What a merge leaves at the row's key depends on what was there. -/
theorem get_merge_congr {t t' : KeyedTable key} {x : α} (h : t.get (key x) = t'.get (key x)) :
    (t.merge ver x).get (key x) = (t'.merge ver x).get (key x) := by
  unfold merge
  rw [h]
  cases hg : t'.get (key x) with
  | none => simp
  | some c =>
    by_cases hlt : ver c < ver x
    · simp [hlt]
    · simp [hlt, h, hg]

/-- A row the table covers is ignored. -/
theorem merge_eq_self {t : KeyedTable key} {x : α} (h : Covers ver t x) :
    t.merge ver x = t := by
  rcases merge_cases ver t x with ⟨he, _⟩ | ⟨_, hlt⟩
  · exact he
  · obtain ⟨c, hc, hk, hv⟩ := h
    exact absurd (hlt c hc hk) (not_lt.mpr hv)

/-! ## A batch -/

variable (ver) in
/-- Merge the rows of a batch from left to right. -/
def mergeAll (t : KeyedTable key) (xs : List α) : KeyedTable key :=
  xs.foldl (merge ver) t

@[simp] theorem mergeAll_cons (t : KeyedTable key) (x : α) (xs : List α) :
    t.mergeAll ver (x :: xs) = (t.merge ver x).mergeAll ver xs := rfl

theorem mergeAll_append (t : KeyedTable key) (xs ys : List α) :
    t.mergeAll ver (xs ++ ys) = (t.mergeAll ver xs).mergeAll ver ys :=
  List.foldl_append ..

theorem advances_mergeAll (t : KeyedTable key) (xs : List α) :
    Advances ver t (t.mergeAll ver xs) := by
  induction xs generalizing t with
  | nil => exact .refl t
  | cons x xs ih => exact (advances_merge t x).trans (ih _)

theorem covers_mergeAll {t : KeyedTable key} {xs : List α} {x : α} (hx : x ∈ xs) :
    Covers ver (t.mergeAll ver xs) x := by
  induction xs generalizing t with
  | nil => cases hx
  | cons y ys ih =>
    rcases List.mem_cons.mp hx with rfl | hx
    · exact (covers_merge_self t x).advance (advances_mergeAll _ ys)
    · exact ih hx

theorem mem_of_mem_mergeAll {t : KeyedTable key} {xs : List α} {x : α}
    (h : x ∈ t.mergeAll ver xs) : x ∈ t ∨ x ∈ xs := by
  induction xs generalizing t with
  | nil => exact .inl h
  | cons y ys ih =>
    rcases ih h with h | h
    · rcases mem_of_mem_merge h with h | rfl
      · exact .inl h
      · exact .inr List.mem_cons_self
    · exact .inr (List.mem_cons_of_mem _ h)

/-- What a merged table covers is what the table or the batch had. -/
theorem covers_mergeAll_iff {t : KeyedTable key} {xs : List α} {x : α} :
    Covers ver (t.mergeAll ver xs) x ↔
      ∃ y, (y ∈ t ∨ y ∈ xs) ∧ key y = key x ∧ ver x ≤ ver y := by
  constructor
  · rintro ⟨y, hy, hk, hv⟩
    exact ⟨y, mem_of_mem_mergeAll hy, hk, hv⟩
  · rintro ⟨y, hy | hy, hk, hv⟩
    · exact ((covers_of_mem hy).advance (advances_mergeAll t xs)).of_le hk.symm hv
    · exact (covers_mergeAll hy).of_le hk.symm hv

/-- A key no row of the batch carries keeps its row. -/
theorem get_mergeAll_of_ne (t : KeyedTable key) {xs : List α} {k : κ}
    (h : ∀ x ∈ xs, key x ≠ k) : (t.mergeAll ver xs).get k = t.get k := by
  induction xs generalizing t with
  | nil => rfl
  | cons x xs ih =>
    rw [mergeAll_cons, ih _ fun y hy => h y (List.mem_cons_of_mem _ hy),
      get_merge_of_ne t (h x List.mem_cons_self)]

/-- A key that one row of the batch carries is decided by that row. -/
theorem get_mergeAll_of_unique (t : KeyedTable key) {xs : List α} {x : α} (hx : x ∈ xs)
    (h : ∀ y ∈ xs, key y = key x → y = x) :
    (t.mergeAll ver xs).get (key x) = (t.merge ver x).get (key x) := by
  induction xs generalizing t with
  | nil => cases hx
  | cons y ys ih =>
    rw [mergeAll_cons]
    have htail : ∀ z ∈ ys, key z = key x → z = x := fun z hz => h z (List.mem_cons_of_mem _ hz)
    by_cases hyx : key y = key x
    · -- the head is the row; a repetition of it in the tail is ignored
      have hy : y = x := h y List.mem_cons_self hyx
      subst hy
      by_cases hmem : y ∈ ys
      · rw [ih _ hmem htail, merge_eq_self (covers_merge_self t y)]
      · exact get_mergeAll_of_ne _ fun z hz hzk => hmem (htail z hz hzk ▸ hz)
    · have hmem : x ∈ ys := (List.mem_cons.mp hx).resolve_left fun hc => hyx (hc ▸ rfl)
      rw [ih _ hmem htail]
      exact get_merge_congr (get_merge_of_ne t hyx)

/-- **The join**: over consistent rows the merged table holds exactly the
greatest row of every key. The right-hand side does not mention the order
or the multiplicity of the batch. -/
theorem mem_mergeAll_iff {t : KeyedTable key} {xs : List α}
    (hS : Consistent ver key fun x => x ∈ t ∨ x ∈ xs) (x : α) :
    x ∈ t.mergeAll ver xs ↔ Greatest ver key (fun x => x ∈ t ∨ x ∈ xs) x := by
  refine mem_iff_greatest hS (fun y hy => mem_of_mem_mergeAll hy) ?_ x
  rintro y (hy | hy)
  · exact (covers_of_mem hy).advance (advances_mergeAll t xs)
  · exact covers_mergeAll hy

/-- Over consistent rows it only matters which rows are merged. -/
theorem get_mergeAll_congr {t : KeyedTable key} {xs ys : List α}
    (hS : Consistent ver key fun x => x ∈ t ∨ x ∈ xs) (h : ∀ x, x ∈ ys ↔ x ∈ xs) (k : κ) :
    (t.mergeAll ver ys).get k = (t.mergeAll ver xs).get k := by
  -- both tables hold exactly the greatest rows of the same set
  have hsame : ∀ x, (x ∈ t ∨ x ∈ ys) ↔ (x ∈ t ∨ x ∈ xs) := fun x => or_congr_right (h x)
  have hS' : Consistent ver key fun x => x ∈ t ∨ x ∈ ys := by
    simpa only [hsame] using hS
  refine get_eq_of_mem_iff (fun x => ?_) _
  rw [mem_mergeAll_iff hS', mem_mergeAll_iff hS]
  simp only [hsame]

end Merge

end KeyedTable
