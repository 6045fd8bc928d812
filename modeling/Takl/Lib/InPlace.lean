import Mathlib.Data.List.TakeDrop

/-!
# Filtering a slice into its own backing array

`out := s[:0]; for _, e := range s { if p(e) { out = append(out, e) } }`
writes the elements it keeps into the array it is reading from. The write
position never passes the read position, so every element is read before it is
overwritten and the result is the filtered slice.
-/

namespace InPlace

variable {α : Type}

/-- One iteration: the backing array and the length of `out`. -/
def filterStep (p : α → Bool) (s : List α × ℕ) (i : ℕ) : List α × ℕ :=
  match s.1[i]? with
  | some e => if p e then (s.1.set s.2 e, s.2 + 1) else s
  | none => s

/-- The loop, and `out` after it. -/
def filter (p : α → Bool) (l : List α) : List α :=
  let s := (List.range l.length).foldl (filterStep p) (l, 0)
  s.1.take s.2

/-- After `i` iterations `out` holds what passes among the first `i`, and the
elements still to be read are untouched. -/
structure FilterInv (p : α → Bool) (l : List α) (i : ℕ) (s : List α × ℕ) : Prop where
  behind : s.2 ≤ i
  length : s.1.length = l.length
  out : s.1.take s.2 = (l.take i).filter p
  unread : ∀ j, i ≤ j → s.1[j]? = l[j]?

theorem FilterInv.step {p : α → Bool} {l : List α} {i : ℕ} {s : List α × ℕ}
    (h : FilterInv p l i s) (hi : i < l.length) : FilterInv p l (i + 1) (filterStep p s i) := by
  have hread : s.1[i]? = some l[i] := by
    rw [h.unread i (Nat.le_refl i), List.getElem?_eq_getElem hi]
  have hout : (l.take (i + 1)).filter p =
      (l.take i).filter p ++ if p l[i] then [l[i]] else [] := by
    rw [List.take_succ_eq_append_getElem hi, List.filter_append, List.filter_cons,
      List.filter_nil]
  have hbehind := h.behind
  have hlength := h.length
  simp only [filterStep, hread]
  split
  · next hp =>
    rw [if_pos hp] at hout
    refine ⟨by omega, by rw [List.length_set, hlength], ?_, fun j hj => ?_⟩
    · -- the element lands right behind `out`
      have hlt : s.2 < (s.1.set s.2 l[i]).length := by
        rw [List.length_set]
        omega
      rw [List.take_succ_eq_append_getElem hlt, List.getElem_set_self,
        List.take_set_of_le (Nat.le_refl _), h.out, hout]
    · rw [List.getElem?_set_ne (by omega), h.unread j (by omega)]
  · next hp =>
    rw [if_neg hp, List.append_nil] at hout
    exact ⟨by omega, hlength, by rw [h.out, hout], fun j hj => h.unread j (by omega)⟩

theorem filterInv_foldl (p : α → Bool) (l : List α) {i : ℕ} (hi : i ≤ l.length) :
    FilterInv p l i ((List.range i).foldl (filterStep p) (l, 0)) := by
  induction i with
  | zero => exact ⟨Nat.le_refl 0, rfl, rfl, fun j _ => rfl⟩
  | succ i ih =>
    rw [List.range_succ, List.foldl_append]
    exact (ih (by omega)).step (by omega)

/-- **The loop filters**, although it overwrites what it reads. -/
theorem filter_eq (p : α → Bool) (l : List α) : filter p l = l.filter p := by
  have h := (filterInv_foldl p l (Nat.le_refl _)).out
  rwa [List.take_length] at h

end InPlace
