import Mathlib.Data.List.Perm.Basic
import Takl.Lib.KeyedTable

/-!
# XOR digests

The XOR of one word per element, as a loop computes it. The order of the
elements does not matter, so the digest of a keyed table is a function of its
set of rows, and a change of one row changes it by the words of the old and
the new row (`KeyedTable.digest_of_agree`).
-/

/-- `for x in l { hash ^= f x }`, from zero. -/
def xorDigest {α : Type} (f : α → UInt64) (l : List α) : UInt64 :=
  l.foldl (fun hash x => hash ^^^ f x) 0

section List
variable {α : Type} (f : α → UInt64)

/-- What the loop starts from comes out in front of the digest. -/
theorem foldl_xor (l : List α) (a : UInt64) :
    l.foldl (fun hash x => hash ^^^ f x) a = a ^^^ xorDigest f l := by
  unfold xorDigest
  induction l generalizing a with
  | nil => simp
  | cons x l ih => rw [List.foldl_cons, List.foldl_cons, ih, ih (0 ^^^ f x), UInt64.zero_xor,
      UInt64.xor_assoc]

@[simp] theorem xorDigest_cons (x : α) (l : List α) :
    xorDigest f (x :: l) = f x ^^^ xorDigest f l := by
  rw [xorDigest, List.foldl_cons, foldl_xor, UInt64.zero_xor]

/-- The order of the elements does not matter. -/
theorem xorDigest_perm {l l' : List α} (h : l.Perm l') : xorDigest f l = xorDigest f l' := by
  induction h with
  | nil => rfl
  | cons x _ ih => rw [xorDigest_cons, xorDigest_cons, ih]
  | swap x y l =>
    simp only [xorDigest_cons]
    rw [← UInt64.xor_assoc, UInt64.xor_comm (f y), UInt64.xor_assoc]
  | trans _ _ ih ih' => exact ih.trans ih'

/-- Elements that are filtered out count as zero. -/
theorem xorDigest_filter (p : α → Bool) (l : List α) :
    xorDigest f (l.filter p) = xorDigest (fun x => if p x then f x else 0) l := by
  induction l with
  | nil => rfl
  | cons x l ih =>
    rw [xorDigest_cons, ← ih]
    by_cases hp : p x
    · rw [List.filter_cons_of_pos hp, xorDigest_cons, if_pos hp]
    · rw [List.filter_cons_of_neg hp, if_neg hp, UInt64.zero_xor]

end List

namespace KeyedTable

variable {α κ : Type} {key : α → κ} (f : α → UInt64)

/-- Tables with the same rows have the same digest. -/
theorem digest_congr {s t : KeyedTable key} (h : ∀ x, x ∈ s ↔ x ∈ t) :
    xorDigest f s.rows = xorDigest f t.rows := by
  have hs : s.rows.Nodup := s.nodup.of_map
  have ht : t.rows.Nodup := t.nodup.of_map
  exact xorDigest_perm f ((List.perm_ext_iff_of_nodup hs ht).mpr h)

variable [DecidableEq κ]

/-- The word of a looked-up row, zero if there is none. -/
def word : Option α → UInt64
  | some x => f x
  | none => 0

@[simp] theorem word_some (x : α) : word f (some x) = f x := rfl

@[simp] theorem word_none : word f none = 0 := rfl

/-- The row under a key splits off. -/
theorem digest_split (t : KeyedTable key) (k : κ) :
    xorDigest f t.rows =
      word f (t.get k) ^^^ xorDigest f (t.deleteWhere fun x => decide (key x = k)).rows := by
  cases hg : t.get k with
  | none =>
    rw [word_none, UInt64.zero_xor]
    refine digest_congr f fun x => ?_
    rw [mem_deleteWhere, decide_eq_false_iff_not]
    exact ⟨fun hx => ⟨hx, get_eq_none.mp hg x hx⟩, And.left⟩
  | some r =>
    obtain ⟨hr, rfl⟩ := get_eq_some.mp hg
    rw [word_some, ← xorDigest_cons]
    have hnot : r ∉ (t.deleteWhere fun x => decide (key x = key r)).rows := by
      intro hmem
      have := (mem_deleteWhere.mp hmem).2
      simp at this
    have hnd : (t.deleteWhere fun x => decide (key x = key r)).rows.Nodup :=
      (t.deleteWhere _).nodup.of_map
    refine xorDigest_perm f ((List.perm_ext_iff_of_nodup t.nodup.of_map
      (List.nodup_cons.mpr ⟨hnot, hnd⟩)).mpr fun x => ?_)
    rw [List.mem_cons, ← mem_def, ← mem_def, mem_deleteWhere, decide_eq_false_iff_not]
    constructor
    · intro hx
      by_cases hk : key x = key r
      · exact .inl (eq_of_key_eq hx hr hk)
      · exact .inr ⟨hx, hk⟩
    · rintro (rfl | ⟨hx, -⟩)
      · exact hr
      · exact hx

/-- **The incremental law.** If two tables agree away from one key, the
digest changes by the words of the rows under that key. -/
theorem digest_of_agree {s t : KeyedTable key} {k : κ} (h : ∀ i, i ≠ k → t.get i = s.get i) :
    xorDigest f t.rows = xorDigest f s.rows ^^^ word f (s.get k) ^^^ word f (t.get k) := by
  have hrest : xorDigest f (t.deleteWhere fun x => decide (key x = k)).rows =
      xorDigest f (s.deleteWhere fun x => decide (key x = k)).rows := by
    refine digest_congr f fun x => ?_
    simp only [mem_deleteWhere, decide_eq_false_iff_not]
    refine and_congr_left fun hne => ?_
    have hx := h (key x) hne
    constructor
    · intro hmem
      rw [get_key hmem] at hx
      exact (get_eq_some.mp hx.symm).1
    · intro hmem
      rw [get_key hmem] at hx
      exact (get_eq_some.mp hx).1
  rw [digest_split f t k, hrest, digest_split f s k]
  generalize xorDigest f (s.deleteWhere fun x => decide (key x = k)).rows = rest
  calc word f (t.get k) ^^^ rest
      = word f (s.get k) ^^^ word f (s.get k) ^^^ (rest ^^^ word f (t.get k)) := by
        rw [UInt64.xor_self, UInt64.zero_xor, UInt64.xor_comm]
    _ = word f (s.get k) ^^^ rest ^^^ word f (s.get k) ^^^ word f (t.get k) := by
        simp only [UInt64.xor_assoc, UInt64.xor_comm (word f (s.get k))]

end KeyedTable
