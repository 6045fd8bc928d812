import Mathlib.Data.List.Infix

/-!
# Streaks in a history of samples

A history is the list of the Boolean samples read so far. A block of `k`
equal samples is decisive; the *verdict* on a history is that of the last
decisive block (`Decisive k` says that it is a block of `true`). One more
sample decides anew if it completes a block and leaves the verdict alone
otherwise, so the verdict changes only where a streak reaches `k` exactly,
and two changes are `k` samples apart (`changes_apart`).
-/

namespace Streak

variable {b x : Bool} {j k : ℕ} {l : List Bool}

/-- The last `k` samples are `b`. -/
def Ends (b : Bool) (k : ℕ) (l : List Bool) : Prop := List.replicate k b <:+ l

theorem ends_zero : Ends b 0 l := List.nil_suffix

theorem ends_nil_iff : Ends b k [] ↔ k = 0 := by
  simp [Ends]

theorem ends_concat_iff : Ends b (k + 1) (l ++ [x]) ↔ x = b ∧ Ends b k l := by
  unfold Ends
  rw [List.replicate_succ', List.suffix_concat_iff]
  constructor
  · rintro (h | ⟨t, h, ht⟩)
    · simp at h
    · obtain ⟨rfl, hx⟩ := List.append_inj' h rfl
      exact ⟨by simpa using hx.symm, ht⟩
  · rintro ⟨rfl, h⟩
    exact .inr ⟨_, rfl, h⟩

theorem Ends.mono (h : Ends b k l) (hj : j ≤ k) : Ends b j l := by
  refine List.IsSuffix.trans ?_ h
  rw [List.suffix_replicate_iff, List.length_replicate]
  exact ⟨hj, rfl⟩

/-- One more sample of its value makes a streak longer by one. -/
theorem ends_concat_self {c : ℕ} (h : ∀ k, Ends b k l ↔ k ≤ c) (k : ℕ) :
    Ends b k (l ++ [b]) ↔ k ≤ c + 1 := by
  cases k with
  | zero => exact iff_of_true ends_zero (Nat.zero_le _)
  | succ k => rw [ends_concat_iff, h k, Nat.add_le_add_iff_right, and_iff_right rfl]

/-- The other sample ends it. -/
theorem ends_concat_other (hx : x ≠ b) (l : List Bool) (k : ℕ) : Ends b k (l ++ [x]) ↔ k ≤ 0 := by
  cases k with
  | zero => exact iff_of_true ends_zero le_rfl
  | succ k => exact iff_of_false (fun h => hx (ends_concat_iff.mp h).1) (by omega)

/-! ## The last decisive block -/

/-- Some block of at least `k` samples `true` has no block of `k` samples
`false` after it. -/
def Decisive (k : ℕ) (l : List Bool) : Prop :=
  ∃ before m after, l = before ++ List.replicate m true ++ after ∧ k ≤ m ∧
    ¬List.replicate k false <:+: after

theorem not_decisive_nil (hk : 0 < k) : ¬Decisive k [] := by
  rintro ⟨before, m, after, h, hm, -⟩
  have hlen := congrArg List.length h
  simp at hlen
  omega

theorem decisive_of_ends (hk : 0 < k) (h : Ends true k l) : Decisive k l := by
  obtain ⟨before, rfl⟩ := h
  refine ⟨before, k, [], (List.append_nil _).symm, le_rfl, ?_⟩
  simp only [List.infix_nil, List.replicate_eq_nil_iff]
  omega

theorem not_decisive_of_ends (hk : 0 < k) (h : Ends false k l) : ¬Decisive k l := by
  rintro ⟨before, m, after, rfl, hm, hafter⟩
  -- the last sample of the block and what follows it
  have hlast : true :: after <:+ before ++ List.replicate m true ++ after := by
    refine ⟨before ++ List.replicate (m - 1) true, ?_⟩
    have hsucc : List.replicate m true = List.replicate (m - 1) true ++ [true] := by
      rw [← List.replicate_succ', Nat.sub_add_cancel (by omega)]
    rw [hsucc]
    simp
  rcases List.suffix_or_suffix_of_suffix h hlast with hin | hout
  · rcases List.suffix_cons_iff.mp hin with heq | hin
    · have htrue : true ∈ List.replicate k false := heq ▸ List.mem_cons_self
      simp at htrue
    · exact hafter hin.isInfix
  · have htrue : true ∈ List.replicate k false := hout.subset List.mem_cons_self
    simp at htrue

/-- A sample that completes no block leaves the verdict alone. -/
theorem decisive_concat_iff (ht : ¬Ends true k (l ++ [x])) (hf : ¬Ends false k (l ++ [x])) :
    Decisive k (l ++ [x]) ↔ Decisive k l := by
  constructor
  · rintro ⟨before, m, after, h, hm, hafter⟩
    rcases List.eq_nil_or_concat' after with rfl | ⟨after, y, rfl⟩
    · -- the block would end here
      rw [List.append_nil] at h
      refine absurd (Ends.mono ?_ hm) ht
      exact ⟨before, h.symm⟩
    · rw [← List.append_assoc] at h
      refine ⟨before, m, after, (List.append_inj' h rfl).1, hm, fun hin => hafter ?_⟩
      exact hin.trans (List.prefix_append after [y]).isInfix
  · rintro ⟨before, m, after, rfl, hm, hafter⟩
    refine ⟨before, m, after ++ [x], List.append_assoc _ _ _, hm, fun hin => ?_⟩
    rcases List.infix_concat_iff.mp hin with hend | hin
    · refine hf (hend.trans ?_)
      rw [List.append_assoc]
      exact List.suffix_append _ _
    · exact hafter hin

/-! ## Changes of the verdict -/

/-- The current streak is of `k` samples `b`. -/
def Exactly (b : Bool) (k : ℕ) (l : List Bool) : Prop := Ends b k l ∧ ¬Ends b (k + 1) l

theorem Exactly.unique (h : Exactly b j l) (h' : Exactly b k l) : j = k := by
  rcases lt_trichotomy j k with hlt | heq | hlt
  · exact absurd (h'.1.mono hlt) h.2
  · exact heq
  · exact absurd (h.1.mono hlt) h'.2

theorem exactly_concat_iff : Exactly b (k + 1) (l ++ [x]) ↔ x = b ∧ Exactly b k l := by
  unfold Exactly
  rw [ends_concat_iff, ends_concat_iff]
  constructor
  · rintro ⟨⟨hx, h⟩, hnot⟩
    exact ⟨hx, h, fun h' => hnot ⟨hx, h'⟩⟩
  · rintro ⟨hx, h, hnot⟩
    exact ⟨⟨hx, h⟩, fun h' => hnot h'.2⟩

/-- The verdict changes only where a streak becomes `k` samples long. -/
theorem exactly_of_change (hk : 0 < k) (h : ¬(Decisive k (l ++ [x]) ↔ Decisive k l)) :
    Exactly x k (l ++ [x]) := by
  obtain ⟨k, rfl⟩ : ∃ i, k = i + 1 := ⟨k - 1, by omega⟩
  have hends : Ends x (k + 1) (l ++ [x]) := by
    by_contra hnot
    have hother : ∀ b, ¬Ends b (k + 1) (l ++ [x]) := by
      intro b hb
      obtain rfl := (ends_concat_iff.mp hb).1
      exact hnot hb
    exact h (decisive_concat_iff (hother true) (hother false))
  refine ⟨hends, fun hlong => h ?_⟩
  -- a longer streak was decisive one sample earlier
  have hbefore : Ends x (k + 1) l := (ends_concat_iff.mp hlong).2
  cases x with
  | true => exact iff_of_true (decisive_of_ends hk hends) (decisive_of_ends hk hbefore)
  | false => exact iff_of_false (not_decisive_of_ends hk hends) (not_decisive_of_ends hk hbefore)

/-- A streak was one shorter one sample before, and so on. -/
theorem Exactly.take_of_take_add {t e : ℕ} (h : Exactly b (j + e) (l.take (t + e)))
    (hlen : t + e ≤ l.length) : Exactly b j (l.take t) := by
  induction e with
  | zero => exact h
  | succ e ih =>
    rw [← Nat.add_assoc, ← Nat.add_assoc, List.take_succ_eq_append_getElem (by omega),
      exactly_concat_iff] at h
    exact ih h.2 (by omega)

/-- **Two changes of the verdict are `k` samples apart.** -/
theorem changes_apart (hk : 0 < k) {i j : ℕ} (hij : i < j) (hj : j < l.length)
    (hi' : ¬(Decisive k (l.take (i + 1)) ↔ Decisive k (l.take i)))
    (hj' : ¬(Decisive k (l.take (j + 1)) ↔ Decisive k (l.take j))) : i + k ≤ j := by
  rw [List.take_succ_eq_append_getElem (by omega)] at hi' hj'
  have hexi := exactly_of_change hk hi'
  have hexj := exactly_of_change hk hj'
  by_contra hclose
  -- inside the later streak, the one at `i` is shorter than `k`
  obtain ⟨e, rfl⟩ : ∃ e, j = i + e := ⟨j - i, by omega⟩
  obtain ⟨m, rfl⟩ : ∃ m, k = m + 1 + e := ⟨k - e - 1, by omega⟩
  rw [← List.take_succ_eq_append_getElem (by omega), Nat.add_right_comm i e 1] at hexj
  have hback := hexj.take_of_take_add (by omega)
  rw [List.take_succ_eq_append_getElem (by omega)] at hback
  rw [← (exactly_concat_iff.mp hback).1] at hback
  have := hback.unique hexi
  omega

end Streak
