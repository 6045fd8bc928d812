import Mathlib.Data.String.Basic

/-!
# Texts of the configuration

What `main` and its callees do to the texts they are configured with: blanks
around them are dropped, and lists are taken apart at their commas.
-/

namespace Takl

namespace Daemon

/-- `unicode.IsSpace`. -/
def isSpace (c : Char) : Bool :=
  let n := c.toNat
  decide (9 ≤ n ∧ n ≤ 13) || decide (0x2000 ≤ n ∧ n ≤ 0x200a) ||
    [0x20, 0x85, 0xa0, 0x1680, 0x2028, 0x2029, 0x202f, 0x205f, 0x3000].contains n

/-- `strings.TrimSpace`. -/
def trimSpace (s : String) : String :=
  String.ofList ((s.toList.dropWhile isSpace).reverse.dropWhile isSpace).reverse

/-- Leading blanks are dropped up to the first character of the text. -/
theorem dropWhile_blanks {l t r : List Char} (hl : ∀ c ∈ l, isSpace c = true)
    (ht : ∀ c ∈ t, isSpace c = false) (hne : t ≠ []) :
    (l ++ (t ++ r)).dropWhile isSpace = t ++ r := by
  cases t with
  | nil => exact absurd rfl hne
  | cons c t =>
    have hc : ¬isSpace c = true := by simp [ht c]
    rw [List.dropWhile_append_of_pos hl, List.cons_append, List.dropWhile_cons_of_neg hc]

theorem trimSpace_blanks {l t r : List Char} (hl : ∀ c ∈ l, isSpace c = true)
    (hr : ∀ c ∈ r, isSpace c = true) (ht : ∀ c ∈ t, isSpace c = false) (hne : t ≠ []) :
    trimSpace (String.ofList (l ++ (t ++ r))) = String.ofList t := by
  have hr' : ∀ c ∈ r.reverse, isSpace c = true := fun c hc => hr c (List.mem_reverse.mp hc)
  have ht' : ∀ c ∈ t.reverse, isSpace c = false := fun c hc => ht c (List.mem_reverse.mp hc)
  have hback := dropWhile_blanks (r := []) hr' ht' (List.reverse_ne_nil_iff.mpr hne)
  rw [trimSpace, String.toList_ofList, dropWhile_blanks hl ht hne, List.reverse_append,
    ← List.append_nil t.reverse, hback, List.append_nil, List.reverse_reverse]

/-- `strings.Split(s, ",")`. -/
def splitComma (s : String) : List String := (s.toList.splitOn ',').map String.ofList

/-- `compactList`. -/
def compactList (l : List String) : List String := (l.map trimSpace).filter fun v => decide (v ≠ "")

end Daemon

end Takl
