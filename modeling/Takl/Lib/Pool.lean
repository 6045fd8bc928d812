import Mathlib.Algebra.Order.Ring.Nat
import Mathlib.Data.List.Perm.Basic

/-!
# One of many goes on

The goroutines that are under way, in a list: the one at a place goes on, and
then stands there with what it has left to do, or returns, and is taken out.
What is said of all of them is said of this one and of the others.
-/

namespace Pool

variable {α β : Type} {l : List α} {k : Nat} {x : α}

/-- One, and the others. -/
theorem perm_cons_eraseIdx (hk : l[k]? = some x) : l.Perm (x :: l.eraseIdx k) := by
  obtain ⟨hlt, rfl⟩ := List.getElem?_eq_some_iff.mp hk
  exact (List.getElem_cons_eraseIdx_perm hlt).symm

/-- The others stay when one goes on. -/
theorem set_perm_cons (hk : l[k]? = some x) (y : α) : (l.set k y).Perm (y :: l.eraseIdx k) :=
  List.set_perm_cons_eraseIdx (List.getElem?_eq_some_iff.mp hk).1 y

/-! ## What they have together -/

theorem mem_flatMap_place (f : α → List β) (hk : l[k]? = some x) {b : β} :
    b ∈ l.flatMap f ↔ b ∈ f x ∨ b ∈ (l.eraseIdx k).flatMap f := by
  rw [((perm_cons_eraseIdx hk).flatMap_right f).mem_iff, List.flatMap_cons, List.mem_append]

theorem mem_flatMap_set (f : α → List β) (hk : l[k]? = some x) (y : α) {b : β} :
    b ∈ (l.set k y).flatMap f ↔ b ∈ f y ∨ b ∈ (l.eraseIdx k).flatMap f := by
  rw [((set_perm_cons hk y).flatMap_right f).mem_iff, List.flatMap_cons, List.mem_append]

theorem sum_map_place (f : α → Nat) (hk : l[k]? = some x) :
    (l.map f).sum = f x + ((l.eraseIdx k).map f).sum := by
  rw [((perm_cons_eraseIdx hk).map f).sum_nat, List.map_cons, List.sum_cons]

theorem sum_map_set (f : α → Nat) (hk : l[k]? = some x) (y : α) :
    ((l.set k y).map f).sum = f y + ((l.eraseIdx k).map f).sum := by
  rw [((set_perm_cons hk y).map f).sum_nat, List.map_cons, List.sum_cons]

/-- A count, when one of them goes on. -/
theorem countP_set (p : α → Bool) (hk : l[k]? = some x) (y : α) :
    (l.set k y).countP p + (p x).toNat = l.countP p + (p y).toNat := by
  have hplace : l.countP p = (l.eraseIdx k).countP p + (p x).toNat := by
    rw [(perm_cons_eraseIdx hk).countP_eq, List.countP_cons]
    cases p x <;> rfl
  have hset : (l.set k y).countP p = (l.eraseIdx k).countP p + (p y).toNat := by
    rw [(set_perm_cons hk y).countP_eq, List.countP_cons]
    cases p y <;> rfl
  omega

end Pool
