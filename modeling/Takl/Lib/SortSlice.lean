import Mathlib.Data.List.Sort

/-!
# A sort by its promise

`sort.Slice` with a `less` of its caller, or the `ORDER BY` of a query: the
result has the same elements, and none is less than what stands before it.
Neither is stable, so nothing is said of elements that are equal in the order.
-/

structure SortSlice {α : Type} (less : α → α → Prop) where
  sort : List α → List α
  perm : ∀ l, (sort l).Perm l
  sorted : ∀ l, (sort l).Pairwise fun a b => ¬less b a

/-- A sort that keeps the promise, for a descending order. -/
def SortSlice.descending {α β : Type} [LinearOrder β] (f : α → β) :
    SortSlice fun a b => f b < f a where
  sort l := l.insertionSort fun a b => f b ≤ f a
  perm l := List.perm_insertionSort _ l
  sorted l := by
    have : Std.Total fun a b => f b ≤ f a := ⟨fun a b => le_total _ _⟩
    have : IsTrans α fun a b => f b ≤ f a := ⟨fun a b c h h' => h'.trans h⟩
    exact (List.pairwise_insertionSort (fun a b => f b ≤ f a) l).imp not_lt.mpr
