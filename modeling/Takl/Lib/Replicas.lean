import Mathlib.Data.Set.Insert
import Mathlib.Logic.Function.Basic
import Takl.Lib.LastWriteWins

/-!
# Replicas that learn writes

The abstract form of a replicated table: each replica has learnt a set of
writes. It learns a write of its own, whose version is greater than those it
knows for the key, or any writes that another replica has learnt. Nothing is
ever unlearnt, and how messages travel is left open.

`Holds` says that a concrete table stands for what a replica has learnt: it
holds learnt writes only, and covers all of them. Then it holds the greatest
of each key (`Holds.mem_iff`), and two replicas that have learnt the same hold
the same (`Holds.get_eq`).
-/

namespace Replicas

open KeyedTable (Covers Greatest Consistent)

variable {ι α κ ν : Type} [LinearOrder ν]

/-- What each replica has learnt. -/
abbrev Knowledge (ι α : Type) := ι → Set α

/-- Replica `i` learns `S`. -/
def learn [DecidableEq ι] (K : Knowledge ι α) (i : ι) (S : Set α) : Knowledge ι α :=
  Function.update K i (K i ∪ S)

section Steps
variable [DecidableEq ι] (ver : α → ν) (key : α → κ)

/-- What can happen to the replicas. -/
inductive Step (K : Knowledge ι α) : Knowledge ι α → Prop
  | stay : Step K K
  | write {i : ι} {x : α} (hnew : ∀ y ∈ K i, key y = key x → ver y < ver x) :
      Step K (learn K i {x})
  | receive {i : ι} {S : Set α} (hS : ∀ x ∈ S, ∃ j, x ∈ K j) : Step K (learn K i S)

/-- The replicas have come from knowing nothing. -/
inductive Reachable : Knowledge ι α → Prop
  | start : Reachable fun _ => ∅
  | step {K K' : Knowledge ι α} : Reachable K → Step ver key K K' → Reachable K'

end Steps

section Learn
variable [DecidableEq ι] {K : Knowledge ι α} {i j : ι} {S : Set α} {x : α}

theorem mem_learn : x ∈ learn K i S j ↔ x ∈ K j ∨ (j = i ∧ x ∈ S) := by
  by_cases hj : j = i
  · subst hj
    simp [learn]
  · simp [learn, hj]

theorem exists_mem_learn : (∃ j, x ∈ learn K i S j) ↔ (∃ j, x ∈ K j) ∨ x ∈ S := by
  simp only [mem_learn, exists_or]
  exact or_congr_right ⟨fun ⟨_, _, hx⟩ => hx, fun hx => ⟨i, rfl, hx⟩⟩

end Learn

/-- A table that stands for what a replica has learnt. -/
structure Holds (ver : α → ν) {key : α → κ} (S : Set α) (t : KeyedTable key) : Prop where
  known : ∀ x ∈ t, x ∈ S
  covered : ∀ x ∈ S, Covers ver t x

/-- It holds the greatest of each key. -/
theorem Holds.mem_iff {ver : α → ν} {key : α → κ} {S : Set α} {t : KeyedTable key}
    (h : Holds ver S t) (hS : Consistent ver key (· ∈ S)) (x : α) :
    x ∈ t ↔ Greatest ver key (· ∈ S) x :=
  KeyedTable.mem_iff_greatest hS h.known h.covered x

/-- **Equal knowledge, equal tables.** -/
theorem Holds.get_eq [DecidableEq κ] {ver : α → ν} {key : α → κ} {S : Set α}
    {t t' : KeyedTable key} (h : Holds ver S t) (h' : Holds ver S t')
    (hS : Consistent ver key (· ∈ S)) (k : κ) : t.get k = t'.get k :=
  KeyedTable.get_eq_of_mem_iff (fun x => (h.mem_iff hS x).trans (h'.mem_iff hS x).symm) k

end Replicas
