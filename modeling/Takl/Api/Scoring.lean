import Mathlib.Algebra.Order.Ring.Rat
import Mathlib.Tactic.Linarith
import Takl.Api.Handlers
import Takl.Lib.SortSlice

/-!
# Scores (`scoreRunner`, the end of `handleBestRunner`)

A score is exact: the base score of the runner plus a jitter made from one
call of `rand.Float64`, minus the penalty. `sort.Slice` is given by what it
promises (`SortSlice`).
-/

namespace Takl

namespace Api

/-- `ScoredRunner`. -/
structure ScoredRunner where
  runner : Runner
  score : ℚ

/-- `base` in `scoreRunner`. -/
def baseScore (r : Runner) : ℚ :=
  r.availableWorkers.toInt * 10 - r.cpuUtil * 50 - r.memUtil * 30 + r.freeDiskMB.toInt / 1000

/-- `jitter` in `scoreRunner`, of what `rand.Float64` returns. -/
def jitter (draw : ℚ) : ℚ := draw * 10 - 5

/-- `scoreRunner`. -/
def scoreRunner (draw : ℚ) (r : Runner) : ℚ := baseScore r + jitter draw

/-- The loop that fills `scored`; the `i`-th call of `rand.Float64` returns
`draws i`. -/
def scored (draws : ℕ → ℚ) (applyPenalty : Bool) (finalEligible : List Runner) :
    List ScoredRunner :=
  finalEligible.mapIdx fun i rn =>
    { runner := rn
      score := if applyPenalty then scoreRunner (draws i) rn - 1000
        else scoreRunner (draws i) rn }

/-- The `less` of `handleBestRunner`. -/
def ScoredRunner.less (a b : ScoredRunner) : Prop := a.score > b.score

/-- `scored`, sorted. -/
def ranked (S : SortSlice ScoredRunner.less) (draws : ℕ → ℚ) (applyPenalty : Bool)
    (finalEligible : List Runner) : List ScoredRunner :=
  S.sort (scored draws applyPenalty finalEligible)

/-- `handleBestRunner` to its end. -/
def answerBestRunner (S : SortSlice ScoredRunner.less) (draws : ℕ → ℚ) (C : Codec) (st : Store)
    (region : String) (labels : List String) : Except ApiError (List ScoredRunner) :=
  (handleBestRunner C st region labels).map fun (finalEligible, applyPenalty) =>
    ranked S draws applyPenalty finalEligible

theorem map_runner_scored (draws : ℕ → ℚ) (applyPenalty : Bool) (rs : List Runner) :
    (scored draws applyPenalty rs).map ScoredRunner.runner = rs := by
  refine List.ext_getElem? fun i => ?_
  rw [List.getElem?_map, scored, List.getElem?_mapIdx, Option.map_map]
  exact Option.map_id'

/-- Each candidate has a draw of its own. -/
theorem score_of_mem_scored {draws : ℕ → ℚ} {applyPenalty : Bool} {rs : List Runner}
    {x : ScoredRunner} (hx : x ∈ scored draws applyPenalty rs) :
    ∃ i, rs[i]? = some x.runner ∧
      x.score = if applyPenalty then scoreRunner (draws i) x.runner - 1000
        else scoreRunner (draws i) x.runner := by
  obtain ⟨i, hi, rfl⟩ := List.mem_mapIdx.mp hx
  exact ⟨i, List.getElem?_eq_getElem hi, rfl⟩

section Ranked
variable (S : SortSlice ScoredRunner.less) (draws : ℕ → ℚ) (applyPenalty : Bool)
  (rs : List Runner)

theorem map_runner_ranked :
    ((ranked S draws applyPenalty rs).map ScoredRunner.runner).Perm rs := by
  have h := (S.perm (scored draws applyPenalty rs)).map ScoredRunner.runner
  rwa [map_runner_scored] at h

theorem score_of_mem_ranked {x : ScoredRunner} (hx : x ∈ ranked S draws applyPenalty rs) :
    ∃ i, rs[i]? = some x.runner ∧
      x.score = if applyPenalty then scoreRunner (draws i) x.runner - 1000
        else scoreRunner (draws i) x.runner :=
  score_of_mem_scored ((S.perm _).mem_iff.mp hx)

theorem ranked_sorted :
    (ranked S draws applyPenalty rs).Pairwise fun a b => b.score ≤ a.score :=
  (S.sorted (scored draws applyPenalty rs)).imp fun h => not_lt.mp h

end Ranked

/-- Ten points of base score outweigh any two jitters. -/
theorem scoreRunner_lt {d d' : ℚ} (hd : -5 ≤ jitter d) (hd' : jitter d' < 5) {a b : Runner}
    (h : baseScore b + 10 ≤ baseScore a) : scoreRunner d' b < scoreRunner d a := by
  unfold scoreRunner
  linarith

/-- **Jitter only reorders near-equal candidates.** Whatever the jitters in
`[-5, 5)`, the answer is a permutation of the candidates in non-increasing
order of scores, each scored with a draw of its own and the penalty, if there
is one; and a candidate whose base score is at least ten higher than another's
stands before it, with the penalty and without. -/
theorem jitter_reorders_near_equal (S : SortSlice ScoredRunner.less) {draws : ℕ → ℚ}
    (hdraws : ∀ i, -5 ≤ jitter (draws i) ∧ jitter (draws i) < 5) (applyPenalty : Bool)
    (candidates : List Runner) :
    (∀ (C : Codec) (st : Store) (region : String) (labels : List String),
      handleBestRunner C st region labels = .ok (candidates, applyPenalty) →
      answerBestRunner S draws C st region labels = .ok (ranked S draws applyPenalty candidates)) ∧
    ((ranked S draws applyPenalty candidates).map ScoredRunner.runner).Perm candidates ∧
    (∀ x ∈ ranked S draws applyPenalty candidates, ∃ i, candidates[i]? = some x.runner ∧
      x.score = if applyPenalty then scoreRunner (draws i) x.runner - 1000
        else scoreRunner (draws i) x.runner) ∧
    ((ranked S draws applyPenalty candidates).Pairwise fun a b => b.score ≤ a.score) ∧
    ∀ (i j : ℕ) (a b : ScoredRunner), (ranked S draws applyPenalty candidates)[i]? = some a →
      (ranked S draws applyPenalty candidates)[j]? = some b →
      baseScore b.runner + 10 ≤ baseScore a.runner → i < j := by
  refine ⟨?_, map_runner_ranked S draws applyPenalty candidates,
    fun x hx => score_of_mem_ranked S draws applyPenalty candidates hx,
    ranked_sorted S draws applyPenalty candidates, ?_⟩
  · intro C st region labels h
    rw [answerBestRunner, h]
    rfl
  intro i j a b ha hb hbase
  have hlt : b.score < a.score := by
    obtain ⟨k, -, hk⟩ := score_of_mem_ranked S draws applyPenalty candidates
      (List.mem_of_getElem? ha)
    obtain ⟨k', -, hk'⟩ := score_of_mem_ranked S draws applyPenalty candidates
      (List.mem_of_getElem? hb)
    have hscore := scoreRunner_lt (hdraws k).1 (hdraws k').2 hbase
    rw [hk, hk']
    split
    · linarith
    · exact hscore
  by_contra hge
  rw [not_lt] at hge
  rcases hge.eq_or_lt with rfl | hji
  · rw [ha, Option.some_inj] at hb
    exact absurd hlt (hb ▸ lt_irrefl _)
  · -- the order of the answer would be against the scores
    obtain ⟨hi, rfl⟩ := List.getElem?_eq_some_iff.mp ha
    obtain ⟨hj, rfl⟩ := List.getElem?_eq_some_iff.mp hb
    have hsorted := List.pairwise_iff_getElem.mp
      (ranked_sorted S draws applyPenalty candidates) j i hj hi hji
    exact absurd hlt (not_lt.mpr hsorted)

/-- A sort that keeps the promise. -/
def insertionSlice : SortSlice ScoredRunner.less := .descending ScoredRunner.score

/-- A machine with one worker left and half its processor taken. -/
def halfBusy : Runner := { Demo.runner 1 with cpuUtil := 1 / 2, availableWorkers := 1 }

/-- The least jitter for the first candidate, one near the greatest for the
second. -/
def unluckyDraws (i : ℕ) : ℚ := if i = 0 then 0 else 99 / 100

/-- An idle machine is answered before a half busy one, whatever each draws. -/
theorem idle_before_halfBusy :
    baseScore halfBusy + 10 ≤ baseScore (Demo.runner 0) ∧
      ∃ answer, answerBestRunner insertionSlice unluckyDraws (knowing [Demo.runner 0, halfBusy])
          (storeOf (Demo.runner 0) halfBusy) "mars" [] = .ok answer ∧
        (answer.map ScoredRunner.runner).Perm [Demo.runner 0, halfBusy] ∧
        ∀ (i j : ℕ) (a b : ScoredRunner), answer[i]? = some a → answer[j]? = some b →
          a.runner = Demo.runner 0 → b.runner = halfBusy → i < j := by
  have hbase : baseScore halfBusy + 10 ≤ baseScore (Demo.runner 0) := by decide +kernel
  have hdraws : ∀ i, -5 ≤ jitter (unluckyDraws i) ∧ jitter (unluckyDraws i) < 5 := by
    intro i
    unfold unluckyDraws jitter
    split
    · decide +kernel
    · decide +kernel
  have hbest : handleBestRunner (knowing [Demo.runner 0, halfBusy])
      (storeOf (Demo.runner 0) halfBusy) "mars" [] = .ok ([Demo.runner 0, halfBusy], true) := by
    decide +kernel
  obtain ⟨hanswer, hperm, -, -, hbefore⟩ :=
    jitter_reorders_near_equal insertionSlice hdraws true [Demo.runner 0, halfBusy]
  refine ⟨hbase, _, hanswer _ _ _ _ hbest, hperm, fun i j a b ha hb hidle hbusy => ?_⟩
  exact hbefore i j a b ha hb (by rw [hidle, hbusy]; exact hbase)

end Api

end Takl
