import Takl.Api.Labels
import Takl.Api.Scoring

/-!
# Placement (`GET /runners/best`)

`Placed` is the endpoint's purpose, from the live runners and the requested
labels alone: the qualified runners of the region, else all qualified ones at
a penalty, else `404`.

The handler lets more runners through than are qualified. It skips runners
with no worker available but not those with a negative number, and it looks a
label up with the zero value of a Go map, so that a key requested with an empty
value is found on runners that do not have it (`SlipsThrough`). Its answer is
right exactly as long as no such runner decides it (`placed_iff`).
-/

namespace Takl

namespace Api

/-! ## The purpose -/

/-- The live runners whose payload decodes, with the labels the API has set. -/
def liveRunners (C : Codec) (st : Store) : List Runner :=
  (Store.liveRows st.rows kindRunner).filterMap fun r =>
    (C.decodeRunner (Store.scanRow C.toEnv r).payload).map (mergeMetaLabelsOne C.toEnv st)

/-- A `label` parameter. -/
def labelParam (p : String × String) : String := p.1 ++ ":" ++ p.2

/-- Active, with a worker available and every requested label. -/
def qualified (wanted : List (String × String)) (rn : Runner) : Bool :=
  decide (rn.status = .active) && decide (0 < rn.availableWorkers) &&
    wanted.all fun p => decide (Labels.entry rn.labels p.1 = some p)

/-- In the requested region, if there is one. -/
def inRegion (region : String) (rn : Runner) : Bool := region == "" || rn.region == region

/-- The qualified runners. -/
def qualifiedRunners (C : Codec) (st : Store) (wanted : List (String × String)) : List Runner :=
  (liveRunners C st).filter (qualified wanted)

/-- Those in the region. -/
def regionQualified (C : Codec) (st : Store) (region : String) (wanted : List (String × String)) :
    List Runner :=
  (qualifiedRunners C st wanted).filter (inRegion region)

/-- What a request should be answered with. -/
structure Placed (C : Codec) (st : Store) (region : String) (wanted : List (String × String))
    (draws : ℕ → ℚ) (answer : Except ApiError (List ScoredRunner)) : Prop where
  notFound : answer = .error (.notFound "no available runners") ↔ qualifiedRunners C st wanted = []
  /-- The runners of the region, each once. -/
  near : regionQualified C st region wanted ≠ [] → ∃ l, answer = .ok l ∧
    (l.map ScoredRunner.runner).Perm (regionQualified C st region wanted) ∧
    ∀ x ∈ l, ∃ i, x.score = scoreRunner (draws i) x.runner
  /-- None in the region: all of them, each once, at a penalty. -/
  far : qualifiedRunners C st wanted ≠ [] → regionQualified C st region wanted = [] →
    ∃ l, answer = .ok l ∧ (l.map ScoredRunner.runner).Perm (qualifiedRunners C st wanted) ∧
      ∀ x ∈ l, ∃ i, x.score = scoreRunner (draws i) x.runner - 1000
  /-- A runner that lacks a requested label is not returned. -/
  labelled : ∀ l, answer = .ok l → ∀ x ∈ l, ∀ p ∈ wanted, Labels.entry x.runner.labels p.1 = some p

/-! ## What the handler lets through -/

/-- A runner that passes the handler's checks and is not qualified: it has a
negative number of workers available, or lacks a key that is requested with
an empty value. -/
def SlipsThrough (wanted : List (String × String)) (rn : Runner) : Prop :=
  rn.status = .active ∧ rn.availableWorkers ≠ 0 ∧
    (∀ p ∈ wanted, labelValue rn.labels p.1 = p.2) ∧
    (rn.availableWorkers < 0 ∨ ∃ p ∈ wanted, p.2 = "" ∧ Labels.entry rn.labels p.1 = none)

theorem splitLabel_labelParam {p : String × String} (h : ':' ∉ p.1.toList) :
    splitLabel (labelParam p) = some p := by
  have hlist : (labelParam p).toList = p.1.toList ++ ':' :: p.2.toList := by
    simp [labelParam]
  have hall : ∀ c ∈ p.1.toList, (decide (c ≠ ':')) = true := by
    intro c hc
    rw [decide_eq_true_iff]
    rintro rfl
    exact h hc
  have hdrop : (labelParam p).toList.dropWhile (· ≠ ':') = ':' :: p.2.toList := by
    rw [hlist, List.dropWhile_append_of_pos hall, List.dropWhile_cons_of_neg (by simp)]
  have htake : (labelParam p).toList.takeWhile (· ≠ ':') = p.1.toList := by
    rw [hlist, List.takeWhile_append_of_pos hall, List.takeWhile_cons_of_neg (by simp),
      List.append_nil]
  simp only [splitLabel, hdrop, htake, String.ofList_toList]

theorem eligible_iff {wanted : List (String × String)} (hcolon : ∀ p ∈ wanted, ':' ∉ p.1.toList)
    (rn : Runner) :
    eligible (wanted.map labelParam) rn = true ↔
      rn.status = .active ∧ rn.availableWorkers ≠ 0 ∧
        ∀ p ∈ wanted, labelValue rn.labels p.1 = p.2 := by
  have hmatch : matchLabels (wanted.map labelParam) rn = true ↔
      ∀ p ∈ wanted, labelValue rn.labels p.1 = p.2 := by
    rw [matchLabels, List.all_map, List.all_eq_true]
    refine forall₂_congr fun p hp => ?_
    simp [splitLabel_labelParam (hcolon p hp)]
  simp only [eligible, Bool.and_eq_true, decide_eq_true_iff, hmatch, and_assoc]

theorem qualified_iff (wanted : List (String × String)) (rn : Runner) :
    qualified wanted rn = true ↔
      rn.status = .active ∧ 0 < rn.availableWorkers ∧
        ∀ p ∈ wanted, Labels.entry rn.labels p.1 = some p := by
  simp [qualified, and_assoc]

/-- A label that is there is found; one that is not is found as empty. -/
theorem labelValue_eq_iff (labels : Option Labels) (p : String × String) :
    labelValue labels p.1 = p.2 ↔
      Labels.entry labels p.1 = some p ∨ (Labels.entry labels p.1 = none ∧ p.2 = "") := by
  unfold labelValue
  cases hentry : Labels.entry labels p.1 with
  | none =>
    constructor
    · intro h
      exact .inr ⟨rfl, h.symm⟩
    · rintro (h | ⟨-, h⟩)
      · cases h
      · exact h.symm
  | some e =>
    have hkey : e.1 = p.1 := by
      obtain ⟨l, -, hl⟩ := Option.bind_eq_some_iff.mp hentry
      exact (KeyedTable.get_eq_some.mp hl).2
    simp [Prod.ext_iff, hkey]

theorem Int64.ne_zero_iff (a : Int64) : a ≠ 0 ↔ 0 < a ∨ a < 0 := by
  rw [Int64.lt_iff_toInt_lt, Int64.lt_iff_toInt_lt, ne_eq, ← Int64.toInt_inj, Int64.toInt_zero]
  omega

theorem eligible_of_qualified {wanted : List (String × String)}
    (hcolon : ∀ p ∈ wanted, ':' ∉ p.1.toList) {rn : Runner} (h : qualified wanted rn = true) :
    eligible (wanted.map labelParam) rn = true := by
  obtain ⟨hactive, hworkers, hlabels⟩ := (qualified_iff wanted rn).mp h
  refine (eligible_iff hcolon rn).mpr ⟨hactive, (Int64.ne_zero_iff _).mpr (.inl hworkers), ?_⟩
  intro p hp
  exact (labelValue_eq_iff rn.labels p).mpr (.inl (hlabels p hp))

theorem slipsThrough_iff {wanted : List (String × String)}
    (hcolon : ∀ p ∈ wanted, ':' ∉ p.1.toList) (rn : Runner) :
    SlipsThrough wanted rn ↔
      eligible (wanted.map labelParam) rn = true ∧ ¬qualified wanted rn = true := by
  rw [eligible_iff hcolon, qualified_iff]
  constructor
  · rintro ⟨hactive, hworkers, hvalues, hwhy⟩
    refine ⟨⟨hactive, hworkers, hvalues⟩, ?_⟩
    rintro ⟨-, hpos, hlabels⟩
    rcases hwhy with hneg | ⟨p, hp, -, hnone⟩
    · exact absurd hneg (Int64.lt_asymm hpos)
    · rw [hlabels p hp] at hnone
      cases hnone
  · rintro ⟨⟨hactive, hworkers, hvalues⟩, hnot⟩
    refine ⟨hactive, hworkers, hvalues, ?_⟩
    by_contra hwhy
    rw [not_or] at hwhy
    refine hnot ⟨hactive, ((Int64.ne_zero_iff _).mp hworkers).resolve_right hwhy.1, ?_⟩
    intro p hp
    refine ((labelValue_eq_iff rn.labels p).mp (hvalues p hp)).resolve_right ?_
    rintro ⟨hnone, hempty⟩
    exact hwhy.2 ⟨p, hp, hempty, hnone⟩

/-! ## The handler against the purpose -/

/-- The runners the handler goes through are the live ones, in some order. -/
theorem handleRunners_perm (C : Codec) (st : Store) :
    (mergeMetaLabels C.toEnv st (listRunners C st (-1) 0)).Perm (liveRunners C st) := by
  have hlist : listRunners C st (-1) 0 =
      (st.selectLive C.toEnv kindRunner).filterMap fun r => C.decodeRunner r.payload := rfl
  rw [hlist, mergeMetaLabels, Store.selectLive, List.filterMap_map, List.map_filterMap]
  exact (List.perm_insertionSort _ _).filterMap _

/-- The runners the handler lets through, its `allEligible`. -/
def passed (C : Codec) (st : Store) (labels : List String) : List Runner :=
  (mergeMetaLabels C.toEnv st (listRunners C st (-1) 0)).filter (eligible labels)

theorem mem_passed {C : Codec} {st : Store} {labels : List String} {rn : Runner} :
    rn ∈ passed C st labels ↔ rn ∈ liveRunners C st ∧ eligible labels rn = true := by
  rw [passed, List.mem_filter, (handleRunners_perm C st).mem_iff]

/-- Everything the handler can answer, in terms of the runners it lets
through. -/
theorem answerBestRunner_cases (S : SortSlice ScoredRunner.less) (draws : ℕ → ℚ) (C : Codec)
    (st : Store) (region : String) (labels : List String) :
    ((passed C st labels).filter (inRegion region) ≠ [] ∧
      answerBestRunner S draws C st region labels =
        .ok (ranked S draws false ((passed C st labels).filter (inRegion region)))) ∨
    ((passed C st labels).filter (inRegion region) = [] ∧ passed C st labels ≠ [] ∧
      answerBestRunner S draws C st region labels =
        .ok (ranked S draws true (passed C st labels))) ∨
    (passed C st labels = [] ∧ answerBestRunner S draws C st region labels =
      .error (.notFound "no available runners")) := by
  have hhandler : handleBestRunner C st region labels =
      if (passed C st labels).filter (inRegion region) ≠ [] then
        .ok ((passed C st labels).filter (inRegion region), false)
      else if passed C st labels ≠ [] then .ok (passed C st labels, true)
      else .error (.notFound "no available runners") := rfl
  unfold answerBestRunner
  rw [hhandler]
  by_cases hregion : (passed C st labels).filter (inRegion region) = []
  · by_cases hall : passed C st labels = []
    · exact .inr (.inr ⟨hall, by simp [hall, Except.map]⟩)
    · exact .inr (.inl ⟨hregion, hall, by simp [hregion, hall, Except.map]⟩)
  · exact .inl ⟨hregion, by simp [hregion, Except.map]⟩

section Answers
variable {C : Codec} {st : Store} {region : String} {wanted : List (String × String)}
  {draws : ℕ → ℚ} {l : List ScoredRunner}

theorem qualified_of_mem {rn : Runner} (h : rn ∈ qualifiedRunners C st wanted) :
    qualified wanted rn = true :=
  (List.mem_filter.mp h).2

theorem qualifiedRunners_ne_nil (h : regionQualified C st region wanted ≠ []) :
    qualifiedRunners C st wanted ≠ [] := by
  intro hnone
  rw [regionQualified, hnone] at h
  exact h rfl

/-- An answer that lists qualified runners only is right about labels. -/
theorem labelled_of_perm {rs : List Runner} (hperm : (l.map ScoredRunner.runner).Perm rs)
    (hrs : ∀ rn ∈ rs, qualified wanted rn = true) {x : ScoredRunner} (hx : x ∈ l)
    {p : String × String} (hp : p ∈ wanted) : Labels.entry x.runner.labels p.1 = some p := by
  have hmem : x.runner ∈ rs := hperm.mem_iff.mp (List.mem_map_of_mem hx)
  exact ((qualified_iff wanted x.runner).mp (hrs _ hmem)).2.2 p hp

theorem Placed.of_near (hsome : regionQualified C st region wanted ≠ [])
    (hperm : (l.map ScoredRunner.runner).Perm (regionQualified C st region wanted))
    (hscore : ∀ x ∈ l, ∃ i, x.score = scoreRunner (draws i) x.runner) :
    Placed C st region wanted draws (.ok l) where
  notFound := iff_of_false (by simp) (qualifiedRunners_ne_nil hsome)
  near _ := ⟨l, rfl, hperm, hscore⟩
  far _ hnone := absurd hnone hsome
  labelled l' hl' x hx p hp := by
    cases hl'
    exact labelled_of_perm hperm (fun rn hrn => qualified_of_mem (List.mem_of_mem_filter hrn)) hx hp

theorem Placed.of_far (hsome : qualifiedRunners C st wanted ≠ [])
    (hnone : regionQualified C st region wanted = [])
    (hperm : (l.map ScoredRunner.runner).Perm (qualifiedRunners C st wanted))
    (hscore : ∀ x ∈ l, ∃ i, x.score = scoreRunner (draws i) x.runner - 1000) :
    Placed C st region wanted draws (.ok l) where
  notFound := iff_of_false (by simp) hsome
  near hregion := absurd hnone hregion
  far _ _ := ⟨l, rfl, hperm, hscore⟩
  labelled l' hl' x hx p hp := by
    cases hl'
    exact labelled_of_perm hperm (fun rn hrn => qualified_of_mem hrn) hx hp

theorem Placed.of_none (hnone : qualifiedRunners C st wanted = []) :
    Placed C st region wanted draws (.error (.notFound "no available runners")) where
  notFound := iff_of_true rfl hnone
  near hregion := absurd hnone (qualifiedRunners_ne_nil hregion)
  far hsome _ := absurd hnone hsome
  labelled l' hl' := by cases hl'

/-- A right answer lists qualified runners only. -/
theorem Placed.mem_qualified (h : Placed C st region wanted draws (.ok l)) {rn : Runner}
    (hrn : rn ∈ l.map ScoredRunner.runner) : rn ∈ qualifiedRunners C st wanted := by
  have hsome : qualifiedRunners C st wanted ≠ [] := by
    intro hnone
    cases h.notFound.mpr hnone
  by_cases hregion : regionQualified C st region wanted = []
  · obtain ⟨l, hl, hperm, -⟩ := h.far hsome hregion
    cases hl
    exact hperm.mem_iff.mp hrn
  · obtain ⟨l, hl, hperm, -⟩ := h.near hregion
    cases hl
    exact List.mem_of_mem_filter (hperm.mem_iff.mp hrn)

end Answers

section Passed
variable {C : Codec} {st : Store} {region : String} {wanted : List (String × String)}

/-- The qualified runners are among those let through. -/
theorem passed_qualified_perm (hcolon : ∀ p ∈ wanted, ':' ∉ p.1.toList) :
    ((passed C st (wanted.map labelParam)).filter (qualified wanted)).Perm
      (qualifiedRunners C st wanted) := by
  rw [passed, List.filter_filter]
  have hand : ∀ rn, (qualified wanted rn && eligible (wanted.map labelParam) rn) =
      qualified wanted rn := by
    intro rn
    cases hq : qualified wanted rn with
    | true => rw [eligible_of_qualified hcolon hq, Bool.and_true]
    | false => rw [Bool.false_and]
  simp only [hand]
  exact (handleRunners_perm C st).filter _

/-- No runner that slipped through decides the answer: it is outside the
region, where a qualified runner is. -/
def Harmless (C : Codec) (st : Store) (region : String) (wanted : List (String × String)) : Prop :=
  ∀ rn ∈ liveRunners C st, SlipsThrough wanted rn →
    region ≠ "" ∧ rn.region ≠ region ∧ regionQualified C st region wanted ≠ []

theorem harmless_iff (hcolon : ∀ p ∈ wanted, ':' ∉ p.1.toList) :
    Harmless C st region wanted ↔
      ∀ rn ∈ passed C st (wanted.map labelParam), ¬qualified wanted rn = true →
        ¬inRegion region rn = true ∧ regionQualified C st region wanted ≠ [] := by
  have hregion : ∀ rn, ¬inRegion region rn = true ↔ region ≠ "" ∧ rn.region ≠ region := by
    intro rn
    simp [inRegion]
  unfold Harmless
  constructor
  · intro h rn hrn hnot
    obtain ⟨hlive, hpass⟩ := mem_passed.mp hrn
    obtain ⟨h1, h2, h3⟩ := h rn hlive ((slipsThrough_iff hcolon rn).mpr ⟨hpass, hnot⟩)
    exact ⟨(hregion rn).mpr ⟨h1, h2⟩, h3⟩
  · intro h rn hlive hslips
    obtain ⟨hpass, hnot⟩ := (slipsThrough_iff hcolon rn).mp hslips
    obtain ⟨hout, hsome⟩ := h rn (mem_passed.mpr ⟨hlive, hpass⟩) hnot
    obtain ⟨h1, h2⟩ := (hregion rn).mp hout
    exact ⟨h1, h2, hsome⟩

/-- In the region everybody who is let through is qualified. -/
theorem Harmless.region_perm (hcolon : ∀ p ∈ wanted, ':' ∉ p.1.toList)
    (h : Harmless C st region wanted) :
    ((passed C st (wanted.map labelParam)).filter (inRegion region)).Perm
      (regionQualified C st region wanted) := by
  rw [harmless_iff hcolon] at h
  have hkeep : ((passed C st (wanted.map labelParam)).filter (inRegion region)).filter
      (qualified wanted) = (passed C st (wanted.map labelParam)).filter (inRegion region) := by
    rw [List.filter_eq_self]
    intro rn hrn
    obtain ⟨hrn, hin⟩ := List.mem_filter.mp hrn
    by_contra hnot
    exact (h rn hrn hnot).1 hin
  rw [← hkeep, List.filter_comm]
  exact (passed_qualified_perm hcolon).filter _

/-- So is everybody else if nobody in the region is. -/
theorem Harmless.perm (hcolon : ∀ p ∈ wanted, ':' ∉ p.1.toList)
    (h : Harmless C st region wanted) (hnone : regionQualified C st region wanted = []) :
    (passed C st (wanted.map labelParam)).Perm (qualifiedRunners C st wanted) := by
  rw [harmless_iff hcolon] at h
  have hkeep : (passed C st (wanted.map labelParam)).filter (qualified wanted) =
      passed C st (wanted.map labelParam) := by
    rw [List.filter_eq_self]
    intro rn hrn
    by_contra hnot
    exact (h rn hrn hnot).2 hnone
  rw [← hkeep]
  exact passed_qualified_perm hcolon

end Passed

section Handler
variable (S : SortSlice ScoredRunner.less) (draws : ℕ → ℚ) (C : Codec) (st : Store)
  (region : String) {wanted : List (String × String)}

theorem placed_of_harmless (hcolon : ∀ p ∈ wanted, ':' ∉ p.1.toList)
    (hharmless : Harmless C st region wanted) :
    Placed C st region wanted draws
      (answerBestRunner S draws C st region (wanted.map labelParam)) := by
  have hnear := hharmless.region_perm hcolon
  rcases answerBestRunner_cases S draws C st region (wanted.map labelParam) with
    ⟨hsome, hanswer⟩ | ⟨hnone, hsome, hanswer⟩ | ⟨hnone, hanswer⟩
  · rw [hanswer]
    refine .of_near ?_ ((map_runner_ranked S draws false _).trans hnear) ?_
    · intro hc
      rw [hc] at hnear
      exact hsome hnear.eq_nil
    · intro x hx
      obtain ⟨i, -, hscore⟩ := score_of_mem_ranked S draws false _ hx
      exact ⟨i, hscore⟩
  · rw [hnone] at hnear
    have hregion : regionQualified C st region wanted = [] := hnear.symm.eq_nil
    have hall := hharmless.perm hcolon hregion
    rw [hanswer]
    refine .of_far ?_ hregion ((map_runner_ranked S draws true _).trans hall) ?_
    · intro hc
      rw [hc] at hall
      exact hsome hall.eq_nil
    · intro x hx
      obtain ⟨i, -, hscore⟩ := score_of_mem_ranked S draws true _ hx
      exact ⟨i, hscore⟩
  · rw [hanswer]
    have hall : ((passed C st (wanted.map labelParam)).filter (qualified wanted)).Perm
        (qualifiedRunners C st wanted) := passed_qualified_perm hcolon
    rw [hnone] at hall
    exact .of_none hall.symm.eq_nil

theorem harmless_of_placed (hcolon : ∀ p ∈ wanted, ':' ∉ p.1.toList)
    (hplaced : Placed C st region wanted draws
      (answerBestRunner S draws C st region (wanted.map labelParam))) :
    Harmless C st region wanted := by
  rw [harmless_iff hcolon]
  intro rn hrn hnot
  rcases answerBestRunner_cases S draws C st region (wanted.map labelParam) with
    ⟨hsome, hanswer⟩ | ⟨-, -, hanswer⟩ | ⟨hnone, -⟩
  · -- everybody let through in the region is listed, and so is qualified
    rw [hanswer] at hplaced
    have hlisted : ∀ x ∈ (passed C st (wanted.map labelParam)).filter (inRegion region),
        x ∈ qualifiedRunners C st wanted := by
      intro x hx
      exact hplaced.mem_qualified ((map_runner_ranked S draws false _).mem_iff.mpr hx)
    constructor
    · intro hin
      exact hnot (qualified_of_mem (hlisted rn (List.mem_filter.mpr ⟨hrn, hin⟩)))
    · obtain ⟨x, hx⟩ := List.exists_mem_of_ne_nil _ hsome
      exact List.ne_nil_of_mem
        (List.mem_filter.mpr ⟨hlisted x hx, (List.mem_filter.mp hx).2⟩)
  · -- everybody let through is listed, `rn` with them
    rw [hanswer] at hplaced
    have hlisted := hplaced.mem_qualified ((map_runner_ranked S draws true _).mem_iff.mpr hrn)
    exact absurd (qualified_of_mem hlisted) hnot
  · rw [hnone] at hrn
    cases hrn

/-- **When placement is exact.** The answer is the qualified runners of the
region, else all qualified ones at a penalty, else `404`, exactly if every
live runner that slips through the checks is outside the requested region and
some qualified runner is in it. -/
theorem placed_iff (hcolon : ∀ p ∈ wanted, ':' ∉ p.1.toList) :
    Placed C st region wanted draws
        (answerBestRunner S draws C st region (wanted.map labelParam)) ↔
      Harmless C st region wanted :=
  ⟨harmless_of_placed S draws C st region hcolon, placed_of_harmless S draws C st region hcolon⟩

end Handler

/-! ## Concrete requests -/

/-- A runner with a GPU. -/
def gpuRunner : Runner := { Demo.runner 0 with labels := some (Demo.labels "gpu" "a100:80g") }

/-- A label with a colon in its value, and a runner that does not have it. -/
theorem gpu_request_placed :
    Placed (knowing [gpuRunner, Demo.runner 1]) (storeOf gpuRunner (Demo.runner 1)) "us"
      [("gpu", "a100:80g")] unluckyDraws
      (answerBestRunner insertionSlice unluckyDraws (knowing [gpuRunner, Demo.runner 1])
        (storeOf gpuRunner (Demo.runner 1)) "us" [labelParam ("gpu", "a100:80g")]) := by
  have hcolon : ∀ p ∈ [("gpu", "a100:80g")], ':' ∉ p.1.toList := by decide
  have hpass : ∀ rn ∈ liveRunners (knowing [gpuRunner, Demo.runner 1])
      (storeOf gpuRunner (Demo.runner 1)),
      eligible ([("gpu", "a100:80g")].map labelParam) rn = true →
        qualified [("gpu", "a100:80g")] rn = true := by decide +kernel
  refine (placed_iff insertionSlice unluckyDraws _ _ "us" hcolon).mpr fun rn hrn hslips => ?_
  obtain ⟨hel, hnot⟩ := (slipsThrough_iff hcolon rn).mp hslips
  exact absurd (hpass rn hrn hel) hnot

/-- A runner that has taken on one job too many. -/
def overbooked : Runner := { Demo.runner 0 with availableWorkers := -1 }

/-- `label=gpu:` is answered with a runner that has no such label; a runner
with `-1` workers available is answered as well. -/
theorem unqualified_runners_placed :
    (qualifiedRunners (knowing [Demo.runner 0, Demo.runner 1])
        (storeOf (Demo.runner 0) (Demo.runner 1)) [("gpu", "")] = [] ∧
      handleBestRunner (knowing [Demo.runner 0, Demo.runner 1])
        (storeOf (Demo.runner 0) (Demo.runner 1)) "" [labelParam ("gpu", "")] =
          .ok ([Demo.runner 0, Demo.runner 1], false) ∧
      ¬Placed (knowing [Demo.runner 0, Demo.runner 1])
        (storeOf (Demo.runner 0) (Demo.runner 1)) "" [("gpu", "")] unluckyDraws
        (answerBestRunner insertionSlice unluckyDraws (knowing [Demo.runner 0, Demo.runner 1])
          (storeOf (Demo.runner 0) (Demo.runner 1)) "" [labelParam ("gpu", "")])) ∧
    qualifiedRunners (knowing [overbooked]) (storeOf overbooked overbooked) [] = [] ∧
      handleBestRunner (knowing [overbooked]) (storeOf overbooked overbooked) "" [] =
        .ok ([overbooked], false) := by
  have hnone : qualifiedRunners (knowing [Demo.runner 0, Demo.runner 1])
      (storeOf (Demo.runner 0) (Demo.runner 1)) [("gpu", "")] = [] := by decide +kernel
  have hanswer : handleBestRunner (knowing [Demo.runner 0, Demo.runner 1])
      (storeOf (Demo.runner 0) (Demo.runner 1)) "" [labelParam ("gpu", "")] =
        .ok ([Demo.runner 0, Demo.runner 1], false) := by decide +kernel
  refine ⟨⟨hnone, hanswer, fun hplaced => ?_⟩, by decide +kernel, by decide +kernel⟩
  have herror := hplaced.notFound.mpr hnone
  rw [answerBestRunner, hanswer] at herror
  cases herror

end Api

end Takl
