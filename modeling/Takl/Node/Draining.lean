import Takl.Lib.Streak
import Takl.Node.Effect

/-!
# Self-draining (`Agent.Step`)

The two counters and the flag of the agent against the history of its
samples: a counter is the length of the current streak, the flag the verdict
of the last decisive one (`AgentState.Tracks`). `Step` writes the verdict as
the status of the runner's row.
-/

namespace Takl

open Streak (Ends Decisive)

namespace AgentState

/-- The agent's fields as functions of the samples so far, hot ones `true`. -/
structure Tracks (l : List Bool) (a : AgentState) : Prop where
  high : ∀ k, Ends true k l ↔ k ≤ a.highMetricsCount
  normal : ∀ k, Ends false k l ↔ k ≤ a.normalMetricsCount
  draining : a.isDraining = true ↔ Decisive 5 l

theorem tracks_new : Tracks [] .new where
  high k := by rw [Streak.ends_nil_iff, new, Nat.le_zero]
  normal k := by rw [Streak.ends_nil_iff, new, Nat.le_zero]
  draining := iff_of_false Bool.false_ne_true (Streak.not_decisive_nil (by omega))

/-- A hot sample lengthens the hot streak and can only turn draining on. -/
theorem observe_hot (a : AgentState) :
    a.observe true =
      ⟨a.highMetricsCount + 1, 0, decide (5 ≤ a.highMetricsCount + 1) || a.isDraining⟩ := by
  by_cases h : 5 ≤ a.highMetricsCount + 1
  · simp [observe, h]
  · simp [observe, h]

/-- A normal sample lengthens the normal streak and can only turn it off. -/
theorem observe_normal (a : AgentState) :
    a.observe false =
      ⟨0, a.normalMetricsCount + 1, !decide (5 ≤ a.normalMetricsCount + 1) && a.isDraining⟩ := by
  by_cases h : 5 ≤ a.normalMetricsCount + 1
  · simp [observe, h]
  · simp [observe, h]

theorem Tracks.observe {l : List Bool} {a : AgentState} (h : Tracks l a) (hot : Bool) :
    Tracks (l ++ [hot]) (a.observe hot) := by
  cases hot with
  | true =>
    have hhigh := Streak.ends_concat_self h.high
    have hnormal := Streak.ends_concat_other (b := false) (by decide : true ≠ false) l
    rw [observe_hot]
    refine ⟨hhigh, hnormal, ?_⟩
    -- five in a row decide, fewer leave the verdict as it was
    by_cases hfive : 5 ≤ a.highMetricsCount + 1
    · have hends := (hhigh 5).mpr hfive
      simp [hfive, Streak.decisive_of_ends (by omega) hends]
    · have hverdict := Streak.decisive_concat_iff (mt (hhigh 5).mp hfive)
        (mt (hnormal 5).mp (by omega))
      simp [hfive, h.draining, hverdict]
  | false =>
    have hnormal := Streak.ends_concat_self h.normal
    have hhigh := Streak.ends_concat_other (b := true) (by decide : false ≠ true) l
    rw [observe_normal]
    refine ⟨hhigh, hnormal, ?_⟩
    by_cases hfive : 5 ≤ a.normalMetricsCount + 1
    · have hends := (hnormal 5).mpr hfive
      simp [hfive, Streak.not_decisive_of_ends (by omega) hends]
    · have hverdict := Streak.decisive_concat_iff (mt (hhigh 5).mp (by omega))
        (mt (hnormal 5).mp hfive)
      simp [hfive, h.draining, hverdict]

theorem tracks_foldl (l : List Bool) : Tracks l (l.foldl AgentState.observe .new) := by
  induction l using List.reverseRecOn with
  | nil => exact tracks_new
  | append_singleton l hot ih =>
    rw [List.foldl_append]
    exact ih.observe hot

theorem status_eq_draining_iff (a : AgentState) : a.status = .draining ↔ a.isDraining = true := by
  unfold status
  cases a.isDraining <;> decide

/-- The agent's status is one of the two it gives. -/
theorem status_cases (a : AgentState) : a.status = .active ∨ a.status = .draining := by
  unfold status
  split
  · exact .inr rfl
  · exact .inl rfl

theorem status_eq_iff (a a' : AgentState) :
    a.status = a'.status ↔ (a.isDraining = true ↔ a'.isDraining = true) := by
  unfold status
  cases a.isDraining <;> cases a'.isDraining <;> decide

end AgentState

namespace Node

/-- `Step` after `Step`, each with its wall-clock reading and the snapshot it
takes. -/
def steps (E : Env) (n : Node) (ss : List (Int64 × Runner)) : Node :=
  ss.foldl (fun n s => (n.step E s.1 s.2).1) n

/-- How the samples were classified. -/
def hots (ss : List (Int64 × Runner)) : List Bool := ss.map fun s => s.2.isHot

theorem steps_agent (E : Env) (n : Node) (ss : List (Int64 × Runner)) :
    (n.steps E ss).agent = (hots ss).foldl AgentState.observe n.agent := by
  unfold steps hots
  induction ss generalizing n with
  | nil => rfl
  | cons s ss ih =>
    obtain ⟨st, hst, -⟩ := step_spec E n s.1 s.2
    rw [List.foldl_cons, List.map_cons, List.foldl_cons, ih, hst]

/-- The row under the runner's key after a last `Step`. -/
theorem get_steps_concat (E : Env) (n : Node) (ss : List (Int64 × Runner)) (now : Int64)
    (snapshot : Runner) :
    ∃ r, (n.steps E (ss ++ [(now, snapshot)])).store.rows.get (kindRunner, snapshot.key) = some r ∧
      r.tombstone = false ∧
      r.payload = some (E.encodeRunner
        { snapshot with status := (n.steps E (ss ++ [(now, snapshot)])).agent.status }) := by
  unfold steps
  rw [List.foldl_append]
  obtain ⟨st, hst, hrows, -⟩ := step_spec E (n.steps E ss) now snapshot
  refine ⟨(n.steps E ss).stepRow E now snapshot, ?_, rfl, ?_⟩
  · change ((n.steps E ss).step E now snapshot).1.store.rows.get _ = _
    rw [hst]
    change st.rows.get _ = _
    rw [hrows]
    exact KeyedTable.get_upsert_self _ _
  · change _ = some (E.encodeRunner
      { snapshot with status := ((n.steps E ss).step E now snapshot).1.agent.status })
    rw [hst]
    rfl

/-- **Self-draining follows the last decisive streak.** After `Start` in a new
process, each `Step` writes its runner's row with the agent's status. That
status is `draining` exactly if some five hot samples in a row have not been
followed by five normal ones in a row, and two changes of it are at least five
`Step`s apart. -/
theorem draining_follows_last_streak (E : Env) {n : Node} (hnew : n.agent = .new)
    (now₀ : Int64) (snapshot₀ : Runner) (m : Node) (hm : m = (n.start E now₀ snapshot₀).1) :
    m.agent.status = .active ∧
    (∀ (ss : List (Int64 × Runner)) (now : Int64) (snapshot : Runner),
      ∃ r status, (m.steps E (ss ++ [(now, snapshot)])).store.rows.get
          (kindRunner, snapshot.key) = some r ∧
        r.tombstone = false ∧ r.payload = some (E.encodeRunner { snapshot with status }) ∧
        status = (m.steps E (ss ++ [(now, snapshot)])).agent.status ∧
        (status = .draining ↔ Decisive 5 (hots (ss ++ [(now, snapshot)]))) ∧
        (status = .draining ∨ status = .active)) ∧
    ∀ (ss : List (Int64 × Runner)) (i j : ℕ), i < j → j < ss.length →
      (m.steps E (ss.take (i + 1))).agent.status ≠ (m.steps E (ss.take i)).agent.status →
      (m.steps E (ss.take (j + 1))).agent.status ≠ (m.steps E (ss.take j)).agent.status →
      i + 5 ≤ j := by
  have hagent : m.agent = .new := by
    obtain ⟨st, hst, -⟩ := start_spec E n now₀ snapshot₀
    rw [hm, hst]
    exact hnew
  have htracks : ∀ ss, AgentState.Tracks (hots ss) (m.steps E ss).agent := by
    intro ss
    rw [steps_agent, hagent]
    exact AgentState.tracks_foldl (hots ss)
  refine ⟨by rw [hagent]; rfl, fun ss now snapshot => ?_, fun ss i j hij hj hi' hj' => ?_⟩
  · obtain ⟨r, hr, hlive, hpayload⟩ := get_steps_concat E m ss now snapshot
    refine ⟨r, _, hr, hlive, hpayload, rfl, ?_, ?_⟩
    · rw [AgentState.status_eq_draining_iff, (htracks _).draining]
    · unfold AgentState.status
      split
      · exact .inl rfl
      · exact .inr rfl
  · have htake : ∀ t, hots (ss.take t) = (hots ss).take t := fun t => List.map_take
    rw [Ne, AgentState.status_eq_iff, (htracks _).draining, (htracks _).draining, htake,
      htake] at hi' hj'
    have hj : j < (hots ss).length := by simpa [hots] using hj
    exact Streak.changes_apart (by omega) hij hj hi' hj'

/-- A snapshot of a busy machine. -/
def busy : Runner := { Demo.runner 1 with cpuUtil := 1 }

/-- A new node that starts and takes five hot samples: the row of its fifth
`Step` says `draining`. -/
theorem fifth_hot_sample_drains :
    ∃ r, (((fresh "n1" Demo.epoch "10.0.0.1:8100").start Env.escapeFree 1 (Demo.runner 1)).1.steps
        Env.escapeFree ([(2, busy), (3, busy), (4, busy), (5, busy)] ++ [(6, busy)])).store.rows.get
          (kindRunner, busy.key) = some r ∧
      r.payload = some (Env.escapeFree.encodeRunner { busy with status := .draining }) := by
  have hfresh : (fresh "n1" Demo.epoch "10.0.0.1:8100").agent = .new := rfl
  obtain ⟨-, hwritten, -⟩ :=
    draining_follows_last_streak Env.escapeFree hfresh 1 (Demo.runner 1) _ rfl
  obtain ⟨r, status, hr, -, hpayload, -, hiff, -⟩ :=
    hwritten [(2, busy), (3, busy), (4, busy), (5, busy)] 6 busy
  have hhots : hots ([(2, busy), (3, busy), (4, busy), (5, busy)] ++ [(6, busy)]) =
      [] ++ List.replicate 5 true ++ [] := by decide +kernel
  have hstatus : status = .draining := hiff.mpr ⟨[], 5, [], hhots, le_rfl, by decide⟩
  rw [hstatus] at hpayload
  exact ⟨r, hr, hpayload⟩

end Node

end Takl
