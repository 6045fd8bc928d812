import Takl.Node.Labels

/-!
# The reading handlers (`internal/api`)

`GET /runners/{id}/labels`, `/runners/{id}`, `/runners` and `/runners/best`,
as functions of the store they read. The first merges the API's labels over
the runner's own itself; the other three go through `mergeMetaLabelsOne`,
which looks the label row up under the `runner_id` of the payload.

A best-runner answer lists its candidates in the order of their scores, which
have a random part; here it is the candidates and whether the penalty for a
missed region was applied.
-/

namespace Takl

/-- An `Env` that also decodes runners. -/
structure Codec extends Env where
  /-- `model.Decode[model.Runner]`; `none` is an error. -/
  decodeRunner : Option Bytes → Option Runner

/-- An answer other than `200`. -/
inductive ApiError where
  | notFound (text : String)
  /-- `writeError` for a payload that does not decode. -/
  | internal
  deriving DecidableEq, Repr

namespace Store

/-- `ORDER BY key` over the live rows of a kind. -/
def selectLive (E : Env) (st : Store) (kind : Kind) : List Row :=
  ((liveRows st.rows kind).insertionSort fun a b => a.key ≤ b.key).map (scanRow E)

/-- `Store.List` without filters, for a callback that never stops: the rows
it is called with. -/
def list (E : Env) (st : Store) (kind : Kind) (limit offset : Int) : List Row :=
  if limit > 0 then ((st.selectLive E kind).drop offset.toNat).take limit.toNat
  else if limit = -1 ∧ offset > 0 then (st.selectLive E kind).drop offset.toNat
  else st.selectLive E kind

/-- `var extra map[string]string` read from the label row; `none` when there
is no live one or it does not decode. -/
def extraLabels (E : Env) (st : Store) (id : String) : Option (Option Labels) :=
  match st.get E kindMeta id with
  | some row =>
      if row.tombstone then none
      else match E.decodeLabels none row.payload with
        | (extra, true) => some extra
        | (_, false) => none
  | none => none

end Store

namespace Api

/-- `handleGetLabels`. -/
def handleGetLabels (C : Codec) (st : Store) (id : String) : Except ApiError Labels :=
  match st.get C.toEnv kindRunner id with
  | none => .error (.notFound "runner not found")
  | some runnerRow =>
      if runnerRow.tombstone then .error (.notFound "runner not found")
      else
        let labels : Labels := .empty
        let labels :=
          match C.decodeRunner runnerRow.payload with
          | some runner => labels.update runner.labels
          | none => labels
        match st.extraLabels C.toEnv id with
        | some extra => .ok (labels.update extra)
        | none => .ok labels

/-- `mergeMetaLabelsOne`. -/
def mergeMetaLabelsOne (E : Env) (st : Store) (runner : Runner) : Runner :=
  match st.extraLabels E runner.runnerID with
  | none => runner
  | some extra => { runner with labels := some ((runner.labels.getD .empty).update extra) }

/-- `mergeMetaLabels`. -/
def mergeMetaLabels (E : Env) (st : Store) (runners : List Runner) : List Runner :=
  runners.map (mergeMetaLabelsOne E st)

/-- `handleRunner`. -/
def handleRunner (C : Codec) (st : Store) (id : String) : Except ApiError Runner :=
  match st.get C.toEnv kindRunner id with
  | none => .error (.notFound "runner not found")
  | some row =>
      if row.tombstone then .error (.notFound "runner not found")
      else match C.decodeRunner row.payload with
        | none => .error .internal
        | some item => .ok (mergeMetaLabelsOne C.toEnv st item)

/-- `listRunners`: a payload that does not decode is skipped. -/
def listRunners (C : Codec) (st : Store) (limit offset : Int) : List Runner :=
  (st.list C.toEnv kindRunner limit offset).filterMap fun r => C.decodeRunner r.payload

/-- `parsePagination`, of the two parameters as numbers; `none` is one that
is not there or is no number. -/
def parsePagination (limit offset : Option Int) : Int × Int :=
  ((limit.filter (0 < ·)).getD (-1), (offset.filter (0 ≤ ·)).getD 0)

/-- `handleRunners`. -/
def handleRunners (C : Codec) (st : Store) (limit offset : Option Int) : List Runner :=
  let (limit, offset) := parsePagination limit offset
  mergeMetaLabels C.toEnv st (listRunners C st limit offset)

/-- `strings.SplitN(lbl, ":", 2)`, if that has two parts. -/
def splitLabel (lbl : String) : Option (String × String) :=
  match lbl.toList.dropWhile (· ≠ ':') with
  | [] => none
  | _ :: rest => some (String.ofList (lbl.toList.takeWhile (· ≠ ':')), String.ofList rest)

/-- `labels[k]`: the zero value when there is no such entry. -/
def labelValue (labels : Option Labels) (k : String) : String :=
  ((Labels.entry labels k).map Prod.snd).getD ""

/-- `matchLabels` at the end of its loop. -/
def matchLabels (labels : List String) (rn : Runner) : Bool :=
  labels.all fun lbl =>
    match splitLabel lbl with
    | some (k, v) => labelValue rn.labels k == v
    | none => true

/-- The runner is appended to `allEligible`. -/
def eligible (labels : List String) (rn : Runner) : Bool :=
  decide (rn.status = .active) && decide (rn.availableWorkers ≠ 0) && matchLabels labels rn

/-- `handleBestRunner` up to the scores: `finalEligible` and `applyPenalty`. -/
def handleBestRunner (C : Codec) (st : Store) (region : String) (labels : List String) :
    Except ApiError (List Runner × Bool) :=
  let runners := mergeMetaLabels C.toEnv st (listRunners C st (-1) 0)
  let allEligible := runners.filter (eligible labels)
  let regionEligible := allEligible.filter fun rn => region == "" || rn.region == region
  if regionEligible ≠ [] then .ok (regionEligible, false)
  else if allEligible ≠ [] then .ok (allEligible, true)
  else .error (.notFound "no available runners")

/-! ## What the handlers find -/

section Found
variable {C : Codec} {st : Store}

theorem mem_selectLive {E : Env} {st : Store} {kind : Kind} {r : Row} :
    r ∈ st.selectLive E kind ↔
      ∃ x ∈ st.rows, x.kind = kind ∧ x.tombstone = false ∧ Store.scanRow E x = r := by
  simp [Store.selectLive, Store.liveRows, KeyedTable.mem_def, and_assoc]

/-- A page holds rows of the list. -/
theorem mem_selectLive_of_list {E : Env} {st : Store} {kind : Kind} {limit offset : Int} {r : Row}
    (h : r ∈ st.list E kind limit offset) : r ∈ st.selectLive E kind := by
  simp only [Store.list] at h
  split_ifs at h
  · exact List.mem_of_mem_drop (List.mem_of_mem_take h)
  · exact List.mem_of_mem_drop h
  · exact h

@[simp] theorem mergeMetaLabelsOne_runnerID (E : Env) (st : Store) (runner : Runner) :
    (mergeMetaLabelsOne E st runner).runnerID = runner.runnerID := by
  unfold mergeMetaLabelsOne
  split <;> rfl

/-- A candidate has been listed. -/
theorem mem_of_handleBestRunner {region : String} {labels : List String} {rs : List Runner}
    {penalty : Bool} (h : handleBestRunner C st region labels = .ok (rs, penalty)) {r : Runner}
    (hr : r ∈ rs) : r ∈ handleRunners C st none none := by
  simp only [handleBestRunner] at h
  split_ifs at h
  · cases h
    exact List.mem_of_mem_filter (List.mem_of_mem_filter hr)
  · cases h
    exact List.mem_of_mem_filter hr

end Found

/-! ## Concrete stores -/

/-- `Env.escaping`, and the payloads of the given runners decoded. -/
def knowing (runners : List Runner) : Codec :=
  { Env.escaping with
    decodeRunner := fun payload =>
      runners.find? fun r => decide (payload = some (Env.escaping.encodeRunner r)) }

/-- The store of a node whose agent has written the rows of two runners. -/
def storeOf (a b : Runner) : Store :=
  (NodeOp.exec .escaping (NodeOp.exec .escaping
    (.fresh (Demo.nodeID 0) Demo.epoch "10.0.0.0:7001") (.start 10 a)) (.step 11 b)).store

end Api

end Takl
