import Takl.Api.Handlers

/-!
# Labels over a request history

The labels of a runner are answered by four endpoints and written by three
operations: the agent's `Step` puts the runner's own labels into its runner
row, and the label endpoints write and delete the API's in the label row.

Over any sequence of these the label row holds the bodies put since the last
`DELETE`, left to right (`holds_exec`), although a deleted row keeps its old
payload. All four endpoints answer the runner's own labels with these written
over them (`Answers`).
-/

namespace Takl

namespace Api

/-! ## The label row over a history -/

/-- The bodies put for `id` and not deleted, after one more operation. -/
def bodiesAfter (id : String) (bodies : List (Option Labels)) : NodeOp → List (Option Labels)
  | .putLabels _ id' (some body) => if id' = id then bodies ++ [body] else bodies
  | .deleteLabels _ id' => if id' = id then [] else bodies
  | _ => bodies

/-- The bodies put for `id` since the last `DELETE`. -/
def bodiesSinceDelete (id : String) (ops : List NodeOp) : List (Option Labels) :=
  ops.foldl (bodiesAfter id) []

/-- An agent or API write stores at most one row, under its target; a runner
row it stores is live. -/
theorem rows_exec (E : Env) (n : Node) {op : NodeOp} (hop : op.IsWrite) :
    (op.exec E n).store.rows = n.store.rows ∨
      ∃ r, (op.exec E n).store.rows = n.store.rows.upsert r ∧ op.target = some r.id ∧
        (r.kind = kindRunner → r.tombstone = false ∧ r.payload ≠ some []) := by
  rcases op.exec_cases E n with h | h
  · rw [h]
    exact .inl rfl
  · have heff := h.rows
    generalize (op.exec E n).store.rows = t at heff ⊢
    cases heff with
    | same => exact .inl rfl
    | @put _ r b _ htarget _ _ hlive hpayload hb =>
      exact .inr ⟨r, rfl, htarget, fun _ => ⟨hlive, by simpa [hpayload] using hb⟩⟩
    | delete => exact .inr ⟨_, rfl, rfl, fun hkind => absurd hkind.symm kindRunner_ne_kindMeta⟩
    | prune => exact absurd hop not_false
    | collect => exact absurd hop not_false

/-- It leaves the other keys alone. -/
theorem get_exec_of_ne (E : Env) (n : Node) {op : NodeOp} (hop : op.IsWrite) {kind : Kind}
    {key : String} (hne : op.target ≠ some (kind, key)) :
    (op.exec E n).store.get E kind key = n.store.get E kind key := by
  rcases rows_exec E n hop with h | ⟨r, h, htarget, -⟩
  · rw [Store.get, Store.get, h]
  · refine Store.get_of_upsert_ne h fun hid => hne ?_
    rw [htarget, hid]

/-- No write takes a runner row away. -/
theorem live_exec {E : Env} {n : Node} {id : String} (hlive : n.store.Live E id) {op : NodeOp}
    (hop : op.IsWrite) : (op.exec E n).store.Live E id := by
  obtain ⟨r, hr, hdead⟩ := hlive
  rcases rows_exec E n hop with h | ⟨r', h, -, hrunner⟩
  · exact ⟨r, by rw [Store.get, h]; exact hr, hdead⟩
  · by_cases hid : r'.id = (kindRunner, id)
    · obtain ⟨hkind, hkey⟩ := Prod.mk.inj hid
      obtain ⟨hdead', hpayload⟩ := hrunner hkind
      have hget : (op.exec E n).store.get E r'.kind r'.key = some r' :=
        Store.get_of_upsert h hpayload
      rw [hkind, hkey] at hget
      exact ⟨r', hget, hdead'⟩
    · exact ⟨r, (Store.get_of_upsert_ne h hid).trans hr, hdead⟩

/-- A `PUT` writes its body over what is held. -/
theorem holds_putLabels {E : Env} (hjson : E.LabelsReadBack) {n : Node} {id : String} {l : Labels}
    (hlive : n.store.Live E id) (h : n.store.Holds E id l) (now : Int64) (body : Option Labels) :
    (n.handleUpdateLabels E now id (some body)).1.store.Holds E id (l.update body) := by
  obtain ⟨r, hr, hdead⟩ := hlive
  obtain ⟨l', hl', hsame⟩ := Node.storedLabels_of_holds hjson h
  obtain ⟨st, hput, hholds, -⟩ := Node.call_labelsRow E (n.tick now).2 (n.tick now).2 id
    (l'.update body) (n.tick now).1
  simp only [Node.handleUpdateLabels, hr, hdead, Bool.false_eq_true, if_false, hl',
    Node.mergeLabels_some, hput]
  exact hholds.congr (hsame.symm.update body)

/-- After a `DELETE` nothing is held, whether there was a row or not. -/
theorem holds_deleteLabels {E : Env} {n : Node} {id : String} {l : Labels}
    (h : n.store.Holds E id l) (now : Int64) :
    (n.handleDeleteLabels E now id).1.store.Holds E id .empty := by
  suffices ∀ r, (n.handleDeleteLabels E now id).1.store.get E kindMeta id = some r →
      r.tombstone = true from .nothing this (.refl _)
  unfold Node.handleDeleteLabels
  rcases Node.call_cases (n.tick now).2 fun st =>
    st.delete E kindMeta id (n.tick now).2.apiOwner (n.tick now).1 with
    ⟨st, hok, hst⟩ | ⟨e, herr, hst⟩
  · -- the row is there, as a tombstone
    simp only [hst]
    intro r hr
    obtain ⟨x, hx, rfl⟩ := Option.map_eq_some_iff.mp hr
    rw [(Store.upsert_ok hok).1] at hx
    have hself := KeyedTable.get_upsert_self n.store.rows
      (Store.tombstoneRow kindMeta id (n.tick now).2.apiOwner (n.tick now).1
        (n.store.deletePayload E kindMeta id))
    cases hself.symm.trans hx
    rfl
  · -- the payload was NULL, so the row that stays is not a marshalled map
    simp only [hst]
    intro r hr
    cases h with
    | nothing hrow => exact hrow r hr
    | row hrow _ hpayload =>
      have hpay : n.store.deletePayload E kindMeta id ≠ none := by
        simp [Store.deletePayload, hrow, hpayload]
      obtain ⟨st, hst'⟩ := Store.upsert_total n.store
        (r := Store.tombstoneRow kindMeta id (n.tick now).2.apiOwner (n.tick now).1
          (n.store.deletePayload E kindMeta id)) hpay
      cases hst'.symm.trans herr

/-- **What the label row holds after a write.** -/
theorem holds_exec {E : Env} (hjson : E.LabelsReadBack) {n : Node} {id : String}
    {bodies : List (Option Labels)} (hlive : n.store.Live E id)
    (h : n.store.Holds E id (Labels.updateAll .empty bodies)) {op : NodeOp} (hop : op.IsWrite) :
    (op.exec E n).store.Holds E id (Labels.updateAll .empty (bodiesAfter id bodies op)) := by
  by_cases htarget : op.target = some (kindMeta, id)
  · cases op with
    | start | step =>
      exact absurd (Prod.mk.inj (Option.some.inj htarget)).1 kindRunner_ne_kindMeta
    | putLabels now id' body =>
      cases htarget
      cases body with
      | none =>
        -- a body that is no label map is answered `400`
        obtain ⟨r, hr, hdead⟩ := hlive
        simpa [NodeOp.exec, Node.handleUpdateLabels, hr, hdead, bodiesAfter] using h
      | some body =>
        rw [bodiesAfter, if_pos rfl, Labels.updateAll_append]
        exact holds_putLabels hjson hlive h now body
    | deleteLabels now id' =>
      cases htarget
      rw [bodiesAfter, if_pos rfl]
      exact holds_deleteLabels h now
    | member | gc => cases hop
  · have hbodies : bodiesAfter id bodies op = bodies := by
      cases op with
      | putLabels now id' body =>
        have hid : id' ≠ id := fun heq => htarget (by rw [heq]; rfl)
        cases body with
        | none => rfl
        | some body => rw [bodiesAfter, if_neg hid]
      | deleteLabels now id' =>
        have hid : id' ≠ id := fun heq => htarget (by rw [heq]; rfl)
        rw [bodiesAfter, if_neg hid]
      | start | step | member | gc => rfl
    rw [hbodies]
    exact h.of_get_eq (get_exec_of_ne E n hop htarget)

/-- The whole history. -/
theorem holds_run {E : Env} (hjson : E.LabelsReadBack) {n : Node} {id : String}
    (hlive : n.store.Live E id) {bodies : List (Option Labels)}
    (h : n.store.Holds E id (Labels.updateAll .empty bodies)) {ops : List NodeOp}
    (hops : ∀ op ∈ ops, op.IsWrite) :
    (ops.foldl (NodeOp.exec E) n).store.Live E id ∧
      (ops.foldl (NodeOp.exec E) n).store.Holds E id
        (Labels.updateAll .empty (ops.foldl (bodiesAfter id) bodies)) := by
  induction ops generalizing n bodies with
  | nil => exact ⟨hlive, h⟩
  | cons op ops ih =>
    have hop := hops op List.mem_cons_self
    exact ih (live_exec hlive hop) (holds_exec hjson hlive h hop)
      fun op' hop' => hops op' (List.mem_cons_of_mem op hop')

/-! ## What the endpoints answer -/

/-- The runner comes with these labels; no map is no label. -/
def Labelled (r : Runner) (l : Labels) : Prop := (r.labels.getD .empty).Same l

/-- All four endpoints answer the labels `l` for the runner `id`. -/
structure Answers (C : Codec) (st : Store) (id : String) (l : Labels) : Prop where
  labels : ∃ l', handleGetLabels C st id = .ok l' ∧ l'.Same l
  runner : ∃ r, handleRunner C st id = .ok r ∧ r.runnerID = id ∧ Labelled r l
  listed : ∃ r ∈ handleRunners C st none none, r.runnerID = id
  runners : ∀ limit offset, ∀ r ∈ handleRunners C st limit offset, r.runnerID = id → Labelled r l
  candidates : ∀ region labels rs penalty,
    handleBestRunner C st region labels = .ok (rs, penalty) →
      ∀ r ∈ rs, r.runnerID = id → Labelled r l

/-- `runner` is what the row under `id` decodes to, that is its `runner_id`,
and no live row under another key has it. -/
structure StoredUnderID (C : Codec) (st : Store) (id : String) (runner : Runner) : Prop where
  row : ∃ r ∈ st.get C.toEnv kindRunner id, r.tombstone = false ∧
    C.decodeRunner r.payload = some runner
  runnerID : runner.runnerID = id
  only : ∀ key, ∀ r ∈ st.get C.toEnv kindRunner key, r.tombstone = false →
    ∀ x ∈ C.decodeRunner r.payload, x.runnerID = id → key = id

/-- What both merges read from the label row. -/
theorem extraLabels_of_holds {E : Env} (hjson : E.LabelsReadBack) {st : Store} {id : String}
    {l : Labels} (h : st.Holds E id l) :
    (st.extraLabels E id = none ∧ l.Same .empty) ∨
      ∃ m, st.extraLabels E id = some (some m) ∧ m.Same l := by
  unfold Store.extraLabels
  cases h with
  | nothing hrow h =>
    refine .inl ⟨?_, h⟩
    split
    · next r hr => rw [if_pos (hrow r hr)]
    · rfl
  | @row m r hrow hlive hpayload h =>
    obtain ⟨l', hread, hsame⟩ := hjson none m
    refine .inr ⟨l', ?_, (hsame.trans (Labels.empty_setAll m)).trans h.symm⟩
    simp [hrow, hlive, hpayload, hread]

/-- Both merges write it over the labels they have. -/
theorem setAll_of_holds {E : Env} (hjson : E.LabelsReadBack) {st : Store} {id : String}
    {l : Labels} (h : st.Holds E id l) (own : Labels) :
    (match st.extraLabels E id with
      | some extra => own.update extra
      | none => own).Same (own.setAll l) := by
  rcases extraLabels_of_holds hjson h with ⟨hextra, hempty⟩ | ⟨m, hextra, hsame⟩
  · rw [hextra]
    exact (Labels.Same.setAll (.refl own) hempty).symm
  · rw [hextra]
    exact .setAll (.refl own) hsame

theorem labelled_mergeMetaLabelsOne {E : Env} (hjson : E.LabelsReadBack) {st : Store}
    {id : String} {l : Labels} (h : st.Holds E id l) {x : Runner} (hx : x.runnerID = id) :
    Labelled (mergeMetaLabelsOne E st x) ((x.labels.getD .empty).setAll l) := by
  have hmerge := setAll_of_holds hjson h (x.labels.getD .empty)
  unfold mergeMetaLabelsOne Labelled
  rw [hx]
  split
  · next hextra => simpa [hextra] using hmerge
  · next extra hextra => simpa [hextra] using hmerge

section Answers
variable {C : Codec} {st : Store} {id : String} {runner : Runner}

theorem handleGetLabels_of_stored (hjson : C.toEnv.LabelsReadBack)
    (hown : StoredUnderID C st id runner) {l : Labels} (h : st.Holds C.toEnv id l) :
    ∃ l', handleGetLabels C st id = .ok l' ∧ l'.Same ((runner.labels.getD .empty).setAll l) := by
  obtain ⟨r, hr, hdead, hdec⟩ := hown.row
  have hrow : st.get C.toEnv kindRunner id = some r := hr
  have hmerge := setAll_of_holds hjson h (Labels.update .empty runner.labels)
  have hcopy : Labels.Same (Labels.update .empty runner.labels) (runner.labels.getD .empty) :=
    Labels.empty_setAll _
  simp only [handleGetLabels, hrow, hdead, hdec, Bool.false_eq_true, if_false]
  split
  · next extra hextra =>
    rw [hextra] at hmerge
    exact ⟨_, rfl, hmerge.trans (hcopy.setAll (.refl l))⟩
  · next hextra =>
    rw [hextra] at hmerge
    exact ⟨_, rfl, hmerge.trans (hcopy.setAll (.refl l))⟩

theorem handleRunner_of_stored (hown : StoredUnderID C st id runner) :
    handleRunner C st id = .ok (mergeMetaLabelsOne C.toEnv st runner) := by
  obtain ⟨r, hr, hdead, hdec⟩ := hown.row
  have hrow : st.get C.toEnv kindRunner id = some r := hr
  simp [handleRunner, hrow, hdead, hdec]

/-- The runner with that id in any page is the one stored under it. -/
theorem eq_of_mem_listRunners (hown : StoredUnderID C st id runner) {limit offset : Int}
    {x : Runner} (hx : x ∈ listRunners C st limit offset) (hid : x.runnerID = id) :
    x = runner := by
  obtain ⟨r, hr, hdec⟩ := List.mem_filterMap.mp hx
  obtain ⟨r₀, hr₀, hkind, hdead, rfl⟩ := mem_selectLive.mp (mem_selectLive_of_list hr)
  have hget := Store.get_of_mem C.toEnv hr₀ (Prod.ext hkind rfl : r₀.id = (kindRunner, r₀.key))
  have hkey := hown.only r₀.key _ hget hdead x hdec hid
  obtain ⟨r', hr', -, hdec'⟩ := hown.row
  rw [hkey] at hget
  cases hget.symm.trans hr'
  exact Option.some.inj (hdec.symm.trans hdec')

theorem mem_listRunners (hown : StoredUnderID C st id runner) :
    runner ∈ listRunners C st (-1) 0 := by
  obtain ⟨r, hr, hdead, hdec⟩ := hown.row
  obtain ⟨r₀, hr₀, rfl⟩ := Option.map_eq_some_iff.mp hr
  obtain ⟨hmem, hid⟩ := KeyedTable.get_eq_some.mp hr₀
  refine List.mem_filterMap.mpr ⟨Store.scanRow C.toEnv r₀, ?_, hdec⟩
  have hkind : r₀.kind = kindRunner := congrArg Prod.fst hid
  exact mem_selectLive.mpr ⟨r₀, hmem, hkind, hdead, rfl⟩

/-- **One map for all four endpoints.** -/
theorem answers_of_stored (hjson : C.toEnv.LabelsReadBack) (hown : StoredUnderID C st id runner)
    {l : Labels} (h : st.Holds C.toEnv id l) :
    Answers C st id ((runner.labels.getD .empty).setAll l) := by
  have hmerge := labelled_mergeMetaLabelsOne hjson h hown.runnerID
  have hrunners : ∀ limit offset, ∀ r ∈ handleRunners C st limit offset, r.runnerID = id →
      Labelled r ((runner.labels.getD .empty).setAll l) := by
    intro limit offset r hr hid
    obtain ⟨x, hx, rfl⟩ := List.mem_map.mp hr
    rw [mergeMetaLabelsOne_runnerID] at hid
    rw [eq_of_mem_listRunners hown hx hid]
    exact hmerge
  constructor
  · exact handleGetLabels_of_stored hjson hown h
  · refine ⟨_, handleRunner_of_stored hown, ?_, hmerge⟩
    rw [mergeMetaLabelsOne_runnerID, hown.runnerID]
  · refine ⟨_, List.mem_map_of_mem (mem_listRunners hown), ?_⟩
    rw [mergeMetaLabelsOne_runnerID, hown.runnerID]
  · exact hrunners
  · intro region labels rs penalty hbest r hr hid
    exact hrunners none none r (mem_of_handleBestRunner hbest hr) hid

/-- A label request leaves every runner row where it is. -/
theorem StoredUnderID.exec {n : Node} (hown : StoredUnderID C n.store id runner) {op : NodeOp}
    (hop : op.IsWrite) (hkind : ∀ key, op.target ≠ some (kindRunner, key)) :
    StoredUnderID C (op.exec C.toEnv n).store id runner := by
  have hget (key : String) := get_exec_of_ne C.toEnv n hop (hkind key)
  constructor
  · rw [hget id]
    exact hown.row
  · exact hown.runnerID
  · intro key
    rw [hget key]
    exact hown.only key

end Answers

/-- **The labels of a runner after any history of label requests and agent
steps**: its own with the bodies put since the last `DELETE` written over
them, from each endpoint, whatever is then put or deleted for another id. -/
theorem labels_of_history (C : Codec) (hjson : C.toEnv.LabelsReadBack) {n : Node} {id : String}
    (hlive : n.store.Live C.toEnv id) (hnone : n.store.Holds C.toEnv id .empty)
    {ops : List NodeOp} (hops : ∀ op ∈ ops, op.IsWrite) {runner : Runner}
    (hown : StoredUnderID C (ops.foldl (NodeOp.exec C.toEnv) n).store id runner) :
    Answers C (ops.foldl (NodeOp.exec C.toEnv) n).store id
        ((runner.labels.getD .empty).setAll (.updateAll .empty (bodiesSinceDelete id ops))) ∧
      ∀ now id' body, id' ≠ id → ∀ op ∈ [NodeOp.putLabels now id' body, .deleteLabels now id'],
        Answers C (op.exec C.toEnv (ops.foldl (NodeOp.exec C.toEnv) n)).store id
          ((runner.labels.getD .empty).setAll (.updateAll .empty (bodiesSinceDelete id ops))) := by
  have hnone' : n.store.Holds C.toEnv id (Labels.updateAll .empty []) := hnone
  obtain ⟨-, hholds⟩ := holds_run hjson hlive hnone' hops
  refine ⟨answers_of_stored hjson hown hholds, ?_⟩
  intro now id' body hne op hop
  have hwrite : op.IsWrite ∧ op.target = some (kindMeta, id') := by
    rcases List.mem_pair.mp hop with rfl | rfl <;> exact ⟨trivial, rfl⟩
  obtain ⟨hwrite, htarget⟩ := hwrite
  have hmeta : op.target ≠ some (kindMeta, id) := by
    rw [htarget]
    exact fun h => hne (Prod.mk.inj (Option.some.inj h)).2
  have hrunner (key : String) : op.target ≠ some (kindRunner, key) := by
    rw [htarget]
    exact fun h => kindRunner_ne_kindMeta (Prod.mk.inj (Option.some.inj h)).1.symm
  exact answers_of_stored hjson (hown.exec hwrite hrunner)
    (hholds.of_get_eq (get_exec_of_ne C.toEnv _ hwrite hmeta))

/-! ## A concrete history -/

/-- A runner that reports a label of its own. -/
def reported (v : String) : Runner :=
  { Demo.runner 0 with labels := some (Demo.labels "role" v) }

/-- The node of that runner, which the API has not labelled yet. -/
def reporting : Node :=
  NodeOp.exec .escaping (.fresh (Demo.nodeID 0) Demo.epoch "10.0.0.0:7001")
    (.start 10 (reported "worker"))

/-- Put, deleted and put again, with a step of the agent in between. -/
def requests : List NodeOp :=
  [.putLabels 11 (Demo.nodeID 0) (some (some (Demo.labels "env" "prod"))),
    .deleteLabels 12 (Demo.nodeID 0),
    .step 13 (reported "spare"),
    .putLabels 14 (Demo.nodeID 0) (some (some (Demo.labels "gpu" "a100"))),
    .putLabels 15 (Demo.nodeID 0) (some (some (Demo.labels "role" "batch")))]

/-- The two payloads that are decoded are those the agent writes. -/
def codec : Codec := knowing [reported "worker", reported "spare"]

/-- Neither the deleted label nor the agent's old one comes back. -/
theorem labels_of_requests :
    Answers codec (requests.foldl (NodeOp.exec .escaping) reporting).store (Demo.nodeID 0)
        (Labels.setAll (Demo.labels "role" "spare")
          (.updateAll .empty (bodiesSinceDelete (Demo.nodeID 0) requests))) ∧
      ∀ now id' body, id' ≠ Demo.nodeID 0 →
        ∀ op ∈ [NodeOp.putLabels now id' body, .deleteLabels now id'],
          Answers codec
            (op.exec .escaping (requests.foldl (NodeOp.exec .escaping) reporting)).store
            (Demo.nodeID 0)
            (Labels.setAll (Demo.labels "role" "spare")
              (.updateAll .empty (bodiesSinceDelete (Demo.nodeID 0) requests))) := by
  have hnone : reporting.store.get .escaping kindMeta (Demo.nodeID 0) = none := by decide +kernel
  have hrows : ∀ r ∈ (requests.foldl (NodeOp.exec .escaping) reporting).store.rows,
      r.kind = kindRunner → r.key = Demo.nodeID 0 := by decide +kernel
  have hown : StoredUnderID codec (requests.foldl (NodeOp.exec .escaping) reporting).store
      (Demo.nodeID 0) (reported "spare") := by
    refine ⟨by decide +kernel, rfl, ?_⟩
    intro key r hr _ _ _ _
    obtain ⟨r₀, hr₀, -⟩ := Option.map_eq_some_iff.mp hr
    obtain ⟨hmem, hid⟩ := KeyedTable.get_eq_some.mp hr₀
    exact (congrArg Prod.snd hid).symm.trans (hrows r₀ hmem (congrArg Prod.fst hid))
  exact labels_of_history codec Env.escaping_labelsReadBack (by decide +kernel)
    (.nothing (by simp [show codec.toEnv = Env.escaping from rfl, hnone]) (.refl _))
    (by decide +kernel) hown

example :
    (Labels.setAll (Demo.labels "role" "spare")
      (.updateAll .empty (bodiesSinceDelete (Demo.nodeID 0) requests))).rows =
    [("role", "batch"), ("gpu", "a100")] := by decide +kernel

end Api

end Takl
