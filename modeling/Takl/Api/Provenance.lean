import Takl.Api.Handlers

/-!
# Where an answer comes from

A live runner row carries a snapshot an agent once took, with the status the
agent then gave it; a live label row carries entries that were once sent for
that runner. `Row.Authentic` says so of a row, for the operations `P` performed
so far, wherever they were performed and in whatever state of the agent. Every
operation keeps it of its node's table (`Store.Authentic.exec`); how rows travel
is another matter.

From such a table the endpoints answer reports with sent labels over them
(`Runner.Shown`), and none of them finds a payload it cannot read.
-/

namespace Takl

/-- What `json.Unmarshal` makes of a marshalled runner: the same, up to an
empty label map, which is not written (`omitempty`). -/
def Codec.ReadsBack (C : Codec) (x : Runner) : Prop :=
  ∃ y, C.decodeRunner (some (C.encodeRunner x)) = some y ∧ { y with labels := x.labels } = x ∧
    ∀ k, Labels.entry y.labels k = Labels.entry x.labels k

/-- An operation, and the agent of its node at the time. -/
structure NodeCall where
  agent : AgentState
  op : NodeOp

namespace NodeCall

/-- The runner an operation encodes into its node's row, with the status the
agent gives it. -/
def reports : NodeCall → List Runner
  | ⟨_, .start _ snapshot⟩ => [{ snapshot with status := .active }]
  | ⟨agent, .step _ snapshot⟩ =>
      [{ snapshot with status := (agent.observe snapshot.isHot).status }]
  | ⟨_, .putLabels ..⟩ | ⟨_, .deleteLabels ..⟩ | ⟨_, .member ..⟩ | ⟨_, .gc ..⟩ => []

/-- The label map an operation sends for the runner `id`. -/
def sends (id : String) (c : NodeCall) : Option Labels :=
  match c.op with
  | .putLabels _ id' (some body) => if id' = id then body else none
  | _ => none

end NodeCall

section Tables
variable (E : Env) (P : NodeCall → Prop)

/-- Each entry was sent for the runner `id`. -/
def Labels.SentFor (id : String) (l : Labels) : Prop :=
  ∀ k e, l.get k = some e → ∃ c, P c ∧ Labels.entry (c.sends id) k = some e

/-- If the row is live, its payload is a report, or a map that was sent. -/
structure Row.Authentic (r : Row) : Prop where
  runner : r.kind = kindRunner → r.tombstone = false →
    ∃ c x, P c ∧ x ∈ c.reports ∧ x.key = r.key ∧ r.payload = some (E.encodeRunner x)
  labels : r.kind = kindMeta → r.tombstone = false →
    ∃ l, r.payload = some (E.encodeLabels (some l)) ∧ Labels.SentFor P r.key l

def Store.Authentic (st : Store) : Prop := ∀ r ∈ st.rows, r.Authentic E P

end Tables

variable {E : Env} {P : NodeCall → Prop}

/-- A tombstone claims nothing. -/
theorem Row.authentic_of_tombstone {r : Row} (h : r.tombstone = true) : r.Authentic E P where
  runner _ hlive := absurd (h.symm.trans hlive) Bool.noConfusion
  labels _ hlive := absurd (h.symm.trans hlive) Bool.noConfusion

theorem Row.authentic_runnerRow {n : Node} {c : NodeCall} {x : Runner} (hc : P c)
    (hx : x ∈ c.reports) (hlc : HLC) : (n.runnerRow E x hlc).Authentic E P where
  runner _ _ := ⟨c, x, hc, hx, rfl, rfl⟩
  labels hkind := absurd hkind kindRunner_ne_kindMeta

theorem Row.authentic_labelsRow {n : Node} {id : String} {l : Labels} (h : Labels.SentFor P id l)
    (hlc : HLC) : (n.labelsRow E id (some l) hlc).Authentic E P where
  runner hkind := absurd hkind.symm kindRunner_ne_kindMeta
  labels _ _ := ⟨l, rfl, h⟩

/-- A live runner row, as it is scanned. -/
theorem Row.Authentic.runner_scanned {r : Row} (h : r.Authentic E P) (hkind : r.kind = kindRunner)
    (hlive : r.tombstone = false) :
    ∃ c x, P c ∧ x ∈ c.reports ∧ x.key = r.key ∧
      (Store.scanRow E r).payload = some (E.encodeRunner x) := by
  obtain ⟨c, x, hc, hx, hkey, hpay⟩ := h.runner hkind hlive
  have hne : r.payload ≠ some [] := by simpa [hpay] using E.encodeRunner_ne_nil x
  exact ⟨c, x, hc, hx, hkey, by rw [Store.scanRow_eq_self E hne, hpay]⟩

namespace Store.Authentic

variable {st st' : Store}

theorem upsert (h : st.Authentic E P) {r : Row} (hr : r.Authentic E P)
    (hrows : st'.rows = st.rows.upsert r) : st'.Authentic E P := by
  intro x hx
  rw [hrows] at hx
  rcases KeyedTable.mem_upsert.mp hx with rfl | ⟨hx, -⟩
  · exact hr
  · exact h x hx

/-! ## What the readings find -/

/-- A live label row, as it is scanned. -/
theorem labels_of_get (h : st.Authentic E P) {id : String} {r : Row}
    (hr : st.get E kindMeta id = some r) (hlive : r.tombstone = false) :
    ∃ l, r.payload = some (E.encodeLabels (some l)) ∧ Labels.SentFor P id l := by
  obtain ⟨x, hx, rfl⟩ := Option.map_eq_some_iff.mp hr
  obtain ⟨hmem, hid⟩ := KeyedTable.get_eq_some.mp hx
  obtain ⟨hkind, hkey⟩ := Prod.mk.inj hid
  obtain ⟨l, hpay, hsent⟩ := (h x hmem).labels hkind hlive
  have hne : x.payload ≠ some [] := by simpa [hpay] using E.encodeLabels_ne_nil (some l)
  exact ⟨l, by rw [scanRow_eq_self E hne, hpay], hkey ▸ hsent⟩

/-- What a `PUT` starts from is never the nil map. -/
theorem storedLabels (hjson : E.LabelsReadBack) (h : st.Authentic E P) (id : String) :
    ∃ l, Node.storedLabels E st id = some l ∧ Labels.SentFor P id l := by
  have hempty : Labels.SentFor P id .empty := by
    intro k e he
    cases he
  unfold Node.storedLabels
  split
  · next r hr =>
    split
    · exact ⟨.empty, rfl, hempty⟩
    · next hlive =>
      obtain ⟨l, hpay, hsent⟩ := h.labels_of_get hr (by simpa using hlive)
      obtain ⟨l', hread, hsame⟩ := hjson (some .empty) l
      refine ⟨l', by rw [hpay, hread], fun k e he => hsent k e ?_⟩
      rwa [hsame k, Option.getD_some, Labels.empty_setAll l k] at he
  · exact ⟨.empty, rfl, hempty⟩

/-- The labels merged over a runner were sent for it. -/
theorem extraLabels (hjson : E.LabelsReadBack) (h : st.Authentic E P) {id : String}
    {extra : Option Labels} (hx : st.extraLabels E id = some extra) {k : String}
    {e : String × String} (he : Labels.entry extra k = some e) :
    ∃ c, P c ∧ Labels.entry (c.sends id) k = some e := by
  unfold Store.extraLabels at hx
  split at hx
  · next r hr =>
    split at hx
    · cases hx
    · next hlive =>
      obtain ⟨l, hpay, hsent⟩ := h.labels_of_get hr (by simpa using hlive)
      obtain ⟨l', hread, hsame⟩ := hjson none l
      rw [hpay, hread] at hx
      cases hx
      refine hsent k e ?_
      have hl' : l'.get k = some e := he
      rwa [hsame k, Option.getD_none, Labels.empty_setAll l k] at hl'
  · cases hx

end Store.Authentic

/-! ## A `PUT` -/

/-- What a `PUT` does to a table whose label rows can be read. -/
inductive Node.LabelsUpdated (E : Env) (n : Node) (now : Int64) (id : String) (l : Labels) :
    Option (Option Labels) → Node × Option Reply → Prop
  | notFound (body : Option (Option Labels)) (h : ¬n.store.Live E id) :
      LabelsUpdated E n now id l body (n, some ⟨404, .error "runner not found"⟩)
  | invalid (h : n.store.Live E id) :
      LabelsUpdated E n now id l none
        (n, some ⟨400, .error "invalid json: expected \x7b\"key\": \"value\", ...\x7d"⟩)
  | put (h : n.store.Live E id) (incoming : Option Labels) {st : Store}
      (hrows : st.rows = n.store.rows.upsert
        (n.labelsRow E id (some (l.update incoming)) (n.clock.tick now).1))
      (hevents : st.events = n.store.events) :
      LabelsUpdated E n now id l (some incoming)
        ({ n with store := st, clock := (n.clock.tick now).2 },
          some ⟨200, .labels (some (l.update incoming))⟩)

theorem Node.updateLabels_spec (n : Node) (now : Int64) {id : String}
    (body : Option (Option Labels)) {l : Labels} (hl : storedLabels E n.store id = some l) :
    n.LabelsUpdated E now id l body (n.handleUpdateLabels E now id body) := by
  unfold handleUpdateLabels
  split
  · next hnone =>
    refine .notFound body ?_
    rintro ⟨r, hr, -⟩
    cases hnone.symm.trans hr
  · next r hr =>
    split
    · next hdead =>
      refine .notFound body ?_
      rintro ⟨r', hr', hlive⟩
      cases hr.symm.trans hr'
      exact Bool.noConfusion (hdead.symm.trans hlive)
    · next hlive =>
      have hlive : n.store.Live E id := ⟨r, hr, by simpa using hlive⟩
      cases body with
      | none => exact .invalid hlive
      | some incoming =>
        obtain ⟨st, hst, hrows, hevents, -⟩ := call_put (n.tick now).2
          (r := (n.tick now).2.labelsRow E id (some (l.update incoming)) (n.tick now).1)
          (Option.some_ne_none _)
        simp only [hl, mergeLabels_some, hst]
        exact .put hlive incoming hrows hevents

/-! ## Every operation keeps the table authentic -/

/-- What was stored, with a sent map written over it. -/
theorem Labels.SentFor.update {id : String} {l : Labels} (h : Labels.SentFor P id l)
    {agent : AgentState} {now : Int64} {incoming : Option Labels}
    (hop : P ⟨agent, .putLabels now id (some incoming)⟩) :
    Labels.SentFor P id (l.update incoming) := by
  intro k e he
  rw [Labels.get_update] at he
  rcases Option.or_eq_some_iff.mp he with he | ⟨-, he⟩
  · exact ⟨_, hop, by simpa [NodeCall.sends] using he⟩
  · exact h k e he

theorem Store.Authentic.exec (hjson : E.LabelsReadBack) {n : Node} (h : n.store.Authentic E P)
    {op : NodeOp} (hop : P ⟨n.agent, op⟩) : (op.exec E n).store.Authentic E P := by
  cases op with
  | start now snapshot =>
    obtain ⟨st, hst, hrows, -⟩ := n.start_spec E now snapshot
    simp only [NodeOp.exec, hst]
    exact h.upsert (Row.authentic_runnerRow hop (List.mem_singleton_self _) _) hrows
  | step now snapshot =>
    obtain ⟨st, hst, hrows, -⟩ := n.step_spec E now snapshot
    simp only [NodeOp.exec, hst]
    exact h.upsert (Row.authentic_runnerRow hop (List.mem_singleton_self _) _) hrows
  | putLabels now id body =>
    obtain ⟨l, hl, hsent⟩ := h.storedLabels hjson id
    have hspec := n.updateLabels_spec now body hl
    simp only [NodeOp.exec]
    generalize n.handleUpdateLabels E now id body = res at hspec ⊢
    cases hspec with
    | notFound => exact h
    | invalid => exact h
    | put _ incoming hrows => exact h.upsert (Row.authentic_labelsRow (hsent.update hop) _) hrows
  | deleteLabels now id =>
    simp only [NodeOp.exec, Node.handleDeleteLabels]
    rcases Node.call_cases (n.tick now).2 fun st =>
      st.delete E kindMeta id (n.tick now).2.apiOwner (n.tick now).1 with
      ⟨st, hok, hst⟩ | ⟨e, -, hst⟩
    · simp only [hst]
      exact h.upsert (Row.authentic_of_tombstone rfl) (Store.upsert_ok hok).1
    · simp only [hst]
      exact h
  | member now ev =>
    intro r hr
    simp only [NodeOp.exec] at hr
    have heff := (n.membership_stamped E now ev).rows
    generalize (n.handleMembershipEvent E now ev).store.rows = t at heff hr
    cases heff with
    | same => exact h r hr
    | put hwrite => exact absurd hwrite not_false
    | prune =>
      rcases Store.mem_deleteByNode.mp hr with ⟨x, -, -, rfl⟩ | ⟨hr, -⟩
      · exact Row.authentic_of_tombstone rfl
      · exact h r hr
  | gc now => exact fun r hr => h r (Store.mem_gcTombstones.mp hr).1

/-! ## What the endpoints answer -/

namespace Runner

/-- The runner is a report, but for labels; and these are of that report or
were sent for it. -/
def Shown (P : NodeCall → Prop) (y : Runner) : Prop :=
  ∃ c x, P c ∧ x ∈ c.reports ∧ { y with labels := x.labels } = x ∧
    ∀ k e, Labels.entry y.labels k = some e → Labels.entry x.labels k = some e ∨
      ∃ c', P c' ∧ Labels.entry (c'.sends y.runnerID) k = some e

end Runner

namespace Api

section Answers
variable {C : Codec} {st : Store}

/-- A report that was read back, with the stored labels over it. -/
theorem shown_mergeMetaLabelsOne (hjson : C.LabelsReadBack) (h : st.Authentic C.toEnv P)
    {c : NodeCall} {x y : Runner} (hc : P c) (hx : x ∈ c.reports)
    (hy : { y with labels := x.labels } = x)
    (hlabels : ∀ k, Labels.entry y.labels k = Labels.entry x.labels k) :
    (mergeMetaLabelsOne C.toEnv st y).Shown P := by
  unfold mergeMetaLabelsOne
  split
  · exact ⟨c, x, hc, hx, hy, fun k e he => .inl (hlabels k ▸ he)⟩
  · next extra hextra =>
    refine ⟨c, x, hc, hx, hy, fun k e he => ?_⟩
    have he : ((y.labels.getD .empty).update extra).get k = some e := he
    rw [Labels.get_update] at he
    rcases Option.or_eq_some_iff.mp he with he | ⟨-, he⟩
    · exact .inr (h.extraLabels hjson hextra he)
    · rw [Labels.get_getD_empty, hlabels k] at he
      exact .inl he

/-- What a live runner row is answered as. -/
theorem shown_of_mem (hjson : C.LabelsReadBack) (h : st.Authentic C.toEnv P)
    (hread : ∀ c x, P c → x ∈ c.reports → C.ReadsBack x) {r : Row} (hr : r ∈ st.rows)
    (hkind : r.kind = kindRunner) (hlive : r.tombstone = false) :
    ∃ y, C.decodeRunner (Store.scanRow C.toEnv r).payload = some y ∧ y.runnerID = r.key ∧
      (mergeMetaLabelsOne C.toEnv st y).Shown P := by
  obtain ⟨c, x, hc, hx, hkey, hpay⟩ := (h r hr).runner_scanned hkind hlive
  obtain ⟨y, hdec, hy, hlabels⟩ := hread c x hc hx
  refine ⟨y, by rw [hpay, hdec], ?_, shown_mergeMetaLabelsOne hjson h hc hx hy hlabels⟩
  calc y.runnerID = { y with labels := x.labels }.runnerID := rfl
    _ = x.key := congrArg Runner.runnerID hy
    _ = r.key := hkey

/-- `GET /runners/{id}`, by the row it finds. -/
theorem handleRunner_cases (hjson : C.LabelsReadBack) (h : st.Authentic C.toEnv P)
    (hread : ∀ c x, P c → x ∈ c.reports → C.ReadsBack x) (id : String) :
    (¬st.Live C.toEnv id ∧
        handleRunner C st id = .error (.notFound "runner not found")) ∨
      ∃ r ∈ st.rows, r.id = (kindRunner, id) ∧ r.tombstone = false ∧
        ∃ y, C.decodeRunner (Store.scanRow C.toEnv r).payload = some y ∧ y.runnerID = id ∧
          (mergeMetaLabelsOne C.toEnv st y).Shown P ∧
          handleRunner C st id = .ok (mergeMetaLabelsOne C.toEnv st y) := by
  unfold handleRunner
  cases hget : st.get C.toEnv kindRunner id with
  | none =>
    refine .inl ⟨?_, rfl⟩
    rintro ⟨r, hr, -⟩
    cases hget.symm.trans hr
  | some row =>
    obtain ⟨r, hr, rfl⟩ := Option.map_eq_some_iff.mp hget
    obtain ⟨hmem, hid⟩ := KeyedTable.get_eq_some.mp hr
    cases hdead : r.tombstone with
    | true =>
      refine .inl ⟨?_, by simp [Store.scanRow, hdead]⟩
      rintro ⟨x, hx, hlive⟩
      cases hget.symm.trans hx
      exact Bool.noConfusion (hdead.symm.trans hlive)
    | false =>
      obtain ⟨hkind, hkey⟩ := Prod.mk.inj hid
      obtain ⟨y, hdec, hy, hshown⟩ := shown_of_mem hjson h hread hmem hkind hdead
      have hlive : (Store.scanRow C.toEnv r).tombstone = false := hdead
      refine .inr ⟨r, hmem, hid, hdead, y, hdec, hy.trans hkey, hshown, ?_⟩
      simp only [hlive, hdec, Bool.false_eq_true, if_false]

/-- A fetch fails for the runners that are not live, and for no others. -/
theorem handleRunner_error_iff (hjson : C.LabelsReadBack) (h : st.Authentic C.toEnv P)
    (hread : ∀ c x, P c → x ∈ c.reports → C.ReadsBack x) (id : String) :
    (∃ err, handleRunner C st id = .error err) ↔ ¬st.Live C.toEnv id := by
  rcases handleRunner_cases hjson h hread id with
    ⟨hdead, herr⟩ | ⟨r, hr, hid, hlive, y, -, -, -, hok⟩
  · exact ⟨fun _ => hdead, fun _ => ⟨_, herr⟩⟩
  · have hget := Store.get_of_mem C.toEnv hr hid
    constructor
    · rintro ⟨err, herr⟩
      cases hok.symm.trans herr
    · intro hdead
      exact absurd ⟨_, hget, hlive⟩ hdead

/-- Only the labels are merged in. -/
theorem mergeMetaLabelsOne_unlabelled (E : Env) (st : Store) (y : Runner) (l : Option Labels) :
    { mergeMetaLabelsOne E st y with labels := l } = { y with labels := l } := by
  unfold mergeMetaLabelsOne
  split <;> rfl

/-- What `GET /runners/{id}` makes of the report it finds. -/
theorem handleRunner_of_get {x : Runner} (hread : C.ReadsBack x) {id : String} {r : Row}
    (hr : st.rows.get (kindRunner, id) = some r) (hlive : r.tombstone = false)
    (hpay : r.payload = some (C.encodeRunner x)) :
    ∃ y, handleRunner C st id = .ok y ∧ { y with labels := x.labels } = x := by
  obtain ⟨y, hdec, hy, -⟩ := hread
  have hne : r.payload ≠ some [] := by simpa [hpay] using C.encodeRunner_ne_nil x
  have hget := Store.get_eq_self C.toEnv hr hne
  refine ⟨mergeMetaLabelsOne C.toEnv st y, ?_, ?_⟩
  · simp only [handleRunner, hget, hlive, hpay, hdec, Bool.false_eq_true, if_false]
  · exact (mergeMetaLabelsOne_unlabelled C.toEnv st y _).trans hy

theorem shown_of_mem_handleRunners (hjson : C.LabelsReadBack) (h : st.Authentic C.toEnv P)
    (hread : ∀ c x, P c → x ∈ c.reports → C.ReadsBack x) {limit offset : Option Int}
    {y : Runner} (hy : y ∈ handleRunners C st limit offset) : y.Shown P := by
  obtain ⟨x, hx, rfl⟩ := List.mem_map.mp hy
  obtain ⟨r, hr, hdec⟩ := List.mem_filterMap.mp hx
  obtain ⟨r, hmem, hkind, hlive, rfl⟩ := mem_selectLive.mp (mem_selectLive_of_list hr)
  obtain ⟨z, hz, -, hshown⟩ := shown_of_mem hjson h hread hmem hkind hlive
  cases hdec.symm.trans hz
  exact hshown

/-- **The listing and the single runner agree.** -/
theorem mem_handleRunners_iff (hjson : C.LabelsReadBack) (h : st.Authentic C.toEnv P)
    (hread : ∀ c x, P c → x ∈ c.reports → C.ReadsBack x) {y : Runner} :
    y ∈ handleRunners C st none none ↔ ∃ id, handleRunner C st id = .ok y := by
  have hlist : handleRunners C st none none = ((st.selectLive C.toEnv kindRunner).filterMap
      fun r => C.decodeRunner r.payload).map (mergeMetaLabelsOne C.toEnv st) := rfl
  rw [hlist, List.mem_map]
  constructor
  · rintro ⟨x, hx, rfl⟩
    obtain ⟨r, hr, hdec⟩ := List.mem_filterMap.mp hx
    obtain ⟨r, hmem, hkind, hlive, rfl⟩ := mem_selectLive.mp hr
    refine ⟨r.key, ?_⟩
    have hrid : r.id = (kindRunner, r.key) := by rw [← hkind]; rfl
    rcases handleRunner_cases hjson h hread r.key with
      ⟨hdead, -⟩ | ⟨r', hr', hid, -, z, hz, -, -, hok⟩
    · exact absurd ⟨_, Store.get_of_mem C.toEnv hmem hrid, hlive⟩ hdead
    · have hget := KeyedTable.get_eq_some.mpr ⟨hmem, hrid⟩
      cases hget.symm.trans (KeyedTable.get_eq_some.mpr ⟨hr', hid⟩)
      cases hdec.symm.trans hz
      exact hok
  · rintro ⟨id, hid⟩
    rcases handleRunner_cases hjson h hread id with
      ⟨-, herr⟩ | ⟨r, hr, hrid, hlive, x, hx, -, -, hok⟩
    · cases hid.symm.trans herr
    · cases hid.symm.trans hok
      refine ⟨x, List.mem_filterMap.mpr ⟨_, ?_, hx⟩, rfl⟩
      exact mem_selectLive.mpr ⟨r, hr, (Prod.mk.inj hrid).1, hlive, rfl⟩

/-- What is fetched under a key has it, and is shown. -/
theorem shown_of_handleRunner (hjson : C.LabelsReadBack) (h : st.Authentic C.toEnv P)
    (hread : ∀ c x, P c → x ∈ c.reports → C.ReadsBack x) {id : String} {y : Runner}
    (hy : handleRunner C st id = .ok y) : y.runnerID = id ∧ y.Shown P := by
  rcases handleRunner_cases hjson h hread id with ⟨-, herr⟩ | ⟨_, -, -, -, x, -, hx, hshown, hok⟩
  · cases hy.symm.trans herr
  · cases hy.symm.trans hok
    exact ⟨(mergeMetaLabelsOne_runnerID ..).trans hx, hshown⟩

/-- A listed runner is found under its id. -/
theorem handleRunner_of_listed (hjson : C.LabelsReadBack) (h : st.Authentic C.toEnv P)
    (hread : ∀ c x, P c → x ∈ c.reports → C.ReadsBack x) {y : Runner}
    (hy : y ∈ handleRunners C st none none) : handleRunner C st y.runnerID = .ok y := by
  obtain ⟨key, hkey⟩ := (mem_handleRunners_iff hjson h hread).mp hy
  rw [(shown_of_handleRunner hjson h hread hkey).1]
  exact hkey

/-- **The two label readings agree.** -/
theorem handleGetLabels_of_handleRunner (hjson : C.LabelsReadBack) (h : st.Authentic C.toEnv P)
    (hread : ∀ c x, P c → x ∈ c.reports → C.ReadsBack x) (id : String) :
    (∀ err, handleRunner C st id = .error err → handleGetLabels C st id = .error err) ∧
      ∀ y, handleRunner C st id = .ok y →
        ∃ l, handleGetLabels C st id = .ok l ∧ ∀ k, l.get k = Labels.entry y.labels k := by
  rcases handleRunner_cases hjson h hread id with
    ⟨hdead, herr⟩ | ⟨r, hr, hid, hlive, x, hx, hxid, -, hok⟩
  · rw [herr]
    refine ⟨fun err he => ?_, fun y hy => nomatch hy⟩
    cases he
    unfold handleGetLabels
    cases hget : st.get C.toEnv kindRunner id with
    | none => rfl
    | some row =>
      have htomb : row.tombstone = true := by
        by_contra hlive
        exact hdead ⟨row, hget, by simpa using hlive⟩
      simp [htomb]
  · rw [hok]
    refine ⟨fun err he => (nomatch he), fun y hy => ?_⟩
    cases hy
    have hget := Store.get_of_mem C.toEnv hr hid
    have hscan : (Store.scanRow C.toEnv r).tombstone = false := hlive
    -- both look the label row up under the same id
    simp only [handleGetLabels, hget, hscan, hx, mergeMetaLabelsOne, hxid, Bool.false_eq_true,
      if_false]
    have hown : ∀ k, (Labels.update .empty x.labels).get k = Labels.entry x.labels k := by
      intro k
      rw [Labels.get_update]
      cases Labels.entry x.labels k <;> rfl
    cases hextra : st.extraLabels C.toEnv id with
    | none => exact ⟨_, rfl, hown⟩
    | some extra =>
      refine ⟨_, rfl, fun k => ?_⟩
      show _ = ((x.labels.getD .empty).update extra).get k
      rw [Labels.get_update _ extra, Labels.get_update _ extra, hown, Labels.get_getD_empty]

end Answers

end Api

end Takl
