import Mathlib.Data.List.Forall2
import Takl.Transport.Pull

/-!
# Events over the wire (`EventsSince`, the events part of `Server.Pull`, `ApplyEvents`)

The counterpart of `mem_delivered` for events. An event is scanned, its
payload unmarshalled, marshalled, sent, and unmarshalled and marshalled once
more by the puller; everything but the payload comes through as it was, and
the payload does if marshalling what was unmarshalled gives the text back
(`Env.Stable`).

`ApplyEvents` never overwrites: an event whose `(runner, seq)` is taken is
dropped (`mem_applyEvents`).
-/

namespace Takl

/-- A `mapM` that succeeds relates the lists element by element. -/
theorem mapM_eq_some_iff {α β : Type} {f : α → Option β} {l : List α} {l' : List β} :
    l.mapM f = some l' ↔ List.Forall₂ (fun x y => f x = some y) l l' := by
  induction l generalizing l' with
  | nil => cases l' <;> simp
  | cons x l ih =>
    rw [List.mapM_cons]
    constructor
    · intro h
      obtain ⟨y, hy, h⟩ := Option.bind_eq_some_iff.mp h
      obtain ⟨ys, hys, h⟩ := Option.bind_eq_some_iff.mp h
      cases h
      exact .cons hy (ih.mp hys)
    · intro h
      cases h with
      | cons hy hys => simp [hy, ih.mpr hys]

/-- What a `mapM` collects are the images. -/
theorem mem_of_mapM_eq_some {α β : Type} {f : α → Option β} {l : List α} {l' : List β}
    (h : l.mapM f = some l') {y : β} : y ∈ l' ↔ ∃ x ∈ l, f x = some y := by
  rw [mapM_eq_some_iff] at h
  induction h with
  | nil => simp
  | cons hz _ ih => rw [List.mem_cons, ih, List.exists_mem_cons_iff, hz, Option.some_inj, eq_comm]

theorem exists_mapM_eq_some {α β : Type} {f : α → Option β} {l : List α} :
    (∃ l', l.mapM f = some l') ↔ ∀ x ∈ l, ∃ y, f x = some y := by
  induction l with
  | nil => simp
  | cons x l ih =>
    rw [List.forall_mem_cons, ← ih, List.mapM_cons]
    cases hx : f x with
    | none => simp
    | some y => cases hl : l.mapM f <;> simp

/-- A payload text that is the same after being read and written again. -/
def Env.Stable (E : Env) (text : String) : Prop :=
  (Store.scanPayload E text).map E.encodePayload = some text

instance (E : Env) (text : String) : Decidable (E.Stable text) :=
  inferInstanceAs (Decidable (_ = _))

namespace Store

/-- The event `EventsSince` makes of a stored row. -/
def scanEvent (E : Env) (e : EventRow) : Option Event :=
  (scanPayload E e.payload).map fun payload =>
    { seq := e.seq, type := e.type, runnerID := e.runnerID, payload, hlc := e.hlc }

/-- The row `AppendEvent` and `ApplyEvents` make of an event. -/
def eventRow (E : Env) (x : Event) : EventRow :=
  { runnerID := x.runnerID, seq := x.seq, type := x.type,
    payload := E.encodePayload x.payload, hlc := x.hlc }

theorem mem_scanned {st : Store} {wm : HLC} {e : EventRow} :
    e ∈ ((st.events.rows.filter fun e => e.hlc.beyond wm).insertionSort
      fun a b => a.hlc ≤ b.hlc) ↔ e ∈ st.events ∧ wm < e.hlc := by
  simp only [List.mem_insertionSort, List.mem_filter, HLC.beyond_iff, KeyedTable.mem_def]

theorem mem_eventsSince {E : Env} {st : Store} {wm : HLC} {evs : List Event}
    (h : st.eventsSince E wm = some evs) {x : Event} :
    x ∈ evs ↔ ∃ e ∈ st.events, wm < e.hlc ∧ scanEvent E e = some x := by
  rw [mem_of_mapM_eq_some h]
  simp only [mem_scanned, and_assoc]
  rfl

/-- `EventsSince` fails only where a payload it scans does not unmarshal. -/
theorem eventsSince_total {E : Env} {st : Store} {wm : HLC} :
    (∃ evs, st.eventsSince E wm = some evs) ↔
      ∀ e ∈ st.events, wm < e.hlc → ∃ x, scanEvent E e = some x := by
  refine exists_mapM_eq_some.trans ?_
  simp only [mem_scanned, and_imp]
  rfl

theorem eventsSince_eq_nil {E : Env} {st : Store} {wm : HLC} {evs : List Event}
    (h : st.eventsSince E wm = some evs) : evs = [] ↔ ∀ e ∈ st.events, e.hlc ≤ wm := by
  rw [List.eq_nil_iff_forall_not_mem]
  constructor
  · intro hnil e he
    by_contra hlt
    rw [not_le] at hlt
    obtain ⟨x, hx⟩ := eventsSince_total.mp ⟨evs, h⟩ e he hlt
    exact hnil x ((mem_eventsSince h).mpr ⟨e, he, hlt, hx⟩)
  · intro hle x hx
    obtain ⟨e, he, hlt, -⟩ := (mem_eventsSince h).mp hx
    exact not_lt.mpr (hle e he) hlt

/-! ## `ApplyEvents` -/

/-- Everything an insert can do. -/
theorem insertEvent_cases (E : Env) (st : Store) (x : Event) :
    (st.insertEvent E x = st ∧ ∃ e ∈ st.events, e.id = (eventRow E x).id) ∨
      ((st.insertEvent E x).events = st.events.upsert (eventRow E x) ∧
        ∀ e ∈ st.events, e.id ≠ (eventRow E x).id) := by
  unfold insertEvent
  cases hg : st.events.get (x.runnerID, x.seq) with
  | some e => exact .inl ⟨rfl, e, KeyedTable.get_eq_some.mp hg⟩
  | none => exact .inr ⟨rfl, KeyedTable.get_eq_none.mp hg⟩

/-- **What `ApplyEvents` does**: it keeps what is there, adds only events it
was given, and afterwards every key it was given is there. -/
theorem mem_applyEvents (E : Env) (xs : List Event) (st : Store) :
    (∀ e ∈ st.events, e ∈ (st.applyEvents E xs).events) ∧
      (∀ e ∈ (st.applyEvents E xs).events, e ∈ st.events ∨ ∃ x ∈ xs, eventRow E x = e) ∧
      ∀ x ∈ xs, ∃ e ∈ (st.applyEvents E xs).events, e.id = (eventRow E x).id := by
  unfold applyEvents
  induction xs generalizing st with
  | nil => exact ⟨fun e he => he, fun e he => .inl he, by simp⟩
  | cons x xs ih =>
    obtain ⟨hkeep, hnew, hall⟩ := ih (st.insertEvent E x)
    rw [List.foldl_cons]
    rcases insertEvent_cases E st x with ⟨hst, e₀, he₀, hid₀⟩ | ⟨hev, hfree⟩
    · -- the key is taken: the table stays
      rw [hst] at hkeep hnew hall ⊢
      refine ⟨hkeep, fun e he => (hnew e he).imp_right ?_, fun y hy => ?_⟩
      · rintro ⟨y, hy, rfl⟩
        exact ⟨y, List.mem_cons_of_mem _ hy, rfl⟩
      · rcases List.mem_cons.mp hy with rfl | hy
        · exact ⟨e₀, hkeep e₀ he₀, hid₀⟩
        · exact hall y hy
    · rw [hev] at hkeep hnew
      refine ⟨fun e he => hkeep e (KeyedTable.mem_upsert_of_ne he (hfree e he)),
        fun e he => ?_, fun y hy => ?_⟩
      · rcases hnew e he with he | ⟨y, hy, rfl⟩
        · rcases KeyedTable.mem_upsert.mp he with rfl | ⟨he, -⟩
          · exact .inr ⟨x, List.mem_cons_self, rfl⟩
          · exact .inl he
        · exact .inr ⟨y, List.mem_cons_of_mem _ hy, rfl⟩
      · rcases List.mem_cons.mp hy with rfl | hy
        · exact ⟨_, hkeep _ (KeyedTable.mem_upsert_self _ _), rfl⟩
        · exact hall y hy

/-- Events that are all there already change nothing. -/
theorem applyEvents_eq_self {E : Env} {xs : List Event} {st : Store}
    (h : ∀ x ∈ xs, ∃ e ∈ st.events, e.id = (eventRow E x).id) : st.applyEvents E xs = st := by
  unfold applyEvents
  induction xs with
  | nil => rfl
  | cons x xs ih =>
    obtain ⟨e, he, hid⟩ := h x List.mem_cons_self
    have hx : st.insertEvent E x = st := by
      rcases insertEvent_cases E st x with ⟨hst, -⟩ | ⟨-, hfree⟩
      · exact hst
      · exact absurd hid (hfree e he)
    rw [List.foldl_cons, hx]
    exact ih fun y hy => h y (List.mem_cons_of_mem _ hy)

end Store

/-! ## The server -/

namespace Server

/-- The guard of the full resend of the events. -/
def ResendsEvents (s : Server) (req : PullRequest) : Prop :=
  (∀ e ∈ s.store.events, e.hlc ≤ req.eventWatermark.getD HLC.zero) ∧
    req.eventChecksum ≠ 0 ∧ req.eventChecksum ≠ s.store.checksumEvents

instance (s : Server) (req : PullRequest) : Decidable (s.ResendsEvents req) :=
  inferInstanceAs (Decidable (_ ∧ _ ∧ _))

/-- What the events sent lie above. -/
def eventFloor (s : Server) (req : PullRequest) : HLC :=
  if s.ResendsEvents req then HLC.zero else req.eventWatermark.getD HLC.zero

/-- **Which events a pull sends**: those above the floor. It fails where
scanning them fails. -/
theorem pullEvents_eq (E : Env) (s : Server) (req : PullRequest) :
    s.pullEvents E req = s.store.eventsSince E (s.eventFloor req) := by
  unfold pullEvents eventFloor
  cases hsince : s.store.eventsSince E (req.eventWatermark.getD HLC.zero) with
  | none =>
    have hno : ¬s.ResendsEvents req := by
      intro hc
      obtain ⟨evs, hevs⟩ := Store.eventsSince_total (E := E).mpr
        fun e he hlt => absurd hlt (not_lt.mpr (hc.1 e he))
      rw [hevs] at hsince
      cases hsince
    simp only [if_neg hno, hsince]
  | some evs =>
    cases evs with
    | cons x xs =>
      have hno : ¬s.ResendsEvents req := fun hc =>
        List.cons_ne_nil x xs ((Store.eventsSince_eq_nil hsince).mpr hc.1)
      simp only [if_neg hno, hsince]
    | nil =>
      have hnone := (Store.eventsSince_eq_nil hsince).mp rfl
      by_cases hsum : req.eventChecksum ≠ 0 ∧ req.eventChecksum ≠ s.store.checksumEvents
      · have hyes : s.ResendsEvents req := ⟨hnone, hsum⟩
        simp only [if_pos hyes, if_pos hsum]
      · have hno : ¬s.ResendsEvents req := fun hc => hsum hc.2
        simp only [if_neg hno, if_neg hsum, hsince]

theorem events_of_pull {E : Env} {s : Server} {req : PullRequest} {resp : PullResponse}
    (h : s.pull E req = some resp) : ∃ evs, s.pullEvents E req = some evs ∧
      resp.wire.events = evs.map (Event.toPb E) := by
  obtain ⟨evs, hevs, rfl⟩ := Option.map_eq_some_iff.mp h
  exact ⟨evs, hevs, rfl⟩

end Server

end Takl
