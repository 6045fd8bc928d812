import Takl.Interleaving.RoundAll

/-!
# Concurrent rounds leave what sequential rounds leave

The goroutines of `roundAll` share the store and the clock without a lock
around a round, so the calls of one round fall between the calls of another.
Each call joins a delivery into the node, and a round under way is known by
the deliveries it has yet to make (`Puller.rest`). `Tracks` says that the
node is the starting node with the deliveries made so far, and that nothing
of an accepted response is forgotten; so when `roundAll` returns, the node is
the join of the accepted responses, in whatever order they went in.
-/

namespace Takl

open Store (latest)

/-! ## What a round under way has yet to do -/

namespace Puller

/-- The deliveries a round has left. -/
def rest (E : Env) : Puller → List Delivery
  | applyRows peer _ resp => Delivery.ofResponse E (peer, resp)
  | updateClock peer _ resp => .clock (resp.toRows.map Row.hlc) :: Delivery.ofEvents E peer resp
  | applyEvents peer _ resp => Delivery.ofEvents E peer resp
  | setWatermark peer _ xs => [.mark peer (xs.map Event.hlc), .clock (xs.map Event.hlc)]
  | updateEventClock xs => [.clock (xs.map Event.hlc)]

/-- The response whose events a round has not decoded. -/
def undecoded : Puller → List PullResponse
  | applyRows _ _ resp | updateClock _ _ resp | applyEvents _ _ resp => [resp]
  | setWatermark .. | updateEventClock _ => []

/-- The event watermark the round started from has not been lowered. -/
def Fresh (n : Node) : Puller → Prop
  | applyRows peer evWm _ | updateClock peer evWm _ | applyEvents peer evWm _
  | setWatermark peer evWm _ => evWm ≤ n.store.watermark peer kindEvent
  | updateEventClock _ => True

variable {E : Env} {n : Node} {q : Puller}

theorem Fresh.mono {n' : Node} (h : q.Fresh n)
    (hwm : ∀ p k, (n.store.watermark p k).val ≤ (n'.store.watermark p k).val) : q.Fresh n' := by
  cases q with
  | updateEventClock => trivial
  | _ => exact le_trans h (hwm _ _)

/-- What a call that does not fail leaves to do. -/
inductive Calls (E : Env) (n : Node) : Puller → Node → Option Puller → Prop
  | noRows {peer : String} {evWm : HLC} {resp : PullResponse} (hnil : resp.rows.isEmpty) :
      Calls E n (.applyRows peer evWm resp) n (some (.applyEvents peer evWm resp))
  | rows {peer : String} {evWm : HLC} {resp : PullResponse} {st : Store}
      (hne : ¬resp.rows.isEmpty) (hst : n.store.applyRemote peer resp.toRows = .ok st) :
      Calls E n (.applyRows peer evWm resp) { n with store := st }
        (some (.updateClock peer evWm resp))
  | clock {peer : String} {evWm : HLC} {resp : PullResponse} :
      Calls E n (.updateClock peer evWm resp)
        { n with clock := n.clock.update (latest HLC.zero (resp.toRows.map Row.hlc)) }
        (some (.applyEvents peer evWm resp))
  | noEvents {peer : String} {evWm : HLC} {resp : PullResponse} (hnil : resp.events.isEmpty) :
      Calls E n (.applyEvents peer evWm resp) n none
  | events {peer : String} {evWm : HLC} {resp : PullResponse} {xs : List Event}
      (hne : ¬resp.events.isEmpty) (hxs : resp.events.mapM (PbEvent.toEvent E) = some xs) :
      Calls E n (.applyEvents peer evWm resp) { n with store := n.store.applyEvents E xs }
        (some (.setWatermark peer evWm xs))
  | mark {peer : String} {evWm : HLC} {xs : List Event} :
      Calls E n (.setWatermark peer evWm xs)
        { n with store :=
          n.store.setWatermark peer kindEvent (latest evWm (xs.map Event.hlc)) }
        (some (.updateEventClock xs))
  | eventClock {xs : List Event} :
      Calls E n (.updateEventClock xs)
        { n with clock := n.clock.update (latest HLC.zero (xs.map Event.hlc)) } none

theorem calls_of_outcome (h : q.outcome E n = .ok) :
    Calls E n q (q.next E n).1 (q.next E n).2 := by
  cases q with
  | applyRows peer evWm resp =>
    by_cases hnil : resp.rows.isEmpty
    · simp only [next, hnil, if_true]
      exact .noRows hnil
    · cases hst : n.store.applyRemote peer resp.toRows with
      | error e => simp [outcome, hnil, hst] at h
      | ok st =>
        simp only [next, hnil, hst]
        exact .rows hnil hst
  | applyEvents peer evWm resp =>
    by_cases hnil : resp.events.isEmpty
    · simp only [next, hnil, if_true]
      exact .noEvents hnil
    · cases hxs : resp.events.mapM (PbEvent.toEvent E) with
      | none => simp [outcome, hnil, hxs] at h
      | some xs =>
        simp only [next, hnil, hxs]
        exact .events hnil hxs
  | updateClock peer evWm resp => exact .clock
  | setWatermark peer evWm xs => exact .mark
  | updateEventClock xs => exact .eventClock

/-- The deliveries an optional round has left. -/
def restOf (E : Env) : Option Puller → List Delivery
  | some q => q.rest E
  | none => []

namespace Calls

variable {n' : Node} {q' : Option Puller}

/-- A call makes the first delivery that is left. -/
theorem rest_eq (h : Calls E n q n' q') : q.rest E = q.delivery E ++ restOf E q' := by
  cases h with
  | noRows hnil => simp [rest, restOf, delivery, Delivery.ofResponse, Delivery.ofRows, hnil]
  | rows hne => simp [rest, restOf, delivery, Delivery.ofResponse, Delivery.ofRows, hne]
  | clock => rfl
  | noEvents hnil => simp [rest, restOf, delivery, Delivery.ofEvents, hnil]
  | events hne hxs =>
    simp [rest, restOf, delivery, Delivery.ofEvents, Delivery.ofIncoming, hne, hxs]
  | mark => rfl
  | eventClock => rfl

theorem joined (h : Calls E n q n' q') (hf : q.Fresh n) :
    n.Joined E (q.delivery E) n' := by
  cases h with
  | noRows hnil =>
    simp only [delivery, hnil, if_true]
    exact .nil E n
  | rows hne hst =>
    simp only [delivery, hne]
    exact .of_rows hst
  | clock => exact .of_clock _
  | noEvents hnil =>
    simp only [delivery, hnil, if_true]
    exact .nil E n
  | events hne hxs =>
    simp only [delivery, hne, hxs]
    exact .of_events _
  | mark => exact .of_mark hf _
  | eventClock => exact .of_clock _

/-- A round that goes on has nothing more to accept. -/
theorem accepts_eq_nil (h : Calls E n q n' q') {p : Puller} (hp : q' = some p) :
    p.accepts = [] := by
  cases h <;> cases hp <;> rfl

theorem fresh (h : Calls E n q n' q') (hf : q.Fresh n) {p : Puller} (hp : q' = some p) :
    p.Fresh n' := by
  have hwm := (h.joined hf).watermark_mono
  cases h <;> cases hp <;> first | trivial | exact le_trans hf (hwm _ _)

/-- The events of a response are decoded, or will be. -/
theorem undecoded (h : Calls E n q n' q') {resp : PullResponse} (hr : resp ∈ q.undecoded) :
    (∃ xs, resp.events.mapM (PbEvent.toEvent E) = some xs) ∨
      ∃ p, q' = some p ∧ resp ∈ p.undecoded := by
  cases h with
  | noRows => exact .inr ⟨_, rfl, hr⟩
  | rows => exact .inr ⟨_, rfl, hr⟩
  | clock => exact .inr ⟨_, rfl, hr⟩
  | noEvents hnil =>
    cases List.mem_singleton.mp hr
    exact .inl ⟨[], by rw [List.isEmpty_iff.mp hnil]; rfl⟩
  | events hne hxs =>
    cases List.mem_singleton.mp hr
    exact .inl ⟨_, hxs⟩
  | mark => cases hr
  | eventClock => cases hr

end Calls

end Puller

namespace Round

/-- The event watermark a goroutine has read has not been lowered. -/
def Fresh (n : Node) : Round → Prop
  | reading peer _ req => ∀ w ∈ req.eventWatermark, w ≤ n.store.watermark peer kindEvent
  | applying q => q.Fresh n
  | reporting _ => True

theorem Fresh.mono {n n' : Node} {r : Round} (h : r.Fresh n)
    (hwm : ∀ p k, (n.store.watermark p k).val ≤ (n'.store.watermark p k).val) : r.Fresh n' := by
  cases r with
  | reading peer todo req => exact fun w hw => (h w hw).trans (hwm _ _)
  | applying q => exact Puller.Fresh.mono h hwm
  | reporting => trivial

/-- What a goroutine owes the node: the rest of an accepted response. -/
def owes (E : Env) : Round → List Delivery
  | applying q => if q.accepts.isEmpty then q.rest E else []
  | reading .. | reporting _ => []

/-- The accepted response whose events a goroutine has not decoded. -/
def undecoded : Round → List PullResponse
  | applying q => if q.accepts.isEmpty then q.undecoded else []
  | reading .. | reporting _ => []

/-- A round that has not had its `ApplyRemote` owes nothing. -/
theorem owes_of_accepts {q : Puller} (h : q.accepts ≠ []) (E : Env) :
    (applying q).owes E = [] ∧ (applying q).undecoded = [] := by
  have hne : q.accepts.isEmpty = false := by simpa using h
  simp [owes, undecoded, hne]

end Round

namespace RoundAll

open Runs Pool

variable {peers : List String}

/-! ## The invariant -/

/-- The node is the one `roundAll` started in with the deliveries made, and
what is missing of the accepted responses is owed by the goroutines. -/
structure Tracks (E : Env) (n : Node) (s : RoundAll peers) : Prop where
  joined : n.Joined E s.made s.node
  fresh : ∀ r ∈ s.rounds, r.Fresh s.node
  total : ∀ d, (d ∈ s.made ∨ d ∈ s.rounds.flatMap (Round.owes E)) ↔
    d ∈ s.accepted.flatMap (Delivery.ofResponse E)
  decoded : ∀ g ∈ s.accepted, (∃ xs, g.2.events.mapM (PbEvent.toEvent E) = some xs) ∨
    g.2 ∈ s.rounds.flatMap Round.undecoded

theorem tracks_start (E : Env) (peers : List String) (n : Node) :
    Tracks E n (start peers n) where
  joined := .nil E n
  fresh _ hr := nomatch hr
  total d := by simp [start]
  decoded _ hg := nomatch hg

variable {E : Env} {n : Node} {s : RoundAll peers}

/-- A step that leaves the node and what is owed alone. -/
theorem Tracks.of_rounds (hs : s.Tracks E n) {t : RoundAll peers} (hnode : t.node = s.node)
    (hacc : t.accepted = s.accepted) (hmade : t.made = s.made)
    (hfresh : ∀ r ∈ t.rounds, r.Fresh s.node)
    (howes : ∀ d, d ∈ t.rounds.flatMap (Round.owes E) ↔ d ∈ s.rounds.flatMap (Round.owes E))
    (hdec : ∀ g, g ∈ t.rounds.flatMap Round.undecoded ↔ g ∈ s.rounds.flatMap Round.undecoded) :
    t.Tracks E n where
  joined := hmade ▸ hnode ▸ hs.joined
  fresh := hnode ▸ hfresh
  total d := by rw [hmade, hacc, howes, hs.total]
  decoded g hg := by
    rw [hdec]
    exact hs.decoded g (hacc ▸ hg)

/-- One goroutine goes on and owes nothing, before and after. -/
theorem Tracks.setRound (hs : s.Tracks E n) {t : RoundAll peers} {k : Nat} {r u : Round}
    (hk : s.rounds[k]? = some r) (hr : r.owes E = [] ∧ r.undecoded = [])
    (hu : u.owes E = [] ∧ u.undecoded = []) (hfresh : u.Fresh s.node)
    (hrounds : t.rounds = s.rounds.set k u) (hnode : t.node = s.node)
    (hacc : t.accepted = s.accepted) (hmade : t.made = s.made) : t.Tracks E n := by
  refine hs.of_rounds hnode hacc hmade (fun x hx => ?_) (fun d => ?_) fun g => ?_
  · rw [hrounds, (set_perm_cons hk u).mem_iff] at hx
    rcases List.mem_cons.mp hx with rfl | hx
    · exact hfresh
    · exact hs.fresh x (List.mem_of_mem_eraseIdx hx)
  · rw [hrounds, mem_flatMap_set _ hk, mem_flatMap_place _ hk, hr.1, hu.1]
  · rw [hrounds, mem_flatMap_set _ hk, mem_flatMap_place _ hk, hr.2, hu.2]

/-- What a round owes after a call. -/
theorem owes_resume {m m' : Node} {q : Puller} {q' : Option Puller}
    (h : Puller.Calls E m q m' q') : (Round.resume q').owes E = Puller.restOf E q' := by
  cases hq' : q' with
  | none => rfl
  | some p => simp [Round.resume, Round.owes, Puller.restOf, h.accepts_eq_nil hq']

/-- A call delivers what the round owed, or accepts its response. -/
theorem mem_rest_iff {q : Puller} {d : Delivery} :
    d ∈ q.rest E ↔ d ∈ (Round.applying q).owes E ∨
      d ∈ q.accepts.flatMap (Delivery.ofResponse E) := by
  cases q with
  | applyRows peer evWm resp => simp [Round.owes, Puller.accepts, Puller.rest]
  | _ => simp [Round.owes, Puller.accepts]

/-- A round makes a call. -/
theorem Tracks.call (hs : s.Tracks E n) {k : Nat} {q : Puller}
    (hk : s.rounds[k]? = some (.applying q)) (hout : q.outcome E s.node = .ok) :
    Tracks E n { s.setRound k (.resume (q.next E s.node).2) with
      node := (q.next E s.node).1
      accepted := s.accepted ++ q.accepts
      made := s.made ++ q.delivery E } := by
  have hcalls := Puller.calls_of_outcome hout
  have hqfresh : q.Fresh s.node := hs.fresh _ (List.mem_of_getElem? hk)
  have hjoin := hcalls.joined hqfresh
  refine ⟨hs.joined.trans hjoin, fun r hr => ?_, fun d => ?_, fun g hg => ?_⟩
  · rcases List.mem_cons.mp ((set_perm_cons hk _).mem_iff.mp hr) with rfl | hr
    · cases hq' : (q.next E s.node).2 with
      | none => trivial
      | some p => exact hcalls.fresh hqfresh hq'
    · exact (hs.fresh r (List.mem_of_mem_eraseIdx hr)).mono hjoin.watermark_mono
  · have hold := hs.total d
    have hrest : d ∈ q.rest E ↔
        d ∈ q.delivery E ∨ d ∈ Puller.restOf E (q.next E s.node).2 := by
      rw [hcalls.rest_eq, List.mem_append]
    rw [mem_flatMap_place _ hk] at hold
    rw [mem_rest_iff] at hrest
    simp only [RoundAll.setRound, mem_flatMap_set _ hk, owes_resume hcalls, List.mem_append,
      List.flatMap_append, ← hold]
    grind only
  · have hq : ∀ resp ∈ q.undecoded, (∃ xs, resp.events.mapM (PbEvent.toEvent E) = some xs) ∨
        resp ∈ (Round.resume (q.next E s.node).2).undecoded := by
      intro resp hresp
      refine (hcalls.undecoded hresp).imp_right ?_
      rintro ⟨p, hp, hin⟩
      simpa [hp, Round.resume, Round.undecoded, hcalls.accepts_eq_nil hp] using hin
    simp only [RoundAll.setRound, mem_flatMap_set _ hk]
    rcases List.mem_append.mp hg with hg | hg
    · rcases hs.decoded g hg with hdec | hin
      · exact .inl hdec
      · rcases (mem_flatMap_place _ hk).mp hin with hin | hin
        · have hin : g.2 ∈ q.undecoded := by
            simp only [Round.undecoded] at hin
            split at hin
            · exact hin
            · cases hin
          exact (hq _ hin).imp_right .inl
        · exact .inr (.inr hin)
    · refine (hq g.2 ?_).imp_right .inl
      cases q with
      | applyRows =>
        cases List.mem_singleton.mp hg
        exact List.mem_singleton_self _
      | _ => cases hg

/-- Only `ApplyRemote` fails, before anything of its response is accepted. -/
theorem accepts_of_failed {m : Node} {q : Puller} {e : DbError}
    (h : q.outcome E m = .failed e) : q.accepts ≠ [] := by
  cases q with
  | applyRows => simp [Puller.accepts]
  | applyEvents peer evWm resp =>
    simp only [Puller.outcome] at h
    split at h
    · cases h
    · split at h <;> cases h
  | _ => cases h

/-- **A step delivers what was owed**: the node has the deliveries made, and
the goroutines owe the rest. -/
theorem Tracks.step {t : RoundAll peers} {a : RoundAllAction} (hs : s.Tracks E n)
    (hown : a.own = true) (h : RoundAll.step E s a = some t) : t.Tracks E n := by
  obtain ⟨-, hstep⟩ := step_cases h
  cases hstep with
  | skip | crash | collect =>
    exact hs.of_rounds rfl rfl rfl hs.fresh (fun _ => .rfl) fun _ => .rfl
  | spawn =>
    refine hs.of_rounds rfl rfl rfl (fun r hr => ?_) (fun d => ?_) fun g => ?_
    · rcases List.mem_append.mp hr with hr | hr
      · exact hs.fresh r hr
      · cases List.mem_singleton.mp hr
        exact fun w hw => nomatch hw
    · simp [Round.owes]
    · simp [Round.undecoded]
  | @read k p r rs req hk =>
    refine hs.setRound hk ⟨rfl, rfl⟩ ⟨rfl, rfl⟩ ?_ rfl rfl rfl rfl
    have hold : ∀ w ∈ req.eventWatermark, w ≤ s.node.store.watermark p kindEvent :=
      hs.fresh _ (List.mem_of_getElem? hk)
    cases r with
    | eventWatermark =>
      intro w hw
      cases hw
      exact le_rfl
    | _ => exact hold
  | fail hk =>
    exact hs.setRound (u := .reporting _) hk ⟨rfl, rfl⟩ ⟨rfl, rfl⟩ trivial rfl rfl rfl rfl
  | @answer k p req resp hk =>
    have hold : ∀ w ∈ req.eventWatermark, w ≤ s.node.store.watermark p kindEvent :=
      hs.fresh _ (List.mem_of_getElem? hk)
    refine hs.setRound hk ⟨rfl, rfl⟩ (Round.owes_of_accepts (by simp [Puller.accepts]) E) ?_
      rfl rfl rfl rfl
    show req.eventWatermark.getD HLC.zero ≤ s.node.store.watermark p kindEvent
    cases hw : req.eventWatermark with
    | none => exact Subtype.property _
    | some w => exact hold w hw
  | call hk hout => exact hs.call hk hout
  | refuse hk hout =>
    exact hs.setRound (u := .reporting _) hk (Round.owes_of_accepts (accepts_of_failed hout) E)
      ⟨rfl, rfl⟩ trivial rfl rfl rfl rfl
  | report hk =>
    refine hs.of_rounds rfl rfl rfl (fun r hr => hs.fresh r (List.mem_of_mem_eraseIdx hr))
      (fun d => ?_) fun g => ?_
    · simp [mem_flatMap_place _ hk, Round.owes]
    · simp [mem_flatMap_place _ hk, Round.undecoded]
  | perform => cases hown

/-- **What is not delivered is still owed**, however the goroutines take
turns. -/
theorem Tracks.run {t : RoundAll peers} {as : List RoundAllAction} (hs : s.Tracks E n)
    (hr : Run (RoundAll.step E) (fun _ a => a.own = true) s as t) : t.Tracks E n :=
  hr.invariant (I := Tracks E n) (fun _ _ _ hs hown h => hs.step hown h) hs

end RoundAll

/-! ## One round after the other -/

namespace Node

/-- The responses taken in one after the other, by whole rounds. -/
def sequential (E : Env) (n : Node) (gs : List (String × PullResponse)) : Option Node :=
  gs.foldlM (fun n g =>
    match n.finishRound E g.1 (n.store.watermark g.1 kindEvent) g.2 with
    | (n', .ok) => some n'
    | _ => none) n

variable {E : Env}

theorem joined_sequential {gs : List (String × PullResponse)} {n m : Node}
    (h : n.sequential E gs = some m) : n.Joined E (gs.flatMap (Delivery.ofResponse E)) m := by
  induction gs generalizing n with
  | nil =>
    cases h
    exact .nil E m
  | cons g gs ih =>
    simp only [sequential, List.foldlM_cons] at h
    obtain ⟨n₁, hround, hrest⟩ := Option.bind_eq_some_iff.mp h
    split at hround
    · next hfin =>
      cases hround
      exact (Joined.of_finishRound hfin le_rfl).trans (ih hrest)
    · cases hround

/-- A round succeeds when no payload is nil and every event has its HLC. -/
theorem exists_finishRound (n : Node) (peer : String) (evWm : HLC) {resp : PullResponse}
    (hpay : ∀ r ∈ resp.toRows, r.payload ≠ none)
    (hdec : ∃ xs, resp.events.mapM (PbEvent.toEvent E) = some xs) :
    ∃ m, n.finishRound E peer evWm resp = (m, .ok) := by
  obtain ⟨st, hst⟩ := n.store.applyRemote_total peer hpay
  obtain ⟨n₁, hrows⟩ : ∃ n₁, n.applyRows peer resp = .ok n₁ := by
    unfold applyRows
    split
    · exact ⟨n, rfl⟩
    · exact ⟨_, Except.map_eq_ok.mpr ⟨st, hst, rfl⟩⟩
  obtain ⟨xs, hxs⟩ := hdec
  obtain ⟨m, hev⟩ : ∃ m, n₁.applyEvents E peer evWm resp = some m := by
    unfold applyEvents
    split
    · exact ⟨n₁, rfl⟩
    · exact ⟨_, by rw [hxs]; rfl⟩
  exact ⟨m, finishRound_eq_ok.mpr ⟨n₁, hrows, hev⟩⟩

theorem exists_sequential {gs : List (String × PullResponse)} (n : Node)
    (hpay : ∀ g ∈ gs, ∀ r ∈ g.2.toRows, r.payload ≠ none)
    (hdec : ∀ g ∈ gs, ∃ xs, g.2.events.mapM (PbEvent.toEvent E) = some xs) :
    ∃ m, n.sequential E gs = some m := by
  induction gs generalizing n with
  | nil => exact ⟨n, rfl⟩
  | cons g gs ih =>
    rw [List.forall_mem_cons] at hpay hdec
    obtain ⟨n₁, hfin⟩ := n.exists_finishRound g.1 (n.store.watermark g.1 kindEvent) hpay.1 hdec.1
    obtain ⟨m, hm⟩ := ih n₁ hpay.2 hdec.2
    refine ⟨m, ?_⟩
    simp only [sequential, List.foldlM_cons, hfin]
    exact hm

end Node

namespace RoundAll

open Runs

/-- **Concurrent rounds are sequential rounds.** When `roundAll` returns, the
node is as if the responses whose rows were accepted had been taken in by whole
rounds one after the other, in any order: rows, events, watermarks and clock
are the same. (Rows of one key and version are to be equal, events of one id
too, and no row lacks its payload, on which acceptance could depend.) -/
theorem roundAll_agrees_with_sequential (E : Env) {peers : List String} {n : Node}
    {as : List RoundAllAction} {s : RoundAll peers}
    (hr : Run (step E) (fun _ a => a.own = true) (start peers n) as s) (hret : s.Returned)
    (hrows : n.RowsConsistent (s.accepted.flatMap (Delivery.ofResponse E)))
    (hev : n.EventsConsistent E (s.accepted.flatMap (Delivery.ofResponse E)))
    (hpay : ∀ g ∈ s.accepted, ∀ r ∈ g.2.toRows, r.payload ≠ none)
    {gs : List (String × PullResponse)} (hgs : ∀ g, g ∈ gs ↔ g ∈ s.accepted) :
    ∃ m, n.sequential E gs = some m ∧ m.Agrees s.node := by
  have hs := (tracks_start E peers n).run hr
  obtain ⟨-, hrounds, -⟩ := ((balanced_start peers n).run hr).of_returned hret
  have hdec : ∀ g ∈ gs, ∃ xs, g.2.events.mapM (PbEvent.toEvent E) = some xs := by
    intro g hg
    refine (hs.decoded g ((hgs g).mp hg)).resolve_right ?_
    simp [hrounds]
  obtain ⟨m, hm⟩ := n.exists_sequential (fun g hg => hpay g ((hgs g).mp hg)) hdec
  refine ⟨m, hm, ?_⟩
  -- the goroutines owe nothing any more
  have hmade : ∀ d, d ∈ s.made ↔ d ∈ s.accepted.flatMap (Delivery.ofResponse E) := by
    intro d
    rw [← hs.total d, hrounds]
    simp
  have hsame : ∀ d, d ∈ gs.flatMap (Delivery.ofResponse E) ↔
      d ∈ s.accepted.flatMap (Delivery.ofResponse E) := Node.mem_flatMap_congr hgs
  have hmerged := Node.mem_flatMap_congr (f := Delivery.merged) hsame
  have hlogged := Node.mem_flatMap_congr (f := Delivery.logged) hsame
  refine (Node.joined_sequential hm).agrees hs.joined (fun d => (hsame d).trans (hmade d).symm) ?_ ?_
  · simpa only [Node.RowsConsistent, hmerged] using hrows
  · simpa only [Node.EventsConsistent, Node.Offers, hlogged] using hev

/-- What a peer answers: its label row for runner `n0`, and an event. -/
def labelAnswer (owner : String) (hlc : HLC) : PullResponse :=
  { nodeId := owner, checksums := [], eventChecksum := 0
    rows := [⟨"meta", "n0", owner, some hlc, false, some [1]⟩]
    events := [⟨owner, 1, "RunnerJoined", "null", some hlc⟩] }

/-- Two rounds whose calls alternate; the later row goes in first. -/
def alternating : List RoundAllAction :=
  [.spawn, .spawn] ++ List.replicate 6 (.read 0) ++ List.replicate 6 (.read 1) ++
    [.answer 0 (labelAnswer "api/n1" ⟨20, 0⟩), .answer 1 (labelAnswer "api/n2" ⟨10, 0⟩)] ++
    (List.replicate 5 [.call 0, .call 1]).flatten ++
    [.report 1, .collect, .report 0, .collect]

/-- The node the rounds are made in. -/
def puller : Node := .fresh (Demo.nodeID 0) Demo.epoch "10.0.0.0:7001"

/-- Two rows of one key, of different versions. -/
def labelRows : List Row :=
  [⟨kindMeta, "n0", "api/n1", ⟨20, 0⟩, false, some [1]⟩,
    ⟨kindMeta, "n0", "api/n2", ⟨10, 0⟩, false, some [1]⟩]

def labelEvents : List EventRow :=
  [⟨"api/n1", 1, .runnerJoined, "null", ⟨20, 0⟩⟩, ⟨"api/n2", 1, .runnerJoined, "null", ⟨10, 0⟩⟩]

/-- The same as the sequential rounds in the other order. -/
theorem alternating_agrees : ∃ s : RoundAll ["10.0.0.1:7001", "10.0.0.2:7001"],
    Run (step .escapeFree) (fun _ a => a.own = true) (start _ puller) alternating s ∧
    s.Returned ∧ ∃ m, puller.sequential .escapeFree s.accepted.reverse = some m ∧
      m.Agrees s.node := by
  obtain ⟨s, hr, hret, hpay, hmerged, hlogged⟩ :
      ∃ s : RoundAll ["10.0.0.1:7001", "10.0.0.2:7001"],
        Run (step .escapeFree) (fun _ a => a.own = true) (start _ puller) alternating s ∧
        s.Returned ∧ (∀ g ∈ s.accepted, ∀ r ∈ g.2.toRows, r.payload ≠ none) ∧
        (s.accepted.flatMap (Delivery.ofResponse .escapeFree)).flatMap Delivery.merged
          = labelRows ∧
        ((s.accepted.flatMap (Delivery.ofResponse .escapeFree)).flatMap Delivery.logged).map
          (Store.eventRow .escapeFree) = labelEvents := exists_run (by decide +kernel)
  refine ⟨s, hr, hret, roundAll_agrees_with_sequential .escapeFree hr hret ?_ ?_ hpay ?_⟩
  · intro a b ha hb
    rw [hmerged] at ha hb
    have hall : ∀ a ∈ labelRows, ∀ b ∈ labelRows, a.id = b.id → a.version = b.version → a = b := by
      decide
    exact hall a (ha.resolve_left (KeyedTable.not_mem_empty a)) b
      (hb.resolve_left (KeyedTable.not_mem_empty b))
  · have hall : ∀ a ∈ labelEvents, ∀ b ∈ labelEvents, a.id = b.id → a = b := by decide
    have hin : ∀ e, puller.Offers .escapeFree
        (s.accepted.flatMap (Delivery.ofResponse .escapeFree)) e → e ∈ labelEvents := by
      rintro e (he | ⟨x, hx, rfl⟩)
      · exact absurd he (KeyedTable.not_mem_empty e)
      · exact hlogged ▸ List.mem_map_of_mem hx
    exact fun a b ha hb => hall a (hin a ha) b (hin b hb)
  · simp

end RoundAll

end Takl
