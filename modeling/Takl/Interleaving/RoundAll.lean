import Mathlib.Algebra.Order.Ring.Nat
import Takl.Interleaving.Deliveries
import Takl.Lib.Channel
import Takl.Lib.Pool

/-!
# `roundAll`: one goroutine per peer (`internal/engine/sync/sync.go`)

`roundAll` starts a `RoundOnce` for every peer and receives as many results
as there are peers from a channel with as much room. The goroutines read the
store call by call, wait for their peer, and take the response in call by
call; the scheduler interleaves all of this with itself and with local
operations.

`roundAll_returns` says that whatever the schedule and whatever the peers
answer, nobody blocks on the channel, the number of steps is bounded, and when
`roundAll` returns no round of its own is still under way. What it leaves in
the node is the subject of `Takl.Interleaving.Schedules`.
-/

namespace Takl

open Store (latest)

/-! ## How a round ends -/

namespace Puller

/-- What comes of the next call: `ok` unless the round ends there for another
reason. -/
def outcome (E : Env) (n : Node) : Puller → Outcome
  | applyRows peer _ resp =>
      if resp.rows.isEmpty then .ok
      else match n.store.applyRemote peer resp.toRows with
        | .error e => .failed e
        | .ok _ => .ok
  | applyEvents _ _ resp =>
      if resp.events.isEmpty then .ok
      else match resp.events.mapM (PbEvent.toEvent E) with
        | none => .panicked
        | some _ => .ok
  | updateClock .. | setWatermark .. | updateEventClock _ => .ok

/-- The outcome of a round whose calls come one right after the other. -/
def ending (E : Env) : Nat → Node → Option Puller → Outcome
  | k + 1, n, some q =>
      match q.outcome E n with
      | .ok => ending E k (q.next E n).1 (q.next E n).2
      | out => out
  | _, _, _ => .ok

@[simp] theorem ending_none (E : Env) (k : Nat) (n : Node) : ending E k n none = .ok := by
  cases k <;> rfl

theorem ending_applyEvents (E : Env) (k : Nat) (n : Node) (peer : String) (evWm : HLC)
    (resp : PullResponse) :
    ending E (k + 3) n (some (.applyEvents peer evWm resp)) =
      if (n.applyEvents E peer evWm resp).isSome then .ok else .panicked := by
  by_cases hnil : resp.events.isEmpty
  · simp [ending, outcome, next, Node.applyEvents, hnil]
  · cases hx : resp.events.mapM (PbEvent.toEvent E) with
    | none => simp [ending, outcome, Node.applyEvents, hnil, hx]
    | some xs => simp [ending, outcome, next, Node.applyEvents, hnil, hx]

/-- **An uninterrupted round ends as `finishRound` does.** -/
theorem ending_round (E : Env) (n : Node) (peer : String) (evWm : HLC) (resp : PullResponse) :
    ending E 5 n (some (.applyRows peer evWm resp)) = (n.finishRound E peer evWm resp).2 := by
  have hevents : ∀ n₁ : Node, n.applyRows peer resp = .ok n₁ →
      (n.finishRound E peer evWm resp).2 =
        if (n₁.applyEvents E peer evWm resp).isSome then .ok else .panicked := by
    intro n₁ h
    simp only [Node.finishRound, h]
    cases n₁.applyEvents E peer evWm resp <;> rfl
  by_cases hnil : resp.rows.isEmpty
  · rw [hevents n (if_pos hnil), ← ending_applyEvents E 1]
    simp [ending, outcome, next, hnil]
  · cases ha : n.store.applyRemote peer resp.toRows with
    | error e => simp [ending, outcome, Node.finishRound, Node.applyRows, Except.map, hnil, ha]
    | ok st =>
      have hrows : n.applyRows peer resp = .ok { n with
          store := st, clock := n.clock.update (latest HLC.zero (resp.toRows.map Row.hlc)) } := by
        simp [Node.applyRows, hnil, ha, Except.map]
      rw [hevents _ hrows, ← ending_applyEvents E 0]
      simp [ending, outcome, next, hnil, ha]

end Puller

/-! ## A goroutine -/

/-- The store calls `RoundOnce` builds its request from. -/
inductive StoreRead where
  | watermark (kind : Kind)
  | checksum (kind : Kind)
  | eventWatermark
  | eventChecksum

/-- The calls, in order. -/
def StoreRead.all : List StoreRead :=
  (kinds.flatMap fun kind => [.watermark kind, .checksum kind]) ++ [.eventWatermark, .eventChecksum]

/-- What a call adds to the request. -/
def StoreRead.into (n : Node) (peer : String) (req : PullRequest) : StoreRead → PullRequest
  | watermark kind =>
      { req with watermarks := req.watermarks ++ [(kind.name, (n.store.watermark peer kind).val)] }
  | checksum kind =>
      { req with checksums := req.checksums ++ [(kind.name, n.store.checksum kind)] }
  | eventWatermark => { req with eventWatermark := some (n.store.watermark peer kindEvent).val }
  | eventChecksum => { req with eventChecksum := n.store.checksumEvents }

/-- A request nothing has been read for. -/
def PullRequest.blank : PullRequest := ⟨[], [], none, 0⟩

/-- Reads that nothing comes between build the request. -/
theorem foldl_into_all (n : Node) (peer : String) :
    StoreRead.all.foldl (fun req r => r.into n peer req) .blank = n.request peer := rfl

/-- What `RoundOnce` returns when it does not return nil. -/
inductive RoundError where
  /-- `Watermark`, `Checksum` or `ChecksumEvents` failed. -/
  | read
  /-- `Client.Pull` failed. -/
  | pull
  /-- `ApplyRemote` failed. -/
  | apply (e : DbError)
  deriving DecidableEq, Repr

/-- A goroutine of `roundAll`. -/
inductive Round where
  /-- Reading the store; with nothing left to read, waiting for the peer. -/
  | reading (peer : String) (todo : List StoreRead) (req : PullRequest)
  /-- Taking the response in. -/
  | applying (q : Puller)
  /-- Before `errCh <- err`. -/
  | reporting (err : Option RoundError)

/-! ## `roundAll` -/

/-- `roundAll` on `peers`, and the node it runs in. -/
structure RoundAll (peers : List String) where
  node : Node
  /-- The peers the first loop has not come to. -/
  todo : List String
  rounds : List Round
  errCh : Channel (Option RoundError) peers.length
  /-- The receives the second loop has left. -/
  left : Nat
  firstErr : Option RoundError
  /-- A goroutine has panicked, and the process with it. -/
  crashed : Bool
  /-- History: the errors rounds have ended with. -/
  failures : List RoundError
  /-- History: the responses whose rows went in. -/
  accepted : List (String × PullResponse)
  /-- History: the deliveries made. -/
  made : List Delivery

/-- The scheduler's choices. -/
inductive RoundAllAction where
  /-- One iteration of the first loop. -/
  | spawn
  /-- The goroutine at that place reads the store. -/
  | read (k : Nat)
  /-- Its read or its pull fails. -/
  | fail (k : Nat)
  /-- Its peer answers, with anything. -/
  | answer (k : Nat) (resp : PullResponse)
  /-- It makes its next call. -/
  | call (k : Nat)
  /-- It sends its result and ends. -/
  | report (k : Nat)
  /-- One iteration of the second loop. -/
  | collect
  /-- Something else in the process. -/
  | perform (op : NodeOp)

/-- A step of `roundAll` and its goroutines. -/
def RoundAllAction.own : RoundAllAction → Bool
  | perform _ => false
  | spawn | read _ | fail _ | answer .. | call _ | report _ | collect => true

/-- The goroutine an action is a step of. -/
def RoundAllAction.place : RoundAllAction → Option Nat
  | read k | fail k | answer k _ | call k | report k => some k
  | spawn | collect | perform _ => none

/-- The delivery of the next call of a round, if it does not fail. -/
def Puller.delivery (E : Env) : Puller → List Delivery
  | applyRows peer _ resp => if resp.rows.isEmpty then [] else [.rows peer resp.toRows]
  | updateClock _ _ resp => [.clock (resp.toRows.map Row.hlc)]
  | applyEvents _ _ resp =>
      if resp.events.isEmpty then []
      else ((resp.events.mapM (PbEvent.toEvent E)).map fun xs => [Delivery.events xs]).getD []
  | setWatermark peer _ xs => [.mark peer (xs.map Event.hlc)]
  | updateEventClock xs => [.clock (xs.map Event.hlc)]

/-- The response whose rows the next call of a round takes in. -/
def Puller.accepts : Puller → List (String × PullResponse)
  | applyRows peer _ resp => [(peer, resp)]
  | updateClock .. | applyEvents .. | setWatermark .. | updateEventClock _ => []

/-- A round after a call that did not fail. -/
def Round.resume : Option Puller → Round
  | some q => .applying q
  | none => .reporting none

/-- The error of a round that has not got a response. -/
def RoundError.early : List StoreRead → RoundError
  | [] => .pull
  | _ :: _ => .read

namespace RoundAll

open Runs Pool

variable {peers : List String}

/-- `roundAll` once it has its peers. -/
def start (peers : List String) (n : Node) : RoundAll peers :=
  { node := n, todo := peers, rounds := [], errCh := .empty, left := peers.length
    firstErr := none, crashed := false, failures := [], accepted := [], made := [] }

/-- The goroutine at place `k` goes on as `r`. -/
def setRound (s : RoundAll peers) (k : Nat) (r : Round) : RoundAll peers :=
  { s with rounds := s.rounds.set k r }

/-- One step; a process that has crashed takes none. -/
def step (E : Env) (s : RoundAll peers) (a : RoundAllAction) : Option (RoundAll peers) :=
  if s.crashed then none
  else match a with
    | .spawn =>
        match s.todo with
        | [] => none
        | p :: ps =>
            if p = "" then (s.errCh.send none).map fun c => { s with todo := ps, errCh := c }
            else some { s with
              todo := ps, rounds := s.rounds ++ [.reading p StoreRead.all .blank] }
    | .read k =>
        match s.rounds[k]? with
        | some (.reading p (r :: rs) req) => some (s.setRound k (.reading p rs (r.into s.node p req)))
        | _ => none
    | .fail k =>
        match s.rounds[k]? with
        | some (.reading _ rs _) =>
            some { s.setRound k (.reporting (some (.early rs))) with
              failures := .early rs :: s.failures }
        | _ => none
    | .answer k resp =>
        match s.rounds[k]? with
        | some (.reading p [] req) =>
            some (s.setRound k
              (.applying (.applyRows p (req.eventWatermark.getD HLC.zero) resp)))
        | _ => none
    | .call k =>
        match s.rounds[k]? with
        | some (.applying q) =>
            match q.outcome E s.node with
            | .ok =>
                some { s.setRound k (.resume (q.next E s.node).2) with
                  node := (q.next E s.node).1
                  accepted := s.accepted ++ q.accepts
                  made := s.made ++ q.delivery E }
            | .failed e =>
                some { s.setRound k (.reporting (some (.apply e))) with
                  failures := .apply e :: s.failures }
            | .panicked => some { s with crashed := true }
        | _ => none
    | .report k =>
        match s.rounds[k]? with
        | some (.reporting err) =>
            (s.errCh.send err).map fun c => { s with rounds := s.rounds.eraseIdx k, errCh := c }
        | _ => none
    | .collect =>
        match s.todo, s.left with
        | [], left + 1 =>
            s.errCh.receive.map fun x => { s with
              errCh := x.2, left, firstErr := s.firstErr.or x.1 }
        | _, _ => none
    | .perform op => some { s with node := op.exec E s.node }

/-- `roundAll` has returned. -/
def Returned (s : RoundAll peers) : Prop := s.left = 0

instance (s : RoundAll peers) : Decidable s.Returned := inferInstanceAs (Decidable (_ = _))

/-! ## Everything a step can do -/

/-- What a step can do. -/
inductive Step (E : Env) (s : RoundAll peers) : RoundAllAction → RoundAll peers → Prop
  | skip {ps : List String} {c : Channel (Option RoundError) peers.length}
      (htodo : s.todo = "" :: ps) (hsend : s.errCh.send none = some c) :
      Step E s .spawn { s with todo := ps, errCh := c }
  | spawn {p : String} {ps : List String} (htodo : s.todo = p :: ps) :
      Step E s .spawn
        { s with todo := ps, rounds := s.rounds ++ [.reading p StoreRead.all .blank] }
  | read {k : Nat} {p : String} {r : StoreRead} {rs : List StoreRead} {req : PullRequest}
      (hk : s.rounds[k]? = some (.reading p (r :: rs) req)) :
      Step E s (.read k) (s.setRound k (.reading p rs (r.into s.node p req)))
  | fail {k : Nat} {p : String} {rs : List StoreRead} {req : PullRequest}
      (hk : s.rounds[k]? = some (.reading p rs req)) :
      Step E s (.fail k) { s.setRound k (.reporting (some (.early rs))) with
        failures := .early rs :: s.failures }
  | answer {k : Nat} {p : String} {req : PullRequest} (resp : PullResponse)
      (hk : s.rounds[k]? = some (.reading p [] req)) :
      Step E s (.answer k resp) (s.setRound k
        (.applying (.applyRows p (req.eventWatermark.getD HLC.zero) resp)))
  | call {k : Nat} {q : Puller} (hk : s.rounds[k]? = some (.applying q))
      (hout : q.outcome E s.node = .ok) :
      Step E s (.call k) { s.setRound k (.resume (q.next E s.node).2) with
        node := (q.next E s.node).1
        accepted := s.accepted ++ q.accepts
        made := s.made ++ q.delivery E }
  | refuse {k : Nat} {q : Puller} {e : DbError} (hk : s.rounds[k]? = some (.applying q))
      (hout : q.outcome E s.node = .failed e) :
      Step E s (.call k) { s.setRound k (.reporting (some (.apply e))) with
        failures := .apply e :: s.failures }
  | crash {k : Nat} {q : Puller} (hk : s.rounds[k]? = some (.applying q)) :
      Step E s (.call k) { s with crashed := true }
  | report {k : Nat} {err : Option RoundError} {c : Channel (Option RoundError) peers.length}
      (hk : s.rounds[k]? = some (.reporting err)) (hsend : s.errCh.send err = some c) :
      Step E s (.report k) { s with rounds := s.rounds.eraseIdx k, errCh := c }
  | collect {left : Nat} {err : Option RoundError}
      {c : Channel (Option RoundError) peers.length} (htodo : s.todo = [])
      (hleft : s.left = left + 1) (hrecv : s.errCh.receive = some (err, c)) :
      Step E s .collect { s with errCh := c, left, firstErr := s.firstErr.or err }
  | perform (op : NodeOp) : Step E s (.perform op) { s with node := op.exec E s.node }

theorem step_cases {E : Env} {s t : RoundAll peers} {a : RoundAllAction}
    (h : step E s a = some t) : s.crashed = false ∧ Step E s a t := by
  unfold step at h
  split at h
  · cases h
  · next hc =>
    refine ⟨by simpa using hc, ?_⟩
    cases a with
    | spawn =>
      dsimp only at h
      split at h
      · cases h
      · next htodo =>
        split at h
        · next hp =>
          obtain ⟨c, hsend, rfl⟩ := Option.map_eq_some_iff.mp h
          exact .skip (hp ▸ htodo) hsend
        · cases h
          exact .spawn htodo
    | read k =>
      dsimp only at h
      split at h
      · next hk =>
        cases h
        exact .read hk
      · cases h
    | fail k =>
      dsimp only at h
      split at h
      · next hk =>
        cases h
        exact .fail hk
      · cases h
    | answer k resp =>
      dsimp only at h
      split at h
      · next hk =>
        cases h
        exact .answer resp hk
      · cases h
    | call k =>
      dsimp only at h
      split at h
      · next hk =>
        split at h
        · next hout =>
          cases h
          exact .call hk hout
        · next hout =>
          cases h
          exact .refuse hk hout
        · cases h
          exact .crash hk
      · cases h
    | report k =>
      dsimp only at h
      split at h
      · next hk =>
        obtain ⟨c, hsend, rfl⟩ := Option.map_eq_some_iff.mp h
        exact .report hk hsend
      · cases h
    | collect =>
      dsimp only at h
      split at h
      · next htodo hleft =>
        obtain ⟨⟨err, c⟩, hrecv, rfl⟩ := Option.map_eq_some_iff.mp h
        exact .collect htodo hleft hrecv
      · cases h
    | perform op =>
      cases h
      exact .perform op

/-! ## Nobody waits -/

/-- An error that has been returned and is on its way to the caller. -/
def InTransit (s : RoundAll peers) (e : RoundError) : Prop :=
  .reporting (some e) ∈ s.rounds ∨ some e ∈ s.errCh.queue ∨ s.firstErr = some e

/-- Every peer is in one place: not started, under way, or reported and not
yet received. -/
structure Balanced (s : RoundAll peers) : Prop where
  count : s.todo.length + s.rounds.length + s.errCh.queue.length = s.left
  le : s.left ≤ peers.length
  crash : s.crashed = true → s.rounds ≠ []
  known : ∀ e, s.InTransit e → e ∈ s.failures
  visible : s.failures ≠ [] → ∃ e, s.InTransit e

theorem balanced_start (peers : List String) (n : Node) : Balanced (start peers n) where
  count := by simp [start, Channel.empty]
  le := le_rfl
  crash := nofun
  known e he := by simp [InTransit, start, Channel.empty] at he
  visible := nofun

/-- A goroutine goes on and has not returned an error. -/
theorem Balanced.setRound {s : RoundAll peers} (hs : s.Balanced) {k : Nat} {r r' : Round}
    (hk : s.rounds[k]? = some r) (hr : ∀ e, r ≠ .reporting (some e))
    (hr' : ∀ e, r' ≠ .reporting (some e)) : (s.setRound k r').Balanced where
  count := by simpa [RoundAll.setRound] using hs.count
  le := hs.le
  crash := fun hc => by simpa [RoundAll.setRound] using hs.crash hc
  known e he := by
    refine hs.known e (he.imp_left fun he => ?_)
    rcases List.mem_cons.mp ((set_perm_cons hk r').mem_iff.mp he) with he | he
    · exact absurd he.symm (hr' e)
    · exact List.mem_of_mem_eraseIdx he
  visible hf := by
    obtain ⟨e, he⟩ := hs.visible hf
    refine ⟨e, he.imp_left fun he => ?_⟩
    rcases List.mem_cons.mp ((perm_cons_eraseIdx hk).mem_iff.mp he) with he | he
    · exact absurd he.symm (hr e)
    · exact (set_perm_cons hk r').mem_iff.mpr (List.mem_cons_of_mem _ he)

/-- A goroutine returns an error. -/
theorem Balanced.fail {s : RoundAll peers} (hs : s.Balanced) {k : Nat} {r : Round}
    (hk : s.rounds[k]? = some r) (e : RoundError) :
    Balanced { s.setRound k (.reporting (some e)) with failures := e :: s.failures } where
  count := by simpa [RoundAll.setRound] using hs.count
  le := hs.le
  crash := fun hc => by simpa [RoundAll.setRound] using hs.crash hc
  known x hx := by
    rcases hx with hx | hx
    · rcases List.mem_cons.mp ((set_perm_cons hk _).mem_iff.mp hx) with hx | hx
      · cases hx
        exact List.mem_cons_self
      · exact List.mem_cons_of_mem _ (hs.known x (.inl (List.mem_of_mem_eraseIdx hx)))
    · exact List.mem_cons_of_mem _ (hs.known x (.inr hx))
  visible _ := ⟨e, .inl ((set_perm_cons hk _).mem_iff.mpr List.mem_cons_self)⟩

/-- **No step loses a peer**: a result leaves the goroutine for the channel,
and the channel for the caller. -/
theorem Balanced.step {E : Env} {s t : RoundAll peers} {a : RoundAllAction} (hs : s.Balanced)
    (h : RoundAll.step E s a = some t) : t.Balanced := by
  obtain ⟨halive, hstep⟩ := step_cases h
  have hcount := hs.count
  cases hstep with
  | skip htodo hsend =>
    have hq := Channel.queue_of_send hsend
    refine ⟨?_, hs.le, hs.crash, fun e he => hs.known e ?_, fun hf => ?_⟩
    · rw [htodo, List.length_cons] at hcount
      simp only [hq, List.length_append, List.length_singleton]
      omega
    · simpa [InTransit, hq] using he
    · simpa [InTransit, hq] using hs.visible hf
  | spawn htodo =>
    refine ⟨?_, hs.le, fun _ => by simp, fun e he => hs.known e ?_, fun hf => ?_⟩
    · rw [htodo, List.length_cons] at hcount
      simp only [List.length_append, List.length_singleton]
      omega
    · simpa [InTransit] using he
    · simpa [InTransit] using hs.visible hf
  | read hk => exact hs.setRound hk nofun nofun
  | fail hk => exact hs.fail hk _
  | answer resp hk => exact hs.setRound hk nofun nofun
  | @call k q hk hout =>
    have hresume : ∀ e, Round.resume (q.next E s.node).2 ≠ .reporting (some e) := by
      intro e
      cases (q.next E s.node).2 <;> nofun
    obtain ⟨hc, hle, hcr, hkn, hvis⟩ := hs.setRound hk nofun hresume
    exact ⟨hc, hle, hcr, hkn, hvis⟩
  | refuse hk => exact hs.fail hk _
  | crash hk =>
    refine ⟨hs.count, hs.le, fun _ => ?_, hs.known, hs.visible⟩
    exact List.ne_nil_of_mem (List.mem_of_getElem? hk)
  | @report k err c hk hsend =>
    have hq := Channel.queue_of_send hsend
    have hperm := perm_cons_eraseIdx hk
    refine ⟨?_, hs.le, fun hc => absurd hc (by simp [halive]), fun e he => hs.known e ?_,
      fun hf => ?_⟩
    · have hlen := hperm.length_eq
      simp only [hq, List.length_append, List.length_cons, List.length_nil] at hlen ⊢
      omega
    · simp only [InTransit, hq, List.mem_append, List.mem_singleton] at he
      rcases he with he | (he | he) | he
      · exact .inl (List.mem_of_mem_eraseIdx he)
      · exact .inr (.inl he)
      · exact .inl (he ▸ List.mem_of_getElem? hk)
      · exact .inr (.inr he)
    · obtain ⟨e, he | he⟩ := hs.visible hf
      · rcases List.mem_cons.mp (hperm.mem_iff.mp he) with he | he
        · cases he
          exact ⟨e, .inr (.inl (by simp [hq]))⟩
        · exact ⟨e, .inl he⟩
      · refine ⟨e, .inr (he.imp_left fun he => ?_)⟩
        simp [hq, he]
  | @collect left err c htodo hleft hrecv =>
    have hq := Channel.queue_of_receive hrecv
    refine ⟨?_, ?_, hs.crash, fun e he => hs.known e ?_, fun hf => ?_⟩
    · rw [hq, hleft, List.length_cons] at hcount
      simp only
      omega
    · have hle := hs.le
      simp only
      omega
    · rcases he with he | he | he
      · exact .inl he
      · exact .inr (.inl (hq ▸ List.mem_cons_of_mem _ he))
      · rcases Option.or_eq_some_iff.mp he with he | ⟨-, he⟩
        · exact .inr (.inr he)
        · exact .inr (.inl (hq ▸ he ▸ List.mem_cons_self))
    · obtain ⟨e, he | he | he⟩ := hs.visible hf
      · exact ⟨e, .inl he⟩
      · rw [hq] at he
        rcases List.mem_cons.mp he with he | he
        · -- it becomes the first error, unless there is one already
          cases hfirst : s.firstErr with
          | none => exact ⟨e, .inr (.inr (by simp [← he]))⟩
          | some e' => exact ⟨e', .inr (.inr (by simp))⟩
        · exact ⟨e, .inr (.inl he)⟩
      · exact ⟨e, .inr (.inr (by simp [he]))⟩
  | perform op => exact ⟨hs.count, hs.le, hs.crash, hs.known, hs.visible⟩

/-- **No peer is lost** in a whole call. -/
theorem Balanced.run {E : Env} {s t : RoundAll peers} {as : List RoundAllAction}
    {ok : RoundAll peers → RoundAllAction → Prop} (hs : s.Balanced)
    (hr : Run (RoundAll.step E) ok s as t) : t.Balanced :=
  hr.invariant (I := Balanced) (fun _ _ _ hs _ h => hs.step h) hs

/-! ## How long it takes -/

end RoundAll

/-- The steps a round has left, its result's receive included. -/
def Puller.weight : Puller → Nat
  | applyRows .. => 7
  | updateClock .. => 6
  | applyEvents .. => 5
  | setWatermark .. => 4
  | updateEventClock _ => 3

theorem Puller.weight_next (E : Env) (n : Node) (q : Puller) :
    ∀ q' ∈ (q.next E n).2, q'.weight < q.weight := by
  intro q' hq'
  cases q with
  | applyRows peer evWm resp =>
    simp only [next] at hq'
    split at hq'
    · cases hq'
      simp [weight]
    · split at hq'
      · cases hq'
      · cases hq'
        simp [weight]
  | applyEvents peer evWm resp =>
    simp only [next] at hq'
    split at hq'
    · cases hq'
    · split at hq'
      · cases hq'
      · cases hq'
        simp [weight]
  | updateClock | setWatermark =>
    cases hq'
    simp [weight]
  | updateEventClock => cases hq'

/-- The same for a goroutine. -/
def Round.weight : Round → Nat
  | reading _ todo _ => 8 + todo.length
  | applying q => q.weight
  | reporting _ => 2

theorem Puller.two_lt_weight (q : Puller) : 2 < q.weight := by
  cases q <;> simp [weight]

theorem Round.weight_resume (E : Env) (n : Node) (q : Puller) :
    (Round.resume (q.next E n).2).weight < q.weight := by
  have hnext := q.weight_next E n
  cases hq : (q.next E n).2 with
  | none => exact q.two_lt_weight
  | some q' => exact hnext q' hq

namespace RoundAll

variable {peers : List String}

open Runs Pool

/-- The steps left, and one for the crash. -/
def measure (s : RoundAll peers) : Nat :=
  15 * s.todo.length + (s.rounds.map Round.weight).sum + s.errCh.queue.length +
    if s.crashed then 0 else 1

theorem measure_start (peers : List String) (n : Node) :
    (start peers n).measure = 15 * peers.length + 1 := by
  simp [measure, start, Channel.empty]

/-- A goroutine that goes on has less to do. -/
theorem measure_setRound {s : RoundAll peers} {k : Nat} {r r' : Round}
    (hk : s.rounds[k]? = some r) (hlt : r'.weight < r.weight) :
    (s.setRound k r').measure < s.measure := by
  show 15 * s.todo.length + ((s.rounds.set k r').map Round.weight).sum + s.errCh.queue.length +
    (if s.crashed then 0 else 1) < s.measure
  rw [measure, sum_map_set _ hk, sum_map_place _ hk]
  omega

/-- **Every step of `roundAll` brings its end nearer.** -/
theorem measure_step {E : Env} {s t : RoundAll peers} {a : RoundAllAction}
    (h : step E s a = some t) :
    t.measure + (if a.own then 1 else 0) ≤ s.measure := by
  obtain ⟨halive, hstep⟩ := step_cases h
  cases hstep with
  | skip htodo hsend =>
    simp only [measure, htodo, Channel.queue_of_send hsend, List.length_append, List.length_cons,
      List.length_nil]
    simp [RoundAllAction.own]
    omega
  | spawn htodo =>
    have hall : StoreRead.all.length = 6 := rfl
    simp only [measure, htodo, List.map_append, List.map_cons, List.map_nil, List.sum_append,
      List.sum_cons, List.sum_nil, List.length_cons, Round.weight, hall]
    simp [RoundAllAction.own]
    omega
  | read hk => exact measure_setRound hk (by simp [Round.weight])
  | fail hk => exact measure_setRound hk (by simp only [Round.weight]; omega)
  | answer resp hk => exact measure_setRound hk (by simp [Round.weight, Puller.weight])
  | call hk => exact measure_setRound hk (Round.weight_resume E s.node _)
  | @refuse k q e hk hout => exact measure_setRound hk q.two_lt_weight
  | crash =>
    simp [measure, halive, RoundAllAction.own]
  | report hk hsend =>
    simp only [measure, Channel.queue_of_send hsend, sum_map_place _ hk, List.length_append,
      List.length_cons, List.length_nil, Round.weight]
    simp only [RoundAllAction.own, if_true]
    omega
  | collect htodo hleft hrecv =>
    simp only [measure, Channel.queue_of_receive hrecv, List.length_cons]
    simp only [RoundAllAction.own, if_true]
    omega
  | perform op => simp [measure, RoundAllAction.own]

/-! ## The call as a whole -/

/-- No goroutine is ever stuck: each has a step of its own to take. -/
theorem Balanced.exists_step {s : RoundAll peers} (hs : s.Balanced) (E : Env)
    (halive : s.crashed = false) {k : Nat} (hk : k < s.rounds.length) :
    ∃ a : RoundAllAction, a.place = some k ∧ (RoundAll.step E s a).isSome := by
  have hat : s.rounds[k]? = some s.rounds[k] := List.getElem?_eq_getElem hk
  cases hr : s.rounds[k] with
  | reading p todo req =>
    refine ⟨.fail k, rfl, ?_⟩
    simp [RoundAll.step, halive, hat, hr]
  | applying q =>
    refine ⟨.call k, rfl, ?_⟩
    cases hout : q.outcome E s.node <;> simp [RoundAll.step, halive, hat, hr, hout]
  | reporting err =>
    -- its own place in the count is the room in the buffer
    obtain ⟨c, hsend⟩ := Channel.exists_send (c := s.errCh)
      (by have := hs.count; have := hs.le; omega) err
    refine ⟨.report k, rfl, ?_⟩
    simp [RoundAll.step, halive, hat, hr, hsend]

theorem Balanced.exists_spawn {s : RoundAll peers} (hs : s.Balanced) (E : Env)
    (halive : s.crashed = false) (htodo : s.todo ≠ []) : (RoundAll.step E s .spawn).isSome := by
  obtain ⟨p, ps, hps⟩ := List.exists_cons_of_ne_nil htodo
  have hcount := hs.count
  rw [hps, List.length_cons] at hcount
  by_cases hp : p = ""
  · obtain ⟨c, hsend⟩ := Channel.exists_send (c := s.errCh) (by have := hs.le; omega) none
    simp [RoundAll.step, halive, hps, hp, hsend]
  · simp [RoundAll.step, halive, hps, hp]

theorem Balanced.exists_collect {s : RoundAll peers} (hs : s.Balanced) (E : Env)
    (halive : s.crashed = false) (htodo : s.todo = []) (hrounds : s.rounds = [])
    (hleft : ¬s.Returned) : (RoundAll.step E s .collect).isSome := by
  obtain ⟨left, hl⟩ := Nat.exists_eq_succ_of_ne_zero hleft
  have hcount := hs.count
  rw [htodo, hrounds, hl] at hcount
  obtain ⟨err, c, hrecv⟩ := Channel.exists_receive (c := s.errCh)
    (List.ne_nil_of_length_pos (by simp at hcount; omega))
  simp [RoundAll.step, halive, htodo, hl, hrecv]

/-- Once everything is received nothing is left over. -/
theorem Balanced.of_returned {s : RoundAll peers} (hs : s.Balanced) (h : s.Returned) :
    s.todo = [] ∧ s.rounds = [] ∧ s.errCh.queue = [] ∧ s.crashed = false := by
  have hcount := hs.count
  rw [h] at hcount
  have hrounds : s.rounds = [] := List.eq_nil_of_length_eq_zero (by omega)
  refine ⟨List.eq_nil_of_length_eq_zero (by omega), hrounds,
    List.eq_nil_of_length_eq_zero (by omega), ?_⟩
  cases hc : s.crashed with
  | false => rfl
  | true => exact absurd hrounds (hs.crash hc)

/-- **`roundAll` returns.** In every schedule, with any answers and failures
of the peers and anything else going on in the process: it takes at most
fifteen steps a peer and one; until it returns or a panic ends the process, the
loop over the peers and every goroutine can go on without waiting for the
channel, and the receiving loop finds a result once they are through. When it
returns, no goroutine and no result is left behind, and the error is nil
exactly if no round failed, and else the error of one that did. -/
theorem roundAll_returns (E : Env) {peers : List String} {n : Node}
    {as : List RoundAllAction} {s : RoundAll peers}
    (hr : Run (step E) (fun _ _ => True) (start peers n) as s) :
    as.countP RoundAllAction.own ≤ 15 * peers.length + 1 ∧
      (s.crashed = false →
        (s.todo ≠ [] → (step E s .spawn).isSome) ∧
        (∀ k < s.rounds.length,
          ∃ a : RoundAllAction, a.place = some k ∧ (step E s a).isSome) ∧
        (s.todo = [] → s.rounds = [] → ¬s.Returned → (step E s .collect).isSome)) ∧
      (s.Returned → s.todo = [] ∧ s.rounds = [] ∧ s.errCh.queue = [] ∧ s.crashed = false ∧
        (s.firstErr = none ↔ s.failures = []) ∧ ∀ e ∈ s.firstErr, e ∈ s.failures) := by
  have hs := (balanced_start peers n).run hr
  refine ⟨?_, fun halive => ⟨hs.exists_spawn E halive, fun k hk => hs.exists_step E halive hk,
    hs.exists_collect E halive⟩, fun hret => ?_⟩
  · have hle := hr.countP_le (m := measure) (p := RoundAllAction.own) fun _ _ _ _ h =>
      measure_step h
    rw [measure_start] at hle
    omega
  · obtain ⟨htodo, hrounds, hqueue, halive⟩ := hs.of_returned hret
    refine ⟨htodo, hrounds, hqueue, halive, ⟨fun hnone => ?_, fun hnil => ?_⟩,
      fun e he => hs.known e (.inr (.inr he))⟩
    · by_contra hf
      obtain ⟨e, he⟩ := hs.visible hf
      simp [InTransit, hrounds, hqueue, hnone] at he
    · cases hfirst : s.firstErr with
      | none => rfl
      | some e =>
        have hmem := hs.known e (.inr (.inr hfirst))
        rw [hnil] at hmem
        cases hmem

/-- A peer without an address, one that fails and one that answers; in the
meantime the agent steps. -/
def oneFails : List RoundAllAction :=
  [.spawn, .spawn, .perform (.step 20 (Demo.runner 0)), .read 0, .spawn, .fail 0] ++
    List.replicate 6 (.read 1) ++
    [.answer 1 ⟨Demo.nodeID 1, [], [], [], 0⟩, .report 0, .collect, .call 0, .collect, .call 0,
      .report 0, .collect]

theorem roundAll_returns_oneFails : ∃ s : RoundAll ["", "10.0.0.1:7001", "10.0.0.2:7001"],
    Run (step .escapeFree) (fun _ _ => True)
      (start _ (.fresh (Demo.nodeID 0) Demo.epoch "10.0.0.0:7001")) oneFails s ∧
    s.Returned ∧ s.rounds = [] ∧ ¬s.firstErr = none := by
  obtain ⟨s, hr, hret, hfail⟩ : ∃ s : RoundAll ["", "10.0.0.1:7001", "10.0.0.2:7001"],
      Run (step .escapeFree) (fun _ _ => True)
        (start _ (.fresh (Demo.nodeID 0) Demo.epoch "10.0.0.0:7001")) oneFails s ∧
      s.Returned ∧ s.failures = [.read] := exists_run (by decide +kernel)
  obtain ⟨-, -, hdone⟩ := roundAll_returns .escapeFree hr
  obtain ⟨-, hrounds, -, -, herr, -⟩ := hdone hret
  exact ⟨s, hr, hret, hrounds, fun hnone => by simp [herr.mp hnone] at hfail⟩

end RoundAll

end Takl
