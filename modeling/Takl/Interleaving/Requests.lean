import Takl.Lib.KeyedTable
import Takl.Lib.Pool
import Takl.Lib.Runs

/-!
# Counting requests (`observeHTTP` in `internal/api`, `internal/metrics`)

Every request runs in a goroutine of its own. `observeHTTP` gives the handler
a `statusRecorder` and counts what that has recorded: `StatusCounters.Inc`
finds or makes the counter of the status under the mutex, lets the mutex go,
and then adds to it. `Write` holds the mutex for reading while it loads one
counter after the other, so a scrape is no snapshot: requests that hold their
counter already are counted meanwhile.

`requests_counted` says that no interleaving loses a request or counts one
under another status than the one sent; `scrape_within_bounds` what a scrape
shows all the same.
-/

namespace Takl

/-! ## What is recorded of a response -/

/-- A call on the `http.ResponseWriter`. -/
inductive WriterCall where
  | writeHeader (status : Nat)
  | write
  deriving DecidableEq, Repr

/-- `statusRecorder.WriteHeader` and `statusRecorder.Write`. -/
def statusRecorder (status : Nat) : WriterCall → Nat
  | .writeHeader s => s
  | .write => if status = 0 then 200 else status

/-- `rec.status` as `observeHTTP` counts it. -/
def recordedStatus (calls : List WriterCall) : Nat :=
  let status := calls.foldl statusRecorder 0
  if status = 0 then 200 else status

/-- The status `net/http` sends: that of the first `WriteHeader`, unless
something was written before or nothing is called at all. -/
def sentStatus : List WriterCall → Nat
  | .writeHeader s :: _ => s
  | .write :: _ | [] => 200

/-- The handler sets the status first, if it does. -/
def HeaderFirst : List WriterCall → Prop
  | [] => True
  | c :: calls => c ≠ .writeHeader 0 ∧ ∀ c ∈ calls, c = .write

instance : DecidablePred HeaderFirst
  | [] => isTrue trivial
  | _ :: _ => inferInstanceAs (Decidable (_ ∧ _))

theorem foldl_write {status : Nat} (hs : status ≠ 0) {calls : List WriterCall}
    (h : ∀ c ∈ calls, c = .write) : calls.foldl statusRecorder status = status := by
  induction calls with
  | nil => rfl
  | cons c calls ih =>
    rw [List.forall_mem_cons] at h
    rw [List.foldl_cons, h.1, statusRecorder, if_neg hs]
    exact ih h.2

/-- What is recorded is what is sent. -/
theorem recordedStatus_eq {calls : List WriterCall} (h : HeaderFirst calls) :
    recordedStatus calls = sentStatus calls := by
  cases calls with
  | nil => rfl
  | cons c calls =>
    obtain ⟨hc, hrest⟩ := h
    cases c with
    | writeHeader s =>
      have hs : s ≠ 0 := fun h0 => hc (h0 ▸ rfl)
      have hfold : ((WriterCall.writeHeader s :: calls).foldl statusRecorder 0) = s :=
        foldl_write hs hrest
      simp only [recordedStatus, hfold, hs, if_false, sentStatus]
    | write =>
      have hfold : ((WriterCall.write :: calls).foldl statusRecorder 0) = 200 :=
        foldl_write (by decide) hrest
      simp [recordedStatus, hfold, sentStatus]

/-! ## The counters -/

/-- An entry of `values`: a status and its `*Counter`, by number. -/
structure CounterRef where
  status : Nat
  number : Nat
  deriving DecidableEq, Repr

/-- `metrics.StatusCounters`, and the counters it has made. -/
structure StatusCounters where
  values : KeyedTable CounterRef.status
  counters : List UInt64

namespace StatusCounters

def empty : StatusCounters := ⟨.empty, []⟩

/-- `Inc` while it holds the mutex. -/
def lookup (s : StatusCounters) (status : Nat) : StatusCounters × CounterRef :=
  match s.values.get status with
  | some c => (s, c)
  | none =>
      let c : CounterRef := ⟨status, s.counters.length⟩
      (⟨s.values.upsert c, s.counters ++ [0]⟩, c)

/-- `Counter.Load`. -/
def load (s : StatusCounters) (c : CounterRef) : UInt64 := (s.counters[c.number]?).getD 0

/-- `Counter.Inc`. -/
def inc (s : StatusCounters) (c : CounterRef) : StatusCounters :=
  { s with counters := s.counters.set c.number (s.load c + 1) }

/-- What `Write` shows of a status if nothing comes between; `0` when it
shows nothing. -/
def value (s : StatusCounters) (status : Nat) : UInt64 := ((s.values.get status).map s.load).getD 0

end StatusCounters

/-! ## Requests and scrapes -/

/-- A request in `observeHTTP`. -/
inductive Observed where
  | serving
  /-- The handler has panicked; `net/http` drops the connection. -/
  | panicked
  /-- `ServeHTTP` has returned. -/
  | returned (calls : List WriterCall)
  /-- `Inc` has its counter. -/
  | found (calls : List WriterCall) (c : CounterRef)
  | counted (calls : List WriterCall)
  deriving DecidableEq, Repr

namespace Observed

/-- The response, once it is given. -/
def response : Observed → Option (List WriterCall)
  | serving | panicked => none
  | returned calls | found calls _ | counted calls => some calls

/-- A response with this status has been sent. -/
def answered (status : Nat) (o : Observed) : Bool :=
  o.response.any fun calls => sentStatus calls == status

/-- It has been counted. -/
def isCounted (status : Nat) : Observed → Bool
  | counted calls => recordedStatus calls == status
  | serving | panicked | returned _ | found .. => false

/-- It is about to be counted. -/
def pending : Observed → Bool
  | returned _ | found .. => true
  | serving | panicked | counted _ => false

end Observed

/-- A call of `StatusCounters.Write`. -/
inductive Scrape where
  | waiting
  /-- It has the mutex, and entries left to show. -/
  | reading (todo : List CounterRef) (out : List (Nat × UInt64))
  | done (out : List (Nat × UInt64))
  deriving DecidableEq, Repr

def Scrape.isReading : Scrape → Bool
  | reading .. => true
  | waiting | done _ => false

/-- The process, as far as requests are counted. -/
structure HttpMetrics where
  http : StatusCounters
  requests : List Observed
  scrapes : List Scrape

inductive HttpAction where
  | arrive
  | respond (k : Nat) (calls : List WriterCall)
  | panic (k : Nat)
  | lookup (k : Nat)
  | inc (k : Nat)
  | scrape
  /-- `RLock`; the map is ranged over in this order. -/
  | lock (k : Nat) (order : List CounterRef)
  | load (k : Nat)
  | unlock (k : Nat)
  deriving DecidableEq, Repr

/-- Handlers set the status first. -/
def HttpAction.HeaderFirst : HttpAction → Prop
  | respond _ calls => Takl.HeaderFirst calls
  | _ => True

instance : DecidablePred HttpAction.HeaderFirst
  | .respond _ calls => inferInstanceAs (Decidable (HeaderFirst calls))
  | .arrive | .panic _ | .lookup _ | .inc _ | .scrape | .lock .. | .load _ | .unlock _ =>
      isTrue trivial

namespace HttpMetrics

open Runs

def start : HttpMetrics := ⟨.empty, [], []⟩

def setRequest (m : HttpMetrics) (k : Nat) (o : Observed) : HttpMetrics :=
  { m with requests := m.requests.set k o }

def setScrape (m : HttpMetrics) (k : Nat) (w : Scrape) : HttpMetrics :=
  { m with scrapes := m.scrapes.set k w }

/-- One step. The mutex is held by the scrapes that read; `lookup` needs it
for itself. -/
def step (m : HttpMetrics) : HttpAction → Option HttpMetrics
  | .arrive => some { m with requests := m.requests ++ [.serving] }
  | .respond k calls =>
      match m.requests[k]? with
      | some .serving => some (m.setRequest k (.returned calls))
      | _ => none
  | .panic k =>
      match m.requests[k]? with
      | some .serving => some (m.setRequest k .panicked)
      | _ => none
  | .lookup k =>
      match m.requests[k]? with
      | some (.returned calls) =>
          if m.scrapes.any Scrape.isReading then none
          else
            let (http, c) := m.http.lookup (recordedStatus calls)
            some { m.setRequest k (.found calls c) with http }
      | _ => none
  | .inc k =>
      match m.requests[k]? with
      | some (.found calls c) => some { m.setRequest k (.counted calls) with http := m.http.inc c }
      | _ => none
  | .scrape => some { m with scrapes := m.scrapes ++ [.waiting] }
  | .lock k order =>
      match m.scrapes[k]? with
      | some .waiting =>
          if order.Perm m.http.values.rows then some (m.setScrape k (.reading order [])) else none
      | _ => none
  | .load k =>
      match m.scrapes[k]? with
      | some (.reading (c :: todo) out) =>
          some (m.setScrape k (.reading todo (out ++ [(c.status, m.http.load c)])))
      | _ => none
  | .unlock k =>
      match m.scrapes[k]? with
      | some (.reading [] out) => some (m.setScrape k (.done out))
      | _ => none

/-- Responses sent with this status. -/
def answered (m : HttpMetrics) (status : Nat) : Nat := m.requests.countP (Observed.answered status)

/-- Those of them that have been counted. -/
def counted (m : HttpMetrics) (status : Nat) : Nat := m.requests.countP (Observed.isCounted status)

/-! ## Everything a step can do -/

/-- What a step can do. -/
inductive Step (m : HttpMetrics) : HttpAction → HttpMetrics → Prop
  | arrive : Step m .arrive { m with requests := m.requests ++ [.serving] }
  | respond {k : Nat} (calls : List WriterCall) (hk : m.requests[k]? = some .serving) :
      Step m (.respond k calls) (m.setRequest k (.returned calls))
  | panic {k : Nat} (hk : m.requests[k]? = some .serving) :
      Step m (.panic k) (m.setRequest k .panicked)
  | known {k : Nat} {calls : List WriterCall} {c : CounterRef}
      (hk : m.requests[k]? = some (.returned calls))
      (hfree : ¬m.scrapes.any Scrape.isReading)
      (hc : m.http.values.get (recordedStatus calls) = some c) :
      Step m (.lookup k) (m.setRequest k (.found calls c))
  | fresh {k : Nat} {calls : List WriterCall} {c : CounterRef}
      (hk : m.requests[k]? = some (.returned calls))
      (hfree : ¬m.scrapes.any Scrape.isReading)
      (hnone : m.http.values.get (recordedStatus calls) = none)
      (hc : c = ⟨recordedStatus calls, m.http.counters.length⟩) :
      Step m (.lookup k) { m.setRequest k (.found calls c) with
        http := ⟨m.http.values.upsert c, m.http.counters ++ [0]⟩ }
  | inc {k : Nat} {calls : List WriterCall} {c : CounterRef}
      (hk : m.requests[k]? = some (.found calls c)) :
      Step m (.inc k) { m.setRequest k (.counted calls) with http := m.http.inc c }
  | scrape : Step m .scrape { m with scrapes := m.scrapes ++ [.waiting] }
  | lock {k : Nat} {order : List CounterRef} (hk : m.scrapes[k]? = some .waiting)
      (horder : order.Perm m.http.values.rows) :
      Step m (.lock k order) (m.setScrape k (.reading order []))
  | load {k : Nat} {c : CounterRef} {todo : List CounterRef} {out : List (Nat × UInt64)}
      (hk : m.scrapes[k]? = some (.reading (c :: todo) out)) :
      Step m (.load k) (m.setScrape k (.reading todo (out ++ [(c.status, m.http.load c)])))
  | unlock {k : Nat} {out : List (Nat × UInt64)} (hk : m.scrapes[k]? = some (.reading [] out)) :
      Step m (.unlock k) (m.setScrape k (.done out))

theorem step_cases {m m' : HttpMetrics} {a : HttpAction} (h : step m a = some m') :
    Step m a m' := by
  cases a with
  | arrive => cases h; exact .arrive
  | scrape => cases h; exact .scrape
  | respond k calls =>
    simp only [step] at h
    split at h
    · next hk => cases h; exact .respond calls hk
    · cases h
  | panic k =>
    simp only [step] at h
    split at h
    · next hk => cases h; exact .panic hk
    · cases h
  | lookup k =>
    simp only [step] at h
    split at h
    · next calls hk =>
      split at h
      · cases h
      · next hfree =>
        cases hget : m.http.values.get (recordedStatus calls) with
        | some c =>
          simp only [StatusCounters.lookup, hget] at h
          cases h
          exact .known hk hfree hget
        | none =>
          simp only [StatusCounters.lookup, hget] at h
          cases h
          exact .fresh hk hfree hget rfl
    · cases h
  | inc k =>
    simp only [step] at h
    split at h
    · next hk => cases h; exact .inc hk
    · cases h
  | lock k order =>
    simp only [step] at h
    split at h
    · next hk =>
      split at h
      · next hp => cases h; exact .lock hk hp
      · cases h
    · cases h
  | load k =>
    simp only [step] at h
    split at h
    · next hk => cases h; exact .load hk
    · cases h
  | unlock k =>
    simp only [step] at h
    split at h
    · next hk => cases h; exact .unlock hk
    · cases h

/-! ## The counters count -/

section Counting
variable {m m' : HttpMetrics} {k : Nat} {o o' : Observed}

/-- The counter of a status holds how many were counted under it. -/
structure Counts (m : HttpMetrics) : Prop where
  distinct : ∀ c ∈ m.http.values, ∀ c' ∈ m.http.values, c.number = c'.number → c = c'
  holds : ∀ c ∈ m.http.values,
    m.http.counters[c.number]? = some (UInt64.ofNat (m.counted c.status))
  known : ∀ status, 0 < m.counted status → ∃ c ∈ m.http.values, c.status = status
  found : ∀ calls c, .found calls c ∈ m.requests →
    c ∈ m.http.values ∧ c.status = recordedStatus calls

theorem counts_start : Counts start where
  distinct c hc := absurd hc (KeyedTable.not_mem_empty c)
  holds c hc := absurd hc (KeyedTable.not_mem_empty c)
  known _ h := absurd h (Nat.lt_irrefl 0)
  found _ _ h := nomatch h

/-- A request goes on without being counted. -/
theorem Counts.setRequest (h : Counts m) (hk : m.requests[k]? = some o)
    (ho : ∀ status, o.isCounted status = false) (ho' : ∀ status, o'.isCounted status = false)
    (hfound : ∀ calls c, o' = .found calls c →
      c ∈ m.http.values ∧ c.status = recordedStatus calls) :
    Counts (m.setRequest k o') := by
  have hcount : ∀ status, (m.setRequest k o').counted status = m.counted status := by
    intro status
    have := Pool.countP_set (Observed.isCounted status) hk o'
    rwa [ho, ho'] at this
  refine ⟨h.distinct, fun c hc => ?_, fun status hpos => ?_, fun calls c hc => ?_⟩
  · rw [hcount]
    exact h.holds c hc
  · exact h.known status (hcount status ▸ hpos)
  · rcases List.mem_or_eq_of_mem_set hc with hc | hc
    · exact h.found calls c hc
    · exact hfound calls c hc.symm

/-- A new counter is for a status under which nothing has been counted. -/
theorem Counts.fresh (h : Counts m) {c : CounterRef}
    (hnone : m.http.values.get c.status = none) (hc : c.number = m.http.counters.length) :
    Counts { m with http := ⟨m.http.values.upsert c, m.http.counters ++ [0]⟩ } := by
  have hfree := KeyedTable.get_eq_none.mp hnone
  have hmem : ∀ x, x ∈ m.http.values.upsert c ↔ x = c ∨ x ∈ m.http.values := by
    intro x
    rw [KeyedTable.mem_upsert]
    exact or_congr_right ⟨And.left, fun hx => ⟨hx, hfree x hx⟩⟩
  have hold : ∀ x ∈ m.http.values, x.number < m.http.counters.length := fun x hx =>
    (List.getElem?_eq_some_iff.mp (h.holds x hx)).1
  have hzero : m.counted c.status = 0 := by
    by_contra hpos
    obtain ⟨x, hx, hst⟩ := h.known c.status (Nat.pos_of_ne_zero hpos)
    exact hfree x hx hst
  refine ⟨fun x hx y hy hnum => ?_, fun x hx => ?_, fun status hpos => ?_, fun calls x hx => ?_⟩
  · rcases (hmem x).mp hx with hx | hx <;> rcases (hmem y).mp hy with hy | hy
    · rw [hx, hy]
    · rw [hx, hc] at hnum
      exact absurd hnum (Nat.ne_of_gt (hold y hy))
    · rw [hy, hc] at hnum
      exact absurd hnum (Nat.ne_of_lt (hold x hx))
    · exact h.distinct x hx y hy hnum
  · rcases (hmem x).mp hx with rfl | hx
    · show (m.http.counters ++ [0])[x.number]? = some (UInt64.ofNat (m.counted x.status))
      rw [hzero, hc, List.getElem?_concat_length]
      rfl
    · show (m.http.counters ++ [0])[x.number]? = _
      rw [List.getElem?_append_left (hold x hx)]
      exact h.holds x hx
  · obtain ⟨x, hx, hst⟩ := h.known status hpos
    exact ⟨x, (hmem x).mpr (.inr hx), hst⟩
  · obtain ⟨hx, hst⟩ := h.found calls x hx
    exact ⟨(hmem x).mpr (.inr hx), hst⟩

/-- Only the counter of its status is added to. -/
theorem Counts.inc (h : Counts m) {calls : List WriterCall} {c : CounterRef}
    (hk : m.requests[k]? = some (.found calls c)) :
    Counts { m.setRequest k (.counted calls) with http := m.http.inc c } := by
  obtain ⟨hc, hst⟩ := h.found calls c (List.mem_of_getElem? hk)
  have hval := h.holds c hc
  have hlt := (List.getElem?_eq_some_iff.mp hval).1
  have hcount : ∀ status, (m.setRequest k (.counted calls)).counted status =
      m.counted status + if c.status = status then 1 else 0 := by
    intro status
    have hset := Pool.countP_set (Observed.isCounted status) hk (.counted calls)
    by_cases hs : c.status = status
    · simpa [Observed.isCounted, counted, HttpMetrics.setRequest, ← hst, hs] using hset
    · have hne : (c.status == status) = false := beq_false_of_ne hs
      simpa [Observed.isCounted, counted, HttpMetrics.setRequest, ← hst, hs, hne] using hset
  refine ⟨h.distinct, fun x hx => ?_, fun status hpos => ?_, fun calls x hx => ?_⟩
  · show (m.http.counters.set c.number (m.http.load c + 1))[x.number]? =
      some (UInt64.ofNat ((m.setRequest k (.counted calls)).counted x.status))
    rw [hcount]
    by_cases hxc : x = c
    · subst hxc
      rw [List.getElem?_set_self hlt, StatusCounters.load, hval]
      simp
    · have hnum : c.number ≠ x.number := fun hnum => hxc (h.distinct x hx c hc hnum.symm)
      have hstatus : c.status ≠ x.status := fun hs => hxc (KeyedTable.eq_of_key_eq hx hc hs.symm)
      rw [List.getElem?_set_ne hnum, if_neg hstatus]
      exact h.holds x hx
  · have hpos : 0 < (m.setRequest k (.counted calls)).counted status := hpos
    rw [hcount] at hpos
    by_cases hs : c.status = status
    · exact ⟨c, hc, hs⟩
    · exact h.known status (by simpa [hs] using hpos)
  · rcases List.mem_or_eq_of_mem_set hx with hx | hx
    · exact h.found _ x hx
    · cases hx

/-- **Every step keeps the counters right**: requests that race to create one
end up with the same. -/
theorem Counts.step (h : Counts m) {a : HttpAction} (hst : HttpMetrics.step m a = some m') :
    Counts m' := by
  cases step_cases hst with
  | arrive =>
    have hcount : ∀ status,
        { m with requests := m.requests ++ [Observed.serving] }.counted status =
          m.counted status := by
      simp [counted, Observed.isCounted]
    refine ⟨h.distinct, fun c hc => ?_, fun status hpos => ?_, fun calls c hc => ?_⟩
    · rw [hcount]
      exact h.holds c hc
    · exact h.known status (hcount status ▸ hpos)
    · exact h.found calls c (by simpa using hc)
  | respond calls hk => exact h.setRequest hk (fun _ => rfl) (fun _ => rfl) nofun
  | panic hk => exact h.setRequest hk (fun _ => rfl) (fun _ => rfl) nofun
  | known hk _ hget =>
    refine h.setRequest hk (fun _ => rfl) (fun _ => rfl) fun _ _ he => ?_
    cases he
    exact KeyedTable.get_eq_some.mp hget
  | fresh hk _ hnone hc =>
    subst hc
    refine (h.fresh hnone rfl).setRequest hk (fun _ => rfl) (fun _ => rfl) fun _ _ he => ?_
    cases he
    exact ⟨KeyedTable.mem_upsert_self _ _, rfl⟩
  | inc hk => exact h.inc hk
  | scrape => exact ⟨h.distinct, h.holds, h.known, h.found⟩
  | lock => exact ⟨h.distinct, h.holds, h.known, h.found⟩
  | load => exact ⟨h.distinct, h.holds, h.known, h.found⟩
  | unlock => exact ⟨h.distinct, h.holds, h.known, h.found⟩

/-- What is counted is recorded of a response that was sent. -/
def SentAsRecorded (m : HttpMetrics) : Prop :=
  ∀ o ∈ m.requests, ∀ calls, o.response = some calls → recordedStatus calls = sentStatus calls

theorem SentAsRecorded.step (h : SentAsRecorded m) {a : HttpAction} (ha : a.HeaderFirst)
    (hst : HttpMetrics.step m a = some m') : SentAsRecorded m' := by
  have hset : ∀ {k o} o', m.requests[k]? = some o →
      (∀ calls, o'.response = some calls → o.response = some calls ∨ HeaderFirst calls) →
      SentAsRecorded (m.setRequest k o') := by
    intro k o o' hk hresp x hx calls hcalls
    rcases List.mem_or_eq_of_mem_set hx with hx | rfl
    · exact h x hx calls hcalls
    · rcases hresp calls hcalls with hold | hfirst
      · exact h o (List.mem_of_getElem? hk) calls hold
      · exact recordedStatus_eq hfirst
  cases step_cases hst with
  | arrive =>
    intro o ho calls hcalls
    rcases List.mem_append.mp ho with ho | ho
    · exact h o ho calls hcalls
    · cases List.mem_singleton.mp ho
      cases hcalls
  | respond calls hk =>
    refine hset _ hk fun _ he => .inr ?_
    cases he
    exact ha
  | panic hk => exact hset _ hk nofun
  | known hk => exact hset _ hk fun _ he => .inl he
  | fresh hk => exact hset _ hk fun _ he => .inl he
  | inc hk => exact hset _ hk fun _ he => .inl he
  | scrape => exact h
  | lock => exact h
  | load => exact h
  | unlock => exact h

theorem Counts.value_eq (h : Counts m) (status : Nat) :
    m.http.value status = UInt64.ofNat (m.counted status) := by
  rw [StatusCounters.value]
  cases hget : m.http.values.get status with
  | none =>
    have hzero : m.counted status = 0 := by
      by_contra hpos
      obtain ⟨c, hc, hst⟩ := h.known status (Nat.pos_of_ne_zero hpos)
      exact KeyedTable.get_eq_none.mp hget c hc hst
    rw [hzero]
    rfl
  | some c =>
    obtain ⟨hc, rfl⟩ := KeyedTable.get_eq_some.mp hget
    rw [Option.map_some, Option.getD_some, StatusCounters.load, h.holds c hc, Option.getD_some]

/-- A request is counted under the status it was answered with. -/
theorem SentAsRecorded.answered_of_counted (h : SentAsRecorded m) {status : Nat} :
    ∀ o ∈ m.requests, o.isCounted status = true → o.answered status = true := by
  intro o ho hcount
  cases o with
  | counted calls =>
    have hsent := h _ ho calls rfl
    simpa [Observed.answered, Observed.response, Observed.isCounted, hsent] using hcount
  | serving => cases hcount
  | panicked => cases hcount
  | returned => cases hcount
  | found => cases hcount

/-- With none pending, every answered request has been counted. -/
theorem SentAsRecorded.counted_eq (h : SentAsRecorded m)
    (hquiet : ∀ o ∈ m.requests, o.pending = false) (status : Nat) :
    m.counted status = m.answered status := by
  refine List.countP_congr fun o ho => ?_
  cases o with
  | counted calls =>
    simp [Observed.answered, Observed.response, Observed.isCounted, h _ ho calls rfl]
  | serving => rfl
  | panicked => rfl
  | returned => cases hquiet _ ho
  | found => cases hquiet _ ho

end Counting

/-- **No request is lost or counted wrongly.** However requests and scrapes
interleave, the counter of a status holds how many requests have been counted
under it, modulo `2^64`; each of these was answered with it; and when no
request is between its answer and its count, they are all that were. -/
theorem requests_counted {as : List HttpAction} {m : HttpMetrics}
    (hr : Run step (fun _ a => a.HeaderFirst) start as m) (status : Nat) :
    m.http.value status = UInt64.ofNat (m.counted status) ∧
      (∀ o ∈ m.requests, o.isCounted status = true → o.answered status = true) ∧
      ((∀ o ∈ m.requests, o.pending = false) →
        m.http.value status = UInt64.ofNat (m.answered status)) := by
  have hcounts : Counts m := hr.invariant (I := Counts) (fun _ _ _ hs _ h => hs.step h) counts_start
  have hsent : SentAsRecorded m := hr.invariant (I := SentAsRecorded)
    (fun _ _ _ hs ha h => hs.step ha h) (fun o ho => nomatch ho)
  refine ⟨hcounts.value_eq status, hsent.answered_of_counted, fun hquiet => ?_⟩
  rw [hcounts.value_eq, hsent.counted_eq hquiet]

/-- Two requests get the same answer, and the first of them is counted. -/
def oneCounted : List HttpAction :=
  [.arrive, .arrive, .respond 0 [.writeHeader 404, .write], .respond 1 [.writeHeader 404, .write],
    .lookup 1, .lookup 0, .inc 0]

/-- The second is counted while a scrape is under way. -/
def scraped : List HttpAction := [.scrape, .lock 0 [⟨404, 0⟩], .inc 1, .load 0, .unlock 0]

theorem scraped_requests_counted : ∃ m,
    Run step (fun _ a => a.HeaderFirst) start (oneCounted ++ scraped) m ∧
      m.answered 404 = 2 ∧ m.http.value 404 = UInt64.ofNat (m.answered 404) := by
  obtain ⟨m, hr, hquiet, hm⟩ : ∃ m,
      Run step (fun _ a => a.HeaderFirst) start (oneCounted ++ scraped) m ∧
        (∀ o ∈ m.requests, o.pending = false) ∧ m.answered 404 = 2 :=
    exists_run (by decide +kernel)
  exact ⟨m, hr, hm, (requests_counted hr 404).2.2 hquiet⟩

/-! ## What a scrape shows -/

section Scrapes
variable {s m m' : HttpMetrics}

/-- Nothing is uncounted, and no counter goes. -/
theorem grows_of_step {a : HttpAction} (hst : step m a = some m') :
    (∀ status, m.counted status ≤ m'.counted status) ∧
      ∀ c ∈ m.http.values, c ∈ m'.http.values := by
  have hset : ∀ {k o} o', m.requests[k]? = some o → (∀ status, o.isCounted status = false) →
      ∀ status, m.counted status ≤ (m.setRequest k o').counted status := by
    intro k o o' hk ho status
    have hcount := Pool.countP_set (Observed.isCounted status) hk o'
    rw [ho] at hcount
    exact Nat.le.intro hcount.symm
  cases step_cases hst with
  | arrive => exact ⟨fun _ => by simp [counted, Observed.isCounted], fun _ hc => hc⟩
  | respond calls hk => exact ⟨hset _ hk fun _ => rfl, fun _ hc => hc⟩
  | panic hk => exact ⟨hset _ hk fun _ => rfl, fun _ hc => hc⟩
  | known hk => exact ⟨hset _ hk fun _ => rfl, fun _ hc => hc⟩
  | fresh hk _ hnone hc =>
    subst hc
    refine ⟨hset _ hk fun _ => rfl, fun c hc => ?_⟩
    exact KeyedTable.mem_upsert_of_ne hc (KeyedTable.get_eq_none.mp hnone c hc)
  | inc hk => exact ⟨hset _ hk fun _ => rfl, fun _ hc => hc⟩
  | scrape => exact ⟨fun _ => Nat.le_refl _, fun _ hc => hc⟩
  | lock => exact ⟨fun _ => Nat.le_refl _, fun _ hc => hc⟩
  | load => exact ⟨fun _ => Nat.le_refl _, fun _ hc => hc⟩
  | unlock => exact ⟨fun _ => Nat.le_refl _, fun _ hc => hc⟩

/-- What a scrape that began after `s` has shown when `m` is reached. -/
structure Within (s m : HttpMetrics) (todo : List CounterRef) (out : List (Nat × UInt64)) :
    Prop where
  entries : ∀ c ∈ todo, c ∈ m.http.values
  nodup : (out.map Prod.fst ++ todo.map CounterRef.status).Nodup
  complete : ∀ status, 0 < s.counted status →
    status ∈ out.map Prod.fst ++ todo.map CounterRef.status
  between : ∀ status v, (status, v) ∈ out →
    ∃ n, s.counted status ≤ n ∧ n ≤ m.counted status ∧ v = UInt64.ofNat n

/-- The same at each place in `Write`. -/
def ScrapeFits (s m : HttpMetrics) : Scrape → Prop
  | .waiting => True
  | .reading todo out => Within s m todo out
  | .done out => Within s m [] out

theorem Within.mono {todo : List CounterRef} {out : List (Nat × UInt64)}
    (h : Within s m todo out) (hcount : ∀ status, m.counted status ≤ m'.counted status)
    (hvalues : ∀ c ∈ m.http.values, c ∈ m'.http.values) : Within s m' todo out where
  entries c hc := hvalues c (h.entries c hc)
  nodup := h.nodup
  complete := h.complete
  between status v hv := by
    obtain ⟨n, hle, hn, rfl⟩ := h.between status v hv
    exact ⟨n, hle, Nat.le_trans hn (hcount status), rfl⟩

theorem ScrapeFits.mono {w : Scrape} (h : ScrapeFits s m w)
    (hcount : ∀ status, m.counted status ≤ m'.counted status)
    (hvalues : ∀ c ∈ m.http.values, c ∈ m'.http.values) : ScrapeFits s m' w := by
  cases w with
  | waiting => trivial
  | reading => exact Within.mono h hcount hvalues
  | done => exact Within.mono h hcount hvalues

/-- The entries a scrape starts with. -/
theorem Counts.within_lock (h : Counts m) (hmono : ∀ status, s.counted status ≤ m.counted status)
    {order : List CounterRef} (horder : order.Perm m.http.values.rows) :
    Within s m order [] where
  entries c hc := horder.mem_iff.mp hc
  nodup := (horder.map CounterRef.status).nodup_iff.mpr m.http.values.nodup
  complete status hpos := by
    obtain ⟨c, hc, rfl⟩ := h.known status (Nat.lt_of_lt_of_le hpos (hmono status))
    exact List.mem_map_of_mem (horder.mem_iff.mpr hc)
  between _ _ hv := nomatch hv

/-- One more entry is shown. -/
theorem Counts.within_load (h : Counts m) (hmono : ∀ status, s.counted status ≤ m.counted status)
    {c : CounterRef} {todo : List CounterRef} {out : List (Nat × UInt64)}
    (hw : Within s m (c :: todo) out) : Within s m todo (out ++ [(c.status, m.http.load c)]) := by
  have hentries := List.forall_mem_cons.mp hw.entries
  have hlist : (out ++ [(c.status, m.http.load c)]).map Prod.fst ++ todo.map CounterRef.status =
      out.map Prod.fst ++ (c :: todo).map CounterRef.status := by simp
  refine ⟨hentries.2, hlist ▸ hw.nodup, fun status hpos => hlist ▸ hw.complete status hpos,
    fun status v hv => ?_⟩
  rcases List.mem_append.mp hv with hv | hv
  · exact hw.between status v hv
  · cases List.mem_singleton.mp hv
    refine ⟨m.counted c.status, hmono _, Nat.le_refl _, ?_⟩
    rw [StatusCounters.load, h.holds c hentries.1, Option.getD_some]

/-- **A scrape keeps within what has been counted**, whatever the requests do
meanwhile. -/
theorem scrapeFits_step {k : Nat} (hm : Counts m)
    (hmono : ∀ status, s.counted status ≤ m.counted status)
    (h : ∀ w, m.scrapes[k]? = some w → ScrapeFits s m w) {a : HttpAction}
    (hst : step m a = some m') : ∀ w, m'.scrapes[k]? = some w → ScrapeFits s m' w := by
  obtain ⟨hcount, hvalues⟩ := grows_of_step hst
  have hset : ∀ {k'} w', m' = m.setScrape k' w' → (k' = k → ScrapeFits s m w') →
      ∀ w, m'.scrapes[k]? = some w → ScrapeFits s m' w := by
    rintro k' w' rfl hnew w hw
    have hw : (m.scrapes.set k' w')[k]? = some w := hw
    rw [List.getElem?_set] at hw
    split at hw
    · next hk =>
      split at hw
      · cases hw
        exact (hnew hk).mono hcount hvalues
      · cases hw
    · exact (h w hw).mono hcount hvalues
  cases step_cases hst with
  | arrive | respond | panic | known | fresh | inc =>
    exact fun w hw => (h w hw).mono hcount hvalues
  | scrape =>
    intro w hw
    have hw : (m.scrapes ++ [Scrape.waiting])[k]? = some w := hw
    rw [List.getElem?_append] at hw
    split at hw
    · exact (h w hw).mono hcount hvalues
    · cases List.mem_singleton.mp (List.mem_of_getElem? hw)
      trivial
  | lock hk horder => exact hset _ rfl fun _ => hm.within_lock hmono horder
  | load hk =>
    refine hset _ rfl ?_
    rintro rfl
    exact hm.within_load hmono (h _ hk)
  | unlock hk =>
    refine hset _ rfl ?_
    rintro rfl
    exact h (.reading [] _) hk

end Scrapes

/-- **A scrape shows every counter once, somewhere between its beginning and
its end.** Whatever is counted meanwhile: each value shown is the number of
requests counted under the status at some time of the scrape, and a status
with requests counted before it is not left out. -/
theorem scrape_within_bounds {as bs : List HttpAction} {s t : HttpMetrics}
    (hr : Run step (fun _ a => a.HeaderFirst) start as s)
    (hs : Run step (fun _ a => a.HeaderFirst) s bs t) {k : Nat} {out : List (Nat × UInt64)}
    (hbefore : ∀ w, s.scrapes[k]? = some w → w = .waiting)
    (hafter : t.scrapes[k]? = some (.done out)) :
    (out.map Prod.fst).Nodup ∧
      (∀ status, 0 < s.counted status → status ∈ out.map Prod.fst) ∧
      ∀ status v, (status, v) ∈ out →
        ∃ n, s.counted status ≤ n ∧ n ≤ t.counted status ∧ v = UInt64.ofNat n := by
  have hcounts : Counts s := hr.invariant (I := Counts) (fun _ _ _ hs _ h => hs.step h) counts_start
  have hfits := hs.invariant
    (I := fun m => Counts m ∧ (∀ status, s.counted status ≤ m.counted status) ∧
      ∀ w, m.scrapes[k]? = some w → ScrapeFits s m w)
    (fun _ _ _ hm _ h => ⟨hm.1.step h,
      fun status => Nat.le_trans (hm.2.1 status) ((grows_of_step h).1 status),
      scrapeFits_step hm.1 hm.2.1 hm.2.2 h⟩)
    ⟨hcounts, fun _ => Nat.le_refl _, fun w hw => hbefore w hw ▸ trivial⟩
  have hw : Within s t [] out := hfits.2.2 _ hafter
  refine ⟨?_, fun status hpos => ?_, hw.between⟩
  · simpa using hw.nodup
  · simpa using hw.complete status hpos

/-- The scrape shows both requests; one was counted when it began. -/
theorem scrape_shows_both : ∃ s t, Run step (fun _ a => a.HeaderFirst) start oneCounted s ∧
    Run step (fun _ a => a.HeaderFirst) s scraped t ∧ s.counted 404 = 1 ∧
      t.scrapes[0]? = some (.done [(404, 2)]) ∧
      ∃ n, s.counted 404 ≤ n ∧ n ≤ t.counted 404 ∧ (2 : UInt64) = UInt64.ofNat n := by
  obtain ⟨s, t, hs, ht, hnone, hone, hdone⟩ : ∃ s t,
      Run step (fun _ a => a.HeaderFirst) start oneCounted s ∧
        Run step (fun _ a => a.HeaderFirst) s scraped t ∧ s.scrapes[0]? = none ∧
        s.counted 404 = 1 ∧ t.scrapes[0]? = some (.done [(404, 2)]) :=
    exists_two_runs (by decide +kernel)
  have hbounds := scrape_within_bounds hs ht (fun w hw => nomatch hnone.symm.trans hw) hdone
  exact ⟨s, t, hs, ht, hone, hdone, hbounds.2.2 404 2 List.mem_cons_self⟩

end HttpMetrics

end Takl
