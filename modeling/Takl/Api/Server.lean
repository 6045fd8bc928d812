import Takl.Api.Aggregates
import Takl.Api.EventQuery
import Takl.Daemon.Startup
import Takl.Interleaving.Requests
import Takl.Lib.ServeMux

/-!
# The HTTP server (`internal/api`)

`Handler` as a whole: the routes, the token check in front of the diagnostics,
and the handlers. A request is what `net/http` makes of it, its path cleaned
and unescaped, its parameters and body decoded.

Two things are said of every request there can be. The only ones that change
anything are those that write labels, and these change nothing else. And a
diagnostics page is shown to nobody who does not present the token, which
`main` makes sure is there.
-/

namespace Takl

namespace Api

open ServeMux (Seg Route Found findHandler Matches)

/-! ## Routes -/

/-- The pages of `net/http/pprof`. -/
inductive PprofPage where
  | index
  | cmdline
  | profile
  | symbol
  | trace
  deriving DecidableEq, Repr

/-- The handlers registered. -/
inductive Endpoint where
  | health
  | metrics
  | bestRunner
  | runners
  | runner
  | getLabels
  | updateLabels
  | deleteLabels
  | events
  | summary
  | cluster
  | pprof (page : PprofPage)
  deriving DecidableEq, Repr

/-- A pattern below `/api/v1`. -/
def apiV1 (p : List Seg) : List Seg := .lit "api" :: .lit "v1" :: p

/-- A pattern below `/debug/pprof`. -/
def debugPprof (s : Seg) : List Seg := [.lit "debug", .lit "pprof", s]

/-- What `Handler` registers with `enablePprof` only. -/
def pprofRoutes : List (Route Endpoint) :=
  [⟨"GET", debugPprof .rest, .pprof .index⟩,
    ⟨"GET", debugPprof (.lit "cmdline"), .pprof .cmdline⟩,
    ⟨"GET", debugPprof (.lit "profile"), .pprof .profile⟩,
    ⟨"GET", debugPprof (.lit "symbol"), .pprof .symbol⟩,
    ⟨"POST", debugPprof (.lit "symbol"), .pprof .symbol⟩,
    ⟨"GET", debugPprof (.lit "trace"), .pprof .trace⟩]

/-- What it always registers. -/
def apiRoutes : List (Route Endpoint) :=
  [⟨"GET", [.lit "healthz"], .health⟩,
    ⟨"GET", [.lit "metrics"], .metrics⟩,
    ⟨"GET", apiV1 [.lit "runners", .lit "best"], .bestRunner⟩,
    ⟨"GET", apiV1 [.lit "runners"], .runners⟩,
    ⟨"GET", apiV1 [.lit "runners", .wild], .runner⟩,
    ⟨"GET", apiV1 [.lit "runners", .wild, .lit "labels"], .getLabels⟩,
    ⟨"PUT", apiV1 [.lit "runners", .wild, .lit "labels"], .updateLabels⟩,
    ⟨"DELETE", apiV1 [.lit "runners", .wild, .lit "labels"], .deleteLabels⟩,
    ⟨"GET", apiV1 [.lit "events"], .events⟩,
    ⟨"GET", apiV1 [.lit "summary"], .summary⟩,
    ⟨"GET", apiV1 [.lit "cluster"], .cluster⟩]

/-- `Handler`, as far as it registers. -/
def routes (enablePprof : Bool) : List (Route Endpoint) :=
  apiRoutes ++ if enablePprof then pprofRoutes else []

/-! ## Requests -/

/-- `api.Options`. -/
structure Options where
  adminToken : String
  enablePprof : Bool

/-- A request. -/
structure Request where
  method : String
  path : List String
  /-- `Header.Get`. -/
  header : String → String
  /-- The parameters `limit` and `offset`, where they are numbers. -/
  limit : Option Int
  offset : Option Int
  region : String
  label : List String
  runner : String
  /-- What the body decodes to. -/
  body : Option (Option Labels)

/-- `strings.TrimPrefix(s, "Bearer ")`. -/
def trimBearer (s : String) : String :=
  if "Bearer ".toList.isPrefixOf s.toList then String.ofList (s.toList.drop "Bearer ".length) else s

/-- `authorized`. -/
def authorized (opts : Options) (req : Request) : Bool :=
  if opts.adminToken = "" then false
  else
    let got := req.header "X-Takl-Admin-Token"
    let got := if got = "" then trimBearer (req.header "Authorization") else got
    decide (got = opts.adminToken)

/-! ## Answers -/

inductive Body where
  | health (nodeID : String)
  | read (a : ReadAnswer)
  | events (evs : List Event)
  | labels (l : Option Labels)
  | error (text : String)
  /-- `writeError`. -/
  | internal
  | dbError (e : DbError)
  | allow (methods : List String)
  | redirect
  | empty

/-- How a request ends. -/
inductive Outcome where
  | reply (status : Nat) (body : Body)
  /-- Left to `net/http/pprof`. -/
  | diagnostics (page : PprofPage)
  /-- The handler panics. -/
  | panicked

def ApiError.outcome : ApiError → Outcome
  | .notFound text => .reply 404 (.error text)
  | .internal => .reply 500 .internal

/-- The end of a reading handler. -/
def ReadAnswer.outcome (a : ReadAnswer) : Outcome :=
  match a with
  | .runner (.error e) | .labels (.error e) | .best (.error e) => ApiError.outcome e
  | .runners _ | .runner (.ok _) | .labels (.ok _) | .best (.ok _) | .summary .. | .cluster _
  | .metrics _ => .reply 200 (.read a)

def Reply.outcome (r : Node.Reply) : Outcome :=
  .reply r.status <|
    match r.body with
    | .labels l => .labels l
    | .error text => .error text
    | .dbError e => .dbError e
    | .empty => .empty

/-- A handler, with its path value. -/
def handle (S : SortSlice Store.later) (opts : Options) (C : Codec) (n : Node) (now : Int64)
    (req : Request) (id : String) : Endpoint → Node × Outcome
  | .health => (n, .reply 200 (.health n.nodeID))
  | .metrics => (n, (read C n.nodeID n.store .metrics).outcome)
  | .bestRunner => (n, (read C n.nodeID n.store (.best req.region req.label)).outcome)
  | .runners => (n, (read C n.nodeID n.store (.runners req.limit req.offset)).outcome)
  | .runner => (n, (read C n.nodeID n.store (.runner id)).outcome)
  | .getLabels => (n, (read C n.nodeID n.store (.labels id)).outcome)
  | .updateLabels =>
      let (n, reply) := n.handleUpdateLabels C.toEnv now id req.body
      (n, reply.elim .panicked Reply.outcome)
  | .deleteLabels =>
      let (n, reply) := n.handleDeleteLabels C.toEnv now id
      (n, Reply.outcome reply)
  | .events =>
      (n, match handleEvents S C.toEnv n.store req.limit req.runner with
        | .ok evs => .reply 200 (.events evs)
        | .error e => ApiError.outcome e)
  | .summary => (n, (read C n.nodeID n.store .summary).outcome)
  | .cluster => (n, (read C n.nodeID n.store .cluster).outcome)
  | .pprof page =>
      -- `adminOnly`
      if authorized opts req then (n, .diagnostics page)
      else (n, .reply 401 (.error "admin token required"))

/-- `Handler`, serving one request. -/
def serve (S : SortSlice Store.later) (opts : Options) (C : Codec) (n : Node) (now : Int64)
    (req : Request) : Node × Outcome :=
  match findHandler (routes opts.enablePprof) req.method req.path with
  | .handler e values => handle S opts C n now req (values.headD "") e
  | .redirect => (n, .reply 301 .redirect)
  | .methodNotAllowed allow => (n, .reply 405 (.allow allow))
  | .notFound => (n, .reply 404 (.error "404 page not found"))

/-- Requests one after the other, each with the clock's reading. -/
def serveAll (S : SortSlice Store.later) (opts : Options) (C : Codec) (n : Node)
    (reqs : List (Int64 × Request)) : Node :=
  reqs.foldl (fun n q => (serve S opts C n q.1 q.2).1) n

/-! ## What a request can change -/

/-- The runner whose labels a request is to write. -/
def Request.labelled (req : Request) : Option String :=
  match req.path with
  | ["api", "v1", "runners", id, "labels"] =>
      if req.method = "PUT" ∨ req.method = "DELETE" then some id else none
  | _ => none

/-- Nothing but the label rows of `ids` has changed, and the clock. -/
structure LabelsOnly (ids : String → Prop) (n n' : Node) : Prop where
  identity : n.SameIdentity n'
  agent : n'.agent = n.agent
  events : n'.store.events = n.store.events
  watermarks : n'.store.watermarks = n.store.watermarks
  rows : ∀ r, (∀ id, ids id → r.id ≠ (kindMeta, id)) → (r ∈ n'.store.rows ↔ r ∈ n.store.rows)

namespace LabelsOnly

variable {ids : String → Prop} {n n' n'' : Node}

theorem refl (ids : String → Prop) (n : Node) : LabelsOnly ids n n :=
  ⟨.refl n, rfl, rfl, rfl, fun _ _ => .rfl⟩

theorem trans (h : LabelsOnly ids n n') (h' : LabelsOnly ids n' n'') : LabelsOnly ids n n'' where
  identity := ⟨h'.identity.1.trans h.identity.1, h'.identity.2.trans h.identity.2,
    h'.identity.3.trans h.identity.3⟩
  agent := h'.agent.trans h.agent
  events := h'.events.trans h.events
  watermarks := h'.watermarks.trans h.watermarks
  rows r hr := (h'.rows r hr).trans (h.rows r hr)

theorem mono {ids' : String → Prop} (hids : ∀ id, ids id → ids' id) (h : LabelsOnly ids n n') :
    LabelsOnly ids' n n' :=
  { h with rows := fun r hr => h.rows r fun id hid => hr id (hids id hid) }

/-- A store call that upserts a label row, after a tick. -/
theorem of_call {id : String} {now : Int64} {f : Store → Except DbError Store} {r : Row}
    (hr : r.id = (kindMeta, id)) (hf : ∀ st, f n.store = .ok st → n.store.upsert r = .ok st) :
    LabelsOnly (· = id) n ((n.tick now).2.call f).1 := by
  rcases Node.call_cases (n.tick now).2 f with ⟨st, hok, hcall⟩ | ⟨e, -, hcall⟩
  · obtain ⟨hrows, hevents, hwm⟩ := Store.upsert_ok (hf st hok)
    rw [hcall]
    refine ⟨⟨rfl, rfl, rfl⟩, rfl, hevents, hwm, fun x hx => ?_⟩
    show x ∈ st.rows ↔ _
    rw [hrows, KeyedTable.mem_upsert]
    have hne : x.id ≠ r.id := hr ▸ hx id rfl
    exact ⟨fun h => h.elim (fun he => absurd (congrArg Row.id he) hne) And.left,
      fun h => .inr ⟨h, hne⟩⟩
  · rw [hcall]
    exact ⟨⟨rfl, rfl, rfl⟩, rfl, rfl, rfl, fun _ _ => .rfl⟩

end LabelsOnly

theorem labelsOnly_updateLabels (E : Env) (n : Node) (now : Int64) (id : String)
    (body : Option (Option Labels)) :
    LabelsOnly (· = id) n (n.handleUpdateLabels E now id body).1 := by
  have hput : ∀ labels, LabelsOnly (· = id) n ((n.tick now).2.call fun st =>
      st.put ((n.tick now).2.labelsRow E id labels (n.tick now).1)).1 := fun labels =>
    .of_call (r := (n.tick now).2.labelsRow E id labels (n.tick now).1) rfl fun _ h => h
  unfold Node.handleUpdateLabels
  split
  · exact .refl _ n
  · split
    · exact .refl _ n
    · split
      · exact .refl _ n
      · split
        · exact .refl _ n
        · next labels _ =>
          have hput := hput labels
          simp only
          generalize (n.tick now).2.call _ = res at hput ⊢
          obtain ⟨n', _ | e⟩ := res
          · exact hput
          · exact hput

theorem labelsOnly_deleteLabels (E : Env) (n : Node) (now : Int64) (id : String) :
    LabelsOnly (· = id) n (n.handleDeleteLabels E now id).1 := by
  have hdel : LabelsOnly (· = id) n ((n.tick now).2.call fun st =>
      st.delete E kindMeta id (n.tick now).2.apiOwner (n.tick now).1).1 :=
    .of_call (r := Store.tombstoneRow kindMeta id (n.tick now).2.apiOwner (n.tick now).1
      (n.store.deletePayload E kindMeta id)) rfl fun _ h => h
  simp only [Node.handleDeleteLabels]
  generalize (n.tick now).2.call _ = res at hdel ⊢
  obtain ⟨n', _ | e⟩ := res
  · exact hdel
  · exact hdel

/-! ## Which request reaches which handler -/

def Endpoint.writes (e : Endpoint) : Prop := e = .updateLabels ∨ e = .deleteLabels

instance : DecidablePred Endpoint.writes := fun _ => inferInstanceAs (Decidable (_ ∨ _))

theorem route_of_writes : ∀ enablePprof, ∀ r ∈ routes enablePprof, r.handler.writes →
    (r.method = "PUT" ∨ r.method = "DELETE") ∧
      r.pattern = apiV1 [.lit "runners", .wild, .lit "labels"] := by
  decide

/-- The handlers that write are reached through the paths of labels only. -/
theorem labelled_of_writes {enablePprof : Bool} {req : Request} {e : Endpoint}
    {values : List String} (he : e.writes)
    (h : findHandler (routes enablePprof) req.method req.path = .handler e values) :
    req.labelled = some (values.headD "") := by
  obtain ⟨r, hr, rfl, hmethod, hm⟩ := ServeMux.findHandler_sound h
  obtain ⟨hwrite, hpattern⟩ := route_of_writes enablePprof r hr he
  have hmethod : req.method = "PUT" ∨ req.method = "DELETE" := by
    rcases hmethod with hmethod | ⟨-, hget⟩
    · rwa [hmethod]
    · rw [hget] at hwrite
      exact absurd hwrite (by decide)
  rw [hpattern] at hm
  obtain ⟨id, hpath, rfl⟩ : ∃ id, req.path = ["api", "v1", "runners", id, "labels"] ∧
      values = [id] := by
    generalize req.path = path at hm
    cases hm with
    | lit _ hm => cases hm with
    | lit _ hm => cases hm with
    | lit _ hm => cases hm with
    | wild _ hm => cases hm with
    | lit _ hm => cases hm with
    | nil => exact ⟨_, rfl, rfl⟩
  simp [Request.labelled, hpath, hmethod]

/-- The path of a runner, `/api/v1/runners/` and its id as one escaped segment.
Without an id the path ends in its slash. -/
def runnerPath (id : String) : List String :=
  ["api", "v1", "runners", if id = "" then "/" else id]

/-- A literal goes before a wildcard. -/
theorem findHandler_best (enablePprof : Bool) :
    findHandler (routes enablePprof) "GET" (runnerPath "best") = .handler .bestRunner [] := by
  cases enablePprof <;> rfl

/-- A slash is not matched by a wildcard. -/
theorem findHandler_slash (enablePprof : Bool) {id : String} (hid : id = "" ∨ id = "/") :
    findHandler (routes enablePprof) "GET" (runnerPath id) = .notFound := by
  rcases hid with rfl | rfl <;> cases enablePprof <;> rfl

theorem findHandler_runner (enablePprof : Bool) {id : String} (hbest : id ≠ "best")
    (hslash : ¬(id = "" ∨ id = "/")) :
    findHandler (routes enablePprof) "GET" (runnerPath id) = .handler .runner [id] := by
  have hne : Seg.lit "best" ≠ Seg.lit id := fun h => hbest (Seg.lit.inj h).symm
  rw [not_or] at hslash
  cases enablePprof <;>
    simp [findHandler, ServeMux.matchMethodAndPath, ServeMux.matchPath, ServeMux.ofMethod,
      ServeMux.child, ServeMux.leaf, routes, apiRoutes, pprofRoutes, apiV1, debugPprof, runnerPath,
      hne, hslash.1, hslash.2]

/-- `GET /api/v1/runners/{id}`: a runner called `best` is not found this way,
and a path that ends in a slash is no runner's. -/
theorem serve_runner (S : SortSlice Store.later) (opts : Options) (C : Codec) (n : Node)
    (now : Int64) {req : Request} {id : String} (hmethod : req.method = "GET")
    (hpath : req.path = runnerPath id) :
    serve S opts C n now req = (n,
      if id = "" ∨ id = "/" then .reply 404 (.error "404 page not found")
      else (read C n.nodeID n.store
        (if id = "best" then .best req.region req.label else .runner id)).outcome) := by
  unfold serve
  rw [hmethod, hpath]
  by_cases hslash : id = "" ∨ id = "/"
  · simp only [findHandler_slash opts.enablePprof hslash, if_pos hslash]
  rw [if_neg hslash]
  by_cases hbest : id = "best"
  · subst hbest
    simp only [findHandler_best, handle, if_true]
  · simp only [findHandler_runner opts.enablePprof hbest hslash, handle, hbest, if_false,
      List.headD_cons]

/-- A handler changes no more than it is for. -/
theorem labelsOnly_handle (S : SortSlice Store.later) (opts : Options) (C : Codec) (n : Node)
    (now : Int64) (req : Request) (id : String) (e : Endpoint) :
    LabelsOnly (fun x => e.writes ∧ x = id) n (handle S opts C n now req id e).1 := by
  cases e with
  | updateLabels =>
    exact (labelsOnly_updateLabels C.toEnv n now id req.body).mono fun _ h => ⟨.inl rfl, h⟩
  | deleteLabels =>
    exact (labelsOnly_deleteLabels C.toEnv n now id).mono fun _ h => ⟨.inr rfl, h⟩
  | pprof page =>
    simp only [handle]
    split <;> exact .refl _ n
  | health | metrics | bestRunner | runners | runner | getLabels | events | summary | cluster =>
    exact .refl _ n

/-- **One request.** -/
theorem labelsOnly_serve (S : SortSlice Store.later) (opts : Options) (C : Codec) (n : Node)
    (now : Int64) (req : Request) :
    LabelsOnly (fun id => req.labelled = some id) n (serve S opts C n now req).1 := by
  unfold serve
  split
  · next e values h =>
    refine (labelsOnly_handle S opts C n now req (values.headD "") e).mono ?_
    rintro _ ⟨he, rfl⟩
    exact labelled_of_writes he h
  · exact .refl _ n
  · exact .refl _ n
  · exact .refl _ n

/-- An error, or a panic. -/
def Outcome.failed : Outcome → Bool
  | .reply status _ => decide (400 ≤ status)
  | .diagnostics _ => false
  | .panicked => true

/-- A store call that fails leaves the store alone. -/
theorem store_of_call {n : Node} {f : Store → Except DbError Store} {e : DbError}
    (h : (n.call f).2 = some e) : (n.call f).1.store = n.store := by
  rcases n.call_cases f with ⟨st, -, hcall⟩ | ⟨e', -, hcall⟩
  · rw [hcall] at h
    cases h
  · rw [hcall]

theorem store_of_failed_update {E : Env} {n : Node} {now : Int64} {id : String}
    {body : Option (Option Labels)}
    (h : ((n.handleUpdateLabels E now id body).2.elim .panicked Reply.outcome).failed = true) :
    (n.handleUpdateLabels E now id body).1.store = n.store := by
  unfold Node.handleUpdateLabels at h ⊢
  split
  · rfl
  · next hget =>
    simp only [hget] at h
    split
    · rfl
    · next hlive =>
      rw [if_neg hlive] at h
      split
      · rfl
      · split
        · rfl
        · next labels hmerge =>
          simp only [hmerge] at h ⊢
          have hstore := fun e => store_of_call (n := (n.tick now).2) (e := e)
            (f := fun st => st.put ((n.tick now).2.labelsRow E id labels (n.tick now).1))
          generalize (n.tick now).2.call _ = res at h hstore ⊢
          obtain ⟨n', _ | e⟩ := res
          · cases h
          · exact hstore e rfl

theorem store_of_failed_delete {E : Env} {n : Node} {now : Int64} {id : String}
    (h : (Reply.outcome (n.handleDeleteLabels E now id).2).failed = true) :
    (n.handleDeleteLabels E now id).1.store = n.store := by
  simp only [Node.handleDeleteLabels] at h ⊢
  have hstore := fun e => store_of_call (n := (n.tick now).2) (e := e)
    (f := fun st => st.delete E kindMeta id (n.tick now).2.apiOwner (n.tick now).1)
  generalize (n.tick now).2.call _ = res at h hstore ⊢
  obtain ⟨n', _ | e⟩ := res
  · cases h
  · exact hstore e rfl

theorem store_of_failed {S : SortSlice Store.later} {opts : Options} {C : Codec} {n : Node}
    {now : Int64} {req : Request} (h : (serve S opts C n now req).2.failed = true) :
    (serve S opts C n now req).1.store = n.store := by
  unfold serve at h ⊢
  split
  · next e values hroute =>
    simp only [hroute] at h
    cases e with
    | updateLabels => exact store_of_failed_update h
    | deleteLabels => exact store_of_failed_delete h
    | pprof page =>
      simp only [handle]
      split <;> rfl
    | health | metrics | bestRunner | runners | runner | getLabels | events | summary | cluster =>
      rfl
  · rfl
  · rfl
  · rfl

/-- **Requests write labels and nothing else.** However many requests a node
serves, of whatever methods and paths, its runner rows, its events, its
watermarks and its agent are as before, and so are the labels of every runner
for which no `PUT` and no `DELETE` of labels was among them. One that fails
changes nothing. -/
theorem requests_write_labels_only (S : SortSlice Store.later) (opts : Options) (C : Codec)
    (n : Node) (reqs : List (Int64 × Request)) :
    LabelsOnly (fun id => ∃ q ∈ reqs, q.2.labelled = some id) n (serveAll S opts C n reqs) ∧
      ∀ now req, (serve S opts C (serveAll S opts C n reqs) now req).2.failed = true →
        (serve S opts C (serveAll S opts C n reqs) now req).1.store =
          (serveAll S opts C n reqs).store := by
  refine ⟨?_, fun now req => store_of_failed⟩
  induction reqs generalizing n with
  | nil => exact .refl _ n
  | cons q reqs ih =>
    have hfirst := (labelsOnly_serve S opts C n q.1 q.2).mono fun id hid =>
      (⟨q, List.mem_cons_self, hid⟩ : ∃ x ∈ q :: reqs, x.2.labelled = some id)
    refine hfirst.trans ((ih (serve S opts C n q.1 q.2).1).mono ?_)
    rintro id ⟨x, hx, hid⟩
    exact ⟨x, List.mem_cons_of_mem _ hx, hid⟩

/-! ## What is counted of a request -/

/-- The calls on the `http.ResponseWriter`; those of a diagnostics page are
not known. -/
def Outcome.calls : Outcome → List WriterCall
  | .reply _ (.read (.metrics _)) => [.write]
  | .reply status .empty => [.writeHeader status]
  | .reply status _ => [.writeHeader status, .write]
  | .diagnostics _ | .panicked => []

/-- A panic, or a reply whose status is set before anything is written: the
status that is sent is the one given, and the one counted. -/
inductive Outcome.Plain : Outcome → Prop
  | reply {status : Nat} {body : Body} (hfirst : HeaderFirst (Outcome.reply status body).calls)
      (hsent : sentStatus (Outcome.reply status body).calls = status) : Plain (.reply status body)
  | panicked : Plain .panicked

/-- `writeJSON`. -/
theorem plain_writeJSON {status : Nat} {body : Body} (hs : status ≠ 0)
    (hcalls : (Outcome.reply status body).calls = [.writeHeader status, .write]) :
    (Outcome.reply status body).Plain := by
  refine .reply ?_ ?_
  · rw [hcalls]
    simp [HeaderFirst, hs]
  · rw [hcalls]
    rfl

theorem plain_apiError (e : ApiError) : (ApiError.outcome e).Plain := by
  cases e with
  | notFound text => exact plain_writeJSON (by decide) rfl
  | internal => exact plain_writeJSON (by decide) rfl

theorem plain_read (a : ReadAnswer) : a.outcome.Plain := by
  cases a with
  | runner r =>
    cases r with
    | error e => exact plain_apiError e
    | ok => exact plain_writeJSON (by decide) rfl
  | labels l =>
    cases l with
    | error e => exact plain_apiError e
    | ok => exact plain_writeJSON (by decide) rfl
  | best rs =>
    cases rs with
    | error e => exact plain_apiError e
    | ok => exact plain_writeJSON (by decide) rfl
  | metrics => exact .reply (by simp [Outcome.calls, HeaderFirst]) rfl
  | runners | summary | cluster => exact plain_writeJSON (by decide) rfl

theorem plain_reply {r : Node.Reply} (hs : r.status ≠ 0) : (Reply.outcome r).Plain := by
  obtain ⟨status, body⟩ := r
  cases body with
  | empty => exact .reply (by simp [Outcome.calls, HeaderFirst, hs]) rfl
  | labels => exact plain_writeJSON hs rfl
  | error => exact plain_writeJSON hs rfl
  | dbError => exact plain_writeJSON hs rfl

theorem plain_update (E : Env) (n : Node) (now : Int64) (id : String)
    (body : Option (Option Labels)) :
    ((n.handleUpdateLabels E now id body).2.elim .panicked Reply.outcome).Plain := by
  unfold Node.handleUpdateLabels
  split
  · exact plain_reply (by simp)
  · split
    · exact plain_reply (by simp)
    · split
      · exact plain_reply (by simp)
      · split
        · exact .panicked
        · simp only
          split
          · exact plain_reply (by simp)
          · exact plain_reply (by simp)

theorem plain_delete (E : Env) (n : Node) (now : Int64) (id : String) :
    (Reply.outcome (n.handleDeleteLabels E now id).2).Plain := by
  simp only [Node.handleDeleteLabels]
  split
  · exact plain_reply (by simp)
  · exact plain_reply (by simp)

/-- It is counted under the status it was given. -/
theorem Outcome.Plain.counted {status : Nat} {body : Body} (h : (Outcome.reply status body).Plain)
    (k : Nat) : (HttpAction.respond k (Outcome.reply status body).calls).HeaderFirst ∧
      recordedStatus (Outcome.reply status body).calls = status := by
  cases h with
  | reply hfirst hsent => exact ⟨hfirst, (recordedStatus_eq hfirst).trans hsent⟩

def Endpoint.isPprof : Endpoint → Bool
  | .pprof _ => true
  | _ => false

theorem route_of_isPprof : ∀ enablePprof, ∀ r ∈ routes enablePprof,
    r.handler.isPprof = true → enablePprof = true := by
  decide

/-- **Every request ends in a plain way**, unless it is shown a diagnostics
page, for which it has been authorized. -/
theorem serve_outcome (S : SortSlice Store.later) (opts : Options) (C : Codec) (n : Node)
    (now : Int64) (req : Request) :
    (serve S opts C n now req).2.Plain ∨ opts.enablePprof = true ∧ authorized opts req = true := by
  unfold serve
  split
  · next e values hroute =>
    cases e with
    | pprof page =>
      obtain ⟨r, hr, hre, -⟩ := ServeMux.findHandler_sound hroute
      simp only [handle]
      split
      · next hauth => exact .inr ⟨route_of_isPprof _ r hr (by rw [hre]; rfl), hauth⟩
      · exact .inl (plain_writeJSON (by decide) rfl)
    | health => exact .inl (plain_writeJSON (by decide) rfl)
    | events =>
      simp only [handle]
      split
      · exact .inl (plain_writeJSON (by decide) rfl)
      · exact .inl (plain_apiError _)
    | updateLabels => exact .inl (plain_update ..)
    | deleteLabels => exact .inl (plain_delete ..)
    | metrics | bestRunner | runners | runner | getLabels | summary | cluster =>
      simp only [handle]
      exact .inl (plain_read _)
  · exact .inl (plain_writeJSON (by decide) rfl)
  · exact .inl (plain_writeJSON (by decide) rfl)
  · exact .inl (plain_writeJSON (by decide) rfl)

/-! ## Diagnostics -/

/-- Below `/debug` there is nothing else. -/
theorem isPprof_of_debug : ∀ enablePprof, ∀ r ∈ routes enablePprof,
    r.pattern.head? = some (.lit "debug") → r.handler.isPprof = true := by
  decide

theorem head_of_matches {p : List Seg} {path values : List String} {s : String}
    (h : Matches p (s :: path) values) :
    p.head? = some (.lit s) ∨ p.head? = some .wild ∨ p.head? = some .rest := by
  cases h with
  | lit => exact .inl rfl
  | wild => exact .inr (.inl rfl)
  | rest => exact .inr (.inr rfl)

theorem route_head : ∀ enablePprof, ∀ r ∈ routes enablePprof,
    r.pattern.head? ≠ some .wild ∧ r.pattern.head? ≠ some .rest := by
  decide

/-- The header a client presents a token in. -/
def Request.presents (req : Request) (token : String) : Prop :=
  req.header "X-Takl-Admin-Token" = token ∨
    req.header "X-Takl-Admin-Token" = "" ∧ trimBearer (req.header "Authorization") = token

theorem authorized_iff {opts : Options} {req : Request} :
    authorized opts req = true ↔ opts.adminToken ≠ "" ∧ req.presents opts.adminToken := by
  by_cases htoken : opts.adminToken = ""
  · simp [authorized, htoken]
  · have hne : "" ≠ opts.adminToken := fun he => htoken he.symm
    by_cases hgiven : req.header "X-Takl-Admin-Token" = ""
    · simp [authorized, Request.presents, htoken, hgiven, hne]
    · simp [authorized, Request.presents, htoken, hgiven]

theorem serve_debug {opts : Options} (S : SortSlice Store.later) (C : Codec) (n : Node)
    (now : Int64) {req : Request} (henabled : opts.enablePprof = true)
    (hmethod : req.method = "GET") {s : String} {rest : List String}
    (hpath : req.path = "debug" :: "pprof" :: s :: rest) :
    ∃ page, serve S opts C n now req = if authorized opts req then (n, .diagnostics page)
      else (n, .reply 401 (.error "admin token required")) := by
  have hindex : (⟨"GET", debugPprof .rest, .pprof .index⟩ : Route Endpoint) ∈
      routes opts.enablePprof := by
    rw [henabled]
    decide
  have hmatch : Matches (debugPprof .rest) ("debug" :: "pprof" :: s :: rest) [] :=
    .lit _ (.lit _ (.rest s rest))
  obtain ⟨e, values, hfound⟩ := ServeMux.findHandler_complete hindex hmatch
  obtain ⟨r, hr, rfl, -, hm⟩ := ServeMux.findHandler_sound hfound
  have hdebug : r.pattern.head? = some (.lit "debug") := by
    obtain ⟨hwild, hrest⟩ := route_head _ r hr
    rcases head_of_matches hm with h | h | h
    · exact h
    · exact absurd h hwild
    · exact absurd h hrest
  have hpprof := isPprof_of_debug _ r hr hdebug
  unfold serve
  rw [hmethod, hpath]
  simp only [hfound]
  generalize r.handler = e at hpprof
  cases e with
  | pprof page => exact ⟨page, rfl⟩
  | _ => cases hpprof

section Start
variable {κ : Type} (H : Daemon.Host κ)

open Daemon (Config Flags SyncServer startUp trimSpace)

/-- What `main` passes to `api.New`. -/
def optionsOf (cfg : Config) : Options := ⟨cfg.adminToken, cfg.enablePprof⟩

/-- **Diagnostics are shown to holders of the token, and to them.** If `main`
passes its checks, a request gets a diagnostics page only if they are enabled
and it presents the token, which is not blank; and if they are and it does,
every page below `/debug/pprof/` is shown to it. -/
theorem diagnostics_need_token {cfg : Config} {flags : Flags} {server : Option (SyncServer κ)}
    (h : startUp H cfg flags = .ok server) (S : SortSlice Store.later) (C : Codec) (n : Node)
    (now : Int64) (req : Request) :
    (∀ page, (serve S (optionsOf (cfg.override flags)) C n now req).2 = .diagnostics page →
        (cfg.override flags).enablePprof = true ∧
          trimSpace (cfg.override flags).adminToken ≠ "" ∧
          req.presents (cfg.override flags).adminToken) ∧
      ((cfg.override flags).enablePprof = true → req.method = "GET" →
        ∀ s rest, req.path = "debug" :: "pprof" :: s :: rest →
          req.presents (cfg.override flags).adminToken →
            ∃ page,
              (serve S (optionsOf (cfg.override flags)) C n now req).2 = .diagnostics page) := by
  have htoken := (Daemon.passed_of_startUp H h).token
  refine ⟨fun page hpage => ?_, fun henabled hmethod s rest hpath hpresents => ?_⟩
  · rcases serve_outcome S (optionsOf (cfg.override flags)) C n now req with hplain | ⟨hen, hauth⟩
    · rw [hpage] at hplain
      cases hplain
    · exact ⟨hen, htoken hen, (authorized_iff.mp hauth).2⟩
  · have henabled' : (optionsOf (cfg.override flags)).enablePprof = true := henabled
    obtain ⟨page, hserve⟩ := serve_debug S C n now henabled' hmethod hpath
    have hne : (cfg.override flags).adminToken ≠ "" := by
      intro hempty
      have hblank := htoken henabled
      rw [hempty] at hblank
      exact hblank (by decide)
    have hauth : authorized (optionsOf (cfg.override flags)) req = true :=
      authorized_iff.mpr ⟨hne, hpresents⟩
    rw [hauth, if_pos rfl] at hserve
    exact ⟨page, by rw [hserve]⟩

end Start

/-- `--enable-pprof --admin-token s3cret` -/
def pprofFlags : Daemon.Flags := { adminToken := some "s3cret", enablePprof := some true }

/-- `GET /debug/pprof/heap` with a bearer token. -/
def heapRequest : Request :=
  { method := "GET", path := ["debug", "pprof", "heap"]
    header := fun name => if name = "Authorization" then "Bearer s3cret" else ""
    limit := none, offset := none, region := "", label := [], runner := "", body := none }

theorem heap_shown_to_holder : (Daemon.startUp Daemon.plainHost .default pprofFlags).toBool = true ∧
    ∀ S C n now, ∃ page, (serve S (optionsOf (Daemon.Config.default.override pprofFlags)) C n now
      heapRequest).2 = .diagnostics page := by
  have hok : (Daemon.startUp Daemon.plainHost .default pprofFlags).toBool = true := by
    decide +kernel
  obtain ⟨server, hstart⟩ := Except.toBool_eq_true.mp hok
  refine ⟨hok, fun S C n now => (diagnostics_need_token Daemon.plainHost hstart S C n now
    heapRequest).2 rfl rfl "heap" [] rfl (.inr ⟨rfl, ?_⟩)⟩
  decide +kernel

end Api

end Takl
