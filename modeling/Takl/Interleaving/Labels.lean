import Mathlib.Data.List.InsertIdx
import Takl.Interleaving.Writer
import Takl.Lib.Pool
import Takl.Node.Labels

/-!
# Label requests that overtake each other

`handleUpdateLabels` reads the stored labels, writes the body over its copy
and puts the copy back, with two calls in between that give another request
its turn. A `Desk` is a node with the requests for one runner under way, each
a `Writer`, next to the books on who came and who was served.

A request is past its `Get` of the label row until it is answered. If no
other request makes that `Get` in the meantime, the stored labels are at any
time the bodies of the answered requests written over the initial ones, in
the order of their answers (`Tended`), and nothing is lost. If one does, its
`Put` takes the other's labels back.
-/

namespace Takl

open Runs

/-- A request of `PUT /runners/{id}/labels` under way: what it was sent, and
where its handler is. -/
structure Request where
  body : Option Labels
  writer : Writer

namespace Writer

/-- The next call is the `Get` of the label row. -/
def readsLabels : Writer → Bool
  | mergeLabels .. => true
  | _ => false

/-- The writer has a copy of the labels that it is going to put. -/
def hasRead : Writer → Bool
  | stampLabels .. | put .. => true
  | _ => false

end Writer

/-- A node, and the label requests for one of its runners. -/
structure Desk where
  node : Node
  active : List Request
  /-- The bodies of all requests so far. -/
  arrived : List (Option Labels)
  /-- Those of the requests that have made their `Put`, in that order. -/
  answered : List (Option Labels)

inductive DeskAction where
  | arrive (body : Option Labels)
  /-- The request at that place makes its next call; a `Tick` reads `now`. -/
  | call (k : Nat) (now : Int64)

namespace Desk

/-- No request has come yet. -/
def opened (n : Node) : Desk := ⟨n, [], [], []⟩

/-- The request after its call, and the books if that was its `Put`. -/
def serve (s : Desk) (k : Nat) (q : Request) (n : Node) (w' : Option Writer) : Desk :=
  { node := n
    active := (w'.map fun w => ⟨q.body, w⟩).toList ++ s.active.eraseIdx k
    arrived := s.arrived
    answered :=
      match q.writer with
      | .put _ => s.answered ++ [q.body]
      | _ => s.answered }

def step (E : Env) (id : String) (s : Desk) : DeskAction → Option Desk
  | .arrive body => some
      { s with
        active := ⟨body, .putLabels id (some body)⟩ :: s.active
        arrived := s.arrived ++ [body] }
  | .call k now => (s.active[k]?).map fun q =>
      s.serve k q (q.writer.next E s.node now).1 (q.writer.next E s.node now).2

/-- The writers without the books. -/
def crew (s : Desk) : Crew := ⟨s.node, s.active.map Request.writer⟩

/-- **The desk is a crew of label writers.** -/
theorem step_crew {E : Env} {id : String} {s t : Desk} {a : DeskAction}
    (h : step E id s a = some t) :
    ∃ b, Crew.step E s.crew b = some t.crew := by
  cases a with
  | arrive body =>
    cases h
    exact ⟨.spawn (.putLabels 0 id (some body)), rfl⟩
  | call k now =>
    obtain ⟨q, hq, rfl⟩ := Option.map_eq_some_iff.mp h
    refine ⟨.call k now, ?_⟩
    simp only [Crew.step, crew, List.getElem?_map, hq, Option.map_some, serve, List.map_append,
      List.eraseIdx_map]
    cases (q.writer.next E s.node now).2 <;> rfl

/-- No request reads the labels while another one has a copy. -/
def Exclusive (s : Desk) : DeskAction → Prop
  | .arrive _ => True
  | .call k _ => ∀ q ∈ s.active[k]?, q.writer.readsLabels = true →
      ∀ p ∈ s.active, p.writer.hasRead = false

instance (s : Desk) : DecidablePred s.Exclusive
  | .arrive _ => isTrue trivial
  | .call k _ => inferInstanceAs <| Decidable <|
      ∀ q ∈ s.active[k]?, q.writer.readsLabels = true →
        ∀ p ∈ s.active, p.writer.hasRead = false

/-! ## Where a request can be -/

/-- A request whose handler would, at the labels `cur`, store `cur` with the
body written over it. -/
inductive At (E : Env) (id : String) (cur : Labels) : Request → Prop
  | arrived (body : Option Labels) : At E id cur ⟨body, .putLabels id (some body)⟩
  | found (body : Option Labels) : At E id cur ⟨body, .mergeLabels id body⟩
  | merged (body : Option Labels) {l : Labels} (h : l.Same (cur.update body)) :
      At E id cur ⟨body, .stampLabels id (some l)⟩
  | stamped (body : Option Labels) {l : Labels} (h : l.Same (cur.update body)) (n : Node)
      (hlc : HLC) : At E id cur ⟨body, .put (n.labelsRow E id (some l) hlc)⟩

/-- Before its `Get` of the label row a request does not depend on it. -/
theorem At.of_hasRead_eq_false {E : Env} {id : String} {cur : Labels} {q : Request}
    (h : At E id cur q) (hq : q.writer.hasRead = false) (cur' : Labels) : At E id cur' q := by
  cases h with
  | arrived body => exact .arrived body
  | found body => exact .found body
  | merged | stamped => cases hq

/-- The labels the handler starts from. -/
def Stored (E : Env) (id : String) (st : Store) (cur : Labels) : Prop :=
  ∃ l, Node.storedLabels E st id = some l ∧ l.Same cur

/-- What a request's next call does: it reads or takes a timestamp, or it
puts the labels and is answered. -/
inductive Served (E : Env) (id : String) (cur : Labels) (n : Node) (q : Request) (n' : Node) :
    Option Writer → Prop
  | goesOn {w : Writer} (hstore : n'.store = n.store) (hat : At E id cur ⟨q.body, w⟩)
      (hput : ∀ r, q.writer ≠ .put r)
      (hread : w.hasRead = true → q.writer.hasRead = true ∨ q.writer.readsLabels = true) :
      Served E id cur n q n' (some w)
  | answered {r : Row} (hput : q.writer = .put r) (hlive : n'.store.Live E id)
      (hstored : Stored E id n'.store (cur.update q.body)) : Served E id cur n q n' none

/-- **A request goes on to its `Put`, which stores its body over the labels
it has read.** -/
theorem At.served {E : Env} (hjson : E.LabelsReadBack) {id : String} {cur : Labels} {n : Node}
    {q : Request} (hat : At E id cur q) (hlive : n.store.Live E id)
    (hstored : Stored E id n.store cur) (now : Int64) :
    Served E id cur n q (q.writer.next E n now).1 (q.writer.next E n now).2 := by
  cases hat with
  | arrived body =>
    obtain ⟨r, hr, hdead⟩ := hlive
    simp only [Writer.next, hr, hdead, Bool.false_eq_true, if_false, Option.map_some]
    exact .goesOn rfl (.found body) (by simp) (by simp [Writer.hasRead])
  | found body =>
    obtain ⟨l, hl, hsame⟩ := hstored
    simp only [Writer.next, hl, Node.mergeLabels_some, Option.map_some]
    exact .goesOn rfl (.merged body (hsame.update body)) (by simp) fun _ => .inr rfl
  | merged body h => exact .goesOn rfl (.stamped body h _ _) (by simp) fun _ => .inl rfl
  | @stamped body l h n₀ hlc =>
    obtain ⟨st, hput, hholds, hother⟩ := n.call_labelsRow E n₀ id l hlc
    simp only [Writer.next, hput]
    obtain ⟨l', hl', hsame⟩ := Node.storedLabels_of_holds hjson hholds
    obtain ⟨r, hr, hdead⟩ := hlive
    refine .answered rfl ⟨r, ?_, hdead⟩ ⟨l', hl', hsame.trans h⟩
    exact (hother _ _ fun heq => kindRunner_ne_kindMeta (congrArg Prod.fst heq)).trans hr

/-! ## The books over a run -/

/-- **The books are right**: the stored labels are the answered bodies
written over the initial ones, and every request that came has been answered
or is under way, at most one of them with a copy of the labels. -/
structure Tended (E : Env) (id : String) (init : Labels) (s : Desk) : Prop where
  live : s.node.store.Live E id
  stored : Stored E id s.node.store (init.updateAll s.answered)
  active : ∀ q ∈ s.active, At E id (init.updateAll s.answered) q
  alone : s.active.Pairwise fun p q => p.writer.hasRead = false ∨ q.writer.hasRead = false
  books : s.arrived.Perm (s.answered ++ s.active.map Request.body)

section Call
variable {E : Env} {id : String} {init : Labels} {s : Desk} {k : Nat} {q : Request} {n : Node}

/-- The same with `q` taken out of its place in the list. -/
theorem Tended.others (h : Tended E id init s) (hq : s.active[k]? = some q) :
    (∀ p ∈ s.active.eraseIdx k, At E id (init.updateAll s.answered) p) ∧
    (∀ p ∈ s.active.eraseIdx k, q.writer.hasRead = true → p.writer.hasRead = false) ∧
    ((s.active.eraseIdx k).Pairwise fun p q =>
      p.writer.hasRead = false ∨ q.writer.hasRead = false) ∧
    s.arrived.Perm (s.answered ++ q.body :: (s.active.eraseIdx k).map Request.body) := by
  have hperm := Pool.perm_cons_eraseIdx hq
  obtain ⟨hfirst, hrest⟩ := List.pairwise_cons.mp
    ((hperm.pairwise_iff fun hpq => hpq.symm).mp h.alone)
  refine ⟨fun p hp => h.active p (List.mem_of_mem_eraseIdx hp), fun p hp hread => ?_, hrest,
    h.books.trans ((hperm.map Request.body).append_left _)⟩
  simpa [hread] using hfirst p hp

/-- A call before the `Put` keeps the books right. -/
theorem Tended.goesOn (h : Tended E id init s) {now : Int64}
    (hok : s.Exclusive (.call k now)) (hq : s.active[k]? = some q) {w : Writer}
    (hstore : n.store = s.node.store) (hat : At E id (init.updateAll s.answered) ⟨q.body, w⟩)
    (hput : ∀ r, q.writer ≠ .put r)
    (hread : w.hasRead = true → q.writer.hasRead = true ∨ q.writer.readsLabels = true) :
    Tended E id init (s.serve k q n (some w)) := by
  obtain ⟨hactive, hothers, halone, hbooks⟩ := h.others hq
  have hanswered : (s.serve k q n (some w)).answered = s.answered := by
    cases hw : q.writer <;> simp_all [serve]
  have hstore' : (s.serve k q n (some w)).node.store = s.node.store := hstore
  constructor
  · rw [hstore']
    exact h.live
  · rw [hstore', hanswered]
    exact h.stored
  · rw [hanswered]
    intro p hp
    rcases List.mem_cons.mp hp with rfl | hp
    · exact hat
    · exact hactive p hp
  · refine List.pairwise_cons.mpr ⟨fun p hp => ?_, halone⟩
    cases hw : w.hasRead with
    | false => exact .inl rfl
    | true =>
      rcases hread hw with hhas | hreads
      · exact .inr (hothers p hp hhas)
      · -- the `Get` was made while nobody had a copy
        exact .inr (hok q hq hreads p (List.mem_of_mem_eraseIdx hp))
  · rw [hanswered]
    exact hbooks

/-- So does the `Put`. -/
theorem Tended.answered (h : Tended E id init s) (hq : s.active[k]? = some q) {r : Row}
    (hput : q.writer = .put r) (hlive : n.store.Live E id)
    (hstored : Stored E id n.store ((init.updateAll s.answered).update q.body)) :
    Tended E id init (s.serve k q n none) := by
  obtain ⟨hactive, hothers, halone, hbooks⟩ := h.others hq
  have hanswered : (s.serve k q n none).answered = s.answered ++ [q.body] := by
    simp [serve, hput]
  constructor
  · exact hlive
  · rw [hanswered, Labels.updateAll_append]
    exact hstored
  · rw [hanswered]
    intro p hp
    -- no other request has a copy of the labels that have just changed
    have hp' := hothers p hp (by rw [hput]; rfl)
    exact (hactive p hp).of_hasRead_eq_false hp' _
  · exact halone
  · rw [hanswered, List.append_assoc]
    exact hbooks

end Call

theorem Tended.step {E : Env} (hjson : E.LabelsReadBack) {id : String} {init : Labels}
    {s t : Desk} {a : DeskAction} (h : Tended E id init s) (hok : s.Exclusive a)
    (hst : Desk.step E id s a = some t) : Tended E id init t := by
  cases a with
  | arrive body =>
    cases hst
    constructor
    · exact h.live
    · exact h.stored
    · intro q hq
      rcases List.mem_cons.mp hq with rfl | hq
      · exact .arrived body
      · exact h.active q hq
    · exact List.pairwise_cons.mpr ⟨fun _ _ => .inl rfl, h.alone⟩
    · refine (h.books.append_right [body]).trans ?_
      rw [List.append_assoc]
      exact List.perm_append_comm.append_left _
  | call k now =>
    obtain ⟨q, hq, rfl⟩ := Option.map_eq_some_iff.mp hst
    have hserved := (h.active q (List.mem_of_getElem? hq)).served hjson h.live h.stored now
    generalize (q.writer.next E s.node now).1 = n at hserved
    generalize (q.writer.next E s.node now).2 = w' at hserved
    cases hserved with
    | goesOn hstore hat hput hread => exact h.goesOn hok hq hstore hat hput hread
    | answered hput hlive hstored => exact h.answered hq hput hlive hstored

theorem Tended.opened {E : Env} {id : String} {init : Labels} {n : Node}
    (hlive : n.store.Live E id) (hinit : Node.storedLabels E n.store id = some init) :
    Tended E id init (opened n) where
  live := hlive
  stored := ⟨init, hinit, .refl init⟩
  active := by simp [Desk.opened]
  alone := .nil
  books := .nil

/-- **Label requests that read one at a time lose nothing.** Every key that a
request or the initial labels had is stored when the last request has been
answered, with the value of a request that set it, or the initial one if none
did. -/
theorem exclusive_updates_kept (E : Env) (hjson : E.LabelsReadBack) {n : Node} {id : String}
    {init : Labels} (hlive : n.store.Live E id)
    (hinit : Node.storedLabels E n.store id = some init) {as : List DeskAction} {t : Desk}
    (hr : Run (step E id) Exclusive (opened n) as t) (hdone : t.active = []) :
    ∃ labels, Node.storedLabels E t.node.store id = some labels ∧
      (∀ k, init.get k ≠ none ∨ (∃ body ∈ t.arrived, Labels.entry body k ≠ none) →
        labels.get k ≠ none) ∧
      ∀ k e, labels.get k = some e →
        (∃ body ∈ t.arrived, Labels.entry body k = some e) ∨
          (init.get k = some e ∧ ∀ body ∈ t.arrived, Labels.entry body k = none) := by
  have h : Tended E id init t := hr.invariant (fun s a u hs hok hst => hs.step hjson hok hst)
    (.opened hlive hinit)
  obtain ⟨labels, hstored, hsame⟩ := h.stored
  have hmem (body : Option Labels) : body ∈ t.arrived ↔ body ∈ t.answered := by
    simpa [hdone] using h.books.mem_iff
  refine ⟨labels, hstored, fun k hk => ?_, fun k e he => ?_⟩
  · rw [hsame k]
    simp only [hmem] at hk
    exact Labels.updateAll_has hk
  · rw [hsame k] at he
    simp only [hmem]
    exact Labels.updateAll_origin he

/-- A node whose runner has one label from the API. -/
def labelled : Node :=
  NodeOp.exec .escaping
    (NodeOp.exec .escaping (.fresh (Demo.nodeID 0) Demo.epoch "10.0.0.0:7001")
      (.start 10 (Demo.runner 0)))
    (.putLabels 10 (Demo.nodeID 0) (some (some (Demo.labels "gpu" "a100"))))

/-- Two requests; the second finds its runner while the first has its copy. -/
theorem second_reads_after_first :
    ∃ t, Run (step .escaping (Demo.nodeID 0)) Exclusive (opened labelled)
        [.arrive (some (Demo.labels "tier" "gold")), .arrive (some (Demo.labels "gpu" "h100")),
          .call 1 11, .call 0 11, .call 1 11, .call 1 11, .call 0 11,
          .call 0 12, .call 0 12, .call 0 12] t ∧ t.active = [] ∧
      ∃ labels, Node.storedLabels .escaping t.node.store (Demo.nodeID 0) = some labels ∧
        (∀ k, (Demo.labels "gpu" "a100").get k ≠ none ∨
            (∃ body ∈ t.arrived, Labels.entry body k ≠ none) → labels.get k ≠ none) ∧
        ∀ k e, labels.get k = some e →
          (∃ body ∈ t.arrived, Labels.entry body k = some e) ∨
            ((Demo.labels "gpu" "a100").get k = some e ∧
              ∀ body ∈ t.arrived, Labels.entry body k = none) := by
  obtain ⟨t, hr, hdone⟩ : ∃ t, Run (step .escaping (Demo.nodeID 0)) Exclusive (opened labelled)
      [.arrive (some (Demo.labels "tier" "gold")), .arrive (some (Demo.labels "gpu" "h100")),
        .call 1 11, .call 0 11, .call 1 11, .call 1 11, .call 0 11,
        .call 0 12, .call 0 12, .call 0 12] t ∧ t.active.length = 0 :=
    exists_run (by decide +kernel)
  have hdone' := List.length_eq_zero_iff.mp hdone
  exact ⟨t, hr, hdone', exclusive_updates_kept _ Env.escaping_labelsReadBack (by decide +kernel)
    (by decide +kernel) hr hdone'⟩

/-- Both requests read the labels before either has put its own: the second
`Put` takes the first request's label back. -/
theorem overtaken_update_lost :
    ∃ t, Run (step .escaping (Demo.nodeID 0)) (fun _ _ => True) (opened labelled)
        [.arrive (some (Demo.labels "tier" "gold")), .arrive (some (Demo.labels "zone" "b")),
          .call 1 11, .call 0 11, .call 1 11, .call 0 11, .call 1 11, .call 0 11,
          .call 0 12, .call 0 12] t ∧
      (t.active.length = 0 ∧
        t.answered = [some (Demo.labels "tier" "gold"), some (Demo.labels "zone" "b")] ∧
        ∃ labels ∈ Node.storedLabels .escaping t.node.store (Demo.nodeID 0),
          labels.get "zone" = some ("zone", "b") ∧ labels.get "tier" = none) :=
  exists_run (by decide +kernel)

end Desk

end Takl
