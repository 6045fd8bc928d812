import Takl.Node.Response
import Takl.Node.Restart

/-!
# One process: what its clock hands out and what it collects

Runs of a node from its first start, without a restart: local operations at
whatever the wall clock reads, and completed rounds with whatever a peer
answers. `Process` carries three history variables the properties are about:
the timestamps handed out, the HLCs taken in from peers, and the last reading
of the wall clock.

* `clock_ahead_of_store` — as long as no tick wraps the counter, the clock is
  at or past every stored HLC, its timestamps increase, and a local write beats
  the row it replaces. The wall clock may do what it likes.
* `tombstones_kept_an_hour` — `gcTombstones` counts its hour from the hybrid
  clock. Where no peer has been ahead of the wall clock, that is the wall
  clock's hour.
-/

namespace Takl

/-- A node and its history. -/
structure Process where
  node : Node
  /-- The results of `Tick`, the last one first. -/
  ticks : List HLC
  /-- The HLCs taken in from peers. -/
  received : List HLC
  /-- The last reading of the wall clock. -/
  wall : Int64

/-- What a process does. -/
inductive ProcessAction where
  | op (op : NodeOp)
  /-- A whole `RoundOnce`; `none` is a pull that failed. -/
  | round (peer : String) (resp : Option PullResponse)

namespace Process

open Runs

/-- A first start on an empty database. -/
def begin (nodeID : String) (epoch : Epoch) (syncAddr : String) : Process :=
  { node := .fresh nodeID epoch syncAddr, ticks := [], received := [], wall := Int64.minValue }

/-- One step. A tick always moves the clock, so an operation that leaves it
alone has not taken one. -/
def step (E : Env) (p : Process) : ProcessAction → Option Process
  | .op op =>
      let n := op.exec E p.node
      some { p with
        node := n
        ticks := if n.clock = p.node.clock then p.ticks else n.clock.reading :: p.ticks
        wall := op.now }
  | .round _ none => some p
  | .round peer (some resp) =>
      match p.node.finishRound E peer (p.node.store.watermark peer kindEvent) resp with
      | (_, .failed _) => some p
      | (n, _) => some { p with node := n, received := resp.hlcs ++ p.received }

/-- Everything a step can do. -/
inductive Step (E : Env) (p : Process) : ProcessAction → Process → Prop
  | refused (op : NodeOp) : Step E p (.op op) { p with wall := op.now }
  | stamped {op : NodeOp} {n : Node} (h : Stamped E p.node op n) :
      Step E p (.op op)
        { p with node := n, ticks := n.clock.reading :: p.ticks, wall := op.now }
  | failed (peer : String) (resp : Option PullResponse) : Step E p (.round peer resp) p
  | received {peer : String} {resp : PullResponse} {n : Node}
      (h : p.node.Received peer resp n)
      (hclock : ∃ hs, (∀ x ∈ hs, x ∈ resp.hlcs) ∧ p.node.clock.Absorbed hs n.clock) :
      Step E p (.round peer (some resp))
        { p with node := n, received := resp.hlcs ++ p.received }

theorem tick_ne (c : Clock) (now : Int64) : (c.tick now).2 ≠ c := by
  intro hc
  by_cases hn : c.ts < now
  · have hts := congrArg Clock.ts hc
    simp [Clock.tick, hn] at hts
    exact Int64.lt_irrefl (hts ▸ hn)
  · have hseq := congrArg Clock.seq hc
    simp [Clock.tick, hn] at hseq

theorem step_cases {E : Env} {p p' : Process} {a : ProcessAction} (h : step E p a = some p') :
    Step E p a p' := by
  cases a with
  | op op =>
    cases h
    rcases op.exec_cases E p.node with he | he
    · simp only [he, if_true]
      exact .refused op
    · have hmoved : (op.exec E p.node).clock ≠ p.node.clock := he.clock ▸ tick_ne _ _
      simp only [if_neg hmoved]
      exact .stamped he
  | round peer resp =>
    cases resp with
    | none =>
      cases h
      exact .failed peer none
    | some resp =>
      simp only [step] at h
      split at h
      · cases h
        exact .failed peer _
      · next n out hfail hfin =>
        cases h
        refine .received ?_ (Node.absorbed_of_finishRound hfin)
        refine (Node.finishRound_cases hfin).resolve_left ?_
        rintro ⟨-, e, rfl, -⟩
        exact hfail e rfl

/-! ## The clock and the store -/

/-- A tick does not wrap the counter. -/
def NoTickWraps (p : Process) : ProcessAction → Prop
  | .op op => p.node.clock.NoWrap op.now
  | .round .. => True

instance (p : Process) : DecidablePred (NoTickWraps p)
  | .op op => inferInstanceAs (Decidable (p.node.clock.NoWrap op.now))
  | .round .. => isTrue trivial

/-- The clock is at or past what is stored and what it has handed out. -/
structure Ahead (p : Process) : Prop where
  stored : p.node.Dominates
  ticks : ∀ h ∈ p.ticks, h ≤ p.node.clock.reading
  increasing : p.ticks.Pairwise fun later earlier => earlier < later

theorem ahead_begin (nodeID : String) (epoch : Epoch) (syncAddr : String) :
    (begin nodeID epoch syncAddr).Ahead where
  stored _ hh := nomatch hh
  ticks _ hh := nomatch hh
  increasing := .nil

/-- **The clock keeps up with each step**: an operation ticks it, and a round
witnesses what it has merged. -/
theorem Ahead.step {E : Env} {p p' : Process} {a : ProcessAction} (h : p.Ahead)
    (hok : p.NoTickWraps a) (hst : Process.step E p a = some p') : p'.Ahead := by
  cases step_cases hst with
  | refused => exact ⟨h.stored, h.ticks, h.increasing⟩
  | failed => exact h
  | stamped he =>
    have hlt := he.reading_lt hok
    refine ⟨Life.dominates_of_stamped he (Node.lt_tick_of_dominates hok h.stored), ?_, ?_⟩
    · exact List.forall_mem_cons.mpr ⟨le_rfl, fun x hx => (h.ticks x hx).trans hlt.le⟩
    · exact List.pairwise_cons.mpr ⟨fun x hx => (h.ticks x hx).trans_lt hlt, h.increasing⟩
  | received he =>
    exact ⟨Life.dominates_of_received he h.stored,
      fun x hx => (h.ticks x hx).trans he.clock_mono, h.increasing⟩

/-- **The clock keeps up through a whole run.** -/
theorem Ahead.run {E : Env} {p p' : Process} {as : List ProcessAction}
    (hr : Run (Process.step E) NoTickWraps p as p') (h : p.Ahead) : p'.Ahead :=
  hr.invariant (I := Ahead) (fun _ _ _ h hok hst => h.step hok hst) h

/-- **The clock dominates the store.** From a first start, through operations
and rounds in any order and at any wall-clock readings, as long as no tick
wraps the counter: after every step the clock is at or past every stored HLC,
each tick is after all earlier ones, and a row written locally beats the row it
replaces. -/
theorem clock_ahead_of_store (E : Env) {nodeID syncAddr : String} {epoch : Epoch}
    {p p' : Process} {as : List ProcessAction} {a : ProcessAction}
    (hr : Run (step E) NoTickWraps (begin nodeID epoch syncAddr) as p) (hok : p.NoTickWraps a)
    (hst : step E p a = some p') :
    (∀ h ∈ p'.node.stored, h ≤ p'.node.clock.reading) ∧
      p'.ticks.Pairwise (fun later earlier => later.after earlier = true) ∧
      ∀ op, a = .op op → ∀ r ∈ p'.node.store.rows, r ∉ p.node.store.rows →
        ∀ c ∈ p.node.store.rows, c.id = r.id → newer r c = true := by
  have hp := (ahead_begin nodeID epoch syncAddr).run hr
  have hp' := hp.step hok hst
  refine ⟨hp'.stored, hp'.increasing.imp HLC.after_iff.mpr, ?_⟩
  rintro op rfl r hr' hnew c hc -
  cases step_cases hst with
  | refused => exact absurd hr' hnew
  | stamped he =>
    refine newer_iff.mpr (Row.version_lt_of_hlc_lt ?_)
    rw [he.hlc_of_new hr' hnew]
    exact (hp.stored _ (Node.mem_stored.mpr (.inl ⟨c, hc, rfl⟩))).trans_lt (he.reading_lt hok)

/-- A peer's runner row at the given time. -/
def peerRow (hlc : HLC) : PullResponse :=
  { nodeId := Demo.nodeID 1, checksums := [], events := [], eventChecksum := 0
    rows := [⟨"runner", Demo.nodeID 1, "n1/1", some hlc, false, some [1]⟩] }

/-- A start, a row from a peer ahead, and a step. -/
def meetsPeer (hlc : HLC) : List ProcessAction :=
  [.op (.start 10 (Demo.runner 0)), .round "10.0.0.1:7001" (some (peerRow hlc)),
    .op (.step 12 (Demo.runner 0))]

/-- With the wall clock behind the peer and then running backwards, ticks go
on from the peer's time. -/
theorem backwards_clock_advances : ∃ p p' : Process,
    Run (step .escapeFree) NoTickWraps (begin (Demo.nodeID 0) Demo.epoch "10.0.0.0:7001")
      (meetsPeer ⟨1000, 0⟩) p ∧
    step .escapeFree p (.op (.step 5 (Demo.runner 0))) = some p' ∧
    p'.ticks = [⟨1000, 2⟩, ⟨1000, 1⟩, ⟨10, 0⟩] ∧
    (∀ h ∈ p'.node.stored, h ≤ p'.node.clock.reading) ∧
    p'.ticks.Pairwise fun later earlier => later.after earlier = true := by
  obtain ⟨p, p', hr, hst, hok, hticks⟩ : ∃ p p' : Process,
      Run (step .escapeFree) NoTickWraps (begin (Demo.nodeID 0) Demo.epoch "10.0.0.0:7001")
        (meetsPeer ⟨1000, 0⟩) p ∧
      step .escapeFree p (.op (.step 5 (Demo.runner 0))) = some p' ∧
      p.NoTickWraps (.op (.step 5 (Demo.runner 0))) ∧
      p'.ticks = [⟨1000, 2⟩, ⟨1000, 1⟩, ⟨10, 0⟩] := exists_run_step (by decide +kernel)
  obtain ⟨hstored, hinc, -⟩ := clock_ahead_of_store .escapeFree hr hok hst
  exact ⟨p, p', hr, hst, hticks, hstored, hinc⟩

/-- The counters received are below the maximum. -/
def ReceivesBelowMax : ProcessAction → Prop
  | .round _ (some resp) => ∀ h ∈ resp.hlcs, h.seq < Int64.maxValue
  | _ => True

instance : DecidablePred ReceivesBelowMax
  | .round _ (some resp) =>
      inferInstanceAs (Decidable (∀ h ∈ resp.hlcs, h.seq < Int64.maxValue))
  | .op _ | .round _ none => isTrue trivial

/-- A counter received one below the maximum is exhausted by the next tick;
the one after it wraps, and everything goes back. -/
theorem second_tick_wraps : ∃ p p' : Process,
    Run (step .escapeFree) (fun _ a => ReceivesBelowMax a)
      (begin (Demo.nodeID 0) Demo.epoch "10.0.0.0:7001")
      (meetsPeer ⟨1000, Int64.maxValue - 1⟩) p ∧
    step .escapeFree p (.op (.step 13 (Demo.runner 0))) = some p' ∧
    (∃ h ∈ p'.node.stored, ¬h ≤ p'.node.clock.reading) ∧
    p'.ticks = [⟨1000, Int64.minValue⟩, ⟨1000, Int64.maxValue⟩, ⟨10, 0⟩] ∧
    ∃ c ∈ p.node.store.rows.rows, ∃ r ∈ p'.node.store.rows.rows,
      r ∉ p.node.store.rows.rows ∧ c.id = r.id ∧ newer r c = false :=
  exists_run_step (by decide +kernel)

/-! ## The hour of a tombstone -/

/-- The wall clock does not go back. -/
def InOrder (p : Process) : ProcessAction → Prop
  | .op op => p.wall ≤ op.now
  | .round .. => True

instance (p : Process) : DecidablePred (InOrder p)
  | .op op => inferInstanceAs (Decidable (p.wall ≤ op.now))
  | .round .. => isTrue trivial

/-- The clock's milliseconds come from somewhere: its start, the wall clock or
a peer. -/
def Explained (p : Process) : Prop :=
  p.node.clock.ts ≤ 0 ∨ p.node.clock.ts ≤ p.wall ∨ ∃ h ∈ p.received, p.node.clock.ts ≤ h.ts

/-- **No step invents milliseconds**: a tick takes those of the wall clock or
keeps the clock's, and a round those of a row or an event it received. -/
theorem Explained.step {E : Env} {p p' : Process} {a : ProcessAction} (h : p.Explained)
    (hok : p.InOrder a) (hst : Process.step E p a = some p') : p'.Explained := by
  cases step_cases hst with
  | refused op => exact h.imp_right (.imp_left fun hle => Int64.le_trans hle hok)
  | failed => exact h
  | @stamped op n he =>
    show n.clock.ts ≤ 0 ∨ n.clock.ts ≤ op.now ∨ ∃ x ∈ p.received, n.clock.ts ≤ x.ts
    rw [he.clock]
    by_cases hn : p.node.clock.ts < op.now
    · exact .inr (.inl (by simp [Clock.tick, hn]))
    · have hts : (p.node.clock.tick op.now).2.ts = p.node.clock.ts := by simp [Clock.tick, hn]
      rw [hts]
      exact h.imp_right (.imp_left fun hle => Int64.le_trans hle hok)
  | @received peer resp n he hclock =>
    obtain ⟨hs, hsub, taken, hread, -, hout, -⟩ := hclock
    show n.clock.ts ≤ 0 ∨ n.clock.ts ≤ p.wall ∨ ∃ x ∈ resp.hlcs ++ p.received, n.clock.ts ≤ x.ts
    have hts : n.clock.ts = n.clock.reading.ts := rfl
    rcases Store.latest_mem p.node.clock.reading taken with hm | hm
    · rw [hts, hread, hm]
      rcases h with h | h | ⟨x, hx, hle⟩
      · exact .inl h
      · exact .inr (.inl h)
      · exact .inr (.inr ⟨x, List.mem_append_right _ hx, hle⟩)
    · rcases hout _ hm with hz | hm
      · rw [hts, hread, hz]
        exact .inl (Int64.le_refl _)
      · exact .inr (.inr ⟨_, List.mem_append_left _ (hsub _ hm), hread ▸ Int64.le_refl _⟩)

theorem Explained.run {E : Env} {p p' : Process} {as : List ProcessAction}
    (hr : Run (Process.step E) InOrder p as p') (h : p.Explained) : p'.Explained :=
  hr.invariant (I := Explained) (fun _ _ _ h hok hst => h.step hok hst) h

/-- What `gcTombstones` removes is a tombstone below its floor. -/
theorem of_collected {n : Node} {t : Int64} {r : Row} (hr : r ∈ n.store.rows)
    (hgone : r ∉ (n.gcTombstones t).store.rows) :
    r.tombstone = true ∧ r.hlc < n.gcFloor t := by
  have hcol : Store.collectable (n.gcFloor t) r = true := by
    by_contra hc
    exact hgone (Store.mem_gcTombstones.mpr ⟨hr, Bool.not_eq_true _ ▸ hc⟩)
  simp only [Store.collectable, Bool.and_eq_true, Bool.or_eq_true, decide_eq_true_iff] at hcol
  exact ⟨hcol.1, HLC.lt_iff.mpr hcol.2⟩

/-- The floor, where the clock is not ahead of the wall clock: an hour before
it. -/
theorem gcFloor_ts {n : Node} {t : Int64} (hclock : n.clock.ts ≤ t) (ht : 3600000 ≤ t.toInt) :
    (n.gcFloor t).ts.toInt = t.toInt - 3600000 := by
  have hnow : (n.clock.tick t).1.ts = t := by
    by_cases hlt : n.clock.ts < t
    · simp [Clock.tick, hlt]
    · have heq : n.clock.ts = t := Int64.le_antisymm hclock (Int64.not_lt.mp hlt)
      simp [Clock.tick, heq]
  have hgrace : (1 * 60 * 60 * 1000 : Int64).toInt = 3600000 := rfl
  simp only [Node.gcFloor, hnow]
  split
  · have hlo := t.le_toInt
    have hhi := t.toInt_lt
    rw [Int64.toInt_sub, hgrace, Int.bmod_eq_of_le (by omega) (by omega)]
  · next hle =>
    rw [gt_iff_lt, Int64.not_lt, Int64.le_iff_toInt_le, hgrace] at hle
    show (0 : Int64).toInt = _
    rw [Int64.toInt_zero]
    omega

/-- In the first hour of the epoch the floor is `HLC{}`. -/
theorem gcFloor_early {n : Node} {t : Int64} (hclock : n.clock.ts ≤ 0 ∨ n.clock.ts ≤ t)
    (ht : t.toInt < 3600000) : n.gcFloor t = HLC.zero := by
  have hnow : ¬(n.clock.tick t).1.ts > 1 * 60 * 60 * 1000 := by
    have hgrace : (1 * 60 * 60 * 1000 : Int64).toInt = 3600000 := rfl
    rw [gt_iff_lt, Int64.not_lt, Int64.le_iff_toInt_le, hgrace]
    simp only [Int64.le_iff_toInt_le, Int64.toInt_zero] at hclock
    by_cases hlt : n.clock.ts < t
    · have hts : (n.clock.tick t).1.ts = t := by simp [Clock.tick, hlt]
      rw [hts]
      omega
    · have hts : (n.clock.tick t).1.ts = n.clock.ts := by simp [Clock.tick, hlt]
      rw [hts]
      omega
  simp only [Node.gcFloor, if_neg hnow, HLC.zero]

/-- **Tombstones live an hour** of the wall clock where no peer was ahead of
it. In a run with a wall clock that does not go back, `gcTombstones` at `t`
never removes a live row; and if no HLC received so far is past `t` (and, in
the first hour of the epoch, no tombstone is before `HLC{}`), every tombstone it
removes is at least an hour old. -/
theorem tombstones_kept_an_hour (E : Env) {nodeID syncAddr : String} {epoch : Epoch}
    {p p' : Process} {as : List ProcessAction} {t : Int64}
    (hr : Run (step E) InOrder (begin nodeID epoch syncAddr) as p) (ht : p.wall ≤ t)
    (hst : step E p (.op (.gc t)) = some p') :
    (∀ r ∈ p.node.store.rows, r ∉ p'.node.store.rows → r.tombstone = true) ∧
      ((∀ h ∈ p.received, h.ts ≤ t) →
        (t.toInt < 3600000 →
          ∀ r ∈ p.node.store.rows, r.tombstone = true → HLC.zero ≤ r.hlc) →
        ∀ r ∈ p.node.store.rows, r ∉ p'.node.store.rows →
          r.hlc.ts.toInt ≤ t.toInt - 3600000) := by
  have hexp : p.Explained := Explained.run hr (.inl (Int64.le_refl _))
  cases hst
  refine ⟨fun r hr hgone => (of_collected hr hgone).1, fun hpeers hearly r hr hgone => ?_⟩
  obtain ⟨htomb, hlt⟩ := of_collected hr hgone
  have hclock : p.node.clock.ts ≤ 0 ∨ p.node.clock.ts ≤ t := by
    refine hexp.imp_right ?_
    rintro (hle | ⟨h, hh, hle⟩)
    · exact Int64.le_trans hle ht
    · exact Int64.le_trans hle (hpeers h hh)
  by_cases hlate : t.toInt < 3600000
  · rw [gcFloor_early hclock hlate] at hlt
    exact absurd hlt (not_lt.mpr (hearly hlate r hr htomb))
  · have hclock : p.node.clock.ts ≤ t := by
      simp only [Int64.le_iff_toInt_le, Int64.toInt_zero] at hclock ⊢
      omega
    have hts := gcFloor_ts hclock (not_lt.mp hlate)
    rcases HLC.lt_iff.mp hlt with h | ⟨h, -⟩
    · rw [Int64.lt_iff_toInt_lt] at h
      omega
    · rw [h]
      omega

/-- A label row is deleted, a row arrives, and the tombstones are collected a
millisecond later. -/
def deleteThenPull (hlc : HLC) : List ProcessAction :=
  [.op (.start 5000000 (Demo.runner 0)),
    .op (.putLabels 5000000 (Demo.nodeID 0) (some (some (Demo.labels "gpu" "a100")))),
    .op (.deleteLabels 5000000 (Demo.nodeID 0)),
    .round "10.0.0.1:7001" (some (peerRow hlc))]

/-- Nobody was ahead: a tombstone of more than an hour goes. -/
theorem old_tombstone_collected : ∃ p p' : Process,
    Run (step .escapeFree) InOrder (begin (Demo.nodeID 0) Demo.epoch "10.0.0.0:7001")
      (deleteThenPull ⟨4000000, 0⟩) p ∧
    step .escapeFree p (.op (.gc 9000000)) = some p' ∧
    (∃ r ∈ p.node.store.rows.rows, r ∉ p'.node.store.rows.rows) ∧
    ∀ r ∈ p.node.store.rows, r ∉ p'.node.store.rows →
      r.hlc.ts.toInt ≤ (9000000 : Int64).toInt - 3600000 := by
  obtain ⟨p, p', hr, hst, ⟨hwall, hpeers⟩, hgone⟩ : ∃ p p' : Process,
      Run (step .escapeFree) InOrder (begin (Demo.nodeID 0) Demo.epoch "10.0.0.0:7001")
        (deleteThenPull ⟨4000000, 0⟩) p ∧
      step .escapeFree p (.op (.gc 9000000)) = some p' ∧
      (p.wall ≤ 9000000 ∧ ∀ h ∈ p.received, h.ts ≤ 9000000) ∧
      ∃ r ∈ p.node.store.rows.rows, r ∉ p'.node.store.rows.rows :=
    exists_run_step (by decide +kernel)
  refine ⟨p, p', hr, hst, hgone, ?_⟩
  exact (tombstones_kept_an_hour .escapeFree hr hwall hst).2 hpeers
    fun hlate => absurd hlate (by decide)

/-- A peer two hours ahead: the tombstone goes after a millisecond. -/
theorem fresh_tombstone_collected : ∃ p p' : Process,
    Run (step .escapeFree) InOrder (begin (Demo.nodeID 0) Demo.epoch "10.0.0.0:7001")
      (deleteThenPull ⟨12200000, 0⟩) p ∧
    p.InOrder (.op (.gc 5000001)) ∧
    step .escapeFree p (.op (.gc 5000001)) = some p' ∧
    ∃ r ∈ p.node.store.rows.rows, r ∉ p'.node.store.rows.rows ∧ r.tombstone = true ∧
      r.hlc.ts = 5000000 := by
  obtain ⟨p, p', hr, hst, hok, hgone⟩ : ∃ p p' : Process,
      Run (step .escapeFree) InOrder (begin (Demo.nodeID 0) Demo.epoch "10.0.0.0:7001")
        (deleteThenPull ⟨12200000, 0⟩) p ∧
      step .escapeFree p (.op (.gc 5000001)) = some p' ∧
      p.InOrder (.op (.gc 5000001)) ∧
      ∃ r ∈ p.node.store.rows.rows, r ∉ p'.node.store.rows.rows ∧ r.tombstone = true ∧
        r.hlc.ts = 5000000 := exists_run_step (by decide +kernel)
  exact ⟨p, p', hr, hok, hst, hgone⟩

end Process

end Takl
