import Mathlib.Logic.Function.Basic
import Takl.Lib.KeyedTable
import Takl.Lib.Runs

/-!
# The connection cache of the sync client (`internal/transport/client.go`)

All pulls of a node share one `Client`, which keeps a connection per peer
address. `conn` and `Close` hold the mutex, so a run of the client is a
sequence of these calls, with changes of connectivity in between, which are
gRPC's: a connection may go from any state to any other, but only `Close`
shuts it down, for good.

`dialled` is a history variable: every connection made, in order.
-/

namespace Takl

/-- `connectivity.State`. -/
inductive Connectivity where
  | idle
  | connecting
  | ready
  | transientFailure
  | shutdown
  deriving DecidableEq, Repr

/-- A `grpc.ClientConn`: the how-manieth it is, and what it was made with;
no credentials are `insecure.NewCredentials()`. -/
structure ClientConn (κ : Type) where
  number : Nat
  target : String
  creds : Option κ
  deriving DecidableEq

/-- `transport.Client`, with the connections it has made and their states. -/
structure Client (κ : Type) where
  conns : KeyedTable (ClientConn.target (κ := κ))
  creds : Option κ
  dialled : List (ClientConn κ)
  state : Nat → Connectivity

namespace Client

open Runs

variable {κ : Type}

/-- `NewClient`. -/
def new (creds : Option κ) : Client κ :=
  { conns := .empty, creds, dialled := [], state := fun _ => .shutdown }

/-- `cc.Close()` and `delete(c.conns, addr)`. -/
def drop (c : Client κ) (cc : ClientConn κ) : Client κ :=
  { c with
    conns := c.conns.deleteWhere fun x => decide (x.target = cc.target)
    state := Function.update c.state cc.number .shutdown }

/-- The connection `grpc.NewClient` makes next. -/
def newConn (c : Client κ) (addr : String) : ClientConn κ := ⟨c.dialled.length, addr, c.creds⟩

/-- `c.conns[addr] = cc`. -/
def add (c : Client κ) (cc : ClientConn κ) : Client κ :=
  { c with
    conns := c.conns.upsert cc
    dialled := c.dialled ++ [cc]
    state := Function.update c.state cc.number .idle }

/-- `conn` from `grpc.NewClient` on; `ok` tells whether that succeeds. -/
def dial (c : Client κ) (addr : String) (ok : Bool) : Client κ × Option (ClientConn κ) :=
  if ok then (c.add (c.newConn addr), some (c.newConn addr)) else (c, none)

/-- `conn`. -/
def conn (c : Client κ) (addr : String) (ok : Bool) : Client κ × Option (ClientConn κ) :=
  match c.conns.get addr with
  | some cc =>
      if c.state cc.number ≠ .shutdown ∧ c.state cc.number ≠ .transientFailure then (c, some cc)
      else (c.drop cc).dial addr ok
  | none => c.dial addr ok

/-- `Close`, and whether it returns an error: closing a connection twice is
one. -/
def close (c : Client κ) : Client κ × Bool :=
  (c.conns.rows.foldl drop c, c.conns.rows.any fun cc => c.state cc.number = .shutdown)

/-- The labels of a run. -/
inductive Action where
  | pull (addr : String) (ok : Bool)
  | drift (number : Nat) (next : Connectivity)
  | close
  deriving DecidableEq, Repr

def step (c : Client κ) : Action → Option (Client κ)
  | .pull addr ok => some (c.conn addr ok).1
  | .drift number next =>
      if c.state number ≠ .shutdown ∧ next ≠ .shutdown then
        some { c with state := Function.update c.state number next }
      else none
  | .close => some c.close.1

/-- The connection has been made and not been closed. -/
def Open (c : Client κ) (cc : ClientConn κ) : Prop :=
  cc ∈ c.dialled ∧ c.state cc.number ≠ .shutdown

/-! ## The invariant -/

/-- The open connections are the cached ones, and all are made with `creds`. -/
structure Tidy (creds : Option κ) (c : Client κ) : Prop where
  numbered : ∀ cc ∈ c.dialled, cc.number < c.dialled.length
  distinct : ∀ cc ∈ c.dialled, ∀ cc' ∈ c.dialled, cc.number = cc'.number → cc = cc'
  creds_eq : c.creds = creds
  dialled_with : ∀ cc ∈ c.dialled, cc.creds = creds
  cached : ∀ cc, cc ∈ c.conns ↔ c.Open cc

theorem tidy_new (creds : Option κ) : Tidy creds (new creds) where
  numbered _ h := nomatch h
  distinct _ h := nomatch h
  creds_eq := rfl
  dialled_with _ h := nomatch h
  cached cc := ⟨fun h => absurd h (KeyedTable.not_mem_empty cc), fun h => nomatch h.1⟩

variable {creds : Option κ} {c : Client κ}

/-- A state is the state of one connection. -/
theorem Tidy.state_drop (h : Tidy creds c) {cc x : ClientConn κ} (hcc : cc ∈ c.dialled)
    (hx : x ∈ c.dialled) (hne : x ≠ cc) : (c.drop cc).state x.number = c.state x.number := by
  refine Function.update_of_ne (fun hnum => hne ?_) _ _
  exact h.distinct x hx cc hcc hnum

theorem mem_drop {cc x : ClientConn κ} :
    x ∈ (c.drop cc).conns ↔ x ∈ c.conns ∧ x.target ≠ cc.target := by
  simp [drop, KeyedTable.mem_deleteWhere]

/-- Whoever is dropped is closed, and nobody else. -/
theorem Tidy.drop (h : Tidy creds c) {cc : ClientConn κ} (hcc : cc ∈ c.conns) :
    Tidy creds (c.drop cc) where
  numbered := h.numbered
  distinct := h.distinct
  creds_eq := h.creds_eq
  dialled_with := h.dialled_with
  cached x := by
    rw [mem_drop]
    have hdial := ((h.cached cc).mp hcc).1
    constructor
    · rintro ⟨hx, hne⟩
      obtain ⟨hxd, hopen⟩ := (h.cached x).mp hx
      refine ⟨hxd, ?_⟩
      rwa [h.state_drop hdial hxd fun he => hne (congrArg ClientConn.target he)]
    · rintro ⟨hxd, hopen⟩
      have hne : x ≠ cc := by
        rintro rfl
        exact hopen (Function.update_self ..)
      rw [h.state_drop hdial hxd hne] at hopen
      have hx := (h.cached x).mpr ⟨hxd, hopen⟩
      exact ⟨hx, fun ht => hne (KeyedTable.eq_of_key_eq hx hcc ht)⟩

/-- A new connection takes the place of none. -/
theorem Tidy.add (h : Tidy creds c) {addr : String} (hfree : ∀ x ∈ c.conns, x.target ≠ addr) :
    Tidy creds (c.add (c.newConn addr)) := by
  have hold : ∀ x ∈ c.dialled, x.number ≠ (c.newConn addr).number :=
    fun x hx => Nat.ne_of_lt (h.numbered x hx)
  have hstate : ∀ x ∈ c.dialled, (c.add (c.newConn addr)).state x.number = c.state x.number :=
    fun x hx => Function.update_of_ne (hold x hx) _ _
  have hmem : ∀ x, x ∈ (c.add (c.newConn addr)).dialled ↔ x ∈ c.dialled ∨ x = c.newConn addr := by
    intro x
    simp [Client.add]
  refine ⟨fun x hx => ?_, fun x hx y hy hnum => ?_, h.creds_eq, fun x hx => ?_, fun x => ?_⟩
  · have hlen : (c.add (c.newConn addr)).dialled.length = c.dialled.length + 1 := by
      simp [Client.add]
    rcases (hmem x).mp hx with hx | rfl
    · have := h.numbered x hx
      omega
    · exact hlen ▸ Nat.lt_succ_self _
  · rcases (hmem x).mp hx with hx | rfl <;> rcases (hmem y).mp hy with hy | rfl
    · exact h.distinct x hx y hy hnum
    · exact absurd hnum (hold x hx)
    · exact absurd hnum.symm (hold y hy)
    · rfl
  · rcases (hmem x).mp hx with hx | rfl
    · exact h.dialled_with x hx
    · exact h.creds_eq
  · rw [Open, hmem, show x ∈ (c.add (c.newConn addr)).conns ↔ _ from KeyedTable.mem_upsert]
    constructor
    · rintro (rfl | ⟨hx, -⟩)
      · refine ⟨.inr rfl, ?_⟩
        rw [show (c.add (c.newConn addr)).state (c.newConn addr).number = .idle from
          Function.update_self ..]
        exact Connectivity.noConfusion
      · obtain ⟨hxd, hopen⟩ := (h.cached x).mp hx
        exact ⟨.inl hxd, (hstate x hxd).symm ▸ hopen⟩
    · rintro ⟨hxd | rfl, hopen⟩
      · rw [hstate x hxd] at hopen
        have hx := (h.cached x).mpr ⟨hxd, hopen⟩
        exact .inr ⟨hx, hfree x hx⟩
      · exact .inl rfl

/-- After a drop the address is free. -/
theorem free_of_drop {cc : ClientConn κ} {addr : String} (hcc : cc.target = addr) :
    ∀ x ∈ (c.drop cc).conns, x.target ≠ addr :=
  fun _ hx => hcc ▸ (mem_drop.mp hx).2

/-- What a call of `conn` does. -/
inductive Connected (c : Client κ) (addr : String) : Client κ × Option (ClientConn κ) → Prop
  | reuse {cc : ClientConn κ} (hcc : cc ∈ c.conns) (ht : cc.target = addr)
      (hopen : c.state cc.number ≠ .shutdown) : Connected c addr (c, some cc)
  | replace {cc : ClientConn κ} (hcc : cc ∈ c.conns) (ht : cc.target = addr)
      (hbad : ¬(c.state cc.number ≠ .shutdown ∧ c.state cc.number ≠ .transientFailure))
      (ok : Bool) : Connected c addr ((c.drop cc).dial addr ok)
  | fresh (hfree : ∀ x ∈ c.conns, x.target ≠ addr) (ok : Bool) :
      Connected c addr (c.dial addr ok)

theorem connected_conn (c : Client κ) (addr : String) (ok : Bool) :
    Connected c addr (c.conn addr ok) := by
  unfold conn
  split
  · next cc hget =>
    obtain ⟨hcc, ht⟩ := KeyedTable.get_eq_some.mp hget
    split
    · next hok => exact .reuse hcc ht hok.1
    · next hbad => exact .replace hcc ht hbad ok
  · next hnone => exact .fresh (KeyedTable.get_eq_none.mp hnone) ok

theorem Tidy.dial (h : Tidy creds c) {addr : String} (hfree : ∀ x ∈ c.conns, x.target ≠ addr)
    (ok : Bool) : Tidy creds (c.dial addr ok).1 := by
  cases ok with
  | true => exact h.add hfree
  | false => exact h

theorem Tidy.connected (h : Tidy creds c) {addr : String} {res : Client κ × Option (ClientConn κ)}
    (hres : Connected c addr res) : Tidy creds res.1 := by
  cases hres with
  | reuse => exact h
  | replace hcc ht _ ok => exact (h.drop hcc).dial (free_of_drop ht) ok
  | fresh hfree ok => exact h.dial hfree ok

/-- The loop of `Close`. -/
theorem Tidy.foldl_drop (h : Tidy creds c) {l : List (ClientConn κ)} (hl : ∀ cc ∈ l, cc ∈ c.conns)
    (hnodup : (l.map ClientConn.target).Nodup) :
    Tidy creds (l.foldl Client.drop c) ∧ ∀ x, x ∈ (l.foldl Client.drop c).conns ↔
      x ∈ c.conns ∧ ∀ cc ∈ l, x.target ≠ cc.target := by
  induction l generalizing c with
  | nil => exact ⟨h, fun x => by simp⟩
  | cons a l ih =>
    rw [List.forall_mem_cons] at hl
    rw [List.map_cons, List.nodup_cons] at hnodup
    have hrest : ∀ cc ∈ l, cc ∈ (c.drop a).conns := fun cc hcc =>
      mem_drop.mpr ⟨hl.2 cc hcc, fun ht => hnodup.1 (ht ▸ List.mem_map_of_mem hcc)⟩
    obtain ⟨htidy, hmem⟩ := ih (h.drop hl.1) hrest hnodup.2
    refine ⟨htidy, fun x => ?_⟩
    rw [List.foldl_cons, hmem, mem_drop, List.forall_mem_cons, and_assoc]

/-- **Every step keeps the cache exact.** -/
theorem Tidy.step (h : Tidy creds c) {c' : Client κ} {a : Action}
    (hst : Client.step c a = some c') : Tidy creds c' := by
  cases a with
  | pull addr ok =>
    cases hst
    exact h.connected (connected_conn c addr ok)
  | drift number next =>
    simp only [Client.step] at hst
    split at hst
    · next hok =>
      cases hst
      refine ⟨h.numbered, h.distinct, h.creds_eq, h.dialled_with, fun cc => ?_⟩
      rw [h.cached cc, Open, Open]
      refine and_congr_right fun _ => ?_
      by_cases hnum : cc.number = number
      · simp [hnum, hok]
      · simp [hnum]
    · cases hst
  | close =>
    cases hst
    exact (h.foldl_drop (fun _ hcc => hcc) c.conns.nodup).1

/-! ## What the pulls can rely on -/

theorem dial_some {addr : String} {ok : Bool} {cc : ClientConn κ}
    (h : (c.dial addr ok).2 = some cc) : cc.target = addr ∧ cc ∈ (c.dial addr ok).1.conns := by
  cases ok with
  | true =>
    cases h
    exact ⟨rfl, KeyedTable.mem_upsert_self _ _⟩
  | false => cases h

/-- A pull whose dial succeeds gets a connection. -/
theorem conn_isSome (c : Client κ) (addr : String) : ∃ cc, (c.conn addr true).2 = some cc := by
  unfold conn
  split
  · split
    · exact ⟨_, rfl⟩
    · exact ⟨_, rfl⟩
  · exact ⟨_, rfl⟩

theorem mem_dial {addr : String} {ok : Bool} {cc : ClientConn κ} (hne : cc.target ≠ addr) :
    cc ∈ (c.dial addr ok).1.conns ↔ cc ∈ c.conns := by
  cases ok with
  | true =>
    show cc ∈ c.conns.upsert (c.newConn addr) ↔ _
    rw [KeyedTable.mem_upsert]
    refine ⟨fun h => ?_, fun h => .inr ⟨h, hne⟩⟩
    rcases h with rfl | h
    · exact absurd rfl hne
    · exact h.1
  | false => rfl

/-- What `conn` returns is cached under `addr`; other addresses keep theirs. -/
theorem Connected.spec {addr : String} {res : Client κ × Option (ClientConn κ)}
    (h : Connected c addr res) :
    (∀ cc, res.2 = some cc → cc.target = addr ∧ cc ∈ res.1.conns) ∧
      ∀ cc, cc.target ≠ addr → (cc ∈ res.1.conns ↔ cc ∈ c.conns) := by
  cases h with
  | reuse hcc ht =>
    refine ⟨fun x hx => ?_, fun _ _ => .rfl⟩
    cases hx
    exact ⟨ht, hcc⟩
  | replace _ ht _ ok =>
    refine ⟨fun x hx => dial_some hx, fun x hne => ?_⟩
    rw [mem_dial hne, mem_drop]
    exact and_iff_left fun hx => hne (hx.trans ht)
  | fresh _ ok => exact ⟨fun x hx => dial_some hx, fun x hne => mem_dial hne⟩

/-- **The cache is exact.** However pulls, failures of connections and
`Close` follow each other: the connections in use carry the client's
credentials, there is one per address, and a pull gets one, unless it must dial
and cannot, that is open and leads where it should; it leaves those to other
addresses open, and makes none while the one it has is not failing. `Close`
leaves nothing open and returns no error. -/
theorem connections_accounted_for (creds : Option κ) {as : List Action} {c : Client κ}
    (hr : Run step (fun _ _ => True) (new creds) as c) :
    (∀ cc, c.Open cc → cc.creds = creds) ∧
      (∀ cc cc', c.Open cc → c.Open cc' → cc.target = cc'.target → cc = cc') ∧
      (∀ addr ok, (ok = true → ∃ cc, (c.conn addr ok).2 = some cc) ∧
        (∀ cc, (c.conn addr ok).2 = some cc →
          cc.target = addr ∧ (c.conn addr ok).1.Open cc) ∧
        (∀ cc, cc.target ≠ addr → ((c.conn addr ok).1.Open cc ↔ c.Open cc)) ∧
        ∀ cc, c.Open cc → cc.target = addr → c.state cc.number ≠ .transientFailure →
          c.conn addr ok = (c, some cc)) ∧
      c.close.2 = false ∧ ∀ cc, ¬c.close.1.Open cc := by
  have h : Tidy creds c := hr.invariant (I := Tidy creds)
    (fun _ _ _ hs _ hst => hs.step hst) (tidy_new creds)
  refine ⟨fun cc hcc => h.dialled_with cc hcc.1, fun cc cc' hcc hcc' ht => ?_, fun addr ok => ?_,
    ?_, fun cc hcc => ?_⟩
  · exact KeyedTable.eq_of_key_eq ((h.cached cc).mpr hcc) ((h.cached cc').mpr hcc') ht
  · have hconn := connected_conn c addr ok
    have htidy := h.connected hconn
    refine ⟨?_, fun cc hcc => ?_, fun cc hne => ?_, fun cc hcc ht hfine => ?_⟩
    · rintro rfl
      exact conn_isSome c addr
    · obtain ⟨ht, hmem⟩ := hconn.spec.1 cc hcc
      exact ⟨ht, (htidy.cached cc).mp hmem⟩
    · rw [← htidy.cached, ← h.cached, hconn.spec.2 cc hne]
    · have hget : c.conns.get addr = some cc :=
        KeyedTable.get_eq_some.mpr ⟨(h.cached cc).mpr hcc, ht⟩
      simp [conn, hget, hcc.2, hfine]
  · rw [close, List.any_eq_false]
    intro cc hcc
    simpa using ((h.cached cc).mp hcc).2
  · obtain ⟨htidy, hmem⟩ := h.foldl_drop (fun _ hcc => hcc) c.conns.nodup
    obtain ⟨hin, hout⟩ := (hmem cc).mp ((htidy.cached cc).mpr hcc)
    exact hout cc hin rfl

/-- Two peers; the connection to the first fails once. -/
def failsOnce : List Action :=
  [.pull "10.0.0.1:7001" true, .drift 0 .ready, .pull "10.0.0.2:7001" true,
    .drift 0 .transientFailure, .pull "10.0.0.1:7001" false, .pull "10.0.0.1:7001" true]

theorem failsOnce_accounted_for : ∃ c : Client Unit,
    Run step (fun _ _ => True) (new (some ())) failsOnce c ∧
      c.dialled.length = 3 ∧ c.conns.rows.map ClientConn.number = [1, 2] ∧
      c.close.2 = false ∧ ∀ cc, ¬c.close.1.Open cc := by
  obtain ⟨c, hr, hc⟩ : ∃ c : Client Unit,
      Run step (fun _ _ => True) (new (some ())) failsOnce c ∧
        c.dialled.length = 3 ∧ c.conns.rows.map ClientConn.number = [1, 2] :=
    exists_run (by decide +kernel)
  exact ⟨c, hr, hc.1, hc.2, (connections_accounted_for (some ()) hr).2.2.2⟩

end Client

end Takl
