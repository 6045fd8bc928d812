import Takl.Api.Handlers
import Takl.Lib.InPlace
import Takl.Lib.SortSlice
import Takl.Transport.Events

/-!
# The event query (`Store.Events`, `handleEvents`)

`GET /events?limit=n&runner=r` should answer the newest `n` events of `r`
(`Newest`). The store takes the newest `n` events of the whole log, and the
handler keeps those of `r` among them. The two agree exactly if the limit does
not cut: all events of `r` are among the newest `n`, or all of these are of `r`
(`newest_iff`).
-/

namespace Takl

namespace Store

/-- The order of `Store.Events`: `ORDER BY hlc_ts DESC, hlc_seq DESC`. -/
def later (a b : EventRow) : Prop := b.hlc < a.hlc

/-- What `Store.Events` selects, up to its `LIMIT`. In which order events of
equal HLC stand is up to the database. -/
def newestRows (S : SortSlice later) (st : Store) (limit : ℕ) : List EventRow :=
  (S.sort st.events.rows).take limit

/-- `Store.Events`; `none` when a payload does not unmarshal. The loop that
swaps from both ends is that of `Array.reverse`. -/
def latestEvents (S : SortSlice later) (E : Env) (st : Store) (limit : Int) :
    Option (List Event) :=
  let limit := if limit ≤ 0 then 100 else limit
  ((st.newestRows S limit.toNat).mapM (scanEvent E)).map fun out => out.toArray.reverse.toList

end Store

namespace Api

/-- `handleEvents`; `limit` is the parameter as a number, `none` when it is
missing or none, and `runner` is empty when it is missing. -/
def handleEvents (S : SortSlice Store.later) (E : Env) (st : Store) (limit : Option Int)
    (runner : String) : Except ApiError (List Event) :=
  let limit := limit.getD 100
  let limit := if limit < 1 then 1 else limit
  let limit := if limit > 1000 then 1000 else limit
  match st.latestEvents S E limit with
  | none => .error .internal
  | some evs =>
      if runner ≠ "" then .ok (InPlace.filter (fun e => decide (e.runnerID = runner)) evs)
      else .ok evs

/-! ## The purpose -/

/-- The event is asked for. -/
def asked (runner runnerID : String) : Bool := decide (runner = "") || decide (runnerID = runner)

/-- The events of the log that are asked for. -/
def askedRows (st : Store) (runner : String) : List EventRow :=
  st.events.rows.filter fun e => asked runner e.runnerID

/-- `rows` are the newest `n` events asked for, oldest first. -/
structure Newest (st : Store) (n : ℕ) (runner : String) (rows : List EventRow) : Prop where
  length : rows.length = min n (askedRows st runner).length
  /-- Each once. -/
  nodup : rows.Nodup
  stored : ∀ e ∈ rows, e ∈ askedRows st runner
  ascending : rows.Pairwise fun a b => ¬a.hlc.after b.hlc
  newest : ∀ e ∈ askedRows st runner, e ∉ rows → ∀ x ∈ rows, ¬e.hlc.after x.hlc

/-- What a request should be answered with. -/
def Answered (E : Env) (st : Store) (n : ℕ) (runner : String)
    (answer : Except ApiError (List Event)) : Prop :=
  ∃ evs rows, answer = .ok evs ∧ rows.mapM (Store.scanEvent E) = some evs ∧
    Newest st n runner rows

/-! ## The handler -/

section Query
variable {S : SortSlice Store.later} {E : Env} {st : Store} {n : ℕ} {runner : String}

theorem descending_pairwise (S : SortSlice Store.later) (l : List EventRow) :
    (S.sort l).Pairwise fun a b => b.hlc ≤ a.hlc :=
  (S.sorted l).imp not_lt.mp

/-- The selection and what the limit cuts off. -/
theorem exists_rest (S : SortSlice Store.later) (st : Store) (n : ℕ) :
    ∃ rest, (st.newestRows S n ++ rest).Perm st.events.rows ∧ (st.newestRows S n ++ rest).Nodup ∧
      ∀ x ∈ st.newestRows S n, ∀ e ∈ rest, e.hlc ≤ x.hlc := by
  have hsorted := descending_pairwise S st.events.rows
  have hperm : (st.newestRows S n ++ (S.sort st.events.rows).drop n).Perm st.events.rows := by
    rw [Store.newestRows, List.take_append_drop]
    exact S.perm _
  refine ⟨_, hperm, ?_, ?_⟩
  · exact hperm.nodup_iff.mpr (List.Nodup.of_map _ st.events.nodup)
  · rw [← List.take_append_drop n (S.sort _), List.pairwise_append] at hsorted
    exact hsorted.2.2

theorem length_newestRows (S : SortSlice Store.later) (st : Store) (n : ℕ) :
    (st.newestRows S n).length = min n st.events.rows.length := by
  rw [Store.newestRows, List.length_take, (S.perm _).length_eq]

theorem scanEvent_runnerID {e : EventRow} {x : Event} (h : Store.scanEvent E e = some x) :
    x.runnerID = e.runnerID := by
  obtain ⟨payload, -, rfl⟩ := Option.map_eq_some_iff.mp h
  rfl

/-- The rows whose events are answered. -/
def answeredRows (S : SortSlice Store.later) (st : Store) (n : ℕ) (runner : String) :
    List EventRow :=
  (st.newestRows S n).reverse.filter fun e => asked runner e.runnerID

theorem latestEvents_of_pos (hn : 1 ≤ n) :
    st.latestEvents S E n =
      ((st.newestRows S n).mapM (Store.scanEvent E)).map List.reverse := by
  have hpos : ¬(n : ℤ) ≤ 0 := by omega
  simp only [Store.latestEvents, if_neg hpos, Int.toNat_natCast, List.reverse_toArray]

/-- A limit in range is taken as it is. -/
theorem clamp_of_range (hn : 1 ≤ n) (hn' : n ≤ 1000) :
    (if (if (n : ℤ) < 1 then 1 else (n : ℤ)) > 1000 then 1000
      else if (n : ℤ) < 1 then 1 else (n : ℤ)) = n := by
  rw [if_neg (by omega : ¬(n : ℤ) < 1), if_neg (by omega)]

/-- The answer, if every payload in the selection decodes. -/
theorem handleEvents_ok (runner : String) (hn : 1 ≤ n) (hn' : n ≤ 1000) {out : List Event}
    (hout : (st.newestRows S n).mapM (Store.scanEvent E) = some out) :
    ∃ evs, handleEvents S E st (some n) runner = .ok evs ∧
      (answeredRows S st n runner).mapM (Store.scanEvent E) = some evs := by
  have hlatest : st.latestEvents S E n = some out.reverse := by
    rw [latestEvents_of_pos hn, hout]
    rfl
  have hhandler : handleEvents S E st (some n) runner =
      .ok (out.reverse.filter fun x => asked runner x.runnerID) := by
    simp only [handleEvents, Option.getD_some, clamp_of_range hn hn', hlatest]
    by_cases hr : runner = ""
    · simp [hr, asked]
    · simp [hr, asked, InPlace.filter_eq]
  refine ⟨_, hhandler, mapM_eq_some_iff.mpr ?_⟩
  refine List.rel_filter ?_ (List.rel_reverse (mapM_eq_some_iff.mp hout))
  intro e x h
  simp only [scanEvent_runnerID h]

theorem handleEvents_error (hn : 1 ≤ n) (hn' : n ≤ 1000)
    (hout : (st.newestRows S n).mapM (Store.scanEvent E) = none) :
    handleEvents S E st (some n) runner = .error .internal := by
  have hlatest : st.latestEvents S E n = none := by
    rw [latestEvents_of_pos hn, hout]
    rfl
  simp only [handleEvents, Option.getD_some, clamp_of_range hn hn', hlatest]

/-- The limit cuts nothing off that is asked for, or leaves nothing else. -/
def Uncut (S : SortSlice Store.later) (st : Store) (n : ℕ) (runner : String) : Prop :=
  (∀ e ∈ askedRows st runner, e ∈ st.newestRows S n) ∨
    ∀ e ∈ st.newestRows S n, asked runner e.runnerID = true

theorem mem_answeredRows {e : EventRow} :
    e ∈ answeredRows S st n runner ↔ e ∈ st.newestRows S n ∧ asked runner e.runnerID = true := by
  rw [answeredRows, List.mem_filter, List.mem_reverse]

/-- Nothing asked for is cut off if all that is cut off is not asked for. -/
theorem askedRows_subset_iff {rest : List EventRow}
    (hperm : (st.newestRows S n ++ rest).Perm st.events.rows)
    (hnodup : (st.newestRows S n ++ rest).Nodup) :
    (∀ e ∈ askedRows st runner, e ∈ st.newestRows S n) ↔
      ∀ e ∈ rest, ¬asked runner e.runnerID = true := by
  constructor
  · intro h e he hask
    have hmem : e ∈ st.newestRows S n := by
      refine h e (List.mem_filter.mpr ⟨hperm.mem_iff.mp ?_, hask⟩)
      exact List.mem_append_right _ he
    exact List.disjoint_of_nodup_append hnodup hmem he
  · intro h e he
    obtain ⟨hmem, hask⟩ := List.mem_filter.mp he
    rcases List.mem_append.mp (hperm.mem_iff.mpr hmem) with hnew | hrest
    · exact hnew
    · exact absurd hask (h e hrest)

/-- Whether enough is answered. -/
theorem length_answeredRows_iff :
    (answeredRows S st n runner).length = min n (askedRows st runner).length ↔
      Uncut S st n runner := by
  obtain ⟨rest, hperm, hnodup, -⟩ := exists_rest S st n
  -- all lengths in terms of what the selection and the rest have of the runner
  have hlen := length_newestRows S st n
  rw [← hperm.length_eq, List.length_append] at hlen
  have hasked : (askedRows st runner).length =
      ((st.newestRows S n).filter fun e => asked runner e.runnerID).length +
        (rest.filter fun e => asked runner e.runnerID).length := by
    rw [askedRows, ← (hperm.filter _).length_eq, List.filter_append, List.length_append]
  have hanswered : (answeredRows S st n runner).length =
      ((st.newestRows S n).filter fun e => asked runner e.runnerID).length := by
    rw [answeredRows, List.filter_reverse, List.length_reverse]
  have hcut : (∀ e ∈ askedRows st runner, e ∈ st.newestRows S n) ↔
      (rest.filter fun e => asked runner e.runnerID).length = 0 := by
    rw [askedRows_subset_iff hperm hnodup, List.length_eq_zero_iff, List.filter_eq_nil_iff]
  have hfull : (∀ e ∈ st.newestRows S n, asked runner e.runnerID = true) ↔
      ((st.newestRows S n).filter fun e => asked runner e.runnerID).length =
        (st.newestRows S n).length := List.length_filter_eq_length_iff.symm
  have hle := List.length_filter_le (fun e => asked runner e.runnerID) (st.newestRows S n)
  have hle' := List.length_filter_le (fun e => asked runner e.runnerID) rest
  unfold Uncut
  rw [hanswered, hasked, hcut, hfull]
  omega

/-- Apart from how many they are, the rows answered are as they should be. -/
theorem newest_answeredRows
    (hlength : (answeredRows S st n runner).length = min n (askedRows st runner).length) :
    Newest st n runner (answeredRows S st n runner) := by
  obtain ⟨rest, hperm, hnodup, hrest⟩ := exists_rest S st n
  refine ⟨hlength, ?_, fun e he => ?_, ?_, fun e he hnot x hx => ?_⟩
  · exact (List.nodup_reverse.mpr (List.nodup_append.mp hnodup).1).filter _
  · obtain ⟨hmem, hask⟩ := mem_answeredRows.mp he
    exact List.mem_filter.mpr ⟨hperm.mem_iff.mp (List.mem_append_left _ hmem), hask⟩
  · have hasc := List.pairwise_reverse.mpr
      ((descending_pairwise S st.events.rows).sublist (List.take_sublist n _))
    refine (hasc.sublist List.filter_sublist).imp fun h hafter => ?_
    exact absurd (HLC.after_iff.mp hafter) (not_lt.mpr h)
  · obtain ⟨hmem, hask⟩ := List.mem_filter.mp he
    have hnew : e ∉ st.newestRows S n := fun hc => hnot (mem_answeredRows.mpr ⟨hc, hask⟩)
    have hold := (List.mem_append.mp (hperm.mem_iff.mpr hmem)).resolve_left hnew
    intro hafter
    exact absurd (HLC.after_iff.mp hafter) (not_lt.mpr (hrest x (mem_answeredRows.mp hx).1 e hold))

/-- **When the query answers the newest events asked for.** Exactly if the
payloads of the newest `n` events decode and the limit does not cut: all
events asked for are among the newest `n` of the log, or all of those are
asked for. -/
theorem newest_iff (S : SortSlice Store.later) (hn : 1 ≤ n) (hn' : n ≤ 1000) :
    Answered E st n runner (handleEvents S E st (some n) runner) ↔
      (∀ e ∈ st.newestRows S n, ∃ x, Store.scanEvent E e = some x) ∧ Uncut S st n runner := by
  constructor
  · rintro ⟨evs, rows, hevs, hrows, hnewest⟩
    cases hout : (st.newestRows S n).mapM (Store.scanEvent E) with
    | none =>
      rw [handleEvents_error hn hn' hout] at hevs
      cases hevs
    | some out =>
      obtain ⟨evs', hevs', hrows'⟩ := handleEvents_ok runner hn hn' hout
      rw [hevs'] at hevs
      cases hevs
      refine ⟨exists_mapM_eq_some.mp ⟨out, hout⟩, length_answeredRows_iff.mp ?_⟩
      rw [(mapM_eq_some_iff.mp hrows').length_eq, ← (mapM_eq_some_iff.mp hrows).length_eq]
      exact hnewest.length
  · rintro ⟨hdecode, huncut⟩
    obtain ⟨out, hout⟩ := exists_mapM_eq_some.mpr hdecode
    obtain ⟨evs, hevs, hrows⟩ := handleEvents_ok runner hn hn' hout
    exact ⟨evs, _, hevs, hrows, newest_answeredRows (length_answeredRows_iff.mpr huncut)⟩

end Query

/-- A database that keeps the order of the query. -/
def insertionOrder : SortSlice Store.later := .descending EventRow.hlc

/-- A log with an event of one runner, then one of another. -/
def twoRunners : Store :=
  Store.applyEvents .escapeFree .fresh
    [{ seq := 1, type := .runnerJoined, runnerID := "r1", payload := none, hlc := ⟨10, 0⟩ },
      { seq := 1, type := .runnerJoined, runnerID := "r2", payload := none, hlc := ⟨20, 0⟩ }]

/-- A limit that covers the log: the event of `r1` is answered. -/
theorem both_events_in_limit :
    Answered .escapeFree twoRunners 2 "r1"
      (handleEvents insertionOrder .escapeFree twoRunners (some 2) "r1") := by
  have hdecode : ∀ e ∈ twoRunners.newestRows insertionOrder 2,
      (Store.scanEvent .escapeFree e).isSome = true := by
    decide +kernel
  refine (newest_iff insertionOrder (by decide) (by decide)).mpr
    ⟨fun e he => ?_, .inl (by decide +kernel)⟩
  exact Option.isSome_iff_exists.mp (hdecode e he)

/-- `limit=1&runner=r1` answers nothing, although the log has an event of
`r1`. -/
theorem limit_before_filter :
    handleEvents insertionOrder .escapeFree twoRunners (some 1) "r1" = .ok [] ∧
      (askedRows twoRunners "r1").length = 1 ∧
      ¬Answered .escapeFree twoRunners 1 "r1"
        (handleEvents insertionOrder .escapeFree twoRunners (some 1) "r1") := by
  have hanswer : handleEvents insertionOrder .escapeFree twoRunners (some 1) "r1" = .ok [] := by
    have hlength : (handleEvents insertionOrder .escapeFree twoRunners (some 1) "r1").map
        List.length = .ok 0 := by
      decide +kernel
    obtain ⟨evs, hevs, hzero⟩ := Except.map_eq_ok.mp hlength
    rw [hevs, List.length_eq_zero_iff.mp hzero]
  have hone : (askedRows twoRunners "r1").length = 1 := by decide +kernel
  refine ⟨hanswer, hone, ?_⟩
  rintro ⟨evs, rows, hevs, hrows, hnewest⟩
  rw [hanswer] at hevs
  cases hevs
  have hlength := hnewest.length
  rw [(mapM_eq_some_iff.mp hrows).length_eq, hone] at hlength
  cases hlength

end Api

end Takl
