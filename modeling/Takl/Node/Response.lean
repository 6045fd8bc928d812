import Takl.Node.Round

/-!
# Rounds on foreign responses

A `PullResponse` is whatever protobuf decodes: any kinds, payloads and
counters, and HLC submessages present or absent. `finishRound` is the code
that meets it.

The loop over the rows reads an HLC through the getters, which take an absent
one for zero; the loop over the events reads the fields and dereferences nil.
Past that, the counters of the response go into the clock as they are, so a
counter at its maximum makes the next tick wrap. `foreign_response_iff` says
that nothing else goes wrong.
-/

namespace Takl

namespace Clock

open Store (latest latest_le_iff le_latest latest_mem)

/-- A tick passes what the clock had reached, unless it wraps; then it still
passes earlier milliseconds. -/
theorem lt_tick {c : Clock} {now : Int64} {h : HLC} (hle : h ≤ c.reading) :
    h < (c.tick now).1 ↔ c.NoWrap now ∨ h.ts < c.ts := by
  by_cases hw : c.NoWrap now
  · exact iff_of_true (hle.trans_lt (reading_lt_tick hw)) (.inl hw)
  · obtain ⟨hnow, hmax⟩ := not_or.mp hw
    have htick : (c.tick now).1 = ⟨c.ts, c.seq + 1⟩ := by simp [Clock.tick, hnow]
    have hseq : c.seq + 1 = Int64.minValue := by
      rw [Int64.le_antisymm (Int64.le_maxValue c.seq) (Int64.not_lt.mp hmax)]
      rfl
    rw [htick, HLC.lt_iff, hseq, or_iff_right hw]
    refine or_iff_left fun hc => ?_
    exact Int64.not_lt.mpr (Int64.minValue_le _) hc.2

/-- `c'` is `c` brought up to the timestamps `hs`; whoever took them in may
have taken in `HLC{}` as well. -/
def Absorbed (c : Clock) (hs : List HLC) (c' : Clock) : Prop :=
  ∃ taken, c'.reading = latest c.reading taken ∧ (∀ x ∈ hs, x ∈ taken) ∧
    (∀ x ∈ taken, x = HLC.zero ∨ x ∈ hs) ∧ (hs ≠ [] → HLC.zero ∈ taken)

namespace Absorbed

theorem nil (c : Clock) : c.Absorbed [] c :=
  ⟨[], rfl, fun _ hx => hx, fun _ hx => .inr hx, fun hne => absurd rfl hne⟩

theorem trans {c c' c'' : Clock} {hs hs' : List HLC} (h : c.Absorbed hs c')
    (h' : c'.Absorbed hs' c'') : c.Absorbed (hs ++ hs') c'' := by
  obtain ⟨taken, hread, hin, hout, hz⟩ := h
  obtain ⟨taken', hread', hin', hout', hz'⟩ := h'
  refine ⟨taken ++ taken', ?_, fun x hx => ?_, fun x hx => ?_, fun hne => ?_⟩
  · rw [hread', hread, latest, latest, latest, List.foldl_append]
  · exact List.mem_append.mpr ((List.mem_append.mp hx).imp (hin x) (hin' x))
  · rw [List.mem_append]
    rcases List.mem_append.mp hx with hx | hx
    · exact (hout x hx).imp_right .inl
    · exact (hout' x hx).imp_right .inr
  · rw [Ne, List.append_eq_nil_iff, not_and_or] at hne
    exact List.mem_append.mpr (hne.imp hz hz')

/-- One `Update` with the maximum of a batch. -/
theorem update {c : Clock} {hs batch : List HLC} (hin : ∀ x ∈ hs, x ∈ batch)
    (hout : ∀ x ∈ batch, x = HLC.zero ∨ x ∈ hs) :
    c.Absorbed hs (c.update (latest HLC.zero batch)) := by
  refine ⟨HLC.zero :: batch, ?_, fun x hx => List.mem_cons_of_mem _ (hin x hx), ?_,
    fun _ => List.mem_cons_self⟩
  · rw [update_reading]
    refine eq_of_forall_ge_iff fun x => ?_
    rw [max_le_iff, latest_le_iff, latest_le_iff, List.forall_mem_cons]
  · rw [List.forall_mem_cons]
    exact ⟨.inl rfl, hout⟩

end Absorbed

/-- Among the clock's reading and `hs` there is a latest one whose counter is
exhausted, that the wall clock has not passed, and whose millisecond occurs in
`hs`. -/
def Wraps (c : Clock) (now : Int64) (hs : List HLC) : Prop :=
  ∃ g ∈ c.reading :: hs, HLC.zero ≤ g ∧ g.seq = Int64.maxValue ∧ ¬g.ts < now ∧
    (∀ h ∈ c.reading :: hs, h ≤ g) ∧ ∃ h ∈ hs, h.ts = g.ts

/-- The tick after an update passes what was taken in unless it wraps. -/
theorem Absorbed.tick_after_iff {c c' : Clock} {hs : List HLC} (h : c.Absorbed hs c')
    (now : Int64) : (∀ x ∈ hs, (c'.tick now).1.after x = true) ↔ ¬c.Wraps now hs := by
  obtain ⟨taken, hread, hin, hout, hz⟩ := h
  have hle : ∀ x ∈ hs, x ≤ c'.reading := fun x hx => hread ▸ le_latest (hin x hx)
  have hcle : c.reading ≤ c'.reading := hread ▸ (latest_le_iff.mp le_rfl).1
  have hiff : ∀ x ∈ hs, ((c'.tick now).1.after x = true ↔
      c'.NoWrap now ∨ x.ts < c'.ts) := fun x hx => HLC.after_iff.trans (lt_tick (hle x hx))
  constructor
  · rintro hall ⟨g, hg, hgz, hseq, hnow, hmax, x, hx, hts⟩
    rw [List.forall_mem_cons] at hmax
    -- the latest is what the clock ended up at
    have hgc : c'.reading = g := by
      refine le_antisymm ?_ ?_
      · rw [hread, latest_le_iff]
        refine ⟨hmax.1, fun y hy => ?_⟩
        rcases hout y hy with rfl | hy
        · exact hgz
        · exact hmax.2 y hy
      · rcases List.mem_cons.mp hg with rfl | hg
        · exact hcle
        · exact hle g hg
    rw [← hgc] at hseq hnow hts
    rcases (hiff x hx).mp (hall x hx) with (hlt | hlt) | hlt
    · exact hnow hlt
    · exact Int64.lt_irrefl (hseq ▸ hlt)
    · exact Int64.lt_irrefl (hts ▸ hlt)
  · intro hno x hx
    rw [hiff x hx]
    by_contra hbad
    obtain ⟨hw, hts⟩ := not_or.mp hbad
    obtain ⟨hnow, hseq⟩ := not_or.mp hw
    have hseq : c'.seq = Int64.maxValue :=
      Int64.le_antisymm (Int64.le_maxValue _) (Int64.not_lt.mp hseq)
    have hmem : c'.reading ∈ c.reading :: hs := by
      rcases latest_mem c.reading taken with h | h
      · exact List.mem_cons.mpr (.inl (hread.trans h))
      · rcases hout _ (hread ▸ h) with h | h
        · -- `HLC{}` has its counter at zero
          exact absurd (hseq.symm.trans (congrArg HLC.seq h)) (by decide)
        · exact List.mem_cons_of_mem _ h
    have hzero : HLC.zero ≤ c'.reading :=
      hread ▸ le_latest (hz (List.ne_nil_of_mem hx))
    have hxts : x.ts = c'.ts := by
      rcases (hle x hx).lt_or_eq with hlt | heq
      · rcases HLC.lt_iff.mp hlt with h | ⟨h, -⟩
        · exact absurd h hts
        · exact h
      · exact congrArg HLC.ts heq
    exact hno ⟨c'.reading, hmem, hzero, hseq, hnow, List.forall_mem_cons.mpr ⟨hcle, hle⟩,
      x, hx, hxts⟩

end Clock

namespace Store

/-- Some row of the batch has a NULL payload and is newer than what the table
and the batch before it have for its key. -/
def Rejects (st : Store) (rs : List Row) : Prop :=
  ∃ before r after, rs = before ++ r :: after ∧ r.payload = none ∧
    ∀ c, (c ∈ st.rows ∨ c ∈ before) → c.id = r.id → newer r c = true

theorem applyRow_error_iff (tx : Store × MaxByKind) (r : Row) :
    (∃ e, applyRow tx r = .error e) ↔ r.payload = none ∧ ¬tx.1.rows.Covers r := by
  by_cases hcov : tx.1.rows.Covers r
  · simp [applyRow_eq_self tx.2 hcov, hcov]
  · have hup : applyRow tx r = (tx.1.upsert r).map fun st => (st, tx.2.bump r) := by
      unfold applyRow
      cases hg : tx.1.rows.get (r.kind, r.key) with
      | none => rfl
      | some c =>
        obtain ⟨hc, hid⟩ := KeyedTable.get_eq_some.mp hg
        have hnew : newer r c = true := by
          rw [newer_iff]
          exact not_le.mp fun hle => hcov ⟨c, hc, hid, hle⟩
        exact if_pos hnew
    rw [hup]
    cases hp : r.payload with
    | none => simp [upsert, hp, Except.map, hcov]
    | some p => simp [upsert, hp, Except.map]

/-- The row loop fails at a NULL payload that would be installed. -/
theorem applyRows_error_iff (rs : List Row) (tx : Store × MaxByKind) :
    (∃ e, rs.foldlM applyRow tx = .error e) ↔
      ∃ before r after, rs = before ++ r :: after ∧ r.payload = none ∧
        ¬(tx.1.rows.mergeAll before).Covers r := by
  induction rs generalizing tx with
  | nil =>
    constructor
    · rintro ⟨e, he⟩
      cases he
    · rintro ⟨before, r, after, hsplit, -⟩
      simp at hsplit
  | cons x rs ih =>
    rw [List.foldlM_cons]
    cases hx : applyRow tx x with
    | error e =>
      have hfail := (applyRow_error_iff tx x).mp ⟨e, hx⟩
      exact iff_of_true ⟨e, rfl⟩ ⟨[], x, rs, rfl, hfail⟩
    | ok tx' =>
      have hrows : tx'.1.rows = tx.1.rows.merge Row.version x := (applyRow_ok hx).1
      refine (ih tx').trans ?_
      rw [hrows]
      constructor
      · rintro ⟨before, r, after, rfl, hr⟩
        exact ⟨x :: before, r, after, rfl, hr⟩
      · rintro ⟨before, r, after, hsplit, hr⟩
        cases before with
        | nil =>
          obtain ⟨rfl, -⟩ := List.cons.inj hsplit
          obtain ⟨e, he⟩ := (applyRow_error_iff tx x).mpr hr
          rw [hx] at he
          cases he
        | cons y before =>
          obtain ⟨rfl, rfl⟩ := List.cons.inj hsplit
          exact ⟨before, r, after, rfl, hr⟩

/-- `ApplyRemote` fails exactly on the batches it rejects. -/
theorem applyRemote_error_iff (st : Store) (peer : String) (rs : List Row) :
    (∃ e, st.applyRemote peer rs = .error e) ↔ st.Rejects rs := by
  have hloop : (∃ e, st.applyRemote peer rs = .error e) ↔
      ∃ e, rs.foldlM applyRow (st, .empty) = .error e := by
    unfold applyRemote
    split
    · next hnil =>
      rw [List.isEmpty_iff.mp hnil, List.foldlM_nil]
      simp [Pure.pure, Except.pure]
    · cases rs.foldlM applyRow (st, .empty) <;> simp [Except.map]
  have hnewest : ∀ before r, ¬(st.rows.mergeAll before).Covers r ↔
      ∀ c, (c ∈ st.rows ∨ c ∈ before) → c.id = r.id → newer r c = true := by
    intro before r
    refine (not_congr KeyedTable.covers_mergeAll_iff).trans ?_
    simp only [not_exists, not_and, not_le, newer_iff]
  rw [hloop, applyRows_error_iff, Rejects]
  simp only [hnewest]

end Store

/-- The HLCs a response carries. -/
def PullResponse.hlcs (resp : PullResponse) : List HLC :=
  resp.rows.filterMap PbRow.hlc ++ resp.events.filterMap PbEvent.hlc

namespace Node

variable {E : Env} {n n' : Node} {peer : String} {evWm : HLC} {resp : PullResponse}

/-- The rows part fails exactly where `ApplyRemote` does. -/
theorem applyRows_error_iff :
    (∃ e, n.applyRows peer resp = .error e) ↔ n.store.Rejects resp.toRows := by
  refine Iff.trans ?_ (Store.applyRemote_error_iff n.store peer resp.toRows)
  unfold applyRows
  split
  · next hnil =>
    rw [PullResponse.toRows, List.isEmpty_iff.mp hnil, List.map_nil]
    simp [Store.applyRemote]
  · cases ha : n.store.applyRemote peer resp.toRows <;> simp [ha, Except.map]

/-- The events part goes through if every event has its HLC. -/
theorem applyEvents_some_iff :
    (∃ n', n.applyEvents E peer evWm resp = some n') ↔ ∀ ev ∈ resp.events, ev.hlc ≠ none := by
  have hall : (∃ xs, resp.events.mapM (PbEvent.toEvent E) = some xs) ↔
      ∀ ev ∈ resp.events, ev.hlc ≠ none := by
    rw [exists_mapM_eq_some]
    refine forall₂_congr fun ev _ => ?_
    cases hev : ev.hlc <;> simp [PbEvent.toEvent, hev]
  rw [← hall]
  unfold applyEvents
  split
  · next hnil =>
    rw [List.isEmpty_iff.mp hnil]
    exact iff_of_true ⟨n, rfl⟩ ⟨[], rfl⟩
  · cases resp.events.mapM (PbEvent.toEvent E) <;> simp

theorem finishRound_ne_panicked (h : ∀ ev ∈ resp.events, ev.hlc ≠ none) :
    n.finishRound E peer evWm resp ≠ (n', .panicked) := by
  unfold finishRound
  cases hr : n.applyRows peer resp with
  | error e => simp
  | ok n₁ =>
    obtain ⟨n₂, hn₂⟩ : ∃ n₂, n₁.applyEvents E peer evWm resp = some n₂ :=
      applyEvents_some_iff.mpr h
    simp [hn₂]

/-! ## The clock afterwards -/

theorem absorbed_of_applyRows (h : n.applyRows peer resp = .ok n') :
    n.clock.Absorbed (resp.rows.filterMap PbRow.hlc) n'.clock := by
  unfold applyRows at h
  split at h
  · next hnil =>
    cases h
    rw [List.isEmpty_iff.mp hnil]
    exact .nil n.clock
  · obtain ⟨st, -, rfl⟩ := Except.map_eq_ok.mp h
    refine .update (fun x hx => ?_) fun x hx => ?_
    · obtain ⟨r, hr, hrx⟩ := List.mem_filterMap.mp hx
      refine List.mem_map.mpr ⟨r.toRow, List.mem_map_of_mem hr, ?_⟩
      rw [PbRow.toRow, hrx, Option.getD_some]
    · obtain ⟨r', hr', rfl⟩ := List.mem_map.mp hx
      obtain ⟨r, hr, rfl⟩ := List.mem_map.mp hr'
      cases hh : r.hlc with
      | none => exact .inl (by rw [PbRow.toRow, hh, Option.getD_none])
      | some x =>
        refine .inr (List.mem_filterMap.mpr ⟨r, hr, ?_⟩)
        rw [PbRow.toRow, hh, Option.getD_some]

theorem absorbed_of_applyEvents (h : n.applyEvents E peer evWm resp = some n') :
    n.clock.Absorbed (resp.events.filterMap PbEvent.hlc) n'.clock := by
  unfold applyEvents at h
  split at h
  · next hnil =>
    cases h
    rw [List.isEmpty_iff.mp hnil]
    exact .nil n.clock
  · obtain ⟨xs, hxs, rfl⟩ := Option.map_eq_some_iff.mp h
    have hmem : ∀ x, x ∈ xs.map Event.hlc ↔ x ∈ resp.events.filterMap PbEvent.hlc := by
      intro x
      rw [List.mem_map, List.mem_filterMap]
      constructor
      · rintro ⟨y, hy, rfl⟩
        obtain ⟨ev, hev, hto⟩ := (mem_of_mapM_eq_some hxs).mp hy
        obtain ⟨h, hh, rfl⟩ := Option.map_eq_some_iff.mp hto
        exact ⟨ev, hev, hh⟩
      · rintro ⟨ev, hev, hh⟩
        exact ⟨_, (mem_of_mapM_eq_some hxs).mpr ⟨ev, hev, Option.map_eq_some_iff.mpr ⟨x, hh, rfl⟩⟩,
          rfl⟩
    exact .update (fun x hx => (hmem x).mpr hx) fun x hx => .inr ((hmem x).mp hx)

/-- However a round ends, the clock has taken in HLCs of the response only. -/
theorem absorbed_of_finishRound {out : Outcome}
    (h : n.finishRound E peer evWm resp = (n', out)) :
    ∃ hs, (∀ x ∈ hs, x ∈ resp.hlcs) ∧ n.clock.Absorbed hs n'.clock := by
  unfold finishRound at h
  cases hr : n.applyRows peer resp with
  | error e =>
    rw [hr] at h
    cases h
    exact ⟨[], by simp, .nil n.clock⟩
  | ok n₁ =>
    have h₁ := absorbed_of_applyRows hr
    simp only [hr] at h
    cases he : n₁.applyEvents E peer evWm resp with
    | none =>
      rw [he] at h
      cases h
      exact ⟨_, fun x hx => List.mem_append_left _ hx, h₁⟩
    | some n₂ =>
      rw [he] at h
      cases h
      exact ⟨_, fun x hx => hx, h₁.trans (absorbed_of_applyEvents he)⟩

/-- **Any response.** A round ends without a panic, and if it returns nil the
next tick is after every HLC of the response, exactly if the batch is rejected,
or every event has its HLC and the counter the clock ends up with does not
wrap. -/
theorem foreign_response_iff (E : Env) (n : Node) (peer : String) (evWm : HLC)
    (resp : PullResponse) (now : Int64) :
    ((n.finishRound E peer evWm resp).2 ≠ .panicked ∧
        ((n.finishRound E peer evWm resp).2 = .ok → ∀ h ∈ resp.hlcs,
          ((n.finishRound E peer evWm resp).1.clock.tick now).1.after h = true)) ↔
      n.store.Rejects resp.toRows ∨
        ((∀ ev ∈ resp.events, ev.hlc ≠ none) ∧ ¬n.clock.Wraps now resp.hlcs) := by
  cases hr : n.applyRows peer resp with
  | error e =>
    have hfin : n.finishRound E peer evWm resp = (n, .failed e) := by simp only [finishRound, hr]
    have hrej := applyRows_error_iff.mp ⟨e, hr⟩
    simp [hfin, hrej]
  | ok n₁ =>
    have hrej : ¬n.store.Rejects resp.toRows := by
      intro hc
      obtain ⟨e, he⟩ := applyRows_error_iff.mpr hc
      rw [hr] at he
      cases he
    rw [or_iff_right hrej]
    cases he : n₁.applyEvents E peer evWm resp with
    | none =>
      have hfin : n.finishRound E peer evWm resp = (n₁, .panicked) := by
        simp only [finishRound, hr, he]
      have hnil : ¬∀ ev ∈ resp.events, ev.hlc ≠ none := by
        intro hc
        obtain ⟨n₂, hn₂⟩ := applyEvents_some_iff.mpr hc
        rw [he] at hn₂
        cases hn₂
      simp [hfin, hnil]
    | some n₂ =>
      have hfin : n.finishRound E peer evWm resp = (n₂, .ok) := by
        simp only [finishRound, hr, he]
      have hevents : ∀ ev ∈ resp.events, ev.hlc ≠ none := applyEvents_some_iff.mp ⟨n₂, he⟩
      have htick : (∀ h ∈ resp.hlcs, (n₂.clock.tick now).1.after h = true) ↔
          ¬n.clock.Wraps now resp.hlcs :=
        ((absorbed_of_applyRows hr).trans (absorbed_of_applyEvents he)).tick_after_iff now
      rw [hfin, and_iff_right hevents, ← htick]
      constructor
      · intro hsafe
        exact hsafe.2 rfl
      · intro hall
        exact ⟨by simp, fun _ => hall⟩

/-- The response with nothing in it but the given events. -/
def eventsOnly (events : List PbEvent) : PullResponse := ⟨"n1", [], [], events, 0⟩

/-- An event without its HLC is a nil dereference. One whose counter is at the
maximum is taken over, and the next tick of a clock that is behind goes back. -/
theorem foreign_event_breaks :
    ((informed ⟨10, 0⟩).finishRound .escapeFree "10.0.0.2:8947" HLC.zero
        (eventsOnly [⟨"n1", 1, "RunnerJoined", "", none⟩])).2 = .panicked ∧
      ((informed ⟨10, 0⟩).finishRound .escapeFree "10.0.0.2:8947" HLC.zero
        (eventsOnly [⟨"n1", 1, "RunnerJoined", "", some ⟨20, Int64.maxValue⟩⟩])).2 = .ok ∧
      (((informed ⟨10, 0⟩).finishRound .escapeFree "10.0.0.2:8947" HLC.zero
        (eventsOnly
          [⟨"n1", 1, "RunnerJoined", "", some ⟨20, Int64.maxValue⟩⟩])).1.clock.tick 15).1 =
        ⟨20, Int64.minValue⟩ := by
  decide +kernel

end Node

end Takl
