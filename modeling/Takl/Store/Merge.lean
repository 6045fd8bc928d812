import Mathlib.Order.Bounds.Basic
import Takl.Lib.Except
import Takl.Store.Store

/-!
# `ApplyRemote` and `Apply` refine the last-write-wins join

One spec lemma per operation, which callers cite instead of unfolding it:

* `upsert_ok`, `put_ok` — the row is installed, nothing else changes;
* `applyRemote_ok` — the rows are `mergeAll` of the batch and the watermark
  of `(peer, kind)` is raised to the batch's top of that kind, whether or not
  the rows won (`Applied`);
* `applyRemote_total` — a batch without NULL payloads commits.

The last section is the algebra: however a set of rows is permuted,
repeated, cut into batches or fed row by row, one rows table comes out.
-/

namespace Takl

namespace Store

/-! ## One row -/

theorem upsert_ok {st st' : Store} {r : Row} (h : st.upsert r = .ok st') :
    st'.rows = st.rows.upsert r ∧ st'.events = st.events ∧
      st'.watermarks = st.watermarks := by
  unfold upsert at h
  split at h
  · cases h
  · cases h
    exact ⟨rfl, rfl, rfl⟩

theorem upsert_total (st : Store) {r : Row} (h : r.payload ≠ none) :
    ∃ st', st.upsert r = .ok st' := by
  simp [upsert, h]

@[simp] theorem scanRow_version (E : Env) (r : Row) : (scanRow E r).version = r.version := rfl

/-- `Apply` is the one-row merge. -/
theorem apply_ok {E : Env} {st st' : Store} {r : Row} (h : st.apply E r = .ok st') :
    st'.rows = st.rows.merge Row.version r ∧ st'.events = st.events ∧
      st'.watermarks = st.watermarks := by
  unfold apply get at h
  unfold KeyedTable.merge
  rw [show r.id = (r.kind, r.key) from rfl]
  cases hg : st.rows.get (r.kind, r.key) with
  | none =>
    rw [hg] at h
    exact upsert_ok h
  | some cur =>
    simp only [hg, Option.map_some, newer_iff, scanRow_version] at h
    by_cases hlt : cur.version < r.version
    · rw [if_pos hlt] at h
      simpa [hlt] using upsert_ok h
    · rw [if_neg hlt] at h
      cases h
      simp [hlt]

theorem apply_total (E : Env) (st : Store) {r : Row} (h : r.payload ≠ none) :
    ∃ st', st.apply E r = .ok st' := by
  unfold apply
  split
  · split
    · exact upsert_total st h
    · exact ⟨st, rfl⟩
  · exact upsert_total st h

theorem applyRow_ok {tx tx' : Store × MaxByKind} {r : Row} (h : applyRow tx r = .ok tx') :
    tx'.1.rows = tx.1.rows.merge Row.version r ∧ tx'.1.events = tx.1.events ∧
      tx'.1.watermarks = tx.1.watermarks ∧ tx'.2 = tx.2.bump r := by
  unfold applyRow at h
  unfold KeyedTable.merge
  rw [show r.id = (r.kind, r.key) from rfl]
  cases hg : tx.1.rows.get (r.kind, r.key) with
  | none =>
    rw [hg] at h
    obtain ⟨s, hs, rfl⟩ := Except.map_eq_ok.mp h
    obtain ⟨h1, h2, h3⟩ := upsert_ok hs
    exact ⟨h1, h2, h3, rfl⟩
  | some cur =>
    simp only [hg, newer_iff] at h
    by_cases hlt : cur.version < r.version
    · rw [if_pos hlt] at h
      obtain ⟨s, hs, rfl⟩ := Except.map_eq_ok.mp h
      obtain ⟨h1, h2, h3⟩ := upsert_ok hs
      exact ⟨by simpa [hlt] using h1, h2, h3, rfl⟩
    · rw [if_neg hlt] at h
      cases h
      simp [hlt]

theorem applyRow_total (tx : Store × MaxByKind) {r : Row} (h : r.payload ≠ none) :
    ∃ tx', applyRow tx r = .ok tx' := by
  obtain ⟨s, hs⟩ := upsert_total tx.1 h
  unfold applyRow
  split
  · split
    · simp [hs, Except.map]
    · exact ⟨_, rfl⟩
  · simp [hs, Except.map]

/-- The row loop: one merge and one bump per row. -/
theorem applyRows_ok {rs : List Row} {tx tx' : Store × MaxByKind}
    (h : rs.foldlM applyRow tx = .ok tx') :
    tx'.1.rows = tx.1.rows.mergeAll rs ∧ tx'.1.events = tx.1.events ∧
      tx'.1.watermarks = tx.1.watermarks ∧ tx'.2 = rs.foldl MaxByKind.bump tx.2 := by
  induction rs generalizing tx with
  | nil =>
    cases h
    exact ⟨rfl, rfl, rfl, rfl⟩
  | cons r rs ih =>
    rw [List.foldlM_cons] at h
    obtain ⟨mid, hm, h⟩ := Except.bind_eq_ok.mp h
    obtain ⟨h1, h2, h3, h4⟩ := applyRow_ok hm
    obtain ⟨k1, k2, k3, k4⟩ := ih h
    refine ⟨?_, k2.trans h2, k3.trans h3, ?_⟩
    · rw [k1, h1]
      rfl
    · rw [k4, h4]
      rfl

theorem applyRows_total {rs : List Row} (h : ∀ r ∈ rs, r.payload ≠ none)
    (tx : Store × MaxByKind) : ∃ tx', rs.foldlM applyRow tx = .ok tx' := by
  induction rs generalizing tx with
  | nil => exact ⟨tx, rfl⟩
  | cons r rs ih =>
    obtain ⟨mid, hm⟩ := applyRow_total tx (h r List.mem_cons_self)
    obtain ⟨out, ho⟩ := ih (fun x hx => h x (List.mem_cons_of_mem _ hx)) mid
    exact ⟨out, by rw [List.foldlM_cons, hm]; exact ho⟩

/-! ## Watermarks -/

theorem latest_le_iff {m x : HLC} {hs : List HLC} :
    latest m hs ≤ x ↔ m ≤ x ∧ ∀ h ∈ hs, h ≤ x := by
  unfold latest
  induction hs generalizing m with
  | nil => simp
  | cons h hs ih =>
    rw [List.foldl_cons, ih, maxHLC_eq_max, max_le_iff, List.forall_mem_cons, and_assoc]

theorem le_latest {m h : HLC} {hs : List HLC} (hh : h ∈ hs) : h ≤ latest m hs :=
  (latest_le_iff.mp le_rfl).2 h hh

/-- The latest is the start or one of the list. -/
theorem latest_mem (m : HLC) (hs : List HLC) : latest m hs = m ∨ latest m hs ∈ hs := by
  unfold latest
  induction hs generalizing m with
  | nil => exact .inl rfl
  | cons h hs ih =>
    rw [List.foldl_cons]
    rcases ih (maxHLC m h) with he | he
    · rw [he, maxHLC_eq_max]
      rcases max_choice m h with hm | hm
      · exact .inl hm
      · rw [hm]
        exact .inr List.mem_cons_self
    · exact .inr (List.mem_cons_of_mem _ he)

/-- Below a bound it does not matter where the maximum starts. -/
theorem max_latest {w m m' : HLC} (hm : m ≤ w) (hm' : m' ≤ w) (hs : List HLC) :
    max w (latest m hs) = max w (latest m' hs) := by
  refine eq_of_forall_ge_iff fun c => ?_
  rw [max_le_iff, max_le_iff, latest_le_iff, latest_le_iff]
  constructor
  · rintro ⟨hw, -, hall⟩
    exact ⟨hw, hm'.trans hw, hall⟩
  · rintro ⟨hw, -, hall⟩
    exact ⟨hw, hm.trans hw, hall⟩

/-- The greatest HLC of a kind in a batch, and at least `HLC{}`. -/
def top (kind : Kind) (rs : List Row) : HLC :=
  latest HLC.zero ((rs.filter fun r => decide (r.kind = kind)).map Row.hlc)

theorem top_le_iff {kind : Kind} {rs : List Row} {h : HLC} :
    top kind rs ≤ h ↔ HLC.zero ≤ h ∧ ∀ r ∈ rs, r.kind = kind → r.hlc ≤ h := by
  simp only [top, latest_le_iff, List.forall_mem_map, List.mem_filter, decide_eq_true_iff,
    and_imp]

theorem zero_le_top (kind : Kind) (rs : List Row) : HLC.zero ≤ top kind rs :=
  (top_le_iff.mp le_rfl).1

theorem le_top {kind : Kind} {rs : List Row} {r : Row} (hr : r ∈ rs) (hk : r.kind = kind) :
    r.hlc ≤ top kind rs :=
  (top_le_iff.mp le_rfl).2 r hr hk

/-- The top is `HLC{}` or the HLC of a row of that kind. -/
theorem top_mem (kind : Kind) (rs : List Row) :
    top kind rs = HLC.zero ∨ ∃ r ∈ rs, r.kind = kind ∧ top kind rs = r.hlc := by
  refine (latest_mem _ _).imp_right fun h => ?_
  obtain ⟨r, hr, he⟩ := List.mem_map.mp h
  simp only [List.mem_filter, decide_eq_true_iff] at hr
  exact ⟨r, hr.1, hr.2, he.symm⟩

/-- Where a watermark goes when a batch has been merged. -/
theorem max_top_lt {kind : Kind} {m h : HLC} {rs : List Row} (hm : m < h) (hzero : HLC.zero ≤ m)
    (hrs : ∀ x ∈ rs, x.kind = kind → x.hlc < h) : max m (top kind rs) < h := by
  refine max_lt hm ?_
  rcases top_mem kind rs with htop | ⟨x, hx, hk, htop⟩
  · exact htop ▸ hzero.trans_lt hm
  · exact htop ▸ hrs x hx hk

theorem MaxByKind.bump_read (m : MaxByKind) (r : Row) (kind : Kind) :
    ((m.bump r).read kind).val =
      if r.kind = kind then max (m.read kind).val r.hlc else (m.read kind).val := by
  by_cases h : r.kind = kind
  · subst h
    rw [if_pos rfl, ← maxHLC_eq_max]
    simp [bump, read]
  · simp [bump, read, KeyedTable.get_upsert, h]

theorem MaxByKind.bumps_read (rs : List Row) (m : MaxByKind) (kind : Kind) :
    ((rs.foldl MaxByKind.bump m).read kind).val =
      latest (m.read kind).val ((rs.filter fun r => decide (r.kind = kind)).map Row.hlc) := by
  induction rs generalizing m with
  | nil => rfl
  | cons r rs ih =>
    rw [List.foldl_cons, ih, bump_read]
    by_cases h : r.kind = kind <;> simp [h, latest, maxHLC_eq_max]

theorem putWatermark_watermark (st : Store) (peer p : String) (kind k : Kind) (h : Stamp) :
    (st.putWatermark peer kind h).watermark p k =
      if p = peer ∧ k = kind then h else st.watermark p k := by
  unfold putWatermark watermark
  rw [KeyedTable.get_upsert]
  by_cases he : p = peer ∧ k = kind
  · simp [he, Watermark.id]
  · have hne : Watermark.id ⟨peer, kind, h⟩ ≠ (p, k) := fun hc => by
      simp only [Watermark.id, Prod.mk.injEq] at hc
      exact he ⟨hc.1.symm, hc.2.symm⟩
    rw [if_neg hne, if_neg he]

/-- Raising a watermark takes the maximum; the other tables stay. -/
theorem raiseWatermark_spec (peer : String) (st : Store) (e : Kind × Stamp) :
    (raiseWatermark peer st e).rows = st.rows ∧
      (raiseWatermark peer st e).events = st.events ∧
      ∀ p k, ((raiseWatermark peer st e).watermark p k : HLC) =
        if p = peer ∧ k = e.1 then max (st.watermark p k : HLC) e.2 else st.watermark p k := by
  cases hw : st.watermarks.get (peer, e.1) with
  | none =>
    have hst : raiseWatermark peer st e = st.putWatermark peer e.1 e.2 := by
      simp [raiseWatermark, hw]
    have hz : st.watermark peer e.1 = .zero := by simp [watermark, hw]
    rw [hst]
    refine ⟨rfl, rfl, fun p k => ?_⟩
    rw [putWatermark_watermark]
    split
    · next h =>
      rw [h.1, h.2, hz]
      exact (max_eq_right e.2.property).symm
    · rfl
  | some w =>
    have hcur : st.watermark peer e.1 = w.hlc := by simp [watermark, hw]
    by_cases ha : w.hlc.val < e.2.val
    · have hst : raiseWatermark peer st e = st.putWatermark peer e.1 e.2 := by
        simp [raiseWatermark, hw, ha]
      rw [hst]
      refine ⟨rfl, rfl, fun p k => ?_⟩
      rw [putWatermark_watermark]
      split
      · next h => rw [h.1, h.2, hcur, max_eq_right ha.le]
      · rfl
    · have hst : raiseWatermark peer st e = st := by
        simp [raiseWatermark, hw, ha]
      rw [hst]
      refine ⟨rfl, rfl, fun p k => ?_⟩
      split
      · next h => rw [h.1, h.2, hcur, max_eq_left (not_lt.mp ha)]
      · rfl

/-- The watermark loop over distinct kinds. -/
theorem raiseWatermarks_spec (peer : String) (es : List (Kind × Stamp))
    (hnd : (es.map Prod.fst).Nodup) (st : Store) :
    (es.foldl (raiseWatermark peer) st).rows = st.rows ∧
      (es.foldl (raiseWatermark peer) st).events = st.events ∧
      ∀ p k, ((es.foldl (raiseWatermark peer) st).watermark p k : HLC) =
        match es.find? (fun e => decide (e.1 = k)) with
        | some e => if p = peer then max (st.watermark p k : HLC) e.2 else st.watermark p k
        | none => st.watermark p k := by
  induction es generalizing st with
  | nil => exact ⟨rfl, rfl, fun _ _ => rfl⟩
  | cons e es ih =>
    simp only [List.map_cons, List.nodup_cons, List.mem_map, not_exists, not_and] at hnd
    obtain ⟨hr, he, hw⟩ := raiseWatermark_spec peer st e
    obtain ⟨ir, ie, iw⟩ := ih hnd.2 (raiseWatermark peer st e)
    refine ⟨ir.trans hr, ie.trans he, fun p k => ?_⟩
    rw [List.foldl_cons, iw p k, List.find?_cons]
    by_cases hk : e.1 = k
    · -- the kinds are distinct, so no later entry is of this kind
      have hnone : es.find? (fun e => decide (e.1 = k)) = none := by
        rw [List.find?_eq_none]
        intro x hx
        simpa using fun hc => hnd.1 x hx (hc.trans hk.symm)
      simp only [hnone, hk, decide_true]
      rw [hw, ← hk]
      by_cases hp : p = peer <;> simp [hp]
    · have hk' : ¬ (p = peer ∧ k = e.1) := fun h => hk h.2.symm
      simp only [hk, decide_false]
      rw [hw, if_neg hk']

/-! ## The batch -/

/-- What a committed `ApplyRemote` does. -/
structure Applied (st : Store) (peer : String) (rs : List Row) (st' : Store) : Prop where
  rows : st'.rows = st.rows.mergeAll rs
  events : st'.events = st.events
  watermark : ∀ p k, (st'.watermark p k : HLC) =
    if p = peer then max (st.watermark p k : HLC) (top k rs) else st.watermark p k

theorem applyRemote_ok {st st' : Store} {peer : String} {rs : List Row}
    (h : st.applyRemote peer rs = .ok st') : Applied st peer rs st' := by
  unfold applyRemote at h
  split at h
  · next hnil =>
    cases h
    rw [List.isEmpty_iff] at hnil
    subst hnil
    refine ⟨rfl, rfl, fun p k => ?_⟩
    rw [show top k [] = HLC.zero from rfl, max_eq_left (st.watermark p k).property, ite_self]
  · obtain ⟨tx, htx, rfl⟩ := Except.map_eq_ok.mp h
    obtain ⟨h1, h2, h3, h4⟩ := applyRows_ok htx
    obtain ⟨w1, w2, w3⟩ := raiseWatermarks_spec peer tx.2.rows tx.2.nodup tx.1
    refine ⟨w1.trans h1, w2.trans h2, fun p k => ?_⟩
    have hwm : tx.1.watermark p k = st.watermark p k := by simp only [watermark, h3]
    have htop : (tx.2.read k).val = top k rs := by
      rw [h4, MaxByKind.bumps_read]
      rfl
    rw [w3 p k, hwm, ← htop]
    unfold MaxByKind.read KeyedTable.get
    cases hf : tx.2.rows.find? (fun e => decide (e.1 = k)) with
    | none =>
      rw [show ((Stamp.zero : Stamp) : HLC) = HLC.zero from rfl,
        max_eq_left (st.watermark p k).property, ite_self]
    | some e => rfl

/-- A batch without NULL payloads commits. -/
theorem applyRemote_total (st : Store) (peer : String) {rs : List Row}
    (h : ∀ r ∈ rs, r.payload ≠ none) : ∃ st', st.applyRemote peer rs = .ok st' := by
  obtain ⟨tx, htx⟩ := applyRows_total h (st, .empty)
  unfold applyRemote
  split
  · exact ⟨st, rfl⟩
  · exact ⟨_, by rw [htx]; rfl⟩

/-! ### A batch that brings nothing -/

/-- What a batch would have to raise is already there, and not as a default. -/
theorem raiseWatermark_eq_self {st : Store} {peer : String} {e : Kind × Stamp}
    (hpos : HLC.zero < e.2.val) (hle : e.2.val ≤ st.watermark peer e.1) :
    raiseWatermark peer st e = st := by
  cases hw : st.watermarks.get (peer, e.1) with
  | none =>
    have hz : st.watermark peer e.1 = .zero := by simp [watermark, hw]
    rw [hz] at hle
    exact absurd hle (not_le.mpr hpos)
  | some w =>
    have hcur : st.watermark peer e.1 = w.hlc := by simp [watermark, hw]
    rw [hcur] at hle
    simp [raiseWatermark, hw, not_lt.mpr hle]

theorem applyRow_eq_self {st : Store} (m : MaxByKind) {r : Row} (h : st.rows.Covers r) :
    applyRow (st, m) r = .ok (st, m.bump r) := by
  obtain ⟨c, hc, hid, hle⟩ := h
  have hget : st.rows.get (r.kind, r.key) = some c := KeyedTable.get_eq_some.mpr ⟨hc, hid⟩
  simp only [applyRow, hget, newer_eq_false.mpr hle, Bool.false_eq_true, if_false]

/-- The maxima a batch collects stay within bounds that its rows keep. -/
theorem mem_bumps {rs : List Row} {P : Kind → HLC → Prop} (hP : ∀ r ∈ rs, P r.kind r.hlc)
    (hz : ∀ r ∈ rs, HLC.zero < r.hlc) {m : MaxByKind} (hm : ∀ e ∈ m, P e.1 e.2.val) :
    ∀ e ∈ rs.foldl MaxByKind.bump m, P e.1 e.2.val := by
  induction rs generalizing m with
  | nil => exact hm
  | cons r rs ih =>
    rw [List.foldl_cons]
    refine ih (fun x hx => hP x (List.mem_cons_of_mem _ hx))
      (fun x hx => hz x (List.mem_cons_of_mem _ hx)) fun e he => ?_
    rcases KeyedTable.mem_upsert.mp he with rfl | ⟨he, -⟩
    · show P r.kind (maxHLC (m.read r.kind) r.hlc)
      rw [maxHLC_eq_max]
      unfold MaxByKind.read
      cases hg : m.get r.kind with
      | none =>
        rw [show max (Stamp.zero : HLC) r.hlc = r.hlc from
          max_eq_right (hz r List.mem_cons_self).le]
        exact hP r List.mem_cons_self
      | some e =>
        obtain ⟨he, hk⟩ := KeyedTable.get_eq_some.mp hg
        rcases max_choice e.2.val r.hlc with h | h <;> simp only [h]
        · exact hk ▸ hm e he
        · exact hP r List.mem_cons_self
    · exact hm e he

/-- **A batch of rows that are covered, below the watermark and after `HLC{}`
changes nothing.** -/
theorem applyRemote_eq_self {st : Store} {peer : String} {rs : List Row}
    (hcov : ∀ r ∈ rs, st.rows.Covers r) (hpos : ∀ r ∈ rs, HLC.zero < r.hlc)
    (hle : ∀ r ∈ rs, r.hlc ≤ st.watermark peer r.kind) : st.applyRemote peer rs = .ok st := by
  have hrows : ∀ m : MaxByKind,
      rs.foldlM applyRow (st, m) = .ok (st, rs.foldl MaxByKind.bump m) := by
    clear hpos hle
    intro m
    induction rs generalizing m with
    | nil => rfl
    | cons r rs ih =>
      rw [List.foldlM_cons, applyRow_eq_self m (hcov r List.mem_cons_self)]
      exact ih (fun x hx => hcov x (List.mem_cons_of_mem _ hx)) _
  have hbound := mem_bumps (P := fun k h => HLC.zero < h ∧ h ≤ (st.watermark peer k).val)
    (fun r hr => ⟨hpos r hr, hle r hr⟩) hpos
    (fun e he => absurd he (KeyedTable.not_mem_empty e))
  have hraise : ∀ es : List (Kind × Stamp),
      (∀ e ∈ es, HLC.zero < e.2.val ∧ e.2.val ≤ (st.watermark peer e.1).val) →
      es.foldl (raiseWatermark peer) st = st := by
    intro es hes
    induction es with
    | nil => rfl
    | cons e es ih =>
      obtain ⟨hp, hl⟩ := hes e List.mem_cons_self
      rw [List.foldl_cons, raiseWatermark_eq_self hp hl]
      exact ih fun x hx => hes x (List.mem_cons_of_mem _ hx)
  unfold applyRemote
  split
  · rfl
  · rw [hrows]
    exact congrArg Except.ok (hraise _ hbound)

/-! ## Events and their watermark -/

theorem le_foldl_max (ss : List Int64) (m : Int64) :
    m ≤ ss.foldl (fun m s => if m < s then s else m) m ∧
      ∀ s ∈ ss, s ≤ ss.foldl (fun m s => if m < s then s else m) m := by
  induction ss generalizing m with
  | nil => exact ⟨Int64.le_refl m, fun s hs => nomatch hs⟩
  | cons x ss ih =>
    obtain ⟨hm, hss⟩ := ih (if m < x then x else m)
    have hboth : m ≤ (if m < x then x else m) ∧ x ≤ (if m < x then x else m) := by
      split
      · next h => exact ⟨Int64.le_of_lt h, Int64.le_refl x⟩
      · next h => exact ⟨Int64.le_refl m, Int64.not_lt.mp h⟩
    refine ⟨Int64.le_trans hboth.1 hm, fun s hs => ?_⟩
    rcases List.mem_cons.mp hs with rfl | hs
    · exact Int64.le_trans hboth.2 hm
    · exact hss s hs

theorem foldl_max_mem (ss : List Int64) (m : Int64) :
    ss.foldl (fun m s => if m < s then s else m) m ∈ m :: ss := by
  induction ss generalizing m with
  | nil => exact List.mem_cons_self
  | cons x ss ih =>
    rw [List.foldl_cons]
    rcases List.mem_cons.mp (ih (if m < x then x else m)) with h | h
    · rw [h]
      split
      · exact List.mem_cons_of_mem _ List.mem_cons_self
      · exact List.mem_cons_self
    · exact List.mem_cons_of_mem _ (List.mem_cons_of_mem _ h)

/-- Where the sequence numbers of a runner are `1, …, m`, the greatest is `m`. -/
theorem maxSeq_of_numbered {st : Store} {runnerID : String} {m : Nat}
    (h : ∀ q : Int, (∃ e ∈ st.events, e.runnerID = runnerID ∧ e.seq.toInt = q) ↔
      1 ≤ q ∧ q ≤ m) : (st.maxSeq runnerID).toInt = m := by
  have hmem : ∀ x : Int64,
      x ∈ (st.events.rows.filter fun e => decide (e.runnerID = runnerID)).map EventRow.seq ↔
        1 ≤ x.toInt ∧ x.toInt ≤ m := by
    intro x
    rw [← h, List.mem_map]
    simp only [List.mem_filter, decide_eq_true_iff, and_assoc, Int64.toInt_inj]
    rfl
  unfold maxSeq
  split
  · next hnil =>
    have hzero : ¬(1 : Int) ≤ m := by
      intro hm
      obtain ⟨e, -, -, hq⟩ := (h 1).mpr ⟨le_rfl, hm⟩
      have he := (hmem e.seq).mpr ⟨hq.ge, hq ▸ hm⟩
      rw [hnil] at he
      cases he
    rw [Int64.toInt_zero]
    omega
  · next x xs hcons =>
    rw [hcons] at hmem
    obtain ⟨hlo, hhi⟩ := (hmem _).mp (foldl_max_mem xs x)
    obtain ⟨e, -, -, hq⟩ := (h m).mpr ⟨hlo.trans hhi, le_rfl⟩
    have hle : e.seq ≤ xs.foldl (fun m s => if m < s then s else m) x := by
      rcases List.mem_cons.mp ((hmem e.seq).mpr ⟨by omega, by omega⟩) with he | he
      · exact he ▸ (le_foldl_max xs x).1
      · exact (le_foldl_max xs x).2 _ he
    rw [Int64.le_iff_toInt_le, hq] at hle
    omega

/-- The next sequence number is past those of the runner's other events. -/
theorem lt_nextSeq {st : Store} {runnerID : String} (hmax : st.maxSeq runnerID < Int64.maxValue)
    {e : EventRow} (he : e ∈ st.events) (hid : e.runnerID = runnerID) :
    e.seq < st.maxSeq runnerID + 1 := by
  have hmem : e.seq ∈
      (st.events.rows.filter fun e => decide (e.runnerID = runnerID)).map EventRow.seq :=
    List.mem_map.mpr ⟨e, List.mem_filter.mpr ⟨he, decide_eq_true hid⟩, rfl⟩
  have hle : e.seq ≤ st.maxSeq runnerID := by
    unfold maxSeq
    split
    · next h => exact absurd (h ▸ hmem) List.not_mem_nil
    · next s ss h =>
      rcases List.mem_cons.mp (h ▸ hmem) with he | he
      · exact he ▸ (le_foldl_max ss s).1
      · exact (le_foldl_max ss s).2 _ he
  rw [Int64.lt_iff_toInt_lt, Clock.toInt_add_one hmax]
  rw [Int64.le_iff_toInt_le] at hle
  omega

theorem insertEvent_spec (E : Env) (st : Store) (x : Event) :
    (st.insertEvent E x).rows = st.rows ∧ (st.insertEvent E x).watermarks = st.watermarks ∧
      ∀ e ∈ (st.insertEvent E x).events, e ∈ st.events ∨ x.hlc = e.hlc := by
  unfold insertEvent
  cases st.events.get (x.runnerID, x.seq) with
  | some _ => exact ⟨rfl, rfl, fun e he => .inl he⟩
  | none =>
    refine ⟨rfl, rfl, fun e he => ?_⟩
    rcases KeyedTable.mem_upsert.mp he with rfl | ⟨he, _⟩
    · exact .inr rfl
    · exact .inl he

theorem applyEvents_spec (E : Env) (xs : List Event) (st : Store) :
    (st.applyEvents E xs).rows = st.rows ∧ (st.applyEvents E xs).watermarks = st.watermarks ∧
      ∀ e ∈ (st.applyEvents E xs).events, e ∈ st.events ∨ ∃ x ∈ xs, x.hlc = e.hlc := by
  unfold applyEvents
  induction xs generalizing st with
  | nil => exact ⟨rfl, rfl, fun e he => .inl he⟩
  | cons x xs ih =>
    obtain ⟨hr, hw, he⟩ := insertEvent_spec E st x
    obtain ⟨ir, iw, ie⟩ := ih (st.insertEvent E x)
    refine ⟨ir.trans hr, iw.trans hw, fun e hmem => ?_⟩
    rcases ie e hmem with hmem | ⟨y, hy, hye⟩
    · exact (he e hmem).imp_right fun hx => ⟨x, List.mem_cons_self, hx⟩
    · exact .inr ⟨y, List.mem_cons_of_mem _ hy, hye⟩

/-- `SetWatermark` touches one watermark. -/
theorem setWatermark_spec (st : Store) (peer : String) (kind : Kind) (h : HLC) :
    (st.setWatermark peer kind h).rows = st.rows ∧
      (st.setWatermark peer kind h).events = st.events ∧
      ∀ p k, ¬(p = peer ∧ k = kind) →
        (st.setWatermark peer kind h).watermark p k = st.watermark p k := by
  unfold setWatermark
  split
  · exact ⟨rfl, rfl, fun p k hne => by rw [putWatermark_watermark, if_neg hne]⟩
  · exact ⟨rfl, rfl, fun _ _ _ => rfl⟩

/-- `SetWatermark` takes the maximum. -/
theorem setWatermark_watermark (st : Store) (peer : String) (kind : Kind) (h : HLC) :
    ((st.setWatermark peer kind h).watermark peer kind).val =
      max (st.watermark peer kind).val h := by
  unfold setWatermark
  split
  · next hlt =>
    rw [putWatermark_watermark, if_pos ⟨rfl, rfl⟩]
    exact (max_eq_right (HLC.after_iff.mp hlt).le).symm
  · next hle =>
    rw [HLC.after_iff, not_lt] at hle
    exact (max_eq_left hle).symm

theorem setWatermark_eq_self {st : Store} {peer : String} {kind : Kind} {h : HLC}
    (hle : h ≤ st.watermark peer kind) : st.setWatermark peer kind h = st :=
  dif_neg fun hafter => not_lt.mpr hle (HLC.after_iff.mp hafter)

/-! ## Any schedule of merge calls -/

theorem top_append (kind : Kind) (rs rs' : List Row) :
    top kind (rs ++ rs') = max (top kind rs) (top kind rs') := by
  apply le_antisymm
  · rw [top_le_iff]
    refine ⟨(zero_le_top kind rs).trans (le_max_left _ _), fun r hr hk => ?_⟩
    rcases List.mem_append.mp hr with hr | hr
    · exact (le_top hr hk).trans (le_max_left _ _)
    · exact (le_top hr hk).trans (le_max_right _ _)
  · refine max_le ?_ ?_ <;> rw [top_le_iff]
    · exact ⟨zero_le_top _ _, fun r hr hk => le_top (List.mem_append_left _ hr) hk⟩
    · exact ⟨zero_le_top _ _, fun r hr hk => le_top (List.mem_append_right _ hr) hk⟩

/-- One call into either merge path. -/
inductive MergeCall where
  | applyRemote (peer : String) (batch : List Row)
  | apply (r : Row)

/-- The rows a call hands over. -/
def MergeCall.rows : MergeCall → List Row
  | .applyRemote _ batch => batch
  | .apply r => [r]

/-- The rows a call hands over as pulled from `peer`. -/
def MergeCall.rowsFrom (peer : String) : MergeCall → List Row
  | .applyRemote p batch => if p = peer then batch else []
  | .apply _ => []

def MergeCall.run (E : Env) (st : Store) : MergeCall → Except DbError Store
  | .applyRemote peer batch => st.applyRemote peer batch
  | .apply r => st.apply E r

/-- The calls one after the other; the first failing one ends the run. -/
def runCalls (E : Env) (st : Store) (calls : List MergeCall) : Except DbError Store :=
  calls.foldlM (MergeCall.run E) st

/-- One call merges its rows and raises its peer's watermarks. -/
theorem MergeCall.run_ok {E : Env} {st st' : Store} {c : MergeCall} (h : c.run E st = .ok st') :
    st'.rows = st.rows.mergeAll c.rows ∧
      ∀ p k, (st'.watermark p k).val = max (st.watermark p k).val (top k (c.rowsFrom p)) := by
  have hz : ∀ p k, max (st.watermark p k).val (top k []) = (st.watermark p k).val :=
    fun p k => max_eq_left (st.watermark p k).property
  cases c with
  | applyRemote peer batch =>
    obtain ⟨hrows, -, hwm⟩ := applyRemote_ok h
    refine ⟨hrows, fun p k => ?_⟩
    rw [hwm p k]
    by_cases hp : p = peer
    · simp [rowsFrom, hp]
    · rw [if_neg hp, show rowsFrom p (.applyRemote peer batch) = [] from
        if_neg fun hc => hp hc.symm, hz]
  | apply r =>
    obtain ⟨hrows, -, hwm⟩ := apply_ok h
    refine ⟨hrows, fun p k => ?_⟩
    rw [show rowsFrom p (.apply r) = [] from rfl, hz]
    simp only [watermark, hwm]

theorem runCalls_ok {E : Env} {calls : List MergeCall} {st st' : Store}
    (h : runCalls E st calls = .ok st') :
    st'.rows = st.rows.mergeAll (calls.flatMap MergeCall.rows) ∧
      ∀ p k, (st'.watermark p k).val =
        max (st.watermark p k).val (top k (calls.flatMap (MergeCall.rowsFrom p))) := by
  unfold runCalls at h
  induction calls generalizing st with
  | nil =>
    cases h
    exact ⟨rfl, fun p k => (max_eq_left (Subtype.property _)).symm⟩
  | cons c calls ih =>
    rw [List.foldlM_cons] at h
    obtain ⟨mid, hm, h⟩ := Except.bind_eq_ok.mp h
    obtain ⟨h1, h2⟩ := MergeCall.run_ok hm
    obtain ⟨k1, k2⟩ := ih h
    refine ⟨?_, fun p k => ?_⟩
    · rw [k1, h1, List.flatMap_cons]
      exact (KeyedTable.mergeAll_append ..).symm
    · rw [k2 p k, h2 p k, List.flatMap_cons, top_append, max_assoc]

theorem runCalls_total (E : Env) {calls : List MergeCall}
    (h : ∀ r ∈ calls.flatMap MergeCall.rows, r.payload ≠ none) (st : Store) :
    ∃ st', runCalls E st calls = .ok st' := by
  unfold runCalls
  induction calls generalizing st with
  | nil => exact ⟨st, rfl⟩
  | cons c calls ih =>
    simp only [List.flatMap_cons, List.mem_append] at h
    obtain ⟨mid, hm⟩ : ∃ mid, c.run E st = .ok mid := by
      cases c with
      | applyRemote peer batch => exact applyRemote_total st peer fun r hr => h r (.inl hr)
      | apply r => exact apply_total E st (h r (.inl List.mem_cons_self))
    obtain ⟨out, ho⟩ := ih (fun r hr => h r (.inr hr)) mid
    exact ⟨out, by rw [List.foldlM_cons, hm]; exact ho⟩

/-- A merged table holds, for every key, the row no other is `newer` than. -/
theorem get_mergeAll_eq_some_iff {t : RowTable} {L : List Row}
    (hS : KeyedTable.Consistent Row.version Row.id fun r => r ∈ t ∨ r ∈ L) (kind : Kind)
    (key : String) (r : Row) :
    (t.mergeAll L).get (kind, key) = some r ↔
      (r ∈ t ∨ r ∈ L) ∧ r.kind = kind ∧ r.key = key ∧
        ∀ x, (x ∈ t ∨ x ∈ L) → x.kind = kind → x.key = key → newer x r = false := by
  rw [KeyedTable.get_eq_some, KeyedTable.mem_mergeAll_iff hS]
  constructor
  · rintro ⟨⟨hr, hmax⟩, hid⟩
    cases hid
    refine ⟨hr, rfl, rfl, fun x hx hk hk' => ?_⟩
    exact newer_eq_false.mpr (hmax x hx (Row.id_eq.mpr ⟨hk, hk'⟩))
  · rintro ⟨hr, rfl, rfl, hmax⟩
    refine ⟨⟨hr, fun x hx hid => ?_⟩, rfl⟩
    obtain ⟨hk, hk'⟩ := Row.id_eq.mp hid
    exact newer_eq_false.mp (hmax x hx hk hk')

theorem isGreatest_max_top (h₀ : HLC) (kind : Kind) (rs : List Row) :
    IsGreatest {h | h = h₀ ∨ h = HLC.zero ∨ ∃ r ∈ rs, r.kind = kind ∧ r.hlc = h}
      (max h₀ (top kind rs)) := by
  constructor
  · rcases max_choice h₀ (top kind rs) with h | h <;> rw [h]
    · exact .inl rfl
    · rcases top_mem kind rs with h | ⟨r, hr, hk, h⟩
      · exact .inr (.inl h)
      · exact .inr (.inr ⟨r, hr, hk, h.symm⟩)
  · rintro h (rfl | rfl | ⟨r, hr, hk, rfl⟩)
    · exact le_max_left _ _
    · exact (zero_le_top _ _).trans (le_max_right _ _)
    · exact (le_top hr hk).trans (le_max_right _ _)

/-- **Merging is order-, grouping- and duplication-independent.** Fix a rows
table and rows `L` in which a version determines the content. There is one
table `final`, the greatest row of every key by `newer`, that every schedule
of calls over `L` ends in: any order, repetitions, batches, peers, `Apply` or
`ApplyRemote`. A schedule without NULL payloads runs to its end. The
watermark of each peer and kind is the greatest of its old value, `HLC{}` and
the HLCs received from that peer for that kind. -/
theorem merge_schedule_independent (E : Env) (st : Store) (L : List Row)
    (hcons : ∀ a b, (a ∈ st.rows ∨ a ∈ L) → (b ∈ st.rows ∨ b ∈ L) →
      a.kind = b.kind → a.key = b.key → a.hlc = b.hlc → a.owner = b.owner → a = b) :
    ∃ final : Kind → String → Option Row,
      (∀ kind key r, final kind key = some r ↔
        (r ∈ st.rows ∨ r ∈ L) ∧ r.kind = kind ∧ r.key = key ∧
          ∀ x, (x ∈ st.rows ∨ x ∈ L) → x.kind = kind → x.key = key → newer x r = false) ∧
      ∀ calls : List MergeCall, (∀ r, r ∈ calls.flatMap MergeCall.rows ↔ r ∈ L) →
        ((∀ r ∈ L, r.payload ≠ none) → ∃ st', runCalls E st calls = .ok st') ∧
        ∀ st', runCalls E st calls = .ok st' →
          (∀ kind key, st'.rows.get (kind, key) = final kind key) ∧
          ∀ peer kind, IsGreatest
            {h | h = (st.watermark peer kind).val ∨ h = HLC.zero ∨
              ∃ r ∈ calls.flatMap (MergeCall.rowsFrom peer), r.kind = kind ∧ r.hlc = h}
            (st'.watermark peer kind).val := by
  have hS : KeyedTable.Consistent Row.version Row.id fun r => r ∈ st.rows ∨ r ∈ L := by
    intro a b ha hb hid hver
    obtain ⟨hk, hk'⟩ := Row.id_eq.mp hid
    obtain ⟨hh, ho⟩ := Row.version_eq.mp hver
    exact hcons a b ha hb hk hk' hh ho
  refine ⟨fun kind key => (st.rows.mergeAll L).get (kind, key), get_mergeAll_eq_some_iff hS, ?_⟩
  intro calls hL
  refine ⟨fun hnn => runCalls_total E (fun r hr => hnn r ((hL r).mp hr)) st, ?_⟩
  intro st' hrun
  obtain ⟨hrows, hwm⟩ := runCalls_ok hrun
  refine ⟨fun kind key => ?_, fun peer kind => ?_⟩
  · rw [hrows]
    exact KeyedTable.get_mergeAll_congr hS hL _
  · rw [hwm peer kind]
    exact isGreatest_max_top _ _ _

/-- The rows of `TestApplyRemoteBatch` for key `r1`: the older one comes
second in the batch. -/
def batchNewer : Row := ⟨kindRunner, "r1", "peer-x", ⟨10, 0⟩, false, some [1]⟩
def batchOlder : Row := ⟨kindRunner, "r1", "peer-x", ⟨5, 0⟩, false, some [2]⟩

/-- One batch, and the rows one by one with a repetition, end alike. -/
theorem merge_batch_or_rows : ∃ st₁ st₂,
    runCalls .escapeFree .fresh [.applyRemote "peer-x" [batchNewer, batchOlder]] = .ok st₁ ∧
      runCalls .escapeFree .fresh [.apply batchOlder, .apply batchNewer, .apply batchOlder]
        = .ok st₂ ∧
      ∀ kind key, st₁.rows.get (kind, key) = st₂.rows.get (kind, key) := by
  have hcons : ∀ a b : Row, (a ∈ fresh.rows ∨ a ∈ [batchNewer, batchOlder]) →
      (b ∈ fresh.rows ∨ b ∈ [batchNewer, batchOlder]) →
      a.kind = b.kind → a.key = b.key → a.hlc = b.hlc → a.owner = b.owner → a = b := by
    simp only [fresh, KeyedTable.not_mem_empty, List.mem_cons, List.not_mem_nil, or_false,
      false_or]
    rintro a b (rfl | rfl) (rfl | rfl) <;> decide
  have hnn : ∀ r ∈ [batchNewer, batchOlder], r.payload ≠ none := by decide
  obtain ⟨final, -, hall⟩ :=
    merge_schedule_independent .escapeFree fresh [batchNewer, batchOlder] hcons
  obtain ⟨hok₁, hres₁⟩ := hall [.applyRemote "peer-x" [batchNewer, batchOlder]]
    (by simp [MergeCall.rows])
  obtain ⟨hok₂, hres₂⟩ := hall [.apply batchOlder, .apply batchNewer, .apply batchOlder]
    (by
      intro r
      simp only [MergeCall.rows, List.flatMap_cons, List.flatMap_nil, List.mem_append,
        List.mem_cons, List.not_mem_nil, or_false]
      tauto)
  obtain ⟨st₁, h₁⟩ := hok₁ hnn
  obtain ⟨st₂, h₂⟩ := hok₂ hnn
  refine ⟨st₁, st₂, h₁, h₂, fun kind key => ?_⟩
  rw [(hres₁ st₁ h₁).1, (hres₂ st₂ h₂).1]

/-- An older row of the same key, without a payload. -/
def batchNull : Row := { batchOlder with payload := none }

/-- With a NULL payload the order decides: after the newer row the older one is
not written and the batch commits; before it, the constraint fails and the
batch is rolled back. -/
theorem null_payload_order_matters :
    (∀ a b : Row, (a ∈ fresh.rows ∨ a ∈ [batchNewer, batchNull]) →
        (b ∈ fresh.rows ∨ b ∈ [batchNewer, batchNull]) →
        a.kind = b.kind → a.key = b.key → a.hlc = b.hlc → a.owner = b.owner → a = b) ∧
      (∃ st, runCalls .escapeFree fresh [.applyRemote "peer-x" [batchNewer, batchNull]] = .ok st ∧
        st.rows.get (kindRunner, "r1") = some batchNewer) ∧
      runCalls .escapeFree fresh [.applyRemote "peer-x" [batchNull, batchNewer]] =
        .error .notNull := by
  refine ⟨?_, ⟨_, rfl, by decide⟩, rfl⟩
  simp only [fresh, KeyedTable.not_mem_empty, List.mem_cons, List.not_mem_nil, or_false, false_or]
  rintro a b (rfl | rfl) (rfl | rfl) <;> decide

end Store

end Takl
