import Takl.Lib.XorDigest
import Takl.Store.Merge

/-!
# Checksums are about sets of rows

The XOR loop does not depend on the scan order, so the checksum of a kind is
a function of the live rows of that kind.

It is a weak function of each of them: a row contributes `ts` and `seq` only
through their XOR, so one update of one key shows exactly if that XOR moves
(`checksum_shows_iff`). A tick that follows another within a millisecond
always moves it; the first tick of a later millisecond may not.
-/

namespace Takl

namespace Store

theorem nodup_liveRows (t : RowTable) (kind : Kind) : (liveRows t kind).Nodup :=
  (List.Nodup.of_map Row.id t.nodup).filter _

theorem mem_liveRows {t : RowTable} {kind : Kind} {r : Row} :
    r ∈ liveRows t kind ↔ r ∈ t ∧ r.kind = kind ∧ r.tombstone = false := by
  simp [liveRows, KeyedTable.mem_def]

/-- Tables with the same rows of a kind have the same checksum for it. -/
theorem checksumRows_congr {t t' : RowTable} {kind : Kind}
    (h : ∀ r, r.kind = kind → (r ∈ t ↔ r ∈ t')) :
    checksumRows t kind = checksumRows t' kind := by
  have hperm : (liveRows t kind).Perm (liveRows t' kind) := by
    rw [List.perm_ext_iff_of_nodup (nodup_liveRows t kind) (nodup_liveRows t' kind)]
    intro r
    rw [mem_liveRows, mem_liveRows]
    exact ⟨fun ⟨hr, hk, hl⟩ => ⟨(h r hk).mp hr, hk, hl⟩,
      fun ⟨hr, hk, hl⟩ => ⟨(h r hk).mpr hr, hk, hl⟩⟩
  exact xorDigest_perm _ hperm

/-- The same, key by key. -/
theorem checksumRows_congr_get {t t' : RowTable} {kind : Kind}
    (h : ∀ key, t.get (kind, key) = t'.get (kind, key)) :
    checksumRows t kind = checksumRows t' kind := by
  refine checksumRows_congr ?_
  rintro r rfl
  have hr : t.get r.id = t'.get r.id := h r.key
  constructor
  · intro hmem
    rw [KeyedTable.get_key hmem] at hr
    exact (KeyedTable.get_eq_some.mp hr.symm).1
  · intro hmem
    rw [KeyedTable.get_key hmem] at hr
    exact (KeyedTable.get_eq_some.mp hr).1

/-! ## One update of one key -/

/-- What a row adds to the checksum of a kind: its contribution if it is a
live row of that kind, else nothing. -/
def share (kind : Kind) (r : Row) : UInt64 :=
  if decide (r.kind = kind) && !r.tombstone then contribution r.key r.hlc else 0

theorem share_live {r : Row} (h : r.tombstone = false) :
    share r.kind r = contribution r.key r.hlc := by
  simp [share, h]

theorem share_tombstone {kind : Kind} {r : Row} (h : r.tombstone = true) : share kind r = 0 := by
  simp [share, h]

theorem checksumRows_eq_digest (t : RowTable) (kind : Kind) :
    checksumRows t kind = xorDigest (share kind) t.rows :=
  xorDigest_filter _ _ t.rows

/-- **One row changes.** Tables that agree away from one key have checksums
that differ by the shares of the rows under it. -/
theorem checksumRows_of_agree {t t' : RowTable} {id : Kind × String}
    (h : ∀ i, i ≠ id → t'.get i = t.get i) (kind : Kind) :
    checksumRows t' kind = checksumRows t kind ^^^
      KeyedTable.word (share kind) (t.get id) ^^^ KeyedTable.word (share kind) (t'.get id) := by
  rw [checksumRows_eq_digest, checksumRows_eq_digest]
  exact KeyedTable.digest_of_agree (share kind) h

/-- Overwriting a live row swaps its contribution. -/
theorem checksumRows_upsert {t : RowTable} {r r' : Row} (hr : r ∈ t)
    (hlive : r.tombstone = false) (hlive' : r'.tombstone = false) (hid : r'.id = r.id) :
    checksumRows (t.upsert r') r.kind ^^^ contribution r'.key r'.hlc =
      checksumRows t r.kind ^^^ contribution r.key r.hlc := by
  have hagree : ∀ i, i ≠ r'.id → (t.upsert r').get i = t.get i := by
    intro i hi
    exact KeyedTable.get_upsert_of_ne t hi.symm
  have hkind : r'.kind = r.kind := (Row.id_eq.mp hid).1
  have hshare : share r.kind r' = contribution r'.key r'.hlc := by
    rw [← hkind, share_live hlive']
  rw [checksumRows_of_agree hagree r.kind, KeyedTable.get_upsert_self, hid,
    KeyedTable.get_key hr, KeyedTable.word_some, KeyedTable.word_some, share_live hlive, hshare,
    UInt64.xor_assoc, UInt64.xor_self, UInt64.xor_zero]

/-- Contributions of one key differ exactly as `ts ^ seq` does. -/
theorem contribution_eq_iff (key : String) (h h' : HLC) :
    contribution key h = contribution key h' ↔ h.ts ^^^ h.seq = h'.ts ^^^ h'.seq := by
  unfold contribution
  rw [UInt64.xor_assoc, UInt64.xor_assoc, UInt64.xor_right_inj, ← Int64.toUInt64_xor,
    ← Int64.toUInt64_xor]
  constructor
  · intro heq
    exact Int64.toBitVec_inj.mp (congrArg UInt64.toBitVec heq)
  · intro heq
    rw [heq]

/-- Two ticks of one clock in a row collide exactly if the second starts a
new millisecond whose number is the XOR of the first. -/
theorem tick_xor_eq_iff (c : Clock) (now : Int64) :
    c.ts ^^^ c.seq = (c.tick now).1.ts ^^^ (c.tick now).1.seq ↔
      c.ts < now ∧ now = c.ts ^^^ c.seq := by
  by_cases hn : c.ts < now
  · have htick : (c.tick now).1 = ⟨now, 0⟩ := by simp [Clock.tick, hn]
    rw [htick, Int64.xor_zero]
    constructor
    · intro h
      exact ⟨hn, h.symm⟩
    · rintro ⟨-, h⟩
      exact h.symm
  · -- the counter moves, so the XOR does
    have htick : (c.tick now).1 = ⟨c.ts, c.seq + 1⟩ := by simp [Clock.tick, hn]
    rw [htick, Int64.xor_right_inj]
    constructor
    · intro h
      have hb := congrArg Int64.toBitVec h
      rw [Int64.toBitVec_add, show (1 : Int64).toBitVec = 1#64 from rfl] at hb
      bv_omega
    · rintro ⟨hlt, -⟩
      exact absurd hlt hn

/-- **When a newer version shows in the checksum.** Putting a live row over a
live row of its key changes the checksum of the kind exactly if the XOR of
`ts` and `seq` changes. For the results of two ticks of one clock in a row:
unless the second opens a new millisecond whose number is that XOR. -/
theorem checksum_shows_iff {st st' : Store} {r r' : Row} (hr : r ∈ st.rows)
    (hlive : r.tombstone = false) (hlive' : r'.tombstone = false) (hid : r'.id = r.id)
    (hput : st.put r' = .ok st') :
    (st'.checksum r.kind ≠ st.checksum r.kind ↔
        r.hlc.ts ^^^ r.hlc.seq ≠ r'.hlc.ts ^^^ r'.hlc.seq) ∧
      ∀ (c : Clock) (now now' : Int64), r.hlc = (c.tick now).1 →
        r'.hlc = ((c.tick now).2.tick now').1 →
        (st'.checksum r.kind ≠ st.checksum r.kind ↔
          ¬(r.hlc.ts < now' ∧ now' = r.hlc.ts ^^^ r.hlc.seq)) := by
  have hshow : st'.checksum r.kind ≠ st.checksum r.kind ↔
      r.hlc.ts ^^^ r.hlc.seq ≠ r'.hlc.ts ^^^ r'.hlc.seq := by
    have hswap := checksumRows_upsert hr hlive hlive' hid
    rw [← (upsert_ok hput).1, (Row.id_eq.mp hid).2] at hswap
    rw [not_iff_not, ← contribution_eq_iff r.key]
    constructor
    · intro heq
      rw [show checksumRows st'.rows r.kind = checksumRows st.rows r.kind from heq] at hswap
      exact ((UInt64.xor_right_inj _).mp hswap).symm
    · intro heq
      rw [heq] at hswap
      exact (UInt64.xor_left_inj _).mp hswap
  refine ⟨hshow, fun c now now' h h' => ?_⟩
  rw [hshow, not_iff_not, h', h]
  exact tick_xor_eq_iff (c.tick now).2 now'

/-- A runner row of an idle node, at some time. -/
def sampleRow (hlc : HLC) : Row := ⟨kindRunner, "n1", "n1/1f8b", hlc, false, some [1]⟩

/-- The store that holds it and nothing else. -/
def sampleStore (hlc : HLC) : Store :=
  { Store.fresh with
    rows := KeyedTable.empty.upsert (sampleRow hlc)
    payload_notNull := by
      intro r hr
      rcases KeyedTable.mem_upsert.mp hr with rfl | ⟨hr, -⟩
      · exact Option.some_ne_none _
      · exact absurd hr (KeyedTable.not_mem_empty r) }

/-- A row rewritten in the next millisecond, with the counter at zero both
times: the checksum changes. -/
theorem next_millisecond_shows : ∃ st',
    (sampleStore ⟨1700000000000, 0⟩).put (sampleRow ⟨1700000000001, 0⟩) = .ok st' ∧
      st'.checksum kindRunner ≠ (sampleStore ⟨1700000000000, 0⟩).checksum kindRunner := by
  have hr : sampleRow ⟨1700000000000, 0⟩ ∈ (sampleStore ⟨1700000000000, 0⟩).rows :=
    KeyedTable.mem_upsert_self _ _
  have hid : (sampleRow ⟨1700000000001, 0⟩).id = (sampleRow ⟨1700000000000, 0⟩).id := rfl
  obtain ⟨st', hput⟩ : ∃ st', (sampleStore ⟨1700000000000, 0⟩).put
      (sampleRow ⟨1700000000001, 0⟩) = .ok st' := upsert_total _ (Option.some_ne_none _)
  exact ⟨st', hput, (checksum_shows_iff hr rfl rfl hid hput).1.mpr (by decide)⟩

/-- A clock stamps twice in one millisecond and once in the next; the row
with the third timestamp over the row with the second leaves the checksum as
it was. -/
theorem third_tick_hidden :
    ((⟨1700000000000, 0⟩ : Clock).tick 1700000000000).1 = ⟨1700000000000, 1⟩ ∧
      ((⟨1700000000000, 1⟩ : Clock).tick 1700000000001).1 = ⟨1700000000001, 0⟩ ∧
      ∃ st', (sampleStore ⟨1700000000000, 1⟩).put (sampleRow ⟨1700000000001, 0⟩) = .ok st' ∧
        newer (sampleRow ⟨1700000000001, 0⟩) (sampleRow ⟨1700000000000, 1⟩) = true ∧
        st'.checksum kindRunner = (sampleStore ⟨1700000000000, 1⟩).checksum kindRunner := by
  refine ⟨by decide, by decide, _, rfl, by decide, by decide +kernel⟩

end Store

end Takl
