import Mathlib.Data.Prod.Lex
import Mathlib.Order.Lattice

/-!
# Hybrid logical clocks (`internal/model/hlc.go`)

Timestamps and counters are the source's `int64`, wraparound included:
`Clock.tick` at `seq = MaxInt64` with a stalled wall clock wraps, and every
fact that needs it not to says so through `Clock.NoWrap`.

`HLC.compare` and `HLC.after` are the source's comparison. The proofs speak
the lexicographic linear order on `(ts, seq)`; `HLC.after_iff` is the bridge.
The wall clock is an input: `now` is what `c.now()` returned.
-/

namespace Takl

/-- `model.HLC`. -/
structure HLC where
  ts : Int64
  seq : Int64
  deriving DecidableEq, Repr, Inhabited

namespace HLC

/-- `HLC.Compare`. -/
def compare (h o : HLC) : Int :=
  if h.ts ≠ o.ts then
    if h.ts < o.ts then -1 else 1
  else if h.seq = o.seq then 0
  else if h.seq < o.seq then -1
  else 1

/-- `HLC.After`. -/
def after (h o : HLC) : Bool := decide (h.compare o > 0)

/-- `model.HLC{}`. -/
def zero : HLC := ⟨0, 0⟩

/-! ## The linear order -/

/-- The pair the order is read off. -/
def key (h : HLC) : Int ×ₗ Int := toLex (h.ts.toInt, h.seq.toInt)

theorem key_injective : Function.Injective key := by
  rintro ⟨t, s⟩ ⟨t', s'⟩ h
  simp only [key, toLex_inj, Prod.mk.injEq, Int64.toInt_inj] at h
  obtain ⟨rfl, rfl⟩ := h
  rfl

instance : LinearOrder HLC := LinearOrder.lift' key key_injective

theorem lt_iff {a b : HLC} : a < b ↔ a.ts < b.ts ∨ (a.ts = b.ts ∧ a.seq < b.seq) := by
  rw [Int64.lt_iff_toInt_lt, Int64.lt_iff_toInt_lt, ← Int64.toInt_inj]
  exact Prod.Lex.toLex_lt_toLex

theorem compare_pos {h o : HLC} : 0 < h.compare o ↔ o < h := by
  rw [lt_iff]
  simp only [compare, Int64.lt_iff_toInt_lt, ← Int64.toInt_inj, ne_eq]
  split_ifs <;> simp <;> omega

theorem compare_neg {h o : HLC} : h.compare o < 0 ↔ h < o := by
  rw [lt_iff]
  simp only [compare, Int64.lt_iff_toInt_lt, ← Int64.toInt_inj, ne_eq]
  split_ifs <;> simp <;> omega

/-- `After` is the strict order. -/
@[simp] theorem after_iff {h o : HLC} : h.after o = true ↔ o < h := by
  rw [after, decide_eq_true_iff]
  exact compare_pos

/-- The SQL range predicate `ts > ? OR (ts = ? AND seq > ?)` of the
watermark queries. -/
def beyond (h wm : HLC) : Bool :=
  decide (h.ts > wm.ts) || (decide (h.ts = wm.ts) && decide (h.seq > wm.seq))

/-- The SQL predicate coincides with `After`. -/
@[simp] theorem beyond_iff {h wm : HLC} : h.beyond wm = true ↔ wm < h := by
  rw [lt_iff]
  simp only [beyond, Bool.or_eq_true, Bool.and_eq_true, decide_eq_true_iff, gt_iff_lt]
  constructor
  · rintro (h1 | ⟨h1, h2⟩)
    · exact .inl h1
    · exact .inr ⟨h1.symm, h2⟩
  · rintro (h1 | ⟨h1, h2⟩)
    · exact .inl h1
    · exact .inr ⟨h1.symm, h2⟩

end HLC

/-- `model.Clock`, without its wall clock. -/
structure Clock where
  ts : Int64
  seq : Int64
  deriving DecidableEq, Repr

namespace Clock

/-- `NewClock`. -/
def new : Clock := ⟨0, 0⟩

/-- `Clock.Tick` at wall-clock reading `now`: the timestamp handed out and
the clock afterwards. -/
def tick (c : Clock) (now : Int64) : HLC × Clock :=
  let c' : Clock := if now > c.ts then ⟨now, 0⟩ else ⟨c.ts, c.seq + 1⟩
  (⟨c'.ts, c'.seq⟩, c')

/-- `Clock.Update`. -/
def update (c : Clock) (o : HLC) : Clock :=
  if o.ts > c.ts then ⟨o.ts, o.seq⟩
  else if o.ts = c.ts ∧ o.seq > c.seq then ⟨c.ts, o.seq⟩
  else c

/-- The last timestamp the clock accounts for. -/
def reading (c : Clock) : HLC := ⟨c.ts, c.seq⟩

/-- A tick at `now` does not wrap the counter. -/
def NoWrap (c : Clock) (now : Int64) : Prop := c.ts < now ∨ c.seq < Int64.maxValue

instance (c : Clock) (now : Int64) : Decidable (c.NoWrap now) :=
  inferInstanceAs (Decidable (_ ∨ _))

@[simp] theorem tick_reading (c : Clock) (now : Int64) :
    (c.tick now).2.reading = (c.tick now).1 := rfl

theorem toInt_add_one {x : Int64} (h : x < Int64.maxValue) :
    (x + 1).toInt = x.toInt + 1 := by
  rw [Int64.lt_iff_toInt_lt, Int64.toInt_maxValue] at h
  have hlo := x.le_toInt
  rw [Int64.toInt_add, show (1 : Int64).toInt = 1 from rfl, Int.bmod_eq_of_le (by omega) (by omega)]

/-- A timestamp taken while the wall clock is behind comes right after the
clock's reading. -/
theorem lt_tick_iff {c : Clock} {now : Int64} (h : c.NoWrap now) (hn : ¬ c.ts < now) {x : HLC} :
    x < (c.tick now).1 ↔ x ≤ c.reading := by
  have htick : (c.tick now).1 = ⟨c.ts, c.seq + 1⟩ := by simp [tick, hn]
  rw [htick, ← not_lt, HLC.lt_iff, HLC.lt_iff]
  simp only [reading, Int64.lt_iff_toInt_lt, ← Int64.toInt_inj,
    toInt_add_one (h.resolve_left hn)]
  omega

/-- **Ticks go forward**: a timestamp is after everything the clock has
accounted for. -/
theorem reading_lt_tick {c : Clock} {now : Int64} (h : c.NoWrap now) :
    c.reading < (c.tick now).1 := by
  by_cases hn : c.ts < now
  · exact HLC.lt_iff.mpr (.inl (by simp [tick, hn, reading]))
  · exact (lt_tick_iff h hn).mpr le_rfl

theorem ts_le_tick (c : Clock) (now : Int64) : c.ts ≤ (c.tick now).1.ts := by
  by_cases hn : c.ts < now
  · simpa [tick, hn] using Int64.le_of_lt hn
  · simp [tick, hn]

/-- `Update` is the join with the received timestamp. -/
@[simp] theorem update_reading (c : Clock) (o : HLC) :
    (c.update o).reading = max c.reading o := by
  have hlt : c.reading < o ↔ c.ts < o.ts ∨ (c.ts = o.ts ∧ c.seq < o.seq) := HLC.lt_iff
  unfold update
  by_cases h1 : c.ts < o.ts
  · rw [if_pos h1, max_eq_right (hlt.mpr (.inl h1)).le]
    rfl
  · rw [if_neg h1]
    by_cases h2 : o.ts = c.ts ∧ o.seq > c.seq
    · rw [if_pos h2, max_eq_right (hlt.mpr (.inr ⟨h2.1.symm, h2.2⟩)).le]
      simp [reading, ← h2.1]
    · have hle : o ≤ c.reading := by
        rw [← not_lt, hlt]
        rintro (h | ⟨h, h'⟩)
        · exact h1 h
        · exact h2 ⟨h.symm, h'⟩
      rw [if_neg h2, max_eq_left hle]

end Clock

end Takl
