import Takl.Model.Labels
import Takl.Node.Effect

/-!
# The stored labels of a runner

The API keeps the labels it was sent for a runner in one row of kind `meta`,
whose payload is the marshalled map. `Store.Holds` says which map that is, so
that the handlers' readings of the row (`storedLabels` here, and those of the
`GET` handlers) need not go down to the payload.
-/

namespace Takl

namespace Store

/-- A payload with a byte in it is scanned as it is stored. -/
theorem scanRow_eq_self (E : Env) {r : Row} (h : r.payload ≠ some []) : scanRow E r = r := by
  simp [scanRow, h]

/-- `Get` scans the row it finds. -/
theorem get_of_mem (E : Env) {st : Store} {kind : Kind} {key : String} {r : Row}
    (hr : r ∈ st.rows) (hid : r.id = (kind, key)) : st.get E kind key = some (scanRow E r) := by
  rw [get, KeyedTable.get_eq_some.mpr ⟨hr, hid⟩, Option.map_some]

theorem get_eq_self (E : Env) {st : Store} {kind : Kind} {key : String} {r : Row}
    (hr : st.rows.get (kind, key) = some r) (hpay : r.payload ≠ some []) :
    st.get E kind key = some r := by
  rw [get, hr, Option.map_some, scanRow_eq_self E hpay]

/-- The runner row that the label and runner endpoints look for first. -/
def Live (E : Env) (st : Store) (id : String) : Prop :=
  ∃ r, st.get E kindRunner id = some r ∧ r.tombstone = false

instance (E : Env) (st : Store) (id : String) : Decidable (st.Live E id) :=
  inferInstanceAs (Decidable (∃ r ∈ st.get E kindRunner id, r.tombstone = false))

/-- The label row of a runner: none or a tombstone, or a marshalled map. -/
inductive Holds (E : Env) (st : Store) (id : String) : Labels → Prop
  | nothing {l : Labels} (hrow : ∀ r, st.get E kindMeta id = some r → r.tombstone = true)
      (h : l.Same .empty) : Holds E st id l
  | row {l m : Labels} {r : Row} (hrow : st.get E kindMeta id = some r)
      (hlive : r.tombstone = false) (hpayload : r.payload = some (E.encodeLabels (some m)))
      (h : l.Same m) : Holds E st id l

theorem Holds.congr {E : Env} {st : Store} {id : String} {l l' : Labels} (h : Holds E st id l)
    (hl : l'.Same l) : Holds E st id l' := by
  cases h with
  | nothing hrow h => exact .nothing hrow (hl.trans h)
  | row hrow hlive hpayload h => exact .row hrow hlive hpayload (hl.trans h)

/-- What is held depends on the row with that key only. -/
theorem Holds.of_get_eq {E : Env} {st st' : Store} {id : String} {l : Labels}
    (h : Holds E st id l) (hget : st'.get E kindMeta id = st.get E kindMeta id) :
    Holds E st' id l := by
  cases h with
  | nothing hrow h => exact .nothing (hget ▸ hrow) h
  | row hrow hlive hpayload h => exact .row (hget.trans hrow) hlive hpayload h

section Upsert
variable {E : Env} {st st' : Store} {r : Row}

theorem get_of_upsert (h : st'.rows = st.rows.upsert r) (hpayload : r.payload ≠ some []) :
    st'.get E r.kind r.key = some r := by
  have hid : st'.rows.get r.id = some r := by rw [h, KeyedTable.get_upsert_self]
  rw [get, show st'.rows.get (r.kind, r.key) = some r from hid, Option.map_some,
    scanRow_eq_self E hpayload]

theorem get_of_upsert_ne (h : st'.rows = st.rows.upsert r) {kind : Kind} {key : String}
    (hne : r.id ≠ (kind, key)) : st'.get E kind key = st.get E kind key := by
  rw [get, get, h, KeyedTable.get_upsert_of_ne _ hne]

end Upsert

end Store

namespace Node

theorem mergeLabels_some (l : Labels) (body : Option Labels) :
    mergeLabels (some l) body = some (some (l.update body)) := by
  cases body <;> rfl

/-- What `handleUpdateLabels` starts from. -/
theorem storedLabels_of_holds {E : Env} (hjson : E.LabelsReadBack) {st : Store} {id : String}
    {l : Labels} (h : st.Holds E id l) : ∃ l', storedLabels E st id = some l' ∧ l'.Same l := by
  unfold storedLabels
  cases h with
  | nothing hrow h =>
    refine ⟨.empty, ?_, h.symm⟩
    split
    · next r hr => rw [if_pos (hrow r hr)]
    · rfl
  | @row m r hrow hlive hpayload h =>
    obtain ⟨l', hread, hsame⟩ := hjson (some .empty) m
    refine ⟨l', ?_, (hsame.trans (Labels.empty_setAll m)).trans h.symm⟩
    simp [hrow, hlive, hpayload, hread]

theorem labelsRow_payload_ne (E : Env) (n : Node) (id : String) (labels : Option Labels)
    (hlc : HLC) : (n.labelsRow E id labels hlc).payload ≠ some [] := by
  simpa [labelsRow] using E.encodeLabels_ne_nil labels

/-- The `Put` of a label row. -/
theorem call_labelsRow (E : Env) (n n₀ : Node) (id : String) (l : Labels) (hlc : HLC) :
    ∃ st, n.call (fun st => st.put (n₀.labelsRow E id (some l) hlc)) =
        ({ n with store := st }, none) ∧
      st.Holds E id l ∧
      ∀ kind key, (kind, key) ≠ (kindMeta, id) → st.get E kind key = n.store.get E kind key := by
  obtain ⟨st, hst, hrows, -, -⟩ :=
    n.call_put (r := n₀.labelsRow E id (some l) hlc) (Option.some_ne_none _)
  refine ⟨st, hst, ?_, ?_⟩
  · exact .row (Store.get_of_upsert hrows (n₀.labelsRow_payload_ne E id _ hlc)) rfl rfl (.refl l)
  · intro kind key hne
    exact Store.get_of_upsert_ne hrows hne.symm

end Node

end Takl
