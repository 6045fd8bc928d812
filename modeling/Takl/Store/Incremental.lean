import Mathlib.Data.Nat.Digits.Defs
import Takl.Store.Checksum

/-!
# Checksums, maintained row by row

Every statement that writes a row changes the table under one key, so the
checksums after it follow from those before it and the two rows under that
key (`Exchanges`): the shares of the old and of the new row, which are zero
unless the row is live. Collecting tombstones removes zero shares only.

Events are never overwritten, so an insert adds the share of the event or,
under a taken key, nothing. The text that is hashed for an event determines
its runner and number: a decimal has no slash, so the last slash of the text
is the one that was put there (`eventKey_inj`).
-/

namespace Takl

namespace Store

/-! ## Rows -/

/-- The checksums of `st'` are those of `st` with one row in place of
another; `none` is no row. -/
def Exchanges (st st' : Store) (old new : Option Row) : Prop :=
  ∀ kind, st'.checksum kind = st.checksum kind ^^^
    KeyedTable.word (share kind) old ^^^ KeyedTable.word (share kind) new

theorem exchanges_of_agree {st st' : Store} {id : Kind × String}
    (h : ∀ i, i ≠ id → st'.rows.get i = st.rows.get i) :
    Exchanges st st' (st.rows.get id) (st'.rows.get id) :=
  fun kind => checksumRows_of_agree h kind

theorem exchanges_of_upsert {st st' : Store} {r : Row} (h : st.upsert r = .ok st') :
    Exchanges st st' (st.rows.get r.id) (some r) := by
  have hrows := (upsert_ok h).1
  have hself : st'.rows.get r.id = some r := by rw [hrows, KeyedTable.get_upsert_self]
  rw [← hself]
  refine exchanges_of_agree fun i hi => ?_
  rw [hrows, KeyedTable.get_upsert_of_ne _ hi.symm]

/-- `Apply` replaces the row under the key by a newer one, or puts the first. -/
theorem exchanges_of_apply {E : Env} {st st' : Store} {r : Row} (h : st.apply E r = .ok st') :
    (if ∀ cur, st.rows.get r.id = some cur → newer r cur = true
      then st'.rows.get r.id = some r else st' = st) ∧
      Exchanges st st' (st.rows.get r.id) (st'.rows.get r.id) := by
  have hput : st.upsert r = .ok st' →
      st'.rows.get r.id = some r ∧ Exchanges st st' (st.rows.get r.id) (st'.rows.get r.id) := by
    intro hup
    have hself : st'.rows.get r.id = some r := by
      rw [(upsert_ok hup).1, KeyedTable.get_upsert_self]
    refine ⟨hself, ?_⟩
    rw [hself]
    exact exchanges_of_upsert hup
  unfold apply get at h
  cases hcur : st.rows.get (r.kind, r.key) with
  | none =>
    rw [hcur] at h
    have hfree : ∀ cur, st.rows.get r.id = some cur → newer r cur = true :=
      fun cur hx => nomatch hcur.symm.trans hx
    rw [if_pos hfree]
    exact hput h
  | some cur =>
    rw [hcur] at h
    have hcur' : st.rows.get r.id = some cur := hcur
    have hscan : newer r (scanRow E cur) = newer r cur := rfl
    simp only [Option.map_some, hscan] at h
    split_ifs at h with hnewer
    · have hall : ∀ x, st.rows.get r.id = some x → newer r x = true := by
        intro x hx
        cases hcur'.symm.trans hx
        exact hnewer
      rw [if_pos hall]
      exact hput h
    · cases h
      refine ⟨?_, exchanges_of_agree fun i _ => rfl⟩
      rw [if_neg fun hall => hnewer (hall cur hcur')]

theorem exchanges_of_delete {E : Env} {st st' : Store} {kind : Kind} {key owner : String}
    {hlc : HLC} (h : st.delete E kind key owner hlc = .ok st') :
    ∃ r, st'.rows.get (kind, key) = some r ∧ r.tombstone = true ∧
      Exchanges st st' (st.rows.get (kind, key)) (some r) := by
  unfold delete at h
  generalize hr : tombstoneRow kind key owner hlc (st.deletePayload E kind key) = r at h
  have hid : r.id = (kind, key) := by rw [← hr]; rfl
  have hdead : r.tombstone = true := by rw [← hr]; rfl
  rw [← hid]
  exact ⟨r, by rw [(upsert_ok h).1, KeyedTable.get_upsert_self], hdead, exchanges_of_upsert h⟩

/-- Collecting tombstones leaves every checksum as it was. -/
theorem checksum_gcTombstones (st : Store) (minHLC : HLC) (kind : Kind) :
    (st.gcTombstones minHLC).checksum kind = st.checksum kind := by
  have hlive : liveRows (st.gcTombstones minHLC).rows kind = liveRows st.rows kind := by
    change (st.rows.rows.filter fun r => !collectable minHLC r).filter _ = _
    rw [List.filter_filter]
    refine List.filter_congr fun r _ => ?_
    cases hr : r.tombstone <;> simp [collectable, hr]
  rw [checksum, checksumRows, hlive]
  rfl

theorem get_gcTombstones_of_collected {st : Store} {minHLC : HLC} {x : Row} (hx : x ∈ st.rows)
    (h : collectable minHLC x = true) : (st.gcTombstones minHLC).rows.get x.id = none := by
  refine KeyedTable.get_eq_none.mpr fun y hy hid => ?_
  obtain ⟨hmem, hkeep⟩ := mem_gcTombstones.mp hy
  rw [KeyedTable.eq_of_key_eq hmem hx hid, h] at hkeep
  cases hkeep

theorem exchanges_of_collected {st : Store} {minHLC : HLC} {x : Row}
    (h : collectable minHLC x = true) : Exchanges st (st.gcTombstones minHLC) (some x) none := by
  have hx : x.tombstone = true := by
    rw [collectable, Bool.and_eq_true] at h
    exact h.1
  intro kind
  rw [checksum_gcTombstones, KeyedTable.word_some, KeyedTable.word_none, share_tombstone hx,
    UInt64.xor_zero, UInt64.xor_zero]

/-! ## Events -/

/-- The text `ChecksumEvents` hashes, `fmt.Sprintf("%s/%d", runnerID, seq)`. -/
def eventKey (runnerID : String) (seq : Int64) : String := runnerID ++ "/" ++ toString seq.toInt

/-- What an event adds to `ChecksumEvents`. -/
def eventShare (e : EventRow) : UInt64 := contribution (eventKey e.runnerID e.seq) e.hlc

/-- Inserting under a free key adds the share of the row. -/
theorem checksumEvents_insert {st st' : Store} (e : EventRow) (hnew : st.events.get e.id = none)
    (h : st'.events = st.events.upsert e) :
    st'.checksumEvents = st.checksumEvents ^^^ eventShare e := by
  have hlaw := KeyedTable.digest_of_agree eventShare (s := st.events) (t := st'.events) (k := e.id)
    (fun i hi => by rw [h, KeyedTable.get_upsert_of_ne _ hi.symm])
  rw [hnew, h, KeyedTable.get_upsert_self, KeyedTable.word_none, KeyedTable.word_some,
    UInt64.xor_zero, ← h] at hlaw
  exact hlaw

theorem checksumEvents_appendEvent {E : Env} {st st' : Store} {e : Event}
    (h : st.appendEvent E e = .ok st') :
    st.events.get (e.runnerID, st.maxSeq e.runnerID + 1) = none ∧
      st'.checksumEvents = st.checksumEvents ^^^
        contribution (eventKey e.runnerID (st.maxSeq e.runnerID + 1)) e.hlc := by
  unfold appendEvent at h
  cases hg : st.events.get (e.runnerID, st.maxSeq e.runnerID + 1) with
  | some x => simp [hg] at h
  | none =>
    simp only [hg] at h
    cases h
    let row : EventRow :=
      { runnerID := e.runnerID, seq := st.maxSeq e.runnerID + 1, type := e.type,
        payload := E.encodePayload e.payload, hlc := e.hlc }
    exact ⟨rfl, checksumEvents_insert row hg rfl⟩

/-- Under a free key `AppendEvent` inserts. -/
theorem appendEvent_of_free {E : Env} {st : Store} {e : Event}
    (h : st.events.get (e.runnerID, st.maxSeq e.runnerID + 1) = none) :
    ∃ st', st.appendEvent E e = .ok st' ∧
      st'.events.get (e.runnerID, st.maxSeq e.runnerID + 1) = some
        { runnerID := e.runnerID, seq := st.maxSeq e.runnerID + 1, type := e.type,
          payload := E.encodePayload e.payload, hlc := e.hlc } := by
  simp only [appendEvent, h]
  exact ⟨_, rfl, KeyedTable.get_upsert_self _ _⟩

theorem checksumEvents_insertEvent (E : Env) (st : Store) (x : Event) :
    (st.insertEvent E x).checksumEvents =
      if st.events.get (x.runnerID, x.seq) = none then
        st.checksumEvents ^^^ contribution (eventKey x.runnerID x.seq) x.hlc
      else st.checksumEvents := by
  unfold insertEvent
  cases hg : st.events.get (x.runnerID, x.seq) with
  | some e => rfl
  | none =>
    let row : EventRow :=
      { runnerID := x.runnerID, seq := x.seq, type := x.type,
        payload := E.encodePayload x.payload, hlc := x.hlc }
    exact checksumEvents_insert row hg rfl

/-! ## The text of an event -/

theorem not_mem_toDigits {c : Char} (hc : c.isDigit = false) (n : ℕ) :
    c ∉ Nat.toDigits 10 n := by
  intro h
  rw [Nat.isDigit_of_mem_toDigits (by decide) (by decide) h] at hc
  cases hc

theorem toDigits_inj {m n : ℕ} (h : Nat.toDigits 10 m = Nat.toDigits 10 n) : m = n := by
  have hread := congrArg (fun l => Nat.ofDigitChars 10 l 0) h
  simpa only [Nat.ofDigitChars_toDigits (by decide : 1 < 10) (by decide : 10 ≤ 10)] using hread

/-- The decimal of an integer, as the list of its characters. -/
theorem toList_toString (i : ℤ) :
    (toString i).toList =
      if 0 ≤ i then Nat.toDigits 10 i.toNat else '-' :: Nat.toDigits 10 (-i).toNat := by
  rw [Int.toString_eq_repr, Int.repr_eq_if]
  split
  · exact Nat.toList_repr
  · rw [String.toList_append, Nat.toList_repr]
    rfl

theorem slash_not_mem_decimal (i : ℤ) : '/' ∉ (toString i).toList := by
  rw [toList_toString]
  have hslash : ∀ n, '/' ∉ Nat.toDigits 10 n := not_mem_toDigits rfl
  split
  · exact hslash _
  · simp [hslash]

theorem decimal_inj {i j : ℤ} (h : (toString i).toList = (toString j).toList) : i = j := by
  rw [toList_toString, toList_toString] at h
  have hminus : ∀ n, '-' ∉ Nat.toDigits 10 n := not_mem_toDigits rfl
  -- a minus sign is not a digit, so the signs agree
  split at h <;> split at h
  · have := toDigits_inj h
    omega
  · exact absurd (h ▸ List.mem_cons_self) (hminus i.toNat)
  · exact absurd (h.symm ▸ List.mem_cons_self) (hminus j.toNat)
  · have := toDigits_inj (List.cons_inj_right _ |>.mp h)
    omega

/-- The last occurrence of a character splits a text in one way. -/
theorem eq_of_last_split {c : Char} {a a' d d' : List Char} (hd : c ∉ d) (hd' : c ∉ d')
    (h : a ++ c :: d = a' ++ c :: d') : a = a' ∧ d = d' := by
  rcases List.append_eq_append_iff.mp h with ⟨m, rfl, hm⟩ | ⟨m, rfl, hm⟩
  · cases m with
    | nil => simpa using hm
    | cons x m =>
      rw [List.cons_append, List.cons.injEq] at hm
      exact absurd (hm.2 ▸ List.mem_append_right m List.mem_cons_self) hd
  · cases m with
    | nil => simpa using hm.symm
    | cons x m =>
      rw [List.cons_append, List.cons.injEq] at hm
      exact absurd (hm.2 ▸ List.mem_append_right m List.mem_cons_self) hd'

/-- The hashed text determines runner and number, whatever the runner id. -/
theorem eventKey_inj {r r' : String} {s s' : Int64} (h : eventKey r s = eventKey r' s') :
    r = r' ∧ s = s' := by
  have hl := congrArg String.toList h
  simp only [eventKey, String.toList_append, List.append_assoc] at hl
  obtain ⟨hr, hs⟩ := eq_of_last_split (slash_not_mem_decimal _) (slash_not_mem_decimal _) hl
  exact ⟨String.toList_inj.mp hr, Int64.toInt_inj.mp (decimal_inj hs)⟩

/-! ## The laws together -/

/-- **Checksums are about sets and can be maintained.** The scan order does
not show. `Put`, `Apply`, `Delete` and the collection of a tombstone change a
checksum by the shares of the row they replace and the row they leave; `Apply`
replaces a row by a newer one only. An event is inserted and adds its share if
its key is free, and adds nothing if it is taken; the key can be read off the
hashed text. -/
theorem checksums_incremental (E : Env) :
    (∀ (t t' : RowTable) (kind : Kind), t.rows.Perm t'.rows →
      checksumRows t kind = checksumRows t' kind) ∧
    (∀ (st st' : Store) (r : Row), st.put r = .ok st' →
      Exchanges st st' (st.rows.get r.id) (some r)) ∧
    (∀ (st : Store) (r : Row), r.payload ≠ none → ∃ st', st.put r = .ok st') ∧
    (∀ (st st' : Store) (r : Row), st.apply E r = .ok st' →
      (if ∀ cur, st.rows.get r.id = some cur → newer r cur = true
        then st'.rows.get r.id = some r else st' = st) ∧
        Exchanges st st' (st.rows.get r.id) (st'.rows.get r.id)) ∧
    (∀ (st st' : Store) (kind : Kind) (key owner : String) (hlc : HLC),
      st.delete E kind key owner hlc = .ok st' →
      ∃ r, st'.rows.get (kind, key) = some r ∧ r.tombstone = true ∧
        Exchanges st st' (st.rows.get (kind, key)) (some r)) ∧
    (∀ (st : Store) (minHLC : HLC) (x : Row), x ∈ st.rows → collectable minHLC x = true →
      (st.gcTombstones minHLC).rows.get x.id = none ∧
        Exchanges st (st.gcTombstones minHLC) (some x) none) ∧
    (∀ (st st' : Store) (e : Event), st.appendEvent E e = .ok st' →
      st.events.get (e.runnerID, st.maxSeq e.runnerID + 1) = none ∧
        st'.checksumEvents = st.checksumEvents ^^^
          contribution (eventKey e.runnerID (st.maxSeq e.runnerID + 1)) e.hlc) ∧
    (∀ (st : Store) (e : Event), st.events.get (e.runnerID, st.maxSeq e.runnerID + 1) = none →
      ∃ st', st.appendEvent E e = .ok st' ∧
        st'.events.get (e.runnerID, st.maxSeq e.runnerID + 1) = some
          { runnerID := e.runnerID, seq := st.maxSeq e.runnerID + 1, type := e.type,
            payload := E.encodePayload e.payload, hlc := e.hlc }) ∧
    (∀ (st : Store) (e : Event), st.events.get (e.runnerID, st.maxSeq e.runnerID + 1) ≠ none →
      st.appendEvent E e = .error .primaryKey) ∧
    (∀ (st : Store) (xs : List Event) (x : Event),
      (st.applyEvents E (xs ++ [x])).checksumEvents =
        if (st.applyEvents E xs).events.get (x.runnerID, x.seq) = none then
          (st.applyEvents E xs).checksumEvents ^^^ contribution (eventKey x.runnerID x.seq) x.hlc
        else (st.applyEvents E xs).checksumEvents) ∧
    (∀ (r r' : String) (s s' : Int64), eventKey r s = eventKey r' s' → r = r' ∧ s = s') := by
  refine ⟨?perm, ?put, ?total, ?apply, ?delete, ?gc, ?append, ?free, ?taken, ?events, ?text⟩
  case perm =>
    intro t t' kind h
    exact checksumRows_congr fun r _ => h.mem_iff
  case put =>
    intro st st' r h
    exact exchanges_of_upsert h
  case total =>
    intro st r h
    exact upsert_total st h
  case apply =>
    intro st st' r h
    exact exchanges_of_apply h
  case delete =>
    intro st st' kind key owner hlc h
    exact exchanges_of_delete h
  case gc =>
    intro st minHLC x hx hcol
    exact ⟨get_gcTombstones_of_collected hx hcol, exchanges_of_collected hcol⟩
  case append =>
    intro st st' e h
    exact checksumEvents_appendEvent h
  case free =>
    intro st e h
    exact appendEvent_of_free h
  case taken =>
    intro st e h
    obtain ⟨x, hx⟩ := Option.ne_none_iff_exists'.mp h
    simp [appendEvent, hx]
  case events =>
    intro st xs x
    rw [applyEvents, List.foldl_append]
    exact checksumEvents_insertEvent E (st.applyEvents E xs) x
  case text =>
    intro r r' s s' h
    exact eventKey_inj h

/-- A runner row put over an older one of its key: the new checksum is the
old one with one contribution taken out and one put in. -/
theorem put_exchanges_contributions : ∃ st',
    (sampleStore ⟨1700000000000, 0⟩).put (sampleRow ⟨1700000000001, 0⟩) = .ok st' ∧
      st'.checksum kindRunner = (sampleStore ⟨1700000000000, 0⟩).checksum kindRunner ^^^
        contribution "n1" ⟨1700000000000, 0⟩ ^^^ contribution "n1" ⟨1700000000001, 0⟩ := by
  obtain ⟨st', hput⟩ : ∃ st', (sampleStore ⟨1700000000000, 0⟩).put
      (sampleRow ⟨1700000000001, 0⟩) = .ok st' := upsert_total _ (Option.some_ne_none _)
  exact ⟨st', hput, (checksums_incremental Env.escapeFree).2.1 _ _ _ hput kindRunner⟩

end Store

end Takl
