import Mathlib.Data.List.Infix
import Takl.Node.Node

/-!
# Whose rows a leaving node takes down

`DeleteByNode` finds the rows of a node by `owner LIKE nodeID || '/%'` with
the id as it is, so an id is read as a pattern: `%` and `_` stand for other
characters, and letters for both their cases.

An owner has one slash, right after the id or after `api`, and so has the
pattern. The match is therefore decided in front of the slash
(`like_append_slash`), which makes `leave_takes_own_rows_iff` exact.
-/

namespace Takl

namespace Store

/-! ## `LIKE` around a slash -/

theorem asciiFold_eq_slash {c : Char} (h : asciiFold '/' = asciiFold c) : c = '/' := by
  have hlow : c.toLower = '/' := h.symm
  unfold Char.toLower at hlow
  split at hlow
  · next hup =>
    -- an upper-case letter folds to a lower-case one, which is not a slash
    have hval := congrArg Char.val hlow
    simp only [UInt32.le_iff_toNat_le, ← UInt32.toNat_inj] at hup hval
    simp at hup hval
    omega
  · exact hlow

theorem like_percent (ps cs : List Char) : like ('%' :: ps) cs = cs.tails.any (like ps) := by
  unfold like
  exact if_pos rfl

theorem like_nil_of_ne {p : Char} (h : p ≠ '%') (ps : List Char) :
    like (p :: ps) [] = false := by
  rw [like, if_neg h]

theorem like_cons_of_ne {p : Char} (h : p ≠ '%') (ps : List Char) (c : Char) (cs : List Char) :
    like (p :: ps) (c :: cs) = ((p = '_' || asciiFold p = asciiFold c) && like ps cs) := by
  rw [like, if_neg h]

/-- A slash of the pattern needs a slash in the text. -/
theorem like_of_no_slash {ps qs cs : List Char} (h : '/' ∉ cs) :
    like (ps ++ '/' :: qs) cs = false := by
  induction ps generalizing cs with
  | nil =>
    cases cs with
    | nil => exact like_nil_of_ne (by decide) qs
    | cons c cs =>
      rw [List.nil_append, like_cons_of_ne (by decide)]
      have hne : asciiFold '/' ≠ asciiFold c := by
        intro hc
        exact h (asciiFold_eq_slash hc ▸ List.mem_cons_self)
      simp [hne]
  | cons p ps ih =>
    by_cases hp : p = '%'
    · subst hp
      rw [List.cons_append, like_percent, List.any_eq_false]
      intro s hs
      rw [ih fun hc => h (((List.mem_tails _ _).mp hs).subset hc)]
      exact Bool.false_ne_true
    · cases cs with
      | nil => exact like_nil_of_ne hp _
      | cons c cs =>
        rw [List.cons_append, like_cons_of_ne hp, ih fun hc => h (List.mem_cons_of_mem _ hc),
          Bool.and_false]

/-- `%` takes any rest. -/
theorem like_percent_end (cs : List Char) : like ['%'] cs = true := by
  rw [like_percent, List.any_eq_true]
  exact ⟨[], (List.mem_tails _ _).mpr List.nil_suffix, rfl⟩

/-- **The match is decided in front of the slash.** -/
theorem like_append_slash {ps cs rest : List Char} (hp : '/' ∉ ps) (hc : '/' ∉ cs)
    (hrest : '/' ∉ rest) : like (ps ++ ['/', '%']) (cs ++ '/' :: rest) = like ps cs := by
  induction ps generalizing cs with
  | nil =>
    cases cs with
    | nil =>
      rw [List.nil_append, List.nil_append, like_cons_of_ne (by decide), like_percent_end]
      rfl
    | cons c cs =>
      have hne : asciiFold '/' ≠ asciiFold c := by
        intro he
        exact hc (asciiFold_eq_slash he ▸ List.mem_cons_self)
      rw [List.nil_append, List.cons_append, like_cons_of_ne (by decide)]
      simp [hne, like]
  | cons p ps ih =>
    have hps : '/' ∉ ps := fun h => hp (List.mem_cons_of_mem _ h)
    by_cases hpc : p = '%'
    · -- `%` may leave any end of the text; one behind the slash does not match
      subst hpc
      rw [List.cons_append, like_percent, like_percent, Bool.eq_iff_iff, List.any_eq_true,
        List.any_eq_true]
      constructor
      · rintro ⟨s, hs, hlike⟩
        obtain ⟨v, hv⟩ := (List.mem_tails _ _).mp hs
        rcases List.append_eq_append_iff.mp hv with ⟨u, rfl, rfl⟩ | ⟨w, rfl, hw⟩
        · refine ⟨u, (List.mem_tails _ _).mpr ⟨v, rfl⟩, ?_⟩
          rwa [ih hps fun h => hc (List.mem_append_right _ h)] at hlike
        · rcases List.suffix_cons_iff.mp ⟨w, hw.symm⟩ with rfl | hs
          · refine ⟨[], (List.mem_tails _ _).mpr List.nil_suffix, ?_⟩
            rw [← ih hps List.not_mem_nil]
            exact hlike
          · rw [like_of_no_slash fun h => hrest (hs.subset h)] at hlike
            cases hlike
      · rintro ⟨u, hu, hlike⟩
        obtain ⟨v, rfl⟩ := (List.mem_tails _ _).mp hu
        refine ⟨u ++ '/' :: rest, (List.mem_tails _ _).mpr ⟨v, by rw [List.append_assoc]⟩, ?_⟩
        rw [ih hps fun h => hc (List.mem_append_right _ h)]
        exact hlike
    · cases cs with
      | nil =>
        rw [List.cons_append, List.nil_append, like_cons_of_ne hpc, like_of_no_slash hrest,
          Bool.and_false, like_nil_of_ne hpc]
      | cons c cs =>
        rw [List.cons_append, List.cons_append, like_cons_of_ne hpc, like_cons_of_ne hpc,
          ih hps fun h => hc (List.mem_cons_of_mem _ h)]

/-- A text matches itself. -/
theorem like_self (cs : List Char) : like cs cs = true := by
  induction cs with
  | nil => rfl
  | cons c cs ih =>
    by_cases hc : c = '%'
    · subst hc
      rw [like_percent, List.any_eq_true]
      exact ⟨cs, (List.mem_tails _ _).mpr (List.suffix_cons _ _), ih⟩
    · rw [like_cons_of_ne hc, ih]
      simp

/-! ## Owners -/

/-- An owner in front of whose slash stands `id` belongs to `nodeID` if the
one matches the other. -/
theorem ownedBy_iff {nodeID id rest : String} {r : Row} (hn : '/' ∉ nodeID.toList)
    (hid : '/' ∉ id.toList) (hrest : '/' ∉ rest.toList) (howner : r.owner = id ++ "/" ++ rest) :
    ownedBy nodeID r = true ↔ like nodeID.toList id.toList = true ∧ r.tombstone = false := by
  have hlike : like (nodeID ++ "/%").toList r.owner.toList = like nodeID.toList id.toList := by
    rw [howner, ← like_append_slash hn hid hrest]
    simp
  rw [ownedBy, hlike, Bool.and_eq_true, Bool.not_eq_true']

/-- A row stays exactly if it is not found. -/
theorem mem_deleteByNode_iff {st : Store} {nodeID : String} {hlc : HLC} {r : Row}
    (hr : r ∈ st.rows) :
    r ∈ (st.deleteByNode nodeID hlc).rows ↔ ownedBy nodeID r = false := by
  rw [mem_deleteByNode]
  constructor
  · rintro (⟨x, hx, howned, heq⟩ | ⟨-, h⟩)
    · -- the found row of the key is `r`, which would have been a tombstone before
      have hxr : x = r := KeyedTable.eq_of_key_eq hx hr (by rw [heq, entomb_id])
      subst hxr
      have hdead : x.tombstone = true := by rw [heq]; rfl
      simp [ownedBy, hdead] at howned
    · exact h
  · intro h
    exact .inr ⟨hr, h⟩

end Store

theorem Epoch.no_slash (e : Epoch) : '/' ∉ e.text.toList := by
  have hdigit : ∀ d, d < 16 → Nat.digitChar d ≠ '/' := by decide
  intro h
  simp only [Epoch.text, String.toList_ofList, List.mem_flatMap, Epoch.hexByte, List.mem_cons,
    List.not_mem_nil, or_false] at h
  obtain ⟨b, -, h | h⟩ := h
  · exact hdigit _ (by have := b.toNat_lt; omega) h.symm
  · exact hdigit _ (Nat.mod_lt _ (by decide)) h.symm

namespace Store

/-- What the departure of node `n` is for, seen from a node `m`: the live rows
of `n`'s agents become tombstones, and the rows of `m`'s agents and the label
rows of every node stay as they are. -/
structure TakesOwnRows (n m : String) (st : Store) (hlc : HLC) : Prop where
  own : ∀ r ∈ st.rows, r.tombstone = false → ∀ e : Epoch, r.owner = n ++ "/" ++ e.text →
    entomb hlc r ∈ (st.deleteByNode n hlc).rows
  agents : ∀ r ∈ st.rows, ∀ e : Epoch, r.owner = m ++ "/" ++ e.text →
    r ∈ (st.deleteByNode n hlc).rows
  labels : n ≠ "api" → ∀ r ∈ st.rows, r.kind = kindMeta → ∀ node : String,
    '/' ∉ node.toList → r.owner = "api" ++ "/" ++ node → r ∈ (st.deleteByNode n hlc).rows

/-- The live rows of the leaving node's agents are always found. -/
theorem entomb_of_own {st : Store} {n : String} (hn : '/' ∉ n.toList) {r : Row}
    (hr : r ∈ st.rows) (hlive : r.tombstone = false) {e : Epoch}
    (howner : r.owner = n ++ "/" ++ e.text) (hlc : HLC) :
    entomb hlc r ∈ (st.deleteByNode n hlc).rows := by
  have howned := (ownedBy_iff hn hn e.no_slash howner).mpr ⟨like_self _, hlive⟩
  exact mem_deleteByNode.mpr (.inl ⟨r, hr, howned, rfl⟩)

/-- A row whose owner does not match stays. -/
theorem mem_deleteByNode_of_unlike {st : Store} {n id rest : String} (hn : '/' ∉ n.toList)
    (hid : '/' ∉ id.toList) (hrest : '/' ∉ rest.toList)
    (hunlike : like n.toList id.toList = false) {r : Row} (hr : r ∈ st.rows)
    (howner : r.owner = id ++ "/" ++ rest) (hlc : HLC) :
    r ∈ (st.deleteByNode n hlc).rows := by
  rw [mem_deleteByNode_iff hr, ← Bool.not_eq_true, ownedBy_iff hn hid hrest howner, hunlike]
  exact fun h => Bool.false_ne_true h.1

/-- A live row whose owner matches can be in a store, and does not stay. -/
theorem exists_taken {n id rest : String} (hn : '/' ∉ n.toList) (hid : '/' ∉ id.toList)
    (hrest : '/' ∉ rest.toList) (hlike : like n.toList id.toList = true) (hlc : HLC) :
    ∃ (st : Store) (r : Row), r ∈ st.rows ∧ r.kind = kindMeta ∧ r.owner = id ++ "/" ++ rest ∧
      r ∉ (st.deleteByNode n hlc).rows := by
  let r : Row := ⟨kindMeta, id, id ++ "/" ++ rest, HLC.zero, false, some [1]⟩
  obtain ⟨st, hst⟩ := upsert_total Store.fresh (r := r) (Option.some_ne_none _)
  have hr : r ∈ st.rows := by
    rw [(upsert_ok hst).1]
    exact KeyedTable.mem_upsert_self _ _
  refine ⟨st, r, hr, rfl, rfl, ?_⟩
  rw [mem_deleteByNode_iff hr, (ownedBy_iff hn hid hrest rfl).mpr ⟨hlike, rfl⟩]
  exact Bool.noConfusion

/-- **When a leaving node takes down its own rows only**: exactly if its id,
read as a pattern, matches neither the other node's id nor, unless it is that
word itself, `api`. -/
theorem leave_takes_own_rows_iff {n m : String} (hn : '/' ∉ n.toList) (hm : '/' ∉ m.toList) :
    (∀ st hlc, TakesOwnRows n m st hlc) ↔
      like n.toList m.toList = false ∧ (n ≠ "api" → like n.toList "api".toList = false) := by
  have hapi : '/' ∉ "api".toList := by decide
  constructor
  · intro h
    constructor
    · rw [← Bool.not_eq_true]
      intro hlike
      let e : Epoch := ⟨List.replicate 8 0, rfl⟩
      obtain ⟨st, r, hr, -, howner, hgone⟩ := exists_taken hn hm e.no_slash hlike HLC.zero
      exact hgone ((h st HLC.zero).agents r hr e howner)
    · intro hne
      rw [← Bool.not_eq_true]
      intro hlike
      obtain ⟨st, r, hr, hk, howner, hgone⟩ := exists_taken hn hapi hm hlike HLC.zero
      exact hgone ((h st HLC.zero).labels hne r hr hk m hm howner)
  · rintro ⟨hunlike, hlabels⟩ st hlc
    exact {
      own := fun r hr hlive e howner => entomb_of_own hn hr hlive howner hlc
      agents := fun r hr e howner =>
        mem_deleteByNode_of_unlike hn hm e.no_slash hunlike hr howner hlc
      labels := fun hne r hr _ node hnode howner =>
        mem_deleteByNode_of_unlike hn hapi hnode (hlabels hne) hr howner hlc }

/-- Plain ids that differ in more than case. -/
theorem plain_ids_apart :
    ('/' ∉ "node-1".toList ∧ '/' ∉ "node-2".toList) ∧
      ∀ st hlc, TakesOwnRows "node-1" "node-2" st hlc :=
  ⟨by decide, (leave_takes_own_rows_iff (by decide) (by decide)).mpr (by decide +kernel)⟩

/-- The runner row of `node-1`, whose agent has drawn the epoch `e`. -/
def neighbourRow (e : Epoch) : Row :=
  ⟨kindRunner, "node-1", "node-1" ++ "/" ++ e.text, ⟨1, 0⟩, false, some [1]⟩

/-- `node_1` leaves, and the row of the healthy `node-1` is a tombstone. -/
theorem underscore_takes_neighbour :
    ∃ (e : Epoch) (st : Store), neighbourRow e ∈ st.rows ∧
      neighbourRow e ∉ (st.deleteByNode "node_1" ⟨2, 0⟩).rows ∧
      entomb ⟨2, 0⟩ (neighbourRow e) ∈ (st.deleteByNode "node_1" ⟨2, 0⟩).rows := by
  let e : Epoch := ⟨[0x1f, 0x8b, 0, 0, 0, 0, 0, 7], rfl⟩
  obtain ⟨st, hst⟩ := upsert_total Store.fresh (r := neighbourRow e) (Option.some_ne_none _)
  have hr : neighbourRow e ∈ st.rows := by
    rw [(upsert_ok hst).1]
    exact KeyedTable.mem_upsert_self _ _
  have howned : ownedBy "node_1" (neighbourRow e) = true := by decide +kernel
  refine ⟨e, st, hr, ?_, mem_deleteByNode.mpr (.inl ⟨_, hr, howned, rfl⟩)⟩
  rw [mem_deleteByNode_iff hr, howned]
  exact Bool.noConfusion

end Store

end Takl
