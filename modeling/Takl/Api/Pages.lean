import Takl.Api.Aggregates
import Takl.Api.Provenance

/-!
# Going through the runners page by page

`GET /runners?limit=p&offset=k·p` for `k = 0, 1, …`. The pages are cut out of
a listing sorted by key, each at the time of its request. While no runner
comes or goes, the keys stay where they are, so the pages together name every
runner once, in order, whatever the agents report in between.
-/

namespace Takl

namespace Store

/-- The keys of the live runners, as they are listed. -/
def liveKeys (E : Env) (st : Store) : List String := (st.selectLive E kindRunner).map Row.key

variable {E : Env} {st st' : Store}

theorem mem_liveKeys {key : String} : key ∈ st.liveKeys E ↔ st.Live E key := by
  simp only [liveKeys, List.mem_map, Api.mem_selectLive]
  constructor
  · rintro ⟨_, ⟨r, hr, hkind, hlive, rfl⟩, rfl⟩
    have hget : st.rows.get (kindRunner, r.key) = some r :=
      KeyedTable.get_eq_some.mpr ⟨hr, congrArg (·, r.key) hkind⟩
    exact ⟨scanRow E r, congrArg (Option.map (scanRow E)) hget, hlive⟩
  · rintro ⟨_, hget, hlive⟩
    obtain ⟨r, hr, rfl⟩ := Option.map_eq_some_iff.mp hget
    obtain ⟨hmem, hid⟩ := KeyedTable.get_eq_some.mp hr
    obtain ⟨hkind, hkey⟩ := Prod.mk.inj hid
    exact ⟨_, ⟨r, hmem, hkind, hlive, rfl⟩, hkey⟩

/-- They are listed in order, each once. -/
theorem sorted_liveKeys (E : Env) (st : Store) : (st.liveKeys E).Pairwise (· < ·) := by
  have hperm := List.perm_insertionSort (fun a b : Row => a.key ≤ b.key)
    (liveRows st.rows kindRunner)
  have hnodup := hperm.nodup_iff.mpr (nodup_liveRows st.rows kindRunner)
  rw [liveKeys, selectLive, List.map_map, List.pairwise_map]
  refine ((sorted_selectLive st kindRunner).and hnodup).imp_of_mem fun ha hb hab => ?_
  refine lt_of_le_not_ge hab.1 fun hba => hab.2 ?_
  exact eq_of_key_le (hperm.mem_iff.mp ha) (hperm.mem_iff.mp hb) hab.1 hba

/-- Which keys are listed, and where, depends on who is live only. -/
theorem liveKeys_eq (h : ∀ key, st.Live E key ↔ st'.Live E key) : st.liveKeys E = st'.liveKeys E :=
  (sorted_liveKeys E st).eq_of_mem_iff (sorted_liveKeys E st') fun key => by
    rw [mem_liveKeys, mem_liveKeys, h]

end Store

namespace Api

/-- The first `m` pieces of length `p` are the beginning of a list. -/
theorem flatMap_pages (keys : List String) (p m : Nat) :
    ((List.range m).flatMap fun k => (keys.drop (k * p)).take p) = keys.take (m * p) := by
  induction m with
  | zero => simp
  | succ m ih =>
    rw [List.range_succ, List.flatMap_append, ih, List.flatMap_singleton, Nat.succ_mul,
      List.take_add]

variable {C : Codec} {P : NodeCall → Prop} {st : Store}

/-- Every live runner row is decoded, to a runner named as its key. -/
theorem ids_of_selectLive (hjson : C.LabelsReadBack) (h : st.Authentic C.toEnv P)
    (hread : ∀ c x, P c → x ∈ c.reports → C.ReadsBack x) {rs : List Row}
    (hrs : ∀ r ∈ rs, r ∈ st.selectLive C.toEnv kindRunner) :
    (rs.filterMap fun r => C.decodeRunner r.payload).map Runner.runnerID = rs.map Row.key := by
  induction rs with
  | nil => rfl
  | cons r rs ih =>
    obtain ⟨x, hmem, hkind, hlive, hx⟩ := mem_selectLive.mp (hrs r List.mem_cons_self)
    obtain ⟨y, hdec, hy, -⟩ := shown_of_mem hjson h hread hmem hkind hlive
    rw [hx] at hdec
    have hkey : y.runnerID = r.key := by rw [hy, ← hx]; rfl
    have htail := ih fun r hr => hrs r (List.mem_cons_of_mem _ hr)
    simp only [List.filterMap_cons, hdec, List.map_cons, hkey, htail]

/-- A page names a stretch of the listing. -/
theorem ids_handleRunners (hjson : C.LabelsReadBack) (h : st.Authentic C.toEnv P)
    (hread : ∀ c x, P c → x ∈ c.reports → C.ReadsBack x) {p : Nat} (hp : 0 < p) (o : Nat) :
    (handleRunners C st (some p) (some o)).map Runner.runnerID =
      ((st.liveKeys C.toEnv).drop o).take p := by
  have hpage : handleRunners C st (some p) (some o) =
      mergeMetaLabels C.toEnv st (listRunners C st p o) := by
    simp [handleRunners, parsePagination, Option.filter, hp]
  have hlist : st.list C.toEnv kindRunner p o =
      ((st.selectLive C.toEnv kindRunner).drop o).take p := by
    simp [Store.list, hp]
  have hids : Runner.runnerID ∘ mergeMetaLabelsOne C.toEnv st = Runner.runnerID := by
    funext y
    exact mergeMetaLabelsOne_runnerID C.toEnv st y
  rw [hpage, mergeMetaLabels, List.map_map, hids, listRunners, hlist,
    ids_of_selectLive hjson h hread fun r hr => List.mem_of_mem_drop (List.mem_of_mem_take hr),
    Store.liveKeys, List.map_take, List.map_drop]

/-- **All pages together**, each cut out of a table `st k` in which the same
runners are live. -/
theorem ids_pages (hjson : C.LabelsReadBack) {st : Nat → Store} {P : Nat → NodeCall → Prop}
    (h : ∀ k, (st k).Authentic C.toEnv (P k))
    (hread : ∀ k c x, P k c → x ∈ c.reports → C.ReadsBack x) {live : List String}
    (hlive : ∀ k key, (st k).Live C.toEnv key ↔ key ∈ live) {p m : Nat} (hp : 0 < p)
    (hm : live.length ≤ m * p) :
    ((List.range m).flatMap fun k => (handleRunners C (st k) (some p) (some (k * p : Nat))).map
      Runner.runnerID) = (st 0).liveKeys C.toEnv := by
  have hlen : ((st 0).liveKeys C.toEnv).length ≤ m * p := by
    have hsub : (st 0).liveKeys C.toEnv ⊆ live :=
      fun key hkey => (hlive 0 key).mp (Store.mem_liveKeys.mp hkey)
    have hnodup := (Store.sorted_liveKeys C.toEnv (st 0)).nodup
    exact (List.subperm_of_subset hnodup hsub).length_le.trans hm
  have hpage : ∀ k, (handleRunners C (st k) (some p) (some (k * p : Nat))).map Runner.runnerID =
      (((st 0).liveKeys C.toEnv).drop (k * p)).take p := by
    intro k
    rw [ids_handleRunners hjson (h k) (hread k) hp,
      Store.liveKeys_eq fun key => (hlive k key).trans (hlive 0 key).symm]
  simp only [hpage]
  rw [flatMap_pages, List.take_of_length_le hlen]

end Api

end Takl
