import Takl.Api.Handlers
import Takl.Store.Checksum

/-!
# Aggregates, and what an answer depends on (`internal/api`)

`GET /cluster`, the gauges of `GET /metrics` and `GET /summary`, and all
reading endpoints as one function `read` of a request.

`Store.List` sorts by key and a kind has one row per key, so the order of a
listing does not depend on the order of the table: two stores with the same
rows answer every request in the same way (`read_congr`).
-/

namespace Takl

namespace Api

/-! ## Sums over the active runners -/

/-- The variables of the loops in `handleCluster` and `handleMetrics`. -/
structure Tally where
  active : Nat
  capacity : Int64
  available : Int64
  cpuUtil : ℚ
  memUtil : ℚ
  deriving DecidableEq

namespace Tally

def zero : Tally := ⟨0, 0, 0, 0, 0⟩

/-- The body of the loop. -/
def add (t : Tally) (r : Runner) : Tally :=
  if r.status = .active then
    { active := t.active + 1
      capacity := t.capacity + r.workerCapacity
      available := t.available + r.availableWorkers
      cpuUtil := t.cpuUtil + r.cpuUtil
      memUtil := t.memUtil + r.memUtil }
  else t

def of (rs : List Runner) : Tally := rs.foldl add zero

end Tally

/-- `handleCluster`. The sums are replaced by averages in place. -/
def handleCluster (C : Codec) (st : Store) : Tally :=
  let t := Tally.of (listRunners C st (-1) 0)
  if t.active > 0 then
    { t with cpuUtil := t.cpuUtil / t.active, memUtil := t.memUtil / t.active }
  else t

/-- The gauges `handleMetrics` writes. -/
structure Gauges where
  runners : Nat
  active : Nat
  capacity : Int64
  available : Int64
  deriving DecidableEq, Repr

/-- The part of `handleMetrics` that reads the store. -/
def handleMetrics (C : Codec) (st : Store) : Gauges :=
  let rs := listRunners C st (-1) 0
  let t := Tally.of rs
  { runners := rs.length, active := t.active, capacity := t.capacity, available := t.available }

/-- `handleSummary`: the node's id and the labelled runners. -/
def handleSummary (C : Codec) (st : Store) (nodeID : String) : String × List Runner :=
  (nodeID, mergeMetaLabels C.toEnv st (listRunners C st (-1) 0))

/-! ## Every reading request -/

/-- The requests answered from the rows. -/
inductive ReadRequest where
  | runners (limit offset : Option Int)
  | runner (id : String)
  | labels (id : String)
  | best (region : String) (labels : List String)
  | summary
  | cluster
  | metrics

inductive ReadAnswer where
  | runners (rs : List Runner)
  | runner (r : Except ApiError Runner)
  | labels (l : Except ApiError Labels)
  | best (rs : Except ApiError (List Runner × Bool))
  | summary (nodeID : String) (rs : List Runner)
  | cluster (t : Tally)
  | metrics (g : Gauges)

/-- What node `nodeID` answers from the store `st`. -/
def read (C : Codec) (nodeID : String) (st : Store) : ReadRequest → ReadAnswer
  | .runners limit offset => .runners (handleRunners C st limit offset)
  | .runner id => .runner (handleRunner C st id)
  | .labels id => .labels (handleGetLabels C st id)
  | .best region labels => .best (handleBestRunner C st region labels)
  | .summary => .summary (handleSummary C st nodeID).1 (handleSummary C st nodeID).2
  | .cluster => .cluster (handleCluster C st)
  | .metrics => .metrics (handleMetrics C st)

/-- The answer without the node that gave it. -/
def ReadAnswer.anonymous : ReadAnswer → ReadAnswer
  | .summary _ rs => .summary "" rs
  | a => a

end Api

/-! ## Listings do not depend on the order of the table -/

namespace Store

/-- The same rows, in whatever order. -/
def SameRows (st st' : Store) : Prop := ∀ r, r ∈ st.rows ↔ r ∈ st'.rows

variable {E : Env} {st st' : Store}

theorem SameRows.get_eq (h : st.SameRows st') (kind : Kind) (key : String) :
    st.get E kind key = st'.get E kind key := by
  rw [get, get, KeyedTable.get_eq_of_mem_iff h (kind, key)]

/-- One row per key: the order by key is an order of the rows of a kind. -/
theorem eq_of_key_le {kind : Kind} {a b : Row} (ha : a ∈ liveRows st.rows kind)
    (hb : b ∈ liveRows st.rows kind) (hab : a.key ≤ b.key) (hba : b.key ≤ a.key) : a = b := by
  obtain ⟨ha, hka, -⟩ := mem_liveRows.mp ha
  obtain ⟨hb, hkb, -⟩ := mem_liveRows.mp hb
  exact KeyedTable.eq_of_key_eq ha hb (Row.id_eq.mpr ⟨hka.trans hkb.symm, le_antisymm hab hba⟩)

theorem sorted_selectLive (st : Store) (kind : Kind) :
    ((liveRows st.rows kind).insertionSort fun a b => a.key ≤ b.key).Pairwise
      fun a b => a.key ≤ b.key := by
  have : Std.Total fun a b : Row => a.key ≤ b.key := ⟨fun a b => le_total a.key b.key⟩
  have : IsTrans Row fun a b => a.key ≤ b.key := ⟨fun _ _ _ => le_trans⟩
  exact List.pairwise_insertionSort _ _

theorem SameRows.selectLive_eq (h : st.SameRows st') (kind : Kind) :
    st.selectLive E kind = st'.selectLive E kind := by
  have hperm : (liveRows st.rows kind).Perm (liveRows st'.rows kind) := by
    rw [List.perm_ext_iff_of_nodup (nodup_liveRows _ _) (nodup_liveRows _ _)]
    intro r
    rw [mem_liveRows, mem_liveRows, h r]
  have hsort : (liveRows st.rows kind).insertionSort (fun a b => a.key ≤ b.key) =
      (liveRows st'.rows kind).insertionSort fun a b => a.key ≤ b.key := by
    refine List.Perm.eq_of_pairwise (fun a b ha hb => ?_) (sorted_selectLive st kind)
      (sorted_selectLive st' kind)
      ((List.perm_insertionSort _ _).trans (hperm.trans (List.perm_insertionSort _ _).symm))
    have hb := hperm.mem_iff.mpr ((List.perm_insertionSort _ _).mem_iff.mp hb)
    exact eq_of_key_le ((List.perm_insertionSort _ _).mem_iff.mp ha) hb
  rw [selectLive, selectLive, hsort]

theorem SameRows.list_eq (h : st.SameRows st') (kind : Kind) (limit offset : Int) :
    st.list E kind limit offset = st'.list E kind limit offset := by
  simp only [list, h.selectLive_eq]

theorem SameRows.extraLabels_eq (h : st.SameRows st') (id : String) :
    st.extraLabels E id = st'.extraLabels E id := by
  simp only [extraLabels, h.get_eq]

end Store

namespace Api

variable {C : Codec} {st st' : Store}

theorem mergeMetaLabels_congr (h : st.SameRows st') (rs : List Runner) :
    mergeMetaLabels C.toEnv st rs = mergeMetaLabels C.toEnv st' rs := by
  have hone : mergeMetaLabelsOne C.toEnv st = mergeMetaLabelsOne C.toEnv st' := by
    funext r
    simp only [mergeMetaLabelsOne, h.extraLabels_eq]
  rw [mergeMetaLabels, mergeMetaLabels, hone]

theorem listRunners_congr (h : st.SameRows st') (limit offset : Int) :
    listRunners C st limit offset = listRunners C st' limit offset := by
  rw [listRunners, listRunners, h.list_eq]

/-- **An answer depends on the rows only.** -/
theorem read_congr (h : st.SameRows st') (nodeID nodeID' : String) (q : ReadRequest) :
    (read C nodeID st q).anonymous = (read C nodeID' st' q).anonymous := by
  have hlist := listRunners_congr (C := C) h
  have hmerge := mergeMetaLabels_congr (C := C) h
  cases q with
  | runners limit offset => simp only [read, handleRunners, hlist, hmerge]
  | runner id => simp only [read, handleRunner, h.get_eq, mergeMetaLabelsOne, h.extraLabels_eq]
  | labels id => simp only [read, handleGetLabels, h.get_eq, h.extraLabels_eq]
  | best region labels => simp only [read, handleBestRunner, hlist, hmerge]
  | summary => simp only [read, handleSummary, hlist, hmerge, ReadAnswer.anonymous]
  | cluster => simp only [read, handleCluster, hlist]
  | metrics => simp only [read, handleMetrics, hlist]

end Api

end Takl
