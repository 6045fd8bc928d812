import Mathlib.Data.List.Sort
import Mathlib.Data.Rat.Defs
import Mathlib.Data.String.Basic
import Takl.Lib.KeyedTable
import Takl.Model.HLC

/-!
# Domain types (`internal/model`, and what the program takes from outside)

`Runner`, events and label maps as the source has them. A Go string type
whose values cross the wire (`RunnerStatus`, `EventType`) stays an open type
around its text, with the source's constants. Utilisations are exact
rationals.

`Env` collects what is not in the repository: how the SQLite driver reads a
zero-length blob, and `encoding/json` on the values the program gives it.
Everything below is stated for every `Env`; the two laws it carries say that
`json.Marshal` never returns an empty text.
-/

namespace Takl

/-- A byte slice's contents. A Go `[]byte` is an `Option Bytes`: `none` is
the nil slice, `some []` a non-nil empty one. -/
abbrev Bytes := List UInt8

/-- A non-nil `map[string]string`; a nil one is the `none` of `Option Labels`. -/
abbrev Labels := KeyedTable (Prod.fst : String × String → String)

/-- `for k, v := range incoming { existing[k] = v }`. -/
def Labels.setAll (existing incoming : Labels) : Labels :=
  incoming.rows.foldl KeyedTable.upsert existing

/-- `model.RunnerStatus`. -/
structure RunnerStatus where
  name : String
  deriving DecidableEq, Repr

namespace RunnerStatus

def active : RunnerStatus := ⟨"active"⟩
def draining : RunnerStatus := ⟨"draining"⟩

end RunnerStatus

/-- `model.Runner`. -/
structure Runner where
  runnerID : String
  hostname : String
  ip : String
  region : String
  version : String
  status : RunnerStatus
  lastHeartbeat : Int64
  cpuUtil : ℚ
  memUtil : ℚ
  freeDiskMB : Int64
  workerCapacity : Int64
  availableWorkers : Int64
  labels : Option Labels
  deriving DecidableEq

/-- `Runner.Key`. -/
def Runner.key (r : Runner) : String := r.runnerID

/-- `model.EventType`. -/
structure EventType where
  name : String
  deriving DecidableEq, Repr

namespace EventType

def runnerJoined : EventType := ⟨"RunnerJoined"⟩
def runnerLeft : EventType := ⟨"RunnerLeft"⟩

end EventType

/-- A decoded JSON value (Go's `any`). Numbers keep their text. -/
inductive JsonValue where
  | null
  | bool (b : Bool)
  | num (text : String)
  | str (s : String)
  | arr (xs : List JsonValue)
  | obj (fields : List (String × JsonValue))

/-- An event's `map[string]any`; `none` is the nil map. -/
abbrev EventPayload := Option (List (String × JsonValue))

/-- `model.Event`. -/
structure Event where
  seq : Int64
  type : EventType
  runnerID : String
  payload : EventPayload
  hlc : HLC

/-- The outside of the program: the SQLite driver and `encoding/json`. -/
structure Env where
  /-- The driver scans a zero-length blob into a nil slice (else into a
  non-nil empty one). -/
  emptyBlobNil : Bool
  /-- `json.Marshal` of a runner. -/
  encodeRunner : Runner → Bytes
  /-- `json.Marshal` of a label map; the nil map is `none`. -/
  encodeLabels : Option Labels → Bytes
  /-- `json.Unmarshal` of a payload into a label map that holds the first
  argument: the map afterwards, and whether the error was nil. -/
  decodeLabels : Option Labels → Option Bytes → Option Labels × Bool
  /-- `json.Marshal` of an event payload. -/
  encodePayload : EventPayload → String
  /-- `json.Unmarshal` into an event payload; `none` is an error. -/
  decodePayload : String → Option EventPayload
  encodeRunner_ne_nil : ∀ r, encodeRunner r ≠ []
  encodeLabels_ne_nil : ∀ l, encodeLabels l ≠ []

/-! ## A concrete environment

`Env.escapeFree` writes the texts `encoding/json` writes, and reads them
back, as long as no string needs an escape and no number a fraction. It is
what the concrete runs of the development are evaluated in. -/

namespace EscapeFree

def quote (s : String) : String := "\"" ++ s ++ "\""

def object (fields : List (String × String)) : String :=
  "\x7b" ++ ",".intercalate (fields.map fun f => quote f.1 ++ ":" ++ f.2) ++ "\x7d"

/-- `json.Marshal` writes map keys in increasing order. -/
def labelsText : Option Labels → String
  | none => "null"
  | some l => object ((l.rows.insertionSort fun a b => a.1 ≤ b.1).map fun e => (e.1, quote e.2))

def runnerText (r : Runner) : String :=
  object <|
    [("runner_id", quote r.runnerID), ("hostname", quote r.hostname), ("ip", quote r.ip),
      ("region", quote r.region), ("version", quote r.version), ("status", quote r.status.name),
      ("last_heartbeat", toString r.lastHeartbeat.toInt), ("cpu_util", toString r.cpuUtil),
      ("mem_util", toString r.memUtil), ("free_disk_mb", toString r.freeDiskMB.toInt),
      ("worker_capacity", toString r.workerCapacity.toInt),
      ("available_workers", toString r.availableWorkers.toInt)] ++
    -- `omitempty`
    match r.labels with
    | some l => if l.rows.isEmpty then [] else [("labels", labelsText (some l))]
    | none => []

def valueText : JsonValue → String
  | .null => "null"
  | .bool b => toString b
  | .num text => text
  | .str s => quote s
  | .arr _ | .obj _ => "null"

def payloadText : EventPayload → String
  | none => "null"
  | some fields =>
      object ((fields.insertionSort fun a b => a.1 ≤ b.1).map fun f => (f.1, valueText f.2))

def bytes (s : String) : Bytes := s.toUTF8.data.toList

/-- The texts between the first and second quote, the third and fourth, and
so on; `acc` collects the text of an open quote. -/
def quoted : Option (List Char) → List Char → List String
  | _, [] => []
  | none, c :: cs => if c = '"' then quoted (some []) cs else quoted none cs
  | some acc, c :: cs =>
      if c = '"' then String.ofList acc.reverse :: quoted none cs else quoted (some (c :: acc)) cs

def pairs : List String → List (String × String)
  | k :: v :: rest => (k, v) :: pairs rest
  | _ => []

def readLabels (start : Option Labels) : Option Bytes → Option Labels × Bool
  | none => (start, false)
  | some b =>
      match String.fromUTF8? ⟨b.toArray⟩ with
      | some text =>
          if text = "null" then (none, true)
          else (some ((pairs (quoted none text.toList)).foldl KeyedTable.upsert
            (start.getD .empty)), true)
      | none => (start, false)

def readPayload (text : String) : Option EventPayload :=
  if text = "null" then some none
  else some (some ((pairs (quoted none text.toList)).map fun f => (f.1, .str f.2)))

theorem bytes_ne_nil {s : String} (h : s ≠ "") : bytes s ≠ [] := by
  intro hc
  apply h
  rw [← String.toByteArray_inj]
  apply ByteArray.ext
  simpa [bytes] using hc

theorem object_ne_empty (fields : List (String × String)) : object fields ≠ "" := by
  simp [object]

end EscapeFree

open EscapeFree in
def Env.escapeFree : Env where
  emptyBlobNil := true
  encodeRunner r := bytes (runnerText r)
  encodeLabels l := bytes (labelsText l)
  decodeLabels := readLabels
  encodePayload := payloadText
  decodePayload := readPayload
  encodeRunner_ne_nil _ := bytes_ne_nil (object_ne_empty _)
  encodeLabels_ne_nil l := by
    cases l with
    | none => exact bytes_ne_nil (by decide)
    | some l => exact bytes_ne_nil (object_ne_empty _)

end Takl
