/-
# `Bench.Campaign` — the pilot campaign runner

`main` of `run_campaign.py` works through the tasks of a manifest, appends a row
to the raw file for each and records it in the runner's state, from which a
restarted `main` goes on.  Each file write is a step of its own; how a benchmark
ends is an answer of the environment.
-/
import PSVFSS.Bench.Json
import PSVFSS.Lib.Restart

namespace PSVFSS

open Restart

/-! ## Tasks and rows

Rows are dictionaries, and the key of a task is spelled from the fields of its
row.  A result that overwrites one of those makes the row another task's. -/

/-- A `dict`: the first binding of a key counts, so `update` puts its bindings in
front. -/
abbrev Fields := List (String × Json)

/-- `d.get(key, default)`. -/
def Fields.getD (fields : Fields) (key : String) (default : Json) : Json :=
  (fields.lookup key).getD default

def NS : List Int := [256, 512, 1024, 2048, 4096]

def K : Int := 4

structure Task where
  scheme : String
  N : Int
  kActual : Int
  trialType : String
  trialIndex : Int
  measurementMode : String
  binarySha256 : String
  deriving DecidableEq

def Task.fields (task : Task) : Fields :=
  [("scheme", .str task.scheme), ("N", .int task.N), ("k_actual", .int task.kActual),
    ("trial_type", .str task.trialType), ("trial_index", .int task.trialIndex),
    ("measurement_mode", .str task.measurementMode),
    ("binary_sha256", .str task.binarySha256)]

/-- The fields of `task_key`. -/
def keyFields : List String :=
  ["scheme", "N", "k_actual", "trial_type", "trial_index", "measurement_mode", "binary_sha256"]

/-- The key of a task, or of the task a row is of. -/
def taskKey (task : Fields) : String :=
  "|".intercalate (keyFields.map fun x => (task.getD x .null).pyStr)

def measurementStatus (row : Fields) : String :=
  (row.getD "measurement_status" .null).pyStr

/-! ## The files

The runner's state on disk.  A JSON file is rewritten as a whole, the raw
files grow by a line. -/

/-- The digests of the four binaries. -/
structure Hashes where
  psvfss : String
  ppsGc : String
  fmd : String
  omr : String
  deriving DecidableEq

def Hashes.of (hashes : Hashes) : String → String
  | "PSVFSS" => hashes.psvfss
  | "PPS-GC" => hashes.ppsGc
  | "FMD" => hashes.fmd
  | _ => hashes.omr

structure Manifest where
  binarySha256 : Hashes
  tasks : List Task

def createManifest (hashes : Hashes) : Manifest where
  binarySha256 := hashes
  tasks := ["FMD", "PSVFSS", "OMR", "PPS-GC"].flatMap fun scheme => NS.flatMap fun n =>
    let mode :=
      match scheme with
      | "PSVFSS" => "component_composed_pilot"
      | "OMR" => "reduced_parameter_pilot"
      | _ => "end_to_end_pilot"
    let common (trialType : String) (idx : Int) : Task :=
      ⟨scheme, n, K, trialType, idx, mode, hashes.of scheme⟩
    common "warmup" 0 :: [0, 1, 2].map (common "measured")

inductive Heartbeat
  | trial (taskKey : String) (elapsedSeconds : Nat)
  | complete

/-- `completed` is a `dict` from task keys to statuses. -/
structure RunnerState where
  status : String
  completed : List (String × String)
  current : Option Task
  heartbeat : Option Heartbeat

def RunnerState.has (state : RunnerState) (key : String) : Bool :=
  (state.completed.lookup key).isSome

def RunnerState.complete (state : RunnerState) (key status : String) : RunnerState :=
  { state with completed := (key, status) :: state.completed }

/-- A line of the summary, without the medians and extremes of its measures. -/
structure SummaryLine where
  scheme : String
  N : Int
  nPhysical : Int
  kActual : Int
  trialCount : Nat
  measurementStatus : String
  timeoutSeconds : Option Int
  latencyLowerBoundMs : Option Int
  quality : Json
  correctness : Json

/-- The files `main` reads and writes. -/
structure Disk where
  manifest : Option Manifest
  state : Option RunnerState
  raw : List Fields
  timeouts : List Fields
  heartbeat : Option Heartbeat
  summary : List SummaryLine

/-! ## `run_attempt`

The processes themselves are the environment's: it is asked how a trial ended
and at which times a heartbeat was due.  What the runner makes of the answer
is its own code. -/

/-- How the processes of an attempt end: `raised` is an exception on the way, also
one of reading what they printed. -/
inductive Ended
  | raised
  | timeout
  | exited (exitCodes : List Int) (parsed : List (Option Fields))

/-- What the environment makes of a trial: the times at which a heartbeat is due,
and how it ends. -/
structure Trial where
  heartbeats : List Nat
  ended : Ended

/-- What the environment is asked to run: an attempt of a task of the manifest, or
the response-only trial that follows a timeout. -/
inductive Question
  | attempt (task : Task)
  | responseOnly (task : Task)

/-- The logs of `commands`; `none` where it raises, for a scheme without a binary
and for PSVFSS at an `N` without a port. -/
def commands (task : Task) (attempt : Nat) : Option (List String) :=
  let name := task.scheme.toLower.replace "-" ""
  let stem := s!"logs/{name}_N{task.N}_{task.trialType}{task.trialIndex}_a{attempt}"
  match task.scheme with
  | "PSVFSS" => if task.N ∈ NS then some [stem ++ "_alice.log", stem ++ "_bob.log"] else none
  | "FMD" | "PPS-GC" | "OMR" => some [stem ++ ".log"]
  | _ => none

inductive Attempted
  | timeout (logs : List String)
  | ok (logs : List String) (result : Fields)
  | error (logs : List String)

def conditionalN (n : Int) : Bool :=
  n = 2048 || n = 4096

def logicalN (row : Fields) : Option Int :=
  (row.getD "N_logical" (row.getD "N" (.int (-1)))).pyInt

def summaryGroups : List (String × Int) :=
  ["PSVFSS", "PPS-GC", "FMD", "OMR"].flatMap fun scheme => NS.map (scheme, ·)

/-- The groups read a row: `int` does not raise on what it gives for its `N`, or it
is of another scheme. -/
def summarized (row : Fields) : Bool :=
  ((logicalN row).isSome ∧ (row.getD "N" (.int (-1))).pyInt.isSome) ∨
    ∀ group ∈ summaryGroups, row.lookup "scheme" ≠ some (.str group.1)

end PSVFSS
