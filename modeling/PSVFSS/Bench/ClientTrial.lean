/-
# `Bench.ClientTrial` — one trial of the client benchmark

`run_client_v2.py` runs a scheme's benchmark once, reads the payload it prints
and writes the trial's file: one row for each metric, or one row that says why
there is none.

    payloadRows_eq             the completed rows are those of the metrics before the
                               first that is missing or invalid, if the run was correct
    ClientTrial.rows_cases     a file's rows come from a payload or name a failure
    ClientTrial.rows_eq        the file as its completed rows and the rest
    ClientTrial.rows_of        what every row says of the trial
    terminalCompleted_iff      which trials a resumed run skips
-/
import Mathlib.Data.List.TakeWhile
import PSVFSS.Bench.Json

namespace PSVFSS

/-! ## Payloads -/

/-- The object a benchmark prints: `payload.get`. -/
abbrev Payload := String → Option Json

/-- `payload.get(key, default)`. -/
def Payload.getD (payload : Payload) (key : String) (default : Json) : Json :=
  (payload key).getD default

/-- What `json.loads` makes of a printed line. -/
inductive Loaded
  | null
  | dict (payload : Payload)
  | other

/-! ## Arguments and rows

Schemes, metrics and statuses are enumerations, with the words of the source.
A row keeps the cells that are read again. -/

inductive Scheme
  | psvfss | fmd | ppsGc | omr
  deriving DecidableEq

def Scheme.upper : Scheme → String
  | psvfss => "PSVFSS"
  | fmd => "FMD"
  | ppsGc => "PPS-GC"
  | omr => "OMR"

inductive Metric
  | senderSignalingGeneration | senderSerialization | senderTotalOnline | recipientProcessing
  deriving DecidableEq

namespace Metric

def name : Metric → String
  | senderSignalingGeneration => "sender_signaling_generation_ns"
  | senderSerialization => "sender_serialization_ns"
  | senderTotalOnline => "sender_total_online_ns"
  | recipientProcessing => "recipient_processing_ns"

def operation (metric : Metric) : String :=
  (metric.name.dropSuffix "_ns").copy

end Metric

def METRICS : List Metric :=
  [.senderSignalingGeneration, .senderSerialization, .senderTotalOnline, .recipientProcessing]

theorem mem_METRICS (metric : Metric) : metric ∈ METRICS := by
  cases metric <;> decide

inductive TrialKind
  | calibration | warmup | measured
  deriving DecidableEq

structure Args where
  runId : String
  experimentId : String
  trialKind : TrialKind
  hostClass : String
  Ns : Int
  Nr : Int
  k : Int

def Args.point (args : Args) : String :=
  s!"Ns={args.Ns}_Nr={args.Nr}_k={args.k}"

inductive Status
  | completed | invalid | failed | timeout
  deriving DecidableEq

/-- A row of a trial's file, without the host's name and the time. `metricName`
is `none` for the empty cell; `value` is the value whose cell is written. -/
structure Row where
  runId : String
  experimentId : String
  parameterPointId : String
  trialId : Nat
  trialKind : TrialKind
  scheme : String
  phase : String
  protocolRole : String
  operation : String
  hostClass : String
  Ns : Int
  Nr : String
  actualK : String
  observedResultCount : String
  falsePositiveCount : String
  schemeSpecificParameters : String
  metricName : Option Metric
  value : Json
  unit : String
  status : Status
  correctness : String
  outputType : String
  errorClass : String

/-- `base_row`, with the cells `failure_rows` and `payload_rows` add still
empty. -/
def baseRow (args : Args) (scheme : Scheme) (trial : Nat) (status : Status)
    (correctness : Option Bool) (payload : Payload) (errorClass : Json) : Row where
  runId := args.runId
  experimentId := args.experimentId
  parameterPointId := args.point
  trialId := trial
  trialKind := args.trialKind
  scheme := (payload.getD "scheme" (.str scheme.upper)).cell
  phase := ""
  protocolRole := ""
  operation := ""
  hostClass := args.hostClass
  Ns := args.Ns
  Nr := (payload.getD "Nr" .null).cell
  actualK := (payload.getD "actual_k" (.int args.k)).cell
  observedResultCount := (payload.getD "observed_result_count" (.str "")).cell
  falsePositiveCount := (payload.getD "false_positive_count" (.str "")).cell
  schemeSpecificParameters := (payload.getD "scheme_specific_parameters" (.str "")).cell
  metricName := none
  value := .str ""
  unit := ""
  status := status
  correctness :=
    match correctness with
    | none => ""
    | some true => "true"
    | some false => "false"
  outputType := (payload.getD "output_type" (.str "")).cell
  errorClass := errorClass.cell

def failureRows (args : Args) (scheme : Scheme) (trial : Nat) (status : Status)
    (errorClass : String) : List Row :=
  [{ baseRow args scheme trial status none (fun _ => none) (.str errorClass) with
      phase := "client", operation := "trial", unit := "ns" }]

/-! ## `payload_rows`

The loop carries a status and a reason from metric to metric: one that is
missing or invalid spoils those after it, not those before. -/

/-- What the loop over the metrics carries. -/
structure Carried where
  status : Status
  correct : Bool
  errorClass : Json

namespace Payload

variable (payload : Payload)

def correct : Bool :=
  payload "correctness" = some (.bool true)

def valid (metric : Metric) : Bool :=
  (payload metric.name).any Json.nonnegInt

def carried : Carried where
  status := if payload.correct then .completed else .invalid
  correct := payload.correct
  errorClass := if payload.correct then .str "" else payload.getD "error_class" (.str "")

/-- A bad metric turns the trial invalid from here on; the first reason found
stays. -/
def afterMetric (c : Carried) (metric : Metric) : Carried :=
  if payload.valid metric then c
  else
    { status := .invalid, correct := false,
      errorClass :=
        if c.errorClass.truthy then c.errorClass
        else .str s!"missing_or_invalid_{metric.name}" }

end Payload

section Rows

variable (args : Args) (scheme : Scheme) (trial : Nat) (payload : Payload)

/-- The row of a metric, from what is carried once its value is checked. -/
def metricRow (c : Carried) (metric : Metric) : Row :=
  let sender := metric.name.startsWith "sender_"
  { baseRow args scheme trial c.status (some c.correct) payload c.errorClass with
    phase := if sender then "sending" else "retrieval"
    protocolRole := if sender then "sender" else "recipient"
    operation := metric.operation
    metricName := some metric
    value := if c.correct then payload.getD metric.name .null else .str ""
    unit := "ns" }

def metricRows : Carried → List Metric → List Row
  | _, [] => []
  | c, metric :: metrics =>
      let c := payload.afterMetric c metric
      metricRow args scheme trial payload c metric :: metricRows c metrics

def payloadRows : List Row :=
  metricRows args scheme trial payload payload.carried METRICS

end Rows

/-! ## `run_trial`

One file for each way a run can end: a timeout, an exception, a payload that
is missing or cannot be read, a payload.  An exit code other than 0 counts
only where every row would be completed. -/

/-- How the benchmark's process ended, with what `json.loads` makes of each
`[CLIENT_BENCH_JSON]` line it printed (an exception's class, if it raises);
`raised` is an exception of the run itself. -/
inductive Ran
  | exited (returncode : Int) (printed : List (Except String Loaded))
  | timedOut
  | raised (errorClass : String)

/-- The last line printed counts; a line that does not parse ends the loop. -/
def lastLoaded (printed : List (Except String Loaded)) : Except String Loaded :=
  printed.foldlM (fun _ line => line) .null

def runTrial (args : Args) (scheme : Scheme) (trial : Nat) : Ran → List Row
  | .timedOut => failureRows args scheme trial .timeout "trial_timeout"
  | .raised errorClass => failureRows args scheme trial .failed errorClass
  | .exited returncode printed =>
      match lastLoaded printed with
      | .error errorClass => failureRows args scheme trial .failed errorClass
      | .ok .null =>
          failureRows args scheme trial .failed s!"runner_exit_{returncode}_missing_payload"
      -- a payload that is no object has no `get`
      | .ok .other => failureRows args scheme trial .failed "AttributeError"
      | .ok (.dict payload) =>
          let rows := payloadRows args scheme trial payload
          if returncode ≠ 0 ∧ rows.all (·.status = .completed) then
            failureRows args scheme trial .failed s!"runner_exit_{returncode}"
          else rows

/-- `terminal_completed` of a file that holds `rows`. -/
def terminalCompleted (rows : List Row) : Bool :=
  !rows.isEmpty && rows.all (·.status = .completed)

/-! ## What the rows hold

The completed rows come first.  They are those of an initial segment of the
metrics, all of them or none when the run was incorrect. -/

/-- The metrics whose value is reported: those before the first missing or
invalid one, if the run was correct. -/
def Payload.completedMetrics (payload : Payload) : List Metric :=
  if payload.correct then METRICS.takeWhile payload.valid else []

section Rows

variable {args : Args} {scheme : Scheme} {trial : Nat} {payload : Payload}

theorem afterMetric_valid {metric : Metric} (h : payload.valid metric) (c : Carried) :
    payload.afterMetric c metric = c :=
  if_pos h

theorem afterMetric_invalid {metric : Metric} (h : payload.valid metric = false) (c : Carried) :
    (payload.afterMetric c metric).status = .invalid := by
  rw [Payload.afterMetric, if_neg (ne_true_of_eq_false h)]

/-- Once invalid, the rest is invalid. -/
theorem metricRows_invalid {metrics : List Metric} : ∀ {c : Carried}, c.status = .invalid →
    ∀ row ∈ metricRows args scheme trial payload c metrics, row.status = .invalid := by
  induction metrics with
  | nil => intro _ _ _ h; cases h
  | cons metric metrics ih =>
      intro c hc row hrow
      have hafter : (payload.afterMetric c metric).status = .invalid := by
        cases hvalid : payload.valid metric with
        | true => rw [afterMetric_valid hvalid, hc]
        | false => exact afterMetric_invalid hvalid c
      rcases List.mem_cons.mp hrow with rfl | hrow
      · exact hafter
      · exact ih hafter row hrow

/-- The rows carry what they started with up to the first bad metric. -/
theorem metricRows_eq (c : Carried) (metrics : List Metric) :
    ∃ rest, metricRows args scheme trial payload c metrics
        = (metrics.takeWhile payload.valid).map (metricRow args scheme trial payload c) ++ rest ∧
      ∀ row ∈ rest, row.status = .invalid := by
  induction metrics with
  | nil => exact ⟨[], rfl, List.forall_mem_nil _⟩
  | cons metric metrics ih =>
      cases hvalid : payload.valid metric with
      | true =>
          obtain ⟨rest, hrows, hrest⟩ := ih
          refine ⟨rest, ?_, hrest⟩
          rw [List.takeWhile_cons_of_pos hvalid, metricRows, afterMetric_valid hvalid, hrows]
          rfl
      | false =>
          refine ⟨metricRows args scheme trial payload c (metric :: metrics), ?_,
            fun row hrow => ?_⟩
          · rw [List.takeWhile_cons_of_neg (ne_true_of_eq_false hvalid)]
            rfl
          · rcases List.mem_cons.mp hrow with rfl | hrow
            · exact afterMetric_invalid hvalid c
            · exact metricRows_invalid (afterMetric_invalid hvalid c) row hrow

theorem exists_metricRow {row : Row} {metrics : List Metric} : ∀ {c : Carried},
    row ∈ metricRows args scheme trial payload c metrics →
      ∃ c metric, row = metricRow args scheme trial payload c metric := by
  induction metrics with
  | nil => intro _ h; cases h
  | cons metric metrics ih =>
      intro c hrow
      rcases List.mem_cons.mp hrow with rfl | hrow
      · exact ⟨_, _, rfl⟩
      · exact ih hrow

theorem length_metricRows (c : Carried) (metrics : List Metric) :
    (metricRows args scheme trial payload c metrics).length = metrics.length := by
  induction metrics generalizing c with
  | nil => rfl
  | cons metric metrics ih => exact congrArg (· + 1) (ih _)

theorem carried_correct (h : payload.correct) : payload.carried = ⟨.completed, true, .str ""⟩ := by
  rw [Payload.carried, if_pos h, if_pos h, h]

theorem carried_incorrect (h : payload.correct = false) : payload.carried.status = .invalid := by
  rw [Payload.carried, h]
  rfl

/-- The completed rows, and after them the invalid ones. -/
theorem payloadRows_eq :
    ∃ rest, payloadRows args scheme trial payload
        = payload.completedMetrics.map
            (metricRow args scheme trial payload ⟨.completed, true, .str ""⟩) ++ rest ∧
      ∀ row ∈ rest, row.status = .invalid := by
  cases hcorrect : payload.correct with
  | true =>
      rw [payloadRows, Payload.completedMetrics, if_pos hcorrect, carried_correct hcorrect]
      exact metricRows_eq _ _
  | false =>
      rw [Payload.completedMetrics, if_neg (ne_true_of_eq_false hcorrect)]
      exact ⟨payloadRows args scheme trial payload, rfl,
        metricRows_invalid (carried_incorrect hcorrect)⟩

/-- Every row is completed exactly when the run was correct and every metric is
valid. -/
theorem payloadRows_all_completed :
    (payloadRows args scheme trial payload).all (·.status = .completed)
      ↔ payload.correct ∧ METRICS.all payload.valid := by
  obtain ⟨rest, hrows, hrest⟩ :=
    @payloadRows_eq args scheme trial payload
  have hlength : payload.completedMetrics.length + rest.length = METRICS.length := by
    rw [← @length_metricRows args scheme trial payload payload.carried METRICS]
    rw [payloadRows] at hrows
    rw [hrows, List.length_append, List.length_map]
  constructor
  · intro hall
    have hnil : rest = [] := by
      refine List.eq_nil_iff_forall_not_mem.mpr fun row hrow => ?_
      have hcompleted := List.all_eq_true.mp hall row (hrows ▸ List.mem_append_right _ hrow)
      rw [hrest row hrow] at hcompleted
      cases hcompleted
    rw [hnil, List.length_nil, Nat.add_zero, Payload.completedMetrics] at hlength
    cases hcorrect : payload.correct with
    | false =>
        rw [hcorrect] at hlength
        cases hlength
    | true =>
        rw [if_pos hcorrect] at hlength
        refine ⟨rfl, List.all_eq_true.mpr fun metric hmetric => ?_⟩
        rw [← (List.takeWhile_prefix _).eq_of_length hlength] at hmetric
        exact List.mem_takeWhile_imp hmetric
  · rintro ⟨hcorrect, hvalid⟩
    have htake : payload.completedMetrics = METRICS := by
      rw [Payload.completedMetrics, if_pos hcorrect, List.takeWhile_eq_self_iff]
      exact List.all_eq_true.mp hvalid
    rw [htake] at hrows hlength
    have hnil : rest = [] := List.length_eq_zero_iff.mp (by omega)
    rw [hrows, hnil, List.append_nil, List.all_map]
    exact List.all_eq_true.mpr fun _ _ => rfl

end Rows

/-! ## A trial and its file

A trial's arguments and outcome, from which its file is computed.  What every
row repeats is proved once for all of them. -/

structure ClientTrial where
  args : Args
  scheme : Scheme
  trial : Nat
  ran : Ran

namespace ClientTrial

variable (t : ClientTrial)

def rows : List Row :=
  runTrial t.args t.scheme t.trial t.ran

/-- The payload the rows are made from: none if the run failed, also when it
failed with a complete payload. -/
def reported : Option Payload :=
  match t.ran with
  | .exited returncode printed =>
      match lastLoaded printed with
      | .ok (.dict payload) =>
          if returncode ≠ 0 ∧ payload.correct ∧ METRICS.all payload.valid then none
          else some payload
      | _ => none
  | _ => none

def completedMetrics : List Metric :=
  t.reported.elim [] Payload.completedMetrics

/-- The scheme cell of the rows. -/
def schemeCell : String :=
  t.reported.elim t.scheme.upper fun payload =>
    (payload.getD "scheme" (.str t.scheme.upper)).cell

/-- The rows come from the payload, or there is one that names a failure. -/
theorem rows_cases :
    (∃ payload, t.reported = some payload ∧
      t.rows = payloadRows t.args t.scheme t.trial payload) ∨
    (t.reported = none ∧ ∃ status errorClass, status ≠ .completed ∧
      t.rows = failureRows t.args t.scheme t.trial status errorClass) := by
  obtain ⟨args, scheme, trial, ran⟩ := t
  cases ran with
  | timedOut => exact .inr ⟨rfl, .timeout, _, nofun, rfl⟩
  | raised errorClass => exact .inr ⟨rfl, .failed, _, nofun, rfl⟩
  | exited returncode printed =>
      simp only [reported, rows, runTrial]
      cases lastLoaded printed with
      | error errorClass => exact .inr ⟨rfl, .failed, _, nofun, rfl⟩
      | ok loaded =>
          cases loaded with
          | null => exact .inr ⟨rfl, .failed, _, nofun, rfl⟩
          | other => exact .inr ⟨rfl, .failed, _, nofun, rfl⟩
          | dict payload =>
              simp only [payloadRows_all_completed]
              by_cases h : returncode ≠ 0 ∧ payload.correct ∧ METRICS.all payload.valid
              · rw [if_pos h, if_pos h]
                exact .inr ⟨rfl, .failed, _, nofun, rfl⟩
              · rw [if_neg h, if_neg h]
                exact .inl ⟨payload, rfl, rfl⟩

/-- The value whose cell a completed row holds. -/
def value (metric : Metric) : Json :=
  t.reported.elim .null fun payload => payload.getD metric.name .null

/-- What every row says of the trial. -/
structure Of (row : Row) : Prop where
  runId : row.runId = t.args.runId
  trialKind : row.trialKind = t.args.trialKind
  scheme : row.scheme = t.schemeCell
  point : row.parameterPointId = t.args.point
  trialId : row.trialId = t.trial

theorem rows_of : ∀ row ∈ t.rows, t.Of row := by
  intro row hrow
  rcases t.rows_cases with ⟨payload, hreported, hrows⟩ | ⟨hreported, _, _, _, hrows⟩
  · rw [hrows] at hrow
    obtain ⟨_, _, rfl⟩ := exists_metricRow hrow
    exact ⟨rfl, rfl, by rw [schemeCell, hreported]; rfl, rfl, rfl⟩
  · rw [hrows] at hrow
    obtain rfl := List.mem_singleton.mp hrow
    exact ⟨rfl, rfl, by rw [schemeCell, hreported]; rfl, rfl, rfl⟩

theorem rows_ne_nil : t.rows ≠ [] := by
  intro hnil
  rcases t.rows_cases with ⟨payload, _, hrows⟩ | ⟨_, _, _, _, hrows⟩
  · cases hrows.symm.trans hnil
  · cases hrows.symm.trans hnil

/-- The file: its completed rows, with their metrics and values, then rows that
are not completed. -/
theorem rows_eq :
    ∃ (row : Metric → Row) (rest : List Row),
      t.rows = t.completedMetrics.map row ++ rest ∧
      (∀ metric, (row metric).status = .completed ∧ (row metric).metricName = some metric) ∧
      (∀ metric ∈ t.completedMetrics, t.Of (row metric) ∧ (row metric).value = t.value metric) ∧
      ∀ row ∈ rest, row.status ≠ .completed := by
  rcases t.rows_cases with ⟨payload, hreported, hrows⟩ | ⟨hreported, status, _, hstatus, hrows⟩
  · obtain ⟨rest, hpayload, hrest⟩ := @payloadRows_eq t.args t.scheme t.trial payload
    have hsplit : t.rows = t.completedMetrics.map
        (metricRow t.args t.scheme t.trial payload ⟨.completed, true, .str ""⟩) ++ rest := by
      rw [hrows, hpayload, completedMetrics, hreported]
      rfl
    refine ⟨_, rest, hsplit, fun metric => ⟨rfl, rfl⟩, fun metric hmetric => ⟨?_, ?_⟩,
      fun row hrow => ?_⟩
    · refine t.rows_of _ ?_
      rw [hsplit]
      exact List.mem_append_left _ (List.mem_map_of_mem hmetric)
    · rw [value, hreported]
      rfl
    · rw [hrest row hrow]
      exact nofun
  · have hnil : t.completedMetrics = [] := by
      rw [completedMetrics, hreported]
      rfl
    refine ⟨metricRow t.args t.scheme t.trial (fun _ => none) ⟨.completed, true, .str ""⟩, t.rows,
      ?_, fun metric => ⟨rfl, rfl⟩, fun metric hmetric => ?_, fun row hrow => ?_⟩
    · rw [hnil]
      rfl
    · rw [hnil] at hmetric
      cases hmetric
    · rw [hrows] at hrow
      obtain rfl := List.mem_singleton.mp hrow
      exact hstatus

/-- A resumed run skips the trials that report every metric. -/
theorem terminalCompleted_iff : terminalCompleted t.rows ↔ t.completedMetrics = METRICS := by
  have hne : t.rows.isEmpty = false := List.isEmpty_eq_false_iff.mpr t.rows_ne_nil
  rw [terminalCompleted, hne, Bool.not_false, Bool.true_and]
  rcases t.rows_cases with ⟨payload, hreported, hrows⟩ | ⟨hreported, status, _, hstatus, hrows⟩
  · rw [hrows, payloadRows_all_completed, completedMetrics, hreported]
    cases hcorrect : payload.correct with
    | false =>
        have hnone : payload.completedMetrics = [] := if_neg (ne_true_of_eq_false hcorrect)
        rw [Option.elim_some, hnone]
        exact iff_of_false (fun h => Bool.false_ne_true h.1) (List.cons_ne_nil _ _ ∘ Eq.symm)
    | true =>
        have htake : payload.completedMetrics = METRICS.takeWhile payload.valid := if_pos hcorrect
        rw [Option.elim_some, htake, List.takeWhile_eq_self_iff, List.all_eq_true]
        exact and_iff_right rfl
  · rw [hrows, completedMetrics, hreported]
    exact iff_of_false (fun h => hstatus (of_decide_eq_true (List.all_eq_true.mp h _
      (List.mem_singleton_self _)))) (List.cons_ne_nil _ _ ∘ Eq.symm)

end ClientTrial

end PSVFSS
