/-
# `Bench.ClientSummary` — the summary of a client run

`write_summary` of `run_client_v2.py` reads the files of a run back, groups the
values of the completed rows by scheme, point and metric and the trials' statuses
by scheme and point, and writes one row for each group.

    readFiles_eq         what it has gathered once every file is read
    mem_writeSummary     the rows it writes

The floating-point columns are left out, and with them that `mean / 1e6` raises
for an integer that no float holds.
-/
import Mathlib.Data.List.Sort
import Mathlib.Data.Rat.Defs
import PSVFSS.Bench.ClientTrial
import PSVFSS.Lib.Tally

namespace PSVFSS

open Tally

/-! ## `write_summary`

The two dictionaries are filled row by row.  The statistics are those without
a square root. -/

/-- `int(row["value"])`, for the cell a completed row leaves: that of a `bool`
does not parse. -/
def Json.parseInt : Json → Option Int
  | .int n => some n
  | _ => none

/-- `scheme`, `parameter_point_id`. -/
abbrev PointKey := String × String

/-- `scheme`, `parameter_point_id`, `metric_name`. -/
abbrev MetricKey := PointKey × Metric

def PointKey.le (a b : PointKey) : Prop :=
  a.1 < b.1 ∨ a.1 = b.1 ∧ a.2 ≤ b.2

instance : DecidableRel PointKey.le := fun a b =>
  inferInstanceAs (Decidable (a.1 < b.1 ∨ a.1 = b.1 ∧ a.2 ≤ b.2))

def MetricKey.le (a b : MetricKey) : Prop :=
  (a.1 ≠ b.1 ∧ PointKey.le a.1 b.1) ∨ a.1 = b.1 ∧ a.2.name ≤ b.2.name

instance : DecidableRel MetricKey.le := fun a b =>
  inferInstanceAs (Decidable ((a.1 ≠ b.1 ∧ PointKey.le a.1 b.1) ∨ a.1 = b.1 ∧ a.2.name ≤ b.2.name))

abbrev Grouped := AList fun _ : MetricKey => List Int

/-- The status of each trial of a point, by its `trial_id`. -/
abbrev Outcomes := AList fun _ : PointKey => AList fun _ : Nat => Status

structure Gathered where
  grouped : Grouped
  outcomes : Outcomes

def Row.pointKey (row : Row) : PointKey := (row.scheme, row.parameterPointId)

def addValue : Grouped → MetricKey → Int → Grouped :=
  update (fun values value => values ++ [value]) []

def addOutcome : Outcomes → PointKey → Nat × Status → Outcomes :=
  update (fun trials trial => trials.insert trial.1 trial.2) ∅

def readRow (grouped : Grouped) (row : Row) : Option Grouped :=
  if row.status = .completed then
    match row.metricName with
    | none => some grouped
    | some metric => row.value.parseInt.map (addValue grouped (row.pointKey, metric))
  else some grouped

def readFile (runId : String) (gathered : Gathered) (rows : List Row) : Option Gathered :=
  match rows with
  | [] => some gathered
  | first :: _ =>
      if first.runId ≠ runId ∨ first.trialKind ≠ .measured then some gathered
      else
        (rows.foldlM readRow gathered.grouped).map fun grouped =>
          { grouped := grouped
            outcomes := addOutcome gathered.outcomes first.pointKey (first.trialId, first.status) }

/-- The values of a group in nanoseconds, without what takes a square root. -/
structure Statistics where
  mean : ℚ
  median : ℚ
  min : ℚ
  max : ℚ

def median (values : List Int) : ℚ :=
  let sorted := values.insertionSort (· ≤ ·)
  let n := sorted.length
  if n % 2 = 1 then Rat.ofInt (sorted.getD (n / 2) 0)
  else mkRat (sorted.getD (n / 2 - 1) 0 + sorted.getD (n / 2) 0) 2

def statistics (values : List Int) : Statistics where
  mean := mkRat (values.foldl (· + ·) 0) values.length
  median := median values
  min := Rat.ofInt (values.min?.getD 0)
  max := Rat.ofInt (values.max?.getD 0)

/-- A summary row, with the values its statistics are taken over. -/
structure SummaryRow where
  runId : String
  pointKey : PointKey
  metricName : Option Metric
  attempted : Nat
  valid : Nat
  invalid : Nat
  failed : Nat
  timeout : Nat
  values : List Int
  statistics : Option Statistics

def summaryRow (runId : String) (key : PointKey) (metricName : Option Metric)
    (statuses : List Status) (values : List Int) (stats : Option Statistics) : SummaryRow where
  runId := runId
  pointKey := key
  metricName := metricName
  attempted := statuses.length
  valid := values.length
  invalid := statuses.count .invalid
  failed := statuses.count .failed
  timeout := statuses.count .timeout
  values := values
  statistics := stats

namespace Gathered

variable (runId : String) (gathered : Gathered)

def statuses (key : PointKey) : List Status :=
  values ((gathered.outcomes.lookup key).getD ∅)

/-- The rows of the groups, then those of the points that have none. -/
def summaryRows : List SummaryRow :=
  let groups := gathered.grouped.entries.insertionSort fun a b => MetricKey.le a.1 b.1
  let points := gathered.outcomes.entries.insertionSort fun a b => PointKey.le a.1 b.1
  groups.map (fun g =>
      summaryRow runId g.1.1 (some g.1.2) (gathered.statuses g.1.1) g.2 (some (statistics g.2))) ++
    (points.filter fun p => ∀ g ∈ groups, g.1.1 ≠ p.1).map fun p =>
      summaryRow runId p.1 none (values p.2) [] none

end Gathered

/-- The rows of the summary; `none` where `int` raises and there is none. -/
def writeSummary (runId : String) (files : List (List Row)) : Option (List SummaryRow) :=
  (files.foldlM (readFile runId) ⟨∅, ∅⟩).map (Gathered.summaryRows runId)

/-! ## What a trial adds

A file adds the values of its completed rows and one status, that of its first
row.  A value that does not parse ends everything, and this is known from the
trial. -/

namespace ClientTrial

variable (t : ClientTrial)

def pointKey : PointKey := (t.schemeCell, t.args.point)

variable {t} in
theorem Of.pointKey {row : Row} (h : t.Of row) : row.pointKey = t.pointKey :=
  Prod.ext h.scheme h.point

/-- The trials `write_summary` looks at. -/
def Counted (runId : String) : Prop :=
  t.args.runId = runId ∧ t.args.trialKind = .measured

instance (runId : String) : Decidable (t.Counted runId) :=
  inferInstanceAs (Decidable (_ ∧ _))

/-- A metric is completed with a value `int` does not read back: `True` or
`False`. -/
def Raises : Prop :=
  ∃ metric ∈ t.completedMetrics, (t.value metric).parseInt = none

/-- The status `write_summary` takes for the trial. -/
def status : Status :=
  (t.rows.head t.rows_ne_nil).status

def outcome : PointKey × (Nat × Status) :=
  (t.pointKey, (t.trial, t.status))

def entries : List (MetricKey × Int) :=
  t.completedMetrics.map fun metric =>
    ((t.pointKey, metric), (t.value metric).parseInt.getD 0)

theorem status_eq_completed : t.status = .completed ↔ t.completedMetrics ≠ [] := by
  obtain ⟨row, rest, hrows, hrow, _, hrest⟩ := t.rows_eq
  have hhead : ∀ first, t.rows.head? = some first → t.status = first.status := by
    intro first hfirst
    rw [List.head?_eq_some_head t.rows_ne_nil] at hfirst
    rw [status, Option.some.inj hfirst]
  cases hmetrics : t.completedMetrics with
  | nil =>
      rw [hmetrics, List.map_nil, List.nil_append] at hrows
      have hmem : t.rows.head t.rows_ne_nil ∈ rest := hrows ▸ List.head_mem _
      exact iff_of_false (hrest _ hmem) (· rfl)
  | cons metric metrics =>
      rw [hmetrics] at hrows
      refine iff_of_true ?_ (List.cons_ne_nil _ _)
      rw [hhead (row metric) (by rw [hrows]; rfl)]
      exact (hrow metric).1

end ClientTrial

theorem readRow_completed {row : Row} {metric : Metric} (hstatus : row.status = .completed)
    (hmetric : row.metricName = some metric) (grouped : Grouped) :
    readRow grouped row = row.value.parseInt.map (addValue grouped (row.pointKey, metric)) := by
  rw [readRow, if_pos hstatus, hmetric]

theorem readRow_other {row : Row} (hstatus : row.status ≠ .completed) (grouped : Grouped) :
    readRow grouped row = some grouped :=
  if_neg hstatus

theorem foldlM_readRow_other {rows : List Row} (h : ∀ row ∈ rows, row.status ≠ .completed)
    (grouped : Grouped) : rows.foldlM readRow grouped = some grouped := by
  induction rows with
  | nil => rfl
  | cons row rows ih =>
      rw [List.foldlM_cons, readRow_other (h row (List.mem_cons_self ..))]
      exact ih fun row hrow => h row (List.mem_cons_of_mem _ hrow)

/-- Completed rows of one trial: the first value that does not parse ends the
reading. -/
theorem foldlM_readRow_map {key : PointKey} {value : Metric → Json} {row : Metric → Row}
    {metrics : List Metric}
    (hrow : ∀ metric, (row metric).status = .completed ∧ (row metric).metricName = some metric)
    (hvalue : ∀ metric ∈ metrics,
      (row metric).pointKey = key ∧ (row metric).value = value metric) :
    ∀ grouped : Grouped,
      ((∃ metric ∈ metrics, (value metric).parseInt = none) →
        (metrics.map row).foldlM readRow grouped = none) ∧
      ((∀ metric ∈ metrics, (value metric).parseInt ≠ none) →
        (metrics.map row).foldlM readRow grouped
          = some (tally (fun values value => values ++ [value]) [] grouped
              (metrics.map fun metric => ((key, metric), (value metric).parseInt.getD 0)))) := by
  induction metrics with
  | nil => exact fun _ => ⟨fun ⟨_, h, _⟩ => absurd h List.not_mem_nil, fun _ => rfl⟩
  | cons metric metrics ih =>
      intro grouped
      obtain ⟨hkey, hval⟩ := hvalue metric (List.mem_cons_self ..)
      have hfirst := readRow_completed (hrow metric).1 (hrow metric).2 grouped
      rw [hkey, hval] at hfirst
      have ih := ih fun metric hmetric => hvalue metric (List.mem_cons_of_mem _ hmetric)
      rw [List.map_cons, List.foldlM_cons, hfirst]
      cases hparse : (value metric).parseInt with
      | none =>
          refine ⟨fun _ => rfl, fun h => absurd hparse (h metric (List.mem_cons_self ..))⟩
      | some v =>
          obtain ⟨ihnone, ihsome⟩ := ih (addValue grouped (key, metric) v)
          constructor
          · rintro ⟨metric', hmem, hnone⟩
            rcases List.mem_cons.mp hmem with rfl | hmem
            · cases hparse.symm.trans hnone
            · exact ihnone ⟨metric', hmem, hnone⟩
          · intro h
            refine (ihsome fun metric hmetric => h metric (List.mem_cons_of_mem _ hmetric)).trans ?_
            rw [List.map_cons, hparse]
            rfl

namespace ClientTrial

variable (t : ClientTrial)

theorem readRows (grouped : Grouped) :
    (t.Raises → t.rows.foldlM readRow grouped = none) ∧
    (¬ t.Raises → t.rows.foldlM readRow grouped
      = some (tally (fun values value => values ++ [value]) [] grouped t.entries)) := by
  obtain ⟨row, rest, hrows, hrow, hvalue, hrest⟩ := t.rows_eq
  have hof : ∀ metric ∈ t.completedMetrics,
      (row metric).pointKey = t.pointKey ∧ (row metric).value = t.value metric :=
    fun metric hmetric => ⟨(hvalue metric hmetric).1.pointKey, (hvalue metric hmetric).2⟩
  obtain ⟨hnone, hsome⟩ := foldlM_readRow_map hrow hof grouped
  rw [hrows, List.foldlM_append]
  constructor
  · intro h
    rw [hnone h]
    rfl
  · intro h
    rw [hsome fun metric hmetric hparse => h ⟨metric, hmetric, hparse⟩]
    exact foldlM_readRow_other hrest _

theorem readFile_eq (runId : String) (gathered : Gathered) :
    (¬ t.Counted runId → readFile runId gathered t.rows = some gathered) ∧
    (t.Counted runId → t.Raises → readFile runId gathered t.rows = none) ∧
    (t.Counted runId → ¬ t.Raises → readFile runId gathered t.rows
      = some
        { grouped := tally (fun values value => values ++ [value]) [] gathered.grouped t.entries
          outcomes := addOutcome gathered.outcomes t.pointKey (t.trial, t.status) }) := by
  obtain ⟨hraise, hread⟩ := t.readRows gathered.grouped
  have hof := t.rows_of _ (List.head_mem t.rows_ne_nil)
  have hstatus : t.status = (t.rows.head t.rows_ne_nil).status := rfl
  generalize hne : t.rows_ne_nil = hnil at hof hstatus
  clear hne
  generalize t.rows = rows at *
  cases rows with
  | nil => exact absurd rfl hnil
  | cons first rest =>
      rw [List.head_cons] at hof hstatus
      have hskip : (first.runId ≠ runId ∨ first.trialKind ≠ .measured) ↔ ¬ t.Counted runId := by
        rw [hof.runId, hof.trialKind, Counted]
        tauto
      rw [readFile]
      refine ⟨fun h => if_pos (hskip.mpr h), fun h hr => ?_, fun h hr => ?_⟩
      · rw [if_neg (fun hs => hskip.mp hs h), hraise hr]
        rfl
      · rw [if_neg (fun hs => hskip.mp hs h), hread hr, hof.pointKey, hof.trialId, ← hstatus]
        rfl

end ClientTrial

/-! ## What every file adds

The files that are counted, in order, as one list of entries for either
dictionary. -/

def counted (runId : String) (trials : List ClientTrial) : List ClientTrial :=
  trials.filter (·.Counted runId)

theorem counted_cons {runId : String} {t : ClientTrial} (h : t.Counted runId)
    (trials : List ClientTrial) : counted runId (t :: trials) = t :: counted runId trials :=
  List.filter_cons_of_pos (decide_eq_true h)

theorem counted_skip {runId : String} {t : ClientTrial} (h : ¬ t.Counted runId)
    (trials : List ClientTrial) : counted runId (t :: trials) = counted runId trials :=
  List.filter_cons_of_neg (mt of_decide_eq_true h)

def filesOf (trials : List ClientTrial) : List (List Row) :=
  trials.map ClientTrial.rows

theorem readFiles_none {runId : String} {trials : List ClientTrial}
    (h : ∃ t ∈ counted runId trials, t.Raises) :
    ∀ gathered, (filesOf trials).foldlM (readFile runId) gathered = none := by
  induction trials with
  | nil => exact absurd h (by rintro ⟨_, h, _⟩; cases h)
  | cons t trials ih =>
      intro gathered
      obtain ⟨hskip, hraise, hread⟩ := t.readFile_eq runId gathered
      rw [filesOf, List.map_cons, List.foldlM_cons]
      by_cases hcounted : t.Counted runId
      · by_cases hr : t.Raises
        · rw [hraise hcounted hr]
          rfl
        · rw [hread hcounted hr]
          obtain ⟨t', ht', hr'⟩ := h
          rw [counted_cons hcounted] at ht'
          rcases List.mem_cons.mp ht' with rfl | ht'
          · exact absurd hr' hr
          · exact ih ⟨t', ht', hr'⟩ _
      · rw [hskip hcounted]
        rw [counted_skip hcounted] at h
        exact ih h gathered

theorem readFiles_eq {runId : String} {trials : List ClientTrial}
    (h : ∀ t ∈ counted runId trials, ¬ t.Raises) :
    ∀ gathered, (filesOf trials).foldlM (readFile runId) gathered = some
      { grouped := tally (fun values value => values ++ [value]) [] gathered.grouped
          ((counted runId trials).flatMap ClientTrial.entries)
        outcomes := tally (fun trials trial => trials.insert trial.1 trial.2) ∅ gathered.outcomes
          ((counted runId trials).map ClientTrial.outcome) } := by
  induction trials with
  | nil => exact fun _ => rfl
  | cons t trials ih =>
      intro gathered
      obtain ⟨hskip, -, hread⟩ := t.readFile_eq runId gathered
      rw [filesOf, List.map_cons, List.foldlM_cons]
      by_cases hcounted : t.Counted runId
      · rw [counted_cons hcounted] at h ⊢
        rw [hread hcounted (h t (List.mem_cons_self ..))]
        refine (ih (fun t ht => h t (List.mem_cons_of_mem _ ht)) _).trans ?_
        rw [List.flatMap_cons, tally_append]
        rfl
      · rw [counted_skip hcounted] at h ⊢
        rw [hskip hcounted]
        exact ih h gathered

/-! ## The rows of a summary

A row for each metric with a value and each point without one; what it holds
is told by the trials of its group. -/

section Rows

variable {runId : String} {trials : List ClientTrial}

/-- The values gathered for a metric of a point. -/
def pointValues (runId : String) (trials : List ClientTrial) (key : MetricKey) : List Int :=
  ofKey key ((counted runId trials).flatMap ClientTrial.entries)

/-- The outcomes gathered for a point, in the order of the files. -/
def pointOutcomes (runId : String) (trials : List ClientTrial) (key : PointKey) :
    List (Nat × Status) :=
  ofKey key ((counted runId trials).map ClientTrial.outcome)

/-- The statuses left when a trial's last file stands. -/
def pointStatuses (runId : String) (trials : List ClientTrial) (key : PointKey) : List Status :=
  values (record ∅ (pointOutcomes runId trials key))

theorem writeSummary_none (h : ∃ t ∈ counted runId trials, t.Raises) :
    writeSummary runId (filesOf trials) = none := by
  rw [writeSummary, readFiles_none h]
  rfl

/-- A row is that of a metric with a value, or of a point with a trial and no
value. -/
theorem mem_writeSummary (h : ∀ t ∈ counted runId trials, ¬ t.Raises) :
    ∃ rows, writeSummary runId (filesOf trials) = some rows ∧ ∀ row, row ∈ rows ↔
      (∃ key : MetricKey, pointValues runId trials key ≠ [] ∧
        row = summaryRow runId key.1 (some key.2) (pointStatuses runId trials key.1)
          (pointValues runId trials key) (some (statistics (pointValues runId trials key)))) ∨
      (∃ key : PointKey, pointOutcomes runId trials key ≠ [] ∧
        (∀ metric, pointValues runId trials (key, metric) = []) ∧
        row = summaryRow runId key none (pointStatuses runId trials key) [] none) := by
  refine ⟨_, by rw [writeSummary, readFiles_eq h]; rfl, fun row => ?_⟩
  -- the two dictionaries, key by key
  have hgrouped : ∀ (key : MetricKey) (vs : List Int),
      (⟨key, vs⟩ : Sigma fun _ : MetricKey => List Int) ∈ (tally
          (fun values value => values ++ [value]) [] (∅ : Grouped)
          ((counted runId trials).flatMap ClientTrial.entries)).entries
        ↔ pointValues runId trials key ≠ [] ∧ pointValues runId trials key = vs := by
    intro key vs
    rw [← AList.mem_lookup_iff, lookup_tally, foldl_append_singleton, List.nil_append]
    simp only [Option.mem_def, Option.ite_none_left_eq_some, Option.some.injEq]
    rfl
  have houtcomes : ∀ (key : PointKey) (d : AList fun _ : Nat => Status),
      (⟨key, d⟩ : Sigma fun _ : PointKey => AList fun _ : Nat => Status) ∈ (tally
          (fun trials trial => trials.insert trial.1 trial.2) ∅ (∅ : Outcomes)
          ((counted runId trials).map ClientTrial.outcome)).entries
        ↔ pointOutcomes runId trials key ≠ [] ∧ record ∅ (pointOutcomes runId trials key) = d := by
    intro key d
    rw [← AList.mem_lookup_iff, lookup_tally]
    simp only [Option.mem_def, Option.ite_none_left_eq_some, Option.some.injEq]
    rfl
  have hstatuses : ∀ key : PointKey, values (((tally
          (fun trials trial => trials.insert trial.1 trial.2) ∅ (∅ : Outcomes)
          ((counted runId trials).map ClientTrial.outcome)).lookup key).getD ∅)
        = pointStatuses runId trials key := by
    intro key
    rw [lookup_tally_getD]
    rfl
  simp only [Gathered.summaryRows, Gathered.statuses, List.mem_append, List.mem_map,
    List.mem_filter, List.mem_insertionSort, decide_eq_true_eq, hstatuses]
  constructor
  · rintro (⟨⟨key, vs⟩, hg, rfl⟩ | ⟨⟨key, d⟩, ⟨hp, hnone⟩, rfl⟩)
    · obtain ⟨hne, rfl⟩ := (hgrouped key vs).mp hg
      exact .inl ⟨key, hne, rfl⟩
    · obtain ⟨hne, rfl⟩ := (houtcomes key d).mp hp
      refine .inr ⟨key, hne, fun metric => ?_, rfl⟩
      by_contra hvalues
      exact hnone _ ((hgrouped (key, metric) _).mpr ⟨hvalues, rfl⟩) rfl
  · rintro (⟨key, hne, rfl⟩ | ⟨key, hne, hnone, rfl⟩)
    · exact .inl ⟨⟨key, _⟩, (hgrouped key _).mpr ⟨hne, rfl⟩, rfl⟩
    · refine .inr ⟨⟨key, _⟩, ⟨(houtcomes key _).mpr ⟨hne, rfl⟩, ?_⟩, rfl⟩
      rintro ⟨⟨key', metric⟩, vs⟩ hg rfl
      exact ((hgrouped _ vs).mp hg).1 (hnone metric)

end Rows

end PSVFSS
