/-
# `Bench.ClientAccounts` — the accounting of a client summary

A summary row counts the values of its group as valid and takes the other counts
from the trials' first rows.  The two agree for trials that report every metric
or none.

    completedMetrics_of_not_cutShort    such a trial is complete, or reports nothing
    count_pointStatuses_iff             the statuses of a point's completed trials
    accounted_iff                       when the rows add up and hold values of
                                        complete trials only
-/
import PSVFSS.Bench.ClientSummary

namespace PSVFSS

open Tally

/-! ## Complete trials and trials cut short

A correct trial reports its metrics in order until one is missing or invalid.
The rows before that one are completed, and the file's first row need not
tell. -/

namespace ClientTrial

variable (t : ClientTrial)

/-- Every metric of the payload is there and valid. -/
def complete : Bool :=
  t.reported.any fun payload => METRICS.all payload.valid

/-- A correct payload whose first metric is valid and a later one is missing or
invalid. -/
def CutShort : Prop :=
  ∃ payload, t.reported = some payload ∧ payload.correct ∧
    payload.valid .senderSignalingGeneration ∧ ∃ metric, payload.valid metric = false

/-- The values in the trial's file for a row of the summary. -/
def valuesFor (key : PointKey) (metricName : Option Metric) : List Int :=
  (t.rows.filter fun row => row.status = .completed ∧ row.pointKey = key ∧
    row.metricName = metricName).filterMap fun row => row.value.parseInt

variable {t}

theorem CutShort.not_complete (h : t.CutShort) : t.complete = false := by
  obtain ⟨payload, hreported, -, -, metric, hmetric⟩ := h
  rw [complete, hreported]
  refine Bool.eq_false_iff.mpr fun hall => ?_
  exact Bool.false_ne_true (hmetric.symm.trans (List.all_eq_true.mp hall metric (mem_METRICS _)))

theorem CutShort.mem_completedMetrics (h : t.CutShort) :
    Metric.senderSignalingGeneration ∈ t.completedMetrics := by
  obtain ⟨payload, hreported, hcorrect, hfirst, -⟩ := h
  have hmetrics : t.completedMetrics = METRICS.takeWhile payload.valid := by
    rw [completedMetrics, hreported]
    exact if_pos hcorrect
  rw [hmetrics, METRICS, List.takeWhile_cons_of_pos hfirst]
  exact List.mem_cons_self ..

/-- What is not cut short reports every metric or none. -/
theorem completedMetrics_of_not_cutShort (h : ¬ t.CutShort) (hne : t.completedMetrics ≠ []) :
    t.completedMetrics = METRICS ∧ t.complete = true := by
  cases hreported : t.reported with
  | none => exact absurd (by rw [completedMetrics, hreported]; rfl) hne
  | some payload =>
      have hmetrics : t.completedMetrics = payload.completedMetrics := by
        rw [completedMetrics, hreported]
        rfl
      cases hcorrect : payload.correct with
      | false =>
          refine absurd ?_ hne
          rw [hmetrics, Payload.completedMetrics, if_neg (ne_true_of_eq_false hcorrect)]
      | true =>
          rw [Payload.completedMetrics, if_pos hcorrect] at hmetrics
          have hfirst : payload.valid .senderSignalingGeneration := by
            by_contra hfirst
            rw [hmetrics, METRICS, List.takeWhile_cons_of_neg hfirst] at hne
            exact hne rfl
          have hall : ∀ metric ∈ METRICS, payload.valid metric := by
            intro metric _
            by_contra hbad
            exact h ⟨payload, hreported, hcorrect, hfirst, metric, eq_false_of_ne_true hbad⟩
          refine ⟨hmetrics.trans (List.takeWhile_eq_self_iff.mpr hall), ?_⟩
          rw [complete, hreported]
          exact List.all_eq_true.mpr hall

theorem CutShort.adds (h : t.CutShort) :
    ofKey (t.pointKey, Metric.senderSignalingGeneration) t.entries ≠ [] := by
  have hmem : (t.pointKey, Metric.senderSignalingGeneration) ∈ t.entries.map Prod.fst := by
    rw [entries, List.map_map]
    exact List.mem_map.mpr ⟨_, h.mem_completedMetrics, rfl⟩
  obtain ⟨⟨_, v⟩, hentry, rfl⟩ := List.mem_map.mp hmem
  exact List.ne_nil_of_mem (mem_ofKey.mpr hentry)

theorem entries_of_not_complete (h : ¬ t.CutShort) (hcomplete : t.complete = false) :
    t.entries = [] := by
  have hnil : t.completedMetrics = [] := by
    by_contra hne
    have hwhole := (completedMetrics_of_not_cutShort h hne).2
    exact Bool.false_ne_true (hcomplete.symm.trans hwhole)
  rw [entries, hnil]
  rfl

/-- The values in a file are the trial's entries. -/
theorem valuesFor_some (h : ¬ t.Raises) (key : PointKey) (metric : Metric) :
    t.valuesFor key (some metric) = ofKey (key, metric) t.entries := by
  obtain ⟨row, rest, hrows, hrow, hvalue, hrest⟩ := t.rows_eq
  have hnone : rest.filter (fun row => row.status = .completed ∧ row.pointKey = key ∧
      row.metricName = some metric) = [] :=
    List.filter_eq_nil_iff.mpr fun row hmem hkeep => hrest row hmem (of_decide_eq_true hkeep).1
  rw [valuesFor, hrows, List.filter_append, hnone, List.append_nil, entries, ofKey_map,
    List.filter_map, List.filterMap_map]
  have hfilter : t.completedMetrics.filter ((fun row : Row => decide (row.status = .completed ∧
      row.pointKey = key ∧ row.metricName = some metric)) ∘ row)
      = t.completedMetrics.filter fun m => (t.pointKey, m) = (key, metric) := by
    refine List.filter_congr fun m hm => ?_
    rw [Function.comp_apply, (hrow m).1, (hrow m).2, (hvalue m hm).1.pointKey]
    simp
  rw [hfilter, ← List.filterMap_eq_map]
  refine List.filterMap_congr fun m hm => ?_
  have hm := List.mem_of_mem_filter hm
  obtain ⟨v, hv⟩ := Option.ne_none_iff_exists'.mp fun hnone => h ⟨m, hm, hnone⟩
  rw [Function.comp_apply, Function.comp_apply, (hvalue m hm).2, hv]
  rfl

theorem valuesFor_none (key : PointKey) : t.valuesFor key none = [] := by
  obtain ⟨row, rest, hrows, hrow, -, hrest⟩ := t.rows_eq
  rw [valuesFor, List.filterMap_eq_nil_iff]
  intro r hr
  obtain ⟨hmem, hkeep⟩ := List.mem_filter.mp hr
  obtain ⟨hstatus, -, hmetric⟩ := of_decide_eq_true hkeep
  rw [hrows] at hmem
  rcases List.mem_append.mp hmem with hmem | hmem
  · obtain ⟨m, -, rfl⟩ := List.mem_map.mp hmem
    rw [(hrow m).2] at hmetric
    cases hmetric
  · exact absurd hstatus (hrest r hmem)

/-- A trial that is not cut short adds a value to each metric of its point, if it
is completed. -/
theorem length_ofKey_entries (h : ¬ t.CutShort) (key : PointKey) (metric : Metric) :
    (ofKey (key, metric) t.entries).length
      = ((ofKey key [t.outcome]).map Prod.snd).countP (· = .completed) := by
  have hstatus := t.status_eq_completed
  rw [entries, ofKey_map, List.length_map]
  by_cases hnil : t.completedMetrics = []
  · have hnot : t.status ≠ .completed := fun hs => hstatus.mp hs hnil
    rw [hnil]
    by_cases hkey : t.pointKey = key <;> simp [ofKey, outcome, hkey, hnot]
  · rw [(completedMetrics_of_not_cutShort h hnil).1]
    by_cases hkey : t.pointKey = key
    · subst hkey
      have hone : (METRICS.filter (· = metric)).length = 1 := by
        cases metric <;> decide
      simp [hone, ofKey, outcome, hstatus.mpr hnil]
    · simp [ofKey, outcome, hkey]

end ClientTrial

/-! ## When the accounting adds up

The values are gathered by metric, the statuses by trial, and a later file of
the same trial overwrites a status but adds its values.  Both ways to part are
conditions on the trials. -/

/-- Every summary row written adds up, and its values are those of complete
trials. -/
def Accounted (runId : String) (trials : List ClientTrial) : Prop :=
  ∀ rows, writeSummary runId (filesOf trials) = some rows → ∀ row ∈ rows,
    row.attempted = row.valid + row.invalid + row.failed + row.timeout ∧
    row.values = ((counted runId trials).filter (·.complete)).flatMap
      (·.valuesFor row.pointKey row.metricName)

/-- No completed trial is written over by a later file of its scheme, point and
trial id. -/
def NoneWrittenOver (trials : List ClientTrial) : Prop :=
  trials.Pairwise fun t t' =>
    t.pointKey = t'.pointKey → t.trial = t'.trial → t.completedMetrics = []

theorem length_eq_counts (statuses : List Status) :
    statuses.length = statuses.count .completed + statuses.count .invalid
      + statuses.count .failed + statuses.count .timeout := by
  induction statuses with
  | nil => rfl
  | cons status statuses ih =>
      cases status <;>
        simp only [List.length_cons, List.count_cons, ih, beq_iff_eq, reduceCtorEq, if_true,
          if_false] <;> omega

/-- A row adds up when its group has a value for each completed trial. -/
theorem summaryRow_balanced {runId : String} {key : PointKey} {metricName : Option Metric}
    {statuses : List Status} {values : List Int} {stats : Option Statistics} :
    let row := summaryRow runId key metricName statuses values stats
    row.attempted = row.valid + row.invalid + row.failed + row.timeout
      ↔ statuses.count .completed = values.length := by
  have h := length_eq_counts statuses
  simp only [summaryRow]
  omega

section Law

variable {runId : String} {trials : List ClientTrial}

theorem pointValues_eq_flatMap (key : MetricKey) :
    pointValues runId trials key
      = (counted runId trials).flatMap fun t => ofKey key t.entries :=
  ofKey_flatMap ..

theorem pointOutcomes_eq_map (key : PointKey) :
    pointOutcomes runId trials key
      = ((counted runId trials).filter (·.pointKey = key)).map fun t => (t.trial, t.status) :=
  ofKey_map ..

theorem length_pointValues (h : ∀ t ∈ counted runId trials, ¬ t.CutShort) (key : PointKey)
    (metric : Metric) :
    (pointValues runId trials (key, metric)).length
      = ((pointOutcomes runId trials key).map Prod.snd).countP (· = .completed) := by
  rw [pointValues, pointOutcomes]
  generalize counted runId trials = l at h
  induction l with
  | nil => rfl
  | cons t l ih =>
      rw [List.flatMap_cons, ofKey_append, List.length_append, List.map_cons,
        ← List.singleton_append, ofKey_append, List.map_append, List.countP_append,
        ih fun t ht => h t (List.mem_cons_of_mem _ ht),
        ClientTrial.length_ofKey_entries (h t (List.mem_cons_self ..))]

/-- The completed trials of a point stand in its dictionary exactly when none is
written over. -/
theorem count_pointStatuses_iff (key : PointKey) :
    (pointStatuses runId trials key).count .completed
        = ((pointOutcomes runId trials key).map Prod.snd).countP (· = .completed)
      ↔ ((counted runId trials).filter (·.pointKey = key)).Pairwise fun t t' =>
          t.trial = t'.trial → t.completedMetrics = [] := by
  have hcount : (pointStatuses runId trials key).count .completed
      = (pointStatuses runId trials key).countP (· = .completed) :=
    List.countP_congr fun _ _ => by simp
  rw [hcount, pointStatuses, countP_record_iff, pointOutcomes_eq_map, List.pairwise_map]
  refine iff_of_eq (congrArg (List.Pairwise · _) (funext₂ fun t t' => propext ?_))
  rw [decide_eq_false_iff_not, t.status_eq_completed, ne_eq, not_not]

theorem noneWrittenOver_iff {l : List ClientTrial} :
    NoneWrittenOver l ↔ ∀ key, (l.filter (·.pointKey = key)).Pairwise fun t t' =>
      t.trial = t'.trial → t.completedMetrics = [] := by
  simp only [List.pairwise_filter, decide_eq_true_eq]
  simp only [NoneWrittenOver, List.pairwise_iff_forall_sublist]
  constructor
  · rintro h key t t' hsub rfl hkey htrial
    exact h hsub hkey.symm htrial
  · intro h t t' hsub hkey htrial
    exact h t.pointKey hsub rfl hkey.symm htrial

theorem pointValues_ne_nil {t : ClientTrial} {key : MetricKey} (ht : t ∈ counted runId trials)
    (h : ofKey key t.entries ≠ []) : pointValues runId trials key ≠ [] := by
  rw [pointValues_eq_flatMap]
  exact fun hnil => h (List.flatMap_eq_nil_iff.mp hnil t ht)

/-- The values of a group are those of complete trials when the others add none. -/
theorem pointValues_complete_iff (hreads : ∀ t ∈ counted runId trials, ¬ t.Raises)
    (key : PointKey) (metric : Metric) :
    pointValues runId trials (key, metric)
        = ((counted runId trials).filter (·.complete)).flatMap (·.valuesFor key (some metric))
      ↔ ∀ t ∈ counted runId trials, t.complete = false → ofKey (key, metric) t.entries = [] := by
  have hvalues : ((counted runId trials).filter (·.complete)).flatMap
        (·.valuesFor key (some metric))
      = ((counted runId trials).filter (·.complete)).flatMap
        fun t => ofKey (key, metric) t.entries :=
    List.flatMap_congr fun t ht =>
      ClientTrial.valuesFor_some (hreads t (List.mem_of_mem_filter ht)) key metric
  rw [hvalues, pointValues_eq_flatMap, flatMap_filter_eq_iff]

/-- The accounting, group by group. -/
theorem accounted_groups_iff (hreads : ∀ t ∈ counted runId trials, ¬ t.Raises) :
    Accounted runId trials ↔
      (∀ key metric, pointValues runId trials (key, metric) ≠ [] →
        (pointStatuses runId trials key).count .completed
            = (pointValues runId trials (key, metric)).length ∧
          ∀ t ∈ counted runId trials, t.complete = false →
            ofKey (key, metric) t.entries = []) ∧
      ∀ key, pointOutcomes runId trials key ≠ [] →
        (∀ metric, pointValues runId trials (key, metric) = []) →
          (pointStatuses runId trials key).count .completed = 0 := by
  obtain ⟨rows, hwrite, hrows⟩ := mem_writeSummary hreads
  constructor
  · intro h
    have hrow := fun row hrow => h rows hwrite row ((hrows row).mpr hrow)
    refine ⟨fun key metric hne => ?_, fun key hne hnone => ?_⟩
    · obtain ⟨hbalanced, hvalues⟩ := hrow _ (.inl ⟨(key, metric), hne, rfl⟩)
      exact ⟨summaryRow_balanced.mp hbalanced, (pointValues_complete_iff hreads _ _).mp hvalues⟩
    · exact summaryRow_balanced.mp (hrow _ (.inr ⟨key, hne, hnone, rfl⟩)).1
  · rintro ⟨hgroups, hpoints⟩ rows' hwrite' row hrow
    obtain rfl := Option.some.inj (hwrite.symm.trans hwrite')
    rcases (hrows row).mp hrow with ⟨⟨key, metric⟩, hne, rfl⟩ | ⟨key, hne, hnone, rfl⟩
    · obtain ⟨hcount, hincomplete⟩ := hgroups key metric hne
      exact ⟨summaryRow_balanced.mpr hcount,
        (pointValues_complete_iff hreads key metric).mpr hincomplete⟩
    · refine ⟨summaryRow_balanced.mpr (hpoints key hne hnone), ?_⟩
      exact (List.flatMap_eq_nil_iff.mpr fun t _ => ClientTrial.valuesFor_none key).symm

/-- Without a trial cut short, a point's dictionary counts the values of its first
metric when no completed trial is written over. -/
theorem count_eq_length_iff (hwhole : ∀ t ∈ counted runId trials, ¬ t.CutShort) (metric : Metric) :
    NoneWrittenOver (counted runId trials) ↔
      ∀ key, (pointStatuses runId trials key).count .completed
        = (pointValues runId trials (key, metric)).length := by
  rw [noneWrittenOver_iff]
  refine forall_congr' fun key => ?_
  rw [length_pointValues hwhole, count_pointStatuses_iff]

/-- Where nothing is completed, nothing counts as completed. -/
theorem count_pointStatuses_of_nil (hwhole : ∀ t ∈ counted runId trials, ¬ t.CutShort)
    {key : PointKey} {metric : Metric} (h : pointValues runId trials (key, metric) = []) :
    (pointStatuses runId trials key).count .completed = 0 := by
  have hle := countP_record_le (· = .completed) (pointOutcomes runId trials key)
  rw [← length_pointValues hwhole key metric, h, List.length_nil] at hle
  refine Nat.le_zero.mp (le_trans (le_of_eq ?_) hle)
  exact List.countP_congr fun _ _ => by simp

/-- The summary accounts for a run exactly when no file makes it raise, or no
counted trial is cut short and none that is completed is written over. -/
theorem accounted_iff (runId : String) (trials : List ClientTrial) :
    Accounted runId trials ↔
      (∃ t ∈ counted runId trials, t.Raises) ∨
      ((∀ t ∈ counted runId trials, ¬ t.CutShort) ∧ NoneWrittenOver (counted runId trials)) := by
  by_cases hraises : ∃ t ∈ counted runId trials, t.Raises
  · refine iff_of_true (fun rows hrows => ?_) (.inl hraises)
    rw [writeSummary_none hraises] at hrows
    cases hrows
  have hreads : ∀ t ∈ counted runId trials, ¬ t.Raises := fun t ht hr => hraises ⟨t, ht, hr⟩
  rw [or_iff_right hraises, accounted_groups_iff hreads]
  constructor
  · rintro ⟨hgroups, -⟩
    have hwhole : ∀ t ∈ counted runId trials, ¬ t.CutShort := by
      intro t ht hcut
      have hgroup := (hgroups _ _ (pointValues_ne_nil ht hcut.adds)).2
      exact hcut.adds (hgroup t ht hcut.not_complete)
    refine ⟨hwhole, (count_eq_length_iff hwhole .senderSignalingGeneration).mpr fun key => ?_⟩
    by_cases hne : pointValues runId trials (key, .senderSignalingGeneration) = []
    · rw [count_pointStatuses_of_nil hwhole hne, hne]
      rfl
    · exact (hgroups _ _ hne).1
  · rintro ⟨hwhole, hover⟩
    refine ⟨fun key metric _ => ⟨?_, fun t ht hincomplete => ?_⟩, fun key _ hnone => ?_⟩
    · exact (count_eq_length_iff hwhole metric).mp hover key
    · rw [ClientTrial.entries_of_not_complete (hwhole t ht) hincomplete]
      rfl
    · exact count_pointStatuses_of_nil hwhole (hnone .senderSignalingGeneration)

end Law

/-- Two measured FMD trials, the second without three of its metrics. -/
def cutShortRun : List ClientTrial :=
  let args : Args := ⟨"run", "client-side-smoke", .measured, "local-development", 16, 2, 1⟩
  let payload (metrics : List Metric) : Payload := fun key =>
    (("correctness", Json.bool true) :: metrics.map fun m => (m.name, .int 1000)).lookup key
  [⟨args, .fmd, 1, .exited 0 [.ok (.dict (payload METRICS))]⟩,
    ⟨args, .fmd, 2, .exited 0 [.ok (.dict (payload (METRICS.take 1)))]⟩]

/-- Of two trials one is valid for a metric and none is invalid, failed or timed
out. -/
theorem cutShortRun_not_accounted : ¬ Accounted "run" cutShortRun := by
  intro h
  have hcounts : (writeSummary "run" (filesOf cutShortRun)).map (·.map fun row =>
      (row.attempted, row.valid + row.invalid + row.failed + row.timeout))
      = some [(2, 1), (2, 1), (2, 2), (2, 1)] := by decide +kernel
  obtain ⟨rows, hwrite, hrows⟩ := Option.map_eq_some_iff.mp hcounts
  obtain ⟨row, hrow, hcount⟩ : ∃ row ∈ rows,
      (row.attempted, row.valid + row.invalid + row.failed + row.timeout) = (2, 1) :=
    List.mem_map.mp (hrows ▸ List.mem_cons_self ..)
  have hbalanced := (h rows hwrite row hrow).1
  rw [(Prod.mk.inj hcount).1, (Prod.mk.inj hcount).2] at hbalanced
  cases hbalanced

end PSVFSS
