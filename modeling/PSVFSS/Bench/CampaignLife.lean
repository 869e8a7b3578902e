/-
# `Bench.CampaignLife` — one life of the campaign runner

A life of `main` appends one row for each task it completes and records the task
right after.  Between the two writes the row is pending: it is in the raw file and
not in the state.

    Progress               the rows and the state while a life goes on
    ensures_main           what a life keeps, and what holds when it returns
-/
import Mathlib.Data.List.Nodup
import PSVFSS.Bench.CampaignRows

namespace PSVFSS

open Restart

/-! ## The progress of a life

What a killed `main` leaves is told by the key that is `pending`: the one whose row
is in the raw file while the state does not know of it.  The other fields say what
a life never does: it forgets no status, records no task that is to be skipped,
removes no row, and notes a timeout only where a trial timed out.
-/

def hasKey (completed : List (String × String)) (key : String) : Prop :=
  (completed.lookup key).isSome

instance (completed : List (String × String)) (key : String) : Decidable (hasKey completed key) :=
  inferInstanceAs (Decidable (_ = true))

theorem hasKey_cons {completed : List (String × String)} {key status k : String} :
    hasKey ((key, status) :: completed) k ↔ k = key ∨ hasKey completed k := by
  rw [hasKey, hasKey, List.lookup_cons]
  by_cases h : k = key
  · rw [beq_iff_eq.mpr h]
    exact iff_of_true rfl (.inl h)
  · rw [beq_eq_false_iff_ne.mpr h]
    exact (or_iff_right h).symm

theorem not_hasKey {completed : List (String × String)} {key : String} :
    ¬ hasKey completed key ↔ (completed.lookup key).isNone := by
  rw [hasKey, ← Option.not_isSome, Bool.not_eq_true', Bool.not_eq_true]

/-- A new key leaves the others' statuses as they are. -/
theorem lookup_cons_of_ne {completed : List (String × String)} {key status k : String}
    (h : k ≠ key) : ((key, status) :: completed).lookup k = completed.lookup k := by
  rw [List.lookup_cons, beq_eq_false_iff_ne.mpr h]

theorem lookup_cons_self {completed : List (String × String)} {key status : String} :
    ((key, status) :: completed).lookup key = some status := by
  rw [List.lookup_cons, beq_self_eq_true]

namespace Disk

/-- What the state file says is completed. -/
def completed (disk : Disk) : List (String × String) :=
  disk.state.elim [] RunnerState.completed

/-- The rows of a task. -/
def rowsOf (disk : Disk) (key : String) : Nat :=
  (disk.raw.map taskKey).count key

/-- The manifest `main` works through. -/
def manifestFor (disk : Disk) (hashes : Hashes) : Manifest :=
  match disk.manifest with
  | some manifest => if manifest.binarySha256 ≠ hashes then createManifest hashes else manifest
  | none => createManifest hashes

end Disk

/-- A row of a task of the manifest, or of a response-only trial. -/
def Ours (answers : Question → Trial → Prop) (manifest : Manifest) (row : Fields) : Prop :=
  ∃ task, (task ∈ manifest.tasks ∨ task.trialType = "response_only") ∧ RowFor answers task row

/-- No skip waits for the key, and it stands for no warm-up that tasks wait for if
it is recorded as timed out. -/
structure Recordable (answers : Question → Trial → Prop) (manifest : Manifest)
    (completed : List (String × String)) (key status : String) : Prop where
  unskipped : ∀ task ∈ manifest.tasks, SkipDue completed task → taskKey task.fields ≠ key
  timely : (∀ q trial, answers q trial → Timely manifest q trial) → status = "timeout" →
    ∀ task ∈ manifest.tasks, task.Conditional → taskKey task.warm.fields ≠ key

/-- No two tasks of the manifest have one key. -/
def Manifest.DistinctKeys (manifest : Manifest) : Prop :=
  (manifest.tasks.map fun task => taskKey task.fields).Nodup

section Life

variable (answers : Question → Trial → Prop) (hashes : Hashes) (first : Disk)

/-- Where a life that started on `first` has got: it has added a row for each key
it has recorded, and one for the key that is `pending`. -/
structure Progress (pending : Option String) (disk : Disk) : Prop where
  manifest : disk.manifestFor hashes = first.manifestFor hashes
  rows : ∀ key, disk.rowsOf key = first.rowsOf key
    + (if hasKey disk.completed key ∧ ¬ hasKey first.completed key then 1 else 0)
    + (if pending = some key then 1 else 0)
  recorded : ∀ key, hasKey first.completed key →
    disk.completed.lookup key = first.completed.lookup key
  unrecorded : ∀ key, pending = some key → ¬ hasKey disk.completed key
  unskipped : ∀ task ∈ (first.manifestFor hashes).tasks, SkipDue first.completed task →
    ¬ hasKey disk.completed (taskKey task.fields)
  timely : (∀ q trial, answers q trial → Timely (first.manifestFor hashes) q trial) →
    ∀ task ∈ (first.manifestFor hashes).tasks, task.Conditional →
      disk.completed.lookup (taskKey task.warm.fields) = some "timeout" →
      first.completed.lookup (taskKey task.warm.fields) = some "timeout"
  kept : ∀ row ∈ first.raw, row ∈ disk.raw
  ours : ∀ row ∈ disk.raw, row ∈ first.raw ∨ Ours answers (first.manifestFor hashes) row

/-- Where it can be killed. -/
def Anywhere (disk : Disk) : Prop := ∃ pending, Progress answers hashes first pending disk

variable {answers hashes first}

theorem Progress.remains {pending : Option String} {disk : Disk}
    (h : Progress answers hashes first pending disk) {key : String}
    (hkey : hasKey first.completed key) : hasKey disk.completed key := by
  rw [hasKey, h.recorded key hkey]
  exact hkey

theorem Progress.start : Progress answers hashes first none first where
  manifest := rfl
  rows key := by
    have h : ¬ (hasKey first.completed key ∧ ¬ hasKey first.completed key) :=
      fun h => h.2 h.1
    simp [h]
  recorded _ _ := rfl
  unrecorded _ := nofun
  unskipped _ _ hskip := not_hasKey.mpr hskip.2.1
  timely _ _ _ _ := id
  kept _ := id
  ours _ := .inl

/-- Writes to the other files, and of a state that records the same. -/
theorem Progress.frame {pending : Option String} {disk disk' : Disk}
    (h : Progress answers hashes first pending disk)
    (hmanifest : disk'.manifestFor hashes = disk.manifestFor hashes)
    (hcompleted : disk'.completed = disk.completed) (hraw : disk'.raw = disk.raw) :
    Progress answers hashes first pending disk' where
  manifest := hmanifest.trans h.manifest
  rows := by
    rw [hcompleted]
    intro key
    rw [Disk.rowsOf, hraw]
    exact h.rows key
  recorded := hcompleted ▸ h.recorded
  unrecorded := hcompleted ▸ h.unrecorded
  unskipped := hcompleted ▸ h.unskipped
  timely := hcompleted ▸ h.timely
  kept := hraw ▸ h.kept
  ours := hraw ▸ h.ours

/-- A row is appended. -/
theorem Progress.append {disk : Disk} {task : Task} {row : Fields}
    (h : Progress answers hashes first none disk) (hrow : RowFor answers task row)
    (hours : task ∈ (first.manifestFor hashes).tasks ∨ task.trialType = "response_only")
    (hnew : ¬ hasKey disk.completed (taskKey task.fields)) :
    Progress answers hashes first (some (taskKey task.fields))
      { disk with raw := disk.raw ++ [row] } where
  manifest := h.manifest
  rows key := by
    have hcount : ({ disk with raw := disk.raw ++ [row] } : Disk).rowsOf key
        = disk.rowsOf key + if taskKey task.fields = key then 1 else 0 := by
      rw [Disk.rowsOf, List.map_append, List.count_append, List.map_singleton,
        hrow.isRowOf.taskKey, List.count_singleton]
      simp only [beq_iff_eq]
      rfl
    simp only [hcount, h.rows key, Option.some.injEq, reduceCtorEq, if_false, Nat.add_zero]
    rfl
  recorded := h.recorded
  unrecorded key hkey := by
    obtain rfl := Option.some.inj hkey
    exact hnew
  unskipped := h.unskipped
  timely := h.timely
  kept r hr := List.mem_append_left _ (h.kept r hr)
  ours r hr := by
    rcases List.mem_append.mp hr with hr | hr
    · exact h.ours r hr
    · obtain rfl := List.mem_singleton.mp hr
      exact .inr ⟨task, hours, hrow⟩

/-- The pending row is recorded. -/
theorem Progress.record {disk : Disk} {key status : String} {state : RunnerState}
    (h : Progress answers hashes first (some key) disk)
    (hstate : state.completed = (key, status) :: disk.completed)
    (hmay : Recordable answers (first.manifestFor hashes) first.completed key status) :
    Progress answers hashes first none { disk with state := some state } := by
  have hcompleted : ({ disk with state := some state } : Disk).completed
      = (key, status) :: disk.completed := hstate
  have hnew : ¬ hasKey first.completed key := fun hs => h.unrecorded key rfl (h.remains hs)
  exact {
    manifest := h.manifest
    rows := by
      intro k
      have hrows : ({ disk with state := some state } : Disk).rowsOf k = disk.rowsOf k := rfl
      rw [hrows, h.rows k, hcompleted]
      simp only [hasKey_cons, Option.some.injEq, reduceCtorEq, if_false, Nat.add_zero]
      by_cases hk : k = key
      · subst hk
        simp [hnew, h.unrecorded k rfl]
      · simp [hk, Ne.symm hk]
    recorded := by
      intro k hk
      have hne : k ≠ key := fun hkey => hnew (hkey ▸ hk)
      rw [hcompleted, lookup_cons_of_ne hne]
      exact h.recorded k hk
    unrecorded := fun _ => nofun
    unskipped := by
      intro task htask hskip hk
      rw [hcompleted] at hk
      rcases hasKey_cons.mp hk with hkey | hk
      · exact hmay.unskipped task htask hskip hkey
      · exact h.unskipped task htask hskip hk
    timely := by
      intro hall task htask hcond hlookup
      rw [hcompleted] at hlookup
      by_cases hkey : taskKey task.warm.fields = key
      · subst hkey
        rw [lookup_cons_self] at hlookup
        exact absurd rfl (hmay.timely hall (Option.some.inj hlookup) task htask hcond)
      · rw [lookup_cons_of_ne hkey] at hlookup
        exact h.timely hall task htask hcond hlookup
    kept := h.kept
    ours := h.ours }

/-! ## What each part of `main` keeps

The parts are taken in the order in which they call each other, from the writes to
`main`.  Between two of them the disk is `Settled`; from a row to the state that
records it, it is `Pending`.
-/

/-- The state file records what `completed` lists, and no row is pending. -/
def Settled (answers : Question → Trial → Prop) (hashes : Hashes) (first : Disk)
    (completed : List (String × String)) (disk : Disk) : Prop :=
  Progress answers hashes first none disk ∧ disk.completed = completed

/-- What an attempt comes back with is an answer's: a result repeats the task, and a
trial did time out. -/
def Attempted.Of (answers : Question → Trial → Prop) (task : Task) : Attempted → Prop
  | timeout _ => ∃ trial, answers (.attempt task) trial ∧ trial.ended = .timeout
  | ok _ result => RepeatsFields task result ∧
      ((∀ q trial, answers q trial → Readable q trial) → ReadableFields result)
  | error _ => True

section
variable (hanswers : ∀ q trial, answers q trial → Repeats q trial)
include hanswers

end

/-- A row of `key` is in the raw file and not recorded yet. -/
def Pending (answers : Question → Trial → Prop) (hashes : Hashes) (first : Disk)
    (completed : List (String × String)) (key : String) (disk : Disk) : Prop :=
  Progress answers hashes first (some key) disk ∧ disk.completed = completed

/-- The state records at least what `completed` lists. -/
def Grown (answers : Question → Trial → Prop) (hashes : Hashes) (first : Disk)
    (completed : List (String × String)) (state : RunnerState) (disk : Disk) : Prop :=
  Settled answers hashes first state.completed disk ∧
    ∀ key, hasKey completed key → hasKey state.completed key

section
variable (hanswers : ∀ q trial, answers q trial → Repeats q trial)
include hanswers

end

theorem Grown.trans {completed : List (String × String)} {state state' : RunnerState}
    {disk disk' : Disk} (h : Grown answers hashes first completed state disk)
    (h' : Grown answers hashes first state.completed state' disk') :
    Grown answers hashes first completed state' disk' :=
  ⟨h'.1, fun key hkey => h'.2 key (h.2 key hkey)⟩

section
variable (hanswers : ∀ q trial, answers q trial → Repeats q trial)
include hanswers

variable (hkeys : (first.manifestFor hashes).DistinctKeys)
include hkeys

end

section
variable (hanswers : ∀ q trial, answers q trial → Repeats q trial)
  (hkeys : (first.manifestFor hashes).DistinctKeys) {last : Disk}
include hanswers hkeys

end

end Life

end PSVFSS
