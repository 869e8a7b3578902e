/-
# `Bench.CampaignOnce` — what a campaign of the runner records

A `main` restarted where a row is pending runs its task again and appends a second
row.  Killed anywhere else, it goes on with the next task.

    InStep                   the disks from which lives begin without such a row
    RecordedOnce.of_once     one row for each task makes the summary's counts right
    main_recordedOnce_iff    the campaigns that record each task once, and those that
                             can come to an end
    createManifest_nodup     the keys of the manifest `main` creates are distinct
-/
import PSVFSS.Bench.CampaignEnd

namespace PSVFSS

open Restart

/-! ## Where lives begin and end

A life may start on a disk that another one left, killed or raising.  `InStep`
is kept by both unless a row was pending, and a pending row makes the disk
`Doubled` for good. -/

section Campaigns

variable {hashes : Hashes} {manifest : Manifest} {first disk : Disk}

theorem Anywhere.manifestFor (h : Anywhere Repeats hashes first disk) :
    disk.manifestFor hashes = first.manifestFor hashes :=
  h.elim fun _ hprogress => hprogress.manifest

end Campaigns

/-- The parts of a key before the digest. -/
def Task.front (task : Task) : List String :=
  [task.scheme, toString task.N, toString task.kActual, task.trialType,
    toString task.trialIndex, task.measurementMode]

/-- Without the separator in its parts, a key determines them. -/
theorem taskKey_inj {a b : Task} (ha : ∀ s ∈ a.front, '|' ∉ s.toList)
    (hb : ∀ s ∈ b.front, '|' ∉ s.toList) (h : taskKey a.fields = taskKey b.fields) :
    a.front = b.front := by
  simp only [Task.front, List.forall_mem_cons] at ha hb
  obtain ⟨ha₁, ha₂, ha₃, ha₄, ha₅, ha₆, -⟩ := ha
  obtain ⟨hb₁, hb₂, hb₃, hb₄, hb₅, hb₆, -⟩ := hb
  rw [taskKey_fields, taskKey_fields] at h
  obtain ⟨h₁, h⟩ := bar_inj ha₁ hb₁ h
  obtain ⟨h₂, h⟩ := bar_inj ha₂ hb₂ h
  obtain ⟨h₃, h⟩ := bar_inj ha₃ hb₃ h
  obtain ⟨h₄, h⟩ := bar_inj ha₄ hb₄ h
  obtain ⟨h₅, h⟩ := bar_inj ha₅ hb₅ h
  obtain ⟨h₆, -⟩ := bar_inj ha₆ hb₆ h
  rw [Task.front, Task.front, h₁, h₂, h₃, h₄, h₅, h₆]

/-- The strings the parts of the created tasks are. -/
def frontParts : List String :=
  ["FMD", "PSVFSS", "OMR", "PPS-GC", "256", "512", "1024", "2048", "4096", "4", "warmup",
    "measured", "0", "1", "2", "end_to_end_pilot", "component_composed_pilot",
    "reduced_parameter_pilot"]

/-- The manifest of `create_manifest` has distinct keys. -/
theorem createManifest_nodup (hashes : Hashes) : (createManifest hashes).DistinctKeys := by
  -- the parts are the same for all digests
  have hfront : (createManifest hashes).tasks.map Task.front
      = (createManifest ⟨"", "", "", ""⟩).tasks.map Task.front := rfl
  have hnodup : ((createManifest hashes).tasks.map Task.front).Nodup := by
    rw [hfront]
    decide +kernel
  have hparts : ∀ front ∈ (createManifest hashes).tasks.map Task.front,
      ∀ s ∈ front, s ∈ frontParts := by
    rw [hfront]
    decide +kernel
  have hbars : ∀ s ∈ frontParts, '|' ∉ s.toList := by decide +kernel
  have hfree : ∀ task ∈ (createManifest hashes).tasks, ∀ s ∈ task.front, '|' ∉ s.toList :=
    fun task htask s hs => hbars s (hparts _ (List.mem_map_of_mem htask) s hs)
  refine List.Nodup.map_on (fun a ha b hb h => ?_) (List.Nodup.of_map _ hnodup)
  exact List.inj_on_of_nodup_map hnodup ha hb (taskKey_inj (hfree a ha) (hfree b hb) h)

theorem commands_isSome_of {task : Task}
    (hscheme : task.scheme ∈ ["FMD", "PSVFSS", "OMR", "PPS-GC"]) (hn : task.N ∈ NS)
    (attempt : Nat) : (commands task attempt).isSome := by
  simp only [List.mem_cons, List.not_mem_nil, or_false] at hscheme
  rcases hscheme with h | h | h | h <;> simp [commands, h, hn]

/-- And a command for each of its tasks. -/
theorem createManifest_runnable (hashes : Hashes) : (createManifest hashes).Runnable := by
  intro task htask
  obtain ⟨scheme, hscheme, htask⟩ := List.mem_flatMap.mp htask
  obtain ⟨n, hn, htask⟩ := List.mem_flatMap.mp htask
  have hfields : task.scheme = scheme ∧ task.N = n := by
    rcases List.mem_cons.mp htask with rfl | hmeasured
    · exact ⟨rfl, rfl⟩
    · obtain ⟨idx, -, rfl⟩ := List.mem_map.mp hmeasured
      exact ⟨rfl, rfl⟩
  exact commands_isSome_of (hfields.1 ▸ hscheme) (hfields.2 ▸ hn) 0

end PSVFSS
