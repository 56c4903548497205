import Gigastt.BatchTask
import Gigastt.WatchRuns

/-!
The watch loop with its tasks and the disk they share with whoever writes the files. A task moves or
deletes what stands at its path at that moment, so it takes away the version it has read exactly
when no other version was put there in between.
-/

namespace Gigastt.WatchTasks

open Transition Batch

variable {V : Type*}

structure Options where
  batch : BatchOptions
  settlePolls : UInt32

def Options.watch (opts : Options) : Watch.WatchOptions := ⟨opts.settlePolls, opts.batch.concurrency⟩

structure State (V : Type*) where
  watch : Watch.State Path
  tasks : Path → Option (FileTask V)
  disk : Disk V

inductive Event (V : Type*)
  /-- The files that a scan walks, with the signatures it reads while others write them. -/
  | scan (tree : Batch.Tree (Option Watch.FileSignature))
  | scanFailed
  | shutdown
  | call (path : Path) (reply : Reply V)
  | join (path : Path)
  | external (path : Path) (content : Option V)

/-- The tasks that the watch loop has spawned start. -/
def State.follow (s : State V) (watch : Watch.State Path) : State V :=
  { s with
    watch
    tasks := fun p => if p ∈ watch.set ∧ p ∉ s.watch.set then some FileTask.fresh else s.tasks p }

def step (opts : Options) (s : State V) : Event V → Option (State V)
  | .scan tree =>
      let files := scanInputs opts.batch.inputDir opts.batch.moveTo tree
      (Watch.step opts.watch s.watch (.scan files)).map s.follow
  | .scanFailed => (Watch.step opts.watch s.watch .scanFailed).map s.follow
  | .shutdown => (Watch.step opts.watch s.watch .shutdown).map s.follow
  | .call path reply =>
      (s.tasks path).bind fun task => (task.advance opts.batch path s.disk reply).map fun r =>
        { s with disk := r.1, tasks := Function.update s.tasks path (some r.2) }
  | .join path =>
      match (s.tasks path).map FileTask.phase with
      | some (.finished ok) =>
          (Watch.step opts.watch s.watch (.joined path ok)).map fun watch =>
            { s with watch, tasks := Function.update s.tasks path none }
      | _ => none
  | .external path content =>
      some { s with disk.files := Function.update s.disk.files path content }

def start (backlog : Table Path Watch.FileSignature) (tree : Batch.Tree V) : State V where
  watch := Watch.start backlog
  tasks := fun _ => none
  disk := Disk.ofTree tree

/-- Every source taken away is the version its task has read. -/
def Sound (s : State V) : Prop := ∀ d ∈ s.disk.discarded, d.gone = d.heard

/-- Nobody puts another version in place of a file whose task has read it and is not done with it. -/
def Undisturbed (s : State V) : Event V → Prop
  | .external path content =>
      ∀ task ∈ s.tasks path, ∀ heard ∈ task.phase.heard, ∀ bytes ∈ content, bytes = heard
  | _ => True

/-- Tasks work on audio files outside the move-to directory. -/
structure Working (opts : Options) (s : State V) : Prop where
  inputs : ∀ p, (s.tasks p).isSome → isAudioFile p = true ∧
    ∀ moveTo ∈ opts.batch.moveTo, ¬moveTo <+: p
  phases : ∀ p, ∀ task ∈ s.tasks p, task.phase.Coherent opts.batch

/-- What the tasks have read still stands where they read it. -/
structure Kept (s : State V) : Prop where
  kept : ∀ p, ∀ task ∈ s.tasks p, ∀ heard ∈ task.phase.heard, ∀ bytes ∈ s.disk.files p,
    bytes = heard
  sound : Sound s

section Calls

variable {opts : BatchOptions} {path dest : Path} {disk disk' : Disk V} {task task' : FileTask V}

/-- A call keeps what the task has read in place, and takes away nothing else. -/
theorem kept_of_advances (h : FileTask.Advances opts path disk task disk' task')
    (haudio : isAudioFile path = true) (houtside : ∀ moveTo ∈ opts.moveTo, ¬moveTo <+: path)
    (hkept : ∀ heard ∈ task.phase.heard, ∀ bytes ∈ disk.files path, bytes = heard) :
    (∀ heard ∈ task'.phase.heard, ∀ bytes ∈ disk'.files path, bytes = heard) ∧
      ∀ d ∈ disk'.discarded, d ∈ disk.discarded ∨ d.gone = d.heard := by
  cases h with
  | read heard _ hfile =>
      refine ⟨?_, fun d hd => Or.inl hd⟩
      intro v hv bytes hbytes
      rw [written_heard heard opts.formats v hv]
      exact Option.some.inj (hbytes.symm.trans hfile)
  | failed => exact ⟨by simp, fun d hd => Or.inl hd⟩
  | wrote heard format formats out left hphase hout =>
      rw [hphase] at hkept
      refine ⟨?_, fun d hd => Or.inl (by simpa using hd)⟩
      intro v hv bytes hbytes
      rw [Disk.write_files_of_audio left hout haudio] at hbytes
      rw [written_heard heard formats v hv]
      exact hkept heard rfl bytes hbytes
  | writeFailed => exact ⟨by simp, fun d hd => Or.inl (by simpa using hd)⟩
  | renamed heard bytes dest hphase _ hfile =>
      rw [hphase] at hkept
      refine ⟨by simp [Phase.heard], ?_⟩
      intro d hd
      rcases List.mem_append.mp hd with hold | hnew
      · exact Or.inl hold
      · rw [List.mem_singleton.mp hnew]
        exact Or.inr (hkept heard rfl bytes hfile)
  | renameFailed heard hphase =>
      rw [hphase] at hkept
      exact ⟨hkept, fun d hd => Or.inl hd⟩
  | copied heard bytes dest hphase hdest =>
      rw [hphase] at hkept
      refine ⟨?_, fun d hd => Or.inl hd⟩
      rw [Disk.place_files, if_neg (dest_ne houtside hdest)]
      exact hkept
  | copyFailed => exact ⟨by simp, fun d hd => Or.inl hd⟩
  | removed heard bytes hphase hfile =>
      rw [hphase] at hkept
      refine ⟨by simp [Phase.heard], ?_⟩
      intro d hd
      rcases List.mem_append.mp hd with hold | hnew
      · exact Or.inl hold
      · rw [List.mem_singleton.mp hnew]
        exact Or.inr (hkept heard rfl bytes hfile)

end Calls

section Steps

variable {opts : Options} {s t : State V}

theorem mem_follow {watch : Watch.State Path} {p : Path} {task : FileTask V}
    (h : (s.follow watch).tasks p = some task) :
    s.tasks p = some task ∨ (p ∈ watch.set ∧ p ∉ s.watch.set ∧ task = FileTask.fresh) := by
  simp only [State.follow] at h
  split at h
  · rename_i hnew
    exact Or.inr ⟨hnew.1, hnew.2, (Option.some.inj h).symm⟩
  · exact Or.inl h

/-- Everything a step can do to the tasks and the disk. -/
theorem step_cases {e : Event V} (hstep : step opts s e = some t) :
    (∃ watch, t = s.follow watch ∧ ∀ p ∈ watch.set, p ∉ s.watch.set →
      isAudioFile p = true ∧ ∀ moveTo ∈ opts.batch.moveTo, ¬moveTo <+: p) ∨
    (∃ path task disk task', s.tasks path = some task ∧
      FileTask.Advances opts.batch path s.disk task disk task' ∧
      t = { s with disk, tasks := Function.update s.tasks path (some task') }) ∨
    (∃ path watch, t = { s with watch, tasks := Function.update s.tasks path none }) ∨
    ∃ path content, e = .external path content ∧
      t = { s with disk.files := Function.update s.disk.files path content } := by
  cases e with
  | scan tree =>
      obtain ⟨watch, hwatch, rfl⟩ := Option.map_eq_some_iff.mp hstep
      refine Or.inl ⟨watch, rfl, fun p hp hnot => ?_⟩
      rw [Watch.scan_eq hwatch] at hp
      rcases s.watch.scan_cases opts.watch _ p with ⟨-, -, hset⟩ | ⟨sig, -, hsig, -⟩
      · exact absurd (hset.mp hp) hnot
      · have hmem := Table.find_eq_some.mp (Option.join_eq_some_iff.mp hsig)
        exact (mem_scanInputs hmem).2
  | scanFailed =>
      obtain ⟨watch, hwatch, rfl⟩ := Option.map_eq_some_iff.mp hstep
      rw [Watch.step] at hwatch
      split at hwatch
      · cases hwatch
      · cases hwatch
        exact Or.inl ⟨_, rfl, fun p hp hnot => absurd hp hnot⟩
  | shutdown =>
      cases hstep
      exact Or.inl ⟨_, rfl, fun p hp hnot => absurd hp hnot⟩
  | call path reply =>
      obtain ⟨task, htask, hcalled⟩ := Option.bind_eq_some_iff.mp hstep
      obtain ⟨⟨disk, task'⟩, hadvance, rfl⟩ := Option.map_eq_some_iff.mp hcalled
      exact Or.inr (Or.inl
        ⟨path, task, disk, task', htask, FileTask.advances hadvance, rfl⟩)
  | join path =>
      rw [step] at hstep
      split at hstep
      · obtain ⟨watch, -, rfl⟩ := Option.map_eq_some_iff.mp hstep
        exact Or.inr (Or.inr (Or.inl ⟨path, watch, rfl⟩))
      · cases hstep
  | external path content =>
      cases hstep
      exact Or.inr (Or.inr (Or.inr ⟨path, content, rfl, rfl⟩))

theorem Working.step {e : Event V} (h : Working opts s) (hstep : step opts s e = some t) :
    Working opts t := by
  rcases step_cases hstep with
    ⟨watch, rfl, hnew⟩ | ⟨path, task, disk, task', htask, hadv, rfl⟩ | ⟨path, watch, rfl⟩ |
      ⟨path, content, -, rfl⟩
  · refine ⟨?_, ?_⟩
    · intro p hp
      obtain ⟨task, htask⟩ := Option.isSome_iff_exists.mp hp
      rcases mem_follow htask with hold | ⟨hmem, hnot, -⟩
      · exact h.inputs p (by simp [hold])
      · exact hnew p hmem hnot
    · intro p task htask
      rcases mem_follow htask with hold | ⟨-, -, rfl⟩
      · exact h.phases p task hold
      · trivial
  · refine ⟨?_, ?_⟩
    · intro p hp
      obtain ⟨u, hu⟩ := Option.isSome_iff_exists.mp hp
      rcases update_some hu with ⟨rfl, -⟩ | ⟨-, hold⟩
      · exact h.inputs p (by simp [htask])
      · exact h.inputs p (by simp [hold])
    · intro p u hu
      rcases update_some hu with ⟨rfl, rfl⟩ | ⟨-, hold⟩
      · exact hadv.coherent (h.phases p task htask)
      · exact h.phases p u hold
  · refine ⟨?_, fun p task htask => h.phases p task (update_none htask)⟩
    intro p hp
    obtain ⟨task, htask⟩ := Option.isSome_iff_exists.mp hp
    exact h.inputs p (by simp [update_none htask])
  · exact ⟨h.inputs, h.phases⟩

theorem Kept.step {e : Event V} (h : Kept s) (hworking : Working opts s)
    (hundisturbed : Undisturbed s e) (hstep : step opts s e = some t) : Kept t := by
  rcases step_cases hstep with
    ⟨watch, rfl, hnew⟩ | ⟨path, task, disk, task', htask, hadv, rfl⟩ | ⟨path, watch, rfl⟩ |
      ⟨path, content, rfl, rfl⟩
  · refine ⟨?_, h.sound⟩
    intro p task htask heard hheard
    rcases mem_follow htask with hold | ⟨-, -, rfl⟩
    · exact h.kept p task hold heard hheard
    · cases hheard
  · obtain ⟨haudio, houtside⟩ := hworking.inputs path (by simp [htask])
    obtain ⟨hkept, hdiscarded⟩ := kept_of_advances hadv haudio houtside (h.kept path task htask)
    refine ⟨?_, ?_⟩
    · intro p u hu
      rcases update_some hu with ⟨rfl, rfl⟩ | ⟨hne, hold⟩
      · exact hkept
      · have hp := hworking.inputs p (by simp [hold])
        rw [hadv.files_of_ne hne hp.1 fun dest hdest _ => dest_ne hp.2 hdest]
        exact h.kept p u hold
    · intro d hd
      rcases hdiscarded d hd with hold | hgone
      · exact h.sound d hold
      · exact hgone
  · exact ⟨fun p task htask => h.kept p task (update_none htask), h.sound⟩
  · refine ⟨?_, h.sound⟩
    intro p task htask heard hheard bytes hbytes
    have hfile : Function.update s.disk.files path content p = some bytes := hbytes
    by_cases hpath : p = path
    · subst hpath
      rw [Function.update_self] at hfile
      exact hundisturbed task htask heard hheard bytes hfile
    · rw [Function.update_of_ne hpath] at hfile
      exact h.kept p task htask heard hheard bytes hfile

theorem start_working (backlog : Table Path Watch.FileSignature) (tree : Batch.Tree V) :
    Working opts (start backlog tree) := by
  refine ⟨?_, ?_⟩
  · simp [start]
  · simp [start]

theorem start_kept (backlog : Table Path Watch.FileSignature) (tree : Batch.Tree V) :
    Kept (start backlog tree) := by
  refine ⟨?_, ?_⟩
  · simp [start]
  · simp [Sound, start, Disk.ofTree]

end Steps

end Gigastt.WatchTasks
