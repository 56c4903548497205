import Gigastt.WatchTasks

/-!
Which versions of a file the watch loop takes away, over every run.
-/

namespace Gigastt.WatchTasks

open Transition Batch

variable {V : Type*} {opts : Options} {s t : State V}

instance [DecidableEq V] : DecidablePred (Sound (V := V)) :=
  fun s => inferInstanceAs (Decidable (∀ d ∈ s.disk.discarded, d.gone = d.heard))

/-- The watch state moves as in the watch loop on its own. -/
theorem watch_step {e : Event V} (hstep : step opts s e = some t) :
    t.watch = s.watch ∨ ∃ e', Watch.step opts.watch s.watch e' = some t.watch := by
  cases e with
  | scan tree =>
      obtain ⟨watch, hwatch, rfl⟩ := Option.map_eq_some_iff.mp hstep
      exact Or.inr ⟨_, hwatch⟩
  | scanFailed =>
      obtain ⟨watch, hwatch, rfl⟩ := Option.map_eq_some_iff.mp hstep
      exact Or.inr ⟨_, hwatch⟩
  | shutdown =>
      cases hstep
      exact Or.inr ⟨.shutdown, rfl⟩
  | call path reply =>
      obtain ⟨task, -, hcalled⟩ := Option.bind_eq_some_iff.mp hstep
      obtain ⟨r, -, rfl⟩ := Option.map_eq_some_iff.mp hcalled
      exact Or.inl rfl
  | join path =>
      rw [step] at hstep
      split at hstep
      · obtain ⟨watch, hwatch, rfl⟩ := Option.map_eq_some_iff.mp hstep
        exact Or.inr ⟨_, hwatch⟩
      · cases hstep
  | external path content =>
      cases hstep
      exact Or.inl rfl

theorem watch_reachable {backlog : Table Path Watch.FileSignature} {tree : Batch.Tree V}
    {events : List (Event V)} (hrun : run (step opts) (start backlog tree) events = some s) :
    Reachable (Watch.step opts.watch) (Watch.start backlog) s.watch := by
  have hreach : Reachable (step opts) (start backlog tree) s := ⟨events, hrun⟩
  refine @Reachable.invariant _ _ (step opts)
    (fun s => Reachable (Watch.step opts.watch) (Watch.start backlog) s.watch) _ _ hreach ?_
    (Reachable.refl _)
  intro u e v hstep hu
  rcases watch_step hstep with hsame | ⟨e', hwatch⟩
  · exact hsame ▸ hu
  · exact hu.tail hwatch

theorem follow_tasks {watch : Watch.State Path} (h : ∀ p, (s.tasks p).isSome → p ∈ s.watch.set)
    (hset : ∀ p ∈ s.watch.set, p ∈ watch.set) (p : Path)
    (hp : ((s.follow watch).tasks p).isSome) : p ∈ watch.set := by
  obtain ⟨task, htask⟩ := Option.isSome_iff_exists.mp hp
  rcases mem_follow htask with hold | ⟨hmem, -, -⟩
  · exact hset p (h p (by simp [hold]))
  · exact hmem

/-- A task is one of those the watch loop has in flight. -/
theorem step_tasks {e : Event V} (hrunning : s.watch.Running opts.watch)
    (h : ∀ p, (s.tasks p).isSome → p ∈ s.watch.set) (hstep : step opts s e = some t) :
    ∀ p, (t.tasks p).isSome → p ∈ t.watch.set := by
  cases e with
  | scan tree =>
      obtain ⟨watch, hwatch, rfl⟩ := Option.map_eq_some_iff.mp hstep
      apply follow_tasks h
      intro p hp
      rw [Watch.scan_eq hwatch]
      rcases s.watch.scan_cases opts.watch
        (scanInputs opts.batch.inputDir opts.batch.moveTo tree) p with
        ⟨-, -, hset⟩ | ⟨sig, free, -, -, hset⟩
      · exact hset.mpr hp
      · exact hset.mpr (Or.inl hp)
  | scanFailed =>
      obtain ⟨watch, hwatch, rfl⟩ := Option.map_eq_some_iff.mp hstep
      rw [Watch.step] at hwatch
      split at hwatch
      · cases hwatch
      · cases hwatch
        exact follow_tasks h fun p hp => hp
  | shutdown =>
      cases hstep
      exact follow_tasks h fun p hp => hp
  | call path reply =>
      obtain ⟨task, htask, hcalled⟩ := Option.bind_eq_some_iff.mp hstep
      obtain ⟨r, -, rfl⟩ := Option.map_eq_some_iff.mp hcalled
      intro p hp
      obtain ⟨u, hu⟩ := Option.isSome_iff_exists.mp hp
      rcases update_some hu with ⟨rfl, -⟩ | ⟨-, hold⟩
      · exact h p (by simp [htask])
      · exact h p (by simp [hold])
  | join path =>
      rw [step] at hstep
      split at hstep
      · obtain ⟨watch, hwatch, rfl⟩ := Option.map_eq_some_iff.mp hstep
        intro p hp
        obtain ⟨u, hu⟩ := Option.isSome_iff_exists.mp hp
        have hne : p ≠ path := by
          rintro rfl
          simp at hp
        have hmem := h p (by simp [update_none hu])
        exact Watch.joined_keeps hrunning hwatch hne hmem
      · cases hstep
  | external path content =>
      cases hstep
      exact h

/-- There are no more tasks than slots. -/
theorem tasks_running {backlog : Table Path Watch.FileSignature} {tree : Batch.Tree V}
    {events : List (Event V)} (hrun : run (step opts) (start backlog tree) events = some s) :
    s.watch.set.Nodup ∧ s.watch.set.length ≤ max opts.batch.concurrency 1 ∧
      ∀ p, (s.tasks p).isSome → p ∈ s.watch.set := by
  have hrunning : ∀ {watch}, Reachable (Watch.step opts.watch) (Watch.start backlog) watch →
      watch.Running opts.watch :=
    fun ⟨_, hacts⟩ => (Watch.run_inv hacts).running
  have hwatch := hrunning (watch_reachable hrun)
  refine ⟨hwatch.nodup, hwatch.slots, ?_⟩
  refine (run_history (fun events (s : State V) =>
    run (step opts) (start backlog tree) events = some s ∧
      ∀ p, (s.tasks p).isSome → p ∈ s.watch.set) ?_ hrun ⟨rfl, by simp [start]⟩).2
  rintro acts u e v ⟨hu, hmem⟩ hstep
  refine ⟨?_, step_tasks (hrunning (watch_reachable hu)) hmem hstep⟩
  rw [run_concat, hu]
  exact hstep

theorem run_working {backlog : Table Path Watch.FileSignature} {tree : Batch.Tree V}
    {events : List (Event V)} (hrun : run (step opts) (start backlog tree) events = some s) :
    Working opts s := by
  have hreach : Reachable (step opts) (start backlog tree) s := ⟨events, hrun⟩
  exact hreach.invariant (fun _ _ _ hstep h => h.step hstep) (start_working backlog tree)

theorem run_kept {backlog : Table Path Watch.FileSignature} {tree : Batch.Tree V}
    {events : List (Event V)} (hrun : run (step opts) (start backlog tree) events = some s)
    (hguard : Guarded (step opts) Undisturbed (start backlog tree) events) : Kept s := by
  have hstep : ∀ (u : State V) e v, step opts u e = some v → Undisturbed u e →
      Working opts u ∧ Kept u → Working opts v ∧ Kept v :=
    fun u e v hstep hundisturbed h => ⟨h.1.step hstep, h.2.step h.1 hundisturbed hstep⟩
  have hstart := And.intro (@start_working _ opts backlog tree) (start_kept backlog tree)
  exact (run_invariant hstep hrun hguard hstart).2

/-- The calls of one task, in the watch loop. -/
theorem run_calls {p : Path} {replies : List (Reply V)} {task task' : FileTask V} {disk : Disk V}
    (htask : s.tasks p = some task)
    (hrun : run (FileTask.calls opts.batch p) (s.disk, task) replies = some (disk, task')) :
    run (step opts) s (replies.map (.call p))
      = some { s with disk, tasks := Function.update s.tasks p (some task') } := by
  have hstep : ∀ (x : Disk V × FileTask V) reply y,
      FileTask.calls opts.batch p x reply = some y →
      step opts { s with disk := x.1, tasks := Function.update s.tasks p (some x.2) } (.call p reply)
        = some { s with disk := y.1, tasks := Function.update s.tasks p (some y.2) } := by
    intro x reply y hcall
    have hadvance : x.2.advance opts.batch p x.1 reply = some y := hcall
    simp [step, hadvance]
  have hwhole := run_map
    (fun x => { s with disk := x.1, tasks := Function.update s.tasks p (some x.2) }) (Event.call p)
    hstep hrun
  have hsame : Function.update s.tasks p (some task) = s.tasks := by
    rw [← htask, Function.update_eq_self]
  simpa only [hsame] using hwhole

/-- What the watch loop takes away is what it has read, in every run that puts no other version in
place of a file between its reading and its end. Any run in which somebody does can go on to take a
version away unheard, unless a directory stands where the file would be moved. -/
theorem takes_heard_of_undisturbed (opts : Options) (backlog : Table Path Watch.FileSignature)
    (tree : Batch.Tree V) :
    (∀ events s, Guarded (step opts) Undisturbed (start backlog tree) events →
      run (step opts) (start backlog tree) events = some s → Sound s) ∧
    (opts.batch.moveTo.isSome ∨ opts.batch.deleteSource = true →
      ∀ events s p bytes, run (step opts) (start backlog tree) events = some s →
        ¬Undisturbed s (.external p (some bytes)) →
        (∀ dest ∈ opts.batch.dest p, s.disk.isDir dest = false) →
        ∃ (replies : List (Reply V)) (t : State V),
          run (step opts) s (.external p (some bytes) :: replies.map (.call p)) = some t ∧
            ¬Sound t) := by
  refine ⟨fun events s hguard hrun => (run_kept hrun hguard).sound, ?_⟩
  intro hpolicy events s p bytes hrun hdisturbed hdir
  simp only [Undisturbed, not_forall] at hdisturbed
  obtain ⟨task, htask, heard, hheard, other, hother, hne⟩ := hdisturbed
  cases hother
  have hwritten : step opts s (.external p (some bytes))
      = some { s with disk.files := Function.update s.disk.files p (some bytes) } := rfl
  have hworking := (run_working hrun).step hwritten
  have hfound : s.tasks p = some task := htask
  obtain ⟨haudio, houtside⟩ := hworking.inputs p (by simp [hfound])
  have hfile : Disk.files { s.disk with files := Function.update s.disk.files p (some bytes) } p
      = some bytes :=
    Function.update_self ..
  obtain ⟨replies, disk, task', hcalls, hmem⟩ :=
    exists_discarded (hworking.phases p task htask) hpolicy haudio houtside hheard hfile hdir
  exact ⟨replies, _, run_calls htask hcalls, fun hsound => hne (hsound _ hmem)⟩

/-- A folder with one recording. -/
def recording {A : Type*} (value : A) : Batch.Tree A where
  root := .dir (ascii "in") (.file (ascii "a.wav") value .nil) .nil
  distinct := by simp [Entries.Distinct, Entries.names]

def recordingPath : Path := [ascii "in", ascii "a.wav"]

def deleting : Options where
  batch :=
    { inputDir := [ascii "in"], outputDir := [ascii "out"], formats := [.txt], moveTo := none,
      deleteSource := true, concurrency := 1, retries := 0 }
  settlePolls := 1

/-- The task has read the recording. -/
def reading : List (Event Nat) :=
  [.scan (recording (some ⟨8, none⟩)), .scan (recording (some ⟨8, none⟩)),
    .call recordingPath ⟨true, none⟩]

theorem takes_heard_recording :
    (∃ s, run (step deleting) (start Table.empty (recording 1)) reading = some s ∧ Sound s) ∧
    ∃ (s : State Nat) (replies : List (Reply Nat)) (t : State Nat),
      run (step deleting) (start Table.empty (recording 1)) reading = some s ∧
      run (step deleting) s (.external recordingPath (some 2) :: replies.map (.call recordingPath))
        = some t ∧ ¬Sound t := by
  have htakes := takes_heard_of_undisturbed deleting Table.empty (recording 1)
  obtain ⟨s, hrun⟩ :
      ∃ s, run (step deleting) (start Table.empty (recording 1)) reading = some s := ⟨_, rfl⟩
  have hguard : Guarded (step deleting) Undisturbed (start Table.empty (recording 1)) reading :=
    ⟨trivial, fun _ _ => ⟨trivial, fun _ _ => ⟨trivial, fun _ _ => trivial⟩⟩⟩
  have hdisturbed : ¬Undisturbed s (.external recordingPath (some 2)) := by
    rw [← Option.some.inj hrun]
    exact fun h => absurd (h _ rfl 1 rfl 2 rfl) (by decide)
  have hdir : ∀ dest ∈ deleting.batch.dest recordingPath, s.disk.isDir dest = false := by
    simp [deleting, BatchOptions.dest]
  obtain ⟨replies, t, hlost⟩ :=
    htakes.2 (Or.inr rfl) reading s recordingPath 2 hrun hdisturbed hdir
  exact ⟨⟨s, hrun, htakes.1 reading s hguard hrun⟩, s, replies, t, hrun, hlost⟩

/-- The recording is written again after the task has read it. -/
def rewritten : List (Event Nat) :=
  reading ++ [.external recordingPath (some 2), .call recordingPath ⟨true, some 0⟩,
    .call recordingPath ⟨true, none⟩]

theorem takes_unheard :
    ¬∀ (opts : Options) (backlog : Table Path Watch.FileSignature) (tree : Batch.Tree Nat) events s,
      opts.batch.moveTo.isSome ∨ opts.batch.deleteSource = true →
      run (step opts) (start backlog tree) events = some s → Sound s := by
  intro h
  obtain ⟨s, hrun, hsound⟩ :
      ∃ s, run (step deleting) (start Table.empty (recording 1)) rewritten = some s ∧ ¬Sound s :=
    ⟨_, rfl, by decide⟩
  exact hsound (h deleting Table.empty (recording 1) rewritten s (Or.inr rfl) hrun)

end Gigastt.WatchTasks
