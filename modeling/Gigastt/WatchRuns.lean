import Gigastt.WatchSettle

/-!
Runs of the watch loop: a file is scheduled once it has settled, and a change seen while its task
runs sends it back to settle again.
-/

namespace Gigastt.Watch

open Transition

variable {Path : Type*} [DecidableEq Path] {opts : WatchOptions}

/-- A scan spawns the task of a file. -/
def Spawns (opts : WatchOptions) (initial : State Path) (before : List (Event Path))
    (files : Table Path (Option FileSignature)) (p : Path) : Prop :=
  ∃ s t, run (step opts) initial before = some s ∧ step opts s (.scan files) = some t ∧
    p ∉ s.set ∧ p ∈ t.set

/-- The entry of a file in flight: dirty once a scan saw another signature than it was scheduled
with. -/
structure WatchEntry.Tracks (sig : FileSignature) (log : List FileSignature) (e : WatchEntry) :
    Prop where
  inFlight : e.status = .inFlight
  dirty : e.dirty = true ↔ ∃ x ∈ log, x ≠ sig
  clean : e.dirty = false → e.sig = sig

theorem WatchEntry.Tracks.observe {sig x : FileSignature} {log : List FileSignature}
    {e : WatchEntry} (h : e.Tracks sig log) (settle : UInt32) (free : Bool) :
    (WatchEntry.observe settle free x (some e)).1.Tracks sig (log ++ [x]) := by
  have hgrown : (∃ y ∈ log ++ [x], y ≠ sig) ↔ e.dirty = true ∨ x ≠ sig := by
    rw [h.dirty]
    simp [or_and_right, exists_or]
  rcases WatchEntry.observe_cases settle free x e with
    ⟨hne, -, heq⟩ | ⟨-, hidle, -⟩ | ⟨-, hpending, -⟩ | ⟨-, hpending, -⟩ | ⟨rfl, -, heq⟩
  · rw [heq]
    refine ⟨h.inFlight, hgrown.trans ?_ |>.symm, by simp⟩
    refine iff_of_true ?_ rfl
    cases hdirty : e.dirty with
    | true => exact Or.inl rfl
    | false => exact Or.inr fun hx => hne ((h.clean hdirty).trans hx.symm)
  · exact absurd h.inFlight hidle
  · simp [h.inFlight] at hpending
  · simp [h.inFlight] at hpending
  · rw [heq]
    refine ⟨h.inFlight, Iff.trans ?_ hgrown.symm, h.clean⟩
    refine ⟨Or.inl, ?_⟩
    rintro (hdirty | hne)
    · exact hdirty
    · by_contra hdirty
      exact hne (h.clean (by simpa using hdirty))

theorem WatchEntry.Tracks.complete {sig : FileSignature} {log : List FileSignature}
    {e : WatchEntry} (h : e.Tracks sig log) (ok : Bool) :
    (e.complete ok).status
      = if ∀ x ∈ log, x = sig then (if ok then .done else .failed) else .pending := by
  have hclean : (∀ x ∈ log, x = sig) ↔ e.dirty = false := by
    rw [← Bool.not_eq_true, h.dirty]
    simp
  rw [WatchEntry.complete, if_neg (by simp [h.inFlight])]
  simp only [hclean]
  cases e.dirty with
  | true => simp
  | false => simp

/-- Where a task in flight was spawned, and what the scans since then saw of its file. -/
def Since (opts : WatchOptions) (initial : State Path) (events : List (Event Path))
    (s : State Path) (p : Path) : Prop :=
  ∃ before files middle sig entry, events = before ++ .scan files :: middle ∧
    Spawns opts initial before files p ∧ files.find p = some (some sig) ∧
    (∀ ok, .joined p ok ∉ middle) ∧ s.known.find p = some entry ∧
    entry.Tracks sig (observations p middle)

structure Inv (opts : WatchOptions) (initial : State Path) (events : List (Event Path))
    (s : State Path) : Prop where
  run : run (step opts) initial events = some s
  running : s.Running opts
  accounts : ∀ p, ∀ e ∈ s.known.find p, e.Accounts (observations p events)
  since : ∀ p ∈ s.set, Since opts initial events s p

theorem handleCompletion_find {s : State Path} {path : Path} {entry : WatchEntry}
    (hentry : s.known.find path = some entry) (ok : Bool) (p : Path) :
    (s.handleCompletion path ok).known.find p
      = if p = path then some (entry.complete ok) else s.known.find p := by
  simp only [State.handleCompletion, hentry]
  exact Table.find_insert p

theorem handleCompletion_set {s : State Path} {path : Path} (ok : Bool) :
    (s.handleCompletion path ok).set = s.set := by
  unfold State.handleCompletion
  split
  · rfl
  · rfl

/-- Everything the end of a task can do. -/
theorem joined_cases {s t : State Path} {path : Path} {ok : Bool} (hrunning : s.Running opts)
    (hstep : step opts s (.joined path ok) = some t) :
    ∃ entry, path ∈ s.set ∧ s.known.find path = some entry ∧ entry.status = .inFlight ∧
      t.set = s.set.erase path ∧
      ∀ p, t.known.find p = if p = path then some (entry.complete ok) else s.known.find p := by
  rw [step] at hstep
  split at hstep
  · rename_i hmem
    cases hstep
    obtain ⟨entry, hentry, hflight⟩ := (hrunning.entries path).mp hmem
    refine ⟨entry, hmem, hentry, hflight, handleCompletion_set ok, ?_⟩
    exact handleCompletion_find (s := { s with set := s.set.erase path }) hentry ok
  · cases hstep

theorem joined_keeps {s t : State Path} {path p : Path} {ok : Bool} (hrunning : s.Running opts)
    (hstep : step opts s (.joined path ok) = some t) (hne : p ≠ path) (hp : p ∈ s.set) :
    p ∈ t.set := by
  obtain ⟨entry, -, -, -, hset, -⟩ := joined_cases hrunning hstep
  rw [hset]
  exact (List.mem_erase_of_ne hne).mpr hp

theorem scan_eq {s t : State Path} {files : Table Path (Option FileSignature)}
    (hstep : step opts s (.scan files) = some t) : t = s.scan opts files := by
  rw [step] at hstep
  split at hstep
  · cases hstep
  · exact (Option.some.inj hstep).symm

theorem retain_sub {s : State Path} {files : Table Path (Option FileSignature)} {p : Path}
    {e : WatchEntry} (h : e ∈ (s.retain files).known.find p) : e ∈ s.known.find p := by
  rw [State.retain_find] at h
  exact (Option.filter_eq_some_iff.mp h).1

theorem retain_inFlight {s : State Path} {p : Path} {e : WatchEntry}
    (files : Table Path (Option FileSignature)) (h : s.known.find p = some e)
    (hflight : e.status = .inFlight) : (s.retain files).known.find p = some e := by
  rw [State.retain_find, h, Option.filter_some, if_pos (by simp [hflight])]

theorem Inv.scan {initial s t : State Path} {events : List (Event Path)}
    {files : Table Path (Option FileSignature)} (h : Inv opts initial events s)
    (hstep : step opts s (.scan files) = some t) : Inv opts initial (events ++ [.scan files]) t := by
  have hrun : Transition.run (step opts) initial (events ++ [.scan files]) = some t := by
    rw [run_concat, h.run]
    exact hstep
  have hretained : ∀ p, ∀ e ∈ (s.retain files).known.find p, e.Accounts (observations p events) :=
    fun p e he => h.accounts p e (retain_sub he)
  refine ⟨hrun, ?_, ?_, ?_⟩
  · exact scan_eq hstep ▸ h.running.scan files
  · intro p e he
    rw [scan_eq hstep] at he
    rw [observations_concat]
    rcases s.scan_cases opts files p with
      ⟨hnone, hfind, -⟩ | ⟨sig, free, hsig, hfind, -⟩
    · rw [hfind] at he
      rw [observed, hnone, Option.toList_none, List.append_nil]
      exact hretained p e he
    · rw [hfind] at he
      cases he
      rw [observed, hsig, Option.toList_some]
      exact WatchEntry.observe_accounts opts.settle free sig (hretained p)
  · intro p hp
    by_cases hbefore : p ∈ s.set
    · -- The task was in flight before the scan.
      obtain ⟨before, files₀, middle, sig, entry, rfl, hspawns, hsig, hjoined, hentry, htracks⟩ :=
        h.since p hbefore
      have hkept := retain_inFlight files hentry htracks.inFlight
      have hjoined' : ∀ ok, .joined p ok ∉ middle ++ [.scan files] := by
        simp [hjoined]
      rcases s.scan_cases opts files p with
        ⟨hnone, hfind, -⟩ | ⟨x, free, hx, hfind, -⟩
      · refine ⟨before, files₀, middle ++ [.scan files], sig, entry, by simp, hspawns, hsig,
          hjoined', ?_, ?_⟩
        · rw [scan_eq hstep, hfind, hkept]
        · rw [observations_concat, observed, hnone, Option.toList_none, List.append_nil]
          exact htracks
      · rw [hkept] at hfind
        refine ⟨before, files₀, middle ++ [.scan files], sig, _, by simp, hspawns, hsig,
          hjoined', scan_eq hstep ▸ hfind, ?_⟩
        rw [observations_concat, observed, hx, Option.toList_some]
        exact htracks.observe opts.settle free
    · -- The scan spawned it.
      have hspawns : Spawns opts initial events files p := ⟨s, t, h.run, hstep, hbefore, hp⟩
      rw [scan_eq hstep] at hp
      rcases s.scan_cases opts files p with ⟨-, -, hset⟩ | ⟨sig, free, hsig, hfind, hset⟩
      · exact absurd (hset.mp hp) hbefore
      · obtain ⟨-, -, -, hflight, hentrysig, hclean⟩ :=
          WatchEntry.observe_spawns (hretained p) ((hset.mp hp).resolve_left hbefore)
        refine ⟨events, files, [], sig, _, rfl, hspawns, Option.join_eq_some_iff.mp hsig, by simp,
          scan_eq hstep ▸ hfind, hflight, ?_, fun _ => hentrysig⟩
        simp [hclean, observations]

theorem Inv.joined {initial s t : State Path} {events : List (Event Path)} {path : Path} {ok : Bool}
    (h : Inv opts initial events s) (hstep : step opts s (.joined path ok) = some t) :
    Inv opts initial (events ++ [.joined path ok]) t := by
  have hrun : Transition.run (step opts) initial (events ++ [.joined path ok]) = some t := by
    rw [run_concat, h.run]
    exact hstep
  obtain ⟨entry, hmem, hentry, hflight, hset, hfind⟩ := joined_cases h.running hstep
  have hlog : ∀ p, observations p (events ++ [.joined path ok]) = observations p events := by
    simp [observations_concat, observed]
  refine ⟨hrun, ⟨?_, ?_, ?_⟩, ?_, ?_⟩
  · intro p
    rw [hset, hfind, h.running.nodup.mem_erase_iff, h.running.entries p]
    by_cases hp : p = path
    · have hended : (entry.complete ok).status ≠ .inFlight := by
        rw [WatchEntry.complete, if_neg (by simp [hflight])]
        cases entry.dirty <;> cases ok <;> simp
      simp [hp, hended]
    · simp [hp]
  · exact hset ▸ h.running.nodup.erase path
  · rw [hset]
    exact Nat.le_trans List.length_erase_le h.running.slots
  · intro p e he
    rw [hfind] at he
    rw [hlog]
    split at he
    · rename_i hp
      cases he
      exact WatchEntry.complete_accounts ok (hp ▸ h.accounts path entry hentry)
    · exact h.accounts p e he
  · intro p hp
    rw [hset, h.running.nodup.mem_erase_iff] at hp
    obtain ⟨hne, hbefore⟩ := hp
    obtain ⟨before, files, middle, sig, e, rfl, hspawns, hsig, hjoined, he, htracks⟩ :=
      h.since p hbefore
    refine ⟨before, files, middle ++ [.joined path ok], sig, e, by simp, hspawns, hsig, ?_, ?_, ?_⟩
    · simp [hjoined, hne]
    · rw [hfind, if_neg hne, he]
    · simpa [observations_concat, observed] using htracks

/-- An event that shows nothing and leaves the entries and tasks alone. -/
theorem Inv.quiet {initial s t : State Path} {events : List (Event Path)} {e : Event Path}
    (h : Inv opts initial events s) (hstep : step opts s e = some t) (hknown : t.known = s.known)
    (hset : t.set = s.set) (hquiet : ∀ p, observed p e = none) (hjoined : ∀ p ok, e ≠ .joined p ok) :
    Inv opts initial (events ++ [e]) t := by
  have hrun : Transition.run (step opts) initial (events ++ [e]) = some t := by
    rw [run_concat, h.run]
    exact hstep
  have hlog : ∀ p events, observations p (events ++ [e]) = observations p events := by
    simp [observations_concat, hquiet]
  refine ⟨hrun, ⟨?_, ?_, ?_⟩, ?_, ?_⟩
  · rw [hknown, hset]
    exact h.running.entries
  · exact hset ▸ h.running.nodup
  · exact hset ▸ h.running.slots
  · intro p
    rw [hlog, hknown]
    exact h.accounts p
  · intro p hp
    obtain ⟨before, files, middle, sig, entry, rfl, hspawns, hsig, hmiddle, hentry, htracks⟩ :=
      h.since p (hset ▸ hp)
    refine ⟨before, files, middle ++ [e], sig, entry, by simp, hspawns, hsig, ?_, hknown ▸ hentry,
      ?_⟩
    · simp [hmiddle, (hjoined p _).symm]
    · rw [hlog]
      exact htracks

theorem start_find {backlog : Table Path FileSignature} {p : Path} {e : WatchEntry}
    (h : (start backlog).known.find p = some e) : e.status = .done ∧ e.dirty = false := by
  have hmem := Table.find_eq_some.mp h
  obtain ⟨x, -, hx⟩ := List.mem_map.mp hmem
  cases hx
  exact ⟨rfl, rfl⟩

theorem start_inv (backlog : Table Path FileSignature) :
    Inv opts (start backlog) [] (start backlog) := by
  refine ⟨rfl, ⟨?_, List.nodup_nil, Nat.zero_le _⟩, ?_, by simp [start]⟩
  · intro p
    apply iff_of_false List.not_mem_nil
    rintro ⟨e, he, hflight⟩
    simp [(start_find he).1] at hflight
  · intro p e he
    have hdone := start_find he
    exact ⟨by simp [hdone.1], by simp [hdone.1], fun _ => hdone.2⟩

theorem run_inv {backlog : Table Path FileSignature} {events : List (Event Path)} {s : State Path}
    (hrun : run (step opts) (start backlog) events = some s) :
    Inv opts (start backlog) events s := by
  refine run_history (Inv opts (start backlog)) ?_ hrun (start_inv backlog)
  intro acts s e t h hstep
  cases e with
  | scan files => exact h.scan hstep
  | joined path ok => exact h.joined hstep
  | scanFailed =>
      rw [step] at hstep
      split at hstep
      · cases hstep
      · cases hstep
        exact h.quiet (by simp [step, *]) rfl rfl (by simp [observed]) (by simp)
  | shutdown =>
      cases hstep
      exact h.quiet (by simp [step]) rfl rfl (by simp [observed]) (by simp)

/-- A task is spawned by a scan that finds the signature of its file settled. -/
theorem Inv.spawned {initial s t : State Path} {events : List (Event Path)} {e : Event Path}
    {p : Path} (h : Inv opts initial events s) (hstep : step opts s e = some t) (hbefore : p ∉ s.set)
    (hp : p ∈ t.set) : ∃ sig, Settled opts sig (observations p (events ++ [e])) := by
  cases e with
  | scan files =>
      rw [scan_eq hstep] at hp
      rcases s.scan_cases opts files p with ⟨-, -, hset⟩ | ⟨sig, free, hsig, -, hset⟩
      · exact absurd (hset.mp hp) hbefore
      · have hretained : ∀ e ∈ (s.retain files).known.find p, e.Accounts (observations p events) :=
          fun e he => h.accounts p e (retain_sub he)
        have hspawn := WatchEntry.observe_spawns hretained ((hset.mp hp).resolve_left hbefore)
        refine ⟨sig, ?_⟩
        rw [observations_concat, observed, hsig, Option.toList_some]
        exact hspawn.2.2.1
  | joined path ok =>
      obtain ⟨entry, -, -, -, hset, -⟩ := joined_cases h.running hstep
      exact absurd (List.mem_of_mem_erase (hset ▸ hp)) hbefore
  | scanFailed =>
      rw [step] at hstep
      split at hstep
      · cases hstep
      · cases hstep
        exact absurd hp hbefore
  | shutdown =>
      cases hstep
      exact absurd hp hbefore

/-- The watch state machine: in every run at most one task is in flight for a file and no more than
there are slots; a file is scheduled once it has settled; and the end of its task is recorded unless
a scan since its scheduling saw another signature, which sends the file back to settle. -/
theorem watch_sound {backlog : Table Path FileSignature} {events : List (Event Path)}
    {s : State Path} (hrun : run (step opts) (start backlog) events = some s) :
    (s.set.Nodup ∧ s.set.length ≤ max opts.concurrency 1) ∧
    (∀ e t p, step opts s e = some t → p ∉ s.set → p ∈ t.set →
      ∃ sig, Settled opts sig (observations p (events ++ [e]))) ∧
    ∀ p ok t, step opts s (.joined p ok) = some t →
      ∃ before files middle sig entry, events = before ++ .scan files :: middle ∧
        Spawns opts (start backlog) before files p ∧ files.find p = some (some sig) ∧
        (∀ ok, .joined p ok ∉ middle) ∧ t.known.find p = some entry ∧
        entry.status
          = if ∀ x ∈ observations p middle, x = sig then (if ok then .done else .failed)
            else .pending := by
  have hinv := run_inv hrun
  refine ⟨⟨hinv.running.nodup, hinv.running.slots⟩, ?_, ?_⟩
  · exact fun e t p hstep => hinv.spawned hstep
  · intro p ok t hstep
    obtain ⟨entry, hmem, hentry, -, -, hfind⟩ := joined_cases hinv.running hstep
    obtain ⟨before, files, middle, sig, e, hsplit, hspawns, hsig, hjoined, he, htracks⟩ :=
      hinv.since p hmem
    cases hentry.symm.trans he
    refine ⟨before, files, middle, sig, _, hsplit, hspawns, hsig, hjoined, ?_, htracks.complete ok⟩
    rw [hfind, if_pos rfl]

def listed (len : Nat) : Table String (Option FileSignature) :=
  ⟨[("a.wav", some ⟨len, none⟩)], List.nodup_singleton _⟩

/-- A recording that grows under its task. -/
def grown : List (Event String) := [.scan (listed 8), .scan (listed 8), .scan (listed 9)]

theorem watch_sound_grown :
    ∃ s : State String, run (step ⟨1, 1⟩) (start Table.empty) grown = some s ∧ s.set = ["a.wav"] ∧
      s.set.Nodup ∧ s.set.length ≤ max 1 1 := by
  obtain ⟨s, hrun⟩ : ∃ s : State String, run (step ⟨1, 1⟩) (start Table.empty) grown = some s :=
    ⟨_, rfl⟩
  refine ⟨s, hrun, ?_, (watch_sound hrun).1⟩
  rw [← Option.some.inj hrun]
  rfl

end Gigastt.Watch
