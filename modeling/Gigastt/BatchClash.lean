import Gigastt.BatchMoves

/-!
Two inputs with the same last component, or one whose name is taken in the move-to directory. The
run that gives up the inputs before them, and then processes them, puts one file over another.
-/

namespace Gigastt.BatchRun

open Transition Batch

variable {V : Type*} {opts : BatchOptions} {moveTo : Path} {tree : Batch.Tree V} {s t : State V}

/-- The inputs `l` are still to be processed, and as many of them as fit are about to start. -/
structure Ready (opts : BatchOptions) (l : List Path) (s : State V) : Prop where
  set : s.set = l.take (slots opts)
  todo : s.todo = l.drop (slots opts)
  fresh : ∀ p ∈ s.set, s.tasks p = some FileTask.fresh
  cancelled : s.cancelled = false

/-- The scheduler tops up. -/
theorem exists_filled (l : List Path) (k left : Nat) (hk : k + left = slots opts)
    (hset : s.set = l.take k) (htodo : s.todo = l.drop k)
    (hfresh : ∀ p ∈ s.set, s.tasks p = some FileTask.fresh) (hcancelled : s.cancelled = false) :
    ∃ events t, run (step opts) s events = some t ∧ Ready opts l t ∧ t.disk = s.disk := by
  induction left generalizing k s with
  | zero =>
      obtain rfl : k = slots opts := hk
      exact ⟨[], s, rfl, ⟨hset, htodo, hfresh, hcancelled⟩, rfl⟩
  | succ left ih =>
      cases hdrop : l.drop k with
      | nil =>
          have hle : l.length ≤ k := List.drop_eq_nil_iff.mp hdrop
          refine ⟨[], s, rfl, ⟨?_, ?_, hfresh, hcancelled⟩, rfl⟩
          · rw [hset, List.take_of_length_le hle, List.take_of_length_le (by omega)]
          · rw [htodo, hdrop, List.drop_eq_nil_iff.mpr (by omega)]
      | cons p rest =>
          have hlt : k < l.length := by
            by_contra hge
            rw [List.drop_eq_nil_iff.mpr (by omega)] at hdrop
            cases hdrop
          have hhead : l.take k ++ [p] = l.take (k + 1) := by
            rw [List.take_add, hdrop]
            rfl
          have hrest : rest = l.drop (k + 1) := by
            rw [← List.drop_drop, hdrop]
            rfl
          have hstep : step opts s .spawn = some
              { s with
                todo := rest
                set := s.set ++ [p]
                tasks := Function.update s.tasks p (some FileTask.fresh) } := by
            have hroom : s.set.length < slots opts := by
              rw [hset, List.length_take]
              omega
            simp [step, htodo, hdrop, hcancelled, hroom]
          have hfresh' : ∀ q ∈ s.set ++ [p],
              Function.update s.tasks p (some FileTask.fresh) q = some FileTask.fresh := by
            intro q hq
            by_cases hne : q = p
            · subst hne
              exact Function.update_self ..
            · rw [Function.update_of_ne hne]
              exact hfresh q (by simpa [hne] using hq)
          obtain ⟨events, t, hrun, hready, hdisk⟩ := ih (k + 1) (by omega)
            (s := { s with
              todo := rest
              set := s.set ++ [p]
              tasks := Function.update s.tasks p (some FileTask.fresh) })
            (by rw [← hhead, ← hset]) hrest hfresh' hcancelled
          refine ⟨.spawn :: events, t, ?_, hready, hdisk⟩
          rw [run, hstep]
          exact hrun

/-- The calls of one task, in the batch run. -/
theorem run_calls {p : Path} {replies : List (Reply V)} {task task' : FileTask V} {disk : Disk V}
    (htask : s.tasks p = some task)
    (hrun : run (FileTask.calls opts p) (s.disk, task) replies = some (disk, task')) :
    run (step opts) s (replies.map (.call p))
      = some { s with disk, tasks := Function.update s.tasks p (some task') } := by
  have hstep : ∀ (x : Disk V × FileTask V) reply y, FileTask.calls opts p x reply = some y →
      step opts { s with disk := x.1, tasks := Function.update s.tasks p (some x.2) } (.call p reply)
        = some { s with disk := y.1, tasks := Function.update s.tasks p (some y.2) } := by
    intro x reply y hcall
    have hadvance : x.2.advance opts p x.1 reply = some y := hcall
    simp [step, hadvance]
  have hwhole := run_map
    (fun x => { s with disk := x.1, tasks := Function.update s.tasks p (some x.2) }) (Event.call p)
    hstep hrun
  have hsame : Function.update s.tasks p (some task) = s.tasks := by
    rw [← htask, Function.update_eq_self]
  simpa only [hsame] using hwhole

/-- The first task ends, is joined, and the next input takes its place. -/
theorem Ready.next {p : Path} {rest : List Path} {replies : List (Reply V)} {task : FileTask V}
    {disk : Disk V} {ok : Bool} (h : Ready opts (p :: rest) s) (hnodup : (p :: rest).Nodup)
    (hrun : run (FileTask.calls opts p) (s.disk, FileTask.fresh) replies = some (disk, task))
    (hfinished : task.phase = .finished ok) :
    ∃ events t, run (step opts) s events = some t ∧ Ready opts rest t ∧ t.disk = disk := by
  obtain ⟨k, hk⟩ : ∃ k, slots opts = k + 1 := ⟨slots opts - 1, by
    have : 1 ≤ slots opts := Nat.le_max_right _ _
    omega⟩
  obtain ⟨hset, htodo, hfresh, hcancelled⟩ := h
  rw [hk, List.take_succ_cons] at hset
  rw [hk, List.drop_succ_cons] at htodo
  have hcalls := run_calls (hfresh p (by simp [hset])) hrun
  have htopped : s.ToppedUp opts := by
    rcases Nat.lt_or_ge rest.length k with hlt | hge
    · exact Or.inr (Or.inl (by rw [htodo, List.drop_eq_nil_iff]; omega))
    · refine Or.inr (Or.inr ?_)
      rw [hset, List.length_cons, List.length_take]
      omega
  have hjoined : step opts { s with disk, tasks := Function.update s.tasks p (some task) } (.join p)
      = some
        { s with
          disk
          set := s.set.erase p
          tasks := Function.update s.tasks p none
          done := if ok then s.done ++ [p] else s.done
          failed := if ok then s.failed else s.failed ++ [p] } := by
    have htop : State.ToppedUp opts
        { s with disk, tasks := Function.update s.tasks p (some task) } := htopped
    simp [step, hfinished, htop]
  have hp : p ∉ rest.take k := fun hmem => (List.nodup_cons.mp hnodup).1 (List.mem_of_mem_take hmem)
  have herase : s.set.erase p = rest.take k := by
    rw [hset, List.erase_cons_head]
  have hfresh' : ∀ q ∈ s.set.erase p,
      Function.update s.tasks p none q = some FileTask.fresh := by
    intro q hq
    have hmem : q ∈ rest.take k := herase ▸ hq
    have hne : q ≠ p := fun heq => hp (heq ▸ hmem)
    rw [Function.update_of_ne hne]
    exact hfresh q (by simp [hset, hmem])
  obtain ⟨events, t, hfill, hready, hdisk⟩ := exists_filled rest k 1 hk.symm
    (s := { s with
      disk
      set := s.set.erase p
      tasks := Function.update s.tasks p none
      done := if ok then s.done ++ [p] else s.done
      failed := if ok then s.failed else s.failed ++ [p] })
    herase htodo hfresh' hcancelled
  refine ⟨replies.map (.call p) ++ .join p :: events, t, ?_, hready, hdisk⟩
  apply run_append hcalls
  rw [run, hjoined]
  exact hfill

/-- An input whose transcriptions fail leaves no trace. -/
theorem Ready.skip {p : Path} {rest : List Path} (h : Ready opts (p :: rest) s)
    (hnodup : (p :: rest).Nodup) :
    ∃ events t, run (step opts) s events = some t ∧ Ready opts rest t ∧ t.disk = s.disk :=
  h.next hnodup (run_failing s.disk 0 opts.retries (Nat.zero_add _)) rfl

theorem Ready.skipAll {before rest : List Path} (h : Ready opts (before ++ rest) s)
    (hnodup : (before ++ rest).Nodup) :
    ∃ events t, run (step opts) s events = some t ∧ Ready opts rest t ∧ t.disk = s.disk := by
  induction before generalizing s with
  | nil => exact ⟨[], s, rfl, h, rfl⟩
  | cons p before ih =>
      obtain ⟨events, u, hrun, hready, hdisk⟩ := h.skip hnodup
      obtain ⟨more, t, hmore, hdone, hsame⟩ := ih hready (List.nodup_cons.mp hnodup).2
      exact ⟨events ++ more, t, run_append hrun hmore, hdone, hsame.trans hdisk⟩

/-- An input that is processed is moved. -/
theorem Ready.take {p dest : Path} {rest : List Path} {bytes : V} (h : Ready opts (p :: rest) s)
    (hnodup : (p :: rest).Nodup) (hfile : s.disk.files p = some bytes)
    (hdest : opts.dest p = some dest) (hdir : s.disk.isDir dest = false) :
    ∃ events t, run (step opts) s events = some t ∧ Ready opts rest t ∧
      t.disk = (s.disk.discard p bytes bytes).place p dest bytes := by
  obtain ⟨replies, hmoved⟩ := run_moved hfile hdest hdir
  exact h.next hnodup hmoved rfl

theorem start_ready (opts : BatchOptions) (tree : Batch.Tree V) :
    ∃ events t, run (step opts) (start opts tree) events = some t ∧
      Ready opts (inputs opts tree) t ∧ t.disk = Disk.ofTree tree :=
  exists_filled (inputs opts tree) 0 (slots opts) (Nat.zero_add _) rfl rfl (by simp [start]) rfl

theorem overwriting_place {disk : Disk V} {source dest : Path} (bytes : V)
    (hfile : (disk.files dest).isSome) (hplaced : source ∉ disk.placed) :
    (disk.place source dest bytes).overwriting ≠ [] := by
  simp [Disk.place, hfile, hplaced]

/-- A name that is taken in the move-to directory. -/
theorem overwrites_taken {p dest : Path} (hp : p ∈ inputs opts tree)
    (hdest : opts.dest p = some dest) (hdir : (Disk.ofTree tree).isDir dest = false)
    (htaken : tree.root.find dest ≠ none) :
    ∃ events t, run (step opts) (start opts tree) events = some t ∧ t.disk.overwriting ≠ [] := by
  obtain ⟨⟨bytes, hbytes⟩, -, houtside⟩ := mem_inputs hp
  have hnodup := nodup_inputs opts tree
  obtain ⟨events, s, hstart, hready, hdisk⟩ := start_ready opts tree
  obtain ⟨before, after, hsplit⟩ := List.append_of_mem hp
  rw [hsplit] at hready hnodup
  obtain ⟨skipped, u, hskip, hthere, hsame⟩ := hready.skipAll hnodup
  rw [hdisk] at hsame
  obtain ⟨taken, t, htake, -, hmoved⟩ := hthere.take (List.nodup_append.mp hnodup).2.1
    (by rw [hsame]; exact hbytes) hdest (by rw [hsame]; exact hdir)
  refine ⟨events ++ skipped ++ taken, t, run_append (run_append hstart hskip) htake, ?_⟩
  rw [hmoved]
  apply overwriting_place
  · rw [Disk.discard_files, if_neg (dest_ne houtside hdest).symm, hsame]
    exact Option.isSome_iff_ne_none.mpr htaken
  · rw [hsame]
    exact List.not_mem_nil

/-- Two inputs with the same last component. -/
theorem overwrites_other {p q dest : Path} {before middle after : List Path}
    (hsplit : inputs opts tree = before ++ p :: (middle ++ q :: after))
    (hdestp : opts.dest p = some dest) (hdestq : opts.dest q = some dest)
    (hdir : (Disk.ofTree tree).isDir dest = false) :
    ∃ events t, run (step opts) (start opts tree) events = some t ∧ t.disk.overwriting ≠ [] := by
  obtain ⟨⟨bytes, hbytes⟩, -, houtside⟩ := mem_inputs (hsplit ▸ by simp : p ∈ inputs opts tree)
  obtain ⟨⟨other, hother⟩, -, houtsideq⟩ := mem_inputs (hsplit ▸ by simp : q ∈ inputs opts tree)
  have hnodup := nodup_inputs opts tree
  obtain ⟨events, s, hstart, hready, hdisk⟩ := start_ready opts tree
  rw [hsplit] at hready hnodup
  have htail := (List.nodup_append.mp hnodup).2.1
  have hne : q ≠ p := by
    rintro rfl
    simp at htail
  obtain ⟨skipped, u, hskip, hthere, hsame⟩ := hready.skipAll hnodup
  rw [hdisk] at hsame
  obtain ⟨taken, v, htake, hnext, hmoved⟩ := hthere.take htail
    (by rw [hsame]; exact hbytes) hdestp (by rw [hsame]; exact hdir)
  obtain ⟨between, w, hbetween, hthere', hsame'⟩ :=
    hnext.skipAll (List.nodup_cons.mp htail).2
  rw [hmoved, hsame] at hsame'
  have hfileq : w.disk.files q = some other := by
    rw [hsame', Disk.place_files, if_neg (dest_ne houtsideq hdestq), Disk.discard_files, if_neg hne]
    exact hother
  obtain ⟨last, t, hlast, -, hover⟩ := hthere'.take
    (List.nodup_append.mp (List.nodup_cons.mp htail).2).2.1 hfileq hdestq
    (by rw [hsame']; exact hdir)
  refine ⟨events ++ skipped ++ taken ++ between ++ last, t, ?_, ?_⟩
  · exact run_append (run_append (run_append (run_append hstart hskip) htake) hbetween) hlast
  · rw [hover]
    apply overwriting_place
    · rw [Disk.discard_files, if_neg (dest_ne houtsideq hdestq).symm, hsame', Disk.place_files,
        if_pos rfl]
      rfl
    · rw [hsame']
      simpa [Disk.discard, Disk.place, Disk.ofTree] using hne

/-- Inputs that are not apart can end up one over another. -/
theorem exists_overwriting (hmove : opts.moveTo = some moveTo) (h : ¬Apart opts moveTo tree) :
    ∃ events t, run (step opts) (start opts tree) events = some t ∧ t.disk.overwriting ≠ [] := by
  simp only [Apart, not_forall] at h
  obtain ⟨p, hp, name, hname, hdir, hclash⟩ := h
  have hdest : ∀ {q : Path}, q.fileName = some name → opts.dest q = some (moveTo ++ [name]) := by
    intro q hq
    rw [BatchOptions.dest, hmove, Option.bind_some, hq, Option.map_some]
  have hdir' : (Disk.ofTree tree).isDir (moveTo ++ [name]) = false := by
    simp [Disk.ofTree, hdir]
  by_cases htaken : tree.root.find (moveTo ++ [name]) = none
  · simp only [htaken, true_and, not_forall] at hclash
    obtain ⟨q, hq, hsame, hne⟩ := hclash
    obtain ⟨before, after, hsplit⟩ := List.append_of_mem hp
    rw [hsplit] at hq
    rcases List.mem_append.mp hq with hmem | hmem
    · obtain ⟨first, middle, rfl⟩ := List.append_of_mem hmem
      have hsplit' : inputs opts tree = first ++ q :: (middle ++ p :: after) := by
        simp [hsplit]
      exact overwrites_other hsplit' (hdest hsame) (hdest hname) hdir'
    · have hafter := (List.mem_cons.mp hmem).resolve_left hne
      obtain ⟨middle, last, rfl⟩ := List.append_of_mem hafter
      exact overwrites_other hsplit (hdest hname) (hdest hsame) hdir'
  · exact overwrites_taken hp (hdest hname) hdir' htaken

instance (opts : BatchOptions) (moveTo : Path) (tree : Batch.Tree V) : Decidable (Apart opts moveTo tree) :=
  inferInstanceAs (Decidable (∀ p ∈ inputs opts tree, ∀ name ∈ p.fileName,
    tree.root.enter (moveTo ++ [name]) = none → tree.root.find (moveTo ++ [name]) = none ∧
      ∀ q ∈ inputs opts tree, q.fileName = some name → q = p))

/-- Recordings of two days, each in a directory of its own. -/
def recordings (first second : String) : Batch.Tree Nat where
  root :=
    .dir (ascii "in")
      (.dir (ascii "mon") (.file (ascii first) 1 .nil)
        (.dir (ascii "tue") (.file (ascii second) 2 .nil) .nil)) .nil
  distinct := by
    simp only [Entries.Distinct, Entries.names, List.not_mem_nil, not_false_eq_true, and_true,
      true_and]
    decide

def archiving : BatchOptions where
  inputDir := [ascii "in"]
  outputDir := [ascii "out"]
  formats := [.txt]
  moveTo := some [ascii "done"]
  deleteSource := false
  concurrency := 2
  retries := 0

end Gigastt.BatchRun
