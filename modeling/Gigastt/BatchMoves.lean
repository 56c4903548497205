import Gigastt.BatchRun

/-!
What a batch run keeps when its inputs move to places of their own: a source stands where it was
until it has arrived, and where it arrives nothing else is put.
-/

namespace Gigastt.BatchRun

open Transition Batch

variable {V : Type*} {opts : BatchOptions} {moveTo : Path} {tree : Batch.Tree V}

/-- A source stands at its destination, byte for byte. -/
def Arrived (opts : BatchOptions) (tree : Batch.Tree V) (disk : Disk V) (p : Path) : Prop :=
  ∃ dest, opts.dest p = some dest ∧ disk.isDir dest = false ∧ disk.files dest = tree.root.find p

structure Inv (opts : BatchOptions) (tree : Batch.Tree V) (s : State V) : Prop where
  nodup : (s.done ++ s.set ++ s.todo).Nodup
  known : ∀ p ∈ s.done ++ s.set ++ s.todo, p ∈ inputs opts tree
  running : ∀ p, (s.tasks p).isSome → p ∈ s.set
  isDir : s.disk.isDir = (Disk.ofTree tree).isDir
  waiting : ∀ p ∈ s.todo, s.disk.files p = tree.root.find p
  source : ∀ p, ∀ task ∈ s.tasks p, task.phase ≠ .finished true →
    s.disk.files p = tree.root.find p
  arriving : ∀ p, ∀ task ∈ s.tasks p, task.phase.placed = true → Arrived opts tree s.disk p
  arrived : ∀ p ∈ s.done, Arrived opts tree s.disk p
  free : ∀ p ∈ inputs opts tree, p ∉ s.disk.placed → ∀ dest ∈ opts.dest p,
    s.disk.isDir dest = false → s.disk.files dest = none
  clean : s.disk.overwriting = []

section Inputs

variable {p q : Path}

theorem mem_inputs (h : p ∈ inputs opts tree) :
    (∃ bytes, tree.root.find p = some bytes) ∧ isAudioFile p = true ∧
      ∀ excluded ∈ opts.moveTo, ¬excluded <+: p := by
  obtain ⟨⟨path, bytes⟩, hx, rfl⟩ := List.mem_map.mp h
  obtain ⟨hfind, haudio, houtside⟩ := mem_scanInputs hx
  exact ⟨⟨bytes, hfind⟩, haudio, houtside⟩

theorem nodup_inputs (opts : BatchOptions) (tree : Batch.Tree V) : (inputs opts tree).Nodup :=
  (scanInputs opts.inputDir opts.moveTo tree).nodup

theorem dest_eq {dest : Path} (hmove : opts.moveTo = some moveTo)
    (hdest : opts.dest p = some dest) : ∃ name, p.fileName = some name ∧ dest = moveTo ++ [name] := by
  rw [BatchOptions.dest, hmove, Option.bind_some, Option.map_eq_some_iff] at hdest
  obtain ⟨name, hname, rfl⟩ := hdest
  exact ⟨name, hname, rfl⟩

/-- Inputs with the same destination are the same. -/
theorem Apart.dest_inj {dest : Path} (hapart : Apart opts moveTo tree)
    (hmove : opts.moveTo = some moveTo) (hp : p ∈ inputs opts tree) (hq : q ∈ inputs opts tree)
    (hdestp : opts.dest p = some dest) (hdestq : opts.dest q = some dest)
    (hdir : (Disk.ofTree tree).isDir dest = false) : q = p := by
  obtain ⟨name, hname, rfl⟩ := dest_eq hmove hdestp
  obtain ⟨other, hother, heq⟩ := dest_eq hmove hdestq
  obtain rfl : name = other := by simpa using heq
  have hnone := Option.isSome_eq_false_iff.mp hdir
  exact (hapart p hp name hname (Option.isNone_iff_eq_none.mp hnone)).2 q hq hother

end Inputs

section Calls

variable {path : Path} {disk disk' : Disk V} {task task' : FileTask V}

theorem isDir_of_advances (h : FileTask.Advances opts path disk task disk' task') :
    disk'.isDir = disk.isDir := by
  cases h with
  | wrote _ _ _ out left => exact Disk.write_isDir out left
  | writeFailed out left => exact Disk.write_isDir out left
  | _ => rfl

theorem placed_of_advances (h : FileTask.Advances opts path disk task disk' task') :
    disk'.placed = disk.placed ∨ disk'.placed = disk.placed ++ [path] := by
  cases h with
  | wrote _ _ _ out left => exact Or.inl (Disk.write_placed out left)
  | writeFailed out left => exact Or.inl (Disk.write_placed out left)
  | renamed => exact Or.inr rfl
  | copied => exact Or.inr rfl
  | copyFailed => exact Or.inr rfl
  | _ => exact Or.inl rfl

/-- A call leaves the destinations of other inputs alone. -/
theorem files_dest_of_advances {q dest : Path} (hapart : Apart opts moveTo tree)
    (hmove : opts.moveTo = some moveTo) (hpath : path ∈ inputs opts tree)
    (hq : q ∈ inputs opts tree) (hne : q ≠ path) (hisDir : disk.isDir = (Disk.ofTree tree).isDir)
    (h : FileTask.Advances opts path disk task disk' task') (hdest : opts.dest q = some dest) :
    disk'.files dest = disk.files dest := by
  obtain ⟨-, -, houtside⟩ := mem_inputs hpath
  obtain ⟨-, haudio, -⟩ := mem_inputs hq
  apply h.files_of_ne
  · exact (dest_ne houtside hdest).symm
  · rw [dest_audio hdest, haudio]
  · rintro other hother hdir rfl
    exact hne (hapart.dest_inj hmove hpath hq hother hdest (hisDir ▸ hdir))

/-- A task has its source until it has taken it to its destination. -/
theorem source_of_advances (hpath : path ∈ inputs opts tree)
    (h : FileTask.Advances opts path disk task disk' task') (hphase : task'.phase ≠ .finished true) :
    task.phase ≠ .finished true ∧ disk'.files path = disk.files path := by
  obtain ⟨-, haudio, houtside⟩ := mem_inputs hpath
  cases h with
  | read heard hbefore => exact ⟨by simp [hbefore], rfl⟩
  | failed hbefore => exact ⟨hbefore, rfl⟩
  | wrote heard _ _ out left hbefore hout =>
      exact ⟨by simp [hbefore], Disk.write_files_of_audio left hout haudio⟩
  | writeFailed out left hbefore hout =>
      exact ⟨hbefore, Disk.write_files_of_audio left hout haudio⟩
  | renamed => exact absurd rfl hphase
  | renameFailed heard hbefore => exact ⟨by simp [hbefore], rfl⟩
  | copied heard bytes dest hbefore hdest =>
      refine ⟨by simp [hbefore], ?_⟩
      rw [Disk.place_files, if_neg (dest_ne houtside hdest)]
  | copyFailed heard left dest hbefore hdest =>
      refine ⟨by simp [hbefore], ?_⟩
      rw [Disk.place_files, if_neg (dest_ne houtside hdest)]
  | removed => exact absurd rfl hphase

/-- A source arrives before it is gone. -/
theorem arrived_of_advances (hmove : opts.moveTo = some moveTo) (hpath : path ∈ inputs opts tree)
    (hsource : task.phase ≠ .finished true → disk.files path = tree.root.find path)
    (harriving : task.phase.placed = true → Arrived opts tree disk path)
    (h : FileTask.Advances opts path disk task disk' task') (hplaced : task'.phase.placed = true) :
    Arrived opts tree disk' path := by
  obtain ⟨-, haudio, houtside⟩ := mem_inputs hpath
  have hwritten : ∀ heard formats, (opts.written (V := V) heard formats).placed ≠ true := by
    intro heard formats
    rw [(written_placed (hmove ▸ rfl) heard formats).1]
    exact Bool.false_ne_true
  have hfail : ∀ task : FileTask V, (task.fail opts).phase.placed ≠ true := by
    intro task
    rw [FileTask.fail_placed]
    exact Bool.false_ne_true
  cases h with
  | read heard => exact absurd hplaced (hwritten heard opts.formats)
  | failed => exact absurd hplaced (hfail task)
  | wrote heard _ formats => exact absurd hplaced (hwritten heard formats)
  | writeFailed => exact absurd hplaced (hfail task)
  | renamed heard bytes dest hbefore hdest hfile hdir =>
      refine ⟨dest, hdest, hdir, ?_⟩
      rw [Disk.place_files, if_pos rfl, ← hsource (by simp [hbefore]), hfile]
  | renameFailed => cases hplaced
  | copied heard bytes dest hbefore hdest hfile hdir =>
      refine ⟨dest, hdest, hdir, ?_⟩
      rw [Disk.place_files, if_pos rfl, ← hsource (by simp [hbefore]), hfile]
  | copyFailed => exact absurd hplaced (hfail task)
  | removed heard bytes hbefore hfile =>
      obtain ⟨dest, hdest, hdir, harrived⟩ := harriving (by rw [hbefore]; rfl)
      refine ⟨dest, hdest, hdir, ?_⟩
      rw [Disk.discard_files, if_neg (dest_ne houtside hdest).symm, harrived]

/-- A call that places nothing leaves the destination of its own source alone. -/
theorem free_of_advances {dest : Path} (hpath : path ∈ inputs opts tree)
    (h : FileTask.Advances opts path disk task disk' task') (hplaced : path ∉ disk'.placed)
    (hdest : opts.dest path = some dest) : disk'.files dest = disk.files dest := by
  obtain ⟨-, haudio, houtside⟩ := mem_inputs hpath
  have hdestaudio := (dest_audio hdest).trans haudio
  cases h with
  | read => rfl
  | failed => rfl
  | wrote _ _ _ out left _ hout => exact Disk.write_files_of_audio left hout hdestaudio
  | writeFailed out left _ hout => exact Disk.write_files_of_audio left hout hdestaudio
  | renamed => simp [Disk.place] at hplaced
  | renameFailed => rfl
  | copied => simp [Disk.place] at hplaced
  | copyFailed => simp [Disk.place] at hplaced
  | removed => rw [Disk.discard_files, if_neg (dest_ne houtside hdest).symm]

/-- A source is placed where no file of another stands. -/
theorem overwriting_of_advances (hpath : path ∈ inputs opts tree)
    (hfree : path ∉ disk.placed → ∀ dest ∈ opts.dest path, disk.isDir dest = false →
      disk.files dest = none)
    (h : FileTask.Advances opts path disk task disk' task') :
    disk'.overwriting = disk.overwriting := by
  obtain ⟨-, -, houtside⟩ := mem_inputs hpath
  have hplace : ∀ dest, opts.dest path = some dest → disk.isDir dest = false →
      ¬((disk.files dest).isSome ∧ path ∉ disk.placed) := by
    rintro dest hdest hdir ⟨hsome, hplaced⟩
    rw [hfree hplaced dest hdest hdir] at hsome
    cases hsome
  cases h with
  | wrote _ _ _ out left => exact Disk.write_overwriting out left
  | writeFailed out left => exact Disk.write_overwriting out left
  | renamed heard bytes dest _ hdest _ hdir =>
      apply if_neg
      rw [Disk.discard_files, if_neg (dest_ne houtside hdest).symm]
      exact hplace dest hdest hdir
  | copied heard bytes dest _ hdest _ hdir => exact if_neg (hplace dest hdest hdir)
  | copyFailed heard left dest _ hdest hdir => exact if_neg (hplace dest hdest hdir)
  | _ => rfl

theorem Arrived.of_advances {q : Path} (hapart : Apart opts moveTo tree)
    (hmove : opts.moveTo = some moveTo) (hpath : path ∈ inputs opts tree)
    (hq : q ∈ inputs opts tree) (hne : q ≠ path) (hisDir : disk.isDir = (Disk.ofTree tree).isDir)
    (h : FileTask.Advances opts path disk task disk' task') (harrived : Arrived opts tree disk q) :
    Arrived opts tree disk' q := by
  obtain ⟨dest, hdest, hdir, hfile⟩ := harrived
  refine ⟨dest, hdest, isDir_of_advances h ▸ hdir, ?_⟩
  rw [files_dest_of_advances hapart hmove hpath hq hne hisDir h hdest, hfile]

end Calls

section Steps

variable {s t : State V}

theorem Inv.call {path : Path} {reply : Reply V} (hapart : Apart opts moveTo tree)
    (hmove : opts.moveTo = some moveTo) (h : Inv opts tree s)
    (hstep : step opts s (.call path reply) = some t) : Inv opts tree t := by
  obtain ⟨task, htask, hcalled⟩ := Option.bind_eq_some_iff.mp hstep
  obtain ⟨⟨disk, task'⟩, hadvance, rfl⟩ := Option.map_eq_some_iff.mp hcalled
  have hadv := FileTask.advances hadvance
  have hset : path ∈ s.set := h.running path (by simp [htask])
  have hpath : path ∈ inputs opts tree := h.known path (by simp [hset])
  obtain ⟨-, -, houtside⟩ := mem_inputs hpath
  have hother : ∀ q ∈ inputs opts tree, q ≠ path → disk.files q = s.disk.files q := by
    intro q hq hne
    obtain ⟨-, haudio, hq⟩ := mem_inputs hq
    exact hadv.files_of_ne hne haudio fun dest hdest _ => dest_ne hq hdest
  have hinput : ∀ {q u}, s.tasks q = some u → q ∈ inputs opts tree := by
    intro q u hu
    have hq := h.running q (by simp [hu])
    exact h.known q (by simp [hq])
  have hkept : ∀ {q}, q ∈ inputs opts tree → q ≠ path → Arrived opts tree s.disk q →
      Arrived opts tree disk q :=
    fun hq hne => Arrived.of_advances hapart hmove hpath hq hne h.isDir hadv
  refine ⟨h.nodup, h.known, ?_, (isDir_of_advances hadv).trans h.isDir, ?_, ?_, ?_, ?_, ?_, ?_⟩
  · intro p hp
    obtain ⟨u, hu⟩ := Option.isSome_iff_exists.mp hp
    rcases update_some hu with ⟨rfl, -⟩ | ⟨-, hold⟩
    · exact hset
    · exact h.running p (by simp [hold])
  · intro p hp
    have hne : p ≠ path := by
      rintro rfl
      have hdisjoint := (List.nodup_append.mp h.nodup).2.2
      exact hdisjoint p (by simp [hset]) p hp rfl
    exact (hother p (h.known p (by simp [hp])) hne).trans (h.waiting p hp)
  · intro p u hu hphase
    rcases update_some hu with ⟨rfl, rfl⟩ | ⟨hne, hold⟩
    · obtain ⟨hbefore, hsame⟩ := source_of_advances hpath hadv hphase
      exact hsame.trans (h.source p task htask hbefore)
    · exact (hother p (hinput hold) hne).trans (h.source p u hold hphase)
  · intro p u hu hplaced
    rcases update_some hu with ⟨rfl, rfl⟩ | ⟨hne, hold⟩
    · exact arrived_of_advances hmove hpath (h.source p task htask) (h.arriving p task htask) hadv
        hplaced
    · exact hkept (hinput hold) hne (h.arriving p u hold hplaced)
  · intro p hp
    have hne : p ≠ path := by
      rintro rfl
      have hdisjoint := (List.nodup_append.mp (List.nodup_append.mp h.nodup).1).2.2
      exact hdisjoint p hp p hset rfl
    exact hkept (h.known p (by simp [hp])) hne (h.arrived p hp)
  · intro p hp hplaced dest hdest hdir
    have hbefore : p ∉ s.disk.placed := by
      intro hmem
      rcases placed_of_advances hadv with hsame | hmore
      · exact hplaced (hsame ▸ hmem)
      · exact hplaced (hmore ▸ List.mem_append_left [path] hmem)
    have hfree := h.free p hp hbefore dest hdest (isDir_of_advances hadv ▸ hdir)
    by_cases hne : p = path
    · subst hne
      exact (free_of_advances hpath hadv hplaced hdest).trans hfree
    · exact (files_dest_of_advances hapart hmove hpath hp hne h.isDir hadv hdest).trans hfree
  · exact (overwriting_of_advances hpath (h.free path hpath) hadv).trans h.clean

theorem Inv.spawn (h : Inv opts tree s) (hstep : step opts s .spawn = some t) : Inv opts tree t := by
  rw [step] at hstep
  split at hstep
  · cases hstep
  · rename_i path rest htodo
    split at hstep
    · cases hstep
      have hmoved : s.done ++ (s.set ++ [path]) ++ rest = s.done ++ s.set ++ s.todo := by
        simp [htodo]
      have hpath : path ∈ s.todo := by simp [htodo]
      refine ⟨hmoved ▸ h.nodup, hmoved ▸ h.known, ?_, h.isDir, ?_, ?_, ?_, h.arrived, h.free,
        h.clean⟩
      · intro p hp
        obtain ⟨u, hu⟩ := Option.isSome_iff_exists.mp hp
        rcases update_some hu with ⟨rfl, -⟩ | ⟨-, hold⟩
        · simp
        · exact List.mem_append_left [path] (h.running p (by simp [hold]))
      · exact fun p hp => h.waiting p (htodo ▸ List.mem_cons_of_mem path hp)
      · intro p u hu hphase
        rcases update_some hu with ⟨rfl, -⟩ | ⟨-, hold⟩
        · exact h.waiting p hpath
        · exact h.source p u hold hphase
      · intro p u hu hplaced
        rcases update_some hu with ⟨rfl, rfl⟩ | ⟨-, hold⟩
        · cases hplaced
        · exact h.arriving p u hold hplaced
    · cases hstep

theorem Inv.join {path : Path} (h : Inv opts tree s) (hstep : step opts s (.join path) = some t) :
    Inv opts tree t := by
  rw [step] at hstep
  split at hstep
  · rename_i ok hphase
    split at hstep
    · cases hstep
      obtain ⟨task, htask, hfinished⟩ := Option.map_eq_some_iff.mp hphase
      have hset : path ∈ s.set := h.running path (by simp [htask])
      have hperm : (s.done ++ [path] ++ s.set.erase path ++ s.todo).Perm
          (s.done ++ s.set ++ s.todo) := by
        apply List.Perm.append_right s.todo
        rw [List.append_assoc]
        exact (List.perm_cons_erase hset).symm.append_left s.done
      have hsub : ((if ok = true then s.done ++ [path] else s.done) ++ s.set.erase path
          ++ s.todo).Subperm (s.done ++ s.set ++ s.todo) := by
        cases ok with
        | true => exact hperm.subperm
        | false =>
            apply List.Sublist.subperm
            exact (List.erase_sublist.append_left s.done).append_right s.todo
      refine ⟨?_, ?_, ?_, h.isDir, h.waiting, ?_, ?_, ?_, h.free, h.clean⟩
      · obtain ⟨l, hl, hsublist⟩ := hsub
        exact hl.nodup_iff.mp (h.nodup.sublist hsublist)
      · exact fun p hp => h.known p (hsub.subset hp)
      · intro p hp
        obtain ⟨u, hu⟩ := Option.isSome_iff_exists.mp hp
        have hne : p ≠ path := by
          rintro rfl
          simp at hp
        exact (List.mem_erase_of_ne hne).mpr (h.running p (by simp [update_none hu]))
      · exact fun p u hu => h.source p u (update_none hu)
      · exact fun p u hu => h.arriving p u (update_none hu)
      · intro p hp
        cases ok with
        | false => exact h.arrived p hp
        | true =>
            rcases List.mem_append.mp hp with hold | hnew
            · exact h.arrived p hold
            · obtain rfl := List.mem_singleton.mp hnew
              exact h.arriving p task htask (by rw [hfinished]; rfl)
    · cases hstep
  · cases hstep

theorem Inv.step {e : Event V} (hapart : Apart opts moveTo tree) (hmove : opts.moveTo = some moveTo)
    (h : Inv opts tree s) (hstep : step opts s e = some t) : Inv opts tree t := by
  cases e with
  | spawn => exact h.spawn hstep
  | call path reply => exact h.call hapart hmove hstep
  | join path => exact h.join hstep
  | cancel =>
      cases hstep
      exact ⟨h.nodup, h.known, h.running, h.isDir, h.waiting, h.source, h.arriving, h.arrived,
        h.free, h.clean⟩

theorem start_inv (hapart : Apart opts moveTo tree) (hmove : opts.moveTo = some moveTo) :
    Inv opts tree (start opts tree) := by
  refine ⟨?_, ?_, ?_, rfl, fun p _ => rfl, ?_, ?_, ?_, ?_, rfl⟩
  · exact nodup_inputs opts tree
  · exact fun p hp => hp
  · simp [start]
  · simp [start]
  · simp [start]
  · simp [start]
  · intro p hp _ dest hdest hdir
    obtain ⟨name, hname, rfl⟩ := dest_eq hmove hdest
    have hnone := Option.isSome_eq_false_iff.mp hdir
    exact (hapart p hp name hname (Option.isNone_iff_eq_none.mp hnone)).1

theorem Inv.preserved (hmove : opts.moveTo = some moveTo) (h : Inv opts tree s) :
    Preserved tree moveTo s := by
  refine ⟨fun p hp => ?_, h.clean⟩
  obtain ⟨dest, hdest, -, hfile⟩ := h.arrived p hp
  obtain ⟨⟨bytes, hbytes⟩, -⟩ := mem_inputs (h.known p (by simp [hp]))
  exact ⟨dest, bytes, dest_under hmove hdest, hbytes, hfile.trans hbytes⟩

end Steps

end Gigastt.BatchRun
