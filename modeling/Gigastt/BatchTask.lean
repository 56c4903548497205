import Gigastt.BatchPaths
import Gigastt.Transition
import Mathlib.Logic.Function.Basic

/-!
The task of one file: attempts that read and transcribe it, write the outputs and then move or
delete the source, over the files of a disk that other tasks work on as well.
-/

namespace Gigastt.Batch

open Transition

structure BatchOptions where
  inputDir : Path
  outputDir : Path
  formats : List ExportFormat
  moveTo : Option Path
  deleteSource : Bool
  concurrency : Nat
  retries : Nat

/-- A source that a task took away: what the task had read of it and what was taken away. -/
structure Discard (V : Type*) where
  path : Path
  heard : V
  gone : V
  deriving DecidableEq

/-- The files of the disk. The last three fields watch it: the sources placed in the move-to
directory, those placed over a file that no attempt of theirs had left there, and the discards. -/
structure Disk (V : Type*) where
  files : Path → Option V
  isDir : Path → Bool
  placed : List Path
  overwriting : List Path
  discarded : List (Discard V)

/-- What the engine or the file system answers to a call, and the bytes the call leaves in the file
it writes. -/
structure Reply (V : Type*) where
  ok : Bool
  left : Option V

inductive Phase (V : Type*)
  | transcribing
  | writing (heard : V) (formats : List ExportFormat)
  | moving (heard : V)
  | copying (heard : V)
  | removing (heard : V)
  | finished (ok : Bool)
  deriving DecidableEq

structure FileTask (V : Type*) where
  attempt : Nat
  phase : Phase V
  deriving DecidableEq

variable {V : Type*}

/-- What the task has read of its source, until it is done with it. -/
def Phase.heard : Phase V → Option V
  | .transcribing => none
  | .writing heard _ => some heard
  | .moving heard => some heard
  | .copying heard => some heard
  | .removing heard => some heard
  | .finished _ => none

/-- The source stands at its destination. -/
def Phase.placed : Phase V → Bool
  | .removing _ => true
  | .finished ok => ok
  | _ => false

/-- A phase that the options lead to. -/
def Phase.Coherent (opts : BatchOptions) : Phase V → Prop
  | .writing _ formats => formats ≠ []
  | .moving _ => opts.moveTo.isSome
  | .copying _ => opts.moveTo.isSome
  | _ => True

namespace Disk

/-- The disk of a tree of files, watched from now on. -/
def ofTree (tree : Tree V) : Disk V where
  files := tree.root.find
  isDir := fun path => (tree.root.enter path).isSome
  placed := []
  overwriting := []
  discarded := []

/-- A write leaves bytes in a file, unless a directory stands there. -/
def write (disk : Disk V) (path : Path) (bytes : Option V) : Disk V :=
  if bytes.isNone ∨ disk.isDir path then disk
  else { disk with files := Function.update disk.files path bytes }

/-- A source comes to stand at its destination. -/
def place (disk : Disk V) (source dest : Path) (bytes : V) : Disk V :=
  { disk with
    files := Function.update disk.files dest (some bytes)
    placed := disk.placed ++ [source]
    overwriting :=
      if (disk.files dest).isSome ∧ source ∉ disk.placed then disk.overwriting ++ [source]
      else disk.overwriting }

/-- A source is taken away by the task that read `heard` of it. -/
def discard (disk : Disk V) (source : Path) (heard gone : V) : Disk V :=
  { disk with
    files := Function.update disk.files source none
    discarded := disk.discarded ++ [⟨source, heard, gone⟩] }

end Disk

/-- The source policy, once every format is rendered. -/
def BatchOptions.written (opts : BatchOptions) (heard : V) : List ExportFormat → Phase V
  | [] =>
      if opts.moveTo.isSome then .moving heard
      else if opts.deleteSource then .removing heard
      else .finished true
  | formats => .writing heard formats

/-- Where a source is moved. -/
def BatchOptions.dest (opts : BatchOptions) (path : Path) : Option Path :=
  opts.moveTo.bind fun moveTo => path.fileName.map fun name => moveTo ++ [name]

namespace FileTask

def fresh : FileTask V := ⟨0, .transcribing⟩

/-- Another attempt, unless the retries are used up. -/
def fail (opts : BatchOptions) (task : FileTask V) : FileTask V :=
  if task.attempt + 1 > opts.retries then ⟨task.attempt + 1, .finished false⟩
  else ⟨task.attempt + 1, .transcribing⟩

/-- The next call of the task of `path`. -/
def advance (opts : BatchOptions) (path : Path) (disk : Disk V) (task : FileTask V)
    (reply : Reply V) : Option (Disk V × FileTask V) :=
  match task.phase with
  | .transcribing =>
      match disk.files path with
      | some heard =>
          if reply.ok then some (disk, { task with phase := opts.written heard opts.formats })
          else some (disk, task.fail opts)
      | none => some (disk, task.fail opts)
  | .writing _ [] => none
  | .writing heard (format :: formats) =>
      let disk := disk.write (outputPathFor path opts.outputDir format.extension) reply.left
      if reply.ok then some (disk, { task with phase := opts.written heard formats })
      else some (disk, task.fail opts)
  | .moving heard =>
      match opts.dest path, disk.files path with
      | some dest, some bytes =>
          if reply.ok ∧ ¬disk.isDir dest then
            some ((disk.discard path heard bytes).place path dest bytes,
              { task with phase := .finished true })
          else some (disk, { task with phase := .copying heard })
      | some _, none => some (disk, { task with phase := .copying heard })
      | none, _ => some (disk, task.fail opts)
  | .copying heard =>
      match opts.dest path, disk.files path with
      | some dest, some bytes =>
          if disk.isDir dest then some (disk, task.fail opts)
          else if reply.ok then
            some (disk.place path dest bytes, { task with phase := .removing heard })
          else
            -- A copy that fails has opened its destination and leaves what it got to.
            some (reply.left.elim disk (disk.place path dest), task.fail opts)
      | _, _ => some (disk, task.fail opts)
  | .removing heard =>
      match disk.files path with
      | some bytes =>
          if reply.ok then
            some (disk.discard path heard bytes, { task with phase := .finished true })
          else some (disk, task.fail opts)
      | none => some (disk, task.fail opts)
  | .finished _ => none

/-- The calls of one task, with no other task at work. -/
def calls (opts : BatchOptions) (path : Path) (x : Disk V × FileTask V) (reply : Reply V) :
    Option (Disk V × FileTask V) :=
  x.2.advance opts path x.1 reply

/-- Everything a call can do. -/
inductive Advances (opts : BatchOptions) (path : Path) (disk : Disk V) (task : FileTask V) :
    Disk V → FileTask V → Prop
  | read (heard : V) (hphase : task.phase = .transcribing) (hfile : disk.files path = some heard) :
      Advances opts path disk task disk { task with phase := opts.written heard opts.formats }
  | failed (hphase : task.phase ≠ .finished true) :
      Advances opts path disk task disk (task.fail opts)
  | wrote (heard : V) (format : ExportFormat) (formats : List ExportFormat) (out : Path)
      (left : Option V) (hphase : task.phase = .writing heard (format :: formats))
      (hout : isAudioFile out = false) :
      Advances opts path disk task (disk.write out left)
        { task with phase := opts.written heard formats }
  | writeFailed (out : Path) (left : Option V) (hphase : task.phase ≠ .finished true)
      (hout : isAudioFile out = false) :
      Advances opts path disk task (disk.write out left) (task.fail opts)
  | renamed (heard bytes : V) (dest : Path) (hphase : task.phase = .moving heard)
      (hdest : opts.dest path = some dest) (hfile : disk.files path = some bytes)
      (hdir : disk.isDir dest = false) :
      Advances opts path disk task ((disk.discard path heard bytes).place path dest bytes)
        { task with phase := .finished true }
  | renameFailed (heard : V) (hphase : task.phase = .moving heard) :
      Advances opts path disk task disk { task with phase := .copying heard }
  | copied (heard bytes : V) (dest : Path) (hphase : task.phase = .copying heard)
      (hdest : opts.dest path = some dest) (hfile : disk.files path = some bytes)
      (hdir : disk.isDir dest = false) :
      Advances opts path disk task (disk.place path dest bytes)
        { task with phase := .removing heard }
  | copyFailed (heard left : V) (dest : Path) (hphase : task.phase = .copying heard)
      (hdest : opts.dest path = some dest) (hdir : disk.isDir dest = false) :
      Advances opts path disk task (disk.place path dest left) (task.fail opts)
  | removed (heard bytes : V) (hphase : task.phase = .removing heard)
      (hfile : disk.files path = some bytes) :
      Advances opts path disk task (disk.discard path heard bytes)
        { task with phase := .finished true }

theorem advances {opts : BatchOptions} {path : Path} {disk disk' : Disk V} {task task' : FileTask V}
    {reply : Reply V} (h : task.advance opts path disk reply = some (disk', task')) :
    Advances opts path disk task disk' task' := by
  unfold advance at h
  split at h
  · rename_i hphase
    split at h
    · rename_i heard hfile
      split at h
      · cases h
        exact .read heard hphase hfile
      · cases h
        exact .failed (by simp [hphase])
    · cases h
      exact .failed (by simp [hphase])
  · cases h
  · rename_i heard format formats hphase
    have hout := outputPathFor_not_audio path opts.outputDir format
    simp only at h
    split at h
    · cases h
      exact .wrote heard format formats _ reply.left hphase hout
    · cases h
      exact .writeFailed _ reply.left (by simp [hphase]) hout
  · rename_i heard hphase
    split at h
    · rename_i dest bytes hdest hfile
      split at h
      · rename_i hok
        cases h
        exact .renamed heard bytes dest hphase hdest hfile (by simpa using hok.2)
      · cases h
        exact .renameFailed heard hphase
    · cases h
      exact .renameFailed heard hphase
    · cases h
      exact .failed (by simp [hphase])
  · rename_i heard hphase
    split at h
    · rename_i dest bytes hdest hfile
      split at h
      · cases h
        exact .failed (by simp [hphase])
      · rename_i hdir
        split at h
        · cases h
          exact .copied heard bytes dest hphase hdest hfile (by simpa using hdir)
        · cases hleft : reply.left with
          | none =>
              rw [hleft] at h
              cases h
              exact .failed (by simp [hphase])
          | some left =>
              rw [hleft] at h
              cases h
              exact .copyFailed heard left dest hphase hdest (by simpa using hdir)
    · cases h
      exact .failed (by simp [hphase])
  · rename_i heard hphase
    split at h
    · rename_i bytes hfile
      split at h
      · cases h
        exact .removed heard bytes hphase hfile
      · cases h
        exact .failed (by simp [hphase])
    · cases h
      exact .failed (by simp [hphase])
  · cases h

end FileTask

section Lemmas

variable {opts : BatchOptions} {disk : Disk V} {path other : Path}

@[simp]
theorem FileTask.fail_heard (task : FileTask V) : (task.fail opts).phase.heard = none := by
  unfold FileTask.fail
  split
  · rfl
  · rfl

/-- Whatever comes after the outputs, the task is not past the source it read. -/
theorem written_heard (heard : V) (formats : List ExportFormat) :
    ∀ v ∈ (opts.written heard formats).heard, v = heard := by
  intro v hv
  cases formats with
  | nil =>
      rw [BatchOptions.written] at hv
      split at hv
      · exact (Option.some.inj hv).symm
      · split at hv
        · exact (Option.some.inj hv).symm
        · cases hv
  | cons format formats => exact (Option.some.inj hv).symm

theorem written_coherent (heard : V) (formats : List ExportFormat) :
    (opts.written heard formats).Coherent opts := by
  cases formats with
  | nil =>
      rw [BatchOptions.written]
      split
      · rename_i hmove
        exact hmove
      · split
        · trivial
        · trivial
  | cons format formats => exact List.cons_ne_nil format formats

theorem FileTask.fail_coherent (task : FileTask V) : (task.fail opts).phase.Coherent opts := by
  unfold FileTask.fail
  split
  · trivial
  · trivial

theorem FileTask.Advances.coherent {disk' : Disk V} {task task' : FileTask V}
    (h : Advances opts path disk task disk' task') (hcoherent : task.phase.Coherent opts) :
    task'.phase.Coherent opts := by
  cases h with
  | read heard => exact written_coherent heard opts.formats
  | failed => exact fail_coherent task
  | wrote heard format formats => exact written_coherent heard formats
  | writeFailed => exact fail_coherent task
  | renamed => trivial
  | renameFailed heard hphase => simpa [Phase.Coherent, hphase] using hcoherent
  | copied => trivial
  | copyFailed => exact fail_coherent task
  | removed => trivial

/-- A source is deleted only where none are moved. -/
theorem written_placed (hmove : opts.moveTo.isSome) (heard : V) (formats : List ExportFormat) :
    (opts.written heard formats).placed = false ∧ opts.written heard formats ≠ .finished true := by
  cases formats with
  | nil => simp [BatchOptions.written, hmove, Phase.placed]
  | cons format formats => simp [BatchOptions.written, Phase.placed]

theorem FileTask.fail_placed (task : FileTask V) : (task.fail opts).phase.placed = false := by
  unfold FileTask.fail
  split
  · rfl
  · rfl

theorem exists_dest {moveTo : Path} (hmove : opts.moveTo = some moveTo)
    (haudio : isAudioFile path = true) : ∃ dest, opts.dest path = some dest := by
  rw [isAudioFile, Path.extension] at haudio
  cases hname : path.fileName with
  | none => simp [hname] at haudio
  | some name => exact ⟨moveTo ++ [name], by simp [BatchOptions.dest, hmove, hname]⟩

theorem dest_audio {dest : Path} (hdest : opts.dest path = some dest) :
    isAudioFile dest = isAudioFile path := by
  obtain ⟨moveTo, -, hdest⟩ := Option.bind_eq_some_iff.mp hdest
  obtain ⟨name, hname, rfl⟩ := Option.map_eq_some_iff.mp hdest
  have hsame : Path.fileName (moveTo ++ [name]) = path.fileName := by
    rw [hname, Path.fileName, List.getLast?_concat]
  rw [isAudioFile, isAudioFile, Path.extension, Path.extension, hsame]

theorem dest_under {moveTo dest : Path} (hmove : opts.moveTo = some moveTo)
    (hdest : opts.dest path = some dest) : moveTo <+: dest := by
  rw [BatchOptions.dest, hmove, Option.bind_some, Option.map_eq_some_iff] at hdest
  obtain ⟨name, -, rfl⟩ := hdest
  exact List.prefix_append moveTo [name]

theorem exists_moveTo {dest : Path} (hdest : opts.dest path = some dest) :
    ∃ moveTo, opts.moveTo = some moveTo := by
  obtain ⟨moveTo, hmove, -⟩ := Option.bind_eq_some_iff.mp hdest
  exact ⟨moveTo, hmove⟩

namespace Disk

theorem write_files_of_audio {out : Path} (left : Option V) (hout : isAudioFile out = false)
    (haudio : isAudioFile other = true) : (disk.write out left).files other = disk.files other := by
  unfold write
  split
  · rfl
  · have hne : other ≠ out := by
      rintro rfl
      simp [hout] at haudio
    exact Function.update_of_ne hne left disk.files

@[simp]
theorem write_isDir (out : Path) (left : Option V) : (disk.write out left).isDir = disk.isDir := by
  unfold write
  split
  · rfl
  · rfl

@[simp]
theorem write_discarded (out : Path) (left : Option V) :
    (disk.write out left).discarded = disk.discarded := by
  unfold write
  split
  · rfl
  · rfl

@[simp]
theorem write_placed (out : Path) (left : Option V) :
    (disk.write out left).placed = disk.placed := by
  unfold write
  split
  · rfl
  · rfl

@[simp]
theorem write_overwriting (out : Path) (left : Option V) :
    (disk.write out left).overwriting = disk.overwriting := by
  unfold write
  split
  · rfl
  · rfl

theorem place_files (source dest : Path) (bytes : V) (p : Path) :
    (disk.place source dest bytes).files p = if p = dest then some bytes else disk.files p :=
  Function.update_apply disk.files dest (some bytes) p

theorem discard_files (source : Path) (heard gone : V) (p : Path) :
    (disk.discard source heard gone).files p = if p = source then none else disk.files p :=
  Function.update_apply disk.files source none p

end Disk

theorem update_some {tasks : Path → Option (FileTask V)} {path p : Path} {task' task : FileTask V}
    (h : Function.update tasks path (some task') p = some task) :
    (p = path ∧ task = task') ∨ (p ≠ path ∧ tasks p = some task) := by
  by_cases hpath : p = path
  · rw [hpath, Function.update_self] at h
    exact Or.inl ⟨hpath, (Option.some.inj h).symm⟩
  · rw [Function.update_of_ne hpath] at h
    exact Or.inr ⟨hpath, h⟩

theorem update_none {tasks : Path → Option (FileTask V)} {path p : Path} {task : FileTask V}
    (h : Function.update tasks path none p = some task) : tasks p = some task := by
  by_cases hpath : p = path
  · rw [hpath, Function.update_self] at h
    cases h
  · rwa [Function.update_of_ne hpath] at h

theorem dest_ne {dest : Path} (houtside : ∀ moveTo ∈ opts.moveTo, ¬moveTo <+: other)
    (hdest : opts.dest path = some dest) : other ≠ dest := by
  obtain ⟨moveTo, hmove⟩ := exists_moveTo hdest
  rintro rfl
  exact houtside moveTo hmove (dest_under hmove hdest)

/-- A call leaves other audio files alone, unless it places its source there. -/
theorem FileTask.Advances.files_of_ne {disk' : Disk V} {task task' : FileTask V}
    (h : Advances opts path disk task disk' task') (hne : other ≠ path)
    (haudio : isAudioFile other = true)
    (hdest : ∀ dest ∈ opts.dest path, disk.isDir dest = false → other ≠ dest) :
    disk'.files other = disk.files other := by
  cases h with
  | read => rfl
  | failed => rfl
  | wrote _ _ _ out left _ hout => exact Disk.write_files_of_audio left hout haudio
  | writeFailed out left _ hout => exact Disk.write_files_of_audio left hout haudio
  | renamed heard bytes dest _ h _ hdir =>
      rw [Disk.place_files, if_neg (hdest dest h hdir), Disk.discard_files, if_neg hne]
  | renameFailed => rfl
  | copied heard bytes dest _ h _ hdir => rw [Disk.place_files, if_neg (hdest dest h hdir)]
  | copyFailed heard left dest _ h hdir => rw [Disk.place_files, if_neg (hdest dest h hdir)]
  | removed => rw [Disk.discard_files, if_neg hne]

section Calls

variable {task : FileTask V} {heard bytes : V} {dest : Path}

theorem advance_moving (hphase : task.phase = .moving heard) (hfile : disk.files path = some bytes)
    (hdest : opts.dest path = some dest) (hdir : disk.isDir dest = false) :
    task.advance opts path disk ⟨true, none⟩
      = some ((disk.discard path heard bytes).place path dest bytes,
          { task with phase := .finished true }) := by
  simp [FileTask.advance, hphase, hfile, hdest, hdir]

theorem advance_copying (hphase : task.phase = .copying heard)
    (hfile : disk.files path = some bytes) (hdest : opts.dest path = some dest)
    (hdir : disk.isDir dest = false) :
    task.advance opts path disk ⟨true, none⟩
      = some (disk.place path dest bytes, { task with phase := .removing heard }) := by
  simp [FileTask.advance, hphase, hfile, hdest, hdir]

theorem advance_removing (hphase : task.phase = .removing heard)
    (hfile : disk.files path = some bytes) :
    task.advance opts path disk ⟨true, none⟩
      = some (disk.discard path heard bytes, { task with phase := .finished true }) := by
  simp [FileTask.advance, hphase, hfile]

theorem advance_reading (hphase : task.phase = .transcribing)
    (hfile : disk.files path = some bytes) :
    task.advance opts path disk ⟨true, none⟩
      = some (disk, { task with phase := opts.written bytes opts.formats }) := by
  simp [FileTask.advance, hphase, hfile]

/-- The outputs are written one after the other. -/
theorem run_writing (opts : BatchOptions) (path : Path) (disk : Disk V) (task : FileTask V)
    (heard : V) (formats : List ExportFormat) :
    run (FileTask.calls opts path) (disk, { task with phase := opts.written heard formats })
        (List.replicate formats.length ⟨true, none⟩)
      = some (disk, { task with phase := opts.written heard [] }) := by
  induction formats with
  | nil => rfl
  | cons format formats ih =>
      have hcall : FileTask.calls opts path
          (disk, { task with phase := opts.written heard (format :: formats) }) ⟨true, none⟩
          = some (disk, { task with phase := opts.written heard formats }) := by
        simp [FileTask.calls, FileTask.advance, BatchOptions.written, Disk.write]
      rw [List.length_cons, List.replicate_succ, run, hcall]
      exact ih

/-- A task whose calls all succeed moves its source. -/
theorem run_moved (hfile : disk.files path = some bytes) (hdest : opts.dest path = some dest)
    (hdir : disk.isDir dest = false) :
    ∃ replies, run (FileTask.calls opts path) (disk, FileTask.fresh) replies
      = some ((disk.discard path bytes bytes).place path dest bytes, ⟨0, .finished true⟩) := by
  obtain ⟨moveTo, hmove⟩ := exists_moveTo hdest
  have hmoving : opts.written bytes [] = .moving bytes := if_pos (hmove ▸ rfl)
  have hread : FileTask.advance opts path disk FileTask.fresh ⟨true, none⟩
      = some (disk, ⟨0, opts.written bytes opts.formats⟩) :=
    advance_reading rfl hfile
  have hwritten := run_writing opts path disk ⟨0, .transcribing⟩ bytes opts.formats
  have hmoved : FileTask.advance opts path disk ⟨0, .moving bytes⟩ ⟨true, none⟩
      = some ((disk.discard path bytes bytes).place path dest bytes, ⟨0, .finished true⟩) :=
    advance_moving rfl hfile hdest hdir
  have hfirst : run (FileTask.calls opts path) (disk, FileTask.fresh) [⟨true, none⟩]
      = some (disk, ⟨0, opts.written bytes opts.formats⟩) := by
    simp [run, FileTask.calls, hread]
  have hlast : run (FileTask.calls opts path) (disk, ⟨0, opts.written bytes []⟩) [⟨true, none⟩]
      = some ((disk.discard path bytes bytes).place path dest bytes, ⟨0, .finished true⟩) := by
    simp [run, FileTask.calls, hmoving, hmoved]
  exact ⟨_, run_append (run_append hfirst hwritten) hlast⟩

/-- The two calls that take a source away at once. -/
theorem discards_moving (hphase : task.phase = .moving heard) (hfile : disk.files path = some bytes)
    (hdest : opts.dest path = some dest) (hdir : disk.isDir dest = false) :
    ∃ disk' task', task.advance opts path disk ⟨true, none⟩ = some (disk', task') ∧
      ⟨path, heard, bytes⟩ ∈ disk'.discarded :=
  ⟨_, _, advance_moving hphase hfile hdest hdir, by simp [Disk.place, Disk.discard]⟩

theorem discards_removing (opts : BatchOptions) (hphase : task.phase = .removing heard)
    (hfile : disk.files path = some bytes) :
    ∃ disk' task', task.advance opts path disk ⟨true, none⟩ = some (disk', task') ∧
      ⟨path, heard, bytes⟩ ∈ disk'.discarded :=
  ⟨_, _, advance_removing hphase hfile, by simp [Disk.discard]⟩

/-- A copy leaves the source, which the next call takes away. -/
theorem discards_copying (houtside : ∀ moveTo ∈ opts.moveTo, ¬moveTo <+: path)
    (hphase : task.phase = .copying heard) (hfile : disk.files path = some bytes)
    (hdest : opts.dest path = some dest) (hdir : disk.isDir dest = false) :
    ∃ replies disk' task',
      run (FileTask.calls opts path) (disk, task) replies = some (disk', task') ∧
      ⟨path, heard, bytes⟩ ∈ disk'.discarded := by
  have hcopied := advance_copying hphase hfile hdest hdir
  have hkept : (disk.place path dest bytes).files path = some bytes := by
    rw [Disk.place_files, if_neg (dest_ne houtside hdest), hfile]
  have hremoved : FileTask.advance opts path (disk.place path dest bytes)
      { task with phase := .removing heard } ⟨true, none⟩
      = some ((disk.place path dest bytes).discard path heard bytes,
          { task with phase := .finished true }) :=
    advance_removing rfl hkept
  have hboth : run (FileTask.calls opts path) (disk, task) [⟨true, none⟩, ⟨true, none⟩]
      = some ((disk.place path dest bytes).discard path heard bytes,
          { task with phase := .finished true }) := by
    simp [run, FileTask.calls, hcopied, hremoved]
  exact ⟨_, _, _, hboth, by simp [Disk.discard]⟩

/-- A task past its reading can go on to take away whatever stands at its path. -/
theorem exists_discarded (hcoherent : task.phase.Coherent opts)
    (hpolicy : opts.moveTo.isSome ∨ opts.deleteSource = true) (haudio : isAudioFile path = true)
    (houtside : ∀ moveTo ∈ opts.moveTo, ¬moveTo <+: path) (hheard : task.phase.heard = some heard)
    (hfile : disk.files path = some bytes)
    (hdir : ∀ dest ∈ opts.dest path, disk.isDir dest = false) :
    ∃ replies disk' task',
      run (FileTask.calls opts path) (disk, task) replies = some (disk', task') ∧
      ⟨path, heard, bytes⟩ ∈ disk'.discarded := by
  have hmoves : opts.moveTo.isSome → ∃ dest, opts.dest path = some dest := by
    intro hmove
    obtain ⟨moveTo, hmove⟩ := Option.isSome_iff_exists.mp hmove
    exact exists_dest hmove haudio
  cases hphase : task.phase with
  | transcribing =>
      rw [hphase] at hheard
      cases hheard
  | finished ok =>
      rw [hphase] at hheard
      cases hheard
  | moving v =>
      rw [hphase] at hheard hcoherent
      cases hheard
      obtain ⟨dest, hdest⟩ := hmoves hcoherent
      obtain ⟨disk', task', hadvance, hmem⟩ :=
        discards_moving hphase hfile hdest (hdir dest hdest)
      exact ⟨[⟨true, none⟩], disk', task', by simp [run, FileTask.calls, hadvance], hmem⟩
  | removing v =>
      rw [hphase] at hheard
      cases hheard
      obtain ⟨disk', task', hadvance, hmem⟩ := discards_removing opts hphase hfile
      exact ⟨[⟨true, none⟩], disk', task', by simp [run, FileTask.calls, hadvance], hmem⟩
  | copying v =>
      rw [hphase] at hheard hcoherent
      cases hheard
      obtain ⟨dest, hdest⟩ := hmoves hcoherent
      exact discards_copying houtside hphase hfile hdest (hdir dest hdest)
  | writing v formats =>
      rw [hphase] at hheard hcoherent
      cases hheard
      obtain ⟨format, rest, rfl⟩ := List.exists_cons_of_ne_nil hcoherent
      have hwritten := run_writing opts path disk task heard (format :: rest)
      have hwriting : opts.written heard (format :: rest) = task.phase := hphase.symm
      rw [hwriting] at hwritten
      obtain ⟨disk', task', hadvance, hmem⟩ : ∃ disk' task',
          FileTask.advance opts path disk { task with phase := opts.written heard [] } ⟨true, none⟩
            = some (disk', task') ∧ ⟨path, heard, bytes⟩ ∈ disk'.discarded := by
        by_cases hmove : opts.moveTo.isSome
        · obtain ⟨dest, hdest⟩ := hmoves hmove
          exact discards_moving (if_pos hmove) hfile hdest (hdir dest hdest)
        · refine discards_removing opts ?_ hfile
          rw [BatchOptions.written, if_neg hmove, if_pos (hpolicy.resolve_left hmove)]
      have hlast : run (FileTask.calls opts path)
          (disk, { task with phase := opts.written heard [] }) [⟨true, none⟩]
          = some (disk', task') := by
        simp [run, FileTask.calls, hadvance]
      exact ⟨_, disk', task', run_append hwritten hlast, hmem⟩

/-- A task whose transcriptions fail uses up its retries. -/
theorem run_failing (disk : Disk V) (attempt left : Nat) (hleft : attempt + left = opts.retries) :
    run (FileTask.calls opts path) (disk, ⟨attempt, .transcribing⟩)
        (List.replicate (left + 1) ⟨false, none⟩)
      = some (disk, ⟨opts.retries + 1, .finished false⟩) := by
  have hcall : ∀ attempt, FileTask.calls opts path (disk, ⟨attempt, .transcribing⟩) ⟨false, none⟩
      = some (disk, (⟨attempt, .transcribing⟩ : FileTask V).fail opts) := by
    intro attempt
    simp only [FileTask.calls, FileTask.advance]
    split
    · rfl
    · rfl
  induction left generalizing attempt with
  | zero =>
      obtain rfl : attempt = opts.retries := hleft
      have hlast : (⟨opts.retries, .transcribing⟩ : FileTask V).fail opts
          = ⟨opts.retries + 1, .finished false⟩ := if_pos (Nat.lt_succ_self _)
      rw [List.replicate_succ, run, hcall, hlast]
      rfl
  | succ left ih =>
      have hagain : (⟨attempt, .transcribing⟩ : FileTask V).fail opts
          = ⟨attempt + 1, .transcribing⟩ := if_neg (show ¬attempt + 1 > opts.retries by omega)
      rw [List.replicate_succ, run, hcall, hagain]
      exact ih (attempt + 1) (by omega)

end Calls

end Lemmas

end Gigastt.Batch
