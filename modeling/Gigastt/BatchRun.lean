import Gigastt.BatchTask

/-!
A batch run. The scheduler keeps up to `concurrency` tasks in flight; each task moves its source into
the move-to directory under the last component of its path.
-/

namespace Gigastt.BatchRun

open Transition Batch

variable {V : Type*}

structure BatchSummary where
  processed : Nat
  failed : Nat
  skipped : Nat
  interrupted : Bool
  deriving DecidableEq

/-- The variables of the loop. `set` are the tasks in flight; `done` and `failed` are the inputs
whose tasks were joined. -/
structure State (V : Type*) where
  todo : List Path
  set : List Path
  tasks : Path → Option (FileTask V)
  disk : Disk V
  done : List Path
  failed : List Path
  cancelled : Bool

inductive Event (V : Type*)
  | spawn
  | call (path : Path) (reply : Reply V)
  | join (path : Path)
  | cancel

/-- The inputs of a run. -/
def inputs (opts : BatchOptions) (tree : Batch.Tree V) : List Path :=
  (scanInputs opts.inputDir opts.moveTo tree).entries.map Prod.fst

def slots (opts : BatchOptions) : Nat := max opts.concurrency 1

/-- The loop tops up the tasks in flight before it waits for one to end. -/
def State.ToppedUp (opts : BatchOptions) (s : State V) : Prop :=
  s.cancelled = true ∨ s.todo = [] ∨ slots opts ≤ s.set.length

instance (opts : BatchOptions) : DecidablePred (State.ToppedUp (V := V) opts) :=
  fun s => inferInstanceAs (Decidable (s.cancelled = true ∨ s.todo = [] ∨ slots opts ≤ s.set.length))

def step (opts : BatchOptions) (s : State V) : Event V → Option (State V)
  | .spawn =>
      match s.todo with
      | [] => none
      | path :: rest =>
          if s.cancelled = false ∧ s.set.length < slots opts then
            some
              { s with
                todo := rest
                set := s.set ++ [path]
                tasks := Function.update s.tasks path (some FileTask.fresh) }
          else none
  | .call path reply =>
      (s.tasks path).bind fun task => (task.advance opts path s.disk reply).map fun r =>
        { s with disk := r.1, tasks := Function.update s.tasks path (some r.2) }
  | .join path =>
      match (s.tasks path).map FileTask.phase with
      | some (.finished ok) =>
          if s.ToppedUp opts then
            some
              { s with
                set := s.set.erase path
                tasks := Function.update s.tasks path none
                done := if ok then s.done ++ [path] else s.done
                failed := if ok then s.failed else s.failed ++ [path] }
          else none
      | _ => none
  | .cancel => some { s with cancelled := true }

def start (opts : BatchOptions) (tree : Batch.Tree V) : State V where
  todo := inputs opts tree
  set := []
  tasks := fun _ => none
  disk := Disk.ofTree tree
  done := []
  failed := []
  cancelled := false

def State.summary (s : State V) : BatchSummary :=
  ⟨s.done.length, s.failed.length, s.todo.length, s.cancelled⟩

/-- The bytes of every processed input stand in the move-to directory, and no move went over a file
that was there or that another input was moved to. -/
def Preserved (tree : Batch.Tree V) (moveTo : Path) (s : State V) : Prop :=
  (∀ p ∈ s.done, ∃ q bytes, moveTo <+: q ∧ tree.root.find p = some bytes ∧
    s.disk.files q = some bytes) ∧ s.disk.overwriting = []

/-- The last components of the inputs, under which they are moved, are distinct and not taken in the
move-to directory. Where a directory has that name nothing can be moved there. -/
def Apart (opts : BatchOptions) (moveTo : Path) (tree : Batch.Tree V) : Prop :=
  ∀ p ∈ inputs opts tree, ∀ name ∈ p.fileName, tree.root.enter (moveTo ++ [name]) = none →
    tree.root.find (moveTo ++ [name]) = none ∧
      ∀ q ∈ inputs opts tree, q.fileName = some name → q = p

end Gigastt.BatchRun
