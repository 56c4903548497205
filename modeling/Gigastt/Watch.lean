import Gigastt.Table
import Gigastt.Transition

/-!
Watching a folder. Each scan reads a signature of the files it finds; a file whose signature has
stayed the same over enough scans is scheduled, and the end of its task is folded back into what
is known of it.
-/

namespace Gigastt.Watch

open Transition

/-- Size and modification time. -/
structure FileSignature where
  len : Nat
  mtime : Option Int
  deriving DecidableEq

inductive WatchStatus
  | pending
  | inFlight
  | done
  | failed
  deriving DecidableEq

structure WatchEntry where
  sig : FileSignature
  stablePolls : UInt32
  status : WatchStatus
  dirty : Bool
  deriving DecidableEq

structure WatchSummary where
  processed : Nat
  failed : Nat
  deriving DecidableEq

structure WatchOptions where
  settlePolls : UInt32
  concurrency : Nat

namespace WatchOptions

def settle (opts : WatchOptions) : UInt32 := max opts.settlePolls 1

def slots (opts : WatchOptions) : Nat := max opts.concurrency 1

end WatchOptions

/-- The variables of the loop. A task stays in `set` until its end is folded back. -/
structure State (Path : Type*) where
  known : Table Path WatchEntry
  set : List Path
  summary : WatchSummary
  shutdown : Bool

inductive Event (Path : Type*)
  /-- The files a scan finds, with the signatures that could be read. -/
  | scan (files : Table Path (Option FileSignature))
  | scanFailed
  | joined (path : Path) (ok : Bool)
  | shutdown

/-- What a scan makes of the entry of a file, and whether it spawns a task. -/
def WatchEntry.observe (settle : UInt32) (free : Bool) (sig : FileSignature) :
    Option WatchEntry → WatchEntry × Bool
  | none => ({ sig, stablePolls := 0, status := .pending, dirty := false }, false)
  | some entry =>
      if entry.sig ≠ sig then
        let entry := { entry with sig, stablePolls := 0 }
        if entry.status = .inFlight then ({ entry with dirty := true }, false)
        else ({ entry with status := .pending }, false)
      else if entry.status = .pending then
        let entry := { entry with stablePolls := entry.stablePolls + 1 }
        if settle ≤ entry.stablePolls ∧ free then ({ entry with status := .inFlight }, true)
        else (entry, false)
      else (entry, false)

/-- What the end of a task makes of the entry of its file. -/
def WatchEntry.complete (ok : Bool) (entry : WatchEntry) : WatchEntry :=
  if entry.status ≠ .inFlight then entry
  else if entry.dirty then { entry with dirty := false, stablePolls := 0, status := .pending }
  else { entry with status := if ok then .done else .failed }

variable {Path : Type*} [DecidableEq Path] (opts : WatchOptions)

namespace State

def observe (s : State Path) (f : Path) (sig : FileSignature) : State Path :=
  let seen := WatchEntry.observe opts.settle (s.set.length < opts.slots) sig (s.known.find f)
  { s with
    known := s.known.insert f seen.1
    set := if seen.2 then s.set ++ [f] else s.set }

/-- Forgets files that disappeared, unless a task is still working on them. -/
def retain (s : State Path) (files : Table Path (Option FileSignature)) : State Path :=
  { s with known := s.known.filter fun p e => e.status = .inFlight ∨ (files.find p).isSome }

def observeAll (s : State Path) (files : List (Path × Option FileSignature)) : State Path :=
  files.foldl (fun s x => x.2.elim s (s.observe opts x.1)) s

def scan (s : State Path) (files : Table Path (Option FileSignature)) : State Path :=
  (s.retain files).observeAll opts files.entries

def handleCompletion (s : State Path) (path : Path) (ok : Bool) : State Path :=
  match s.known.find path with
  | none => s
  | some entry =>
      let counted := entry.status = .inFlight ∧ entry.dirty = false
      { s with
        known := s.known.insert path (entry.complete ok)
        summary.processed := s.summary.processed + if counted ∧ ok then 1 else 0
        summary.failed := s.summary.failed + if counted ∧ ¬ok then 1 else 0 }

end State

def step (s : State Path) : Event Path → Option (State Path)
  | .scan files => if s.shutdown then none else some (s.scan opts files)
  | .scanFailed => if s.shutdown then none else some s
  | .joined path ok =>
      if path ∈ s.set then some ({ s with set := s.set.erase path }.handleCompletion path ok)
      else none
  | .shutdown => some { s with shutdown := true }

/-- Files present at startup are registered but not processed. -/
def start (backlog : Table Path FileSignature) : State Path where
  known :=
    { entries := backlog.entries.map fun x => (x.1, ⟨x.2, 0, .done, false⟩)
      nodup := by
        rw [List.map_map]
        exact backlog.nodup }
  set := []
  summary := ⟨0, 0⟩
  shutdown := false

end Gigastt.Watch
