import Gigastt.ModelVariants
import Gigastt.Transition
import Mathlib.Algebra.Group.Nat.Defs
import Mathlib.Logic.Function.Basic

/-!
Calls of `ensure_model_variant` on one directory without a manifest, each in a process of its own. A
response is any bytes, a call may fail or be killed at any point, and a scan of the directory may miss
what another call has put there since.
-/

namespace Gigastt.Download

open Transition ModelCache

abbrev Content := List UInt8

/-- The files of the directory. -/
abbrev Files := String → Option Content

def maxDownloadBytes : ℕ := 2 * 1024 * 1024 * 1024

/-- `so_far.saturating_add(extra)` over the ceiling. -/
def overDownloadCap (soFar extra : ℕ) : Bool := min (soFar + extra) (2 ^ 64 - 1) > maxDownloadBytes

def partialPathUnique (finalPath : String) (pid stamp : ℕ) : String :=
  finalPath ++ ".partial." ++ toString pid ++ "." ++ toString stamp

def sha256File (content : Content) : String := hexLower (Sha256.digest content)

/-- What a call gives up with. -/
inductive Failure
  | offline (label finalPath : String)
  | status (label code : String)
  | overCap (soFar extra : ℕ)
  | mismatch (label expected actual : String)
  /-- a request, a stream, a write or a rename failed -/
  | context (text : String)
  deriving DecidableEq

def Failure.message : Failure → String
  | offline label finalPath => "offline mode (GIGASTT_OFFLINE=1): refusing to download " ++ label ++
      "; place the file at " ++ finalPath ++
      " manually (see docs/deployment.md, \"Air-gapped / offline installation\")"
  | status label code => "Download failed for " ++ label ++ ": HTTP " ++ code
  | overCap soFar extra => "download exceeded size cap of " ++ toString maxDownloadBytes ++
      " bytes (" ++ toString soFar ++ " already written, +" ++ toString extra ++ ")"
  | mismatch label expected actual => "SHA-256 mismatch for " ++ label ++ ": expected " ++ expected ++
      ", got " ++ actual
  | context text => text

/-- One file of an installation, and those after it. -/
structure Fetch where
  variant : ModelVariant
  file : String
  rest : List String
  stamp : ℕ
  deriving DecidableEq

inductive Phase
  | deciding
  | waiting (v : ModelVariant)
  | checking (v : ModelVariant)
  | installing (v : ModelVariant) (rest : List String)
  /-- the guard of the staging path is armed, nothing is staged -/
  | requesting (f : Fetch)
  | streaming (f : Fetch) (downloaded : ℕ)
  | staged (f : Fetch)
  | verified (f : Fetch)
  /-- an early return, with the guard still to remove what is staged -/
  | unwinding (f : Fetch) (failure : Failure)
  | returned (result : Except Failure ModelVariant)
  | killed

namespace Phase

/-- The file a call is fetching. -/
def busy : Phase → Option Fetch
  | requesting f => some f
  | streaming f _ => some f
  | staged f => some f
  | verified f => some f
  | _ => none

/-- The file a call has a staging path for. -/
def fetch : Phase → Option Fetch
  | unwinding f _ => some f
  | p => p.busy

/-- The call is past the lock. -/
def inside : Phase → Bool
  | checking _ => true
  | installing _ _ => true
  | p => p.fetch.isSome

def live : Phase → Bool
  | returned _ => false
  | killed => false
  | _ => true

end Phase

structure Config where
  dir : String
  offline : Bool
  /-- there is a lock file -/
  unix : Bool
  requested : ℕ → Option ModelVariant

structure Dir where
  files : Files
  lock : Option ℕ
  phase : ℕ → Phase

/-- The staging path of a fetch. -/
def Fetch.staging (f : Fetch) (pid : ℕ) : String := partialPathUnique f.file pid f.stamp

namespace Dir

variable (s : Dir) (pid : ℕ)

/-- Nobody has called yet. -/
def new (files : Files) : Dir where
  files := files
  lock := none
  phase := fun _ => .deciding

def put (file : String) (content : Option Content) : Dir :=
  { s with files := Function.update s.files file content }

def goto (phase : Phase) : Dir := { s with phase := Function.update s.phase pid phase }

/-- The call ends, and its lock with it. -/
def leave (phase : Phase) : Dir :=
  { s.goto pid phase with lock := if s.lock = some pid then none else s.lock }

def present (file : String) : Bool := (s.files file).isSome

/-- What is staged is removed, or cannot be. -/
def unstage (f : Fetch) (removed : Bool) : Dir := if removed then s.put (f.staging pid) none else s

/-- `if final_dest.exists() { continue; }`, which the heads with a decoder have. -/
def skips (v : ModelVariant) (file : String) : Bool := !v.isCtc && s.present file

variable (cfg : Config)

def decide (seen : List String) : Option Dir :=
  match s.phase pid with
  | .deciding =>
      if seen.all s.present then
        let onDisk := fun file => Decidable.decide (file ∈ seen)
        let existing := (ModelVariant.detectInDir onDisk).filter (·.isUsablePresent onDisk)
        match resolveVariant (cfg.requested pid) existing with
        | .use v => some (s.goto pid (.returned (.ok v)))
        | .download v => some (s.goto pid (.waiting v))
      else none
  | _ => none

def acquire : Option Dir :=
  match s.phase pid with
  | .waiting v =>
      if ¬ cfg.unix then some (s.goto pid (.checking v))
      else if s.lock = none then some { s.goto pid (.checking v) with lock := some pid }
      else none
  | _ => none

def check (seen : List String) : Option Dir :=
  match s.phase pid with
  | .checking v =>
      if ¬ seen.all s.present then none
      else if v.isUsablePresent (fun file => Decidable.decide (file ∈ seen)) then
        some (s.leave pid (.returned (.ok v)))
      else some (s.goto pid (.installing v v.installFiles))
  | _ => none

/-- The next file of an installation, or its end. -/
def next (stamp : ℕ) : Option Dir :=
  match s.phase pid with
  | .installing v [] => some (s.leave pid (.returned (.ok v)))
  | .installing v (file :: rest) =>
      if s.skips v file then some (s.goto pid (.installing v rest))
      else if cfg.offline then
        some (s.leave pid (.returned (.error (.offline file (cfg.dir ++ "/" ++ file)))))
      else some (s.goto pid (.requesting ⟨v, file, rest, stamp⟩))
  | _ => none

def respond (total : ℕ) : Option Dir :=
  match s.phase pid with
  | .requesting f =>
      if 0 < total ∧ overDownloadCap 0 total then
        some (s.goto pid (.unwinding f (.overCap 0 total)))
      else some ((s.put (f.staging pid) (some [])).goto pid (.streaming f 0))
  | _ => none

/-- A chunk of the response. A write may fail with only some of it written. -/
def chunk (bytes : Content) (written : Option ℕ) : Option Dir :=
  match s.phase pid with
  | .streaming f downloaded =>
      if overDownloadCap downloaded bytes.length then
        some (s.goto pid (.unwinding f (.overCap downloaded bytes.length)))
      else
        let append := fun bytes => s.put (f.staging pid) ((s.files (f.staging pid)).map (· ++ bytes))
        match written with
        | none => some ((append bytes).goto pid (.streaming f (downloaded + bytes.length)))
        | some n =>
            some ((append (bytes.take n)).goto pid (.unwinding f (.context "Failed to write chunk")))
  | _ => none

def flush : Option Dir :=
  match s.phase pid with
  | .streaming f _ => some (s.goto pid (.staged f))
  | _ => none

/-- `finalize_download` up to the rename. -/
def verify (removed : Bool) : Option Dir :=
  match s.phase pid with
  | .staged f =>
      (s.files (f.staging pid)).map fun content =>
        match f.variant.installChecksum f.file with
        | none => s.goto pid (.verified f)
        | some expected =>
            if sha256File content = expected then s.goto pid (.verified f)
            else (s.unstage pid f removed).goto pid
              (.unwinding f (.mismatch f.file expected (sha256File content)))
  | _ => none

def rename : Option Dir :=
  match s.phase pid with
  | .verified f =>
      (s.files (f.staging pid)).map fun content =>
        ((s.put (f.staging pid) none).put f.file (some content)).goto pid
          (.installing f.variant f.rest)
  | _ => none

def fail (failure : Failure) : Option Dir :=
  (s.phase pid).busy.map fun f => s.goto pid (.unwinding f failure)

/-- The guard of the staging path. -/
def cleanUp (removed : Bool) : Option Dir :=
  match s.phase pid with
  | .unwinding f failure => some ((s.unstage pid f removed).leave pid (.returned (.error failure)))
  | _ => none

def kill : Option Dir := if (s.phase pid).live then some (s.leave pid .killed) else none

def callAgain : Option Dir :=
  match s.phase pid with
  | .returned _ => some (s.goto pid .deciding)
  | _ => none

end Dir

inductive Event
  /-- a scan of the directory that sees these files -/
  | decide (seen : List String)
  | acquire
  | check (seen : List String)
  | next (stamp : ℕ)
  | respond (total : ℕ)
  | chunk (bytes : Content) (written : Option ℕ)
  | flush
  | verify (removed : Bool)
  | rename
  | fail (failure : Failure)
  | cleanUp (removed : Bool)
  | kill
  | callAgain

/-- One event of the call of a process. -/
def step (cfg : Config) (s : Dir) : ℕ × Event → Option Dir
  | (pid, .decide seen) => s.decide pid cfg seen
  | (pid, .acquire) => s.acquire pid cfg
  | (pid, .check seen) => s.check pid seen
  | (pid, .next stamp) => s.next pid cfg stamp
  | (pid, .respond total) => s.respond pid total
  | (pid, .chunk bytes written) => s.chunk pid bytes written
  | (pid, .flush) => s.flush pid
  | (pid, .verify removed) => s.verify pid removed
  | (pid, .rename) => s.rename pid
  | (pid, .fail failure) => s.fail pid failure
  | (pid, .cleanUp removed) => s.cleanUp pid removed
  | (pid, .kill) => s.kill pid
  | (pid, .callAgain) => s.callAgain pid

end Gigastt.Download
