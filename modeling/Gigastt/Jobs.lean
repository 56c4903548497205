import Gigastt.Table
import Gigastt.Rounding

/-!
The in-memory job store. An operation is one critical section of the store: it takes the time of
the wall clock and returns the store and its outcome. The receiving ends of the event streams and the
abort flags, which the store shares with its clients and the running executors, are listed in the
order they were made; a sender or a flag is its index there.
-/

namespace Gigastt

namespace Jobs

inductive JobStatus where
  | queued
  | processing
  | done
  | failed
  | cancelled
  deriving DecidableEq, Repr

def JobStatus.isTerminal : JobStatus → Bool
  | queued => false
  | processing => false
  | done => true
  | failed => true
  | cancelled => true

inductive JobEvent where
  | progress (percent : Nat) (processedSeconds : ℚ)
  | done
  | failed (error : String)
  | cancelled
  deriving DecidableEq, Repr

def JobEvent.isTerminal : JobEvent → Bool
  | progress _ _ => false
  | done => true
  | failed _ => true
  | cancelled => true

structure TranscribeResult where
  text : String
  durationS : ℚ
  deriving DecidableEq, Repr

inductive DiarizationOutcome where
  | applied
  | noSpeakerModel
  | durationCeiling (inputSecs ceilingSecs : ℚ)
  | failed
  deriving DecidableEq, Repr

structure Job where
  status : JobStatus
  body : List UInt8
  updatedAt : ℚ
  processedSeconds : ℚ
  totalSeconds : ℚ
  attempts : Nat
  result : Option TranscribeResult
  diarization : Option DiarizationOutcome
  error : Option String
  /-- The senders of the active listeners. -/
  eventChannels : List Nat
  /-- The abort flag of the run in progress. -/
  abort : Option Nat
  /-- The provisional transcript of the run in progress. -/
  snapshot : Option Nat
  deriving DecidableEq, Repr

/-- The receiving end of one event stream. `displaced` when the subscriber cap removed its sender. -/
structure Channel where
  job : Nat
  events : List JobEvent
  closed : Bool
  displaced : Bool
  deriving DecidableEq, Repr

def Channel.new (id : Nat) : Channel :=
  { job := id, events := [], closed := false, displaced := false }

/-- What the store shares with others: event streams and abort flags. -/
structure Runtime where
  channels : List Channel
  flags : List Bool
  deriving DecidableEq, Repr

def maxJobEventSubscribers : Nat := 32

inductive JobTransition where
  | start
  | complete (result : TranscribeResult)
  | fail (error : String)
  | retry
  | cancel
  deriving DecidableEq, Repr

inductive TransitionOutcome where
  | applied
  | rejected (status : JobStatus)
  | missing
  deriving DecidableEq, Repr

namespace Runtime

/-- `tx.is_closed()`. -/
def isClosed (rt : Runtime) (tx : Nat) : Bool := rt.channels[tx]?.all Channel.closed

/-- `tx.send(event)`, and whether the receiver is there to get it. -/
def send (rt : Runtime) (tx : Nat) (event : JobEvent) : Runtime × Bool :=
  if rt.isClosed tx then (rt, false)
  else
    ({ rt with channels := rt.channels.modify tx fun ch =>
        { ch with events := ch.events ++ [event] } }, true)

/-- Sends the event to each listener. Those that got it stay, unless it ends the stream. -/
def sendAll (event : JobEvent) : List Nat → Runtime → List Nat × Runtime
  | [], rt => ([], rt)
  | tx :: rest, rt =>
      let sent := rt.send tx event
      let r := sendAll event rest sent.1
      (if sent.2 && !event.isTerminal then tx :: r.1 else r.1, r.2)

/-- The listener's sender is dropped. -/
def displace (rt : Runtime) (tx : Nat) : Runtime :=
  { rt with channels := rt.channels.modify tx fun ch => { ch with displaced := true } }

/-- `Arc::new(AtomicBool::new(false))`: the flag is the one after the present ones. -/
def newFlag (rt : Runtime) : Runtime := { rt with flags := rt.flags ++ [false] }

/-- `abort.store(true)`. -/
def raise (rt : Runtime) (flag : Nat) : Runtime := { rt with flags := rt.flags.set flag true }

end Runtime

namespace Job

def queued (now : ℚ) (body : List UInt8) : Job :=
  { status := .queued, body, updatedAt := now, processedSeconds := 0, totalSeconds := 0,
    attempts := 0, result := none, diarization := none, error := none, eventChannels := [],
    abort := none, snapshot := none }

def terminalEvent (job : Job) : Option JobEvent :=
  match job.status with
  | .done => some .done
  | .failed => some (.failed (job.error.getD "Transcription failed."))
  | .cancelled => some .cancelled
  | _ => none

/-- Whether an event may be sent about a job in this status. -/
def compatible : JobEvent → JobStatus → Bool
  | .done, .done => true
  | .failed _, .failed => true
  | .cancelled, .cancelled => true
  | event, status => !event.isTerminal && !status.isTerminal

def broadcast (event : JobEvent) (job : Job) (rt : Runtime) : Job × Runtime :=
  if compatible event job.status then
    let r := rt.sendAll event job.eventChannels
    ({ job with eventChannels := r.1 }, r.2)
  else (job, rt)

/-- Registers a listener. At the cap the oldest one makes room. -/
def subscribe (tx : Nat) (job : Job) (rt : Runtime) : Job × Runtime :=
  match job.terminalEvent with
  | some event => (job, (rt.send tx event).1)
  | none =>
      let live := job.eventChannels.filter fun tx => !rt.isClosed tx
      if maxJobEventSubscribers ≤ live.length then
        ({ job with eventChannels := live.tail ++ [tx] },
          live.head?.elim rt rt.displace)
      else ({ job with eventChannels := live ++ [tx] }, rt)

def allowed (job : Job) : JobTransition → Bool
  | .start => job.status = .queued
  | .cancel => !job.status.isTerminal
  | _ => job.status = .processing

/-- The fields a transition sets. -/
def apply (job : Job) : JobTransition → Job
  | .start => { job with status := .processing, attempts := job.attempts + 1 }
  | .complete result =>
      { job with status := .done, processedSeconds := result.durationS, result := some result,
                 snapshot := none }
  | .fail error => { job with status := .failed, error := some error }
  | .retry => { job with status := .queued, abort := none }
  | .cancel => { job with status := .cancelled }

/-- A terminal job releases its upload and its abort handle. -/
def release (job : Job) : Job :=
  if job.status.isTerminal then { job with body := [], abort := none } else job

/-- Cancelling raises the flag of the run in progress. -/
def signal (job : Job) (transition : JobTransition) (rt : Runtime) : Runtime :=
  match transition, job.abort with
  | .cancel, some flag => rt.raise flag
  | _, _ => rt

/-- The job after an allowed transition, before its event is sent. -/
def applied (now : ℚ) (transition : JobTransition) (job : Job) : Job :=
  release { job.apply transition with updatedAt := now }

def transition (now : ℚ) (transition : JobTransition) (job : Job) (rt : Runtime) : Job × Runtime :=
  let job' := job.applied now transition
  job'.broadcast (job'.terminalEvent.getD (.progress 0 0)) (job.signal transition rt)

end Job

structure Limits where
  jobsTtlSecs : Nat
  jobsMax : Nat
  jobsMaxBytes : Nat
  deriving DecidableEq, Repr

structure Store where
  limits : Limits
  jobs : Table Nat Job
  queue : List Nat
  runtime : Runtime

/-- The closures the executor and the event helper pass to `update`. -/
inductive Update where
  | total (seconds : ℚ)
  | register (flag snapshot : Nat)
  | processed (seconds : ℚ)
  | broadcast (event : JobEvent)
  | diarize (outcome : DiarizationOutcome)
  deriving DecidableEq, Repr

/-- What the closure does to the job. A registration that finds the job cancelled raises the flag;
one that finds it processing hands the flag over. -/
def Update.apply (job : Job) (rt : Runtime) : Update → Job × Runtime
  | total seconds => ({ job with totalSeconds := seconds }, rt)
  | register flag snapshot =>
      let rt := if job.status = .cancelled then rt.raise flag else rt
      if job.status = .processing then
        ({ job with abort := some flag, snapshot := some snapshot }, rt)
      else (job, rt)
  | processed seconds =>
      (if job.status = .processing then { job with processedSeconds := seconds } else job, rt)
  | broadcast event => job.broadcast event rt
  | diarize outcome => ({ job with diarization := some outcome }, rt)

namespace Store

def new (limits : Limits) : Store :=
  { limits, jobs := .empty, queue := [], runtime := { channels := [], flags := [] } }

def find (s : Store) (id : Nat) : Option Job := s.jobs.find id

/-- The job is terminal and its time to live is over. -/
def expired (s : Store) (now : ℚ) (job : Job) : Bool :=
  s.limits.jobsTtlSecs ≠ 0 && job.status.isTerminal && (s.limits.jobsTtlSecs : ℚ) < now - job.updatedAt

/-- `evict_expired_locked`. -/
def evictExpired (now : ℚ) (s : Store) : Store :=
  { s with
    jobs := s.jobs.filter fun _ job => !s.expired now job
    queue := s.queue.filter fun id => !(s.find id).any (s.expired now) }

def residentBodyBytes (s : Store) : Nat := (s.jobs.entries.map fun x => x.2.body.length).sum

def atCapacity (s : Store) : Bool :=
  s.limits.jobsMax ≤ s.jobs.entries.length || s.limits.jobsMaxBytes ≤ s.residentBodyBytes

def enqueue (now : ℚ) (id : Nat) (body : List UInt8) (s : Store) : Store :=
  { s with jobs := s.jobs.insert id (Job.queued now body), queue := s.queue ++ [id] }

/-- Admits a new job, or refuses it because the store is full. -/
def create (now : ℚ) (id : Nat) (body : List UInt8) (s : Store) : Store × Bool :=
  let s := s.evictExpired now
  if s.atCapacity then (s, false) else (s.enqueue now id body, true)

/-- Puts the job and what it shares in place of the old ones. -/
def put (s : Store) (id : Nat) (r : Job × Runtime) : Store :=
  { s with jobs := s.jobs.modify id fun _ => r.1, runtime := r.2 }

def requeue (s : Store) (id : Nat) : Store := { s with queue := s.queue ++ [id] }

def transition (now : ℚ) (id : Nat) (transition : JobTransition) (s : Store) :
    Store × TransitionOutcome :=
  match s.find id with
  | none => (s, .missing)
  | some job =>
      if job.allowed transition then
        let s := s.put id (job.transition now transition s.runtime)
        (if transition = .retry then s.requeue id else s, .applied)
      else (s, .rejected job.status)

/-- Applies a closure, or does nothing to a job that is gone. -/
def update (now : ℚ) (id : Nat) (f : Update) (s : Store) : Store :=
  match s.find id with
  | none => s
  | some job =>
      let r := f.apply job s.runtime
      s.put id ({ r.1 with updatedAt := now }, r.2)

/-- A new event stream of the job, unless it is gone. -/
def subscribe (id : Nat) (s : Store) : Store :=
  match s.find id with
  | none => s
  | some job =>
      let rt := { s.runtime with channels := s.runtime.channels ++ [Channel.new id] }
      s.put id (job.subscribe s.runtime.channels.length rt)

/-- Pops ids until one names a queued job. -/
def popQueued (s : Store) : List Nat → Option Nat × List Nat
  | [] => (none, [])
  | id :: rest =>
      if (s.find id).any fun job => job.status = .queued then (some id, rest) else s.popQueued rest

def nextQueued (now : ℚ) (s : Store) : Store × Option Nat :=
  let s := s.evictExpired now
  let r := s.popQueued s.queue
  ({ s with queue := r.2 }, r.1)

/-- A client drops its event stream. -/
def closeReceiver (tx : Nat) (s : Store) : Store :=
  { s with runtime := { s.runtime with
      channels := s.runtime.channels.modify tx fun ch => { ch with closed := true } } }

def newFlag (s : Store) : Store := { s with runtime := s.runtime.newFlag }

def raise (flag : Nat) (s : Store) : Store := { s with runtime := s.runtime.raise flag }

end Store

end Jobs

end Gigastt
