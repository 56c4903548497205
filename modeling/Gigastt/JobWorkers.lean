import Gigastt.JobLedger

/-!
The job service as a transition system: the workers of the queue, the executor each of them runs,
the clients, and the calls of `cancel_all_queued`. Each action is one critical section of the store,
one test of the shutdown token or the semaphore, or one move of an executor. What an action cannot
know, such as the time, a transcript or an error, it carries.
-/

namespace Gigastt

namespace Jobs

/-- The variants of the engine's error that a failed job reports on its own terms. -/
inductive KnownError where
  | cancelled
  | audioTooLong (observedSecs limitSecs : ℚ)
  | invalidAudio
  deriving DecidableEq, Repr

/-- An error of the executor: its known variant, if it has one, and its text. -/
structure JobError where
  variant : Option KnownError
  text : String
  deriving DecidableEq, Repr

def containsText (s pattern : String) : Bool := decide (pattern.toList <:+: s.toList)

def isRetryableError (e : JobError) : Bool := containsText e.text "panicked"

def sanitizeJobError (e : JobError) : String :=
  match e.variant with
  | some .cancelled => "Transcription cancelled."
  | some (.audioTooLong observedSecs limitSecs) =>
      s!"Audio too long: {Rounding.roundEven observedSecs}s exceeds the maximum of {Rounding.roundEven limitSecs}s."
  | some .invalidAudio => "Failed to decode audio file. Check format."
  | none =>
      let lower := e.text.map Char.toLower
      if containsText lower "inference_timeout" then "Inference timed out."
      else if containsText lower "invalid audio" then "Failed to decode audio file. Check format."
      else "Transcription failed."

/-- Where an execution stands. -/
inductive Stage where
  | sizing
  | validating
  | registering
  | running
  | recording (outcome : Except JobError TranscribeResult)

/-- Where a worker stands in its loop, with the job it is at. -/
inductive Phase where
  | looping
  | acquiring
  | polling
  | starting (id : Nat)
  | reading (id : Nat)
  | executing (id : Nat) (stage : Stage)
  | failing (id : Nat) (error : JobError)
  | finishing (id : Nat) (transition : JobTransition)
  | left

structure Worker where
  phase : Phase
  /-- The abort flag its run has registered. -/
  flag : Option Nat

/-- Where a call of `cancel_all_queued` stands. -/
inductive Call where
  | popping
  | cancelling (id : Nat)
  | returned
  deriving DecidableEq, Repr

structure State where
  ledger : Ledger
  maxRetries : Nat
  permits : Nat
  shutdown : Bool
  workers : List Worker
  calls : List Call
  /-- The call the shutdown path has made. -/
  shutdownCall : Option Nat

/-- The moves of a worker. -/
inductive Move where
  | check
  | acquire
  | timeout
  | poll (now : ℚ)
  | start (now : ℚ)
  | read
  | size (now : ℚ) (probed : Option ℚ)
  | validate
  | refuse (error : JobError)
  | register (now : ℚ) (snapshot : Nat)
  | progress (now : ℚ) (seconds : ℚ)
  | publish (now : ℚ) (percent : Nat) (seconds : ℚ)
  | raise
  | join (outcome : Except JobError TranscribeResult)
  | record (now : ℚ) (diarization : Option DiarizationOutcome)
  | decide
  | finish (now : ℚ)

inductive Action where
  | create (now : ℚ) (id : Nat) (body : List UInt8)
  | cancel (now : ℚ) (id : Nat)
  | subscribe (id : Nat)
  | closeReceiver (tx : Nat)
  | evict (now : ℚ)
  | worker (w : Nat) (move : Move)
  | shutdown
  | cancelAllQueued
  | shutdownCancelAll
  | pass (call : Nat) (now : ℚ)

/-- One worker for each permit. -/
def start (limits : Limits) (concurrency maxRetries : Nat) : State :=
  { ledger := .new limits, maxRetries, permits := max concurrency 1, shutdown := false,
    workers := List.replicate (max concurrency 1) ⟨.looping, none⟩, calls := [],
    shutdownCall := none }

/-- What the worker does once `execute` has returned. -/
def returned (id : Nat) : Except JobError TranscribeResult → Phase
  | .ok result => .finishing id (.complete result)
  | .error e => .failing id e

namespace State

abbrev store (s : State) : Store := s.ledger.store

def setWorker (s : State) (w : Nat) (worker : Worker) : State :=
  { s with workers := s.workers.set w worker }

def enter (s : State) (w : Nat) (worker : Worker) (phase : Phase) : State :=
  s.setWorker w { worker with phase }

def setCall (s : State) (call : Nat) (c : Call) : State :=
  { s with calls := s.calls.set call c }

/-- The permit is dropped. -/
def free (s : State) : State := { s with permits := s.permits + 1 }

def withLedger (s : State) (ledger : Ledger) : State := { s with ledger }

def update (s : State) (now : ℚ) (id : Nat) (f : Update) : State :=
  s.withLedger (s.ledger.onStore (Store.update now id f))

/-- The attempts of a job that is gone read as zero. -/
def verdict (s : State) (id : Nat) (e : JobError) : JobTransition :=
  let attempts := ((s.store.find id).map Job.attempts).getD 0
  if isRetryableError e && attempts ≤ s.maxRetries then .retry else .fail (sanitizeJobError e)

def move (s : State) (w : Nat) (worker : Worker) (move : Move) : Option State :=
  match worker.phase, move with
  | .looping, .check => some (s.enter w worker (if s.shutdown then .left else .acquiring))
  | .acquiring, .acquire =>
      if s.permits = 0 then none
      else some { s.enter w worker .polling with permits := s.permits - 1 }
  | .acquiring, .timeout => some (s.enter w worker .looping)
  | .polling, .poll now =>
      let r := s.ledger.nextQueued now
      let s := s.withLedger r.1
      match r.2 with
      | some id => some (s.enter w worker (.starting id))
      | none => some (s.free.enter w worker .looping)
  | .starting id, .start now =>
      let r := s.ledger.transition now id .start
      let s := s.withLedger r.1
      if r.2 = .applied then some (s.setWorker w ⟨.reading id, none⟩)
      else some (s.free.enter w worker .looping)
  | .reading id, .read =>
      if (s.store.find id).any fun job => job.status = .processing then
        some (s.enter w worker (.executing id .sizing))
      else some (s.free.enter w worker .looping)
  | .executing id .sizing, .size now probed =>
      some ((s.update now id (.total (probed.getD 0))).enter w worker (.executing id .validating))
  | .executing id .sizing, .refuse e => some (s.free.enter w worker (.failing id e))
  | .executing id .validating, .validate => some (s.enter w worker (.executing id .registering))
  | .executing id .validating, .refuse e => some (s.free.enter w worker (.failing id e))
  | .executing id .registering, .register now snapshot =>
      let flag := s.store.runtime.flags.length
      let s := s.withLedger (s.ledger.register now id snapshot)
      some (s.setWorker w ⟨.executing id .running, some flag⟩)
  | .executing id .running, .progress now seconds => some (s.update now id (.processed seconds))
  | .executing id .running, .publish now percent seconds =>
      some (s.update now id (.broadcast (.progress percent seconds)))
  | .executing _ .running, .raise =>
      worker.flag.map fun flag => s.withLedger (s.ledger.onStore (Store.raise flag))
  | .executing id .running, .join outcome => some (s.enter w worker (.executing id (.recording outcome)))
  | .executing id (.recording outcome), .record now diarization =>
      let s := diarization.elim s fun outcome => s.update now id (.diarize outcome)
      some (s.free.enter w worker (returned id outcome))
  | .failing id e, .decide => some (s.enter w worker (.finishing id (s.verdict id e)))
  | .finishing id transition, .finish now =>
      some ((s.withLedger (s.ledger.transition now id transition).1).enter w worker .looping)
  | _, _ => none

/-- One round of `cancel_all_queued`: the pop or the cancel. -/
def pass (s : State) (call : Nat) (now : ℚ) : Call → Option State
  | .popping =>
      let r := s.ledger.nextQueued now
      let s := s.withLedger r.1
      match r.2 with
      | some id => some (s.setCall call (.cancelling id))
      | none => some (s.setCall call .returned)
  | .cancelling id =>
      some ((s.withLedger (s.ledger.transition now id .cancel).1).setCall call .popping)
  | .returned => none

def step (s : State) : Action → Option State
  | .create now id body =>
      if id ∈ s.ledger.created then none else some (s.withLedger (s.ledger.create now id body))
  | .cancel now id => some (s.withLedger (s.ledger.transition now id .cancel).1)
  | .subscribe id => some (s.withLedger (s.ledger.onStore (Store.subscribe id)))
  | .closeReceiver tx => some (s.withLedger (s.ledger.onStore (Store.closeReceiver tx)))
  | .evict now => some (s.withLedger (s.ledger.onStore (Store.evictExpired now)))
  | .worker w move => s.workers[w]?.bind fun worker => s.move w worker move
  | .shutdown => some { s with shutdown := true }
  | .cancelAllQueued => some { s with calls := s.calls ++ [.popping] }
  | .shutdownCancelAll =>
      if s.shutdown && s.shutdownCall.isNone then
        some { s with calls := s.calls ++ [.popping], shutdownCall := some s.calls.length }
      else none
  | .pass call now => s.calls[call]?.bind (s.pass call now)

end State

/-- The action puts a job in the queue. -/
def Ledger.enqueues (l : Ledger) : Ledger.Action → Bool
  | .create now _ _ => !(l.store.evictExpired now).atCapacity
  | .transition _ id .retry => (l.store.find id).any fun job => job.status = .processing
  | _ => false

def State.enqueues (s : State) : Action → Bool
  | .create now id body => s.ledger.enqueues (.create now id body)
  | .worker w (.finish now) =>
      match s.workers[w]? with
      | some ⟨.finishing id transition, _⟩ => s.ledger.enqueues (.transition now id transition)
      | _ => false
  | _ => false

/-- The call of `cancel_all_queued` on the shutdown path has returned. -/
def State.callReturned (s : State) : Prop := ∃ call ∈ s.shutdownCall, s.calls[call]? = some .returned

/-- An action of the service is at most one action of the store. The call of the shutdown path
returns from an empty queue. -/
structure Follows (s t : State) (a : Action) : Prop where
  maxRetries : t.maxRetries = s.maxRetries
  returns : t.callReturned → s.callReturned ∨ t.store.queue = []
  ledger : t.ledger = s.ledger ∨ ∃ b, s.ledger.step b = some t.ledger ∧
    (s.ledger.enqueues b = true → s.enqueues a = true)

namespace State

variable {s t : State}

theorem follows_move {w : Nat} {worker : Worker} (hget : s.workers[w]? = some worker) {m : Move}
    (hmove : s.move w worker m = some t) : Follows s t (.worker w m) := by
  obtain ⟨phase, flag⟩ := worker
  unfold move at hmove
  split at hmove
  case h_1 => cases hmove; exact ⟨rfl, Or.inl, Or.inl rfl⟩
  case h_2 =>
      obtain ⟨_, ht⟩ := Option.ite_none_left_eq_some.mp hmove
      cases ht
      exact ⟨rfl, Or.inl, Or.inl rfl⟩
  case h_3 => cases hmove; exact ⟨rfl, Or.inl, Or.inl rfl⟩
  case h_4 now hphase =>
      dsimp only at hmove
      split at hmove
      · cases hmove
        exact ⟨rfl, Or.inl, Or.inr ⟨.nextQueued now, rfl, nofun⟩⟩
      · cases hmove
        exact ⟨rfl, Or.inl, Or.inr ⟨.nextQueued now, rfl, nofun⟩⟩
  case h_5 id now hphase =>
      dsimp only at hmove
      split at hmove
      · cases hmove
        exact ⟨rfl, Or.inl, Or.inr ⟨.transition now id .start, rfl, nofun⟩⟩
      · cases hmove
        exact ⟨rfl, Or.inl, Or.inr ⟨.transition now id .start, rfl, nofun⟩⟩
  case h_6 id hphase =>
      split at hmove
      · cases hmove
        exact ⟨rfl, Or.inl, Or.inl rfl⟩
      · cases hmove
        exact ⟨rfl, Or.inl, Or.inl rfl⟩
  case h_7 id now probed hphase =>
      cases hmove
      exact ⟨rfl, Or.inl, Or.inr ⟨.update now id (.total (probed.getD 0)), rfl, nofun⟩⟩
  case h_8 => cases hmove; exact ⟨rfl, Or.inl, Or.inl rfl⟩
  case h_9 => cases hmove; exact ⟨rfl, Or.inl, Or.inl rfl⟩
  case h_10 => cases hmove; exact ⟨rfl, Or.inl, Or.inl rfl⟩
  case h_11 id now snapshot hphase =>
      cases hmove
      exact ⟨rfl, Or.inl, Or.inr ⟨.register now id snapshot, rfl, nofun⟩⟩
  case h_12 id now seconds hphase =>
      cases hmove
      exact ⟨rfl, Or.inl, Or.inr ⟨.update now id (.processed seconds), rfl, nofun⟩⟩
  case h_13 id now percent seconds hphase =>
      cases hmove
      exact ⟨rfl, Or.inl, Or.inr ⟨.update now id (.broadcast (.progress percent seconds)), rfl, nofun⟩⟩
  case h_14 id hphase =>
      obtain ⟨f, _, rfl⟩ := Option.map_eq_some_iff.mp hmove
      exact ⟨rfl, Or.inl, Or.inr ⟨.raise f, rfl, nofun⟩⟩
  case h_15 => cases hmove; exact ⟨rfl, Or.inl, Or.inl rfl⟩
  case h_16 id outcome now diarization hphase =>
      cases hmove
      cases diarization with
      | none => exact ⟨rfl, Or.inl, Or.inl rfl⟩
      | some outcome => exact ⟨rfl, Or.inl, Or.inr ⟨.update now id (.diarize outcome), rfl, nofun⟩⟩
  case h_17 => cases hmove; exact ⟨rfl, Or.inl, Or.inl rfl⟩
  case h_18 id transition now hphase =>
      cases hphase
      cases hmove
      refine ⟨rfl, Or.inl, Or.inr ⟨.transition now id transition, rfl, fun henq => ?_⟩⟩
      rw [enqueues, hget]
      exact henq
  case h_19 => cases hmove

/-- A call that goes on has not returned. -/
theorem callReturned_of_set {call : Nat} {c : Call} {l : Ledger}
    (hret : ((s.withLedger l).setCall call c).callReturned) (hc : c ≠ .returned) :
    s.callReturned := by
  obtain ⟨k, hk, hget⟩ := hret
  rcases Indexed.getElem?_set_cases hget with ⟨_, heq⟩ | ⟨_, hget⟩
  · exact absurd heq.symm hc
  · exact ⟨k, hk, hget⟩

theorem follows_pass {call : Nat} {c : Call} {now : ℚ} (hpass : s.pass call now c = some t) :
    Follows s t (.pass call now) := by
  cases c with
  | returned => cases hpass
  | cancelling id =>
      cases hpass
      exact ⟨rfl, fun hret => Or.inl (callReturned_of_set hret nofun),
        Or.inr ⟨.transition now id .cancel, rfl, nofun⟩⟩
  | popping =>
      simp only [pass] at hpass
      split at hpass
      · cases hpass
        exact ⟨rfl, fun hret => Or.inl (callReturned_of_set hret nofun),
          Or.inr ⟨.nextQueued now, rfl, nofun⟩⟩
      · rename_i hpop
        cases hpass
        refine ⟨rfl, fun _ => Or.inr ?_, Or.inr ⟨.nextQueued now, rfl, nofun⟩⟩
        obtain ⟨_, _, _, _, hnone⟩ := (s.store.evictExpired now).popQueued_split
          (s.store.evictExpired now).queue
        exact hnone hpop

theorem follows_step {a : Action} (hstep : s.step a = some t) : Follows s t a := by
  cases a with
  | create now id body =>
      obtain ⟨hfresh, rfl⟩ := (Option.ite_none_left_eq_some.mp hstep).imp_right Option.some.inj
      exact ⟨rfl, Or.inl, Or.inr ⟨.create now id body, if_neg hfresh, fun henq => henq⟩⟩
  | cancel now id =>
      cases hstep
      exact ⟨rfl, Or.inl, Or.inr ⟨.transition now id .cancel, rfl, nofun⟩⟩
  | subscribe id =>
      cases hstep
      exact ⟨rfl, Or.inl, Or.inr ⟨.subscribe id, rfl, nofun⟩⟩
  | closeReceiver tx =>
      cases hstep
      exact ⟨rfl, Or.inl, Or.inr ⟨.closeReceiver tx, rfl, nofun⟩⟩
  | evict now =>
      cases hstep
      exact ⟨rfl, Or.inl, Or.inr ⟨.evict now, rfl, nofun⟩⟩
  | worker w m =>
      obtain ⟨worker, hget, hmove⟩ := Option.bind_eq_some_iff.mp hstep
      exact follows_move hget hmove
  | shutdown =>
      cases hstep
      exact ⟨rfl, Or.inl, Or.inl rfl⟩
  | cancelAllQueued =>
      cases hstep
      refine ⟨rfl, ?_, Or.inl rfl⟩
      rintro ⟨k, hk, hget⟩
      rcases Indexed.getElem?_concat_cases hget with hget | ⟨_, hpopping⟩
      · exact Or.inl ⟨k, hk, hget⟩
      · cases hpopping
  | shutdownCancelAll =>
      obtain ⟨_, ht⟩ := Option.ite_none_right_eq_some.mp hstep
      cases ht
      refine ⟨rfl, ?_, Or.inl rfl⟩
      rintro ⟨k, hk, hget⟩
      cases hk
      rcases Indexed.getElem?_concat_cases hget with hget | ⟨_, hpopping⟩
      · exact absurd (List.getElem?_eq_some_iff.mp hget).1 (lt_irrefl _)
      · cases hpopping
  | pass call now =>
      obtain ⟨c, hget, hpass⟩ := Option.bind_eq_some_iff.mp hstep
      exact follows_pass hpass

/-- A run of the service is a run of its store. -/
theorem ledger_reachable (hrun : Transition.Reachable step s t) :
    Transition.Reachable Ledger.step s.ledger t.ledger := by
  let Reached (u : State) : Prop := Transition.Reachable Ledger.step s.ledger u.ledger
  have hstep : ∀ u a v, step u a = some v → Reached u → Reached v := by
    intro u a v hstep hu
    rcases (follows_step hstep).ledger with heq | ⟨b, hb, _⟩
    · show Transition.Reachable Ledger.step s.ledger v.ledger
      rw [heq]
      exact hu
    · exact hu.tail hb
  exact hrun.invariant hstep (Transition.Reachable.refl s.ledger)

theorem maxRetries_reachable (hrun : Transition.Reachable step s t) :
    t.maxRetries = s.maxRetries := by
  let Same (u : State) : Prop := u.maxRetries = s.maxRetries
  have hstep : ∀ u a v, step u a = some v → Same u → Same v :=
    fun _ _ _ hstep hu => (follows_step hstep).maxRetries.trans hu
  exact hrun.invariant hstep rfl

end State

end Jobs

end Gigastt
