import Gigastt.JobEvents
import Gigastt.JobLifecycle

/-!
Graceful shutdown. Once the call of `cancel_all_queued` has returned, the queue is empty, and it
stays so until a job is queued anew. In a run in which none is, every stored job has ended when the
last worker leaves. A retry that a worker applies after the call has returned is never run.
-/

namespace Gigastt

namespace Jobs

open Transition

/-- An empty queue is filled by admitting a job or by retrying one. -/
theorem Ledger.queue_step {l l' : Ledger} {a : Action} (hstep : l.step a = some l')
    (hempty : l.store.queue = []) (hquiet : l.enqueues a = false) : l'.store.queue = [] := by
  have hevict : ∀ now, (l.store.evictExpired now).queue = [] := by
    intro now
    rw [Store.evictExpired, hempty]
    rfl
  cases a with
  | create now id body =>
      obtain ⟨_, rfl⟩ := (Option.ite_none_left_eq_some.mp hstep).imp_right Option.some.inj
      have hfull : (l.store.evictExpired now).atCapacity = true := (Bool.not_eq_false' _).mp hquiet
      show (l.store.create now id body).1.queue = []
      rw [Store.create, if_pos hfull]
      exact hevict now
  | evict now =>
      cases hstep
      exact hevict now
  | nextQueued now =>
      cases hstep
      show ((l.store.evictExpired now).popQueued (l.store.evictExpired now).queue).2 = []
      rw [hevict]
      rfl
  | transition now id transition =>
      cases hstep
      rcases l.transition_cases now id transition with ⟨_, job, happ⟩ | ⟨_, hsame, _⟩
      · rw [happ.queue]
        by_cases hretry : transition = .retry
        · subst hretry
          have hprocessing := happ.allowed
          rw [enqueues, happ.find, Option.any_some] at hquiet
          exact absurd hprocessing (ne_true_of_eq_false hquiet)
        · rw [if_neg hretry]
          exact hempty
      · exact hsame.queue.trans hempty
  | update now id f =>
      cases hstep
      exact (l.store.queue_update now id f).trans hempty
  | subscribe id =>
      cases hstep
      exact (l.store.queue_subscribe id).trans hempty
  | register now id snapshot =>
      cases hstep
      exact (l.store.newFlag.queue_update now id (.register _ snapshot)).trans hempty
  | closeReceiver tx | raise flag =>
      cases hstep
      exact hempty

/-- Once the call of the shutdown path has returned, no job is queued anew. -/
def Drains (s : State) (a : Action) : Prop := s.callReturned → s.enqueues a = false

instance (s : State) : Decidable s.callReturned :=
  inferInstanceAs (Decidable (∃ call ∈ s.shutdownCall, _ = _))

instance (s : State) (a : Action) : Decidable (Drains s a) :=
  inferInstanceAs (Decidable (_ → _))

theorem queue_of_callReturned {limits : Limits} {concurrency maxRetries : Nat} {acts : List Action}
    {s : State} (hrun : run State.step (start limits concurrency maxRetries) acts = some s)
    (hguard : Guarded State.step Drains (start limits concurrency maxRetries) acts) :
    s.callReturned → s.store.queue = [] := by
  let Drained (u : State) : Prop := u.callReturned → u.store.queue = []
  have hstep : ∀ u a v, State.step u a = some v → Drains u a → Drained u → Drained v := by
    intro u a v hstep hdrains hu hreturned
    have hfollows := State.follows_step hstep
    rcases hfollows.returns hreturned with hbefore | hempty
    · rcases hfollows.ledger with hsame | ⟨b, hb, henqueues⟩
      · rw [State.store, hsame]
        exact hu hbefore
      · apply Ledger.queue_step hb (hu hbefore)
        exact Bool.eq_false_of_not_eq_true fun hb => ne_true_of_eq_false (hdrains hbefore) (henqueues hb)
    · exact hempty
  have hstart : Drained (start limits concurrency maxRetries) := by
    rintro ⟨_, hnone, _⟩
    cases hnone
  exact run_invariant hstep hrun hguard hstart

/-- With every worker gone and every call returned, a job that has not ended is in the queue. -/
theorem mem_queue_of_left {s : State} (h : Inv s) (hcalls : ∀ c ∈ s.calls, c = .returned)
    (hleft : ∀ worker ∈ s.workers, worker.phase = .left) {k : Nat} {job : Job}
    (hjob : s.store.find k = some job) (hopen : job.status.isTerminal = false) :
    k ∈ s.store.queue := by
  have hrunners : s.runners k = 0 := by
    apply List.countP_eq_zero.mpr
    intro worker hmem hruns
    rw [Worker.runs, hleft worker hmem] at hruns
    cases hruns
  have hholders : s.holders k = 0 := by
    have hworkers : s.workers.countP (Worker.holds k) = 0 := by
      apply List.countP_eq_zero.mpr
      intro worker hmem hholds
      rw [Worker.holds, hleft worker hmem] at hholds
      cases hholds
    have hcalls : s.calls.countP (Call.holds k) = 0 := by
      apply List.countP_eq_zero.mpr
      intro c hmem hholds
      rw [hcalls c hmem] at hholds
      cases hholds
    rw [State.holders, hworkers, hcalls]
  have hcore : s.store.core k = some job.core := Store.core_of_find hjob
  cases hstatus : job.status with
  | queued =>
      have hone := (h.accounted k).queued job.core hcore hstatus
      exact List.count_pos_iff.mp (by omega)
  | processing =>
      have hone := (h.accounted k).processing job.core hcore hstatus
      omega
  | _ =>
      rw [hstatus] at hopen
      cases hopen

/-- Graceful shutdown: when no job is queued anew once the call of the shutdown path has returned,
every stored job has ended when the last worker has left, and every open subscriber has been told.
The shutdown path makes the only such call; others, had there been any, have returned too. -/
theorem shutdown_drains (limits : Limits) (concurrency maxRetries : Nat) (acts : List Action)
    (s : State) (hrun : run State.step (start limits concurrency maxRetries) acts = some s)
    (hguard : Guarded State.step Drains (start limits concurrency maxRetries) acts)
    (hreturned : s.callReturned) (hcalls : ∀ c ∈ s.calls, c = .returned)
    (hleft : ∀ worker ∈ s.workers, worker.phase = .left) :
    (∀ k job, s.store.find k = some job → job.status ≠ .queued ∧ job.status ≠ .processing) ∧
    (∀ (tx : Nat) (ch : Channel) job, s.store.runtime.channels[tx]? = some ch →
      s.store.find ch.job = some job → ch.closed = false → ch.displaced = false →
      ∃ e, job.terminalEvent = some e ∧ ch.events.getLast? = some e) := by
  have hreach : Reachable State.step (start limits concurrency maxRetries) s := ⟨acts, hrun⟩
  have hempty := queue_of_callReturned hrun hguard hreturned
  have hended : ∀ k job, s.store.find k = some job → job.status.isTerminal = true := by
    intro k job hjob
    by_contra hopen
    have hmem := mem_queue_of_left (inv_of_reachable hreach) hcalls hleft hjob
      (Bool.eq_false_of_not_eq_true hopen)
    rw [hempty] at hmem
    cases hmem
  refine ⟨fun k job hjob => ?_, fun tx ch job hch hjob hopen hkept => ?_⟩
  · have hterminal := hended k job hjob
    constructor
    · intro hs
      rw [hs] at hterminal
      cases hterminal
    · intro hs
      rw [hs] at hterminal
      cases hterminal
  · obtain ⟨_, hstreams⟩ := Ledger.streams_of_reachable (State.ledger_reachable hreach)
    have htold := (hstreams.heard ch.job).told tx ch hch rfl hopen hkept
    rw [show s.ledger.store.find ch.job = some job from hjob] at htold
    cases hevent : job.terminalEvent with
    | none =>
        rw [Job.terminalEvent_eq_none] at hevent
        exact absurd (hended ch.job job hjob) (ne_true_of_eq_false hevent)
    | some e =>
        obtain ⟨before, hevents, _⟩ := (told_of_ended hevent).mp htold
        exact ⟨e, rfl, hevents ▸ List.getLast?_concat⟩

/-- The server shuts down while a worker runs the only job, and the call of the shutdown path returns
before the run does. -/
def shutdownDuringRun : List Action :=
  [.create 0 7 [1, 2], .subscribe 7, .worker 0 .check, .worker 0 .acquire, .worker 0 (.poll 0),
    .worker 0 (.start 0), .worker 0 .read, .worker 0 (.size 0 none), .worker 0 .validate,
    .worker 0 (.register 0 0), .shutdown, .shutdownCancelAll, .pass 0 0]

/-- The run returns its outcome, and the worker leaves. -/
def leaveWith (outcome : Except JobError TranscribeResult) : List Action :=
  [.worker 0 (.join outcome), .worker 0 (.record 0 none)] ++
    (match outcome with
      | .ok _ => []
      | .error _ => [.worker 0 .decide]) ++
    [.worker 0 (.finish 0), .worker 0 .check]

theorem shutdown_drains_complete :
    ∃ s job, run State.step (start ⟨0, 4, 100⟩ 1 1)
        (shutdownDuringRun ++ leaveWith (.ok ⟨"done", 3⟩)) = some s ∧
      s.store.find 7 = some job ∧ job.status ≠ .queued ∧ job.status ≠ .processing := by
  obtain ⟨s, job, hrun, hreturned, hcalls, hworkers, hjob⟩ :
      ∃ s job, run State.step (start ⟨0, 4, 100⟩ 1 1)
          (shutdownDuringRun ++ leaveWith (.ok ⟨"done", 3⟩)) = some s ∧
        s.callReturned ∧ s.calls = [.returned] ∧ s.workers = [⟨.left, some 0⟩] ∧
        s.store.find 7 = some job :=
    ⟨_, _, rfl, ⟨0, rfl, rfl⟩, rfl, rfl, rfl⟩
  refine ⟨s, job, hrun, hjob, ?_⟩
  refine (shutdown_drains ⟨0, 4, 100⟩ 1 1 _ s hrun (by decide) hreturned ?_ ?_).1 7 job hjob
  · rw [hcalls]
    exact fun c => List.mem_singleton.mp
  · rw [hworkers]
    exact fun worker hmem => congrArg Worker.phase (List.mem_singleton.mp hmem)

/-- A run that panics after the call has returned is retried by a worker that leaves: the job stays
queued, and its subscriber is never told. -/
theorem shutdown_strands_retry :
    ∃ s job ch, run State.step (start ⟨0, 4, 100⟩ 1 1)
        (shutdownDuringRun ++ leaveWith (.error ⟨none, "Inference thread panicked"⟩)) = some s ∧
      s.shutdown = true ∧ s.callReturned ∧ s.calls = [.returned] ∧
      s.workers = [⟨.left, some 0⟩] ∧ s.store.find 7 = some job ∧ job.status = .queued ∧
      s.store.runtime.channels[0]? = some ch ∧ ch.closed = false ∧ ch.displaced = false ∧
      ch.events.countP JobEvent.isTerminal = 0 := by
  refine ⟨_, _, _, rfl, rfl, ?_, rfl, rfl, rfl, rfl, rfl, rfl, rfl, rfl⟩
  exact ⟨0, rfl, rfl⟩

end Jobs

end Gigastt
