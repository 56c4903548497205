import Gigastt.JobAccounting

/-!
Every action of the job service keeps the accounting: the life of a job over all interleavings.
-/

namespace Gigastt

namespace Jobs

open Indexed

/-- A transition that does not start a job does not leave it running. -/
theorem Ledger.not_processing_transition {l : Ledger} {now : ℚ} {id : Nat}
    {transition : JobTransition} (hstart : transition ≠ .start) {c : Core}
    (hc : (l.transition now id transition).1.store.core id = some c) : c.status ≠ .processing := by
  rcases l.transition_cases now id transition with ⟨_, job, happ⟩ | ⟨_, hquiet, hnot⟩
  · rw [happ.core, if_pos rfl] at hc
    cases hc
    cases transition with
    | start => exact absurd rfl hstart
    | _ => nofun
  · rw [hquiet.core] at hc
    obtain ⟨job, hjob, rfl⟩ := Option.map_eq_some_iff.mp hc
    intro hs
    exact Bool.false_ne_true ((hnot job hjob).symm.trans (Job.allowed_of_processing hs hstart))

/-- After a cancel the job is at its end. -/
theorem Ledger.terminal_of_cancel {l : Ledger} {now : ℚ} {id : Nat} {c : Core}
    (hc : (l.transition now id .cancel).1.store.core id = some c) :
    c.status.isTerminal = true := by
  rcases l.transition_cases now id .cancel with ⟨_, job, happ⟩ | ⟨_, hquiet, hnot⟩
  · rw [happ.core, if_pos rfl] at hc
    cases hc
    rfl
  · rw [hquiet.core] at hc
    obtain ⟨job, hjob, rfl⟩ := Option.map_eq_some_iff.mp hc
    exact (Bool.not_eq_false' _).mp (hnot job hjob)

namespace State

variable {s : State}

theorem verdict_ne_start (id : Nat) (e : JobError) : s.verdict id e ≠ .start := by
  unfold verdict
  dsimp only
  split <;> nofun

/-- A retry is decided only within the limit. -/
theorem attempts_le_of_verdict {id : Nat} {e : JobError} (hretry : s.verdict id e = .retry)
    {c : Core} (hc : s.store.core id = some c) : c.attempts ≤ s.maxRetries := by
  obtain ⟨job, hjob, rfl⟩ := Option.map_eq_some_iff.mp hc
  simp only [verdict, hjob, Option.map_some, Option.getD_some] at hretry
  split at hretry
  · rename_i hlimit
    exact of_decide_eq_true (Bool.and_eq_true_iff.mp hlimit).2
  · cases hretry

end State

namespace Inv

variable {s : State} {w : Nat} {worker : Worker}

theorem permits (h : Inv s) (n : Nat) : Inv { s with permits := n } :=
  ⟨h.accounted, h.attempts, h.waiting, h.followed⟩

theorem free (h : Inv s) : Inv s.free := h.permits _

/-- A worker goes on with its job, or on without one. -/
theorem enter (h : Inv s) (hget : s.workers[w]? = some worker) {phase : Phase}
    (hholds : ∀ k, Worker.holds k { worker with phase } = worker.holds k)
    (hruns : ∀ k, Worker.runs k { worker with phase } = worker.runs k)
    (hretried : ∀ k c, phase = .finishing k .retry → s.store.core k = some c →
      c.status = .processing → c.attempts ≤ s.maxRetries)
    (hends : ∀ k, phase ≠ .finishing k .start) : Inv (s.enter w worker phase) := by
  have hold := h.followed w worker hget
  refine h.setWorker hget (fun k hk => (hholds k).symm.trans hk) (fun k hk => (hruns k).symm.trans hk)
    (fun k _ hk _ _ => (hholds k).trans hk) (fun k _ hk _ _ => (hruns k).trans hk) ?_
  exact ⟨hold.flag_lt, fun k c f hk => hold.armed k c f ((hruns k).symm.trans hk),
    fun k c f hk => hold.signalled k c f ((hruns k).symm.trans hk), hretried, hends⟩

/-- A worker lets go of a job that no longer rests on it. -/
theorem leave (h : Inv s) (hget : s.workers[w]? = some worker)
    (hqueued : ∀ k c, worker.holds k = true → s.store.core k = some c → c.status ≠ .queued)
    (hprocessing : ∀ k c, worker.runs k = true → s.store.core k = some c →
      c.status ≠ .processing) : Inv (s.enter w worker .looping) := by
  refine h.setWorker hget nofun nofun (fun k c hk hc hs => absurd hs (hqueued k c hk hc))
    (fun k c hk hc hs => absurd hs (hprocessing k c hk hc)) ?_
  exact ⟨(h.followed w worker hget).flag_lt, nofun, nofun, nofun, nofun⟩

theorem update (h : Inv s) (now : ℚ) (id : Nat) {f : Update} (hf : f.isRegister = false) :
    Inv (s.update now id f) :=
  h.quiet (Ledger.quiet_update now id hf)

theorem poll (h : Inv s) {flag : Option Nat} (hget : s.workers[w]? = some ⟨.polling, flag⟩)
    (now : ℚ) {t : State}
    (hmove : s.move w ⟨.polling, flag⟩ (.poll now) = some t) : Inv t := by
  simp only [State.move] at hmove
  have hidle : ∀ {phase : Phase}, (∀ k, Worker.runs k ⟨phase, flag⟩ = false) →
      (∀ k tr, phase ≠ .finishing k tr) →
      Worker.Followed ⟨phase, flag⟩ s.store s.maxRetries := by
    intro phase hruns hphase
    refine ⟨(h.followed w _ hget).flag_lt, fun k c f hk => ?_, fun k c f hk => ?_,
      fun k c hk => absurd hk (hphase k .retry), fun k => hphase k .start⟩
    · rw [hruns] at hk
      cases hk
    · rw [hruns] at hk
      cases hk
  have hothers : ∀ {phase : Phase}, Worker.Followed ⟨phase, flag⟩ s.store s.maxRetries →
      ∀ (v : Nat) (x : Worker), (s.workers.set w ⟨phase, flag⟩)[v]? = some x →
        x.Followed s.store s.maxRetries := by
    intro phase hnew v x hx
    rcases getElem?_set_cases hx with ⟨_, rfl⟩ | ⟨_, hx⟩
    · exact hnew
    · exact h.followed v x hx
  cases hpop : (s.ledger.nextQueued now).2 with
  | none =>
      rw [hpop] at hmove
      cases hmove
      refine h.pop now rfl rfl (fun k => ?_) (fun k => ?_) (hothers (hidle (fun _ => rfl) nofun))
      · rw [hpop]
        exact Nat.add_right_cancel (s.holders_setWorker hget ⟨.looping, flag⟩ k)
      · exact Nat.add_right_cancel (s.runners_setWorker hget ⟨.looping, flag⟩ k)
  | some id =>
      rw [hpop] at hmove
      cases hmove
      refine h.pop now rfl rfl (fun k => ?_) (fun k => ?_) (hothers (hidle (fun _ => rfl) nofun))
      · rw [hpop]
        have hcount : [id].count k = (Worker.holds k ⟨.starting id, flag⟩).toNat := by
          rw [List.count_singleton, Worker.holds, Bool.toNat, Bool.cond_eq_ite]
          simp only [beq_iff_eq, decide_eq_true_eq]
        exact (s.holders_setWorker hget ⟨.starting id, flag⟩ k).trans
          (congrArg (s.holders k + ·) hcount.symm)
      · exact Nat.add_right_cancel (s.runners_setWorker hget ⟨.starting id, flag⟩ k)

/-- The transition at the end of a run. -/
theorem finish (h : Inv s) (hget : s.workers[w]? = some worker) {id : Nat}
    {transition : JobTransition} (hphase : worker.phase = .finishing id transition) (now : ℚ) :
    Inv ((s.withLedger (s.ledger.transition now id transition).1).enter w worker .looping) := by
  have hstart : transition ≠ .start := by
    rintro rfl
    exact (h.followed w worker hget).ends id hphase
  have hholds : ∀ k, worker.holds k = true → False := fun k hk => by
    rw [Worker.holds, hphase] at hk
    cases hk
  have hdone : ∀ k c, worker.runs k = true →
      (s.ledger.transition now id transition).1.store.core k = some c →
      c.status ≠ .processing := by
    intro k c hk hc
    rw [Worker.runs, hphase] at hk
    obtain rfl := of_decide_eq_true hk
    exact Ledger.not_processing_transition hstart hc
  by_cases hretry : transition = .retry
  · subst hretry
    rcases s.ledger.transition_cases now id .retry with ⟨_, job, happ⟩ | ⟨_, hquiet, _⟩
    · exact h.retry hget hphase happ
    · exact (h.quiet hquiet).leave hget (fun k _ hk => (hholds k hk).elim) hdone
  · exact (h.settle now id transition hstart hretry).leave hget (fun k _ hk => (hholds k hk).elim) hdone

theorem begin (h : Inv s) {id : Nat} {flag : Option Nat}
    (hget : s.workers[w]? = some ⟨.starting id, flag⟩) (now : ℚ) {t : State}
    (hmove : s.move w ⟨.starting id, flag⟩ (.start now) = some t) : Inv t := by
  simp only [State.move] at hmove
  rcases s.ledger.transition_cases now id .start with ⟨hout, job, happ⟩ | ⟨hout, hquiet, hnot⟩
  · simp only [hout, if_true] at hmove
    cases hmove
    exact h.start hget rfl happ
  · -- the job was cancelled or evicted after the pop
    simp only [if_neg hout] at hmove
    cases hmove
    refine (h.quiet hquiet).free.leave hget (fun k c hk hc hs => ?_) nofun
    obtain rfl := of_decide_eq_true hk
    obtain ⟨job, hjob, rfl⟩ := Option.map_eq_some_iff.mp ((hquiet.core id).symm.trans hc)
    have hs : job.status = .queued := hs
    exact Bool.false_ne_true ((hnot job hjob).symm.trans (decide_eq_true hs))

theorem read (h : Inv s) {id : Nat} {flag : Option Nat}
    (hget : s.workers[w]? = some ⟨.reading id, flag⟩) {t : State}
    (hmove : s.move w ⟨.reading id, flag⟩ .read = some t) : Inv t := by
  simp only [State.move] at hmove
  split at hmove
  · cases hmove
    exact h.enter hget (fun _ => rfl) (fun _ => rfl) nofun nofun
  · rename_i hnot
    cases hmove
    refine h.free.leave hget nofun fun k c hk hc hs => hnot ?_
    obtain rfl := of_decide_eq_true hk
    obtain ⟨job, hjob, rfl⟩ := Option.map_eq_some_iff.mp hc
    have hjob : s.store.find id = some job := hjob
    rw [hjob]
    exact decide_eq_true hs

theorem record (h : Inv s) {id : Nat} {outcome : Except JobError TranscribeResult}
    {flag : Option Nat} (hget : s.workers[w]? = some ⟨.executing id (.recording outcome), flag⟩)
    (now : ℚ) (diarization : Option DiarizationOutcome) :
    Inv ((diarization.elim s fun outcome => s.update now id (.diarize outcome)).free.enter w
      ⟨.executing id (.recording outcome), flag⟩ (returned id outcome)) := by
  have hnoted : Inv (diarization.elim s fun outcome => s.update now id (.diarize outcome)) := by
    cases diarization with
    | none => exact h
    | some outcome => exact h.update now id rfl
  have hkept : (diarization.elim s fun outcome =>
      s.update now id (.diarize outcome)).workers = s.workers := by
    cases diarization <;> rfl
  have hget' := (congrArg (·[w]?) hkept).trans hget
  cases outcome with
  | ok result => exact hnoted.free.enter hget' (fun _ => rfl) (fun _ => rfl) nofun nofun
  | error e => exact hnoted.free.enter hget' (fun _ => rfl) (fun _ => rfl) nofun nofun

/-- A retry that the worker decides on is within the limit. -/
theorem judge (h : Inv s) {id : Nat} {e : JobError} {flag : Option Nat}
    (hget : s.workers[w]? = some ⟨.failing id e, flag⟩) :
    Inv (s.enter w ⟨.failing id e, flag⟩ (.finishing id (s.verdict id e))) := by
  refine h.enter hget (fun _ => rfl) (fun _ => rfl) (fun k c hphase hc hs => ?_) fun k hphase => ?_
  · injection hphase with hid hverdict
    subst hid
    exact State.attempts_le_of_verdict hverdict hc
  · injection hphase with hid hverdict
    exact s.verdict_ne_start id e hverdict

theorem move (h : Inv s) (hget : s.workers[w]? = some worker) {m : Move} {t : State}
    (hmove : s.move w worker m = some t) : Inv t := by
  obtain ⟨phase, flag⟩ := worker
  unfold State.move at hmove
  split at hmove
  case h_1 hphase =>
      cases hphase
      cases hmove
      cases s.shutdown with
      | false => exact h.enter hget (fun _ => rfl) (fun _ => rfl) nofun nofun
      | true => exact h.enter hget (fun _ => rfl) (fun _ => rfl) nofun nofun
  case h_2 hphase =>
      cases hphase
      obtain ⟨_, ht⟩ := Option.ite_none_left_eq_some.mp hmove
      cases ht
      exact (h.permits (s.permits - 1)).enter hget (fun _ => rfl) (fun _ => rfl) nofun nofun
  case h_3 hphase =>
      cases hphase
      cases hmove
      exact h.enter hget (fun _ => rfl) (fun _ => rfl) nofun nofun
  case h_4 now hphase =>
      cases hphase
      exact h.poll hget now hmove
  case h_5 id now hphase =>
      cases hphase
      exact h.begin hget now hmove
  case h_6 id hphase =>
      cases hphase
      exact h.read hget hmove
  case h_7 id now probed hphase =>
      cases hphase
      cases hmove
      exact (h.update now id rfl).enter hget (fun _ => rfl) (fun _ => rfl) nofun nofun
  case h_8 id e hphase =>
      cases hphase
      cases hmove
      exact h.free.enter hget (fun _ => rfl) (fun _ => rfl) nofun nofun
  case h_9 id hphase =>
      cases hphase
      cases hmove
      exact h.enter hget (fun _ => rfl) (fun _ => rfl) nofun nofun
  case h_10 id e hphase =>
      cases hphase
      cases hmove
      exact h.free.enter hget (fun _ => rfl) (fun _ => rfl) nofun nofun
  case h_11 id now snapshot hphase =>
      cases hphase
      cases hmove
      exact h.register hget rfl (s.ledger.registered now id snapshot)
  case h_12 id now seconds hphase =>
      cases hphase
      cases hmove
      exact h.update now id rfl
  case h_13 id now percent seconds hphase =>
      cases hphase
      cases hmove
      exact h.update now id rfl
  case h_14 id hphase =>
      cases hphase
      obtain ⟨f, _, rfl⟩ := Option.map_eq_some_iff.mp hmove
      exact h.quiet (Ledger.quiet_raise f)
  case h_15 id outcome hphase =>
      cases hphase
      cases hmove
      exact h.enter hget (fun _ => rfl) (fun _ => rfl) nofun nofun
  case h_16 id outcome now diarization hphase =>
      cases hphase
      cases hmove
      exact h.record hget now diarization
  case h_17 id e hphase =>
      cases hphase
      cases hmove
      exact h.judge hget
  case h_18 id transition now hphase =>
      cases hphase
      cases hmove
      exact h.finish hget rfl now
  case h_19 => cases hmove

/-- A call goes on without holding a queued job. -/
theorem setCall (h : Inv s) {call : Nat} {c c' : Call} (hget : s.calls[call]? = some c)
    (hnew : ∀ k, c'.holds k = false)
    (hqueued : ∀ k x, c.holds k = true → s.store.core k = some x → x.status ≠ .queued) :
    Inv (s.setCall call c') := by
  refine ⟨fun k => ?_, h.attempts, h.waiting, h.followed⟩
  have hh := s.holders_setCall hget c' k
  rw [hnew, Bool.toNat_false] at hh
  refine (h.accounted k).leave ?_ le_rfl (fun x hx hs => ?_) fun _ _ _ => rfl
  · show s.store.queue.count k + (s.setCall call c').holders k ≤ _
    omega
  · show s.store.queue.count k + (s.setCall call c').holders k = _
    cases hc : c.holds k with
    | true => exact absurd hs (hqueued k x hc hx)
    | false =>
        rw [hc, Bool.toNat_false] at hh
        omega

theorem pass (h : Inv s) {call : Nat} {c : Call} (hget : s.calls[call]? = some c) (now : ℚ)
    {t : State} (hpass : s.pass call now c = some t) : Inv t := by
  cases c with
  | returned => cases hpass
  | cancelling id =>
      cases hpass
      have hcancel := h.settle now id .cancel nofun nofun
      apply hcancel.setCall hget (fun _ => rfl)
      intro k x hk hx hs
      obtain rfl := of_decide_eq_true hk
      have hterminal := Ledger.terminal_of_cancel hx
      rw [hs] at hterminal
      cases hterminal
  | popping =>
      simp only [State.pass] at hpass
      cases hpop : (s.ledger.nextQueued now).2 with
      | none =>
          rw [hpop] at hpass
          cases hpass
          refine h.pop now rfl rfl (fun k => ?_) (fun _ => rfl) h.followed
          rw [hpop]
          exact Nat.add_right_cancel (s.holders_setCall hget .returned k)
      | some id =>
          rw [hpop] at hpass
          cases hpass
          refine h.pop now rfl rfl (fun k => ?_) (fun _ => rfl) h.followed
          rw [hpop]
          have hcount : [id].count k = (Call.holds k (.cancelling id)).toNat := by
            rw [List.count_singleton, Call.holds, Bool.toNat, Bool.cond_eq_ite]
            simp only [beq_iff_eq, decide_eq_true_eq]
          exact (s.holders_setCall hget (.cancelling id) k).trans
            (congrArg (s.holders k + ·) hcount.symm)

/-- A call of `cancel_all_queued` that has just begun holds no job. -/
theorem call (h : Inv s) {t : State} (hledger : t.ledger = s.ledger)
    (hretries : t.maxRetries = s.maxRetries) (hworkers : t.workers = s.workers)
    (hcalls : t.calls = s.calls ++ [.popping]) : Inv t := by
  obtain ⟨ledger, maxRetries, permits, shutdown, workers, calls, shutdownCall⟩ := t
  cases hledger
  cases hretries
  cases hworkers
  cases hcalls
  refine ⟨fun k => ?_, h.attempts, h.waiting, h.followed⟩
  have hholders : s.workers.countP (Worker.holds k)
      + (s.calls ++ [Call.popping]).countP (Call.holds k) = s.holders k := by
    rw [List.countP_append]
    rfl
  have hk := h.accounted k
  rw [← hholders] at hk
  exact hk

theorem step (h : Inv s) {a : Action} {t : State} (hstep : s.step a = some t) : Inv t := by
  cases a with
  | create now id body =>
      obtain ⟨hfresh, rfl⟩ := (Option.ite_none_left_eq_some.mp hstep).imp_right Option.some.inj
      exact h.create now body hfresh
  | cancel now id =>
      cases hstep
      exact h.settle now id .cancel nofun nofun
  | subscribe id =>
      cases hstep
      exact h.quiet (Ledger.quiet_subscribe id)
  | closeReceiver tx =>
      cases hstep
      exact h.quiet (Ledger.quiet_closeReceiver tx)
  | evict now =>
      cases hstep
      exact h.evict now
  | worker w m =>
      obtain ⟨worker, hget, hmove⟩ := Option.bind_eq_some_iff.mp hstep
      exact h.move hget hmove
  | shutdown =>
      cases hstep
      exact ⟨h.accounted, h.attempts, h.waiting, h.followed⟩
  | cancelAllQueued =>
      cases hstep
      exact h.call rfl rfl rfl rfl
  | shutdownCancelAll =>
      obtain ⟨_, ht⟩ := Option.ite_none_right_eq_some.mp hstep
      cases ht
      exact h.call rfl rfl rfl rfl
  | pass call now =>
      obtain ⟨c, hget, hpass⟩ := Option.bind_eq_some_iff.mp hstep
      exact h.pass hget now hpass

end Inv

theorem inv_start (limits : Limits) (concurrency maxRetries : Nat) :
    Inv (start limits concurrency maxRetries) where
  accounted k := by
    have hidle : ∀ p : Worker → Bool, p ⟨.looping, none⟩ = false →
        (List.replicate (max concurrency 1) (⟨.looping, none⟩ : Worker)).countP p = 0 := by
      intro p hp
      rw [List.countP_replicate, hp]
      rfl
    have hholders : (start limits concurrency maxRetries).holders k = 0 :=
      congrArg (· + 0) (hidle _ rfl)
    have hrunners : (start limits concurrency maxRetries).runners k = 0 := hidle _ rfl
    rw [hholders, hrunners]
    exact ⟨Nat.zero_le _, nofun, nofun, fun _ => ⟨rfl, rfl⟩⟩
  attempts := nofun
  waiting := nofun
  followed w worker hget := by
    obtain rfl := List.eq_of_mem_replicate (List.mem_of_getElem? hget)
    exact ⟨nofun, nofun, nofun, nofun, nofun⟩

theorem inv_of_reachable {limits : Limits} {concurrency maxRetries : Nat} {s : State}
    (hrun : Transition.Reachable State.step (start limits concurrency maxRetries) s) : Inv s :=
  hrun.invariant (fun _ _ _ hstep h => h.step hstep) (inv_start limits concurrency maxRetries)

theorem sound_of_reachable {limits : Limits} {concurrency maxRetries : Nat} {s : State}
    (hrun : Transition.Reachable State.step (start limits concurrency maxRetries) s) :
    s.ledger.Sound :=
  Ledger.sound_of_reachable (State.ledger_reachable hrun) (Ledger.sound_new limits)

/-- The life of a job over every interleaving of clients, workers and executors: a terminal status
stays, one worker at most runs the job, its attempts are bounded, and an upload or an abort flag is
kept only where it can be used. -/
theorem job_lifecycle (limits : Limits) (concurrency maxRetries : Nat) (s : State)
    (hrun : Transition.Reachable State.step (start limits concurrency maxRetries) s) :
    (∀ t k job job', Transition.Reachable State.step s t → s.store.find k = some job →
      job.status.isTerminal = true → t.store.find k = some job' → job'.status = job.status) ∧
    (∀ (v w : Nat) (x y : Worker) (k : Nat), s.workers[v]? = some x → s.workers[w]? = some y →
      x.runs k = true → y.runs k = true → v = w) ∧
    (∀ k job, s.store.find k = some job → job.attempts ≤ maxRetries + 1) ∧
    (∀ k job, s.store.find k = some job → job.status = .queued → job.abort = none) ∧
    (∀ k job, s.store.find k = some job → job.status.isTerminal = true →
      job.body = [] ∧ job.abort = none) := by
  have hinv := inv_of_reachable hrun
  have hsound := sound_of_reachable hrun
  have hretries : s.maxRetries = maxRetries := State.maxRetries_reachable hrun
  refine ⟨fun t k job job' hlater hjob hterminal hjob' => ?_,
    fun v w x y k hx hy hxruns hyruns => ?_, fun k job hjob => ?_, fun k job hjob hs => ?_,
    fun k job hjob hs => ?_⟩
  · exact Ledger.terminal_stable (State.ledger_reachable hlater) hsound (Store.core_of_find hjob)
      hterminal (Store.core_of_find hjob')
  · have hsingle := (hinv.accounted k).single
    exact eq_of_countP_le_one hx hy hxruns hyruns (by unfold State.runners at hsingle; omega)
  · exact hretries ▸ hinv.attempts k job.core (Store.core_of_find hjob)
  · exact (hsound.clean k job.core (Store.core_of_find hjob)).unarmed hs
  · exact (hsound.clean k job.core (Store.core_of_find hjob)).released hs

/-- A client cancels a job between its start and the registration of its abort flag. -/
def cancelledEarly : List Action :=
  [.create 0 7 [1, 2], .worker 0 .check, .worker 0 .acquire, .worker 0 (.poll 0),
    .worker 0 (.start 0), .worker 0 .read, .cancel 0 7, .worker 0 (.size 0 none),
    .worker 0 .validate, .worker 0 (.register 0 0)]

theorem job_lifecycle_cancelled :
    ∃ s job, Transition.run State.step (start ⟨0, 4, 100⟩ 1 1) cancelledEarly = some s ∧
      s.store.find 7 = some job ∧ job.body = [] ∧ job.abort = none :=
  ⟨_, _, rfl, rfl,
    (job_lifecycle ⟨0, 4, 100⟩ 1 1 _ ⟨cancelledEarly, rfl⟩).2.2.2.2 7 _ rfl rfl⟩

/-- No cancel is lost: a run that has registered its abort flag has the flag set in every state in
which its job is stored as cancelled. -/
theorem no_lost_cancel (limits : Limits) (concurrency maxRetries : Nat) (s : State)
    (hrun : Transition.Reachable State.step (start limits concurrency maxRetries) s)
    (w k f : Nat) (worker : Worker) (job : Job) (hget : s.workers[w]? = some worker)
    (hruns : worker.runs k = true) (hflag : worker.flag = some f)
    (hjob : s.store.find k = some job) (hcancelled : job.status = .cancelled) :
    s.store.runtime.flags[f]? = some true :=
  ((inv_of_reachable hrun).followed w worker hget).signalled k job.core f hruns
    (Store.core_of_find hjob) hflag hcancelled

theorem no_lost_cancel_early :
    ∃ s, Transition.run State.step (start ⟨0, 4, 100⟩ 1 1) cancelledEarly = some s ∧
      s.store.runtime.flags[0]? = some true :=
  ⟨_, rfl, no_lost_cancel ⟨0, 4, 100⟩ 1 1 _ ⟨cancelledEarly, rfl⟩ 0 7 0 _ _ rfl rfl rfl rfl rfl⟩

end Jobs

end Gigastt
