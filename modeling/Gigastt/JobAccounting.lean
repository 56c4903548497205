import Gigastt.JobWorkers

/-!
The life of a job under any number of workers: its id is in the queue at most once, or with one
holder that popped it, or with one worker that runs it; a run that has registered its abort flag is
reached by a cancel.
-/

namespace Gigastt

namespace Jobs

open Indexed

/-- The worker has popped the job and not yet applied its transition. -/
def Worker.holds (k : Nat) (worker : Worker) : Bool :=
  match worker.phase with
  | .starting id => id = k
  | _ => false

/-- The worker has started the job and not yet applied the transition that ends the run. -/
def Worker.runs (k : Nat) (worker : Worker) : Bool :=
  match worker.phase with
  | .reading id => id = k
  | .executing id _ => id = k
  | .failing id _ => id = k
  | .finishing id _ => id = k
  | _ => false

def Call.holds (k : Nat) : Call → Bool
  | .cancelling id => id = k
  | _ => false

namespace State

def holders (s : State) (k : Nat) : Nat :=
  s.workers.countP (Worker.holds k) + s.calls.countP (Call.holds k)

def runners (s : State) (k : Nat) : Nat := s.workers.countP (Worker.runs k)

variable {s : State} {w : Nat} {worker : Worker}

theorem holders_setWorker (hget : s.workers[w]? = some worker) (worker' : Worker) (k : Nat) :
    (s.setWorker w worker').holders k + (worker.holds k).toNat
      = s.holders k + (worker'.holds k).toNat := by
  have hcount := countP_set_add (p := Worker.holds k) (b := worker') hget
  unfold holders setWorker
  dsimp only
  omega

theorem runners_setWorker (hget : s.workers[w]? = some worker) (worker' : Worker) (k : Nat) :
    (s.setWorker w worker').runners k + (worker.runs k).toNat
      = s.runners k + (worker'.runs k).toNat :=
  countP_set_add (p := Worker.runs k) hget

theorem runners_pos (hget : s.workers[w]? = some worker) {k : Nat} (hruns : worker.runs k = true) :
    0 < s.runners k :=
  List.countP_pos_iff.mpr ⟨worker, List.mem_of_getElem? hget, hruns⟩

theorem holders_pos (hget : s.workers[w]? = some worker) {k : Nat}
    (hholds : worker.holds k = true) : 0 < s.holders k :=
  Nat.add_pos_left (List.countP_pos_iff.mpr ⟨worker, List.mem_of_getElem? hget, hholds⟩) _

theorem holders_setCall {call : Nat} {c : Call} (hget : s.calls[call]? = some c) (c' : Call)
    (k : Nat) :
    (s.setCall call c').holders k + (c.holds k).toNat = s.holders k + (c'.holds k).toNat := by
  have hcount := countP_set_add (p := Call.holds k) (b := c') hget
  unfold holders setCall
  dsimp only
  omega

end State

/-- Where a job is, by its occurrences in the queue, its holders and the workers that run it. -/
structure Accounted (known : Prop) (core : Option Core) (queue holders runners : Nat) : Prop where
  single : queue + holders + runners ≤ 1
  queued : ∀ c, core = some c → c.status = .queued → queue + holders = 1
  processing : ∀ c, core = some c → c.status = .processing → runners = 1
  fresh : ¬known → core = none ∧ queue + holders + runners = 0

namespace Accounted

variable {known : Prop} {core : Option Core} {queue holders runners : Nat}

/-- Places are given up only by jobs whose status does not rest on them. -/
theorem leave (h : Accounted known core queue holders runners) {queue' holders' runners' : Nat}
    (hq : queue' + holders' ≤ queue + holders) (hr : runners' ≤ runners)
    (hqueued : ∀ c, core = some c → c.status = .queued → queue' + holders' = queue + holders)
    (hprocessing : ∀ c, core = some c → c.status = .processing → runners' = runners) :
    Accounted known core queue' holders' runners' := by
  obtain ⟨hsingle, hq1, hp1, hfresh⟩ := h
  refine ⟨by omega, fun c hc hs => ?_, fun c hc hs => ?_, fun hk => ?_⟩
  · exact (hqueued c hc hs).trans (hq1 c hc hs)
  · exact (hprocessing c hc hs).trans (hp1 c hc hs)
  · obtain ⟨hnone, hzero⟩ := hfresh hk
    exact ⟨hnone, by omega⟩

theorem congr (h : Accounted known core queue holders runners) {core' : Option Core}
    (hnone : core = none → core' = none)
    (hsome : ∀ c', core' = some c' → ∃ c, core = some c ∧ c'.status = c.status) :
    Accounted known core' queue holders runners := by
  obtain ⟨hsingle, hq1, hp1, hfresh⟩ := h
  refine ⟨hsingle, fun c' hc' hs => ?_, fun c' hc' hs => ?_, fun hk => ?_⟩
  · obtain ⟨c, hc, hstatus⟩ := hsome c' hc'
    exact hq1 c hc (hstatus ▸ hs)
  · obtain ⟨c, hc, hstatus⟩ := hsome c' hc'
    exact hp1 c hc (hstatus ▸ hs)
  · exact ⟨hnone (hfresh hk).1, (hfresh hk).2⟩

/-- An evicted job leaves the queue. -/
theorem evict (h : Accounted known core queue holders runners) :
    Accounted known none 0 holders runners := by
  obtain ⟨hsingle, _, _, hfresh⟩ := h
  refine ⟨by omega, nofun, nofun, fun hk => ?_⟩
  obtain ⟨_, hzero⟩ := hfresh hk
  exact ⟨rfl, by omega⟩

theorem settle (h : Accounted known core queue holders runners) {c c' : Core}
    (hc : core = some c) (hterminal : c'.status.isTerminal = true) :
    Accounted known (some c') queue holders runners := by
  obtain ⟨hsingle, _, _, hfresh⟩ := h
  refine ⟨hsingle, ?_, ?_, fun hk => ?_⟩
  · rintro x ⟨⟩ hs
    rw [hs] at hterminal
    cases hterminal
  · rintro x ⟨⟩ hs
    rw [hs] at hterminal
    cases hterminal
  · obtain ⟨hnone, _⟩ := hfresh hk
    rw [hc] at hnone
    cases hnone

theorem start (h : Accounted known core queue holders runners) {c : Core} (hc : core = some c)
    {holders' runners' : Nat} (hh : holders' + 1 = holders) (hr : runners' = runners + 1) :
    Accounted known (some (c.next .start)) queue holders' runners' := by
  obtain ⟨hsingle, _, _, hfresh⟩ := h
  refine ⟨by omega, ?_, ?_, fun hk => ?_⟩
  · rintro x ⟨⟩ hs
    cases hs
  · rintro x ⟨⟩ _
    omega
  · obtain ⟨hnone, _⟩ := hfresh hk
    rw [hc] at hnone
    cases hnone

theorem retry (h : Accounted known core queue holders runners) {c : Core} (hc : core = some c)
    {queue' runners' : Nat} (hq : queue' = queue + 1) (hr : runners' + 1 = runners) :
    Accounted known (some (c.next .retry)) queue' holders runners' := by
  obtain ⟨hsingle, _, _, hfresh⟩ := h
  refine ⟨by omega, ?_, ?_, fun hk => ?_⟩
  · rintro x ⟨⟩ _
    omega
  · rintro x ⟨⟩ hs
    cases hs
  · obtain ⟨hnone, _⟩ := hfresh hk
    rw [hc] at hnone
    cases hnone

theorem enqueue (h : Accounted known core queue holders runners) (hk : ¬known)
    (body : List UInt8) {known' : Prop} (hk' : known') :
    Accounted known' (some ⟨.queued, 0, none, body⟩) (queue + 1) holders runners := by
  obtain ⟨_, _, _, hfresh⟩ := h
  obtain ⟨_, hzero⟩ := hfresh hk
  refine ⟨by omega, ?_, ?_, fun hnot => absurd hk' hnot⟩
  · rintro x ⟨⟩ _
    omega
  · rintro x ⟨⟩ hs
    cases hs

end Accounted

/-- What the store knows of the run a worker is at. -/
structure Worker.Followed (worker : Worker) (s : Store) (maxRetries : Nat) : Prop where
  flag_lt : ∀ f, worker.flag = some f → f < s.runtime.flags.length
  /-- A cancel finds the flag of the run in the job. -/
  armed : ∀ k c f, worker.runs k = true → s.core k = some c → worker.flag = some f →
    c.status = .processing → c.abort = some f
  signalled : ∀ k c f, worker.runs k = true → s.core k = some c → worker.flag = some f →
    c.status = .cancelled → s.runtime.flags[f]? = some true
  retried : ∀ k c, worker.phase = .finishing k .retry → s.core k = some c →
    c.status = .processing → c.attempts ≤ maxRetries
  ends : ∀ k, worker.phase ≠ .finishing k .start

structure Inv (s : State) : Prop where
  accounted : ∀ k, Accounted (k ∈ s.ledger.created) (s.store.core k) (s.store.queue.count k)
    (s.holders k) (s.runners k)
  attempts : ∀ k c, s.store.core k = some c → c.attempts ≤ s.maxRetries + 1
  waiting : ∀ k c, s.store.core k = some c → c.status = .queued → c.attempts ≤ s.maxRetries
  followed : ∀ (w : Nat) (worker : Worker), s.workers[w]? = some worker → worker.Followed s.store s.maxRetries

/-- A step of the store that moves no job and lowers no flag. -/
structure Ledger.Quiet (l l' : Ledger) : Prop where
  core : ∀ k, l'.store.core k = l.store.core k
  queue : l'.store.queue = l.store.queue
  created : l'.created = l.created
  length : l.store.runtime.flags.length ≤ l'.store.runtime.flags.length
  raised : ∀ f : Nat, l.store.runtime.flags[f]? = some true → l'.store.runtime.flags[f]? = some true

/-- What a worker is followed for survives a step that leaves the job of its run alone. -/
theorem Worker.Followed.mono {worker : Worker} {s t : Store} {n : Nat} (h : worker.Followed s n)
    (hlength : s.runtime.flags.length ≤ t.runtime.flags.length)
    (hraised : ∀ f : Nat, s.runtime.flags[f]? = some true → t.runtime.flags[f]? = some true)
    (hcore : ∀ k c, worker.runs k = true → t.core k = some c → s.core k = some c) :
    worker.Followed t n where
  flag_lt f hf := (h.flag_lt f hf).trans_le hlength
  armed k c f hk hc := h.armed k c f hk (hcore k c hk hc)
  signalled k c f hk hc hf hs := hraised f (h.signalled k c f hk (hcore k c hk hc) hf hs)
  retried k c hphase hc := by
    refine h.retried k c hphase (hcore k c ?_ hc)
    rw [runs, hphase]
    exact decide_eq_true rfl
  ends := h.ends

namespace Ledger

theorem quiet_update {l : Ledger} (now : ℚ) (id : Nat) {f : Update} (hf : f.isRegister = false) :
    l.Quiet (l.onStore (Store.update now id f)) := by
  cases hjob : l.store.find id with
  | none =>
      rw [onStore, Store.update_of_missing hjob]
      exact ⟨fun _ => rfl, rfl, rfl, le_rfl, fun _ h => h⟩
  | some job =>
      have hflags : (f.apply job l.store.runtime).2.flags = l.store.runtime.flags :=
        f.apply_flags job l.store.runtime hf
      rw [onStore, Store.update_of_find hjob]
      refine ⟨fun k => ?_, rfl, rfl, hflags.symm ▸ le_rfl, fun _ h => hflags.symm ▸ h⟩
      rw [Store.core_put]
      by_cases hk : k = id
      · rw [if_pos hk, hk, Store.core_of_find hjob, Option.map_some]
        exact congrArg some (f.apply_core job l.store.runtime hf)
      · exact if_neg hk

theorem quiet_subscribe {l : Ledger} (id : Nat) : l.Quiet (l.onStore (Store.subscribe id)) := by
  cases hjob : l.store.find id with
  | none =>
      rw [onStore, Store.subscribe_of_missing hjob]
      exact ⟨fun _ => rfl, rfl, rfl, le_rfl, fun _ h => h⟩
  | some job =>
      have hflags : (job.subscribe l.store.runtime.channels.length (l.store.opened id)).2.flags
          = l.store.runtime.flags := Job.subscribe_flags _
      rw [onStore, Store.subscribe_of_find hjob]
      refine ⟨fun k => ?_, rfl, rfl, hflags.symm ▸ le_rfl, fun _ h => hflags.symm ▸ h⟩
      rw [Store.core_put]
      by_cases hk : k = id
      · rw [if_pos hk, hk, Store.core_of_find hjob, Option.map_some]
        exact congrArg some (Job.subscribe_core _)
      · exact if_neg hk

theorem quiet_closeReceiver {l : Ledger} (tx : Nat) :
    l.Quiet (l.onStore (Store.closeReceiver tx)) :=
  ⟨fun _ => rfl, rfl, rfl, le_rfl, fun _ h => h⟩

theorem raised_set {flags : List Bool} {flag f : Nat} (h : flags[f]? = some true) :
    (flags.set flag true)[f]? = some true := by
  obtain ⟨hlt, hget⟩ := List.getElem?_eq_some_iff.mp h
  rw [List.getElem?_set]
  split
  · rw [if_pos (by omega)]
  · exact h

theorem quiet_raise {l : Ledger} (flag : Nat) : l.Quiet (l.onStore (Store.raise flag)) :=
  ⟨fun _ => rfl, rfl, rfl, le_of_eq List.length_set.symm, fun _ => raised_set⟩

end Ledger

/-- What an applied transition did. -/
structure Ledger.Applied (l l' : Ledger) (id : Nat) (transition : JobTransition) (job : Job) :
    Prop where
  find : l.store.find id = some job
  allowed : job.allowed transition = true
  core : ∀ k, l'.store.core k = if k = id then some (job.core.next transition) else l.store.core k
  queue : l'.store.queue = if transition = .retry then l.store.queue ++ [id] else l.store.queue
  created : l'.created = l.created
  flags : l'.store.runtime.flags = (job.signal transition l.store.runtime).flags

namespace Ledger

theorem quiet_of_store {l l' : Ledger} (hstore : l'.store = l.store)
    (hcreated : l'.created = l.created) : l.Quiet l' where
  core k := by rw [hstore]
  queue := by rw [hstore]
  created := hcreated
  length := by rw [hstore]
  raised f hf := by rwa [hstore]

/-- A job after the transition is the one it was applied to, or as it was. -/
theorem Applied.core_cases {l l' : Ledger} {id : Nat} {transition : JobTransition} {job : Job}
    (happ : l.Applied l' id transition job) {k : Nat} {c : Core} (hc : l'.store.core k = some c) :
    (k = id ∧ c = job.core.next transition) ∨ (k ≠ id ∧ l.store.core k = some c) := by
  rw [happ.core] at hc
  split at hc
  · rename_i hid
    exact Or.inl ⟨hid, (Option.some.inj hc).symm⟩
  · rename_i hid
    exact Or.inr ⟨hid, hc⟩

theorem Applied.length {l l' : Ledger} {id : Nat} {transition : JobTransition} {job : Job}
    (happ : l.Applied l' id transition job) :
    l'.store.runtime.flags.length = l.store.runtime.flags.length := by
  rw [happ.flags]
  unfold Job.signal
  split
  · exact List.length_set
  · rfl

theorem Applied.raised {l l' : Ledger} {id : Nat} {transition : JobTransition} {job : Job}
    (happ : l.Applied l' id transition job) {f : Nat}
    (hf : l.store.runtime.flags[f]? = some true) : l'.store.runtime.flags[f]? = some true := by
  rw [happ.flags]
  unfold Job.signal
  split
  · exact raised_set hf
  · exact hf

/-- A cancel raises the flag the job has. -/
theorem Applied.signalled {l l' : Ledger} {id f : Nat} {job : Job}
    (happ : l.Applied l' id .cancel job) (habort : job.abort = some f)
    (hf : f < l.store.runtime.flags.length) : l'.store.runtime.flags[f]? = some true := by
  rw [happ.flags]
  simp only [Job.signal, habort]
  exact List.getElem?_set_self hf

theorem created_transition (l : Ledger) (now : ℚ) (id : Nat) (transition : JobTransition) :
    (l.transition now id transition).1.created = l.created := by
  unfold Ledger.transition
  rfl

/-- A transition is applied, or it changes nothing. -/
theorem transition_cases (l : Ledger) (now : ℚ) (id : Nat) (transition : JobTransition) :
    ((l.transition now id transition).2 = .applied ∧
        ∃ job, l.Applied (l.transition now id transition).1 id transition job) ∨
      ((l.transition now id transition).2 ≠ .applied ∧
        l.Quiet (l.transition now id transition).1 ∧
        ∀ job, l.store.find id = some job → job.allowed transition = false) := by
  have hcreated := l.created_transition now id transition
  have houtcome : (l.transition now id transition).2 = (l.store.transition now id transition).2 :=
    rfl
  have hstore : (l.transition now id transition).1.store
      = (l.store.transition now id transition).1 := rfl
  rw [houtcome]
  generalize (l.transition now id transition).1 = l' at hstore hcreated ⊢
  rcases Option.eq_none_or_eq_some (l.store.find id) with hjob | ⟨job, hjob⟩
  · rw [Store.transition_missing hjob] at hstore ⊢
    refine Or.inr ⟨by simp, quiet_of_store hstore hcreated, fun job hsome => ?_⟩
    rw [hjob] at hsome
    cases hsome
  · by_cases hallowed : job.allowed transition = true
    · have hfind := Store.find_transition now hjob hallowed
      have hqueue := Store.queue_transition now hjob hallowed
      have hruntime := Store.runtime_transition now hjob hallowed
      rw [← hstore] at hfind hqueue hruntime
      refine Or.inl ⟨by rw [Store.transition_applied hjob hallowed], job, hjob, hallowed,
        fun k => ?_, hqueue, hcreated, ?_⟩
      · rw [Store.core, hfind]
        split
        · exact congrArg some (Job.transition_core now transition)
        · rfl
      · rw [hruntime]
        exact Job.transition_flags now transition
    · have hrejected := Bool.eq_false_of_not_eq_true hallowed
      rw [Store.transition_rejected hjob hrejected] at hstore ⊢
      refine Or.inr ⟨by simp, quiet_of_store hstore hcreated, fun x hsome => ?_⟩
      rw [hjob] at hsome
      cases hsome
      exact hrejected

end Ledger

/-- What the registration of a new flag did. -/
structure Ledger.Registered (l l' : Ledger) (id : Nat) : Prop where
  core_ne : ∀ k, k ≠ id → l'.store.core k = l.store.core k
  core_none : l.store.core id = none → l'.store.core id = none
  core_some : ∀ c', l'.store.core id = some c' → ∃ c, l.store.core id = some c ∧
    c'.status = c.status ∧ c'.attempts = c.attempts ∧
    (c.status = .processing → c'.abort = some l.store.runtime.flags.length)
  queue : l'.store.queue = l.store.queue
  created : l'.created = l.created
  length : l'.store.runtime.flags.length = l.store.runtime.flags.length + 1
  raised : ∀ f : Nat, l.store.runtime.flags[f]? = some true → l'.store.runtime.flags[f]? = some true
  signalled : ∀ c, l.store.core id = some c → c.status = .cancelled →
    l'.store.runtime.flags[l.store.runtime.flags.length]? = some true

theorem Update.register_core (flag snapshot : Nat) (job : Job) (rt : Runtime) :
    ((Update.register flag snapshot).apply job rt).1.core
      = if job.status = .processing then { job.core with abort := some flag } else job.core := by
  simp only [Update.apply]
  split <;> rfl

theorem Update.register_flags (flag snapshot : Nat) (job : Job) (rt : Runtime) :
    ((Update.register flag snapshot).apply job rt).2.flags
      = if job.status = .cancelled then rt.flags.set flag true else rt.flags := by
  simp only [Update.apply]
  split <;> split <;> rfl

theorem raised_concat {flags : List Bool} {f : Nat} (hf : flags[f]? = some true) :
    (flags ++ [false])[f]? = some true := by
  rw [List.getElem?_append_left (List.getElem?_eq_some_iff.mp hf).1]
  exact hf

section Registered

variable {l l' : Ledger} {now : ℚ} {id snapshot : Nat}
  (hstore : l'.store
    = l.store.newFlag.update now id (.register l.store.runtime.flags.length snapshot))
  (hcreated : l'.created = l.created)
include hstore hcreated

theorem Ledger.registered_missing (hjob : l.store.find id = none) : l.Registered l' id := by
  have hmissing : l.store.newFlag.find id = none := hjob
  rw [Store.update_of_missing hmissing] at hstore
  have hnone : l.store.core id = none := Store.core_eq_none.mpr hjob
  have hcore : ∀ k, l'.store.core k = l.store.core k := fun k => by
    rw [hstore]
    rfl
  refine ⟨fun k _ => hcore k, fun _ => (hcore id).trans hnone, fun c' hc' => ?_, ?_, hcreated,
    ?_, fun f hf => ?_, fun c hc => ?_⟩
  · rw [hcore, hnone] at hc'
    cases hc'
  · rw [hstore]
    rfl
  · rw [hstore]
    exact List.length_append
  · rw [hstore]
    exact raised_concat hf
  · rw [hnone] at hc
    cases hc

theorem Ledger.registered_find {job : Job} (hjob : l.store.find id = some job) :
    l.Registered l' id := by
  have hfind : l.store.newFlag.find id = some job := hjob
  rw [Store.update_of_find hfind] at hstore
  have hcore : ∀ k, l'.store.core k = if k = id then some (if job.status = .processing then
      { job.core with abort := some l.store.runtime.flags.length } else job.core)
      else l.store.core k := by
    intro k
    rw [hstore, Store.core_put, ← Update.register_core l.store.runtime.flags.length snapshot job
      l.store.newFlag.runtime]
    by_cases hk : k = id
    · rw [if_pos hk, if_pos hk, Store.core_of_find hfind]
      rfl
    · rw [if_neg hk, if_neg hk]
      rfl
  have hflags : l'.store.runtime.flags = if job.status = .cancelled then
      (l.store.runtime.flags ++ [false]).set l.store.runtime.flags.length true
      else l.store.runtime.flags ++ [false] := by
    rw [hstore]
    exact Update.register_flags l.store.runtime.flags.length snapshot job l.store.newFlag.runtime
  have hjob' : l.store.core id = some job.core := Store.core_of_find hjob
  refine ⟨fun k hk => (hcore k).trans (if_neg hk), fun hnone => ?_, fun c' hc' => ?_, ?_, hcreated,
    ?_, fun f hf => ?_, fun c hc hs => ?_⟩
  · rw [hjob'] at hnone
    cases hnone
  · rw [hcore, if_pos rfl] at hc'
    cases hc'
    refine ⟨job.core, hjob', ?_, ?_, fun hs => ?_⟩
    · split <;> rfl
    · split <;> rfl
    · have hs : job.status = .processing := hs
      rw [if_pos hs]
  · rw [hstore]
    rfl
  · rw [hflags]
    split
    · rw [List.length_set, List.length_append]
      rfl
    · exact List.length_append
  · rw [hflags]
    split
    · exact raised_set (raised_concat hf)
    · exact raised_concat hf
  · rw [hjob'] at hc
    cases hc
    have hs : job.status = .cancelled := hs
    rw [hflags, if_pos hs]
    exact List.getElem?_set_self (by rw [List.length_append]; exact Nat.lt_succ_self _)

end Registered

theorem Ledger.registered (l : Ledger) (now : ℚ) (id snapshot : Nat) :
    l.Registered (l.register now id snapshot) id := by
  have hstore : (l.register now id snapshot).store
      = l.store.newFlag.update now id (.register l.store.runtime.flags.length snapshot) := rfl
  rcases Option.eq_none_or_eq_some (l.store.find id) with hjob | ⟨job, hjob⟩
  · exact registered_missing hstore rfl hjob
  · exact registered_find hstore rfl hjob

namespace Inv

variable {s : State} {w : Nat} {worker : Worker}

theorem quiet (h : Inv s) {l' : Ledger} (hquiet : s.ledger.Quiet l') : Inv (s.withLedger l') where
  accounted k := by
    have hk := h.accounted k
    rw [State.store, ← hquiet.core, ← hquiet.queue, ← hquiet.created] at hk
    exact hk
  attempts k c hc := h.attempts k c ((hquiet.core k).symm.trans hc)
  waiting k c hc := h.waiting k c ((hquiet.core k).symm.trans hc)
  followed w worker hget := (h.followed w worker hget).mono hquiet.length hquiet.raised
    fun k _ _ hc => (hquiet.core k).symm.trans hc

theorem evict (h : Inv s) (now : ℚ) :
    Inv (s.withLedger (s.ledger.onStore (Store.evictExpired now))) where
  accounted k := by
    have hk := h.accounted k
    rcases s.store.evictExpired_cases now k with ⟨hfind, hcount⟩ | ⟨hfind, hcount, _⟩
    · have hcore : (s.store.evictExpired now).core k = s.store.core k :=
        congrArg (Option.map Job.core) hfind
      rw [← hcore, ← hcount] at hk
      exact hk
    · have hcore : (s.store.evictExpired now).core k = none := Store.core_eq_none.mpr hfind
      have hgone := hk.evict
      rw [← hcore, ← hcount] at hgone
      exact hgone
  attempts k c hc := h.attempts k c (Store.core_of_evictExpired hc)
  waiting k c hc := h.waiting k c (Store.core_of_evictExpired hc)
  followed w worker hget := (h.followed w worker hget).mono le_rfl (fun _ h => h)
    fun _ _ _ hc => Store.core_of_evictExpired hc

theorem setWorker (h : Inv s) (hget : s.workers[w]? = some worker) {worker' : Worker}
    (hholds : ∀ k, worker'.holds k = true → worker.holds k = true)
    (hruns : ∀ k, worker'.runs k = true → worker.runs k = true)
    (hqueued : ∀ k c, worker.holds k = true → s.store.core k = some c → c.status = .queued →
      worker'.holds k = true)
    (hprocessing : ∀ k c, worker.runs k = true → s.store.core k = some c →
      c.status = .processing → worker'.runs k = true)
    (hfollowed : worker'.Followed s.store s.maxRetries) : Inv (s.setWorker w worker') where
  accounted k := by
    have hh := s.holders_setWorker hget worker' k
    have hr := s.runners_setWorker hget worker' k
    have hle := Bool.toNat_le_toNat (hholds k)
    have hle' := Bool.toNat_le_toNat (hruns k)
    show Accounted _ _ (s.store.queue.count k) _ _
    refine (h.accounted k).leave (by omega) (by omega) (fun c hc hs => ?_) fun c hc hs => ?_
    · have hge := Bool.toNat_le_toNat fun hk => hqueued k c hk hc hs
      omega
    · have hge := Bool.toNat_le_toNat fun hk => hprocessing k c hk hc hs
      omega
  attempts := h.attempts
  waiting := h.waiting
  followed v x hx := by
    rcases getElem?_set_cases hx with ⟨_, rfl⟩ | ⟨_, hx⟩
    · exact hfollowed
    · exact h.followed v x hx

theorem enqueue (h : Inv s) (now : ℚ) {id : Nat} (body : List UInt8)
    (hfresh : id ∉ s.ledger.created) : Inv (s.withLedger (s.ledger.enqueue now id body)) := by
  have hcore := fun k => s.store.core_enqueue now id body k
  have hold : ∀ {k c}, (s.store.enqueue now id body).core k = some c →
      c = ⟨.queued, 0, none, body⟩ ∨ s.store.core k = some c := by
    intro k c hc
    rw [hcore] at hc
    by_cases hk : k = id
    · rw [if_pos hk] at hc
      exact Or.inl (Option.some.inj hc).symm
    · rw [if_neg hk] at hc
      exact Or.inr hc
  refine ⟨fun k => ?_, fun k c hc => ?_, fun k c hc hs => ?_, fun v x hx => ?_⟩
  · have hk := h.accounted k
    have hcount : (s.store.enqueue now id body).queue.count k
        = s.store.queue.count k + [id].count k := List.count_append
    show Accounted (k ∈ s.ledger.created ++ [id]) ((s.store.enqueue now id body).core k)
      ((s.store.enqueue now id body).queue.count k) (s.holders k) (s.runners k)
    rw [hcore, hcount]
    by_cases hid : k = id
    · subst hid
      rw [if_pos rfl, List.count_singleton_self]
      exact hk.enqueue hfresh body (List.mem_append_right _ (List.mem_singleton_self k))
    · rw [if_neg hid, List.count_singleton, if_neg (fun heq => hid (eq_of_beq heq).symm),
        List.mem_append, List.mem_singleton, or_iff_left hid]
      exact hk
  · rcases hold hc with rfl | hc
    · exact Nat.zero_le _
    · exact h.attempts k c hc
  · rcases hold hc with rfl | hc
    · exact Nat.zero_le _
    · exact h.waiting k c hc hs
  · refine (h.followed v x hx).mono le_rfl (fun _ hf => hf) fun k c hruns hc => ?_
    replace hc : (s.store.enqueue now id body).core k = some c := hc
    rw [hcore] at hc
    by_cases hid : k = id
    · have hpos : 0 < s.runners k := State.runners_pos hx hruns
      have hzero := ((h.accounted k).fresh (hid ▸ hfresh)).2
      omega
    · rwa [if_neg hid] at hc

theorem create (h : Inv s) (now : ℚ) {id : Nat} (body : List UInt8)
    (hfresh : id ∉ s.ledger.created) : Inv (s.withLedger (s.ledger.create now id body)) := by
  rcases s.ledger.create_cases now id body with hfull | hadmitted
  · rw [hfull]
    exact h.evict now
  · rw [hadmitted]
    exact (h.evict now).enqueue now body hfresh

/-- A pop hands the job over from the queue. What it skips is not queued. -/
theorem accounted_pop (h : Inv s) (now : ℚ) (k : Nat) :
    Accounted (k ∈ s.ledger.created) ((s.ledger.nextQueued now).1.store.core k)
      ((s.ledger.nextQueued now).1.store.queue.count k)
      (s.holders k + (s.ledger.nextQueued now).2.toList.count k) (s.runners k) := by
  have hk := (h.evict now).accounted k
  let t := s.store.evictExpired now
  obtain ⟨skipped, hsplit, hskipped, hpopped, _⟩ := t.popQueued_split t.queue
  have hcount : t.queue.count k
      = skipped.count k + ((t.popQueued t.queue).1.toList.count k
        + (t.popQueued t.queue).2.count k) := by
    conv_lhs => rw [hsplit]
    rw [List.count_append, List.count_append]
  have hqueue : (s.ledger.nextQueued now).1.store.queue = (t.popQueued t.queue).2 := rfl
  have hpop : (s.ledger.nextQueued now).2 = (t.popQueued t.queue).1 := rfl
  rw [hqueue, hpop]
  have hk : Accounted (k ∈ s.ledger.created) (t.core k) (t.queue.count k) (s.holders k)
    (s.runners k) := hk
  refine hk.leave ?_ le_rfl (fun c hc hs => ?_) fun _ _ _ => rfl
  · omega
  · have hnot : skipped.count k = 0 := by
      apply List.count_eq_zero.mpr
      intro hmem
      have hqueued := hskipped k hmem
      obtain ⟨job, hjob, rfl⟩ := Option.map_eq_some_iff.mp hc
      rw [Store.isQueued, hjob, Option.any_some, decide_eq_false_iff_not] at hqueued
      exact hqueued hs
    omega

theorem pop (h : Inv s) (now : ℚ) {t : State}
    (hledger : t.ledger = (s.ledger.nextQueued now).1) (hretries : t.maxRetries = s.maxRetries)
    (hholders : ∀ k, t.holders k = s.holders k + (s.ledger.nextQueued now).2.toList.count k)
    (hrunners : ∀ k, t.runners k = s.runners k)
    (hfollowed : ∀ (v : Nat) (x : Worker), t.workers[v]? = some x →
      x.Followed s.store s.maxRetries) : Inv t := by
  have hcore : ∀ {k c}, t.store.core k = some c → s.store.core k = some c := by
    intro k c hc
    rw [State.store, hledger] at hc
    exact Store.core_of_evictExpired hc
  have hruntime : t.store.runtime = s.store.runtime := by
    rw [State.store, hledger]
    rfl
  refine ⟨fun k => ?_, fun k c hc => ?_, fun k c hc hs => ?_, fun v x hx => ?_⟩
  · have hk := h.accounted_pop now k
    rw [State.store, hledger, hholders, hrunners]
    exact hk
  · exact hretries ▸ h.attempts k c (hcore hc)
  · exact hretries ▸ h.waiting k c (hcore hc) hs
  · rw [hretries]
    exact (hfollowed v x hx).mono (hruntime ▸ le_rfl) (fun _ hf => hruntime ▸ hf)
      fun _ _ _ hc => hcore hc

/-- A worker that runs a stored job finds it no longer queued. -/
theorem not_queued (h : Inv s) (hget : s.workers[w]? = some worker) {k : Nat} {c : Core}
    (hruns : worker.runs k = true) (hc : s.store.core k = some c) : c.status ≠ .queued := by
  intro hs
  have hpos := State.runners_pos hget hruns
  have hone := (h.accounted k).queued c hc hs
  have hsingle := (h.accounted k).single
  omega

/-- Two workers that run one job are one worker. -/
theorem runs_alone (h : Inv s) (hget : s.workers[w]? = some worker) {v k : Nat} {x : Worker}
    (hx : s.workers[v]? = some x) (hruns : worker.runs k = true) (hxruns : x.runs k = true) :
    v = w := by
  have hsingle := (h.accounted k).single
  have hone : s.runners k ≤ 1 := by omega
  exact eq_of_countP_le_one hx hget hxruns hruns hone

/-- A job that a worker runs when it is cancelled is processing, and its flag is raised. -/
theorem signalled (h : Inv s) (hget : s.workers[w]? = some worker) {id f : Nat} {l' : Ledger}
    {job : Job} (happ : s.ledger.Applied l' id .cancel job) (hruns : worker.runs id = true)
    (hf : worker.flag = some f) : l'.store.runtime.flags[f]? = some true := by
  have hjob : s.store.core id = some job.core := Store.core_of_find happ.find
  have hopen := Job.not_terminal_of_allowed happ.allowed
  have hnot := h.not_queued hget hruns hjob
  have hprocessing : job.status = .processing := by
    cases hstatus : job.status with
    | processing => rfl
    | queued => exact absurd hstatus hnot
    | _ =>
        rw [hstatus] at hopen
        cases hopen
  have hold := h.followed w worker hget
  have habort := hold.armed id job.core f hruns hjob hf hprocessing
  exact happ.signalled habort (hold.flag_lt f hf)

/-- A job that ends, by its run or by a client. -/
theorem settle (h : Inv s) (now : ℚ) (id : Nat) (transition : JobTransition)
    (hstart : transition ≠ .start) (hretry : transition ≠ .retry) :
    Inv (s.withLedger (s.ledger.transition now id transition).1) := by
  rcases s.ledger.transition_cases now id transition with ⟨_, job, happ⟩ | ⟨_, hquiet, _⟩
  swap
  · exact h.quiet hquiet
  generalize (s.ledger.transition now id transition).1 = l' at happ
  have hterminal : (job.core.next transition).status.isTerminal = true := by
    cases transition with
    | start => exact absurd rfl hstart
    | retry => exact absurd rfl hretry
    | _ => rfl
  have hjob : s.store.core id = some job.core := Store.core_of_find happ.find
  have hattempts : (job.core.next transition).attempts = job.core.attempts := by
    cases transition with
    | start => exact absurd rfl hstart
    | _ => rfl
  refine ⟨fun k => ?_, fun k c hc => ?_, fun k c hc hs => ?_, fun v x hx => ?_⟩
  · have hk := h.accounted k
    show Accounted (k ∈ l'.created) (l'.store.core k) (l'.store.queue.count k) (s.holders k)
      (s.runners k)
    rw [happ.created, happ.core, happ.queue, if_neg hretry]
    by_cases hid : k = id
    · subst hid
      rw [if_pos rfl]
      exact hk.settle hjob hterminal
    · rw [if_neg hid]
      exact hk
  · rcases happ.core_cases hc with ⟨rfl, rfl⟩ | ⟨_, hc⟩
    · exact hattempts.symm ▸ h.attempts k job.core hjob
    · exact h.attempts k c hc
  · rcases happ.core_cases hc with ⟨rfl, rfl⟩ | ⟨_, hc⟩
    · rw [hs] at hterminal
      cases hterminal
    · exact h.waiting k c hc hs
  · replace hx : s.workers[v]? = some x := hx
    have hold := h.followed v x hx
    refine ⟨fun f hf => ?_, fun k c f hruns hc hf hs => ?_, fun k c f hruns hc hf hs => ?_,
      fun k c hphase hc hs => ?_, hold.ends⟩
    · exact (hold.flag_lt f hf).trans_eq happ.length.symm
    · rcases happ.core_cases hc with ⟨rfl, rfl⟩ | ⟨_, hc⟩
      · rw [hs] at hterminal
        cases hterminal
      · exact hold.armed k c f hruns hc hf hs
    · rcases happ.core_cases hc with ⟨rfl, rfl⟩ | ⟨_, hc⟩
      · cases transition with
        | cancel => exact h.signalled hx happ hruns hf
        | _ => cases hs
      · exact happ.raised (hold.signalled k c f hruns hc hf hs)
    · rcases happ.core_cases hc with ⟨rfl, rfl⟩ | ⟨_, hc⟩
      · rw [hs] at hterminal
        cases hterminal
      · exact hold.retried k c hphase hc hs

/-- A start hands the job over from its holder to a run. -/
theorem start (h : Inv s) (hget : s.workers[w]? = some worker) {id : Nat}
    (hphase : worker.phase = .starting id) {l : Ledger} {job : Job}
    (happ : s.ledger.Applied l id .start job) :
    Inv ((s.withLedger l).setWorker w ⟨.reading id, none⟩) := by
  have hjob : s.store.core id = some job.core := Store.core_of_find happ.find
  have hholds : ∀ k, worker.holds k = decide (id = k) := fun k => by rw [Worker.holds, hphase]
  have hruns : ∀ k, worker.runs k = false := fun k => by rw [Worker.runs, hphase]
  have hheld : 0 < s.holders id := State.holders_pos hget ((hholds id).trans (decide_eq_true rfl))
  have hsingle := (h.accounted id).single
  have hqueued : job.status = .queued := of_decide_eq_true happ.allowed
  refine ⟨fun k => ?_, fun k c hc => ?_, fun k c hc hs => ?_, fun v x hx => ?_⟩
  · have hk := h.accounted k
    have hh := (s.withLedger l).holders_setWorker hget ⟨.reading id, none⟩ k
    have hr := (s.withLedger l).runners_setWorker hget ⟨.reading id, none⟩ k
    have hnew : (Worker.runs k ⟨.reading id, none⟩) = decide (id = k) := rfl
    have hnone : (Worker.holds k ⟨.reading id, none⟩) = false := rfl
    rw [hholds, hnone] at hh
    rw [hruns, hnew] at hr
    have hh0 : (s.withLedger l).holders k = s.holders k := rfl
    have hr0 : (s.withLedger l).runners k = s.runners k := rfl
    show Accounted (k ∈ l.created) (l.store.core k) (l.store.queue.count k) _ _
    have hqueue : l.store.queue = s.store.queue := happ.queue.trans (if_neg nofun)
    rw [happ.created, happ.core, hqueue]
    by_cases hid : k = id
    · subst hid
      rw [decide_eq_true rfl, Bool.toNat_true, Bool.toNat_false] at hh hr
      rw [if_pos rfl]
      exact hk.start hjob (by omega) (by omega)
    · rw [decide_eq_false (Ne.symm hid)] at hh hr
      rw [if_neg hid]
      refine hk.leave ?_ ?_ (fun _ _ _ => ?_) fun _ _ _ => ?_ <;> omega
  · rcases happ.core_cases hc with ⟨rfl, rfl⟩ | ⟨_, hc⟩
    · exact Nat.succ_le_succ (h.waiting k job.core hjob hqueued)
    · exact h.attempts k c hc
  · rcases happ.core_cases hc with ⟨rfl, rfl⟩ | ⟨_, hc⟩
    · cases hs
    · exact h.waiting k c hc hs
  · rcases getElem?_set_cases hx with ⟨_, rfl⟩ | ⟨_, hold⟩
    · exact ⟨nofun, nofun, nofun, nofun, nofun⟩
    · apply (h.followed v x hold).mono happ.length.ge (fun _ => happ.raised)
      intro k c hk hc
      rcases happ.core_cases hc with ⟨rfl, _⟩ | ⟨_, hc⟩
      · have hrunner : 0 < s.runners k := State.runners_pos hold hk
        omega
      · exact hc

/-- A retry hands the job over from its run to the queue. -/
theorem retry (h : Inv s) (hget : s.workers[w]? = some worker) {id : Nat}
    (hphase : worker.phase = .finishing id .retry) {l : Ledger} {job : Job}
    (happ : s.ledger.Applied l id .retry job) :
    Inv ((s.withLedger l).enter w worker .looping) := by
  have hjob : s.store.core id = some job.core := Store.core_of_find happ.find
  have hholds : ∀ k, worker.holds k = false := fun k => by rw [Worker.holds, hphase]
  have hruns : ∀ k, worker.runs k = decide (id = k) := fun k => by rw [Worker.runs, hphase]
  have hprocessing : job.status = .processing := of_decide_eq_true happ.allowed
  have hsingle := (h.accounted id).single
  refine ⟨fun k => ?_, fun k c hc => ?_, fun k c hc hs => ?_, fun v x hx => ?_⟩
  · have hk := h.accounted k
    have hh := (s.withLedger l).holders_setWorker hget { worker with phase := .looping } k
    have hr := (s.withLedger l).runners_setWorker hget { worker with phase := .looping } k
    have hnew : (Worker.runs k { worker with phase := .looping }) = false := rfl
    have hnone : (Worker.holds k { worker with phase := .looping }) = false := rfl
    rw [hholds, hnone] at hh
    rw [hruns, hnew] at hr
    have hh0 : (s.withLedger l).holders k = s.holders k := rfl
    have hr0 : (s.withLedger l).runners k = s.runners k := rfl
    have hcount : (s.store.queue ++ [id]).count k = s.store.queue.count k + [id].count k :=
      List.count_append
    show Accounted (k ∈ l.created) (l.store.core k) (l.store.queue.count k)
      (((s.withLedger l).setWorker w { worker with phase := .looping }).holders k)
      (((s.withLedger l).setWorker w { worker with phase := .looping }).runners k)
    rw [happ.created, happ.core, happ.queue, if_pos rfl, hcount]
    by_cases hid : k = id
    · subst hid
      rw [decide_eq_true rfl, Bool.toNat_true, Bool.toNat_false] at hr
      rw [if_pos rfl, List.count_singleton_self]
      have hheld : ((s.withLedger l).setWorker w { worker with phase := .looping }).holders k
          = s.holders k := by omega
      rw [hheld]
      exact hk.retry hjob rfl (by omega)
    · rw [decide_eq_false (Ne.symm hid)] at hr
      rw [if_neg hid, List.count_singleton, if_neg fun heq => hid (eq_of_beq heq).symm]
      refine hk.leave ?_ ?_ (fun _ _ _ => ?_) fun _ _ _ => ?_ <;> omega
  · rcases happ.core_cases hc with ⟨rfl, rfl⟩ | ⟨_, hc⟩
    · exact h.attempts k job.core hjob
    · exact h.attempts k c hc
  · rcases happ.core_cases hc with ⟨rfl, rfl⟩ | ⟨_, hc⟩
    · exact (h.followed w worker hget).retried k job.core hphase hjob hprocessing
    · exact h.waiting k c hc hs
  · rcases getElem?_set_cases hx with ⟨_, rfl⟩ | ⟨hne, hx⟩
    · exact ⟨fun f hf => ((h.followed w worker hget).flag_lt f hf).trans_eq happ.length.symm,
        nofun, nofun, nofun, nofun⟩
    · apply (h.followed v x hx).mono happ.length.ge (fun _ => happ.raised)
      intro k c hk hc
      rcases happ.core_cases hc with ⟨rfl, _⟩ | ⟨_, hc⟩
      · have hself : worker.runs k = true := (hruns k).trans (decide_eq_true rfl)
        exact absurd (h.runs_alone hget hx hself hk) hne
      · exact hc

/-- The registration arms the job with the flag of the run, or raises the flag at once. -/
theorem register (h : Inv s) (hget : s.workers[w]? = some worker) {id : Nat}
    (hphase : worker.phase = .executing id .registering) {l : Ledger}
    (hreg : s.ledger.Registered l id) :
    Inv ((s.withLedger l).setWorker w
      ⟨.executing id .running, some s.store.runtime.flags.length⟩) := by
  let worker' : Worker := ⟨.executing id .running, some s.store.runtime.flags.length⟩
  have hruns : ∀ k, worker.runs k = decide (id = k) := fun k => by rw [Worker.runs, hphase]
  have hholds : ∀ k, worker.holds k = false := fun k => by rw [Worker.holds, hphase]
  have hsome : ∀ {k c'}, l.store.core k = some c' → ∃ c, s.store.core k = some c ∧
      c'.status = c.status ∧ c'.attempts = c.attempts := by
    intro k c' hc'
    by_cases hid : k = id
    · subst hid
      obtain ⟨c, hc, hstatus, hattempts, _⟩ := hreg.core_some c' hc'
      exact ⟨c, hc, hstatus, hattempts⟩
    · exact ⟨c', (hreg.core_ne k hid).symm.trans hc', rfl, rfl⟩
  refine ⟨fun k => ?_, fun k c hc => ?_, fun k c hc hs => ?_, fun v x hx => ?_⟩
  · have hh := (s.withLedger l).holders_setWorker hget worker' k
    have hr := (s.withLedger l).runners_setWorker hget worker' k
    rw [hholds] at hh
    rw [hruns] at hr
    have hh : ((s.withLedger l).setWorker w worker').holders k = s.holders k :=
      Nat.add_right_cancel hh
    have hr : ((s.withLedger l).setWorker w worker').runners k = s.runners k :=
      Nat.add_right_cancel hr
    show Accounted (k ∈ l.created) (l.store.core k) (l.store.queue.count k)
      (((s.withLedger l).setWorker w worker').holders k)
      (((s.withLedger l).setWorker w worker').runners k)
    rw [hh, hr, hreg.created, hreg.queue]
    refine (h.accounted k).congr (fun hnone => ?_) fun c' hc' => ?_
    · by_cases hid : k = id
      · subst hid
        exact hreg.core_none hnone
      · exact (hreg.core_ne k hid).trans hnone
    · obtain ⟨c, hc, hstatus, _⟩ := hsome hc'
      exact ⟨c, hc, hstatus⟩
  · obtain ⟨x, hx, _, hattempts⟩ := hsome hc
    exact hattempts ▸ h.attempts k x hx
  · obtain ⟨x, hx, hstatus, hattempts⟩ := hsome hc
    exact hattempts ▸ h.waiting k x hx (hstatus ▸ hs)
  · rcases getElem?_set_cases hx with ⟨_, rfl⟩ | ⟨hne, hx⟩
    · refine ⟨?_, fun k c f hk hc hf hs => ?_, fun k c f hk hc hf hs => ?_, nofun, nofun⟩
      · rintro f ⟨⟩
        exact (Nat.lt_succ_self _).trans_eq hreg.length.symm
      · cases hf
        obtain rfl := of_decide_eq_true hk
        obtain ⟨c₀, _, hstatus, _, harmed⟩ := hreg.core_some c hc
        exact harmed (hstatus ▸ hs)
      · cases hf
        obtain rfl := of_decide_eq_true hk
        obtain ⟨c₀, hc₀, hstatus, _⟩ := hreg.core_some c hc
        exact hreg.signalled c₀ hc₀ (hstatus ▸ hs)
    · apply (h.followed v x hx).mono (hreg.length ▸ Nat.le_succ _) hreg.raised
      intro k c hk hc
      by_cases hid : k = id
      · have hself : worker.runs k = true := (hruns k).trans (decide_eq_true hid.symm)
        exact absurd (h.runs_alone hget hx hself hk) hne
      · exact (hreg.core_ne k hid).symm.trans hc

end Inv

end Jobs

end Gigastt
