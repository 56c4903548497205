import Gigastt.Indexed
import Gigastt.Jobs
import Gigastt.Transition

/-!
Runs of the store alone: its operations in any order, at any times of the wall clock. The ledger
keeps which ids were created, popped and retried. An id is drawn fresh, so none is created twice.
-/

namespace Gigastt

namespace Jobs

structure Ledger where
  store : Store
  /-- The admitted jobs, oldest first. -/
  created : List Nat
  /-- What `next_queued` handed out, oldest first. -/
  popped : List Nat
  /-- The jobs a retry was applied to. -/
  retried : List Nat

namespace Ledger

inductive Action where
  | create (now : ℚ) (id : Nat) (body : List UInt8)
  | evict (now : ℚ)
  | nextQueued (now : ℚ)
  | transition (now : ℚ) (id : Nat) (transition : JobTransition)
  | update (now : ℚ) (id : Nat) (f : Update)
  | subscribe (id : Nat)
  | closeReceiver (tx : Nat)
  | register (now : ℚ) (id snapshot : Nat)
  | raise (flag : Nat)

def new (limits : Limits) : Ledger :=
  { store := .new limits, created := [], popped := [], retried := [] }

def create (now : ℚ) (id : Nat) (body : List UInt8) (l : Ledger) : Ledger :=
  let r := l.store.create now id body
  { l with store := r.1, created := if r.2 then l.created ++ [id] else l.created }

def nextQueued (now : ℚ) (l : Ledger) : Ledger × Option Nat :=
  let r := l.store.nextQueued now
  ({ l with store := r.1, popped := l.popped ++ r.2.toList }, r.2)

def transition (now : ℚ) (id : Nat) (transition : JobTransition) (l : Ledger) :
    Ledger × TransitionOutcome :=
  let r := l.store.transition now id transition
  let again := transition = .retry ∧ r.2 = .applied
  ({ l with store := r.1, retried := if again then l.retried ++ [id] else l.retried }, r.2)

def onStore (f : Store → Store) (l : Ledger) : Ledger := { l with store := f l.store }

/-- A new abort flag, and the closure that hands it to the job. -/
def register (now : ℚ) (id snapshot : Nat) (l : Ledger) : Ledger :=
  let flag := l.store.runtime.flags.length
  (l.onStore Store.newFlag).onStore (Store.update now id (.register flag snapshot))

def step (l : Ledger) : Action → Option Ledger
  | .create now id body => if id ∈ l.created then none else some (l.create now id body)
  | .evict now => some (l.onStore (Store.evictExpired now))
  | .nextQueued now => some (l.nextQueued now).1
  | .transition now id transition => some (l.transition now id transition).1
  | .update now id f => some (l.onStore (Store.update now id f))
  | .subscribe id => some (l.onStore (Store.subscribe id))
  | .closeReceiver tx => some (l.onStore (Store.closeReceiver tx))
  | .register now id snapshot => some (l.register now id snapshot)
  | .raise flag => some (l.onStore (Store.raise flag))

end Ledger

/-- What the protocol of the workers rests on. -/
structure Core where
  status : JobStatus
  attempts : Nat
  abort : Option Nat
  body : List UInt8

def Job.core (job : Job) : Core := ⟨job.status, job.attempts, job.abort, job.body⟩

def Store.core (s : Store) (id : Nat) : Option Core := (s.find id).map Job.core

/-- A job has an upload and an abort handle only while it can use them. -/
structure Core.Clean (c : Core) : Prop where
  released : c.status.isTerminal = true → c.body = [] ∧ c.abort = none
  unarmed : c.status = .queued → c.abort = none

/-- The fields a transition leaves the job with. -/
def Core.next (c : Core) : JobTransition → Core
  | .start => { c with status := .processing, attempts := c.attempts + 1 }
  | .complete _ => ⟨.done, c.attempts, none, []⟩
  | .fail _ => ⟨.failed, c.attempts, none, []⟩
  | .retry => { c with status := .queued, abort := none }
  | .cancel => ⟨.cancelled, c.attempts, none, []⟩

namespace Runtime

theorem send_flags (rt : Runtime) (tx : Nat) (event : JobEvent) :
    (rt.send tx event).1.flags = rt.flags := by
  unfold send
  split <;> rfl

theorem sendAll_flags (event : JobEvent) (channels : List Nat) (rt : Runtime) :
    (rt.sendAll event channels).2.flags = rt.flags := by
  induction channels generalizing rt with
  | nil => rfl
  | cons tx rest ih => exact (ih _).trans (send_flags rt tx event)

end Runtime

namespace Job

variable {job : Job} {rt : Runtime}

theorem broadcast_fst (event : JobEvent) (job : Job) (rt : Runtime) :
    ∃ channels, (job.broadcast event rt).1 = { job with eventChannels := channels } := by
  unfold broadcast
  split
  · exact ⟨_, rfl⟩
  · exact ⟨job.eventChannels, rfl⟩

theorem broadcast_core (event : JobEvent) : (job.broadcast event rt).1.core = job.core := by
  obtain ⟨channels, hfst⟩ := broadcast_fst event job rt
  rw [hfst]
  rfl

theorem subscribe_core (tx : Nat) : (job.subscribe tx rt).1.core = job.core := by
  unfold subscribe
  split
  · rfl
  · dsimp only
    split <;> rfl

theorem broadcast_flags (event : JobEvent) : (job.broadcast event rt).2.flags = rt.flags := by
  unfold broadcast
  split
  · exact Runtime.sendAll_flags event job.eventChannels rt
  · rfl

theorem subscribe_flags (tx : Nat) : (job.subscribe tx rt).2.flags = rt.flags := by
  unfold subscribe
  split
  · exact Runtime.send_flags rt tx _
  · dsimp only
    split
    · cases (job.eventChannels.filter fun tx => !rt.isClosed tx).head? <;> rfl
    · rfl

theorem transition_flags (now : ℚ) (transition : JobTransition) :
    (job.transition now transition rt).2.flags = (job.signal transition rt).flags :=
  broadcast_flags _

theorem transition_core (now : ℚ) (transition : JobTransition) :
    (job.transition now transition rt).1.core = Core.next job.core transition := by
  rw [Job.transition, broadcast_core]
  cases transition <;> rfl

end Job

def Update.isRegister : Update → Bool
  | .register _ _ => true
  | _ => false

theorem Update.apply_core (f : Update) (job : Job) (rt : Runtime) (hf : f.isRegister = false) :
    (f.apply job rt).1.core = job.core := by
  cases f with
  | register flag snapshot => cases hf
  | broadcast event => exact Job.broadcast_core event
  | processed seconds =>
      simp only [Update.apply]
      split <;> rfl
  | total seconds => rfl
  | diarize outcome => rfl

theorem Update.apply_flags (f : Update) (job : Job) (rt : Runtime) (hf : f.isRegister = false) :
    (f.apply job rt).2.flags = rt.flags := by
  cases f with
  | register flag snapshot => cases hf
  | broadcast event => exact Job.broadcast_flags event
  | processed seconds => rfl
  | total seconds => rfl
  | diarize outcome => rfl

namespace Store

variable {s : Store} {id : Nat} {job : Job}

theorem core_eq_none : s.core id = none ↔ s.find id = none := Option.map_eq_none_iff

theorem core_of_find (hjob : s.find id = some job) : s.core id = some job.core :=
  congrArg (Option.map Job.core) hjob

theorem find_put (r : Job × Runtime) (k : Nat) :
    (s.put id r).find k = if k = id then (s.find id).map (fun _ => r.1) else s.find k :=
  Table.find_modify _ k

theorem core_put (r : Job × Runtime) (k : Nat) :
    (s.put id r).core k = if k = id then (s.core id).map (fun _ => r.1.core) else s.core k := by
  rw [core, find_put]
  split
  · rw [core, Option.map_map, Option.map_map]
    rfl
  · rfl

/-- A job that is not evicted stays as it is. One that is was terminal, and its id leaves the
queue too. -/
theorem evictExpired_cases (now : ℚ) (k : Nat) :
    ((s.evictExpired now).find k = s.find k ∧
        (s.evictExpired now).queue.count k = s.queue.count k) ∨
      ((s.evictExpired now).find k = none ∧ (s.evictExpired now).queue.count k = 0 ∧
        ∃ job, s.find k = some job ∧ job.status.isTerminal = true) := by
  have hfind : (s.evictExpired now).find k = (s.find k).filter fun job => !s.expired now job :=
    Table.find_filter _ k
  by_cases hexp : (s.find k).any (s.expired now) = true
  · obtain ⟨job, hjob, hold⟩ := (Option.any_eq_true _ _).mp hexp
    refine Or.inr ⟨?_, ?_, job, hjob, ?_⟩
    · rw [hfind, hjob, Option.filter_some, hold]
      rfl
    · apply List.count_eq_zero.mpr
      intro hmem
      have hkeep := (List.mem_filter.mp hmem).2
      rw [hexp] at hkeep
      cases hkeep
    · simp only [expired, Bool.and_eq_true] at hold
      exact hold.1.2
  · have hkeep : (!(s.find k).any (s.expired now)) = true := by
      rw [Bool.not_eq_true', ← Bool.not_eq_true]
      exact hexp
    refine Or.inl ⟨?_, List.count_filter hkeep⟩
    rw [hfind]
    cases hjob : s.find k with
    | none => rfl
    | some job =>
        rw [hjob, Option.any_some] at hkeep
        rw [Option.filter_some, hkeep]
        rfl

theorem find_enqueue (now : ℚ) (id : Nat) (body : List UInt8) (k : Nat) :
    (s.enqueue now id body).find k = if k = id then some (Job.queued now body) else s.find k :=
  Table.find_insert k

theorem core_enqueue (now : ℚ) (id : Nat) (body : List UInt8) (k : Nat) :
    (s.enqueue now id body).core k = if k = id then some ⟨.queued, 0, none, body⟩ else s.core k := by
  rw [core, find_enqueue]
  split <;> rfl

theorem transition_missing {now : ℚ} {transition : JobTransition} (hjob : s.find id = none) :
    s.transition now id transition = (s, .missing) := by
  rw [Store.transition, hjob]

theorem transition_rejected {now : ℚ} {transition : JobTransition} (hjob : s.find id = some job)
    (hallowed : job.allowed transition = false) :
    s.transition now id transition = (s, .rejected job.status) := by
  rw [Store.transition, hjob]
  exact if_neg (ne_true_of_eq_false hallowed)

theorem transition_applied {now : ℚ} {transition : JobTransition} (hjob : s.find id = some job)
    (hallowed : job.allowed transition = true) :
    s.transition now id transition
      = (if transition = .retry then (s.put id (job.transition now transition s.runtime)).requeue id
          else s.put id (job.transition now transition s.runtime), .applied) := by
  rw [Store.transition, hjob]
  exact if_pos hallowed

theorem find_transition (now : ℚ) {transition : JobTransition} (hjob : s.find id = some job)
    (hallowed : job.allowed transition = true) (k : Nat) :
    (s.transition now id transition).1.find k
      = if k = id then some (job.transition now transition s.runtime).1 else s.find k := by
  have hput : (s.transition now id transition).1.find k
      = (s.put id (job.transition now transition s.runtime)).find k := by
    rw [transition_applied hjob hallowed]
    dsimp only
    split <;> rfl
  rw [hput, find_put, hjob, Option.map_some]

theorem queue_transition (now : ℚ) {transition : JobTransition} (hjob : s.find id = some job)
    (hallowed : job.allowed transition = true) :
    (s.transition now id transition).1.queue
      = if transition = .retry then s.queue ++ [id] else s.queue := by
  rw [transition_applied hjob hallowed]
  dsimp only
  split <;> rfl

theorem runtime_transition (now : ℚ) {transition : JobTransition} (hjob : s.find id = some job)
    (hallowed : job.allowed transition = true) :
    (s.transition now id transition).1.runtime = (job.transition now transition s.runtime).2 := by
  rw [transition_applied hjob hallowed]
  dsimp only
  split <;> rfl

theorem update_of_missing {now : ℚ} {f : Update} (hjob : s.find id = none) :
    s.update now id f = s := by
  rw [update, hjob]

theorem update_of_find {now : ℚ} {f : Update} (hjob : s.find id = some job) :
    s.update now id f = s.put id
      ({ (f.apply job s.runtime).1 with updatedAt := now }, (f.apply job s.runtime).2) := by
  rw [update, hjob]

theorem subscribe_of_missing (hjob : s.find id = none) : s.subscribe id = s := by
  rw [subscribe, hjob]

theorem queue_update (now : ℚ) (id : Nat) (f : Update) : (s.update now id f).queue = s.queue := by
  unfold update
  split <;> rfl

theorem queue_subscribe (id : Nat) : (s.subscribe id).queue = s.queue := by
  unfold subscribe
  split <;> rfl

/-- The runtime with a new event stream of the job. -/
def opened (s : Store) (id : Nat) : Runtime :=
  { s.runtime with channels := s.runtime.channels ++ [Channel.new id] }

theorem subscribe_of_find (hjob : s.find id = some job) :
    s.subscribe id = s.put id (job.subscribe s.runtime.channels.length (s.opened id)) := by
  rw [subscribe, hjob]
  rfl

theorem core_of_evictExpired {now : ℚ} {k : Nat} {c : Core}
    (hc : (s.evictExpired now).core k = some c) : s.core k = some c := by
  rcases s.evictExpired_cases now k with ⟨hfind, _⟩ | ⟨hnone, _⟩
  · rwa [core, hfind] at hc
  · rw [core, hnone] at hc
    cases hc

/-- The job is stored and queued. -/
def isQueued (s : Store) (id : Nat) : Bool := (s.find id).any fun job => job.status = .queued

/-- Popping skips the ids of jobs that are no longer queued, and stops at the first that is. -/
theorem popQueued_split (queue : List Nat) :
    ∃ skipped, queue = skipped ++ ((s.popQueued queue).1.toList ++ (s.popQueued queue).2) ∧
      (∀ k ∈ skipped, s.isQueued k = false) ∧ (∀ k ∈ (s.popQueued queue).1, s.isQueued k = true) ∧
      ((s.popQueued queue).1 = none → (s.popQueued queue).2 = []) := by
  induction queue with
  | nil => exact ⟨[], rfl, nofun, nofun, fun _ => rfl⟩
  | cons id rest ih =>
      by_cases hid : s.isQueued id = true
      · have hpop : s.popQueued (id :: rest) = (some id, rest) := if_pos hid
        rw [hpop]
        refine ⟨[], rfl, nofun, ?_, nofun⟩
        rintro k ⟨⟩
        exact hid
      · have hpop : s.popQueued (id :: rest) = s.popQueued rest := if_neg hid
        rw [hpop]
        obtain ⟨skipped, hsplit, hskipped, hpopped, hnone⟩ := ih
        refine ⟨id :: skipped, congrArg (List.cons id) hsplit, ?_, hpopped, hnone⟩
        rintro k (_ | ⟨_, hmem⟩)
        · exact Bool.eq_false_of_not_eq_true hid
        · exact hskipped k hmem

end Store

namespace Core

theorem clean_next (c : Core) (transition : JobTransition) : (c.next transition).Clean := by
  cases transition with
  | start => exact ⟨nofun, nofun⟩
  | complete result => exact ⟨fun _ => ⟨rfl, rfl⟩, nofun⟩
  | fail error => exact ⟨fun _ => ⟨rfl, rfl⟩, nofun⟩
  | retry => exact ⟨nofun, fun _ => rfl⟩
  | cancel => exact ⟨fun _ => ⟨rfl, rfl⟩, nofun⟩

/-- What a step may do to a stored job: a terminal status stays, and a clean job stays clean. -/
structure Evolves (c c' : Core) : Prop where
  terminal : c.status.isTerminal = true → c'.status = c.status
  clean : c.Clean → c'.Clean

theorem Evolves.refl (c : Core) : Evolves c c := ⟨fun _ => rfl, id⟩

end Core

theorem Job.not_terminal_of_allowed {job : Job} {transition : JobTransition}
    (hallowed : job.allowed transition = true) : job.status.isTerminal = false := by
  cases transition with
  | start =>
      rw [of_decide_eq_true hallowed]
      rfl
  | cancel => exact (Bool.not_eq_true' _).mp hallowed
  | complete result =>
      rw [of_decide_eq_true hallowed]
      rfl
  | fail error =>
      rw [of_decide_eq_true hallowed]
      rfl
  | retry =>
      rw [of_decide_eq_true hallowed]
      rfl

theorem Job.allowed_of_processing {job : Job} {transition : JobTransition}
    (hstatus : job.status = .processing) (hstart : transition ≠ .start) :
    job.allowed transition = true := by
  cases transition with
  | start => exact absurd rfl hstart
  | cancel =>
      simp only [Job.allowed, hstatus]
      rfl
  | _ => exact decide_eq_true hstatus

theorem Update.apply_evolves (f : Update) (job : Job) (rt : Runtime) :
    Core.Evolves job.core (f.apply job rt).1.core := by
  by_cases hf : f.isRegister = false
  · rw [f.apply_core job rt hf]
    exact Core.Evolves.refl _
  · cases f with
    | register flag snapshot =>
        by_cases hstatus : job.status = .processing
        · simp only [Update.apply, if_pos hstatus]
          refine ⟨fun _ => rfl, fun _ => ⟨fun hterminal => ?_, fun hqueued => ?_⟩⟩
          · rw [show _ = JobStatus.processing from hstatus] at hterminal
            cases hterminal
          · rw [show _ = JobStatus.processing from hstatus] at hqueued
            cases hqueued
        · simp only [Update.apply, if_neg hstatus]
          exact Core.Evolves.refl _
    | _ => exact absurd rfl hf

/-- The jobs of `t` are those of `s`, evolved. -/
def Store.Keeps (s t : Store) : Prop :=
  ∀ k c', t.core k = some c' → ∃ c, s.core k = some c ∧ c.Evolves c'

namespace Store.Keeps

variable {s : Store} {id : Nat} {job : Job}

theorem of_find {t : Store} (hfind : ∀ k, t.find k = s.find k) : s.Keeps t := by
  intro k c' hc'
  rw [core, hfind] at hc'
  exact ⟨c', hc', Core.Evolves.refl c'⟩

theorem evictExpired (now : ℚ) : s.Keeps (s.evictExpired now) := by
  intro k c' hc'
  exact ⟨c', core_of_evictExpired hc', Core.Evolves.refl c'⟩

theorem put (hjob : s.find id = some job) {r : Job × Runtime} (hr : job.core.Evolves r.1.core) :
    s.Keeps (s.put id r) := by
  intro k c' hc'
  rw [core_put] at hc'
  by_cases hk : k = id
  · rw [if_pos hk, core_of_find hjob] at hc'
    cases hc'
    exact ⟨job.core, hk ▸ core_of_find hjob, hr⟩
  · rw [if_neg hk] at hc'
    exact ⟨c', hc', Core.Evolves.refl c'⟩

theorem transition (now : ℚ) (id : Nat) (transition : JobTransition) :
    s.Keeps (s.transition now id transition).1 := by
  cases hjob : s.find id with
  | none =>
      rw [transition_missing hjob]
      exact of_find fun _ => rfl
  | some job =>
      cases hallowed : job.allowed transition with
      | false =>
          rw [transition_rejected hjob hallowed]
          exact of_find fun _ => rfl
      | true =>
          have hopen := Job.not_terminal_of_allowed hallowed
          have hnext : job.core.Evolves (job.transition now transition s.runtime).1.core := by
            rw [Job.transition_core]
            refine ⟨fun hterminal => ?_, fun _ => Core.clean_next _ _⟩
            exact absurd hterminal (ne_true_of_eq_false hopen)
          intro k c' hc'
          refine put (r := job.transition now transition s.runtime) hjob hnext k c' ?_
          rw [core, find_transition now hjob hallowed] at hc'
          rw [core, find_put, hjob]
          exact hc'

theorem update (now : ℚ) (id : Nat) (f : Update) : s.Keeps (s.update now id f) := by
  cases hjob : s.find id with
  | none =>
      rw [update_of_missing hjob]
      exact of_find fun _ => rfl
  | some job =>
      rw [update_of_find hjob]
      exact put hjob (f.apply_evolves job s.runtime)

theorem subscribe (id : Nat) : s.Keeps (s.subscribe id) := by
  cases hjob : s.find id with
  | none =>
      rw [subscribe_of_missing hjob]
      exact of_find fun _ => rfl
  | some job =>
      rw [subscribe_of_find hjob]
      apply put hjob
      rw [Job.subscribe_core]
      exact Core.Evolves.refl _

end Store.Keeps

namespace Ledger

def enqueue (now : ℚ) (id : Nat) (body : List UInt8) (l : Ledger) : Ledger :=
  { l with store := l.store.enqueue now id body, created := l.created ++ [id] }

theorem create_cases (l : Ledger) (now : ℚ) (id : Nat) (body : List UInt8) :
    l.create now id body = l.onStore (Store.evictExpired now) ∨
      l.create now id body = (l.onStore (Store.evictExpired now)).enqueue now id body := by
  unfold create Store.create
  dsimp only
  split
  · exact Or.inl rfl
  · exact Or.inr rfl

/-- A job after a step was there before it or has just been created. -/
theorem core_step {l l' : Ledger} {a : Action} (hstep : l.step a = some l') {k : Nat} {c' : Core}
    (hc' : l'.store.core k = some c') :
    (∃ c, l.store.core k = some c ∧ c.Evolves c') ∨
      (k ∉ l.created ∧ k ∈ l'.created ∧ ∃ body, c' = ⟨.queued, 0, none, body⟩) := by
  cases a with
  | create now id body =>
      obtain ⟨hfresh, rfl⟩ := Option.ite_none_left_eq_some.mp hstep |>.imp_right Option.some.inj
      rcases l.create_cases now id body with hfull | hadmitted
      · rw [hfull] at hc'
        exact Or.inl (Store.Keeps.evictExpired now k c' hc')
      · rw [hadmitted] at hc' ⊢
        have hcore : ((l.store.evictExpired now).enqueue now id body).core k = some c' := hc'
        rw [Store.core_enqueue] at hcore
        by_cases hk : k = id
        · subst hk
          rw [if_pos rfl] at hcore
          refine Or.inr ⟨hfresh, ?_, body, (Option.some.inj hcore).symm⟩
          exact List.mem_append_right _ (List.mem_singleton_self k)
        · rw [if_neg hk] at hcore
          exact Or.inl (Store.Keeps.evictExpired now k c' hcore)
  | evict now =>
      cases hstep
      exact Or.inl (Store.Keeps.evictExpired now k c' hc')
  | nextQueued now =>
      cases hstep
      exact Or.inl (Store.Keeps.evictExpired now k c' hc')
  | transition now id transition =>
      cases hstep
      exact Or.inl (Store.Keeps.transition now id transition k c' hc')
  | update now id f =>
      cases hstep
      exact Or.inl (Store.Keeps.update now id f k c' hc')
  | subscribe id =>
      cases hstep
      exact Or.inl (Store.Keeps.subscribe id k c' hc')
  | register now id snapshot =>
      cases hstep
      have hkeep := Store.Keeps.update (s := l.store.newFlag) now id (.register _ snapshot) k c' hc'
      exact Or.inl hkeep
  | closeReceiver tx | raise flag =>
      cases hstep
      exact Or.inl ⟨c', hc', Core.Evolves.refl c'⟩

theorem mem_created_step {l l' : Ledger} {a : Action} (hstep : l.step a = some l') {k : Nat}
    (hk : k ∈ l.created) : k ∈ l'.created := by
  cases a with
  | create now id body =>
      obtain ⟨_, rfl⟩ := Option.ite_none_left_eq_some.mp hstep |>.imp_right Option.some.inj
      rcases l.create_cases now id body with hfull | hadmitted
      · rw [hfull]
        exact hk
      · rw [hadmitted]
        exact List.mem_append_left _ hk
  | _ =>
      cases hstep
      exact hk

/-- Every stored job was created, and holds no upload or handle it cannot use. -/
structure Sound (l : Ledger) : Prop where
  known : ∀ k c, l.store.core k = some c → k ∈ l.created
  clean : ∀ k c, l.store.core k = some c → c.Clean

theorem sound_new (limits : Limits) : (new limits).Sound := ⟨nofun, nofun⟩

theorem Sound.step {l l' : Ledger} {a : Action} (hstep : l.step a = some l') (h : l.Sound) :
    l'.Sound := by
  constructor
  · intro k c' hc'
    rcases core_step hstep hc' with ⟨c, hc, _⟩ | ⟨_, hk, _⟩
    · exact mem_created_step hstep (h.known k c hc)
    · exact hk
  · intro k c' hc'
    rcases core_step hstep hc' with ⟨c, hc, hevolves⟩ | ⟨_, _, body, rfl⟩
    · exact hevolves.clean (h.clean k c hc)
    · exact ⟨nofun, fun _ => rfl⟩

theorem sound_of_reachable {l l' : Ledger} (hrun : Transition.Reachable step l l') (h : l.Sound) :
    l'.Sound :=
  hrun.invariant (fun _ _ _ hstep => Sound.step hstep) h

/-- A terminal status never changes: the job keeps it until it is evicted, and its id is not used
again. -/
theorem terminal_stable {l l' : Ledger} (hrun : Transition.Reachable step l l') (h : l.Sound)
    {k : Nat} {c c' : Core} (hc : l.store.core k = some c) (hterminal : c.status.isTerminal = true)
    (hc' : l'.store.core k = some c') : c'.status = c.status := by
  let Settled (l : Ledger) : Prop :=
    k ∈ l.created ∧ ∀ x, l.store.core k = some x → x.status = c.status
  have hstep : ∀ u a v, step u a = some v → Settled u → Settled v := by
    rintro u a v hstep ⟨hk, hstatus⟩
    refine ⟨mem_created_step hstep hk, fun y hy => ?_⟩
    rcases core_step hstep hy with ⟨x, hx, hevolves⟩ | ⟨hfresh, _⟩
    · have hx' := hstatus x hx
      rw [hevolves.terminal (hx' ▸ hterminal), hx']
    · exact absurd hk hfresh
  have hl : Settled l := by
    refine ⟨h.known k c hc, fun x hx => ?_⟩
    rw [hc] at hx
    cases hx
    rfl
  exact (hrun.invariant hstep hl).2 c' hc'

end Ledger

end Jobs

end Gigastt
