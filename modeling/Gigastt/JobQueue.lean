import Gigastt.JobLifecycle

/-!
The queue is complete and in order: a queued job is in the queue once, or with one holder, and jobs
that were never retried leave the queue in the order they were created in.
-/

namespace Gigastt

namespace Jobs

namespace Ledger

/-- The ids popped so far and those still in the queue, without the retried ones. -/
def untouched (l : Ledger) : List Nat :=
  (l.popped ++ l.store.queue).filter fun k => k ∉ l.retried

structure InOrder (l : Ledger) : Prop where
  sublist : l.untouched.Sublist l.created
  nodup : l.created.Nodup

variable {l l' : Ledger}

theorem inOrder_new (limits : Limits) : (new limits).InOrder := ⟨List.Sublist.slnil, List.nodup_nil⟩

/-- Ids that leave, or become retried ones, leave the others in order. -/
theorem InOrder.mono (h : l.InOrder)
    (hqueue : (l'.popped ++ l'.store.queue).Sublist (l.popped ++ l.store.queue))
    (hretried : l.retried ⊆ l'.retried) (hcreated : l'.created = l.created) : l'.InOrder := by
  refine ⟨?_, hcreated ▸ h.nodup⟩
  have hfewer : ((l.popped ++ l.store.queue).filter fun k => k ∉ l'.retried).Sublist l.untouched := by
    apply List.monotone_filter_right _
    intro k hk
    exact decide_eq_true fun hmem => of_decide_eq_true hk (hretried hmem)
  rw [hcreated]
  exact ((hqueue.filter _).trans hfewer).trans h.sublist

theorem InOrder.same (h : l.InOrder) (hqueue : l'.store.queue = l.store.queue)
    (hpopped : l'.popped = l.popped) (hretried : l'.retried = l.retried)
    (hcreated : l'.created = l.created) : l'.InOrder :=
  h.mono (by rw [hqueue, hpopped]) (by rw [hretried]; exact fun _ hk => hk) hcreated

theorem InOrder.evict (h : l.InOrder) (now : ℚ) :
    (l.onStore (Store.evictExpired now)).InOrder :=
  h.mono (List.Sublist.append (List.Sublist.refl _) List.filter_sublist) (fun _ hk => hk) rfl

theorem InOrder.enqueue (h : l.InOrder) (now : ℚ) {id : Nat} (body : List UInt8)
    (hfresh : id ∉ l.created) : (l.enqueue now id body).InOrder := by
  refine ⟨?_, ?_⟩
  · show ((l.popped ++ (l.store.queue ++ [id])).filter fun k => k ∉ l.retried).Sublist
      (l.created ++ [id])
    rw [← List.append_assoc, List.filter_append]
    exact h.sublist.append List.filter_sublist
  · show (l.created ++ [id]).Nodup
    rw [List.nodup_append]
    refine ⟨h.nodup, List.nodup_singleton id, ?_⟩
    rintro x hx _ hid rfl
    exact hfresh (List.mem_singleton.mp hid ▸ hx)

theorem InOrder.nextQueued (h : l.InOrder) (now : ℚ) : (l.nextQueued now).1.InOrder := by
  let t := l.store.evictExpired now
  obtain ⟨skipped, hsplit, _⟩ := t.popQueued_split t.queue
  refine (h.evict now).mono ?_ (fun _ hk => hk) rfl
  show (l.popped ++ (t.popQueued t.queue).1.toList ++ (t.popQueued t.queue).2).Sublist
    (l.popped ++ t.queue)
  rw [List.append_assoc]
  apply List.Sublist.append (List.Sublist.refl _)
  conv_rhs => rw [hsplit]
  exact List.sublist_append_right _ _

theorem InOrder.transition (h : l.InOrder) (now : ℚ) (id : Nat) (transition : JobTransition) :
    (l.transition now id transition).1.InOrder := by
  have hretried : (l.transition now id transition).1.retried
      = if transition = .retry ∧ (l.transition now id transition).2 = .applied then
          l.retried ++ [id] else l.retried := rfl
  have hpopped : (l.transition now id transition).1.popped = l.popped := rfl
  have hcases := l.transition_cases now id transition
  generalize l.transition now id transition = r at hretried hpopped hcases ⊢
  rcases hcases with ⟨hout, job, happ⟩ | ⟨hout, hquiet, _⟩
  · have hqueue := happ.queue
    by_cases hretry : transition = .retry
    · rw [if_pos hretry] at hqueue
      rw [if_pos ⟨hretry, hout⟩] at hretried
      refine ⟨?_, happ.created ▸ h.nodup⟩
      have hid : ([id].filter fun k => k ∉ l.retried ++ [id]) = [] := by
        rw [List.filter_eq_nil_iff]
        intro k hk
        rw [List.mem_singleton.mp hk]
        exact not_not_intro (List.mem_append_right _ (List.mem_singleton_self id)) ∘ of_decide_eq_true
      rw [untouched, hpopped, hqueue, hretried, happ.created, ← List.append_assoc,
        List.filter_append, hid, List.append_nil]
      refine List.Sublist.trans (List.monotone_filter_right _ fun k hk => ?_) h.sublist
      exact decide_eq_true fun hmem => of_decide_eq_true hk (List.mem_append_left _ hmem)
    · rw [if_neg hretry] at hqueue
      rw [if_neg fun hand => hretry hand.1] at hretried
      exact h.same hqueue hpopped hretried happ.created
  · rw [if_neg fun hand => hout hand.2] at hretried
    exact h.same hquiet.queue hpopped hretried hquiet.created

theorem InOrder.step (h : l.InOrder) {a : Action} (hstep : l.step a = some l') : l'.InOrder := by
  cases a with
  | create now id body =>
      obtain ⟨hfresh, rfl⟩ := (Option.ite_none_left_eq_some.mp hstep).imp_right Option.some.inj
      rcases l.create_cases now id body with hfull | hadmitted
      · exact hfull ▸ h.evict now
      · exact hadmitted ▸ (h.evict now).enqueue now body hfresh
  | evict now =>
      cases hstep
      exact h.evict now
  | nextQueued now =>
      cases hstep
      exact h.nextQueued now
  | transition now id transition =>
      cases hstep
      exact h.transition now id transition
  | update now id f =>
      cases hstep
      exact h.same (l.store.queue_update now id f) rfl rfl rfl
  | subscribe id =>
      cases hstep
      exact h.same (l.store.queue_subscribe id) rfl rfl rfl
  | register now id snapshot =>
      cases hstep
      exact h.same (l.store.newFlag.queue_update now id (.register _ snapshot)) rfl rfl rfl
  | closeReceiver tx =>
      cases hstep
      exact h.same rfl rfl rfl rfl
  | raise flag =>
      cases hstep
      exact h.same rfl rfl rfl rfl

end Ledger

/-- The queue over every interleaving: a queued job is in the queue once, or with one worker or call
of `cancel_all_queued` that popped it and has not yet applied its transition; a running job is not in
the queue; and the jobs never retried leave the queue in the order of their creation. -/
theorem queue_complete (limits : Limits) (concurrency maxRetries : Nat) (s : State)
    (hrun : Transition.Reachable State.step (start limits concurrency maxRetries) s) :
    (∀ k job, s.store.find k = some job → job.status = .queued →
      (s.store.queue.count k = 1 ∧ s.holders k = 0) ∨
        (s.store.queue.count k = 0 ∧ s.holders k = 1)) ∧
    (∀ k job, s.store.find k = some job → job.status = .processing → k ∉ s.store.queue) ∧
    ((s.ledger.popped ++ s.store.queue).filter fun k => k ∉ s.ledger.retried).Sublist
      s.ledger.created ∧
    s.ledger.created.Nodup := by
  have hinv := inv_of_reachable hrun
  have horder : s.ledger.InOrder :=
    (State.ledger_reachable hrun).invariant (fun _ _ _ hstep h => h.step hstep)
      (Ledger.inOrder_new limits)
  refine ⟨fun k job hjob hs => ?_, fun k job hjob hs => ?_, horder.sublist, horder.nodup⟩
  · have hone := (hinv.accounted k).queued job.core (Store.core_of_find hjob) hs
    omega
  · have hruns := (hinv.accounted k).processing job.core (Store.core_of_find hjob) hs
    have hsingle := (hinv.accounted k).single
    exact List.count_eq_zero.mp (by omega)

/-- Two jobs, the first of them popped by a worker. -/
def poppedOne : List Action :=
  [.create 0 7 [1], .create 0 8 [2], .worker 0 .check, .worker 0 .acquire, .worker 0 (.poll 0)]

theorem queue_complete_popped :
    ∃ s, Transition.run State.step (start ⟨0, 4, 100⟩ 1 1) poppedOne = some s ∧
      [7, 8].Sublist s.ledger.created :=
  ⟨_, rfl, (queue_complete ⟨0, 4, 100⟩ 1 1 _ ⟨poppedOne, rfl⟩).2.2.1⟩

end Jobs

end Gigastt
