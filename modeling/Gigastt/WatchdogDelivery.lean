import Gigastt.WatchdogArbitration

/-!
What the reader of the response is given. Once the phase is timed out each poll gives the next of the
timeout items, and the stream ends after the last of them.
-/

namespace Gigastt

namespace Watchdog

open Transition

variable {T : Type*}

namespace State

variable {s t : State T} {a : Action T}

/-- The timeout items the reader is still to be given, if it is polled on. -/
def owed (s : State T) : List (Item T) :=
  match s.reader with
  | .listening => s.timeouts
  | .draining pending => pending
  | .ended | .dropped => []

/-- The stream has ended or its reader has gone. -/
def isOver (s : State T) : Bool :=
  match s.reader with
  | .listening | .draining _ => false
  | .ended | .dropped => true

/-- Where the items the reader has been given come from, and those it may still be given. -/
structure Traced (s : State T) : Prop where
  received : ∀ x ∈ s.received, x.origin = .timeout → s.watchdog.phase = .timedOut
  draining : ∀ pending, s.reader = .draining pending →
    s.watchdog.phase = .timedOut ∧ pending <:+ s.timeouts
  buffered : ∀ x ∈ s.channel.buffer, x.origin ≠ .timeout
  claimed : ∀ x, x ∈ s.channel.buffer ∨ x ∈ s.received → x.origin = .sent true → s.claimed = true
  inFlight : ∀ previous stage item, s.producer = .sending previous stage →
    stage.item? = some item → item.origin = .sent s.claimed

theorem timeouts_origin {x : Item T} (hx : x ∈ s.timeouts) : x.origin = .timeout := by
  obtain ⟨_, _, rfl⟩ := List.mem_map.mp hx
  rfl

/-- A step that leaves the channel and the reader alone keeps the trace. -/
theorem Traced.aside (h : s.Traced) (haside : Aside s a t)
    (htimedOut : s.watchdog.phase = .timedOut → t.watchdog.phase = .timedOut)
    (hclaimed : s.claimed = true → t.claimed = true)
    (hinFlight : ∀ previous stage item, t.producer = .sending previous stage →
      stage.item? = some item → item.origin = .sent t.claimed) : t.Traced where
  received x hx hx' := htimedOut (h.received x (haside.received ▸ hx) hx')
  draining pending hpending := by
    obtain ⟨hphase, hsuffix⟩ := h.draining pending (haside.reader ▸ hpending)
    unfold timeouts
    rw [haside.timeoutItems]
    exact ⟨htimedOut hphase, hsuffix⟩
  buffered x hx := h.buffered x (haside.channel ▸ hx)
  claimed x hx hx' := by
    rw [haside.channel, haside.received] at hx
    exact hclaimed (h.claimed x hx hx')
  inFlight := hinFlight

theorem trySend_buffer {channel channel' : Channel (Item T)} {item : Item T}
    (h : channel.trySend item = .ok channel') : channel'.buffer = channel.buffer ++ [item] := by
  unfold Channel.trySend at h
  split at h
  · cases h
  · split at h
    · cases h
    · cases h
      rfl

theorem Traced.produce (h : s.Traced) (hidle : s.producer = .idle)
    (hstep : s.produce a = some t) (htimedOut : s.watchdog.phase = .timedOut → t.watchdog.phase = .timedOut)
    (hclaimed : s.claimed = true → t.claimed = true) : t.Traced := by
  apply h.aside (aside_produce hstep) htimedOut hclaimed
  intro previous stage item hproducer hitem
  cases produced hidle hstep with
  | kept _ _ _ hrest =>
      rw [hproducer] at hrest
      cases hrest
  | granted _ ht | completed _ ht =>
      subst ht
      cases hidle.symm.trans hproducer
  | entered _ ht =>
      subst ht
      cases hproducer
      cases hitem
      rfl

theorem Traced.continueSend {previous : Phase} {stage : SendStage T} (h : s.Traced)
    (hsending : s.producer = .sending previous stage)
    (hstep : s.continueSend previous stage a = some t)
    (hphase : s.watchdog.phase ≠ .timedOut) : t.Traced := by
  have hreceived : ∀ x ∈ s.received, x.origin ≠ .timeout := fun x hx hx' =>
    hphase (h.received x hx hx')
  have hdraining : ∀ pending, s.reader ≠ .draining pending := fun pending hpending =>
    hphase (h.draining pending hpending).1
  cases sendMoved hstep with
  | accepted hitem hroom ht =>
      have horigin := h.inFlight _ _ _ hsending hitem
      subst ht
      refine ⟨?_, ?_, ?_, ?_, ?_⟩
      · exact fun x hx hx' => absurd hx' (hreceived x hx)
      · exact fun pending hpending => absurd hpending (hdraining pending)
      · intro x hx
        rcases List.mem_append.mp (trySend_buffer hroom ▸ hx) with hx | hx
        · exact h.buffered x hx
        · rw [List.mem_singleton.mp hx, horigin]
          exact nofun
      · rintro x (hx | hx) hx'
        · rcases List.mem_append.mp (trySend_buffer hroom ▸ hx) with hx | hx
          · exact h.claimed x (Or.inl hx) hx'
          · rw [List.mem_singleton.mp hx, horigin] at hx'
            exact Origin.sent.inj hx'
        · exact h.claimed x (Or.inr hx) hx'
      · intro _ _ _ hproducer hitem'
        cases hproducer
        cases hitem'
  | moved ht hitem =>
      subst ht
      refine ⟨h.received, h.draining, h.buffered, h.claimed, ?_⟩
      intro _ _ item hproducer hitem'
      cases hproducer
      rcases hitem with hnone | hsame
      · rw [hnone] at hitem'
        cases hitem'
      · exact h.inFlight _ _ item hsending (hsame ▸ hitem')
  | returned ht =>
      subst ht
      refine ⟨?_, ?_, h.buffered, h.claimed, ?_⟩
      · exact fun x hx hx' => absurd hx' (hreceived x hx)
      · exact fun pending hpending => absurd hpending (hdraining pending)
      · exact fun _ _ _ hproducer => nomatch hproducer

/-- The next of the timeout items, or the end of the stream. -/
theorem Traced.drainNext (h : s.Traced) {items : List (Item T)}
    (hphase : s.watchdog.phase = .timedOut) (hitems : items <:+ s.timeouts) :
    (s.drainNext items).Traced := by
  cases items with
  | nil =>
      exact ⟨h.received, nofun, h.buffered, h.claimed, h.inFlight⟩
  | cons item pending =>
      have horigin := timeouts_origin (hitems.subset List.mem_cons_self)
      refine ⟨fun _ _ _ => hphase, ?_, h.buffered, ?_, h.inFlight⟩
      · rintro _ ⟨⟩
        exact ⟨hphase, (List.suffix_cons item pending).trans hitems⟩
      · rintro x (hx | hx) hx'
        · exact h.claimed x (Or.inl hx) hx'
        · rcases List.mem_append.mp hx with hx | hx
          · exact h.claimed x (Or.inr hx) hx'
          · rw [List.mem_singleton.mp hx, horigin] at hx'
            cases hx'

theorem Traced.drain (h : s.Traced) : { s with channel := s.channel.drain }.Traced :=
  ⟨h.received, h.draining, nofun, fun x hx => h.claimed x (hx.imp_left nofun), h.inFlight⟩

theorem Traced.poll (h : s.Traced) (ha : s.Arbitrated) (hstep : s.poll = some t) : t.Traced := by
  cases polled hstep with
  | timedOut _ htoken ht =>
      subst ht
      have hphase := of_decide_eq_true (ha.token.symm.trans htoken)
      exact h.drain.drainNext hphase (List.suffix_refl _)
  | drained hdraining ht =>
      subst ht
      obtain ⟨hphase, hsuffix⟩ := h.draining _ hdraining
      exact h.drainNext hphase hsuffix
  | received _ _ hbuffer ht =>
      subst ht
      refine ⟨?_, h.draining, ?_, ?_, h.inFlight⟩
      · intro x hx hx'
        rcases List.mem_append.mp hx with hx | hx
        · exact h.received x hx hx'
        · rw [List.mem_singleton.mp hx] at hx'
          exact absurd hx' (h.buffered _ (hbuffer ▸ List.mem_cons_self))
      · exact fun x hx => h.buffered x (hbuffer ▸ List.mem_cons_of_mem _ hx)
      · rintro x (hx | hx) hx'
        · exact h.claimed x (Or.inl (hbuffer ▸ List.mem_cons_of_mem _ hx)) hx'
        · rcases List.mem_append.mp hx with hx | hx
          · exact h.claimed x (Or.inr hx) hx'
          · rw [List.mem_singleton.mp hx] at hx'
            exact h.claimed _ (Or.inl (hbuffer ▸ List.mem_cons_self)) hx'
  | ended _ _ ht =>
      subst ht
      exact ⟨h.received, nofun, h.buffered, h.claimed, h.inFlight⟩
  | pending _ _ ht =>
      subst ht
      exact h

theorem Traced.observe (h : s.Traced) (ha : s.Arbitrated) (hstep : s.observe a = some t) :
    t.Traced := by
  cases a with
  | poll => exact h.poll ha hstep
  | monitor =>
      obtain ⟨_, hleft⟩ := Option.ite_none_right_eq_some.mp hstep
      cases hleft
      exact ⟨h.received, h.draining, h.buffered, h.claimed, h.inFlight⟩
  | cancelled =>
      cases hstep
      exact ⟨h.received, h.draining, h.buffered, h.claimed, h.inFlight⟩
  | dropReader =>
      have hdropped : { s with channel := s.channel.drain, reader := .dropped }.Traced :=
        ⟨h.received, nofun, h.drain.buffered, h.drain.claimed, h.inFlight⟩
      dsimp only [State.observe] at hstep
      split at hstep
      · cases hstep
        exact hdropped
      · cases hstep
        exact hdropped
      · cases hstep
      · cases hstep
  | _ => cases hstep

/-- The invariant of the stream. -/
structure Inv (s : State T) : Prop where
  arbitrated : s.Arbitrated
  traced : s.Traced

theorem Inv.step (h : s.Inv) (hstep : s.step a = some t) : t.Inv := by
  have htimedOut := fun hphase => (h.arbitrated.timedOut_step hphase hstep).1
  have hclaimed := claimed_step hstep
  refine ⟨h.arbitrated.step hstep, ?_⟩
  cases moved hstep with
  | produced hidle h' => exact h.traced.produce hidle h' htimedOut hclaimed
  | sent hsending h' =>
      apply h.traced.continueSend hsending h'
      intro hphase
      have hrest := h.arbitrated.agrees.not_sending hphase
      rw [hsending] at hrest
      cases hrest
  | watched h' =>
      obtain ⟨haside, hsame, hproducer⟩ := aside_watch h'
      apply h.traced.aside haside htimedOut hclaimed
      rw [hproducer, hsame]
      exact h.traced.inFlight
  | observed h' => exact h.traced.observe h.arbitrated h'

theorem inv_start (seconds capacity now : Nat) (buffered timeoutItems : List T) :
    (start seconds capacity now buffered timeoutItems).Inv := by
  refine ⟨⟨⟨rfl, rfl⟩, rfl⟩, ⟨?_, ?_, ?_, ?_, ?_⟩⟩
  · exact fun _ hx => nomatch hx
  · exact fun _ hpending => nomatch hpending
  · intro x hx
    obtain ⟨_, _, rfl⟩ := List.mem_map.mp hx
    exact nofun
  · rintro x (hx | hx) hx'
    · obtain ⟨_, _, rfl⟩ := List.mem_map.mp hx
      cases hx'
    · cases hx
  · exact fun _ _ _ hproducer => nomatch hproducer

theorem inv_of_reachable {seconds capacity now : Nat} {buffered timeoutItems : List T}
    (h : Reachable State.step (start seconds capacity now buffered timeoutItems) s) : s.Inv :=
  h.invariant (fun _ _ _ hstep hs => hs.step hstep) (inv_start _ _ _ _ _)

/-- How often the reader is polled. -/
def polls (acts : List (Action T)) : Nat := acts.countP Action.isPoll

theorem owed_of_listening (h : s.reader = .listening) : s.owed = s.timeouts := by
  unfold owed
  rw [h]

theorem owed_of_draining {pending : List (Item T)} (h : s.reader = .draining pending) :
    s.owed = pending := by
  unfold owed
  rw [h]

theorem owed_of_isOver (h : s.isOver = true) : s.owed = [] := by
  unfold owed
  unfold isOver at h
  split
  · rw [‹s.reader = .listening›] at h
    cases h
  · rw [‹s.reader = .draining _›] at h
    cases h
  · rfl
  · rfl

/-- What a step does to the reader once the phase is timed out. -/
inductive Settled (s : State T) (a : Action T) (t : State T) : Prop where
  | quiet (hpoll : a.isPoll = false) (hreceived : t.received = s.received)
      (hreader : t.reader = s.reader) (howed : t.owed = s.owed)
  | left (hpoll : a.isPoll = false) (hover : s.isOver = false) (hreceived : t.received = s.received)
      (hreader : t.reader = .dropped)
  | given {item : Item T} (hpoll : a.isPoll = true) (hover : s.isOver = false)
      (howed : s.owed = item :: t.owed) (hreceived : t.received = s.received ++ [item])
  | ended (hpoll : a.isPoll = true) (hover : s.isOver = false) (howed : s.owed = [])
      (hreceived : t.received = s.received) (hreader : t.reader = .ended)

theorem Aside.settled (h : Aside s a t) : Settled s a t := by
  refine .quiet h.not_poll h.received h.reader ?_
  unfold owed timeouts
  rw [h.reader, h.timeoutItems]

theorem settled_drainNext {u : State T} (hreceived : u.received = s.received)
    (hover : s.isOver = false) : Settled s .poll (u.drainNext s.owed) := by
  cases howed : s.owed with
  | nil => exact .ended rfl hover howed hreceived rfl
  | cons item pending =>
      exact .given rfl hover howed (congrArg (· ++ [item]) hreceived)

theorem Inv.settled (h : s.Inv) (hphase : s.watchdog.phase = .timedOut)
    (hstep : s.step a = some t) : Settled s a t := by
  cases moved hstep with
  | produced _ h' => exact (aside_produce h').settled
  | watched h' => exact (aside_watch h').1.settled
  | sent hsending _ =>
      have hrest := h.arbitrated.agrees.not_sending hphase
      rw [hsending] at hrest
      cases hrest
  | observed h' =>
      cases a with
      | monitor =>
          obtain ⟨_, hleft⟩ := Option.ite_none_right_eq_some.mp h'
          cases hleft
          exact .quiet rfl rfl rfl rfl
      | cancelled =>
          cases h'
          exact .quiet rfl rfl rfl rfl
      | dropReader =>
          dsimp only [State.observe] at h'
          split at h'
          · cases h'
            exact .left rfl (by rw [isOver, ‹s.reader = .listening›]) rfl rfl
          · cases h'
            exact .left rfl (by rw [isOver, ‹s.reader = .draining _›]) rfl rfl
          · cases h'
          · cases h'
      | poll =>
          have htoken : s.watchdog.timedOut = true :=
            h.arbitrated.token.trans (decide_eq_true hphase)
          cases polled h' with
          | timedOut hlistening _ ht =>
              subst ht
              rw [← owed_of_listening hlistening]
              exact settled_drainNext rfl (by rw [isOver, hlistening])
          | drained hdraining ht =>
              subst ht
              rw [← owed_of_draining hdraining]
              exact settled_drainNext rfl (by rw [isOver, hdraining])
          | received _ hnot _ _ | ended _ hnot _ | pending _ hnot _ =>
              rw [htoken] at hnot
              cases hnot
      | _ => cases h'

/-- Once the phase is timed out, each poll gives the next of the items owed, and the stream ends
after the last of them. -/
theorem Inv.settled_run {acts : List (Action T)} (h : s.Inv)
    (hphase : s.watchdog.phase = .timedOut) (hrun : run State.step s acts = some t) :
    t.watchdog.phase = .timedOut ∧ t.accepted = s.accepted ∧
      t.received = s.received ++ s.owed.take (polls acts) ∧
      (s.owed.length < polls acts → t.reader = .ended) ∧
      (s.isOver = true → polls acts = 0 ∧ t.reader = s.reader) := by
  induction acts generalizing s with
  | nil =>
      cases hrun
      exact ⟨hphase, rfl, (List.append_nil _).symm, nofun, fun _ => ⟨rfl, rfl⟩⟩
  | cons a rest ih =>
      obtain ⟨u, hu, hrest⟩ := run_cons hrun
      obtain ⟨hphase', _, haccepted⟩ := h.arbitrated.timedOut_step hphase hu
      obtain ⟨hend, haccepted', hreceived', hended, hover'⟩ := ih (h.step hu) hphase' hrest
      refine ⟨hend, haccepted'.trans haccepted, ?_⟩
      cases h.settled hphase hu with
      | quiet hpoll hreceived hreader howed =>
          have hpolls : polls (a :: rest) = polls rest := List.countP_cons_of_neg (by simp [hpoll])
          rw [hpolls, hreceived', hreceived, ← howed]
          refine ⟨rfl, hended, fun hover => ?_⟩
          have hu' : u.isOver = true := by
            unfold isOver
            rw [hreader]
            exact hover
          exact ⟨(hover' hu').1, (hover' hu').2.trans hreader⟩
      | left hpoll hover hreceived hreader =>
          have hu' : u.isOver = true := by rw [isOver, hreader]
          have hpolls : polls (a :: rest) = polls rest := List.countP_cons_of_neg (by simp [hpoll])
          rw [hpolls, (hover' hu').1, hreceived', (hover' hu').1, hreceived]
          refine ⟨rfl, nofun, fun hover' => ?_⟩
          rw [hover] at hover'
          cases hover'
      | given hpoll hover howed hreceived =>
          have hpolls : polls (a :: rest) = polls rest + 1 := List.countP_cons_of_pos hpoll
          rw [hpolls, hreceived', hreceived, howed, List.take_succ_cons, List.append_assoc]
          refine ⟨rfl, fun hlt => hended (Nat.lt_of_succ_lt_succ hlt), fun hover' => ?_⟩
          rw [hover] at hover'
          cases hover'
      | ended hpoll hover howed hreceived hreader =>
          have hu' : u.isOver = true := by rw [isOver, hreader]
          have hpolls : polls (a :: rest) = polls rest + 1 := List.countP_cons_of_pos hpoll
          rw [hpolls, hreceived', (hover' hu').1, hreceived, howed]
          refine ⟨rfl, fun _ => (hover' hu').2.trans hreader, fun hover' => ?_⟩
          rw [hover] at hover'
          cases hover'

/-- A stream that is not over can always be polled. -/
theorem poll_of_not_over (hover : s.isOver = false) : ∃ u, s.step .poll = some u := by
  show ∃ u, s.poll = some u
  unfold State.poll
  split
  · split
    · exact ⟨_, rfl⟩
    · split
      · exact ⟨_, rfl⟩
      · split
        · exact ⟨_, rfl⟩
        · exact ⟨_, rfl⟩
  · exact ⟨_, rfl⟩
  · rw [isOver, ‹s.reader = .ended›] at hover
    cases hover
  · rw [isOver, ‹s.reader = .dropped›] at hover
    cases hover

theorem Inv.owed_suffix (h : s.Inv) : s.owed <:+ s.timeouts := by
  cases hreader : s.reader with
  | listening =>
      exact (owed_of_listening hreader).symm ▸ List.suffix_refl _
  | draining pending =>
      rw [owed_of_draining hreader]
      exact (h.traced.draining pending hreader).2
  | ended | dropped =>
      rw [owed_of_isOver (by rw [isOver, hreader])]
      exact List.nil_suffix

/-- The completion and the timeout exclude each other, whatever the order of the steps. -/
theorem watchdog_arbitrates (seconds capacity now : Nat) (buffered timeoutItems : List T)
    {s : State T} (h : Reachable State.step (start seconds capacity now buffered timeoutItems) s) :
    ¬ ((∃ x ∈ s.received, x.origin = .timeout) ∧ ∃ x ∈ s.received, x.origin = .sent true) ∧
      (s.claimed = true → s.watchdog.phase ≠ .timedOut) ∧
      (s.watchdog.phase = .timedOut →
        s.owed <:+ s.timeouts ∧
          ∀ acts t, run State.step s acts = some t →
            t.watchdog.phase = .timedOut ∧
            t.watchdog.enterSend = none ∧ t.accepted = s.accepted ∧
            t.watchdog.claimFinish.2 = false ∧ t.claimed = false ∧
            t.received = s.received ++ s.owed.take (polls acts) ∧
            (s.owed.length < polls acts → t.reader = .ended) ∧
            (t.isOver = false → ∃ u, t.step .poll = some u)) := by
  have hinv := inv_of_reachable h
  have hclaimed : s.claimed = true → s.watchdog.phase ≠ .timedOut := by
    intro hclaimed hphase
    have hnot := hinv.arbitrated.agrees.not_claimed hphase
    rw [hclaimed] at hnot
    cases hnot
  refine ⟨?_, hclaimed, fun hphase => ⟨hinv.owed_suffix, fun acts t hrun => ?_⟩⟩
  · rintro ⟨⟨x, hx, htimeout⟩, y, hy, hsent⟩
    exact hclaimed (hinv.traced.claimed y (Or.inr hy) hsent) (hinv.traced.received x hx htimeout)
  · obtain ⟨hphase', haccepted, hreceived, hended, _⟩ := hinv.settled_run hphase hrun
    have hinv' : t.Inv := Reachable.invariant ⟨acts, hrun⟩ (fun _ _ _ hstep hs => hs.step hstep) hinv
    have hnot := hinv'.arbitrated.agrees.not_claimed hphase'
    refine ⟨hphase', ?_, haccepted, ?_, hnot, hreceived, hended, poll_of_not_over⟩
    · rw [StreamWatchdog.enterSend_eq, hphase']
      rfl
    · rw [StreamWatchdog.claimFinish_eq, hphase']
      rfl

/-- A second without progress after a send: the buffered items give way to the timeout item. -/
theorem watchdog_arbitrates_stalled :
    ∃ s : State Nat, run State.step (start 1 16 0 [7] [99])
        [.send 8, .trySend, .sendReturn 5, .tick, .arbitrate (2 * 10 ^ 9)] = some s ∧
      s.watchdog.phase = .timedOut ∧
      ∀ acts t, run State.step s acts = some t →
        t.claimed = false ∧ t.received = [⟨99, .timeout⟩].take (polls acts) ∧
          (1 < polls acts → t.reader = .ended) := by
  obtain ⟨s, hrun, hphase, hreceived, howed⟩ : ∃ s : State Nat,
      run State.step (start 1 16 0 [7] [99])
        [.send 8, .trySend, .sendReturn 5, .tick, .arbitrate (2 * 10 ^ 9)] = some s ∧
      s.watchdog.phase = .timedOut ∧ s.received = [] ∧ s.owed = [⟨99, .timeout⟩] :=
    ⟨_, rfl, rfl, rfl, rfl⟩
  refine ⟨s, hrun, hphase, fun acts t hacts => ?_⟩
  have hsettled := ((watchdog_arbitrates 1 16 0 [7] [99] ⟨_, hrun⟩).2.2 hphase).2 acts t hacts
  rw [hreceived, howed] at hsettled
  obtain ⟨_, _, _, _, hclaimed, hgiven, hended, _⟩ := hsettled
  exact ⟨hclaimed, hgiven, hended⟩

end State

end Watchdog

end Gigastt
