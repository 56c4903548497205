import Gigastt.Transition
import Gigastt.Watchdog

/-!
The arbitration between the producer's completion and the watcher's timeout. The phase says who won:
it agrees in every state with what the producer is doing and with whether a claim was granted, and
the timeout is reached only from the phase in which neither a send nor a claim is in progress.
-/

namespace Gigastt

namespace Watchdog

open Transition

variable {T : Type*}

/-- The producer is inside a send. -/
def Producer.isSending : Producer T → Bool
  | .sending _ _ => true
  | .idle | .returned => false

/-- A phase from which the producer may still deliver. -/
def Phase.isOpen : Phase → Bool
  | .processing | .finishing => true
  | .sending | .finished | .timedOut => false

theorem Phase.ne_timedOut {phase : Phase} (hopen : phase.isOpen = true) : phase ≠ .timedOut := by
  rintro rfl
  cases hopen

/-- The item a send still has to put in the channel. -/
def SendStage.item? : SendStage T → Option (Item T)
  | .trying item | .waiting item => some item
  | .undelivered | .done _ => none

def Action.isPoll : Action T → Bool
  | .poll => true
  | _ => false

namespace StreamWatchdog

variable {w : StreamWatchdog}

theorem claimFinish_eq (w : StreamWatchdog) : w.claimFinish
    = if w.phase.isOpen then ({ w with phase := .finishing }, true) else (w, false) := by
  unfold claimFinish
  cases w.phase with
  | _ => rfl

theorem enterSend_eq (w : StreamWatchdog) : w.enterSend
    = if w.phase.isOpen then some (w.phase, { w with phase := .sending }) else none := by
  unfold enterSend
  cases w.phase with
  | _ => rfl

theorem progress_phase (now : Nat) : (w.progress now).phase = w.phase := by
  unfold progress
  split
  · rfl
  · rfl

theorem progress_timedOut (now : Nat) : (w.progress now).timedOut = w.timedOut := by
  unfold progress
  split
  · rfl
  · rfl

end StreamWatchdog

namespace State

variable {s t : State T} {a : Action T}

/-- The task an action belongs to. -/
inductive Moved (s : State T) (a : Action T) (t : State T) : Prop where
  | produced (hidle : s.producer = .idle) (h : s.produce a = some t)
  | sent {previous : Phase} {stage : SendStage T} (hsending : s.producer = .sending previous stage)
      (h : s.continueSend previous stage a = some t)
  | watched (h : s.watch a = some t)
  | observed (h : s.observe a = some t)

theorem moved (hstep : s.step a = some t) : Moved s a t := by
  cases a with
  | tick | arbitrate _ | cancelRequest | retire => exact .watched hstep
  | monitor | cancelled | poll | dropReader => exact .observed hstep
  | _ =>
      cases hproducer : s.producer with
      | idle =>
          simp only [step, hproducer] at hstep
          exact .produced hproducer hstep
      | sending previous stage =>
          simp only [step, hproducer] at hstep
          exact .sent hproducer hstep
      | returned => simp [step, hproducer] at hstep

/-- What a step within a send does. -/
inductive SendMoved (s : State T) (previous : Phase) (stage : SendStage T) (t : State T) : Prop where
  | accepted {item : Item T} {channel : Channel (Item T)} (hitem : stage.item? = some item)
      (hroom : s.channel.trySend item = .ok channel) (ht : t = s.accept previous item channel)
  | moved {stage' : SendStage T} {abort cancel : Bool}
      (ht : t = { s with abort, cancel }.enter previous stage')
      (hitem : stage'.item? = none ∨ stage'.item? = stage.item?)
  | returned {now : Nat}
      (ht : t = { s with watchdog := s.watchdog.leaveSend previous now, producer := .idle })

theorem sendMoved {previous : Phase} {stage : SendStage T}
    (hstep : s.continueSend previous stage a = some t) : SendMoved s previous stage t := by
  cases stage with
  | trying item =>
      cases a with
      | trySend =>
          dsimp only [State.continueSend] at hstep
          split at hstep
          · cases hstep
            exact .accepted rfl ‹_› rfl
          · cases hstep
            exact .moved rfl (Or.inl rfl)
          · cases hstep
            exact .moved rfl (Or.inr rfl)
      | _ => cases hstep
  | waiting item =>
      cases a with
      | sendPoll =>
          dsimp only [State.continueSend] at hstep
          split at hstep
          · cases hstep
            exact .moved rfl (Or.inl rfl)
          · split at hstep
            · cases hstep
              exact .accepted rfl ‹_› rfl
            · cases hstep
              exact .moved rfl (Or.inl rfl)
            · cases hstep
              exact .moved rfl (Or.inr rfl)
      | stall =>
          dsimp only [State.continueSend] at hstep
          obtain ⟨_, hfull⟩ := Option.ite_none_left_eq_some.mp hstep
          split at hfull
          · cases hfull
            exact .moved rfl (Or.inl rfl)
          · cases hfull
      | _ => cases hstep
  | undelivered =>
      cases a with
      | giveUp =>
          cases hstep
          exact .moved rfl (Or.inl rfl)
      | _ => cases hstep
  | done delivered =>
      cases a with
      | sendReturn now =>
          cases hstep
          exact .returned rfl
      | _ => cases hstep

/-- The phase agrees with the producer and with the claims that were granted. -/
def Agrees (phase : Phase) (claimed : Bool) (producer : Producer T) : Prop :=
  match phase with
  | .processing | .timedOut => claimed = false ∧ producer.isSending = false
  | .finishing => claimed = true ∧ producer.isSending = false
  | .finished => producer.isSending = false
  | .sending => ∃ stage, producer = .sending (if claimed then .finishing else .processing) stage

/-- What the lock keeps: the phase agrees with the tasks, and the token with the phase. -/
structure Arbitrated (s : State T) : Prop where
  agrees : Agrees s.watchdog.phase s.claimed s.producer
  token : s.watchdog.timedOut = decide (s.watchdog.phase = .timedOut)

theorem Agrees.not_claimed {phase : Phase} {claimed : Bool} {producer : Producer T}
    (h : Agrees phase claimed producer) (hphase : phase = .timedOut) : claimed = false := by
  subst hphase
  exact h.1

theorem Agrees.not_sending {phase : Phase} {claimed : Bool} {producer : Producer T}
    (h : Agrees phase claimed producer) (hphase : phase = .timedOut) :
    producer.isSending = false := by
  subst hphase
  exact h.2

theorem Agrees.sending {phase previous : Phase} {claimed : Bool} {stage : SendStage T}
    (h : Agrees phase claimed (.sending previous stage)) :
    phase = .sending ∧ previous = if claimed then .finishing else .processing := by
  cases phase with
  | sending =>
      obtain ⟨_, hproducer⟩ := h
      exact ⟨rfl, (Producer.sending.inj hproducer).1⟩
  | finished => cases h
  | processing | finishing | timedOut => cases h.2

/-- In an open phase the producer is at rest, and the phase says whether a claim was granted. -/
theorem Agrees.of_open {phase : Phase} {claimed : Bool} {producer : Producer T}
    (h : Agrees phase claimed producer) (hopen : phase.isOpen = true) :
    phase = (if claimed then .finishing else .processing) ∧ producer.isSending = false := by
  cases phase with
  | processing =>
      rw [h.1]
      exact ⟨rfl, h.2⟩
  | finishing =>
      rw [h.1]
      exact ⟨rfl, h.2⟩
  | sending | finished | timedOut => cases hopen

theorem Agrees.resting {claimed : Bool} {producer : Producer T}
    (hrest : producer.isSending = false) :
    Agrees (if claimed then .finishing else .processing) claimed producer := by
  cases claimed with
  | true => exact ⟨rfl, hrest⟩
  | false => exact ⟨rfl, hrest⟩

/-- At rest the producer may as well have returned. -/
theorem Agrees.at_rest {phase : Phase} {claimed : Bool} {producer producer' : Producer T}
    (h : Agrees phase claimed producer) (hrest : producer.isSending = false)
    (hrest' : producer'.isSending = false) : Agrees phase claimed producer' := by
  cases phase with
  | processing | timedOut | finishing => exact ⟨h.1, hrest'⟩
  | finished => exact hrest'
  | sending =>
      obtain ⟨_, rfl⟩ := h
      cases hrest

/-- What an operation of the producer at rest does. -/
inductive Produced (s t : State T) : Prop where
  | kept (hphase : t.watchdog.phase = s.watchdog.phase)
      (htoken : t.watchdog.timedOut = s.watchdog.timedOut) (hclaimed : t.claimed = s.claimed)
      (hrest : t.producer.isSending = false)
  | granted (hopen : s.watchdog.phase.isOpen = true)
      (ht : t = { s with watchdog := { s.watchdog with phase := .finishing }, claimed := true })
  | entered {value : T} (hopen : s.watchdog.phase.isOpen = true)
      (ht : t = { s with watchdog := { s.watchdog with phase := .sending } }.enter
        s.watchdog.phase (.trying ⟨value, .sent s.claimed⟩))
  | completed (hphase : s.watchdog.phase ≠ .timedOut)
      (ht : t = { s with
        watchdog := { s.watchdog with phase := .finished, finished := true }, completed := true })

theorem produced (hidle : s.producer = .idle) (hstep : s.produce a = some t) : Produced s t := by
  have hrest : s.producer.isSending = false := by
    rw [hidle]
    rfl
  cases a with
  | progress now =>
      cases hstep
      exact .kept (StreamWatchdog.progress_phase now) (StreamWatchdog.progress_timedOut now) rfl hrest
  | claimFinish =>
      have ht : t = { s with
          watchdog := s.watchdog.claimFinish.1
          claimed := s.claimed || s.watchdog.claimFinish.2 } := (Option.some.inj hstep).symm
      rw [StreamWatchdog.claimFinish_eq] at ht
      by_cases hopen : s.watchdog.phase.isOpen = true
      · rw [if_pos hopen, Bool.or_true] at ht
        exact .granted hopen ht
      · rw [if_neg hopen, Bool.or_false] at ht
        subst ht
        exact .kept rfl rfl rfl hrest
  | send value =>
      dsimp only [State.produce] at hstep
      rw [StreamWatchdog.enterSend_eq] at hstep
      by_cases hopen : s.watchdog.phase.isOpen = true
      · rw [if_pos hopen] at hstep
        cases hstep
        exact .entered hopen rfl
      · rw [if_neg hopen] at hstep
        cases hstep
        exact .kept rfl rfl rfl hrest
  | dropGuard =>
      cases hstep
      exact .kept rfl rfl rfl hrest
  | dropCompletion =>
      obtain ⟨_, rfl⟩ := (Option.ite_none_left_eq_some.mp hstep).imp_right Option.some.inj
      by_cases hphase : s.watchdog.phase = .timedOut
      · exact .kept ((if_pos hphase).trans hphase.symm) rfl rfl hrest
      · refine .completed hphase ?_
        unfold StreamWatchdog.complete
        rw [if_neg hphase]
  | dropSender =>
      obtain ⟨_, hreturned⟩ := Option.ite_none_right_eq_some.mp hstep
      cases hreturned
      exact .kept rfl rfl rfl rfl
  | _ => cases hstep

theorem Arbitrated.produce (h : s.Arbitrated) (hidle : s.producer = .idle)
    (hstep : s.produce a = some t) : t.Arbitrated := by
  obtain ⟨hagrees, htoken⟩ := h
  have hrest : s.producer.isSending = false := by
    rw [hidle]
    rfl
  cases produced hidle hstep with
  | kept hphase htoken' hclaimed hrest' =>
      refine ⟨?_, ?_⟩
      · rw [hphase, hclaimed]
        exact hagrees.at_rest hrest hrest'
      · rw [hphase, htoken']
        exact htoken
  | granted hopen ht =>
      subst ht
      refine ⟨⟨rfl, hrest⟩, htoken.trans ?_⟩
      exact decide_eq_false (Phase.ne_timedOut hopen)
  | entered hopen ht =>
      subst ht
      obtain ⟨hphase, _⟩ := hagrees.of_open hopen
      refine ⟨⟨_, congrArg (Producer.sending · _) hphase⟩, htoken.trans ?_⟩
      exact decide_eq_false (Phase.ne_timedOut hopen)
  | completed hphase ht =>
      subst ht
      exact ⟨hrest, htoken.trans (decide_eq_false hphase)⟩

/-- Within a send the producer stays in it; its end restores the phase it began in. -/
theorem Arbitrated.continueSend {previous : Phase} {stage : SendStage T} (h : s.Arbitrated)
    (hsending : s.producer = .sending previous stage)
    (hstep : s.continueSend previous stage a = some t) : t.Arbitrated := by
  obtain ⟨hagrees, htoken⟩ := h
  obtain ⟨hphase, hprevious⟩ := Agrees.sending (hsending ▸ hagrees)
  have hinside : ∀ {u : State T} {stage' : SendStage T}, u.watchdog = s.watchdog →
      u.claimed = s.claimed → u.producer = .sending previous stage' → u.Arbitrated := by
    intro u stage' hwatchdog hclaimed hproducer
    refine ⟨?_, hwatchdog ▸ htoken⟩
    rw [hwatchdog, hphase, hclaimed, hproducer]
    exact ⟨stage', congrArg (Producer.sending · _) hprevious⟩
  cases sendMoved hstep with
  | accepted _ _ ht =>
      subst ht
      exact hinside rfl rfl rfl
  | moved ht =>
      subst ht
      exact hinside rfl rfl rfl
  | returned ht =>
      subst ht
      rw [hphase] at htoken
      refine ⟨?_, htoken.trans ?_⟩
      · show Agrees previous s.claimed .idle
        rw [hprevious]
        exact Agrees.resting rfl
      · show decide (Phase.sending = .timedOut) = decide (previous = .timedOut)
        rw [hprevious]
        cases s.claimed with
        | _ => rfl

/-- The watcher times out only while the producer is at rest with no claim granted. -/
theorem Arbitrated.watch (h : s.Arbitrated) (hstep : s.watch a = some t) : t.Arbitrated := by
  obtain ⟨hagrees, htoken⟩ := h
  cases a with
  | tick | retire | cancelRequest =>
      obtain ⟨_, hsame⟩ := Option.ite_none_right_eq_some.mp hstep
      cases hsame
      exact ⟨hagrees, htoken⟩
  | arbitrate now =>
      obtain ⟨_, hticked⟩ := Option.ite_none_right_eq_some.mp hstep
      have ht : t = { s with
          watchdog := (s.watchdog.tick s.seconds now).1
          abort := s.abort || (s.watchdog.tick s.seconds now).2
          watcher := if (s.watchdog.tick s.seconds now).2 then .expired else .waiting } :=
        (Option.some.inj hticked).symm
      unfold StreamWatchdog.tick at ht
      split at ht
      · obtain ⟨hphase, _⟩ := ‹_ ∧ _›
        subst ht
        rw [hphase] at hagrees
        exact ⟨hagrees, rfl⟩
      · subst ht
        exact ⟨hagrees, htoken⟩
  | _ => cases hstep

/-- What a poll of the reader does. -/
inductive Polled (s t : State T) : Prop where
  | timedOut (hlistening : s.reader = .listening) (htimedOut : s.watchdog.timedOut = true)
      (ht : t = { s with channel := s.channel.drain }.drainNext s.timeouts)
  | received {item : Item T} {rest : List (Item T)} (hlistening : s.reader = .listening)
      (htimedOut : s.watchdog.timedOut = false) (hbuffer : s.channel.buffer = item :: rest)
      (ht : t = { s with
        channel := { s.channel with buffer := rest }, received := s.received ++ [item] })
  | ended (hlistening : s.reader = .listening) (htimedOut : s.watchdog.timedOut = false)
      (ht : t = { s with reader := .ended })
  | pending (hlistening : s.reader = .listening) (htimedOut : s.watchdog.timedOut = false)
      (ht : t = s)
  | drained {pending : List (Item T)} (hdraining : s.reader = .draining pending)
      (ht : t = s.drainNext pending)

theorem polled (hstep : s.poll = some t) : Polled s t := by
  unfold State.poll at hstep
  split at hstep
  · by_cases htimedOut : s.watchdog.timedOut = true
    · rw [if_pos htimedOut] at hstep
      cases hstep
      exact .timedOut ‹_› htimedOut rfl
    · rw [if_neg htimedOut] at hstep
      have hnot := (Bool.not_eq_true _).mp htimedOut
      split at hstep
      · cases hstep
        exact .received ‹_› hnot ‹_› rfl
      · split at hstep
        · cases hstep
          exact .ended ‹_› hnot rfl
        · cases hstep
          exact .pending ‹_› hnot rfl
  · cases hstep
    exact .drained ‹_› rfl
  · cases hstep
  · cases hstep

theorem drainNext_frame (items : List (Item T)) :
    (s.drainNext items).watchdog = s.watchdog ∧ (s.drainNext items).claimed = s.claimed ∧
      (s.drainNext items).producer = s.producer ∧ (s.drainNext items).accepted = s.accepted ∧
      (s.drainNext items).timeoutItems = s.timeoutItems := by
  cases items with
  | _ => exact ⟨rfl, rfl, rfl, rfl, rfl⟩

/-- An observer changes neither the phase nor the producer. -/
theorem observe_frame (hstep : s.observe a = some t) :
    t.watchdog = s.watchdog ∧ t.claimed = s.claimed ∧ t.producer = s.producer ∧
      t.accepted = s.accepted ∧ t.timeoutItems = s.timeoutItems := by
  cases a with
  | monitor =>
      obtain ⟨_, hleft⟩ := Option.ite_none_right_eq_some.mp hstep
      cases hleft
      exact ⟨rfl, rfl, rfl, rfl, rfl⟩
  | cancelled =>
      cases hstep
      exact ⟨rfl, rfl, rfl, rfl, rfl⟩
  | poll =>
      cases polled hstep with
      | timedOut _ _ ht =>
          subst ht
          exact drainNext_frame _
      | drained _ ht =>
          subst ht
          exact drainNext_frame _
      | received _ _ _ ht | ended _ _ ht | pending _ _ ht =>
          subst ht
          exact ⟨rfl, rfl, rfl, rfl, rfl⟩
  | dropReader =>
      dsimp only [State.observe] at hstep
      split at hstep
      · cases hstep
        exact ⟨rfl, rfl, rfl, rfl, rfl⟩
      · cases hstep
        exact ⟨rfl, rfl, rfl, rfl, rfl⟩
      · cases hstep
      · cases hstep
  | _ => cases hstep

theorem Arbitrated.step (h : s.Arbitrated) (hstep : s.step a = some t) : t.Arbitrated := by
  cases moved hstep with
  | produced hidle h' => exact h.produce hidle h'
  | sent hsending h' => exact h.continueSend hsending h'
  | watched h' => exact h.watch h'
  | observed h' =>
      obtain ⟨hwatchdog, hclaimed, hproducer, _⟩ := observe_frame h'
      refine ⟨?_, hwatchdog ▸ h.token⟩
      rw [hwatchdog, hclaimed, hproducer]
      exact h.agrees

/-- What neither the producer at rest nor the watcher touches. -/
structure Aside (s : State T) (a : Action T) (t : State T) : Prop where
  channel : t.channel = s.channel
  received : t.received = s.received
  accepted : t.accepted = s.accepted
  reader : t.reader = s.reader
  timeoutItems : t.timeoutItems = s.timeoutItems
  not_poll : a.isPoll = false

theorem aside_produce (hstep : s.produce a = some t) : Aside s a t := by
  cases a with
  | progress now | claimFinish | dropGuard =>
      cases hstep
      exact ⟨rfl, rfl, rfl, rfl, rfl, rfl⟩
  | send value =>
      dsimp only [State.produce] at hstep
      split at hstep
      · cases hstep
        exact ⟨rfl, rfl, rfl, rfl, rfl, rfl⟩
      · cases hstep
        exact ⟨rfl, rfl, rfl, rfl, rfl, rfl⟩
  | dropCompletion =>
      obtain ⟨_, rfl⟩ := (Option.ite_none_left_eq_some.mp hstep).imp_right Option.some.inj
      exact ⟨rfl, rfl, rfl, rfl, rfl, rfl⟩
  | dropSender =>
      obtain ⟨_, hreturned⟩ := Option.ite_none_right_eq_some.mp hstep
      cases hreturned
      exact ⟨rfl, rfl, rfl, rfl, rfl, rfl⟩
  | _ => cases hstep

theorem aside_watch (hstep : s.watch a = some t) :
    Aside s a t ∧ t.claimed = s.claimed ∧ t.producer = s.producer := by
  cases a with
  | tick | arbitrate _ | cancelRequest | retire =>
      obtain ⟨_, hsome⟩ := Option.ite_none_right_eq_some.mp hstep
      cases hsome
      exact ⟨⟨rfl, rfl, rfl, rfl, rfl, rfl⟩, rfl, rfl⟩
  | _ => cases hstep

/-- A claim that was granted stays so. -/
theorem claimed_step (hstep : s.step a = some t) (hclaimed : s.claimed = true) :
    t.claimed = true := by
  cases moved hstep with
  | produced hidle h' =>
      cases produced hidle h' with
      | kept _ _ hkept _ => exact hkept.trans hclaimed
      | granted _ ht =>
          subst ht
          rfl
      | entered _ ht | completed _ ht =>
          subst ht
          exact hclaimed
  | sent _ h' =>
      cases sendMoved h' with
      | accepted _ _ ht | moved ht _ | returned ht =>
          subst ht
          exact hclaimed
  | watched h' => exact (aside_watch h').2.1.trans hclaimed
  | observed h' => exact (observe_frame h').2.1.trans hclaimed

theorem watch_timedOut (hphase : s.watchdog.phase = .timedOut) (hstep : s.watch a = some t) :
    t.watchdog.phase = .timedOut := by
  cases a with
  | tick | retire | cancelRequest =>
      obtain ⟨_, hsame⟩ := Option.ite_none_right_eq_some.mp hstep
      cases hsame
      exact hphase
  | arbitrate now =>
      obtain ⟨_, hticked⟩ := Option.ite_none_right_eq_some.mp hstep
      have hwatchdog : t.watchdog = (s.watchdog.tick s.seconds now).1 := by
        cases hticked
        rfl
      rw [hwatchdog]
      unfold StreamWatchdog.tick
      split
      · rfl
      · exact hphase
  | _ => cases hstep

/-- The timed-out phase is never left, grants no claim and takes no item. -/
theorem Arbitrated.timedOut_step (h : s.Arbitrated) (hphase : s.watchdog.phase = .timedOut)
    (hstep : s.step a = some t) :
    t.watchdog.phase = .timedOut ∧ t.claimed = s.claimed ∧ t.accepted = s.accepted := by
  cases moved hstep with
  | produced hidle h' =>
      have haccepted := (aside_produce h').accepted
      cases produced hidle h' with
      | kept hkept _ hclaimed _ => exact ⟨hkept.trans hphase, hclaimed, haccepted⟩
      | granted hopen _ | entered hopen _ => exact absurd hphase (Phase.ne_timedOut hopen)
      | completed hnot _ => exact absurd hphase hnot
  | sent hsending h' =>
      have hrest := h.agrees.not_sending hphase
      rw [hsending] at hrest
      cases hrest
  | watched h' =>
      obtain ⟨haside, hclaimed, _⟩ := aside_watch h'
      exact ⟨watch_timedOut hphase h', hclaimed, haside.accepted⟩
  | observed h' =>
      obtain ⟨hwatchdog, hclaimed, _, haccepted, _⟩ := observe_frame h'
      exact ⟨hwatchdog ▸ hphase, hclaimed, haccepted⟩

end State

end Watchdog

end Gigastt
