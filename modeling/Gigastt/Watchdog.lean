import Mathlib

/-!
The watchdog of a file stream and the tasks it arbitrates between: the producer of the segments, the
watcher of its progress, the reader of the response and the monitor of the request. Each action is
one section under the phase's lock, one poll of a future, or one operation of a token or the channel.
Instants are nanoseconds.
-/

namespace Gigastt

namespace Watchdog

inductive Phase where
  | processing
  | sending
  | finishing
  | finished
  | timedOut
  deriving DecidableEq, Repr

structure StreamWatchdog where
  phase : Phase
  since : Nat
  timedOut : Bool
  finished : Bool

namespace StreamWatchdog

def new (now : Nat) : StreamWatchdog :=
  { phase := .processing, since := now, timedOut := false, finished := false }

/-- The section of a tick. A deadline that has passed is published before the lock is released. -/
def tick (w : StreamWatchdog) (seconds now : Nat) : StreamWatchdog × Bool :=
  if w.phase = .processing ∧ seconds ≤ (now - w.since) / 10 ^ 9 then
    ({ w with phase := .timedOut, timedOut := true }, true)
  else (w, false)

def progress (w : StreamWatchdog) (now : Nat) : StreamWatchdog :=
  if w.phase = .processing then { w with since := now } else w

def claimFinish (w : StreamWatchdog) : StreamWatchdog × Bool :=
  match w.phase with
  | .processing | .finishing => ({ w with phase := .finishing }, true)
  | .sending | .finished | .timedOut => (w, false)

/-- The section `send` opens with: the phase to go back to, unless the send is refused. -/
def enterSend (w : StreamWatchdog) : Option (Phase × StreamWatchdog) :=
  match w.phase with
  | .processing | .finishing => some (w.phase, { w with phase := .sending })
  | .sending | .finished | .timedOut => none

/-- The drop of `Sending`. -/
def leaveSend (w : StreamWatchdog) (previous : Phase) (now : Nat) : StreamWatchdog :=
  { w with phase := previous, since := now }

/-- The drop of `Completion`. -/
def complete (w : StreamWatchdog) : StreamWatchdog :=
  { w with phase := if w.phase = .timedOut then .timedOut else .finished, finished := true }

end StreamWatchdog

/-- Where an item comes from; one that was sent knows whether a claim had been granted by then. -/
inductive Origin where
  | buffered
  | sent (claimed : Bool)
  | timeout
  deriving DecidableEq, Repr

structure Item (T : Type*) where
  value : T
  origin : Origin

/-- A bounded channel with one receiver. -/
structure Channel (T : Type*) where
  buffer : List T
  capacity : Nat
  /-- The receiver was closed or dropped. -/
  closed : Bool

inductive TrySendError where
  | closed
  | full

def Channel.trySend {T : Type*} (channel : Channel T) (item : T) : Except TrySendError (Channel T) :=
  if channel.closed then .error .closed
  else if channel.capacity ≤ channel.buffer.length then .error .full
  else .ok { channel with buffer := channel.buffer ++ [item] }

/-- Closes the receiver and discards what it holds. -/
def Channel.drain {T : Type*} (channel : Channel T) : Channel T :=
  { channel with buffer := [], closed := true }

/-- Where `send_stream_item` stands. -/
inductive SendStage (T : Type*) where
  | trying (item : Item T)
  | waiting (item : Item T)
  | undelivered
  | done (delivered : Bool)

inductive Producer (T : Type*) where
  | idle
  | sending (previous : Phase) (stage : SendStage T)
  /-- The task is over and its sender dropped. -/
  | returned

/-- Where the task of the watcher stands. -/
inductive Watcher where
  | waiting
  | ticked
  | expired
  | gone
  deriving DecidableEq, Repr

/-- The stream of the response: it listens to the channel until the timeout items replace it. -/
inductive Reader (T : Type*) where
  | listening
  | draining (pending : List (Item T))
  | ended
  | dropped

structure State (T : Type*) where
  watchdog : StreamWatchdog
  seconds : Nat
  /-- What the closure of the timeout items returns. It is called at most once. -/
  timeoutItems : List T
  abort : Bool
  cancel : Bool
  channel : Channel (Item T)
  producer : Producer T
  /-- `Completion` was dropped. -/
  completed : Bool
  /-- The monitor of the request holds a sender until it leaves. -/
  monitor : Bool
  /-- The guard that retires the monitor was dropped. -/
  retired : Bool
  watcher : Watcher
  reader : Reader T
  /-- A `claim_finish` has returned true. -/
  claimed : Bool
  /-- What the sends have put in the channel. -/
  accepted : List (Item T)
  /-- What the reader has been given. -/
  received : List (Item T)

inductive Action (T : Type*) where
  | progress (now : Nat)
  | claimFinish
  | send (value : T)
  | trySend
  | sendPoll
  | stall
  | giveUp
  | sendReturn (now : Nat)
  | dropGuard
  | dropCompletion
  | dropSender
  | tick
  | arbitrate (now : Nat)
  | cancelRequest
  | retire
  | monitor
  | cancelled
  | poll
  | dropReader

variable {T : Type*}

/-- A stream about to start, with whatever the channel holds. A deadline of zero starts no watcher. -/
def start (seconds capacity now : Nat) (buffered timeoutItems : List T) : State T where
  watchdog := .new now
  seconds := seconds
  timeoutItems := timeoutItems
  abort := false
  cancel := false
  channel := { buffer := buffered.map (⟨·, .buffered⟩), capacity, closed := false }
  producer := .idle
  completed := false
  monitor := true
  retired := false
  watcher := if seconds = 0 then .gone else .waiting
  reader := .listening
  claimed := false
  accepted := []
  received := []

namespace State

/-- The timeout items as the reader is given them. -/
def timeouts (s : State T) : List (Item T) := s.timeoutItems.map (⟨·, .timeout⟩)

/-- Every sender of the channel was dropped. -/
def sendersGone (s : State T) : Bool :=
  !s.monitor && match s.producer with
    | .returned => true
    | .idle | .sending _ _ => false

def enter (s : State T) (previous : Phase) (stage : SendStage T) : State T :=
  { s with producer := .sending previous stage }

/-- An item the channel has taken. -/
def accept (s : State T) (previous : Phase) (item : Item T) (channel : Channel (Item T)) : State T :=
  { s with
    channel, accepted := s.accepted ++ [item]
    producer := .sending previous (.done true) }

/-- The next of the timeout items, or the end of the stream. -/
def drainNext (s : State T) : List (Item T) → State T
  | [] => { s with reader := .ended }
  | item :: pending =>
      { s with reader := .draining pending, received := s.received ++ [item] }

/-- A poll of the reader. The timeout is looked at before the channel. -/
def poll (s : State T) : Option (State T) :=
  match s.reader with
  | .listening =>
      if s.watchdog.timedOut then some ({ s with channel := s.channel.drain }.drainNext s.timeouts)
      else
        match s.channel.buffer with
        | item :: rest =>
            some { s with
              channel := { s.channel with buffer := rest }
              received := s.received ++ [item] }
        | [] => if s.sendersGone then some { s with reader := .ended } else some s
  | .draining pending => some (s.drainNext pending)
  | .ended | .dropped => none

/-- What the producer does. It is one task, so a send returns before the next operation begins. -/
def produce (s : State T) : Action T → Option (State T)
  | .progress now => some { s with watchdog := s.watchdog.progress now }
  | .claimFinish =>
      let (watchdog, granted) := s.watchdog.claimFinish
      some { s with watchdog, claimed := s.claimed || granted }
  | .send value =>
      match s.watchdog.enterSend with
      | none => some s
      | some (previous, watchdog) =>
          some ({ s with watchdog }.enter previous (.trying ⟨value, .sent s.claimed⟩))
  | .dropGuard => some { s with retired := true }
  | .dropCompletion =>
      if s.completed then none
      else some { s with watchdog := s.watchdog.complete, completed := true }
  | .dropSender => if s.completed then some { s with producer := .returned } else none
  | _ => none

/-- One step of the send that `previous` is to be restored after. -/
def continueSend (s : State T) (previous : Phase) : SendStage T → Action T → Option (State T)
  | .trying item, .trySend =>
      match s.channel.trySend item with
      | .ok channel => some (s.accept previous item channel)
      | .error .closed => some (s.enter previous .undelivered)
      | .error .full => some (s.enter previous (.waiting item))
  | .waiting item, .sendPoll =>
      if s.cancel then some (s.enter previous .undelivered)
      else
        match s.channel.trySend item with
        | .ok channel => some (s.accept previous item channel)
        | .error .closed => some (s.enter previous .undelivered)
        | .error .full => some (s.enter previous (.waiting item))
  | .waiting item, .stall =>
      -- The time limit is looked at after the token and the channel.
      if s.cancel then none
      else
        match s.channel.trySend item with
        | .error .full => some (s.enter previous .undelivered)
        | _ => none
  | .undelivered, .giveUp => some ({ s with abort := true, cancel := true }.enter previous (.done false))
  | .done _, .sendReturn now =>
      some { s with watchdog := s.watchdog.leaveSend previous now, producer := .idle }
  | _, _ => none

/-- What the watcher does. A tick it has taken is arbitrated under the lock in a later step. -/
def watch (s : State T) : Action T → Option (State T)
  | .tick =>
      if s.watcher = .waiting ∧ ¬ (s.watchdog.finished || s.cancel) then
        some { s with watcher := .ticked }
      else none
  | .arbitrate now =>
      if s.watcher = .ticked then
        let (watchdog, expired) := s.watchdog.tick s.seconds now
        some { s with
          watchdog
          abort := s.abort || expired
          watcher := if expired then .expired else .waiting }
      else none
  | .cancelRequest =>
      if s.watcher = .expired then some { s with cancel := true, watcher := .gone } else none
  | .retire =>
      if s.watcher = .waiting ∧ (s.watchdog.finished || s.cancel) then
        some { s with watcher := .gone }
      else none
  | _ => none

/-- What is neither an operation of the producer nor of the watcher. -/
def observe (s : State T) : Action T → Option (State T)
  | .monitor =>
      if s.monitor && (s.retired || s.cancel || s.channel.closed) then
        some { s with monitor := false, abort := s.abort || !s.retired }
      else none
  | .cancelled => some { s with cancel := true }
  | .poll => s.poll
  | .dropReader =>
      match s.reader with
      | .listening | .draining _ => some { s with reader := .dropped, channel := s.channel.drain }
      | .ended | .dropped => none
  | _ => none

def step (s : State T) : Action T → Option (State T)
  | .tick => s.watch .tick
  | .arbitrate now => s.watch (.arbitrate now)
  | .cancelRequest => s.watch .cancelRequest
  | .retire => s.watch .retire
  | .monitor => s.observe .monitor
  | .cancelled => s.observe .cancelled
  | .poll => s.observe .poll
  | .dropReader => s.observe .dropReader
  | a =>
      match s.producer with
      | .idle => s.produce a
      | .sending previous stage => s.continueSend previous stage a
      | .returned => none

end State

end Watchdog

end Gigastt
