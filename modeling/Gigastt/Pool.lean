import Gigastt.Transition

/-!
The session pool as a transition system. Each action is one lock-protected section, one atomic
load or store, one channel send or receive, or the dropping of an async waiter's future. A call is
one `checkout` or `checkout_blocking`; its index in `calls` is its identity and names its one-shot
channel, whose receiver is alive exactly while the call waits. A checkin is one `PoolInner::checkin`
in progress, started by dropping a guard or a reservation.
-/

namespace Gigastt.Pool

/-- The two channel flavours a waiter can be registered with. -/
inductive Kind where
  | async
  | blocking
  deriving DecidableEq, Repr

/-- Where a checkout call stands. `waiting` holds the content of the call's channel. -/
inductive Call (T : Type) where
  | fast (kind : Kind)
  | slow (kind : Kind)
  | waiting (kind : Kind) (slot : Option T)
  | returned
  deriving DecidableEq, Repr

/-- Where a checkin stands, with the item it carries. -/
inductive Checkin (T : Type) where
  | entry (item : T)
  | popping (item : T)
  | sending (item : T) (waiter : Nat)
  | pushing (item : T)
  | returned
  deriving DecidableEq, Repr

structure State (T : Type) where
  items : List T
  waiters : List Nat
  closed : Bool
  /-- `close` calls that have stored the flag and not yet cleared the waiters. -/
  closing : Nat
  /-- Items in live guards and reservations. -/
  held : List T
  calls : List (Call T)
  checkins : List (Checkin T)
  deriving DecidableEq, Repr

inductive Action where
  | checkout (kind : Kind)
  | fastPath (call : Nat)
  | slowPath (call : Nat)
  | receive (call : Nat)
  | receiveClosed (call : Nat)
  | abandon (call : Nat)
  | tryCheckoutN (n : Nat)
  | dropGuard (guard : Nat)
  | checkin (task : Nat)
  | closeStore
  | closeClear
  deriving DecidableEq, Repr

variable {T : Type}

def new (items : List T) : State T :=
  { items, waiters := [], closed := false, closing := 0, held := [], calls := [], checkins := [] }

namespace State

/-- `items.pop_front()` into a guard, which the call returns. -/
def takeItem (s : State T) (call : Nat) (item : T) (rest : List T) : State T :=
  { s with items := rest, held := s.held ++ [item], calls := s.calls.set call .returned }

/-- The first section of `checkout`: the items lock. -/
def fastPath (s : State T) (call : Nat) (kind : Kind) : State T :=
  if s.closed then { s with calls := s.calls.set call .returned }
  else match s.items with
    | item :: rest => s.takeItem call item rest
    | [] => { s with calls := s.calls.set call (.slow kind) }

/-- The second section of `checkout`: the items lock nested in the waiters lock. -/
def slowPath (s : State T) (call : Nat) (kind : Kind) : State T :=
  if s.closed then { s with calls := s.calls.set call .returned }
  else match s.items with
    | item :: rest => s.takeItem call item rest
    | [] => { s with
        waiters := s.waiters ++ [call]
        calls := s.calls.set call (.waiting kind none) }

def tryCheckoutN (s : State T) (n : Nat) : State T :=
  if n = 0 then s
  else if s.closed then s
  else { s with items := s.items.drop n, held := s.held ++ s.items.take n }

/-- A sender of the call's channel exists: registered, or popped by a checkin that has not yet
sent. -/
def hasSender (s : State T) (call : Nat) : Bool :=
  s.waiters.contains call ||
    s.checkins.any fun
      | .sending _ waiter => waiter == call
      | _ => false

/-- The next atomic step of a checkin. -/
def checkinStep (s : State T) (task : Nat) : Checkin T → Option (State T)
  | .entry item =>
      if s.closed then some { s with checkins := s.checkins.set task .returned }
      else some { s with checkins := s.checkins.set task (.popping item) }
  | .popping item =>
      match s.waiters with
      | waiter :: rest =>
          some { s with waiters := rest, checkins := s.checkins.set task (.sending item waiter) }
      | [] => some { s with checkins := s.checkins.set task (.pushing item) }
  | .sending item waiter =>
      match s.calls[waiter]? with
      | some (.waiting kind none) => some { s with
          calls := s.calls.set waiter (.waiting kind (some item))
          checkins := s.checkins.set task .returned }
      -- The receiver is gone: `send` hands the item back and the loop goes round.
      | _ => some { s with checkins := s.checkins.set task (.popping item) }
  | .pushing item =>
      some { s with items := s.items ++ [item], checkins := s.checkins.set task .returned }
  | .returned => none

end State

def step (s : State T) : Action → Option (State T)
  | .checkout kind => some { s with calls := s.calls ++ [.fast kind] }
  | .fastPath call =>
      match s.calls[call]? with
      | some (.fast kind) => some (s.fastPath call kind)
      | _ => none
  | .slowPath call =>
      match s.calls[call]? with
      | some (.slow kind) => some (s.slowPath call kind)
      | _ => none
  | .receive call =>
      match s.calls[call]? with
      | some (.waiting _ (some item)) =>
          some { s with held := s.held ++ [item], calls := s.calls.set call .returned }
      | _ => none
  | .receiveClosed call =>
      match s.calls[call]? with
      | some (.waiting _ none) =>
          if s.hasSender call then none else some { s with calls := s.calls.set call .returned }
      | _ => none
  | .abandon call =>
      match s.calls[call]? with
      | some (.fast .async) => some { s with calls := s.calls.set call .returned }
      -- Dropping the future drops the receiver, and with it whatever its channel holds.
      | some (.waiting .async _) => some { s with calls := s.calls.set call .returned }
      | _ => none
  | .tryCheckoutN n => some (s.tryCheckoutN n)
  | .dropGuard guard =>
      match s.held[guard]? with
      | some item => some { s with
          held := s.held.eraseIdx guard
          checkins := s.checkins ++ [.entry item] }
      | none => none
  | .checkin task =>
      match s.checkins[task]? with
      | some checkin => s.checkinStep task checkin
      | none => none
  | .closeStore => some { s with closed := true, closing := s.closing + 1 }
  | .closeClear =>
      if s.closing = 0 then none else some { s with waiters := [], closing := s.closing - 1 }

end Gigastt.Pool
