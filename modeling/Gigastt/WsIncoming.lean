import Gigastt.Transition

/-!
The task that reads the socket of a session while a decode owns the streaming state, and the channel of
one message through which the session gets what it reads. Nothing is lost, repeated or reordered, two
messages at most wait in memory, and a peer that goes away raises the abort flag before the session is
told.
-/

namespace Gigastt.Ws

open Transition

/-- What `source.next` yields. -/
inductive Arrival (Body : Type) where
  | message (body : Body)
  | close
  | failure
  deriving DecidableEq

def Arrival.terminal {Body : Type} : Arrival Body → Bool
  | .message _ => false
  | .close | .failure => true

inductive Reader (Body : Type) where
  | reading
  | sending (arrival : Arrival Body)
  | ended
  deriving DecidableEq

def Reader.isEnded {Body : Type} : Reader Body → Bool
  | .ended => true
  | .reading | .sending _ => false

structure Incoming (Body : Type) where
  /-- What the socket has yet to yield, before it ends. -/
  source : List (Arrival Body)
  reader : Reader Body
  channel : List (Arrival Body)
  /-- The session has not dropped it. -/
  attached : Bool
  abort : Bool
  closed : Bool
  received : List (Arrival Body)

inductive Incoming.Action where
  /-- The reader takes the next message. -/
  | next
  /-- The socket ends. -/
  | exhaust
  | send
  /-- The send fails. -/
  | fail
  | recv
  /-- The session finds the channel closed. -/
  | hungUp
  | drop
  /-- The task is aborted where it waits. -/
  | cancel
  deriving DecidableEq

variable {Body : Type}

namespace Incoming

def new (source : List (Arrival Body)) : Incoming Body where
  source
  reader := .reading
  channel := []
  attached := true
  abort := false
  closed := false
  received := []

def step (s : Incoming Body) : Action → Option (Incoming Body)
  | .next =>
      match s.reader, s.source with
      | .reading, arrival :: rest =>
          some { s with
            source := rest
            reader := .sending arrival
            abort := s.abort || arrival.terminal
            closed := s.closed || arrival.terminal }
      | _, _ => none
  | .exhaust =>
      match s.reader, s.source with
      | .reading, [] => some { s with reader := .ended, abort := true, closed := true }
      | _, _ => none
  | .send =>
      match s.reader, s.channel, s.attached with
      | .sending arrival, [], true =>
          if arrival.terminal then
            some { s with reader := .ended, channel := [arrival], abort := true, closed := true }
          else some { s with reader := .reading, channel := [arrival] }
      | _, _, _ => none
  | .fail =>
      match s.reader, s.attached with
      | .sending _, false => some { s with reader := .ended, abort := true, closed := true }
      | _, _ => none
  | .recv =>
      match s.channel, s.attached with
      | arrival :: rest, true => some { s with channel := rest, received := s.received ++ [arrival] }
      | _, _ => none
  | .hungUp =>
      match s.reader, s.channel, s.attached with
      | .ended, [], true => some s
      | _, _, _ => none
  | .drop => if s.attached then some { s with attached := false } else none
  | .cancel =>
      -- the flag is raised by the guard of the task, the token is left alone
      if s.attached = false ∧ s.reader.isEnded = false then
        some { s with reader := .ended, abort := true }
      else none

def inHand (s : Incoming Body) : List (Arrival Body) :=
  match s.reader with
  | .sending arrival => [arrival]
  | .reading | .ended => []

end Incoming

/-- What the session is to get: all up to the first message that ends the connection. -/
def untilTerminal : List (Arrival Body) → List (Arrival Body)
  | [] => []
  | arrival :: rest => if arrival.terminal then [arrival] else arrival :: untilTerminal rest

theorem untilTerminal_cons (arrival : Arrival Body) (rest : List (Arrival Body)) :
    untilTerminal (arrival :: rest) =
      if arrival.terminal then [arrival] else arrival :: untilTerminal rest := rfl

namespace Incoming

/-- What the reader has yet to send. -/
def ahead (s : Incoming Body) : List (Arrival Body) :=
  match s.reader with
  | .reading => untilTerminal s.source
  | .sending arrival => untilTerminal (arrival :: s.source)
  | .ended => []

/-- The flags, by where the reader is. -/
def Flagged (s : Incoming Body) : Prop :=
  match s.reader with
  | .reading => s.abort = false ∧ s.closed = false
  | .sending arrival => s.abort = arrival.terminal ∧ s.closed = arrival.terminal
  | .ended => s.abort = true

/-- A terminal message has been sent by a reader that has then ended, and has closed the token. -/
def Calm (s : Incoming Body) : Prop :=
  ∀ arrival ∈ s.received ++ s.channel, arrival.terminal = true → s.reader = .ended ∧ s.closed = true

structure Inv (source : List (Arrival Body)) (s : Incoming Body) : Prop where
  sent : s.received ++ s.channel <+: untilTerminal source
  whole : s.attached = true ∨ s.reader ≠ .ended →
    s.received ++ s.channel ++ s.ahead = untilTerminal source
  bounded : s.channel.length ≤ 1
  flagged : s.Flagged
  calm : s.Calm

theorem inv_new (source : List (Arrival Body)) : Inv source (new source) where
  sent := List.nil_prefix
  whole _ := rfl
  bounded := Nat.zero_le 1
  flagged := ⟨rfl, rfl⟩
  calm _ h := by cases h

variable {source : List (Arrival Body)} {s t : Incoming Body}

/-- Before the reader ends, it has sent no message that ends the connection. -/
theorem Inv.not_terminal (h : Inv source s) (hreader : s.reader ≠ .ended) {arrival : Arrival Body}
    (harrival : arrival ∈ s.received ++ s.channel) : arrival.terminal ≠ true :=
  fun hterminal => hreader (h.calm arrival harrival hterminal).1

theorem Inv.next (h : Inv source s) (hstep : s.step .next = some t) : Inv source t := by
  rw [Incoming.step] at hstep
  split at hstep
  · next arrival rest hreader hsource =>
    have hne : s.reader ≠ .ended := by simp [hreader]
    have hflagged := h.flagged
    have hwhole := h.whole (Or.inr hne)
    rw [Flagged, hreader] at hflagged
    rw [ahead, hreader, hsource] at hwhole
    cases hstep
    refine ⟨h.sent, fun _ => hwhole, h.bounded, ?_,
      fun m hm hterminal => absurd hterminal (h.not_terminal hne hm)⟩
    show (s.abort || _) = _ ∧ (s.closed || _) = _
    rw [hflagged.1, hflagged.2, Bool.false_or]
    exact ⟨rfl, rfl⟩
  · cases hstep

theorem Inv.exhaust (h : Inv source s) (hstep : s.step .exhaust = some t) : Inv source t := by
  rw [Incoming.step] at hstep
  split at hstep
  · next hreader hsource =>
    have hwhole := h.whole (Or.inr (by simp [hreader]))
    rw [ahead, hreader, hsource] at hwhole
    cases hstep
    exact ⟨h.sent, fun _ => hwhole, h.bounded, rfl, fun _ _ _ => ⟨rfl, rfl⟩⟩
  · cases hstep

theorem Inv.send (h : Inv source s) (hstep : s.step .send = some t) : Inv source t := by
  rw [Incoming.step] at hstep
  split at hstep
  · next arrival hreader hchannel hattached =>
    have hne : s.reader ≠ .ended := by simp [hreader]
    have hflagged := h.flagged
    have hwhole := h.whole (Or.inl hattached)
    rw [Flagged, hreader] at hflagged
    rw [ahead, hreader, hchannel, List.append_nil] at hwhole
    dsimp only at hwhole
    rw [untilTerminal_cons] at hwhole
    split at hstep
    · next hterminal =>
      rw [if_pos hterminal] at hwhole
      cases hstep
      refine ⟨⟨[], ?_⟩, fun _ => ?_, Nat.le_refl 1, rfl, fun _ _ _ => ⟨rfl, rfl⟩⟩
      · rw [List.append_nil]
        exact hwhole
      · show s.received ++ [arrival] ++ [] = untilTerminal source
        rw [List.append_nil]
        exact hwhole
    · next hterminal =>
      rw [if_neg hterminal, List.append_cons] at hwhole
      cases hstep
      refine ⟨⟨untilTerminal s.source, hwhole⟩, fun _ => hwhole, Nat.le_refl 1, ?_,
        fun m hm hm' => ?_⟩
      · rw [Bool.not_eq_true] at hterminal
        exact ⟨hflagged.1.trans hterminal, hflagged.2.trans hterminal⟩
      · rcases List.mem_append.mp hm with hm | hm
        · exact absurd hm' (h.not_terminal hne (List.mem_append_left _ hm))
        · rw [List.mem_singleton.mp hm] at hm'
          exact absurd hm' hterminal
  · cases hstep

theorem Inv.fail (h : Inv source s) (hstep : s.step .fail = some t) : Inv source t := by
  rw [Incoming.step] at hstep
  split at hstep
  · next arrival hreader hattached =>
    cases hstep
    refine ⟨h.sent, fun hkept => ?_, h.bounded, rfl, fun _ _ _ => ⟨rfl, rfl⟩⟩
    simp [hattached] at hkept
  · cases hstep

theorem Inv.recv (h : Inv source s) (hstep : s.step .recv = some t) : Inv source t := by
  rw [Incoming.step] at hstep
  split at hstep
  · next arrival rest hchannel hattached =>
    have hmoved : s.received ++ [arrival] ++ rest = s.received ++ s.channel := by
      rw [hchannel, ← List.append_cons]
    have hbounded := h.bounded
    rw [hchannel] at hbounded
    cases hstep
    refine ⟨?_, fun hkept => ?_, Nat.le_of_succ_le hbounded, h.flagged, fun m hm => ?_⟩
    · show s.received ++ [arrival] ++ rest <+: _
      rw [hmoved]
      exact h.sent
    · show s.received ++ [arrival] ++ rest ++ s.ahead = _
      rw [hmoved]
      exact h.whole hkept
    · apply h.calm m
      rw [← hmoved]
      exact hm
  · cases hstep

theorem Inv.drop (h : Inv source s) (hstep : s.step .drop = some t) : Inv source t := by
  rw [Incoming.step] at hstep
  split at hstep
  · next hattached =>
    cases hstep
    exact ⟨h.sent, fun _ => h.whole (Or.inl hattached), h.bounded, h.flagged, h.calm⟩
  · cases hstep

theorem Inv.cancel (h : Inv source s) (hstep : s.step .cancel = some t) : Inv source t := by
  rw [Incoming.step] at hstep
  split at hstep
  · next hcancel =>
    cases hstep
    refine ⟨h.sent, fun hkept => ?_, h.bounded, rfl, fun m hm hterminal => ?_⟩
    · simp [hcancel.1] at hkept
    · exact ⟨rfl, (h.calm m hm hterminal).2⟩
  · cases hstep

theorem Inv.step (h : Inv source s) {action : Action} (hstep : s.step action = some t) :
    Inv source t := by
  cases action with
  | next => exact h.next hstep
  | exhaust => exact h.exhaust hstep
  | send => exact h.send hstep
  | fail => exact h.fail hstep
  | recv => exact h.recv hstep
  | hungUp =>
      rw [Incoming.step] at hstep
      split at hstep
      · cases hstep
        exact h
      · cases hstep
  | drop => exact h.drop hstep
  | cancel => exact h.cancel hstep

end Incoming

/-- However the socket, the reader and the session interleave: the session gets the messages in order,
up to the first that ends the connection, and has them all when it finds the channel closed; two at most
wait in memory; a message that ends the connection is told after the flags are raised, and the abort
flag of a session that is there is raised only when there is nothing left to read. -/
theorem incoming_exact (source : List (Arrival Body)) (actions : List Incoming.Action)
    (s : Incoming Body) (hrun : run Incoming.step (.new source) actions = some s) :
    s.received <+: untilTerminal source ∧
      ((s.step .hungUp).isSome → s.received = untilTerminal source) ∧
      s.channel.length + s.inHand.length ≤ 2 ∧
      (∀ arrival ∈ s.received, arrival.terminal = true → s.abort = true ∧ s.closed = true) ∧
      (s.attached = true → s.abort = true →
        s.received ++ s.channel ++ s.inHand = untilTerminal source) := by
  have h : Incoming.Inv source s :=
    Reachable.invariant ⟨actions, hrun⟩ (fun _ _ _ hstep hinv => Incoming.Inv.step hinv hstep)
      (Incoming.inv_new source)
  refine ⟨(List.prefix_append _ _).trans h.sent, fun hhungUp => ?_, ?_, fun m hm hterminal => ?_,
    fun hattached habort => ?_⟩
  · rw [Incoming.step] at hhungUp
    split at hhungUp
    · next hreader hchannel hattached =>
      have hwhole := h.whole (Or.inl hattached)
      rw [Incoming.ahead, hreader, hchannel, List.append_nil, List.append_nil] at hwhole
      exact hwhole
    · cases hhungUp
  · have hbounded := h.bounded
    have hinHand : s.inHand.length ≤ 1 := by
      rw [Incoming.inHand]
      split
      · exact Nat.le_refl 1
      · exact Nat.zero_le 1
      · exact Nat.zero_le 1
    omega
  · obtain ⟨hended, hclosed⟩ := h.calm m (List.mem_append_left _ hm) hterminal
    have hflagged := h.flagged
    rw [Incoming.Flagged, hended] at hflagged
    exact ⟨hflagged, hclosed⟩
  · have hflagged := h.flagged
    have hwhole := h.whole (Or.inl hattached)
    rw [Incoming.Flagged] at hflagged
    rw [Incoming.ahead] at hwhole
    rw [Incoming.inHand]
    cases hreader : s.reader with
    | reading =>
        rw [hreader] at hflagged
        rw [hflagged.1] at habort
        cases habort
    | sending arrival =>
        rw [hreader] at hflagged hwhole
        rw [hflagged.1] at habort
        dsimp only at hwhole
        rw [untilTerminal_cons, if_pos habort] at hwhole
        exact hwhole
    | ended =>
        rw [hreader] at hwhole
        exact hwhole

/-- A client that sends one frame and closes, while the session decodes. -/
theorem incoming_exact_closed :
    ∃ s, run Incoming.step (.new [.message 7, .close, .message 8])
        [.next, .send, .next, .recv, .send, .recv] = some s ∧
      s.received = [.message 7, .close] ∧ s.abort = true ∧ s.closed = true :=
  ⟨_, rfl, rfl, (incoming_exact [.message 7, .close, .message 8]
    [.next, .send, .next, .recv, .send, .recv] _ rfl).2.2.2.1 .close (by decide) rfl⟩

end Gigastt.Ws
