import Gigastt.WsWire

/-!
The keepalive of a session: how long a silent peer is kept, and that no other one is closed for its
silence.
-/

namespace Gigastt.Ws

open Transition

variable {B : Backend}

/-- A turn in which the server pings, or gives up, and receives nothing. -/
def Turn.silent (turn : Turn B) : Bool := !turn.shutdown && !turn.expired && turn.ticked

/-- The silent turns at the end. -/
def silence (turns : List (Turn B)) : Nat := (turns.reverse.takeWhile Turn.silent).length

def pingTimeout : Wire := .out (.close 1001 "ping timeout")

section

variable {host : Host B} {talk next : Talk B} {c : Connection B} {turn : Turn B}
  {turns : List (Turn B)}

theorem silence_silent (h : turn.silent = true) : silence (turns ++ [turn]) = silence turns + 1 := by
  unfold silence
  rw [List.reverse_append, List.reverse_singleton, List.singleton_append,
    List.takeWhile_cons_of_pos h, List.length_cons]

theorem silence_heard (h : turn.silent = false) : silence (turns ++ [turn]) = 0 := by
  unfold silence
  rw [List.reverse_append, List.reverse_singleton, List.singleton_append,
    List.takeWhile_cons_of_neg (by simp [h]), List.length_nil]

/-- No handler says that the peer is silent. -/
theorem parting_heard {messages : List Outgoing} (h : Parting messages) :
    .close 1001 "ping timeout" ∉ messages := by
  cases h with
  | aborted partialText now reason =>
      cases reason with
      | _ => cases partialText with
        | _ => simp [abortMessages]
  | finishFailed partialText code =>
      unfold finishErrorMessages
      cases partialText.filter fun segment => !segment.text.isEmpty with
      | _ => simp
  | emptyFrames => simp

theorem speech_heard {goesOn : Bool} {sent : List Outgoing} (h : Speech goesOn sent) :
    pingTimeout ∉ sent.map Wire.out := by
  intro hmem
  obtain ⟨m, hm, heq⟩ := List.mem_map.mp hmem
  cases Wire.out.inj heq
  cases h with
  | texts htexts => exact absurd (htexts _ hm) Bool.noConfusion
  | farewell htexts hwhole hpart =>
      rcases List.mem_append.mp hm with hm | hm
      · exact absurd (htexts _ hm) Bool.noConfusion
      · exact parting_heard hwhole (hpart.mem hm)

theorem leave_heard {messages : List Outgoing} (room : Nat) (htalk : pingTimeout ∉ talk.wire)
    (hmessages : .close 1001 "ping timeout" ∉ messages) :
    pingTimeout ∉ (talk.leave room messages).wire := by
  obtain ⟨taken, hfront, heq, _⟩ := send_sent { sent := [], room } messages
  unfold Talk.leave
  dsimp only
  rw [heq, List.nil_append]
  intro hmem
  rcases List.mem_append.mp hmem with hmem | hmem
  · exact htalk hmem
  · obtain ⟨m, hm, hout⟩ := List.mem_map.mp hmem
    cases Wire.out.inj hout
    exact hmessages (hfront.mem hm)

theorem finalize_heard {rest : List Outgoing} (htalk : pingTimeout ∉ talk.wire)
    (hrest : .close 1001 "ping timeout" ∉ rest) :
    pingTimeout ∉ (host.finalize talk c turn rest).wire := by
  unfold Host.finalize
  split
  · apply leave_heard turn.room htalk
    simpa using hrest
  · exact htalk

/-- What a turn that is not silent leaves: nothing about silence, and no ping that waits. -/
theorem iterate_heard (hheard : turn.silent = false) (htalk : pingTimeout ∉ talk.wire) :
    pingTimeout ∉ (host.iterate talk c turn).wire ∧
      ((host.iterate talk c turn).loop.ended = false →
        (host.iterate talk c turn).unansweredPings = 0) := by
  have hfinalize : ∀ rest, (host.finalize talk c turn rest).loop.ended = true := by
    intro rest
    unfold Host.finalize
    split
    · rfl
    · rfl
  have hended : ∀ {t : Talk B}, t.loop.ended = true →
      t.loop.ended = false → t.unansweredPings = 0 := by
    intro t htrue hfalse
    rw [htrue] at hfalse
    cases hfalse
  unfold Host.iterate
  split
  · exact ⟨finalize_heard htalk (by simp), hended (hfinalize _)⟩
  · split
    · exact ⟨finalize_heard htalk (by simp), hended (hfinalize _)⟩
    · split
      · next hshutdown hexpired hticked =>
        -- a turn that pings is silent
        simp [Turn.silent, hshutdown, hexpired, hticked] at hheard
      · unfold Host.receive
        split
        · split
          · next served hdispatch =>
            refine ⟨fun hmem => ?_, fun _ => rfl⟩
            rcases List.mem_append.mp hmem with hmem | hmem
            · exact htalk hmem
            · exact speech_heard (spoken_dispatch hdispatch) hmem
          · exact ⟨htalk, hended rfl⟩
        · exact ⟨htalk, hended rfl⟩
        · exact ⟨htalk, hended rfl⟩
        · exact ⟨leave_heard _ htalk (by simp), hended rfl⟩

/-- A silent turn is a ping. -/
theorem iterate_silent (hsilent : turn.silent = true) :
    host.iterate talk c turn = Host.ping talk turn.room := by
  simp only [Turn.silent, Bool.and_eq_true, Bool.not_eq_true'] at hsilent
  obtain ⟨⟨hshutdown, hexpired⟩, hticked⟩ := hsilent
  unfold Host.iterate
  simp [hshutdown, hexpired, hticked]

/-- How a session stands after its turns: on the way with a ping for each silent turn at the end, or
over, and for silence exactly after one silent turn too many. -/
structure Kept (turns : List (Turn B)) (talk : Talk B) : Prop where
  pings : talk.loop.ended = false → talk.unansweredPings = silence turns
  bounded : talk.loop.ended = false → silence turns ≤ wsMaxMissedPongs
  timeout : pingTimeout ∈ talk.wire ↔
    silence turns = wsMaxMissedPongs + 1 ∧ ∀ turn ∈ turns.getLast?, 0 < turn.room

theorem Kept.step (hkept : Kept turns talk) (hstep : host.step talk turn = some next) :
    Kept (turns ++ [turn]) next := by
  unfold Host.step at hstep
  split at hstep
  · next c hloop =>
    cases hstep
    have hgoes : talk.loop.ended = false := by rw [hloop]; rfl
    have hpings := hkept.pings hgoes
    have hbounded := hkept.bounded hgoes
    have hwire : pingTimeout ∉ talk.wire := by
      intro hmem
      have hthree := (hkept.timeout.mp hmem).1
      omega
    cases hsilent : turn.silent with
    | false =>
        obtain ⟨hquiet, hzero⟩ := @iterate_heard B host talk c turn hsilent hwire
        have hnone : silence (turns ++ [turn]) = 0 := silence_heard hsilent
        refine ⟨fun hon => ?_, fun _ => ?_, iff_of_false hquiet ?_⟩
        · rw [hnone, hzero hon]
        · rw [hnone]
          exact Nat.zero_le _
        · rw [hnone]
          exact fun h => absurd h.1 (by decide)
    | true =>
        have hmore : silence (turns ++ [turn]) = silence turns + 1 := silence_silent hsilent
        rw [iterate_silent hsilent]
        unfold Host.ping keepaliveShouldClose
        split
        · next hclose =>
          have hthree : silence (turns ++ [turn]) = wsMaxMissedPongs + 1 := by
            have := of_decide_eq_true hclose
            omega
          refine ⟨fun h => Bool.noConfusion h, fun h => Bool.noConfusion h, ?_⟩
          rw [hthree]
          unfold Talk.leave Sink.send
          by_cases hroom : turn.room = 0
          · simp [hroom, hwire]
          · simp [hroom, Sink.send, pingTimeout, Nat.pos_of_ne_zero]
        · next hopen =>
          have hfew : silence (turns ++ [turn]) ≤ wsMaxMissedPongs := by
            have : ¬ wsMaxMissedPongs ≤ talk.unansweredPings := fun h => hopen (decide_eq_true h)
            omega
          have hnot : ¬ (silence (turns ++ [turn]) = wsMaxMissedPongs + 1 ∧
              ∀ turn' ∈ (turns ++ [turn]).getLast?, 0 < turn'.room) := by
            rintro ⟨hthree, _⟩
            omega
          split
          · exact ⟨fun h => Bool.noConfusion h, fun h => Bool.noConfusion h,
              iff_of_false hwire hnot⟩
          · refine ⟨fun _ => ?_, fun _ => hfew, iff_of_false ?_ hnot⟩
            · rw [hmore, ← hpings]
            · simpa [pingTimeout] using hwire
  · cases hstep
  · cases hstep
  · cases hstep

theorem kept_handleWs (checkout : Host.Checkout) (abort snapshot room : Nat) :
    Kept [] (host.handleWs checkout abort snapshot room) := by
  have hquiet : pingTimeout ∉ (host.handleWs checkout abort snapshot room).wire := by
    cases checkout with
    | shutdown | poolClosed | timedOut =>
        exact leave_heard room List.not_mem_nil (by simp [Host.refusal])
    | triplet triplet =>
        unfold Host.handleWs
        dsimp only
        split
        · exact List.not_mem_nil
        · simp [pingTimeout]
  refine ⟨fun hon => ?_, fun _ => Nat.zero_le _, iff_of_false hquiet ?_⟩
  · cases checkout with
    | shutdown | poolClosed | timedOut => cases hon
    | triplet triplet =>
        unfold Host.handleWs
        dsimp only
        split
        · rfl
        · rfl
  · rintro ⟨hthree, _⟩
    have : 0 = wsMaxMissedPongs + 1 := hthree
    exact absurd this (by decide)

end

/-- A session goes on only while its peer has missed at most two pings, and a peer is told that it is
silent exactly after three silent turns in a row, if the socket still takes it. -/
theorem keepalive_exact (host : Host B) (checkout : Host.Checkout) (abort snapshot room : Nat)
    (turns : List (Turn B)) (talk : Talk B)
    (hrun : run host.step (host.handleWs checkout abort snapshot room) turns = some talk) :
    (talk.loop.ended = false →
      talk.unansweredPings = silence turns ∧ silence turns ≤ wsMaxMissedPongs) ∧
    (pingTimeout ∈ talk.wire ↔
      silence turns = wsMaxMissedPongs + 1 ∧ ∀ turn ∈ turns.getLast?, 0 < turn.room) := by
  have hkept : Kept turns talk :=
    run_history Kept (fun _ _ _ _ hkept hstep => hkept.step hstep) hrun
      (kept_handleWs checkout abort snapshot room)
  exact ⟨fun hon => ⟨hkept.pings hon, hkept.bounded hon⟩, hkept.timeout⟩

/-- Two pings, and the close in the place of a third. -/
theorem keepalive_exact_silent :
    pingTimeout ∈ [Wire.ready bareHost.ready, .ping, .ping, pingTimeout] ↔
      silence (List.replicate 3 (bareTurn false)) = wsMaxMissedPongs + 1 ∧
        ∀ turn ∈ (List.replicate 3 (bareTurn false)).getLast?, 0 < turn.room :=
  (keepalive_exact bareHost (.triplet 0) 0 0 1 (List.replicate 3 (bareTurn false))
    { wire := [.ready bareHost.ready, .ping, .ping, pingTimeout]
      unansweredPings := 2
      loop := .closed } rfl).2

end Gigastt.Ws
