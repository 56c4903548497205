import Gigastt.FileDecode
import Gigastt.WindowPulls

/-!
What a container will decode to is settled before the first pull: the ready samples of each round, and
what the end of the stream gives. The windows over a container are those of a window source over this
trace, so they do not depend on when they are asked for, and a failure comes where the flat decode meets
it.
-/

namespace Gigastt.Files

open Outcomes

variable {α : Type} {codec : OpusDecoder α} {rubato : Rubato α}

/-- The ready samples of each round, and what the resampler flushes at the end if the rounds get
there. -/
structure Trace (α : Type) where
  blocks : List (List α)
  outcome : Except DecodeFailure (List α)

namespace Source

variable (rnd : Rounding) (ops : SampleOps α)

def traceFrom : ℕ → Source codec rubato → Trace α
  | 0, s => { blocks := [], outcome := (s.finish ops).map Prod.fst }
  | n + 1, s =>
      match s.round rnd ops with
      | .error e => { blocks := [], outcome := .error e }
      | .ok (none, s) => { blocks := [], outcome := (s.finish ops).map Prod.fst }
      | .ok (some samples, s) =>
          let later := traceFrom n s
          { later with blocks := samples :: later.blocks }

def trace (s : Source codec rubato) : Trace α := s.traceFrom rnd ops (s.remaining + 1)

theorem length_of_nextDemuxPacket {δ : Type} {havePcm : Bool} {format rest : Format δ}
    {packet : Packet δ} (h : nextDemuxPacket havePcm format = .ok (some packet, rest)) :
    format.length = rest.length + 1 := by
  cases format with
  | nil => cases h
  | cons head format =>
      cases head with
      | ok p =>
          cases h
          rfl
      | error e =>
          rw [nextDemuxPacket] at h
          split at h <;> cases h

theorem length_of_recvBlock {feed rest : WaveFeed α} {block : WaveBlock α}
    (h : feed.recvBlock = .ok (some block, rest)) :
    feed.messages.length = rest.messages.length + 1 := by
  obtain ⟨messages, panics⟩ := feed
  cases messages with
  | nil =>
      rw [WaveFeed.recvBlock] at h
      dsimp only at h
      split at h <;> cases h
  | cons head messages =>
      cases head with
      | ok b =>
          cases h
          rfl
      | error e => cases e <;> cases h

/-- A round that is not the last takes one answer. -/
theorem remaining_of_round {s t : Source codec rubato} {samples : List α}
    (h : s.round rnd ops = .ok (some samples, t)) : s.remaining = t.remaining + 1 := by
  cases s with
  | streaming format trackId channel budget resampler =>
      rw [round] at h
      obtain ⟨⟨_ | packet, rest⟩, hnext, h⟩ := bind_eq_ok.mp h
      · cases h
      · have hlength := length_of_nextDemuxPacket hnext
        dsimp only at h
        split at h
        · cases h
          exact hlength
        · split at h
          · cases h
          · obtain ⟨_, _, h⟩ := bind_eq_ok.mp h
            obtain ⟨_, _, h⟩ := bind_eq_ok.mp h
            cases h
            exact hlength
  | opus format trackId stream budget resampler pending =>
      rw [round] at h
      obtain ⟨⟨_ | packet, rest⟩, hnext, h⟩ := bind_eq_ok.mp h
      · cases h
      · have hlength := length_of_nextDemuxPacket hnext
        dsimp only at h
        split at h
        · cases h
          exact hlength
        · obtain ⟨_, _, h⟩ := bind_eq_ok.mp h
          obtain ⟨_, _, h⟩ := bind_eq_ok.mp h
          obtain ⟨_, _, h⟩ := bind_eq_ok.mp h
          cases h
          exact hlength
  | wave feed budget resampler =>
      rw [round] at h
      obtain ⟨⟨_ | block, rest⟩, hnext, h⟩ := bind_eq_ok.mp h
      · cases h
      · obtain ⟨_, _, h⟩ := bind_eq_ok.mp h
        obtain ⟨_, _, h⟩ := bind_eq_ok.mp h
        cases h
        exact length_of_recvBlock hnext

theorem trace_eq (s : Source codec rubato) :
    s.trace rnd ops = match s.round rnd ops with
      | .error e => { blocks := [], outcome := .error e }
      | .ok (none, t) => { blocks := [], outcome := (t.finish ops).map Prod.fst }
      | .ok (some samples, t) =>
          { t.trace rnd ops with blocks := samples :: (t.trace rnd ops).blocks } := by
  rw [trace, traceFrom]
  cases hround : s.round rnd ops with
  | error e => rfl
  | ok result =>
      obtain ⟨_ | samples, t⟩ := result
      · rfl
      · dsimp only
        rw [trace, ← remaining_of_round rnd ops hround]

/-- What the next round does, by the trace. -/
theorem round_of_trace {s : Source codec rubato} {blocks : List (List α)}
    {outcome : Except DecodeFailure (List α)} (h : s.trace rnd ops = { blocks, outcome }) :
    (∃ e, s.round rnd ops = .error e ∧ blocks = [] ∧ outcome = .error e) ∨
    (∃ t, s.round rnd ops = .ok (none, t) ∧ blocks = [] ∧ outcome = (t.finish ops).map Prod.fst) ∨
    ∃ samples t rest, s.round rnd ops = .ok (some samples, t) ∧ blocks = samples :: rest ∧
      t.trace rnd ops = { blocks := rest, outcome } := by
  rw [trace_eq] at h
  cases hround : s.round rnd ops with
  | error e =>
      rw [hround] at h
      cases h
      exact .inl ⟨e, rfl, rfl, rfl⟩
  | ok result =>
      obtain ⟨_ | samples, t⟩ := result
      · rw [hround] at h
        cases h
        exact .inr (.inl ⟨t, rfl, rfl, rfl⟩)
      · rw [hround] at h
        cases h
        exact .inr (.inr ⟨samples, t, _, rfl, rfl, rfl⟩)

end Source

namespace FileWindows

open Gigastt.FileWindows (append)

variable (rnd : Rounding) (ops : SampleOps α)

/-- The windows over the container follow the source over a trace with the given outcome. Of a trace
that fails, only the blocks matter. -/
structure Follows (outcome : Except DecodeFailure (List α)) (f : FileWindows codec rubato)
    (d : Decoder α) : Prop where
  live : f.source.eof = false → f.finished = false ∧
    f.src.trace rnd ops = { blocks := d.blocks, outcome } ∧ ∀ tail, outcome = .ok tail → d.tail = tail
  ended : f.source.eof = true → f.finished = true ∧ ∃ tail, outcome = .ok tail

theorem fillTo_stopped {target : Option ℕ} {f : FileWindows codec rubato}
    (hstop : target.any (· ≤ f.source.decodedTotal)) (hlive : f.source.eof = false) :
    f.fillTo rnd ops target = .ok f := by
  rw [fillTo, fillLoop, hstop, Bool.or_true, if_pos rfl]
  change (if f.source.eof && !f.finished then _ else _) = _
  rw [hlive, Bool.false_and, if_neg Bool.false_ne_true]
  rfl

theorem fillTo_ended {target : Option ℕ} {f : FileWindows codec rubato}
    (hend : f.source.eof = true) (hfinished : f.finished = true) :
    f.fillTo rnd ops target = .ok f := by
  rw [fillTo, fillLoop, hend, Bool.true_or, if_pos rfl]
  change (if f.source.eof && !f.finished then _ else _) = _
  rw [hend, hfinished, Bool.not_true, Bool.and_false, if_neg Bool.false_ne_true]
  rfl

/-- One round of the loop of a call. -/
theorem fillTo_round {target : Option ℕ} {f : FileWindows codec rubato}
    (hmore : target.any (· ≤ f.source.decodedTotal) = false) (hlive : f.source.eof = false)
    (hfinished : f.finished = false) :
    f.fillTo rnd ops target = match f.src.round rnd ops with
      | .error e => .error e
      | .ok (none, src) => (src.finish ops).map fun done =>
          { src := done.2, finished := true, source :=
            { append f.source done.1 with eof := true } }
      | .ok (some samples, src) => fillTo rnd ops target
          { f with src, source := append f.source samples } := by
  rw [fillTo, fillLoop, hlive, hmore, Bool.or_false, if_neg Bool.false_ne_true]
  cases hround : f.src.round rnd ops with
  | error e => rfl
  | ok result =>
      obtain ⟨_ | samples, src⟩ := result
      · change (if true && !f.finished then _ else _) = _
        rw [hfinished, Bool.not_false, Bool.and_true, if_pos rfl]
        dsimp only
        cases src.finish ops <;> rfl
      · rw [Source.remaining_of_round rnd ops hround]
        rfl

omit codec rubato in
theorem traced_of_stopped {target : ℕ} {tail : List α} {blocks : List (List α)} {s : WindowSource α}
    (h : (s.eof || decide (target ≤ s.decodedTotal)) = true) :
    Gigastt.FileWindows.fillTo target tail blocks s = (s, { blocks, tail }) := by
  cases blocks <;> rw [Gigastt.FileWindows.fillTo, if_pos h]

/-- A call that fills the buffer does what it does over the trace, or meets the failure of the
trace. -/
theorem Follows.fillTo {outcome : Except DecodeFailure (List α)} {f : FileWindows codec rubato}
    {d : Decoder α} (h : Follows rnd ops outcome f d) (target : ℕ) :
    match f.fillTo rnd ops (some target) with
    | .ok g =>
        g.source = (Gigastt.FileWindows.fillTo target d.tail d.blocks f.source).1 ∧
          Follows rnd ops outcome g (Gigastt.FileWindows.fillTo target d.tail d.blocks f.source).2
    | .error e => outcome = .error e := by
  obtain ⟨blocks, tail⟩ := d
  by_cases hend : f.source.eof = true
  · obtain ⟨hfinished, houtcome⟩ := h.ended hend
    rw [fillTo_ended rnd ops hend hfinished]
    rw [traced_of_stopped (by rw [hend, Bool.true_or])]
    exact ⟨rfl, h⟩
  rw [Bool.not_eq_true] at hend
  induction blocks generalizing f with
  | nil =>
      obtain ⟨hfinished, htrace, htail⟩ := h.live hend
      by_cases hstop : target ≤ f.source.decodedTotal
      · rw [fillTo_stopped rnd ops (by simpa using hstop) hend,
          traced_of_stopped (by simpa [hend] using hstop)]
        exact ⟨rfl, h⟩
      rw [fillTo_round rnd ops (by simpa using hstop) hend hfinished, Gigastt.FileWindows.fillTo,
        if_neg (by simpa [hend] using hstop)]
      rcases Source.round_of_trace rnd ops htrace with ⟨e, hround, _, houtcome⟩ |
        ⟨src, hround, _, houtcome⟩ | ⟨_, _, _, _, hblocks, _⟩
      · rw [hround]
        exact houtcome
      · rw [hround]
        dsimp only
        cases hfinish : src.finish ops with
        | error e =>
            rw [hfinish] at houtcome
            exact houtcome
        | ok done =>
            rw [hfinish] at houtcome
            obtain rfl := htail done.1 houtcome
            exact ⟨rfl, fun h => (by cases h), fun _ => ⟨rfl, _, houtcome⟩⟩
      · cases hblocks
  | cons block rest ih =>
      obtain ⟨hfinished, htrace, htail⟩ := h.live hend
      by_cases hstop : target ≤ f.source.decodedTotal
      · rw [fillTo_stopped rnd ops (by simpa using hstop) hend,
          traced_of_stopped (by simpa [hend] using hstop)]
        exact ⟨rfl, h⟩
      rw [fillTo_round rnd ops (by simpa using hstop) hend hfinished, Gigastt.FileWindows.fillTo,
        if_neg (by simpa [hend] using hstop)]
      rcases Source.round_of_trace rnd ops htrace with ⟨_, _, hblocks, _⟩ | ⟨_, _, hblocks, _⟩ |
        ⟨samples, src, _, hround, hblocks, hlater⟩
      · cases hblocks
      · cases hblocks
      · cases hblocks
        rw [hround]
        refine ih ⟨fun _ => ⟨hfinished, hlater, htail⟩, fun h => ?_⟩ hend
        exact absurd h (by simp [append, hend])

/-- The window source over the trace. -/
def onTrace (f : FileWindows codec rubato) (d : Decoder α) : Gigastt.FileWindows α :=
  { source := f.source, decoder := d, skipsEmpty := false }

/-- A call of `next_window` returns what the source over the trace lends. -/
theorem Follows.nextWindow {outcome : Except DecodeFailure (List α)} {f : FileWindows codec rubato}
    {d : Decoder α} (h : Follows rnd ops outcome f d) :
    match f.nextWindow rnd ops with
    | .ok (w, g) => w = (onTrace f d).lent ∧ ∃ d', onTrace g d' = (onTrace f d).nextWindow ∧
        Follows rnd ops outcome g d'
    | .error e => outcome = .error e := by
  cases hdone : f.source.cursor.done with
  | true =>
      have hsame : (onTrace f d).nextWindow = onTrace f d := Gigastt.FileWindows.nextWindow_done hdone
      rw [FileWindows.nextWindow, if_pos hdone]
      refine ⟨?_, d, hsame.symm, h⟩
      rw [Gigastt.FileWindows.lent, hsame, List.getElem?_eq_none (Nat.le_refl _)]
      rfl
  | false =>
      have hreclaimed : Follows rnd ops outcome
          { f with source := f.source.reclaim f.source.reclaimable } d := ⟨h.live, h.ended⟩
      have hfill := hreclaimed.fillTo rnd ops f.source.cursor.fillTarget
      rw [FileWindows.nextWindow, hdone, if_neg Bool.false_ne_true]
      dsimp only
      cases hfilled : FileWindows.fillTo rnd ops (some f.source.cursor.fillTarget)
          { f with source := f.source.reclaim f.source.reclaimable } with
      | error e =>
          rw [hfilled] at hfill
          exact hfill
      | ok g =>
          rw [hfilled] at hfill
          obtain ⟨hsource, hfollows⟩ := hfill
          have hnext : (onTrace f d).nextWindow =
              { onTrace f d with source := g.source.pull, decoder := (onTrace f d).filled.2 } := by
            rw [Gigastt.FileWindows.nextWindow_pulled hdone rfl, hsource]
            rfl
          refine ⟨?_, (onTrace f d).filled.2, hnext.symm, ⟨fun hlive => ?_, fun hend => ?_⟩⟩
          · rw [Gigastt.FileWindows.lent, hnext, hsource, AudioChunks.fillTo_pulled]
            rfl
          · rw [WindowSource.pull_eof] at hlive
            exact hfollows.live hlive
          · rw [WindowSource.pull_eof] at hend
            exact hfollows.ended hend

theorem follows_new (src : Source codec rubato) (spec : WindowSpec) {tail : List α}
    (htail : ∀ flushed, (src.trace rnd ops).outcome = .ok flushed → tail = flushed) :
    Follows rnd ops (src.trace rnd ops).outcome (new src spec)
      { blocks := (src.trace rnd ops).blocks, tail } where
  live _ := ⟨rfl, rfl, htail⟩
  ended h := by cases h

theorem fillTo_none {f : FileWindows codec rubato} {blocks : List (List α)}
    {outcome : Except DecodeFailure (List α)} (hlive : f.source.eof = false)
    (hfinished : f.finished = false) (htrace : f.src.trace rnd ops = { blocks, outcome }) :
    (f.fillTo rnd ops none).map (fun g => g.source.buf) =
      outcome.map fun tail => f.source.buf ++ blocks.flatten ++ tail := by
  induction blocks generalizing f with
  | nil =>
      rw [fillTo_round rnd ops rfl hlive hfinished]
      rcases Source.round_of_trace rnd ops htrace with ⟨e, hround, _, rfl⟩ |
        ⟨src, hround, _, rfl⟩ | ⟨_, _, _, _, hblocks, _⟩
      · rw [hround]
        rfl
      · rw [hround]
        dsimp only
        cases src.finish ops with
        | error e => rfl
        | ok done => exact congrArg Except.ok (by rw [List.flatten_nil, List.append_nil]; rfl)
      · cases hblocks
  | cons block rest ih =>
      rw [fillTo_round rnd ops rfl hlive hfinished]
      rcases Source.round_of_trace rnd ops htrace with ⟨_, _, hblocks, _⟩ | ⟨_, _, hblocks, _⟩ |
        ⟨samples, src, _, hround, hblocks, hlater⟩
      · cases hblocks
      · cases hblocks
      · cases hblocks
        rw [hround]
        have hnext : (fillTo rnd ops none { f with src, source := append f.source block }).map _ = _ :=
          ih hlive hfinished hlater
        rw [List.flatten_cons, ← List.append_assoc]
        exact hnext

/-- The flat decode gives all blocks and the flushed rest, or the failure of the trace. -/
theorem drainToVec_eq (src : Source codec rubato) (spec : WindowSpec) :
    (new src spec).drainToVec rnd ops = (src.trace rnd ops).outcome.map
      fun tail => (src.trace rnd ops).blocks.flatten ++ tail := by
  have h : ((new src spec).fillTo rnd ops none).map _ = _ :=
    fillTo_none rnd ops rfl rfl (rfl : src.trace rnd ops = ⟨_, _⟩)
  exact h

end FileWindows

end Gigastt.Files
