import Gigastt.WsSession

/-!
The endpointer of a stream: audio is scored frame by frame, and an utterance ends when the silence
after its speech gets long enough.
-/

namespace Gigastt.Vad

/-- The model that scores a frame. It keeps a state from frame to frame. -/
structure Silero (P α σ : Type) where
  runFrame : List α → σ → σ × Except String P
  /-- One probability is at least another. -/
  atLeast : P → P → Bool

variable {P α σ : Type}

/-- The score of the next frame, and whether the utterance ends there. -/
def Hangover.update (vad : Silero P α σ) (h : Hangover P) (prob : P) (samples : Nat) :
    Hangover P × Bool :=
  if vad.atLeast prob h.threshold then
    ({ h with seenSpeech := true, armed := true, trailingSilence := 0 }, false)
  else if !h.seenSpeech then (h, false)
  else
    let h := { h with trailingSilence := h.trailingSilence + samples }
    if h.armed && h.minSilenceSamples ≤ h.trailingSilence then ({ h with armed := false }, true)
    else (h, false)

/-- How far a push has come. -/
structure Pushed (P σ : Type) where
  state : σ
  hangover : Hangover P
  off : Nat
  endpoint : Bool

/-- Scores frames of the buffer. An error of the model ends the push where it is. -/
def pushFrames (vad : Silero P α σ) (leftover : List α) :
    Nat → Pushed P σ → Pushed P σ × Option String
  | 0, p => (p, none)
  | n + 1, p =>
      match vad.runFrame ((leftover.drop p.off).take frameSamples) p.state with
      | (state, .error e) => ({ p with state }, some e)
      | (state, .ok prob) =>
          let (hangover, fired) := p.hangover.update vad prob frameSamples
          pushFrames vad leftover n
            { state, hangover, off := p.off + frameSamples, endpoint := p.endpoint || fired }

/-- Feeds audio. The tail short of a frame is kept, and all of the buffer when a frame fails. -/
def VadEndpointer.push (vad : Silero P α σ) (ep : VadEndpointer P α σ) (samples : List α) :
    VadEndpointer P α σ × Except String Bool :=
  let leftover := ep.leftover ++ samples
  let start : Pushed P σ :=
    { state := ep.state, hangover := ep.hangover, off := 0, endpoint := false }
  match pushFrames vad leftover (leftover.length / frameSamples) start with
  | (p, some e) => ({ state := p.state, leftover, hangover := p.hangover }, .error e)
  | (p, none) =>
      ({ state := p.state, leftover := leftover.drop p.off, hangover := p.hangover },
        .ok p.endpoint)

/-- What is settled when the trailing silence starts being tracked. -/
def Hangover.settled (h : Hangover P) : P × Nat := (h.threshold, h.minSilenceSamples)

/-- As settled in another one. -/
def Hangover.resettle (h other : Hangover P) : Hangover P :=
  { h with threshold := other.threshold, minSilenceSamples := other.minSilenceSamples }

theorem Hangover.resettle_eq {h other : Hangover P} (hsettled : h.settled = other.settled) :
    h.resettle other = h := by
  obtain ⟨hthreshold, hsilence⟩ := Prod.ext_iff.mp hsettled
  unfold resettle
  rw [show other.threshold = h.threshold from hthreshold.symm,
    show other.minSilenceSamples = h.minSilenceSamples from hsilence.symm]

theorem Hangover.update_settled (vad : Silero P α σ) (h : Hangover P) (prob : P) (samples : Nat) :
    (h.update vad prob samples).1.settled = h.settled := by
  unfold update
  dsimp only
  split
  · rfl
  · split
    · rfl
    · split
      · rfl
      · rfl

theorem pushFrames_settled (vad : Silero P α σ) (leftover : List α) (n : Nat) (p : Pushed P σ) :
    (pushFrames vad leftover n p).1.hangover.settled = p.hangover.settled := by
  induction n generalizing p with
  | zero => rfl
  | succ n ih =>
      unfold pushFrames
      split
      · rfl
      · rw [ih]
        exact Hangover.update_settled vad p.hangover _ frameSamples

/-- The threshold and the silence that ends an utterance stay as the endpointer was made. -/
theorem VadEndpointer.push_settled (vad : Silero P α σ) (ep : VadEndpointer P α σ)
    (samples : List α) : (ep.push vad samples).1.hangover.settled = ep.hangover.settled := by
  have hframes := pushFrames_settled vad (ep.leftover ++ samples)
    ((ep.leftover ++ samples).length / frameSamples)
    { state := ep.state, hangover := ep.hangover, off := 0, endpoint := false }
  unfold push
  dsimp only
  split
  · rename_i p e hpush
    rw [hpush] at hframes
    exact hframes
  · rename_i p hpush
    rw [hpush] at hframes
    exact hframes

end Gigastt.Vad
