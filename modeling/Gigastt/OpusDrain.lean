import Gigastt.FileTrace

/-!
The flat decode of an Opus file in terms of its samples alone. They reach the resampler in exact chunks
whatever packets they came in, so how the packets cut the audio leaves no trace in the output.
-/

namespace Gigastt.Files

open Outcomes Slices

variable {α : Type} {codec : OpusDecoder α} {rubato : Rubato α}

theorem stagingFrames_pos : 0 < resampleStagingFrames := by decide

section Chunks

variable (ops : SampleOps α) (t : ResampleTo16k rubato)

/-- All whole chunks of the samples, and what is left of them. -/
def stageAll (samples : List α) : Except String (ResampleTo16k rubato × List α) :=
  stageChunks ops (samples.length / resampleStagingFrames) t samples

theorem stageAll_short {samples : List α} (h : samples.length < resampleStagingFrames) :
    stageAll ops t samples = .ok (t, samples) := by
  rw [stageAll, Nat.div_eq_of_lt h]
  rfl

theorem stageAll_long {samples : List α} (h : resampleStagingFrames ≤ samples.length) :
    stageAll ops t samples = t.feed ops (samples.take resampleStagingFrames) >>= fun u =>
      stageAll ops u (samples.drop resampleStagingFrames) := by
  have hpos : 0 < resampleStagingFrames := by decide
  rw [stageAll, Nat.div_eq_sub_div hpos h, stageChunks]
  apply bind_congr
  intro u
  rw [stageAll, List.length_drop]

/-- Chunks depend on the samples, not on when they come. -/
theorem stageAll_append (front later : List α) :
    stageAll ops t (front ++ later) =
      stageAll ops t front >>= fun held => stageAll ops held.1 (held.2 ++ later) := by
  induction front using pieces_induction stagingFrames_pos generalizing t with
  | short front hshort =>
      rw [stageAll_short ops t hshort]
      rfl
  | long front hlong ih =>
      have hwhole : resampleStagingFrames ≤ (front ++ later).length := by
        rw [List.length_append]
        omega
      rw [stageAll_long ops t hwhole, stageAll_long ops t hlong, List.take_append_of_le_length hlong,
        List.drop_append_of_le_length hlong, bind_assoc]
      apply bind_congr
      exact fun u => ih u

theorem stageAll_restore (taken samples : List α) :
    stageAll ops (t.restore taken) samples =
      (stageAll ops t samples).map fun held => (held.1.restore taken, held.2) := by
  rw [stageAll, stageAll]
  generalize samples.length / resampleStagingFrames = n
  induction n generalizing t samples with
  | zero => rfl
  | succ n ih =>
      rw [stageChunks, stageChunks, ResampleTo16k.feed_restore]
      cases t.feed ops (samples.take resampleStagingFrames) with
      | error e => rfl
      | ok u => exact ih u _

/-- The rest after the whole chunks, and the end of the stream. -/
def finishAll (samples : List α) : Except String (List α) :=
  stageAll ops t samples >>= fun held => (held.1.push held.2).finish ops

theorem finishAll_append (front later : List α) :
    finishAll ops t (front ++ later) =
      stageAll ops t front >>= fun held => finishAll ops held.1 (held.2 ++ later) := by
  rw [finishAll, stageAll_append, bind_assoc]
  rfl

theorem finishAll_restore (taken samples : List α) :
    finishAll ops (t.restore taken) samples = (finishAll ops t samples).map (taken ++ ·) := by
  rw [finishAll, finishAll, stageAll_restore]
  cases stageAll ops t samples with
  | error e => rfl
  | ok held =>
      change ((held.1.restore taken).push held.2).finish ops =
        Except.map (taken ++ ·) ((held.1.push held.2).finish ops)
      rw [ResampleTo16k.push_restore, ResampleTo16k.finish_restore, ResampleTo16k.finish_eq]
      cases (held.1.push held.2).finishInto ops <;> rfl

end Chunks

section Opus

variable (rnd : Rounding) (ops : SampleOps α) (trackId : ℕ)

/-- The samples of all packets of the track. -/
def opusPcm : Format (List UInt8) → OpusStream codec → Budget → Except DecodeFailure (List α)
  | [], _, _ => .ok []
  | .error e :: _, _, budget =>
      if e = .unexpectedEof ∧ 0 < budget.sourceFrames then .ok []
      else .error (.failed ("Error reading packet: " ++ e.message))
  | .ok packet :: rest, stream, budget =>
      if packet.trackId ≠ trackId then opusPcm rest stream budget
      else do
        let (samples, frames, stream) ← stream.decodePacket ops packet.data
        let budget ← budget.spend rnd frames
        return samples ++ (← opusPcm rest stream budget)

/-- All that a trace gives. -/
def Trace.drained (trace : Trace α) : Except DecodeFailure (List α) :=
  trace.outcome.map (trace.blocks.flatten ++ ·)

theorem drained_cons (block : List α) (trace : Trace α) :
    Trace.drained { trace with blocks := block :: trace.blocks } =
      trace.drained.map (block ++ ·) := by
  rw [Trace.drained, Trace.drained, List.flatten_cons]
  cases trace.outcome with
  | error e => rfl
  | ok tail => exact congrArg Except.ok (List.append_assoc ..)

theorem length_rest_stageAll {t u : ResampleTo16k rubato} {samples rest : List α}
    (h : stageAll ops t samples = .ok (u, rest)) : rest.length < resampleStagingFrames := by
  induction samples using pieces_induction stagingFrames_pos generalizing t with
  | short samples hshort =>
      rw [stageAll_short ops t hshort] at h
      cases h
      exact hshort
  | long samples hlong ih =>
      rw [stageAll_long ops t hlong] at h
      obtain ⟨mid, _, h⟩ := bind_eq_ok.mp h
      exact ih h

/-- The end of an Opus stream. -/
theorem drained_end {t : ResampleTo16k rubato} {pending : List α} (stream : OpusStream codec)
    (budget : Budget) (format : Format (List UInt8))
    (hpending : pending.length < resampleStagingFrames) :
    Trace.drained { blocks := [], outcome :=
      ((Source.opus format trackId stream budget t pending).finish ops).map Prod.fst } =
        context (finishAll ops t pending) := by
  rw [Trace.drained, Source.finish, finishAll, stageAll_short ops t hpending]
  change _ = context ((t.push pending).finish ops)
  rw [ResampleTo16k.finish_eq]
  cases (t.push pending).finishInto ops <;> rfl

/-- The round of a packet of the track. -/
theorem round_opus {packet : Packet (List UInt8)} {rest : Format (List UInt8)}
    {stream stream' : OpusStream codec} {budget budget' : Budget} {samples : List α} {frames : ℕ}
    (t : ResampleTo16k rubato) (pending : List α) (htrack : packet.trackId = trackId)
    (hdecode : stream.decodePacket ops packet.data = .ok (samples, frames, stream'))
    (hspend : budget.spend rnd frames = .ok budget') :
    (Source.opus (.ok packet :: rest) trackId stream budget t pending).round rnd ops =
      (context (stageAll ops t (pending ++ samples))).map fun held =>
        (some held.1.drainReadyInto.1,
          .opus rest trackId stream' budget' held.1.drainReadyInto.2 held.2) := by
  rw [Source.round, nextDemuxPacket]
  dsimp only [bind, Except.bind, pure, Except.pure]
  rw [if_neg (not_not.mpr htrack), hdecode]
  dsimp only
  rw [hspend]
  dsimp only [stageAll]
  cases stageChunks ops ((pending ++ samples).length / resampleStagingFrames) t
    (pending ++ samples) <;> rfl

theorem drained_opus {format : Format (List UInt8)} {stream : OpusStream codec} {budget : Budget}
    {t : ResampleTo16k rubato} {pending pcm : List α}
    (hpending : pending.length < resampleStagingFrames)
    (hpcm : opusPcm rnd ops trackId format stream budget = .ok pcm) :
    ((Source.opus format trackId stream budget t pending).trace rnd ops).drained =
      context (finishAll ops t (pending ++ pcm)) := by
  induction format generalizing stream budget t pending pcm with
  | nil =>
      cases hpcm
      rw [Source.trace_eq, List.append_nil]
      exact drained_end ops trackId stream budget [] hpending
  | cons answer rest ih =>
      cases answer with
      | error e =>
          rw [opusPcm] at hpcm
          split at hpcm
          · rename_i heof
            cases hpcm
            rw [Source.trace_eq, Source.round, nextDemuxPacket, if_pos (by simpa using heof),
              List.append_nil]
            exact drained_end ops trackId stream budget rest hpending
          · cases hpcm
      | ok packet =>
          rw [opusPcm] at hpcm
          by_cases htrack : packet.trackId ≠ trackId
          · rw [if_pos htrack] at hpcm
            rw [Source.trace_eq, Source.round, nextDemuxPacket]
            dsimp only [bind, Except.bind, pure, Except.pure]
            rw [if_pos htrack]
            apply (drained_cons [] _).trans
            rw [ih hpending hpcm]
            cases context (finishAll ops t (pending ++ pcm)) <;> rfl
          · rw [if_neg htrack] at hpcm
            obtain ⟨⟨samples, frames, stream'⟩, hdecode, hpcm⟩ := bind_eq_ok.mp hpcm
            obtain ⟨budget', hspend, hpcm⟩ := bind_eq_ok.mp hpcm
            obtain ⟨more, hmore, hpcm⟩ := bind_eq_ok.mp hpcm
            cases hpcm
            rw [Source.trace_eq, round_opus rnd ops trackId t pending (not_not.mp htrack) hdecode hspend,
              ← List.append_assoc, finishAll_append]
            cases hstage : stageAll ops t (pending ++ samples) with
            | error e => rfl
            | ok held =>
                apply (drained_cons held.1.drainReadyInto.1 _).trans
                rw [ih (length_rest_stageAll ops hstage) hmore]
                have hready := ResampleTo16k.restore_drainReadyInto [] held.1
                rw [ResampleTo16k.restore_nil, List.nil_append] at hready
                change _ = context (finishAll ops held.1 (held.2 ++ more))
                rw [← hready, finishAll_restore, hready]
                cases finishAll ops held.1.drainReadyInto.2 (held.2 ++ more) <;> rfl

theorem feed_chunk {t u : ResampleTo16k rubato} {chunk : List α} (hrate : t.fromRate ≠ targetRate)
    (hchunk : resampleStagingFrames ≤ chunk.length) (h : t.feed ops chunk = .ok u) :
    u.stage = [] ∧ u.fromRate = t.fromRate := by
  have hlong : ¬(((t.push chunk).fromRate == targetRate || decide ((t.push chunk).stage.length <
      resampleStagingFrames)) = true) := by
    simp only [ResampleTo16k.push, List.length_append, Bool.or_eq_true, beq_iff_eq,
      decide_eq_true_eq, not_or]
    exact ⟨hrate, by omega⟩
  have hsome : ¬(t.push chunk).stage.isEmpty = true := by
    rw [List.isEmpty_iff_length_eq_zero, ResampleTo16k.push, List.length_append]
    rw [resampleStagingFrames] at hchunk
    omega
  rw [ResampleTo16k.feed, ResampleTo16k.flushFull, if_neg hlong, ResampleTo16k.drain,
    if_neg hsome] at h
  split at h
  · cases h
  · cases h
    exact ⟨rfl, rfl⟩

/-- The whole samples in pieces of a chunk each. -/
theorem finishAll_eq_whole {t : ResampleTo16k rubato} (hrate : t.fromRate ≠ targetRate)
    (hempty : t.stage = []) (samples : List α) :
    finishAll ops t samples = t.whole ops (pieces resampleStagingFrames samples) := by
  induction samples using pieces_induction stagingFrames_pos generalizing t with
  | short samples hshort =>
      rw [finishAll, stageAll_short ops t hshort]
      change (t.push samples).finish ops = _
      by_cases hnil : samples = []
      · rw [hnil, pieces_nil _ stagingFrames_pos, ResampleTo16k.whole, ResampleTo16k.push,
          List.append_nil]
      · have hfeed : t.feed ops samples = .ok (t.push samples) := by
          rw [ResampleTo16k.feed, ResampleTo16k.flushFull, if_pos]
          simp only [ResampleTo16k.push, hempty, List.nil_append, Bool.or_eq_true,
            decide_eq_true_eq]
          exact .inr hshort
        rw [pieces_cons stagingFrames_pos hnil, List.take_of_length_le hshort.le,
          List.drop_eq_nil_of_le hshort.le, pieces_nil _ stagingFrames_pos, ResampleTo16k.whole, hfeed]
        rfl
  | long samples hlong ih =>
      have hnil : samples ≠ [] := List.ne_nil_of_length_pos (stagingFrames_pos.trans_le hlong)
      rw [finishAll, stageAll_long ops t hlong, pieces_cons stagingFrames_pos hnil,
        ResampleTo16k.whole, bind_assoc]
      cases hfeed : t.feed ops (samples.take resampleStagingFrames) with
      | error e => rfl
      | ok u =>
          obtain ⟨hstage, hfrom⟩ := feed_chunk ops hrate
            (by rw [List.length_take, Nat.min_eq_left hlong]) hfeed
          exact ih (hfrom ▸ hrate) hstage

/-- The flat decode of an Opus file is that of its samples, put together and resampled a second at a
time: how the packets cut them makes no difference. -/
theorem opus_drained (spec : WindowSpec) {format : Format (List UInt8)} {stream : OpusStream codec}
    {budget : Budget} {pcm : List α}
    (hpcm : opusPcm rnd ops trackId format stream budget = .ok pcm) :
    (FileWindows.new (.opus format trackId stream budget (.new opusDecodeRate) [] :
        Source codec rubato) spec).drainToVec rnd ops =
      context ((.new opusDecodeRate : ResampleTo16k rubato).whole ops
        (pieces resampleStagingFrames pcm)) := by
  have hnone : ([] : List α).length < resampleStagingFrames := stagingFrames_pos
  rw [FileWindows.drainToVec_eq]
  apply (drained_opus rnd ops trackId hnone hpcm).trans
  rw [List.nil_append, finishAll_eq_whole ops (by decide : opusDecodeRate ≠ targetRate) rfl]

end Opus

section Example

def countingOps : SampleOps ℕ := { zero := 0, add := (· + ·), div := (· / ·), finite := fun _ => true }

/-- A decoder that reads each byte of a frame as a sample. -/
def byteCodec : OpusDecoder ℕ where
  State := Unit
  decode _ packet _ := .ok ((packet.drop 1).map fun b => [b.toNat], ())

/-- A resampler that keeps every third sample. -/
def thirds : Rubato ℕ where
  State := Unit
  build _ _ _ := .ok ()
  inputFramesMax _ := 100000
  process _ samples := .ok ((samples.zipIdx.filter (·.2 % 3 == 0)).map Prod.fst, ())

/-- Two packets of a mono stream, and a packet of another track between them. -/
theorem opus_drained_two :
    let stream : OpusStream byteCodec := { decoder := (), channels := 1, channel := .mono }
    let format : Format (List UInt8) :=
      [.ok ⟨7, [0, 1, 2]⟩, .ok ⟨3, [0]⟩, .ok ⟨7, [0, 3, 4, 5]⟩, .error .unexpectedEof]
    (FileWindows.new (.opus format 7 stream (.new .binary64 none opusDecodeRate)
        (.new opusDecodeRate) [] : Source byteCodec thirds) .flat).drainToVec .binary64 countingOps =
      context ((.new opusDecodeRate : ResampleTo16k thirds).whole countingOps
        (pieces resampleStagingFrames [1, 2, 3, 4, 5])) := by
  intro stream format
  have hpcm : opusPcm .binary64 countingOps 7 format stream (.new .binary64 none opusDecodeRate) =
      .ok [1, 2, 3, 4, 5] := by
    decide +kernel
  exact opus_drained .binary64 countingOps 7 .flat hpcm

end Example

end Gigastt.Files
