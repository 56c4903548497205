import Gigastt.FilePulls
import Gigastt.OpusDrain
import Mathlib.Data.List.TakeWhile

/-!
Decoding the channels of a container: each on its own and all of them whole, or one of them window by
window. Containers of the WAVE family, whose windows come from a decoder of their own, are left out.
-/

namespace Gigastt.Files

open Outcomes Slices

variable {α : Type}

def wholeBufferMaxAudioSecs : ℚ := 1800

/-- The limit of a path that holds the whole signal, which an operator can only lower. -/
def wholeBufferLimitSecs (user : Option ℚ) : ℚ :=
  match user with
  | some secs => if 0 < secs then min secs wholeBufferMaxAudioSecs else wholeBufferMaxAudioSecs
  | none => wholeBufferMaxAudioSecs

section Loop

variable {δ S T : Type}

/-- The packets of a track in turn, to the end of the stream or a break. -/
def forPackets (trackId : ℕ) (havePcm : S → Bool)
    (body : S → δ → Except DecodeFailure (ForInStep S)) : Format δ → S → Except DecodeFailure S
  | [], s => .ok s
  | answer :: rest, s => do
      match ← nextDemuxPacket (havePcm s) (answer :: rest) with
      | (none, _) => return s
      | (some packet, _) =>
          if packet.trackId ≠ trackId then forPackets trackId havePcm body rest s
          else
            match ← body s packet.data with
            | .done s => return s
            | .yield s => forPackets trackId havePcm body rest s

variable {trackId : ℕ} {havePcm : S → Bool} {body : S → δ → Except DecodeFailure (ForInStep S)}

theorem forPackets_error (e : DemuxError) (rest : Format δ) (s : S) :
    forPackets trackId havePcm body (.error e :: rest) s =
      if e = .unexpectedEof ∧ havePcm s then .ok s
      else .error (.failed ("Error reading packet: " ++ e.message)) := by
  rw [forPackets, nextDemuxPacket]
  split <;> rfl

theorem forPackets_other {packet : Packet δ} (h : packet.trackId ≠ trackId) (rest : Format δ) (s : S) :
    forPackets trackId havePcm body (.ok packet :: rest) s =
      forPackets trackId havePcm body rest s := by
  rw [forPackets]
  exact if_pos h

theorem forPackets_packet {packet : Packet δ} (h : packet.trackId = trackId) (rest : Format δ) (s : S) :
    forPackets trackId havePcm body (.ok packet :: rest) s =
      body s packet.data >>= fun step =>
        match step with
        | .done s => .ok s
        | .yield s => forPackets trackId havePcm body rest s := by
  rw [forPackets]
  exact if_neg (not_not.mpr h)

/-- A loop whose steps follow those of another that does not break. -/
theorem forPackets_sim {havePcm' : T → Bool} {body' : T → δ → Except DecodeFailure (ForInStep T)}
    {R : S → T → Prop} (hpcm : ∀ s t, R s t → havePcm' t = havePcm s) {format : Format δ}
    (hbody : ∀ packet, .ok packet ∈ format → packet.trackId = trackId → ∀ s t step, R s t →
      body s packet.data = .ok step →
        ∃ s' t', step = .yield s' ∧ body' t packet.data = .ok (.yield t') ∧ R s' t') {s s' : S} {t : T}
    (hrun : forPackets trackId havePcm body format s = .ok s')
    (h : R s t) : ∃ t', forPackets trackId havePcm' body' format t = .ok t' ∧ R s' t' := by
  induction format generalizing s t with
  | nil =>
      cases hrun
      exact ⟨t, rfl, h⟩
  | cons answer rest ih =>
      have hlater := fun packet hmem => hbody packet (List.mem_cons_of_mem answer hmem)
      cases answer with
      | error e =>
          rw [forPackets_error] at hrun
          rw [forPackets_error, hpcm s t h]
          split at hrun
          · rename_i heof
            cases hrun
            exact ⟨t, if_pos heof, h⟩
          · cases hrun
      | ok packet =>
          by_cases htrack : packet.trackId = trackId
          · rw [forPackets_packet htrack] at hrun
            obtain ⟨step, hstep, hrun⟩ := bind_eq_ok.mp hrun
            obtain ⟨s₁, t₁, rfl, hstep', h₁⟩ :=
              hbody packet List.mem_cons_self htrack s t step h hstep
            obtain ⟨t', hrest, h'⟩ := ih hlater hrun h₁
            refine ⟨t', ?_, h'⟩
            rw [forPackets_packet htrack, hstep']
            exact hrest
          · rw [forPackets_other htrack] at hrun
            rw [forPackets_other htrack]
            exact ih hlater hrun h

/-- The answers before the first packet of the track that breaks the loop. -/
def beforeBreak (trackId : ℕ) (goesOn : δ → Bool) (format : Format δ) : Format δ :=
  format.takeWhile fun answer =>
    match answer with
    | .ok packet => packet.trackId != trackId || goesOn packet.data
    | .error _ => true

theorem goesOn_of_mem {goesOn : δ → Bool} {format : Format δ} {packet : Packet δ}
    (hmem : .ok packet ∈ beforeBreak trackId goesOn format) (htrack : packet.trackId = trackId) :
    goesOn packet.data = true := by
  have hkept := List.mem_takeWhile_imp hmem
  simpa [htrack] using hkept

/-- A break that changes nothing is an early end of the stream. -/
theorem forPackets_beforeBreak {goesOn : δ → Bool}
    (hbreak : ∀ s data, goesOn data = false → body s data = .ok (.done s)) (format : Format δ) (s : S) :
    forPackets trackId havePcm body format s =
      forPackets trackId havePcm body (beforeBreak trackId goesOn format) s := by
  induction format generalizing s with
  | nil => rfl
  | cons answer rest ih =>
      cases answer with
      | error e =>
          rw [beforeBreak, List.takeWhile_cons, if_pos rfl, forPackets_error, forPackets_error]
      | ok packet =>
          by_cases htrack : packet.trackId = trackId
          · cases hgoes : goesOn packet.data with
            | true =>
                rw [beforeBreak, List.takeWhile_cons, if_pos (by simp [hgoes]),
                  forPackets_packet htrack, forPackets_packet htrack]
                apply bind_congr
                intro step
                cases step with
                | done s => rfl
                | yield s => exact ih s
            | false =>
                rw [beforeBreak, List.takeWhile_cons,
                  if_neg (by simp [htrack, hgoes]), forPackets_packet htrack, hbreak s _ hgoes]
                rfl
          · rw [beforeBreak, List.takeWhile_cons, if_pos (by simp [htrack]), forPackets_other htrack,
              forPackets_other htrack]
            exact ih s

end Loop

section Track

variable {codec : OpusDecoder α} {rubato : Rubato α}

variable (codec) in
/-- What the demuxer answers for a container: packets its own codec has decoded, or Opus packets with
the state of a fresh decoder. -/
inductive TrackPackets where
  | decoded (format : Format (Except String (Decoded α)))
  | opus (decoder : codec.State) (format : Format (List UInt8))

variable (codec) in
/-- The default audio track, as the probe reports it. -/
structure AudioTrack where
  trackId : ℕ
  sampleRate : ℕ
  channels : ℕ
  packets : TrackPackets codec

def checkOpusChannels (channels : ℕ) : Except DecodeFailure Unit :=
  if channels = 1 ∨ channels = 2 then .ok ()
  else .error (.failed ("Opus with " ++ toString channels ++
    " channels is not supported (mono/stereo only)"))

namespace AudioTrack

/-- The rate of what the decoder gives, whatever rate an Opus container declares. -/
def pcmRate (track : AudioTrack codec) : ℕ :=
  match track.packets with
  | .decoded _ => track.sampleRate
  | .opus _ _ => opusDecodeRate

variable (rnd : Rounding)

/-- The engine behind the windows over one channel or the mix. -/
def source (track : AudioTrack codec) (maxAudioSecs : Option ℚ) (channel : ChannelSelect) :
    Except DecodeFailure (Source codec rubato) :=
  match track.packets with
  | .decoded format =>
      .ok (.streaming format track.trackId channel (.new rnd maxAudioSecs track.sampleRate)
        (.new track.sampleRate))
  | .opus decoder format => do
      checkOpusChannels track.channels
      return .opus format track.trackId { decoder, channels := track.channels, channel }
        (.new rnd maxAudioSecs opusDecodeRate) (.new opusDecodeRate) []

end AudioTrack

/-- An accumulator for each channel. -/
structure ChannelsDecode (rubato : Rubato α) where
  acc : List (ResampleTo16k rubato)
  budget : Budget

/-- An accumulator for each channel of an Opus file, at the rate of the decoder. -/
structure OpusChannels (codec : OpusDecoder α) where
  decoder : codec.State
  perChannel : List (List α)

section

variable (rnd : Rounding) (ops : SampleOps α)

/-- A channel that appears in the middle of a stream gets an accumulator there. -/
def ChannelsDecode.resized (s : ChannelsDecode rubato) (channels : ℕ) : List (ResampleTo16k rubato) :=
  s.acc ++ List.replicate (channels - s.acc.length) (.new s.budget.sampleRate)

/-- A channel that a packet does not have keeps its accumulator as it is. -/
def ChannelsDecode.packet (s : ChannelsDecode rubato) :
    Except String (Decoded α) → Except DecodeFailure (ForInStep (ChannelsDecode rubato))
  | .error e => .error (.failed ("Decode error: " ++ e))
  | .ok decoded => do
      let acc := s.resized decoded.channels
      let staged := acc.mapIdx fun c chan => chan.push (decoded.select ops (.one c))
      let budget ← (if acc.isEmpty then .ok s.budget else s.budget.spend rnd decoded.frames.length)
      let acc ← staged.mapM fun chan => context (chan.flushFull ops)
      return .yield { acc, budget }

/-- The samples of each channel of a packet, and how many there are against the budget. -/
def OpusChannels.packet (budget : Budget) (s : OpusChannels codec) (data : List UInt8) :
    Except DecodeFailure (ForInStep (OpusChannels codec)) := do
  let (frames, decoder) ← decodePacketInterleaved codec data s.decoder
  let perChannel := s.perChannel.mapIdx fun c buf =>
    buf ++ frames.map fun frame => frame.getD c ops.zero
  let decodedLen := (perChannel.headD []).length
  if budget.maxSamples < decodedLen then
    .error (audioTooLongErr rnd decodedLen opusDecodeRate budget.limitSecs)
  else return .yield { decoder, perChannel }

def decodeOpusChannels (format : Format (List UInt8)) (trackId channels : ℕ) (decoder : codec.State)
    (budget : Budget) : Except DecodeFailure (List (List α)) := do
  checkOpusChannels channels
  let decoded ← forPackets trackId (fun s => !(s.perChannel.headD []).isEmpty)
    (OpusChannels.packet rnd ops budget) format
    { decoder, perChannel := List.replicate channels [] }
  return decoded.perChannel

/-- All channels of a container at 16 kHz, each from an accumulator of its own. -/
def AudioTrack.decodeChannels (rubato : Rubato α) (track : AudioTrack codec)
    (maxAudioSecs : Option ℚ) : Except DecodeFailure (List (List α)) := do
  let budget := Budget.new rnd (some (wholeBufferLimitSecs maxAudioSecs)) track.pcmRate
  let acc : List (ResampleTo16k rubato) ← (match track.packets with
    | .opus decoder format => do
        let decoded ← decodeOpusChannels rnd ops format track.trackId track.channels decoder budget
        decoded.mapM fun samples => context ((pieces resampleStagingFrames samples).foldlM
          (fun t piece => t.feed ops piece) (.new opusDecodeRate))
    | .decoded format =>
        (forPackets track.trackId (fun s => decide (0 < s.budget.sourceFrames))
          (ChannelsDecode.packet rnd ops) format
          { acc := List.replicate track.channels (.new track.sampleRate), budget }).map
            ChannelsDecode.acc)
  acc.mapM fun chan => context (chan.finish ops)

end

section Streaming

variable (rnd : Rounding) (ops : SampleOps α) (trackId : ℕ) (channel : ChannelSelect)

/-- The accumulator of one channel or of the mix. -/
structure ChannelDecode (rubato : Rubato α) where
  resampler : ResampleTo16k rubato
  budget : Budget

def ChannelDecode.packet (s : ChannelDecode rubato) :
    Except String (Decoded α) → Except DecodeFailure (ForInStep (ChannelDecode rubato))
  | .error e => .error (.failed ("Decode error: " ++ e))
  | .ok decoded => do
      let budget ← s.budget.spend rnd decoded.frames.length
      let resampler ← context (s.resampler.feed ops (decoded.select ops channel))
      return .yield { resampler, budget }

/-- All packets, with nothing taken out before the end. -/
def ChannelDecode.run (format : Format (Except String (Decoded α))) (s : ChannelDecode rubato) :
    Except DecodeFailure (List α) :=
  forPackets trackId (fun s => decide (0 < s.budget.sourceFrames))
    (ChannelDecode.packet rnd ops channel) format s >>= fun s => context (s.resampler.finish ops)

theorem run_restore (format : Format (Except String (Decoded α))) (taken : List α)
    (t : ResampleTo16k rubato) (budget : Budget) :
    ChannelDecode.run rnd ops trackId channel format { resampler := t.restore taken, budget } =
      (ChannelDecode.run rnd ops trackId channel format { resampler := t, budget }).map (taken ++ ·) := by
  rw [ChannelDecode.run, ChannelDecode.run]
  induction format generalizing t budget with
  | nil =>
      change context ((t.restore taken).finish ops) = (context (t.finish ops)).map (taken ++ ·)
      rw [ResampleTo16k.finish_restore, ResampleTo16k.finish_eq]
      cases t.finishInto ops <;> rfl
  | cons answer rest ih =>
      cases answer with
      | error e =>
          rw [forPackets_error, forPackets_error]
          dsimp only
          split
          · change context ((t.restore taken).finish ops) = (context (t.finish ops)).map (taken ++ ·)
            rw [ResampleTo16k.finish_restore, ResampleTo16k.finish_eq]
            cases t.finishInto ops <;> rfl
          · rfl
      | ok packet =>
          by_cases htrack : packet.trackId = trackId
          · rw [forPackets_packet htrack, forPackets_packet htrack]
            cases packet.data with
            | error e => rfl
            | ok decoded =>
                rw [ChannelDecode.packet, ChannelDecode.packet]
                dsimp only
                cases budget.spend rnd decoded.frames.length with
                | error e => rfl
                | ok budget =>
                    dsimp only [bind, Except.bind]
                    rw [ResampleTo16k.feed_restore]
                    cases t.feed ops (decoded.select ops channel) with
                    | error e => rfl
                    | ok u => exact ih u budget
          · rw [forPackets_other htrack, forPackets_other htrack]
            exact ih t budget

theorem drained_finish (format : Format (Except String (Decoded α))) (t : ResampleTo16k rubato)
    (budget : Budget) :
    let ended : Source codec rubato := .streaming format trackId channel budget t
    Trace.drained { blocks := [], outcome := (ended.finish ops).map Prod.fst } =
      context (t.finish ops) := by
  intro ended
  rw [Trace.drained, Source.finish, ResampleTo16k.finish_eq]
  cases t.finishInto ops <;> rfl

/-- What the windows over a channel are cut from, in one go. -/
theorem drained_streaming (format : Format (Except String (Decoded α))) (t : ResampleTo16k rubato)
    (budget : Budget) :
    ((Source.streaming format trackId channel budget t : Source codec rubato).trace rnd ops).drained =
      ChannelDecode.run rnd ops trackId channel format { resampler := t, budget } := by
  induction format generalizing t budget with
  | nil =>
      rw [Source.trace_eq]
      exact drained_finish ops trackId channel [] t budget
  | cons answer rest ih =>
      rw [Source.trace_eq, Source.round, ChannelDecode.run]
      cases answer with
      | error e =>
          rw [forPackets_error, nextDemuxPacket]
          by_cases heof : e = .unexpectedEof ∧ decide (0 < budget.sourceFrames) = true
          · rw [if_pos heof, if_pos heof]
            exact drained_finish ops trackId channel rest t budget
          · rw [if_neg heof, if_neg heof]
            rfl
      | ok packet =>
          rw [nextDemuxPacket]
          dsimp only [bind, Except.bind, pure, Except.pure]
          by_cases htrack : packet.trackId = trackId
          · rw [if_neg (not_not.mpr htrack), forPackets_packet htrack]
            cases packet.data with
            | error e => rfl
            | ok decoded =>
                rw [ChannelDecode.packet]
                dsimp only
                cases budget.spend rnd decoded.frames.length with
                | error e => rfl
                | ok budget =>
                    dsimp only [bind, Except.bind]
                    cases t.feed ops (decoded.select ops channel) with
                    | error e => rfl
                    | ok u =>
                        apply (drained_cons u.drainReadyInto.1 _).trans
                        rw [ih, ← run_restore]
                        have hready := ResampleTo16k.restore_drainReadyInto [] u
                        rw [ResampleTo16k.restore_nil, List.nil_append] at hready
                        rw [hready]
                        rfl
          · rw [if_pos htrack, forPackets_other htrack]
            apply (drained_cons [] _).trans
            rw [ih]
            change _ = ChannelDecode.run rnd ops trackId channel rest { resampler := t, budget }
            cases ChannelDecode.run rnd ops trackId channel rest { resampler := t, budget } <;> rfl

end Streaming

section Channels

variable {rnd : Rounding} {ops : SampleOps α}

/-- One accumulator of all, under a budget that is no smaller. -/
structure Follows (k : ℕ) (s : ChannelsDecode rubato) (t : ChannelDecode rubato) : Prop where
  resampler : s.acc[k]? = some t.resampler
  spent : t.budget.sourceFrames = s.budget.sourceFrames
  within : s.budget.maxSamples ≤ t.budget.maxSamples

theorem spend_eq_ok {b b' : Budget} {frames : ℕ} (h : b.spend rnd frames = .ok b') :
    b.sourceFrames + frames ≤ b.maxSamples ∧ b' = { b with sourceFrames := b.sourceFrames + frames } := by
  rw [Budget.spend] at h
  split at h
  · cases h
  · cases h
    exact ⟨Nat.not_lt.mp ‹_›, rfl⟩

variable (rnd) in
theorem spend_of_le {b : Budget} {frames : ℕ} (h : b.sourceFrames + frames ≤ b.maxSamples) :
    b.spend rnd frames = .ok { b with sourceFrames := b.sourceFrames + frames } := by
  rw [Budget.spend, if_neg (Nat.not_lt.mpr h)]

theorem context_eq_ok {β : Type} {x : Except String β} {b : β} : context x = .ok b ↔ x = .ok b := by
  cases x with
  | error e => exact ⟨fun h => (by cases h), fun h => (by cases h)⟩
  | ok a => exact ⟨fun h => (by cases h; rfl), fun h => (by cases h; rfl)⟩

/-- What a packet does to one of the accumulators. -/
theorem packet_channel {k : ℕ} {s : ChannelsDecode rubato} {t : ResampleTo16k rubato}
    {decoded : Decoded α} {step : ForInStep (ChannelsDecode rubato)} (hk : s.acc[k]? = some t)
    (hstep : s.packet rnd ops (.ok decoded) = .ok step) : ∃ acc u,
      step = .yield ⟨acc, { s.budget with
        sourceFrames := s.budget.sourceFrames + decoded.frames.length }⟩ ∧
      s.budget.sourceFrames + decoded.frames.length ≤ s.budget.maxSamples ∧
      context ((t.push (decoded.select ops (.one k))).flushFull ops) = .ok u ∧ acc[k]? = some u := by
  rw [ChannelsDecode.packet] at hstep
  obtain ⟨budget, hbudget, hstep⟩ := bind_eq_ok.mp hstep
  obtain ⟨acc, hacc, hstep⟩ := bind_eq_ok.mp hstep
  cases hstep
  have hold : (s.resized decoded.channels)[k]? = some t := by
    rw [ChannelsDecode.resized, List.getElem?_append_left (List.getElem?_eq_some_iff.mp hk).1]
    exact hk
  have hsome : ¬(s.resized decoded.channels).isEmpty = true := by
    intro hempty
    rw [List.isEmpty_iff.mp hempty] at hold
    cases hold
  rw [if_neg hsome] at hbudget
  obtain ⟨hfits, rfl⟩ := spend_eq_ok hbudget
  have hstaged : ((s.resized decoded.channels).mapIdx fun c chan =>
      chan.push (decoded.select ops (.one c)))[k]? =
      some (t.push (decoded.select ops (.one k))) := by
    rw [List.getElem?_mapIdx, hold, Option.map_some]
  obtain ⟨u, hflush, hu⟩ := getElem?_of_mapM hacc hstaged
  exact ⟨acc, u, rfl, hfits, hflush, hu⟩

theorem Follows.packet {k : ℕ} {s : ChannelsDecode rubato} {t : ChannelDecode rubato}
    {data : Except String (Decoded α)} {step : ForInStep (ChannelsDecode rubato)}
    (h : Follows k s t) (hstep : s.packet rnd ops data = .ok step) :
    ∃ s' t', step = .yield s' ∧ t.packet rnd ops (.one k) data = .ok (.yield t') ∧
      Follows k s' t' := by
  cases data with
  | error e => cases hstep
  | ok decoded =>
      obtain ⟨acc, u, rfl, hfits, hflush, hu⟩ := packet_channel h.resampler hstep
      have hspend := spend_of_le rnd ((h.spent ▸ hfits).trans h.within)
      refine ⟨_, ⟨u, { t.budget with sourceFrames := t.budget.sourceFrames + decoded.frames.length }⟩,
        rfl, ?_, ⟨hu, ?_, h.within⟩⟩
      · rw [ChannelDecode.packet, hspend]
        exact bind_eq_ok.mpr ⟨_, rfl, bind_eq_ok.mpr ⟨u, hflush, rfl⟩⟩
      · dsimp only
        rw [h.spent]

theorem maxSamples_whole_le (rnd : Rounding) (maxAudioSecs : Option ℚ) (sampleRate : ℕ) :
    (Budget.new rnd (some (wholeBufferLimitSecs maxAudioSecs)) sampleRate).maxSamples ≤
      (Budget.new rnd maxAudioSecs sampleRate).maxSamples := by
  have hcap : ∀ limit, maxSamplesForSecs rnd limit sampleRate ≤ usizeMax := by
    intro limit
    cases limit with
    | none => exact Nat.le_refl _
    | some secs =>
        rw [maxSamplesForSecs]
        split
        · exact Nat.min_le_right _ _
        · exact Nat.le_refl _
  rw [Budget.new, Budget.new, resolveBudget, resolveBudget]
  dsimp only
  cases maxAudioSecs with
  | none => exact hcap _
  | some secs =>
      by_cases hpos : 0 < secs
      · have hwhole : 0 < min secs wholeBufferMaxAudioSecs := lt_min hpos (by decide)
        have hmul : rnd.mul (min secs wholeBufferMaxAudioSecs) sampleRate ≤ rnd.mul secs sampleRate :=
          rnd.monotone (mul_le_mul_of_nonneg_right (min_le_left _ _) (Nat.cast_nonneg _))
        rw [wholeBufferLimitSecs, if_pos hpos, maxSamplesForSecs, if_pos hwhole, maxSamplesForSecs,
          if_pos hpos]
        exact min_le_min_right _ (Nat.floor_le_floor hmul)
      · refine (hcap _).trans (Nat.le_of_eq ?_)
        rw [maxSamplesForSecs, if_neg hpos]

/-- A channel of an Opus file, packet by packet. -/
theorem opusPcm_of_channels {trackId channels k : ℕ} (hk : k < channels) {limits budget : Budget}
    (hwithin : limits.maxSamples ≤ budget.maxSamples) {format : Format (List UInt8)}
    {s s' : OpusChannels codec} {pcm : List α}
    (hrun : forPackets trackId (fun s => !(s.perChannel.headD []).isEmpty)
      (OpusChannels.packet rnd ops limits) format s = .ok s')
    (hpcm : s.perChannel[k]? = some pcm)
    (hspent : budget.sourceFrames = (s.perChannel.headD []).length) :
    ∃ more, opusPcm rnd ops trackId format { decoder := s.decoder, channels, channel := .one k } budget =
        .ok more ∧ s'.perChannel[k]? = some (pcm ++ more) := by
  induction format generalizing s budget pcm with
  | nil =>
      cases hrun
      exact ⟨[], rfl, by rw [List.append_nil]; exact hpcm⟩
  | cons answer rest ih =>
      cases answer with
      | error e =>
          rw [forPackets_error] at hrun
          split at hrun
          · rename_i heof
            cases hrun
            refine ⟨[], ?_, by rw [List.append_nil]; exact hpcm⟩
            rw [opusPcm, if_pos]
            refine ⟨heof.1, ?_⟩
            rw [hspent]
            exact List.length_pos_iff.mpr (by simpa using heof.2)
          · cases hrun
      | ok packet =>
          by_cases htrack : packet.trackId = trackId
          · rw [forPackets_packet htrack, OpusChannels.packet] at hrun
            obtain ⟨step, hstep, hrun⟩ := bind_eq_ok.mp hrun
            obtain ⟨⟨frames, decoder⟩, hdecode, hstep⟩ := bind_eq_ok.mp hstep
            dsimp only at hstep
            split at hstep
            · cases hstep
            · rename_i hfits
              cases hstep
              have hhead : (s.perChannel.mapIdx fun c buf =>
                  buf ++ frames.map fun frame => frame.getD c ops.zero).headD [] =
                  s.perChannel.headD [] ++ frames.map fun frame => frame.getD 0 ops.zero := by
                cases hall : s.perChannel with
                | nil =>
                    rw [hall] at hpcm
                    cases hpcm
                | cons first others =>
                    rw [List.mapIdx_cons]
                    rfl
              have hpcm' : (s.perChannel.mapIdx fun c buf =>
                  buf ++ frames.map fun frame => frame.getD c ops.zero)[k]? =
                  some (pcm ++ frames.map fun frame => frame.getD k ops.zero) := by
                rw [List.getElem?_mapIdx, hpcm, Option.map_some]
              rw [hhead, List.length_append, List.length_map, ← hspent] at hfits
              have hspent' : budget.sourceFrames + frames.length = ((s.perChannel.mapIdx fun c buf =>
                  buf ++ frames.map fun frame => frame.getD c ops.zero).headD []).length := by
                rw [hhead, List.length_append, List.length_map, hspent]
              obtain ⟨more, hmore, hk'⟩ := @ih
                { budget with sourceFrames := budget.sourceFrames + frames.length }
                hwithin _ _ hrun hpcm' hspent'
              refine ⟨(frames.map fun frame => frame.getD k ops.zero) ++ more, ?_, ?_⟩
              · rw [opusPcm, if_neg (not_not.mpr htrack), OpusStream.decodePacket, hdecode]
                have hspend := spend_of_le rnd ((Nat.not_lt.mp hfits).trans hwithin)
                refine bind_eq_ok.mpr ⟨_, rfl, bind_eq_ok.mpr ⟨_, hspend, bind_eq_ok.mpr
                  ⟨more, hmore, ?_⟩⟩⟩
                dsimp only
                rw [if_pos hk]
                rfl
              · rw [hk', List.append_assoc]
          · rw [forPackets_other htrack] at hrun
            rw [opusPcm, if_pos htrack]
            exact ih hwithin hrun hpcm hspent

theorem foldlM_feed (t : ResampleTo16k rubato) (packets : List (List α)) :
    (packets.foldlM (fun t piece => t.feed ops piece) t >>= fun t => t.finish ops) =
      t.whole ops packets := by
  induction packets generalizing t with
  | nil => rfl
  | cons packet rest ih =>
      rw [List.foldlM_cons, ResampleTo16k.whole, bind_assoc]
      apply bind_congr
      exact ih

variable (rnd ops) in
/-- A channel of a container by itself is that channel of all of them. -/
theorem channel_drained {track : AudioTrack codec} {maxAudioSecs : Option ℚ} {chans : List (List α)}
    (hdecoded : track.decodeChannels rnd ops rubato maxAudioSecs = .ok chans) {k : ℕ}
    (hk : k < track.channels) : ∃ (src : Source codec rubato) (signal : List α),
      track.source rnd maxAudioSecs (.one k) = .ok src ∧ chans[k]? = some signal ∧
      (FileWindows.new src .flat).drainToVec rnd ops = .ok signal := by
  obtain ⟨trackId, sampleRate, channels, packets⟩ := track
  have hwithin := fun rate => maxSamples_whole_le rnd maxAudioSecs rate
  cases packets with
  | decoded format =>
      obtain ⟨acc, hacc, hfinish⟩ := bind_eq_ok.mp hdecoded
      obtain ⟨last, hrun, rfl⟩ := map_eq_ok.mp hacc
      have hstart : Follows k
          ⟨List.replicate channels (.new sampleRate),
            .new rnd (some (wholeBufferLimitSecs maxAudioSecs)) sampleRate⟩
          (⟨.new sampleRate, .new rnd maxAudioSecs sampleRate⟩ : ChannelDecode rubato) :=
        ⟨by rw [List.getElem?_replicate, if_pos hk], rfl, hwithin sampleRate⟩
      have hsim : ∃ t, forPackets trackId (fun t => decide (0 < t.budget.sourceFrames))
          (ChannelDecode.packet rnd ops (.one k)) format
          ⟨.new sampleRate, .new rnd maxAudioSecs sampleRate⟩ = .ok t ∧ Follows k last t :=
        forPackets_sim (fun s t h => congrArg (fun n => decide (0 < n)) h.spent)
          (fun packet _ _ s t step h hstep => h.packet hstep) hrun hstart
      obtain ⟨t, ht, hfollows⟩ := hsim
      obtain ⟨signal, hsignal, hchan⟩ := getElem?_of_mapM hfinish hfollows.resampler
      refine ⟨_, signal, rfl, hchan, ?_⟩
      rw [FileWindows.drainToVec_eq]
      apply (drained_streaming rnd ops trackId (.one k) format _ _).trans
      exact bind_eq_ok.mpr ⟨t, ht, hsignal⟩
  | opus decoder format =>
      obtain ⟨acc, hacc, hfinish⟩ := bind_eq_ok.mp hdecoded
      obtain ⟨decoded, hopus, hstaged⟩ := bind_eq_ok.mp hacc
      obtain ⟨_, hcheck, hopus⟩ := bind_eq_ok.mp hopus
      obtain ⟨last, hrun, hopus⟩ := bind_eq_ok.mp hopus
      cases hopus
      have hempty : (List.replicate channels ([] : List α))[k]? = some [] := by
        rw [List.getElem?_replicate, if_pos hk]
      obtain ⟨pcm, hpcm, hlast⟩ := opusPcm_of_channels hk (hwithin opusDecodeRate) hrun hempty
        (by cases channels <;> rfl)
      obtain ⟨t, ht, hacc'⟩ := getElem?_of_mapM hstaged hlast
      obtain ⟨signal, hsignal, hchan⟩ := getElem?_of_mapM hfinish hacc'
      refine ⟨_, signal, bind_eq_ok.mpr ⟨_, hcheck, rfl⟩, hchan, ?_⟩
      rw [FileWindows.drainToVec_eq]
      have hnone : ([] : List α).length < resampleStagingFrames := stagingFrames_pos
      have hdrained := drained_opus rnd ops trackId
        (t := (.new opusDecodeRate : ResampleTo16k rubato)) hnone hpcm
      apply hdrained.trans
      rw [List.nil_append, finishAll_eq_whole ops (by decide : opusDecodeRate ≠ targetRate) rfl,
        ← foldlM_feed, context_eq_ok]
      exact bind_eq_ok.mpr ⟨t, context_eq_ok.mp ht, context_eq_ok.mp hsignal⟩

end Channels

end Track

end Gigastt.Files
