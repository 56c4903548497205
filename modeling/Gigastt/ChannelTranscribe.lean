import Gigastt.ChannelScan
import Gigastt.FileTranscribe

/-!
The transcription of the channels of a recording, each as a speaker: from their signals, or window by
window from the container once for each channel.
-/

namespace Gigastt

section Merge

theorem chronological_trans (a b c : WordInfo) (hab : chronological a b = true)
    (hbc : chronological b c = true) : chronological a c = true := by
  simp only [chronological, Bool.or_eq_true, Bool.and_eq_true, decide_eq_true_eq] at hab hbc ⊢
  rcases hab with hab | ⟨hab, hspeakers⟩
  · rcases hbc with hbc | ⟨hbc, _⟩
    · exact .inl (hab.trans hbc)
    · exact .inl (hbc ▸ hab)
  · rcases hbc with hbc | ⟨hbc, hspeakers'⟩
    · exact .inl (hab ▸ hbc)
    · refine .inr ⟨hab.trans hbc, ?_⟩
      cases ha : a.speaker <;> cases hb : b.speaker <;> cases hc : c.speaker <;> simp_all
      omega

theorem chronological_total (a b : WordInfo) : (chronological a b || chronological b a) = true := by
  simp only [chronological, Bool.or_eq_true, Bool.and_eq_true, decide_eq_true_eq]
  rcases lt_trichotomy a.start b.start with hlt | heq | hlt
  · exact .inl (.inl hlt)
  · cases ha : a.speaker <;> cases hb : b.speaker <;> simp [heq, Nat.le_total]
  · exact .inr (.inl hlt)

/-- Sorting leaves a part that is in order as it is. -/
theorem filter_mergeSort {β : Type} {le : β → β → Bool}
    (trans : ∀ a b c, le a b = true → le b c = true → le a c = true)
    (total : ∀ a b, (le a b || le b a) = true) {l : List β} {p : β → Bool}
    (hsorted : (l.filter p).Pairwise fun a b => le a b = true) :
    (l.mergeSort le).filter p = l.filter p := by
  have hsub := (List.sublist_mergeSort trans total hsorted List.filter_sublist).filter p
  simp only [List.filter_filter, Bool.and_self] at hsub
  exact (hsub.eq_of_length ((List.mergeSort_perm l le).filter p).length_eq.symm).symm

/-- The words of a channel with its number for a speaker. -/
def ofChannel (k : ℕ) (words : List WordInfo) : List WordInfo :=
  words.map fun w => { w with speaker := some k }

/-- The words of all channels one after another, the first of them channel `n`. -/
def ofChannels (n : ℕ) (channels : List (List WordInfo)) : List WordInfo :=
  (channels.zipIdx n).flatMap fun r => ofChannel r.2 r.1

theorem filter_ofChannel (k n : ℕ) (words : List WordInfo) :
    (ofChannel n words).filter (fun w => decide (w.speaker = some k)) =
      if n = k then ofChannel n words else [] := by
  split
  · rename_i h
    apply List.filter_eq_self.mpr
    simp [ofChannel, h]
  · rename_i h
    apply List.filter_eq_nil_iff.mpr
    simp [ofChannel, h]

theorem filter_ofChannels {k : ℕ} {channels : List (List WordInfo)} {words : List WordInfo} (n : ℕ)
    (hk : channels[k]? = some words) :
    (ofChannels n channels).filter (fun w => decide (w.speaker = some (n + k))) =
      ofChannel (n + k) words := by
  induction channels generalizing n k with
  | nil => cases hk
  | cons first rest ih =>
      rw [ofChannels, List.zipIdx_cons, List.flatMap_cons, List.filter_append, filter_ofChannel]
      cases k with
      | zero =>
          cases hk
          have hlater : (ofChannels (n + 1) rest).filter (fun w => decide (w.speaker = some n)) = [] := by
            apply List.filter_eq_nil_iff.mpr
            intro w hw
            obtain ⟨r, hr, hw⟩ := List.mem_flatMap.mp hw
            obtain ⟨v, _, rfl⟩ := List.mem_map.mp hw
            have hlt := List.le_snd_of_mem_zipIdx hr
            simp only [decide_eq_true_eq, Option.some.injEq]
            omega
          rw [if_pos (Nat.add_zero n).symm]
          exact (congrArg (ofChannel n words ++ ·) hlater).trans (List.append_nil _)
      | succ k =>
          have hlater := ih (n + 1) hk
          rw [Nat.add_right_comm] at hlater
          rw [if_neg (by omega), List.nil_append]
          exact hlater

theorem words_mergeChannelResults (rnd rnd32 : Rounding) (perChannel : List TranscribeResult) :
    (mergeChannelResults rnd rnd32 perChannel).words =
      (ofChannels 0 (perChannel.map TranscribeResult.words)).mergeSort chronological := by
  rw [ofChannels, List.zipIdx_map, List.flatMap_map]
  rfl

end Merge

namespace Files.FileEngine

open Outcomes

variable {α P σ ε : Type} {codec : OpusDecoder α} {rubato : Rubato α}

section

variable (rnd rnd32 : Rounding)

/-- What a channel adds to the merge. -/
def channelResult (words : List WordInfo) (samples : ℕ) : TranscribeResult where
  text := []
  words
  durationS := secondsOf rnd samples
  confidence := aggregateConfidence rnd rnd32 words

variable (tables : CharTables) (engine : FileEngine α P σ ε)

/-- The channels merged, with the text of the whole. -/
def finishChannels (perChannel : List TranscribeResult) (overrides : TranscribeOverrides) :
    TranscribeResult :=
  let merged := mergeChannelResults rnd rnd32 perChannel
  engine.finishTranscribeResult rnd rnd32 merged.words merged.durationS overrides

/-- The channels from `k` on, up to the first that fails. -/
def channelWords [LE P] [DecidableLE P] (checkout : ℕ → Option ℕ) (overrides : TranscribeOverrides) :
    ℕ → List (List α) → Except GigasttError (List TranscribeResult)
  | _, [] => .ok []
  | k, samples :: rest => do
      let words ← engine.decodeWordsForSamples rnd tables (checkout k) samples overrides
      let later ← channelWords checkout overrides (k + 1) rest
      return channelResult rnd rnd32 words samples.length :: later

def transcribeChannelsInner [LE P] [DecidableLE P] (checkout : ℕ → Option ℕ) (channels : List (List α))
    (overrides : TranscribeOverrides) : Except GigasttError TranscribeResult :=
  if channels.isEmpty then .ok { text := [], words := [], durationS := 0, confidence := none }
  else do
    let perChannel ← engine.channelWords rnd rnd32 tables checkout overrides 0 channels
    return engine.finishChannels rnd rnd32 perChannel overrides

variable (ops : SampleOps α) (decodeError : DecodeFailure → GigasttError) (rubato)

/-- Channel `k` by windows from the container. -/
def streamChannel (rounds : ℕ) (checkout : Option ℕ) (track : AudioTrack codec)
    (maxAudioSecs : Option ℚ) (k : ℕ) : Option (Except GigasttError TranscribeResult) :=
  match track.source rnd maxAudioSecs (.one k) with
  | .error e => some (.error (decodeError e))
  | .ok (src : Source codec rubato) =>
      (engine.streamWords rnd tables ops decodeError rounds checkout
        (.new src (windowSpec engine.aneEncoder))).map fun decoded => do
          let (words, total) ← decoded
          return channelResult rnd rnd32 words total

/-- The channels from `k` on, up to the first that fails. -/
def channelStreams (rounds : ℕ) (checkout : ℕ → Option ℕ) (track : AudioTrack codec)
    (maxAudioSecs : Option ℚ) : ℕ → ℕ → Option (Except GigasttError (List TranscribeResult))
  | _, 0 => some (.ok [])
  | k, n + 1 =>
      match engine.streamChannel rubato rnd rnd32 tables ops decodeError rounds (checkout k) track
        maxAudioSecs k with
      | none => none
      | some (.error e) => some (.error e)
      | some (.ok result) =>
          (channelStreams rounds checkout track maxAudioSecs (k + 1) n).map fun later => do
            return result :: (← later)

def transcribeChannelStreams (rounds : ℕ) (checkout : ℕ → Option ℕ) (track : AudioTrack codec)
    (channels : ℕ) (maxAudioSecs : Option ℚ) (overrides : TranscribeOverrides) :
    Option (Except GigasttError TranscribeResult) :=
  (engine.channelStreams rubato rnd rnd32 tables ops decodeError rounds checkout track maxAudioSecs 0
    channels).map fun perChannel => do
      return engine.finishChannels rnd rnd32 (← perChannel) overrides

end

section Agreement

variable {rnd rnd32 : Rounding} {tables : CharTables} {engine : FileEngine α P σ ε}
  {ops : SampleOps α} {decodeError : DecodeFailure → GigasttError}

variable (engine rnd rnd32 tables) in
/-- A channel, by the words of its windows. -/
def channelOf (signal : List α) : Option TranscribeResult :=
  (engine.windowWords rnd tables signal).map fun words => channelResult rnd rnd32 words signal.length

/-- A channel without a scan for speech. -/
theorem channelWords_toOption [LE P] [DecidableLE P] (slots : ℕ → ℕ) {overrides : TranscribeOverrides}
    (hplain : engine.vad.filter (fun _ => overrides.vad.getD true) = none) {channels : List (List α)}
    (hsome : ∀ chan ∈ channels, chan ≠ []) (k : ℕ) :
    (engine.channelWords rnd rnd32 tables (fun k => some (slots k)) overrides k channels).toOption =
      channels.mapM (engine.channelOf rnd rnd32 tables) := by
  induction channels generalizing k with
  | nil => rfl
  | cons samples rest ih =>
      have hfirst := hsome samples List.mem_cons_self
      have hheard : engine.heardRegions samples overrides = [] := by
        rw [heardRegions, hplain]
        rfl
      rw [channelWords, toOption_bind, decodeWordsForSamples_toOption (slots k) hfirst, clipWords,
        hheard, List.mapM_cons, channelOf]
      change (engine.windowWords rnd tables samples).bind _ = _
      cases engine.windowWords rnd tables samples with
      | none => rfl
      | some words =>
          have hlater := ih (fun chan hmem => hsome chan (List.mem_cons_of_mem samples hmem)) (k + 1)
          rw [Option.bind_some, toOption_bind, hlater]
          cases rest.mapM (engine.channelOf rnd rnd32 tables) <;> rfl

variable {track : AudioTrack codec} {maxAudioSecs : Option ℚ} {chans : List (List α)}

variable (rnd rnd32 tables engine ops decodeError) in
theorem streamChannel_spec (hdecoded : track.decodeChannels rnd ops rubato maxAudioSecs = .ok chans)
    {k : ℕ} (hk : k < track.channels) : ∃ signal, chans[k]? = some signal ∧
      ∃ enough, ∀ rounds ≥ enough, ∀ slots, ∃ result,
        engine.streamChannel rubato rnd rnd32 tables ops decodeError rounds (some slots) track
          maxAudioSecs k = some result ∧ result.toOption = engine.channelOf rnd rnd32 tables signal := by
  obtain ⟨src, signal, hsource, hsignal, hdrained⟩ := channel_drained rnd ops hdecoded hk
  obtain ⟨enough, hwords⟩ := streamWords_spec rnd tables engine ops decodeError src
  refine ⟨signal, hsignal, enough, fun rounds hrounds slots => ?_⟩
  obtain ⟨decoded, hdecoded, hresult⟩ := hwords rounds hrounds slots
  rw [streamChannel, hsource]
  dsimp only
  rw [hdecoded, Option.map_some]
  refine ⟨_, rfl, ?_⟩
  rw [toOption_bind, hresult, hdrained, channelOf]
  change ((engine.windowWords rnd tables signal).map _).bind _ = _
  cases engine.windowWords rnd tables signal <;> rfl

variable (rnd rnd32 tables engine ops decodeError) in
theorem channelStreams_spec (hdecoded : track.decodeChannels rnd ops rubato maxAudioSecs = .ok chans)
    (n k : ℕ) (hn : k + n ≤ track.channels) :
    ∃ enough, ∀ rounds ≥ enough, ∀ slots : ℕ → ℕ, ∃ result,
      engine.channelStreams rubato rnd rnd32 tables ops decodeError rounds (fun k => some (slots k))
        track maxAudioSecs k n = some result ∧
      result.toOption = ((chans.drop k).take n).mapM (engine.channelOf rnd rnd32 tables) := by
  induction n generalizing k with
  | zero => exact ⟨0, fun _ _ _ => ⟨.ok [], rfl, by rw [List.take_zero]; rfl⟩⟩
  | succ n ih =>
      obtain ⟨signal, hsignal, enoughFirst, hfirst⟩ :=
        streamChannel_spec rnd rnd32 tables engine ops decodeError hdecoded
          (show k < track.channels by omega)
      obtain ⟨enoughLater, hlater⟩ := ih (k + 1) (by omega)
      refine ⟨max enoughFirst enoughLater, fun rounds hrounds slots => ?_⟩
      obtain ⟨first, hrunFirst, hresultFirst⟩ :=
        hfirst rounds ((Nat.le_max_left _ _).trans hrounds) (slots k)
      obtain ⟨later, hrunLater, hresultLater⟩ :=
        hlater rounds ((Nat.le_max_right _ _).trans hrounds) slots
      have hdrop : (chans.drop k).take (n + 1) = signal :: (chans.drop (k + 1)).take n := by
        obtain ⟨hlt, hget⟩ := List.getElem?_eq_some_iff.mp hsignal
        rw [List.drop_eq_getElem_cons hlt, List.take_succ_cons, hget]
      rw [channelStreams, hrunFirst, hdrop, List.mapM_cons, ← hresultFirst, ← hresultLater]
      cases first with
      | error e => exact ⟨_, rfl, rfl⟩
      | ok result =>
          dsimp only
          rw [hrunLater]
          cases later <;> exact ⟨_, rfl, rfl⟩

/-- A recording split into its channels, by windows from the container against the whole signals: where
the engine hears all of every channel and none of them is empty, both give the same. -/
theorem channel_streams_eq_decoded [LE P] [DecidableLE P]
    (hdecoded : track.decodeChannels rnd ops rubato maxAudioSecs = .ok chans) {channels : ℕ}
    (hchannels : 0 < channels) (hcount : channels ≤ track.channels)
    (hsome : ∀ chan ∈ chans.take channels, chan ≠ []) {overrides : TranscribeOverrides}
    (hplain : engine.vad.filter (fun _ => overrides.vad.getD true) = none) :
    ∃ enough, ∀ rounds ≥ enough, ∀ streamSlots batchSlots : ℕ → ℕ, ∃ result,
      engine.transcribeChannelStreams rubato rnd rnd32 tables ops decodeError rounds
        (fun k => some (streamSlots k)) track channels maxAudioSecs overrides = some result ∧
      result.toOption = (engine.transcribeChannelsInner rnd rnd32 tables (fun k => some (batchSlots k))
        (chans.take channels) overrides).toOption := by
  obtain ⟨first, hfirst, _⟩ := streamChannel_spec rnd rnd32 tables engine ops decodeError hdecoded
    (hchannels.trans_le hcount)
  obtain ⟨enough, hstreams⟩ := channelStreams_spec rnd rnd32 tables engine ops decodeError hdecoded
    channels 0 (by rwa [Nat.zero_add])
  refine ⟨enough, fun rounds hrounds streamSlots batchSlots => ?_⟩
  obtain ⟨perChannel, hrun, hresult⟩ := hstreams rounds hrounds streamSlots
  rw [transcribeChannelStreams, hrun, Option.map_some]
  refine ⟨_, rfl, ?_⟩
  have hany : ¬(chans.take channels).isEmpty = true := by
    intro hempty
    rw [← List.getElem?_take_of_lt hchannels, List.isEmpty_iff.mp hempty] at hfirst
    cases hfirst
  rw [toOption_bind, hresult, List.drop_zero, transcribeChannelsInner, if_neg hany, toOption_bind,
    channelWords_toOption batchSlots hplain hsome]

end Agreement

section Transcript

variable [LE P] [DecidableLE P] {rnd rnd32 : Rounding} {tables : CharTables}
  {engine : FileEngine α P σ ε} {checkout : ℕ → Option ℕ} {overrides : TranscribeOverrides}

theorem channelWords_eq_ok {n : ℕ} {channels : List (List α)} {perChannel : List TranscribeResult}
    (h : engine.channelWords rnd rnd32 tables checkout overrides n channels = .ok perChannel) :
    perChannel.length = channels.length ∧ ∀ k chan, channels[k]? = some chan → ∃ heard,
      engine.decodeWordsForSamples rnd tables (checkout (n + k)) chan overrides = .ok heard ∧
      (perChannel.map TranscribeResult.words)[k]? = some heard := by
  induction channels generalizing n perChannel with
  | nil =>
      cases h
      exact ⟨rfl, fun k chan hk => (by cases hk)⟩
  | cons samples rest ih =>
      obtain ⟨heard, hheard, h⟩ := bind_eq_ok.mp h
      obtain ⟨later, hlater, h⟩ := bind_eq_ok.mp h
      cases h
      obtain ⟨hlength, hwords⟩ := ih hlater
      refine ⟨congrArg Nat.succ hlength, fun k chan hk => ?_⟩
      cases k with
      | zero =>
          cases hk
          exact ⟨heard, hheard, rfl⟩
      | succ k =>
          have hrest := hwords k chan hk
          rw [Nat.add_right_comm] at hrest
          exact hrest

/-- The transcript of a split recording: the words of all channels in chronological order, those of
each channel in the order they were heard in, with the channel's number. -/
theorem split_transcript {channels : List (List α)} {result : TranscribeResult}
    (hdone : engine.transcribeChannelsInner rnd rnd32 tables checkout channels overrides = .ok result) :
    ∃ words : List (List WordInfo), words.length = channels.length ∧
      (∀ k chan, channels[k]? = some chan → ∃ heard,
        engine.decodeWordsForSamples rnd tables (checkout k) chan overrides = .ok heard ∧
        words[k]? = some heard) ∧
      result.words.Pairwise (fun a b => chronological a b = true) ∧
      result.words.Perm (ofChannels 0 words) ∧
      ∀ k heard, words[k]? = some heard → heard.Pairwise (fun a b => a.start ≤ b.start) →
        result.words.filter (fun w => decide (w.speaker = some k)) = ofChannel k heard := by
  rw [transcribeChannelsInner] at hdone
  split at hdone
  · rename_i hnone
    cases hdone
    obtain rfl := List.isEmpty_iff.mp hnone
    exact ⟨[], rfl, fun k chan hk => (by cases hk), .nil, .nil, fun k heard hk => (by cases hk)⟩
  · obtain ⟨perChannel, hperChannel, hdone⟩ := bind_eq_ok.mp hdone
    cases hdone
    obtain ⟨hlength, hwords⟩ := channelWords_eq_ok hperChannel
    simp only [Nat.zero_add] at hwords
    have hresult := words_mergeChannelResults rnd rnd32 perChannel
    refine ⟨perChannel.map TranscribeResult.words, by rw [List.length_map, hlength], hwords, ?_⟩
    change (mergeChannelResults rnd rnd32 perChannel).words.Pairwise _ ∧
      (mergeChannelResults rnd rnd32 perChannel).words.Perm _ ∧ ∀ k heard, _ → _ →
        (mergeChannelResults rnd rnd32 perChannel).words.filter _ = _
    rw [hresult]
    refine ⟨List.pairwise_mergeSort chronological_trans chronological_total _,
      List.mergeSort_perm _ _, fun k heard hk hsorted => ?_⟩
    have hpart := filter_ofChannels 0 hk
    rw [Nat.zero_add] at hpart
    rw [← hpart]
    apply filter_mergeSort chronological_trans chronological_total
    rw [hpart]
    apply List.pairwise_map.mpr
    apply hsorted.imp
    intro a b hab
    simp only [chronological, Bool.or_eq_true, Bool.and_eq_true, decide_eq_true_eq, Nat.le_refl,
      and_true]
    exact hab.lt_or_eq

end Transcript

section Example

/-- A word for each sample, at that time. -/
def sampleWords (samples : List ℕ) : List WordInfo :=
  samples.map fun x => { word := ['a'], start := x, stop := x + 1, confidence := 1, speaker := none }

def sampleEngine : FileEngine ℕ ℕ Unit Unit where
  aneEncoder := false
  fileWindowConcurrency := 1
  decodeSamplesWindow w := .ok (sampleWords w.samples)
  vad := none
  itn := false
  lowercase := id
  punctuator := none

def noOverrides : TranscribeOverrides := { vad := none, itn := none, punctuation := none }

def stereoTrack : AudioTrack byteCodec :=
  { trackId := 7, sampleRate := 48000, channels := 2
    packets := .decoded [.ok ⟨7, .ok ⟨2, [[1, 2], [3, 4]]⟩⟩,
      .ok ⟨7, .ok ⟨2, [[5, 6], [7, 8], [9, 1]]⟩⟩] }

theorem channel_streams_eq_decoded_stereo :
    ∃ enough, ∀ rounds ≥ enough, ∀ streamSlots batchSlots : ℕ → ℕ, ∃ result,
      sampleEngine.transcribeChannelStreams thirds .binary64 .binary64 .russian countingOps
        (fun _ => .invalidAudio "decode") rounds (fun k => some (streamSlots k)) stereoTrack 2 none
        noOverrides = some result ∧
      result.toOption = (sampleEngine.transcribeChannelsInner .binary64 .binary64 .russian
        (fun k => some (batchSlots k)) [[1, 7], [2, 8]] noOverrides).toOption := by
  have hdecoded : stereoTrack.decodeChannels .binary64 countingOps thirds none =
      .ok [[1, 7], [2, 8]] := by
    decide +kernel
  exact channel_streams_eq_decoded hdecoded (by decide) (by decide) (by decide) rfl

theorem split_transcript_stereo : ∃ result,
    sampleEngine.transcribeChannelsInner .binary64 .binary64 .russian (fun _ => some 0)
      [[1, 7], [2, 8]] noOverrides = .ok result ∧
    result.words.filter (fun w => decide (w.speaker = some 1)) = ofChannel 1 (sampleWords [2, 8]) := by
  have hsome : (sampleEngine.transcribeChannelsInner .binary64 .binary64 .russian (fun _ => some 0)
      [[1, 7], [2, 8]] noOverrides).toOption.isSome = true := by
    decide +kernel
  obtain ⟨result, hresult⟩ := Option.isSome_iff_exists.mp hsome
  have hdone := toOption_eq_some.mp hresult
  obtain ⟨words, _, hheard, _, _, hparts⟩ := split_transcript hdone
  obtain ⟨heard, hdecoded, hk⟩ := hheard 1 [2, 8] rfl
  cases hdecoded
  exact ⟨result, hdone, hparts 1 _ hk (by decide +kernel)⟩

end Example

end Files.FileEngine

end Gigastt
