import Gigastt.Itn
import Gigastt.Snapshot
import Gigastt.SpeechRegions
import Gigastt.VadWindows
import Gigastt.WindowWaves

/-!
The transcription of a file: from its decoded signal as a whole, or window by window straight from the
container. The encoder and decoder of a window, the scorer of speech and the punctuation model are
parameters. No abort is raised.
-/

namespace Gigastt

/-- Files up to this length are decoded in one pass. -/
def chunkThresholdSamples : ℕ := 16000 * 30

def chunkWindowSamples (aneEncoder : Bool) : ℕ := if aneEncoder then 16000 * 30 else 16000 * 24

def chunkOverlapSamples : ℕ := 16000 * 2

def windowSpec (aneEncoder : Bool) : WindowSpec :=
  .new chunkThresholdSamples (chunkWindowSamples aneEncoder) chunkOverlapSamples

/-- What a request overrides. -/
structure TranscribeOverrides where
  vad : Option Bool
  itn : Option Bool
  punctuation : Option Bool
  deriving DecidableEq, Repr

theorem WindowTranscript.silent_empty {α : Type} :
    (empty : WindowTranscript α).silent = empty := rfl

theorem WindowSpec.windows_zero (spec : WindowSpec) : spec.windows 0 = [] := by
  have htake : (WindowCursor.new spec).take 0 true = (none, { WindowCursor.new spec with done := true }) := by
    rw [WindowCursor.take, if_neg (by simp [WindowCursor.new]), if_pos (Nat.zero_le _)]
  rw [windows, WindowCursor.takes, htake]

/-- A short signal is one window. -/
theorem WindowSpec.windows_short {spec : WindowSpec} {total : ℕ} (hpos : 0 < total)
    (hshort : total ≤ spec.singlePassMax) : spec.windows total = [(0, total)] := by
  have hnone : ¬total ≤ (WindowCursor.new spec).nextStart := Nat.not_le.mpr hpos
  have habsorbs : (WindowCursor.new spec).absorbs total true = true := by
    simp [WindowCursor.absorbs, WindowCursor.new, WindowCursor.lastWindowMax, hshort]
  have htake : (WindowCursor.new spec).take total true =
      (some (0, total), { WindowCursor.new spec with done := true, prevStart := some 0 }) := by
    rw [WindowCursor.take, if_neg (by simp [WindowCursor.new]), if_neg hnone, WindowCursor.select,
      if_pos habsorbs]
    exact if_pos (by simp)
  obtain ⟨n, rfl⟩ := Nat.exists_eq_succ_of_ne_zero (Nat.ne_of_gt hpos)
  rw [windows, WindowCursor.takes, htake]
  rfl

namespace Files

open Outcomes Pulled Slices
open Vad (VadConfig Span)

/-- The scorer of frames with its fresh state. -/
structure SileroVad (α P σ ε : Type) where
  score : List α → σ → Except ε (P × σ)
  state : σ
  config : VadConfig P

/-- What of the engine serves a file. -/
structure FileEngine (α P σ ε : Type) where
  aneEncoder : Bool
  fileWindowConcurrency : ℕ
  /-- The words of one window, on the clock of the clip. -/
  decodeSamplesWindow : PcmWindow α → Except GigasttError (List WordInfo)
  vad : Option (SileroVad α P σ ε)
  itn : Bool
  lowercase : Text → Text
  punctuator : Option (Text → Text)

variable {α P σ ε : Type}

/-- The pulls of a decoded signal. -/
def sliceWindows (samples : List α) (spec : WindowSpec) : Pulls α :=
  (spec.windows samples.length).map fun w => .ok (lend samples w)

/-- The pulls of a container that gave some windows and ended or failed. -/
def pullsOf {F : Type} (decodeError : DecodeFailure → GigasttError)
    (pulled : List (PcmWindow α) × Except DecodeFailure F) : Pulls α :=
  pulled.1.map .ok ++ match pulled.2 with
    | .ok _ => []
    | .error e => [.error (decodeError e)]

def SileroVad.speechRegions [LE P] [DecidableLE P] (vad : SileroVad α P σ ε) (samples : List α) :
    Except ε (List Span) := do
  let probs ← Vad.frameProbs vad.score vad.state samples
  return Vad.regionsFromProbs probs Vad.frameSamples samples.length vad.config

section

variable (rnd : Rounding)

def secondsOf (samples : ℕ) : ℚ := rnd.div (rnd.round samples) 16000

/-- Words decoded on the silence-free timeline, put back on the clip's own. -/
def remapRegions (regions : List Span) (words : List WordInfo) : List WordInfo :=
  words.map fun word => { word with
    start := remapCompressedSeconds rnd word.start regions 16000
    stop := remapCompressedSeconds rnd word.stop regions 16000 }

end

namespace FileEngine

variable (engine : FileEngine α P σ ε)

def applyTextPostprocess (text : Text) (itn punctuation : Bool) : Text :=
  let text := if itn then Itn.applyItn engine.lowercase text else text
  match engine.punctuator with
  | some restore => if punctuation then restore text else text
  | none => text

variable (rnd rnd32 : Rounding) (tables : CharTables)

def finishTranscribeResult (words : List WordInfo) (durationS : ℚ) (overrides : TranscribeOverrides) :
    TranscribeResult where
  text := engine.applyTextPostprocess (joinWords words) (overrides.itn.getD engine.itn)
    (overrides.punctuation.getD true)
  words
  durationS
  confidence := aggregateConfidence rnd rnd32 words

/-- `checkout` is what asking the pool for extra slots returns: `none` when it is closed. -/
def decodeWordsStreaming (checkout : Option ℕ) (windows : Pulls α) :
    Except GigasttError (List WordInfo) := do
  let transcript ←
    if max engine.fileWindowConcurrency 1 ≤ 1 then
      decodeWindowsSerial rnd tables engine.decodeSamplesWindow windows .empty
    else decodeWindowsMaybeParallel rnd tables engine.decodeSamplesWindow checkout windows
  return transcript.words

/-- A short signal in one pass, a long one by windows. -/
def decodeWords (checkout : Option ℕ) (samples : List α) : Except GigasttError (List WordInfo) :=
  if samples.length ≤ (windowSpec engine.aneEncoder).singlePassMax then
    engine.decodeSamplesWindow { startSample := 0, samples }
  else engine.decodeWordsStreaming rnd tables checkout
    (sliceWindows samples (windowSpec engine.aneEncoder))

def decodeSpeechRegions (checkout : Option ℕ) (samples : List α) (regions : List Span) :
    Except GigasttError (List WordInfo) :=
  if regions.isEmpty then .ok []
  else do
    let words ← engine.decodeWords rnd tables checkout (Vad.kept samples regions)
    return remapRegions rnd regions words

variable [LE P] [DecidableLE P]

/-- A scorer that fails or finds no speech leaves the whole signal to decode. -/
def decodeWordsForSamples (checkout : Option ℕ) (samples : List α) (overrides : TranscribeOverrides) :
    Except GigasttError (List WordInfo) :=
  match engine.vad.filter fun _ => overrides.vad.getD true with
  | some vad =>
      match vad.speechRegions samples with
      | .ok regions =>
          if regions.isEmpty then engine.decodeWords rnd tables checkout samples
          else engine.decodeSpeechRegions rnd tables checkout samples regions
      | .error _ => engine.decodeWords rnd tables checkout samples
  | none => engine.decodeWords rnd tables checkout samples

def transcribeSamplesWithOverrides (checkout : Option ℕ) (samples : List α)
    (overrides : TranscribeOverrides) : Except GigasttError TranscribeResult := do
  let words ← engine.decodeWordsForSamples rnd tables checkout samples overrides
  return engine.finishTranscribeResult rnd rnd32 words (secondsOf rnd samples.length) overrides

variable (ops : SampleOps α) (decodeError : DecodeFailure → GigasttError)
  {codec : OpusDecoder α} {rubato : Rubato α}

/-- The words over the windows of a container, and the length of its signal, if the windows end within
so many pulls. -/
def streamWords (rounds : ℕ) (checkout : Option ℕ) (windows : FileWindows codec rubato) :
    Option (Except GigasttError (List WordInfo × ℕ)) :=
  (collect (FileWindows.nextWindow rnd ops) rounds windows).map fun pulled => do
    let words ← engine.decodeWordsStreaming rnd tables checkout (pullsOf decodeError pulled)
    match pulled.2 with
    | .error e => .error (decodeError e)
    | .ok windows => return (words, windows.source.decodedTotal)

def transcribeStreamMono (rounds : ℕ) (checkout : Option ℕ) (windows : FileWindows codec rubato)
    (overrides : TranscribeOverrides) : Option (Except GigasttError TranscribeResult) :=
  (engine.streamWords rnd tables ops decodeError rounds checkout windows).map fun decoded => do
    let (words, total) ← decoded
    return engine.finishTranscribeResult rnd rnd32 words (secondsOf rnd total) overrides

/-- The container is opened once, or again where the speech of a first pass is of no use. -/
def transcribeStreamFile (rounds : ℕ) (speechSlots clipSlots : Option ℕ) (src : Source codec rubato)
    (overrides : TranscribeOverrides) : Option (Except GigasttError TranscribeResult) :=
  let spec := windowSpec engine.aneEncoder
  let whole := engine.transcribeStreamMono rnd rnd32 tables ops decodeError rounds clipSlots
    (.new src spec) overrides
  match engine.vad.filter fun _ => overrides.vad.getD true with
  | none => whole
  | some vad =>
      match collect (VadWindows.nextWindow rnd ops vad.score rounds) rounds
        (.new (.new src VadWindows.pullSpec) vad.config vad.state spec) with
      | none => none
      | some pulled =>
          match engine.decodeWordsStreaming rnd tables speechSlots (pullsOf decodeError pulled) with
          | .error e => some (.error e)
          | .ok words =>
              match pulled.2 with
              | .error e => some (.error (decodeError e))
              | .ok windows =>
                  if windows.needsFallback then whole
                  else some (.ok (engine.finishTranscribeResult rnd rnd32
                    (remapRegions rnd windows.regions words) (secondsOf rnd windows.total16kSamples)
                    overrides))

section Agreement

/-- The words of the windows over some speech, in turn. -/
def windowWords (speech : List α) : Option (List WordInfo) :=
  (transcribe rnd tables engine.decodeSamplesWindow
    (sliceWindows speech (windowSpec engine.aneEncoder)) .empty).map WindowTranscript.words

/-- The speech the scan finds in a clip: none where it is off or the scorer fails. -/
def heardRegions (samples : List α) (overrides : TranscribeOverrides) : List Span :=
  ((engine.vad.filter fun _ => overrides.vad.getD true).bind fun vad =>
    (vad.speechRegions samples).toOption).getD []

/-- The words of a clip: of the speech in it, or of all of it. -/
def clipWords (samples : List α) (overrides : TranscribeOverrides) : Option (List WordInfo) :=
  let regions := engine.heardRegions samples overrides
  if regions.isEmpty then engine.windowWords rnd tables samples
  else (engine.windowWords rnd tables (Vad.kept samples regions)).map (remapRegions rnd regions)

variable {engine : FileEngine α P σ ε} {rnd tables}

variable (engine rnd tables) in
omit [LE P] [DecidableLE P] in
/-- Serial or in waves, the words are those of the windows in turn. -/
theorem decodeWordsStreaming_toOption (slots : ℕ) (windows : Pulls α) :
    (engine.decodeWordsStreaming rnd tables (some slots) windows).toOption =
      (transcribe rnd tables engine.decodeSamplesWindow windows .empty).map WindowTranscript.words := by
  rw [decodeWordsStreaming]
  split
  · have hserial := serial_eq_transcribe rnd tables engine.decodeSamplesWindow windows .empty
    rw [WindowTranscript.silent_empty] at hserial
    rw [← hserial]
    cases decodeWindowsSerial rnd tables engine.decodeSamplesWindow windows .empty <;> rfl
  · rw [← maybeParallel_eq_transcribe rnd tables engine.decodeSamplesWindow slots]
    cases decodeWindowsMaybeParallel rnd tables engine.decodeSamplesWindow (some slots) windows <;> rfl

variable (rnd tables engine) in
omit [LE P] [DecidableLE P] in
/-- A container that fails has no words. -/
theorem decodeWordsStreaming_failed {F : Type} (slots : ℕ) (given : List (PcmWindow α))
    (e : DecodeFailure) (decodeError : DecodeFailure → GigasttError) :
    (engine.decodeWordsStreaming rnd tables (some slots)
      (pullsOf decodeError (given, (.error e : Except DecodeFailure F)))).toOption = none := by
  rw [decodeWordsStreaming_toOption, transcribe_none rnd tables engine.decodeSamplesWindow]
  · rfl
  · exact List.mem_append_right _ (List.mem_singleton_self _)
  · intro w words h
    cases h

omit [LE P] [DecidableLE P] in
theorem pullsOf_ok {F : Type} (decodeError : DecodeFailure → GigasttError) (samples : List α)
    (spec : WindowSpec) (last : F) :
    pullsOf decodeError ((spec.windows samples.length).map (lend samples), .ok last) =
      sliceWindows samples spec := by
  rw [pullsOf, List.append_nil, List.map_map]
  rfl

omit [LE P] [DecidableLE P] in
theorem windowWords_nil : engine.windowWords rnd tables [] = some [] := by
  rw [windowWords, sliceWindows, List.length_nil, WindowSpec.windows_zero]
  rfl

omit [LE P] [DecidableLE P] in
/-- In one pass or by windows, the words are those of the windows in turn. -/
theorem decodeWords_toOption (slots : ℕ) {samples : List α} (hsome : samples ≠ []) :
    (engine.decodeWords rnd tables (some slots) samples).toOption =
      engine.windowWords rnd tables samples := by
  rw [decodeWords]
  split
  · rename_i hshort
    have hone : sliceWindows samples (windowSpec engine.aneEncoder) =
        [.ok { startSample := 0, samples }] := by
      rw [sliceWindows, WindowSpec.windows_short (List.length_pos_of_ne_nil hsome) hshort,
        List.map_cons, List.map_nil, lend, slice_zero_length]
    rw [windowWords, hone, transcribe_cons_ok]
    cases engine.decodeSamplesWindow { startSample := 0, samples } <;> rfl
  · exact decodeWordsStreaming_toOption rnd tables engine slots _

variable (engine) in
theorem kept_heard_ne_nil {signal : List α} {overrides : TranscribeOverrides}
    (hsome : engine.heardRegions signal overrides ≠ []) :
    Vad.kept signal (engine.heardRegions signal overrides) ≠ [] := by
  revert hsome
  rw [heardRegions]
  cases engine.vad.filter fun _ => overrides.vad.getD true with
  | none => exact fun h => absurd rfl h
  | some vad =>
      rw [Option.bind_some, SileroVad.speechRegions]
      cases hprobs : Vad.frameProbs vad.score vad.state signal with
      | error e => exact fun h => absurd rfl h
      | ok probs =>
          intro hsome
          have hlast := (Vad.length_frameProbsFrom hprobs (Nat.sub_le _ _)).2
          rw [Nat.sub_zero] at hlast
          obtain ⟨hregions, hends⟩ :=
            Vad.regions_regionsFromProbs (by decide) vad.config hlast
          exact Vad.kept_ne_nil hregions hends hsome

theorem clipWords_nil (overrides : TranscribeOverrides) :
    engine.clipWords rnd tables [] overrides = some [] := by
  have hheard : engine.heardRegions [] overrides = [] := by
    by_contra hsome
    refine kept_heard_ne_nil engine hsome (List.flatMap_eq_nil_iff.mpr fun r _ => ?_)
    rw [slice, List.take_nil, List.drop_nil]
  rw [clipWords, hheard]
  exact windowWords_nil

theorem decodeWordsForSamples_toOption (slots : ℕ) {signal : List α} (hsome : signal ≠ [])
    (overrides : TranscribeOverrides) :
    (engine.decodeWordsForSamples rnd tables (some slots) signal overrides).toOption =
      engine.clipWords rnd tables signal overrides := by
  have hheard := @kept_heard_ne_nil _ _ _ _ _ _ engine signal overrides
  revert hheard
  rw [decodeWordsForSamples, clipWords, heardRegions]
  cases engine.vad.filter fun _ => overrides.vad.getD true with
  | none => exact fun _ => decodeWords_toOption slots hsome
  | some vad =>
      dsimp only
      rw [Option.bind_some]
      cases vad.speechRegions signal with
      | error e => exact fun _ => decodeWords_toOption slots hsome
      | ok regions =>
          intro hheard
          cases regions with
          | nil => exact decodeWords_toOption slots hsome
          | cons r rest =>
              have hspeech := hheard (List.cons_ne_nil r rest)
              change Vad.kept signal (r :: rest) ≠ [] at hspeech
              change (engine.decodeSpeechRegions rnd tables (some slots) signal (r :: rest)).toOption =
                (engine.windowWords rnd tables (Vad.kept signal (r :: rest))).map
                  (remapRegions rnd (r :: rest))
              rw [decodeSpeechRegions, List.isEmpty_cons, if_neg Bool.false_ne_true, toOption_bind,
                decodeWords_toOption slots hspeech]
              cases engine.windowWords rnd tables (Vad.kept signal (r :: rest)) <;> rfl

variable {rnd32 : Rounding} {ops : SampleOps α} {decodeError : DecodeFailure → GigasttError}
  {codec : OpusDecoder α} {rubato : Rubato α} {given : List (PcmWindow α)} {rounds : ℕ}

theorem windowSpec_framed (aneEncoder : Bool) : (windowSpec aneEncoder).Framed := by
  cases aneEncoder <;> exact WindowSpec.new_framed _ _ (by decide) (by decide)

variable (engine rnd tables ops decodeError) in
omit [LE P] [DecidableLE P] in
/-- The words by windows from the container are those of its signal. -/
theorem streamWords_spec (src : Source codec rubato) :
    ∃ enough, ∀ rounds ≥ enough, ∀ slots, ∃ result,
      engine.streamWords rnd tables ops decodeError rounds (some slots)
        (.new src (windowSpec engine.aneEncoder)) = some result ∧
      result.toOption = (((FileWindows.new src .flat).drainToVec rnd ops).toOption.bind fun signal =>
        (engine.windowWords rnd tables signal).map fun words => (words, signal.length)) := by
  have hspec := windowSpec_framed engine.aneEncoder
  rw [FileWindows.drainToVec_eq]
  cases houtcome : (src.trace rnd ops).outcome with
  | ok tail =>
      generalize hsignal : (src.trace rnd ops).blocks.flatten ++ tail = signal
      obtain ⟨last, hyields, htotal⟩ := FileWindows.yields_of_ok hspec houtcome hsignal
      refine ⟨((windowSpec engine.aneEncoder).windows signal.length).length + 1,
        fun rounds hrounds slots => ?_⟩
      rw [streamWords, hyields.collect (by rwa [List.length_map]), Option.map_some]
      refine ⟨_, rfl, ?_⟩
      rw [toOption_bind, decodeWordsStreaming_toOption, pullsOf_ok, Except.map, hsignal]
      dsimp only [Except.toOption, Option.bind_some]
      rw [htotal, windowWords]
      cases transcribe rnd tables engine.decodeSamplesWindow
        (sliceWindows signal (windowSpec engine.aneEncoder)) .empty <;> rfl
  | error e =>
      obtain ⟨given, hyields, _⟩ := FileWindows.yields_of_error hspec houtcome
      refine ⟨given.length + 1, fun rounds hrounds slots => ?_⟩
      rw [streamWords, hyields.collect hrounds, Option.map_some]
      refine ⟨_, rfl, ?_⟩
      rw [toOption_bind, decodeWordsStreaming_failed]
      rfl

variable (engine rnd tables rnd32 ops decodeError) in
omit [LE P] [DecidableLE P] in
/-- The pass over the whole clip. -/
theorem transcribeStreamMono_spec (src : Source codec rubato) (overrides : TranscribeOverrides) :
    ∃ enough, ∀ rounds ≥ enough, ∀ slots, ∃ result,
      engine.transcribeStreamMono rnd rnd32 tables ops decodeError rounds (some slots)
        (.new src (windowSpec engine.aneEncoder)) overrides = some result ∧
      result.toOption = (((FileWindows.new src .flat).drainToVec rnd ops).toOption.bind fun signal =>
        (engine.windowWords rnd tables signal).map fun words =>
          engine.finishTranscribeResult rnd rnd32 words (secondsOf rnd signal.length) overrides) := by
  obtain ⟨enough, hwords⟩ := streamWords_spec rnd tables engine ops decodeError src
  refine ⟨enough, fun rounds hrounds slots => ?_⟩
  obtain ⟨decoded, hdecoded, hresult⟩ := hwords rounds hrounds slots
  rw [transcribeStreamMono, hdecoded, Option.map_some]
  refine ⟨_, rfl, ?_⟩
  rw [toOption_bind, hresult]
  cases ((FileWindows.new src .flat).drainToVec rnd ops).toOption with
  | none => rfl
  | some signal =>
      rw [Option.bind_some, Option.bind_some]
      cases engine.windowWords rnd tables signal <;> rfl

section Speech

variable {vad : SileroVad α P σ ε} {src : Source codec rubato} {overrides : TranscribeOverrides}
  {whole : Except GigasttError TranscribeResult} {clipSlots : ℕ}

/-- A pass over the speech that meets a failure of the container. -/
theorem transcribeStreamFile_failed (speechSlots : ℕ) {e : DecodeFailure}
    (hvad : engine.vad.filter (fun _ => overrides.vad.getD true) = some vad)
    (hyields : Yields (VadWindows.nextWindow rnd ops vad.score rounds)
      (.new (.new src VadWindows.pullSpec) vad.config vad.state (windowSpec engine.aneEncoder))
      given (.error e)) (hrounds : given.length < rounds) :
    ∃ result, engine.transcribeStreamFile rnd rnd32 tables ops decodeError rounds (some speechSlots)
        (some clipSlots) src overrides = some result ∧ result.toOption = none := by
  rw [transcribeStreamFile, hvad]
  dsimp only
  rw [hyields.collect hrounds]
  have hwords := decodeWordsStreaming_failed rnd tables engine (F := VadWindows P σ codec rubato)
    speechSlots given e decodeError
  dsimp only
  cases hdecoded : engine.decodeWordsStreaming rnd tables (some speechSlots)
    (pullsOf decodeError (given, (.error e : Except DecodeFailure (VadWindows P σ codec rubato)))) with
  | error failure => exact ⟨_, rfl, rfl⟩
  | ok words =>
      rw [hdecoded] at hwords
      cases hwords

/-- A pass over the speech to its end. -/
theorem transcribeStreamFile_ended (speechSlots : ℕ) {v : VadWindows P σ codec rubato}
    (hvad : engine.vad.filter (fun _ => overrides.vad.getD true) = some vad)
    (hyields : Yields (VadWindows.nextWindow rnd ops vad.score rounds)
      (.new (.new src VadWindows.pullSpec) vad.config vad.state (windowSpec engine.aneEncoder))
      given (.ok v)) (hrounds : given.length < rounds)
    (hwhole : engine.transcribeStreamMono rnd rnd32 tables ops decodeError rounds (some clipSlots)
      (.new src (windowSpec engine.aneEncoder)) overrides = some whole) :
    ∃ result, engine.transcribeStreamFile rnd rnd32 tables ops decodeError rounds (some speechSlots)
        (some clipSlots) src overrides = some result ∧
      result.toOption = ((transcribe rnd tables engine.decodeSamplesWindow
        (pullsOf decodeError (given, .ok v)) .empty).map WindowTranscript.words).bind fun words =>
          if v.needsFallback then whole.toOption
          else some (engine.finishTranscribeResult rnd rnd32 (remapRegions rnd v.regions words)
            (secondsOf rnd v.total16kSamples) overrides) := by
  rw [← decodeWordsStreaming_toOption rnd tables engine speechSlots, transcribeStreamFile, hvad]
  dsimp only
  rw [hyields.collect hrounds, hwhole]
  dsimp only
  cases engine.decodeWordsStreaming rnd tables (some speechSlots)
    (pullsOf decodeError (given, .ok v)) with
  | error failure => exact ⟨_, rfl, rfl⟩
  | ok words =>
      dsimp only
      split
      · exact ⟨whole, rfl, rfl⟩
      · exact ⟨_, rfl, rfl⟩

end Speech

end Agreement

/-- What the stream returns, where the container gives the signal. -/
theorem transcribeStreamFile_ok (engine : FileEngine α P σ ε) {src : Source codec rubato} {signal : List α}
    (hdrained : (FileWindows.new src .flat).drainToVec rnd ops = .ok signal)
    (overrides : TranscribeOverrides) :
    ∃ enough, ∀ rounds ≥ enough, ∀ speechSlots clipSlots, ∃ result,
      engine.transcribeStreamFile rnd rnd32 tables ops decodeError rounds (some speechSlots)
        (some clipSlots) src overrides = some result ∧
      ((∀ vad ∈ engine.vad.filter fun _ => overrides.vad.getD true,
          (vad.speechRegions signal).toOption.isSome) ∨ result.toOption.isSome →
        result.toOption = (engine.clipWords rnd tables signal overrides).map fun words =>
          engine.finishTranscribeResult rnd rnd32 words (secondsOf rnd signal.length) overrides) := by
  obtain ⟨enoughClip, hclip⟩ :=
    transcribeStreamMono_spec rnd tables engine rnd32 ops decodeError src overrides
  rw [hdrained] at hclip
  cases hvad : engine.vad.filter fun _ => overrides.vad.getD true with
  | none =>
      refine ⟨enoughClip, fun rounds hrounds speechSlots clipSlots => ?_⟩
      obtain ⟨whole, hwhole, hwords⟩ := hclip rounds hrounds clipSlots
      refine ⟨whole, by rw [transcribeStreamFile, hvad]; exact hwhole, fun _ => ?_⟩
      rw [hwords, clipWords, heardRegions, hvad]
      rfl
  | some vad =>
      obtain ⟨enoughSpeech, hspeech⟩ := VadWindows.exists_pulls rnd ops vad.score src vad.config
        vad.state (windowSpec_framed engine.aneEncoder)
      rw [hdrained] at hspeech
      refine ⟨max enoughClip enoughSpeech, fun rounds hrounds speechSlots clipSlots => ?_⟩
      obtain ⟨whole, hwhole, hwords⟩ := hclip rounds ((Nat.le_max_left _ _).trans hrounds) clipSlots
      have henough := (Nat.le_max_right enoughClip enoughSpeech).trans hrounds
      obtain ⟨given, _, hgiven, hyields, v, rfl, hscored⟩ := hspeech rounds henough
      obtain ⟨result, hrun, hresult⟩ := transcribeStreamFile_ended speechSlots hvad hyields
        (hgiven.trans_le henough) hwhole
      refine ⟨result, hrun, ?_⟩
      have hscan : vad.speechRegions signal = (Vad.frameProbs vad.score vad.state signal).map fun probs =>
          Vad.regionsFromProbs probs Vad.frameSamples signal.length vad.config := rfl
      cases hprobs : Vad.frameProbs vad.score vad.state signal with
      | error e =>
          rw [hprobs] at hscored hscan
          have hheard : engine.heardRegions signal overrides = [] := by
            rw [heardRegions, hvad, Option.bind_some, hscan]
            rfl
          rintro (hall | hsome)
          · have hfailed := hall vad rfl
            rw [hscan] at hfailed
            cases hfailed
          · rw [VadWindows.needsFallback, hscored, Bool.true_or] at hresult
            rw [hresult] at hsome ⊢
            obtain ⟨words, hdecoded, _⟩ := Option.bind_eq_some_iff.mp (Option.some_get hsome).symm
            rw [hdecoded, Option.bind_some, if_pos rfl, hwords, clipWords, hheard]
            rfl
      | ok probs =>
          rw [hprobs] at hscored hscan
          obtain ⟨hfailed, htotal, hregions, rfl⟩ := hscored
          have hheard : engine.heardRegions signal overrides = v.regions := by
            rw [heardRegions, hvad, Option.bind_some, hscan, hregions]
            rfl
          rw [pullsOf_ok, ← windowWords, VadWindows.needsFallback, hfailed, Bool.false_or, htotal] at hresult
          intro _
          rw [hresult, clipWords, hheard]
          cases v.regions with
          | nil =>
              rw [show Vad.kept signal [] = [] from rfl, windowWords_nil, Option.bind_some]
              cases signal with
              | nil =>
                  rw [windowWords_nil]
                  rfl
              | cons a rest => exact hwords
          | cons r rest =>
              cases engine.windowWords rnd tables (Vad.kept signal (r :: rest)) <;> rfl

/-- What the stream returns, where the container fails. -/
theorem transcribeStreamFile_error (engine : FileEngine α P σ ε) {src : Source codec rubato}
    {e : DecodeFailure} (hdrained : (FileWindows.new src .flat).drainToVec rnd ops = .error e)
    (overrides : TranscribeOverrides) :
    ∃ enough, ∀ rounds ≥ enough, ∀ speechSlots clipSlots, ∃ result,
      engine.transcribeStreamFile rnd rnd32 tables ops decodeError rounds (some speechSlots)
        (some clipSlots) src overrides = some result ∧ result.toOption = none := by
  obtain ⟨enoughClip, hclip⟩ :=
    transcribeStreamMono_spec rnd tables engine rnd32 ops decodeError src overrides
  rw [hdrained] at hclip
  cases hvad : engine.vad.filter fun _ => overrides.vad.getD true with
  | none =>
      refine ⟨enoughClip, fun rounds hrounds speechSlots clipSlots => ?_⟩
      obtain ⟨whole, hwhole, hnone⟩ := hclip rounds hrounds clipSlots
      exact ⟨whole, by rw [transcribeStreamFile, hvad]; exact hwhole, hnone⟩
  | some vad =>
      obtain ⟨enoughSpeech, hspeech⟩ := VadWindows.exists_pulls rnd ops vad.score src vad.config
        vad.state (windowSpec_framed engine.aneEncoder)
      rw [hdrained] at hspeech
      refine ⟨max enoughClip enoughSpeech, fun rounds hrounds speechSlots clipSlots => ?_⟩
      obtain ⟨whole, hwhole, hnone⟩ := hclip rounds ((Nat.le_max_left _ _).trans hrounds) clipSlots
      have henough := (Nat.le_max_right enoughClip enoughSpeech).trans hrounds
      obtain ⟨given, ending, hgiven, hyields, hending⟩ := hspeech rounds henough
      rcases hending with rfl | ⟨v, rfl, hfailed⟩
      · exact transcribeStreamFile_failed speechSlots hvad hyields (hgiven.trans_le henough)
      · obtain ⟨result, hrun, hresult⟩ := transcribeStreamFile_ended speechSlots hvad hyields
          (hgiven.trans_le henough) hwhole
        refine ⟨result, hrun, ?_⟩
        rw [hresult, VadWindows.needsFallback, hfailed, Bool.true_or]
        apply Option.bind_eq_none_iff.mpr
        intro words _
        rw [if_pos rfl, hnone]
        rfl

/-- A file window by window against the decode of its signal as a whole: what the stream returns is what
the decode of the signal returns, where the scan of speech does not fail. Where it does, the stream returns
that too unless a window of speech before the failure is not decoded. A clip of nothing has no words, and
a container that fails gives no result. -/
theorem stream_eq_batch (src : Source codec rubato) (overrides : TranscribeOverrides) :
    ∃ enough, ∀ rounds ≥ enough, ∀ speechSlots clipSlots batchSlots, ∃ result,
      engine.transcribeStreamFile rnd rnd32 tables ops decodeError rounds (some speechSlots)
        (some clipSlots) src overrides = some result ∧
      match (FileWindows.new src .flat).drainToVec rnd ops with
      | .error _ => result.toOption = none
      | .ok [] =>
          result = .ok (engine.finishTranscribeResult rnd rnd32 [] (secondsOf rnd 0) overrides)
      | .ok signal =>
          let batch := engine.transcribeSamplesWithOverrides rnd rnd32 tables (some batchSlots) signal
            overrides
          ((∀ vad ∈ engine.vad.filter fun _ => overrides.vad.getD true,
              (vad.speechRegions signal).toOption.isSome) → result.toOption = batch.toOption) ∧
            ∀ r, result = .ok r → batch = .ok r := by
  cases hdrained : (FileWindows.new src .flat).drainToVec rnd ops with
  | error e =>
      obtain ⟨enough, hstream⟩ := transcribeStreamFile_error rnd rnd32 tables ops decodeError engine
        hdrained overrides
      exact ⟨enough, fun rounds hrounds speechSlots clipSlots _ =>
        hstream rounds hrounds speechSlots clipSlots⟩
  | ok signal =>
      obtain ⟨enough, hstream⟩ := transcribeStreamFile_ok rnd rnd32 tables ops decodeError engine hdrained
        overrides
      refine ⟨enough, fun rounds hrounds speechSlots clipSlots batchSlots => ?_⟩
      obtain ⟨result, hrun, hresult⟩ := hstream rounds hrounds speechSlots clipSlots
      refine ⟨result, hrun, ?_⟩
      cases signal with
      | nil =>
          have hwords := hresult (.inl fun vad _ => rfl)
          rw [clipWords_nil] at hwords
          exact toOption_eq_some.mp hwords
      | cons a rest =>
          have hbatch : (engine.transcribeSamplesWithOverrides rnd rnd32 tables (some batchSlots)
              (a :: rest) overrides).toOption =
              (engine.clipWords rnd tables (a :: rest) overrides).map fun words =>
                engine.finishTranscribeResult rnd rnd32 words (secondsOf rnd (rest.length + 1))
                  overrides := by
            rw [transcribeSamplesWithOverrides, toOption_bind,
              decodeWordsForSamples_toOption batchSlots (List.cons_ne_nil a rest)]
            cases engine.clipWords rnd tables (a :: rest) overrides <;> rfl
          refine ⟨fun hall => (hresult (.inl hall)).trans hbatch.symm, fun r hr => ?_⟩
          have hsame := hresult (.inr (by rw [hr]; rfl))
          exact toOption_eq_some.mp (hbatch.trans (hsame.symm.trans (by rw [hr]; rfl)))

end FileEngine

end Files

end Gigastt
