import Gigastt.ChannelDecode
import Gigastt.DualMono

/-!
The scan that decides whether a recording is split into its channels, without keeping the audio. The
channels of a stereo recording go through resamplers of their own, block by block into the detector.
-/

namespace Gigastt

open Outcomes Slices

variable {α : Type}

/-- The lengths that a resampler returns depend on the lengths it was given only. -/
structure Rubato.Uniform (rubato : Rubato α) (Same : rubato.State → rubato.State → Prop) : Prop where
  build : ∀ {fromRate toRate capacity s}, rubato.build fromRate toRate capacity = .ok s → Same s s
  inputFramesMax : ∀ {s t}, Same s t → rubato.inputFramesMax s = rubato.inputFramesMax t
  process : ∀ {s t} {x y o p : List α} {s' t'}, Same s t → x.length = y.length →
    rubato.process s x = .ok (o, s') → rubato.process t y = .ok (p, t') →
      o.length = p.length ∧ Same s' t'

namespace ResampleTo16k

variable {rubato : Rubato α} {Same : rubato.State → rubato.State → Prop} {ops : SampleOps α}

theorem processPieces_twin (h : rubato.Uniform Same) {xs ys : List (List α)}
    (hlengths : xs.map List.length = ys.map List.length) {s t s' t' : rubato.State} {o p : List α}
    (hsame : Same s t) (hx : processPieces rubato xs s = .ok (o, s'))
    (hy : processPieces rubato ys t = .ok (p, t')) : o.length = p.length ∧ Same s' t' := by
  induction xs generalizing ys s t o p with
  | nil =>
      cases ys with
      | nil =>
          cases hx
          cases hy
          exact ⟨rfl, hsame⟩
      | cons y ys => cases hlengths
  | cons x xs ih =>
      cases ys with
      | nil => cases hlengths
      | cons y ys =>
          obtain ⟨hhead, htail⟩ := List.cons.inj hlengths
          obtain ⟨⟨o₁, s₁⟩, hx₁, hx⟩ := bind_eq_ok.mp hx
          obtain ⟨⟨o₂, s₂⟩, hx₂, hx⟩ := bind_eq_ok.mp hx
          obtain ⟨⟨p₁, t₁⟩, hy₁, hy⟩ := bind_eq_ok.mp hy
          obtain ⟨⟨p₂, t₂⟩, hy₂, hy⟩ := bind_eq_ok.mp hy
          cases hx
          cases hy
          obtain ⟨hfirst, hsame₁⟩ := h.process hsame hhead hx₁ hy₁
          obtain ⟨hrest, hsame'⟩ := ih htail hsame₁ hx₂ hy₂
          exact ⟨by rw [List.length_append, List.length_append, hfirst, hrest], hsame'⟩

/-- What the call returns, once there is a resampler. -/
theorem resampleWithCache_eq_ok {x o : List α} {fromRate toRate : ℕ} {c c' : Option rubato.State}
    (hsome : ¬(x.isEmpty || fromRate == 0 || toRate == 0) = true) (hrates : fromRate ≠ toRate)
    (hx : resampleWithCache ops rubato x fromRate toRate c = .ok (o, c')) : ∃ s s', c' = some s' ∧
      (c = some s ∨ c = none ∧
        rubato.build fromRate toRate (max x.length minResamplerCapacity) = .ok s) ∧
      (if x.length ≤ rubato.inputFramesMax s then rubato.process s (x.map ops.sanitize)
        else processPieces rubato (pieces (rubato.inputFramesMax s) (x.map ops.sanitize)) s) =
          .ok (o, s') := by
  rw [resampleWithCache, if_neg hsome, if_neg hrates] at hx
  simp only [List.length_map] at hx
  have hthrough : ∀ s, ((if x.length ≤ rubato.inputFramesMax s then
        rubato.process s (x.map ops.sanitize) >>= fun done => .ok (done.1, some done.2)
      else processPieces rubato (pieces (rubato.inputFramesMax s) (x.map ops.sanitize)) s >>=
        fun done => .ok (done.1, some done.2)) : Except String (List α × Option rubato.State)) =
          .ok (o, c') → ∃ s', c' = some s' ∧
      (if x.length ≤ rubato.inputFramesMax s then rubato.process s (x.map ops.sanitize)
        else processPieces rubato (pieces (rubato.inputFramesMax s) (x.map ops.sanitize)) s) =
          .ok (o, s') := by
    intro s hs
    split at hs
    · obtain ⟨⟨_, s'⟩, hprocess, hs⟩ := bind_eq_ok.mp hs
      cases hs
      exact ⟨s', rfl, by rw [if_pos ‹_›]; exact hprocess⟩
    · obtain ⟨⟨_, s'⟩, hprocess, hs⟩ := bind_eq_ok.mp hs
      cases hs
      exact ⟨s', rfl, by rw [if_neg ‹_›]; exact hprocess⟩
  cases c with
  | some s =>
      obtain ⟨s', hc, hs⟩ := hthrough s hx
      exact ⟨s, s', hc, .inl rfl, hs⟩
  | none =>
      obtain ⟨s, hbuild, hx⟩ := bind_eq_ok.mp hx
      obtain ⟨s', hc, hs⟩ := hthrough s hx
      exact ⟨s, s', hc, .inr ⟨rfl, hbuild⟩, hs⟩

theorem resampleWithCache_twin (h : rubato.Uniform Same) {x y o p : List α}
    (hlength : x.length = y.length) {fromRate toRate : ℕ} {c d c' d' : Option rubato.State}
    (hsame : Option.Rel Same c d)
    (hx : resampleWithCache ops rubato x fromRate toRate c = .ok (o, c'))
    (hy : resampleWithCache ops rubato y fromRate toRate d = .ok (p, d')) :
    o.length = p.length ∧ Option.Rel Same c' d' := by
  have hempty : x.isEmpty = y.isEmpty := by
    rw [Bool.eq_iff_iff, List.isEmpty_iff_length_eq_zero, List.isEmpty_iff_length_eq_zero, hlength]
  by_cases hnone : (x.isEmpty || fromRate == 0 || toRate == 0) = true
  · rw [resampleWithCache, if_pos hnone] at hx
    rw [resampleWithCache, if_pos (hempty ▸ hnone)] at hy
    cases hx
    cases hy
    exact ⟨rfl, hsame⟩
  by_cases hrates : fromRate = toRate
  · rw [resampleWithCache, if_neg hnone, if_pos hrates] at hx
    rw [resampleWithCache, if_neg (hempty ▸ hnone), if_pos hrates] at hy
    cases hx
    cases hy
    exact ⟨hlength, hsame⟩
  obtain ⟨s, s', rfl, hs, hx⟩ := resampleWithCache_eq_ok hnone hrates hx
  obtain ⟨t, t', rfl, ht, hy⟩ := resampleWithCache_eq_ok (hempty ▸ hnone) hrates hy
  have hst : Same s t := by
    rcases hs with rfl | ⟨rfl, hbuild⟩
    · rcases ht with rfl | ⟨rfl, _⟩
      · cases hsame with
        | some hst => exact hst
      · cases hsame
    · rcases ht with rfl | ⟨_, hbuild'⟩
      · cases hsame
      · rw [hlength, hbuild'] at hbuild
        exact Except.ok.inj hbuild ▸ h.build hbuild'
  have hsanitized : (x.map ops.sanitize).length = (y.map ops.sanitize).length := by
    rw [List.length_map, List.length_map, hlength]
  rw [← hlength, ← h.inputFramesMax hst] at hy
  split at hx
  · rw [if_pos ‹_›] at hy
    obtain ⟨ho, hsame'⟩ := h.process hst hsanitized hx hy
    exact ⟨ho, .some hsame'⟩
  · rw [if_neg ‹_›] at hy
    obtain ⟨ho, hsame'⟩ := processPieces_twin h (map_length_pieces _ hsanitized) hst hx hy
    exact ⟨ho, .some hsame'⟩

/-- Two accumulators that hold as much as each other. -/
structure Twin (Same : rubato.State → rubato.State → Prop) (t u : ResampleTo16k rubato) : Prop where
  fromRate : t.fromRate = u.fromRate
  stage : t.stage.length = u.stage.length
  out : t.out.length = u.out.length
  cache : Option.Rel Same t.cache u.cache

theorem twin_new (fromRate : ℕ) : Twin Same (new fromRate) (new fromRate) := ⟨rfl, rfl, rfl, .none⟩

variable {t u t' u' : ResampleTo16k rubato}

theorem Twin.push (h : Twin Same t u) {x y : List α} (hlength : x.length = y.length) :
    Twin Same (t.push x) (u.push y) where
  fromRate := h.fromRate
  stage := by rw [ResampleTo16k.push, ResampleTo16k.push, List.length_append, List.length_append,
    h.stage, hlength]
  out := h.out
  cache := h.cache

theorem Twin.drain (huniform : rubato.Uniform Same) (h : Twin Same t u) (ht : t.drain ops = .ok t')
    (hu : u.drain ops = .ok u') : Twin Same t' u' := by
  have hempty : t.stage.isEmpty = u.stage.isEmpty := by
    rw [Bool.eq_iff_iff, List.isEmpty_iff_length_eq_zero, List.isEmpty_iff_length_eq_zero, h.stage]
  rw [ResampleTo16k.drain] at ht hu
  rw [← hempty] at hu
  split at ht
  · rw [if_pos ‹_›] at hu
    cases ht
    cases hu
    exact h
  · rw [if_neg ‹_›] at hu
    split at ht
    · cases ht
    · rename_i o c hx
      cases ht
      split at hu
      · cases hu
      · rename_i p d hy
        cases hu
        rw [← h.fromRate] at hy
        obtain ⟨hout, hcache⟩ := resampleWithCache_twin huniform h.stage h.cache hx hy
        exact ⟨h.fromRate, rfl, by rw [List.length_append, List.length_append, h.out, hout], hcache⟩

theorem Twin.feed (huniform : rubato.Uniform Same) (h : Twin Same t u) {x y : List α}
    (hlength : x.length = y.length) (ht : t.feed ops x = .ok t') (hu : u.feed ops y = .ok u') :
    Twin Same t' u' := by
  have hpushed := h.push hlength
  rw [ResampleTo16k.feed, flushFull] at ht hu
  rw [← hpushed.fromRate, ← hpushed.stage] at hu
  split at ht
  · rw [if_pos ‹_›] at hu
    cases ht
    cases hu
    exact hpushed
  · rw [if_neg ‹_›] at hu
    exact hpushed.drain huniform ht hu

theorem Twin.drainReadyInto (h : Twin Same t u) :
    t.drainReadyInto.1.length = u.drainReadyInto.1.length ∧
      Twin Same t.drainReadyInto.2 u.drainReadyInto.2 := by
  rw [ResampleTo16k.drainReadyInto, ResampleTo16k.drainReadyInto]
  by_cases hrate : t.fromRate = targetRate
  · rw [if_pos hrate, if_pos (h.fromRate ▸ hrate)]
    exact ⟨h.stage, h.fromRate, rfl, h.out, h.cache⟩
  · rw [if_neg hrate, if_neg (h.fromRate ▸ hrate)]
    exact ⟨h.out, h.fromRate, h.stage, rfl, h.cache⟩

theorem Twin.finishInto (huniform : rubato.Uniform Same) (h : Twin Same t u) {x y : List α}
    (ht : t.finishInto ops = .ok (x, t')) (hu : u.finishInto ops = .ok (y, u')) :
    x.length = y.length := by
  rw [ResampleTo16k.finishInto] at ht hu
  rw [← h.fromRate] at hu
  split at ht
  · rw [if_pos ‹_›] at hu
    cases ht
    cases hu
    exact h.stage
  · rw [if_neg ‹_›] at hu
    obtain ⟨t₁, ht₁, ht⟩ := bind_eq_ok.mp ht
    obtain ⟨u₁, hu₁, hu⟩ := bind_eq_ok.mp hu
    cases ht
    cases hu
    exact (h.drain huniform ht₁ hu₁).out

end ResampleTo16k

namespace Files

variable {K : Type} [Field K] {codec : OpusDecoder α} {rubato : Rubato α}

/-- What a scan of the channels of a container found. -/
structure ChannelScan where
  channels : ℕ
  dualMono : Bool
  deriving DecidableEq, Repr

/-- Why the channels are not split. -/
def ChannelScan.monoFallbackReason (scan : ChannelScan) : Option String :=
  match scan.channels with
  | 0 => some "no channels"
  | 1 => some "mono audio"
  | 2 => if scan.dualMono then some "dual-mono audio" else none
  | _ => some "more than two channels"

/-- The decision, and the audio where the scan had to decode it whole. -/
structure PreparedChannels (α : Type) where
  scan : ChannelScan
  decoded : Option (List (List α))

variable (K rubato) in
structure Scanning where
  left : ResampleTo16k rubato
  right : ResampleTo16k rubato
  detector : DualMonoDetector K
  budget : Budget

section

variable (rnd : Rounding) (ops : SampleOps α) (value : α → K)

/-- A packet without a second channel ends the scan. -/
def Scanning.packet (s : Scanning K rubato) :
    Except String (Decoded α) → Except DecodeFailure (ForInStep (Scanning K rubato))
  | .error e => .error (.failed ("Decode error: " ++ e))
  | .ok decoded =>
      if decoded.channels < 2 then .ok (.done s)
      else do
        let budget ← s.budget.spend rnd decoded.frames.length
        let left ← context (s.left.feed ops (decoded.select ops (.one 0)))
        let (readyLeft, left) := left.drainReadyInto
        let right ← context (s.right.feed ops (decoded.select ops (.one 1)))
        let (readyRight, right) := right.drainReadyInto
        let detector := s.detector.push (readyLeft.map value) (readyRight.map value)
        return .yield { left, right, detector, budget }

variable [LinearOrder K] (sqrt : K → K)

def Scanning.finish (s : Scanning K rubato) : Except DecodeFailure Bool := do
  let (left, _) ← context (s.left.finishInto ops)
  let (right, _) ← context (s.right.finishInto ops)
  return (s.detector.push (left.map value) (right.map value)).isDualMono sqrt

/-- Only of two channels the audio matters. An Opus file is decoded whole for it. -/
def scanChannelsInner (rubato : Rubato α) (track : AudioTrack codec) (maxAudioSecs : Option ℚ)
    (retainDecoded : Bool) : Except DecodeFailure (PreparedChannels α) :=
  if track.channels ≠ 2 then
    .ok { scan := { channels := track.channels, dualMono := false }, decoded := none }
  else
    match track.packets with
    | .opus .. => do
        let decoded ← track.decodeChannels rnd ops rubato maxAudioSecs
        let scan : ChannelScan :=
          { channels := decoded.length, dualMono := isDualMono sqrt (decoded.map (List.map value)) }
        let retained := retainDecoded && scan.monoFallbackReason.isNone
        return { scan, decoded := if retained then some decoded else none }
    | .decoded format => do
        let scanned ← forPackets track.trackId (fun s => decide (0 < s.budget.sourceFrames))
          (Scanning.packet rnd ops value) format
          { left := (.new track.sampleRate : ResampleTo16k rubato), right := .new track.sampleRate
            detector := .new, budget := .new rnd maxAudioSecs track.sampleRate }
        let dualMono ← scanned.finish ops value sqrt
        return { scan := { channels := 2, dualMono }, decoded := none }

end

section Verdict

open ResampleTo16k (Twin)

variable {rnd : Rounding} {ops : SampleOps α} {value : α → K}
  {Same : rubato.State → rubato.State → Prop}

/-- The first two channels of a decode in one go, the samples that the scan has taken out put back. -/
structure Scanned (value : α → K) (Same : rubato.State → rubato.State → Prop) (a b : List α)
    (s : ChannelsDecode rubato) (t : Scanning K rubato) : Prop where
  left : s.acc[0]? = some (t.left.restore a)
  right : s.acc[1]? = some (t.right.restore b)
  twin : Twin Same t.left t.right
  length : a.length = b.length
  holds : t.detector.Holds ((a.map value).zip (b.map value))
  spent : t.budget.sourceFrames = s.budget.sourceFrames
  within : s.budget.maxSamples ≤ t.budget.maxSamples

/-- One packet into an accumulator that samples were taken out of. -/
theorem fed_of_flushed {t u : ResampleTo16k rubato} {taken packet : List α}
    (h : context (((t.restore taken).push packet).flushFull ops) = .ok u) :
    ∃ fed, t.feed ops packet = .ok fed ∧
      u = fed.drainReadyInto.2.restore (taken ++ fed.drainReadyInto.1) := by
  have hfeed := (ResampleTo16k.feed_restore ops taken t packet).symm.trans (context_eq_ok.mp h)
  obtain ⟨fed, hfed, rfl⟩ := map_eq_ok.mp hfeed
  exact ⟨fed, hfed, (ResampleTo16k.restore_drainReadyInto taken fed).symm⟩

variable [CharZero K]

omit [Field K] [CharZero K] in
theorem zip_map_append {a b c d : List α} (h : a.length = b.length) :
    ((a ++ c).map value).zip ((b ++ d).map value) =
      (a.map value).zip (b.map value) ++ (c.map value).zip (d.map value) := by
  rw [List.map_append, List.map_append, List.zip_append]
  rw [List.length_map, List.length_map, h]

omit [Field K] [CharZero K] in
theorem length_select (ops : SampleOps α) {decoded : Decoded α} {k : ℕ} (hk : k < 2)
    (htwo : 2 ≤ decoded.channels) :
    (decoded.select ops (.one k)).length = decoded.frames.length := by
  have hmany : 1 < decoded.channels := htwo
  rw [Decoded.select, if_pos hmany, if_pos (hk.trans_le htwo), List.length_map]

theorem Scanned.packet (huniform : rubato.Uniform Same) {a b : List α} {s : ChannelsDecode rubato}
    {t : Scanning K rubato} (h : Scanned value Same a b s t) {data : Except String (Decoded α)}
    (hstereo : ∀ decoded, data = .ok decoded → 2 ≤ decoded.channels)
    {step : ForInStep (ChannelsDecode rubato)} (hstep : s.packet rnd ops data = .ok step) :
    ∃ s' t', step = .yield s' ∧ t.packet rnd ops value data = .ok (.yield t') ∧
      ∃ a' b', Scanned value Same a' b' s' t' := by
  cases data with
  | error e => cases hstep
  | ok decoded =>
      have htwo := hstereo decoded rfl
      obtain ⟨acc, u, rfl, hfits, hleft, hu⟩ := packet_channel h.left hstep
      obtain ⟨_, v, hsame, _, hright, hv⟩ := packet_channel h.right hstep
      cases hsame
      obtain ⟨left, hfedLeft, rfl⟩ := fed_of_flushed hleft
      obtain ⟨right, hfedRight, rfl⟩ := fed_of_flushed hright
      have hspend := spend_of_le rnd ((h.spent ▸ hfits).trans h.within)
      have hlengths : (decoded.select ops (.one 0)).length = (decoded.select ops (.one 1)).length :=
        (length_select ops (by decide) htwo).trans (length_select ops (by decide) htwo).symm
      have htwin := h.twin.feed huniform hlengths hfedLeft hfedRight
      obtain ⟨hready, hdrained⟩ := htwin.drainReadyInto
      refine ⟨_, { left := left.drainReadyInto.2, right := right.drainReadyInto.2
                   detector := t.detector.push (left.drainReadyInto.1.map value)
                     (right.drainReadyInto.1.map value)
                   budget := { t.budget with
                     sourceFrames := t.budget.sourceFrames + decoded.frames.length } },
        rfl, ?_, _, _, hu, hv, hdrained, ?_, ?_, ?_, h.within⟩
      · rw [Scanning.packet, if_neg (Nat.not_lt.mpr htwo), hspend]
        exact bind_eq_ok.mpr ⟨_, rfl, bind_eq_ok.mpr ⟨left, context_eq_ok.mpr hfedLeft,
          bind_eq_ok.mpr ⟨right, context_eq_ok.mpr hfedRight, rfl⟩⟩⟩
      · rw [List.length_append, List.length_append, h.length, hready]
      · rw [zip_map_append h.length]
        exact h.holds.push _ _
      · exact congrArg (· + decoded.frames.length) h.spent

variable [LinearOrder K] [IsStrictOrderedRing K] (sqrt : K → K)

/-- The verdict at the end of the stream. -/
theorem Scanned.finish (huniform : rubato.Uniform Same) {a b : List α} {s : ChannelsDecode rubato}
    {t : Scanning K rubato} (h : Scanned value Same a b s t) {chans : List (List α)}
    (hchans : s.acc.mapM (fun chan => context (chan.finish ops)) = .ok chans) :
    t.finish ops value sqrt = .ok (isDualMono sqrt ((chans.take 2).map (List.map value))) := by
  obtain ⟨left, hleft, hx⟩ := getElem?_of_mapM hchans h.left
  obtain ⟨right, hright, hy⟩ := getElem?_of_mapM hchans h.right
  rw [context_eq_ok, ResampleTo16k.finish_restore] at hleft hright
  obtain ⟨⟨x, _⟩, hfinishLeft, rfl⟩ := map_eq_ok.mp hleft
  obtain ⟨⟨y, _⟩, hfinishRight, rfl⟩ := map_eq_ok.mp hright
  have hlength := h.twin.finishInto huniform hfinishLeft hfinishRight
  have hholds := h.holds.push (x.map value) (y.map value)
  rw [← zip_map_append h.length] at hholds
  have hlengths : ((a ++ x).map value).length = ((b ++ y).map value).length := by
    simp only [List.length_map, List.length_append, h.length, hlength]
  have hverdict := hholds.isDualMono_eq sqrt hlengths
  have htake : chans.take 2 = [a ++ x, b ++ y] := by
    cases chans with
    | nil => cases hx
    | cons c chans =>
        cases chans with
        | nil => cases hy
        | cons d chans =>
            cases hx
            cases hy
            rfl
  rw [htake]
  refine bind_eq_ok.mpr ⟨_, context_eq_ok.mpr hfinishLeft, bind_eq_ok.mpr
    ⟨_, context_eq_ok.mpr hfinishRight, ?_⟩⟩
  exact congrArg Except.ok hverdict

/-- A packet that does not end the scan. -/
def staysStereo : Except String (Decoded α) → Bool
  | .ok decoded => decide (2 ≤ decoded.channels)
  | .error _ => true

/-- The packets before the first that has no second channel. -/
def stereoPrefix (trackId : ℕ) :
    Format (Except String (Decoded α)) → Format (Except String (Decoded α)) :=
  beforeBreak trackId staysStereo

variable (rnd ops value) in
omit [CharZero K] [LinearOrder K] [IsStrictOrderedRing K] in
theorem packet_done (s : Scanning K rubato) {data : Except String (Decoded α)}
    (hstops : staysStereo data = false) : s.packet rnd ops value data = .ok (.done s) := by
  cases data with
  | error e => cases hstops
  | ok decoded => rw [Scanning.packet, if_pos (Nat.not_le.mp (of_decide_eq_false hstops))]

variable (rnd ops value) in
/-- The scan of a recording that declares two channels against their whole decode. Where the packets
before the first one without a second channel decode, the scan says what the statistic of the whole
channels says. -/
theorem scan_eq_decoded (huniform : rubato.Uniform Same) (trackId sampleRate : ℕ)
    (format : Format (Except String (Decoded α))) (maxAudioSecs : Option ℚ) {chans : List (List α)}
    (hdecoded : ({ trackId, sampleRate, channels := 2, packets := .decoded (stereoPrefix trackId format) } :
      AudioTrack codec).decodeChannels rnd ops rubato maxAudioSecs = .ok chans) (retainDecoded : Bool) :
    scanChannelsInner rnd ops value sqrt rubato
      ({ trackId, sampleRate, channels := 2, packets := .decoded format } : AudioTrack codec)
      maxAudioSecs retainDecoded = .ok {
        scan := { channels := 2, dualMono := isDualMono sqrt ((chans.take 2).map (List.map value)) }
        decoded := none } := by
  obtain ⟨acc, hacc, hfinish⟩ := bind_eq_ok.mp hdecoded
  obtain ⟨last, hrun, rfl⟩ := map_eq_ok.mp hacc
  have hsim : ∃ t, forPackets trackId (fun t => decide (0 < t.budget.sourceFrames))
      (Scanning.packet rnd ops value) (stereoPrefix trackId format)
      { left := (.new sampleRate : ResampleTo16k rubato), right := .new sampleRate, detector := .new
        budget := .new rnd maxAudioSecs sampleRate } = .ok t ∧
      ∃ a b, Scanned value Same a b last t := by
    apply forPackets_sim _ _ hrun
    · refine ⟨[], [], ?_, ?_, ResampleTo16k.twin_new sampleRate, rfl, DualMonoDetector.holds_new, rfl,
        maxSamples_whole_le rnd maxAudioSecs sampleRate⟩
      · rw [ResampleTo16k.restore_nil]
        rfl
      · rw [ResampleTo16k.restore_nil]
        rfl
    · rintro s t ⟨a, b, h⟩
      rw [h.spent]
    · rintro packet hmem htrack s t step ⟨a, b, h⟩ hstep
      refine h.packet huniform (fun decoded hdata => ?_) hstep
      have hgoes := goesOn_of_mem hmem htrack
      rw [hdata] at hgoes
      exact of_decide_eq_true hgoes
  obtain ⟨t, ht, a, b, hscanned⟩ := hsim
  rw [scanChannelsInner, if_neg (not_not.mpr rfl)]
  dsimp only
  rw [forPackets_beforeBreak fun s _ => packet_done rnd ops value s]
  exact bind_eq_ok.mpr ⟨t, ht, bind_eq_ok.mpr ⟨_, hscanned.finish sqrt huniform hfinish, rfl⟩⟩

end Verdict

section Example

theorem thirds_uniform : thirds.Uniform fun _ _ => True := by
  refine ⟨fun _ => trivial, fun _ => rfl, fun {_ _ x y _ _ _ _} _ hlength hx hy => ⟨?_, trivial⟩⟩
  have hcount : ∀ l : List ℕ, ((l.zipIdx.filter (·.2 % 3 == 0)).map Prod.fst).length =
      (List.range' 0 l.length).countP (· % 3 == 0) := by
    intro l
    rw [List.length_map, ← List.countP_eq_length_filter, ← List.zipIdx_map_snd 0 l, List.countP_map]
    rfl
  cases hx
  cases hy
  rw [hcount, hcount, hlength]

/-- A stereo recording that drops to mono, with a packet of another track. -/
theorem scan_eq_decoded_drop :
    let format : Format (Except String (Decoded ℕ)) :=
      [.ok ⟨7, .ok ⟨2, [[1, 2], [3, 4]]⟩⟩, .ok ⟨3, .error "video"⟩,
        .ok ⟨7, .ok ⟨2, [[5, 6], [7, 8], [9, 1]]⟩⟩, .ok ⟨7, .ok ⟨1, [[4]]⟩⟩]
    scanChannelsInner .binary64 countingOps (Nat.cast : ℕ → ℝ) Real.sqrt thirds
      ({ trackId := 7, sampleRate := 48000, channels := 2, packets := .decoded format } :
        AudioTrack byteCodec) none false = .ok {
        scan := { channels := 2, dualMono := isDualMono Real.sqrt [[1, 7], [2, 8]] }
        decoded := none } := by
  intro format
  have hdecoded : ({ trackId := 7, sampleRate := 48000, channels := 2
                     packets := .decoded (stereoPrefix 7 format) } : AudioTrack byteCodec).decodeChannels
      .binary64 countingOps thirds none = .ok [[1, 7], [2, 8]] := by
    decide +kernel
  have hscan := scan_eq_decoded .binary64 countingOps (Nat.cast : ℕ → ℝ) Real.sqrt thirds_uniform 7
    48000 format none hdecoded false
  simpa using hscan

end Example

end Files

end Gigastt
