import Gigastt.Outcomes
import Gigastt.VadRelease

/-!
The segmenter over a stream of blocks. Its decisions are those of the frames scored so far, its
buffer is the slice of the signal from the retained start on, and what it has appended to the output
is the kept audio below the watermark.
-/

namespace Gigastt.Vad

open Outcomes Slices

variable {P α σ ε : Type}

section Frames

variable {score : List α → σ → Except ε (P × σ)} {signal : List α}

/-- The first frame of those left to score. -/
theorem frameProbsFrom_next {fuel pos : Nat} {state : σ} {probs : List P}
    (h : frameProbsFrom score signal fuel pos state = .ok probs)
    (hfuel : signal.length - pos ≤ fuel) (hpos : pos < signal.length) :
    ∃ p state' rest fuel', probs = p :: rest ∧
      score (slice signal pos (min (pos + frameSamples) signal.length)) state = .ok (p, state') ∧
      signal.length - min (pos + frameSamples) signal.length ≤ fuel' ∧
      frameProbsFrom score signal fuel' (min (pos + frameSamples) signal.length) state' =
        .ok rest := by
  cases fuel with
  | zero => omega
  | succ fuel =>
      rw [frameProbsFrom, if_pos hpos] at h
      obtain ⟨⟨p, state'⟩, hscore, h⟩ := bind_eq_ok.mp h
      obtain ⟨rest, hrest, h⟩ := bind_eq_ok.mp h
      cases h
      exact ⟨p, state', rest, fuel, rfl, hscore, by rw [frameSamples]; omega, hrest⟩

/-- There is one probability per frame. -/
theorem length_frameProbsFrom {fuel pos : Nat} {state : σ} {probs : List P}
    (h : frameProbsFrom score signal fuel pos state = .ok probs)
    (hfuel : signal.length - pos ≤ fuel) :
    signal.length - pos ≤ probs.length * frameSamples ∧
      probs.length * frameSamples < signal.length - pos + frameSamples := by
  induction probs generalizing fuel pos state with
  | nil =>
      rcases Nat.lt_or_ge pos signal.length with hlt | hge
      · obtain ⟨_, _, _, _, hnil, _⟩ := frameProbsFrom_next h hfuel hlt
        cases hnil
      · rw [List.length_nil, frameSamples]
        omega
  | cons p probs ih =>
      rcases Nat.lt_or_ge pos signal.length with hlt | hge
      · obtain ⟨_, _, _, _, hcons, _, hfuel', hrest⟩ := frameProbsFrom_next h hfuel hlt
        cases hcons
        have := ih hrest hfuel'
        rw [List.length_cons, Nat.succ_mul]
        simp only [frameSamples] at this ⊢
        omega
      · cases fuel with
        | zero => cases h
        | succ fuel =>
            rw [frameProbsFrom, if_neg (by omega)] at h
            cases h

end Frames

namespace VadSegmenter

/-- The release position of a segmenter that has written `out`, at watermark `w`. -/
def release (seg : VadSegmenter P α σ) (signal : List α) (w : Nat) (out : List α) : Release α where
  signal
  watermark := w
  outIdx := seg.outIdx
  copiedTo := seg.copiedTo
  out

variable [LE P] [DecidableLE P]

/-- A segmenter that has been fed the first `avail` samples of a signal and has written `out`. -/
structure Scanning (score : List α → σ → Except ε (P × σ)) (params : Params P) (signal : List α)
    (probs : List P) (avail w : Nat) (out : List α) (seg : VadSegmenter P α σ) : Prop where
  params_eq : seg.params = params
  buffered : seg.raw = slice signal seg.rawStart avail
  avail_le : avail ≤ signal.length
  pos_le : seg.decisions.pos ≤ avail
  retained : seg.rawStart ≤ w
  live : seg.decisions.Live params (seg.release signal w out)
  scored : ∃ done rest fuel, probs = done ++ rest ∧
    seg.decisions = Decisions.stepFrames params signal.length done ∧
    signal.length - seg.decisions.pos ≤ fuel ∧
    frameProbsFrom score signal fuel seg.decisions.pos seg.state = .ok rest

variable {score : List α → σ → Except ε (P × σ)} {params : Params P} {signal : List α}
  {probs : List P} {avail w : Nat} {out : List α} {seg : VadSegmenter P α σ}

theorem Scanning.retained_le (h : Scanning score params signal probs avail w out seg) :
    seg.rawStart ≤ seg.decisions.pos :=
  Nat.le_trans h.retained h.live.watermark_le

theorem Scanning.length_raw (h : Scanning score params signal probs avail w out seg) :
    seg.rawStart + seg.raw.length = avail := by
  have hstart := Nat.le_trans h.retained_le h.pos_le
  rw [h.buffered, length_slice h.avail_le]
  omega

/-- Scoring the next frame, read from the buffer, is scoring that frame of the signal. -/
theorem Scanning.scoreFrame (h : Scanning score params signal probs avail w out seg)
    (readTo stop : Nat) (hmore : seg.decisions.pos < signal.length)
    (hstop : stop = min (seg.decisions.pos + frameSamples) signal.length) (havail : stop ≤ avail)
    (hread : readTo = stop - seg.rawStart) :
    ∃ next, seg.scoreFrame score readTo stop = .ok next ∧ next.decisions.pos = stop ∧
      Scanning score params signal probs avail w out next := by
  obtain ⟨done, rest, fuel, hprobs, hdone, hfuel, hrest⟩ := h.scored
  obtain ⟨p, state', rest', fuel', hcons, hscore, hfuel', hrest'⟩ :=
    frameProbsFrom_next hrest hfuel hmore
  have hslice : slice seg.raw (seg.decisions.pos - seg.rawStart) readTo =
      slice signal seg.decisions.pos stop := by
    rw [h.buffered, hread, slice_slice h.retained_le havail]
  have hstep : seg.scoreFrame score readTo stop = .ok
      { seg with state := state', decisions := seg.decisions.step seg.params p stop } := by
    rw [VadSegmenter.scoreFrame, hslice, hstop, hscore]
    rfl
  have hpos : (seg.decisions.step seg.params p stop).pos = stop := Decisions.step_pos ..
  refine ⟨_, hstep, hpos, h.params_eq, h.buffered, h.avail_le, ?_, h.retained, ?_, ?_⟩
  · dsimp only
    rw [hpos]
    exact havail
  · dsimp only
    rw [h.params_eq]
    exact h.live.step p (by rw [hstop, frameSamples]; omega)
  · refine ⟨done ++ [p], rest', fuel', ?_, ?_, ?_, ?_⟩
    · rw [hprobs, hcons, List.append_assoc, List.singleton_append]
    · dsimp only
      rw [Decisions.stepFrames_concat, Decisions.stepFrame, ← hdone, h.params_eq, hstop]
    · dsimp only
      rw [hpos, hstop]
      exact hfuel'
    · dsimp only
      rw [hpos, hstop]
      exact hrest'

theorem Scanning.pushLoop (h : Scanning score params signal probs avail w out seg) {fuel : Nat}
    (hfuel : avail - seg.decisions.pos ≤ fuel) :
    ∃ next, VadSegmenter.pushLoop score avail fuel seg = .ok next ∧
      avail < next.decisions.pos + frameSamples ∧
      Scanning score params signal probs avail w out next := by
  induction fuel generalizing seg with
  | zero => exact ⟨seg, rfl, by rw [frameSamples]; omega, h⟩
  | succ fuel ih =>
      rw [VadSegmenter.pushLoop]
      split
      · rename_i hframe
        have havail := h.avail_le
        have hstart := h.retained_le
        obtain ⟨next, hstep, hpos, hnext⟩ := h.scoreFrame
          (seg.decisions.pos - seg.rawStart + frameSamples) (seg.decisions.pos + frameSamples)
          (by simp only [frameSamples] at hframe; omega) (by omega) hframe (by omega)
        simp only [hstep]
        apply ih hnext
        simp only [hpos, frameSamples] at hframe ⊢
        omega
      · rename_i hframe
        exact ⟨seg, rfl, by omega, h⟩

theorem Scanning.finishLoop (h : Scanning score params signal probs signal.length w out seg)
    {fuel : Nat} (hfuel : signal.length - seg.decisions.pos ≤ fuel) :
    ∃ next, VadSegmenter.finishLoop score signal.length fuel seg = .ok next ∧
      next.decisions.pos = signal.length ∧
      Scanning score params signal probs signal.length w out next := by
  induction fuel generalizing seg with
  | zero =>
      have := h.pos_le
      exact ⟨seg, rfl, by omega, h⟩
  | succ fuel ih =>
      rw [VadSegmenter.finishLoop]
      split
      · rename_i hmore
        have hlen := h.length_raw
        have hstart := h.retained_le
        obtain ⟨next, hstep, hpos, hnext⟩ := h.scoreFrame
          (min (seg.decisions.pos - seg.rawStart + frameSamples) seg.raw.length)
          (min (seg.decisions.pos + frameSamples) signal.length) hmore rfl (Nat.min_le_right _ _)
          (by omega)
        simp only [hstep]
        apply ih hnext
        simp only [hpos, frameSamples]
        omega
      · have := h.pos_le
        exact ⟨seg, rfl, by omega, h⟩

omit [LE P] [DecidableLE P] in
/-- A flush moves the watermark to the decided position. -/
theorem flush_spec (hbuf : seg.raw = slice signal seg.rawStart avail)
    (hlen : seg.rawStart + seg.raw.length = avail) (hpos : seg.decisions.pos ≤ avail)
    (hret : seg.rawStart ≤ w) (hlive : seg.decisions.Live seg.params (seg.release signal w out)) :
    ∃ outIdx copiedTo out', seg.flush out = ({ seg with outIdx, copiedTo }, out') ∧
      seg.decisions.Live seg.params ({ seg with outIdx, copiedTo }.release signal
        (seg.decisions.decidedTo seg.params) out') ∧ out <+: out' := by
  have hdecided := Decisions.decidedTo_le_pos seg.params seg.decisions
  obtain ⟨outIdx, copiedTo, out', hloop, hdrained, hout, hbegins⟩ := flushLoop_drained hbuf hret
    hlive.le_decidedTo (Nat.le_trans hdecided hpos) hlive.fits.drained hlive.fits.ordered
    (Decisions.min_lastEnd_le_decidedTo seg.params seg.decisions) hlive.fits.out_eq
  refine ⟨outIdx, copiedTo, out', ?_, ?_, hbegins⟩
  · simp only [release] at hloop
    simp only [VadSegmenter.flush, hlen, Nat.min_eq_left (Nat.le_trans hdecided hpos), hloop]
  · exact hlive.release ⟨hlive.fits.ordered, hdrained, hout⟩ rfl

/-- What is trimmed lies below the watermark. -/
theorem Scanning.trim (h : Scanning score params signal probs avail w out seg)
    (hw : w = seg.decisions.decidedTo params) :
    Scanning score params signal probs avail w out seg.trim := by
  have hlen := h.length_raw
  obtain ⟨hparams, hbuf, havail, hpos, hret, hlive, hscored⟩ := h
  unfold VadSegmenter.trim
  dsimp only
  refine ⟨hparams, ?_, havail, hpos, ?_, hlive, hscored⟩
  · dsimp only
    rw [hbuf, drop_slice]
  · dsimp only
    rw [hparams, ← hw]
    split <;> omega

/-- One block: the segmenter has then been fed that much more of the signal. -/
theorem Scanning.pushWith (h : Scanning score params signal probs avail w out seg)
    {samples : List α} (hsamples : samples = slice signal avail (avail + samples.length))
    (hfits : avail + samples.length ≤ signal.length) :
    ∃ next w' out', seg.pushWith score samples out = .ok (next, out') ∧ out <+: out' ∧
      Scanning score params signal probs (avail + samples.length) w' out' next := by
  have hlen := h.length_raw
  have hbuffered : Scanning score params signal probs (avail + samples.length) w out
      { seg with raw := seg.raw ++ samples } := by
    refine ⟨h.params_eq, ?_, hfits, Nat.le_trans h.pos_le (Nat.le_add_right _ _), h.retained,
      h.live, h.scored⟩
    conv_lhs => rw [h.buffered, hsamples]
    exact slice_append_slice (Nat.le_trans h.retained_le h.pos_le) (Nat.le_add_right _ _)
  have havail : seg.rawStart + (seg.raw ++ samples).length = avail + samples.length := by
    rw [List.length_append]
    omega
  obtain ⟨scanned, hloop, _, hscanned⟩ := hbuffered.pushLoop (Nat.sub_le _ _)
  obtain ⟨outIdx, copiedTo, out', hflush, hlive, hbegins⟩ := flush_spec hscanned.buffered
    hscanned.length_raw hscanned.pos_le hscanned.retained (hscanned.params_eq ▸ hscanned.live)
  have hflushed : Scanning score params signal probs (avail + samples.length)
      (scanned.decisions.decidedTo params) out' { scanned with outIdx, copiedTo } := by
    rw [hscanned.params_eq] at hlive
    exact ⟨hscanned.params_eq, hscanned.buffered, hscanned.avail_le, hscanned.pos_le,
      Nat.le_trans hscanned.retained hscanned.live.le_decidedTo, hlive, hscanned.scored⟩
  refine ⟨_, _, out', ?_, hbegins, hflushed.trim rfl⟩
  rw [VadSegmenter.pushWith]
  simp only [havail, hloop]
  simp [hflush]

theorem Scanning.pushAll (h : Scanning score params signal probs avail w out seg)
    {blocks : List (List α)}
    (hblocks : blocks.flatten = slice signal avail (avail + blocks.flatten.length))
    (hfits : avail + blocks.flatten.length ≤ signal.length) :
    ∃ next w' out', seg.pushAll score out blocks = .ok (next, out') ∧ out <+: out' ∧
      Scanning score params signal probs (avail + blocks.flatten.length) w' out' next := by
  induction blocks generalizing avail w out seg with
  | nil => exact ⟨seg, w, out, rfl, List.prefix_refl out, h⟩
  | cons block blocks ih =>
      rw [List.flatten_cons, List.length_append, ← Nat.add_assoc] at hblocks hfits
      have hsplit := slice_append_slice (l := signal) (Nat.le_add_right avail block.length)
        (Nat.le_add_right (avail + block.length) blocks.flatten.length)
      rw [← hsplit] at hblocks
      obtain ⟨hblock, hrest⟩ := List.append_inj hblocks
        (by rw [length_slice (by omega)]; omega)
      obtain ⟨mid, w₁, out₁, hpush, hbegins₁, hmid⟩ := h.pushWith hblock (by omega)
      obtain ⟨next, w₂, out₂, hrun, hbegins₂, hnext⟩ := ih hmid hrest hfits
      refine ⟨next, w₂, out₂, ?_, hbegins₁.trans hbegins₂, ?_⟩
      · rw [VadSegmenter.pushAll, hpush]
        exact hrun
      · rw [List.flatten_cons, List.length_append, ← Nat.add_assoc]
        exact hnext

omit seg in
theorem pushAll_append (seg : VadSegmenter P α σ) (out : List α) (fed rest : List (List α)) :
    seg.pushAll score out (fed ++ rest) =
      (seg.pushAll score out fed) >>= fun mid => mid.1.pushAll score mid.2 rest := by
  induction fed generalizing seg out with
  | nil => rfl
  | cons block fed ih =>
      rw [List.cons_append, VadSegmenter.pushAll, VadSegmenter.pushAll]
      cases hpush : seg.pushWith score block out with
      | error e => rfl
      | ok pushed => exact ih pushed.1 pushed.2

theorem scanning_new (cfg : VadConfig P) {state : σ}
    (hprobs : frameProbs score state signal = .ok probs) :
    Scanning score cfg.params signal probs 0 0 [] (new cfg state) where
  params_eq := rfl
  buffered := (slice_eq_nil (Nat.le_refl 0)).symm
  avail_le := Nat.zero_le _
  pos_le := Nat.le_refl _
  retained := Nat.le_refl _
  live := Decisions.live_quiet ⟨⟨by exact .nil, by simp [new, Decisions.new],
    by simp [new, Decisions.new]⟩, .empty, rfl⟩ (Nat.le_refl _) rfl rfl (Nat.zero_le _)
  scored := ⟨[], probs, signal.length, rfl, rfl, Nat.sub_le _ _, hprobs⟩

/-- The end of the stream: the regions are the batch regions, and all of their audio is out. -/
theorem Scanning.finishWith {cfg : VadConfig P}
    (h : Scanning score cfg.params signal probs signal.length w out seg)
    (hcover : signal.length ≤ probs.length * frameSamples)
    (hfit : probs.length * frameSamples < signal.length + frameSamples) :
    ∃ next out', seg.finishWith score signal.length out = .ok (next, out') ∧ out <+: out' ∧
      next.decisions.regions = regionsFromProbs probs frameSamples signal.length cfg ∧
      out' = kept signal next.decisions.regions := by
  obtain ⟨scanned, hloop, hend, hscanned⟩ := h.finishLoop (Nat.sub_le _ _)
  obtain ⟨done, rest, fuel, hprobs, hdone, hfuel, hrest⟩ := hscanned.scored
  have hall : rest = [] := by
    have hlen := (length_frameProbsFrom hrest hfuel).2
    rw [hend, Nat.sub_self, frameSamples] at hlen
    exact List.length_eq_zero_iff.mp (by omega)
  rw [hall, List.append_nil] at hprobs
  have hregions := closed_regions_eq_batch cfg hcover hfit
  obtain ⟨hlive, hpos, _, hends⟩ := hscanned.live.close hend
  rw [← hscanned.params_eq] at hlive hpos hends
  rw [hprobs, ← hdone, ← hscanned.params_eq] at hregions
  obtain ⟨outIdx, copiedTo, out', hflush, hreleased, hbegins⟩ := @flush_spec _ _ _ signal _ _ _
    { scanned with decisions := scanned.decisions.close scanned.params signal.length }
    hscanned.buffered hscanned.length_raw (Nat.le_of_eq hpos) hscanned.retained hlive
  refine ⟨{ scanned with
    decisions := scanned.decisions.close scanned.params signal.length, outIdx, copiedTo }, out', ?_,
    hbegins, by rw [hprobs]; exact hregions, ?_⟩
  · rw [VadSegmenter.finishWith, hloop]
    exact congrArg Except.ok hflush
  · refine hreleased.fits.out_eq.trans (keptBelow_eq_kept signal fun r hr => ?_)
    have hmin := Decisions.min_lastEnd_le_decidedTo scanned.params
      (scanned.decisions.close scanned.params signal.length)
    have hle := hreleased.fits.ordered.le_lastEnd r hr
    have hend := hends r hr
    rw [hpos] at hmin
    exact Nat.le_trans (Nat.le_min.mpr ⟨hle, hend⟩) hmin

end VadSegmenter

open VadSegmenter

/-- However a signal is cut into blocks, the segmenter ends with the batch regions and has written
exactly their audio; every push before has written a prefix of it. -/
theorem segmenter_eq_batch [LE P] [DecidableLE P] (score : List α → σ → Except ε (P × σ))
    (cfg : VadConfig P) (state : σ) (signal : List α) (probs : List P)
    (hprobs : frameProbs score state signal = .ok probs) (blocks : List (List α))
    (hblocks : blocks.flatten = signal) :
    ∃ pushed out closed out', pushAll score (new cfg state) [] blocks = .ok (pushed, out) ∧
      pushed.finishWith score signal.length out = .ok (closed, out') ∧
      closed.decisions.regions = regionsFromProbs probs frameSamples signal.length cfg ∧
      out' = kept signal (regionsFromProbs probs frameSamples signal.length cfg) ∧
      ∀ fed rest, blocks = fed ++ rest → ∃ early released,
        pushAll score (new cfg state) [] fed = .ok (early, released) ∧ released <+: out' := by
  have hnew := scanning_new cfg hprobs
  have hlen := length_frameProbsFrom hprobs (Nat.sub_le _ _)
  rw [Nat.sub_zero] at hlen
  obtain ⟨pushed, w, out, hpush, _, hpushed⟩ := hnew.pushAll
    (by rw [hblocks, Nat.zero_add, slice_zero_length] : blocks.flatten = _)
    (Nat.le_of_eq (by rw [hblocks, Nat.zero_add]))
  rw [hblocks, Nat.zero_add] at hpushed
  obtain ⟨closed, out', hfinish, hbegins, hregions, hkept⟩ := hpushed.finishWith hlen.1 hlen.2
  refine ⟨pushed, out, closed, out', hpush, hfinish, hregions, by rw [hkept, hregions], ?_⟩
  intro fed rest hcut
  have hsignal : signal = fed.flatten ++ rest.flatten := by
    rw [← hblocks, hcut, List.flatten_append]
  have hfits : fed.flatten.length + rest.flatten.length ≤ signal.length :=
    Nat.le_of_eq (by rw [hsignal, List.length_append])
  obtain ⟨early, _, released, hearly, _, hmid⟩ := hnew.pushAll
    (by rw [hsignal, Nat.zero_add, slice, List.take_left, List.drop_zero] : fed.flatten = _) (by omega)
  obtain ⟨_, _, _, hrest, hlater, _⟩ := hmid.pushAll
    (by rw [hsignal, Nat.zero_add, slice, ← List.length_append, List.take_length, List.drop_left] :
      rest.flatten = _) (by omega)
  refine ⟨early, released, hearly, ?_⟩
  rw [hcut, pushAll_append, hearly] at hpush
  cases hrest.symm.trans hpush
  exact hlater.trans hbegins

/-- Two frames, the second partial, in blocks of uneven size: only the first is speech. -/
theorem segmenter_eq_batch_two :
    let score := fun (frame : List Nat) (state : Nat) =>
      (.ok (frame.headD 0, state + 1) : Except Unit (Nat × Nat))
    let cfg : VadConfig Nat := { threshold := 1, minSilenceMs := 0, minSpeechMs := 1, speechPadMs := 0 }
    let signal := List.replicate 512 1 ++ List.replicate 100 0
    let blocks := [List.replicate 300 1, [], List.replicate 212 1 ++ List.replicate 100 0]
    (frameProbs score 0 signal = .ok [1, 0] ∧ blocks.flatten = signal) ∧
      ∃ pushed out closed out', pushAll score (new cfg 0) [] blocks = .ok (pushed, out) ∧
        pushed.finishWith score signal.length out = .ok (closed, out') ∧
        closed.decisions.regions = regionsFromProbs [1, 0] frameSamples signal.length cfg ∧
        out' = kept signal (regionsFromProbs [1, 0] frameSamples signal.length cfg) ∧
        ∀ fed rest, blocks = fed ++ rest → ∃ early released,
          pushAll score (new cfg 0) [] fed = .ok (early, released) ∧ released <+: out' := by
  intro score cfg signal blocks
  have hprobs : frameProbs score 0 signal = .ok [1, 0] := by decide +kernel
  have hblocks : blocks.flatten = signal := by decide +kernel
  exact ⟨⟨hprobs, hblocks⟩, segmenter_eq_batch score cfg 0 signal [1, 0] hprobs blocks hblocks⟩

end Gigastt.Vad
