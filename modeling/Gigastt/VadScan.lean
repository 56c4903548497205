import Gigastt.VadStream

/-!
What the segmenter makes of a stream, block by block: the audio that it releases of each block and at the
end, up to where the scorer fails. It gets through a stream exactly when the scan of the whole signal
does, and has then released the speech that the scan keeps.
-/

namespace Gigastt.Vad

open Outcomes Slices

variable {P α σ ε : Type}

namespace VadSegmenter

/-- What has been written before stays in front of what a flush releases. -/
theorem flushLoop_append (raw : List α) (rawStart decided : ℕ) (regions : List Span)
    (outIdx copiedTo : ℕ) (front out : List α) :
    flushLoop raw rawStart decided regions outIdx copiedTo (front ++ out) =
      ((flushLoop raw rawStart decided regions outIdx copiedTo out).1,
        (flushLoop raw rawStart decided regions outIdx copiedTo out).2.1,
        front ++ (flushLoop raw rawStart decided regions outIdx copiedTo out).2.2) := by
  induction regions generalizing outIdx copiedTo out with
  | nil => rfl
  | cons region rest ih =>
      obtain ⟨s, e⟩ := region
      simp only [flushLoop]
      have hcopy : ∀ copied : List α, (if max copiedTo s < min e decided then front ++ out ++ copied
          else front ++ out) = front ++ if max copiedTo s < min e decided then out ++ copied else out := by
        intro copied
        split
        · exact List.append_assoc ..
        · rfl
      rw [hcopy]
      cases rest with
      | nil => rfl
      | cons next rest =>
          simp only [List.isEmpty_cons, Bool.false_eq_true, if_false]
          exact ih _ _ _

theorem flush_append (seg : VadSegmenter P α σ) (front out : List α) :
    seg.flush (front ++ out) = ((seg.flush out).1, front ++ (seg.flush out).2) := by
  rw [flush, flush, flushLoop_append]

variable [LE P] [DecidableLE P] (score : List α → σ → Except ε (P × σ))

theorem pushWith_append (seg : VadSegmenter P α σ) (samples front : List α) :
    seg.pushWith score samples front =
      (seg.pushWith score samples []).map fun pushed => (pushed.1, front ++ pushed.2) := by
  rw [pushWith, pushWith]
  dsimp only
  cases VadSegmenter.pushLoop score (seg.rawStart + (seg.raw ++ samples).length)
      (seg.rawStart + (seg.raw ++ samples).length) { seg with raw := seg.raw ++ samples } with
  | error e => rfl
  | ok scanned =>
      have h := flush_append scanned front []
      rw [List.append_nil] at h
      change Except.ok ((scanned.flush front).1.trim, (scanned.flush front).2) = _
      rw [h]
      rfl

theorem finishWith_append (seg : VadSegmenter P α σ) (total : ℕ) (front : List α) :
    seg.finishWith score total front =
      (seg.finishWith score total []).map fun closed => (closed.1, front ++ closed.2) := by
  rw [finishWith, finishWith]
  cases VadSegmenter.finishLoop score total total seg with
  | error e => rfl
  | ok scanned =>
      have h := flush_append { scanned with decisions := scanned.decisions.close scanned.params total }
        front []
      rw [List.append_nil] at h
      exact congrArg Except.ok h

end VadSegmenter

/-- What is released block after block and at the end. The outcome is the segmenter in the end, nothing
where the scorer fails, or what the stream fails with. -/
structure Scan (P α σ δ : Type) where
  blocks : List (List α)
  tail : List α
  outcome : Except δ (Option (VadSegmenter P α σ))

namespace VadSegmenter

variable [LE P] [DecidableLE P] {δ : Type}

/-- A stream of blocks, and its length or what it fails with after them. -/
def scan (score : List α → σ → Except ε (P × σ)) (ending : Except δ ℕ) :
    List (List α) → VadSegmenter P α σ → Scan P α σ δ
  | [], seg =>
      match ending with
      | .error e => { blocks := [], tail := [], outcome := .error e }
      | .ok total =>
          match seg.finishWith score total [] with
          | .error _ => { blocks := [], tail := [], outcome := .ok none }
          | .ok (closed, tail) => { blocks := [], tail, outcome := .ok (some closed) }
  | block :: rest, seg =>
      match seg.pushWith score block [] with
      | .error _ => { blocks := [], tail := [], outcome := .ok none }
      | .ok (pushed, released) =>
          let later := scan score ending rest pushed
          { later with blocks := released :: later.blocks }

variable {score : List α → σ → Except ε (P × σ)} {ending : Except δ ℕ}

variable (ending) in
theorem scan_pushed {seg pushed : VadSegmenter P α σ} {blocks : List (List α)} {front out : List α}
    (h : seg.pushAll score front blocks = .ok (pushed, out)) :
    ∃ released, out = front ++ released.flatten ∧ ∀ later, seg.scan score ending (blocks ++ later) =
      { pushed.scan score ending later with
        blocks := released ++ (pushed.scan score ending later).blocks } := by
  induction blocks generalizing seg front with
  | nil =>
      cases h
      exact ⟨[], (List.append_nil _).symm, fun _ => rfl⟩
  | cons block rest ih =>
      rw [pushAll] at h
      obtain ⟨⟨mid, released⟩, hpush, h⟩ := bind_eq_ok.mp h
      rw [pushWith_append] at hpush
      obtain ⟨⟨mid', first⟩, hfirst, hmid⟩ := map_eq_ok.mp hpush
      cases hmid
      obtain ⟨more, hmore, hscan⟩ := ih h
      refine ⟨first :: more, by rw [hmore, List.flatten_cons, List.append_assoc], fun later => ?_⟩
      rw [List.cons_append, scan, hfirst]
      dsimp only
      rw [hscan]
      rfl

theorem scan_closed {seg closed : VadSegmenter P α σ} {total : ℕ} {tail : List α}
    (h : seg.finishWith score total [] = .ok (closed, tail)) :
    seg.scan score (.ok total : Except δ ℕ) [] =
      { blocks := [], tail, outcome := .ok (some closed) } := by
  rw [scan, h]

/-- A stream that ends is not what a scan fails with. -/
theorem exists_scan_outcome (seg : VadSegmenter P α σ) (score : List α → σ → Except ε (P × σ))
    (total : ℕ) (blocks : List (List α)) :
    ∃ closed, (seg.scan score (.ok total : Except δ ℕ) blocks).outcome = .ok closed := by
  induction blocks generalizing seg with
  | nil =>
      rw [scan]
      split
      · exact ⟨none, rfl⟩
      · exact ⟨some _, rfl⟩
  | cons block rest ih =>
      rw [scan]
      split
      · exact ⟨none, rfl⟩
      · exact ih _

/-- A scan of a stream that fails does not get to an end. -/
theorem scan_failed (seg : VadSegmenter P α σ) (score : List α → σ → Except ε (P × σ)) (e : δ)
    (blocks : List (List α)) :
    (seg.scan score (.error e) blocks).outcome = .error e ∨
      (seg.scan score (.error e) blocks).outcome = .ok none := by
  induction blocks generalizing seg with
  | nil => exact .inl rfl
  | cons block rest ih =>
      rw [scan]
      split
      · exact .inr rfl
      · exact ih _

end VadSegmenter

section Heard

variable {score : List α → σ → Except ε (P × σ)} {signal : List α}

/-- The scorer gets through all frames from a position on. -/
def Heard (score : List α → σ → Except ε (P × σ)) (signal : List α) (pos : ℕ) (state : σ) : Prop :=
  ∀ fuel, signal.length - pos ≤ fuel → ∃ probs, frameProbsFrom score signal fuel pos state = .ok probs

theorem heard_end {pos : ℕ} (state : σ) (h : signal.length ≤ pos) : Heard score signal pos state := by
  intro fuel _
  cases fuel with
  | zero => exact ⟨[], rfl⟩
  | succ fuel => exact ⟨[], by rw [frameProbsFrom, if_neg (by omega)]⟩

theorem heard_frame {pos stop : ℕ} {state state' : σ} {p : P} (hpos : pos < signal.length)
    (hstop : stop = min (pos + frameSamples) signal.length)
    (hscore : score (slice signal pos stop) state = .ok (p, state'))
    (h : Heard score signal stop state') : Heard score signal pos state := by
  intro fuel hfuel
  cases fuel with
  | zero => omega
  | succ fuel =>
      have hframe : 0 < frameSamples := by decide
      obtain ⟨probs, hprobs⟩ := h fuel (by omega)
      subst hstop
      refine ⟨p :: probs, ?_⟩
      rw [frameProbsFrom, if_pos hpos]
      exact bind_eq_ok.mpr ⟨_, hscore, bind_eq_ok.mpr ⟨_, hprobs, rfl⟩⟩

namespace VadSegmenter

variable [LE P] [DecidableLE P]

/-- The buffer of a segmenter that has been fed the first `avail` samples. -/
structure Buffers (signal : List α) (avail : ℕ) (seg : VadSegmenter P α σ) : Prop where
  raw : seg.raw = slice signal seg.rawStart avail
  avail_le : avail ≤ signal.length
  start_le : seg.rawStart ≤ seg.decisions.pos
  pos_le : seg.decisions.pos ≤ avail

variable {avail : ℕ} {seg next : VadSegmenter P α σ}

omit [LE P] [DecidableLE P] in
theorem Buffers.length_raw (h : Buffers signal avail seg) : seg.rawStart + seg.raw.length = avail := by
  have hstart := Nat.le_trans h.start_le h.pos_le
  rw [h.raw, length_slice h.avail_le]
  omega

/-- A frame that was scored: what is heard after it is heard with it. -/
theorem Buffers.scoreFrame (h : Buffers signal avail seg) {readTo stop : ℕ}
    (hpos : seg.decisions.pos < signal.length)
    (hstop : stop = min (seg.decisions.pos + frameSamples) signal.length) (havail : stop ≤ avail)
    (hread : readTo = stop - seg.rawStart) (hstep : seg.scoreFrame score readTo stop = .ok next) :
    Buffers signal avail next ∧ next.decisions.pos = stop ∧
      (Heard score signal next.decisions.pos next.state →
        Heard score signal seg.decisions.pos seg.state) := by
  have hstart := h.start_le
  have hslice : slice seg.raw (seg.decisions.pos - seg.rawStart) readTo =
      slice signal seg.decisions.pos stop := by
    rw [h.raw, hread, slice_slice hstart havail]
  rw [VadSegmenter.scoreFrame, hslice] at hstep
  obtain ⟨⟨p, state'⟩, hscore, hstep⟩ := bind_eq_ok.mp hstep
  cases hstep
  have hnext : (seg.decisions.step seg.params p stop).pos = stop := Decisions.step_pos ..
  refine ⟨⟨h.raw, h.avail_le, ?_, ?_⟩, hnext, fun hheard => ?_⟩
  · dsimp only
    rw [hnext]
    omega
  · dsimp only
    rw [hnext]
    exact havail
  · dsimp only at hheard
    rw [hnext] at hheard
    exact heard_frame hpos hstop hscore hheard

theorem Buffers.pushLoop (h : Buffers signal avail seg) {fuel : ℕ}
    (hrun : VadSegmenter.pushLoop score avail fuel seg = .ok next) :
    Buffers signal avail next ∧ (Heard score signal next.decisions.pos next.state →
      Heard score signal seg.decisions.pos seg.state) := by
  induction fuel generalizing seg with
  | zero =>
      cases hrun
      exact ⟨h, id⟩
  | succ fuel ih =>
      rw [VadSegmenter.pushLoop] at hrun
      split at hrun
      · rename_i hframe
        have havail := h.avail_le
        have hstart := h.start_le
        obtain ⟨mid, hstep, hrun⟩ := bind_eq_ok.mp hrun
        have hsize : 0 < frameSamples := by decide
        obtain ⟨hmid, _, hheard⟩ :=
          h.scoreFrame (by omega) (by omega) hframe (by omega) hstep
        obtain ⟨hnext, hlater⟩ := ih hmid hrun
        exact ⟨hnext, hheard ∘ hlater⟩
      · cases hrun
        exact ⟨h, id⟩

theorem Buffers.finishLoop (h : Buffers signal signal.length seg) {fuel : ℕ}
    (hfuel : signal.length - seg.decisions.pos ≤ fuel)
    (hrun : VadSegmenter.finishLoop score signal.length fuel seg = .ok next) :
    Heard score signal seg.decisions.pos seg.state := by
  induction fuel generalizing seg with
  | zero => exact heard_end _ (by omega)
  | succ fuel ih =>
      rw [VadSegmenter.finishLoop] at hrun
      split at hrun
      · rename_i hmore
        have hlength := h.length_raw
        have hstart := h.start_le
        have hsize : 0 < frameSamples := by decide
        obtain ⟨mid, hstep, hrun⟩ := bind_eq_ok.mp hrun
        obtain ⟨hmid, hpos, hheard⟩ :=
          h.scoreFrame hmore rfl (Nat.min_le_right _ _) (by omega) hstep
        exact hheard (ih hmid (by omega) hrun)
      · exact heard_end _ (by omega)

/-- A block that was pushed. -/
theorem Buffers.pushWith (h : Buffers signal avail seg) {samples out out' : List α}
    (hsamples : samples = slice signal avail (avail + samples.length))
    (hfits : avail + samples.length ≤ signal.length)
    (hpush : seg.pushWith score samples out = .ok (next, out')) :
    Buffers signal (avail + samples.length) next ∧
      (Heard score signal next.decisions.pos next.state →
        Heard score signal seg.decisions.pos seg.state) := by
  have hlength := h.length_raw
  have hbuffered : Buffers signal (avail + samples.length) { seg with raw := seg.raw ++ samples } := by
    refine ⟨?_, hfits, h.start_le, Nat.le_trans h.pos_le (Nat.le_add_right _ _)⟩
    conv_lhs => rw [h.raw, hsamples]
    exact slice_append_slice (Nat.le_trans h.start_le h.pos_le) (Nat.le_add_right _ _)
  have havail : seg.rawStart + (seg.raw ++ samples).length = avail + samples.length := by
    rw [List.length_append]
    omega
  rw [VadSegmenter.pushWith] at hpush
  dsimp only at hpush
  rw [havail] at hpush
  obtain ⟨scanned, hloop, hpush⟩ := bind_eq_ok.mp hpush
  cases hpush
  obtain ⟨hscanned, hheard⟩ := hbuffered.pushLoop hloop
  refine ⟨⟨?_, hfits, ?_, hscanned.pos_le⟩, hheard⟩
  · simp only [VadSegmenter.flush, trim]
    rw [hscanned.raw, drop_slice]
  · have hdecided := Decisions.decidedTo_le_pos scanned.params scanned.decisions
    have hstart := hscanned.start_le
    simp only [VadSegmenter.flush, trim]
    split <;> omega

/-- A stream that was scanned to its end. -/
theorem Buffers.scan {δ : Type} (h : Buffers signal avail seg) {blocks : List (List α)}
    {closed : VadSegmenter P α σ}
    (hblocks : blocks.flatten = slice signal avail (avail + blocks.flatten.length))
    (hfits : avail + blocks.flatten.length = signal.length)
    (hscan : (seg.scan score (.ok signal.length : Except δ ℕ) blocks).outcome = .ok (some closed)) :
    Heard score signal seg.decisions.pos seg.state := by
  induction blocks generalizing avail seg with
  | nil =>
      obtain rfl : avail = signal.length := hfits
      rw [VadSegmenter.scan] at hscan
      split at hscan
      · cases hscan
      · rename_i hfinish
        obtain ⟨scanned, hloop, _⟩ := bind_eq_ok.mp hfinish
        exact h.finishLoop (Nat.sub_le _ _) hloop
  | cons block rest ih =>
      rw [List.flatten_cons, List.length_append, ← Nat.add_assoc] at hblocks hfits
      rw [← slice_append_slice (l := signal) (Nat.le_add_right avail block.length)
        (Nat.le_add_right (avail + block.length) rest.flatten.length)] at hblocks
      obtain ⟨hblock, hrest⟩ := List.append_inj hblocks (by rw [length_slice (by omega)]; omega)
      rw [VadSegmenter.scan] at hscan
      split at hscan
      · cases hscan
      · rename_i hpush
        obtain ⟨hpushed, hheard⟩ := h.pushWith hblock (by omega) hpush
        exact hheard (ih hpushed hrest hfits hscan)

end VadSegmenter

end Heard

open VadSegmenter in
/-- A scan block by block against the scan of the whole signal. -/
theorem scan_spec [LE P] [DecidableLE P] (δ : Type) (score : List α → σ → Except ε (P × σ))
    (cfg : VadConfig P) (state : σ) {signal : List α} {blocks : List (List α)}
    (hblocks : blocks.flatten = signal) :
    let scan := (new cfg state).scan score (.ok signal.length : Except δ ℕ) blocks
    match frameProbs score state signal with
    | .ok probs => ∃ closed, scan.outcome = .ok (some closed) ∧
        closed.decisions.regions = regionsFromProbs probs frameSamples signal.length cfg ∧
        scan.blocks.flatten ++ scan.tail = kept signal closed.decisions.regions
    | .error _ => scan.outcome = .ok none := by
  intro scan
  have hwhole : blocks.flatten = slice signal 0 (0 + blocks.flatten.length) := by
    rw [hblocks, Nat.zero_add, slice_zero_length]
  have hfits : 0 + blocks.flatten.length = signal.length := by
    rw [hblocks, Nat.zero_add]
  cases hprobs : frameProbs score state signal with
  | ok probs =>
      have hlength := length_frameProbsFrom hprobs (Nat.sub_le _ _)
      rw [Nat.sub_zero] at hlength
      obtain ⟨pushed, w, out, hpush, _, hpushed⟩ :=
        (scanning_new cfg hprobs).pushAll hwhole (Nat.le_of_eq hfits)
      rw [hfits] at hpushed
      obtain ⟨closed, out', hfinish, _, hregions, hkept⟩ := hpushed.finishWith hlength.1 hlength.2
      obtain ⟨released, hout, hscan⟩ := scan_pushed (.ok signal.length : Except δ ℕ) hpush
      rw [finishWith_append] at hfinish
      obtain ⟨⟨closed', tail⟩, htail, hclosed⟩ := map_eq_ok.mp hfinish
      cases hclosed
      have hend := hscan []
      rw [List.append_nil, scan_closed htail] at hend
      rw [show scan = _ from hend]
      refine ⟨_, rfl, hregions, ?_⟩
      dsimp only
      rw [List.append_nil, ← hkept, hout, List.nil_append]
  | error e =>
      have hbuffers : Buffers signal 0 (new cfg state : VadSegmenter P α σ) :=
        ⟨(slice_eq_nil (Nat.le_refl 0)).symm, Nat.zero_le _, Nat.le_refl _, Nat.le_refl _⟩
      obtain ⟨closed, houtcome⟩ := exists_scan_outcome (new cfg state) score signal.length blocks
      cases closed with
      | none => exact houtcome
      | some closed =>
          obtain ⟨probs, hok⟩ := hbuffers.scan hwhole hfits houtcome signal.length (Nat.sub_le _ _)
          cases hprobs.symm.trans hok

end Gigastt.Vad
