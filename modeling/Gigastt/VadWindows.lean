import Gigastt.FilePulls
import Gigastt.VadScan

/-!
Windows over the speech of a container: its blocks go through the causal segmenter, and what that
releases is lent as windows of its own. They are the windows over the speech that a scan of the whole
file keeps, though neither the file nor its speech is ever there as a whole.
-/

namespace Gigastt.Files

open Outcomes Pulled Slices
open Gigastt.FileWindows (Pulling pulling_new append lent)
open Vad (VadSegmenter VadConfig Span)

variable {α P σ ε : Type} {codec : OpusDecoder α} {rubato : Rubato α}

variable (P σ codec rubato) in
/-- `source` is the buffer of the released audio with its cursor. -/
structure VadWindows where
  raw : FileWindows codec rubato
  seg : VadSegmenter P α σ
  vadFailed : Bool
  source : WindowSource α

namespace VadWindows

/-- Consecutive blocks that cover the container once. -/
def pullSpec : WindowSpec := .new 0 pullSamples 0

def new (raw : FileWindows codec rubato) (cfg : VadConfig P) (state : σ) (spec : WindowSpec) :
    VadWindows P σ codec rubato :=
  { raw, seg := .new cfg state, vadFailed := false, source := .new spec }

def regions (v : VadWindows P σ codec rubato) : List Span := v.seg.decisions.regions

def total16kSamples (v : VadWindows P σ codec rubato) : ℕ := v.raw.source.decodedTotal

/-- The scorer failed, or it found no speech in a clip that is not empty. -/
def needsFallback (v : VadWindows P σ codec rubato) : Bool :=
  v.vadFailed || (v.regions.isEmpty && decide (0 < v.total16kSamples))

/-- After a block or the end of the stream. Where the scorer fails, the windows end with what was
released before. -/
def scanned (v : VadWindows P σ codec rubato) (raw : FileWindows codec rubato) (eof : Bool) :
    Except ε (VadSegmenter P α σ × List α) → VadWindows P σ codec rubato
  | .error _ => { v with raw, vadFailed := true, source := { v.source with eof := true } }
  | .ok (seg, buf) =>
      { v with raw, seg, source := { v.source with
          buf, eof, decodedTotal := v.source.decodedTotal + (buf.length - v.source.buf.length) } }

variable (rnd : Rounding) (ops : SampleOps α) [LE P] [DecidableLE P]
  (score : List α → σ → Except ε (P × σ))

/-- Every round takes a block of the container, so its blocks bound the rounds. -/
def fillTo (target : ℕ) :
    ℕ → VadWindows P σ codec rubato → Except DecodeFailure (VadWindows P σ codec rubato)
  | 0, v => .ok v
  | rounds + 1, v =>
      if v.source.eof || decide (target ≤ v.source.decodedTotal) then .ok v
      else do
        match ← v.raw.nextWindow rnd ops with
        | (some w, raw) =>
            fillTo target rounds (v.scanned raw false (v.seg.pushWith score w.samples v.source.buf))
        | (none, raw) =>
            fillTo target rounds
              (v.scanned raw true (v.seg.finishWith score raw.source.decodedTotal v.source.buf))

def nextWindow (rounds : ℕ) (v : VadWindows P σ codec rubato) :
    Except DecodeFailure (Option (PcmWindow α) × VadWindows P σ codec rubato) :=
  if v.source.cursor.done then .ok (none, v)
  else do
    let reclaimed := { v with source := v.source.reclaim v.source.reclaimable }
    let filled ← reclaimed.fillTo rnd ops score v.source.cursor.fillTarget rounds
    if filled.source.eof && filled.source.decodedTotal == 0 then return (none, filled)
    let source := filled.source.pull
    return ((source.pulled[filled.source.pulled.length]?).join, { filled with source })

section Scanned

variable {v : VadWindows P σ codec rubato} {raw : FileWindows codec rubato} {eof : Bool}

omit [LE P] [DecidableLE P] in
theorem scanned_error (e : ε) : v.scanned raw eof (.error e) =
    { v with raw, vadFailed := true, source := { v.source with eof := true } } := rfl

omit [LE P] [DecidableLE P] in
/-- What was released stands behind the buffer. -/
theorem scanned_ok {seg : VadSegmenter P α σ} {out : List α} :
    v.scanned raw eof (.ok (seg, v.source.buf ++ out) : Except ε _) =
      { v with raw, seg, source := { append v.source out with eof } } := by
  simp only [scanned, append, List.length_append, Nat.add_sub_cancel_left]

end Scanned

/-- The window source over what the segmenter releases. -/
def onScan (v : VadWindows P σ codec rubato) (d : Decoder α) : Gigastt.FileWindows α :=
  { source := v.source, decoder := d, skipsEmpty := true }

/-- The windows follow the source over a scan with the given outcome, of a container with the given
ending. -/
structure Follows (rounds : ℕ) (ending : Except DecodeFailure (FileWindows codec rubato))
    (outcome : Except DecodeFailure (Option (VadSegmenter P α σ)))
    (v : VadWindows P σ codec rubato) (d : Decoder α) : Prop where
  live : v.source.eof = false → v.vadFailed = false ∧ ∃ windows : List (PcmWindow α),
    Yields (FileWindows.nextWindow rnd ops) v.raw windows ending ∧ windows.length < rounds ∧
      v.seg.scan score (ending.map fun f => f.source.decodedTotal) (windows.map PcmWindow.samples) =
        { blocks := d.blocks, tail := d.tail, outcome }
  ended : v.source.eof = true → outcome = .ok (if v.vadFailed then none else some v.seg) ∧
    (v.vadFailed = false → ending = .ok v.raw)

/-- The windows and the source over the scan, in the midst of a run. -/
def Runs (rounds : ℕ) (ending : Except DecodeFailure (FileWindows codec rubato))
    (outcome : Except DecodeFailure (Option (VadSegmenter P α σ))) (speech : List α) (spec : WindowSpec)
    (v : VadWindows P σ codec rubato) (g : Gigastt.FileWindows α) : Prop :=
  ∃ d k, g = onScan v d ∧ Follows rnd ops score rounds ending outcome v d ∧ Pulling speech spec g k

section Follows

variable {rnd ops score} {rounds : ℕ} {ending : Except DecodeFailure (FileWindows codec rubato)}
  {outcome : Except DecodeFailure (Option (VadSegmenter P α σ))} {v : VadWindows P σ codec rubato}
  {d : Decoder α}

omit [LE P] [DecidableLE P] in
theorem append_nil (s : WindowSource α) : append s [] = s := by
  rw [append, List.append_nil]
  rfl

omit [LE P] [DecidableLE P] in
theorem append_live {s : WindowSource α} (h : s.eof = false) (out : List α) :
    { append s out with eof := false } = append s out := by
  rw [append, h]

theorem fillTo_stopped {target : ℕ} (rounds : ℕ)
    (h : (v.source.eof || decide (target ≤ v.source.decodedTotal)) = true) :
    v.fillTo rnd ops score target rounds = .ok v := by
  cases rounds with
  | zero => rfl
  | succ rounds => rw [fillTo, if_pos h]

theorem Follows.of_reclaim (h : Follows rnd ops score rounds ending outcome v d) (count : ℕ) :
    Follows rnd ops score rounds ending outcome { v with source := v.source.reclaim count } d :=
  ⟨h.live, h.ended⟩

theorem follows_failed (raw : FileWindows codec rubato) (d : Decoder α) :
    Follows rnd ops score rounds ending (.ok none)
      { v with raw, vadFailed := true, source := { v.source with eof := true } } d where
  live h := by cases h
  ended _ := ⟨rfl, fun h => (by cases h)⟩

theorem Follows.fillRounds {left : ℕ} (h : Follows rnd ops score rounds ending outcome v d)
    (hleft : v.source.eof = false → ∀ windows,
      Yields (FileWindows.nextWindow rnd ops) v.raw windows ending → windows.length < left)
    (target : ℕ) :
    match v.fillTo rnd ops score target left with
    | .ok u =>
        u.source = (Gigastt.FileWindows.fillTo target d.tail d.blocks v.source).1 ∧
          Follows rnd ops score rounds ending outcome u
            (Gigastt.FileWindows.fillTo target d.tail d.blocks v.source).2
    | .error e => outcome = .error e := by
  obtain ⟨blocks, tail⟩ := d
  induction left generalizing v blocks with
  | zero =>
      have hend : v.source.eof = true := by
        by_contra hlive
        rw [Bool.not_eq_true] at hlive
        obtain ⟨_, windows, hyields, _⟩ := h.live hlive
        exact Nat.not_lt_zero _ (hleft hlive windows hyields)
      rw [FileWindows.traced_of_stopped (by rw [hend, Bool.true_or])]
      exact ⟨rfl, h⟩
  | succ left ih =>
      by_cases hstop : (v.source.eof || decide (target ≤ v.source.decodedTotal)) = true
      · rw [fillTo_stopped _ hstop, FileWindows.traced_of_stopped hstop]
        exact ⟨rfl, h⟩
      have hlive : v.source.eof = false := by
        by_contra hend
        exact hstop (by rw [Bool.not_eq_false] at hend; rw [hend, Bool.true_or])
      obtain ⟨hfailed, windows, hyields, hrounds, hscan⟩ := h.live hlive
      have hfewer := hleft hlive windows hyields
      rw [fillTo, if_neg hstop]
      cases hyields with
      | fails hcall =>
          cases hscan
          rw [hcall]
          rfl
      | @ends _ raw hcall =>
          rw [hcall]
          dsimp only [bind, Except.bind]
          rw [VadSegmenter.finishWith_append]
          rw [List.map_nil, Except.map, VadSegmenter.scan] at hscan
          cases hfinish : v.seg.finishWith score raw.source.decodedTotal [] with
          | error e =>
              rw [hfinish] at hscan
              cases hscan
              rw [Except.map, scanned_error, fillTo_stopped _ rfl, Gigastt.FileWindows.fillTo,
                if_neg hstop]
              exact ⟨by rw [append_nil], follows_failed raw _⟩
          | ok result =>
              rw [hfinish] at hscan
              cases hscan
              rw [Except.map, scanned_ok, fillTo_stopped _ rfl, Gigastt.FileWindows.fillTo,
                if_neg hstop]
              refine ⟨rfl, fun h => (by cases h), fun _ => ⟨?_, fun _ => rfl⟩⟩
              rw [hfailed]
              rfl
      | @gives _ raw w later _ hcall hrest =>
          rw [hcall]
          dsimp only [bind, Except.bind]
          rw [VadSegmenter.pushWith_append]
          rw [List.map_cons, VadSegmenter.scan] at hscan
          cases hpush : v.seg.pushWith score w.samples [] with
          | error e =>
              rw [hpush] at hscan
              cases hscan
              rw [Except.map, scanned_error, fillTo_stopped _ rfl, Gigastt.FileWindows.fillTo,
                if_neg hstop]
              exact ⟨by rw [append_nil], follows_failed raw _⟩
          | ok result =>
              rw [hpush] at hscan
              cases hscan
              rw [Except.map, scanned_ok, append_live hlive, Gigastt.FileWindows.fillTo, if_neg hstop]
              refine ih (fun _ windows hyields' => ?_) _ ⟨fun _ => ?_, fun h => ?_⟩
              · obtain ⟨rfl, _⟩ := hrest.unique hyields'
                exact Nat.lt_of_succ_lt_succ hfewer
              · exact ⟨hfailed, later, hrest, Nat.lt_of_succ_lt hrounds, rfl⟩
              · exact absurd h (by simp [append, hlive])

theorem Follows.fillTo (h : Follows rnd ops score rounds ending outcome v d) (target : ℕ) :
    match v.fillTo rnd ops score target rounds with
    | .ok u =>
        u.source = (Gigastt.FileWindows.fillTo target d.tail d.blocks v.source).1 ∧
          Follows rnd ops score rounds ending outcome u
            (Gigastt.FileWindows.fillTo target d.tail d.blocks v.source).2
    | .error e => outcome = .error e := by
  refine h.fillRounds (fun hlive windows hyields => ?_) target
  obtain ⟨_, windows', hyields', hrounds, _⟩ := h.live hlive
  obtain ⟨rfl, _⟩ := hyields.unique hyields'
  exact hrounds

/-- A call of `next_window` returns what the source over the scan lends. -/
theorem Follows.nextWindow (h : Follows rnd ops score rounds ending outcome v d) :
    match v.nextWindow rnd ops score rounds with
    | .ok (w, u) => w = (onScan v d).lent ∧ ∃ d', onScan u d' = (onScan v d).nextWindow ∧
        Follows rnd ops score rounds ending outcome u d'
    | .error e => outcome = .error e := by
  cases hdone : v.source.cursor.done with
  | true =>
      have hsame : (onScan v d).nextWindow = onScan v d := Gigastt.FileWindows.nextWindow_done hdone
      rw [VadWindows.nextWindow, if_pos hdone]
      refine ⟨?_, d, hsame.symm, h⟩
      rw [lent, hsame, List.getElem?_eq_none (Nat.le_refl _)]
      rfl
  | false =>
      have hfill := (h.of_reclaim v.source.reclaimable).fillTo v.source.cursor.fillTarget
      rw [VadWindows.nextWindow, hdone, if_neg Bool.false_ne_true]
      dsimp only [bind, Except.bind]
      cases hfilled : VadWindows.fillTo rnd ops score v.source.cursor.fillTarget rounds
          { v with source := v.source.reclaim v.source.reclaimable } with
      | error e =>
          rw [hfilled] at hfill
          exact hfill
      | ok u =>
          rw [hfilled] at hfill
          obtain ⟨hsource, hfollows⟩ := hfill
          change u.source = (onScan v d).filled.1 at hsource
          change Follows rnd ops score rounds ending outcome u (onScan v d).filled.2 at hfollows
          cases hskip : (u.source.eof && u.source.decodedTotal == 0) with
          | true =>
              have hnext : (onScan v d).nextWindow = onScan u (onScan v d).filled.2 := by
                rw [Gigastt.FileWindows.nextWindow_skipped hdone (by rw [← hsource]; exact hskip),
                  ← hsource]
                rfl
              dsimp only
              rw [hskip, if_pos rfl]
              refine ⟨?_, _, hnext.symm, hfollows⟩
              rw [lent, hnext, List.getElem?_eq_none]
              · rfl
              · change u.source.pulled.length ≤ _
                rw [hsource, Gigastt.FileWindows.filled_pulled]
          | false =>
              have hnext : (onScan v d).nextWindow =
                  onScan { u with source := u.source.pull } (onScan v d).filled.2 := by
                rw [Gigastt.FileWindows.nextWindow_pulled hdone (by rw [← hsource]; exact hskip),
                  ← hsource]
                rfl
              dsimp only
              rw [hskip, if_neg Bool.false_ne_true]
              refine ⟨?_, _, hnext.symm, ⟨fun hlive => ?_, fun hend => ?_⟩⟩
              · rw [lent, hnext, hsource, Gigastt.FileWindows.filled_pulled]
                rfl
              · rw [WindowSource.pull_eof] at hlive
                exact hfollows.live hlive
              · rw [WindowSource.pull_eof] at hend
                exact hfollows.ended hend

variable (rnd ops score rounds ending outcome) in
theorem runs_follow (speech : List α) {spec : WindowSpec} (hspec : spec.Framed) :
    Pulled.Follows (nextWindow rnd ops score rounds) Gigastt.FileWindows.nextWindow lent
      (FileWindows.failureOf outcome)
      (Runs rnd ops score rounds ending outcome speech spec) where
  call v g hsim := by
    obtain ⟨d, k, rfl, hfollows, hpulling⟩ := hsim
    have hnext := hfollows.nextWindow
    cases hcall : v.nextWindow rnd ops score rounds with
    | error e =>
        rw [hcall] at hnext
        exact .inr ⟨e, by rw [show outcome = _ from hnext]; rfl, rfl⟩
    | ok result =>
        rw [hcall] at hnext
        obtain ⟨hlent, d', hover, hfollows'⟩ := hnext
        exact .inl ⟨result.2, by rw [← hlent], d', k + 1, hover.symm, hfollows', (hpulling.next hspec).1⟩
  live v g v' hsim hfailure hcall := by
    obtain ⟨d, k, rfl, hfollows, hpulling⟩ := hsim
    have hlive : ∀ {u : VadWindows P σ codec rubato} {d : Decoder α},
        Follows rnd ops score rounds ending outcome u d → u.source.eof = false := by
      intro u d hu
      by_contra hend
      obtain ⟨hok, _⟩ := hu.ended (by simpa using hend)
      rw [hok] at hfailure
      cases hfailure
    have hnext := hfollows.nextWindow
    rw [hcall] at hnext
    obtain ⟨_, d', hover, hfollows'⟩ := hnext
    have hdone : (onScan v d).source.cursor.done = false := by
      by_contra hdone
      have hend := hpulling.done_eof (by simpa using hdone)
      exact absurd hend (by simp [onScan, hlive hfollows])
    have hfilled : (onScan v d).filled.1.eof = false := by
      rw [← Gigastt.FileWindows.nextWindow_eof hdone, ← hover]
      exact hlive hfollows'
    have hpulled := Gigastt.FileWindows.nextWindow_pulled hdone (by rw [hfilled, Bool.and_false]; rfl)
    rw [lent, hpulled]
    exact (hpulling.pull_live hspec hdone hfilled).2

variable (score) in
/-- All windows over the scan, and the state in the end. -/
theorem exists_yields {raw : FileWindows codec rubato} {blocks : List (PcmWindow α)}
    (hraw : Yields (FileWindows.nextWindow rnd ops) raw blocks ending) (hrounds : blocks.length < rounds)
    (cfg : VadConfig P) (state : σ) {spec : WindowSpec} (hspec : spec.Framed)
    {scan : Vad.Scan P α σ DecodeFailure}
    (hscan : (VadSegmenter.new cfg state).scan score (ending.map fun f => f.source.decodedTotal)
      (blocks.map PcmWindow.samples) = scan) :
    match scan.outcome with
    | .error e => ∃ windows,
        Yields (nextWindow rnd ops score rounds) (new raw cfg state spec) windows (.error e) ∧
        windows.length ≤ (spec.windows (scan.blocks.flatten ++ scan.tail).length).length
    | .ok closed => ∃ v, Yields (nextWindow rnd ops score rounds) (new raw cfg state spec)
        ((spec.windows (scan.blocks.flatten ++ scan.tail).length).map
          (lend (scan.blocks.flatten ++ scan.tail))) (.ok v) ∧
        closed = (if v.vadFailed then none else some v.seg) ∧
        (v.vadFailed = false → ending = .ok v.raw) := by
  obtain ⟨released, tail, outcome⟩ := scan
  have hfollows : Follows rnd ops score rounds ending outcome (new raw cfg state spec)
      { blocks := released, tail } :=
    ⟨fun _ => ⟨rfl, blocks, hraw, hrounds, hscan⟩, fun h => (by cases h)⟩
  have hpulling : Pulling (released.flatten ++ tail) spec
      (onScan (new raw cfg state spec) { blocks := released, tail }) 0 :=
    pulling_new hspec { blocks := released, tail } true
  cases outcome with
  | error e =>
      have hbound := (hpulling.all hspec (spec.windows (released.flatten ++ tail).length).length).2
      rw [Nat.zero_add, List.getElem?_eq_none (Nat.le_refl _)] at hbound
      exact (runs_follow rnd ops score rounds ending _ _ hspec).yields_error rfl
        ⟨_, 0, rfl, hfollows, hpulling⟩ hbound
  | ok closed =>
      have hgiven := fun i => (hpulling.all hspec i).2
      simp only [Nat.zero_add, ← List.getElem?_map] at hgiven
      obtain ⟨v, hyields, d, k, hover, hlast, _⟩ :=
        (runs_follow rnd ops score rounds ending _ _ hspec).yields rfl
          ⟨_, 0, rfl, hfollows, hpulling⟩ hgiven
      obtain ⟨hbefore, hnone⟩ :=
        hpulling.all hspec (spec.windows (released.flatten ++ tail).length).length
      rw [Nat.zero_add, List.getElem?_eq_none (Nat.le_refl _)] at hnone
      have hend := hbefore.ended hspec hnone
      rw [List.length_map, Function.iterate_succ_apply'] at hover
      rw [hover] at hend
      obtain ⟨hclosed, hending⟩ := hlast.ended hend
      exact ⟨v, hyields, Except.ok.inj hclosed, hending⟩

end Follows

omit [LE P] [DecidableLE P] in
/-- The blocks of a container are consecutive pieces of its signal. -/
theorem flatten_pulls (signal : List α) :
    (((pullSpec.windows signal.length).map (lend signal)).map PcmWindow.samples).flatten = signal := by
  have hpieces : ((pullSpec.windows signal.length).map (lend signal)).map PcmWindow.samples =
      pieces pullSamples signal := by
    apply List.ext_getElem?
    intro k
    rw [List.getElem?_map, List.getElem?_map, pullSpec, AudioChunks.windows_pull,
      getElem?_pieces (by decide)]
    split
    · exact congrArg some (slice_min_length ..)
    · rfl
  rw [hpieces, flatten_pieces (by decide)]

omit [LE P] [DecidableLE P] in
theorem vadFailed_of_none {v : VadWindows P σ codec rubato}
    (h : none = if v.vadFailed then none else some v.seg) : v.vadFailed = true := by
  cases hfailed : v.vadFailed with
  | true => rfl
  | false =>
      rw [hfailed] at h
      cases h

theorem framed_pull : pullSpec.Framed := WindowSpec.new_framed 0 0 (by decide) (by decide)

section Container

variable {rnd ops score} {src : Source codec rubato} {spec : WindowSpec}

variable (rnd ops score src) in
/-- The pulls of a container, no more than are enough for it. -/
theorem exists_pulls (cfg : VadConfig P) (state : σ) (hspec : spec.Framed) :
    ∃ enough, ∀ rounds ≥ enough, ∃ windows ending, windows.length < enough ∧
      Yields (nextWindow rnd ops score rounds) (new (.new src pullSpec) cfg state spec) windows ending ∧
      match (FileWindows.new src .flat).drainToVec rnd ops with
      | .error e => ending = .error e ∨ ∃ v, ending = .ok v ∧ v.vadFailed = true
      | .ok signal => ∃ v, ending = .ok v ∧
          match Vad.frameProbs score state signal with
          | .error _ => v.vadFailed = true
          | .ok probs => v.vadFailed = false ∧ v.total16kSamples = signal.length ∧
              v.regions = Vad.regionsFromProbs probs Vad.frameSamples signal.length cfg ∧
              windows = (spec.windows (Vad.kept signal v.regions).length).map
                (lend (Vad.kept signal v.regions)) := by
  rw [FileWindows.drainToVec_eq]
  cases houtcome : (src.trace rnd ops).outcome with
  | error e =>
      obtain ⟨blocks, hraw, _⟩ := FileWindows.yields_of_error framed_pull houtcome
      generalize hscan : (VadSegmenter.new cfg state).scan score (.error e : Except DecodeFailure ℕ)
        (blocks.map PcmWindow.samples) = scan
      refine ⟨max (blocks.length + 1)
        ((spec.windows (scan.blocks.flatten ++ scan.tail).length).length + 1), fun rounds hrounds => ?_⟩
      have hbelow := Nat.lt_of_lt_of_le (Nat.lt_succ_self _) (Nat.le_max_right (blocks.length + 1)
        ((spec.windows (scan.blocks.flatten ++ scan.tail).length).length + 1))
      have hyields := exists_yields score hraw ((Nat.le_max_left _ _).trans hrounds) cfg state hspec hscan
      rcases VadSegmenter.scan_failed (.new cfg state) score e (blocks.map PcmWindow.samples) with
        hfailed | hfailed
      · rw [← hscan, hfailed, hscan] at hyields
        obtain ⟨windows, hwindows, hlength⟩ := hyields
        exact ⟨windows, _, Nat.lt_of_le_of_lt hlength hbelow, hwindows, .inl rfl⟩
      · rw [← hscan, hfailed, hscan] at hyields
        obtain ⟨v, hv, hnone, _⟩ := hyields
        exact ⟨_, _, (List.length_map _).trans_lt hbelow, hv, .inr ⟨v, rfl, vadFailed_of_none hnone⟩⟩
  | ok tail =>
      generalize hsignal : (src.trace rnd ops).blocks.flatten ++ tail = signal
      obtain ⟨raw, hraw, htotal⟩ := FileWindows.yields_of_ok framed_pull houtcome hsignal
      have hscanned := Vad.scan_spec DecodeFailure score cfg state (flatten_pulls signal)
      generalize hscan : (VadSegmenter.new cfg state).scan score
        (.ok signal.length : Except DecodeFailure ℕ)
        (((pullSpec.windows signal.length).map (lend signal)).map PcmWindow.samples) = scan at hscanned
      refine ⟨max ((pullSpec.windows signal.length).length + 1)
        ((spec.windows (scan.blocks.flatten ++ scan.tail).length).length + 1), fun rounds hrounds => ?_⟩
      have hbelow := Nat.lt_of_lt_of_le (Nat.lt_succ_self _)
        (Nat.le_max_right ((pullSpec.windows signal.length).length + 1)
          ((spec.windows (scan.blocks.flatten ++ scan.tail).length).length + 1))
      have hscan' : (VadSegmenter.new cfg state).scan score
          ((.ok raw : Except DecodeFailure (FileWindows codec rubato)).map fun f => f.source.decodedTotal)
          (((pullSpec.windows signal.length).map (lend signal)).map PcmWindow.samples) = scan := by
        rw [Except.map, htotal]
        exact hscan
      have hyields := exists_yields score hraw
        (by rw [List.length_map]; exact (Nat.le_max_left _ _).trans hrounds) cfg state hspec hscan'
      rw [Except.map, hsignal]
      dsimp only at hscanned ⊢
      cases hprobs : Vad.frameProbs score state signal with
      | error e =>
          rw [hprobs] at hscanned
          rw [hscanned] at hyields
          obtain ⟨v, hv, hfailed, _⟩ := hyields
          exact ⟨_, _, (List.length_map _).trans_lt hbelow, hv, v, rfl, vadFailed_of_none hfailed⟩
      | ok probs =>
          rw [hprobs] at hscanned
          obtain ⟨closed, hclosed, hregions, hkept⟩ := hscanned
          rw [hclosed] at hyields
          obtain ⟨v, hv, hseg, hend⟩ := hyields
          refine ⟨_, _, (List.length_map _).trans_lt hbelow, hv, v, rfl, ?_⟩
          cases hfailed : v.vadFailed with
          | true =>
              rw [hfailed] at hseg
              cases hseg
          | false =>
              rw [hfailed] at hseg
              obtain rfl : closed = v.seg := Option.some.inj hseg
              refine ⟨rfl, ?_, hregions, by rw [hkept]; rfl⟩
              rw [total16kSamples, ← Except.ok.inj (hend hfailed)]
              exact htotal

end Container

/-- The windows over the speech of a container against the scan of its whole signal. Where the scan finds
regions, the pulls give the windows over the speech in them, and know the regions and the length in the
end. Where the scorer fails, they ask for the fallback. Where the container fails, they meet that failure
or the scorer's before it. -/
theorem vad_pulls_eq_batch (src : Source codec rubato) (cfg : VadConfig P) (state : σ)
    {spec : WindowSpec} (hspec : spec.Framed) : ∃ enough, ∀ rounds ≥ enough,
    let first : VadWindows P σ codec rubato := new (.new src pullSpec) cfg state spec
    let Yields := Pulled.Yields (nextWindow rnd ops score rounds) first
    match (FileWindows.new src .flat).drainToVec rnd ops with
    | .ok signal =>
        match Vad.frameProbs score state signal with
        | .ok probs =>
            let regions := Vad.regionsFromProbs probs Vad.frameSamples signal.length cfg
            let speech := Vad.kept signal regions
            ∃ v, Yields ((spec.windows speech.length).map (lend speech)) (.ok v) ∧
              v.vadFailed = false ∧ v.regions = regions ∧ v.total16kSamples = signal.length
        | .error _ => ∃ windows v, Yields windows (.ok v) ∧ v.vadFailed = true
    | .error e => ∃ windows ending, Yields windows ending ∧
        (ending = .error e ∨ ∃ v, ending = .ok v ∧ v.vadFailed = true) := by
  obtain ⟨enough, hpulls⟩ := exists_pulls rnd ops score src cfg state hspec
  refine ⟨enough, fun rounds hrounds => ?_⟩
  obtain ⟨windows, ending, _, hyields, hending⟩ := hpulls rounds hrounds
  intro first Yields
  cases hdrained : (FileWindows.new src .flat).drainToVec rnd ops with
  | error e =>
      rw [hdrained] at hending
      exact ⟨windows, ending, hyields, hending⟩
  | ok signal =>
      rw [hdrained] at hending
      obtain ⟨v, rfl, hscored⟩ := hending
      dsimp only
      cases hprobs : Vad.frameProbs score state signal with
      | error e =>
          rw [hprobs] at hscored
          exact ⟨windows, v, hyields, hscored⟩
      | ok probs =>
          rw [hprobs] at hscored
          obtain ⟨hfailed, htotal, hregions, rfl⟩ := hscored
          rw [hregions] at hyields
          exact ⟨v, hyields, hfailed, hregions, htotal⟩

/-- The speech is in the last of three frames, the only one that begins with a loud sample. -/
theorem vad_pulls_eq_batch_wave :
    let score := fun (frame : List ℕ) (state : ℕ) => (.ok (frame.headD 0, state) : Except Unit (ℕ × ℕ))
    let cfg : VadConfig ℕ := { threshold := 2, minSilenceMs := 0, minSpeechMs := 1, speechPadMs := 0 }
    let spec := WindowSpec.new 0 1280 640
    ∃ enough, ∀ rounds ≥ enough, ∃ v,
      Pulled.Yields (nextWindow .binary64 FileWindows.plainOps score rounds)
        (new (.new (FileWindows.waveFile none) pullSpec) cfg 0 spec)
        ((spec.windows 476).map (lend (.replicate 476 2))) (.ok v) ∧
        v.regions = [(1024, 1500)] ∧ v.total16kSamples = 1500 := by
  intro score cfg spec
  have hspec : spec.Framed := WindowSpec.new_framed 0 640 (by decide) (by decide)
  have hdrained : (FileWindows.new (FileWindows.waveFile none) .flat).drainToVec .binary64
      FileWindows.plainOps = .ok (.replicate 900 1 ++ .replicate 600 2) := by
    decide +kernel
  have hprobs : Vad.frameProbs score 0 (.replicate 900 1 ++ .replicate 600 2) = .ok [1, 1, 2] := by
    decide +kernel
  have hregions : Vad.regionsFromProbs [1, 1, 2] Vad.frameSamples 1500 cfg = [(1024, 1500)] := by
    decide +kernel
  have hkept : Vad.kept (.replicate 900 1 ++ .replicate 600 2) [(1024, 1500)] =
      List.replicate 476 2 := by
    decide +kernel
  obtain ⟨enough, hyields⟩ := vad_pulls_eq_batch .binary64 FileWindows.plainOps score
    (FileWindows.waveFile none) cfg 0 hspec
  simp only [hdrained, hprobs, List.length_append, List.length_replicate, hregions, hkept] at hyields
  refine ⟨enough, fun rounds hrounds => ?_⟩
  obtain ⟨v, hv, _, hspans, htotal⟩ := hyields rounds hrounds
  exact ⟨v, hv, hspans, htotal⟩

end VadWindows

end Gigastt.Files
