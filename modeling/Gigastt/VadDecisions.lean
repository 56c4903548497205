import Mathlib.Data.List.Induction
import Gigastt.VadSegmenter

/-!
The decisions of the segmenter against the batch regions. After every frame the committed regions
are the padded closed runs of the prefix, with the open run merged in once it is long enough; the
open run is the one the batch pass would close next.
-/

namespace Gigastt.Vad

/-- The runs of a scan, merged. -/
def mergeRuns (minSilence : Nat) (runs : List Span) : List Span :=
  runs.foldl (mergeRun minSilence) []

variable {P : Type}

/-- The regions of closed merged runs, before the clamp to the signal. -/
def paddedRegions (params : Params P) (done : List Span) : List Span :=
  (done.filter fun r => params.minSpeech ≤ r.2 - r.1).foldl
    (fun padded r => pushPadded padded (padSpan params.pad r)) []

theorem mergeRuns_concat (minSilence : Nat) (runs : List Span) (run : Span) :
    mergeRuns minSilence (runs ++ [run]) = mergeRun minSilence (mergeRuns minSilence runs) run := by
  rw [mergeRuns, List.foldl_append, List.foldl_cons, List.foldl_nil, mergeRuns]

theorem paddedRegions_concat_long {params : Params P} {done : List Span} {ms me : Nat}
    (hlong : params.minSpeech ≤ me - ms) :
    paddedRegions params (done ++ [(ms, me)]) =
      pushPadded (paddedRegions params done) (ms - params.pad, me + params.pad) := by
  simp [paddedRegions, List.filter_append, hlong, padSpan]

theorem paddedRegions_concat_short {params : Params P} {done : List Span} {ms me : Nat}
    (hshort : me - ms < params.minSpeech) :
    paddedRegions params (done ++ [(ms, me)]) = paddedRegions params done := by
  simp [paddedRegions, List.filter_append, hshort]

theorem mergeRun_near {minSilence s e ms me : Nat} {done : List Span} (hnear : s - me < minSilence) :
    mergeRun minSilence (done ++ [(ms, me)]) (s, e) = done ++ [(ms, e)] := by
  simp [mergeRun, hnear]

theorem mergeRun_far {minSilence s e ms me : Nat} {done : List Span} (hfar : minSilence ≤ s - me) :
    mergeRun minSilence (done ++ [(ms, me)]) (s, e) = done ++ [(ms, me)] ++ [(s, e)] := by
  have hnot : ¬ s - me < minSilence := by omega
  rw [mergeRun, mergeOrPush_concat, if_neg (by simpa using hnot)]

/-- Where a padded span ends up depends on its start only; its end only stretches that entry. -/
theorem pushPadded_eq (l : List Span) (start : Nat) :
    ∃ front s e, ∀ stop, pushPadded l (start, stop) = front ++ [(s, max e stop)] := by
  rcases l.eq_nil_or_concat with rfl | ⟨front, last, rfl⟩
  · exact ⟨[], start, 0, fun stop => by simp⟩
  · by_cases hjoin : start ≤ last.2
    · exact ⟨front, last.1, last.2, fun stop => by simp [hjoin]⟩
    · exact ⟨front ++ [last], start, 0, fun stop => by simp [hjoin]⟩

theorem modify_last {α : Type} (front : List α) (last : α) (f : α → α) {i : Nat}
    (hi : i + 1 = (front ++ [last]).length) :
    (front ++ [last]).modify i f = front ++ [f last] := by
  have hidx : i = front.length := by
    rw [List.length_append, List.length_singleton] at hi
    omega
  subst hidx
  induction front with
  | nil => rfl
  | cons a front ih => exact congrArg (a :: ·) (ih (by simp))

def clampSpan (total : Nat) (r : Span) : Span := (r.1, min r.2 total)

theorem padClamped_clamp (pad total : Nat) (l : List Span) {r : Span} (hr : r.1 ≤ total) :
    padClamped pad total (l.map (clampSpan total)) r =
      (pushPadded l (padSpan pad r)).map (clampSpan total) := by
  rcases l.eq_nil_or_concat with rfl | ⟨front, last, rfl⟩
  · rfl
  · simp only [List.concat_eq_append, padClamped, padSpan, List.map_append, List.map_cons,
      List.map_nil, pushPadded_concat, clampSpan]
    by_cases hjoin : r.1 - pad ≤ last.2
    · rw [if_pos hjoin, if_pos (by omega)]
      simp only [List.map_append, List.map_cons, List.map_nil, clampSpan, Nat.min_max_distrib_right]
    · rw [if_neg hjoin, if_neg (by omega)]
      simp only [List.map_append, List.map_cons, List.map_nil, clampSpan]

/-- Clamping each padded span or the padded regions at the end comes to the same. -/
theorem foldl_padClamped (params : Params P) (total : Nat) {done : List Span}
    (hdone : ∀ r ∈ done, r.1 ≤ total) :
    (done.filter fun r => params.minSpeech ≤ r.2 - r.1).foldl (padClamped params.pad total) [] =
      (paddedRegions params done).map (clampSpan total) := by
  rw [paddedRegions]
  have hkept : ∀ r ∈ done.filter fun r => params.minSpeech ≤ r.2 - r.1, r.1 ≤ total :=
    fun r hr => hdone r (List.mem_filter.mp hr).1
  generalize done.filter _ = kept at hkept
  induction kept using List.reverseRecOn with
  | nil => rfl
  | append_singleton kept r ih =>
      have hr := hkept r (by simp)
      rw [List.foldl_append, List.foldl_append, ih fun r hr => hkept r (by simp [hr])]
      exact padClamped_clamp params.pad total _ hr

namespace Decisions

/-- Growing the entry a span was pushed into is pushing the longer span. -/
theorem growRegion_pushPadded {d : Decisions} {l : List Span} {i start claimed stop : Nat}
    (hregions : d.regions = pushPadded l (start, claimed)) (hi : i + 1 = d.regions.length)
    (hstop : claimed ≤ stop) : (d.growRegion i stop).regions = pushPadded l (start, stop) := by
  obtain ⟨front, s, e, hpush⟩ := pushPadded_eq l start
  rw [hpush] at hregions
  rw [growRegion, hregions, modify_last _ _ _ (by rw [hregions] at hi; exact hi), hpush,
    Nat.max_assoc, Nat.max_eq_right hstop]

/-- The regions are those of the closed runs, with the open run pushed in once it is long. -/
structure Committed (params : Params P) (done : List Span) (d : Decisions) : Prop where
  unclaimed : d.openIdx = none → d.regions = paddedRegions params done
  claimed : ∀ i, d.openIdx = some i → ∃ ms me, d.merged = some (ms, me) ∧
    params.minSpeech ≤ me - ms ∧ i + 1 = d.regions.length ∧
    d.regions = pushPadded (paddedRegions params done) (ms - params.pad, me)

variable {params : Params P} {done : List Span} {d : Decisions} {ms me : Nat}

theorem finalize_openIdx (params : Params P) (d : Decisions) (ms me : Nat) :
    (d.finalize params ms me).openIdx = none := by
  unfold finalize
  split
  · rfl
  · split <;> rfl

theorem finalize_inRun (params : Params P) (d : Decisions) (ms me : Nat) :
    (d.finalize params ms me).inRun = d.inRun := by
  unfold finalize
  split
  · rfl
  · split <;> rfl

theorem finalize_pos (params : Params P) (d : Decisions) (ms me : Nat) :
    (d.finalize params ms me).pos = d.pos := by
  unfold finalize
  split
  · rfl
  · split <;> rfl

theorem finalize_merged (params : Params P) (d : Decisions) (m : Option Span) (ms me : Nat) :
    { d with merged := m }.finalize params ms me =
      { d.finalize params ms me with merged := m } := by
  unfold finalize
  split
  · rfl
  · cases d.openIdx <;> rfl

/-- Closing the open run commits it. -/
theorem Committed.finalize_regions (h : Committed params done d) (hm : d.merged = some (ms, me)) :
    (d.finalize params ms me).regions = paddedRegions params (done ++ [(ms, me)]) := by
  unfold finalize
  cases hidx : d.openIdx with
  | none =>
      split
      · rename_i hshort
        rw [paddedRegions_concat_short hshort]
        exact h.unclaimed hidx
      · rename_i hlong
        rw [paddedRegions_concat_long (by omega), ← h.unclaimed hidx]
  | some i =>
      obtain ⟨ms', me', hm', hlong, hi, hregions⟩ := h.claimed i hidx
      obtain ⟨rfl, rfl⟩ : ms' = ms ∧ me' = me := by simpa [hm'] using hm
      rw [if_neg (by omega), paddedRegions_concat_long hlong]
      exact growRegion_pushPadded (d := { d with openIdx := none }) hregions hi (by omega)

theorem Committed.of_openIdx_none (hidx : d.openIdx = none)
    (hregions : d.regions = paddedRegions params done) : Committed params done d where
  unclaimed _ := hregions
  claimed i hi := by simp [hidx] at hi

/-- A speech frame stretches the open run and keeps the commitment. -/
theorem Committed.extendRun (h : Committed params done d) (hm : d.merged = some (ms, me))
    {stop : Nat} (hstop : me ≤ stop) : Committed params done (d.extendRun params stop) := by
  simp only [Decisions.extendRun, hm]
  cases hidx : d.openIdx with
  | none =>
      dsimp only
      split
      · rename_i hlong
        refine ⟨fun hnone => by simp at hnone, fun i hi => ⟨ms, stop, rfl, hlong, ?_, ?_⟩⟩
        · obtain ⟨front, s, e, hpush⟩ := pushPadded_eq d.regions (ms - params.pad)
          simp only [hpush, List.length_append, List.length_singleton, Option.some.injEq] at hi ⊢
          omega
        · rw [h.unclaimed hidx]
      · exact of_openIdx_none rfl (h.unclaimed hidx)
  | some i =>
      obtain ⟨ms', me', hm', hlong, hi, hregions⟩ := h.claimed i hidx
      obtain ⟨rfl, rfl⟩ : ms' = ms ∧ me' = me := by simpa [hm'] using hm
      refine ⟨fun hnone => by simp [growRegion] at hnone, fun j hj => ?_⟩
      obtain rfl : i = j := by simpa [growRegion, hidx] using hj
      refine ⟨ms', stop, rfl, by omega, ?_, growRegion_pushPadded hregions hi hstop⟩
      simpa [growRegion] using hi

theorem extendRun_merged (hm : d.merged = some (ms, me)) (stop : Nat) :
    (d.extendRun params stop).merged = some (ms, stop) := by
  simp only [extendRun, hm]
  split
  · rfl
  · split <;> rfl

theorem extendRun_inRun (params : Params P) (d : Decisions) (stop : Nat) :
    (d.extendRun params stop).inRun = d.inRun := by
  unfold extendRun
  split
  · rfl
  · dsimp only
    split
    · rfl
    · split <;> rfl

/-- Which run of the scan the open region is, and how the runs so far merge. -/
inductive Phase (params : Params P) (scan : RunScan) (done : List Span) (d : Decisions) : Prop
  | speaking {s ms : Nat} (hstart : scan.runStart = some s) (hrun : d.inRun = true)
      (hmerged : d.merged = some (ms, d.pos)) (hms : ms ≤ d.pos)
      (hjoin : ∀ e, mergeRun params.minSilence (mergeRuns params.minSilence scan.regions) (s, e) =
        done ++ [(ms, e)])
  | pausing {ms me : Nat} (hstart : scan.runStart = none) (hrun : d.inRun = false)
      (hmerged : d.merged = some (ms, me)) (hms : ms ≤ me) (hme : me ≤ d.pos)
      (hruns : mergeRuns params.minSilence scan.regions = done ++ [(ms, me)])
  | silent (hstart : scan.runStart = none) (hrun : d.inRun = false) (hmerged : d.merged = none)
      (hruns : mergeRuns params.minSilence scan.regions = done)
      (hapart : ∀ s e, d.pos ≤ s → mergeRun params.minSilence done (s, e) = done ++ [(s, e)])

/-- The state after the frames that led to `scan`, with `done` the runs that are closed for good. -/
structure Tracks (params : Params P) (scan : RunScan) (done : List Span) (d : Decisions) :
    Prop where
  committed : Committed params done d
  starts_le : ∀ r ∈ done, r.1 ≤ d.pos
  phase : Phase params scan done d

theorem tracks_new (params : Params P) :
    Tracks params { regions := [], runStart := none } [] new where
  committed := .of_openIdx_none rfl rfl
  starts_le r hr := by cases hr
  phase := .silent rfl rfl rfl rfl fun s e _ => by simp [mergeRun]

/-- A speech frame, once the region it belongs to is settled. -/
theorem tracks_speech {scan : RunScan} {s stop : Nat} (hcommitted : Committed params done d)
    (hstarts : ∀ r ∈ done, r.1 ≤ d.pos) (hstart : scan.runStart = some s) (hrun : d.inRun = true)
    (hmerged : d.merged = some (ms, me)) (hms : ms ≤ me) (hme : me ≤ stop) (hpos : d.pos ≤ stop)
    (hjoin : ∀ e, mergeRun params.minSilence (mergeRuns params.minSilence scan.regions) (s, e) =
      done ++ [(ms, e)]) :
    Tracks params scan done { d.extendRun params stop with pos := stop } where
  committed :=
    { unclaimed := (hcommitted.extendRun hmerged hme).unclaimed
      claimed := (hcommitted.extendRun hmerged hme).claimed }
  starts_le r hr := Nat.le_trans (hstarts r hr) hpos
  phase := .speaking hstart ((extendRun_inRun params d stop).trans hrun)
    (extendRun_merged hmerged stop) (Nat.le_trans hms hme) hjoin

/-- Closing the open run when no later run can join it. -/
theorem Tracks.leave {scan : RunScan} {stop : Nat} (hcommitted : Committed params done d)
    (hstarts : ∀ r ∈ done, r.1 ≤ d.pos) (hmerged : d.merged = some (ms, me)) (hms : ms ≤ me)
    (hme : me ≤ d.pos) (hpos : d.pos ≤ stop) (hstart : scan.runStart = none)
    (hruns : mergeRuns params.minSilence scan.regions = done ++ [(ms, me)]) :
    ∃ done', Tracks params scan done' { d.leaveRun params stop with pos := stop } := by
  obtain ⟨pos, inRun, merged, openIdx, regions⟩ := d
  obtain rfl : merged = some (ms, me) := hmerged
  simp only [leaveRun]
  split
  · rename_i hfar
    have hquiet : Committed params done ⟨pos, false, some (ms, me), openIdx, regions⟩ :=
      ⟨hcommitted.unclaimed, hcommitted.claimed⟩
    refine ⟨done ++ [(ms, me)], ?_, ?_, ?_⟩
    · refine .of_openIdx_none (finalize_openIdx params _ ms me) ?_
      exact hquiet.finalize_regions rfl
    · intro r hr
      rcases List.mem_append.mp hr with hr | hr
      · exact Nat.le_trans (hstarts r hr) hpos
      · obtain rfl := List.mem_singleton.mp hr
        exact Nat.le_trans (Nat.le_trans hms hme) hpos
    · refine .silent hstart (finalize_inRun params _ ms me) rfl hruns fun s e hs => ?_
      exact mergeRun_far (by dsimp only at hs; omega)
  · refine ⟨done, ⟨hcommitted.unclaimed, hcommitted.claimed⟩, ?_, ?_⟩
    · exact fun r hr => Nat.le_trans (hstarts r hr) hpos
    · exact .pausing hstart rfl rfl hms (Nat.le_trans hme hpos) hruns

/-- One frame: the decisions and the scan of the runs move on together. -/
theorem Tracks.step [LE P] [DecidableLE P] {scan : RunScan} (h : Tracks params scan done d) (p : P)
    {i stop : Nat} (hpos : d.pos = i * frameSamples) (hstop : d.pos ≤ stop) :
    ∃ done', Tracks params (scanFrame params.threshold frameSamples scan (p, i)) done'
      (d.step params p stop) := by
  obtain ⟨hcommitted, hstarts, hphase⟩ := h
  by_cases hspeech : params.threshold ≤ p
  · simp only [Decisions.step, scanFrame, if_pos hspeech]
    cases hphase with
    | speaking hstart hrun hmerged hms hjoin =>
        rw [hstart, enterRun, if_pos hrun]
        exact ⟨done, tracks_speech hcommitted hstarts hstart hrun hmerged hms hstop hstop hjoin⟩
    | pausing hstart hrun hmerged hms hme hruns =>
        rename_i ms me
        simp only [hstart, enterRun, hrun, hmerged, ← hpos, Bool.false_eq_true, if_false]
        by_cases hnear : d.pos - me < params.minSilence
        · simp only [if_pos hnear, hmerged]
          refine ⟨done, tracks_speech ?_ hstarts (rfl : _ = some d.pos) rfl
            (rfl : _ = some (ms, me)) hms (Nat.le_trans hme hstop) hstop fun e => ?_⟩
          · exact ⟨hcommitted.unclaimed, fun i hi => by simpa [hmerged] using hcommitted.claimed i hi⟩
          · rw [hruns]
            exact mergeRun_near hnear
        · simp only [if_neg hnear]
          refine ⟨done ++ [(ms, me)], tracks_speech ?_ ?_ (rfl : _ = some d.pos) rfl
            (rfl : _ = some (d.pos, d.pos)) (Nat.le_refl _) hstop ?_ fun e => ?_⟩
          · exact .of_openIdx_none (finalize_openIdx params d ms me)
              (hcommitted.finalize_regions hmerged)
          · intro r hr
            rw [finalize_pos]
            rcases List.mem_append.mp hr with hr | hr
            · exact hstarts r hr
            · obtain rfl := List.mem_singleton.mp hr
              exact Nat.le_trans hms hme
          · rw [finalize_pos]
            exact hstop
          · rw [hruns]
            exact mergeRun_far (by omega)
    | silent hstart hrun hmerged hruns hapart =>
        simp only [hstart, enterRun, hrun, hmerged, ← hpos, Bool.false_eq_true, if_false]
        have hidx : d.openIdx = none := by
          cases hidx : d.openIdx with
          | none => rfl
          | some i =>
              obtain ⟨_, _, hm, _⟩ := hcommitted.claimed i hidx
              simp [hmerged] at hm
        refine ⟨done, tracks_speech (.of_openIdx_none hidx (hcommitted.unclaimed hidx)) hstarts
          (rfl : _ = some d.pos) rfl (rfl : _ = some (d.pos, d.pos)) (Nat.le_refl _)
          hstop hstop fun e => ?_⟩
        rw [hruns]
        exact hapart _ e (Nat.le_refl _)
  · simp only [Decisions.step, scanFrame, if_neg hspeech]
    cases hphase with
    | speaking hstart hrun hmerged hms hjoin =>
        rw [hstart]
        apply Tracks.leave hcommitted hstarts hmerged hms (Nat.le_refl _) hstop rfl
        rw [mergeRuns_concat, ← hpos]
        exact hjoin d.pos
    | pausing hstart hrun hmerged hms hme hruns =>
        rw [hstart]
        exact Tracks.leave hcommitted hstarts hmerged hms hme hstop hstart hruns
    | silent hstart hrun hmerged hruns hapart =>
        simp only [hstart, leaveRun, hmerged]
        refine ⟨done, ⟨hcommitted.unclaimed, fun i hi => ?_⟩,
          fun r hr => Nat.le_trans (hstarts r hr) hstop, ?_⟩
        · simpa [hmerged] using hcommitted.claimed i hi
        · exact .silent hstart rfl rfl hruns fun s e hs => hapart s e (Nat.le_trans hstop hs)

/-- The next frame of a signal of `total` samples; only its last frame can be partial. -/
def stepFrame [LE P] [DecidableLE P] (params : Params P) (total : Nat) (d : Decisions) (p : P) :
    Decisions :=
  d.step params p (min (d.pos + frameSamples) total)

/-- Every probability of a prefix of the frames, in turn. -/
def stepFrames [LE P] [DecidableLE P] (params : Params P) (total : Nat) (probs : List P) :
    Decisions :=
  probs.foldl (stepFrame params total) new

theorem stepFrames_concat [LE P] [DecidableLE P] (params : Params P) (total : Nat) (probs : List P)
    (p : P) : stepFrames params total (probs ++ [p]) =
      stepFrame params total (stepFrames params total probs) p := by
  rw [stepFrames, List.foldl_append, List.foldl_cons, List.foldl_nil, stepFrames]

theorem step_pos [LE P] [DecidableLE P] (params : Params P) (d : Decisions) (p : P) (stop : Nat) :
    (d.step params p stop).pos = stop := by
  unfold step
  split <;> rfl

theorem scanRuns_concat [LE P] [DecidableLE P] (threshold : P) (frame : Nat) (probs : List P)
    (p : P) : scanRuns threshold frame (probs ++ [p]) =
      scanFrame threshold frame (scanRuns threshold frame probs) (p, probs.length) := by
  simp [scanRuns, List.zipIdx_append]

theorem stepFrames_tracks [LE P] [DecidableLE P] (params : Params P) {total : Nat} {probs : List P}
    (hfit : probs.length * frameSamples < total + frameSamples) :
    (stepFrames params total probs).pos = min (probs.length * frameSamples) total ∧
      ∃ done, Tracks params (scanRuns params.threshold frameSamples probs) done
        (stepFrames params total probs) := by
  induction probs using List.reverseRecOn with
  | nil =>
      rw [List.length_nil, Nat.zero_mul, Nat.zero_min]
      exact ⟨rfl, [], tracks_new params⟩
  | append_singleton probs p ih =>
      rw [List.length_append, List.length_singleton, Nat.succ_mul] at hfit
      obtain ⟨hpos, done, htracks⟩ := ih (by omega)
      have hstart : (stepFrames params total probs).pos = probs.length * frameSamples := by omega
      rw [stepFrames_concat, stepFrame, scanRuns_concat, hstart, step_pos, List.length_append,
        List.length_singleton, Nat.succ_mul]
      have hstop : (stepFrames params total probs).pos ≤
          min (probs.length * frameSamples + frameSamples) total := by omega
      exact ⟨rfl, htracks.step p hstart hstop⟩

/-- Settling the tail clamps the committed regions of all runs. -/
theorem close_regions {scan : RunScan} {total : Nat} (h : Tracks params scan done d)
    (hpos : d.pos = total) :
    (d.close params total).regions =
      ((mergeRuns params.minSilence (scan.close total)).filter fun r =>
        params.minSpeech ≤ r.2 - r.1).foldl (padClamped params.pad total) [] := by
  obtain ⟨⟨hunclaimed, hclaimed⟩, hstarts, hphase⟩ := h
  obtain ⟨pos, inRun, merged, openIdx, regions⟩ := d
  obtain rfl : pos = total := hpos
  have hconcat : ∀ {ms me}, ms ≤ pos → ∀ r ∈ done ++ [(ms, me)], r.1 ≤ pos := by
    intro ms me hms r hr
    rcases List.mem_append.mp hr with hr | hr
    · exact hstarts r hr
    · obtain rfl := List.mem_singleton.mp hr
      exact hms
  cases hphase with
  | speaking hstart hrun hmerged hms hjoin =>
      rename_i s ms
      obtain rfl : inRun = true := hrun
      obtain rfl : merged = some (ms, pos) := hmerged
      simp only [RunScan.close, hstart, mergeRuns_concat, hjoin]
      rw [foldl_padClamped params pos (hconcat hms)]
      have hcommitted : Committed params done ⟨pos, false, some (ms, pos), openIdx, regions⟩ :=
        ⟨hunclaimed, hclaimed⟩
      exact congrArg (List.map _)
        ((congrArg Decisions.regions (finalize_merged params _ none _ _)).trans
          (hcommitted.finalize_regions rfl))
  | pausing hstart hrun hmerged hms hme hruns =>
      rename_i ms me
      obtain rfl : inRun = false := hrun
      obtain rfl : merged = some (ms, me) := hmerged
      simp only [RunScan.close, hstart, hruns]
      rw [foldl_padClamped params pos (hconcat (Nat.le_trans hms hme))]
      have hcommitted : Committed params done ⟨pos, false, some (ms, me), openIdx, regions⟩ :=
        ⟨hunclaimed, hclaimed⟩
      exact congrArg (List.map _)
        ((congrArg Decisions.regions (finalize_merged params _ none _ _)).trans
          (hcommitted.finalize_regions rfl))
  | silent hstart hrun hmerged hruns hapart =>
      obtain rfl : inRun = false := hrun
      obtain rfl : merged = none := hmerged
      simp only [RunScan.close, hstart, hruns]
      rw [foldl_padClamped params pos hstarts]
      refine congrArg (List.map _) (hunclaimed ?_)
      cases openIdx with
      | none => rfl
      | some i =>
          obtain ⟨_, _, hm, _⟩ := hclaimed i rfl
          cases hm

end Decisions

/-- The early exits of the batch pass return what its four passes would. -/
theorem regionsFromProbs_eq [LE P] [DecidableLE P] {probs : List P} {total : Nat}
    (hempty : total = 0 → probs = []) (frame : Nat) (cfg : VadConfig P) :
    regionsFromProbs probs frame total cfg =
      ((mergeRuns cfg.params.minSilence ((scanRuns cfg.threshold frame probs).close total)).filter
        fun r => cfg.params.minSpeech ≤ r.2 - r.1).foldl (padClamped cfg.params.pad total) [] := by
  unfold regionsFromProbs
  by_cases hprobs : probs = []
  · subst hprobs
    simp [scanRuns, RunScan.close, mergeRuns]
  · have htotal : total ≠ 0 := fun hzero => hprobs (hempty hzero)
    rw [if_neg (by simp [hprobs, htotal])]
    dsimp only
    rw [← mergeRuns]
    split
    · rename_i hnil
      rw [List.isEmpty_iff.mp hnil]
      rfl
    · split
      · rename_i hkept
        rw [List.isEmpty_iff.mp hkept]
        rfl
      · rfl

/-- The segmenter's decisions over all frames of a signal are the batch regions. -/
theorem closed_regions_eq_batch [LE P] [DecidableLE P] (cfg : VadConfig P) {total : Nat}
    {probs : List P} (hcover : total ≤ probs.length * frameSamples)
    (hfit : probs.length * frameSamples < total + frameSamples) :
    ((Decisions.stepFrames cfg.params total probs).close cfg.params total).regions =
      regionsFromProbs probs frameSamples total cfg := by
  obtain ⟨hpos, done, htracks⟩ := Decisions.stepFrames_tracks cfg.params hfit
  rw [Nat.min_eq_right hcover] at hpos
  rw [Decisions.close_regions htracks hpos, regionsFromProbs_eq]
  · rfl
  · intro hzero
    have hlt : probs.length * frameSamples < 1 * frameSamples := by omega
    have hnone : probs.length < 1 := Nat.lt_of_mul_lt_mul_right hlt
    exact List.length_eq_zero_iff.mp (by omega)

end Gigastt.Vad
