import Gigastt.RegionTimeline
import Gigastt.VadRelease

/-!
The regions of a scan are in order, apart, within the signal and none of them empty: each pass keeps
this of the runs it is given. Where there are regions, there is speech.
-/

namespace Gigastt

open Vad (Span)

theorem Regions.concat {regions : List Span} {r : Span} (h : Regions regions)
    (hafter : ∀ q ∈ regions, q.2 ≤ r.1) (hr : r.1 < r.2) : Regions (regions ++ [r]) where
  nonempty q hq := by
    rcases List.mem_append.mp hq with hq | hq
    · exact h.nonempty q hq
    · rw [List.mem_singleton.mp hq]
      exact hr
  apart := by
    rw [List.pairwise_append]
    refine ⟨h.apart, List.pairwise_singleton _ _, fun q hq s hs => ?_⟩
    rw [List.mem_singleton.mp hs]
    exact hafter q hq

theorem Regions.front {front : List Span} {r : Span} (h : Regions (front ++ [r])) :
    Regions front ∧ (∀ q ∈ front, q.2 ≤ r.1) ∧ r.1 < r.2 := by
  obtain ⟨hfront, _, hafter⟩ := List.pairwise_append.mp h.apart
  refine ⟨⟨fun q hq => h.nonempty q (List.mem_append_left _ hq), hfront⟩, ?_, ?_⟩
  · exact fun q hq => hafter q hq r (List.mem_singleton_self r)
  · exact h.nonempty r (List.mem_append_right _ (List.mem_singleton_self r))

namespace Vad

open Slices

/-- The runs of the first `n` frames: each closed one ends with a frame before the last, the open one
starts with a frame by the last. -/
structure RunScan.Proper (frame n : ℕ) (scan : RunScan) : Prop where
  regions : Regions scan.regions
  closed : ∀ r ∈ scan.regions, r.2 + frame ≤ n * frame
  opened : ∀ s, scan.runStart = some s → s + frame ≤ n * frame ∧ ∀ r ∈ scan.regions, r.2 ≤ s

variable {P : Type} [LE P] [DecidableLE P] {frame n total : ℕ}

theorem RunScan.Proper.next {scan : RunScan} (h : scan.Proper frame n) (hframe : 0 < frame)
    (threshold p : P) : (scanFrame threshold frame scan (p, n)).Proper frame (n + 1) := by
  have hmore : n * frame ≤ (n + 1) * frame := Nat.mul_le_mul_right _ (Nat.le_succ n)
  have hlater : ∀ r ∈ scan.regions, r.2 + frame ≤ (n + 1) * frame :=
    fun r hr => (h.closed r hr).trans hmore
  unfold scanFrame
  cases hrun : scan.runStart with
  | none =>
      split
      · refine ⟨h.regions, hlater, fun s hs => ?_⟩
        obtain rfl : n * frame = s := Option.some.inj hs
        exact ⟨Nat.le_of_eq (Nat.succ_mul n frame).symm, fun r hr => by
          have := h.closed r hr
          omega⟩
      · refine ⟨h.regions, hlater, fun s hs => ?_⟩
        rw [hrun] at hs
        cases hs
  | some s =>
      obtain ⟨hstart, hafter⟩ := h.opened s hrun
      split
      · refine ⟨h.regions, hlater, fun s' hs' => ?_⟩
        rw [hrun] at hs'
        obtain rfl := Option.some.inj hs'
        exact ⟨hstart.trans hmore, hafter⟩
      · refine ⟨h.regions.concat hafter (by dsimp only; omega), fun r hr => ?_, fun s hs => by cases hs⟩
        rcases List.mem_append.mp hr with hr | hr
        · exact hlater r hr
        · rw [List.mem_singleton.mp hr]
          exact Nat.le_of_eq (Nat.succ_mul n frame).symm

theorem proper_scanRuns (hframe : 0 < frame) (threshold : P) (probs : List P) :
    (scanRuns threshold frame probs).Proper frame probs.length := by
  induction probs using List.reverseRecOn with
  | nil => exact ⟨⟨List.forall_mem_nil _, .nil⟩, List.forall_mem_nil _, fun s hs => by cases hs⟩
  | append_singleton probs p ih =>
      rw [Decisions.scanRuns_concat, List.length_append, List.length_singleton]
      exact ih.next hframe threshold p

omit [LE P] [DecidableLE P] in
/-- The last frame begins within the signal, and so does a run that is still open. -/
theorem RunScan.Proper.close {scan : RunScan} (h : scan.Proper frame n) (hlast : n * frame < total + frame) :
    Regions (scan.close total) ∧ ∀ r ∈ scan.close total, r.2 ≤ total := by
  have hclosed : ∀ r ∈ scan.regions, r.2 ≤ total := fun r hr => by
    have := h.closed r hr
    omega
  unfold RunScan.close
  split
  · rename_i s hrun
    obtain ⟨hstart, hafter⟩ := h.opened s hrun
    refine ⟨h.regions.concat hafter (by dsimp only; omega), fun r hr => ?_⟩
    rcases List.mem_append.mp hr with hr | hr
    · exact hclosed r hr
    · rw [List.mem_singleton.mp hr]
  · exact ⟨h.regions, hclosed⟩

/-- Merged runs end where runs end. -/
theorem regions_mergeRuns (minSilence : ℕ) {runs : List Span} (h : Regions runs) :
    Regions (mergeRuns minSilence runs) ∧
      ∀ r ∈ mergeRuns minSilence runs, ∃ q ∈ runs, r.2 = q.2 := by
  induction runs using List.reverseRecOn with
  | nil => exact ⟨⟨List.forall_mem_nil _, .nil⟩, List.forall_mem_nil _⟩
  | append_singleton runs run ih =>
      obtain ⟨hruns, hafter, hrun⟩ := h.front
      obtain ⟨hmerged, hends⟩ := ih hruns
      have hbefore : ∀ r ∈ mergeRuns minSilence runs, r.2 ≤ run.1 := fun r hr => by
        obtain ⟨q, hq, hend⟩ := hends r hr
        exact hend ▸ hafter q hq
      have hkeep : ∀ r ∈ mergeRuns minSilence runs, ∃ q ∈ runs ++ [run], r.2 = q.2 := fun r hr => by
        obtain ⟨q, hq, hend⟩ := hends r hr
        exact ⟨q, List.mem_append_left _ hq, hend⟩
      have hnew : ∃ q ∈ runs ++ [run], run.2 = q.2 :=
        ⟨run, List.mem_append_right _ (List.mem_singleton_self run), rfl⟩
      rw [mergeRuns_concat, mergeRun]
      rcases List.eq_nil_or_concat (mergeRuns minSilence runs) with hnil | ⟨front, last, hlast⟩
      · rw [hnil, mergeOrPush_nil]
        refine ⟨(⟨List.forall_mem_nil _, .nil⟩ : Regions []).concat (List.forall_mem_nil _) hrun, ?_⟩
        intro r hr
        rw [List.mem_singleton.mp hr]
        exact hnew
      · rw [List.concat_eq_append] at hlast
        rw [hlast] at hmerged hbefore hkeep ⊢
        rw [mergeOrPush_concat]
        obtain ⟨hfront, hfrontAfter, hspan⟩ := hmerged.front
        split
        · have hreach := hbefore last (List.mem_append_right _ (List.mem_singleton_self last))
          refine ⟨hfront.concat hfrontAfter (by dsimp only; omega), fun r hr => ?_⟩
          rcases List.mem_append.mp hr with hr | hr
          · exact hkeep r (List.mem_append_left _ hr)
          · rw [List.mem_singleton.mp hr]
            exact hnew
        · refine ⟨hmerged.concat hbefore hrun, fun r hr => ?_⟩
          rcases List.mem_append.mp hr with hr | hr
          · exact hkeep r hr
          · rw [List.mem_singleton.mp hr]
            exact hnew

omit [LE P] [DecidableLE P] in
/-- Padding clips at the ends of the signal and joins what touches. -/
theorem regions_padded (pad : ℕ) {runs : List Span} (h : Regions runs)
    (hends : ∀ r ∈ runs, r.2 ≤ total) :
    Regions (runs.foldl (padClamped pad total) []) ∧
      ∀ r ∈ runs.foldl (padClamped pad total) [], r.2 ≤ total := by
  induction runs using List.reverseRecOn with
  | nil => exact ⟨⟨List.forall_mem_nil _, .nil⟩, List.forall_mem_nil _⟩
  | append_singleton runs run ih =>
      obtain ⟨hruns, _, hrun⟩ := h.front
      have hend := hends run (List.mem_append_right _ (List.mem_singleton_self run))
      obtain ⟨hpadded, hwithin⟩ := ih hruns fun r hr => hends r (List.mem_append_left _ hr)
      rw [List.foldl_append, List.foldl_cons, List.foldl_nil, padClamped]
      have hspan : run.1 - pad < min (run.2 + pad) total := by omega
      rcases List.eq_nil_or_concat (runs.foldl (padClamped pad total) []) with
        hnil | ⟨front, last, hlast⟩
      · rw [hnil, pushPadded_nil]
        refine ⟨(⟨List.forall_mem_nil _, .nil⟩ : Regions []).concat (List.forall_mem_nil _) hspan, ?_⟩
        intro r hr
        rw [List.mem_singleton.mp hr]
        exact Nat.min_le_right _ _
      · rw [List.concat_eq_append] at hlast
        rw [hlast] at hpadded hwithin ⊢
        rw [pushPadded_concat]
        obtain ⟨hfront, hafter, hproper⟩ := hpadded.front
        have hreach := hwithin last (List.mem_append_right _ (List.mem_singleton_self last))
        split
        · refine ⟨hfront.concat hafter (by dsimp only; omega), fun r hr => ?_⟩
          rcases List.mem_append.mp hr with hr | hr
          · exact hwithin r (List.mem_append_left _ hr)
          · rw [List.mem_singleton.mp hr]
            exact Nat.max_le.mpr ⟨hreach, Nat.min_le_right _ _⟩
        · rename_i hpast
          dsimp only at hpast
          refine ⟨hpadded.concat (fun r hr => ?_) hspan, fun r hr => ?_⟩
          · dsimp only
            rcases List.mem_append.mp hr with hr | hr
            · have := hafter r hr
              omega
            · rw [List.mem_singleton.mp hr]
              omega
          · rcases List.mem_append.mp hr with hr | hr
            · exact hwithin r hr
            · rw [List.mem_singleton.mp hr]
              exact Nat.min_le_right _ _

/-- The regions of frames that all begin within the signal. -/
theorem regions_regionsFromProbs (hframe : 0 < frame) {probs : List P} (cfg : VadConfig P)
    (hlast : probs.length * frame < total + frame) :
    Regions (regionsFromProbs probs frame total cfg) ∧
      ∀ r ∈ regionsFromProbs probs frame total cfg, r.2 ≤ total := by
  obtain ⟨hruns, hends⟩ := (proper_scanRuns hframe cfg.threshold probs).close hlast
  obtain ⟨hmerged, hmergedEnds⟩ := regions_mergeRuns cfg.params.minSilence hruns
  rw [regionsFromProbs_eq]
  · apply regions_padded
    · exact ⟨fun r hr => hmerged.nonempty r (List.mem_of_mem_filter hr),
        hmerged.apart.sublist List.filter_sublist⟩
    · intro r hr
      obtain ⟨q, hq, hend⟩ := hmergedEnds r (List.mem_of_mem_filter hr)
      exact hend ▸ hends q hq
  · intro hzero
    subst hzero
    rw [Nat.zero_add] at hlast
    by_contra hsome
    have hcount := Nat.mul_le_mul_right frame (List.length_pos_of_ne_nil hsome)
    omega

omit [LE P] [DecidableLE P] in
theorem kept_ne_nil {α : Type} {signal : List α} {regions : List Span} (h : Regions regions)
    (hends : ∀ r ∈ regions, r.2 ≤ signal.length) (hsome : regions ≠ []) :
    kept signal regions ≠ [] := by
  obtain ⟨r, rest, rfl⟩ := List.exists_cons_of_ne_nil hsome
  have hspan := h.nonempty r List.mem_cons_self
  have hlength : (slice signal r.1 r.2).length = r.2 - r.1 :=
    length_slice (hends r List.mem_cons_self)
  rw [kept, List.flatMap_cons]
  intro hnil
  rw [List.append_eq_nil_iff.mp hnil |>.1, List.length_nil] at hlength
  omega

end Vad

end Gigastt
