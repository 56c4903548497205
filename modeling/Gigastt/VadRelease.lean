import Gigastt.VadDecisions

/-!
Release of kept samples. Below the watermark membership in the regions is final: every later change
of the list pushes a span that starts at or past it, or grows the last region from an end at or past
it. What has been released is the kept audio below the watermark.
-/

namespace Gigastt.Vad

open Slices

variable {α : Type}

/-- The concatenated samples of the regions. -/
def kept (signal : List α) (regions : List Span) : List α :=
  regions.flatMap fun r => slice signal r.1 r.2

/-- The kept samples below a watermark. -/
def keptBelow (signal : List α) (regions : List Span) (w : Nat) : List α :=
  regions.flatMap fun r => slice signal r.1 (min r.2 w)

def lastEnd (regions : List Span) : Nat := (regions.getLast?.map Prod.snd).getD 0

@[simp] theorem lastEnd_nil : lastEnd [] = 0 := rfl

@[simp] theorem lastEnd_concat (front : List Span) (last : Span) :
    lastEnd (front ++ [last]) = last.2 := by
  simp [lastEnd]

theorem le_lastEnd_pushPadded (regions : List Span) {start stop : Nat} (hspan : start ≤ stop) :
    max (lastEnd regions) stop ≤ lastEnd (pushPadded regions (start, stop)) := by
  rcases regions.eq_nil_or_concat' with rfl | ⟨front, last, rfl⟩
  · simp [lastEnd]
  · by_cases hjoin : start ≤ last.2
    · simp [hjoin]
    · simp only [pushPadded_concat, if_neg hjoin, lastEnd_concat]
      omega

/-- Disjoint regions in order, none starting past `bound`. -/
structure Ordered (regions : List Span) (bound : Nat) : Prop where
  apart : regions.Pairwise fun a b => a.2 < b.1
  forward : ∀ r ∈ regions, r.1 ≤ r.2
  starts_le : ∀ r ∈ regions, r.1 ≤ bound

theorem Ordered.mono {regions : List Span} {bound bound' : Nat} (h : Ordered regions bound)
    (hle : bound ≤ bound') : Ordered regions bound' :=
  { h with starts_le := fun r hr => Nat.le_trans (h.starts_le r hr) hle }

theorem Ordered.pushPadded {regions : List Span} {bound start stop : Nat}
    (h : Ordered regions bound) (hspan : start ≤ stop) (hstart : start ≤ bound) :
    Ordered (pushPadded regions (start, stop)) bound := by
  rcases regions.eq_nil_or_concat' with rfl | ⟨front, last, rfl⟩
  · exact ⟨by simp, by simpa using hspan, by simpa using hstart⟩
  · obtain ⟨hapart, hforward, hstarts⟩ := h
    simp only [List.pairwise_append, List.mem_append, List.mem_singleton, List.pairwise_singleton]
      at hapart hforward hstarts
    rw [pushPadded_concat]
    split
    · refine ⟨?_, ?_, ?_⟩
      · rw [List.pairwise_append]
        refine ⟨hapart.1, List.pairwise_singleton _ _, fun a ha b hb => ?_⟩
        obtain rfl := List.mem_singleton.mp hb
        exact hapart.2.2 a ha last rfl
      · intro r hr
        rcases List.mem_append.mp hr with hr | hr
        · exact hforward r (.inl hr)
        · obtain rfl := List.mem_singleton.mp hr
          have := hforward last (.inr rfl)
          dsimp only
          omega
      · intro r hr
        rcases List.mem_append.mp hr with hr | hr
        · exact hstarts r (.inl hr)
        · obtain rfl := List.mem_singleton.mp hr
          exact hstarts last (.inr rfl)
    · rename_i hgap
      refine ⟨?_, ?_, ?_⟩
      · rw [List.pairwise_append, List.pairwise_append]
        refine ⟨⟨hapart.1, List.pairwise_singleton _ _, fun a ha b hb =>
          hapart.2.2 a ha b (List.mem_singleton.mp hb)⟩, List.pairwise_singleton _ _,
          fun a ha b hb => ?_⟩
        obtain rfl := List.mem_singleton.mp hb
        dsimp only at hgap ⊢
        rcases List.mem_append.mp ha with ha | ha
        · have := hapart.2.2 a ha last rfl
          have := hforward last (.inr rfl)
          omega
        · obtain rfl := List.mem_singleton.mp ha
          omega
      · intro r hr
        rcases List.mem_append.mp hr with hr | hr
        · exact hforward r (List.mem_append.mp hr |>.imp id List.mem_singleton.mp)
        · obtain rfl := List.mem_singleton.mp hr
          exact hspan
      · intro r hr
        rcases List.mem_append.mp hr with hr | hr
        · exact hstarts r (List.mem_append.mp hr |>.imp id List.mem_singleton.mp)
        · obtain rfl := List.mem_singleton.mp hr
          exact hstart

/-- All regions but the last end by any position the last one has reached. -/
theorem Ordered.ends_lt {front : List Span} {last : Span} {bound : Nat}
    (h : Ordered (front ++ [last]) bound) : ∀ r ∈ front, r.2 < last.1 := by
  intro r hr
  exact (List.pairwise_append.mp h.apart).2.2 r hr last (List.mem_singleton.mpr rfl)

theorem Ordered.le_lastEnd {regions : List Span} {bound : Nat} (h : Ordered regions bound) :
    ∀ r ∈ regions, r.2 ≤ lastEnd regions := by
  intro r hr
  rcases regions.eq_nil_or_concat' with rfl | ⟨front, last, rfl⟩
  · cases hr
  · rw [lastEnd_concat]
    rcases List.mem_append.mp hr with hr | hr
    · exact Nat.le_of_lt (Nat.lt_of_lt_of_le (h.ends_lt r hr) (h.forward last (by simp)))
    · obtain rfl := List.mem_singleton.mp hr
      exact Nat.le_refl _

/-- A watermark past every region uncovers all kept audio. -/
theorem keptBelow_eq_kept (signal : List α) {regions : List Span} {w : Nat}
    (hw : ∀ r ∈ regions, r.2 ≤ w) : keptBelow signal regions w = kept signal regions :=
  List.flatMap_congr fun r hr => by rw [Nat.min_eq_left (hw r hr)]

/-- Where the release loop stands: the regions before `outIdx` are out, the one there up to the
watermark, the later ones start past it. -/
inductive Drained (w : Nat) : List Span → Nat → Nat → Prop
  | empty : Drained w [] 0 0
  | at {front : List Span} {cur : Span} {more : List Span} {copiedTo : Nat}
      (hfront : ∀ r ∈ front, r.2 ≤ w)
      (hcopied : max copiedTo cur.1 = max cur.1 (min cur.2 w))
      (hmore : ∀ r ∈ more, w ≤ r.1) : Drained w (front ++ cur :: more) front.length copiedTo

/-- A push at or past the watermark changes nothing below it. -/
theorem keptBelow_pushPadded (signal : List α) {regions : List Span} {w start stop : Nat}
    (hw : w ≤ max (lastEnd regions) start) :
    keptBelow signal (pushPadded regions (start, stop)) w = keptBelow signal regions w := by
  rcases regions.eq_nil_or_concat' with rfl | ⟨front, last, rfl⟩
  · have hempty : min stop w ≤ start := by
      rw [lastEnd_nil] at hw
      omega
    simp [keptBelow, slice_eq_nil hempty]
  · rw [lastEnd_concat] at hw
    rw [pushPadded_concat]
    split
    · have hlast : min (max last.2 stop) w = min last.2 w := by omega
      simp [keptBelow, hlast]
    · have hempty : min stop w ≤ start := by omega
      simp [keptBelow, slice_eq_nil hempty]

theorem Drained.pushPadded {regions : List Span} {w start stop outIdx copiedTo : Nat}
    (h : Drained w regions outIdx copiedTo) (hw : w ≤ max (lastEnd regions) start) :
    Drained w (pushPadded regions (start, stop)) outIdx copiedTo := by
  cases h with
  | empty =>
      rw [lastEnd_nil] at hw
      have hfirst : Drained w ([] ++ (start, stop) :: []) [].length 0 :=
        .at (by simp) (by dsimp only; omega) (by simp)
      exact hfirst
  | «at» hfront hcopied hmore =>
      rename_i front cur more
      rcases more.eq_nil_or_concat' with rfl | ⟨mid, last, rfl⟩
      · rw [lastEnd_concat] at hw
        rw [pushPadded_concat]
        split
        · exact .at hfront (by dsimp only at *; omega) hmore
        · rw [List.append_assoc]
          exact .at hfront hcopied (by simp; omega)
      · have hsplit : front ++ cur :: (mid ++ [last]) = front ++ cur :: mid ++ [last] := by simp
        rw [hsplit, lastEnd_concat] at hw
        rw [hsplit, pushPadded_concat]
        split
        · rw [List.append_assoc, List.cons_append]
          refine .at hfront hcopied fun r hr => ?_
          rcases List.mem_append.mp hr with hr | hr
          · exact hmore r (by simp [hr])
          · obtain rfl := List.mem_singleton.mp hr
            exact hmore last (by simp)
        · rw [List.append_assoc, List.append_assoc, List.cons_append]
          refine .at hfront hcopied fun r hr => ?_
          simp only [List.mem_append, List.mem_singleton] at hr
          rcases hr with hr | rfl | rfl
          · exact hmore r (by simp [hr])
          · exact hmore r (by simp)
          · dsimp only at *
            omega

/-- Moving the watermark releases the rest of the current region and of the later ones. -/
theorem keptBelow_advance (signal : List α) {front more : List Span} {cur : Span} {w w' : Nat}
    (hfront : ∀ r ∈ front, r.2 ≤ w) (hmore : ∀ r ∈ more, w ≤ r.1)
    (hw : w ≤ w') :
    keptBelow signal (front ++ cur :: more) w' = keptBelow signal (front ++ cur :: more) w ++
      (cur :: more).flatMap fun r => slice signal (max r.1 (min r.2 w)) (min r.2 w') := by
  have hsame : keptBelow signal front w' = keptBelow signal front w := by
    apply List.flatMap_congr
    intro r hr
    have := hfront r hr
    rw [Nat.min_eq_left this, Nat.min_eq_left (Nat.le_trans this hw)]
  have hlater : keptBelow signal more w = [] := by
    refine List.flatMap_eq_nil_iff.mpr fun r hr => slice_eq_nil ?_
    exact Nat.le_trans (Nat.min_le_right _ _) (hmore r hr)
  have hrest : (more.flatMap fun r => slice signal (max r.1 (min r.2 w)) (min r.2 w')) =
      keptBelow signal more w' := by
    apply List.flatMap_congr
    intro r hr
    have := hmore r hr
    rw [Nat.max_eq_left (by omega)]
  have hjoin : slice signal cur.1 (min cur.2 w') = slice signal cur.1 (min cur.2 w) ++
      slice signal (max cur.1 (min cur.2 w)) (min cur.2 w') := by
    rcases Nat.le_total (min cur.2 w) cur.1 with hle | hle
    · rw [slice_eq_nil hle, Nat.max_eq_left hle, List.nil_append]
    · rw [Nat.max_eq_right hle, slice_append_slice hle (by omega)]
  have hexpand : ∀ v, keptBelow signal (front ++ cur :: more) v =
      keptBelow signal front v ++ (slice signal cur.1 (min cur.2 v) ++ keptBelow signal more v) := by
    intro v
    simp only [keptBelow, List.flatMap_append, List.flatMap_cons]
  rw [hexpand, hexpand, hsame, hlater, List.append_nil, List.flatMap_cons, hrest, hjoin,
    List.append_assoc, List.append_assoc]

section FlushLoop

variable {signal raw : List α} {rawStart avail w decided : Nat}

/-- One region of the release loop: what it copies, and how far that gets. -/
theorem copy_region (hraw : raw = slice signal rawStart avail) (hstart : rawStart ≤ w)
    (hw : w ≤ decided) (havail : decided ≤ avail) {s e copiedTo : Nat} (hse : s ≤ e)
    (hcopied : max copiedTo s = max s (min e w)) (out : List α) :
    (if max copiedTo s < min e decided then
        out ++ slice raw (max copiedTo s - rawStart) (min e decided - rawStart) else out) =
      out ++ slice signal (max s (min e w)) (min e decided) ∧
    max (if max copiedTo s < min e decided then min e decided else copiedTo) s =
      max s (min e decided) ∧
    (if max copiedTo s < min e decided then min e decided else copiedTo) ≤ e := by
  rw [hcopied]
  split
  · rename_i hlt
    refine ⟨?_, by omega, by omega⟩
    rw [hraw, slice_slice (by omega) (by omega)]
  · refine ⟨?_, by omega, by omega⟩
    rw [slice_eq_nil (by omega), List.append_nil]

theorem flushLoop_spec (hraw : raw = slice signal rawStart avail) (hstart : rawStart ≤ w)
    (hw : w ≤ decided) (havail : decided ≤ avail) {more : List Span} {cur : Span}
    {copiedTo : Nat} (hcopied : max copiedTo cur.1 = max cur.1 (min cur.2 w))
    (hmore : ∀ r ∈ more, w ≤ r.1) (hapart : (cur :: more).Pairwise fun a b => a.2 < b.1)
    (hforward : ∀ r ∈ cur :: more, r.1 ≤ r.2) (outIdx : Nat) (out : List α) :
    ∃ front last copied, cur :: more = front ++ [last] ∧
      max copied last.1 = max last.1 (min last.2 decided) ∧
      VadSegmenter.flushLoop raw rawStart decided (cur :: more) outIdx copiedTo out =
        (outIdx + front.length, copied, out ++
          (cur :: more).flatMap fun r => slice signal (max r.1 (min r.2 w)) (min r.2 decided)) := by
  induction more generalizing cur copiedTo outIdx out with
  | nil =>
      obtain ⟨hout, hreach, _⟩ := copy_region hraw hstart hw havail
        (hforward cur (List.mem_singleton.mpr rfl)) hcopied out
      refine ⟨[], cur, _, rfl, hreach, ?_⟩
      simp only [VadSegmenter.flushLoop, List.isEmpty_nil, if_true, hout, List.length_nil,
        Nat.add_zero, List.flatMap_cons, List.flatMap_nil, List.append_nil]
  | cons next more ih =>
      obtain ⟨hout, hreach, hle⟩ := copy_region hraw hstart hw havail
        (hforward cur (List.mem_cons_self ..)) hcopied out
      have hnext : w ≤ next.1 := hmore next (List.mem_cons_self ..)
      have hgap : cur.2 < next.1 := (List.pairwise_cons.mp hapart).1 next (List.mem_cons_self ..)
      have hreached : max (if max copiedTo cur.1 < min cur.2 decided then min cur.2 decided
          else copiedTo) next.1 = max next.1 (min next.2 w) := by omega
      obtain ⟨front, last, copied, hsplit, hlast, hloop⟩ := ih hreached
        (fun r hr => hmore r (List.mem_cons_of_mem _ hr))
        (List.pairwise_cons.mp hapart).2 (fun r hr => hforward r (List.mem_cons_of_mem _ hr))
        (outIdx + 1) (out ++ slice signal (max cur.1 (min cur.2 w)) (min cur.2 decided))
      refine ⟨cur :: front, last, copied, by rw [hsplit, List.cons_append], hlast, ?_⟩
      rw [VadSegmenter.flushLoop]
      simp only [List.isEmpty_cons, Bool.false_eq_true, if_false, hout, hloop, List.length_cons]
      rw [List.flatMap_cons, List.append_assoc, Nat.add_right_comm, Nat.add_assoc]
      rfl

/-- A flush releases exactly what the new watermark uncovers. -/
theorem flushLoop_drained (hraw : raw = slice signal rawStart avail) (hstart : rawStart ≤ w)
    (hw : w ≤ decided) (havail : decided ≤ avail) {regions : List Span} {outIdx copiedTo : Nat}
    (hdrained : Drained w regions outIdx copiedTo) {bound : Nat} (hordered : Ordered regions bound)
    (hdecided : min (lastEnd regions) bound ≤ decided) {out : List α}
    (hout : out = keptBelow signal regions w) :
    ∃ outIdx' copied out', VadSegmenter.flushLoop raw rawStart decided (regions.drop outIdx) outIdx
        copiedTo out = (outIdx', copied, out') ∧ Drained decided regions outIdx' copied ∧
      out' = keptBelow signal regions decided ∧ out <+: out' := by
  cases hdrained with
  | empty => exact ⟨0, 0, out, rfl, .empty, hout, List.prefix_refl out⟩
  | «at» hfront hcopied hmore =>
      rename_i front cur more
      have hforward : ∀ r ∈ cur :: more, r.1 ≤ r.2 := fun r hr =>
        hordered.forward r (List.mem_append_right front hr)
      obtain ⟨front', last, copied, hsplit, hlast, hloop⟩ := flushLoop_spec hraw hstart hw havail
        hcopied hmore (List.pairwise_append.mp hordered.apart).2.1 hforward front.length out
      rw [List.drop_left]
      refine ⟨_, _, _, hloop, ?_, ?_, List.prefix_append ..⟩
      · have hregions : front ++ cur :: more = (front ++ front') ++ [last] := by
          rw [hsplit, List.append_assoc]
        rw [hregions, ← List.length_append]
        rw [hregions] at hordered hdecided
        refine .at (fun r hr => ?_) hlast (by simp)
        have hend := hordered.ends_lt r hr
        have hreach := hordered.starts_le last (by simp)
        have hspan := hordered.forward last (by simp)
        rw [lastEnd_concat] at hdecided
        omega
      · rw [keptBelow_advance signal hfront hmore hw, hout]

end FlushLoop

/-- What has been released so far, and up to which watermark. -/
structure Release (α : Type) where
  signal : List α
  watermark : Nat
  outIdx : Nat
  copiedTo : Nat
  out : List α

/-- The release position fits the regions, which start by `bound`. -/
structure Release.Fits (rel : Release α) (regions : List Span) (bound : Nat) : Prop where
  ordered : Ordered regions bound
  drained : Drained rel.watermark regions rel.outIdx rel.copiedTo
  out_eq : rel.out = keptBelow rel.signal regions rel.watermark

theorem Release.Fits.pushPadded {rel : Release α} {regions : List Span} {bound start stop : Nat}
    (h : rel.Fits regions bound) (hw : rel.watermark ≤ max (lastEnd regions) start)
    (hspan : start ≤ stop) (hstart : start ≤ bound) :
    rel.Fits (pushPadded regions (start, stop)) bound where
  ordered := h.ordered.pushPadded hspan hstart
  drained := h.drained.pushPadded hw
  out_eq := h.out_eq.trans (keptBelow_pushPadded rel.signal hw).symm

theorem Release.Fits.mono {rel : Release α} {regions : List Span} {bound bound' : Nat}
    (h : rel.Fits regions bound) (hle : bound ≤ bound') : rel.Fits regions bound' :=
  { h with ordered := h.ordered.mono hle }

theorem min_clamp {e w total : Nat} (hw : w ≤ total) : min (min e total) w = min e w := by
  omega

theorem Drained.clamp {regions : List Span} {w total outIdx copiedTo : Nat}
    (h : Drained w regions outIdx copiedTo) (hw : w ≤ total) :
    Drained w (regions.map (clampSpan total)) outIdx copiedTo := by
  cases h with
  | empty => exact .empty
  | «at» hfront hcopied hmore =>
      rename_i front cur more
      rw [List.map_append, List.map_cons, ← @List.length_map _ _ front (clampSpan total)]
      refine .at ?_ ?_ ?_
      · simp only [List.mem_map, forall_exists_index, and_imp]
        rintro _ r hr rfl
        exact Nat.le_trans (Nat.min_le_left _ _) (hfront r hr)
      · simp only [clampSpan, min_clamp hw, hcopied]
      · simp only [List.mem_map, forall_exists_index, and_imp]
        rintro _ r hr rfl
        exact hmore r hr

theorem Release.Fits.clamp {rel : Release α} {regions : List Span} {total : Nat}
    (h : rel.Fits regions total) (hw : rel.watermark ≤ total) :
    rel.Fits (regions.map (clampSpan total)) total := by
  obtain ⟨⟨hapart, hforward, hstarts⟩, hdrained, hout⟩ := h
  refine ⟨⟨?_, ?_, ?_⟩, ?_, ?_⟩
  · apply hapart.map _
    intro a b hab
    exact Nat.lt_of_le_of_lt (Nat.min_le_left _ _) hab
  · simp only [List.mem_map, forall_exists_index, and_imp]
    rintro _ r hr rfl
    exact Nat.le_min.mpr ⟨hforward r hr, hstarts r hr⟩
  · simp only [List.mem_map, forall_exists_index, and_imp]
    rintro _ r hr rfl
    exact hstarts r hr
  · exact hdrained.clamp hw
  · rw [hout, keptBelow, keptBelow, List.flatMap_map]
    exact List.flatMap_congr fun r _ => by simp only [clampSpan, min_clamp hw]

namespace Decisions

variable {P : Type}

/-- Nothing decided later changes what lies below the watermark. -/
structure Live (params : Params P) (rel : Release α) (d : Decisions) : Prop where
  fits : rel.Fits d.regions d.pos
  watermark_le : rel.watermark ≤ d.pos
  merged_le : ∀ ms me, d.merged = some (ms, me) → ms ≤ me ∧ me ≤ d.pos
  claimed : ∀ i, d.openIdx = some i →
    d.merged.isSome ∧ i + 1 = d.regions.length ∧ rel.watermark ≤ lastEnd d.regions
  unclaimed : ∀ ms me, d.merged = some (ms, me) → d.openIdx = none →
    rel.watermark ≤ max (lastEnd d.regions) (ms - params.pad)
  silent : d.merged = none → rel.watermark ≤ max (lastEnd d.regions) (d.pos - params.pad)

theorem growRegion_eq_pushPadded {d : Decisions} {i : Nat} (hi : i + 1 = d.regions.length)
    (stop : Nat) : (d.growRegion i stop).regions = pushPadded d.regions (0, stop) := by
  rcases hregions : d.regions.eq_nil_or_concat' with hnil | ⟨front, last, hconcat⟩
  · simp [hnil] at hi
  · rw [growRegion]
    dsimp only
    rw [hconcat, modify_last _ _ _ (by rw [← hconcat]; exact hi), pushPadded_concat,
      if_pos (Nat.zero_le _)]

variable {params : Params P} {rel : Release α} {d : Decisions} {ms me : Nat}

/-- Time passing alone decides nothing new. -/
theorem Live.wait (h : Live params rel d) {stop : Nat} (hstop : d.pos ≤ stop) (inRun : Bool) :
    Live params rel { d with inRun, pos := stop } where
  fits := h.fits.mono hstop
  watermark_le := Nat.le_trans h.watermark_le hstop
  merged_le ms me hm := ⟨(h.merged_le ms me hm).1, Nat.le_trans (h.merged_le ms me hm).2 hstop⟩
  claimed := h.claimed
  unclaimed := h.unclaimed
  silent hm := by
    have := h.silent hm
    dsimp only
    omega

theorem live_quiet (hfits : rel.Fits d.regions d.pos) (hpos : rel.watermark ≤ d.pos)
    (hmerged : d.merged = none) (hidx : d.openIdx = none)
    (hw : rel.watermark ≤ max (lastEnd d.regions) (d.pos - params.pad)) : Live params rel d where
  fits := hfits
  watermark_le := hpos
  merged_le ms me hm := by simp [hmerged] at hm
  claimed i hi := by simp [hidx] at hi
  unclaimed ms me hm := by simp [hmerged] at hm
  silent _ := hw

/-- Closing the open region leaves silence after it. -/
theorem Live.finalize (h : Live params rel d) (hm : d.merged = some (ms, me)) :
    Live params rel { d.finalize params ms me with merged := none } := by
  obtain ⟨hms, hme⟩ := h.merged_le ms me hm
  have hstart : ms - params.pad ≤ me + params.pad := by omega
  unfold Decisions.finalize
  split
  · refine live_quiet h.fits h.watermark_le rfl rfl ?_
    cases hidx : d.openIdx with
    | none =>
        have := h.unclaimed ms me hm hidx
        dsimp only
        omega
    | some i =>
        have := (h.claimed i hidx).2.2
        dsimp only
        omega
  · cases hidx : d.openIdx with
    | none =>
        have hw := h.unclaimed ms me hm hidx
        have hend := le_lastEnd_pushPadded d.regions hstart
        refine live_quiet (h.fits.pushPadded hw hstart (by omega)) h.watermark_le rfl rfl ?_
        dsimp only
        omega
    | some i =>
        obtain ⟨_, hi, hw⟩ := h.claimed i hidx
        have hend := le_lastEnd_pushPadded d.regions (Nat.zero_le (me + params.pad))
        have hgrow := growRegion_eq_pushPadded (d := { d with openIdx := none }) hi (me + params.pad)
        refine live_quiet ?_ h.watermark_le rfl rfl ?_
        · dsimp only
          rw [hgrow]
          exact h.fits.pushPadded (by omega) (Nat.zero_le _) (Nat.zero_le _)
        · dsimp only
          rw [hgrow]
          dsimp only
          omega

/-- A speech frame that stretches the open region to `stop`. -/
theorem Live.extendRun (h : Live params rel d) {stop : Nat} (hstop : d.pos ≤ stop) :
    Live params rel { d.extendRun params stop with pos := stop } := by
  have hpos := Nat.le_trans h.watermark_le hstop
  unfold Decisions.extendRun
  cases hm : d.merged with
  | none => exact h.wait hstop d.inRun
  | some m =>
      obtain ⟨ms, me⟩ := m
      obtain ⟨hms, hme⟩ := h.merged_le ms me hm
      have hmerged : ∀ a b, some (ms, stop) = some (a, b) → a ≤ b ∧ b ≤ stop := by
        rintro a b hab
        cases hab
        omega
      have hstart : ms - params.pad ≤ stop := by omega
      dsimp only
      cases hidx : d.openIdx with
      | none =>
          have hw := h.unclaimed ms me hm hidx
          dsimp only
          split
          · have hend := le_lastEnd_pushPadded d.regions hstart
            refine ⟨(h.fits.pushPadded hw hstart (by omega)).mono hstop, hpos, hmerged,
              fun i hi => ⟨rfl, ?_, ?_⟩, fun a b _ hnone => by simp at hnone, fun hnone => by simp at hnone⟩
            · obtain ⟨front, s, e, hpush⟩ := pushPadded_eq d.regions (ms - params.pad)
              simp only [hpush, List.length_append, List.length_singleton,
                Option.some.injEq] at hi ⊢
              omega
            · dsimp only
              omega
          · refine ⟨h.fits.mono hstop, hpos, hmerged, fun i hi => by simp at hi, ?_,
              fun hnone => by simp at hnone⟩
            rintro a b hab _
            cases hab
            exact hw
      | some i =>
          obtain ⟨_, hi, hw⟩ := h.claimed i hidx
          have hend := le_lastEnd_pushPadded d.regions (Nat.zero_le stop)
          have hgrow := growRegion_eq_pushPadded
            (d := ⟨d.pos, d.inRun, some (ms, stop), some i, d.regions⟩) hi stop
          refine ⟨?_, hpos, hmerged, fun j hj => ⟨rfl, ?_, ?_⟩, fun a b _ hnone => ?_,
            fun hnone => by simp [growRegion] at hnone⟩
          · dsimp only
            rw [hgrow]
            exact (h.fits.pushPadded (by omega) (Nat.zero_le _) (Nat.zero_le _)).mono hstop
          · obtain rfl : i = j := by simpa [growRegion] using hj
            simpa [growRegion] using hi
          · dsimp only
            rw [hgrow]
            dsimp only
            omega
          · simp [growRegion] at hnone

/-- A run starts, in the open region or after closing it. -/
theorem Live.enterRun (h : Live params rel d) :
    Live params rel (d.enterRun params) ∧ (d.enterRun params).pos = d.pos := by
  -- a fresh region starts undecided, with its padding behind the position
  have hfresh : ∀ {c : Decisions}, Live params rel c → c.merged = none →
      Live params rel { c with merged := some (c.pos, c.pos), inRun := true } := by
    intro c hc hm
    have hidx : c.openIdx = none := by
      cases hidx : c.openIdx with
      | none => rfl
      | some i => simpa [hm] using (hc.claimed i hidx).1
    refine ⟨hc.fits, hc.watermark_le, ?_, fun i hi => by simp [hidx] at hi, ?_,
      fun hnone => by simp at hnone⟩
    · rintro ms me hmerged
      cases hmerged
      exact ⟨Nat.le_refl _, Nat.le_refl _⟩
    · rintro ms me hmerged _
      cases hmerged
      exact hc.silent hm
  obtain ⟨pos, inRun, merged, openIdx, regions⟩ := d
  cases inRun with
  | true => exact ⟨h, rfl⟩
  | false =>
      cases merged with
      | none => exact ⟨hfresh h rfl, rfl⟩
      | some m =>
          obtain ⟨ms, me⟩ := m
          simp only [Decisions.enterRun, Bool.false_eq_true, if_false]
          split
          · exact ⟨h.wait (Nat.le_refl _) true, rfl⟩
          · have hnew := hfresh (h.finalize rfl) rfl
            simp only [finalize_pos] at hnew ⊢
            exact ⟨hnew, trivial⟩

/-- A silent frame. -/
theorem Live.leaveRun (h : Live params rel d) {stop : Nat} (hstop : d.pos ≤ stop) :
    Live params rel { d.leaveRun params stop with pos := stop } := by
  obtain ⟨pos, inRun, merged, openIdx, regions⟩ := d
  cases merged with
  | none => exact h.wait hstop false
  | some m =>
      obtain ⟨ms, me⟩ := m
      simp only [Decisions.leaveRun]
      split
      · have hclosed := (h.wait (Nat.le_refl _) false).finalize rfl
        refine hclosed.wait ?_ _
        dsimp only
        rw [finalize_pos]
        exact hstop
      · exact h.wait hstop false

theorem Live.step [LE P] [DecidableLE P] (h : Live params rel d) (p : P) {stop : Nat}
    (hstop : d.pos ≤ stop) : Live params rel (d.step params p stop) := by
  unfold Decisions.step
  split
  · obtain ⟨hrun, hpos⟩ := h.enterRun
    exact hrun.extendRun (hpos ▸ hstop)
  · exact h.leaveRun hstop

theorem Live.clamp (h : Live params rel d) (hmerged : d.merged = none) :
    Live params rel { d with regions := d.regions.map (clampSpan d.pos) } := by
  have hidx : d.openIdx = none := by
    cases hidx : d.openIdx with
    | none => rfl
    | some i => simpa [hmerged] using (h.claimed i hidx).1
  refine live_quiet (h.fits.clamp h.watermark_le) h.watermark_le hmerged hidx ?_
  have hw := h.silent hmerged
  have hpos := h.watermark_le
  dsimp only
  rcases d.regions.eq_nil_or_concat' with hnil | ⟨front, last, hconcat⟩
  · rw [hnil] at hw ⊢
    exact hw
  · rw [hconcat, lastEnd_concat] at hw
    rw [hconcat, List.map_append, List.map_singleton, lastEnd_concat]
    dsimp only [clampSpan]
    omega

/-- After the tail is settled every region ends by the signal's end. -/
theorem Live.close (h : Live params rel d) {total : Nat} (hpos : d.pos = total) :
    Live params rel (d.close params total) ∧ (d.close params total).pos = total ∧
      (d.close params total).merged = none ∧ ∀ r ∈ (d.close params total).regions, r.2 ≤ total := by
  obtain ⟨pos, inRun, merged, openIdx, regions⟩ := d
  obtain rfl : pos = total := hpos
  have hclamped : ∀ (spans : List Span), ∀ r ∈ spans.map (clampSpan pos), r.2 ≤ pos := by
    simp only [List.mem_map, forall_exists_index, and_imp]
    rintro _ _ r _ rfl
    exact Nat.min_le_right _ _
  -- what closing the open region at `me` leaves
  have hclosed : ∀ {ms me}, Live params rel ⟨pos, false, some (ms, me), openIdx, regions⟩ →
      Live params rel (close params ⟨pos, false, some (ms, me), openIdx, regions⟩ pos) ∧
        (close params ⟨pos, false, some (ms, me), openIdx, regions⟩ pos).pos = pos ∧
        (close params ⟨pos, false, some (ms, me), openIdx, regions⟩ pos).merged = none := by
    intro ms me hlive
    have hquiet := (hlive.finalize rfl).clamp rfl
    have hsame := finalize_merged params ⟨pos, false, some (ms, me), openIdx, regions⟩ none ms me
    simp only [Decisions.close, hsame, finalize_pos, Nat.max_self] at hquiet ⊢
    exact ⟨hquiet, trivial, trivial⟩
  cases merged with
  | none =>
      have hquiet := h.clamp rfl
      cases inRun with
      | true =>
          simp only [Decisions.close, Nat.max_self]
          exact ⟨hquiet, trivial, trivial, hclamped _⟩
      | false =>
          simp only [Decisions.close, Nat.max_self]
          exact ⟨hquiet, trivial, trivial, hclamped _⟩
  | some m =>
      obtain ⟨ms, me⟩ := m
      cases inRun with
      | true =>
          have hended : Live params rel ⟨pos, false, some (ms, pos), openIdx, regions⟩ := by
            obtain ⟨hms, hme⟩ := h.merged_le ms me rfl
            refine ⟨h.fits, h.watermark_le, ?_, h.claimed, ?_, fun hnone => by simp at hnone⟩
            · rintro a b hab
              cases hab
              exact ⟨Nat.le_trans hms hme, Nat.le_refl _⟩
            · rintro a b hab hidx
              cases hab
              exact h.unclaimed ms me rfl hidx
          obtain ⟨hlive, hpos, hnone⟩ := hclosed hended
          exact ⟨hlive, hpos, hnone, hclamped _⟩
      | false =>
          obtain ⟨hlive, hpos, hnone⟩ := hclosed h
          exact ⟨hlive, hpos, hnone, hclamped _⟩

/-- What is decided is past the watermark. -/
theorem Live.le_decidedTo (h : Live params rel d) : rel.watermark ≤ d.decidedTo params := by
  have hpos := h.watermark_le
  unfold decidedTo
  rw [← lastEnd]
  cases hm : d.merged with
  | none =>
      have := h.silent hm
      dsimp only
      omega
  | some m =>
      obtain ⟨ms, me⟩ := m
      cases hidx : d.openIdx with
      | none =>
          have := h.unclaimed ms me hm hidx
          dsimp only
          omega
      | some i =>
          have := (h.claimed i hidx).2.2
          dsimp only
          omega

theorem decidedTo_le_pos (params : Params P) (d : Decisions) : d.decidedTo params ≤ d.pos :=
  Nat.min_le_right _ _

theorem min_lastEnd_le_decidedTo (params : Params P) (d : Decisions) :
    min (lastEnd d.regions) d.pos ≤ d.decidedTo params := by
  unfold decidedTo
  rw [← lastEnd]
  split <;> (dsimp only; omega)

/-- Releasing up to the decided position keeps the state live. -/
theorem Live.release (h : Live params rel d) {next : Release α}
    (hfits : next.Fits d.regions d.pos) (hnext : next.watermark = d.decidedTo params) :
    Live params next d := by
  refine ⟨hfits, hnext ▸ decidedTo_le_pos params d, h.merged_le, fun i hi => ?_, ?_, fun hm => ?_⟩
  · obtain ⟨hsome, hlen, _⟩ := h.claimed i hi
    obtain ⟨m, hm⟩ := Option.isSome_iff_exists.mp hsome
    refine ⟨hsome, hlen, ?_⟩
    rw [hnext, decidedTo, hm, hi, ← lastEnd]
    exact Nat.min_le_left _ _
  · intro ms me hm hidx
    rw [hnext, decidedTo, hm, hidx, ← lastEnd]
    exact Nat.min_le_left _ _
  · rw [hnext, decidedTo, hm, ← lastEnd]
    exact Nat.min_le_left _ _

end Decisions

end Gigastt.Vad
