import Gigastt.WindowCursor
import Mathlib.Data.List.Chain

/-!
The windows of a fully decoded signal. A window is either cut at its full length, with more signal
past the longest last window, or it is the last one and ends with the signal; every geometric fact
follows from this shape by induction over it.
-/

namespace Gigastt

/-- The window is a positive number of encoder frames, and the stride one that does not exceed
it. -/
structure WindowSpec.Framed (spec : WindowSpec) : Prop where
  window_aligned : frameSamples ∣ spec.window
  stride_aligned : frameSamples ∣ spec.stride
  stride_pos : 0 < spec.stride
  stride_le : spec.stride ≤ spec.window

theorem WindowSpec.new_framed (singlePassMax overlap : Nat) {window : Nat}
    (hpos : frameSamples ≤ window) (hdvd : frameSamples ∣ window) :
    (WindowSpec.new singlePassMax window overlap).Framed where
  window_aligned := hdvd
  stride_aligned := by
    simp only [WindowSpec.new, Nat.max_def]
    split
    · exact Nat.dvd_refl _
    · exact Nat.dvd_mul_left _ _
  stride_pos := by
    simp only [WindowSpec.new, frameSamples, hopLength, encoderSubsampling]
    omega
  stride_le := by
    simp only [WindowSpec.new, frameSamples, hopLength, encoderSubsampling] at hpos ⊢
    omega

/-- The stride never eats into the requested overlap while a frame of the window is left. -/
theorem WindowSpec.le_overlap_new (singlePassMax : Nat) {window overlap : Nat}
    (h : overlap + frameSamples ≤ window) :
    overlap ≤ (WindowSpec.new singlePassMax window overlap).overlap := by
  simp only [WindowSpec.overlap, WindowSpec.new, frameSamples, hopLength, encoderSubsampling]
    at h ⊢
  omega

namespace WindowCursor

/-- What holds of a cursor before a take over `total` samples: it stands on the frame grid, and
the window before, if there was one, did not reach the end. -/
structure Ready (c : WindowCursor) (total : Nat) : Prop where
  live : c.done = false
  aligned : frameSamples ∣ c.nextStart
  first : c.prevStart = none → c.nextStart = 0
  prev : ∀ p, c.prevStart = some p → c.nextStart = p + c.spec.stride ∧ p + c.spec.window < total

theorem ready_new (spec : WindowSpec) (total : Nat) : (new spec).Ready total where
  live := rfl
  aligned := Nat.dvd_zero _
  first _ := rfl
  prev _ h := by cases h

theorem Ready.nextStart_lt {c : WindowCursor} {total : Nat} (hc : c.Ready total)
    (hspec : c.spec.Framed) (htotal : 0 < total) : c.nextStart < total := by
  cases hprev : c.prevStart with
  | none => rwa [hc.first hprev]
  | some p =>
      have hp := hc.prev p hprev
      have hle := hspec.stride_le
      omega

/-- The cursor after a window of full length. -/
def advance (c : WindowCursor) : WindowCursor :=
  { c with nextStart := c.nextStart + c.spec.stride, prevStart := some c.nextStart }

theorem Ready.advance {c : WindowCursor} {total : Nat} (hc : c.Ready total)
    (hspec : c.spec.Framed) (hlt : c.nextStart + c.spec.window < total) :
    c.advance.Ready total where
  live := hc.live
  aligned := (Nat.dvd_add_iff_right hc.aligned).mp hspec.stride_aligned
  first h := by cases h
  prev p h := by
    cases h
    exact ⟨rfl, hlt⟩

/-- Where the last window of `total` samples may start. -/
structure LastStart (c : WindowCursor) (total start : Nat) : Prop where
  aligned : frameSamples ∣ start
  le_next : start ≤ c.nextStart
  lt_total : start < total
  after_prev : ∀ p, c.prevStart = some p → p < start
  within : total - start ≤ c.lastWindowMax
  exact_of_partition : c.spec.overlap = 0 → start = c.nextStart
  long : c.spec.singlePassMax < total → c.spec.window < total + frameSamples →
    0 < c.spec.overlap → c.spec.window < total - start + frameSamples

/-- The anchored start is the end minus one window, rounded up to the frame grid; it lies strictly
between the previous start and the nominal one. -/
theorem anchoredStart_eq {c : WindowCursor} {total p : Nat} (hc : c.Ready total)
    (hspec : c.spec.Framed) (hprev : c.prevStart = some p) (hoverlap : c.spec.overlap ≠ 0)
    (hreach : total ≤ c.nextStart + c.spec.window) :
    c.anchoredStart c.nextStart total = ceilToFrame (total - c.spec.window) ∧
      p < ceilToFrame (total - c.spec.window) ∧
      ceilToFrame (total - c.spec.window) ≤ c.nextStart := by
  obtain ⟨hnext, hlt⟩ := hc.prev p hprev
  obtain ⟨k, hk⟩ := hc.aligned
  obtain ⟨m, hm⟩ := hspec.stride_aligned
  have hover : (c.spec.overlap == 0) = false := beq_eq_false_iff_ne.mpr hoverlap
  have hlen : ¬(total < c.spec.window) := by omega
  simp only [anchoredStart, hprev, hover, hlen, decide_false, Bool.or_self, Bool.false_eq_true,
    if_false, ceilToFrame, frameSamples, hopLength, encoderSubsampling] at hk hm ⊢
  omega

theorem dvd_ceilToFrame (n : Nat) : frameSamples ∣ ceilToFrame n := Nat.dvd_mul_left _ _

/-- A remainder past the longest last window leaves this window at its full length. -/
theorem take_of_far {c : WindowCursor} {availEnd : Nat} (eof : Bool) (hlive : c.done = false)
    (hfar : c.nextStart + c.lastWindowMax < availEnd) :
    c.take availEnd eof = (some (c.nextStart, c.nextStart + c.spec.window), c.advance) := by
  have hmax : c.spec.window ≤ c.lastWindowMax := Nat.le_max_right _ _
  have habsorb : c.absorbs availEnd eof = false := by
    simp only [absorbs, Bool.and_eq_false_iff, decide_eq_false_iff_not]
    left
    right
    omega
  have hstop : min (c.nextStart + c.spec.window) availEnd = c.nextStart + c.spec.window := by omega
  have hend : (c.nextStart + c.spec.window == availEnd) = false := by
    rw [beq_eq_false_iff_ne]
    omega
  simp only [take, select, hlive, habsorb, hstop, hend, Bool.and_false, Bool.false_eq_true,
    if_false, if_neg (show ¬availEnd ≤ c.nextStart by omega), advance]

section Near

variable {c : WindowCursor} {total : Nat} (hc : c.Ready total) (hspec : c.spec.Framed)
  (htotal : 0 < total)
include hc hspec htotal

theorem take_of_absorbed (hnear : total ≤ c.nextStart + c.lastWindowMax)
    (habsorb : c.absorbs total true = true) :
    c.LastStart total c.nextStart ∧ c.take total true =
      (some (c.nextStart, total), { c with done := true, prevStart := some c.nextStart }) := by
  have hlt := hc.nextStart_lt hspec htotal
  have hstride := hspec.stride_pos
  constructor
  · refine ⟨hc.aligned, Nat.le_refl _, hlt, ?_, by omega, fun _ => rfl, ?_⟩
    · intro p hp
      have := hc.prev p hp
      omega
    · intro hceiling hlong _
      simp only [absorbs, Bool.and_eq_true, Bool.or_eq_true, decide_eq_true_eq,
        Option.isNone_iff_eq_none] at habsorb
      have hframe : 0 < frameSamples := by decide
      rcases habsorb.2 with hwindow | hfirst
      · omega
      · rw [hc.first hfirst]
        omega
  · simp only [take, select, hc.live, habsorb, if_neg (Nat.not_le.mpr hlt), Bool.false_eq_true,
      if_false, if_true, Bool.true_and, beq_self_eq_true]

/-- A start that is not moved back is the last one. -/
theorem lastStart_of_partition {p : Nat} (hprev : c.prevStart = some p)
    (hshort : total - c.nextStart < c.spec.window) (hoverlap : c.spec.overlap = 0) :
    c.LastStart total (c.anchoredStart c.nextStart total) := by
  have hlt := hc.nextStart_lt hspec htotal
  have hstride := hspec.stride_pos
  have hmax : c.spec.window ≤ c.lastWindowMax := Nat.le_max_right _ _
  obtain ⟨hnext, hplt⟩ := hc.prev p hprev
  have hnominal : c.anchoredStart c.nextStart total = c.nextStart := by
    simp only [anchoredStart, hprev, hoverlap, beq_self_eq_true, Bool.or_true, if_true]
  rw [hnominal]
  refine ⟨hc.aligned, Nat.le_refl _, hlt, ?_, by omega, fun _ => rfl, ?_⟩
  · intro q hq
    rw [hprev] at hq
    cases hq
    omega
  · intro _ _ hpos
    omega

/-- A start that is moved back leaves a whole window, but for the rounding to a frame. -/
theorem lastStart_of_overlap {p : Nat} (hprev : c.prevStart = some p)
    (hshort : total - c.nextStart < c.spec.window) (hoverlap : c.spec.overlap ≠ 0) :
    c.LastStart total (c.anchoredStart c.nextStart total) := by
  have hlt := hc.nextStart_lt hspec htotal
  have hstride := hspec.stride_pos
  obtain ⟨hnext, hplt⟩ := hc.prev p hprev
  obtain ⟨heq, hafter, hbefore⟩ := anchoredStart_eq hc hspec hprev hoverlap (by omega)
  rw [heq]
  have hmax : c.spec.window ≤ c.lastWindowMax := Nat.le_max_right _ _
  have hceil : total - c.spec.window ≤ ceilToFrame (total - c.spec.window) ∧
      ceilToFrame (total - c.spec.window) < total - c.spec.window + frameSamples := by
    simp only [ceilToFrame, frameSamples, hopLength, encoderSubsampling]
    omega
  refine ⟨dvd_ceilToFrame _, hbefore, by omega, ?_, by omega, fun h => absurd h hoverlap, ?_⟩
  · intro q hq
    rw [hprev] at hq
    cases hq
    exact hafter
  · intro _ _ _
    omega

theorem take_of_anchored (hnear : total ≤ c.nextStart + c.lastWindowMax)
    (habsorb : c.absorbs total true = false) :
    c.LastStart total (c.anchoredStart c.nextStart total) ∧ c.take total true =
      (some (c.anchoredStart c.nextStart total, total),
        { c with done := true, prevStart := some (c.anchoredStart c.nextStart total) }) := by
  have hlt := hc.nextStart_lt hspec htotal
  have hshort : total - c.nextStart < c.spec.window ∧ c.prevStart ≠ none := by
    simp only [absorbs, Bool.true_and, Bool.and_eq_false_iff, Bool.or_eq_false_iff,
      decide_eq_false_iff_not, Option.isNone_eq_false_iff, Option.isSome_iff_ne_none] at habsorb
    rcases habsorb with hfar | ⟨hwindow, hprev⟩
    · omega
    · exact ⟨by omega, hprev⟩
  obtain ⟨p, hprev⟩ := Option.ne_none_iff_exists'.mp hshort.2
  have hstop : min (c.nextStart + c.spec.window) total = total := by omega
  constructor
  · by_cases hoverlap : c.spec.overlap = 0
    · exact lastStart_of_partition hc hspec htotal hprev hshort.1 hoverlap
    · exact lastStart_of_overlap hc hspec htotal hprev hshort.1 hoverlap
  · simp only [take, select, hc.live, habsorb, hstop, if_neg (Nat.not_le.mpr hlt),
      Bool.false_eq_true, if_false, if_true, Bool.true_and, beq_self_eq_true]

/-- A remainder within the longest last window makes this window the last one. -/
theorem take_of_near (hnear : total ≤ c.nextStart + c.lastWindowMax) :
    ∃ start, c.LastStart total start ∧ c.take total true =
      (some (start, total), { c with done := true, prevStart := some start }) := by
  cases habsorb : c.absorbs total true with
  | true => exact ⟨_, take_of_absorbed hc hspec htotal hnear habsorb⟩
  | false => exact ⟨_, take_of_anchored hc hspec htotal hnear habsorb⟩

end Near

/-- The shape of the windows a cursor yields over `total` samples. -/
inductive Layout (total : Nat) : WindowCursor → List (Nat × Nat) → Prop
  | last {c : WindowCursor} {start : Nat} (h : c.LastStart total start)
      (htake : c.take total true =
        (some (start, total), { c with done := true, prevStart := some start })) :
      Layout total c [(start, total)]
  | cons {c : WindowCursor} {ws : List (Nat × Nat)}
      (hfar : c.nextStart + c.lastWindowMax < total) (htail : Layout total c.advance ws) :
      Layout total c ((c.nextStart, c.nextStart + c.spec.window) :: ws)

theorem takes_done (total fuel : Nat) {c : WindowCursor} (h : c.done = true) :
    takes total fuel c = [] := by
  cases fuel with
  | zero => rfl
  | succ fuel => simp only [takes, take, h, if_true]

/-- Enough takes yield a whole layout, and more takes yield nothing more. -/
theorem takes_layout {total : Nat} (htotal : 0 < total) {fuel : Nat} {c : WindowCursor}
    (hc : c.Ready total) (hspec : c.spec.Framed) (hfuel : total ≤ c.nextStart + fuel) :
    Layout total c (takes total fuel c) ∧
      ∀ more, takes total (fuel + more) c = takes total fuel c := by
  induction fuel generalizing c with
  | zero =>
      have := hc.nextStart_lt hspec htotal
      omega
  | succ fuel ih =>
      by_cases hnear : total ≤ c.nextStart + c.lastWindowMax
      · obtain ⟨start, hstart, htake⟩ := take_of_near hc hspec htotal hnear
        refine ⟨?_, fun more => ?_⟩
        · simp only [takes, htake, takes_done]
          exact .last hstart htake
        · rw [Nat.succ_add]
          simp only [takes, htake, takes_done]
      · have hfar : c.nextStart + c.lastWindowMax < total := Nat.lt_of_not_le hnear
        have hmax : c.spec.window ≤ c.lastWindowMax := Nat.le_max_right _ _
        have hstride := hspec.stride_pos
        obtain ⟨hlayout, hmore⟩ := ih (hc.advance hspec (by omega)) hspec (by
          simp only [advance]
          omega)
        refine ⟨?_, fun more => ?_⟩
        · simp only [takes, take_of_far true hc.live hfar]
          exact .cons hfar hlayout
        · rw [Nat.succ_add]
          simp only [takes, take_of_far true hc.live hfar, hmore more]

theorem windows_layout {spec : WindowSpec} (hspec : spec.Framed) {total : Nat}
    (htotal : 0 < total) :
    Layout total (new spec) (spec.windows total) ∧
      ∀ more, takes total (total + 1 + more) (new spec) = spec.windows total :=
  takes_layout htotal (ready_new spec total) hspec (Nat.le_add_left_of_le (Nat.le_succ total))

/-- The second window starts after the first, and at least one overlap before its end. -/
def Follows (spec : WindowSpec) (a b : Nat × Nat) : Prop :=
  a.1 < b.1 ∧ b.1 + spec.overlap ≤ a.2

theorem follows_advance {c : WindowCursor} {total p : Nat} (hc : c.Ready total)
    (hspec : c.spec.Framed) (hprev : c.prevStart = some p) :
    Follows c.spec (p, p + c.spec.window) (c.nextStart, c.nextStart + c.spec.window) := by
  obtain ⟨hnext, -⟩ := hc.prev p hprev
  have hpos := hspec.stride_pos
  have hle := hspec.stride_le
  simp only [Follows, WindowSpec.overlap]
  omega

theorem LastStart.follows {c : WindowCursor} {total start p : Nat} (h : c.LastStart total start)
    (hc : c.Ready total) (hspec : c.spec.Framed) (hprev : c.prevStart = some p) :
    Follows c.spec (p, p + c.spec.window) (start, total) := by
  obtain ⟨hnext, -⟩ := hc.prev p hprev
  have hafter := h.after_prev p hprev
  have hbefore := h.le_next
  have hle := hspec.stride_le
  simp only [Follows, WindowSpec.overlap]
  omega

theorem Layout.follows {total : Nat} {c : WindowCursor} {ws : List (Nat × Nat)}
    (h : Layout total c ws) (hc : c.Ready total) (hspec : c.spec.Framed) :
    ws.IsChain (Follows c.spec) ∧
      ∀ p, c.prevStart = some p → ((p, p + c.spec.window) :: ws).IsChain (Follows c.spec) := by
  induction h with
  | last hlast _ =>
      refine ⟨List.isChain_singleton _, fun p hp => ?_⟩
      exact List.isChain_pair.mpr (hlast.follows hc hspec hp)
  | cons hfar _ ih =>
      rename_i c ws _
      have hmax : c.spec.window ≤ c.lastWindowMax := Nat.le_max_right _ _
      obtain ⟨-, hfrom⟩ := ih (hc.advance hspec (by omega)) hspec
      have htail := hfrom c.nextStart rfl
      exact ⟨htail, fun p hp => List.isChain_cons_cons.mpr ⟨follows_advance hc hspec hp, htail⟩⟩

theorem Layout.aligned {total : Nat} {c : WindowCursor} {ws : List (Nat × Nat)}
    (h : Layout total c ws) (hc : c.Ready total) (hspec : c.spec.Framed) :
    ∀ w ∈ ws, frameSamples ∣ w.1 := by
  induction h with
  | last hlast _ =>
      intro w hw
      rw [List.mem_singleton.mp hw]
      exact hlast.aligned
  | cons hfar _ ih =>
      rename_i c ws _
      have hmax : c.spec.window ≤ c.lastWindowMax := Nat.le_max_right _ _
      intro w hw
      rcases List.mem_cons.mp hw with rfl | hw
      · exact hc.aligned
      · exact ih (hc.advance hspec (by omega)) hspec w hw

theorem Layout.inside {total : Nat} {c : WindowCursor} {ws : List (Nat × Nat)}
    (h : Layout total c ws) (hspec : c.spec.Framed) : ∀ w ∈ ws, w.1 < w.2 ∧ w.2 ≤ total := by
  induction h with
  | last hlast _ =>
      intro w hw
      rw [List.mem_singleton.mp hw]
      exact ⟨hlast.lt_total, Nat.le_refl _⟩
  | cons hfar _ ih =>
      rename_i c ws _
      have hmax : c.spec.window ≤ c.lastWindowMax := Nat.le_max_right _ _
      have hpos := hspec.stride_pos
      have hle := hspec.stride_le
      intro w hw
      rcases List.mem_cons.mp hw with rfl | hw
      · constructor <;> dsimp only <;> omega
      · exact ih hspec w hw

theorem Layout.covers {total : Nat} {c : WindowCursor} {ws : List (Nat × Nat)}
    (h : Layout total c ws) (hspec : c.spec.Framed) {i : Nat} (hfrom : c.nextStart ≤ i)
    (hi : i < total) : ∃ w ∈ ws, w.1 ≤ i ∧ i < w.2 := by
  induction h with
  | last hlast _ => exact ⟨_, List.mem_singleton_self _, hlast.le_next.trans hfrom, hi⟩
  | cons _ _ ih =>
      rename_i c ws _ _
      have hle := hspec.stride_le
      by_cases hin : i < c.nextStart + c.spec.window
      · exact ⟨_, List.mem_cons_self, hfrom, hin⟩
      · obtain ⟨w, hw, hcover⟩ := ih hspec (by simp only [advance]; omega)
        exact ⟨w, List.mem_cons_of_mem _ hw, hcover⟩

theorem Layout.bounded {total : Nat} {c : WindowCursor} {ws : List (Nat × Nat)}
    (h : Layout total c ws) : ∀ w ∈ ws, w.2 - w.1 ≤ c.lastWindowMax := by
  induction h with
  | last hlast _ =>
      intro w hw
      rw [List.mem_singleton.mp hw]
      exact hlast.within
  | cons _ _ ih =>
      rename_i c ws _ _
      intro w hw
      rcases List.mem_cons.mp hw with rfl | hw
      · have hmax : c.spec.window ≤ c.lastWindowMax := Nat.le_max_right _ _
        dsimp only
        omega
      · exact ih w hw

theorem Layout.no_short_tail {total : Nat} {c : WindowCursor} {ws : List (Nat × Nat)}
    (h : Layout total c ws) (hceiling : c.spec.singlePassMax < total)
    (hlong : c.spec.window < total + frameSamples) (hoverlap : 0 < c.spec.overlap) :
    ∀ w ∈ ws, c.spec.window < w.2 - w.1 + frameSamples := by
  induction h with
  | last hlast _ =>
      intro w hw
      rw [List.mem_singleton.mp hw]
      exact hlast.long hceiling hlong hoverlap
  | cons _ _ ih =>
      rename_i c ws _ _
      intro w hw
      rcases List.mem_cons.mp hw with rfl | hw
      · have hframe : 0 < frameSamples := by decide
        dsimp only
        omega
      · exact ih hceiling hlong hoverlap w hw

/-- Without overlap the windows are laid end to end, so no sample is in two of them. -/
theorem Layout.disjoint {total : Nat} {c : WindowCursor} {ws : List (Nat × Nat)}
    (h : Layout total c ws) (hspec : c.spec.Framed) (hoverlap : c.spec.overlap = 0) :
    (∀ w ∈ ws, c.nextStart ≤ w.1) ∧
      ∀ v ∈ ws, ∀ w ∈ ws, ∀ i, v.1 ≤ i → i < v.2 → w.1 ≤ i → i < w.2 → v = w := by
  induction h with
  | last hlast _ =>
      constructor
      · intro w hw
        rw [List.mem_singleton.mp hw]
        exact (hlast.exact_of_partition hoverlap).ge
      · intro v hv w hw
        rw [List.mem_singleton.mp hv, List.mem_singleton.mp hw]
        exact fun _ _ _ _ _ => rfl
  | cons _ _ ih =>
      rename_i c ws _ _
      obtain ⟨hafter, hunique⟩ := ih hspec hoverlap
      have hstride : c.spec.stride = c.spec.window := by
        have hle := hspec.stride_le
        simp only [WindowSpec.overlap] at hoverlap
        omega
      simp only [advance] at hafter
      constructor
      · intro w hw
        rcases List.mem_cons.mp hw with rfl | hw
        · exact Nat.le_refl _
        · exact (Nat.le_add_right _ _).trans (hafter w hw)
      · intro v hv w hw i hvi hiv hwi hiw
        rcases List.mem_cons.mp hv with rfl | hv <;> rcases List.mem_cons.mp hw with rfl | hw
        · rfl
        · have := hafter w hw
          dsimp only at hiv
          omega
        · have := hafter v hv
          dsimp only at hiw
          omega
        · exact hunique v hv w hw i hvi hiv hwi hiw

end WindowCursor

/-- The geometry long-form decode relies on. -/
structure WindowSpec.Geometry (spec : WindowSpec) (total : Nat) (ws : List (Nat × Nat)) : Prop where
  starts_increase : (ws.map Prod.fst).Pairwise (· < ·)
  starts_aligned : ∀ w ∈ ws, frameSamples ∣ w.1
  inside : ∀ w ∈ ws, w.1 < w.2 ∧ w.2 ≤ total
  covers : ∀ i < total, ∃ w ∈ ws, w.1 ≤ i ∧ i < w.2
  bounded : ∀ w ∈ ws, w.2 - w.1 ≤ max spec.singlePassMax spec.window
  no_short_tail : spec.singlePassMax < total → spec.window - frameSamples < total →
    0 < spec.overlap → ∀ w ∈ ws, spec.window - frameSamples < w.2 - w.1
  overlaps : ws.IsChain fun a b => b.1 + spec.overlap ≤ a.2
  partition : spec.overlap = 0 → ∀ i < total, ∃! w, w ∈ ws ∧ w.1 ≤ i ∧ i < w.2

open WindowCursor in
theorem WindowSpec.Framed.geometry {spec : WindowSpec} (hspec : spec.Framed) {total : Nat}
    {ws : List (Nat × Nat)} (h : Layout total (.new spec) ws) : spec.Geometry total ws where
  starts_increase := by
    have hchain := (h.follows (ready_new spec total) hspec).1
    rw [← List.isChain_iff_pairwise, List.isChain_map]
    exact hchain.imp fun _ _ hab => hab.1
  starts_aligned := h.aligned (ready_new spec total) hspec
  inside := h.inside hspec
  covers i hi := h.covers hspec (Nat.zero_le i) hi
  bounded := h.bounded
  no_short_tail hceiling hlong hoverlap w hw := by
    have hframe : 0 < frameSamples := by decide
    have htail := h.no_short_tail hceiling (by dsimp only [WindowCursor.new]; omega) hoverlap w hw
    have hpos := h.inside hspec w hw
    dsimp only [WindowCursor.new] at htail
    omega
  overlaps := (h.follows (ready_new spec total) hspec).1.imp fun _ _ hab => hab.2
  partition hoverlap i hi := by
    obtain ⟨w, hw, hfrom, hto⟩ := h.covers hspec (Nat.zero_le i) hi
    refine ⟨w, ⟨hw, hfrom, hto⟩, fun v hv => ?_⟩
    exact (h.disjoint hspec hoverlap).2 v hv.1 w hw i hv.2.1 hv.2.2 hfrom hto

/-- The windows of a spec with a whole number of frames per window: finitely many, and laid out as
long-form decode needs them. A signal past the single-pass ceiling has no short tail as long as it
is not itself that short. -/
theorem windows_geometry (singlePassMax overlap total : Nat) {window : Nat}
    (hpos : frameSamples ≤ window) (hdvd : frameSamples ∣ window) :
    let spec := WindowSpec.new singlePassMax window overlap
    (∀ fuel, total + 1 ≤ fuel →
      WindowCursor.takes total fuel (.new spec) = spec.windows total) ∧
    spec.Geometry total (spec.windows total) ∧
    (overlap + frameSamples ≤ window → overlap ≤ spec.overlap) := by
  intro spec
  have hspec : spec.Framed := WindowSpec.new_framed singlePassMax overlap hpos hdvd
  refine ⟨?_, ?_, WindowSpec.le_overlap_new singlePassMax⟩
  · intro fuel hfuel
    obtain ⟨more, rfl⟩ := Nat.exists_eq_add_of_le hfuel
    cases total with
    | zero => rw [Nat.zero_add, Nat.add_comm]; rfl
    | succ n => exact (WindowCursor.windows_layout hspec (Nat.succ_pos n)).2 more
  · cases total with
    | zero =>
        have hempty : spec.windows 0 = [] := rfl
        rw [hempty]
        constructor <;> simp
    | succ n => exact hspec.geometry (WindowCursor.windows_layout hspec (Nat.succ_pos n)).1

theorem windows_geometry_engine :
    let spec := WindowSpec.new 480000 384000 32000
    (∀ fuel, 1000001 ≤ fuel → WindowCursor.takes 1000000 fuel (.new spec) = spec.windows 1000000) ∧
    spec.Geometry 1000000 (spec.windows 1000000) ∧ (32000 + 640 ≤ 384000 → 32000 ≤ spec.overlap) :=
  windows_geometry 480000 32000 1000000 (by decide) (by decide)

/-- A signal past the ceiling but shorter than a window is one short window. -/
theorem short_window_past_ceiling :
    let spec := WindowSpec.new 0 1280 640
    spec.singlePassMax < 100 ∧ 0 < spec.overlap ∧
      ¬∀ w ∈ spec.windows 100, spec.window - frameSamples < w.2 - w.1 := by
  decide

end Gigastt
