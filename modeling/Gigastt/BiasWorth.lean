import Gigastt.BiasScore

/-!
What a phrase spelled from the root is worth: a share for each scored token, and the share of a
token is set by the shortest phrase it is a token of.
-/

namespace Gigastt

namespace Biaser

theorem le_foldl_min {k a : Nat} {l : List Nat} :
    k ≤ l.foldl min a ↔ k ≤ a ∧ ∀ x ∈ l, k ≤ x := by
  induction l generalizing a with
  | nil => simp
  | cons x l ih => rw [List.foldl_cons, ih, le_min_iff, List.forall_mem_cons, and_assoc]

theorem le_shortestOf {k entry : Nat} {sequences : List (List Nat)} {q : List Nat} (hq : q ≠ []) :
    k ≤ shortestOf entry sequences q ↔
      k ≤ 2 ^ 64 - 1 ∧ ∀ seq ∈ sequences, q <+: seq → k ≤ scoredLength entry seq := by
  rw [shortestOf, if_neg hq, le_foldl_min, List.forall_mem_map]
  simp only [List.mem_filter, decide_eq_true_eq, and_imp]

theorem shortestOf_pos {entry : Nat} {sequences : List (List Nat)} {q : List Nat} (hq : q ≠ []) :
    0 < shortestOf entry sequences q :=
  (le_shortestOf hq).mpr ⟨by norm_num, fun seq _ _ => Nat.le_max_right _ _⟩

/-- The tokens a phrase begins with hear of the phrase itself. -/
theorem shortestOf_le {entry : Nat} {sequences : List (List Nat)} {phrase q : List Nat}
    (hq : q ≠ []) (hphrase : phrase ∈ sequences) (hstarts : q <+: phrase)
    (hscored : entry < phrase.length) :
    shortestOf entry sequences q ≤ phrase.length - entry := by
  have hle := ((le_shortestOf hq).mp (Nat.le_refl (shortestOf entry sequences q))).2
    phrase hphrase hstarts
  rwa [scoredLength, Nat.max_eq_left (by omega)] at hle

theorem shortestOf_eq_iff {entry : Nat} {sequences : List (List Nat)} {phrase q : List Nat}
    (hq : q ≠ []) (hphrase : phrase ∈ sequences) (hstarts : q <+: phrase)
    (hscored : entry < phrase.length) (hfit : phrase.length < 2 ^ 64) :
    shortestOf entry sequences q = phrase.length - entry ↔
      ∀ seq ∈ sequences, q <+: seq → phrase.length - entry ≤ scoredLength entry seq := by
  rw [← (shortestOf_le hq hphrase hstarts hscored).ge_iff_eq, le_shortestOf hq]
  exact and_iff_right (by omega)

/-- Shares of one amount add up to it when each is the same part of it. -/
theorem sum_shares_eq_iff {m : Nat} (hm : 0 < m) (boost : ℚ) {short : Nat → Nat}
    (hpos : ∀ i < m, 0 < short i) (hle : ∀ i < m, short i ≤ m) :
    ∑ i ∈ Finset.range m, boost / short i = boost ↔ boost = 0 ∨ ∀ i < m, short i = m := by
  have heven : ∑ i ∈ Finset.range m, (m : ℚ)⁻¹ = 1 := by
    rw [Finset.sum_const, Finset.card_range, nsmul_eq_mul]
    exact mul_inv_cancel₀ (Nat.cast_ne_zero.mpr hm.ne')
  have hshare : ∀ i ∈ Finset.range m, (m : ℚ)⁻¹ ≤ (short i : ℚ)⁻¹ := by
    intro i hi
    rw [Finset.mem_range] at hi
    exact inv_anti₀ (Nat.cast_pos.mpr (hpos i hi)) (Nat.cast_le.mpr (hle i hi))
  have hone : ∑ i ∈ Finset.range m, (short i : ℚ)⁻¹ = 1 ↔ ∀ i < m, short i = m := by
    rw [← heven, eq_comm, Finset.sum_eq_sum_iff_of_le hshare]
    simp only [Finset.mem_range, inv_inj, Nat.cast_inj, eq_comm]
  have hfactor : ∑ i ∈ Finset.range m, boost / short i =
      boost * ∑ i ∈ Finset.range m, (short i : ℚ)⁻¹ := by
    rw [Finset.mul_sum]
    exact Finset.sum_congr rfl fun i _ => div_eq_mul_inv boost _
  rw [hfactor, mul_right_eq_self₀, hone, or_comm]

variable {sequences : List (List Nat)} {boost : ℚ} {leadingIsEntry : Bool} {b : Biaser ℚ}

/-- The tokens a phrase begins with are granted one by one. -/
theorem Compiled.scoreLabels_begins (h : Compiled b sequences boost leadingIsEntry)
    {tokens : List Nat} (hbegins : Begins sequences tokens) :
    b.walk tokens = some (b.scoreLabels tokens).2.node ∧
    (b.scoreLabels tokens).1 = ∑ i ∈ Finset.range tokens.length,
      grantOf sequences boost leadingIsEntry (tokens.take (i + 1)) := by
  induction tokens using List.reverseRecOn with
  | nil => exact ⟨rfl, rfl⟩
  | append_singleton tokens tok ih =>
      obtain ⟨hwalk, hearned⟩ := ih hbegins.concat
      obtain ⟨child, hchild⟩ := (h.walk_iff _).mpr hbegins
      have hedge : b.child? (b.scoreLabels tokens).2.node tok = some child := by
        rwa [walk_concat, hwalk, Option.bind_some] at hchild
      have hstep : b.scoreToken (b.scoreLabels tokens).2 tok =
          b.enter (b.scoreLabels tokens).2 child := by rw [scoreToken, hedge]
      rw [scoreLabels_concat, hstep]
      refine ⟨hchild, ?_⟩
      rw [List.length_append, List.length_singleton, Finset.sum_range_succ]
      have htake : ∀ i ∈ Finset.range tokens.length,
          grantOf sequences boost leadingIsEntry ((tokens ++ [tok]).take (i + 1)) =
            grantOf sequences boost leadingIsEntry (tokens.take (i + 1)) := by
        intro i hi
        rw [List.take_append_of_le_length (Nat.succ_le_of_lt (Finset.mem_range.mp hi))]
      have hwhole : (tokens ++ [tok]).take (tokens.length + 1) = tokens ++ [tok] :=
        List.take_of_length_le (by simp)
      rw [Finset.sum_congr rfl htake, ← hearned, hwhole, ← h.grant_eq hchild]
      rfl

/-- The tokens that are paid for, after the marker. -/
theorem Compiled.earned (h : Compiled b sequences boost leadingIsEntry) {phrase : List Nat}
    (hphrase : phrase ∈ sequences) (hne : phrase ≠ []) :
    (b.scoreLabels phrase).1 =
      ∑ i ∈ Finset.range (phrase.length - entryTokens leadingIsEntry),
        boost / (max (shortestOf (entryTokens leadingIsEntry) sequences
          (phrase.take (entryTokens leadingIsEntry + i + 1))) 1 : Nat) := by
  have hlength : phrase.length ≠ 0 := fun hzero => hne (List.length_eq_zero_iff.mp hzero)
  have htaken : ∀ i, phrase.take (i + 1) ≠ [] := fun i hnil => by
    rcases List.take_eq_nil_iff.mp hnil with hzero | hnil
    · exact Nat.succ_ne_zero i hzero
    · exact hne hnil
  rw [(h.scoreLabels_begins (Or.inr ⟨phrase, hphrase, List.prefix_rfl⟩)).2]
  cases leadingIsEntry with
  | false =>
      apply Finset.sum_congr rfl
      intro i _
      rw [grantOf, if_neg (by simp [htaken])]
      simp only [entryTokens, Bool.false_eq_true, if_false, Nat.zero_add]
  | true =>
      obtain ⟨m, hm⟩ := Nat.exists_eq_succ_of_ne_zero hlength
      have hmarker : grantOf sequences boost true (phrase.take (0 + 1)) = 0 :=
        if_pos (Or.inr ⟨rfl, by rw [List.length_take]; omega⟩)
      rw [hm, Finset.sum_range_succ', hmarker, add_zero]
      apply Finset.sum_congr rfl
      intro i hi
      have hlonger : ¬(phrase.take (i + 1 + 1) = [] ∨
          (true = true ∧ (phrase.take (i + 1 + 1)).length = 1)) := by
        rintro (hnil | ⟨_, hone⟩)
        · exact htaken _ hnil
        · rw [List.length_take] at hone
          have := Finset.mem_range.mp hi
          omega
      rw [grantOf, if_neg hlonger]
      simp only [entryTokens, if_true, Nat.add_comm 1 i]

/-- A phrase earns the boost exactly when no shorter phrase shares its first scored token. -/
theorem worth_iff (hbuild : build sequences boost leadingIsEntry = some b)
    (hfit : ∀ seq ∈ sequences, seq.length < 2 ^ 64) {phrase : List Nat}
    (hphrase : phrase ∈ sequences) (hne : phrase ≠ []) :
    (b.scoreLabels phrase).1 = boost ↔
      boost = 0 ∨ (entryTokens leadingIsEntry < phrase.length ∧
        ∀ seq ∈ sequences, phrase.take (entryTokens leadingIsEntry + 1) <+: seq →
          phrase.length ≤ seq.length) := by
  rw [(build_compiled hbuild).earned hphrase hne]
  generalize entryTokens leadingIsEntry = entry
  rcases Nat.lt_or_ge entry phrase.length with hscored | hunscored
  · have htaken : ∀ i, phrase.take (entry + i + 1) ≠ [] := fun i hnil => by
      rcases List.take_eq_nil_iff.mp hnil with hzero | hnil
      · exact Nat.succ_ne_zero _ hzero
      · exact hne hnil
    have hmax : ∀ i, max (shortestOf entry sequences (phrase.take (entry + i + 1))) 1 =
        shortestOf entry sequences (phrase.take (entry + i + 1)) := fun i =>
      Nat.max_eq_left (shortestOf_pos (htaken i))
    simp only [hmax]
    rw [sum_shares_eq_iff (by omega) boost (fun i _ => shortestOf_pos (htaken i))
      (fun i _ => shortestOf_le (htaken i) hphrase (List.take_prefix _ _) hscored)]
    apply or_congr_right
    simp only [shortestOf_eq_iff (htaken _) hphrase (List.take_prefix _ _) hscored
      (hfit phrase hphrase)]
    constructor
    · intro hall
      refine ⟨hscored, fun seq hseq hstarts => ?_⟩
      have hle := hall 0 (by omega) seq hseq hstarts
      unfold scoredLength at hle
      have hlonger := hstarts.length_le
      rw [List.length_take] at hlonger
      omega
    · rintro ⟨_, hshortest⟩ i _ seq hseq hstarts
      have hfirst : phrase.take (entry + 1) <+: seq :=
        (List.take_prefix_take_left (by omega)).trans hstarts
      have hle := hshortest seq hseq hfirst
      exact (Nat.sub_le_sub_right hle entry).trans (Nat.le_max_left _ _)
  · rw [Nat.sub_eq_zero_of_le hunscored, Finset.range_zero, Finset.sum_empty]
    constructor
    · intro hzero
      exact Or.inl hzero.symm
    · rintro (hzero | ⟨hlt, _⟩)
      · exact hzero.symm
      · omega

/-- A phrase alone under its first token earns the boost. -/
theorem worth_iff_alone : ∃ b, build [[0, 1, 2], [0, 3]] (6 : ℚ) true = some b ∧
    ((b.scoreLabels [0, 1, 2]).1 = 6 ↔ (6 : ℚ) = 0 ∨ (entryTokens true < [0, 1, 2].length ∧
      ∀ seq ∈ [[0, 1, 2], [0, 3]], [0, 1, 2].take (entryTokens true + 1) <+: seq →
        [0, 1, 2].length ≤ seq.length)) := by
  obtain ⟨b, hbuild⟩ : ∃ b, build [[0, 1, 2], [0, 3]] (6 : ℚ) true = some b := ⟨_, rfl⟩
  exact ⟨b, hbuild, worth_iff hbuild (by decide) (by decide) (by decide)⟩

/-- A phrase that begins with a whole other phrase earns half a boost too much. -/
theorem worth_of_nested : ∃ b, build [[0, 1], [0, 1, 2]] (6 : ℚ) true = some b ∧
    (b.scoreLabels [0, 1, 2]).1 = 9 ∧ (b.scoreLabels [0, 1, 2]).1 ≠ b.boost := by
  obtain ⟨b, hbuild⟩ : ∃ b, build [[0, 1], [0, 1, 2]] (6 : ℚ) true = some b := ⟨_, rfl⟩
  have hcompiled := build_compiled hbuild
  have hearned : (b.scoreLabels [0, 1, 2]).1 = 9 := by
    rw [hcompiled.earned (by decide) (by decide)]
    norm_num [entryTokens, shortestOf, scoredLength, Finset.sum_range_succ]
    rw [if_neg (by decide), if_neg (by decide)]
    norm_num
  refine ⟨b, hbuild, hearned, ?_⟩
  rw [hearned, hcompiled.boost_eq]
  norm_num

end Biaser

end Gigastt
