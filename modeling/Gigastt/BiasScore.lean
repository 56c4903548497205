import Gigastt.BiasBuild

/-!
What the beam earns for the tokens it spells. A step carries its pending grants on or is refunded
them, and the end of a phrase settles them.
-/

namespace Gigastt

namespace Biaser

variable {F : Type}

section Steps

variable [Zero F]

/-- The node a step enters, if any. -/
def entered (b : Biaser F) (step : BiasPath F × Nat) : Option Nat :=
  (b.child? step.1.node step.2).or (b.child? 0 step.2)

/-- What is pending when the step's node is entered: nothing after a refund. -/
def carried (b : Biaser F) (step : BiasPath F × Nat) : F :=
  if (b.child? step.1.node step.2).isSome then step.1.pending else 0

/-- The grant of the node a step enters. -/
def granted (b : Biaser F) (step : BiasPath F × Nat) : F :=
  ((b.entered step).map fun child => (b.node child).grant).getD 0

/-- The step enters a node that ends a phrase. -/
def endsPhrase (b : Biaser F) (step : BiasPath F × Nat) : Bool :=
  (b.entered step).any fun child => (b.node child).isEnd

variable [Add F] [Neg F]

/-- The steps of some tokens: the path each starts from, and its token. -/
def steps (b : Biaser F) : BiasPath F → List Nat → List (BiasPath F × Nat)
  | _, [] => []
  | path, tok :: labels => (path, tok) :: b.steps (b.scoreToken path tok).2 labels

end Steps

section Settle

/-- What one step pays and what it leaves pending. -/
theorem scoreToken_eq (b : Biaser ℚ) (step : BiasPath ℚ × Nat) :
    b.scoreToken step.1 step.2 =
      (b.carried step - step.1.pending + b.granted step,
        { node := (b.entered step).getD 0
          pending := if b.endsPhrase step then 0 else b.carried step + b.granted step }) := by
  obtain ⟨path, tok⟩ := step
  simp only [scoreToken, carried, granted, endsPhrase, entered, enter]
  cases b.child? path.node tok with
  | some child => simp
  | none =>
      cases b.child? 0 tok with
      | some child => simp [BiasPath.default]
      | none => simp [BiasPath.default]

/-- What a step pays beyond what it leaves pending is what it settles. -/
theorem scoreToken_settles (b : Biaser ℚ) (step : BiasPath ℚ × Nat) :
    (b.scoreToken step.1 step.2).1 - (b.scoreToken step.1 step.2).2.pending =
      -step.1.pending + if b.endsPhrase step then b.carried step + b.granted step else 0 := by
  rw [scoreToken_eq]
  split_ifs <;> ring

theorem foldl_scoreToken_settles (b : Biaser ℚ) (labels : List Nat) (earned : ℚ)
    (path : BiasPath ℚ) :
    let r := labels.foldl (fun acc tok =>
      (acc.1 + (b.scoreToken acc.2 tok).1, (b.scoreToken acc.2 tok).2)) (earned, path)
    r.1 - r.2.pending = earned - path.pending +
      (((b.steps path labels).filter b.endsPhrase).map
        fun step => b.carried step + b.granted step).sum := by
  induction labels generalizing earned path with
  | nil => simp [steps]
  | cons tok labels ih =>
      have hstep := b.scoreToken_settles (path, tok)
      have hrun := ih (earned + (b.scoreToken path tok).1) (b.scoreToken path tok).2
      simp only at hstep hrun
      rw [List.foldl_cons, steps, List.filter_cons]
      simp only [hrun]
      split_ifs with hend
      · rw [if_pos hend] at hstep
        rw [List.map_cons, List.sum_cons]
        linarith
      · rw [if_neg hend] at hstep
        linarith

/-- The node is spelled by some tokens. -/
def Reached (b : Biaser ℚ) (i : Nat) : Prop := ∃ tokens, b.walk tokens = some i

theorem Reached.child {b : Biaser ℚ} {i tok child : Nat} (hi : b.Reached i)
    (hchild : b.child? i tok = some child) : b.Reached child := by
  obtain ⟨tokens, htokens⟩ := hi
  refine ⟨tokens ++ [tok], ?_⟩
  rw [walk_concat, htokens]
  exact hchild

theorem reached_root (b : Biaser ℚ) : b.Reached 0 := ⟨[], rfl⟩

variable {sequences : List (List Nat)} {boost : ℚ} {leadingIsEntry : Bool} {b : Biaser ℚ}

theorem grantOf_nonneg (sequences : List (List Nat)) (hboost : 0 ≤ boost) (leadingIsEntry : Bool)
    (tokens : List Nat) : 0 ≤ grantOf sequences boost leadingIsEntry tokens := by
  unfold grantOf
  split_ifs
  · exact le_refl 0
  · exact div_nonneg hboost (Nat.cast_nonneg _)

theorem Compiled.grant_nonneg (h : Compiled b sequences boost leadingIsEntry) (hboost : 0 ≤ boost)
    {i : Nat} (hi : b.Reached i) : 0 ≤ (b.node i).grant := by
  obtain ⟨tokens, htokens⟩ := hi
  rw [h.grant_eq htokens]
  exact grantOf_nonneg sequences hboost leadingIsEntry tokens

/-- A path of the beam: at a node of the trie, owing what it was granted. -/
structure Owing (b : Biaser ℚ) (path : BiasPath ℚ) : Prop where
  reached : b.Reached path.node
  pending_nonneg : 0 ≤ path.pending

theorem Owing.root (b : Biaser ℚ) : b.Owing .default := ⟨b.reached_root, le_refl 0⟩

theorem Owing.scoreToken (h : Compiled b sequences boost leadingIsEntry) (hboost : 0 ≤ boost)
    {path : BiasPath ℚ} (howing : b.Owing path) (tok : Nat) :
    b.Owing (b.scoreToken path tok).2 := by
  have henter : ∀ {from' : BiasPath ℚ} {child}, b.Owing from' →
      b.child? from'.node tok = some child → b.Owing (b.enter from' child).2 := by
    intro from' child hfrom hchild
    have hreached := hfrom.reached.child hchild
    refine ⟨hreached, ?_⟩
    simp only [enter]
    split_ifs
    · exact le_refl 0
    · exact add_nonneg hfrom.pending_nonneg (h.grant_nonneg hboost hreached)
  unfold Biaser.scoreToken
  split
  case h_1 child hchild => exact henter howing hchild
  case h_2 =>
    split
    case h_1 child hchild => exact henter (Owing.root b) hchild
    case h_2 => exact Owing.root b

theorem Compiled.owing (h : Compiled b sequences boost leadingIsEntry) (hboost : 0 ≤ boost)
    (labels : List Nat) : b.Owing (b.scoreLabels labels).2 := by
  induction labels using List.reverseRecOn with
  | nil => exact Owing.root b
  | append_singleton labels tok ih =>
      rw [scoreLabels_concat]
      exact ih.scoreToken h hboost tok

/-- Nothing is owed to a path, and what it was paid beyond what it owes was settled at the ends of
the phrases it spelled. -/
theorem bonus_settles (hbuild : build sequences boost leadingIsEntry = some b)
    (hboost : 0 ≤ boost) (labels : List Nat) :
    0 ≤ (b.scoreLabels labels).2.pending ∧
    (b.scoreLabels labels).1 - (b.scoreLabels labels).2.pending =
      (((b.steps .default labels).filter b.endsPhrase).map
        fun step => b.carried step + b.granted step).sum ∧
    ((∀ step ∈ b.steps .default labels, b.endsPhrase step = false) →
      (b.scoreLabels labels).1 - (b.scoreLabels labels).2.pending = 0) := by
  have hsettled : (b.scoreLabels labels).1 - (b.scoreLabels labels).2.pending =
      (((b.steps .default labels).filter b.endsPhrase).map
        fun step => b.carried step + b.granted step).sum := by
    have hrun := b.foldl_scoreToken_settles labels 0 .default
    simpa [scoreLabels, BiasPath.default] using hrun
  refine ⟨((build_compiled hbuild).owing hboost labels).pending_nonneg, hsettled, ?_⟩
  intro hnone
  have hempty : (b.steps .default labels).filter b.endsPhrase = [] :=
    List.filter_eq_nil_iff.mpr fun step hstep => by simp [hnone step hstep]
  rw [hsettled, hempty, List.map_nil, List.sum_nil]

/-- One phrase begins the other: both are settled, the longer one by its last token alone. -/
theorem bonus_settles_nested : ∃ b, build [[1], [1, 2]] (6 : ℚ) false = some b ∧
    0 ≤ (b.scoreLabels [1, 2]).2.pending ∧
    (b.scoreLabels [1, 2]).1 - (b.scoreLabels [1, 2]).2.pending =
      (((b.steps .default [1, 2]).filter b.endsPhrase).map
        fun step => b.carried step + b.granted step).sum ∧
    ((∀ step ∈ b.steps .default [1, 2], b.endsPhrase step = false) →
      (b.scoreLabels [1, 2]).1 - (b.scoreLabels [1, 2]).2.pending = 0) := by
  obtain ⟨b, hbuild⟩ : ∃ b, build [[1], [1, 2]] (6 : ℚ) false = some b := ⟨_, rfl⟩
  exact ⟨b, hbuild, bonus_settles hbuild (by norm_num) [1, 2]⟩

end Settle

end Biaser

end Gigastt
