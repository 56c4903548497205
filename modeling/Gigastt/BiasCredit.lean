import Gigastt.BiasBuild
import Gigastt.Cutting

/-!
Which phrases the beam hears. Its one path cuts the tokens from the left, where the greedy decode
follows every start.
-/

namespace Gigastt

namespace Biaser

variable {F : Type} [Zero F]

/-- The prefixes a greedy decode has matched after some tokens. -/
def heard (b : Biaser F) (labels : List Nat) : BiasState := labels.foldl b.advance b.newState

theorem heard_concat (b : Biaser F) (labels : List Nat) (tok : Nat) :
    b.heard (labels ++ [tok]) = b.advance (b.heard labels) tok := by
  rw [heard, List.foldl_append]
  rfl

/-- The active nodes are those that the last tokens spell. -/
theorem mem_heard {b : Biaser F} {labels : List Nat} {i : Nat} :
    i ∈ (b.heard labels).active ↔ ∃ tokens, tokens <:+ labels ∧ b.walk tokens = some i := by
  induction labels using List.reverseRecOn generalizing i with
  | nil =>
      constructor
      · intro hi
        exact ⟨[], List.suffix_rfl, congrArg some (List.mem_singleton.mp hi).symm⟩
      · rintro ⟨tokens, hsuffix, hwalk⟩
        rw [List.suffix_nil.mp hsuffix] at hwalk
        exact List.mem_singleton.mpr (Option.some.inj hwalk).symm
  | append_singleton labels tok ih =>
      rw [heard_concat, mem_active_advance]
      constructor
      · rintro (⟨n, hn, hchild⟩ | rfl)
        · obtain ⟨tokens, hsuffix, hwalk⟩ := ih.mp hn
          refine ⟨tokens ++ [tok], List.suffix_concat_iff.mpr (Or.inr ⟨tokens, rfl, hsuffix⟩), ?_⟩
          rw [walk_concat, hwalk]
          exact hchild
        · exact ⟨[], List.nil_suffix, rfl⟩
      · rintro ⟨tokens, hsuffix, hwalk⟩
        rcases List.suffix_concat_iff.mp hsuffix with rfl | ⟨init, rfl, hinit⟩
        · exact Or.inr (Option.some.inj hwalk).symm
        · rw [walk_concat, Option.bind_eq_some_iff] at hwalk
          obtain ⟨n, hn, hchild⟩ := hwalk
          exact Or.inl ⟨n, ih.mpr ⟨init, hinit, hn⟩, hchild⟩

instance (sequences : List (List Nat)) : DecidablePred (Begins sequences) := fun tokens =>
  inferInstanceAs (Decidable (tokens = [] ∨ ∃ seq ∈ sequences, tokens <+: seq))

theorem begins_closed (sequences : List (List Nat)) : Cutting.Closed (Begins sequences) :=
  fun _ _ => Begins.concat

section Credit

variable [Div F] [NatCast F] {sequences : List (List Nat)} {boost : F} {leadingIsEntry : Bool}
  {b : Biaser F}

theorem Compiled.child?_none (h : Compiled b sequences boost leadingIsEntry) {tokens : List Nat}
    {i tok : Nat} (hwalk : b.walk tokens = some i) :
    b.child? i tok = none ↔ ¬Begins sequences (tokens ++ [tok]) := by
  rw [← h.walk_iff, walk_concat, hwalk, Option.bind_some, ← Option.ne_none_iff_exists', not_not]

/-- The greedy decode hears a phrase wherever it ends. -/
theorem Compiled.heard_phrase (h : Compiled b sequences boost leadingIsEntry)
    {phrase : List Nat} (hphrase : phrase ∈ sequences) (hne : phrase ≠ []) (before : List Nat) :
    ∃ i ∈ (b.heard (before ++ phrase)).active,
      b.walk phrase = some i ∧ (b.node i).isEnd = true := by
  obtain ⟨i, hi⟩ := (h.walk_iff phrase).mpr (Or.inr ⟨phrase, hphrase, List.prefix_rfl⟩)
  exact ⟨i, mem_heard.mpr ⟨phrase, List.suffix_append _ _, hi⟩, hi,
    (h.isEnd_iff hi).mpr ⟨hne, hphrase⟩⟩

variable [Add F] [Neg F]

/-- The tokens end a phrase, and what was granted for it is not owed back. -/
def Credited (b : Biaser F) (labels : List Nat) : Prop :=
  (b.node (b.scoreLabels labels).2.node).isEnd = true ∧ (b.scoreLabels labels).2.pending = 0

/-- The path of the beam stands for the piece under way, and a finished phrase owes nothing. -/
theorem Compiled.walk_lastPiece (h : Compiled b sequences boost leadingIsEntry)
    (labels : List Nat) :
    b.walk (Cutting.lastPiece (Begins sequences) labels) =
      some (b.scoreLabels labels).2.node ∧
    ((b.node (b.scoreLabels labels).2.node).isEnd = true →
      (b.scoreLabels labels).2.pending = 0) := by
  have henter : ∀ (path : BiasPath F) child, (b.node (b.enter path child).2.node).isEnd = true →
      (b.enter path child).2.pending = 0 := fun path child hend => if_pos hend
  induction labels using List.reverseRecOn with
  | nil => exact ⟨rfl, fun _ => rfl⟩
  | append_singleton labels tok ih =>
      obtain ⟨hwalk, _⟩ := ih
      rw [scoreLabels_concat, Cutting.lastPiece_concat, Cutting.grow]
      simp only [scoreToken]
      cases hchild : b.child? (b.scoreLabels labels).2.node tok with
      | some child =>
          have hnext : b.walk (Cutting.lastPiece (Begins sequences) labels ++ [tok]) =
              some child := by
            rw [walk_concat, hwalk]
            exact hchild
          rw [if_pos ((h.walk_iff _).mp ⟨child, hnext⟩)]
          exact ⟨hnext, henter _ child⟩
      | none =>
          rw [if_neg ((h.child?_none hwalk).mp hchild)]
          cases hroot : b.child? 0 tok with
          | some child =>
              have hnext : b.walk [tok] = some child := hroot
              rw [if_pos ((h.walk_iff _).mp ⟨child, hnext⟩)]
              exact ⟨hnext, henter _ child⟩
          | none =>
              have hstart : b.walk [] = some 0 := rfl
              have hnone : ¬Begins sequences [tok] := (h.child?_none hstart).mp hroot
              rw [if_neg hnone]
              exact ⟨rfl, fun _ => rfl⟩

theorem Compiled.credited_iff (h : Compiled b sequences boost leadingIsEntry)
    (labels : List Nat) :
    b.Credited labels ↔ Cutting.lastPiece (Begins sequences) labels ≠ [] ∧
      Cutting.lastPiece (Begins sequences) labels ∈ sequences := by
  obtain ⟨hwalk, hsettled⟩ := h.walk_lastPiece labels
  rw [← h.isEnd_iff hwalk]
  exact ⟨And.left, fun hend => ⟨hend, hsettled hend⟩⟩

/-- The greedy decode hears every phrase; the beam credits one when the last piece of the tokens,
cut from the left, is a phrase. -/
theorem heard_and_credited_iff (hbuild : build sequences boost leadingIsEntry = some b)
    {phrase : List Nat} (hphrase : phrase ∈ sequences) (hne : phrase ≠ [])
    (before : List Nat) :
    (∃ i ∈ (b.heard (before ++ phrase)).active,
      b.walk phrase = some i ∧ (b.node i).isEnd = true) ∧
    (b.Credited (before ++ phrase) ↔ ∃ pieces last,
      Cutting.Cut (Begins sequences) (pieces ++ [last]) ∧
        (pieces ++ [last]).flatten = before ++ phrase ∧ last ∈ sequences) := by
  have hcompiled := build_compiled hbuild
  have hclosed := begins_closed sequences
  constructor
  · exact hcompiled.heard_phrase hphrase hne before
  · obtain ⟨pieces, hcut, hflat, hlast⟩ := Cutting.exists_cut hclosed (before ++ phrase)
    rw [hcompiled.credited_iff, hlast]
    constructor
    · rintro ⟨hheld, hmem⟩
      rcases List.eq_nil_or_concat pieces with rfl | ⟨init, last, rfl⟩
      · exact absurd rfl hheld
      · rw [List.concat_eq_append] at hcut hflat hheld hmem
        rw [Cutting.held_concat] at hheld hmem
        split_ifs at hheld hmem
        · exact ⟨init, last, hcut, hflat, hmem⟩
        · exact absurd rfl hheld
    · rintro ⟨init, last, hcut', hflat', hmem⟩
      have hbegins : Begins sequences last := Or.inr ⟨last, hmem, List.prefix_rfl⟩
      rw [hcut.unique hclosed hcut' (hflat.trans hflat'.symm), Cutting.held_concat,
        if_pos hbegins]
      exact ⟨hcut'.nonempty last (by simp), hmem⟩

/-- The phrase starts where the beam has nothing under way. -/
theorem heard_and_credited_after_other : ∃ b, build [[0, 1, 0, 2]] (6 : ℚ) true = some b ∧
    (∃ i ∈ (b.heard ([0, 5] ++ [0, 1, 0, 2])).active,
      b.walk [0, 1, 0, 2] = some i ∧ (b.node i).isEnd = true) ∧
    (b.Credited ([0, 5] ++ [0, 1, 0, 2]) ↔ ∃ pieces last,
      Cutting.Cut (Begins [[0, 1, 0, 2]]) (pieces ++ [last]) ∧
        (pieces ++ [last]).flatten = [0, 5] ++ [0, 1, 0, 2] ∧ last ∈ [[0, 1, 0, 2]]) := by
  obtain ⟨b, hbuild⟩ : ∃ b, build [[0, 1, 0, 2]] (6 : ℚ) true = some b := ⟨_, rfl⟩
  exact ⟨b, hbuild, heard_and_credited_iff hbuild (by decide) (by decide) [0, 5]⟩

/-- A phrase of two words after its first word alone: the beam is at the root when it ends. -/
theorem not_credited_after_stutter : ∃ b, build [[0, 1, 0, 2]] (6 : ℚ) true = some b ∧
    (∃ i ∈ (b.heard ([0, 1] ++ [0, 1, 0, 2])).active,
      b.walk [0, 1, 0, 2] = some i ∧ (b.node i).isEnd = true) ∧
    (b.scoreLabels ([0, 1] ++ [0, 1, 0, 2])).2.node = 0 ∧
    ¬b.Credited ([0, 1] ++ [0, 1, 0, 2]) := by
  obtain ⟨b, hbuild⟩ : ∃ b, build [[0, 1, 0, 2]] (6 : ℚ) true = some b := ⟨_, rfl⟩
  have hcompiled := build_compiled hbuild
  have hlast : Cutting.lastPiece (Begins [[0, 1, 0, 2]]) ([0, 1] ++ [0, 1, 0, 2]) = [] := by decide
  have hroot : (b.scoreLabels ([0, 1] ++ [0, 1, 0, 2])).2.node = 0 := by
    have hwalk := (hcompiled.walk_lastPiece ([0, 1] ++ [0, 1, 0, 2])).1
    rw [hlast] at hwalk
    exact (Option.some.inj hwalk).symm
  refine ⟨b, hbuild, hcompiled.heard_phrase (by decide) (by decide) [0, 1], hroot, ?_⟩
  rw [hcompiled.credited_iff, hlast]
  exact fun hand => hand.1 rfl

end Credit

end Biaser

end Gigastt
