import Gigastt.WordPiece
import Mathlib.Data.List.Infix

/-!
A word is spelled by the longest piece that has an id, again and again; where there is none, the whole word
is one unknown token.
-/

namespace Gigastt.WordPiece

open Utf8

section Spelling

variable (t : Tokenizer)

/-- The longest piece that a text begins with and that has an id. -/
structure Longest (inner : Bool) (rest piece : Text) (id : ℕ) : Prop where
  ne_nil : piece ≠ []
  isPrefix : piece <+: rest
  entry_eq : t.entry inner piece = some id
  none_longer : ∀ p, p <+: rest → piece.length < p.length → t.entry inner p = none

/-- A text spelled by longest pieces, with their ids. -/
inductive Greedy : Bool → Text → List Text → List ℕ → Prop
  | nil {inner} : Greedy inner [] [] []
  | cons {inner piece rest id pieces ids} : Longest t inner (piece ++ rest) piece id →
      Greedy true rest pieces ids → Greedy inner (piece ++ rest) (piece :: pieces) (id :: ids)

/-- After some longest pieces no piece has an id. -/
inductive Stuck : Bool → Text → Prop
  | here {inner rest} : rest ≠ [] → (∀ p, p <+: rest → p ≠ [] → t.entry inner p = none) →
      Stuck inner rest
  | later {inner piece rest id} : Longest t inner (piece ++ rest) piece id → Stuck true rest →
      Stuck inner (piece ++ rest)

/-- The ids of a word: those of its longest pieces, or the one unknown token. -/
def Spells (word : Text) (ids : List ℕ) : Prop :=
  (word.length ≤ t.maxInputCharsPerWord ∧ ∃ pieces, Greedy t false word pieces ids) ∨
    ((t.maxInputCharsPerWord < word.length ∨ Stuck t false word) ∧ ids = [t.unkId])

variable {t} {inner : Bool} {word rest piece piece' : Text} {pieces : List Text} {id id' : ℕ}
  {ids : List ℕ}

theorem Longest.unique (h : Longest t inner rest piece id) (h' : Longest t inner rest piece' id') :
    piece = piece' := by
  have hle : ¬piece.length < piece'.length := by
    intro hlt
    have hnone := h.none_longer piece' h'.isPrefix hlt
    rw [h'.entry_eq] at hnone
    cases hnone
  have hge : ¬piece'.length < piece.length := by
    intro hlt
    have hnone := h'.none_longer piece h.isPrefix hlt
    rw [h.entry_eq] at hnone
    cases hnone
  exact (List.prefix_of_prefix_length_le h.isPrefix h'.isPrefix (by omega)).eq_of_length (by omega)

/-- The pieces make up the word. -/
theorem Greedy.flatten_eq (h : Greedy t inner word pieces ids) : pieces.flatten = word := by
  induction h with
  | nil => rfl
  | cons _ _ ih => rw [List.flatten_cons, ih]

theorem Greedy.length_eq (h : Greedy t inner word pieces ids) : ids.length = pieces.length := by
  induction h with
  | nil => rfl
  | cons _ _ ih => rw [List.length_cons, List.length_cons, ih]

/-- A word that is spelled does not get stuck. -/
theorem Greedy.not_stuck (h : Greedy t inner word pieces ids) : ¬Stuck t inner word := by
  induction h with
  | nil =>
      intro hstuck
      generalize hword : ([] : Text) = word at hstuck
      cases hstuck with
      | here hne _ => exact hne hword.symm
      | later hlongest _ => exact hlongest.ne_nil (List.append_eq_nil_iff.mp hword.symm).1
  | @cons inner piece rest id pieces ids hlongest _ ih =>
      intro hstuck
      generalize hword : piece ++ rest = word at hstuck
      cases hstuck with
      | here _ hnone =>
          have hentry := hnone piece (hword ▸ List.prefix_append piece rest) hlongest.ne_nil
          rw [hlongest.entry_eq] at hentry
          cases hentry
      | later hlongest' hstuck =>
          have hsame := hlongest.unique (hword ▸ hlongest')
          rw [hsame, List.append_cancel_left_eq] at hword
          exact ih (hword ▸ hstuck)

theorem Spells.ne_nil (h : Spells t word ids) (hword : word ≠ []) : ids ≠ [] := by
  rcases h with ⟨_, pieces, hgreedy⟩ | ⟨_, rfl⟩
  · cases hgreedy with
    | nil => exact absurd rfl hword
    | cons => exact List.cons_ne_nil _ _
  · exact List.cons_ne_nil _ _

end Spelling

section Refinement

variable {t : Tokenizer} {word front rest : Text} {out : List ℕ}

/-- What the loop over the ends of a piece finds among the prefixes of `pre`. -/
theorem probe_spec (t : Tokenizer) (front pre post : Text) :
    (t.probe (front ++ pre ++ post) (size front) (size (front ++ pre)) = some none ∧
        ∀ p, p <+: pre → p ≠ [] → t.entry (!front.isEmpty) p = none) ∨
      ∃ piece id stop, t.probe (front ++ pre ++ post) (size front) (size (front ++ pre)) =
          some (some (id, stop)) ∧ stop.1 = size (front ++ piece) ∧
        Longest t (!front.isEmpty) pre piece id := by
  have hinner : decide (0 < size front) = !front.isEmpty := by
    cases front with
    | nil => rfl
    | cons c front =>
        exact decide_eq_true (size_pos (List.cons_ne_nil c front))
  induction pre using List.reverseRecOn generalizing post with
  | nil =>
      refine Or.inl ⟨?_, fun p hp hne => absurd (List.prefix_nil.mp hp) hne⟩
      rw [Tokenizer.probe, dif_neg (by simp)]
  | append_singleton pre c ih =>
      have hmore : size front < size (front ++ (pre ++ [c])) := by
        have hpos := size_pos (List.append_ne_nil_of_right_ne_nil pre (List.cons_ne_nil c []))
        rw [size_append]
        omega
      have hsub : sub (front ++ (pre ++ [c]) ++ post) (size front) (size (front ++ (pre ++ [c]))) =
          some (pre ++ [c]) := by
        rw [size_append front]
        exact sub_append front (pre ++ [c]) post
      have hshort : size (front ++ (pre ++ [c])) - lastLen (pre ++ [c]) = size (front ++ pre) := by
        simp only [lastLen, List.getLast?_concat, Option.map_some, Option.getD_some, size_append,
          size_cons, size_nil]
        omega
      rw [Tokenizer.probe, dif_pos hmore]
      simp only [hsub, hinner, hshort]
      cases hentry : t.entry (!front.isEmpty) (pre ++ [c]) with
      | some id =>
          refine Or.inr ⟨pre ++ [c], id, _, rfl, rfl, by simp, List.prefix_rfl, hentry, ?_⟩
          intro p hp hlonger
          exact absurd hp.length_le (by omega)
      | none =>
          have hprefix : ∀ p, p <+: pre ++ [c] → p = pre ++ [c] ∨ p <+: pre := fun p hp =>
            List.prefix_concat_iff.mp hp
          have hassoc : front ++ (pre ++ [c]) ++ post = front ++ pre ++ ([c] ++ post) := by simp
          rw [hassoc]
          rcases ih ([c] ++ post) with ⟨heq, hnone⟩ | ⟨piece, id, stop, heq, hstop, hlongest⟩
          · refine Or.inl ⟨heq, fun p hp hne => ?_⟩
            rcases hprefix p hp with rfl | hp
            · exact hentry
            · exact hnone p hp hne
          · refine Or.inr ⟨piece, id, stop, heq, hstop, hlongest.ne_nil,
              hlongest.isPrefix.trans (List.prefix_append pre [c]), hlongest.entry_eq, ?_⟩
            intro p hp hlonger
            rcases hprefix p hp with rfl | hp
            · exact hentry
            · exact hlongest.none_longer p hp hlonger

/-- The loop over the pieces spells the rest of a word, or gets stuck. -/
theorem tokenizeFrom_spec (t : Tokenizer) (front rest : Text) :
    (∃ pieces ids, Greedy t (!front.isEmpty) rest pieces ids ∧
        ∀ out, t.tokenizeFrom (front ++ rest) (size front) out = some (false, out ++ ids)) ∨
      Stuck t (!front.isEmpty) rest ∧
        ∀ out, ∃ ids, t.tokenizeFrom (front ++ rest) (size front) out = some (true, out ++ ids) := by
  -- the loop goes on behind a piece, which is not empty
  induction hlength : rest.length using Nat.strong_induction_on generalizing front rest with
  | _ n ih =>
      by_cases hrest : rest = []
      · refine Or.inl ⟨[], [], hrest ▸ Greedy.nil, fun out => ?_⟩
        rw [Tokenizer.tokenizeFrom, dif_neg (by simp [hrest]), List.append_nil]
      · have hmore : size front < size (front ++ rest) := by
          have hpos := size_pos hrest
          rw [size_append]
          omega
        have hprobe := probe_spec t front rest []
        rw [List.append_nil] at hprobe
        rcases hprobe with ⟨heq, hnone⟩ | ⟨piece, id, stop, heq, hstop, hlongest⟩
        · refine Or.inr ⟨Stuck.here hrest hnone, fun out => ⟨[], ?_⟩⟩
          rw [Tokenizer.tokenizeFrom, dif_pos hmore, heq, List.append_nil]
        · obtain ⟨after, rfl⟩ := hlongest.isPrefix
          have hpos := List.length_pos_of_ne_nil hlongest.ne_nil
          rw [List.length_append] at hlength
          have hinner : (!(front ++ piece).isEmpty) = true := by simp [hlongest.ne_nil]
          have hgo : ∀ out, t.tokenizeFrom (front ++ (piece ++ after)) (size front) out =
              t.tokenizeFrom (front ++ piece ++ after) (size (front ++ piece)) (out ++ [id]) := by
            intro out
            rw [Tokenizer.tokenizeFrom, dif_pos hmore, heq, List.append_assoc]
            simp only [hstop]
          have hnext := ih after.length (by omega) (front ++ piece) after rfl
          rw [hinner] at hnext
          rcases hnext with ⟨pieces, ids, hgreedy, hids⟩ | ⟨hstuck, hids⟩
          · refine Or.inl ⟨piece :: pieces, id :: ids, Greedy.cons hlongest hgreedy, fun out => ?_⟩
            rw [hgo, hids, List.append_assoc, List.singleton_append]
          · refine Or.inr ⟨Stuck.later hlongest hstuck, fun out => ?_⟩
            obtain ⟨ids, hids⟩ := hids (out ++ [id])
            exact ⟨id :: ids, by rw [hgo, hids, List.append_assoc, List.singleton_append]⟩

/-- No slice is refused, and the ids of a word are appended to those before it. -/
theorem tokenizeWord_spec (t : Tokenizer) (word : Text) :
    ∃ ids, Spells t word ids ∧ ∀ out, t.tokenizeWord word out = some (out ++ ids) := by
  by_cases hlong : t.maxInputCharsPerWord < word.length
  · refine ⟨[t.unkId], Or.inr ⟨Or.inl hlong, rfl⟩, fun out => ?_⟩
    rw [Tokenizer.tokenizeWord, if_pos hlong]
  rcases tokenizeFrom_spec t [] word with ⟨pieces, ids, hgreedy, hids⟩ | ⟨hstuck, hids⟩
  · refine ⟨ids, Or.inl ⟨Nat.le_of_not_lt hlong, pieces, hgreedy⟩, fun out => ?_⟩
    have hloop : t.tokenizeFrom word 0 out = some (false, out ++ ids) := hids out
    rw [Tokenizer.tokenizeWord, if_neg hlong, hloop]
    rfl
  · refine ⟨[t.unkId], Or.inr ⟨Or.inr hstuck, rfl⟩, fun out => ?_⟩
    obtain ⟨ids, hloop⟩ : ∃ ids, t.tokenizeFrom word 0 out = some (true, out ++ ids) := hids out
    rw [Tokenizer.tokenizeWord, if_neg hlong, hloop]
    simp only [Option.map_some, if_true, List.take_left]

end Refinement

end Gigastt.WordPiece
