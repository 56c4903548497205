import Mathlib.Data.List.DropRight
import Mathlib.Data.List.Infix

/-!
Searching for a needle in a text that arrives in pieces. Each piece is searched together with the
end of what came before it. When that end is as long as the needle but for one element, nothing is
missed, however short the pieces are.
-/

namespace Searching

variable {α : Type*} {needle seen piece : List α} {keep : Nat}

theorem rtake_append_of_le_length (before : List α) (h : keep ≤ seen.length) :
    (before ++ seen).rtake keep = seen.rtake keep := by
  have hdrop : (before ++ seen).length - keep = before.length + (seen.length - keep) := by
    rw [List.length_append, Nat.add_sub_assoc h]
  rw [List.rtake, hdrop, List.drop_length_add_append, List.rtake]

/-- The end of a longer text is that of the old end and the new piece. -/
theorem rtake_rtake_append (keep : Nat) (seen piece : List α) :
    (seen.rtake keep ++ piece).rtake keep = (seen ++ piece).rtake keep := by
  rcases le_total seen.length keep with hshort | hlong
  · have hall : seen.rtake keep = seen := by
      rw [List.rtake, Nat.sub_eq_zero_of_le hshort, List.drop_zero]
    rw [hall]
  · have hlen : keep ≤ (seen.rtake keep ++ piece).length := by
      rw [List.rtake, List.length_append, List.length_drop]
      omega
    have hsplit : seen ++ piece = seen.take (seen.length - keep) ++ (seen.rtake keep ++ piece) := by
      rw [← List.append_assoc, List.rtake, List.take_append_drop]
    rw [hsplit, rtake_append_of_le_length _ hlen]

/-- A needle in the longer text lies in the old one, or in its end and the new piece. -/
theorem infix_append_iff (hkeep : needle.length ≤ keep + 1) :
    needle <:+: seen ++ piece ↔ needle <:+: seen ∨ needle <:+: seen.rtake keep ++ piece := by
  constructor
  · rintro ⟨before, after, hsplit⟩
    rw [List.append_assoc] at hsplit
    by_cases hold : before.length + needle.length ≤ seen.length
    · left
      have hneedle : needle <+: seen.drop before.length ++ piece := by
        rw [← List.drop_append_of_le_length (by omega), ← hsplit, List.drop_left]
        exact List.prefix_append needle after
      have hprefix : needle <+: seen.drop before.length := by
        apply List.prefix_of_prefix_length_le hneedle (List.prefix_append _ piece)
        rw [List.length_drop]
        omega
      exact hprefix.isInfix.trans (List.drop_suffix _ seen).isInfix
    · right
      have hend : seen.rtake keep ++ piece
          = before.drop (seen.length - keep) ++ (needle ++ after) := by
        rw [List.rtake, ← List.drop_append_of_le_length (Nat.sub_le _ _), ← hsplit,
          List.drop_append_of_le_length (by omega)]
      rw [hend, ← List.append_assoc]
      exact ⟨_, after, rfl⟩
  · rintro (hold | hnew)
    · exact hold.trans (List.prefix_append seen piece).isInfix
    · refine hnew.trans (List.IsSuffix.isInfix ?_)
      rw [List.rtake, ← List.drop_append_of_le_length (Nat.sub_le _ _)]
      exact List.drop_suffix _ _

/-- What a search carries from piece to piece. -/
structure Search (α : Type*) where
  carried : List α
  found : Bool

namespace Search

def new : Search α := { carried := [], found := false }

/-- Searches the piece after what is carried, and carries on its last `keep` elements. -/
def feed (occurs : List α → Bool) (keep : Nat) (s : Search α) (piece : List α) : Search α :=
  { carried := (s.carried ++ piece).rtake keep, found := s.found || occurs (s.carried ++ piece) }

variable {occurs : List α → Bool}

/-- The carried end is that of the text, and the needle was found if it is there. -/
structure Sound (needle : List α) (keep : Nat) (seen : List α) (s : Search α) : Prop where
  carried : s.carried = seen.rtake keep
  found : s.found = true ↔ needle <:+: seen

theorem sound_new (hneedle : needle ≠ []) (keep : Nat) : (new : Search α).Sound needle keep [] :=
  ⟨(List.rtake_nil keep).symm, iff_of_false Bool.false_ne_true fun h =>
    hneedle (List.infix_nil.mp h)⟩

theorem Sound.feed (hoccurs : ∀ text, occurs text = true ↔ needle <:+: text)
    (hkeep : needle.length ≤ keep + 1) {s : Search α} (h : s.Sound needle keep seen)
    (piece : List α) : (s.feed occurs keep piece).Sound needle keep (seen ++ piece) := by
  constructor
  · rw [Search.feed, h.carried]
    exact rtake_rtake_append keep seen piece
  · rw [Search.feed, Bool.or_eq_true, h.found, hoccurs, h.carried]
    exact (infix_append_iff hkeep).symm

/-- However a text is cut into pieces, the search finds what is in the text. -/
theorem found_foldl (hneedle : needle ≠ [])
    (hoccurs : ∀ text, occurs text = true ↔ needle <:+: text)
    (hkeep : needle.length ≤ keep + 1) (pieces : List (List α)) :
    (pieces.foldl (feed occurs keep) new).found = true ↔ needle <:+: pieces.flatten := by
  have hsound : (pieces.foldl (feed occurs keep) new).Sound needle keep pieces.flatten := by
    induction pieces using List.reverseRecOn with
    | nil => exact sound_new hneedle keep
    | append_singleton pieces piece ih =>
        rw [List.foldl_concat, List.flatten_concat]
        exact ih.feed hoccurs hkeep piece
  exact hsound.found

end Search

end Searching
