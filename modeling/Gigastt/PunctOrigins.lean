import Gigastt.PunctSpans

/-!
Where the words of an encoding come from. Every character of a text is marked with the number of its word,
and the marks are carried along into the pre-tokens.
-/

namespace Gigastt.Punctuation

open Utf8 Splitting WordPiece

/-- Characters, each with the number of the word that it comes from, if it comes from one. -/
abbrev Marked := List (Char × Option ℕ)

/-- The marks of a text after `n` words and perhaps a part of the next; white space is in none. -/
def markFrom : Bool → ℕ → Text → Marked
  | _, _, [] => []
  | inWord, n, c :: rest =>
      if isWhitespace c then (c, none) :: markFrom false (if inWord then n + 1 else n) rest
      else (c, some n) :: markFrom true n rest

def mark (text : Text) : Marked := markFrom false 0 text

/-- The characters that a marked one is replaced by keep its mark. -/
def carry (f : Char → Text) (l : Marked) : Marked := l.flatMap fun a => (f a.1).map fun c => (c, a.2)

def normalizeMarked (t : WordPiece.Tokenizer) (l : Marked) : Marked :=
  match t.normalizer with
  | .none => l
  | .bert cleanText handleChineseChars =>
      let out := if cleanText then carry cleanChar l else l
      if handleChineseChars then carry spaceChar out else out

/-- The pre-tokens of a part of the text. -/
def preTokensOf (t : WordPiece.Tokenizer) : Cut (Char × Option ℕ) → List Marked
  | .added _ _ content _ => [content]
  | .text chars =>
      if t.bertPreTokenizer then split (fun a => bertKind a.1) (normalizeMarked t chars)
      else flush (normalizeMarked t chars)

def markedPreTokens (t : WordPiece.Tokenizer) (text : Text) : List Marked :=
  (cuts Prod.fst t (mark text)).flatMap (preTokensOf t)

/-- The word that the first marked character of a pre-token comes from. -/
def owner (pre : Marked) : Option ℕ := (pre.filterMap Prod.snd).head?

/-- The word begins with the pre-token: none of its characters is in an earlier one, and no other word is
begun there. -/
def Begins (pres : List Marked) (i word : ℕ) : Prop :=
  pres[i]?.bind owner = some word ∧ ∀ pre ∈ pres.take i, some word ∉ pre.map Prod.snd

instance (pres : List Marked) (i word : ℕ) : Decidable (Begins pres i word) :=
  inferInstanceAs (Decidable (_ ∧ _))

section Marks

theorem map_fst_markFrom (inWord : Bool) (n : ℕ) (text : Text) :
    (markFrom inWord n text).map Prod.fst = text := by
  induction text generalizing inWord n with
  | nil => rfl
  | cons c text ih =>
      rw [markFrom]
      split_ifs <;> rw [List.map_cons, ih]

theorem map_fst_mark (text : Text) : (mark text).map Prod.fst = text := map_fst_markFrom false 0 text

/-- The characters of a word. -/
def marksOf (word : ℕ) (l : Marked) : Text := (l.filter fun a => a.2 = some word).map Prod.fst

theorem marksOf_markFrom (word n : ℕ) (piece rest : Text) :
    (if word = n then piece else []) ++ marksOf word (markFrom (!piece.isEmpty) n rest) =
      if word < n then [] else (splitFrom spaceKind piece rest)[word - n]?.getD [] := by
  induction rest generalizing n piece with
  | nil =>
      rcases Nat.lt_trichotomy word n with hlt | rfl | hlt
      · simp [markFrom, marksOf, hlt, hlt.ne]
      · cases piece <;> simp [markFrom, marksOf, splitFrom, flush]
      · have hlater : word - n ≠ 0 := by omega
        cases piece <;> simp [markFrom, marksOf, splitFrom, flush, hlt.ne', hlt.not_gt, hlater]
  | cons c rest ih =>
      rw [markFrom, splitFrom, spaceKind]
      by_cases hspace : isWhitespace c = true
      · have hskip : ∀ l, marksOf word ((c, none) :: l) = marksOf word l := fun l => by
          simp [marksOf]
        rw [if_pos hspace, if_pos hspace, hskip]
        cases piece with
        | nil =>
            have hnext := ih n []
            simpa using hnext
        | cons d piece =>
            have hnext : marksOf word (markFrom false (n + 1) rest) =
                if word < n + 1 then [] else (split spaceKind rest)[word - (n + 1)]?.getD [] := by
              simpa [split] using ih (n + 1) []
            show (if word = n then d :: piece else []) ++ marksOf word (markFrom false (n + 1) rest) =
              if word < n then [] else ([d :: piece] ++ split spaceKind rest)[word - n]?.getD []
            rw [hnext]
            rcases Nat.lt_trichotomy word n with hlt | rfl | hlt
            · rw [if_neg hlt.ne, if_pos (Nat.lt_succ_of_lt hlt), if_pos hlt, List.append_nil]
            · simp
            · obtain ⟨i, hi⟩ : ∃ i, word - n = i + 1 := ⟨word - n - 1, by omega⟩
              have hi' : word - (n + 1) = i := by omega
              rw [if_neg hlt.ne', if_neg (by omega), if_neg hlt.not_gt, hi, hi']
              rfl
      · have hnext := ih n (piece ++ [c])
        have hbusy : (!(piece ++ [c]).isEmpty) = true := by simp
        rw [hbusy] at hnext
        rw [if_neg hspace, if_neg hspace, ← hnext]
        by_cases hown : word = n
        · simp [marksOf, hown]
        · simp [marksOf, hown, Ne.symm hown]

/-- A character is marked with a word if it is one of the word's. -/
theorem marksOf_mark (word : ℕ) (text : Text) :
    marksOf word (mark text) = (splitWhitespace text)[word]?.getD [] := by
  have h := marksOf_markFrom word 0 [] text
  rw [if_neg (Nat.not_lt_zero word), ite_self] at h
  exact h

end Marks

section PreTokens

theorem map_fst_carry (f : Char → Text) (l : Marked) :
    (carry f l).map Prod.fst = (l.map Prod.fst).flatMap f := by
  rw [carry, List.map_flatMap, List.flatMap_map]
  apply List.flatMap_congr
  intro a _
  rw [List.map_map]
  exact List.map_id _

theorem map_fst_normalizeMarked (t : WordPiece.Tokenizer) (l : Marked) :
    (normalizeMarked t l).map Prod.fst = t.normalize (l.map Prod.fst) := by
  unfold normalizeMarked WordPiece.Tokenizer.normalize
  cases t.normalizer with
  | none => rfl
  | bert cleanText handleChineseChars =>
      dsimp only
      split_ifs <;> simp only [map_fst_carry]

/-- The ids of a pre-token: its own one if it is an added token, and else its spelling. -/
def Spelled (t : WordPiece.Tokenizer) (pre : Marked) (ids : List ℕ) : Prop :=
  Spells t (pre.map Prod.fst) ids ∨
    ∃ token : AddedToken, pre.map Prod.fst = token.content ∧ ids = [token.id]

theorem map_preTokensOf_text (t : WordPiece.Tokenizer) (chars : Marked) :
    (preTokensOf t (.text chars)).map (·.map Prod.fst) = wordsOf t (chars.map Prod.fst) := by
  rw [preTokensOf, wordsOf, ← map_fst_normalizeMarked]
  split_ifs
  · exact (split_map (fun _ => rfl) _).symm
  · exact (flush_map _ _).symm

theorem spelled_preTokensOf {t : WordPiece.Tokenizer} {cut : Cut (Char × Option ℕ)} {idss : List (List ℕ)}
    (hwf : (cut.map Prod.fst).WellFormed) (h : Emits t (cut.map Prod.fst) idss) :
    List.Forall₂ (Spelled t) (preTokensOf t cut) idss := by
  cases cut with
  | added token left content right =>
      obtain rfl : idss = [[token.id]] := h
      exact .cons (Or.inr ⟨token, hwf.1, rfl⟩) .nil
  | text chars =>
      obtain ⟨words, hwords, hspells, _⟩ := h
      obtain rfl : wordsOf t (chars.map Prod.fst) = words :=
        Option.some.inj ((preTokens_spec t _).symm.trans hwords)
      rw [← map_preTokensOf_text, List.forall₂_map_left_iff] at hspells
      exact hspells.imp fun _ _ h => Or.inl h

theorem forall₂_preTokensOf {t : WordPiece.Tokenizer} {parts : List (Cut (Char × Option ℕ))}
    {idsss : List (List (List ℕ))} (hwf : ∀ cut ∈ parts, (cut.map Prod.fst).WellFormed)
    (h : List.Forall₂ (fun cut idss => Emits t (cut.map Prod.fst) idss) parts idsss) :
    List.Forall₂ (Spelled t) (parts.flatMap (preTokensOf t)) idsss.flatten := by
  induction h with
  | nil => exact .nil
  | cons hemits _ ih =>
      obtain ⟨hcut, hparts⟩ := List.forall_mem_cons.mp hwf
      rw [List.flatMap_cons, List.flatten_cons]
      exact List.rel_append (spelled_preTokensOf hcut hemits) (ih hparts)

/-- The pre-tokens are what the encoding counts as words. -/
theorem encode_markedPreTokens (t : WordPiece.Tokenizer) (text : Text) (addSpecialTokens : Bool) :
    ∃ idss, List.Forall₂ (Spelled t) (markedPreTokens t text) idss ∧ (∀ ids ∈ idss, ids ≠ []) ∧
      t.encode text addSpecialTokens = some (encodingOf t addSpecialTokens idss) := by
  obtain ⟨idsss, hemits, hne, hencode⟩ := encode_eq t text addSpecialTokens
  refine ⟨idsss.flatten, ?_, hne, hencode⟩
  have hcuts : cuts id t text = (cuts Prod.fst t (mark text)).map (Cut.map Prod.fst) := by
    have h : cuts id t ((mark text).map Prod.fst) = (cuts Prod.fst t (mark text)).map (Cut.map Prod.fst) :=
      cuts_map (fun _ => rfl) t (mark text)
    rwa [map_fst_mark] at h
  have hwf : ∀ cut ∈ cuts Prod.fst t (mark text), (cut.map Prod.fst).WellFormed := by
    intro cut hcut
    have hmem : cut.map Prod.fst ∈ cuts id t text := hcuts ▸ List.mem_map_of_mem hcut
    exact wellFormed_of_mem_cutFrom hmem
  rw [hcuts, List.forall₂_map_left_iff] at hemits
  exact forall₂_preTokensOf hwf hemits

end PreTokens

end Gigastt.Punctuation
