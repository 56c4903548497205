import Gigastt.WordPiecePieces
import Gigastt.WordPieceSpans
import Mathlib.Data.List.ReduceOption

/-!
What an encoding is made of: the parts of the text in order, each with the ids of its words, and the words
counted through.
-/

namespace Gigastt.WordPiece

open Utf8 Splitting

section PreTokens

/-- White space ends a word, and punctuation stands alone. -/
def bertKind (c : Char) : Kind :=
  if isWhitespace c then .gap else if isBertPunc c then .alone else .part

theorem bertKind_ne_gap (c : Char) : decide (bertKind c ≠ .gap) = !isWhitespace c := by
  unfold bertKind
  split_ifs with hspace hpunc <;> simp [hspace]

/-- The offset at which the word under way begins, behind the given text. -/
def startOf (before piece : Text) : Option ℕ := if piece.isEmpty then none else some (size before)

theorem wordSlice_spec (before piece after : Text) :
    wordSlice (before ++ piece ++ after) (startOf before piece) (size (before ++ piece)) =
      some (flush piece) := by
  cases piece with
  | nil => rfl
  | cons c piece =>
      have hsub := sub_append before (c :: piece) after
      rw [← size_append] at hsub
      show (sub (before ++ c :: piece ++ after) (size before) (size (before ++ c :: piece))).map _ = _
      rw [hsub]
      rfl

theorem startOf_append (before piece : Text) (c : Char) :
    some ((startOf before piece).getD (size (before ++ piece))) = startOf before (piece ++ [c]) := by
  cases piece with
  | nil => simp [startOf]
  | cons d piece => simp [startOf]

/-- No slice is refused, and the words are the pieces of the text. -/
theorem bertPreTokenizeFrom_spec (before piece rest : Text) :
    bertPreTokenizeFrom (before ++ piece ++ rest) (startOf before piece) (size (before ++ piece)) rest =
      some (splitFrom bertKind piece rest) := by
  induction rest generalizing before piece with
  | nil =>
      have hslice := wordSlice_spec before piece []
      rw [List.append_nil] at hslice ⊢
      exact hslice
  | cons c rest ih =>
      have hslice := wordSlice_spec before piece (c :: rest)
      have hassoc : before ++ piece ++ c :: rest = before ++ piece ++ [c] ++ [] ++ rest := by simp
      have hsize : size (before ++ piece) + c.utf8Size = size (before ++ piece ++ [c] ++ []) := by
        simp only [size_append, size_cons, size_nil]
        omega
      have hnext := ih (before ++ piece ++ [c]) []
      have hnone : startOf (before ++ piece ++ [c]) [] = none := rfl
      rw [bertPreTokenizeFrom]
      by_cases hspace : isWhitespace c = true
      · have hkind : bertKind c = .gap := if_pos hspace
        rw [if_pos hspace, hslice, hassoc, hsize, ← hnone, hnext, splitFrom, hkind]
        rfl
      by_cases hpunc : isBertPunc c = true
      · have hkind : bertKind c = .alone := by rw [bertKind, if_neg hspace, if_pos hpunc]
        have hsub := sub_append (before ++ piece) [c] rest
        rw [size_cons, size_nil, Nat.add_zero, List.append_assoc _ [c], List.singleton_append] at hsub
        rw [if_neg hspace, if_pos hpunc, hslice, hsub, hassoc, hsize, ← hnone, hnext, splitFrom, hkind]
        rfl
      · have hkind : bertKind c = .part := by rw [bertKind, if_neg hspace, if_neg hpunc]
        have hword := ih before (piece ++ [c])
        have hassoc' : before ++ (piece ++ [c]) ++ rest = before ++ piece ++ c :: rest := by simp
        have hsize' : size (before ++ (piece ++ [c])) = size (before ++ piece) + c.utf8Size := by
          simp only [size_append, size_cons, size_nil]
          omega
        rw [hassoc', hsize'] at hword
        rw [if_neg hspace, if_neg hpunc, startOf_append before piece c, hword, splitFrom, hkind]

theorem bertPreTokenize_spec (text : Text) : bertPreTokenize text = some (split bertKind text) :=
  bertPreTokenizeFrom_spec [] [] text

/-- The words of a text between added tokens. -/
def wordsOf (t : Tokenizer) (slice : Text) : List Text :=
  if t.bertPreTokenizer then split bertKind (t.normalize slice) else flush (t.normalize slice)

theorem preTokens_spec (t : Tokenizer) (slice : Text) : t.preTokens slice = some (wordsOf t slice) := by
  unfold Tokenizer.preTokens wordsOf
  dsimp only
  split_ifs with hbert hempty
  · exact bertPreTokenize_spec _
  · rw [hempty]
    rfl
  · rw [flush_of_ne_nil hempty]

theorem ne_nil_of_mem_wordsOf {t : Tokenizer} {slice word : Text} (h : word ∈ wordsOf t slice) :
    word ≠ [] := by
  unfold wordsOf at h
  split_ifs at h
  · exact ne_nil_of_mem_split h
  · exact (mem_flush.mp h).1

theorem flatten_wordsOf (t : Tokenizer) (slice : Text) : (wordsOf t slice).flatten =
    if t.bertPreTokenizer then (t.normalize slice).filter fun c => !isWhitespace c
    else t.normalize slice := by
  unfold wordsOf
  split_ifs
  · rw [flatten_split]
    exact List.filter_congr fun c _ => bertKind_ne_gap c
  · exact flatten_flush _

end PreTokens

section Words

/-- The places of the words in the ids: one number for the ids of each, counted from `first` on. -/
def numbered (first : ℕ) (idss : List (List ℕ)) : List (Option ℕ) :=
  (idss.zipIdx first).flatMap fun e => List.replicate e.1.length (some e.2)

variable {idss idss' : List (List ℕ)}

theorem numbered_append (first : ℕ) (idss idss' : List (List ℕ)) :
    numbered first (idss ++ idss') = numbered first idss ++ numbered (first + idss.length) idss' := by
  rw [numbered, List.zipIdx_append, List.flatMap_append]
  rfl

theorem length_numbered (first : ℕ) (idss : List (List ℕ)) :
    (numbered first idss).length = idss.flatten.length := by
  induction idss generalizing first with
  | nil => rfl
  | cons ids idss ih =>
      have hrest := ih (first + 1)
      rw [numbered] at hrest ⊢
      rw [List.zipIdx_cons, List.flatMap_cons, List.length_append, hrest, List.length_replicate,
        List.flatten_cons, List.length_append]

/-- The numbers are consecutive where every word has an id. -/
theorem mem_numbered (h : ∀ ids ∈ idss, ids ≠ []) (first k : ℕ) :
    some k ∈ numbered first idss ↔ first ≤ k ∧ k < first + idss.length := by
  induction idss generalizing first with
  | nil => simp [numbered]
  | cons ids idss ih =>
      have hrest := ih (fun ids' h' => h ids' (List.mem_cons_of_mem ids h')) (first + 1)
      have hne := List.length_pos_of_ne_nil (h ids List.mem_cons_self)
      rw [numbered] at hrest ⊢
      rw [List.zipIdx_cons, List.flatMap_cons, List.mem_append, hrest, List.mem_replicate,
        Option.some.injEq, List.length_cons]
      dsimp only
      omega

theorem le_of_mem_numbered {first k : ℕ} (h : k ∈ (numbered first idss).reduceOption) : first ≤ k := by
  rw [List.reduceOption_mem_iff, numbered, List.mem_flatMap] at h
  obtain ⟨e, he, hk⟩ := h
  obtain rfl := Option.some.inj (List.eq_of_mem_replicate hk)
  exact (List.mem_zipIdx he).1

theorem pairwise_numbered (first : ℕ) (idss : List (List ℕ)) :
    (numbered first idss).reduceOption.Pairwise (· ≤ ·) := by
  induction idss generalizing first with
  | nil => exact List.Pairwise.nil
  | cons ids idss ih =>
      have hcons : numbered first (ids :: idss) =
          List.replicate ids.length (some first) ++ numbered (first + 1) idss := by
        rw [numbered, List.zipIdx_cons, List.flatMap_cons]
        rfl
      have hsame : (List.replicate ids.length (some first)).reduceOption =
          List.replicate ids.length first := List.filterMap_replicate_of_some rfl
      rw [hcons, List.reduceOption_append, hsame, List.pairwise_append]
      refine ⟨List.pairwise_replicate.mpr (Or.inr (Nat.le_refl _)), ih (first + 1), fun a ha b hb => ?_⟩
      rw [List.eq_of_mem_replicate ha]
      have hle := le_of_mem_numbered hb
      omega

end Words

section State

variable {t : Tokenizer} {s : EncodeState} {idss idss' : List (List ℕ)}

namespace EncodeState

/-- There is a word for every id. -/
def Aligned (s : EncodeState) : Prop := s.wordIds.length = s.ids.length

/-- The ids of some more words. -/
def extend (s : EncodeState) (idss : List (List ℕ)) : EncodeState :=
  ⟨s.ids ++ idss.flatten, s.wordIds ++ numbered s.nextWord idss, s.nextWord + idss.length⟩

theorem Aligned.extend (h : s.Aligned) (idss : List (List ℕ)) : (s.extend idss).Aligned := by
  rw [Aligned, EncodeState.extend, List.length_append, List.length_append, length_numbered, h]

theorem extend_append (s : EncodeState) (idss idss' : List (List ℕ)) :
    s.extend (idss ++ idss') = (s.extend idss).extend idss' := by
  simp only [extend, List.flatten_append, numbered_append, List.append_assoc, List.length_append,
    Nat.add_assoc]

@[simp]
theorem extend_nil (s : EncodeState) : s.extend [] = s := by
  simp [extend, numbered]

end EncodeState

/-- A word appends its ids, and is counted. -/
theorem encodeWord_spec (t : Tokenizer) (word : Text) :
    ∃ ids, Spells t word ids ∧ ∀ s : EncodeState, s.Aligned → t.encodeWord s word = some (s.extend [ids]) := by
  obtain ⟨ids, hspells, hids⟩ := tokenizeWord_spec t word
  refine ⟨ids, hspells, fun s hs => ?_⟩
  have hresize : Tokenizer.resize s.wordIds (s.ids ++ ids).length (some s.nextWord) =
      s.wordIds ++ List.replicate ids.length (some s.nextWord) := by
    rw [Tokenizer.resize, hs, List.length_append, Nat.add_sub_cancel_left, List.take_of_length_le]
    rw [hs]
    exact Nat.le_add_right _ _
  rw [Tokenizer.encodeWord, hids, Option.map_some, hresize]
  simp [EncodeState.extend, numbered]

theorem encodeWords_spec (t : Tokenizer) (words : List Text) :
    ∃ idss, List.Forall₂ (Spells t) words idss ∧ ∀ s : EncodeState, s.Aligned →
      words.foldlM t.encodeWord s = some (s.extend idss) := by
  induction words with
  | nil => exact ⟨[], .nil, fun s _ => by rw [EncodeState.extend_nil]; rfl⟩
  | cons word words ih =>
      obtain ⟨ids, hspells, hword⟩ := encodeWord_spec t word
      obtain ⟨idss, hall, hwords⟩ := ih
      refine ⟨ids :: idss, .cons hspells hall, fun s hs => ?_⟩
      rw [List.foldlM_cons, hword s hs]
      show words.foldlM t.encodeWord (s.extend [ids]) = _
      rw [hwords _ (hs.extend [ids]), ← EncodeState.extend_append]
      rfl

/-- What a part of the text adds: the one id of an added token, or the ids of the words between two of
them. -/
def Emits (t : Tokenizer) : Cut Char → List (List ℕ) → Prop
  | .added token _ _ _, idss => idss = [[token.id]]
  | .text chars, idss => ∃ words, t.preTokens chars = some words ∧ List.Forall₂ (Spells t) words idss ∧
      (t.bertPreTokenizer = true →
        words.flatten = (t.normalize chars).filter fun c => !isWhitespace c) ∧
      (t.bertPreTokenizer = false →
        words = if t.normalize chars = [] then [] else [t.normalize chars])

theorem forall_ne_nil {words : List Text} {idss : List (List ℕ)}
    (h : List.Forall₂ (Spells t) words idss) (hwords : ∀ word ∈ words, word ≠ []) :
    ∀ ids ∈ idss, ids ≠ [] := by
  induction h with
  | nil => exact fun _ h => absurd h List.not_mem_nil
  | cons hspells _ ih =>
      obtain ⟨hword, hrest⟩ := List.forall_mem_cons.mp hwords
      exact List.forall_mem_cons.mpr ⟨hspells.ne_nil hword, ih hrest⟩

theorem encodeSpan_spec (t : Tokenizer) (cut : Cut Char) :
    ∃ idss, Emits t cut idss ∧ (∀ ids ∈ idss, ids ≠ []) ∧ ∀ s : EncodeState, s.Aligned →
      t.encodeSpan s cut.span = some (s.extend idss) := by
  cases cut with
  | added token left content right =>
      refine ⟨[[token.id]], rfl, by simp, fun s _ => ?_⟩
      simp [Cut.span, Tokenizer.encodeSpan, EncodeState.extend, numbered]
  | text chars =>
      obtain ⟨idss, hspells, hids⟩ := encodeWords_spec t (wordsOf t chars)
      have hflatten := flatten_wordsOf t chars
      refine ⟨idss, ⟨wordsOf t chars, preTokens_spec t chars, hspells, fun hbert => ?_, fun hbert => ?_⟩,
        forall_ne_nil hspells fun _ h => ne_nil_of_mem_wordsOf h, fun s hs => ?_⟩
      · rwa [if_pos hbert] at hflatten
      · rw [wordsOf, hbert, if_neg Bool.false_ne_true]
        simp [flush]
      · rw [Cut.span, Tokenizer.encodeSpan, preTokens_spec]
        exact hids s hs

theorem encodeSpans_spec (t : Tokenizer) (cuts : List (Cut Char)) :
    ∃ idsss, List.Forall₂ (Emits t) cuts idsss ∧ (∀ ids ∈ idsss.flatten, ids ≠ []) ∧
      ∀ s : EncodeState, s.Aligned →
        (cuts.map Cut.span).foldlM t.encodeSpan s = some (s.extend idsss.flatten) := by
  induction cuts with
  | nil =>
      exact ⟨[], .nil, fun _ h => absurd h List.not_mem_nil, fun s _ => by
        rw [List.flatten_nil, EncodeState.extend_nil]
        rfl⟩
  | cons cut cuts ih =>
      obtain ⟨idss, hemits, hne, hspan⟩ := encodeSpan_spec t cut
      obtain ⟨idsss, hall, hneAll, hspans⟩ := ih
      refine ⟨idss :: idsss, .cons hemits hall, fun ids hids => ?_, fun s hs => ?_⟩
      · rw [List.flatten_cons, List.mem_append] at hids
        exact hids.elim (hne ids) (hneAll ids)
      · rw [List.map_cons, List.foldlM_cons, hspan s hs]
        show (cuts.map Cut.span).foldlM t.encodeSpan (s.extend idss) = _
        rw [hspans _ (hs.extend idss), ← EncodeState.extend_append]
        rfl

end State

section Encoding

variable {t : Tokenizer} {text : Text} {addSpecialTokens : Bool} {enc : Encoding}

/-- The encoding of a text: its parts in order, absorbed white space included, with the ids of their words;
and the words counted from 0 on, each counted as often as it has ids. -/
structure Encodes (t : Tokenizer) (text : Text) (addSpecialTokens : Bool) (enc : Encoding)
    (cuts : List (Cut Char)) (idsss : List (List (List ℕ))) : Prop where
  parts : t.extractAdded text = some (cuts.map Cut.span)
  whole : cuts.flatMap Cut.chars = text
  wellFormed : ∀ cut ∈ cuts, cut.WellFormed
  emits : List.Forall₂ (Emits t) cuts idsss
  ids_eq : enc.ids = (if addSpecialTokens then t.cls.toList else []) ++ idsss.flatten.flatten ++
    if addSpecialTokens then t.sep.toList else []
  wordIds_eq : enc.wordIds = (if addSpecialTokens then t.cls.toList else []).map (fun _ => none) ++
    numbered 0 idsss.flatten ++ (if addSpecialTokens then t.sep.toList else []).map fun _ => none
  lengths : enc.attentionMask.length = enc.ids.length ∧ enc.wordIds.length = enc.ids.length
  ascending : enc.wordIds.reduceOption.Pairwise (· ≤ ·)
  consecutive : ∀ k, some k ∈ enc.wordIds ↔ k < idsss.flatten.length

/-- The ids of the words, between the template tokens. -/
def encodingOf (t : Tokenizer) (addSpecialTokens : Bool) (idss : List (List ℕ)) : Encoding :=
  let cls := if addSpecialTokens then t.cls.toList else []
  let sep := if addSpecialTokens then t.sep.toList else []
  let ids := cls ++ idss.flatten ++ sep
  ⟨ids, List.replicate ids.length 1,
    cls.map (fun _ => none) ++ numbered 0 idss ++ sep.map fun _ => none⟩

/-- No slice is refused, and every part of the text adds its ids. -/
theorem encode_eq (t : Tokenizer) (text : Text) (addSpecialTokens : Bool) :
    ∃ idsss, List.Forall₂ (Emits t) (cuts id t text) idsss ∧ (∀ ids ∈ idsss.flatten, ids ≠ []) ∧
      t.encode text addSpecialTokens = some (encodingOf t addSpecialTokens idsss.flatten) := by
  obtain ⟨idsss, hemits, hne, hspans⟩ := encodeSpans_spec t (cuts id t text)
  refine ⟨idsss, hemits, hne, ?_⟩
  rw [Tokenizer.encode, encodingOf]
  generalize (if addSpecialTokens then t.cls.toList else []) = cls
  generalize (if addSpecialTokens then t.sep.toList else []) = sep
  have haligned : (EncodeState.mk cls (cls.map fun _ => none) 0).Aligned := List.length_map _
  rw [extractAdded_spec]
  show ((cuts id t text).map Cut.span).foldlM t.encodeSpan ⟨cls, cls.map fun _ => none, 0⟩ >>= _ = _
  rw [hspans _ haligned]
  rfl

/-- Words are counted from 0 on, and no number is left out. -/
theorem mem_wordIds_encodingOf {idss : List (List ℕ)} (hne : ∀ ids ∈ idss, ids ≠ []) (k : ℕ) :
    some k ∈ (encodingOf t addSpecialTokens idss).wordIds ↔ k < idss.length := by
  have hmem := mem_numbered hne 0 k
  simp only [encodingOf, List.mem_append, List.mem_map, reduceCtorEq, and_false, exists_false, false_or,
    or_false]
  rw [hmem]
  omega

theorem length_wordIds_encodingOf (idss : List (List ℕ)) :
    (encodingOf t addSpecialTokens idss).wordIds.length =
      (encodingOf t addSpecialTokens idss).ids.length := by
  simp only [encodingOf, List.length_append, List.length_map, length_numbered]

/-- Every text is encoded: no slice is refused, and the encoding is made of the parts of the text. -/
theorem encode_correct (t : Tokenizer) (text : Text) (addSpecialTokens : Bool) :
    ∃ enc cuts idsss, t.encode text addSpecialTokens = some enc ∧
      Encodes t text addSpecialTokens enc cuts idsss := by
  obtain ⟨idsss, hemits, hne, hencode⟩ := encode_eq t text addSpecialTokens
  have hnone : ∀ l : List ℕ, (l.map fun _ => (none : Option ℕ)).reduceOption = [] := by
    intro l
    rw [List.map_const', List.reduceOption_replicate_none]
  refine ⟨_, cuts id t text, idsss, hencode, ?_⟩
  refine
    { parts := extractAdded_spec t text
      whole := flatMap_chars_cutFrom id t [] text
      wellFormed := fun _ h => wellFormed_of_mem_cutFrom h
      emits := hemits
      ids_eq := rfl
      wordIds_eq := rfl
      lengths := ⟨List.length_replicate, length_wordIds_encodingOf _⟩
      ascending := ?_
      consecutive := mem_wordIds_encodingOf hne }
  simp only [encodingOf, List.reduceOption_append, hnone, List.nil_append, List.append_nil]
  exact pairwise_numbered 0 idsss.flatten

/-- A file without a pre-tokenizer and a normalizer. -/
def bareFile : TokenizerFile where
  version := none
  truncation := false
  padding := false
  addedTokens := []
  normalizer := none
  preTokenizer := none
  postProcessor := none
  model := {
    kind := "WordPiece".toList
    unkToken := none
    continuingSubwordPrefix := none
    maxInputCharsPerWord := none
    vocab := Table.empty.insert "[UNK]".toList 0 }

/-- The text is then one word, white space and all. -/
theorem bare_word_with_space : ∃ t words, Tokenizer.fromParsed bareFile = .ok t ∧
    t.preTokens ['a', ' ', 'b'] = some words ∧
      words.flatten ≠ (t.normalize ['a', ' ', 'b']).filter fun c => !isWhitespace c := by
  refine ⟨_, [['a', ' ', 'b']], rfl, rfl, ?_⟩
  decide +kernel

end Encoding

end Gigastt.WordPiece
