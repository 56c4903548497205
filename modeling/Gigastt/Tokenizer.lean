import Gigastt.Words
import Mathlib.Data.List.DropRight
import Mathlib.Data.List.Induction

/-!
The vocabulary of a model, and the tokens that a phrase is spelled with: at every place the longest
token that goes on there. A word begins with the boundary marker.
-/

namespace Gigastt

def wordBoundary : Char := '▁'

/-- `<blk>` and `<unk>` stand for no text. -/
def blk : Text := ['<', 'b', 'l', 'k', '>']
def unk : Text := ['<', 'u', 'n', 'k', '>']

/-- `trim()`. -/
def trim (text : Text) : Text := (trimStart (trimStart text).reverse).reverse

section Trim

theorem trim_cons {c : Char} (hc : isWhitespace c = true) (text : Text) :
    trim (c :: text) = trim text := by
  rw [trim, trim, trimStart, trimStart, List.dropWhile_cons_of_pos hc]
  rfl

theorem trim_subset (text : Text) : trim text ⊆ text := by
  intro c hc
  rw [trim, List.mem_reverse] at hc
  have hmid := (List.dropWhile_sublist isWhitespace).subset hc
  rw [List.mem_reverse] at hmid
  exact (List.dropWhile_sublist isWhitespace).subset hmid

/-- What is trimmed begins with no white space. -/
theorem trimStart_trim (text : Text) : trimStart (trim text) = trim text := by
  unfold trim
  cases hstart : trimStart text with
  | nil => rfl
  | cons a rest =>
      have ha : ¬isWhitespace a = true := by
        have hne : text.dropWhile isWhitespace ≠ [] := by
          intro hnil
          rw [trimStart, hnil] at hstart
          cases hstart
        have hhead : (text.dropWhile isWhitespace).head hne = a := by
          simp only [show text.dropWhile isWhitespace = a :: rest from hstart, List.head_cons]
        rw [← hhead, List.head_dropWhile_not isWhitespace hne]
        exact Bool.false_ne_true
      have hkeeps : ∃ rest', trimStart (a :: rest).reverse = rest' ++ [a] := by
        rw [trimStart, List.reverse_cons, List.dropWhile_append]
        split_ifs
        · exact ⟨[], by rw [List.dropWhile_cons_of_neg ha]; rfl⟩
        · exact ⟨_, rfl⟩
      obtain ⟨rest', hrest'⟩ := hkeeps
      rw [hrest', List.reverse_append, trimStart]
      exact List.dropWhile_cons_of_neg ha

theorem trim_trim (text : Text) : trim (trim text) = trim text := by
  rw [trim, trimStart_trim, trim, List.reverse_reverse, trimStart, trimStart,
    List.dropWhile_idempotent]

/-- White space may be replaced by white space before or after. -/
theorem trim_map {g : Char → Char} (hg : ∀ c, isWhitespace (g c) = isWhitespace c) (text : Text) :
    trim (text.map g) = (trim text).map g := by
  have hsame : isWhitespace ∘ g = isWhitespace := funext hg
  simp only [trim, trimStart, List.dropWhile_map, ← List.map_reverse, hsame]

end Trim

/-- The blank token is `<blk>`, or else the last one. -/
structure Tokenizer where
  tokens : List Text
  blankId : Nat
  blankId_eq : blankId = (tokens.findIdx? (· = blk)).getD (tokens.length - 1)

namespace Tokenizer

def fromTokens (tokens : List Text) : Tokenizer where
  tokens
  blankId := (tokens.findIdx? (· = blk)).getD (tokens.length - 1)
  blankId_eq := rfl

/-- A token that spells the beginning of a text. -/
def Fits (chars tok : Text) : Prop := tok ≠ blk ∧ tok ≠ unk ∧ tok ≠ [] ∧ tok <+: chars

instance (chars tok : Text) : Decidable (Fits chars tok) := inferInstanceAs (Decidable (_ ∧ _))

/-- The better of the best token so far, by id and length, and the next one. -/
def better (chars : Text) (best : Option (Nat × Nat)) (entry : Text × Nat) : Option (Nat × Nat) :=
  if Fits chars entry.1 ∧ best.all (·.2 < entry.1.length) then some (entry.2, entry.1.length)
  else best

/-- The longest token that a text begins with, by id and length. -/
def longest (t : Tokenizer) (chars : Text) : Option (Nat × Nat) :=
  t.tokens.zipIdx.foldl (better chars) none

/-- The phrase with a marker in front and in the place of every space. -/
def marked (phrase : Text) : Text :=
  wordBoundary :: phrase.map fun c => if isWhitespace c then wordBoundary else c

/-- The tokens of a text after the characters that the last token took. A marker without a token is
left out. -/
def encodeFrom (t : Tokenizer) : Nat → Text → Option (List Nat)
  | _, [] => some []
  | taken + 1, _ :: chars => encodeFrom t taken chars
  | 0, c :: chars =>
      match t.longest (c :: chars) with
      | some (id, len) => (encodeFrom t (len - 1) chars).map (id :: ·)
      | none => if c = wordBoundary then encodeFrom t 0 chars else none

def encodePhrase (t : Tokenizer) (phrase : Text) : Option (List Nat) :=
  let phrase := trim phrase
  if phrase = [] then none else (t.encodeFrom 0 (marked phrase)).filter (· ≠ [])

/-- The text of a token; none for a special one or an id out of range. -/
def tokenText (t : Tokenizer) (id : Nat) : Text :=
  match t.tokens[id]? with
  | some tok => if tok = blk ∨ tok = unk then [] else tok
  | none => []

/-- What a token adds to a decoded text. -/
def piece (t : Tokenizer) (id : Nat) : Text :=
  if id = t.blankId then []
  else
    match t.tokens[id]? with
    | some tok => if tok = unk then [] else tok
    | none => []

def decode (t : Tokenizer) (ids : List Nat) : Text :=
  trim ((ids.flatMap t.piece).map fun c => if c = wordBoundary then ' ' else c)

section Longest

variable {chars : Text} {t : Tokenizer}

/-- The longest of some tokens that fit, if any does. -/
def IsLongest (entries : List (Text × Nat)) (chars : Text) : Option (Nat × Nat) → Prop
  | none => ∀ e ∈ entries, ¬Fits chars e.1
  | some (id, len) => (∃ tok, (tok, id) ∈ entries ∧ Fits chars tok ∧ tok.length = len) ∧
      ∀ e ∈ entries, Fits chars e.1 → e.1.length ≤ len

theorem IsLongest.better {entries : List (Text × Nat)} {best : Option (Nat × Nat)}
    (h : IsLongest entries chars best) (e : Text × Nat) :
    IsLongest (entries ++ [e]) chars (better chars best e) := by
  have hmem : ∀ x, x ∈ entries ++ [e] ↔ x ∈ entries ∨ x = e := fun x => by simp
  unfold Tokenizer.better
  split_ifs with hbetter
  · refine ⟨⟨e.1, (hmem _).mpr (Or.inr rfl), hbetter.1, rfl⟩, fun x hx hfits => ?_⟩
    rcases (hmem x).mp hx with hold | rfl
    · cases best with
      | none => exact absurd hfits (h x hold)
      | some idlen => exact (h.2 x hold hfits).trans (of_decide_eq_true hbetter.2).le
    · exact le_rfl
  · cases best with
    | none =>
        intro x hx
        rcases (hmem x).mp hx with hold | rfl
        · exact h x hold
        · exact fun hfits => hbetter ⟨hfits, rfl⟩
    | some idlen =>
        obtain ⟨⟨tok, htok, hfits, hlen⟩, hmax⟩ := h
        refine ⟨⟨tok, (hmem _).mpr (Or.inl htok), hfits, hlen⟩, fun x hx hx' => ?_⟩
        rcases (hmem x).mp hx with hold | rfl
        · exact hmax x hold hx'
        · exact not_lt.mp fun hlt => hbetter ⟨hx', decide_eq_true hlt⟩

theorem foldl_better (entries : List (Text × Nat)) (chars : Text) :
    IsLongest entries chars (entries.foldl (Tokenizer.better chars) none) := by
  induction entries using List.reverseRecOn with
  | nil => exact fun e he => absurd he List.not_mem_nil
  | append_singleton entries e ih =>
      rw [List.foldl_append]
      exact ih.better e

theorem longest_eq_none (h : t.longest chars = none) : ∀ tok ∈ t.tokens, ¬Fits chars tok := by
  have hall := foldl_better t.tokens.zipIdx chars
  rw [longest] at h
  rw [h] at hall
  intro tok htok
  obtain ⟨id, hid, rfl⟩ := List.mem_iff_getElem.mp htok
  exact hall (t.tokens[id], id) (List.mem_zipIdx_iff_getElem?.mpr (List.getElem?_eq_getElem hid))

theorem longest_eq_some {id len : Nat} (h : t.longest chars = some (id, len)) :
    (∃ tok, t.tokens[id]? = some tok ∧ Fits chars tok ∧ tok.length = len) ∧
      ∀ tok ∈ t.tokens, Fits chars tok → tok.length ≤ len := by
  have hall := foldl_better t.tokens.zipIdx chars
  rw [longest] at h
  rw [h] at hall
  obtain ⟨⟨tok, htok, hfits, hlen⟩, hmax⟩ := hall
  refine ⟨⟨tok, List.mem_zipIdx_iff_getElem?.mp htok, hfits, hlen⟩, fun tok' htok' hfits' => ?_⟩
  obtain ⟨id', hid', rfl⟩ := List.mem_iff_getElem.mp htok'
  exact hmax (t.tokens[id'], id') (List.mem_zipIdx_iff_getElem?.mpr (List.getElem?_eq_getElem hid'))
    hfits'

end Longest

section Phrase

variable {t : Tokenizer}

/-- At the start of a phrase the marker alone is the longest token. -/
def MarkerFirst (t : Tokenizer) (phrase : Text) : Prop :=
  [wordBoundary] ∈ t.tokens ∧
    ∀ tok ∈ t.tokens, Fits (marked (trim phrase)) tok → tok = [wordBoundary]

instance (t : Tokenizer) (phrase : Text) : Decidable (t.MarkerFirst phrase) :=
  inferInstanceAs (Decidable (_ ∧ _))

theorem encodePhrase_eq_some {phrase : Text} {ids : List Nat} (h : t.encodePhrase phrase = some ids) :
    t.encodeFrom 0 (marked (trim phrase)) = some ids ∧ ids ≠ [] := by
  unfold encodePhrase at h
  dsimp only at h
  split_ifs at h
  obtain ⟨hencode, hne⟩ := Option.filter_eq_some_iff.mp h
  exact ⟨hencode, of_decide_eq_true hne⟩

theorem tokenText_mem {id : Nat} (h : t.tokenText id ≠ []) : t.tokenText id ∈ t.tokens := by
  unfold tokenText at h ⊢
  split
  · rename_i tok hget
    rw [hget] at h
    by_cases hspecial : tok = blk ∨ tok = unk
    · exact absurd (if_pos hspecial) h
    · rw [if_neg hspecial]
      exact List.mem_of_getElem? hget
  · rename_i hget
    rw [hget] at h
    exact absurd rfl h

/-- The first token of a phrase is the bare marker exactly when no longer token fits there. -/
theorem head_encodePhrase {phrase : Text} {id : Nat} {ids : List Nat}
    (h : t.encodePhrase phrase = some (id :: ids)) :
    t.tokenText id = [wordBoundary] ↔ t.MarkerFirst phrase := by
  obtain ⟨hencode, _⟩ := encodePhrase_eq_some h
  unfold MarkerFirst
  unfold marked at hencode ⊢
  generalize (trim phrase).map (fun c => if isWhitespace c then wordBoundary else c) = chars
    at hencode ⊢
  have hfits : Fits (wordBoundary :: chars) [wordBoundary] :=
    ⟨by decide, by decide, by decide, ⟨chars, rfl⟩⟩
  rw [encodeFrom] at hencode
  cases hlongest : t.longest (wordBoundary :: chars) with
  | none =>
      have habsent : [wordBoundary] ∉ t.tokens := fun hmem => longest_eq_none hlongest _ hmem hfits
      refine iff_of_false (fun htext => habsent ?_) fun hfirst => habsent hfirst.1
      have hne : t.tokenText id ≠ [] := fun hnil => by simp [hnil] at htext
      exact htext ▸ tokenText_mem hne
  | some idlen =>
      obtain ⟨id', len⟩ := idlen
      rw [hlongest] at hencode
      obtain ⟨rest, _, hcons⟩ := Option.map_eq_some_iff.mp hencode
      obtain ⟨rfl, _⟩ := List.cons_eq_cons.mp hcons
      obtain ⟨⟨tok, hget, hfit, rfl⟩, hmax⟩ := longest_eq_some hlongest
      have htext : t.tokenText id' = tok := by
        rw [tokenText, hget]
        exact if_neg (not_or.mpr ⟨hfit.1, hfit.2.1⟩)
      rw [htext]
      constructor
      · rintro rfl
        refine ⟨List.mem_of_getElem? hget, fun tok' htok' hfit' => ?_⟩
        obtain ⟨a, rest', rfl⟩ := List.exists_cons_of_ne_nil hfit'.2.2.1
        obtain ⟨rfl, _⟩ := List.cons_prefix_cons.mp hfit'.2.2.2
        have hlen := hmax _ htok' hfit'
        rw [List.length_cons, List.length_singleton] at hlen
        rw [List.length_eq_zero_iff.mp (Nat.le_zero.mp (Nat.le_of_succ_le_succ hlen))]
      · exact fun hfirst => hfirst.2 tok (List.mem_of_getElem? hget) hfit

end Phrase

section RoundTrip

variable {t : Tokenizer}

/-- A token that a phrase may be spelled with. -/
def Spoken (t : Tokenizer) (id : Nat) (tok : Text) : Prop :=
  t.tokens[id]? = some tok ∧ tok ≠ blk ∧ tok ≠ unk

theorem Spoken.piece_eq {id : Nat} {tok : Text} (h : t.Spoken id tok) (hblank : blk ∈ t.tokens) :
    t.piece id = tok := by
  obtain ⟨hget, hblk, hunk⟩ := h
  have hne : id ≠ t.blankId := by
    rintro rfl
    obtain ⟨i, hi⟩ : ∃ i, t.tokens.findIdx? (· = blk) = some i := by
      rw [← Option.isSome_iff_exists, List.findIdx?_isSome, List.any_eq_true]
      exact ⟨blk, hblank, decide_eq_true rfl⟩
    have hid : t.blankId = i := by rw [t.blankId_eq, hi, Option.getD_some]
    obtain ⟨hlt, hblk', _⟩ := List.findIdx?_eq_some_iff_getElem.mp hi
    rw [hid, List.getElem?_eq_getElem hlt, of_decide_eq_true hblk'] at hget
    exact hblk (Option.some.inj hget).symm
  rw [piece, if_neg hne, hget]
  exact if_neg hunk

/-- With a token for the marker, the tokens spell the text. -/
theorem flatMap_piece_encodeFrom (hblank : blk ∈ t.tokens) (hmarker : [wordBoundary] ∈ t.tokens)
    {taken : Nat} {chars : Text} {ids : List Nat} (h : t.encodeFrom taken chars = some ids) :
    ids.flatMap t.piece = chars.drop taken := by
  induction chars generalizing taken ids with
  | nil =>
      cases taken <;> cases h <;> rfl
  | cons c chars ih =>
      cases taken with
      | succ taken => exact ih h
      | zero =>
          rw [encodeFrom] at h
          cases hlongest : t.longest (c :: chars) with
          | none =>
              rw [hlongest] at h
              dsimp only at h
              split_ifs at h with hc
              refine absurd ?_ (longest_eq_none hlongest _ hmarker)
              rw [hc]
              exact ⟨by decide, by decide, by decide, ⟨chars, rfl⟩⟩
          | some idlen =>
              obtain ⟨id, len⟩ := idlen
              rw [hlongest] at h
              obtain ⟨rest, hrest, rfl⟩ := Option.map_eq_some_iff.mp h
              obtain ⟨⟨tok, hget, ⟨hblk, hunk, hne, hstarts⟩, rfl⟩, _⟩ := longest_eq_some hlongest
              have hspoken : t.Spoken id tok := ⟨hget, hblk, hunk⟩
              rw [List.flatMap_cons, hspoken.piece_eq hblank, ih hrest, List.drop_zero]
              obtain ⟨a, tok, rfl⟩ := List.exists_cons_of_ne_nil hne
              obtain ⟨rfl, hrest'⟩ := List.cons_prefix_cons.mp hstarts
              obtain ⟨after, hafter⟩ := hrest'
              simp [← hafter]

theorem map_marked {phrase : Text} (hplain : wordBoundary ∉ phrase) :
    (marked phrase).map (fun c => if c = wordBoundary then ' ' else c) =
      ' ' :: phrase.map fun c => if isWhitespace c then ' ' else c := by
  rw [marked, List.map_cons, if_pos rfl, List.map_map]
  refine congrArg _ (List.map_congr_left fun c hc => ?_)
  have hne : c ≠ wordBoundary := fun heq => hplain (heq ▸ hc)
  by_cases hspace : isWhitespace c = true
  · simp [hspace]
  · simp [hspace, hne]

/-- The tokens of a phrase spell it again, with a plain space for every white space. -/
theorem decode_encodePhrase (t : Tokenizer) {phrase : Text} {ids : List Nat}
    (hblank : blk ∈ t.tokens) (hmarker : [wordBoundary] ∈ t.tokens)
    (hplain : wordBoundary ∉ phrase) (h : t.encodePhrase phrase = some ids) :
    t.decode ids = (trim phrase).map fun c => if isWhitespace c then ' ' else c := by
  obtain ⟨hencode, _⟩ := encodePhrase_eq_some h
  have hspace : ∀ c, isWhitespace (if isWhitespace c then ' ' else c) = isWhitespace c := by
    intro c
    split_ifs with hc
    · rw [hc]
      rfl
    · rfl
  have hplain' : wordBoundary ∉ trim phrase := fun hmem => hplain (trim_subset phrase hmem)
  rw [decode, flatMap_piece_encodeFrom hblank hmarker hencode, List.drop_zero, map_marked hplain',
    trim_cons rfl, trim_map hspace, trim_trim]

/-- Two words over single letters. -/
theorem decode_encodePhrase_letters :
    (fromTokens [['▁'], ['а'], ['б'], blk]).decode [0, 1, 0, 2] = ['а', ' ', 'б'] :=
  @decode_encodePhrase (fromTokens [['▁'], ['а'], ['б'], blk]) [' ', 'а', '\t', 'б'] [0, 1, 0, 2]
    (by decide) (by decide) (by decide) (by decide)

end RoundTrip

end Tokenizer

end Gigastt
