import Gigastt.ItnNumbers
import Mathlib.Data.List.ReduceOption

/-!
What holds of every text: a second pass changes nothing, other words stay where they are, and `ё` may be
folded to `е` before or after, but for one form that the table lacks.
-/

namespace Gigastt.Itn

section Outline

variable {α : Type*} {p : α → Bool} {a : α} {l rest : List α}

/-- A gap in front, whether or not there is one. -/
def gapFirst : List (Option α) → List (Option α)
  | none :: l => none :: l
  | l => none :: l

/-- The elements that are not in `p`, and a gap wherever some in `p` stand. -/
def outline (p : α → Bool) : List α → List (Option α)
  | [] => []
  | a :: l => if p a then gapFirst (outline p l) else some a :: outline p l

@[simp]
theorem gapFirst_gapFirst (l : List (Option α)) : gapFirst (gapFirst l) = gapFirst l := by
  cases l with
  | nil => rfl
  | cons a l => cases a <;> rfl

theorem reduceOption_gapFirst (l : List (Option α)) :
    (gapFirst l).reduceOption = l.reduceOption := by
  cases l with
  | nil => rfl
  | cons a l => cases a <;> rfl

/-- Without its gaps the outline is what is not in `p`. -/
theorem reduceOption_outline (p : α → Bool) (l : List α) :
    (outline p l).reduceOption = l.filter fun a => !p a := by
  induction l with
  | nil => rfl
  | cons a l ih =>
      rw [outline, List.filter_cons]
      cases hp : p a with
      | true => simpa [reduceOption_gapFirst] using ih
      | false => simpa using ih

theorem outline_append_of_all (h : ∀ a ∈ l, p a = true) (rest : List α) :
    outline p (l ++ rest) = if l.isEmpty then outline p rest else gapFirst (outline p rest) := by
  induction l with
  | nil => rfl
  | cons a l ih =>
      rw [List.cons_append, outline, if_pos (h a List.mem_cons_self),
        ih fun b hb => h b (List.mem_cons_of_mem a hb)]
      cases l with
      | nil => rfl
      | cons b l => simp

end Outline

section Conservative

variable {lowercase : Text → Text} {text token : Text} {tokens group : List Text}

/-- A number word or digits. -/
def numeric (lowercase : Text → Text) (token : Text) : Bool := !decide (Ordinary lowercase token)

theorem numeric_of_some {found : ℕ × ℕ} (h : numberWord lowercase token = some found) :
    numeric lowercase token = true := by
  simp [numeric, Ordinary, h]

theorem numeric_of_none (h : numberWord lowercase token = none) :
    numeric lowercase token = isDigitToken token := by
  cases hd : isDigitToken token <;> simp [numeric, Ordinary, h, hd]

theorem inNumber_next (s : Parser) (value scale : ℕ) : (s.next value scale).2.inNumber = true := by
  unfold Parser.next
  grind

/-- Numerals stand where number words and digits stood. -/
theorem outline_wordsToNumbersFrom (s : Parser) (tokens : List Text) :
    outline isDigitToken (wordsToNumbersFrom lowercase s tokens) =
      if s.inNumber then gapFirst (outline (numeric lowercase) tokens)
      else outline (numeric lowercase) tokens := by
  have hflush : ∀ (s : Parser) rest, outline isDigitToken (s.flush ++ rest) =
      if s.inNumber then gapFirst (outline isDigitToken rest) else outline isDigitToken rest := by
    intro s rest
    unfold Parser.flush
    split_ifs
    · rw [List.singleton_append, outline, if_pos (isDigitToken_numeral _)]
    · rfl
  induction tokens generalizing s with
  | nil =>
      have hnil := hflush s []
      rwa [List.append_nil] at hnil
  | cons t tokens ih =>
      rw [wordsToNumbersFrom]
      cases ht : numberWord lowercase t with
      | some found =>
          have hnext := ih (s.next found.1 found.2).2
          rw [inNumber_next, if_pos rfl] at hnext
          have hout : outline isDigitToken ((s.next found.1 found.2).1 ++
              wordsToNumbersFrom lowercase (s.next found.1 found.2).2 tokens) =
                gapFirst (outline (numeric lowercase) tokens) := by
            rcases s.next_fst found.1 found.2 with heq | heq
            · rw [heq, List.nil_append, hnext]
            · rw [heq, List.singleton_append, outline, if_pos (isDigitToken_numeral _), hnext,
                gapFirst_gapFirst]
          rw [outline, if_pos (numeric_of_some ht), gapFirst_gapFirst, ite_self]
          exact hout
      | none =>
          dsimp only
          rw [hflush, outline, outline, numeric_of_none ht, ih]
          rfl

theorem outline_mergeFrom (hgroup : ∀ t ∈ group, isDigitToken t = true) (tokens : List Text) :
    outline isDigitToken (mergeFrom group tokens) =
      if group.isEmpty then outline isDigitToken tokens
      else gapFirst (outline isDigitToken tokens) := by
  have hclose : ∀ {group : List Text} (rest : List Text), (∀ t ∈ group, isDigitToken t = true) →
      outline isDigitToken (closeGroup group ++ rest) =
        if group.isEmpty then outline isDigitToken rest
        else gapFirst (outline isDigitToken rest) := by
    intro group rest hgroup
    rw [outline_append_of_all fun t ht => isDigitToken_of_mem_closeGroup hgroup ht]
    rcases closeGroup_cases group with heq | ⟨hne, heq⟩
    · rw [heq]
    · rw [heq, List.isEmpty_eq_false_iff.mpr hne]
      rfl
  induction tokens generalizing group with
  | nil =>
      have hnil := hclose [] hgroup
      rwa [List.append_nil] at hnil
  | cons t tokens ih =>
      rw [mergeFrom, outline]
      cases ht : isDigitToken t with
      | true =>
          have hnext : ∀ t' ∈ group ++ [t], isDigitToken t' = true := by
            intro t' ht'
            rcases List.mem_append.mp ht' with ht' | ht'
            · exact hgroup t' ht'
            · rwa [List.mem_singleton.mp ht']
          rw [if_pos rfl, ih hnext, if_neg (by simp), if_pos rfl, gapFirst_gapFirst, ite_self]
      | false =>
          rw [if_neg Bool.false_ne_true, hclose _ hgroup, outline, ht, if_neg Bool.false_ne_true,
            ih fun _ h => absurd h List.not_mem_nil]
          rfl

/-- Digits are no number word, where lower case leaves them as they are. -/
theorem numberWord_of_isDigitToken (hdigits : ∀ t, isDigitToken t = true → lowercase t = t)
    (h : isDigitToken token = true) : numberWord lowercase token = none := by
  rw [numberWord, hdigits token h, Option.eq_none_iff_forall_ne_some]
  intro found hfound
  have hno := (numberWords_ok _ (mem_of_lookup hfound)).2.1
  rw [h] at hno
  cases hno

theorem mergeDigitGroups_idem (tokens : List Text) :
    mergeDigitGroups (mergeDigitGroups tokens) = mergeDigitGroups tokens := by
  have hclosed : ∀ {group : List Text}, (∀ t ∈ group, isDigitToken t = true) →
      mergeFrom [] (closeGroup group) = closeGroup group := by
    intro group hgroup
    have hall := mergeFrom_digits (fun t ht => isDigitToken_of_mem_closeGroup hgroup ht) [] []
    rw [List.append_nil, List.nil_append, mergeFrom, closeGroup_closeGroup] at hall
    exact hall
  have hfrom : ∀ {group : List Text}, (∀ t ∈ group, isDigitToken t = true) →
      mergeFrom [] (mergeFrom group tokens) = mergeFrom group tokens := by
    induction tokens with
    | nil => exact hclosed
    | cons t tokens ih =>
        intro group hgroup
        rw [mergeFrom]
        cases ht : isDigitToken t with
        | true =>
            rw [if_pos rfl]
            apply ih
            intro t' ht'
            rcases List.mem_append.mp ht' with ht' | ht'
            · exact hgroup t' ht'
            · rwa [List.mem_singleton.mp ht']
        | false =>
            rw [if_neg Bool.false_ne_true, mergeFrom_append_cons ht, hclosed hgroup,
              ih fun _ h => absurd h List.not_mem_nil]
  exact hfrom fun _ h => absurd h List.not_mem_nil

/-- The tokens of the output. -/
def itnTokens (lowercase : Text → Text) (text : Text) : List Text :=
  mergeDigitGroups (wordsToNumbers lowercase (splitWhitespace text))

theorem of_mem_itnTokens (h : token ∈ itnTokens lowercase text) :
    isDigitToken token = true ∨ token ∈ splitWhitespace text ∧ numberWord lowercase token = none := by
  rcases of_mem_mergeFrom (fun _ h => absurd h List.not_mem_nil) h with h | h
  · exact Or.inl h
  · exact of_mem_wordsToNumbersFrom h

theorem splitWhitespace_applyItn (lowercase : Text → Text) (text : Text) :
    splitWhitespace (applyItn lowercase text) = itnTokens lowercase text := by
  apply splitWhitespace_joinSpaces
  intro token htoken
  rcases of_mem_itnTokens htoken with h | ⟨h, _⟩
  · exact isToken_of_isDigitToken h
  · exact isToken_of_mem h

/-- The output has the outline of the text: the other tokens in order, and numerals where there were number
words or digits. -/
theorem outline_applyItn (lowercase : Text → Text) (text : Text) :
    outline isDigitToken (splitWhitespace (applyItn lowercase text)) =
      outline (numeric lowercase) (splitWhitespace text) := by
  have hmerge := outline_mergeFrom (fun _ h => absurd h List.not_mem_nil)
    (wordsToNumbers lowercase (splitWhitespace text))
  rw [splitWhitespace_applyItn]
  exact hmerge.trans (outline_wordsToNumbersFrom {} _)

theorem filter_applyItn (lowercase : Text → Text) (text : Text) :
    (splitWhitespace (applyItn lowercase text)).filter (fun t => !isDigitToken t) =
      (splitWhitespace text).filter fun t => decide (Ordinary lowercase t) := by
  rw [← reduceOption_outline, outline_applyItn, reduceOption_outline]
  simp only [numeric, Bool.not_not]

/-- A second pass changes nothing, ordinary tokens are kept in order, and numerals stand between two of
them exactly where number words or digits did. -/
theorem applyItn_conservative (hdigits : ∀ t, isDigitToken t = true → lowercase t = t) (text : Text) :
    applyItn lowercase (applyItn lowercase text) = applyItn lowercase text ∧
      (splitWhitespace (applyItn lowercase text)).filter (fun t => !isDigitToken t) =
        (splitWhitespace text).filter (fun t => decide (Ordinary lowercase t)) ∧
      outline isDigitToken (splitWhitespace (applyItn lowercase text)) =
        outline (fun t => !decide (Ordinary lowercase t)) (splitWhitespace text) := by
  refine ⟨?_, filter_applyItn lowercase text, outline_applyItn lowercase text⟩
  have hnone : ∀ t ∈ itnTokens lowercase text, numberWord lowercase t = none := by
    intro t ht
    rcases of_mem_itnTokens ht with h | ⟨_, h⟩
    · exact numberWord_of_isDigitToken hdigits h
    · exact h
  have hsecond : wordsToNumbers lowercase (itnTokens lowercase text) = itnTokens lowercase text :=
    wordsToNumbersFrom_none hnone {}
  show joinSpaces (mergeDigitGroups (wordsToNumbers lowercase
    (splitWhitespace (applyItn lowercase text)))) = _
  rw [splitWhitespace_applyItn, hsecond, itnTokens, mergeDigitGroups_idem]
  rfl

theorem russianLowercase_of_isDigitToken (h : isDigitToken token = true) :
    russianLowercase token = token := by
  have hchar : ∀ c ∈ token, CharTables.russian.toLowercase c = [c] := by
    intro c hc
    have hdigit := (isDigitToken_iff.mp h).2 c hc
    simp only [Char.isDigit, Bool.and_eq_true, decide_eq_true_eq] at hdigit
    have hlatin : c.val < 'A'.val := UInt32.lt_of_le_of_lt hdigit.2 (by decide : '9'.val < 'A'.val)
    have hcyrillic : ¬ 'А' ≤ c :=
      UInt32.not_le.mpr (UInt32.lt_trans hlatin (by decide : 'A'.val < 'А'.val))
    have hyo : c ≠ 'Ё' := by
      rintro rfl
      exact absurd hdigit.2 (by decide)
    have hlower : c.toLower = c := dif_neg fun h => absurd h.1 (UInt32.not_le.mpr hlatin)
    simp only [CharTables.russian, hcyrillic, decide_false, Bool.false_and, Bool.false_eq_true, if_false,
      hyo, hlower]
  calc token.flatMap CharTables.russian.toLowercase = token.flatMap fun c => [c] :=
        List.flatMap_congr hchar
    _ = token := List.flatMap_singleton' token

theorem applyItn_room : applyItn russianLowercase (applyItn russianLowercase "комната сто Пять 7".toList) =
    applyItn russianLowercase "комната сто Пять 7".toList :=
  (applyItn_conservative (fun _ h => russianLowercase_of_isDigitToken h) _).1

end Conservative

section Fold

variable {lowercase : Text → Text} {text token : Text} {tokens group : List Text}

def yeOfYo (c : Char) : Char := if c = 'ё' then 'е' else if c = 'Ё' then 'Е' else c

/-- Every `ё` is written `е`. -/
def foldYo (text : Text) : Text := text.map yeOfYo

/-- The one form with `ё` whose folded form is not in the table. -/
def fourHundredYo : Text := ['ч', 'е', 'т', 'ы', 'р', 'ё', 'х', 'с', 'о', 'т']

/-- The folded forms have the values of their forms, but for that one, which has none. -/
theorem folded_forms :
    (∀ e ∈ numberWords.filter fun e => foldYo e.1 ≠ e.1, e.1 ≠ fourHundredYo →
      lookup (foldYo e.1) = lookup e.1) ∧
    lookup fourHundredYo = some (400, 100) ∧ lookup (foldYo fourHundredYo) = none ∧
      isDigitToken (foldYo fourHundredYo) = false := by
  decide +kernel

theorem lookup_foldYo_of_mem {e : Text × ℕ × ℕ} (he : e ∈ numberWords) (hform : e.1 ≠ fourHundredYo) :
    lookup (foldYo e.1) = lookup e.1 := by
  by_cases hsame : foldYo e.1 = e.1
  · rw [hsame]
  · exact folded_forms.1 e (List.mem_filter.mpr ⟨he, decide_eq_true hsame⟩) hform

theorem isWhitespace_yeOfYo (c : Char) : isWhitespace (yeOfYo c) = isWhitespace c := by
  unfold yeOfYo
  split_ifs with hlower hupper
  · rw [hlower]
    decide
  · rw [hupper]
    decide
  · rfl

theorem isDigit_yeOfYo (c : Char) : (yeOfYo c).isDigit = c.isDigit := by
  unfold yeOfYo
  split_ifs with hlower hupper
  · rw [hlower]
    decide
  · rw [hupper]
    decide
  · rfl

theorem yeOfYo_of_isDigit {c : Char} (h : c.isDigit = true) : yeOfYo c = c := by
  have hlower : c ≠ 'ё' := by
    rintro rfl
    exact absurd h (by decide)
  have hupper : c ≠ 'Ё' := by
    rintro rfl
    exact absurd h (by decide)
  rw [yeOfYo, if_neg hlower, if_neg hupper]

theorem isDigitToken_foldYo (token : Text) : isDigitToken (foldYo token) = isDigitToken token := by
  have hsame : Char.isDigit ∘ yeOfYo = Char.isDigit := funext isDigit_yeOfYo
  rw [isDigitToken, isDigitToken, foldYo, List.isEmpty_map, List.all_map, hsame]

theorem foldYo_of_isDigitToken (h : isDigitToken token = true) : foldYo token = token := by
  have hchar : ∀ c ∈ token, yeOfYo c = c := fun c hc =>
    yeOfYo_of_isDigit ((isDigitToken_iff.mp h).2 c hc)
  calc token.map yeOfYo = token.map id := List.map_congr_left hchar
    _ = token := List.map_id token

theorem closeGroup_foldYo (group : List Text) :
    closeGroup (group.map foldYo) = (closeGroup group).map foldYo := by
  have hlength : ∀ t : Text, (foldYo t).length = t.length := fun t => List.length_map yeOfYo
  have hflatten : (group.map foldYo).flatten = foldYo group.flatten := by
    rw [foldYo, List.map_flatten]
    rfl
  unfold closeGroup
  simp only [List.isEmpty_map, List.all_map, Function.comp_def, hlength, hflatten]
  split_ifs <;> rfl

theorem mergeFrom_foldYo (group tokens : List Text) :
    mergeFrom (group.map foldYo) (tokens.map foldYo) = (mergeFrom group tokens).map foldYo := by
  induction tokens generalizing group with
  | nil => exact closeGroup_foldYo group
  | cons t tokens ih =>
      have hnil := ih []
      have hnext := ih (group ++ [t])
      rw [List.map_nil] at hnil
      rw [List.map_append, List.map_singleton] at hnext
      rw [List.map_cons, mergeFrom, mergeFrom, isDigitToken_foldYo, hnext, hnil, closeGroup_foldYo]
      split_ifs
      · rfl
      · rw [List.map_append, List.map_cons]

/-- The parser sees no difference where the tokens are the same number words with and without `ё`. -/
theorem wordsToNumbersFrom_foldYo
    (h : ∀ t ∈ tokens, numberWord lowercase (foldYo t) = numberWord lowercase t) (s : Parser) :
    wordsToNumbersFrom lowercase s (tokens.map foldYo) =
      (wordsToNumbersFrom lowercase s tokens).map foldYo := by
  have hnumeral : ∀ n, foldYo (numeral n) = numeral n := fun n =>
    foldYo_of_isDigitToken (isDigitToken_numeral n)
  have hflush : ∀ s : Parser, s.flush.map foldYo = s.flush := by
    intro s
    unfold Parser.flush
    split_ifs
    · rw [List.map_singleton, hnumeral]
    · rfl
  have hnext : ∀ (s : Parser) value scale, (s.next value scale).1.map foldYo = (s.next value scale).1 := by
    intro s value scale
    rcases s.next_fst value scale with heq | heq
    · rw [heq, List.map_nil]
    · rw [heq, List.map_singleton, hnumeral]
  induction tokens generalizing s with
  | nil => exact (hflush s).symm
  | cons t tokens ih =>
      have ih := ih fun t' ht' => h t' (List.mem_cons_of_mem t ht')
      rw [List.map_cons, wordsToNumbersFrom, wordsToNumbersFrom, h t List.mem_cons_self]
      cases numberWord lowercase t with
      | some found =>
          dsimp only
          rw [ih, List.map_append, hnext]
      | none =>
          dsimp only
          rw [ih, List.map_append, hflush, List.map_cons]

theorem splitWhitespace_foldYo (text : Text) :
    splitWhitespace (foldYo text) = (splitWhitespace text).map foldYo :=
  splitWhitespace_map isWhitespace_yeOfYo text

theorem applyItn_foldYo
    (h : ∀ t ∈ splitWhitespace text, numberWord lowercase (foldYo t) = numberWord lowercase t) :
    applyItn lowercase (foldYo text) = foldYo (applyItn lowercase text) := by
  have hmerge := mergeFrom_foldYo [] (wordsToNumbers lowercase (splitWhitespace text))
  rw [List.map_nil] at hmerge
  rw [applyItn, splitWhitespace_foldYo, wordsToNumbers, wordsToNumbersFrom_foldYo h, mergeDigitGroups,
    ← wordsToNumbers, hmerge]
  exact joinSpaces_map (by decide) _

/-- Where folding commutes with the pass, it commutes with leaving out all numbers. -/
theorem filter_foldYo (h : applyItn lowercase (foldYo text) = foldYo (applyItn lowercase text)) :
    (splitWhitespace text).filter (fun t => decide (Ordinary lowercase (foldYo t))) =
        (splitWhitespace text).filter (fun t => decide (Ordinary lowercase t)) ∧
      ∀ t ∈ splitWhitespace text, Ordinary lowercase t → Ordinary lowercase (foldYo t) := by
  have hfilter : ((splitWhitespace text).filter fun t => decide (Ordinary lowercase (foldYo t))).map
      foldYo = ((splitWhitespace text).filter fun t => decide (Ordinary lowercase t)).map foldYo := by
    have hdigit : (fun t => !isDigitToken t) ∘ foldYo = fun t => !isDigitToken t :=
      funext fun t => congrArg not (isDigitToken_foldYo t)
    calc ((splitWhitespace text).filter fun t => decide (Ordinary lowercase (foldYo t))).map foldYo
        = (splitWhitespace (foldYo text)).filter fun t => decide (Ordinary lowercase t) := by
          rw [splitWhitespace_foldYo, List.filter_map]
          rfl
      _ = (splitWhitespace (foldYo (applyItn lowercase text))).filter fun t => !isDigitToken t := by
          rw [← h, filter_applyItn]
      _ = ((splitWhitespace text).filter fun t => decide (Ordinary lowercase t)).map foldYo := by
          rw [splitWhitespace_foldYo, List.filter_map, hdigit, filter_applyItn]
  have hkept : ∀ t ∈ splitWhitespace text, Ordinary lowercase t → Ordinary lowercase (foldYo t) := by
    intro t ht hord
    have hmem : foldYo t ∈ ((splitWhitespace text).filter fun t => decide (Ordinary lowercase t)).map
        foldYo := List.mem_map_of_mem (List.mem_filter.mpr ⟨ht, decide_eq_true hord⟩)
    rw [← hfilter] at hmem
    obtain ⟨u, hu, heq⟩ := List.mem_map.mp hmem
    rw [← heq]
    exact of_decide_eq_true (List.mem_filter.mp hu).2
  refine ⟨?_, hkept⟩
  have hsub : ((splitWhitespace text).filter fun t => decide (Ordinary lowercase t)).Sublist
      ((splitWhitespace text).filter fun t => decide (Ordinary lowercase (foldYo t))) := by
    have hboth : (splitWhitespace text).filter (fun t => decide (Ordinary lowercase t)) =
        (splitWhitespace text).filter fun t =>
          decide (Ordinary lowercase t) && decide (Ordinary lowercase (foldYo t)) := by
      apply List.filter_congr
      intro t ht
      by_cases hord : Ordinary lowercase t
      · simp [hord, hkept t ht hord]
      · simp [hord]
    rw [hboth, ← List.filter_filter]
    exact List.filter_sublist
  have hlength := congrArg List.length hfilter
  rw [List.length_map, List.length_map] at hlength
  exact (hsub.eq_of_length hlength.symm).symm

variable (hcase : ∀ t, lowercase (foldYo t) = foldYo (lowercase t))

include hcase

/-- Every form of the table but one has the same values with and without `ё`. -/
theorem numberWord_foldYo (hform : lowercase token ≠ fourHundredYo)
    (hnone : numberWord lowercase token = none → numberWord lowercase (foldYo token) = none) :
    numberWord lowercase (foldYo token) = numberWord lowercase token := by
  cases h : numberWord lowercase token with
  | none => exact hnone h
  | some found =>
      have hsame := lookup_foldYo_of_mem (mem_of_lookup h) hform
      rw [numberWord, hcase, hsame]
      exact h

/-- Folding `ё` before or after the pass is the same if and only if no token is the form that the table
lacks without `ё`, and none becomes a number word by folding. -/
theorem foldYo_iff (text : Text) :
    applyItn lowercase (foldYo text) = foldYo (applyItn lowercase text) ↔
      ∀ t ∈ splitWhitespace text, lowercase t ≠ fourHundredYo ∧
        (numberWord lowercase t = none → numberWord lowercase (foldYo t) = none) := by
  constructor
  · intro h t ht
    obtain ⟨hsame, hkept⟩ := filter_foldYo h
    obtain ⟨hfound, hlost, hnodigits⟩ := folded_forms.2
    constructor
    · intro hform
      have hfolded : lowercase (foldYo t) = foldYo fourHundredYo := by rw [hcase, hform]
      have hdigit : isDigitToken t = false := by
        rw [Bool.eq_false_iff]
        intro hdigits
        rw [foldYo_of_isDigitToken hdigits, hform] at hfolded
        exact absurd hfolded (by decide)
      have hord : Ordinary lowercase (foldYo t) := by
        refine ⟨?_, (isDigitToken_foldYo t).trans hdigit⟩
        rw [numberWord, hfolded, hlost]
      have hmem : t ∈ (splitWhitespace text).filter fun t => decide (Ordinary lowercase (foldYo t)) :=
        List.mem_filter.mpr ⟨ht, decide_eq_true hord⟩
      rw [hsame] at hmem
      have hnone := (of_decide_eq_true (List.mem_filter.mp hmem).2).1
      rw [numberWord, hform, hfound] at hnone
      cases hnone
    · intro hnone
      cases hdigits : isDigitToken t with
      | true => rwa [foldYo_of_isDigitToken hdigits]
      | false => exact (hkept t ht ⟨hnone, hdigits⟩).1
  · intro h
    exact applyItn_foldYo fun t ht => numberWord_foldYo hcase (h t ht).1 (h t ht).2

omit hcase

/-- A letter in lower case is no `ё`, unless it was one. -/
theorem yeOfYo_lower :
    (∀ n < 32, yeOfYo (Char.ofNat ('А'.toNat + n + 32)) = Char.ofNat ('А'.toNat + n + 32)) ∧
      ∀ n < 26, yeOfYo (Char.ofNat ('A'.toNat + n)).toLower = (Char.ofNat ('A'.toNat + n)).toLower := by
  decide +kernel

theorem yeOfYo_toLower {c : Char} (hc : yeOfYo c = c) : yeOfYo c.toLower = c.toLower := by
  by_cases hlatin : c.val ≥ 'A'.val ∧ c.val ≤ 'Z'.val
  · have hlow : 'A'.toNat ≤ c.toNat := UInt32.le_iff_toNat_le.mp hlatin.1
    have hhigh : c.toNat ≤ 'A'.toNat + 25 := UInt32.le_iff_toNat_le.mp hlatin.2
    have hletter := yeOfYo_lower.2 (c.toNat - 'A'.toNat) (by omega)
    rwa [Nat.add_sub_cancel' hlow, Char.ofNat_toNat] at hletter
  · have hsame : c.toLower = c := dif_neg hlatin
    rw [hsame, hc]

theorem russianLowercase_foldYo (text : Text) :
    russianLowercase (foldYo text) = foldYo (russianLowercase text) := by
  have hchar : ∀ c, CharTables.russian.toLowercase (yeOfYo c) =
      (CharTables.russian.toLowercase c).map yeOfYo := by
    intro c
    by_cases hyo : c = 'ё'
    · subst hyo
      decide
    by_cases hYo : c = 'Ё'
    · subst hYo
      decide
    have hkept : yeOfYo c = c := by rw [yeOfYo, if_neg hyo, if_neg hYo]
    rw [hkept]
    by_cases hcyrillic : 'А' ≤ c ∧ c ≤ 'Я'
    · have hlow : 'А'.toNat ≤ c.toNat := UInt32.le_iff_toNat_le.mp hcyrillic.1
      have hhigh : c.toNat ≤ 'А'.toNat + 31 := UInt32.le_iff_toNat_le.mp hcyrillic.2
      have hletter := yeOfYo_lower.1 (c.toNat - 'А'.toNat) (by omega)
      rw [Nat.add_sub_cancel' hlow] at hletter
      simp [CharTables.russian, hcyrillic, hletter]
    · have hlower : CharTables.russian.toLowercase c = [c.toLower] := by
        have hnot : ¬('А' ≤ c && c ≤ 'Я') = true := by
          rwa [Bool.and_eq_true, decide_eq_true_eq, decide_eq_true_eq]
        simp only [CharTables.russian, if_neg hnot, if_neg hYo]
      rw [hlower, List.map_singleton, yeOfYo_toLower hkept]
  rw [russianLowercase, russianLowercase, foldYo, foldYo, List.flatMap_map, List.map_flatMap]
  exact List.flatMap_congr fun c _ => hchar c

theorem foldYo_three_hundred : applyItn russianLowercase (foldYo "от Трёхсот рублей".toList) =
    foldYo (applyItn russianLowercase "от Трёхсот рублей".toList) :=
  (foldYo_iff russianLowercase_foldYo _).mpr (by decide +kernel)

theorem foldYo_four_hundred : applyItn russianLowercase (foldYo fourHundredYo) ≠
    foldYo (applyItn russianLowercase fourHundredYo) := by decide +kernel

end Fold

end Gigastt.Itn
