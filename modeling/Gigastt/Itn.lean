import Gigastt.Splitting
import Gigastt.Words
import Mathlib.Data.Nat.Digits.Defs

/-!
Number words written as digits. The words of a number are added up until one no longer fits below the
one before; numerals of up to three digits that then stand side by side are joined.
-/

namespace Gigastt

open Splitting

def spaceKind (c : Char) : Kind := if isWhitespace c then .gap else .part

/-- `split_whitespace()`. -/
def splitWhitespace (text : Text) : List Text := split spaceKind text

/-- `join(" ")`. -/
def joinSpaces (tokens : List Text) : Text := [' '].intercalate tokens

/-- Some characters, none of them white space. -/
def IsToken (token : Text) : Prop := token ≠ [] ∧ ∀ c ∈ token, isWhitespace c = false

section Tokens

variable {text token : Text} {tokens : List Text}

@[simp]
theorem spaceKind_eq_part {c : Char} : spaceKind c = .part ↔ isWhitespace c = false := by
  simp [spaceKind]

@[simp]
theorem spaceKind_ne_alone (c : Char) : spaceKind c ≠ .alone := by
  unfold spaceKind
  split_ifs <;> simp

theorem isToken_of_mem (h : token ∈ splitWhitespace text) : IsToken token := by
  rcases of_mem_split h with ⟨c, _, halone⟩ | ⟨hne, hparts⟩
  · exact absurd halone (spaceKind_ne_alone c)
  · exact ⟨hne, fun c hc => spaceKind_eq_part.mp (hparts c hc)⟩

theorem splitWhitespace_joinSpaces (h : ∀ token ∈ tokens, IsToken token) :
    splitWhitespace (joinSpaces tokens) = tokens := by
  apply split_intercalate (by decide)
  intro token htoken
  obtain ⟨hne, hspace⟩ := h token htoken
  exact ⟨hne, fun c hc => spaceKind_eq_part.mpr (hspace c hc)⟩

theorem joinSpaces_inj {tokens' : List Text} (h : ∀ token ∈ tokens, IsToken token)
    (h' : ∀ token ∈ tokens', IsToken token) :
    joinSpaces tokens = joinSpaces tokens' ↔ tokens = tokens' := by
  refine ⟨fun heq => ?_, fun heq => heq ▸ rfl⟩
  rw [← splitWhitespace_joinSpaces h, heq, splitWhitespace_joinSpaces h']

/-- Characters may be replaced where white space stays white space and nothing else becomes it. -/
theorem splitWhitespace_map {g : Char → Char} (hg : ∀ c, isWhitespace (g c) = isWhitespace c)
    (text : Text) : splitWhitespace (text.map g) = (splitWhitespace text).map (·.map g) := by
  apply split_map
  intro c
  rw [spaceKind, spaceKind, hg]

theorem joinSpaces_map {g : Char → Char} (hg : g ' ' = ' ') (tokens : List Text) :
    joinSpaces (tokens.map (·.map g)) = (joinSpaces tokens).map g := by
  unfold joinSpaces
  induction tokens with
  | nil => rfl
  | cons token tokens ih =>
      cases tokens with
      | nil => simp only [List.map_cons, List.map_nil, List.intercalate_singleton]
      | cons next tokens =>
          rw [List.map_cons] at ih
          rw [List.map_cons, List.map_cons, List.intercalate_cons_cons, ih,
            List.intercalate_cons_cons, List.map_append, List.map_append, List.map_singleton, hg]

end Tokens

namespace Itn

def unit : ℕ := 1
def teen : ℕ := 10
def ten : ℕ := 10
def hundred : ℕ := 100
def thousand : ℕ := 1000
def million : ℕ := 1000000

/-- The forms of each number word, with its value and scale. -/
def forms : List (ℕ × ℕ × List Text) := [
  (0, unit, [['н', 'о', 'л', 'ь'], ['н', 'о', 'л', 'я'], ['н', 'о', 'л', 'ю'],
    ['н', 'о', 'л', 'е', 'м'], ['н', 'о', 'л', 'ё', 'м'], ['н', 'о', 'л', 'е']]),
  (1, unit, [['о', 'д', 'и', 'н'], ['о', 'д', 'н', 'а'], ['о', 'д', 'н', 'о'],
    ['о', 'д', 'н', 'о', 'г', 'о'], ['о', 'д', 'н', 'о', 'й'], ['о', 'д', 'н', 'о', 'м', 'у'],
    ['о', 'д', 'н', 'о', 'м'], ['о', 'д', 'н', 'и', 'м']]),
  (2, unit, [['д', 'в', 'а'], ['д', 'в', 'е'], ['д', 'в', 'у', 'х'], ['д', 'в', 'у', 'м'],
    ['д', 'в', 'у', 'м', 'я']]),
  (3, unit, [['т', 'р', 'и'], ['т', 'р', 'е', 'х'], ['т', 'р', 'ё', 'х'], ['т', 'р', 'е', 'м'],
    ['т', 'р', 'ё', 'м'], ['т', 'р', 'е', 'м', 'я']]),
  (4, unit, [['ч', 'е', 'т', 'ы', 'р', 'е'], ['ч', 'е', 'т', 'ы', 'р', 'ё', 'х'],
    ['ч', 'е', 'т', 'ы', 'р', 'е', 'х'], ['ч', 'е', 'т', 'ы', 'р', 'ё', 'м'],
    ['ч', 'е', 'т', 'ы', 'р', 'е', 'м'], ['ч', 'е', 'т', 'ы', 'р', 'ь', 'м', 'я']]),
  (5, unit, [['п', 'я', 'т', 'ь'], ['п', 'я', 'т', 'и'], ['п', 'я', 'т', 'ь', 'ю']]),
  (6, unit, [['ш', 'е', 'с', 'т', 'ь'], ['ш', 'е', 'с', 'т', 'и'], ['ш', 'е', 'с', 'т', 'ь', 'ю']]),
  (7, unit, [['с', 'е', 'м', 'ь'], ['с', 'е', 'м', 'и'], ['с', 'е', 'м', 'ь', 'ю']]),
  (8, unit, [['в', 'о', 'с', 'е', 'м', 'ь'], ['в', 'о', 'с', 'ь', 'м', 'и'],
    ['в', 'о', 'с', 'ь', 'м', 'ь', 'ю']]),
  (9, unit, [['д', 'е', 'в', 'я', 'т', 'ь'], ['д', 'е', 'в', 'я', 'т', 'и'],
    ['д', 'е', 'в', 'я', 'т', 'ь', 'ю']]),
  (10, teen, [['д', 'е', 'с', 'я', 'т', 'ь'], ['д', 'е', 'с', 'я', 'т', 'и'],
    ['д', 'е', 'с', 'я', 'т', 'ь', 'ю']]),
  (11, teen, [['о', 'д', 'и', 'н', 'н', 'а', 'д', 'ц', 'а', 'т', 'ь'],
    ['о', 'д', 'и', 'н', 'н', 'а', 'д', 'ц', 'а', 'т', 'и']]),
  (12, teen, [['д', 'в', 'е', 'н', 'а', 'д', 'ц', 'а', 'т', 'ь'],
    ['д', 'в', 'е', 'н', 'а', 'д', 'ц', 'а', 'т', 'и']]),
  (13, teen, [['т', 'р', 'и', 'н', 'а', 'д', 'ц', 'а', 'т', 'ь'],
    ['т', 'р', 'и', 'н', 'а', 'д', 'ц', 'а', 'т', 'и']]),
  (14, teen, [['ч', 'е', 'т', 'ы', 'р', 'н', 'а', 'д', 'ц', 'а', 'т', 'ь'],
    ['ч', 'е', 'т', 'ы', 'р', 'н', 'а', 'д', 'ц', 'а', 'т', 'и']]),
  (15, teen, [['п', 'я', 'т', 'н', 'а', 'д', 'ц', 'а', 'т', 'ь'],
    ['п', 'я', 'т', 'н', 'а', 'д', 'ц', 'а', 'т', 'и']]),
  (16, teen, [['ш', 'е', 'с', 'т', 'н', 'а', 'д', 'ц', 'а', 'т', 'ь'],
    ['ш', 'е', 'с', 'т', 'н', 'а', 'д', 'ц', 'а', 'т', 'и']]),
  (17, teen, [['с', 'е', 'м', 'н', 'а', 'д', 'ц', 'а', 'т', 'ь'],
    ['с', 'е', 'м', 'н', 'а', 'д', 'ц', 'а', 'т', 'и']]),
  (18, teen, [['в', 'о', 'с', 'е', 'м', 'н', 'а', 'д', 'ц', 'а', 'т', 'ь'],
    ['в', 'о', 'с', 'е', 'м', 'н', 'а', 'д', 'ц', 'а', 'т', 'и']]),
  (19, teen, [['д', 'е', 'в', 'я', 'т', 'н', 'а', 'д', 'ц', 'а', 'т', 'ь'],
    ['д', 'е', 'в', 'я', 'т', 'н', 'а', 'д', 'ц', 'а', 'т', 'и']]),
  (20, ten, [['д', 'в', 'а', 'д', 'ц', 'а', 'т', 'ь'], ['д', 'в', 'а', 'д', 'ц', 'а', 'т', 'и']]),
  (30, ten, [['т', 'р', 'и', 'д', 'ц', 'а', 'т', 'ь'], ['т', 'р', 'и', 'д', 'ц', 'а', 'т', 'и']]),
  (40, ten, [['с', 'о', 'р', 'о', 'к'], ['с', 'о', 'р', 'о', 'к', 'а']]),
  (50, ten, [['п', 'я', 'т', 'ь', 'д', 'е', 'с', 'я', 'т'],
    ['п', 'я', 'т', 'и', 'д', 'е', 'с', 'я', 'т', 'и']]),
  (60, ten, [['ш', 'е', 'с', 'т', 'ь', 'д', 'е', 'с', 'я', 'т'],
    ['ш', 'е', 'с', 'т', 'и', 'д', 'е', 'с', 'я', 'т', 'и']]),
  (70, ten, [['с', 'е', 'м', 'ь', 'д', 'е', 'с', 'я', 'т'],
    ['с', 'е', 'м', 'и', 'д', 'е', 'с', 'я', 'т', 'и']]),
  (80, ten, [['в', 'о', 'с', 'е', 'м', 'ь', 'д', 'е', 'с', 'я', 'т'],
    ['в', 'о', 'с', 'ь', 'м', 'и', 'д', 'е', 'с', 'я', 'т', 'и']]),
  (90, ten, [['д', 'е', 'в', 'я', 'н', 'о', 'с', 'т', 'о'],
    ['д', 'е', 'в', 'я', 'н', 'о', 'с', 'т', 'а']]),
  (100, hundred, [['с', 'т', 'о'], ['с', 'т', 'а']]),
  (200, hundred, [['д', 'в', 'е', 'с', 'т', 'и'], ['д', 'в', 'у', 'х', 'с', 'о', 'т']]),
  (300, hundred, [['т', 'р', 'и', 'с', 'т', 'а'], ['т', 'р', 'е', 'х', 'с', 'о', 'т'],
    ['т', 'р', 'ё', 'х', 'с', 'о', 'т']]),
  (400, hundred, [['ч', 'е', 'т', 'ы', 'р', 'е', 'с', 'т', 'а'],
    ['ч', 'е', 'т', 'ы', 'р', 'ё', 'х', 'с', 'о', 'т']]),
  (500, hundred, [['п', 'я', 'т', 'ь', 'с', 'о', 'т'], ['п', 'я', 'т', 'и', 'с', 'о', 'т']]),
  (600, hundred, [['ш', 'е', 'с', 'т', 'ь', 'с', 'о', 'т'],
    ['ш', 'е', 'с', 'т', 'и', 'с', 'о', 'т']]),
  (700, hundred, [['с', 'е', 'м', 'ь', 'с', 'о', 'т'], ['с', 'е', 'м', 'и', 'с', 'о', 'т']]),
  (800, hundred, [['в', 'о', 'с', 'е', 'м', 'ь', 'с', 'о', 'т'],
    ['в', 'о', 'с', 'ь', 'м', 'и', 'с', 'о', 'т']]),
  (900, hundred, [['д', 'е', 'в', 'я', 'т', 'ь', 'с', 'о', 'т'],
    ['д', 'е', 'в', 'я', 'т', 'и', 'с', 'о', 'т']]),
  (1000, thousand, [['т', 'ы', 'с', 'я', 'ч', 'а'], ['т', 'ы', 'с', 'я', 'ч', 'и'],
    ['т', 'ы', 'с', 'я', 'ч'], ['т', 'ы', 'с', 'я', 'ч', 'е'], ['т', 'ы', 'с', 'я', 'ч', 'у'],
    ['т', 'ы', 'с', 'я', 'ч', 'е', 'й'], ['т', 'ы', 'с', 'я', 'ч', 'а', 'м'],
    ['т', 'ы', 'с', 'я', 'ч', 'а', 'м', 'и'], ['т', 'ы', 'с', 'я', 'ч', 'а', 'х']]),
  (1000000, million, [['м', 'и', 'л', 'л', 'и', 'о', 'н'],
    ['м', 'и', 'л', 'л', 'и', 'о', 'н', 'а'], ['м', 'и', 'л', 'л', 'и', 'о', 'н', 'о', 'в'],
    ['м', 'и', 'л', 'л', 'и', 'о', 'н', 'у'], ['м', 'и', 'л', 'л', 'и', 'о', 'н', 'е'],
    ['м', 'и', 'л', 'л', 'и', 'о', 'н', 'а', 'м'],
    ['м', 'и', 'л', 'л', 'и', 'о', 'н', 'а', 'м', 'и'],
    ['м', 'и', 'л', 'л', 'и', 'о', 'н', 'а', 'х']])]

/-- The table by word, in the order of insertion. -/
def numberWords : List (Text × ℕ × ℕ) :=
  forms.flatMap fun row => row.2.2.map fun form => (form, row.1, row.2.1)

/-- The value and the scale of a number word. A word inserted twice would have the later ones. -/
def lookup (key : Text) : Option (ℕ × ℕ) := numberWords.reverse.lookup key

/-- The number under way: its last group, what the groups before come to, and the scale of its last
word. -/
structure Parser where
  current : ℕ := 0
  runningTotal : ℕ := 0
  prevScale : ℕ := 0
  inNumber : Bool := false
  deriving DecidableEq, Repr

/-- `to_string()`. -/
def numeral (n : ℕ) : Text := Nat.toDigits 10 n

namespace Parser

variable (s : Parser)

def flush : List Text := if s.inNumber then [numeral (s.runningTotal + s.current)] else []

/-- The numeral that a number word puts out, and the number from then on. -/
def next (value scale : ℕ) : List Text × Parser :=
  if scale = thousand ∨ scale = million then
    let current := if s.current = 0 then 1 else s.current
    ([], { current := 0, runningTotal := s.runningTotal + current * scale, prevScale := scale
           inNumber := true })
  else if 0 < s.current ∧ s.prevScale ≤ scale then
    ([numeral (s.runningTotal + s.current)],
      { current := value, runningTotal := 0, prevScale := scale, inNumber := true })
  else ([], { s with current := s.current + value, prevScale := scale, inNumber := true })

/-- A number word puts out what there is so far, or nothing. -/
theorem next_fst (value scale : ℕ) :
    (s.next value scale).1 = [] ∨
      (s.next value scale).1 = [numeral (s.runningTotal + s.current)] := by
  by_cases hscale : scale = thousand ∨ scale = million
  · rw [next, if_pos hscale]
    exact Or.inl rfl
  by_cases hfull : 0 < s.current ∧ s.prevScale ≤ scale
  · rw [next, if_neg hscale, if_pos hfull]
    exact Or.inr rfl
  · rw [next, if_neg hscale, if_neg hfull]
    exact Or.inl rfl

end Parser

section Convert

-- `to_lowercase()` of the standard library
variable (lowercase : Text → Text)

def numberWord (token : Text) : Option (ℕ × ℕ) := lookup (lowercase token)

def wordsToNumbersFrom (s : Parser) : List Text → List Text
  | [] => s.flush
  | token :: tokens =>
      match numberWord lowercase token with
      | some (value, scale) =>
          (s.next value scale).1 ++ wordsToNumbersFrom (s.next value scale).2 tokens
      | none => s.flush ++ token :: wordsToNumbersFrom {} tokens

def wordsToNumbers (tokens : List Text) : List Text := wordsToNumbersFrom lowercase {} tokens

/-- `to_lowercase()` on Russian and English text. -/
def russianLowercase (text : Text) : Text := text.flatMap CharTables.russian.toLowercase

def isDigitToken (s : Text) : Bool := !s.isEmpty && s.all Char.isDigit

/-- A run of digit tokens, joined if they are all short. -/
def closeGroup (group : List Text) : List Text :=
  if !group.isEmpty && group.all (fun t => decide (t.length ≤ 3)) then [group.flatten] else group

/-- The tokens with their runs of digit tokens merged, after the run under way. -/
def mergeFrom : List Text → List Text → List Text
  | group, [] => closeGroup group
  | group, token :: tokens =>
      if isDigitToken token then mergeFrom (group ++ [token]) tokens
      else closeGroup group ++ token :: mergeFrom [] tokens

def mergeDigitGroups (tokens : List Text) : List Text := mergeFrom [] tokens

def applyItn (text : Text) : Text :=
  joinSpaces (mergeDigitGroups (wordsToNumbers lowercase (splitWhitespace text)))

end Convert

section Numerals

theorem isDigitToken_iff {s : Text} :
    isDigitToken s = true ↔ s ≠ [] ∧ ∀ c ∈ s, c.isDigit = true := by
  simp [isDigitToken]

theorem isDigitToken_numeral (n : ℕ) : isDigitToken (numeral n) = true :=
  isDigitToken_iff.mpr ⟨Nat.toDigits_ne_nil, fun _ hc => Nat.isDigit_of_mem_toDigits (by decide) (by decide) hc⟩

theorem isWhitespace_of_isDigit {c : Char} (hc : c.isDigit = true) : isWhitespace c = false := by
  have hlow : 48 ≤ c.toNat ∧ c.toNat ≤ 57 := by
    simp only [Char.isDigit, Bool.and_eq_true, decide_eq_true_eq] at hc
    exact ⟨UInt32.le_iff_toNat_le.mp hc.1, UInt32.le_iff_toNat_le.mp hc.2⟩
  simp [isWhitespace]
  omega

theorem isToken_of_isDigitToken {s : Text} (h : isDigitToken s = true) : IsToken s := by
  obtain ⟨hne, hdigits⟩ := isDigitToken_iff.mp h
  exact ⟨hne, fun c hc => isWhitespace_of_isDigit (hdigits c hc)⟩

end Numerals

section Merge

variable {group tokens pre post rest : List Text} {token : Text}

@[simp]
theorem closeGroup_nil : closeGroup [] = [] := rfl

theorem closeGroup_of_short (hne : group ≠ []) (h : ∀ t ∈ group, t.length ≤ 3) :
    closeGroup group = [group.flatten] := by
  apply if_pos
  simpa [List.all_eq_true] using ⟨hne, h⟩

theorem closeGroup_singleton (token : Text) : closeGroup [token] = [token] := by
  rw [closeGroup, List.flatten_singleton, ite_self]

theorem isDigitToken_flatten (hne : group ≠ []) (h : ∀ t ∈ group, isDigitToken t = true) :
    isDigitToken group.flatten = true := by
  refine isDigitToken_iff.mpr ⟨fun hnil => ?_, fun c hc => ?_⟩
  · obtain ⟨t, rest, rfl⟩ := List.exists_cons_of_ne_nil hne
    exact (isDigitToken_iff.mp (h t List.mem_cons_self)).1
      (List.flatten_eq_nil_iff.mp hnil t List.mem_cons_self)
  · obtain ⟨t, ht, hct⟩ := List.mem_flatten.mp hc
    exact (isDigitToken_iff.mp (h t ht)).2 c hct

/-- A run stays as it is or becomes one token. -/
theorem closeGroup_cases (group : List Text) :
    closeGroup group = group ∨ group ≠ [] ∧ closeGroup group = [group.flatten] := by
  unfold closeGroup
  split_ifs with h
  · simp only [Bool.and_eq_true, Bool.not_eq_true', List.isEmpty_eq_false_iff] at h
    exact Or.inr ⟨h.1, rfl⟩
  · exact Or.inl rfl

theorem isDigitToken_of_mem_closeGroup (h : ∀ t ∈ group, isDigitToken t = true)
    (ht : token ∈ closeGroup group) : isDigitToken token = true := by
  rcases closeGroup_cases group with heq | ⟨hne, heq⟩
  · exact h token (heq ▸ ht)
  · rw [heq, List.mem_singleton] at ht
    exact ht ▸ isDigitToken_flatten hne h

/-- What closing a run puts out stays as it is. -/
theorem closeGroup_closeGroup (group : List Text) : closeGroup (closeGroup group) = closeGroup group := by
  rcases closeGroup_cases group with heq | ⟨_, heq⟩
  · rw [heq, heq]
  · rw [heq, closeGroup_singleton]

theorem mergeFrom_digits (h : ∀ t ∈ tokens, isDigitToken t = true) (group rest : List Text) :
    mergeFrom group (tokens ++ rest) = mergeFrom (group ++ tokens) rest := by
  induction tokens generalizing group with
  | nil => rw [List.nil_append, List.append_nil]
  | cons token tokens ih =>
      rw [List.cons_append, mergeFrom, if_pos (h token List.mem_cons_self),
        ih (fun t ht => h t (List.mem_cons_of_mem token ht)), List.append_assoc]
      rfl

theorem mergeFrom_append_cons (htoken : isDigitToken token = false) (group tokens rest : List Text) :
    mergeFrom group (tokens ++ token :: rest) = mergeFrom group tokens ++ token :: mergeFrom [] rest := by
  induction tokens generalizing group with
  | nil => simp only [List.nil_append, mergeFrom, htoken, Bool.false_eq_true, if_false]
  | cons t tokens ih =>
      rw [List.cons_append, mergeFrom, mergeFrom, ih, ih]
      split_ifs
      · rfl
      · rw [List.append_assoc, List.cons_append]

theorem mergeFrom_words (h : ∀ t ∈ tokens, isDigitToken t = false) (group : List Text) :
    mergeFrom group tokens = closeGroup group ++ tokens := by
  induction tokens generalizing group with
  | nil => rw [mergeFrom, List.append_nil]
  | cons token tokens ih =>
      rw [mergeFrom, h token List.mem_cons_self, if_neg Bool.false_ne_true,
        ih (fun t ht => h t (List.mem_cons_of_mem token ht))]
      rfl

theorem mergeDigitGroups_append (h : ∀ t ∈ pre, isDigitToken t = false) (rest : List Text) :
    mergeDigitGroups (pre ++ rest) = pre ++ mergeDigitGroups rest := by
  induction pre with
  | nil => rfl
  | cons token pre ih =>
      rw [mergeDigitGroups, List.cons_append, mergeFrom, h token List.mem_cons_self,
        if_neg Bool.false_ne_true, ← mergeDigitGroups,
        ih (fun t ht => h t (List.mem_cons_of_mem token ht))]
      rfl

theorem mergeDigitGroups_between (hpre : ∀ t ∈ pre, isDigitToken t = false)
    (htokens : ∀ t ∈ tokens, isDigitToken t = true) (hpost : ∀ t ∈ post, isDigitToken t = false) :
    mergeDigitGroups (pre ++ tokens ++ post) = pre ++ closeGroup tokens ++ post := by
  rw [List.append_assoc, mergeDigitGroups_append hpre, mergeDigitGroups, mergeFrom_digits htokens,
    List.nil_append, mergeFrom_words hpost, List.append_assoc]

/-- Merging puts out the tokens as they are and digit tokens. -/
theorem of_mem_mergeFrom (hgroup : ∀ t ∈ group, isDigitToken t = true)
    (h : token ∈ mergeFrom group tokens) : isDigitToken token = true ∨ token ∈ tokens := by
  induction tokens generalizing group with
  | nil => exact Or.inl (isDigitToken_of_mem_closeGroup hgroup h)
  | cons t tokens ih =>
      rw [mergeFrom] at h
      split_ifs at h with ht
      · refine (ih (fun t' ht' => ?_) h).imp_right (List.mem_cons_of_mem t)
        rcases List.mem_append.mp ht' with ht' | ht'
        · exact hgroup t' ht'
        · rwa [List.mem_singleton.mp ht']
      · rcases List.mem_append.mp h with h | h
        · exact Or.inl (isDigitToken_of_mem_closeGroup hgroup h)
        · rcases List.mem_cons.mp h with rfl | h
          · exact Or.inr List.mem_cons_self
          · exact (ih (fun _ h => absurd h List.not_mem_nil) h).imp_right (List.mem_cons_of_mem t)

end Merge

section Pass

variable {lowercase : Text → Text} {s : Parser} {tokens pre post : List Text} {token : Text}

/-- Neither a number word nor digits. -/
def Ordinary (lowercase : Text → Text) (token : Text) : Prop :=
  numberWord lowercase token = none ∧ isDigitToken token = false

instance (lowercase : Text → Text) (token : Text) : Decidable (Ordinary lowercase token) :=
  inferInstanceAs (Decidable (_ ∧ _))

theorem wordsToNumbersFrom_none (h : ∀ t ∈ tokens, numberWord lowercase t = none) (s : Parser) :
    wordsToNumbersFrom lowercase s tokens = s.flush ++ tokens := by
  induction tokens generalizing s with
  | nil => rw [wordsToNumbersFrom, List.append_nil]
  | cons token tokens ih =>
      rw [wordsToNumbersFrom, h token List.mem_cons_self]
      dsimp only
      rw [ih (fun t ht => h t (List.mem_cons_of_mem token ht))]
      rfl

theorem wordsToNumbers_append (h : ∀ t ∈ pre, numberWord lowercase t = none) (tokens : List Text) :
    wordsToNumbers lowercase (pre ++ tokens) = pre ++ wordsToNumbers lowercase tokens := by
  induction pre with
  | nil => rfl
  | cons token pre ih =>
      rw [wordsToNumbers, List.cons_append, wordsToNumbersFrom, h token List.mem_cons_self]
      dsimp only
      rw [← wordsToNumbers, ih (fun t ht => h t (List.mem_cons_of_mem token ht))]
      rfl

/-- What is put out is a numeral or a token of the input that is no number word. -/
theorem of_mem_wordsToNumbersFrom (h : token ∈ wordsToNumbersFrom lowercase s tokens) :
    isDigitToken token = true ∨ token ∈ tokens ∧ numberWord lowercase token = none := by
  have hflush : ∀ s : Parser, token ∈ s.flush → isDigitToken token = true := by
    intro s h
    unfold Parser.flush at h
    split_ifs at h
    · rw [List.mem_singleton.mp h]
      exact isDigitToken_numeral _
    · exact absurd h List.not_mem_nil
  have hnext : ∀ (s : Parser) value scale, token ∈ (s.next value scale).1 → isDigitToken token = true := by
    intro s value scale h
    rcases s.next_fst value scale with heq | heq
    · exact absurd (heq ▸ h) List.not_mem_nil
    · rw [heq, List.mem_singleton] at h
      exact h ▸ isDigitToken_numeral _
  induction tokens generalizing s with
  | nil => exact Or.inl (hflush s h)
  | cons t tokens ih =>
      rw [wordsToNumbersFrom] at h
      cases ht : numberWord lowercase t with
      | some found =>
          rw [ht] at h
          rcases List.mem_append.mp h with h | h
          · exact Or.inl (hnext s found.1 found.2 h)
          · exact (ih h).imp_right (And.imp_left (List.mem_cons_of_mem t))
      | none =>
          rw [ht] at h
          rcases List.mem_append.mp h with h | h
          · exact Or.inl (hflush s h)
          · rcases List.mem_cons.mp h with rfl | h
            · exact Or.inr ⟨List.mem_cons_self, ht⟩
            · exact (ih h).imp_right (And.imp_left (List.mem_cons_of_mem t))

/-- Between ordinary tokens the numerals of a run of number words stand in its place. -/
theorem applyItn_between {text : Text} {words numerals : List Text}
    (htext : splitWhitespace text = pre ++ words ++ post) (hpre : ∀ t ∈ pre, Ordinary lowercase t)
    (hpost : ∀ t ∈ post, Ordinary lowercase t)
    (hwords : wordsToNumbers lowercase (words ++ post) = numerals ++ post)
    (hnumerals : ∀ t ∈ numerals, isDigitToken t = true) :
    applyItn lowercase text = joinSpaces (pre ++ closeGroup numerals ++ post) := by
  rw [applyItn, htext, List.append_assoc, wordsToNumbers_append fun t ht => (hpre t ht).1, hwords,
    ← List.append_assoc, mergeDigitGroups_between (fun t ht => (hpre t ht).2) hnumerals
      fun t ht => (hpost t ht).2]

end Pass

end Itn

end Gigastt
