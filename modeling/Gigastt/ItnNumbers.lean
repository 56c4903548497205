import Gigastt.Itn

/-!
Numbers spelled out, and digits dictated one by one. A number below a billion becomes its numeral; of
dictated digits a zero is lost unless it is the last.
-/

namespace Gigastt.Itn

section Table

/-- Every form is found with the values it was inserted with, none is made of digits, and each scale has
its values. -/
theorem numberWords_ok : ∀ e ∈ numberWords, lookup e.1 = some e.2 ∧ isDigitToken e.1 = false ∧
    (e.2.2 = unit → e.2.1 ≤ 9) ∧ (e.2.2 = ten → e.2.1 ≤ 90) ∧ (e.2.2 = hundred → e.2.1 ≤ 900) := by
  decide +kernel

theorem mem_of_lookup {key : Text} {v : ℕ × ℕ} (h : lookup key = some v) : (key, v) ∈ numberWords := by
  have hmem := List.lookup_eq_some_iff.mp h
  obtain ⟨before, after, heq, _⟩ := hmem
  rw [← List.mem_reverse, heq]
  exact List.mem_append_right _ List.mem_cons_self

/-- There is a word for every value of a scale. -/
theorem mem_values :
    ((∀ v < 10, (v, unit) ∈ numberWords.map Prod.snd) ∧
      ∀ v < 20, 10 ≤ v → (v, teen) ∈ numberWords.map Prod.snd) ∧
    ((∀ v < 10, 2 ≤ v → (10 * v, ten) ∈ numberWords.map Prod.snd) ∧
      ∀ v < 10, 1 ≤ v → (100 * v, hundred) ∈ numberWords.map Prod.snd) ∧
    (thousand, thousand) ∈ numberWords.map Prod.snd ∧ (million, million) ∈ numberWords.map Prod.snd :=
  ⟨by decide +kernel, by decide +kernel, by decide +kernel⟩

end Table

section Spelling

variable (lowercase : Text → Text)

/-- The token is some form of the number word. -/
def Says (token : Text) (value scale : ℕ) : Prop := numberWord lowercase token = some (value, scale)

instance (token : Text) (value scale : ℕ) : Decidable (Says lowercase token value scale) :=
  inferInstanceAs (Decidable (_ = _))

/-- The units of a group, if it has any. -/
inductive SpellsUnits : ℕ → List Text → Prop
  | none : SpellsUnits 0 []
  | word {n w} : 0 < n → Says lowercase w n unit → SpellsUnits n [w]

/-- Tens and units, or a teen. -/
inductive SpellsTens : ℕ → List Text → Prop
  | units {n ws} : SpellsUnits lowercase n ws → SpellsTens n ws
  | teen {n w} : n < 20 → Says lowercase w n teen → SpellsTens n [w]
  | tens {n u w ws} : 20 ≤ n → Says lowercase w n ten → SpellsUnits lowercase u ws →
      SpellsTens (n + u) (w :: ws)

/-- A group of up to three digits. -/
inductive SpellsGroup : ℕ → List Text → Prop
  | rest {n ws} : SpellsTens lowercase n ws → SpellsGroup n ws
  | hundreds {n r w ws} : Says lowercase w n hundred → SpellsTens lowercase r ws →
      SpellsGroup (n + r) (w :: ws)

/-- A group and its scale word, if it is not 0. A single one may be left unsaid. -/
inductive SpellsScaled (scale : ℕ) : ℕ → List Text → Prop
  | none : SpellsScaled scale 0 []
  | one {w} : Says lowercase w scale scale → SpellsScaled scale scale [w]
  | group {n w ws} : 0 < n → SpellsGroup lowercase n ws → Says lowercase w scale scale →
      SpellsScaled scale (n * scale) (ws ++ [w])

/-- A number below a billion as it is said: zero, or millions, thousands and the rest. -/
inductive Spells : ℕ → List Text → Prop
  | zero {w} : Says lowercase w 0 unit → Spells 0 [w]
  | number {m t r ms ts rs} : SpellsScaled lowercase million m ms →
      SpellsScaled lowercase thousand t ts → SpellsGroup lowercase r rs → 0 < m + t + r →
      Spells (m + t + r) (ms ++ ts ++ rs)

end Spelling

section Bounds

variable {lowercase : Text → Text} {n scale : ℕ} {token : Text} {words : List Text}

theorem Says.mem {value : ℕ} (h : Says lowercase token value scale) :
    (lowercase token, value, scale) ∈ numberWords := mem_of_lookup h

theorem SpellsUnits.le (h : SpellsUnits lowercase n words) : n ≤ 9 := by
  cases h with
  | none => exact Nat.zero_le 9
  | word _ hsaid => exact (numberWords_ok _ hsaid.mem).2.2.1 rfl

theorem SpellsTens.le (h : SpellsTens lowercase n words) : n ≤ 99 := by
  cases h with
  | units hunits =>
      have hle := hunits.le
      omega
  | teen hlt _ => omega
  | tens _ hsaid hunits =>
      have hle := hunits.le
      have htens := (numberWords_ok _ hsaid.mem).2.2.2.1 rfl
      dsimp only at htens
      omega

theorem SpellsGroup.le (h : SpellsGroup lowercase n words) : n ≤ 999 := by
  cases h with
  | rest htens =>
      have hle := htens.le
      omega
  | hundreds hsaid htens =>
      have hle := htens.le
      have hhundreds := (numberWords_ok _ hsaid.mem).2.2.2.2 rfl
      dsimp only at hhundreds
      omega

theorem SpellsScaled.le (h : SpellsScaled lowercase scale n words) : n ≤ 999 * scale := by
  cases h with
  | none => exact Nat.zero_le _
  | one _ => omega
  | group _ hgroup _ => exact Nat.mul_le_mul_right scale hgroup.le

theorem Spells.lt (h : Spells lowercase n words) : n < 1000000000 := by
  cases h with
  | zero _ => exact Nat.zero_lt_succ _
  | number hm ht hr _ =>
      have hmillions := hm.le
      have hthousands := ht.le
      have hrest := hr.le
      rw [million] at hmillions
      rw [thousand] at hthousands
      omega

end Bounds

section Existence

variable {lowercase : Text → Text} (hforms : ∀ e ∈ numberWords, lowercase e.1 = e.1)

include hforms

theorem exists_says {value scale : ℕ} (h : (value, scale) ∈ numberWords.map Prod.snd) :
    ∃ w, Says lowercase w value scale := by
  obtain ⟨e, he, hvalue⟩ := List.mem_map.mp h
  refine ⟨e.1, ?_⟩
  rw [Says, numberWord, hforms e he, (numberWords_ok e he).1, hvalue]

theorem exists_spellsUnits {n : ℕ} (hn : n < 10) : ∃ words, SpellsUnits lowercase n words := by
  rcases Nat.eq_zero_or_pos n with rfl | hpos
  · exact ⟨[], .none⟩
  · obtain ⟨w, hw⟩ := exists_says hforms (mem_values.1.1 n hn)
    exact ⟨[w], .word hpos hw⟩

theorem exists_spellsTens {n : ℕ} (hn : n < 100) : ∃ words, SpellsTens lowercase n words := by
  by_cases hunits : n < 10
  · obtain ⟨ws, hws⟩ := exists_spellsUnits hforms hunits
    exact ⟨ws, .units hws⟩
  by_cases hteen : n < 20
  · obtain ⟨w, hw⟩ := exists_says hforms (mem_values.1.2 n hteen (by omega))
    exact ⟨[w], .teen hteen hw⟩
  · obtain ⟨w, hw⟩ := exists_says hforms (mem_values.2.1.1 (n / 10) (by omega) (by omega))
    obtain ⟨ws, hws⟩ := exists_spellsUnits hforms (Nat.mod_lt n (by decide))
    have hspells := SpellsTens.tens (by omega) hw hws
    rw [Nat.div_add_mod] at hspells
    exact ⟨w :: ws, hspells⟩

theorem exists_spellsGroup {n : ℕ} (hn : n < 1000) : ∃ words, SpellsGroup lowercase n words := by
  by_cases htens : n < 100
  · obtain ⟨ws, hws⟩ := exists_spellsTens hforms htens
    exact ⟨ws, .rest hws⟩
  · obtain ⟨w, hw⟩ := exists_says hforms (mem_values.2.1.2 (n / 100) (by omega) (by omega))
    obtain ⟨ws, hws⟩ := exists_spellsTens hforms (Nat.mod_lt n (by decide : 0 < 100))
    have hspells := SpellsGroup.hundreds hw hws
    rw [Nat.div_add_mod] at hspells
    exact ⟨w :: ws, hspells⟩

theorem exists_spellsScaled {n scale : ℕ} (hn : n < 1000)
    (hscale : (scale, scale) ∈ numberWords.map Prod.snd) :
    ∃ words, SpellsScaled lowercase scale (n * scale) words := by
  rcases Nat.eq_zero_or_pos n with rfl | hpos
  · exact ⟨[], (Nat.zero_mul scale).symm ▸ .none⟩
  · obtain ⟨ws, hws⟩ := exists_spellsGroup hforms hn
    obtain ⟨w, hw⟩ := exists_says hforms hscale
    exact ⟨ws ++ [w], .group hpos hws hw⟩

/-- There is a spelling of every number below a billion. -/
theorem exists_spells {n : ℕ} (hn : n < 1000000000) : ∃ words, Spells lowercase n words := by
  rcases Nat.eq_zero_or_pos n with rfl | hpos
  · obtain ⟨w, hw⟩ := exists_says hforms (mem_values.1.1 0 (by decide))
    exact ⟨[w], .zero hw⟩
  · obtain ⟨hthousand, hmillion⟩ := mem_values.2.2
    obtain ⟨ms, hms⟩ := exists_spellsScaled hforms (show n / 1000000 < 1000 by omega) hmillion
    obtain ⟨ts, hts⟩ := exists_spellsScaled hforms (show n / 1000 % 1000 < 1000 by omega) hthousand
    obtain ⟨rs, hrs⟩ := exists_spellsGroup hforms (show n % 1000 < 1000 by omega)
    have hsum : n / 1000000 * million + n / 1000 % 1000 * thousand + n % 1000 = n := by
      rw [million, thousand]
      omega
    have hspells := Spells.number hms hts hrs (hsum.symm ▸ hpos)
    rw [hsum] at hspells
    exact ⟨ms ++ ts ++ rs, hspells⟩

end Existence

section Reading

variable {lowercase : Text → Text} {s s' s'' : Parser} {n value scale : ℕ} {token text : Text}
  {words words' pre post : List Text}

/-- Reading the words puts out nothing, and takes the parser from one state to the other. -/
def Reads (lowercase : Text → Text) (s : Parser) (words : List Text) (s' : Parser) : Prop :=
  ∀ rest, wordsToNumbersFrom lowercase s (words ++ rest) = wordsToNumbersFrom lowercase s' rest

theorem Reads.nil (s : Parser) : Reads lowercase s [] s := fun _ => rfl

theorem Reads.append (h : Reads lowercase s words s') (h' : Reads lowercase s' words' s'') :
    Reads lowercase s (words ++ words') s'' := by
  intro rest
  rw [List.append_assoc, h, h']

/-- A number word that opens a group, or is of a smaller scale than the one before. -/
theorem reads_added (hsaid : Says lowercase token value scale) (hscale : scale < thousand)
    (hfits : s.current = 0 ∨ scale < s.prevScale) :
    Reads lowercase s [token] ⟨s.current + value, s.runningTotal, scale, true⟩ := by
  intro rest
  have hgroup : ¬(scale = thousand ∨ scale = million) := by
    rw [thousand] at hscale
    rw [thousand, million]
    omega
  have hbelow : ¬(0 < s.current ∧ s.prevScale ≤ scale) := by omega
  rw [List.singleton_append, wordsToNumbersFrom, hsaid]
  dsimp only
  rw [Parser.next, if_neg hgroup, if_neg hbelow]
  rfl

/-- A scale word closes the group; one without a group stands for one. -/
theorem reads_scale (hsaid : Says lowercase token value scale)
    (hscale : scale = thousand ∨ scale = million) :
    Reads lowercase s [token]
      ⟨0, s.runningTotal + (if s.current = 0 then 1 else s.current) * scale, scale, true⟩ := by
  intro rest
  rw [List.singleton_append, wordsToNumbersFrom, hsaid]
  dsimp only
  rw [Parser.next, if_pos hscale]
  rfl

/-- The words add a number to the group under way. -/
def Adds (lowercase : Text → Text) (s : Parser) (words : List Text) (n : ℕ) : Prop :=
  ∃ prevScale inNumber, Reads lowercase s words ⟨s.current + n, s.runningTotal, prevScale, inNumber⟩ ∧
    (0 < n ∨ s.inNumber = true → inNumber = true)

theorem Adds.nil (s : Parser) : Adds lowercase s [] 0 :=
  ⟨s.prevScale, s.inNumber, Reads.nil s, fun h => h.resolve_left (Nat.lt_irrefl 0)⟩

theorem adds_word (hsaid : Says lowercase token value scale) (hscale : scale < thousand)
    (hfits : s.current = 0 ∨ scale < s.prevScale) : Adds lowercase s [token] value :=
  ⟨scale, true, reads_added hsaid hscale hfits, fun _ => rfl⟩

theorem adds_cons (hsaid : Says lowercase token value scale) (hscale : scale < thousand)
    (hfits : s.current = 0 ∨ scale < s.prevScale)
    (h : Adds lowercase ⟨s.current + value, s.runningTotal, scale, true⟩ words n) :
    Adds lowercase s (token :: words) (value + n) := by
  obtain ⟨prevScale, inNumber, hreads, hin⟩ := h
  have hall := (reads_added hsaid hscale hfits).append hreads
  rw [Nat.add_assoc] at hall
  exact ⟨prevScale, inNumber, hall, fun _ => hin (Or.inr rfl)⟩

theorem SpellsUnits.adds (h : SpellsUnits lowercase n words)
    (hfits : s.current = 0 ∨ unit < s.prevScale) : Adds lowercase s words n := by
  cases h with
  | none => exact Adds.nil s
  | word _ hsaid => exact adds_word hsaid (by decide) hfits

theorem SpellsTens.adds (h : SpellsTens lowercase n words)
    (hfits : s.current = 0 ∨ ten < s.prevScale) : Adds lowercase s words n := by
  cases h with
  | units hunits =>
      apply hunits.adds
      exact hfits.imp_right (Nat.lt_trans (by decide))
  | teen _ hsaid => exact adds_word hsaid (by decide) hfits
  | tens _ hsaid hunits =>
      apply adds_cons hsaid (by decide) hfits
      exact hunits.adds (Or.inr (by decide : unit < ten))

theorem SpellsGroup.adds (h : SpellsGroup lowercase n words) (hopen : s.current = 0) :
    Adds lowercase s words n := by
  cases h with
  | rest htens => exact htens.adds (Or.inl hopen)
  | hundreds hsaid htens =>
      apply adds_cons hsaid (by decide) (Or.inl hopen)
      exact htens.adds (Or.inr (by decide : ten < hundred))

/-- A group with its scale word is added to the total. -/
theorem SpellsScaled.reads (h : SpellsScaled lowercase scale n words)
    (hscale : scale = thousand ∨ scale = million) (hopen : s.current = 0) :
    ∃ prevScale inNumber, Reads lowercase s words ⟨0, s.runningTotal + n, prevScale, inNumber⟩ ∧
      (0 < n ∨ s.inNumber = true → inNumber = true) := by
  cases h with
  | none =>
      obtain ⟨prevScale, inNumber, hreads, hin⟩ : Adds lowercase s [] 0 := Adds.nil s
      rw [hopen] at hreads
      exact ⟨prevScale, inNumber, hreads, hin⟩
  | one hsaid =>
      have hreads := reads_scale (s := s) hsaid hscale
      rw [if_pos hopen, Nat.one_mul] at hreads
      exact ⟨_, true, hreads, fun _ => rfl⟩
  | group hpos hgroup hsaid =>
      obtain ⟨prevScale, inNumber, hreads, _⟩ := hgroup.adds hopen
      have hall := hreads.append (reads_scale hsaid hscale)
      dsimp only at hall
      rw [hopen, Nat.zero_add, if_neg hpos.ne'] at hall
      exact ⟨scale, true, hall, fun _ => rfl⟩

/-- The parser holds a number when its spelling has been read. -/
theorem Spells.reads (h : Spells lowercase n words) :
    ∃ s : Parser, Reads lowercase {} words s ∧ s.flush = [numeral n] := by
  cases h with
  | zero hsaid => exact ⟨_, reads_added hsaid (by decide) (Or.inl rfl), rfl⟩
  | number hm ht hr hpos =>
      obtain ⟨pm, bm, hms, hbm⟩ := hm.reads (Or.inr rfl) (rfl : ({} : Parser).current = 0)
      obtain ⟨pt, bt, hts, hbt⟩ := ht.reads (Or.inl rfl) (rfl : (Parser.mk 0 _ pm bm).current = 0)
      obtain ⟨pr, br, hrs, hbr⟩ := hr.adds (rfl : (Parser.mk 0 _ pt bt).current = 0)
      refine ⟨_, (hms.append hts).append hrs, ?_⟩
      have hin : br = true := by
        dsimp only at hbm hbt hbr
        grind
      rw [Parser.flush, if_pos hin]
      dsimp only
      rw [Nat.zero_add, Nat.zero_add]

/-- A number spelled out between ordinary tokens becomes its numeral. -/
theorem spelled_numeral (hspells : Spells lowercase n words)
    (htext : splitWhitespace text = pre ++ words ++ post) (hpre : ∀ t ∈ pre, Ordinary lowercase t)
    (hpost : ∀ t ∈ post, Ordinary lowercase t) :
    applyItn lowercase text = joinSpaces (pre ++ [numeral n] ++ post) := by
  obtain ⟨s, hreads, hflush⟩ := hspells.reads
  have hnumerals : ∀ t ∈ [numeral n], isDigitToken t = true := by
    intro t ht
    rw [List.mem_singleton.mp ht]
    exact isDigitToken_numeral n
  have hwords : wordsToNumbers lowercase (words ++ post) = [numeral n] ++ post := by
    rw [wordsToNumbers, hreads, wordsToNumbersFrom_none fun t ht => (hpost t ht).1, hflush]
  rw [applyItn_between htext hpre hpost hwords hnumerals, closeGroup_singleton]

theorem spelled_2020 : applyItn russianLowercase "в Две тысячи двадцать году".toList =
    "в 2020 году".toList := by
  have hsaid : Says russianLowercase "Две".toList 2 unit ∧
      Says russianLowercase "двадцать".toList 20 ten ∧
        Says russianLowercase "тысячи".toList thousand thousand := by decide +kernel
  obtain ⟨htwo, htwenty, hscale⟩ := hsaid
  have hgroup : SpellsGroup russianLowercase 2 ["Две".toList] :=
    .rest (.units (.word (by decide) htwo))
  have hrest : SpellsGroup russianLowercase (20 + 0) ["двадцать".toList] :=
    .rest (.tens (by decide) htwenty .none)
  have hspells := Spells.number .none (.group (by decide) hgroup hscale) hrest (by decide)
  have htext : splitWhitespace "в Две тысячи двадцать году".toList = ["в".toList] ++
      ([] ++ (["Две".toList] ++ ["тысячи".toList]) ++ ["двадцать".toList]) ++ ["году".toList] := by
    decide +kernel
  have hitn := spelled_numeral hspells htext (by decide +kernel) (by decide +kernel)
  exact hitn.trans (by decide +kernel)

end Reading

section Dictation

variable {lowercase : Text → Text} {text : Text} {words pre post : List Text} {ds : List ℕ}

/-- The digits that are put out of dictated ones. -/
def heard : List ℕ → List ℕ
  | [] => []
  | [d] => [d]
  | d :: e :: ds => if d = 0 then heard (e :: ds) else d :: heard (e :: ds)

/-- The words are forms of the digits. -/
def Dictates (lowercase : Text → Text) (words : List Text) (ds : List ℕ) : Prop :=
  List.Forall₂ (fun w d => Says lowercase w d unit) words ds

theorem Dictates.lt (h : Dictates lowercase words ds) : ∀ d ∈ ds, d < 10 := by
  induction h with
  | nil => exact fun d hd => absurd hd List.not_mem_nil
  | cons hw _ ih =>
      have hdigit := (numberWords_ok _ hw.mem).2.2.1 rfl
      exact List.forall_mem_cons.mpr ⟨Nat.lt_succ_of_le hdigit, ih⟩

/-- A digit is put out when the next one is read, unless it is zero: the next one is then added to it. -/
theorem wordsToNumbersFrom_digit (hsaid : Dictates lowercase words ds)
    (hpost : ∀ t ∈ post, numberWord lowercase t = none) (d : ℕ) :
    wordsToNumbersFrom lowercase ⟨d, 0, unit, true⟩ (words ++ post) =
      (heard (d :: ds)).map numeral ++ post := by
  induction hsaid generalizing d with
  | nil =>
      rw [List.nil_append, wordsToNumbersFrom_none hpost, Parser.flush, if_pos rfl, Nat.zero_add]
      rfl
  | @cons w e words ds hw _ ih =>
      by_cases hzero : d = 0
      · have hreads := reads_added (s := ⟨d, 0, unit, true⟩) hw (by decide) (Or.inl hzero)
        rw [← List.singleton_append, List.append_assoc, hreads, heard, if_pos hzero]
        dsimp only
        rw [hzero, Nat.zero_add]
        exact ih e
      · have hfull : 0 < d ∧ unit ≤ unit := ⟨Nat.pos_of_ne_zero hzero, Nat.le_refl _⟩
        rw [List.cons_append, wordsToNumbersFrom, hw]
        dsimp only
        rw [Parser.next, if_neg (by decide), if_pos hfull]
        dsimp only
        rw [ih e, heard, if_neg hzero, Nat.zero_add]
        rfl

theorem wordsToNumbers_dictated (hne : ds ≠ []) (hsaid : Dictates lowercase words ds)
    (hpost : ∀ t ∈ post, numberWord lowercase t = none) :
    wordsToNumbers lowercase (words ++ post) = (heard ds).map numeral ++ post := by
  cases hsaid with
  | nil => exact absurd rfl hne
  | @cons w d words ds hw hrest =>
      have hreads := reads_added (s := {}) hw (by decide) (Or.inl rfl)
      rw [wordsToNumbers, ← List.singleton_append, List.append_assoc, hreads]
      dsimp only
      rw [Nat.zero_add]
      exact wordsToNumbersFrom_digit hrest hpost d

theorem heard_ne_nil (d : ℕ) (ds : List ℕ) : heard (d :: ds) ≠ [] := by
  induction ds generalizing d with
  | nil => exact List.cons_ne_nil d []
  | cons e ds ih =>
      rw [heard]
      split_ifs
      · exact ih e
      · exact List.cons_ne_nil _ _

theorem heard_sublist (d : ℕ) (ds : List ℕ) : (heard (d :: ds)).Sublist (d :: ds) := by
  induction ds generalizing d with
  | nil => exact List.Sublist.refl _
  | cons e ds ih =>
      rw [heard]
      split_ifs
      · exact (ih e).cons d
      · exact (ih e).cons_cons d

/-- No digit is lost where every zero is the last one. -/
theorem heard_eq_iff (d : ℕ) (ds : List ℕ) :
    heard (d :: ds) = d :: ds ↔ ∀ e ∈ (d :: ds).dropLast, e ≠ 0 := by
  induction ds generalizing d with
  | nil => simp [heard]
  | cons e ds ih =>
      rw [heard, List.dropLast_cons_cons, List.forall_mem_cons]
      split_ifs with hzero
      · refine iff_of_false (fun heq => ?_) fun h => h.1 hzero
        have hle := (heard_sublist e ds).length_le
        rw [heq, List.length_cons (a := d)] at hle
        omega
      · rw [List.cons.injEq, ih]
        exact ⟨fun h => ⟨hzero, h.2⟩, fun h => ⟨rfl, h.2⟩⟩

theorem length_numeral {d : ℕ} (h : d < 10) : (numeral d).length = 1 := by
  rw [numeral, Nat.toDigits_of_lt_base h]
  rfl

theorem length_flatMap_numeral (h : ∀ d ∈ ds, d < 10) : (ds.flatMap numeral).length = ds.length := by
  induction ds with
  | nil => rfl
  | cons d ds ih =>
      rw [List.flatMap_cons, List.length_append, length_numeral (h d List.mem_cons_self),
        ih fun e he => h e (List.mem_cons_of_mem d he), List.length_cons, Nat.add_comm]

theorem isToken_flatMap_numeral (hne : ds ≠ []) : IsToken (ds.flatMap numeral) := by
  rw [List.flatMap_def]
  apply isToken_of_isDigitToken
  apply isDigitToken_flatten (by simpa using hne)
  intro t ht
  obtain ⟨d, _, rfl⟩ := List.mem_map.mp ht
  exact isDigitToken_numeral d

/-- Dictated digits become one token of those that are heard. -/
theorem applyItn_dictated (hne : ds ≠ []) (hsaid : Dictates lowercase words ds)
    (htext : splitWhitespace text = pre ++ words ++ post) (hpre : ∀ t ∈ pre, Ordinary lowercase t)
    (hpost : ∀ t ∈ post, Ordinary lowercase t) :
    applyItn lowercase text = joinSpaces (pre ++ [(heard ds).flatMap numeral] ++ post) := by
  obtain ⟨d, rest, rfl⟩ := List.exists_cons_of_ne_nil hne
  have hnumerals : ∀ t ∈ (heard (d :: rest)).map numeral, isDigitToken t = true := by
    intro t ht
    obtain ⟨e, _, rfl⟩ := List.mem_map.mp ht
    exact isDigitToken_numeral e
  have hshort : ∀ t ∈ (heard (d :: rest)).map numeral, t.length ≤ 3 := by
    intro t ht
    obtain ⟨e, he, rfl⟩ := List.mem_map.mp ht
    rw [length_numeral (hsaid.lt e ((heard_sublist d rest).subset he))]
    decide
  rw [applyItn_between htext hpre hpost
    (wordsToNumbers_dictated hne hsaid fun t ht => (hpost t ht).1) hnumerals,
    closeGroup_of_short (by simpa using heard_ne_nil d rest) hshort, List.flatMap_def]

/-- A run of dictated digits becomes the token of these digits if and only if no zero is followed by
another digit. -/
theorem dictated_iff (hne : ds ≠ []) (hsaid : Dictates lowercase words ds)
    (htext : splitWhitespace text = pre ++ words ++ post) (hpre : ∀ t ∈ pre, Ordinary lowercase t)
    (hpost : ∀ t ∈ post, Ordinary lowercase t) :
    applyItn lowercase text = joinSpaces (pre ++ [ds.flatMap numeral] ++ post) ↔
      ∀ d ∈ ds.dropLast, d ≠ 0 := by
  have htoken : ∀ t ∈ pre ++ words ++ post, IsToken t := fun t ht => isToken_of_mem (htext ▸ ht)
  have haround : ∀ {digits : List ℕ}, digits ≠ [] →
      ∀ t ∈ pre ++ [digits.flatMap numeral] ++ post, IsToken t := by
    intro digits hdigits t ht
    simp only [List.mem_append, List.mem_singleton] at ht
    rcases ht with (ht | rfl) | ht
    · exact htoken t (List.mem_append_left _ (List.mem_append_left _ ht))
    · exact isToken_flatMap_numeral hdigits
    · exact htoken t (List.mem_append_right _ ht)
  obtain ⟨d, rest, rfl⟩ := List.exists_cons_of_ne_nil hne
  rw [applyItn_dictated hne hsaid htext hpre hpost, ← heard_eq_iff,
    joinSpaces_inj (haround (heard_ne_nil d rest)) (haround hne), List.append_left_inj,
    List.append_right_inj, List.singleton_inj]
  refine ⟨fun heq => ?_, fun heq => by rw [heq]⟩
  have hlength := congrArg List.length heq
  have hsub := heard_sublist d rest
  rw [length_flatMap_numeral fun e he => hsaid.lt e (hsub.subset he),
    length_flatMap_numeral hsaid.lt] at hlength
  exact hsub.eq_of_length hlength

theorem dictated_895 : applyItn russianLowercase "код восемь Девять пять дверь".toList =
    "код 895 дверь".toList := by
  have hsaid : Dictates russianLowercase ["восемь".toList, "Девять".toList, "пять".toList] [8, 9, 5] :=
    .cons (by decide +kernel) (.cons (by decide +kernel) (.cons (by decide +kernel) .nil))
  have htext : splitWhitespace "код восемь Девять пять дверь".toList = ["код".toList] ++
      ["восемь".toList, "Девять".toList, "пять".toList] ++ ["дверь".toList] := by
    decide +kernel
  have hiff := dictated_iff (by decide) hsaid htext (by decide +kernel) (by decide +kernel)
  exact (hiff.mpr (by decide)).trans (by decide +kernel)

/-- Of one, zero, two the zero is lost. -/
theorem dictated_zero_lost : ∃ (text : Text) (words : List Text) (ds : List ℕ),
    ds ≠ [] ∧ Dictates russianLowercase words ds ∧ splitWhitespace text = words ∧
      applyItn russianLowercase text ≠ ds.flatMap numeral := by
  refine ⟨"один ноль два".toList, ["один".toList, "ноль".toList, "два".toList], [1, 0, 2],
    by decide, ?_, by decide +kernel, by decide +kernel⟩
  exact .cons (by decide +kernel) (.cons (by decide +kernel) (.cons (by decide +kernel) .nil))

end Dictation

end Gigastt.Itn
