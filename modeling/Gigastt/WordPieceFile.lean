import Gigastt.Table
import Gigastt.Words
import Mathlib.Data.List.ReduceOption

/-!
The tokenizer that a `tokenizer.json` describes. A file outside of the supported scheme is refused.
-/

namespace Gigastt.WordPiece

structure AddedTokenFile where
  id : ℕ
  content : Text
  singleWord : Bool := false
  lstrip : Bool := false
  rstrip : Bool := false
  normalized : Bool := true
  deriving DecidableEq, Repr

structure ModelFile where
  kind : Text
  unkToken : Option Text
  continuingSubwordPrefix : Option Text
  maxInputCharsPerWord : Option ℕ
  vocab : Table Text ℕ

structure BertNormalizerFile where
  kind : Text
  cleanText : Option Bool
  handleChineseChars : Option Bool
  stripAccents : Option Bool
  lowercase : Option Bool
  deriving DecidableEq, Repr

inductive TemplatePiece where
  | specialToken (id : Text) (typeId : ℕ)
  | sequence (id : Text) (typeId : ℕ)
  deriving DecidableEq, Repr

structure TemplateProcessingFile where
  kind : Text
  single : List TemplatePiece
  specialTokens : Table Text (List ℕ)

/-- A parsed file. Of truncation and padding it matters only whether they are there; the pre-tokenizer is
its type, if it has one. -/
structure TokenizerFile where
  version : Option Text
  truncation : Bool
  padding : Bool
  addedTokens : List AddedTokenFile
  normalizer : Option BertNormalizerFile
  preTokenizer : Option (Option Text)
  postProcessor : Option TemplateProcessingFile
  model : ModelFile

inductive Normalizer where
  | none
  | bert (cleanText handleChineseChars : Bool)
  deriving DecidableEq, Repr

/-- A text that is one token; it is not empty. -/
structure AddedToken where
  id : ℕ
  content : Text
  lstrip : Bool
  rstrip : Bool
  content_ne : content ≠ []
  deriving DecidableEq

structure Tokenizer where
  vocab : Table Text ℕ
  unkId : ℕ
  continuingSubwordPrefix : Text
  maxInputCharsPerWord : ℕ
  normalizer : Normalizer
  bertPreTokenizer : Bool
  addedTokens : List AddedToken
  cls : Option ℕ
  sep : Option ℕ

def parseNormalizer : Option BertNormalizerFile → Except String Normalizer
  | none => .ok .none
  | some parsed =>
      if parsed.kind ≠ "BertNormalizer".toList then
        .error ("unsupported normalizer type '" ++ .ofList parsed.kind ++
          "' (expected 'BertNormalizer' or null)")
      else
        let lowercase := parsed.lowercase.getD true
        let stripAccents := parsed.stripAccents.getD lowercase
        if lowercase then .error "BertNormalizer with lowercase=true is not supported"
        else if stripAccents then .error "BertNormalizer with strip_accents=true is not supported"
        else .ok (.bert (parsed.cleanText.getD true) (parsed.handleChineseChars.getD true))

def parsePreTokenizer : Option (Option Text) → Except String Bool
  | none => .ok false
  | some none => .error "pre_tokenizer is missing a 'type' field"
  | some (some kind) =>
      if kind ≠ "BertPreTokenizer".toList then
        .error ("unsupported pre_tokenizer type '" ++ .ofList kind ++
          "' (expected 'BertPreTokenizer' or null)")
      else .ok true

def specialId (specialTokens : Table Text (List ℕ)) : TemplatePiece → Except String ℕ
  | .sequence _ _ =>
      .error "unsupported post_processor template (expected '[Special] A [Special]')"
  | .specialToken id typeId =>
      if typeId ≠ 0 then .error s!"unsupported special token type_id {typeId} (expected 0)"
      else
        match specialTokens.find id with
        | none =>
            .error ("post_processor references unknown special token '" ++ .ofList id ++ "'")
        | some [tokenId] => .ok tokenId
        | some _ =>
            .error ("special token '" ++ .ofList id ++
              "' expands to more than one id, which is not supported")

def parsePostProcessor : Option TemplateProcessingFile → Except String (Option ℕ × Option ℕ)
  | none => .ok (none, none)
  | some parsed =>
      if parsed.kind ≠ "TemplateProcessing".toList then
        .error ("unsupported post_processor type '" ++ .ofList parsed.kind ++
          "' (expected 'TemplateProcessing' or null)")
      else
        match parsed.single with
        | [first, .sequence id typeId, last] =>
            if id ≠ ['A'] ∨ typeId ≠ 0 then
              .error "unsupported post_processor template (expected sequence 'A' with type_id 0)"
            else do
              let cls ← specialId parsed.specialTokens first
              let sep ← specialId parsed.specialTokens last
              return (some cls, some sep)
        | _ => .error "unsupported post_processor template (expected '[Special] A [Special]')"

/-- An added token of the file, or none for an empty one. Its id is that of the vocabulary, where it is
there. -/
def parseAddedToken (vocab : Table Text ℕ) (token : AddedTokenFile) :
    Except String (Option AddedToken) :=
  if hempty : token.content = [] then .ok none
  else if token.normalized then
    .error ("added token '" ++ .ofList token.content ++
      "' has normalized=true, which is not supported")
  else if token.singleWord then
    .error ("added token '" ++ .ofList token.content ++
      "' has single_word=true, which is not supported")
  else
    .ok (some {
      id := (vocab.find token.content).getD token.id
      content := token.content
      lstrip := token.lstrip
      rstrip := token.rstrip
      content_ne := hempty })

def Tokenizer.fromParsed (file : TokenizerFile) : Except String Tokenizer := do
  if file.version.any (· ≠ "1.0".toList) then
    throw ("unknown tokenizer version '" ++ .ofList (file.version.getD []) ++ "'")
  if file.truncation then throw "truncation is not supported (expected null)"
  if file.padding then throw "padding is not supported (expected null)"
  if file.model.kind ≠ "WordPiece".toList then
    throw ("unsupported model type '" ++ .ofList file.model.kind ++ "' (expected 'WordPiece')")
  if file.model.vocab.entries.isEmpty then throw "WordPiece vocabulary is empty"
  let unkToken := file.model.unkToken.getD "[UNK]".toList
  let some unkId := file.model.vocab.find unkToken
    | throw ("WordPiece vocabulary is missing unk_token '" ++ .ofList unkToken ++ "'")
  let normalizer ← parseNormalizer file.normalizer
  let bertPreTokenizer ← parsePreTokenizer file.preTokenizer
  let (cls, sep) ← parsePostProcessor file.postProcessor
  let addedTokens ← file.addedTokens.mapM (parseAddedToken file.model.vocab)
  return {
    vocab := file.model.vocab
    unkId
    continuingSubwordPrefix := file.model.continuingSubwordPrefix.getD "##".toList
    maxInputCharsPerWord := file.model.maxInputCharsPerWord.getD 100
    normalizer
    bertPreTokenizer
    addedTokens := addedTokens.reduceOption
    cls
    sep }

theorem parsePreTokenizer_ok {preTokenizer : Option (Option Text)} {active : Bool}
    (h : parsePreTokenizer preTokenizer = .ok active) : active = true ↔ preTokenizer ≠ none := by
  match preTokenizer with
  | none =>
      cases h
      simp
  | some none => cases h
  | some (some kind) =>
      rw [parsePreTokenizer] at h
      split_ifs at h
      cases h
      simp

/-- The vocabulary is that of the file and has the unknown token; the text is split if and only if the file
has a pre-tokenizer. -/
theorem fromParsed_ok {file : TokenizerFile} {t : Tokenizer} (h : Tokenizer.fromParsed file = .ok t) :
    t.vocab = file.model.vocab ∧
      t.vocab.find (file.model.unkToken.getD "[UNK]".toList) = some t.unkId ∧
      (t.bertPreTokenizer = true ↔ file.preTokenizer ≠ none) := by
  simp only [Tokenizer.fromParsed, bind, Except.bind, throw, throwThe, MonadExceptOf.throw, pure,
    Except.pure] at h
  split_ifs at h
  split at h
  · split at h
    · cases h
    split at h
    · cases h
    split at h
    · cases h
    split at h
    · cases h
    cases h
    exact ⟨rfl, by assumption, parsePreTokenizer_ok (by assumption)⟩
  · cases h

end Gigastt.WordPiece
