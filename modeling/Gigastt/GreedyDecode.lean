import Gigastt.Loops
import Gigastt.Biaser
import Gigastt.Logits

/-!
Greedy RNN-T decoding. The backend's decoder step is a function of the previous token and the two
state vectors; its joiner may keep a state of its own. The loop is written over the way it obtains a
prediction: the program reuses the last one through a run of blanks, the plain loop asks every time.
-/

namespace Gigastt

namespace Greedy

def maxTokensPerStep : Nat := 10

def maxBiasOverridesPerStep : Nat := 1

def encDim : Nat := 768

def predHidden : Nat := 320

/-- A state vector of the prediction network. -/
structure Hidden (F : Type) where
  values : List F
  length_eq : values.length = predHidden

structure DecoderState (F : Type) where
  h : Hidden F
  c : Hidden F
  prevToken : Int
  consecutiveBlanks : Nat
  endpointBlankThreshold : Nat

structure DecoderOutput (F : Type) where
  decData : List F
  newH : List F
  newC : List F

structure DecodeResult (F : Type) where
  tokens : List (TokenInfo F)
  endpointDetected : Bool

inductive DecodeError where
  | encoderNotF32
  | encoderSize (got expected : Nat)
  | staleCache
  | stateShape (h c : Nat)
  | backend (message : String)
  deriving DecidableEq, Repr

def DecodeError.message : DecodeError → String
  | encoderNotF32 => "encoder output must be f32"
  | encoderSize got expected =>
      "Encoder output size mismatch: got " ++ toString got ++ ", expected >= " ++ toString expected
  | staleCache => "blank run invariant violated: decoder output cache is stale"
  | stateShape h c =>
      "Unexpected decoder state shape: h=" ++ toString h ++ ", c=" ++ toString c ++ ", expected " ++
        toString predHidden
  | backend message => message

structure Backend (F S : Type) where
  decodeStep : Int → Hidden F → Hidden F → Except String (DecoderOutput F)
  joinerStep : S → List F → List F → Except String (List F × S)

inductive TensorData (F : Type) where
  | f32 (values : List F)
  | i32 (values : List Int)
  | i64 (values : List Int)

/-- The arguments of one decode. `abort n` is the answer to the `n`-th poll. -/
structure Decode (F S : Type) where
  backend : Backend F S
  encodedLen : Nat
  blankId : Nat
  biaser : Option (Biaser F)
  abort : Option (Nat → Bool)

/-- The variables of the loop, with the count of abort polls. -/
structure Loop (F S : Type) where
  state : DecoderState F
  biasState : Option BiasState
  decoderOut : DecoderOutput F
  cacheValid : Bool
  inBlankRun : Bool
  joiner : S
  polls : Nat
  tokens : List (TokenInfo F)
  endpointDetected : Bool
  tokensThisStep : Nat
  biasOverrides : Nat

/-- How the frames end before the last one. -/
inductive Stop where
  | aborted
  | failed (error : DecodeError)
  deriving DecidableEq, Repr

/-- How a frame's inner loop is left. -/
inductive Leave where
  | nextFrame
  | stop (how : Stop)
  deriving DecidableEq, Repr

def Leave.stop? : Leave → Option Stop
  | nextFrame => none
  | stop how => some how

variable {F S : Type} [SingleArith F]

/-- Frame `t` of the channels-first encoder output. -/
def extractEncoderFrame (encoded : List F) (encodedLen t : Nat) : List F :=
  (List.range encDim).map fun ch => encoded.getD (ch * encodedLen + t) 0

/-- The next token, and whether the boost overturned the model's own pick. -/
def selectToken (logits : List F) (blankId : Nat) (biaser : Option (Biaser F))
    (biasState : Option BiasState) (biasOverrides : Nat) : Nat × Bool :=
  match biaser, biasState with
  | some b, some bs =>
      if biasOverrides < maxBiasOverridesPerStep then
        let boosted := Logits.argmax (b.boostLogits bs logits) blankId
        (boosted, boosted != Logits.argmax logits blankId)
      else (Logits.argmax logits blankId, false)
  | _, _ => (Logits.argmax logits blankId, false)

/-- Commits a non-blank token. On a vector of another length the state is left half updated. -/
def commitNonBlank (l : Loop F S) (token : Nat) (biaser : Option (Biaser F)) :
    Loop F S × Option DecodeError :=
  let state := { l.state with consecutiveBlanks := 0, prevToken := (token : Int) }
  if h : l.decoderOut.newH.length = predHidden ∧ l.decoderOut.newC.length = predHidden then
    let state := { state with h := ⟨l.decoderOut.newH, h.1⟩, c := ⟨l.decoderOut.newC, h.2⟩ }
    match biaser, l.biasState with
    | some b, some bs => ({ l with state, biasState := some (b.advance bs token) }, none)
    | _, _ => ({ l with state }, none)
  else
    ({ l with state }, some (.stateShape l.decoderOut.newH.length l.decoderOut.newC.length))

/-- The branch of a blank: the decoder state is kept, so its output can be reused. -/
def onBlank (l : Loop F S) : Loop F S :=
  let consecutiveBlanks := l.state.consecutiveBlanks + 1
  { l with
    inBlankRun := true
    state := { l.state with consecutiveBlanks }
    endpointDetected :=
      if l.state.endpointBlankThreshold ≤ consecutiveBlanks ∧ l.tokens ≠ [] then true
      else l.endpointDetected }

/-- The branch of a frame that has emitted all the tokens it may. -/
def onTokenCap (l : Loop F S) : Loop F S :=
  { l with
    inBlankRun := false
    cacheValid := false
    state := { l.state with consecutiveBlanks := 0 }
    endpointDetected := false }

/-- The branch of a token that is emitted. -/
def onToken (d : Decode F S) (t : Nat) (logits : List F) (token : Nat) (l : Loop F S) :
    Loop F S × Option Leave :=
  match commitNonBlank { l with endpointDetected := false, inBlankRun := false } token d.biaser with
  | (l, some error) => (l, some (.stop (.failed error)))
  | (l, none) =>
      let info := { tokenId := token, frameIndex := t,
                    confidence := Logits.tokenConfidence logits token }
      ({ l with tokens := l.tokens ++ [info], tokensThisStep := l.tokensThisStep + 1 }, none)

/-- The three branches on the picked token. -/
def classifyToken (d : Decode F S) (t : Nat) (logits : List F) (token : Nat) (l : Loop F S) :
    Loop F S × Option Leave :=
  if token = d.blankId then (onBlank l, some .nextFrame)
  else if maxTokensPerStep ≤ l.tokensThisStep then (onTokenCap l, some .nextFrame)
  else onToken d t logits token l

def classify (d : Decode F S) (t : Nat) (logits : List F) (l : Loop F S) :
    Loop F S × Option Leave :=
  let pick := selectToken logits d.blankId d.biaser l.biasState l.biasOverrides
  classifyToken d t logits pick.1
    { l with biasOverrides := if pick.2 then l.biasOverrides + 1 else l.biasOverrides }

/-- Calls the decoder on the current state. -/
def decodeStep (d : Decode F S) (l : Loop F S) : Except DecodeError (Loop F S) :=
  match d.backend.decodeStep l.state.prevToken l.state.h l.state.c with
  | .error message => .error (.backend message)
  | .ok out => .ok { l with decoderOut := out, cacheValid := true }

/-- The prediction of the program: the last one through a run of blanks. -/
def cachedPrediction (d : Decode F S) (l : Loop F S) : Except DecodeError (Loop F S) :=
  if l.inBlankRun then if l.cacheValid then .ok l else .error .staleCache
  else decodeStep d l

/-- A way to bring `decoderOut` up to date. -/
abbrev Prediction (F S : Type) := Loop F S → Except DecodeError (Loop F S)

/-- What follows the abort poll: prediction, joiner, classification. -/
def step (d : Decode F S) (predict : Prediction F S) (t : Nat) (encFrame : List F)
    (l : Loop F S) : Loop F S × Option Leave :=
  match predict l with
  | .error error => (l, some (.stop (.failed error)))
  | .ok l =>
      match d.backend.joinerStep l.joiner encFrame l.decoderOut.decData with
      | .error message => (l, some (.stop (.failed (.backend message))))
      | .ok (logits, joiner) => classify d t logits { l with joiner }

/-- `abort.is_some_and(|abort| abort())`. -/
def pollAbort (d : Decode F S) (l : Loop F S) : Bool :=
  match d.abort with
  | some abort => abort l.polls
  | none => false

/-- One run of the inner loop. -/
def iteration (d : Decode F S) (predict : Prediction F S) (t : Nat) (encFrame : List F)
    (l : Loop F S) : Loop F S × Option Leave :=
  if pollAbort d l then
    ({ l with polls := l.polls + 1, endpointDetected := false }, some (.stop .aborted))
  else step d predict t encFrame { l with polls := l.polls + 1 }

/-- The inner loop of frame `t`. Each run of it but the last emits a token, so a run more than the
cap leaves it. -/
def innerLoop (d : Decode F S) (predict : Prediction F S) (encoded : List F) (t : Nat)
    (l : Loop F S) : Loop F S × Option Leave :=
  Loops.repeatUpTo (maxTokensPerStep + 1)
    (iteration d predict t (extractEncoderFrame encoded d.encodedLen t))
    { l with tokensThisStep := 0, biasOverrides := 0 }

def frame (d : Decode F S) (predict : Prediction F S) (encoded : List F) (t : Nat)
    (l : Loop F S) : Loop F S × Option Stop :=
  ((innerLoop d predict encoded t l).1, (innerLoop d predict encoded t l).2.bind Leave.stop?)

def initial (d : Decode F S) (state : DecoderState F) (joiner : S) : Loop F S :=
  { state, joiner, biasState := d.biaser.map Biaser.newState,
    decoderOut := { decData := [], newH := [], newC := [] }, cacheValid := false,
    inBlankRun := false, polls := 0, tokens := [], endpointDetected := false, tokensThisStep := 0,
    biasOverrides := 0 }

/-- The frames of an encoder output long enough for them. -/
def frames (d : Decode F S) (predict : Prediction F S) (encoded : List F)
    (state : DecoderState F) (joiner : S) : Loop F S × Option Stop :=
  Loops.forEach (frame d predict encoded) (List.range d.encodedLen) (initial d state joiner)

/-- The decode up to the construction of its result; no frame is read of an unfit output. -/
def decodeFrames (d : Decode F S) (predict : Prediction F S) (encoded : TensorData F)
    (state : DecoderState F) (joiner : S) : Loop F S × Option Stop :=
  match encoded with
  | .f32 values =>
      if encDim * d.encodedLen ≤ values.length then frames d predict values state joiner
      else (initial d state joiner,
        some (.failed (.encoderSize values.length (encDim * d.encodedLen))))
  | _ => (initial d state joiner, some (.failed .encoderNotF32))

/-- The decoder state left behind, and the result. Aborting is no error. -/
def decodeWith (d : Decode F S) (predict : Prediction F S) (encoded : TensorData F)
    (state : DecoderState F) (joiner : S) :
    DecoderState F × Except DecodeError (DecodeResult F) :=
  let r := decodeFrames d predict encoded state joiner
  (r.1.state, match r.2 with
    | some (.failed error) => .error error
    | _ => .ok { tokens := r.1.tokens, endpointDetected := r.1.endpointDetected })

/-- `greedy_decode_impl_with_abort`. -/
def greedyDecode (d : Decode F S) (encoded : TensorData F) (state : DecoderState F) (joiner : S) :
    DecoderState F × Except DecodeError (DecodeResult F) :=
  decodeWith d (cachedPrediction d) encoded state joiner

/-- The same loop without the cache: the decoder is called at every step. -/
def plainDecode (d : Decode F S) (encoded : TensorData F) (state : DecoderState F) (joiner : S) :
    DecoderState F × Except DecodeError (DecodeResult F) :=
  decodeWith d (decodeStep d) encoded state joiner

/-- The tokens pushed by the time the decode ends, however it ends. -/
def emitted (d : Decode F S) (encoded : TensorData F) (state : DecoderState F) (joiner : S) :
    List (TokenInfo F) :=
  (decodeFrames d (cachedPrediction d) encoded state joiner).1.tokens

end Greedy

end Gigastt
