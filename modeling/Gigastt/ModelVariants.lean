import Gigastt.SourceHash

/-!
The recognition heads: the files each is made of, their pinned checksums, and which of them is in a
directory.
-/

namespace Gigastt.Download

inductive ModelVariant
  | rnnt
  | e2eRnnt
  | mlCtc
  | mlCtcLarge
  deriving DecidableEq

/-- The digests that files are pinned to, where they are. -/
abbrev Checksums := List (String × Option String)

def rnntChecksums : Checksums :=
  [("v3_rnnt_encoder.onnx", some "7ae7509c3f1128369564df0b00e2ee4950adf539de2392ac5c800a5bc04c7132"),
    ("v3_rnnt_decoder.onnx", some "443c3b7bd42b453611618135d6b1e7d9467e5dd97c8a68501da4aa355750c0da"),
    ("v3_rnnt_joint.onnx", some "fd1d02f45c2ad3d6b67cc149811ad794ab4b020ed49a0a9e2790a8619d1cddd8"),
    ("v3_vocab.txt", some "a9143c30844d3c0bee3e9e927e4084774eb1b9eeaafc473b2c4521e4911a7c07")]

def e2eRnntChecksums : Checksums :=
  [("v3_e2e_rnnt_encoder.onnx", some "cd60b3764a832e8560ae6d3ad0b10adc1a42ffae412b9476f25620aae4f4a508"),
    ("v3_e2e_rnnt_decoder.onnx", some "7b0a16d67fd2cb37061decc93c69e364a9ab27afee3c57495d55b1c974cf7231"),
    ("v3_e2e_rnnt_joint.onnx", some "602ff7017a93311aad34df1437c8d7f49911353c13d6eae7a6ee7b041339465c"),
    ("v3_e2e_rnnt_vocab.txt", some "39abae20e692998290c574e606f11a9edef2902a1995463fcff63d1490cf22b7")]

def mlCtcChecksums : Checksums :=
  [("multilingual_ctc.int8.onnx", some "e08e27ae5669b39f0c378fae101bbbb9a80505f74f9b66719c309bf5b894a480"),
    ("multilingual_vocab.txt", some "4d130287892e1099fedfb3f93c4b4cf8a263151158801680b28977d1be4133f4")]

def mlCtcLargeChecksums : Checksums :=
  [("multilingual_large_ctc.int8.onnx",
      some "b2ad9c38fc04197ba758105d33f7404fd13d977958722e0f49e3f3e22521f1c6"),
    ("multilingual_vocab.txt", some "4d130287892e1099fedfb3f93c4b4cf8a263151158801680b28977d1be4133f4")]

namespace ModelVariant

/-- In the order of detection. -/
def all : List ModelVariant := [rnnt, e2eRnnt, mlCtc, mlCtcLarge]

def default : ModelVariant := rnnt

def encoderFile : ModelVariant → String
  | rnnt => "v3_rnnt_encoder.onnx"
  | e2eRnnt => "v3_e2e_rnnt_encoder.onnx"
  | mlCtc => "multilingual_ctc.onnx"
  | mlCtcLarge => "multilingual_large_ctc.onnx"

def encoderInt8File : ModelVariant → String
  | rnnt => "v3_rnnt_encoder_int8.onnx"
  | e2eRnnt => "v3_e2e_rnnt_encoder_int8.onnx"
  | mlCtc => "multilingual_ctc.int8.onnx"
  | mlCtcLarge => "multilingual_large_ctc.int8.onnx"

/-- The heads without a decoder have no such file. -/
def decoderFile : ModelVariant → String
  | rnnt => "v3_rnnt_decoder.onnx"
  | e2eRnnt => "v3_e2e_rnnt_decoder.onnx"
  | mlCtc | mlCtcLarge => ""

def jointFile : ModelVariant → String
  | rnnt => "v3_rnnt_joint.onnx"
  | e2eRnnt => "v3_e2e_rnnt_joint.onnx"
  | mlCtc | mlCtcLarge => ""

def vocabFile : ModelVariant → String
  | rnnt => "v3_vocab.txt"
  | e2eRnnt => "v3_e2e_rnnt_vocab.txt"
  | mlCtc | mlCtcLarge => "multilingual_vocab.txt"

def isCtc : ModelVariant → Bool
  | rnnt | e2eRnnt => false
  | mlCtc | mlCtcLarge => true

def downloadFiles (v : ModelVariant) : List String :=
  match v with
  | rnnt | e2eRnnt => [v.encoderFile, v.decoderFile, v.jointFile, v.vocabFile]
  | mlCtc | mlCtcLarge => [v.encoderInt8File, v.vocabFile]

def prequantizedFiles (v : ModelVariant) : List String :=
  match v with
  | rnnt | e2eRnnt => [v.encoderInt8File, v.decoderFile, v.jointFile, v.vocabFile]
  | mlCtc | mlCtcLarge => [v.encoderInt8File, v.vocabFile]

def checksum (v : ModelVariant) (filename : String) : Option String :=
  let table := match v with
    | rnnt => rnntChecksums
    | e2eRnnt => e2eRnntChecksums
    | mlCtc => mlCtcChecksums
    | mlCtcLarge => mlCtcLargeChecksums
  (table.find? fun nh => nh.1 = filename).bind Prod.snd

def encoderInt8Checksum : ModelVariant → String
  | rnnt => "1d5a6f580b692e38ba35ed98d0f54648808f27b0a147dc11bd8978c15dc1a18f"
  | e2eRnnt => "16805903b102d8b27bb0253de044f25e33a8a5bf07fce0c4da4ac1a5a7544091"
  | mlCtc => "e08e27ae5669b39f0c378fae101bbbb9a80505f74f9b66719c309bf5b894a480"
  | mlCtcLarge => "b2ad9c38fc04197ba758105d33f7404fd13d977958722e0f49e3f3e22521f1c6"

def prequantizedChecksum (v : ModelVariant) (filename : String) : Option String :=
  if filename = v.encoderInt8File then some v.encoderInt8Checksum else v.checksum filename

section Present

-- which files are there
variable (onDisk : String → Bool)

def detectInDir : Option ModelVariant :=
  all.find? fun v => onDisk v.encoderFile || onDisk v.encoderInt8File

def isModelPresent (v : ModelVariant) : Bool := v.downloadFiles.all onDisk

def isPrequantizedPresent (v : ModelVariant) : Bool := v.prequantizedFiles.all onDisk

/-- The engine can load the head without a download. -/
def isUsablePresent (v : ModelVariant) : Bool :=
  if v.isCtc then v.isModelPresent onDisk || v.isPrequantizedPresent onDisk
  else v.isPrequantizedPresent onDisk

end Present

/-- The files that an installation of the head fetches, and what each is checked against. -/
def installFiles (v : ModelVariant) : List String :=
  if v.isCtc then v.downloadFiles else v.prequantizedFiles

def installChecksum (v : ModelVariant) (filename : String) : Option String :=
  if v.isCtc then v.checksum filename else v.prequantizedChecksum filename

end ModelVariant

inductive VariantAction
  | use (v : ModelVariant)
  | download (v : ModelVariant)
  deriving DecidableEq

def resolveVariant (requested existing : Option ModelVariant) : VariantAction :=
  match requested, existing with
  | some req, some ex => if req = ex then .use req else .download req
  | some req, none => .download req
  | none, some ex => .use ex
  | none, none => .download .default

section Tables

/-- The files of all heads. -/
def finalFiles : List String := ModelVariant.all.flatMap ModelVariant.installFiles

namespace ModelVariant

theorem mem_all (v : ModelVariant) : v ∈ all := by
  cases v <;> decide

theorem mem_finalFiles {v : ModelVariant} {file : String} (h : file ∈ v.installFiles) :
    file ∈ finalFiles := List.mem_flatMap.mpr ⟨v, v.mem_all, h⟩

/-- An installation leaves the files that make a head usable. -/
theorem installFiles_eq (v : ModelVariant) : v.installFiles = v.prequantizedFiles := by
  cases v <;> rfl

/-- Every file that is fetched is pinned. -/
theorem installChecksum_isSome {v : ModelVariant} {file : String} (h : file ∈ v.installFiles) :
    (v.installChecksum file).isSome := by
  have hall : ∀ v ∈ all, ∀ file ∈ v.installFiles, (v.installChecksum file).isSome := by decide
  exact hall v v.mem_all file h

/-- A file that two heads share is pinned to one digest. -/
theorem installChecksum_shared {v u : ModelVariant} {file : String} (hv : file ∈ v.installFiles)
    (hu : file ∈ u.installFiles) : v.installChecksum file = u.installChecksum file := by
  have hall : ∀ v ∈ all, ∀ u ∈ all, ∀ file ∈ v.installFiles, file ∈ u.installFiles →
      v.installChecksum file = u.installChecksum file := by decide
  exact hall v v.mem_all u u.mem_all file hv hu

theorem isUsablePresent_iff {onDisk : String → Bool} {v : ModelVariant} :
    v.isUsablePresent onDisk = true ↔ ∀ file ∈ v.installFiles, onDisk file = true := by
  rw [installFiles_eq, ← List.all_eq_true, isUsablePresent]
  cases v with
  | rnnt | e2eRnnt => rfl
  | mlCtc | mlCtcLarge => exact iff_of_eq (congrArg (· = true) (Bool.or_self _))

end ModelVariant

end Tables

end Gigastt.Download
