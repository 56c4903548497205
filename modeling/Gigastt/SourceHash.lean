import Gigastt.Searching
import Gigastt.Sha256
import Gigastt.Slices

/-!
The content hash of a model file, which the cache of optimized graphs goes by. A file that may keep
its weights elsewhere has none: the marker of an external tensor is searched for while the file is
read. A read may give fewer bytes than there is room for, so the marker may be split between reads.
-/

namespace Gigastt

namespace ModelCache

open Slices Searching

/-- A file being read, and how many calls have been made to read it. -/
structure File where
  rest : List UInt8
  calls : Nat

/-- One call of `read`, which fails or gives the next bytes. The system gives as many of them as it
likes, within the room there is; it gives none only at the end. -/
def File.read {ε : Type} (pace : Nat → Except ε Nat) (room : Nat) (file : File) :
    Except ε (List UInt8 × File) :=
  match pace file.calls with
  | .error e => .error e
  | .ok most =>
      let n := min (max 1 most) room
      .ok (file.rest.take n, { rest := file.rest.drop n, calls := file.calls + 1 })

/-- A streaming hash function. -/
structure Hasher (σ : Type) where
  new : σ
  update : σ → List UInt8 → σ
  finalize : σ → List UInt8

/-- Feeding a message in pieces gives its digest. -/
def Hasher.Streams {σ : Type} (h : Hasher σ) (digest : List UInt8 → List UInt8) : Prop :=
  ∀ pieces : List (List UInt8),
    h.finalize (pieces.foldl h.update h.new) = digest pieces.flatten

/-- `memmem::find(haystack, needle)` says where the needle first occurs, if it does. -/
abbrev Find := List UInt8 → List UInt8 → Option Nat

def Find.Finds (find : Find) : Prop :=
  ∀ haystack needle, (find haystack needle).isSome = true ↔ needle <:+: haystack

/-- `b"location"`. -/
def marker : List UInt8 := [0x6c, 0x6f, 0x63, 0x61, 0x74, 0x69, 0x6f, 0x6e]

def hexDigit (n : Nat) : Char := "0123456789abcdef".toList.getD n ' '

def hexLower (bytes : List UInt8) : String :=
  String.ofList (bytes.flatMap fun b => [hexDigit (b.toNat >>> 4), hexDigit (b.toNat &&& 0x0f)])

def bufLen : Nat := 64 * 1024 + 7

/-- The variables of the loop. -/
structure Scan (σ : Type) where
  file : File
  hash : σ
  buf : List UInt8
  overlap : Nat
  external : Bool

section

variable {ε σ : Type} (h : Hasher σ) (find : Find)

def Scan.new (content : List UInt8) : Scan σ :=
  { file := { rest := content, calls := 0 }, hash := h.new, buf := List.replicate bufLen 0,
    overlap := 0, external := false }

/-- The body of the loop, once the bytes are read into the buffer behind the overlap. -/
def Scan.feed (bytes : List UInt8) (file : File) (s : Scan σ) : Scan σ :=
  let buf := overwrite s.buf s.overlap bytes
  let stop := s.overlap + bytes.length
  let overlap := min stop 7
  { file
    hash := h.update s.hash (slice buf s.overlap stop)
    external := s.external || (find (buf.take stop) marker).isSome
    overlap
    buf := overwrite buf 0 (slice buf (stop - overlap) stop) }

theorem File.length_rest_lt {pace : Nat → Except ε Nat} {room : Nat} {file file' : File}
    {bytes : List UInt8} (hread : file.read pace room = .ok (bytes, file'))
    (hbytes : bytes.length ≠ 0) : file'.rest.length < file.rest.length := by
  unfold read at hread
  split at hread
  · cases hread
  · cases hread
    simp only [List.length_take, List.length_drop] at hbytes ⊢
    omega

def Scan.loop (pace : Nat → Except ε Nat) (s : Scan σ) : Except ε (Scan σ) :=
  match _hread : s.file.read pace (s.buf.length - s.overlap) with
  | .error e => .error e
  | .ok (bytes, file) =>
      if _hbytes : bytes.length = 0 then .ok { s with file }
      else (s.feed h find bytes file).loop pace
termination_by s.file.rest.length
decreasing_by exact File.length_rest_lt _hread _hbytes

/-- The file opens with its content, or fails to. -/
def optimizedSourceHash (opened : Except ε (List UInt8)) (pace : Nat → Except ε Nat) :
    Except ε (Option String) := do
  let content ← opened
  let s ← (Scan.new h content).loop h find pace
  return if s.external then none else some (hexLower (h.finalize s.hash))

variable {h find} {digest : List UInt8 → List UInt8}

/-- The search that the buffer and the flag carry out. -/
def Scan.search (s : Scan σ) : Search UInt8 :=
  { carried := s.buf.take s.overlap, found := s.external }

abbrev searchPiece (find : Find) : Search UInt8 → List UInt8 → Search UInt8 :=
  Search.feed (fun text => (find text marker).isSome) 7

/-- The buffer keeps its length, so there is always room to read. -/
structure Scan.Fits (s : Scan σ) : Prop where
  buf : s.buf.length = bufLen
  overlap : s.overlap ≤ 7

theorem Scan.fits_new (content : List UInt8) : (Scan.new h content).Fits :=
  ⟨List.length_replicate, Nat.zero_le 7⟩

/-- A read takes the next bytes, no more than fit, and finds none only at the end. -/
theorem File.read_ok {pace : Nat → Except ε Nat} {room : Nat} {file file' : File}
    {bytes : List UInt8} (hread : file.read pace room = .ok (bytes, file')) :
    bytes ++ file'.rest = file.rest ∧ bytes.length ≤ room ∧
      (0 < room → bytes.length = 0 → file.rest = []) := by
  unfold read at hread
  split at hread
  · cases hread
  · cases hread
    refine ⟨List.take_append_drop _ file.rest, ?_, fun hroom hbytes => ?_⟩
    · rw [List.length_take]
      omega
    · rw [List.length_take] at hbytes
      apply List.eq_nil_of_length_eq_zero
      omega

namespace Scan

variable {s : Scan σ} {bytes : List UInt8}

theorem Fits.room_pos (hs : s.Fits) : 0 < s.buf.length - s.overlap := by
  have hoverlap := hs.overlap
  rw [hs.buf, bufLen]
  omega

theorem Fits.feed (hs : s.Fits) (hbytes : bytes.length ≤ s.buf.length - s.overlap) (file : File) :
    (s.feed h find bytes file).Fits := by
  have hroom := hs.room_pos
  have hread : (overwrite s.buf s.overlap bytes).length = s.buf.length :=
    length_overwrite (by omega)
  refine ⟨?_, Nat.min_le_right _ 7⟩
  simp only [Scan.feed]
  rw [length_overwrite, hread, hs.buf]
  rw [length_slice (by omega), hread]
  omega

/-- The hasher is fed the bytes that were read. -/
theorem hash_feed (hs : s.Fits) (bytes : List UInt8) (file : File) :
    (s.feed h find bytes file).hash = h.update s.hash bytes := by
  have hroom := hs.room_pos
  simp only [Scan.feed]
  rw [slice_overwrite (by omega)]

/-- What stays in the buffer is what the search carries on. -/
theorem search_feed (hs : s.Fits) (bytes : List UInt8) (file : File) :
    (s.feed h find bytes file).search = searchPiece find s.search bytes := by
  have hroom := hs.room_pos
  have htext : (overwrite s.buf s.overlap bytes).take (s.overlap + bytes.length)
      = s.buf.take s.overlap ++ bytes := take_overwrite (by omega) bytes
  have hlen : (s.buf.take s.overlap ++ bytes).length = s.overlap + bytes.length := by
    rw [List.length_append, List.length_take, Nat.min_eq_left (by omega)]
  have hend : slice (overwrite s.buf s.overlap bytes)
      (s.overlap + bytes.length - min (s.overlap + bytes.length) 7) (s.overlap + bytes.length)
      = (s.buf.take s.overlap ++ bytes).rtake 7 := by
    rw [slice, htext, List.rtake, hlen]
    congr 1
    omega
  have hkept : ((s.buf.take s.overlap ++ bytes).rtake 7).length
      = min (s.overlap + bytes.length) 7 := by
    rw [List.rtake, List.length_drop, hlen]
    omega
  simp only [Scan.search, Scan.feed, searchPiece, Search.feed]
  rw [htext, hend, ← hkept, take_overwrite_zero]

/-- The loop feeds the rest of the file to the hasher and to the search, in the same pieces. -/
theorem loop_ok {pace : Nat → Except ε Nat} {t : Scan σ} (hs : s.Fits)
    (hloop : s.loop h find pace = .ok t) :
    ∃ pieces : List (List UInt8), pieces.flatten = s.file.rest ∧
      t.hash = pieces.foldl h.update s.hash ∧
      t.search = pieces.foldl (searchPiece find) s.search := by
  fun_induction Scan.loop h find pace s with
  | case1 s e hread => cases hloop
  | case2 s bytes file hread hbytes =>
      cases hloop
      have hrest := (File.read_ok hread).2.2 hs.room_pos hbytes
      exact ⟨[], hrest.symm, rfl, rfl⟩
  | case3 s bytes file hread hbytes ih =>
      obtain ⟨hrest, hroom, _⟩ := File.read_ok hread
      obtain ⟨pieces, hflatten, hhash, hsearch⟩ := ih (hs.feed hroom file) hloop
      refine ⟨bytes :: pieces, ?_, ?_, ?_⟩
      · rw [List.flatten_cons, hflatten]
        exact hrest
      · rw [hhash, hash_feed hs bytes file, List.foldl_cons]
      · rw [hsearch, search_feed hs bytes file, List.foldl_cons]

/-- When no read fails, the loop comes to the end of the file. -/
theorem exists_loop (pace : Nat → Nat) (s : Scan σ) :
    ∃ t, s.loop h find (fun i => (.ok (pace i) : Except ε Nat)) = .ok t := by
  fun_induction Scan.loop h find (fun i => (.ok (pace i) : Except ε Nat)) s with
  | case1 s e hread => cases hread
  | case2 s bytes file hread hbytes => exact ⟨_, rfl⟩
  | case3 s bytes file hread hbytes ih => exact ih

/-- At the end of the file, the flag says whether the marker is in the content, and the hasher gives
the digest of it. -/
theorem loop_new (hstreams : h.Streams digest) (hfind : find.Finds) {content : List UInt8}
    {pace : Nat → Except ε Nat} {t : Scan σ}
    (hloop : (Scan.new h content).loop h find pace = .ok t) :
    (t.external = true ↔ marker <:+: content) ∧ h.finalize t.hash = digest content := by
  obtain ⟨pieces, hflatten, hhash, hsearch⟩ := loop_ok (fits_new content) hloop
  have hcontent : pieces.flatten = content := hflatten
  constructor
  · have hfound : t.external = (pieces.foldl (searchPiece find) Search.new).found :=
      congrArg Search.found hsearch
    rw [hfound, ← hcontent]
    exact Search.found_foldl (by decide) (fun text => hfind text marker) (by decide) pieces
  · calc h.finalize t.hash = h.finalize (pieces.foldl h.update h.new) := by rw [hhash]; rfl
      _ = digest content := by rw [hstreams, hcontent]

end Scan

theorem optimizedSourceHash_of_loop {content : List UInt8} {pace : Nat → Except ε Nat} {t : Scan σ}
    (hloop : (Scan.new h content).loop h find pace = .ok t) :
    optimizedSourceHash h find (.ok content) pace
      = .ok (if t.external then none else some (hexLower (h.finalize t.hash))) := by
  simp only [optimizedSourceHash, bind, Except.bind, hloop]
  rfl

/-- Reading the file in other pieces, or failing to, never gives a different answer. -/
theorem optimizedSourceHash_ok (hstreams : h.Streams digest) (hfind : find.Finds)
    {content : List UInt8} {pace : Nat → Except ε Nat} {r : Option String}
    (hr : optimizedSourceHash h find (.ok content) pace = .ok r) :
    r = if marker <:+: content then none else some (hexLower (digest content)) := by
  cases hloop : (Scan.new h content).loop h find pace with
  | error e =>
      simp only [optimizedSourceHash, bind, Except.bind, hloop] at hr
      cases hr
  | ok t =>
      obtain ⟨hexternal, hdigest⟩ := Scan.loop_new hstreams hfind hloop
      rw [optimizedSourceHash_of_loop hloop, hdigest] at hr
      cases hr
      simp only [hexternal]

/-- However short the reads are, a file has a content hash exactly when the marker is nowhere in it,
and that hash is the digest of the whole content. -/
theorem optimizedSourceHash_eq (hstreams : h.Streams digest) (hfind : find.Finds)
    (content : List UInt8) (pace : Nat → Nat) :
    optimizedSourceHash h find (.ok content) (fun i => (.ok (pace i) : Except ε Nat)) =
      .ok (if marker <:+: content then none else some (hexLower (digest content))) := by
  obtain ⟨t, hloop⟩ := Scan.exists_loop pace (Scan.new h content)
  have hresult := optimizedSourceHash_of_loop hloop
  rw [hresult, optimizedSourceHash_ok hstreams hfind hresult]

/-- SHA-256, as `sha2` computes it. -/
def sha256 : Hasher Sha256.State :=
  { new := Sha256.new, update := Sha256.update, finalize := Sha256.finalize }

theorem sha256_streams : sha256.Streams Sha256.digest := Sha256.finalize_foldl

def firstOccurrence : Find := fun haystack needle => haystack.tails.findIdx? needle.isPrefixOf

theorem firstOccurrence_finds : firstOccurrence.Finds := by
  intro haystack needle
  rw [firstOccurrence, List.findIdx?_isSome, List.any_eq_true, List.infix_iff_prefix_suffix]
  simp only [List.mem_tails, List.isPrefixOf_iff_prefix, and_comm]

/-- A file read byte by byte, and a marker that comes in eight reads. -/
theorem optimizedSourceHash_bytewise :
    optimizedSourceHash sha256 firstOccurrence (.ok [0x61, 0x62, 0x63])
        (fun _ => (.ok 1 : Except Unit Nat)) = .ok (some
          "ba7816bf8f01cfea414140de5dae2223b00361a396177a9cb410ff61f20015ad") ∧
      optimizedSourceHash sha256 firstOccurrence (.ok (0x0a :: marker ++ [0x12]))
        (fun _ => (.ok 1 : Except Unit Nat)) = .ok none := by
  constructor
  · rw [optimizedSourceHash_eq sha256_streams firstOccurrence_finds _ fun _ => 1]
    decide +kernel
  · rw [optimizedSourceHash_eq sha256_streams firstOccurrence_finds _ fun _ => 1]
    decide +kernel

end

end ModelCache

end Gigastt
