import Gigastt.Opus
import Gigastt.Outcomes

/-!
The packings of frames in a packet, and that the splitter accepts exactly these: what it returns are
the frames between the header and the padding.
-/

namespace Gigastt.Opus

open Outcomes Slices

/-- A frame length on the wire: one byte below 252, two from there on. -/
def frameLenBytes (size : Nat) : List UInt8 :=
  if size < 252 then [UInt8.ofNat size]
  else [UInt8.ofNat (252 + size % 4), UInt8.ofNat ((size - 252) / 4)]

/-- The longest frame length two bytes can write. -/
def maxFrameLen : Nat := 1275

/-- A padding: the chain of 255 that its count starts with, the byte that ends it, and as many bytes
as the count says. -/
structure Padding where
  chain : Nat
  last : UInt8
  bytes : List UInt8
  last_ne : last.toNat ≠ 255
  length_eq : bytes.length = 254 * chain + last.toNat

def Padding.count (padding : Padding) : List UInt8 :=
  List.replicate padding.chain 255 ++ [padding.last]

/-- The count of the padding, if there is one. -/
def paddingCount (padding : Option Padding) : List UInt8 := (padding.map Padding.count).getD []

def paddingBytes (padding : Option Padding) : List UInt8 := (padding.map Padding.bytes).getD []

/-- The byte after the table of contents in a code 3 packet. -/
def countByte (vbr padded : Bool) (count : Nat) : UInt8 :=
  UInt8.ofNat (128 * vbr.toNat + 64 * padded.toNat + count)

/-- The frames are packed between a header and a padding. -/
inductive Packs (toc : UInt8) : List (List UInt8) → List UInt8 → List UInt8 → Prop
  | one (frame : List UInt8) (hcode : toc.toNat % 4 = 0) : Packs toc [frame] [toc] []
  | equal (a b : List UInt8) (hcode : toc.toNat % 4 = 1) (hlength : a.length = b.length) :
      Packs toc [a, b] [toc] []
  | sized (a b : List UInt8) (hcode : toc.toNat % 4 = 2) (hlength : a.length ≤ maxFrameLen) :
      Packs toc [a, b] (toc :: frameLenBytes a.length) []
  | cbr (frames : List (List UInt8)) (padding : Option Padding) (hcode : toc.toNat % 4 = 3)
      (hpos : 1 ≤ frames.length) (hcount : frames.length ≤ opusMaxFrames)
      (hlength : ∃ size, ∀ frame ∈ frames, frame.length = size) :
      Packs toc frames (toc :: countByte false padding.isSome frames.length :: paddingCount padding)
        (paddingBytes padding)
  | vbr (frames : List (List UInt8)) (padding : Option Padding) (hcode : toc.toNat % 4 = 3)
      (hpos : 1 ≤ frames.length) (hcount : frames.length ≤ opusMaxFrames)
      (hlength : ∀ frame ∈ frames.dropLast, frame.length ≤ maxFrameLen) :
      Packs toc frames
        (toc :: countByte true padding.isSome frames.length ::
          (paddingCount padding ++ frames.dropLast.flatMap fun frame => frameLenBytes frame.length))
        (paddingBytes padding)

theorem frameLenBytes_short {size : Nat} (h : size < 252) :
    frameLenBytes size = [UInt8.ofNat size] := if_pos h

theorem frameLenBytes_long {size : Nat} (h : 252 ≤ size) :
    frameLenBytes size = [UInt8.ofNat (252 + size % 4), UInt8.ofNat ((size - 252) / 4)] :=
  if_neg (Nat.not_lt.mpr h)

theorem opusFrameLen_short {first : UInt8} (h : first.toNat < 252) (rest : List UInt8) :
    opusFrameLen (first :: rest) = .ok (first.toNat, 1) := if_pos h

theorem opusFrameLen_long {first : UInt8} (h : 252 ≤ first.toNat) (second : UInt8)
    (rest : List UInt8) :
    opusFrameLen (first :: second :: rest) = .ok (second.toNat * 4 + first.toNat, 2) :=
  if_neg (Nat.not_lt.mpr h)

theorem ofNat_eq_iff {n : Nat} (h : n < 256) {b : UInt8} : UInt8.ofNat n = b ↔ n = b.toNat := by
  rw [← UInt8.toNat_inj, UInt8.toNat_ofNat_of_lt' h]

/-- A frame length is read exactly where one is written. -/
theorem opusFrameLen_eq_ok {data : List UInt8} {size used : Nat} :
    opusFrameLen data = .ok (size, used) ↔
      size ≤ maxFrameLen ∧ used = (frameLenBytes size).length ∧ frameLenBytes size <+: data := by
  unfold maxFrameLen
  constructor
  · intro h
    unfold opusFrameLen at h
    split at h
    · cases h
    · rename_i first rest
      have hfirst := first.toNat_lt
      split at h
      · cases h
        rw [frameLenBytes_short ‹_›, UInt8.ofNat_toNat]
        exact ⟨by omega, rfl, rest, rfl⟩
      · split at h
        · cases h
        · rename_i second tail
          have hsecond := second.toNat_lt
          cases h
          rw [frameLenBytes_long (by omega)]
          have hlow : UInt8.ofNat (252 + (second.toNat * 4 + first.toNat) % 4) = first :=
            (ofNat_eq_iff (by omega)).mpr (by omega)
          have hhigh : UInt8.ofNat ((second.toNat * 4 + first.toNat - 252) / 4) = second :=
            (ofNat_eq_iff (by omega)).mpr (by omega)
          rw [hlow, hhigh]
          exact ⟨by omega, rfl, tail, rfl⟩
  · rintro ⟨hsize, rfl, rest, rfl⟩
    by_cases hshort : size < 252
    · have hfirst := UInt8.toNat_ofNat_of_lt' (show size < 256 by omega)
      rw [frameLenBytes_short hshort, List.cons_append,
        opusFrameLen_short (hfirst.symm ▸ hshort), hfirst]
      rfl
    · have hlow := UInt8.toNat_ofNat_of_lt' (show 252 + size % 4 < 256 by omega)
      have hhigh := UInt8.toNat_ofNat_of_lt' (show (size - 252) / 4 < 256 by omega)
      rw [frameLenBytes_long (by omega), List.cons_append, List.cons_append,
        opusFrameLen_long (by omega), hlow, hhigh]
      exact congrArg (fun n => Except.ok (n, 2)) (by omega)

/-- The count of a padding is read exactly where one is written. -/
theorem opusPaddingLen_eq_ok {data : List UInt8} {size used : Nat} :
    opusPaddingLen data = .ok (size, used) ↔
      ∃ chain last rest, last.toNat ≠ 255 ∧ data = List.replicate chain 255 ++ last :: rest ∧
        size = 254 * chain + last.toNat ∧ used = chain + 1 := by
  induction data generalizing size used with
  | nil =>
      refine ⟨nofun, ?_⟩
      rintro ⟨chain, last, rest, _, hdata, _⟩
      have hlength := congrArg List.length hdata
      simp at hlength
  | cons byte data ih =>
      unfold opusPaddingLen
      split
      · rename_i hbyte
        constructor
        · intro h
          obtain ⟨⟨padding, count⟩, hrest, heq⟩ := map_eq_ok.mp h
          obtain ⟨chain, last, rest, hlast, rfl, rfl, rfl⟩ := ih.mp hrest
          cases heq
          refine ⟨chain + 1, last, rest, hlast, ?_, by omega, rfl⟩
          have hbyte' : byte = 255 := UInt8.toNat_inj.mp hbyte
          rw [List.replicate_succ, List.cons_append, hbyte']
        · rintro ⟨chain, last, rest, hlast, hdata, rfl, rfl⟩
          cases chain with
          | zero =>
              obtain ⟨rfl, _⟩ := List.cons.inj hdata
              exact absurd hbyte hlast
          | succ chain =>
              obtain ⟨_, rfl⟩ := List.cons.inj hdata
              have hrest := ih.mpr ⟨chain, last, rest, hlast, rfl, rfl, rfl⟩
              exact map_eq_ok.mpr ⟨_, hrest, Prod.ext (by dsimp only; omega) rfl⟩
      · rename_i hbyte
        constructor
        · intro h
          cases h
          exact ⟨0, byte, data, hbyte, rfl, by omega, rfl⟩
        · rintro ⟨chain, last, rest, hlast, hdata, rfl, rfl⟩
          cases chain with
          | zero =>
              obtain ⟨rfl, _⟩ := List.cons.inj hdata
              simp
          | succ chain =>
              obtain ⟨rfl, _⟩ := List.cons.inj hdata
              exact absurd rfl hbyte

theorem getRange_eq_ok {bytes out : List UInt8} {start stop : Nat} {message : String} :
    getRange bytes start stop message = .ok out ↔
      start ≤ stop ∧ stop ≤ bytes.length ∧ out = slice bytes start stop := by
  unfold getRange
  split
  · rename_i h
    rw [and_iff_right h.1, and_iff_right h.2, Except.ok.injEq, eq_comm]
  · rename_i h
    refine ⟨nofun, fun hout => absurd ⟨hout.1, hout.2.1⟩ h⟩

theorem cut_eq_ok {bytes out : List UInt8} {start stop : Nat} :
    cut bytes start stop = .ok out ↔
      start ≤ stop ∧ stop ≤ bytes.length ∧ out = slice bytes start stop := by
  unfold cut
  split
  · rename_i h
    rw [and_iff_right h.1, and_iff_right h.2, Except.ok.injEq, eq_comm]
  · rename_i h
    refine ⟨nofun, fun hout => absurd ⟨hout.1, hout.2.1⟩ h⟩

/-- The data of a slice after its front. -/
theorem slice_after {bytes front rest : List UInt8} {pos stop : Nat}
    (h : slice bytes pos stop = front ++ rest) : slice bytes (pos + front.length) stop = rest := by
  rw [← drop_slice, h, List.drop_left]

theorem pos_add_le {bytes front rest : List UInt8} {pos stop : Nat} (hpos : pos ≤ stop)
    (hstop : stop ≤ bytes.length) (h : slice bytes pos stop = front ++ rest) :
    pos + front.length ≤ stop := by
  have hlength := congrArg List.length h
  rw [length_slice hstop, List.length_append] at hlength
  omega

/-- The lengths are read exactly where they are written one after the other. -/
theorem readSizes_eq_ok {payload : List UInt8} {stop : Nat} (hstop : stop ≤ payload.length)
    {n pos pos' : Nat} {sizes : List Nat} (hpos : pos ≤ stop) :
    readSizes payload stop n pos = .ok (sizes, pos') ↔
      sizes.length = n ∧ (∀ size ∈ sizes, size ≤ maxFrameLen) ∧
        pos' = pos + (sizes.flatMap frameLenBytes).length ∧
        sizes.flatMap frameLenBytes <+: slice payload pos stop := by
  induction n generalizing pos pos' sizes with
  | zero =>
      rw [readSizes, List.length_eq_zero_iff]
      constructor
      · intro h
        cases h
        exact ⟨rfl, nofun, rfl, List.nil_prefix⟩
      · rintro ⟨rfl, _, rfl, _⟩
        rfl
  | succ n ih =>
      rw [readSizes, bind_eq_ok]
      constructor
      · rintro ⟨data, hdata, h⟩
        obtain ⟨_, _, rfl⟩ := getRange_eq_ok.mp hdata
        obtain ⟨⟨size, used⟩, hsize, h⟩ := bind_eq_ok.mp h
        obtain ⟨hfits, rfl, rest, hrest⟩ := opusFrameLen_eq_ok.mp hsize
        obtain ⟨⟨sizes', pos''⟩, hsizes, h⟩ := bind_eq_ok.mp h
        obtain ⟨hlength, hall, rfl, hstarts⟩ :=
          (ih (pos_add_le hpos hstop hrest.symm)).mp hsizes
        rw [slice_after hrest.symm] at hstarts
        cases h
        refine ⟨congrArg (· + 1) hlength, ?_, ?_, ?_⟩
        · exact List.forall_mem_cons.mpr ⟨hfits, hall⟩
        · rw [List.flatMap_cons, List.length_append, Nat.add_assoc]
        · rw [List.flatMap_cons, ← hrest]
          exact (List.prefix_append_right_inj _).mpr hstarts
      · rintro ⟨hlength, hall, rfl, hstarts⟩
        cases sizes with
        | nil => cases hlength
        | cons size sizes =>
            obtain ⟨hfits, hall⟩ := List.forall_mem_cons.mp hall
            obtain ⟨tail, htail⟩ := hstarts
            rw [List.flatMap_cons, List.append_assoc] at htail
            have hnext : readSizes payload stop n (pos + (frameLenBytes size).length)
                = .ok (sizes, pos + (frameLenBytes size).length
                    + (sizes.flatMap frameLenBytes).length) := by
              refine (ih (pos_add_le hpos hstop htail.symm)).mpr ⟨Nat.succ.inj hlength, hall, rfl, ?_⟩
              rw [slice_after htail.symm]
              exact List.prefix_append _ _
            refine ⟨_, getRange_eq_ok.mpr ⟨hpos, hstop, rfl⟩, ?_⟩
            refine bind_eq_ok.mpr ⟨(size, (frameLenBytes size).length), ?_, ?_⟩
            · exact opusFrameLen_eq_ok.mpr ⟨hfits, rfl, _, htail⟩
            · refine bind_eq_ok.mpr ⟨_, hnext, ?_⟩
              rw [List.flatMap_cons, List.length_append, Nat.add_assoc]
              rfl

/-- The frames are cut exactly where they lie one after the other. -/
theorem cutFrames_eq_ok {payload : List UInt8} {stop : Nat} (hstop : stop ≤ payload.length)
    {pos pos' : Nat} {sizes : List Nat} {frames : List (List UInt8)} (hpos : pos ≤ stop) :
    cutFrames payload stop sizes pos = .ok (frames, pos') ↔
      frames.map List.length = sizes ∧ pos' = pos + frames.flatten.length ∧
        frames.flatten <+: slice payload pos stop := by
  induction sizes generalizing pos frames pos' with
  | nil =>
      rw [cutFrames, List.map_eq_nil_iff]
      constructor
      · intro h
        cases h
        exact ⟨rfl, rfl, List.nil_prefix⟩
      · rintro ⟨rfl, rfl, _⟩
        rfl
  | cons size sizes ih =>
      have hsplit : ∀ next, pos ≤ next → next ≤ stop →
          slice payload pos stop = slice payload pos next ++ slice payload next stop :=
        fun next hnext hle => (slice_append_slice hnext hle).symm
      rw [cutFrames]
      constructor
      · intro h
        split at h
        · rename_i hfits
          obtain ⟨frame, hframe, h⟩ := bind_eq_ok.mp h
          obtain ⟨hle, hle', rfl⟩ := cut_eq_ok.mp hframe
          obtain ⟨⟨frames', pos''⟩, hframes, h⟩ := bind_eq_ok.mp h
          obtain ⟨rfl, rfl, hstarts⟩ := (ih hfits).mp hframes
          have hlength : (slice payload pos (pos + size)).length = size := by
            rw [length_slice hle']
            omega
          cases h
          refine ⟨?_, ?_, ?_⟩
          · rw [List.map_cons, hlength]
          · rw [List.flatten_cons, List.length_append, hlength, Nat.add_assoc]
          · rw [List.flatten_cons, hsplit (pos + size) hle hfits]
            exact (List.prefix_append_right_inj _).mpr hstarts
        · cases h
      · rintro ⟨hsizes, rfl, hstarts⟩
        cases frames with
        | nil => cases hsizes
        | cons frame frames =>
            obtain ⟨rfl, rfl⟩ := List.cons.inj hsizes
            obtain ⟨tail, htail⟩ := hstarts
            rw [List.flatten_cons, List.append_assoc] at htail
            have hfits := pos_add_le hpos hstop htail.symm
            have hframe : slice payload pos (pos + frame.length) = frame := by
              have hfront := hsplit (pos + frame.length) (Nat.le_add_right _ _) hfits
              rw [← htail] at hfront
              refine (List.append_inj_left hfront ?_).symm
              rw [length_slice (Nat.le_trans hfits hstop)]
              omega
            have hnext : cutFrames payload stop (frames.map List.length) (pos + frame.length)
                = .ok (frames, pos + frame.length + frames.flatten.length) := by
              refine (ih hfits).mpr ⟨rfl, rfl, ?_⟩
              rw [slice_after htail.symm]
              exact List.prefix_append _ _
            rw [if_pos hfits]
            refine bind_eq_ok.mpr ⟨frame, ?_, bind_eq_ok.mpr ⟨_, hnext, ?_⟩⟩
            · exact cut_eq_ok.mpr ⟨Nat.le_add_right _ _, Nat.le_trans hfits hstop, hframe.symm⟩
            · rw [List.flatten_cons, List.length_append, Nat.add_assoc]
              rfl

theorem length_paddingCount_some (padding : Padding) :
    (paddingCount (some padding)).length = padding.chain + 1 := by
  simp [paddingCount, Padding.count]

theorem slice_tail (first : UInt8) (tail : List UInt8) :
    slice (first :: tail) 1 (first :: tail).length = tail := by
  rw [slice, List.take_length, List.drop_one, List.tail_cons]

theorem paddingCount_append (padding : Padding) (data : List UInt8) :
    paddingCount (some padding) ++ data ++ paddingBytes (some padding)
      = List.replicate padding.chain 255 ++ padding.last :: (data ++ padding.bytes) := by
  simp [paddingCount, paddingBytes, Padding.count]

/-- What a padded packet is cut into holds the padding that its count announces. -/
theorem exists_padding_of_dataRange {first : UInt8} {tail : List UInt8} {pos stop : Nat}
    (h : dataRange (first :: tail) true = .ok (pos, stop)) :
    ∃ padding data, tail = paddingCount (some padding) ++ data ++ paddingBytes (some padding) ∧
      pos = 1 + (paddingCount (some padding)).length ∧ stop = pos + data.length := by
  unfold dataRange at h
  rw [if_pos rfl] at h
  obtain ⟨data, hdata, h⟩ := bind_eq_ok.mp h
  obtain ⟨_, _, rfl⟩ := getRange_eq_ok.mp hdata
  rw [slice_tail] at h
  obtain ⟨⟨size, used⟩, hpadding, h⟩ := bind_eq_ok.mp h
  obtain ⟨chain, last, rest, hlast, rfl, rfl, rfl⟩ := opusPaddingLen_eq_ok.mp hpadding
  dsimp only at h
  split at h
  · cases h
  · split at h
    · cases h
    · rename_i hfits hroom
      cases h
      simp only [List.length_cons, List.length_append, List.length_replicate] at hfits hroom
      refine ⟨⟨chain, last, rest.drop (rest.length - (254 * chain + last.toNat)), hlast, ?_⟩,
        rest.take (rest.length - (254 * chain + last.toNat)), ?_, ?_, ?_⟩
      · rw [List.length_drop]
        omega
      · simp [paddingCount, paddingBytes, Padding.count]
      · rw [length_paddingCount_some]
      · simp only [List.length_cons, List.length_append, List.length_replicate, List.length_take]
        omega

theorem dataRange_of_padding (first : UInt8) (padding : Padding) (data : List UInt8) :
    dataRange
        (first :: (paddingCount (some padding) ++ data ++ paddingBytes (some padding))) true
      = .ok (1 + (paddingCount (some padding)).length,
          1 + (paddingCount (some padding)).length + data.length) := by
  have hlength := padding.length_eq
  unfold dataRange
  rw [if_pos rfl]
  refine bind_eq_ok.mpr ⟨_, getRange_eq_ok.mpr ⟨by simp, Nat.le_refl _, rfl⟩, ?_⟩
  rw [slice_tail, paddingCount_append]
  refine bind_eq_ok.mpr ⟨_, opusPaddingLen_eq_ok.mpr
    ⟨padding.chain, padding.last, _, padding.last_ne, rfl, rfl, rfl⟩, ?_⟩
  have hlen : (first :: (List.replicate padding.chain 255 ++
      padding.last :: (data ++ padding.bytes))).length
        = 1 + (padding.chain + 1) + data.length + (254 * padding.chain + padding.last.toNat) := by
    simp only [List.length_cons, List.length_append, List.length_replicate]
    omega
  dsimp only
  rw [hlen, if_neg (by omega), if_neg (by omega), length_paddingCount_some, Nat.add_sub_cancel]
  rfl

/-- The data of a code 3 packet lies between the count of its padding and the padding. -/
theorem dataRange_eq_ok {first : UInt8} {tail : List UInt8} {padded : Bool} {pos stop : Nat} :
    dataRange (first :: tail) padded = .ok (pos, stop) ↔
      ∃ padding data, padding.isSome = padded ∧
        tail = paddingCount padding ++ data ++ paddingBytes padding ∧
        pos = 1 + (paddingCount padding).length ∧ stop = pos + data.length := by
  cases padded with
  | false =>
      unfold dataRange
      rw [if_neg Bool.false_ne_true]
      constructor
      · intro h
        cases h
        exact ⟨none, tail, rfl, by simp [paddingCount, paddingBytes], rfl, by simp; omega⟩
      · rintro ⟨padding, data, hnone, rfl, rfl, rfl⟩
        rw [Option.isSome_eq_false_iff, Option.isNone_iff_eq_none] at hnone
        subst hnone
        simp [paddingCount, paddingBytes, Nat.add_comm]
        rfl
  | true =>
      constructor
      · intro h
        obtain ⟨padding, data, htail, hpos, hstop⟩ := exists_padding_of_dataRange h
        exact ⟨some padding, data, rfl, htail, hpos, hstop⟩
      · rintro ⟨padding, data, hsome, rfl, rfl, rfl⟩
        obtain ⟨padding, rfl⟩ := Option.isSome_iff_exists.mp hsome
        exact dataRange_of_padding first padding data

/-- What the sizes of the frames are, given the data after the count of the padding. -/
def SizesFit (vbr : Bool) (count : Nat) (data : List UInt8) (sizes : List Nat) (used : Nat) : Prop :=
  if vbr then
    ∃ front, front.length = count - 1 ∧ (∀ size ∈ front, size ≤ maxFrameLen) ∧
      used = (front.flatMap frameLenBytes).length ∧ front.flatMap frameLenBytes <+: data ∧
      used + front.sum ≤ data.length ∧ sizes = front ++ [data.length - used - front.sum]
  else used = 0 ∧ ∃ size, data.length = count * size ∧ sizes = List.replicate count size

theorem frameSizes_eq_ok {payload : List UInt8} {vbr : Bool} {count pos pos' stop : Nat}
    {sizes : List Nat} (hcount : 1 ≤ count) (hpos : pos ≤ stop) (hstop : stop ≤ payload.length) :
    frameSizes payload vbr count pos stop = .ok (sizes, pos') ↔
      ∃ used, pos' = pos + used ∧ SizesFit vbr count (slice payload pos stop) sizes used := by
  have hdata : (slice payload pos stop).length = stop - pos := length_slice hstop
  unfold frameSizes SizesFit
  cases vbr with
  | true =>
      rw [if_pos rfl]
      constructor
      · intro h
        obtain ⟨⟨front, pos''⟩, hfront, h⟩ := bind_eq_ok.mp h
        obtain ⟨hlength, hfits, rfl, hstarts⟩ := (readSizes_eq_ok hstop hpos).mp hfront
        dsimp only at h
        split at h
        · cases h
        · split at h
          · cases h
          · cases h
            refine ⟨_, rfl, ?_⟩
            rw [if_pos rfl, hdata]
            refine ⟨front, hlength, hfits, rfl, hstarts, by omega, ?_⟩
            rw [Nat.sub_add_eq]
      · rintro ⟨used, rfl, h⟩
        rw [if_pos rfl, hdata] at h
        obtain ⟨front, hlength, hfits, rfl, hstarts, hroom, rfl⟩ := h
        refine bind_eq_ok.mpr ⟨_, (readSizes_eq_ok hstop hpos).mpr
          ⟨hlength, hfits, rfl, hstarts⟩, ?_⟩
        dsimp only
        rw [if_neg (by omega), if_neg (by omega), Nat.sub_add_eq]
        rfl
  | false =>
      rw [if_neg Bool.false_ne_true, if_neg (by omega)]
      constructor
      · intro h
        split at h
        · rename_i hdivides
          cases h
          refine ⟨0, rfl, ?_⟩
          rw [if_neg Bool.false_ne_true, hdata]
          exact ⟨rfl, _, (Nat.mul_div_cancel' (Nat.dvd_of_mod_eq_zero hdivides)).symm, rfl⟩
        · cases h
      · rintro ⟨used, rfl, h⟩
        rw [if_neg Bool.false_ne_true, hdata] at h
        obtain ⟨rfl, size, hsize, rfl⟩ := h
        rw [hsize, Nat.mul_mod_right, if_pos rfl, Nat.mul_div_cancel_left size hcount]
        rfl

/-- The lengths a code 3 packet writes. -/
def lengthBytes (vbr : Bool) (frames : List (List UInt8)) : List UInt8 :=
  if vbr then frames.dropLast.flatMap fun frame => frameLenBytes frame.length else []

/-- The frames have lengths that a code 3 packet can write, or leave out. -/
def LengthsFit (vbr : Bool) (frames : List (List UInt8)) : Prop :=
  if vbr then ∀ frame ∈ frames.dropLast, frame.length ≤ maxFrameLen
  else ∃ size, ∀ frame ∈ frames, frame.length = size

theorem map_length_eq_replicate {frames : List (List UInt8)} {size : Nat}
    (h : ∀ frame ∈ frames, frame.length = size) :
    frames.map List.length = List.replicate frames.length size := by
  rw [List.eq_replicate_iff, List.length_map]
  refine ⟨rfl, ?_⟩
  intro n hn
  obtain ⟨frame, hframe, rfl⟩ := List.mem_map.mp hn
  exact h frame hframe

/-- The sizes are those of the frames when the data are the lengths and the frames. -/
theorem sizesFit_iff {vbr : Bool} {count used : Nat} {data : List UInt8}
    {frames : List (List UInt8)} (hcount : 1 ≤ count) :
    SizesFit vbr count data (frames.map List.length) used ∧ data.drop used = frames.flatten ↔
      frames.length = count ∧ LengthsFit vbr frames ∧ data = lengthBytes vbr frames ++ frames.flatten ∧
        used = (lengthBytes vbr frames).length := by
  unfold SizesFit LengthsFit lengthBytes
  cases vbr with
  | true =>
      rw [if_pos rfl, if_pos rfl, if_pos rfl]
      constructor
      · rintro ⟨⟨front, hlength, hfits, rfl, ⟨rest, rfl⟩, _, hsizes⟩, hflatten⟩
        have hfront : front = frames.dropLast.map List.length := by
          rw [List.map_dropLast, hsizes, List.dropLast_concat]
        have hframes : frames.length = count := by
          have hlen := congrArg List.length hsizes
          rw [List.length_map, List.length_append, List.length_singleton] at hlen
          omega
        rw [List.drop_left] at hflatten
        subst hfront
        rw [List.flatMap_map, hflatten]
        exact ⟨hframes, fun frame hframe => hfits _ (List.mem_map_of_mem hframe), rfl, rfl⟩
      · rintro ⟨rfl, hfits, rfl, rfl⟩
        obtain rfl | ⟨front, last, rfl⟩ := List.eq_nil_or_concat' frames
        · cases hcount
        rw [List.dropLast_concat] at hfits ⊢
        have hsum : (front ++ [last]).flatten.length = (front.map List.length).sum + last.length := by
          simp [List.length_flatten]
        refine ⟨⟨front.map List.length, ?_, ?_, ?_, ?_, ?_, ?_⟩, List.drop_left⟩
        · simp
        · intro size hsize
          obtain ⟨frame, hframe, rfl⟩ := List.mem_map.mp hsize
          exact hfits frame hframe
        · rw [List.flatMap_map]
        · rw [List.flatMap_map]
          exact List.prefix_append _ _
        · rw [List.length_append, hsum]
          omega
        · rw [List.map_append, List.length_append, hsum, Nat.add_sub_cancel_left,
            Nat.add_sub_cancel_left]
          rfl
  | false =>
      rw [if_neg Bool.false_ne_true, if_neg Bool.false_ne_true, if_neg Bool.false_ne_true]
      constructor
      · rintro ⟨⟨rfl, size, hsize, hsizes⟩, hflatten⟩
        have hframes := congrArg List.length hsizes
        rw [List.length_map, List.length_replicate] at hframes
        refine ⟨hframes, ⟨size, fun frame hframe => ?_⟩, hflatten, rfl⟩
        have hmem := List.mem_map_of_mem (f := List.length) hframe
        rw [hsizes] at hmem
        exact List.eq_of_mem_replicate hmem
      · rintro ⟨rfl, ⟨size, hsize⟩, rfl, rfl⟩
        refine ⟨⟨rfl, size, ?_, map_length_eq_replicate hsize⟩, rfl⟩
        rw [List.nil_append, List.length_flatten, map_length_eq_replicate hsize]
        simp

theorem countByte_toNat {vbr padded : Bool} {count : Nat} (hcount : count ≤ opusMaxFrames) :
    (countByte vbr padded count).toNat = 128 * vbr.toNat + 64 * padded.toNat + count := by
  unfold opusMaxFrames at hcount
  have hvbr := vbr.toNat_le
  have hpadded := padded.toNat_le
  exact UInt8.toNat_ofNat_of_lt' (show _ < 256 by omega)

theorem countByte_bits (vbr padded : Bool) {count : Nat} (hcount : count ≤ opusMaxFrames) :
    (countByte vbr padded count).toNat % 64 = count ∧
      decide ((countByte vbr padded count).toNat / 128 % 2 = 1) = vbr ∧
      decide ((countByte vbr padded count).toNat / 64 % 2 = 1) = padded := by
  rw [countByte_toNat hcount]
  unfold opusMaxFrames at hcount
  cases vbr with
  | _ =>
      cases padded with
      | _ =>
          simp only [Bool.toNat_true, Bool.toNat_false, decide_eq_true_eq, decide_eq_false_iff_not]
          omega

/-- A byte is the count byte of its flags and its count. -/
theorem countByte_eq {b : UInt8} {vbr padded : Bool} (hvbr : vbr = decide (b.toNat / 128 % 2 = 1))
    (hpadded : padded = decide (b.toNat / 64 % 2 = 1)) : countByte vbr padded (b.toNat % 64) = b := by
  have hb := b.toNat_lt
  have hflag : ∀ n : Nat, (decide (n % 2 = 1)).toNat = n % 2 := by
    intro n
    rcases Nat.mod_two_eq_zero_or_one n with h | h
    · rw [h]
      rfl
    · rw [h]
      rfl
  unfold countByte
  rw [hvbr, hpadded, hflag, hflag, ofNat_eq_iff]
  · omega
  · omega

theorem slice_middle (front data back : List UInt8) :
    slice (front ++ data ++ back) front.length (front.length + data.length) = data := by
  rw [slice, ← List.length_append, List.take_left, List.drop_left]

theorem SizesFit.used_le {vbr : Bool} {count used : Nat} {data : List UInt8} {sizes : List Nat}
    (h : SizesFit vbr count data sizes used) : used ≤ data.length := by
  unfold SizesFit at h
  split at h
  · obtain ⟨_, _, _, _, _, hroom, _⟩ := h
    omega
  · omega

/-- The sizes are read and the frames cut, up to the end of the data, exactly where the lengths and
the frames lie in them. -/
theorem cutData_iff {payload : List UInt8} {vbr : Bool} {count pos stop : Nat}
    {frames : List (List UInt8)} (hcount : 1 ≤ count) (hpos : pos ≤ stop)
    (hstop : stop ≤ payload.length) :
    (∃ sizes pos', frameSizes payload vbr count pos stop = .ok (sizes, pos') ∧
        cutFrames payload stop sizes pos' = .ok (frames, stop)) ↔
      frames.length = count ∧ LengthsFit vbr frames ∧
        slice payload pos stop = lengthBytes vbr frames ++ frames.flatten := by
  have hdata : (slice payload pos stop).length = stop - pos := length_slice hstop
  constructor
  · rintro ⟨sizes, pos', hsizes, hframes⟩
    obtain ⟨used, rfl, hfit⟩ := (frameSizes_eq_ok hcount hpos hstop).mp hsizes
    have hused := hfit.used_le
    obtain ⟨rfl, hend, hstarts⟩ := (cutFrames_eq_ok hstop (by omega)).mp hframes
    rw [← drop_slice] at hstarts
    have hdrop := hstarts.eq_of_length (by rw [List.length_drop]; omega)
    obtain ⟨hlength, hlengths, heq, _⟩ := (sizesFit_iff hcount).mp ⟨hfit, hdrop.symm⟩
    exact ⟨hlength, hlengths, heq⟩
  · rintro ⟨hlength, hlengths, heq⟩
    obtain ⟨hfit, hdrop⟩ := (sizesFit_iff hcount).mpr ⟨hlength, hlengths, heq, rfl⟩
    have hused := hfit.used_le
    have hend := congrArg List.length heq
    rw [List.length_append, hdata] at hend
    refine ⟨_, _, (frameSizes_eq_ok hcount hpos hstop).mpr ⟨_, rfl, hfit⟩, ?_⟩
    refine (cutFrames_eq_ok hstop (by omega)).mpr ⟨rfl, by omega, ?_⟩
    simp only [← drop_slice, hdrop, List.prefix_rfl]

/-- A code 3 packet is split exactly where one is packed. -/
theorem splitCounted_eq_ok {payload : List UInt8} {frames : List (List UInt8)} :
    splitCounted payload = .ok frames ↔
      ∃ vbr padding, 1 ≤ frames.length ∧ frames.length ≤ opusMaxFrames ∧ LengthsFit vbr frames ∧
        payload = countByte vbr padding.isSome frames.length ::
          (paddingCount padding ++ (lengthBytes vbr frames ++ frames.flatten) ++ paddingBytes padding) := by
  have hslice : ∀ first (padding : Option Padding) data,
      slice (first :: (paddingCount padding ++ data ++ paddingBytes padding))
        (1 + (paddingCount padding).length) (1 + (paddingCount padding).length + data.length)
          = data := by
    intro first padding data
    have hmiddle := slice_middle (first :: paddingCount padding) data (paddingBytes padding)
    rw [List.length_cons, Nat.add_comm _ 1] at hmiddle
    exact hmiddle
  have hlen : ∀ first (padding : Option Padding) (data : List UInt8),
      1 + (paddingCount padding).length + data.length
        ≤ (first :: (paddingCount padding ++ data ++ paddingBytes padding)).length := by
    intro first padding data
    simp only [List.length_cons, List.length_append]
    omega
  unfold splitCounted
  cases payload with
  | nil => exact ⟨nofun, fun ⟨_, _, _, _, _, h⟩ => nomatch h⟩
  | cons first tail =>
      dsimp only
      constructor
      · intro h
        split at h
        · rename_i hcount
          obtain ⟨⟨pos, stop⟩, hrange, h⟩ := bind_eq_ok.mp h
          obtain ⟨⟨sizes, pos'⟩, hsizes, h⟩ := bind_eq_ok.mp h
          obtain ⟨⟨frames', pos''⟩, hframes, hfinal⟩ := bind_eq_ok.mp h
          obtain ⟨padding, data, hpadded, rfl, rfl, rfl⟩ := dataRange_eq_ok.mp hrange
          dsimp only at hfinal
          split at hfinal
          · subst pos''
            cases hfinal
            obtain ⟨hlength, hlengths, hdata⟩ := (cutData_iff hcount.1 (Nat.le_add_right _ _)
              (hlen first padding data)).mp ⟨_, _, hsizes, hframes⟩
            rw [hslice] at hdata
            rw [hlength]
            refine ⟨_, padding, hcount.1, hcount.2, hlengths, ?_⟩
            rw [countByte_eq rfl hpadded, hdata]
          · cases hfinal
        · cases h
      · rintro ⟨vbr, padding, hpos, hcount, hlengths, heq⟩
        obtain ⟨rfl, rfl⟩ := List.cons.inj heq
        have hbits := countByte_bits vbr padding.isSome hcount
        obtain ⟨sizes, pos', hsizes, hframes⟩ := (cutData_iff hpos (Nat.le_add_right _ _)
          (hlen (countByte vbr padding.isSome frames.length) padding
            (lengthBytes vbr frames ++ frames.flatten))).mpr ⟨rfl, hlengths, hslice _ _ _⟩
        rw [hbits.1, if_pos ⟨hpos, hcount⟩, hbits.2.1, hbits.2.2]
        refine bind_eq_ok.mpr ⟨_, dataRange_eq_ok.mpr ⟨padding, _, rfl, rfl, rfl, rfl⟩, ?_⟩
        refine bind_eq_ok.mpr ⟨_, hsizes, bind_eq_ok.mpr ⟨_, hframes, ?_⟩⟩
        exact if_pos rfl

theorem splitEqual_eq_ok {payload : List UInt8} {frames : List (List UInt8)} :
    splitEqual payload = .ok frames ↔
      ∃ a b, frames = [a, b] ∧ a.length = b.length ∧ payload = a ++ b := by
  unfold splitEqual
  constructor
  · intro h
    split at h
    · rename_i heven
      obtain ⟨a, ha, h⟩ := bind_eq_ok.mp h
      obtain ⟨b, hb, h⟩ := bind_eq_ok.mp h
      obtain ⟨_, hhalf, rfl⟩ := cut_eq_ok.mp ha
      obtain ⟨_, _, rfl⟩ := cut_eq_ok.mp hb
      cases h
      refine ⟨_, _, rfl, ?_, ?_⟩
      · rw [length_slice hhalf, length_slice (Nat.le_refl _)]
        omega
      · rw [slice_append_slice (Nat.zero_le _) hhalf, slice_zero_length]
    · cases h
  · rintro ⟨a, b, rfl, hlength, rfl⟩
    have hhalf : (a ++ b).length / 2 = a.length := by
      rw [List.length_append]
      omega
    have hfront : slice (a ++ b) 0 a.length = a := by rw [slice, List.take_left, List.drop_zero]
    have hback : slice (a ++ b) a.length (a ++ b).length = b := by
      rw [slice, List.take_length, List.drop_left]
    rw [if_pos (by rw [List.length_append]; omega)]
    dsimp only
    rw [hhalf]
    refine bind_eq_ok.mpr ⟨a, cut_eq_ok.mpr ⟨Nat.zero_le _, by simp, hfront.symm⟩, ?_⟩
    exact bind_eq_ok.mpr ⟨b, cut_eq_ok.mpr ⟨by simp, Nat.le_refl _, hback.symm⟩, rfl⟩

theorem splitSized_eq_ok {payload : List UInt8} {frames : List (List UInt8)} :
    splitSized payload = .ok frames ↔
      ∃ a b, frames = [a, b] ∧ a.length ≤ maxFrameLen ∧
        payload = frameLenBytes a.length ++ (a ++ b) := by
  have hafter : ∀ front rest : List UInt8,
      slice (front ++ rest) front.length (front ++ rest).length = rest := by
    intro front rest
    rw [slice, List.take_length, List.drop_left]
  unfold splitSized
  constructor
  · intro h
    obtain ⟨⟨size, used⟩, hsize, h⟩ := bind_eq_ok.mp h
    obtain ⟨hfits, rfl, rest, rfl⟩ := opusFrameLen_eq_ok.mp hsize
    obtain ⟨data, hdata, h⟩ := bind_eq_ok.mp h
    obtain ⟨_, _, rfl⟩ := getRange_eq_ok.mp hdata
    rw [hafter] at h
    split at h
    · cases h
    · obtain ⟨a, ha, h⟩ := bind_eq_ok.mp h
      obtain ⟨b, hb, h⟩ := bind_eq_ok.mp h
      obtain ⟨_, hfirst, rfl⟩ := cut_eq_ok.mp ha
      obtain ⟨_, _, rfl⟩ := cut_eq_ok.mp hb
      cases h
      have hlength : (slice rest 0 size).length = size := length_slice hfirst
      refine ⟨_, _, rfl, hlength.symm ▸ hfits, ?_⟩
      rw [hlength, slice_append_slice (Nat.zero_le _) hfirst, slice_zero_length]
  · rintro ⟨a, b, rfl, hfits, rfl⟩
    have hfront : slice (a ++ b) 0 a.length = a := by rw [slice, List.take_left, List.drop_zero]
    refine bind_eq_ok.mpr ⟨_, opusFrameLen_eq_ok.mpr ⟨hfits, rfl, List.prefix_append _ _⟩, ?_⟩
    refine bind_eq_ok.mpr ⟨_, getRange_eq_ok.mpr ⟨by simp, Nat.le_refl _, rfl⟩, ?_⟩
    rw [hafter, if_neg (by simp)]
    refine bind_eq_ok.mpr ⟨a, cut_eq_ok.mpr ⟨Nat.zero_le _, by simp, hfront.symm⟩, ?_⟩
    exact bind_eq_ok.mpr ⟨b, cut_eq_ok.mpr ⟨by simp, Nat.le_refl _, (hafter a b).symm⟩, rfl⟩

/-- What follows the table of contents is split exactly where it is packed. -/
theorem splitPayload_eq_ok {toc : UInt8} {payload : List UInt8} {frames : List (List UInt8)} :
    splitPayload (toc.toNat % 4) payload = .ok frames ↔
      ∃ header padding, Packs toc frames header padding ∧
        toc :: payload = header ++ frames.flatten ++ padding := by
  constructor
  · intro h
    obtain hcode | hcode | hcode | hcode : toc.toNat % 4 = 0 ∨ toc.toNat % 4 = 1 ∨
        toc.toNat % 4 = 2 ∨ toc.toNat % 4 = 3 := by omega
    · rw [hcode] at h
      cases h
      exact ⟨_, _, .one payload hcode, by simp⟩
    · rw [hcode] at h
      obtain ⟨a, b, rfl, hlength, rfl⟩ := splitEqual_eq_ok.mp h
      exact ⟨_, _, .equal a b hcode hlength, by simp⟩
    · rw [hcode] at h
      obtain ⟨a, b, rfl, hlength, rfl⟩ := splitSized_eq_ok.mp h
      exact ⟨_, _, .sized a b hcode hlength, by simp⟩
    · rw [hcode] at h
      obtain ⟨vbr, padding, hpos, hcount, hlengths, rfl⟩ := splitCounted_eq_ok.mp h
      cases vbr with
      | true =>
          refine ⟨_, _, .vbr frames padding hcode hpos hcount hlengths, ?_⟩
          simp [lengthBytes]
      | false =>
          refine ⟨_, _, .cbr frames padding hcode hpos hcount hlengths, ?_⟩
          simp [lengthBytes]
  · rintro ⟨header, padding, hpacks, heq⟩
    cases hpacks with
    | one frame hcode =>
        have hpayload : payload = frame := by simpa using heq
        rw [hcode, hpayload]
        rfl
    | equal a b hcode hlength =>
        rw [hcode]
        exact splitEqual_eq_ok.mpr ⟨a, b, rfl, hlength, by simpa using heq⟩
    | sized a b hcode hlength =>
        rw [hcode]
        exact splitSized_eq_ok.mpr ⟨a, b, rfl, hlength, by simpa using heq⟩
    | cbr frames padding hcode hpos hcount hlength =>
        rw [hcode]
        refine splitCounted_eq_ok.mpr ⟨false, padding, hpos, hcount, hlength, ?_⟩
        simpa [lengthBytes] using heq
    | vbr frames padding hcode hpos hcount hlength =>
        rw [hcode]
        refine splitCounted_eq_ok.mpr ⟨true, padding, hpos, hcount, hlength, ?_⟩
        simpa [lengthBytes] using heq

section

variable (bytes : List UInt8)

theorem getRange_ne_panic (start stop : Nat) (message : String) :
    getRange bytes start stop message ≠ .error .panic := by
  unfold getRange
  split
  · exact nofun
  · exact nofun

theorem cut_ne_panic {start stop : Nat} (hstart : start ≤ stop) (hstop : stop ≤ bytes.length) :
    cut bytes start stop ≠ .error .panic := by
  unfold cut
  rw [if_pos ⟨hstart, hstop⟩]
  exact nofun

theorem opusFrameLen_ne_panic : opusFrameLen bytes ≠ .error .panic := by
  unfold opusFrameLen
  split
  · exact nofun
  · split
    · exact nofun
    · split
      · exact nofun
      · exact nofun

theorem opusPaddingLen_ne_panic : opusPaddingLen bytes ≠ .error .panic := by
  induction bytes with
  | nil => exact nofun
  | cons byte rest ih =>
      unfold opusPaddingLen
      split
      · intro h
        cases hrest : opusPaddingLen rest with
        | error e =>
            rw [hrest] at h ih
            exact ih (congrArg Except.error (Except.error.inj h))
        | ok padding =>
            rw [hrest] at h
            cases h
      · exact nofun

theorem readSizes_ne_panic (stop n pos : Nat) : readSizes bytes stop n pos ≠ .error .panic := by
  induction n generalizing pos with
  | zero => exact nofun
  | succ n ih =>
      rw [readSizes]
      apply bind_ne_error (getRange_ne_panic _ _ _ _)
      intro data _
      apply bind_ne_error (opusFrameLen_ne_panic _)
      intro size _
      exact bind_ne_error (ih _) fun _ _ => nofun

theorem dataRange_ne_panic (padded : Bool) : dataRange bytes padded ≠ .error .panic := by
  unfold dataRange
  split
  · apply bind_ne_error (getRange_ne_panic _ _ _ _)
    intro data _
    apply bind_ne_error (opusPaddingLen_ne_panic _)
    rintro ⟨size, used⟩ _
    dsimp only
    split
    · exact nofun
    · split
      · exact nofun
      · exact nofun
  · exact nofun

theorem frameSizes_ne_panic (vbr : Bool) (count pos stop : Nat) :
    frameSizes bytes vbr count pos stop ≠ .error .panic := by
  unfold frameSizes
  split
  · apply bind_ne_error (readSizes_ne_panic _ _ _ _)
    rintro ⟨sizes, pos'⟩ _
    dsimp only
    split
    · exact nofun
    · split
      · exact nofun
      · exact nofun
  · split
    · exact nofun
    · split
      · exact nofun
      · exact nofun

theorem cutFrames_ne_panic {stop : Nat} (hstop : stop ≤ bytes.length) (sizes : List Nat)
    (pos : Nat) : cutFrames bytes stop sizes pos ≠ .error .panic := by
  induction sizes generalizing pos with
  | nil => exact nofun
  | cons size sizes ih =>
      rw [cutFrames]
      split
      · rename_i hfits
        refine bind_ne_error ?_ fun frame _ => bind_ne_error (ih _) fun _ _ => nofun
        exact cut_ne_panic bytes (Nat.le_add_right _ _) (Nat.le_trans hfits hstop)
      · exact nofun

theorem splitCounted_ne_panic : splitCounted bytes ≠ .error .panic := by
  unfold splitCounted
  cases bytes with
  | nil => exact nofun
  | cons first tail =>
      dsimp only
      split
      · apply bind_ne_error (dataRange_ne_panic _ _)
        intro range hrange
        obtain ⟨pos, stop⟩ := range
        obtain ⟨padding, data, _, rfl, rfl, rfl⟩ := dataRange_eq_ok.mp hrange
        apply bind_ne_error (frameSizes_ne_panic _ _ _ _ _)
        intro sizes _
        refine bind_ne_error (cutFrames_ne_panic _ ?_ _ _) fun frames _ => ?_
        · simp only [List.length_cons, List.length_append]
          omega
        · split
          · exact nofun
          · exact nofun
      · exact nofun

theorem splitEqual_ne_panic : splitEqual bytes ≠ .error .panic := by
  unfold splitEqual
  split
  · apply bind_ne_error (cut_ne_panic _ (Nat.zero_le _) (Nat.div_le_self _ _))
    intro a _
    exact bind_ne_error (cut_ne_panic _ (Nat.div_le_self _ _) (Nat.le_refl _)) fun _ _ => nofun
  · exact nofun

theorem splitSized_ne_panic : splitSized bytes ≠ .error .panic := by
  unfold splitSized
  apply bind_ne_error (opusFrameLen_ne_panic _)
  intro size _
  apply bind_ne_error (getRange_ne_panic _ _ _ _)
  intro rest _
  split
  · exact nofun
  · have hroom : size.1 ≤ rest.length := Nat.le_of_not_lt ‹_›
    apply bind_ne_error (cut_ne_panic _ (Nat.zero_le _) hroom)
    intro a _
    exact bind_ne_error (cut_ne_panic _ hroom (Nat.le_refl _)) fun _ _ => nofun

theorem splitOpusPacket_ne_panic : splitOpusPacket bytes ≠ .error .panic := by
  cases bytes with
  | nil => exact nofun
  | cons toc payload =>
      refine bind_ne_error ?_ fun frames _ => ?_
      · unfold splitPayload
        split
        · exact nofun
        · exact splitEqual_ne_panic payload
        · exact splitSized_ne_panic payload
        · exact splitCounted_ne_panic payload
      · dsimp only
        split
        · exact nofun
        · exact nofun

end

/-- A packet is split exactly where frames are packed that do not last too long. -/
theorem splitOpusPacket_eq_ok {packet : List UInt8} {framing : OpusFraming} :
    splitOpusPacket packet = .ok framing ↔
      framing.samplesPerFrame = opusSamplesPerFrame framing.toc ∧
        framing.packetSamples ≤ opusMaxPacketSamples ∧
        ∃ header padding, Packs framing.toc framing.frames header padding ∧
          packet = header ++ framing.frames.flatten ++ padding := by
  cases packet with
  | nil =>
      refine ⟨nofun, ?_⟩
      rintro ⟨_, _, header, padding, hpacks, heq⟩
      obtain ⟨toc, samples, frames⟩ := framing
      dsimp only at hpacks heq
      cases hpacks with
      | _ => cases heq
  | cons toc payload =>
      constructor
      · intro h
        obtain ⟨frames, hframes, h⟩ := bind_eq_ok.mp h
        dsimp only at h
        split at h
        · cases h
        · cases h
          exact ⟨rfl, Nat.le_of_not_lt ‹_›, splitPayload_eq_ok.mp hframes⟩
      · rintro ⟨hsamples, hshort, header, padding, hpacks, heq⟩
        obtain ⟨toc', samples, frames⟩ := framing
        dsimp only at hsamples hpacks heq
        subst hsamples
        have htoc : toc' = toc := by
          cases hpacks with
          | _ => exact (List.cons.inj heq).1.symm
        subst htoc
        refine bind_eq_ok.mpr ⟨frames, splitPayload_eq_ok.mpr ⟨header, padding, hpacks, heq⟩, ?_⟩
        exact if_neg (Nat.not_lt.mpr hshort)

/-- There is at least one frame in a packing, and at most as many as fit 120 ms. -/
theorem Packs.count {toc : UInt8} {frames : List (List UInt8)} {header padding : List UInt8}
    (h : Packs toc frames header padding) : 1 ≤ frames.length ∧ frames.length ≤ opusMaxFrames := by
  cases h with
  | one | equal | sized => exact ⟨by simp, by simp [opusMaxFrames]⟩
  | cbr _ _ _ hpos hcount | vbr _ _ _ hpos hcount => exact ⟨hpos, hcount⟩

/-- Every packing of frames that last at most 120 ms is split into these frames; and whatever the
bytes, the splitter does not panic, and what it accepts is such a packing: the frames lie one after
the other and fill what is between the header and the padding. -/
theorem split_opus_packet_framing :
    (∀ toc frames header padding, Packs toc frames header padding →
        opusSamplesPerFrame toc * frames.length ≤ opusMaxPacketSamples →
          splitOpusPacket (header ++ frames.flatten ++ padding)
            = .ok { toc, samplesPerFrame := opusSamplesPerFrame toc, frames }) ∧
      ∀ packet, splitOpusPacket packet ≠ .error .panic ∧
        ∀ framing, splitOpusPacket packet = .ok framing →
          1 ≤ framing.frames.length ∧ framing.frames.length ≤ opusMaxFrames ∧
            framing.samplesPerFrame = opusSamplesPerFrame framing.toc ∧
            framing.packetSamples ≤ opusMaxPacketSamples ∧
            ∃ header padding, Packs framing.toc framing.frames header padding ∧
              packet = header ++ framing.frames.flatten ++ padding := by
  refine ⟨?_, ?_⟩
  · intro toc frames header padding hpacks hshort
    exact splitOpusPacket_eq_ok.mpr ⟨rfl, hshort, header, padding, hpacks, rfl⟩
  · intro packet
    refine ⟨splitOpusPacket_ne_panic packet, ?_⟩
    intro framing h
    obtain ⟨hsamples, hshort, header, padding, hpacks, heq⟩ := splitOpusPacket_eq_ok.mp h
    exact ⟨hpacks.count.1, hpacks.count.2, hsamples, hshort, header, padding, hpacks, heq⟩

end Gigastt.Opus
