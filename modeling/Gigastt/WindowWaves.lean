import Gigastt.Outcomes
import Gigastt.StitchSeam
import Gigastt.WindowDecode

/-!
Both window loops compute one thing: pull, decode and stitch each window in the order of the source.
The serial loop does so directly, the wave loop a wave at a time; they differ in what they publish.
-/

namespace Gigastt

open Outcomes

variable {α : Type}

/-- A transcript without its publications. -/
def WindowTranscript.silent (t : WindowTranscript α) : WindowTranscript α :=
  { t with published := [] }

section

variable (rnd : Rounding) (tables : CharTables)
  (decode : PcmWindow α → Except GigasttError (List WordInfo))

/-- Each window of the source in turn, with no publications. -/
def transcribe : Pulls α → WindowTranscript α → Option (WindowTranscript α)
  | [], t => some t
  | pull :: rest, t =>
      pull.toOption.bind fun w => (decode w).toOption.bind fun words =>
        transcribe rest (t.stitch rnd tables w words).1

theorem transcribe_cons_ok (w : PcmWindow α) (rest : Pulls α) (t : WindowTranscript α) :
    transcribe rnd tables decode (.ok w :: rest) t = (decode w).toOption.bind fun words =>
      transcribe rnd tables decode rest (t.stitch rnd tables w words).1 := rfl

theorem serial_cons_ok (w : PcmWindow α) (rest : Pulls α) (t : WindowTranscript α) :
    decodeWindowsSerial rnd tables decode (.ok w :: rest) t =
      finishWindow rnd tables decode t w >>= fun done =>
        decodeWindowsSerial rnd tables decode rest (done.1.publish done.2) := rfl

theorem serial_eq_transcribe (source : Pulls α) (t : WindowTranscript α) :
    (decodeWindowsSerial rnd tables decode source t).toOption.map WindowTranscript.silent =
      transcribe rnd tables decode source t.silent := by
  induction source generalizing t with
  | nil => rfl
  | cons pull rest ih =>
      cases pull with
      | error e => rfl
      | ok w =>
          rw [serial_cons_ok, transcribe_cons_ok, finishWindow]
          cases hdecode : decode w with
          | error e => rfl
          | ok words => exact ih ((t.stitch rnd tables w words).1.publish _)

/-- The wave's windows stitched one after the other. -/
theorem stitchWave_cons (t : WindowTranscript α) (w : PcmWindow α) (words : List WordInfo)
    (wave : List (PcmWindow α × List WordInfo)) :
    (stitchWave rnd tables t ((w, words) :: wave)).1 =
      (stitchWave rnd tables (t.stitch rnd tables w words).1 wave).1 := by
  have hfst : ∀ (t : WindowTranscript α) (m n : Nat),
      (wave.foldl (stitchInWave rnd tables) (t, m)).1 =
        (wave.foldl (stitchInWave rnd tables) (t, n)).1 := by
    induction wave with
    | nil => exact fun _ _ _ => rfl
    | cons head wave ih => exact fun t m n => ih _ _ _
  exact hfst _ _ _

theorem silent_stitchWave (t : WindowTranscript α) (wave : List (PcmWindow α × List WordInfo)) :
    (stitchWave rnd tables t wave).1.silent = (stitchWave rnd tables t.silent wave).1 := by
  induction wave generalizing t with
  | nil => rfl
  | cons head wave ih =>
      rw [stitchWave_cons, stitchWave_cons, ih]
      rfl

theorem transcribe_wave (wave : List (PcmWindow α)) (rest : Pulls α) (t : WindowTranscript α) :
    transcribe rnd tables decode (wave.map .ok ++ rest) t =
      (wave.mapM decode).toOption.bind fun lists =>
        transcribe rnd tables decode rest (stitchWave rnd tables t (wave.zip lists)).1 := by
  induction wave generalizing t with
  | nil => rfl
  | cons w wave ih =>
      rw [List.map_cons, List.cons_append, transcribe_cons_ok, List.mapM_cons, toOption_bind]
      cases hdecode : decode w with
      | error e => rfl
      | ok words =>
          apply (ih _).trans
          cases wave.mapM decode with
          | error e => rfl
          | ok lists =>
              exact congrArg (transcribe rnd tables decode rest) (stitchWave_cons ..).symm

/-- A wave that fits the slots succeeds when every one of its windows does. -/
theorem decodeWaveParallel_toOption {wave : List (PcmWindow α)} {extras : Nat}
    (hfits : wave.length ≤ 1 + extras) :
    (decodeWaveParallel decode wave extras).toOption = (wave.mapM decode).toOption := by
  unfold decodeWaveParallel
  rw [if_neg (by omega)]
  match wave with
  | [] => rfl
  | [w] =>
      dsimp only
      rw [List.mapM_cons]
      cases decode w <;> rfl
  | first :: second :: others =>
      rw [List.length_cons] at hfits
      dsimp only
      rw [List.take_of_length_le (by omega), ← List.map_cons, List.mapM_map]
      rfl

/-- A fill moves windows from the source to the wave, and leaves a wave short only at the end. -/
theorem fillWave_ok {slots : Nat} {source rest : Pulls α} {pending wave : List (PcmWindow α)}
    (h : fillWave slots source pending = .ok (wave, rest)) :
    pending.map .ok ++ source = wave.map .ok ++ rest ∧
      (wave.length < slots → rest = []) ∧ (pending.length ≤ slots → wave.length ≤ slots) := by
  induction source generalizing pending with
  | nil =>
      cases h
      exact ⟨rfl, fun _ => rfl, id⟩
  | cons pull source ih =>
      rw [fillWave] at h
      split at h
      · rename_i hlt
        obtain ⟨w, hpull, h⟩ := bind_eq_ok.mp h
        obtain ⟨hsplit, hshort, hfull⟩ := ih h
        refine ⟨?_, hshort, fun _ => hfull ?_⟩
        · rw [← hsplit, hpull, List.map_append, List.append_assoc]
          rfl
        · rw [List.length_append, List.length_singleton]
          omega
      · cases h
        exact ⟨rfl, fun hlt => absurd hlt (by assumption), id⟩

/-- A fill fails only on a pull that does. -/
theorem fillWave_error {slots : Nat} {source : Pulls α} {pending : List (PcmWindow α)}
    {e : GigasttError} (h : fillWave slots source pending = .error e) (t : WindowTranscript α) :
    transcribe rnd tables decode source t = none := by
  induction source generalizing pending t with
  | nil => cases h
  | cons pull source ih =>
      cases pull with
      | error e => rfl
      | ok w =>
          rw [fillWave] at h
          split at h
          · rw [transcribe_cons_ok]
            cases decode w with
            | error e => rfl
            | ok words => exact ih h _
          · cases h

theorem decodeWaves_round {slots fuel extras : Nat} {pending wave : List (PcmWindow α)}
    {source rest : Pulls α} {t : WindowTranscript α}
    (hfill : fillWave slots source pending = .ok (wave, rest)) (hwave : wave ≠ []) :
    decodeWaves rnd tables decode slots (fuel + 1) extras pending source t =
      decodeWaveParallel decode wave (min extras (wave.length - 1)) >>= fun decoded =>
        decodeWaves rnd tables decode slots fuel (min extras (wave.length - 1)) [] rest
          ((stitchWave rnd tables t (wave.zip decoded)).1.publish
            (stitchWave rnd tables t (wave.zip decoded)).2) := by
  rw [decodeWaves, hfill]
  exact if_neg (by simpa using hwave)

/-- The wave loop, from any wave that is pending. -/
theorem waves_eq_transcribe {slots : Nat} (hslots : 0 < slots) {fuel extras : Nat}
    {pending : List (PcmWindow α)} {source : Pulls α} {t : WindowTranscript α}
    (hpending : pending.length ≤ slots)
    (hextras : 1 + extras = slots ∨ pending = [] ∧ source = [])
    (hfuel : pending.length + source.length < fuel) :
    (decodeWaves rnd tables decode slots fuel extras pending source t).toOption.map
        WindowTranscript.silent =
      transcribe rnd tables decode (pending.map .ok ++ source) t.silent := by
  induction fuel generalizing extras pending source t with
  | zero => omega
  | succ fuel ih =>
      cases hfill : fillWave slots source pending with
      | error e =>
          rw [decodeWaves, hfill, transcribe_wave]
          cases (pending.mapM decode).toOption with
          | none => rfl
          | some lists =>
              rw [Option.bind_some, fillWave_error rnd tables decode hfill]
              rfl
      | ok filled =>
          obtain ⟨wave, rest⟩ := filled
          obtain ⟨hsplit, hshort, hfull⟩ := fillWave_ok hfill
          have hlength := congrArg List.length hsplit
          simp only [List.length_append, List.length_map] at hlength
          rw [hsplit]
          by_cases hwave : wave = []
          · subst hwave
            rw [hshort hslots, decodeWaves, hfill]
            rfl
          · have hpos := List.length_pos_of_ne_nil hwave
            -- a round that takes a window has all its slots
            have hslot : 1 + extras = slots := by
              rcases hextras with hextras | ⟨hnil, hsource⟩
              · exact hextras
              · simp only [hnil, hsource, List.length_nil] at hlength
                omega
            have hle := hfull hpending
            have hfits : wave.length ≤ 1 + min extras (wave.length - 1) := by omega
            rw [decodeWaves_round rnd tables decode hfill hwave, transcribe_wave,
              ← decodeWaveParallel_toOption decode hfits, toOption_bind]
            cases decodeWaveParallel decode wave (min extras (wave.length - 1)) with
            | error e => rfl
            | ok decoded =>
                have hrest : 1 + min extras (wave.length - 1) = slots ∨
                    ([] : List (PcmWindow α)) = [] ∧ rest = [] := by
                  rcases Nat.lt_or_ge wave.length slots with hlt | hge
                  · exact .inr ⟨rfl, hshort hlt⟩
                  · exact .inl (by omega)
                apply (ih (Nat.zero_le _) hrest (by rw [List.length_nil]; omega)).trans
                exact congrArg (transcribe rnd tables decode rest) (silent_stitchWave ..)

/-- However many extra slots the pool grants, both loops compute the same. -/
theorem maybeParallel_eq_transcribe (extras : Nat) (source : Pulls α) :
    (decodeWindowsMaybeParallel rnd tables decode (some extras) source).toOption.map
        WindowTranscript.silent =
      transcribe rnd tables decode source .empty := by
  match source with
  | [] => rfl
  | .error e :: _ => rfl
  | [.ok first] => exact serial_eq_transcribe rnd tables decode [.ok first] .empty
  | .ok first :: .error e :: source =>
      rw [transcribe_cons_ok]
      cases decode first <;> rfl
  | .ok first :: .ok second :: source =>
      cases extras with
      | zero =>
          exact serial_eq_transcribe rnd tables decode (.ok first :: .ok second :: source) .empty
      | succ extras =>
          have hpending : [first, second].length ≤ 1 + (extras + 1) := by
            rw [List.length_cons, List.length_singleton]
            omega
          have hfuel : [first, second].length + source.length < source.length + 3 := by
            rw [List.length_cons, List.length_singleton]
            omega
          exact waves_eq_transcribe rnd tables decode (Nat.le_add_right 1 _) hpending (.inl rfl) hfuel

/-- The windows of a transcription with their words. -/
def decodedWindows (windows : List (PcmWindow α)) (lists : List (List WordInfo)) :
    List DecodedWindow :=
  List.zipWith (fun w words => { startSample := w.startSample, stop := w.stop, words }) windows lists

theorem stitchWave_eq_foldl (t : WindowTranscript α) (windows : List (PcmWindow α))
    (lists : List (List WordInfo)) (hlength : windows.length = lists.length) :
    (stitchWave rnd tables t (windows.zip lists)).1 =
      let done := (decodedWindows windows lists).foldl (fun done w =>
        ((stitchReport rnd tables false done.1 done.2 w.startSample w.words).1, w.stop))
        (t.words, t.endSample)
      { t with words := done.1, endSample := done.2, decoded := t.decoded ++ windows } := by
  induction windows generalizing t lists with
  | nil =>
      rw [List.append_nil]
      rfl
  | cons w windows ih =>
      cases lists with
      | nil => cases hlength
      | cons words lists =>
          rw [List.zip_cons_cons, stitchWave_cons, ih _ lists (Nat.succ.inj hlength)]
          simp only [WindowTranscript.stitch, decodedWindows, List.zipWith_cons_cons,
            List.foldl_cons, List.append_assoc, List.singleton_append]

/-- What a transcription of windows that all decode comes to. -/
theorem transcribe_windows {windows : List (PcmWindow α)} {lists : List (List WordInfo)}
    (hdecode : List.Forall₂ (fun w words => decode w = .ok words) windows lists) :
    transcribe rnd tables decode (windows.map .ok) .empty = some
      { endSample := (stitchWindows rnd tables (decodedWindows windows lists)).2
        words := (stitchWindows rnd tables (decodedWindows windows lists)).1
        decoded := windows
        published := [] } := by
  have hwave := transcribe_wave rnd tables decode windows [] .empty
  rw [List.append_nil] at hwave
  rw [hwave, mapM_eq_ok.mpr hdecode]
  exact congrArg some (stitchWave_eq_foldl rnd tables .empty windows lists hdecode.length_eq)

theorem transcribe_none {source : Pulls α} {pull : Except GigasttError (PcmWindow α)}
    (hpull : pull ∈ source) (hfails : ∀ w words, pull = .ok w → decode w ≠ .ok words)
    (t : WindowTranscript α) : transcribe rnd tables decode source t = none := by
  induction source generalizing t with
  | nil => cases hpull
  | cons head source ih =>
      cases head with
      | error e => rfl
      | ok w =>
          rw [transcribe_cons_ok]
          cases hdecode : decode w with
          | error e => rfl
          | ok words =>
              rcases List.mem_cons.mp hpull with rfl | hpull
              · exact absurd hdecode (hfails w words rfl)
              · exact ih hpull _

/-- The parallel decode of a source and the serial one: the same words, from every window decoded
once and stitched in source order, when all pulls and decodes succeed; an error when one fails. -/
theorem parallel_eq_serial (source : Pulls α) (extras : Nat) :
    let parallel := decodeWindowsMaybeParallel rnd tables decode (some extras) source
    let serial := decodeWindowsSerial rnd tables decode source .empty
    (∀ windows lists, source = windows.map .ok →
      List.Forall₂ (fun w words => decode w = .ok words) windows lists →
      ∃ p s, parallel = .ok p ∧ serial = .ok s ∧ p.words = s.words ∧
        p.words = (stitchWindows rnd tables (decodedWindows windows lists)).1 ∧
        p.decoded = windows ∧ s.decoded = windows) ∧
    (∀ pull ∈ source, (∀ w words, pull = .ok w → decode w ≠ .ok words) →
      (∃ e, parallel = .error e) ∧ ∃ e, serial = .error e) := by
  intro parallel serial
  have hparallel := maybeParallel_eq_transcribe rnd tables decode extras source
  have hserial := serial_eq_transcribe rnd tables decode source .empty
  refine ⟨fun windows lists hsource hdecode => ?_, fun pull hpull hfails => ?_⟩
  · subst hsource
    have hspec := transcribe_windows rnd tables decode hdecode
    obtain ⟨p, hp, hpsilent⟩ := Option.map_eq_some_iff.mp (hparallel.trans hspec)
    obtain ⟨s, hs, hssilent⟩ := Option.map_eq_some_iff.mp (hserial.trans hspec)
    have hpwords := congrArg WindowTranscript.words hpsilent
    have hswords := congrArg WindowTranscript.words hssilent
    exact ⟨p, s, toOption_eq_some.mp hp, toOption_eq_some.mp hs, hpwords.trans hswords.symm, hpwords,
      congrArg WindowTranscript.decoded hpsilent, congrArg WindowTranscript.decoded hssilent⟩
  · have hnone := transcribe_none rnd tables decode hpull hfails
    exact ⟨toOption_eq_none.mp (Option.map_eq_none_iff.mp (hparallel.trans (hnone _))),
      toOption_eq_none.mp (Option.map_eq_none_iff.mp (hserial.trans (hnone _)))⟩

end

/-- Three windows in waves of two, and the same with a window that fails to decode. -/
theorem parallel_eq_serial_three :
    let window := fun start => ({ startSample := start, samples := [start] } : PcmWindow Nat)
    let word := fun (start : Nat) => (⟨['a'], start, start, 1, none⟩ : WordInfo)
    let decode := fun (w : PcmWindow Nat) =>
      if w.startSample = 7 then .error (GigasttError.inference "encoder")
      else .ok [word w.startSample]
    let run := fun source => decodeWindowsMaybeParallel .binary64 .russian decode (some 1) source
    (∃ p, run [.ok (window 1), .ok (window 2), .ok (window 3)] = .ok p ∧
      p.decoded = [window 1, window 2, window 3]) ∧
      ∃ e, run [.ok (window 1), .ok (window 7), .ok (window 3)] = .error e := by
  intro window word decode run
  obtain ⟨p, _, hp, _, _, _, hdecoded, _⟩ :=
    (parallel_eq_serial .binary64 .russian decode [.ok (window 1), .ok (window 2), .ok (window 3)]
      1).1 [window 1, window 2, window 3] _ rfl (.cons rfl (.cons rfl (.cons rfl .nil)))
  have hfails := (parallel_eq_serial .binary64 .russian decode
    [.ok (window 1), .ok (window 7), .ok (window 3)] 1).2 (.ok (window 7)) (by simp)
    (fun w words hw => by cases hw; exact nofun)
  exact ⟨⟨p, hp, hdecoded⟩, hfails.1⟩

end Gigastt
