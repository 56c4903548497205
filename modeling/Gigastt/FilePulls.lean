import Gigastt.FileTrace
import Gigastt.Pulled

/-!
Whole runs of pulls from a container. A container that decodes gives the windows of its signal; one that
fails gives the same windows up to where the failure is, and then the failure.
-/

namespace Gigastt.Files.FileWindows

open Gigastt.FileWindows (Pulling pulling_new lent)
open Outcomes

variable {α : Type} {codec : OpusDecoder α} {rubato : Rubato α} (rnd : Rounding) (ops : SampleOps α)

/-- What an outcome fails with. -/
def failureOf {β : Type} (outcome : Except DecodeFailure β) : Option DecodeFailure :=
  match outcome with
  | .ok _ => none
  | .error e => some e

/-- The windows over the container and the source over its trace, in the midst of a run. -/
def Runs (outcome : Except DecodeFailure (List α)) (signal : List α) (spec : WindowSpec)
    (f : FileWindows codec rubato) (g : Gigastt.FileWindows α) : Prop :=
  ∃ d k, g = onTrace f d ∧ Follows rnd ops outcome f d ∧ Pulling signal spec g k

variable {outcome : Except DecodeFailure (List α)} {signal : List α} {spec : WindowSpec}

/-- A stream that is going to fail has not ended. -/
theorem Follows.live_of_error {e : DecodeFailure} {f : FileWindows codec rubato} {d : Decoder α}
    (h : Follows rnd ops (.error e) f d) : f.source.eof = false := by
  by_contra hend
  obtain ⟨_, _, htail⟩ := h.ended (by simpa using hend)
  cases htail

variable (outcome signal) in
theorem runs_follow (hspec : spec.Framed) :
    Pulled.Follows (nextWindow rnd ops) Gigastt.FileWindows.nextWindow lent (failureOf outcome)
      (Runs rnd ops outcome signal spec : FileWindows codec rubato → _ → Prop) where
  call f g hsim := by
    obtain ⟨d, k, rfl, hfollows, hpulling⟩ := hsim
    have hnext := hfollows.nextWindow
    cases hcall : f.nextWindow rnd ops with
    | error e =>
        rw [hcall] at hnext
        exact .inr ⟨e, by rw [show outcome = _ from hnext]; rfl, rfl⟩
    | ok result =>
        rw [hcall] at hnext
        obtain ⟨hlent, d', hover, hfollows'⟩ := hnext
        refine .inl ⟨result.2, by rw [← hlent], d', k + 1, hover.symm, hfollows', ?_⟩
        exact (hpulling.next hspec).1
  live f g f' hsim hfailure hcall := by
    obtain ⟨d, k, rfl, hfollows, hpulling⟩ := hsim
    obtain ⟨e, rfl⟩ : ∃ e, outcome = .error e := by
      cases outcome with
      | ok tail => cases hfailure
      | error e => exact ⟨e, rfl⟩
    have hnext := hfollows.nextWindow
    rw [hcall] at hnext
    obtain ⟨_, d', hover, hfollows'⟩ := hnext
    have hdone : (onTrace f d).source.cursor.done = false := by
      by_contra hdone
      have hend := hpulling.done_eof (by simpa using hdone)
      exact absurd hend (by simp [onTrace, hfollows.live_of_error])
    have hlive : (onTrace f d).filled.1.eof = false := by
      rw [← Gigastt.FileWindows.nextWindow_eof hdone, ← hover]
      exact hfollows'.live_of_error
    rw [lent, Gigastt.FileWindows.nextWindow_pulled hdone rfl]
    exact (hpulling.pull_live hspec hdone hlive).2

section Yields

variable {rnd ops} {src : Source codec rubato}

/-- A container that decodes gives the windows of its signal. -/
theorem yields_of_ok (hspec : spec.Framed) {tail : List α}
    (houtcome : (src.trace rnd ops).outcome = .ok tail)
    (hsignal : (src.trace rnd ops).blocks.flatten ++ tail = signal) :
    ∃ f, Pulled.Yields (nextWindow rnd ops) (new src spec)
      ((spec.windows signal.length).map (lend signal)) (.ok f) ∧
      f.source.decodedTotal = signal.length := by
  have hfollows := follows_new rnd ops src spec
    (fun flushed h => Except.ok.inj (houtcome.symm.trans h))
  rw [houtcome] at hfollows
  have hpulling : Pulling signal spec
      (onTrace (new src spec) { blocks := (src.trace rnd ops).blocks, tail }) 0 :=
    hsignal ▸ pulling_new hspec { blocks := (src.trace rnd ops).blocks, tail } false
  have hgiven := fun i => (hpulling.all hspec i).2
  simp only [Nat.zero_add, ← List.getElem?_map] at hgiven
  obtain ⟨f, hyields, d, k, hover, _, _⟩ :=
    (runs_follow rnd ops (.ok tail) signal hspec).yields rfl ⟨_, 0, rfl, hfollows, hpulling⟩ hgiven
  refine ⟨f, hyields, ?_⟩
  rw [List.length_map] at hover
  have hlast := (hpulling.all hspec ((spec.windows signal.length).length + 1)).1
  rw [hover] at hlast
  exact hlast.decodedTotal (by omega)

/-- A container that fails gives windows that every signal with the same beginning has. -/
theorem yields_of_error (hspec : spec.Framed) {e : DecodeFailure}
    (houtcome : (src.trace rnd ops).outcome = .error e) :
    ∃ windows, Pulled.Yields (nextWindow rnd ops) (new src spec) windows (.error e) ∧
      ∀ later, windows.map some =
        slicePulls ((src.trace rnd ops).blocks.flatten ++ later) spec windows.length := by
  have hfollows : ∀ tail, Follows rnd ops (.error e) (new src spec)
      { blocks := (src.trace rnd ops).blocks, tail } := fun tail =>
    houtcome ▸ follows_new rnd ops src spec fun flushed h => by cases houtcome.symm.trans h
  have hpulling : ∀ tail, Pulling ((src.trace rnd ops).blocks.flatten ++ tail) spec
      (onTrace (new src spec) { blocks := (src.trace rnd ops).blocks, tail }) 0 :=
    fun tail => pulling_new hspec { blocks := (src.trace rnd ops).blocks, tail } false
  have hbound := ((hpulling []).all hspec
    (spec.windows ((src.trace rnd ops).blocks.flatten ++ []).length).length).2
  rw [Nat.zero_add, List.getElem?_eq_none (Nat.le_refl _)] at hbound
  obtain ⟨windows, hyields, _⟩ := (runs_follow rnd ops (.error e) _ hspec).yields_error
    (rfl : failureOf (.error e : Except _ (List α)) = _) ⟨_, 0, rfl, hfollows [], hpulling []⟩ hbound
  refine ⟨windows, hyields, fun later => ?_⟩
  obtain ⟨last, hcalls⟩ := hyields.calls
  have hrun := ((runs_follow rnd ops (.error e) _ hspec).run
    ⟨_, 0, rfl, hfollows later, hpulling later⟩ hcalls).1
  rw [hrun, slicePulls]
  apply List.map_congr_left
  intro i _
  have hlent := ((hpulling later).all hspec i).2
  rwa [Nat.zero_add] at hlent

end Yields

section Example

def plainOps : SampleOps ℕ := { zero := 0, add := (· + ·), div := (· / ·), finite := fun _ => true }

def noResampler : Rubato ℕ where
  State := Unit
  build _ _ _ := .error "no resampler"
  inputFramesMax _ := 0
  process _ _ := .error "no resampler"

def noCodec : OpusDecoder ℕ where
  State := Unit
  decode _ _ _ := .error "no codec"

/-- A mono WAVE file at 16 kHz of 1500 samples in two blocks; its thread may fail afterwards. -/
def waveFile (failure : Option String) : Source noCodec noResampler :=
  .wave { messages := [.ok ⟨900, .replicate 900 1⟩, .ok ⟨600, .replicate 600 2⟩] ++
      failure.toList.map fun message => .error (.other message), panics := false }
    (.new .binary64 none 16000) (.new 16000)

end Example

end Gigastt.Files.FileWindows
