import Gigastt.InstallSafety

/-!
What the lock keeps: no file of a head with a decoder is ever replaced. And what the guard of the staging
path keeps: calls that are not killed leave nothing behind.
-/

namespace Gigastt.Download

open Transition

variable {cfg : Config} {s t : Dir} {pid : ℕ} {event : Event}

section Lock

theorem Dir.lock_leave_other (s : Dir) (phase : Phase) {q : ℕ} (hq : q ≠ pid) (h : s.lock = some q) :
    (s.leave pid phase).lock = some q := by
  have hne : s.lock ≠ some pid := by
    rw [h]
    exact fun heq => hq (Option.some.inj heq)
  rw [Dir.leave]
  dsimp only
  rw [if_neg hne, h]

theorem inside_of_busy {phase : Phase} {f : Fetch} (h : phase.busy = some f) : phase.inside = true := by
  cases phase <;> first | rfl | cases h

/-- A call past the lock has it. -/
def Locked (s : Dir) : Prop := ∀ pid, (s.phase pid).inside = true → s.lock = some pid

theorem Moves.lock_other (h : Moves cfg s pid event t) {q : ℕ} (hq : q ≠ pid) (hlock : s.lock = some q) :
    t.lock = some q := by
  cases h with
  | acquired hphase hfree =>
      rw [hfree] at hlock
      cases hlock
  | found | finished | refused | killed => exact s.lock_leave_other _ hq hlock
  | cleaned hphase =>
      apply Dir.lock_leave_other _ _ hq
      rw [Dir.lock_unstage, hlock]
  | mismatched failure hphase => rw [Dir.lock_goto, Dir.lock_unstage, hlock]
  | used | wanted | entered | missing | skipped | requested | created | written | torn | flushed
  | accepted | renamed | failed | again => exact hlock

theorem Moves.lock_self (hunix : cfg.unix = true) (h : Moves cfg s pid event t)
    (hlock : (s.phase pid).inside = true → s.lock = some pid) (hinside : (t.phase pid).inside = true) :
    t.lock = some pid := by
  cases h with
  | acquired hphase hfree => rfl
  | entered hphase hunix' =>
      rw [hunix] at hunix'
      cases hunix'
  | used | wanted | again =>
      rw [Dir.phase_goto, Function.update_self] at hinside
      cases hinside
  | found | finished | refused | killed =>
      rw [Dir.phase_leave, Function.update_self] at hinside
      cases hinside
  | cleaned hphase =>
      rw [Dir.phase_leave, Function.update_self] at hinside
      cases hinside
  | mismatched failure hphase =>
      rw [Dir.lock_goto, Dir.lock_unstage]
      exact hlock (by rw [hphase]; rfl)
  | failed failure hbusy => exact hlock (inside_of_busy hbusy)
  | missing hphase | skipped hphase | requested hphase | created hphase | written hphase
  | torn _ hphase | flushed hphase | accepted hphase | renamed hphase =>
      exact hlock (by rw [hphase]; rfl)

/-- A call only moves its own phase. -/
theorem Moves.phase_other (h : Moves cfg s pid event t) {q : ℕ} (hq : q ≠ pid) :
    t.phase q = s.phase q := by
  cases h with
  | mismatched | cleaned =>
      simp only [Dir.phase_goto, Dir.phase_leave, Dir.phase_unstage]
      exact Function.update_of_ne hq _ _
  | used | wanted | acquired | entered | found | missing | finished | skipped | refused | requested
  | created | written | torn | flushed | accepted | renamed | failed | killed | again =>
      exact Function.update_of_ne hq _ _

theorem Locked.step (hunix : cfg.unix = true) (hlocked : Locked s)
    (h : Moves cfg s pid event t) : Locked t := by
  intro q hinside
  by_cases hq : q = pid
  · subst hq
    exact h.lock_self hunix (hlocked q) hinside
  · rw [h.phase_other hq] at hinside
    exact h.lock_other hq (hlocked q hinside)

end Lock

section Stable

/-- A call only fetches a file of a head with a decoder while it is not there. -/
def Missing (s : Dir) : Prop :=
  ∀ pid f, (s.phase pid).busy = some f → f.variant.isCtc = false → s.files f.file = none

theorem busy_inside {p : ℕ} {f : Fetch} (hlocked : Locked s) (h : (s.phase p).busy = some f) :
    s.lock = some p := hlocked p (inside_of_busy h)

/-- The heads with a decoder share no file with the others. -/
theorem isCtc_shared {v u : ModelVariant} {file : String} (hv : file ∈ v.installFiles)
    (hu : file ∈ u.installFiles) : v.isCtc = u.isCtc := by
  have hall : ∀ v ∈ ModelVariant.all, ∀ u ∈ ModelVariant.all, ∀ file ∈ v.installFiles,
      file ∈ u.installFiles → v.isCtc = u.isCtc := by decide
  exact hall v v.mem_all u u.mem_all file hv hu

/-- Where a file is missing it stays so, unless a call that has verified it puts it there. -/
theorem Writes.missing {files' : Files} (h : Writes s pid files') {file : String}
    (hfile : file ∈ finalFiles) (hnone : s.files file = none) :
    files' file = none ∨ ∃ f, s.phase pid = .verified f ∧ f.file = file := by
  cases h with
  | nothing h => exact Or.inl (h ▸ hnone)
  | staging f content _ h =>
      have hne : file ≠ f.staging pid := fun heq => staging_not_final f pid (heq ▸ hfile)
      rw [h, Function.update_of_ne hne]
      exact Or.inl hnone
  | final f content hphase _ h =>
      by_cases heq : f.file = file
      · exact Or.inr ⟨f, hphase, heq⟩
      · have hne : file ≠ f.staging pid := fun heq => staging_not_final f pid (heq ▸ hfile)
        rw [h, Function.update_of_ne (Ne.symm heq), Function.update_of_ne hne]
        exact Or.inl hnone

/-- A call that fetches after an event has fetched the same file before it, or found it missing. -/
theorem Moves.busy (h : Moves cfg s pid event t) {f : Fetch} (hbusy : (t.phase pid).busy = some f) :
    (s.phase pid).busy = some f ∧ (∀ g, s.phase pid ≠ .verified g) ∨
      t.files = s.files ∧ (f.variant.isCtc = false → s.files f.file = none) := by
  cases h with
  | requested hphase honline habsent =>
      rw [Dir.phase_goto, Function.update_self] at hbusy
      cases hbusy
      exact Or.inr ⟨rfl, habsent⟩
  | created hphase | written hphase | flushed hphase | accepted hphase =>
      rw [Dir.phase_goto, Function.update_self] at hbusy
      cases hbusy
      rw [hphase]
      exact Or.inl ⟨rfl, fun g heq => by cases heq⟩
  | used | wanted | entered | missing | skipped | torn | renamed | failed | again | mismatched =>
      rw [Dir.phase_goto, Function.update_self] at hbusy
      cases hbusy
  | acquired hphase hfree =>
      have hbusy : (Function.update s.phase pid (.checking _) pid).busy = some f := hbusy
      rw [Function.update_self] at hbusy
      cases hbusy
  | found | finished | refused | cleaned | killed =>
      rw [Dir.phase_leave, Function.update_self] at hbusy
      cases hbusy

theorem mem_of_busy {before : Files} (hinv : Inv before s) {f : Fetch}
    (h : (s.phase pid).busy = some f) : f.file ∈ f.variant.installFiles := by
  have hok := hinv.phases pid
  cases hphase : s.phase pid with
  | requesting g =>
      rw [hphase] at h hok
      cases h
      exact Through.mem hok
  | streaming g downloaded | staged g | verified g =>
      rw [hphase] at h hok
      cases h
      exact hok.1.mem
  | deciding | waiting | checking | installing | unwinding | returned | killed =>
      rw [hphase] at h
      cases h

theorem Missing.step {before : Files} (hinv : Inv before s) (hlocked : Locked s) (hmissing : Missing s)
    (h : Moves cfg s pid event t) : Missing t := by
  intro q f hbusy hctc
  have hwrites := h.writes (hinv.phases pid)
  by_cases hq : q = pid
  · subst hq
    rcases h.busy hbusy with ⟨hbusy', hverified⟩ | ⟨hfiles, habsent⟩
    · have hfinal := ModelVariant.mem_finalFiles (mem_of_busy hinv hbusy')
      rcases hwrites.missing hfinal (hmissing q f hbusy' hctc) with hnone | ⟨g, hg, _⟩
      · exact hnone
      · exact absurd hg (hverified g)
    · rw [hfiles]
      exact habsent hctc
  · rw [h.phase_other hq] at hbusy
    have hfinal := ModelVariant.mem_finalFiles (mem_of_busy hinv hbusy)
    rcases hwrites.missing hfinal (hmissing q f hbusy hctc) with hnone | ⟨g, hg, _⟩
    · exact hnone
    · -- both would have the lock
      have hlock := busy_inside hlocked hbusy
      rw [hlocked pid (by rw [hg]; rfl)] at hlock
      exact absurd (Option.some.inj hlock).symm hq

/-- Where there is a lock file, what every event keeps. -/
structure Held (before : Files) (s : Dir) : Prop where
  inv : Inv before s
  locked : Locked s
  missing : Missing s

theorem Held.step {before : Files} (hunix : cfg.unix = true) (hheld : Held before s)
    (h : step cfg s (pid, event) = some t) : Held before t where
  inv := hheld.inv.step h
  locked := hheld.locked.step hunix (step_moves h)
  missing := hheld.missing.step hheld.inv hheld.locked (step_moves h)

theorem held_new (files : Files) : Held files (.new files) := by
  refine ⟨inv_new files, fun _ h => ?_, fun _ f h => ?_⟩
  · cases h
  · cases h

theorem Held.keeps {before : Files} (hheld : Held before s) (h : Moves cfg s pid event t)
    {v : ModelVariant} (hctc : v.isCtc = false) {file : String} (hfile : file ∈ v.installFiles)
    {content : Content} (hcontent : s.files file = some content) : t.files file = some content := by
  have hne : ∀ f : Fetch, file ≠ f.staging pid := fun f heq =>
    staging_not_final f pid (heq ▸ ModelVariant.mem_finalFiles hfile)
  cases h.writes (hheld.inv.phases pid) with
  | nothing h => rw [h, hcontent]
  | staging f staged _ h => rw [h, Function.update_of_ne (hne f), hcontent]
  | final f staged hphase _ h =>
      have hbusy : (s.phase pid).busy = some f := by
        rw [hphase]
        rfl
      by_cases heq : file = f.file
      · have hf := mem_of_busy hheld.inv hbusy
        rw [← heq] at hf
        have hnone := hheld.missing pid f hbusy (by rw [isCtc_shared hf hfile, hctc])
        rw [← heq, hcontent] at hnone
        cases hnone
      · rw [h, Function.update_of_ne heq, Function.update_of_ne (hne f), hcontent]

end Stable

section Clean

/-- The call is not killed, and what it removes goes. -/
def Event.clean : Event → Bool
  | .kill => false
  | .verify removed => removed
  | .cleanUp removed => removed
  | _ => true

/-- Every file is of a head, or was there before any call, or is staged by a call that has a guard on
it. -/
def Covered (before : Files) (s : Dir) : Prop :=
  ∀ file ∉ finalFiles, (s.files file).isSome → (before file).isSome ∨
    ∃ p f, (s.phase p).fetch = some f ∧ file = f.staging p

theorem fetch_of_busy {phase : Phase} {f : Fetch} (h : phase.busy = some f) : phase.fetch = some f := by
  cases phase with
  | requesting | streaming | staged | verified => exact h
  | deciding | waiting | checking | installing | unwinding | returned | killed => cases h

/-- The guard of a call stays until what it guards is gone. -/
theorem Moves.guard (h : Moves cfg s pid event t) (hclean : event.clean = true)
    (hok : (s.phase pid).Ok s.files pid) {f : Fetch} (hfetch : (s.phase pid).fetch = some f) :
    (t.phase pid).fetch = some f ∨ t.files (f.staging pid) = none := by
  cases h with
  | created hphase | written hphase | flushed hphase | accepted hphase | torn _ hphase =>
      rw [hphase] at hfetch
      cases hfetch
      rw [Dir.phase_goto, Function.update_self]
      exact Or.inl rfl
  | mismatched failure hphase =>
      rw [hphase] at hfetch
      cases hfetch
      rw [Dir.phase_goto, Function.update_self]
      exact Or.inl rfl
  | failed failure hbusy =>
      rw [fetch_of_busy hbusy] at hfetch
      cases hfetch
      rw [Dir.phase_goto, Function.update_self]
      exact Or.inl rfl
  | renamed hphase hcontent =>
      rw [hphase] at hfetch hok
      cases hfetch
      have hne : f.staging pid ≠ f.file := fun heq =>
        staging_not_final f pid (heq ▸ ModelVariant.mem_finalFiles hok.1.mem)
      rw [Dir.files_goto, Dir.files_put, Function.update_of_ne hne, Dir.files_put, Function.update_self]
      exact Or.inr rfl
  | @cleaned removed g failure hphase =>
      rw [hphase] at hfetch
      cases hfetch
      have hremoved : removed = true := hclean
      rw [hremoved, Dir.files_leave]
      exact Or.inr (Function.update_self _ _ _)
  | used hphase | wanted _ hphase | acquired hphase | entered hphase | found hphase | missing hphase
  | finished hphase | skipped hphase | refused _ hphase | requested hphase | again hphase =>
      rw [hphase] at hfetch
      cases hfetch
  | killed => cases hclean

/-- What an event stages has a guard. -/
theorem Moves.staged (h : Moves cfg s pid event t) {file : String} (hfinal : file ∉ finalFiles)
    (hinv : (s.phase pid).Ok s.files pid) (hthere : (t.files file).isSome) :
    (s.files file).isSome ∨ ∃ f, (t.phase pid).fetch = some f ∧ file = f.staging pid := by
  have hput : ∀ (f : Fetch) (content : Option Content),
      (Function.update s.files (f.staging pid) content file).isSome →
        (s.files file).isSome ∨ file = f.staging pid := by
    intro f content hsome
    by_cases heq : file = f.staging pid
    · exact Or.inr heq
    · rw [Function.update_of_ne heq] at hsome
      exact Or.inl hsome
  have hunstage : ∀ (f : Fetch) (removed : Bool), ((s.unstage pid f removed).files file).isSome →
      (s.files file).isSome := by
    intro f removed hsome
    rcases s.files_unstage pid f removed with h | h
    · rw [h] at hsome
      exact hsome
    · rw [h] at hsome
      by_cases heq : file = f.staging pid
      · rw [heq, Function.update_self] at hsome
        cases hsome
      · rw [Function.update_of_ne heq] at hsome
        exact hsome
  cases h with
  | created hphase | written hphase | torn _ hphase =>
      apply (hput _ _ hthere).imp_right
      rintro rfl
      rw [Dir.phase_goto, Function.update_self]
      exact ⟨_, rfl, rfl⟩
  | mismatched failure hphase => exact Or.inl (hunstage _ _ hthere)
  | cleaned hphase => exact Or.inl (hunstage _ _ hthere)
  | @renamed f content hphase hcontent =>
      rw [hphase] at hinv
      have hne : file ≠ f.file := fun heq =>
        hfinal (heq ▸ ModelVariant.mem_finalFiles hinv.1.mem)
      rw [Dir.files_goto, Dir.files_put, Function.update_of_ne hne] at hthere
      by_cases heq : file = f.staging pid
      · rw [heq, Dir.files_put, Function.update_self] at hthere
        cases hthere
      · rw [Dir.files_put, Function.update_of_ne heq] at hthere
        exact Or.inl hthere
  | used | wanted | acquired | entered | found | missing | finished | skipped | refused | requested
  | flushed | accepted | failed | killed | again => exact Or.inl hthere

theorem Covered.step {before : Files} (hcovered : Covered before s) (hinv : Inv before s)
    (h : Moves cfg s pid event t) (hclean : event.clean = true) : Covered before t := by
  intro file hfinal hthere
  rcases h.staged hfinal (hinv.phases pid) hthere with hold | ⟨f, hfetch, heq⟩
  · apply (hcovered file hfinal hold).imp_right
    rintro ⟨p, f, hfetch, rfl⟩
    by_cases hp : p = pid
    · subst hp
      rcases h.guard hclean (hinv.phases p) hfetch with hfetch' | hgone
      · exact ⟨p, f, hfetch', rfl⟩
      · rw [hgone] at hthere
        cases hthere
    · refine ⟨p, f, ?_, rfl⟩
      rw [h.phase_other hp, hfetch]
  · exact Or.inr ⟨pid, f, hfetch, heq⟩

end Clean

section Example

def vocabOnly : Files := fun file => if file = "v3_vocab.txt" then some [1] else none

def onlineConfig : Config := ⟨"models", false, true, fun _ => some .rnnt⟩

/-- A call under way. -/
def firstChunk : List (ℕ × Event) :=
  [(7, .decide ["v3_vocab.txt"]), (7, .acquire), (7, .check []), (7, .next 1), (7, .respond 0),
    (7, .chunk [2] none)]

/-- It is killed, and another one gets the lock. -/
theorem final_files_verified_killed : ∃ s content,
    Reachable (step onlineConfig) (.new vocabOnly) s ∧ s.phase 8 = .checking .rnnt ∧
      s.files (partialPathUnique "v3_rnnt_encoder_int8.onnx" 7 1) = some [2] ∧
      s.files "v3_vocab.txt" = some content ∧
      (vocabOnly "v3_vocab.txt" = some content ∨ content.length ≤ maxDownloadBytes ∧
        ModelVariant.rnnt.installChecksum "v3_vocab.txt" = some (sha256File content)) := by
  have hreach : Reachable (step onlineConfig) (.new vocabOnly) _ :=
    ⟨firstChunk ++ [(8, .decide []), (7, .kill), (8, .acquire)], rfl⟩
  exact ⟨_, _, hreach, rfl, rfl, rfl, final_files_verified hreach (by decide) rfl⟩

/-- All files of a head, which another call finds too. -/
def wholeHead : Files := fun file => if file ∈ ModelVariant.rnnt.installFiles then some [1] else none

end Example

end Gigastt.Download
