import Gigastt.Install

/-!
What calls leave in a directory, however they interleave and wherever they are killed: no file of a head
that was not there or does not have its pinned digest, and every file of a head that a call returns.
-/

namespace Gigastt.Download

open Transition ModelCache

section Moves

/-- What one event does. -/
inductive Moves (cfg : Config) (s : Dir) (pid : ℕ) : Event → Dir → Prop
  | used {seen : List String} {v : ModelVariant} (hphase : s.phase pid = .deciding)
      (hthere : ∀ file ∈ v.installFiles, s.present file = true) :
      Moves cfg s pid (.decide seen) (s.goto pid (.returned (.ok v)))
  | wanted {seen : List String} (v : ModelVariant) (hphase : s.phase pid = .deciding) :
      Moves cfg s pid (.decide seen) (s.goto pid (.waiting v))
  | acquired {v : ModelVariant} (hphase : s.phase pid = .waiting v) (hfree : s.lock = none) :
      Moves cfg s pid .acquire { s.goto pid (.checking v) with lock := some pid }
  | entered {v : ModelVariant} (hphase : s.phase pid = .waiting v) (hunix : cfg.unix = false) :
      Moves cfg s pid .acquire (s.goto pid (.checking v))
  | found {seen : List String} {v : ModelVariant} (hphase : s.phase pid = .checking v)
      (hthere : ∀ file ∈ v.installFiles, s.present file = true) :
      Moves cfg s pid (.check seen) (s.leave pid (.returned (.ok v)))
  | missing {seen : List String} {v : ModelVariant} (hphase : s.phase pid = .checking v) :
      Moves cfg s pid (.check seen) (s.goto pid (.installing v v.installFiles))
  | finished {stamp : ℕ} {v : ModelVariant} (hphase : s.phase pid = .installing v []) :
      Moves cfg s pid (.next stamp) (s.leave pid (.returned (.ok v)))
  | skipped {stamp : ℕ} {v : ModelVariant} {file : String} {rest : List String}
      (hphase : s.phase pid = .installing v (file :: rest)) (hthere : s.present file = true) :
      Moves cfg s pid (.next stamp) (s.goto pid (.installing v rest))
  | refused {stamp : ℕ} {v : ModelVariant} {file : String} {rest : List String} (failure : Failure)
      (hphase : s.phase pid = .installing v (file :: rest)) (hoffline : cfg.offline = true) :
      Moves cfg s pid (.next stamp) (s.leave pid (.returned (.error failure)))
  | requested {stamp : ℕ} {v : ModelVariant} {file : String} {rest : List String}
      (hphase : s.phase pid = .installing v (file :: rest)) (honline : cfg.offline = false)
      (habsent : v.isCtc = false → s.files file = none) :
      Moves cfg s pid (.next stamp) (s.goto pid (.requesting ⟨v, file, rest, stamp⟩))
  | created {total : ℕ} {f : Fetch} (hphase : s.phase pid = .requesting f) :
      Moves cfg s pid (.respond total) ((s.put (f.staging pid) (some [])).goto pid (.streaming f 0))
  | written {bytes : Content} {f : Fetch} {downloaded : ℕ}
      (hphase : s.phase pid = .streaming f downloaded)
      (hcap : downloaded + bytes.length ≤ maxDownloadBytes) :
      Moves cfg s pid (.chunk bytes none)
        ((s.put (f.staging pid) ((s.files (f.staging pid)).map (· ++ bytes))).goto pid
          (.streaming f (downloaded + bytes.length)))
  | torn {bytes : Content} {n : ℕ} {f : Fetch} {downloaded : ℕ} (failure : Failure)
      (hphase : s.phase pid = .streaming f downloaded)
      (hcap : downloaded + bytes.length ≤ maxDownloadBytes) :
      Moves cfg s pid (.chunk bytes (some n))
        ((s.put (f.staging pid) ((s.files (f.staging pid)).map (· ++ bytes.take n))).goto pid
          (.unwinding f failure))
  | flushed {f : Fetch} {downloaded : ℕ} (hphase : s.phase pid = .streaming f downloaded) :
      Moves cfg s pid .flush (s.goto pid (.staged f))
  | accepted {removed : Bool} {f : Fetch} {content : Content} (hphase : s.phase pid = .staged f)
      (hcontent : s.files (f.staging pid) = some content)
      (hdigest : ∀ expected ∈ f.variant.installChecksum f.file, sha256File content = expected) :
      Moves cfg s pid (.verify removed) (s.goto pid (.verified f))
  | mismatched {removed : Bool} {f : Fetch} (failure : Failure) (hphase : s.phase pid = .staged f) :
      Moves cfg s pid (.verify removed) ((s.unstage pid f removed).goto pid (.unwinding f failure))
  | renamed {f : Fetch} {content : Content} (hphase : s.phase pid = .verified f)
      (hcontent : s.files (f.staging pid) = some content) :
      Moves cfg s pid .rename (((s.put (f.staging pid) none).put f.file (some content)).goto pid
        (.installing f.variant f.rest))
  | failed {event : Event} {f : Fetch} (failure : Failure) (hbusy : (s.phase pid).busy = some f) :
      Moves cfg s pid event (s.goto pid (.unwinding f failure))
  | cleaned {removed : Bool} {f : Fetch} {failure : Failure}
      (hphase : s.phase pid = .unwinding f failure) :
      Moves cfg s pid (.cleanUp removed)
        ((s.unstage pid f removed).leave pid (.returned (.error failure)))
  | killed : Moves cfg s pid .kill (s.leave pid .killed)
  | again {result : Except Failure ModelVariant} (hphase : s.phase pid = .returned result) :
      Moves cfg s pid .callAgain (s.goto pid .deciding)

variable {cfg : Config} {s t : Dir} {pid : ℕ} {event : Event}

theorem resolveVariant_use {requested existing : Option ModelVariant} {v : ModelVariant}
    (h : resolveVariant requested existing = .use v) : existing = some v := by
  unfold resolveVariant at h
  split at h
  · split_ifs at h with heq
    cases h
    rw [heq]
  · cases h
  · cases h
    rfl
  · cases h

/-- A head that a scan finds usable is there: the scan sees nothing that is not. -/
theorem present_of_usable {seen : List String} {v : ModelVariant} (hseen : seen.all s.present = true)
    (h : v.isUsablePresent (fun file => decide (file ∈ seen)) = true) :
    ∀ file ∈ v.installFiles, s.present file = true := by
  intro file hfile
  apply List.all_eq_true.mp hseen
  exact of_decide_eq_true (ModelVariant.isUsablePresent_iff.mp h file hfile)

theorem overDownloadCap_eq_false {soFar extra : ℕ} (h : ¬overDownloadCap soFar extra = true) :
    soFar + extra ≤ maxDownloadBytes := by
  simp only [overDownloadCap, maxDownloadBytes, decide_eq_true_eq, not_lt, gt_iff_lt] at h ⊢
  omega

theorem step_moves (h : step cfg s (pid, event) = some t) : Moves cfg s pid event t := by
  cases event with
  | decide seen =>
      simp only [step, Dir.decide] at h
      split at h
      · rename_i hphase
        split_ifs at h with hseen
        split at h
        · rename_i v hresolve
          cases h
          have hexisting := resolveVariant_use hresolve
          exact .used hphase (present_of_usable hseen (Option.filter_eq_some_iff.mp hexisting).2)
        · cases h
          exact .wanted _ hphase
      · cases h
  | acquire =>
      simp only [step, Dir.acquire] at h
      split at h
      · rename_i hphase
        split_ifs at h with hunix hfree
        · cases h
          exact .acquired hphase hfree
        · cases h
          exact .entered hphase (Bool.eq_false_iff.mpr hunix)
      · cases h
  | check seen =>
      simp only [step, Dir.check] at h
      split at h
      · rename_i hphase
        split_ifs at h with hseen husable
        · cases h
          exact .found hphase (present_of_usable hseen husable)
        · cases h
          exact .missing hphase
      · cases h
  | next stamp =>
      simp only [step, Dir.next] at h
      split at h
      · rename_i hphase
        cases h
        exact .finished hphase
      · rename_i v file rest hphase
        split_ifs at h with hskip hoffline
        · cases h
          exact .skipped hphase (Bool.and_eq_true_iff.mp hskip).2
        · cases h
          exact .refused _ hphase hoffline
        · cases h
          refine .requested hphase (Bool.eq_false_iff.mpr hoffline) fun hctc => ?_
          simpa [Dir.skips, Dir.present, hctc] using hskip
      · cases h
  | respond total =>
      simp only [step, Dir.respond] at h
      split at h
      · rename_i f hphase
        split_ifs at h
        · cases h
          exact .failed _ (by rw [hphase]; rfl)
        · cases h
          exact .created hphase
      · cases h
  | chunk bytes written =>
      simp only [step, Dir.chunk] at h
      split at h
      · rename_i f downloaded hphase
        split_ifs at h with hcap
        · cases h
          exact .failed _ (by rw [hphase]; rfl)
        · cases written with
          | none =>
              cases h
              exact .written hphase (overDownloadCap_eq_false hcap)
          | some n =>
              cases h
              exact .torn _ hphase (overDownloadCap_eq_false hcap)
      · cases h
  | flush =>
      simp only [step, Dir.flush] at h
      split at h
      · rename_i hphase
        cases h
        exact .flushed hphase
      · cases h
  | verify removed =>
      simp only [step, Dir.verify] at h
      split at h
      · rename_i f hphase
        obtain ⟨content, hcontent, rfl⟩ := Option.map_eq_some_iff.mp h
        cases hpinned : f.variant.installChecksum f.file with
        | none =>
            refine .accepted hphase hcontent fun expected hexpected => ?_
            rw [hpinned] at hexpected
            cases hexpected
        | some expected =>
            dsimp only
            split_ifs with hdigest
            · refine .accepted hphase hcontent fun expected' hexpected => ?_
              rw [hpinned] at hexpected
              cases hexpected
              exact hdigest
            · exact .mismatched _ hphase
      · cases h
  | rename =>
      simp only [step, Dir.rename] at h
      split at h
      · rename_i f hphase
        obtain ⟨content, hcontent, rfl⟩ := Option.map_eq_some_iff.mp h
        exact .renamed hphase hcontent
      · cases h
  | fail failure =>
      obtain ⟨f, hbusy, rfl⟩ := Option.map_eq_some_iff.mp h
      exact .failed failure hbusy
  | cleanUp removed =>
      simp only [step, Dir.cleanUp] at h
      split at h
      · rename_i hphase
        cases h
        exact .cleaned hphase
      · cases h
  | kill =>
      simp only [step, Dir.kill] at h
      split_ifs at h
      cases h
      exact .killed
  | callAgain =>
      simp only [step, Dir.callAgain] at h
      split at h
      · rename_i hphase
        cases h
        exact .again hphase
      · cases h

end Moves

section Paths

/-- What stands after the last of two separators is the same. -/
theorem append_cons_inj {α : Type*} {sep : α} {a a' b b' : List α} (hb : sep ∉ b) (hb' : sep ∉ b')
    (h : a ++ sep :: b = a' ++ sep :: b') : a = a' ∧ b = b' := by
  rcases List.append_eq_append_iff.mp h with ⟨c, rfl, hc⟩ | ⟨c, rfl, hc⟩
  · cases c with
    | nil =>
        cases hc
        exact ⟨(List.append_nil a).symm, rfl⟩
    | cons x c =>
        rw [List.cons_append] at hc
        obtain ⟨_, rfl⟩ := List.cons.inj hc
        exact absurd (List.mem_append_right c List.mem_cons_self) hb
  · cases c with
    | nil =>
        cases hc
        exact ⟨List.append_nil a', rfl⟩
    | cons x c =>
        rw [List.cons_append] at hc
        obtain ⟨_, rfl⟩ := List.cons.inj hc
        exact absurd (List.mem_append_right c List.mem_cons_self) hb'

theorem dot_not_mem_toString (n : ℕ) : '.' ∉ (toString n).toList := by
  rw [Nat.toString_eq_repr, Nat.toList_repr]
  intro h
  exact absurd (Nat.isDigit_of_mem_toDigits (by decide) (by decide) h) (by decide)

theorem toString_injective {m n : ℕ} (h : (toString m).toList = (toString n).toList) : m = n := by
  rw [Nat.toString_eq_repr, Nat.toString_eq_repr, Nat.toList_repr, Nat.toList_repr] at h
  rw [← @Nat.ofDigitChars_ten_toDigits m, h, Nat.ofDigitChars_ten_toDigits]

theorem toList_partialPathUnique (file : String) (pid stamp : ℕ) :
    (partialPathUnique file pid stamp).toList =
      (file.toList ++ ".partial".toList ++ '.' :: (toString pid).toList) ++
        '.' :: (toString stamp).toList := by
  simp only [partialPathUnique, String.toList_append]
  simp

/-- Calls of different processes never write to the same staging file. -/
theorem pid_of_staging {f g : Fetch} {p q : ℕ} (h : f.staging p = g.staging q) : p = q := by
  rw [Fetch.staging, Fetch.staging, ← String.toList_inj, toList_partialPathUnique,
    toList_partialPathUnique] at h
  obtain ⟨hfront, _⟩ := append_cons_inj (dot_not_mem_toString _) (dot_not_mem_toString _) h
  obtain ⟨_, hpid⟩ := append_cons_inj (dot_not_mem_toString _) (dot_not_mem_toString _) hfront
  exact toString_injective hpid

/-- No file of a head is named as a staging file: its name does not end in a number. -/
theorem staging_not_final (f : Fetch) (p : ℕ) : f.staging p ∉ finalFiles := by
  intro h
  have hlast : ∀ file ∈ finalFiles, file.toList.getLast?.map Char.isDigit = some false := by decide
  obtain ⟨c, hc, hdigit⟩ := Option.map_eq_some_iff.mp (hlast _ h)
  rw [Fetch.staging, toList_partialPathUnique] at hc
  have hne : (toString f.stamp).toList ≠ [] := by
    rw [Nat.toString_eq_repr, Nat.toList_repr]
    exact Nat.toDigits_ne_nil
  rw [List.getLast?_append_of_ne_nil _ (List.cons_ne_nil _ _), List.getLast?_cons_of_ne_nil hne] at hc
  have hmem := List.mem_of_getLast? hc
  rw [Nat.toString_eq_repr, Nat.toList_repr] at hmem
  have hdigit' := Nat.isDigit_of_mem_toDigits (by decide) (by decide) hmem
  rw [hdigit] at hdigit'
  cases hdigit'

end Paths

section Records

variable (s : Dir) (pid : ℕ) (f : Fetch) (phase : Phase) (file : String) (content : Option Content)

@[simp] theorem Dir.files_goto : (s.goto pid phase).files = s.files := rfl

@[simp] theorem Dir.files_leave : (s.leave pid phase).files = s.files := rfl

@[simp] theorem Dir.files_put : (s.put file content).files = Function.update s.files file content := rfl

@[simp] theorem Dir.phase_goto : (s.goto pid phase).phase = Function.update s.phase pid phase := rfl

@[simp] theorem Dir.phase_leave : (s.leave pid phase).phase = Function.update s.phase pid phase := rfl

@[simp] theorem Dir.phase_put : (s.put file content).phase = s.phase := rfl

@[simp] theorem Dir.lock_goto : (s.goto pid phase).lock = s.lock := rfl

@[simp] theorem Dir.lock_put : (s.put file content).lock = s.lock := rfl

@[simp] theorem Dir.phase_unstage (removed : Bool) : (s.unstage pid f removed).phase = s.phase := by
  cases removed <;> rfl

@[simp] theorem Dir.lock_unstage (removed : Bool) : (s.unstage pid f removed).lock = s.lock := by
  cases removed <;> rfl

theorem Dir.files_unstage (removed : Bool) : (s.unstage pid f removed).files = s.files ∨
    (s.unstage pid f removed).files = Function.update s.files (f.staging pid) none := by
  cases removed
  · exact Or.inl rfl
  · exact Or.inr rfl

end Records

variable {cfg : Config} {s t : Dir} {pid : ℕ} {event : Event}

section Invariant

/-- The files that an installation has been through are there. -/
def Through (files : Files) (v : ModelVariant) (rest : List String) : Prop :=
  ∃ done, v.installFiles = done ++ rest ∧ ∀ file ∈ done, (files file).isSome

/-- What a fetch has staged. -/
def Stages (files : Files) (pid : ℕ) (f : Fetch) (P : Content → Prop) : Prop :=
  Through files f.variant (f.file :: f.rest) ∧
    ∃ content, files (f.staging pid) = some content ∧ content.length ≤ maxDownloadBytes ∧ P content

/-- What a call knows of the files. -/
def Phase.Ok (files : Files) (pid : ℕ) : Phase → Prop
  | .installing v rest => Through files v rest
  | .requesting f => Through files f.variant (f.file :: f.rest)
  | .streaming f downloaded => Stages files pid f fun content => content.length = downloaded
  | .staged f => Stages files pid f fun _ => True
  | .verified f => Stages files pid f fun content =>
      ∀ expected ∈ f.variant.installChecksum f.file, sha256File content = expected
  | .returned (.ok v) => ∀ file ∈ v.installFiles, (files file).isSome
  | _ => True

/-- The content was there, or it fits under the ceiling and has the digest its file is pinned to. -/
def Sound (before : Files) (file : String) (content : Content) : Prop :=
  before file = some content ∨ content.length ≤ maxDownloadBytes ∧
    ∀ v : ModelVariant, file ∈ v.installFiles →
      ∀ expected ∈ v.installChecksum file, sha256File content = expected

structure Inv (before : Files) (s : Dir) : Prop where
  phases : ∀ pid, (s.phase pid).Ok s.files pid
  files : ∀ file content, s.files file = some content → Sound before file content

theorem Through.mem {files : Files} {v : ModelVariant} {file : String} {rest : List String}
    (h : Through files v (file :: rest)) : file ∈ v.installFiles := by
  obtain ⟨done, hsplit, _⟩ := h
  rw [hsplit]
  exact List.mem_append_right _ List.mem_cons_self

theorem Through.next {files : Files} {v : ModelVariant} {file : String} {rest : List String}
    (h : Through files v (file :: rest)) (hfile : (files file).isSome) : Through files v rest := by
  obtain ⟨done, hsplit, hdone⟩ := h
  refine ⟨done ++ [file], ?_, fun other hother => ?_⟩
  · rw [hsplit, List.append_assoc]
    rfl
  · rcases List.mem_append.mp hother with hother | hlast
    · exact hdone other hother
    · rw [List.mem_singleton.mp hlast]
      exact hfile

theorem Through.mono {files files' : Files} {v : ModelVariant} {rest : List String}
    (h : Through files v rest)
    (hkeep : ∀ file ∈ finalFiles, (files file).isSome → (files' file).isSome) :
    Through files' v rest := by
  obtain ⟨done, hsplit, hdone⟩ := h
  refine ⟨done, hsplit, fun file hfile => hkeep file ?_ (hdone file hfile)⟩
  apply ModelVariant.mem_finalFiles (v := v)
  rw [hsplit]
  exact List.mem_append_left _ hfile

/-- What a call knows survives what other calls do: no file of a head disappears, and nobody else
touches what the call has staged. -/
theorem Phase.Ok.mono {files files' : Files} {phase : Phase} (h : phase.Ok files pid)
    (hkeep : ∀ file ∈ finalFiles, (files file).isSome → (files' file).isSome)
    (hstaged : ∀ f : Fetch, files' (f.staging pid) = files (f.staging pid)) : phase.Ok files' pid := by
  have hstages : ∀ (f : Fetch) (P : Content → Prop), Stages files pid f P → Stages files' pid f P := by
    rintro f P ⟨hthrough, content, hcontent, hrest⟩
    exact ⟨hthrough.mono hkeep, content, (hstaged f).trans hcontent, hrest⟩
  cases phase with
  | installing v rest => exact Through.mono h hkeep
  | requesting f => exact Through.mono h hkeep
  | streaming f downloaded => exact hstages f _ h
  | staged f => exact hstages f _ h
  | verified f => exact hstages f _ h
  | returned result =>
      cases result with
      | error failure => trivial
      | ok v => exact fun file hfile => hkeep file (ModelVariant.mem_finalFiles hfile) (h file hfile)
  | deciding | waiting v | checking v | unwinding f failure | killed => trivial

/-- What an event writes. -/
inductive Writes (s : Dir) (pid : ℕ) (files' : Files) : Prop
  | nothing (h : files' = s.files)
  | staging (f : Fetch) (content : Option Content)
      (hcap : ∀ bytes ∈ content, bytes.length ≤ maxDownloadBytes)
      (h : files' = Function.update s.files (f.staging pid) content)
  | final (f : Fetch) (content : Content) (hphase : s.phase pid = .verified f)
      (hcontent : s.files (f.staging pid) = some content)
      (h : files' = Function.update (Function.update s.files (f.staging pid) none) f.file (some content))

theorem Writes.unstage (f : Fetch) (removed : Bool) : Writes s pid (s.unstage pid f removed).files := by
  rcases s.files_unstage pid f removed with h | h
  · exact .nothing h
  · exact .staging f none (fun bytes hbytes => by cases hbytes) h

theorem Moves.writes (h : Moves cfg s pid event t) (hok : (s.phase pid).Ok s.files pid) :
    Writes s pid t.files := by
  cases h with
  | created hphase =>
      refine .staging _ (some []) (fun bytes hbytes => ?_) rfl
      cases hbytes
      exact Nat.zero_le _
  | @written bytes f downloaded hphase hcap =>
      refine .staging f _ (fun all hall => ?_) rfl
      rw [hphase] at hok
      obtain ⟨_, content, hcontent, _, hlength⟩ := hok
      rw [hcontent] at hall
      cases hall
      rw [List.length_append, hlength]
      exact hcap
  | @torn bytes n f downloaded failure hphase hcap =>
      refine .staging f _ (fun all hall => ?_) rfl
      rw [hphase] at hok
      obtain ⟨_, content, hcontent, _, hlength⟩ := hok
      rw [hcontent] at hall
      cases hall
      rw [List.length_append, hlength]
      exact (Nat.add_le_add_left (List.length_take_le' _ _) _).trans hcap
  | mismatched failure hphase => exact .unstage _ _
  | renamed hphase hcontent => exact .final _ _ hphase hcontent rfl
  | cleaned hphase => exact .unstage _ _
  | used | wanted | acquired | entered | found | missing | finished | skipped | refused | requested
  | flushed | accepted | failed | killed | again => exact .nothing rfl

variable {files' : Files}

/-- No file of a head disappears. -/
theorem Writes.keeps (h : Writes s pid files') {file : String} (hfile : file ∈ finalFiles)
    (hthere : (s.files file).isSome) : (files' file).isSome := by
  cases h with
  | nothing h =>
      rw [h]
      exact hthere
  | staging f content _ h =>
      have hne : file ≠ f.staging pid := fun heq => staging_not_final f pid (heq ▸ hfile)
      rw [h, Function.update_of_ne hne]
      exact hthere
  | final f content _ _ h =>
      have hne : file ≠ f.staging pid := fun heq => staging_not_final f pid (heq ▸ hfile)
      rw [h]
      by_cases heq : file = f.file
      · rw [heq, Function.update_self]
        rfl
      · rw [Function.update_of_ne heq, Function.update_of_ne hne]
        exact hthere

/-- Nobody touches what another call has staged. -/
theorem Writes.staging_other (h : Writes s pid files') (hok : (s.phase pid).Ok s.files pid) {q : ℕ}
    (hq : q ≠ pid) (g : Fetch) : files' (g.staging q) = s.files (g.staging q) := by
  have hne : ∀ f : Fetch, g.staging q ≠ f.staging pid := fun f heq => hq (pid_of_staging heq)
  cases h with
  | nothing h => rw [h]
  | staging f content _ h => rw [h, Function.update_of_ne (hne f)]
  | final f content hphase _ h =>
      rw [hphase] at hok
      have hfinal : g.staging q ≠ f.file := by
        intro heq
        apply staging_not_final g q
        rw [heq]
        exact ModelVariant.mem_finalFiles hok.1.mem
      rw [h, Function.update_of_ne hfinal, Function.update_of_ne (hne f)]

/-- What is written is sound: under the name of a head only what was verified. -/
theorem Writes.sound {before : Files} (hinv : Inv before s) (h : Writes s pid files') {file : String}
    {content : Content} (hcontent : files' file = some content) : Sound before file content := by
  cases h with
  | nothing h =>
      rw [h] at hcontent
      exact hinv.files file content hcontent
  | staging f staged hcap h =>
      rw [h] at hcontent
      by_cases heq : file = f.staging pid
      · rw [heq, Function.update_self] at hcontent
        refine Or.inr ⟨hcap content hcontent, fun v hv => ?_⟩
        rw [heq] at hv
        exact absurd (ModelVariant.mem_finalFiles hv) (staging_not_final f pid)
      · rw [Function.update_of_ne heq] at hcontent
        exact hinv.files file content hcontent
  | final f staged hphase hstaged h =>
      rw [h] at hcontent
      by_cases heq : file = f.file
      · rw [heq, Function.update_self] at hcontent
        cases hcontent
        have hok := hinv.phases pid
        rw [hphase] at hok
        obtain ⟨hthrough, staged', hstaged', hlength, hdigest⟩ := hok
        rw [hstaged] at hstaged'
        cases hstaged'
        refine Or.inr ⟨hlength, fun v hv expected hexpected => hdigest expected ?_⟩
        rw [heq] at hv hexpected
        rw [ModelVariant.installChecksum_shared hthrough.mem hv]
        exact hexpected
      · rw [Function.update_of_ne heq] at hcontent
        by_cases hstage : file = f.staging pid
        · rw [hstage, Function.update_self] at hcontent
          cases hcontent
        · rw [Function.update_of_ne hstage] at hcontent
          exact hinv.files file content hcontent

end Invariant

section Run

/-- The call that moves knows what its new phase says. -/
theorem Moves.phase (h : Moves cfg s pid event t) (hok : (s.phase pid).Ok s.files pid) :
    ∃ phase, t.phase = Function.update s.phase pid phase ∧ phase.Ok t.files pid := by
  have hkeep : ∀ file ∈ finalFiles, (s.files file).isSome → (t.files file).isSome :=
    fun file hfile => (h.writes hok).keeps hfile
  have hpresent : ∀ {v : ModelVariant}, (∀ file ∈ v.installFiles, s.present file = true) →
      ∀ file ∈ v.installFiles, (s.files file).isSome := fun h file hfile => h file hfile
  cases h with
  | used hphase hthere => exact ⟨_, rfl, hpresent hthere⟩
  | wanted v hphase => exact ⟨_, rfl, trivial⟩
  | acquired hphase hfree => exact ⟨_, rfl, trivial⟩
  | entered hphase hunix => exact ⟨_, rfl, trivial⟩
  | found hphase hthere => exact ⟨_, rfl, hpresent hthere⟩
  | missing hphase => exact ⟨_, rfl, [], rfl, fun file hfile => by cases hfile⟩
  | @finished stamp v hphase =>
      rw [hphase] at hok
      obtain ⟨done, hsplit, hdone⟩ := hok
      refine ⟨.returned (.ok v), rfl, fun file hfile => hdone file ?_⟩
      rw [hsplit, List.append_nil] at hfile
      exact hfile
  | skipped hphase hthere =>
      rw [hphase] at hok
      exact ⟨_, rfl, Through.next hok hthere⟩
  | refused failure hphase hoffline => exact ⟨_, rfl, trivial⟩
  | requested hphase honline habsent =>
      rw [hphase] at hok
      exact ⟨_, rfl, hok⟩
  | @created total f hphase =>
      rw [hphase] at hok
      refine ⟨.streaming f 0, rfl, Through.mono hok hkeep, [], ?_, Nat.zero_le _, rfl⟩
      exact Function.update_self _ _ _
  | @written bytes f downloaded hphase hcap =>
      rw [hphase] at hok
      obtain ⟨hthrough, content, hcontent, _, hlength⟩ := hok
      have hlength' : (content ++ bytes).length = downloaded + bytes.length := by
        rw [List.length_append, hlength]
      refine ⟨.streaming f (downloaded + bytes.length), rfl, hthrough.mono hkeep, content ++ bytes, ?_,
        hlength'.trans_le hcap, hlength'⟩
      rw [Dir.files_goto, Dir.files_put, hcontent]
      exact Function.update_self _ _ _
  | torn failure hphase hcap => exact ⟨_, rfl, trivial⟩
  | flushed hphase =>
      rw [hphase] at hok
      obtain ⟨hthrough, content, hcontent, hfits, _⟩ := hok
      exact ⟨_, rfl, hthrough, content, hcontent, hfits, trivial⟩
  | @accepted removed f content hphase hcontent hdigest =>
      rw [hphase] at hok
      obtain ⟨hthrough, content', hcontent', hfits, _⟩ := hok
      rw [hcontent] at hcontent'
      cases hcontent'
      exact ⟨.verified f, rfl, hthrough, content, hcontent, hfits, hdigest⟩
  | @mismatched removed f failure hphase =>
      exact ⟨.unwinding f failure, by rw [Dir.phase_goto, Dir.phase_unstage], trivial⟩
  | @renamed f content hphase hcontent =>
      rw [hphase] at hok
      refine ⟨.installing f.variant f.rest, rfl, (hok.1.mono hkeep).next ?_⟩
      rw [Dir.files_goto, Dir.files_put, Function.update_self]
      rfl
  | failed failure hbusy => exact ⟨_, rfl, trivial⟩
  | @cleaned removed f failure hphase =>
      exact ⟨.returned (.error failure), by rw [Dir.phase_leave, Dir.phase_unstage], trivial⟩
  | killed => exact ⟨_, rfl, trivial⟩
  | again hphase => exact ⟨_, rfl, trivial⟩

theorem Inv.step {before : Files} (hinv : Inv before s) (h : step cfg s (pid, event) = some t) :
    Inv before t := by
  have hmoves := step_moves h
  have hok := hinv.phases pid
  have hwrites := hmoves.writes hok
  obtain ⟨phase, hphase, hnew⟩ := hmoves.phase hok
  refine ⟨fun q => ?_, fun file content hcontent => hwrites.sound hinv hcontent⟩
  rw [hphase]
  by_cases hq : q = pid
  · rw [hq, Function.update_self]
    exact hnew
  · rw [Function.update_of_ne hq]
    exact (hinv.phases q).mono (fun file hfile => hwrites.keeps hfile) (hwrites.staging_other hok hq)

theorem inv_new (files : Files) : Inv files (.new files) :=
  ⟨fun _ => trivial, fun _ _ hcontent => Or.inl hcontent⟩

theorem inv_of_reachable {files : Files} (h : Reachable (step cfg) (.new files) s) : Inv files s :=
  h.invariant (fun _ _ _ hstep hinv => hinv.step hstep) (inv_new files)

end Run

section Safety

/-- Whatever the servers answer, however the calls interleave and wherever they are killed, the name of a
head's file never has contents other than those it had before any call, or some with its pinned digest
under the download ceiling. -/
theorem final_files_verified {files : Files} (h : Reachable (step cfg) (.new files) s)
    {v : ModelVariant} {file : String} (hfile : file ∈ v.installFiles) {content : Content}
    (hcontent : s.files file = some content) :
    files file = some content ∨
      content.length ≤ maxDownloadBytes ∧ v.installChecksum file = some (sha256File content) := by
  rcases (inv_of_reachable h).files file content hcontent with hbefore | ⟨hlength, hdigest⟩
  · exact Or.inl hbefore
  · obtain ⟨expected, hexpected⟩ := Option.isSome_iff_exists.mp (ModelVariant.installChecksum_isSome hfile)
    refine Or.inr ⟨hlength, ?_⟩
    rw [hexpected, hdigest v hfile expected hexpected]

end Safety

end Gigastt.Download
