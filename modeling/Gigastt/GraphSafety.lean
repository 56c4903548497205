import Gigastt.GraphCache

/-!
What the loads leave in the cache of optimized graphs: whole graphs of the sources that the entries are
named after. No two loads write one staging file, and one that is left over is of a dead process.
-/

namespace Gigastt.GraphCache

open Transition

variable {Content Hash Settings Graph : Type}

section

variable (rt : Runtime Content Hash Settings Graph) (s : State Content Hash Settings Graph)

/-- The source has had the digest. -/
def State.Seen (hash : Hash) : Prop :=
  ∃ content ∈ s.source :: s.former, rt.sourceHash content = some hash

/-- The content has been the source, and then or before the source has had the digest. -/
def State.Since (hash : Hash) (content : Content) : Prop :=
  ∃ newer older, s.source :: s.former = newer ++ content :: older ∧
    ∃ earlier ∈ content :: older, rt.sourceHash earlier = some hash

/-- What a load relies on where it stands. -/
def PhaseOk (i : Nat) : Phase Content Hash Settings Graph → Prop
  | .hashed hash | .missed hash => s.Seen rt hash
  | .staged file => s.Seen rt file.entry.1
  | .compiling file source => s.Since rt file.entry.1 source
  | .compiled file source =>
      s.Since rt file.entry.1 source ∧
        s.staging file = some (.whole (rt.optimize source (rt.settings i)))
  | .checked file source =>
      rt.sourceHash source = some file.entry.1 ∧
        s.staging file = some (.whole (rt.optimize source (rt.settings i)))
  | .served hash stored => rt.Right hash (rt.settings i) stored
  | .idle | .dropping _ | .plain => True

/-- The staging file has been named by the load, and no other load that lives is at it. -/
structure State.Owned (i : Nat) (file : File Hash Settings) : Prop where
  settings : file.entry.2 = rt.settings i
  pid : file.pid = rt.pid i
  id : file.id < s.nextId (rt.pid i)
  apart : ∀ j ≠ i, Live rt s j → (s.phase j).file ≠ some file

structure Inv : Prop where
  phases : ∀ i, Live rt s i → PhaseOk rt s i (s.phase i)
  served : ∀ i hash stored, s.phase i = .served hash stored → rt.Right hash (rt.settings i) stored
  entries : ∀ entry stored, s.cache entry = some stored → rt.Right entry.1 entry.2 stored
  distinct : (s.source :: s.former).Pairwise fun later earlier =>
    rt.sourceHash later ≠ none → rt.sourceHash earlier ≠ rt.sourceHash later
  owned : ∀ i file, Live rt s i → (s.phase i).file = some file → s.Owned rt i file
  held : ∀ file, s.staging file ≠ none → ∃ i, (s.phase i).file = some file
  unborn : ∀ i, s.generation (rt.pid i) < rt.generation i → s.phase i = .idle

end

section

variable {rt : Runtime Content Hash Settings Graph} {s t : State Content Hash Settings Graph}
  {i pid : Nat} {hash : Hash} {file : File Hash Settings} {place phase : Phase Content Hash Settings Graph}

/-- What a load relies on is the source and its own staging file. -/
theorem phaseOk_congr (hsource : t.source = s.source) (hformer : t.former = s.former)
    (hstaging : ∀ file, phase.file = some file → t.staging file = s.staging file)
    (h : PhaseOk rt s i phase) : PhaseOk rt t i phase := by
  cases phase with
  | hashed hash | missed hash | staged file | compiling file source =>
      simpa only [PhaseOk, State.Seen, State.Since, hsource, hformer] using h
  | compiled file source | checked file source =>
      simpa only [PhaseOk, State.Since, hsource, hformer, hstaging file rfl] using h
  | served hash stored => exact h
  | idle | dropping file | plain => trivial

theorem State.Owned.congr (h : s.Owned rt i file) (hnext : s.nextId (rt.pid i) ≤ t.nextId (rt.pid i))
    (hgeneration : t.generation = s.generation) (hphase : ∀ j ≠ i, t.phase j = s.phase j) :
    t.Owned rt i file where
  settings := h.settings
  pid := h.pid
  id := Nat.lt_of_lt_of_le h.id hnext
  apart j hj hlive := by
    rw [Live, hgeneration] at hlive
    rw [hphase j hj]
    exact h.apart j hj hlive

/-- A number that a process has yet to take makes a name that none of its loads is at. -/
theorem Inv.file_ne_pendingFile (hinv : Inv rt s) {j : Nat} (hlive : Live rt s j) :
    (s.phase j).file ≠ some (pendingFile rt s i hash) := by
  intro h
  have howned := hinv.owned j _ hlive h
  have hpid : rt.pid i = rt.pid j := howned.pid
  have hid : s.nextId (rt.pid i) < s.nextId (rt.pid j) := howned.id
  rw [hpid] at hid
  exact Nat.lt_irrefl _ hid

theorem Inv.held_by_other (hinv : Inv rt s) (hkept : s.staging file ≠ none)
    (hi : (s.phase i).file ≠ some file) : ∃ j ≠ i, (s.phase j).file = some file := by
  obtain ⟨j, hj⟩ := hinv.held file hkept
  refine ⟨j, fun heq => ?_, hj⟩
  rw [heq] at hj
  exact hi hj

variable (i t) in
/-- A step of one load that leaves the cache alone. -/
theorem Inv.move (hinv : Inv rt s) (hsource : t.source = s.source) (hformer : t.former = s.former)
    (hcache : t.cache = s.cache) (hgeneration : t.generation = s.generation)
    (hnext : ∀ pid, s.nextId pid ≤ t.nextId pid) (hphase : ∀ j ≠ i, t.phase j = s.phase j)
    (hstaging : ∀ j ≠ i, Live rt s j → ∀ file, (s.phase j).file = some file →
      t.staging file = s.staging file)
    (hlive : Live rt s i) (hok : PhaseOk rt t i (t.phase i))
    (howned : ∀ file, (t.phase i).file = some file → t.Owned rt i file)
    (hheld : ∀ file, t.staging file ≠ none → ∃ j, (t.phase j).file = some file) : Inv rt t where
  phases j hj := by
    by_cases heq : j = i
    · rw [heq]
      exact hok
    · rw [Live, hgeneration] at hj
      rw [hphase j heq]
      exact phaseOk_congr hsource hformer (hstaging j heq hj) (hinv.phases j hj)
  served j hash stored h := by
    by_cases heq : j = i
    · rw [heq] at h ⊢
      rw [h] at hok
      exact hok
    · rw [hphase j heq] at h
      exact hinv.served j hash stored h
  entries := by
    rw [hcache]
    exact hinv.entries
  distinct := by
    rw [hsource, hformer]
    exact hinv.distinct
  owned j file hj h := by
    by_cases heq : j = i
    · rw [heq] at h ⊢
      exact howned file h
    · have hs : Live rt s j := by rwa [Live, hgeneration] at hj
      have hfile : (s.phase j).file = some file := by rwa [hphase j heq] at h
      have hold := hinv.owned j file hs hfile
      refine ⟨hold.settings, hold.pid, Nat.lt_of_lt_of_le hold.id (hnext _), fun k hk hkt => ?_⟩
      by_cases hki : k = i
      · rw [hki]
        exact fun hi => (howned file hi).apart j heq hj h
      · rw [Live, hgeneration] at hkt
        rw [hphase k hki]
        exact hold.apart k hk hkt
  held := hheld
  unborn j h := by
    rw [hgeneration] at h
    by_cases heq : j = i
    · rw [heq, hlive] at h
      exact absurd h (Nat.lt_irrefl _)
    · rw [hphase j heq]
      exact hinv.unborn j h

theorem goto_phase_self : (s.goto i phase).phase i = phase := Function.update_self ..

theorem goto_phase_of_ne {j : Nat} (h : j ≠ i) : (s.goto i phase).phase j = s.phase j :=
  Function.update_of_ne h ..

/-- A load that stays at its staging file. -/
theorem Inv.goto (hinv : Inv rt s) (hlive : Live rt s i) (hphase : s.phase i = place)
    (hok : PhaseOk rt s i phase) (hfile : phase.file = place.file) : Inv rt (s.goto i phase) := by
  rw [← hphase] at hfile
  apply hinv.move (s.goto i phase) i rfl rfl rfl rfl (fun _ => Nat.le_refl _)
    (fun j hj => goto_phase_of_ne hj) (fun _ _ _ _ _ => rfl) hlive
  · rw [goto_phase_self]
    exact phaseOk_congr rfl rfl (fun _ _ => rfl) hok
  · intro file h
    rw [goto_phase_self, hfile] at h
    exact (hinv.owned i file hlive h).congr (Nat.le_refl _) rfl fun j hj => goto_phase_of_ne hj
  · intro file h
    obtain ⟨j, hj⟩ := hinv.held file h
    refine ⟨j, ?_⟩
    by_cases heq : j = i
    · rw [heq, goto_phase_self, hfile, ← heq]
      exact hj
    · rw [goto_phase_of_ne heq]
      exact hj

/-- A digest that is there now has not been there with another content in between. -/
theorem since_current (hinv : Inv rt s) {content : Content}
    (hsince : s.Since rt hash content) (hnow : rt.sourceHash s.source = some hash) :
    rt.sourceHash content = some hash := by
  obtain ⟨newer, older, heq, earlier, hearlier, hhash⟩ := hsince
  cases newer with
  | nil =>
      rw [← (List.cons.inj heq).1]
      exact hnow
  | cons latest newer =>
      have hformer : earlier ∈ s.former := by
        rw [(List.cons.inj heq).2]
        exact List.mem_append_right newer hearlier
      have hne : rt.sourceHash earlier ≠ rt.sourceHash s.source :=
        (List.pairwise_cons.mp hinv.distinct).1 earlier hformer (by simp [hnow])
      exact absurd (hhash.trans hnow.symm) hne

/-- A new source leaves what has been seen, and has a digest of its own. -/
theorem Inv.replace (hinv : Inv rt s) {content : Content} (hfresh : Fresh rt s (.replace content)) :
    Inv rt { s with source := content, former := s.source :: s.former } where
  phases j hlive := by
    have hseen : ∀ hash, s.Seen rt hash →
        State.Seen rt { s with source := content, former := s.source :: s.former } hash := by
      rintro hash ⟨earlier, hearlier, hhash⟩
      exact ⟨earlier, List.mem_cons_of_mem content hearlier, hhash⟩
    have hsince : ∀ hash source, s.Since rt hash source →
        State.Since rt { s with source := content, former := s.source :: s.former } hash source := by
      rintro hash source ⟨newer, older, heq, hearlier⟩
      exact ⟨content :: newer, older, congrArg (content :: ·) heq, hearlier⟩
    have hj := hinv.phases j hlive
    show PhaseOk rt _ j (s.phase j)
    cases hphase : s.phase j with
    | hashed hash | missed hash =>
        rw [hphase] at hj
        exact hseen hash hj
    | staged file =>
        rw [hphase] at hj
        exact hseen file.entry.1 hj
    | compiling file source =>
        rw [hphase] at hj
        exact hsince file.entry.1 source hj
    | compiled file source =>
        rw [hphase] at hj
        exact ⟨hsince file.entry.1 source hj.1, hj.2⟩
    | checked file source | served hash stored =>
        rw [hphase] at hj
        exact hj
    | idle | dropping file | plain => trivial
  served := hinv.served
  entries := hinv.entries
  distinct := List.pairwise_cons.mpr ⟨fun earlier h => hfresh earlier h, hinv.distinct⟩
  owned i file hlive h := (hinv.owned i file hlive h).congr (Nat.le_refl _) rfl fun _ _ => rfl
  held := hinv.held
  unborn := hinv.unborn

theorem inv_start (content : Content) : Inv rt (State.start content) where
  phases _ _ := trivial
  served _ _ _ h := by cases h
  entries _ _ h := by cases h
  distinct := List.pairwise_singleton ..
  owned _ _ _ h := by cases h
  held _ h := absurd rfl h
  unborn _ _ := rfl

theorem generation_die : (s.die pid).generation pid = s.generation pid + 1 := Function.update_self ..

/-- The loads that live when a process has died have not begun, or are of the other processes. -/
theorem Inv.live_die (hinv : Inv rt s) (hlive : Live rt (s.die pid) i) :
    s.phase i = .idle ∨ rt.pid i ≠ pid ∧ Live rt s i := by
  by_cases hpid : rt.pid i = pid
  · left
    apply hinv.unborn
    rw [Live, hpid, generation_die] at hlive
    rw [hlive, hpid]
    exact Nat.lt_succ_self _
  · right
    exact ⟨hpid, hlive.trans (Function.update_of_ne hpid ..)⟩

theorem Inv.die (hinv : Inv rt s) : Inv rt (s.die pid) where
  phases i hlive := by
    show PhaseOk rt (s.die pid) i (s.phase i)
    rcases hinv.live_die hlive with hidle | ⟨-, hs⟩
    · rw [hidle]
      trivial
    · exact phaseOk_congr rfl rfl (fun _ _ => rfl) (hinv.phases i hs)
  served := hinv.served
  entries := hinv.entries
  distinct := hinv.distinct
  owned i file hlive h := by
    rcases hinv.live_die hlive with hidle | ⟨hpid, hs⟩
    · replace h : (s.phase i).file = some file := h
      rw [hidle] at h
      cases h
    · have hold := hinv.owned i file hs h
      have hnext : (s.die pid).nextId (rt.pid i) = s.nextId (rt.pid i) :=
        Function.update_of_ne hpid ..
      refine ⟨hold.settings, hold.pid, lt_of_lt_of_eq hold.id hnext.symm, fun j hj hjlive => ?_⟩
      show (s.phase j).file ≠ some file
      rcases hinv.live_die hjlive with hidle | ⟨-, hjs⟩
      · rw [hidle]
        exact Option.some_ne_none file |>.symm
      · exact hold.apart j hj hjs
  held := hinv.held
  unborn i h := by
    apply hinv.unborn
    by_cases hpid : rt.pid i = pid
    · rw [hpid, generation_die] at h
      rw [hpid]
      exact Nat.lt_of_succ_lt h
    · exact lt_of_eq_of_lt (Function.update_of_ne hpid ..).symm h

theorem nextId_count : (s.count pid).nextId pid = s.nextId pid + 1 := Function.update_self ..

theorem le_count (p : Nat) : s.nextId p ≤ (s.count pid).nextId p := by
  by_cases h : p = pid
  · rw [h, nextId_count]
    exact Nat.le_succ _
  · exact Nat.le_of_eq (Function.update_of_ne h ..).symm

theorem Inv.count (hinv : Inv rt s) : Inv rt (s.count pid) where
  phases i hlive := phaseOk_congr rfl rfl (fun _ _ => rfl) (hinv.phases i hlive)
  served := hinv.served
  entries := hinv.entries
  distinct := hinv.distinct
  owned i file hlive h := (hinv.owned i file hlive h).congr (le_count _) rfl fun _ _ => rfl
  held := hinv.held
  unborn := hinv.unborn

variable [DecidableEq Hash] [DecidableEq Settings]

theorem staging_put {stored : Option (Stored Graph)} : (s.put file stored).staging file = stored :=
  Function.update_self ..

theorem staging_put_of_ne {other : File Hash Settings} {stored : Option (Stored Graph)}
    (h : other ≠ file) : (s.put file stored).staging other = s.staging other :=
  Function.update_of_ne h ..

/-- The staging file of a load is written, moved or removed. -/
theorem Inv.put (hinv : Inv rt s) (hlive : Live rt s i) (hphase : s.phase i = place)
    (hplace : place.file = some file) {stored : Option (Stored Graph)}
    (hok : PhaseOk rt (s.put file stored) i phase)
    (hfile : phase.file = some file ∨ stored = none ∧ phase.file = none) :
    Inv rt ((s.put file stored).goto i phase) := by
  have hi : (s.phase i).file = some file := by rw [hphase, hplace]
  have howned := hinv.owned i file hlive hi
  apply hinv.move ((s.put file stored).goto i phase) i rfl rfl rfl rfl (fun _ => Nat.le_refl _)
    (fun j hj => goto_phase_of_ne hj) ?_ hlive
  · rw [goto_phase_self]
    exact phaseOk_congr rfl rfl (fun _ _ => rfl) hok
  · intro other h
    rw [goto_phase_self] at h
    rcases hfile with hfile | ⟨-, hfile⟩
    · rw [← Option.some.inj (hfile.symm.trans h)]
      exact howned.congr (Nat.le_refl _) rfl fun j hj => goto_phase_of_ne hj
    · rw [hfile] at h
      cases h
  · intro other h
    by_cases heq : other = file
    · refine ⟨i, ?_⟩
      rw [goto_phase_self, heq]
      rcases hfile with hfile | ⟨hnone, -⟩
      · exact hfile
      · rw [heq] at h
        exact absurd (staging_put.trans hnone) h
    · have hkept : s.staging other ≠ none := fun hnone => h ((staging_put_of_ne heq).trans hnone)
      have hother : (s.phase i).file ≠ some other := fun h =>
        heq (Option.some.inj (h.symm.trans hi))
      obtain ⟨j, hne, hj⟩ := hinv.held_by_other hkept hother
      refine ⟨j, ?_⟩
      rw [goto_phase_of_ne hne]
      exact hj
  · intro j hj hjlive other h
    apply staging_put_of_ne
    intro heq
    rw [heq] at h
    exact howned.apart j hj hjlive h

theorem Inv.stage (hinv : Inv rt s) (hlive : Live rt s i) (hphase : s.phase i = .missed hash) :
    Inv rt (((s.count (rt.pid i)).put (pendingFile rt s i hash) (some .torn)).goto i
      (.staged (pendingFile rt s i hash))) := by
  apply hinv.move (((s.count (rt.pid i)).put (pendingFile rt s i hash) (some .torn)).goto i
    (.staged (pendingFile rt s i hash))) i rfl rfl rfl rfl le_count (fun j hj => goto_phase_of_ne hj)
    ?_ hlive
  · have hi := hinv.phases i hlive
    rw [hphase] at hi
    rw [goto_phase_self]
    exact hi
  · intro file h
    rw [goto_phase_self] at h
    rw [← Option.some.inj h]
    refine ⟨rfl, rfl, ?_, fun j hj hjlive => ?_⟩
    · exact lt_of_lt_of_eq (Nat.lt_succ_self _) nextId_count.symm
    · rw [goto_phase_of_ne hj]
      exact hinv.file_ne_pendingFile hjlive
  · intro other h
    by_cases heq : other = pendingFile rt s i hash
    · refine ⟨i, ?_⟩
      rw [goto_phase_self, heq]
      rfl
    · have hkept : s.staging other ≠ none := fun hnone => h ((staging_put_of_ne heq).trans hnone)
      have hother : (s.phase i).file ≠ some other := by
        rw [hphase]
        exact Option.some_ne_none other |>.symm
      obtain ⟨j, hne, hj⟩ := hinv.held_by_other hkept hother
      refine ⟨j, ?_⟩
      rw [goto_phase_of_ne hne]
      exact hj
  · intro j hj hjlive other h
    apply staging_put_of_ne
    intro heq
    rw [heq] at h
    exact hinv.file_ne_pendingFile hjlive h

theorem Inv.publish (hinv : Inv rt s) {entry : Hash × Settings} {stored : Option (Stored Graph)}
    (hright : ∀ graph, stored = some graph → rt.Right entry.1 entry.2 graph) :
    Inv rt (s.publish entry stored) where
  phases i hlive := phaseOk_congr rfl rfl (fun _ _ => rfl) (hinv.phases i hlive)
  served := hinv.served
  entries other graph h := by
    by_cases heq : other = entry
    · rw [heq] at h ⊢
      have hself : (s.publish entry stored).cache entry = stored := Function.update_self ..
      exact hright graph (hself.symm.trans h)
    · have hkept : (s.publish entry stored).cache other = s.cache other :=
        Function.update_of_ne heq ..
      exact hinv.entries other graph (hkept.symm.trans h)
  distinct := hinv.distinct
  owned i file hlive h := (hinv.owned i file hlive h).congr (Nat.le_refl _) rfl fun _ _ => rfl
  held := hinv.held
  unborn := hinv.unborn

theorem Inv.load (hinv : Inv rt s) (hlive : Live rt s i) {call : Call}
    (hload : load rt s i call = some t) : Inv rt t := by
  have hi := hinv.phases i hlive
  unfold GraphCache.load at hload
  cases call with
  | hash =>
      dsimp only at hload
      split at hload
      · next hphase =>
        split at hload
        · next hash hhash =>
          cases hload
          exact hinv.goto hlive hphase ⟨s.source, List.mem_cons_self, hhash⟩ rfl
        · cases hload
          exact hinv.goto hlive hphase trivial rfl
      · cases hload
  | lookUp readable =>
      dsimp only at hload
      split at hload
      · next hash hphase =>
        rw [hphase] at hi
        split at hload
        · next stored hentry =>
          cases hload
          cases readable with
          | true => exact hinv.goto hlive hphase (hinv.entries _ stored hentry) rfl
          | false => exact hinv.goto hlive hphase hi rfl
        · cases hload
          exact hinv.goto hlive hphase hi rfl
      · cases hload
  | stage =>
      dsimp only at hload
      split at hload
      · next hash hphase =>
        split at hload
        · cases hload
          exact hinv.count
        · cases hload
          exact hinv.stage hlive hphase
      · cases hload
  | unstaged =>
      dsimp only at hload
      split at hload
      · next hash hphase =>
        cases hload
        exact hinv.goto hlive hphase trivial rfl
      · cases hload
  | read =>
      dsimp only at hload
      split at hload
      · next file hphase =>
        rw [hphase] at hi
        cases hload
        exact hinv.goto hlive hphase ⟨[], s.former, rfl, hi⟩ rfl
      · cases hload
  | written =>
      dsimp only at hload
      split at hload
      · next file source hphase =>
        rw [hphase] at hi
        cases hload
        refine hinv.put hlive hphase rfl ⟨hi, ?_⟩ (Or.inl rfl)
        exact staging_put
      · cases hload
  | fail =>
      dsimp only at hload
      split at hload
      all_goals cases hload
      all_goals next hphase => exact hinv.goto hlive hphase trivial rfl
  | check =>
      dsimp only at hload
      split at hload
      · next file source hphase =>
        rw [hphase] at hi
        cases hload
        split
        · next hnow =>
          exact hinv.goto hlive hphase ⟨since_current hinv hi.1 hnow, hi.2⟩ rfl
        · exact hinv.goto hlive hphase trivial rfl
      · cases hload
  | rename =>
      dsimp only at hload
      split at hload
      · next file source hphase =>
        rw [hphase] at hi
        cases hload
        refine (hinv.publish fun stored hstored => ?_).put hlive hphase rfl trivial (Or.inl rfl)
        -- what is renamed is what this load has written
        refine ⟨source, hi.1, ?_⟩
        rw [(hinv.owned i file hlive (by rw [hphase]; rfl)).settings]
        exact (Option.some.inj (hi.2.symm.trans hstored)).symm
      · cases hload
  | drop =>
      dsimp only at hload
      split at hload
      · next file hphase =>
        cases hload
        exact hinv.put hlive hphase rfl trivial (Or.inr ⟨rfl, rfl⟩)
      · cases hload

theorem Inv.step {action : Action Content Hash Settings} (hinv : Inv rt s)
    (hfresh : Fresh rt s action) (hstep : step rt s action = some t) : Inv rt t := by
  cases action with
  | replace content =>
      cases hstep
      exact hinv.replace hfresh
  | prune entry =>
      cases hstep
      exact hinv.publish fun _ h => (by cases h)
  | die pid =>
      cases hstep
      exact hinv.die
  | call i call =>
      rw [GraphCache.step] at hstep
      split at hstep
      · next hlive => exact hinv.load hlive hstep
      · cases hstep

end

/-- Sources that are their own digest, but for one that is not self-contained, in one process id. -/
def plainRuntime : Runtime Nat Nat Nat (Nat × Nat) where
  sourceHash content := if content = 0 then none else some content
  optimize content settings := (content, settings)
  settings _ := 0
  pid _ := 0
  generation i := if i = 0 then 0 else 1

def fullLoad (i : Nat) : List (Action Nat Nat Nat) :=
  [.hash, .lookUp true, .stage, .read, .written, .check, .rename, .drop].map (.call i)

end Gigastt.GraphCache
