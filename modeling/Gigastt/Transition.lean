import Mathlib.Data.List.Induction

/-!
Runs of a partial transition function. An action that is not enabled has no successor. A run is
guarded when every action meets a condition on the state it is taken in; an invariant that guarded
steps keep holds in every state a guarded run reaches.
-/

namespace Transition

variable {State Action : Type*} (step : State → Action → Option State)

/-- The state a list of actions leads to, provided each is enabled in turn. -/
def run (s : State) : List Action → Option State
  | [] => some s
  | a :: rest => (step s a).bind fun t => run t rest

/-- Every action of the run meets `guard` in the state it is taken in. -/
def Guarded (guard : State → Action → Prop) (s : State) : List Action → Prop
  | [] => True
  | a :: rest => guard s a ∧ ∀ t, step s a = some t → Guarded guard t rest

/-- Some sequence of actions leads from `s` to `t`. -/
def Reachable (s t : State) : Prop := ∃ acts, run step s acts = some t

variable {step}

theorem run_cons {s t : State} {a : Action} {rest : List Action}
    (h : run step s (a :: rest) = some t) :
    ∃ u, step s a = some u ∧ run step u rest = some t :=
  Option.bind_eq_some_iff.mp h

theorem run_concat (s : State) (acts : List Action) (a : Action) :
    run step s (acts ++ [a]) = (run step s acts).bind fun t => step t a := by
  induction acts generalizing s with
  | nil => exact (Option.bind_fun_some (step s a)).trans rfl
  | cons b rest ih =>
      simp only [List.cons_append, run, Option.bind_assoc]
      exact Option.bind_congr fun t _ => ih t

theorem run_append {s t u : State} {before after : List Action}
    (hbefore : run step s before = some t) (hafter : run step t after = some u) :
    run step s (before ++ after) = some u := by
  induction before generalizing s with
  | nil =>
      cases hbefore
      exact hafter
  | cons a rest ih =>
      obtain ⟨v, hv, hrest⟩ := run_cons hbefore
      simp only [List.cons_append, run, hv, Option.bind_some, ih hrest]

/-- The run rule of a part: a run of a part is a run of the whole it is embedded in. -/
theorem run_map {Part Call : Type*} {part : Part → Call → Option Part} (embed : Part → State)
    (act : Call → Action)
    (hstep : ∀ x c y, part x c = some y → step (embed x) (act c) = some (embed y))
    {calls : List Call} {x y : Part} (hrun : run part x calls = some y) :
    run step (embed x) (calls.map act) = some (embed y) := by
  induction calls generalizing x with
  | nil =>
      cases hrun
      rfl
  | cons c rest ih =>
      obtain ⟨z, hz, hrest⟩ := run_cons hrun
      simp only [List.map_cons, run, hstep x c z hz, Option.bind_some, ih hrest]

theorem Reachable.refl (s : State) : Reachable step s s := ⟨[], rfl⟩

theorem Reachable.tail {s t u : State} {a : Action} (h : Reachable step s t)
    (hstep : step t a = some u) : Reachable step s u := by
  obtain ⟨acts, hacts⟩ := h
  refine ⟨acts ++ [a], ?_⟩
  induction acts generalizing s with
  | nil =>
      cases hacts
      simp [run, hstep]
  | cons b rest ih =>
      obtain ⟨v, hv, hrest⟩ := run_cons hacts
      simp only [List.cons_append, run, hv, Option.bind_some, ih hrest]

theorem guarded_of_forall {guard : State → Action → Prop} (h : ∀ s a, guard s a) (s : State)
    (acts : List Action) : Guarded step guard s acts := by
  induction acts generalizing s with
  | nil => trivial
  | cons a rest ih => exact ⟨h s a, fun t _ => ih t⟩

def decidableGuarded (guard : State → Action → Prop) [∀ s a, Decidable (guard s a)] :
    ∀ s acts, Decidable (Guarded step guard s acts)
  | _, [] => isTrue trivial
  | s, a :: rest =>
      have : ∀ t, Decidable (Guarded step guard t rest) := fun t => decidableGuarded guard t rest
      inferInstanceAs (Decidable (guard s a ∧ ∀ t ∈ step s a, Guarded step guard t rest))

instance (guard : State → Action → Prop) [∀ s a, Decidable (guard s a)] (s : State)
    (acts : List Action) : Decidable (Guarded step guard s acts) :=
  decidableGuarded guard s acts

/-- The run rule: what one guarded step preserves, a guarded run preserves. -/
theorem run_invariant {guard : State → Action → Prop} {Inv : State → Prop}
    (hstep : ∀ s a t, step s a = some t → guard s a → Inv s → Inv t)
    {acts : List Action} {s t : State} (hrun : run step s acts = some t)
    (hguard : Guarded step guard s acts) (hs : Inv s) : Inv t := by
  induction acts generalizing s with
  | nil =>
      cases hrun
      exact hs
  | cons a rest ih =>
      obtain ⟨u, hu, hrest⟩ := run_cons hrun
      exact ih hrest (hguard.2 u hu) (hstep s a u hu hguard.1 hs)

/-- The run rule of a history: what one step carries from the actions before it to the actions with
it, a run carries to all its actions. -/
theorem run_history (History : List Action → State → Prop)
    (hstep : ∀ acts s a t, History acts s → step s a = some t → History (acts ++ [a]) t)
    {acts : List Action} {s t : State} (hrun : run step s acts = some t) (hs : History [] s) :
    History acts t := by
  induction acts using List.reverseRecOn generalizing t with
  | nil =>
      cases hrun
      exact hs
  | append_singleton acts a ih =>
      rw [run_concat] at hrun
      obtain ⟨u, hu, hstepu⟩ := Option.bind_eq_some_iff.mp hrun
      exact hstep acts u a t (ih hu) hstepu

/-- The run rule of a simulation: what a run shows is the fold of what each step shows. -/
theorem run_shows {Shown : Type*} {shown : State → Option Shown} {after : Shown → Action → Shown}
    {acts : List Action} {s t : State} {x : Shown}
    (hstep : ∀ a ∈ acts, ∀ s t x, step s a = some t → shown s = some x →
      shown t = some (after x a))
    (hrun : run step s acts = some t) (hs : shown s = some x) :
    shown t = some (acts.foldl after x) := by
  induction acts generalizing s x with
  | nil =>
      cases hrun
      exact hs
  | cons a rest ih =>
      obtain ⟨u, hu, hrest⟩ := run_cons hrun
      have hnext := hstep a List.mem_cons_self s u x hu hs
      exact ih (fun b hb => hstep b (List.mem_cons_of_mem a hb)) hrest hnext

/-- The run rule of an exact guard: where a step stays good exactly when it meets the guard, all that
a run goes through is good exactly when the run is guarded. -/
theorem always_good_iff_guarded {guard : State → Action → Prop} {Good : State → Prop}
    (hstep : ∀ s a t, step s a = some t → Good s → (Good t ↔ guard s a))
    (hstuck : ∀ s a, step s a = none → guard s a) {acts : List Action} {s : State} (hs : Good s) :
    (∀ before after t, acts = before ++ after → run step s before = some t → Good t)
      ↔ Guarded step guard s acts := by
  induction acts generalizing s with
  | nil =>
      refine iff_of_true ?_ trivial
      intro before after t hsplit hrun
      obtain ⟨rfl, _⟩ := List.append_eq_nil_iff.mp hsplit.symm
      exact Option.some.inj hrun ▸ hs
  | cons a rest ih =>
      constructor
      · intro h
        rcases Option.eq_none_or_eq_some (step s a) with hnone | ⟨t, ht⟩
        · refine ⟨hstuck s a hnone, fun t ht => ?_⟩
          rw [hnone] at ht
          cases ht
        · have hgood : Good t := by
            apply h [a] rest t rfl
            simp [run, ht]
          refine ⟨(hstep s a t ht hs).mp hgood, fun u hu => ?_⟩
          cases Option.some.inj (ht.symm.trans hu)
          apply (ih hgood).mp
          intro before after v hsplit hrun
          apply h (a :: before) after v (congrArg (a :: ·) hsplit)
          simpa [run, ht] using hrun
      · rintro ⟨hguard, hrest⟩ before after t hsplit hrun
        cases before with
        | nil => exact Option.some.inj hrun ▸ hs
        | cons b before =>
            obtain ⟨rfl, htail⟩ := List.cons.inj hsplit
            obtain ⟨u, hu, hrun⟩ := run_cons hrun
            have hgood : Good u := (hstep s a u hu hs).mpr hguard
            exact (ih hgood).mpr (hrest u hu) before after t htail hrun

/-- The run rule for invariants that every step keeps. -/
theorem Reachable.invariant {Inv : State → Prop} {s t : State} (h : Reachable step s t)
    (hstep : ∀ s a t, step s a = some t → Inv s → Inv t) (hs : Inv s) : Inv t := by
  obtain ⟨acts, hacts⟩ := h
  refine run_invariant ?_ hacts (guarded_of_forall (fun _ _ => trivial) s acts) hs
  exact fun u a v hu _ => hstep u a v hu

end Transition
