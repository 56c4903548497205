import Gigastt.Outcomes
import Mathlib.Logic.Function.Iterate

/-!
Sources that are asked for one thing after another, may run out and may fail. What a source gives is
read off a machine that it follows: a total step function that knows no failure.
-/

namespace Pulled

open Outcomes

variable {F G β ε : Type}

section

variable (next : F → Except ε (Option β × F))

/-- What so many calls return, unless one fails. -/
def calls : ℕ → F → Except ε (List (Option β) × F)
  | 0, f => .ok ([], f)
  | n + 1, f => do
      let (b, f) ← next f
      let (later, f) ← calls n f
      return (b :: later, f)

/-- What a source gives until it has nothing more or fails, and how it ends. -/
inductive Yields : F → List β → Except ε F → Prop
  | fails {f : F} {e : ε} (h : next f = .error e) : Yields f [] (.error e)
  | ends {f f' : F} (h : next f = .ok (none, f')) : Yields f [] (.ok f')
  | gives {f f' : F} {b : β} {later : List β} {ending : Except ε F} (h : next f = .ok (some b, f'))
      (rest : Yields f' later ending) : Yields f (b :: later) ending

/-- All that a source gives, if it stops within so many calls. -/
def collect : ℕ → F → Option (List β × Except ε F)
  | 0, _ => none
  | n + 1, f =>
      match next f with
      | .error e => some ([], .error e)
      | .ok (none, f) => some ([], .ok f)
      | .ok (some b, f) => (collect n f).map fun later => (b :: later.1, later.2)

variable {next}

theorem Yields.collect {f : F} {given : List β} {ending : Except ε F} (h : Yields next f given ending)
    {n : ℕ} (hn : given.length < n) : collect next n f = some (given, ending) := by
  induction h generalizing n with
  | fails hcall =>
      obtain ⟨n, rfl⟩ := Nat.exists_eq_succ_of_ne_zero (Nat.ne_of_gt hn)
      rw [Pulled.collect, hcall]
  | ends hcall =>
      obtain ⟨n, rfl⟩ := Nat.exists_eq_succ_of_ne_zero (Nat.ne_of_gt hn)
      rw [Pulled.collect, hcall]
  | gives hcall _ ih =>
      obtain ⟨n, rfl⟩ := Nat.exists_eq_succ_of_ne_zero (Nat.ne_of_gt (Nat.zero_lt_of_lt hn))
      rw [Pulled.collect, hcall]
      dsimp only
      rw [ih (Nat.lt_of_succ_lt_succ hn), Option.map_some]

theorem Yields.unique {f : F} {given given' : List β} {ending ending' : Except ε F}
    (h : Yields next f given ending) (h' : Yields next f given' ending') :
    given = given' ∧ ending = ending' := by
  induction h generalizing given' with
  | fails hcall =>
      cases h' with
      | fails hcall' => exact ⟨rfl, congrArg _ (Except.error.inj (hcall.symm.trans hcall'))⟩
      | ends hcall' => cases hcall.symm.trans hcall'
      | gives hcall' _ => cases hcall.symm.trans hcall'
  | ends hcall =>
      cases h' with
      | fails hcall' => cases hcall.symm.trans hcall'
      | ends hcall' =>
          cases hcall.symm.trans hcall'
          exact ⟨rfl, rfl⟩
      | gives hcall' _ => cases hcall.symm.trans hcall'
  | gives hcall _ ih =>
      cases h' with
      | fails hcall' => cases hcall.symm.trans hcall'
      | ends hcall' => cases hcall.symm.trans hcall'
      | gives hcall' rest' =>
          cases hcall.symm.trans hcall'
          obtain ⟨rfl, hending⟩ := ih rest'
          exact ⟨rfl, hending⟩

theorem Yields.calls {f : F} {given : List β} {ending : Except ε F} (h : Yields next f given ending) :
    ∃ last, calls next given.length f = .ok (given.map some, last) := by
  induction h with
  | @fails f _ _ => exact ⟨f, rfl⟩
  | @ends f _ _ => exact ⟨f, rfl⟩
  | gives hcall _ ih =>
      obtain ⟨last, hlast⟩ := ih
      exact ⟨last, bind_eq_ok.mpr ⟨_, hcall, bind_eq_ok.mpr ⟨_, hlast, rfl⟩⟩⟩

end

/-- The source follows the machine for as long as it does not fail, and fails with nothing but
`failure`. One that is going to fail does not run out before. -/
structure Follows (next : F → Except ε (Option β × F)) (step : G → G) (out : G → Option β)
    (failure : Option ε) (Sim : F → G → Prop) : Prop where
  call : ∀ f g, Sim f g → (∃ f', next f = .ok (out g, f') ∧ Sim f' (step g)) ∨
    ∃ e, failure = some e ∧ next f = .error e
  live : ∀ f g f', Sim f g → failure.isSome → next f = .ok (out g, f') → (out g).isSome

variable {next : F → Except ε (Option β × F)} {step : G → G} {out : G → Option β}
  {failure : Option ε} {Sim : F → G → Prop} {f : F} {g : G}

theorem Follows.run (h : Follows next step out failure Sim) (hsim : Sim f g) {n : ℕ}
    {given : List (Option β)} {last : F} (hrun : calls next n f = .ok (given, last)) :
    given = (List.range n).map (fun i => out (step^[i] g)) ∧ Sim last (step^[n] g) := by
  induction n generalizing f g given with
  | zero =>
      cases hrun
      exact ⟨rfl, hsim⟩
  | succ n ih =>
      obtain ⟨⟨b, mid⟩, hcall, hrun⟩ := bind_eq_ok.mp hrun
      obtain ⟨⟨later, _⟩, hlater, hrun⟩ := bind_eq_ok.mp hrun
      cases hrun
      rcases h.call f g hsim with ⟨f', hnext, hsim'⟩ | ⟨e, _, hnext⟩
      · cases hcall.symm.trans hnext
        obtain ⟨hgiven, hlast⟩ := ih hsim' hlater
        refine ⟨?_, by rw [Function.iterate_succ_apply]; exact hlast⟩
        rw [List.range_succ_eq_map, List.map_cons, List.map_map, hgiven]
        congr 1
      · cases hcall.symm.trans hnext

/-- A source that cannot fail answers every call. -/
theorem Follows.runs (h : Follows next step out failure Sim) (hfailure : failure = none)
    (hsim : Sim f g) (n : ℕ) : ∃ last, calls next n f =
      .ok ((List.range n).map (fun i => out (step^[i] g)), last) ∧ Sim last (step^[n] g) := by
  obtain ⟨given, last, hrun⟩ : ∃ given last, calls next n f = .ok (given, last) := by
    induction n generalizing f g with
    | zero => exact ⟨[], f, rfl⟩
    | succ n ih =>
        rcases h.call f g hsim with ⟨f', hnext, hsim'⟩ | ⟨e, hfails, _⟩
        · obtain ⟨later, last, hlater⟩ := ih hsim'
          exact ⟨_, last, bind_eq_ok.mpr ⟨_, hnext, bind_eq_ok.mpr ⟨_, hlater, rfl⟩⟩⟩
        · cases hfailure.symm.trans hfails
  obtain ⟨rfl, hlast⟩ := h.run hsim hrun
  exact ⟨last, hrun, hlast⟩

/-- It gives what the machine puts out. -/
theorem Follows.yields (h : Follows next step out failure Sim) (hfailure : failure = none)
    (hsim : Sim f g) {given : List β} (hgiven : ∀ i, out (step^[i] g) = given[i]?) :
    ∃ last, Yields next f given (.ok last) ∧ Sim last (step^[given.length + 1] g) := by
  induction given generalizing f g with
  | nil =>
      rcases h.call f g hsim with ⟨f', hnext, hsim'⟩ | ⟨e, hfails, _⟩
      · rw [show out g = none from hgiven 0] at hnext
        exact ⟨f', .ends hnext, hsim'⟩
      · cases hfailure.symm.trans hfails
  | cons b later ih =>
      rcases h.call f g hsim with ⟨f', hnext, hsim'⟩ | ⟨e, hfails, _⟩
      · rw [show out g = some b from hgiven 0] at hnext
        obtain ⟨last, hlater, hlast⟩ := ih hsim' fun i => hgiven (i + 1)
        exact ⟨last, .gives hnext hlater, hlast⟩
      · cases hfailure.symm.trans hfails

/-- A source that is going to fail gives what the machine puts out and fails before that runs out. -/
theorem Follows.yields_error (h : Follows next step out failure Sim) {e : ε} (hfailure : failure = some e)
    (hsim : Sim f g) {bound : ℕ} (hbound : out (step^[bound] g) = none) :
    ∃ given, Yields next f given (.error e) ∧ given.length ≤ bound := by
  induction bound generalizing f g with
  | zero =>
      rcases h.call f g hsim with ⟨f', hnext, _⟩ | ⟨e', hfails, hnext⟩
      · have hsome := h.live f g f' hsim (by rw [hfailure]; rfl) hnext
        rw [show out g = none from hbound] at hsome
        cases hsome
      · cases hfailure.symm.trans hfails
        exact ⟨[], .fails hnext, Nat.le_refl 0⟩
  | succ bound ih =>
      rcases h.call f g hsim with ⟨f', hnext, hsim'⟩ | ⟨e', hfails, hnext⟩
      · obtain ⟨b, hb⟩ := Option.isSome_iff_exists.mp
          (h.live f g f' hsim (by rw [hfailure]; rfl) hnext)
        obtain ⟨later, hlater, hlength⟩ := ih hsim' hbound
        rw [hb] at hnext
        exact ⟨b :: later, .gives hnext hlater, Nat.succ_le_succ hlength⟩
      · cases hfailure.symm.trans hfails
        exact ⟨[], .fails hnext, Nat.zero_le _⟩

end Pulled
