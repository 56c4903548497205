import Mathlib.Data.List.Basic

/-!
A register that messages write in turn holds the last value given. Where some messages also clear
it, an earlier value is lost, and shows only if it differs from what the register is cleared to.
-/

namespace Registers

variable {State Message α β : Type*} {given : Message → Option α} {clears : Message → Bool}
  {m : Message} {before after : List Message}

/-- The last value the messages give. -/
def last (given : Message → Option α) : List Message → Option α
  | [] => none
  | m :: rest => (last given rest).or (given m)

/-- What a message leaves in a register that it may write or clear. -/
def orClear (given : Message → Option α) (clears : Message → Bool) (initial : α) (m : Message) :
    Option α :=
  (given m).or (if clears m then some initial else none)

/-- The value given by the last message that gives one is never cleared, unless to itself. -/
def Kept (given : Message → Option α) (clears : Message → Bool) (initial : α)
    (messages : List Message) : Prop :=
  ∀ before m after value, messages = before ++ m :: after → given m = some value →
    (∀ x ∈ after, given x = none) → (∃ x ∈ after, clears x = true) → value = initial

@[simp]
theorem last_nil : last given [] = none := rfl

@[simp]
theorem last_cons (rest : List Message) :
    last given (m :: rest) = (last given rest).or (given m) := rfl

theorem last_append : last given (before ++ after) = (last given after).or (last given before) := by
  induction before with
  | nil => simp
  | cons x before ih => simp [ih, Option.or_assoc]

theorem last_eq_none_iff {messages : List Message} :
    last given messages = none ↔ ∀ x ∈ messages, given x = none := by
  induction messages with
  | nil => simp
  | cons x rest ih => simp [ih, and_comm]

theorem last_map (f : α → β) (messages : List Message) :
    last (fun m => (given m).map f) messages = (last given messages).map f := by
  induction messages with
  | nil => rfl
  | cons x rest ih => rw [last_cons, last_cons, ih, Option.map_or]

/-- A list that gives a value splits at the last message that does. -/
theorem exists_last {messages : List Message} {value : α} (h : last given messages = some value) :
    ∃ before m after, messages = before ++ m :: after ∧ given m = some value ∧
      ∀ x ∈ after, given x = none := by
  induction messages with
  | nil => cases h
  | cons x rest ih =>
      rcases Option.eq_none_or_eq_some (last given rest) with hnone | ⟨later, hlater⟩
      · rw [last_cons, hnone, Option.none_or] at h
        exact ⟨[], x, rest, rfl, h, last_eq_none_iff.mp hnone⟩
      · rw [last_cons, hlater, Option.some_or] at h
        obtain ⟨before, m, after, hsplit, hm, hafter⟩ := ih (hlater.trans h)
        exact ⟨x :: before, m, after, congrArg (x :: ·) hsplit, hm, hafter⟩

theorem last_split {value : α} (hm : given m = some value) (hafter : ∀ x ∈ after, given x = none) :
    last given (before ++ m :: after) = some value := by
  rw [last_append, last_cons, last_eq_none_iff.mpr hafter, Option.none_or, hm, Option.some_or]

/-- Messages that give nothing leave what they clear. -/
theorem last_orClear_quiet {initial : α} (h : ∀ x ∈ after, given x = none) :
    last (orClear given clears initial) after
      = if after.any clears then some initial else none := by
  induction after with
  | nil => rfl
  | cons x rest ih =>
      have hx : given x = none := h x List.mem_cons_self
      rw [last_cons, ih fun y hy => h y (List.mem_cons_of_mem x hy), orClear, hx, Option.none_or,
        List.any_cons]
      cases hrest : rest.any clears with
      | true => simp
      | false => simp

/-- Clearing shows when a message after the last value clears the register to something else. -/
theorem last_orClear_split {initial value : α} (hm : given m = some value)
    (hafter : ∀ x ∈ after, given x = none) :
    (last (orClear given clears initial) (before ++ m :: after)).getD initial
        = (last given (before ++ m :: after)).getD initial
      ↔ (after.any clears = true → value = initial) := by
  have horClear : orClear given clears initial m = some value := by
    rw [orClear, hm, Option.some_or]
  rw [last_split hm hafter, last_append, last_cons, last_orClear_quiet hafter, horClear,
    Option.getD_some]
  cases hcleared : after.any clears with
  | true => simpa using eq_comm
  | false => simp

/-- Clearing does not show exactly when the last value given is kept. -/
theorem last_orClear_iff {initial : α} {messages : List Message} :
    (last (orClear given clears initial) messages).getD initial
        = (last given messages).getD initial
      ↔ Kept given clears initial messages := by
  constructor
  · rintro h before m after value rfl hm hafter hcleared
    exact (last_orClear_split hm hafter).mp h (List.any_eq_true.mpr hcleared)
  · intro h
    rcases Option.eq_none_or_eq_some (last given messages) with hnone | ⟨value, hvalue⟩
    · rw [last_orClear_quiet (last_eq_none_iff.mp hnone), hnone]
      split
      · rfl
      · rfl
    · obtain ⟨before, m, after, rfl, hm, hafter⟩ := exists_last hvalue
      apply (last_orClear_split hm hafter).mpr
      intro hcleared
      exact h before m after value rfl hm hafter (List.any_eq_true.mp hcleared)

/-- The fold of a register: it holds the last value given, if there is one. -/
theorem foldl_last (get : State → α) (given : Message → Option α)
    {after : State → Message → State} (hstep : ∀ s m, get (after s m) = (given m).getD (get s))
    (messages : List Message) (s : State) :
    get (messages.foldl after s) = (last given messages).getD (get s) := by
  induction messages generalizing s with
  | nil => rfl
  | cons m rest ih =>
      rw [List.foldl_cons, ih, hstep, last_cons]
      cases last given rest with
      | none => rfl
      | some value => rfl

/-- The fold of a register that may be without value. -/
theorem foldl_last_or (get : State → Option α) (given : Message → Option α)
    {after : State → Message → State} (hstep : ∀ s m, get (after s m) = (given m).or (get s))
    (messages : List Message) (s : State) :
    get (messages.foldl after s) = (last given messages).or (get s) := by
  induction messages generalizing s with
  | nil => rfl
  | cons m rest ih => rw [List.foldl_cons, ih, hstep, last_cons, Option.or_assoc]

end Registers
