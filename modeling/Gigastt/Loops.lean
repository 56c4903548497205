import Mathlib.Data.List.Basic

/-!
Loops with early exits over a state. A body answers `none` to go on and `some b` to leave the loop
with `b`; the state it returns is kept in both cases.
-/

namespace Loops

variable {α β σ : Type*}

/-- Runs the body on each element in turn, until one run leaves the loop. -/
def forEach (body : α → σ → σ × Option β) : List α → σ → σ × Option β
  | [], s => (s, none)
  | a :: rest, s =>
      match (body a s).2 with
      | none => forEach body rest (body a s).1
      | some b => ((body a s).1, some b)

/-- Runs the body at most `n` times. -/
def repeatUpTo (n : Nat) (body : σ → σ × Option β) (s : σ) : σ × Option β :=
  forEach (fun (_ : Nat) => body) (List.range n) s

variable {body f g : α → σ → σ × Option β} {a : α} {s : σ} {l : List α}

theorem forEach_cons_next (h : (body a s).2 = none) :
    forEach body (a :: l) s = forEach body l (body a s).1 := by
  simp only [forEach, h]

theorem forEach_cons_leave (h : (body a s).2 ≠ none) :
    forEach body (a :: l) s = body a s := by
  obtain ⟨b, hb⟩ := Option.ne_none_iff_exists'.mp h
  simp only [forEach, hb]
  exact Prod.ext rfl hb.symm

theorem forEach_concat_next (h : (forEach body l s).2 = none) :
    forEach body (l ++ [a]) s = body a (forEach body l s).1 := by
  induction l generalizing s with
  | nil =>
      by_cases hbody : (body a s).2 = none
      · rw [List.nil_append, forEach_cons_next hbody]
        exact Prod.ext rfl hbody.symm
      · rw [List.nil_append, forEach_cons_leave hbody]
        rfl
  | cons b l ih =>
      by_cases hbody : (body b s).2 = none
      · rw [forEach_cons_next hbody] at h ⊢
        rw [List.cons_append, forEach_cons_next hbody]
        exact ih h
      · rw [forEach_cons_leave hbody] at h
        exact absurd h hbody

theorem forEach_concat_left (h : (forEach body l s).2 ≠ none) :
    forEach body (l ++ [a]) s = forEach body l s := by
  induction l generalizing s with
  | nil => exact absurd rfl h
  | cons b l ih =>
      by_cases hbody : (body b s).2 = none
      · rw [forEach_cons_next hbody] at h ⊢
        rw [List.cons_append, forEach_cons_next hbody]
        exact ih h
      · rw [List.cons_append, forEach_cons_leave hbody, forEach_cons_leave hbody]

/-- What each run of the body preserves, the loop preserves. -/
theorem forEach_invariant {I : σ → Prop} (hbody : ∀ a ∈ l, ∀ s, I s → I (body a s).1)
    (hs : I s) : I (forEach body l s).1 := by
  induction l generalizing s with
  | nil => exact hs
  | cons a l ih =>
      have hnext : I (body a s).1 := hbody a List.mem_cons_self s hs
      by_cases h : (body a s).2 = none
      · rw [forEach_cons_next h]
        exact ih (fun b hb => hbody b (List.mem_cons_of_mem a hb)) hnext
      · rw [forEach_cons_leave h]
        exact hnext

/-- A loop is left with what a run of its body leaves with. -/
theorem forEach_leave {Q : β → Prop} (hbody : ∀ a s b, (body a s).2 = some b → Q b) {b : β}
    (h : (forEach body l s).2 = some b) : Q b := by
  induction l generalizing s with
  | nil => cases h
  | cons a l ih =>
      by_cases hnone : (body a s).2 = none
      · rw [forEach_cons_next hnone] at h
        exact ih h
      · rw [forEach_cons_leave hnone] at h
        exact hbody a s b h

/-- The rule for a counting loop: the invariant knows the count, and leaving early is a case of
its own. -/
theorem forEach_range_invariant {body : Nat → σ → σ × Option β} {I : Nat → σ → Prop}
    {P : σ → Prop} {n : Nat}
    (hnext : ∀ t s, t < n → I t s → (body t s).2 = none → I (t + 1) (body t s).1)
    (hleave : ∀ t s, t < n → I t s → (body t s).2 ≠ none → P (body t s).1)
    (hdone : ∀ s, I n s → P s) (hs : I 0 s) : P (forEach body (List.range n) s).1 := by
  suffices h : ∀ k start s, start + k = n → I start s →
      P (forEach body (List.range' start k) s).1 by
    rw [List.range_eq_range']
    exact h n 0 s (Nat.zero_add n) hs
  intro k
  induction k with
  | zero =>
      rintro start s rfl hinv
      exact hdone s hinv
  | succ k ih =>
      intro start s hk hinv
      have hlt : start < n := by omega
      rw [List.range'_succ]
      by_cases h : (body start s).2 = none
      · rw [forEach_cons_next h]
        exact ih (start + 1) _ (by omega) (hnext start s hlt hinv h)
      · rw [forEach_cons_leave h]
        exact hleave start s hlt hinv h

/-- Two bodies that agree under an invariant make the same loop. -/
theorem forEach_congr {I : σ → Prop} (heq : ∀ a s, I s → f a s = g a s)
    (hinv : ∀ a s, I s → (f a s).2 = none → I (f a s).1) (hs : I s) :
    forEach f l s = forEach g l s := by
  induction l generalizing s with
  | nil => rfl
  | cons a l ih =>
      by_cases h : (f a s).2 = none
      · rw [forEach_cons_next h, forEach_cons_next (heq a s hs ▸ h), ← heq a s hs]
        exact ih (hinv a s hs h)
      · rw [forEach_cons_leave h, forEach_cons_leave (heq a s hs ▸ h), heq a s hs]

section RepeatUpTo

variable {f g : σ → σ × Option β} {n : Nat}

theorem repeatUpTo_invariant {I : σ → Prop} (hbody : ∀ s, I s → I (f s).1) (hs : I s) :
    I (repeatUpTo n f s).1 :=
  forEach_invariant (fun _ _ => hbody) hs

theorem repeatUpTo_leave {Q : β → Prop} (hbody : ∀ s b, (f s).2 = some b → Q b) {b : β}
    (h : (repeatUpTo n f s).2 = some b) : Q b :=
  forEach_leave (fun _ => hbody) h

theorem repeatUpTo_congr {I : σ → Prop} (heq : ∀ s, I s → f s = g s)
    (hinv : ∀ s, I s → (f s).2 = none → I (f s).1) (hs : I s) :
    repeatUpTo n f s = repeatUpTo n g s :=
  forEach_congr (fun _ => heq) (fun _ => hinv) hs

end RepeatUpTo

/-- A loop whose body shrinks a measure whenever it goes on is left within that many runs. -/
theorem repeatUpTo_leaves {body : σ → σ × Option β} (measure : σ → Nat)
    (hbody : ∀ s, (body s).2 = none → measure (body s).1 < measure s) {n : Nat}
    (hn : measure s < n) : (repeatUpTo n body s).2 ≠ none := by
  unfold repeatUpTo
  suffices h : ∀ l : List Nat, ∀ s, measure s < l.length →
      (forEach (fun (_ : Nat) => body) l s).2 ≠ none by
    apply h
    rwa [List.length_range]
  intro l
  induction l with
  | nil => exact fun s hs => absurd hs (Nat.not_lt_zero _)
  | cons a l ih =>
      intro s hs
      by_cases h : (body s).2 = none
      · rw [forEach_cons_next h]
        have := hbody s h
        exact ih _ (by simp only [List.length_cons] at hs; omega)
      · rw [forEach_cons_leave h]
        exact h

section CutShort

variable {R : σ → σ → Prop} {Q : β → Prop}

/-- The outcome `p` is `q`, or an exit of the kind `Q` at a state that `q` goes on from. -/
def CutShort (R : σ → σ → Prop) (Q : β → Prop) (p q : σ × Option β) : Prop :=
  p = q ∨ ∃ b, p.2 = some b ∧ Q b ∧ R p.1 q.1

theorem CutShort.rel {p q : σ × Option β} (h : CutShort R Q p q) (hrefl : ∀ s, R s s) :
    R p.1 q.1 := by
  rcases h with rfl | ⟨_, _, _, h⟩
  · exact hrefl _
  · exact h

/-- A loop only goes on from where it started. -/
theorem forEach_grows (hrefl : ∀ s, R s s) (htrans : ∀ s t u, R s t → R t u → R s u)
    (hgrows : ∀ a s, R s (body a s).1) : R s (forEach body l s).1 :=
  forEach_invariant (I := R s) (fun a _ t ht => htrans s t _ ht (hgrows a t)) (hrefl s)

/-- A loop each of whose runs may be cut short is cut short at most once. -/
theorem forEach_cutShort (hrefl : ∀ s, R s s) (htrans : ∀ s t u, R s t → R t u → R s u)
    (hgrows : ∀ a s, R s (g a s).1) (hcut : ∀ a s, CutShort R Q (f a s) (g a s)) :
    CutShort R Q (forEach f l s) (forEach g l s) := by
  induction l generalizing s with
  | nil => exact Or.inl rfl
  | cons a l ih =>
      rcases hcut a s with heq | ⟨b, hleave, hb, hrel⟩
      · by_cases h : (g a s).2 = none
        · rw [forEach_cons_next (heq ▸ h), forEach_cons_next h, heq]
          exact ih
        · rw [forEach_cons_leave (heq ▸ h), forEach_cons_leave h]
          exact Or.inl heq
      · rw [forEach_cons_leave (hleave ▸ Option.some_ne_none b)]
        refine Or.inr ⟨b, hleave, hb, ?_⟩
        by_cases h : (g a s).2 = none
        · rw [forEach_cons_next h]
          exact htrans _ _ _ hrel (forEach_grows hrefl htrans hgrows)
        · rw [forEach_cons_leave h]
          exact hrel

theorem repeatUpTo_grows {f : σ → σ × Option β} {n : Nat} (hrefl : ∀ s, R s s)
    (htrans : ∀ s t u, R s t → R t u → R s u) (hgrows : ∀ s, R s (f s).1) :
    R s (repeatUpTo n f s).1 :=
  forEach_grows hrefl htrans fun _ => hgrows

theorem repeatUpTo_cutShort {f g : σ → σ × Option β} {n : Nat} (hrefl : ∀ s, R s s)
    (htrans : ∀ s t u, R s t → R t u → R s u) (hgrows : ∀ s, R s (g s).1)
    (hcut : ∀ s, CutShort R Q (f s) (g s)) :
    CutShort R Q (repeatUpTo n f s) (repeatUpTo n g s) :=
  forEach_cutShort hrefl htrans (fun _ => hgrows) fun _ => hcut

end CutShort

section Runs

/-- The runs of the body, each with its element and the state it starts from. -/
def runs (body : α → σ → σ × Option β) : List α → σ → List (α × σ)
  | [], _ => []
  | a :: rest, s =>
      (a, s) :: match (body a s).2 with
        | none => runs body rest (body a s).1
        | some _ => []

theorem runs_cons_next (h : (body a s).2 = none) :
    runs body (a :: l) s = (a, s) :: runs body l (body a s).1 := by
  rw [runs, h]

theorem runs_cons_leave (h : (body a s).2 ≠ none) : runs body (a :: l) s = [(a, s)] := by
  obtain ⟨b, hb⟩ := Option.ne_none_iff_exists'.mp h
  rw [runs, hb]

theorem runs_concat_next (h : (forEach body l s).2 = none) :
    runs body (l ++ [a]) s = runs body l s ++ [(a, (forEach body l s).1)] := by
  induction l generalizing s with
  | nil =>
      rw [List.nil_append, runs, runs]
      cases (body a s).2 <;> rfl
  | cons b l ih =>
      by_cases hbody : (body b s).2 = none
      · rw [forEach_cons_next hbody] at h ⊢
        rw [List.cons_append, runs_cons_next hbody, runs_cons_next hbody, ih h]
        rfl
      · rw [forEach_cons_leave hbody] at h
        exact absurd h hbody

/-- What each run of the body preserves holds where every run starts. -/
theorem runs_invariant {I : σ → Prop} (hbody : ∀ a ∈ l, ∀ s, I s → I (body a s).1) (hs : I s) :
    ∀ x ∈ runs body l s, I x.2 := by
  induction l generalizing s with
  | nil => exact fun x hx => absurd hx List.not_mem_nil
  | cons a l ih =>
      intro x hx
      by_cases h : (body a s).2 = none
      · rw [runs_cons_next h] at hx
        rcases List.mem_cons.mp hx with rfl | hx
        · exact hs
        · exact ih (fun b hb => hbody b (List.mem_cons_of_mem a hb))
            (hbody a List.mem_cons_self s hs) x hx
      · rw [runs_cons_leave h, List.mem_singleton] at hx
        exact hx ▸ hs

/-- What a loop brings about, one of its runs does. -/
theorem exists_run {P : σ → Prop} (hs : ¬P s) (h : P (forEach body l s).1) :
    ∃ x ∈ runs body l s, ¬P x.2 ∧ P (body x.1 x.2).1 := by
  induction l generalizing s with
  | nil => exact absurd h hs
  | cons a l ih =>
      by_cases hnone : (body a s).2 = none
      · rw [forEach_cons_next hnone] at h
        rw [runs_cons_next hnone]
        by_cases hnext : P (body a s).1
        · exact ⟨(a, s), List.mem_cons_self, hs, hnext⟩
        · obtain ⟨x, hx, hrun⟩ := ih hnext h
          exact ⟨x, List.mem_cons_of_mem _ hx, hrun⟩
      · rw [forEach_cons_leave hnone] at h
        rw [runs_cons_leave hnone]
        exact ⟨(a, s), List.mem_singleton_self _, hs, h⟩

/-- Two bodies that agree, up to a map of the state, on every run of the first make loops that
agree. -/
theorem forEach_map {τ : Type*} {g : α → τ → τ × Option β} (φ : σ → τ)
    (hruns : ∀ x ∈ runs body l s, g x.1 (φ x.2) = (φ (body x.1 x.2).1, (body x.1 x.2).2)) :
    forEach g l (φ s) = (φ (forEach body l s).1, (forEach body l s).2) := by
  induction l generalizing s with
  | nil => rfl
  | cons a l ih =>
      by_cases h : (body a s).2 = none
      · rw [runs_cons_next h] at hruns
        have hhead := hruns _ List.mem_cons_self
        have hnext : (g a (φ s)).2 = none := by rw [hhead, h]
        rw [forEach_cons_next h, forEach_cons_next hnext, hhead]
        exact ih fun x hx => hruns x (List.mem_cons_of_mem _ hx)
      · rw [runs_cons_leave h] at hruns
        have hhead := hruns _ List.mem_cons_self
        have hleave : (g a (φ s)).2 ≠ none := by rwa [hhead]
        rw [forEach_cons_leave h, forEach_cons_leave hleave, hhead]

end Runs

end Loops
