import Gigastt.BiasCredit

/-!
What the greedy decode adds to a logit: the boost for every active prefix that goes on with the token.
-/

namespace Gigastt

namespace Biaser

/-- The node has a child for the token that is no entry. -/
def continues {F : Type} [Zero F] (b : Biaser F) (tok i : Nat) : Bool :=
  (b.child? i tok).any fun child => !(b.node child).isEntry

section Added

/-- What each step adds to a logit adds up. -/
theorem foldl_getD_add {α : Type} {step : List ℚ → α → List ℚ} {added : α → Nat → ℚ}
    (hstep : ∀ l x, (step l x).length = l.length ∧
      ∀ tok < l.length, (step l x).getD tok 0 = l.getD tok 0 + added x tok)
    (xs : List α) (l : List ℚ) :
    (xs.foldl step l).length = l.length ∧ ∀ tok < l.length,
      (xs.foldl step l).getD tok 0 = l.getD tok 0 + (xs.map (added · tok)).sum := by
  induction xs generalizing l with
  | nil => simp
  | cons x xs ih =>
      obtain ⟨hlength, hadded⟩ := hstep l x
      obtain ⟨hlength', hadded'⟩ := ih (step l x)
      rw [hlength] at hlength' hadded'
      refine ⟨hlength', fun tok htok => ?_⟩
      rw [List.foldl_cons, hadded' tok htok, hadded tok htok, List.map_cons, List.sum_cons, add_assoc]

/-- Of edges with distinct keys one at most is for the token. -/
theorem sum_edges {edges : List (Nat × Nat)} (hkeys : (edges.map Prod.fst).Nodup) (tok : Nat)
    (p : Nat → Bool) (c : ℚ) :
    (edges.map fun edge => if edge.1 = tok ∧ p edge.2 = true then c else 0).sum =
      if (edges.lookup tok).any p then c else 0 := by
  induction edges with
  | nil => simp
  | cons edge edges ih =>
      obtain ⟨hfresh, hkeys⟩ := List.nodup_cons.mp hkeys
      rw [List.map_cons, List.sum_cons, ih hkeys, List.lookup_cons]
      by_cases hedge : edge.1 = tok
      · have hnone : edges.lookup tok = none := by
          rw [List.lookup_eq_none_iff]
          intro e he
          refine bne_iff_ne.mpr fun heq => hfresh (List.mem_map.mpr ⟨e, he, ?_⟩)
          rw [hedge, heq]
        simp [hedge, hnone]
      · have hne : (tok == edge.1) = false := beq_false_of_ne fun heq => hedge heq.symm
        simp [hedge, hne]

theorem boostEdge_added (b : Biaser ℚ) (l : List ℚ) (edge : Nat × Nat) :
    (b.boostEdge l edge).length = l.length ∧ ∀ tok < l.length,
      (b.boostEdge l edge).getD tok 0 = l.getD tok 0 +
        if edge.1 = tok ∧ (!(b.node edge.2).isEntry) = true then b.boost else 0 := by
  unfold boostEdge
  split_ifs with hplain
  · refine ⟨List.length_modify _ _ _, fun tok htok => ?_⟩
    rw [List.getD_eq_getElem?_getD, List.getD_eq_getElem?_getD, List.getElem?_modify,
      List.getElem?_eq_getElem htok]
    by_cases hedge : edge.1 = tok
    · simp [hedge, hplain.2]
    · simp [hedge]
  · refine ⟨rfl, fun tok htok => ?_⟩
    rw [if_neg, add_zero]
    rintro ⟨rfl, hentry⟩
    exact hplain ⟨htok, by simpa using hentry⟩

/-- The boost is added once for every active node that goes on with the token. -/
theorem boostLogits_added (b : Biaser ℚ) (state : BiasState) (logits : List ℚ) :
    (b.boostLogits state logits).length = logits.length ∧ ∀ tok < logits.length,
      (b.boostLogits state logits).getD tok 0 =
        logits.getD tok 0 + state.active.countP (b.continues tok) * b.boost := by
  have hnode : ∀ (l : List ℚ) (i : Nat), ((b.node i).children.foldl b.boostEdge l).length = l.length ∧
      ∀ tok < l.length, ((b.node i).children.foldl b.boostEdge l).getD tok 0 =
        l.getD tok 0 + if b.continues tok i then b.boost else 0 := by
    intro l i
    obtain ⟨hlength, hadded⟩ := foldl_getD_add b.boostEdge_added (b.node i).children l
    refine ⟨hlength, fun tok htok => ?_⟩
    rw [hadded tok htok, sum_edges (node_keys_nodup b i) tok (fun child => !(b.node child).isEntry)]
    rfl
  obtain ⟨hlength, hadded⟩ := foldl_getD_add hnode state.active logits
  refine ⟨hlength, fun tok htok => (hadded tok htok).trans ?_⟩
  congr 1
  induction state.active with
  | nil => simp
  | cons i active ih =>
      rw [List.map_cons, List.sum_cons, ih, List.countP_cons]
      split_ifs <;> push_cast <;> ring

end Added

section Active

theorem nodup_pushNew {next : List Nat} (h : next.Nodup) (child : Nat) : (pushNew next child).Nodup := by
  unfold pushNew
  split_ifs with hmem
  · exact h
  · exact List.nodup_append.mpr ⟨h, List.nodup_singleton child, fun a ha c hc hac =>
      hmem (List.mem_singleton.mp hc ▸ hac ▸ ha)⟩

theorem nodup_heard {F : Type} [Zero F] (b : Biaser F) (labels : List Nat) :
    (b.heard labels).active.Nodup := by
  induction labels using List.reverseRecOn with
  | nil => exact List.nodup_singleton 0
  | append_singleton labels tok ih =>
      rw [heard_concat]
      refine nodup_pushNew ?_ 0
      exact List.foldlRecOn _ _ (motive := List.Nodup) List.nodup_nil fun next h i _ =>
        nodup_pushNew h i

/-- One of a list of distinct elements at most. -/
theorem countP_le_one_iff {l : List Nat} (h : l.Nodup) (p : Nat → Bool) :
    l.countP p ≤ 1 ↔ ∀ i ∈ l, ∀ j ∈ l, p i = true → p j = true → i = j := by
  rw [List.countP_eq_length_filter, ← List.toFinset_card_of_nodup (h.filter p), Finset.card_le_one]
  simp only [List.mem_toFinset, List.mem_filter, and_imp]
  exact ⟨fun hone i hi j hj hpi hpj => hone i hi hpi j hj hpj,
    fun hone i hi hpi j hj hpj => hone i hi j hj hpi hpj⟩

end Active

section Once

variable {sequences : List (List Nat)} {boost : ℚ} {leadingIsEntry : Bool} {b : Biaser ℚ}

/-- Some phrase begins with the tokens and goes on with the next one, which is no entry. -/
def GoesOn (sequences : List (List Nat)) (leadingIsEntry : Bool) (tokens : List Nat) (tok : Nat) :
    Prop := Begins sequences (tokens ++ [tok]) ∧ (leadingIsEntry = true → tokens ≠ [])

instance (sequences : List (List Nat)) (leadingIsEntry : Bool) (tokens : List Nat) (tok : Nat) :
    Decidable (GoesOn sequences leadingIsEntry tokens tok) :=
  inferInstanceAs (Decidable (_ ∧ _))

theorem continues_iff (hbuild : build sequences boost leadingIsEntry = some b) {tokens : List Nat}
    {i : Nat} (hwalk : b.walk tokens = some i) (tok : Nat) :
    b.continues tok i = true ↔ GoesOn sequences leadingIsEntry tokens tok := by
  have hnext : b.walk (tokens ++ [tok]) = b.child? i tok := by
    rw [walk_concat, hwalk, Option.bind_some]
  rw [GoesOn, ← (build_compiled hbuild).walk_iff, hnext, continues]
  cases hchild : b.child? i tok with
  | none => simp
  | some child =>
      rw [hchild] at hnext
      have hentry := build_isEntry hbuild hnext (by simp)
      rw [Option.any_some, hentry]
      cases leadingIsEntry <;> simp

/-- The boost is added once where no two different ends of the labels so far go on with one token. -/
theorem boosted_once_iff (hbuild : build sequences boost leadingIsEntry = some b)
    (hboost : 0 < boost) (labels : List Nat) (logits : List ℚ) :
    (∀ tok < logits.length, (b.boostLogits (b.heard labels) logits).getD tok 0 =
      logits.getD tok 0 +
        if ∃ i ∈ (b.heard labels).active, b.continues tok i = true then boost else 0) ↔
    ∀ tok < logits.length, ∀ p q, p <:+ labels → q <:+ labels →
      GoesOn sequences leadingIsEntry p tok → GoesOn sequences leadingIsEntry q tok → p = q := by
  refine forall_congr' fun tok => imp_congr_right fun htok => ?_
  have hcompiled := build_compiled hbuild
  rw [(boostLogits_added b _ logits).2 tok htok, add_right_inj, hcompiled.boost_eq]
  have hcount : ((b.heard labels).active.countP (b.continues tok) * boost =
      if ∃ i ∈ (b.heard labels).active, b.continues tok i = true then boost else 0) ↔
        (b.heard labels).active.countP (b.continues tok) ≤ 1 := by
    split_ifs with hsome
    · have hpos := List.countP_pos_iff.mpr hsome
      rw [mul_eq_right₀ hboost.ne', Nat.cast_eq_one]
      omega
    · have hzero : (b.heard labels).active.countP (b.continues tok) = 0 :=
        List.countP_eq_zero.mpr fun i hi hcont => hsome ⟨i, hi, hcont⟩
      simp [hzero]
  rw [hcount, countP_le_one_iff (nodup_heard b labels)]
  constructor
  · intro hone p q hp hq hgoes hgoes'
    obtain ⟨i, hi⟩ := (hcompiled.walk_iff p).mpr hgoes.1.concat
    obtain ⟨j, hj⟩ := (hcompiled.walk_iff q).mpr hgoes'.1.concat
    have hij := hone i (mem_heard.mpr ⟨p, hp, hi⟩) j (mem_heard.mpr ⟨q, hq, hj⟩)
      ((continues_iff hbuild hi tok).mpr hgoes) ((continues_iff hbuild hj tok).mpr hgoes')
    exact hcompiled.injective hi (hij ▸ hj)
  · intro hone i hi j hj hcont hcont'
    obtain ⟨p, hp, hwalk⟩ := mem_heard.mp hi
    obtain ⟨q, hq, hwalk'⟩ := mem_heard.mp hj
    have hpq := hone p q hp hq ((continues_iff hbuild hwalk tok).mp hcont)
      ((continues_iff hbuild hwalk' tok).mp hcont')
    rw [hpq, hwalk'] at hwalk
    exact (Option.some.inj hwalk).symm

/-- A phrase under way, and no other that goes on with its next token. -/
theorem boosted_once_alone : ∃ b, build [[0, 1, 2], [0, 3]] (6 : ℚ) true = some b ∧
    ((∀ tok < [0, 0, 0, (0 : ℚ)].length,
      (b.boostLogits (b.heard [0, 1]) [0, 0, 0, 0]).getD tok 0 = [0, 0, 0, (0 : ℚ)].getD tok 0 +
        if ∃ i ∈ (b.heard [0, 1]).active, b.continues tok i = true then 6 else 0) ↔
    ∀ tok < [0, 0, 0, (0 : ℚ)].length, ∀ p q, p <:+ [0, 1] → q <:+ [0, 1] →
      GoesOn [[0, 1, 2], [0, 3]] true p tok → GoesOn [[0, 1, 2], [0, 3]] true q tok → p = q) := by
  obtain ⟨b, hbuild⟩ : ∃ b, build [[0, 1, 2], [0, 3]] (6 : ℚ) true = some b := ⟨_, rfl⟩
  exact ⟨b, hbuild, boosted_once_iff hbuild (by norm_num) [0, 1] [0, 0, 0, 0]⟩

/-- The second word of one phrase is the first of another: its logit is raised twice. -/
theorem boosted_twice_at_second_word :
    ∃ b, build [[0, 1, 0, 2], [0, 2]] (6 : ℚ) true = some b ∧
    ¬∀ tok < [0, 0, (0 : ℚ)].length,
      (b.boostLogits (b.heard [0, 1, 0]) [0, 0, 0]).getD tok 0 = [0, 0, (0 : ℚ)].getD tok 0 +
        if ∃ i ∈ (b.heard [0, 1, 0]).active, b.continues tok i = true then 6 else 0 := by
  refine ⟨_, rfl, ?_⟩
  intro hall
  have htwo := hall 2 (by decide)
  revert htwo
  decide +kernel

end Once

end Biaser

end Gigastt
