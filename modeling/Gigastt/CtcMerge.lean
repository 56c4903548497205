import Gigastt.CtcForward

/-!
The alignment a prefix keeps when two hypotheses of the beam reach it: its own, and one that lacks
its last label. The contribution that comes first makes the slot, and only an extension looks at the
alignment it finds there.
-/

namespace Gigastt

namespace Ctc

section Slot

variable {F : Type}

/-- The alignment of a hypothesis and what it was worth when it came. -/
def Hypothesis.support (hyp : Hypothesis F) : List (TokenInfo F) × F := (hyp.tokens, hyp.anchor)

/-- The alignment held under the labels. -/
def supportOf (next : Beam F) (labels : List Nat) : Option (List (TokenInfo F) × F) :=
  (next.lookup labels).map Hypothesis.support

/-- A contribution without a label keeps the alignment it finds. -/
def carry (hyp : Hypothesis F) (held : Option (List (TokenInfo F) × F)) :
    Option (List (TokenInfo F) × F) :=
  some (held.getD hyp.support)

/-- Some contributions without a label, or none. -/
def Carries (hyp : Hypothesis F) (held held' : Option (List (TokenInfo F) × F)) : Prop :=
  held' = held ∨ held' = carry hyp held

theorem carry_idem (hyp : Hypothesis F) (held : Option (List (TokenInfo F) × F)) :
    carry hyp (carry hyp held) = carry hyp held := rfl

theorem Carries.carry_eq {hyp : Hypothesis F} {held held' : Option (List (TokenInfo F) × F)}
    (h : Carries hyp held held') : carry hyp held' = carry hyp held := by
  rcases h with rfl | rfl
  · rfl
  · exact carry_idem hyp held

/-- Once an alignment is carried over, the prefix only carries it on. -/
theorem Carries.eq_of_carry {hyp : Hypothesis F} {held held' : Option (List (TokenInfo F) × F)}
    (h : Carries hyp (carry hyp held) held') : held' = carry hyp held := by
  rcases h with rfl | rfl
  · rfl
  · exact carry_idem hyp held

variable [SingleArith F]

/-- An extension replaces an alignment that is worth less. -/
def Extension.displace (x : Extension F) : Option (List (TokenInfo F) × F) →
    Option (List (TokenInfo F) × F)
  | none => some (x.tokens, x.p)
  | some held => some (if held.2 < x.p then (x.tokens, x.p) else held)

theorem support_emit (slot : Hypothesis F) (emission : Emission F) :
    (slot.emit emission).support = slot.support := by
  cases emission <;> rfl

theorem support_credit (x : Extension F) (slot : Hypothesis F) :
    (x.credit slot).support = if slot.anchor < x.p then (x.tokens, x.p) else slot.support := by
  unfold Extension.credit
  split_ifs <;> rfl

variable {next : Beam F} {labels key : List Nat} {hyp : Hypothesis F} {c : Nat}

theorem supportOf_merge (emission : Emission F) : supportOf (merge next labels hyp emission) key =
    if key = labels then carry hyp (supportOf next key) else supportOf next key := by
  unfold supportOf merge
  rw [KeyedList.lookup_upsert]
  by_cases hkey : key = labels
  · subst hkey
    rw [if_pos rfl, if_pos rfl]
    cases next.lookup key with
    | none => exact congrArg some (support_emit _ emission)
    | some slot => exact congrArg some (support_emit slot emission)
  · rw [if_neg hkey, if_neg hkey]

namespace BeamSearch

variable {d : BeamSearch F} {t : Nat} {lp : List F}

/-- The extension of `labels` by `c` in a frame of log-probabilities `lp`. -/
def extension (d : BeamSearch F) (t : Nat) (lp : List F) (labels : List Nat) (hyp : Hypothesis F)
    (c : Nat) : Extension F :=
  let score := d.biaser.scoreToken hyp.bias c
  let p := if labels.getLast? = some c then hyp.pBlank else hyp.total
  { tokens := hyp.tokens ++
      [{ tokenId := c, frameIndex := t, confidence := SingleArith.exp (lp.getD c 0) }]
    p := p + lp.getD c 0 + score.1
    bias := score.2 }

theorem supportOf_extendWith (p : F) : supportOf (d.extendWith t lp next labels hyp c p) key =
    let score := d.biaser.scoreToken hyp.bias c
    let p' := p + lp.getD c 0 + score.1
    if key = labels ++ [c] ∧ p' ≠ SingleArith.negInfinity then
      Extension.displace
        { tokens := hyp.tokens ++
            [{ tokenId := c, frameIndex := t, confidence := SingleArith.exp (lp.getD c 0) }]
          p := p'
          bias := score.2 } (supportOf next key)
    else supportOf next key := by
  unfold extendWith mergeExtension
  dsimp only
  by_cases hbot : p + lp.getD c 0 + (d.biaser.scoreToken hyp.bias c).1 = SingleArith.negInfinity
  · rw [if_pos hbot, if_neg fun hand => hand.2 hbot]
  · rw [if_neg hbot, supportOf, KeyedList.lookup_upsert]
    by_cases hkey : key = labels ++ [c]
    · subst hkey
      rw [if_pos rfl, if_pos ⟨rfl, hbot⟩, supportOf]
      cases next.lookup (labels ++ [c]) with
      | none => rfl
      | some slot => exact congrArg some (support_credit _ slot)
    · rw [if_neg hkey, if_neg fun hand => hkey hand.1]
      rfl

/-- What one hypothesis and one class do to the alignment of a prefix. -/
theorem supportOf_expand (x : (List Nat × Hypothesis F) × Nat) (key : List Nat)
    (hpossible : lp.getD x.2 0 ≠ SingleArith.negInfinity) :
    supportOf (d.expand t lp next x) key =
      if key = x.1.1 ∧ (x.2 = d.blankId ∨ x.1.1.getLast? = some x.2) then
        carry x.1.2 (supportOf next key)
      else if key = x.1.1 ++ [x.2] ∧ x.2 ≠ d.blankId ∧
          (d.extension t lp x.1.1 x.1.2 x.2).p ≠ SingleArith.negInfinity then
        (d.extension t lp x.1.1 x.1.2 x.2).displace (supportOf next key)
      else supportOf next key := by
  obtain ⟨⟨labels, hyp⟩, c⟩ := x
  have hlonger : labels ≠ labels ++ [c] := fun heq => by simpa using congrArg List.length heq
  unfold expand extension
  dsimp only at hpossible ⊢
  rw [if_neg hpossible]
  by_cases hblank : c = d.blankId
  · rw [if_pos hblank, supportOf_merge]
    simp [hblank]
  · rw [if_neg hblank]
    by_cases hlast : labels.getLast? = some c
    · rw [if_pos hlast, supportOf_extendWith, supportOf_merge]
      by_cases hkey : key = labels
      · subst hkey
        simp [hlast]
      · simp [hkey, hlast, hblank]
    · rw [if_neg hlast, supportOf_extendWith]
      by_cases hkey : key = labels
      · subst hkey
        simp [hlast, hblank]
      · simp [hkey, hlast, hblank]

theorem supportOf_expand_of_ne {x : (List Nat × Hypothesis F) × Nat} (hown : key ≠ x.1.1)
    (hlonger : key ≠ x.1.1 ++ [x.2]) :
    supportOf (d.expand t lp next x) key = supportOf next key := by
  by_cases hpossible : lp.getD x.2 0 = SingleArith.negInfinity
  · simp only [expand, if_pos hpossible]
  · rw [supportOf_expand x key hpossible, if_neg fun hand => hown hand.1,
      if_neg fun hand => hlonger hand.1]

/-- What one hypothesis contributes to `next` with every class. -/
def expandRow (d : BeamSearch F) (t : Nat) (lp : List F) (candidates : List Nat) (next : Beam F)
    (x : List Nat × Hypothesis F) : Beam F :=
  candidates.foldl (fun next c => d.expand t lp next (x, c)) next

theorem expandFrame_eq (d : BeamSearch F) (t : Nat) (beams : Beam F) :
    d.expandFrame t beams =
      beams.foldl (d.expandRow t (d.lp t) (d.candidates (d.lp t) beams)) [] := by
  have hproduct : ∀ l : List Nat, beams.product l = beams.flatMap fun x => l.map (Prod.mk x) :=
    fun _ => rfl
  simp only [expandFrame, hproduct, List.foldl_flatMap, List.foldl_map]
  rfl

variable {candidates : List Nat} {x : List Nat × Hypothesis F}

theorem expandRow_append (before after : List Nat) : d.expandRow t lp (before ++ c :: after) next x =
    d.expandRow t lp after (d.expand t lp (d.expandRow t lp before next x) (x, c)) x := by
  rw [expandRow, List.foldl_append, List.foldl_cons]
  rfl

/-- Another prefix leaves the alignment alone. -/
theorem supportOf_expandRow_other (hown : x.1 ≠ labels ++ [c]) (hshorter : x.1 ≠ labels) :
    supportOf (d.expandRow t lp candidates next x) (labels ++ [c]) =
      supportOf next (labels ++ [c]) := by
  refine List.foldlRecOn candidates _
    (motive := fun b => supportOf b (labels ++ [c]) = supportOf next (labels ++ [c])) rfl ?_
  intro b hb c' _
  rw [← hb]
  exact supportOf_expand_of_ne hown.symm fun heq => hshorter (List.append_inj_left' heq rfl).symm

theorem carries_expandRow (hyp : Hypothesis F) : Carries hyp (supportOf next (labels ++ [c]))
    (supportOf (d.expandRow t lp candidates next (labels ++ [c], hyp)) (labels ++ [c])) := by
  refine List.foldlRecOn candidates _
    (motive := fun b => Carries hyp (supportOf next (labels ++ [c]))
      (supportOf b (labels ++ [c]))) (Or.inl rfl) ?_
  intro b hb c' _
  by_cases hbot : lp.getD c' 0 = SingleArith.negInfinity
  · simpa only [expand, if_pos hbot] using hb
  · rw [supportOf_expand _ _ hbot]
    split_ifs with hown hlonger
    · exact Or.inr hb.carry_eq
    · simpa using congrArg List.length hlonger.1
    · exact hb

/-- The prefix itself carries its alignment over. -/
theorem supportOf_expandRow_own (hc : c ∈ candidates)
    (hpossible : lp.getD c 0 ≠ SingleArith.negInfinity) (hyp : Hypothesis F) :
    supportOf (d.expandRow t lp candidates next (labels ++ [c], hyp)) (labels ++ [c]) =
      carry hyp (supportOf next (labels ++ [c])) := by
  obtain ⟨before, after, rfl⟩ := List.append_of_mem hc
  rw [expandRow_append]
  have hfirst : Carries hyp (supportOf next (labels ++ [c]))
      (supportOf (d.expandRow t lp before next (labels ++ [c], hyp)) (labels ++ [c])) :=
    carries_expandRow hyp
  generalize d.expandRow t lp before next (labels ++ [c], hyp) = b at hfirst ⊢
  -- the repeated label carries whatever the classes before it left
  have hrepeat : supportOf (d.expand t lp b ((labels ++ [c], hyp), c)) (labels ++ [c]) =
      carry hyp (supportOf next (labels ++ [c])) := by
    rw [supportOf_expand _ _ hpossible, if_pos ⟨rfl, Or.inr List.getLast?_concat⟩]
    exact hfirst.carry_eq
  apply Carries.eq_of_carry
  rw [← hrepeat]
  exact carries_expandRow hyp

/-- The prefix without its last label extends to it once. -/
theorem supportOf_expandRow_shorter (hnodup : candidates.Nodup) (hc : c ∈ candidates)
    (hlabel : c ≠ d.blankId) (hpossible : lp.getD c 0 ≠ SingleArith.negInfinity)
    {hyp : Hypothesis F} (hextends : (d.extension t lp labels hyp c).p ≠ SingleArith.negInfinity) :
    supportOf (d.expandRow t lp candidates next (labels, hyp)) (labels ++ [c]) =
      (d.extension t lp labels hyp c).displace (supportOf next (labels ++ [c])) := by
  have hlonger : labels ++ [c] ≠ labels := fun heq => by simpa using congrArg List.length heq
  have hrest : ∀ (l : List Nat) next, c ∉ l →
      supportOf (d.expandRow t lp l next (labels, hyp)) (labels ++ [c]) =
        supportOf next (labels ++ [c]) := by
    intro l next hnot
    refine List.foldlRecOn l _
      (motive := fun b => supportOf b (labels ++ [c]) = supportOf next (labels ++ [c])) rfl ?_
    intro b hb c' hc'
    have hother : labels ++ [c] ≠ labels ++ [c'] := fun heq =>
      hnot (List.singleton_inj.mp (List.append_cancel_left heq) ▸ hc')
    rw [← hb]
    exact supportOf_expand_of_ne hlonger hother
  obtain ⟨before, after, rfl⟩ := List.append_of_mem hc
  obtain ⟨_, hafter, hdisjoint⟩ := List.nodup_append.mp hnodup
  have hbefore : c ∉ before := fun hmem => hdisjoint c hmem c List.mem_cons_self rfl
  rw [expandRow_append, hrest after _ (List.nodup_cons.mp hafter).1,
    supportOf_expand ((labels, hyp), c) _ hpossible, if_neg fun hand => hlonger hand.1,
    if_pos ⟨rfl, hlabel, hextends⟩, hrest before next hbefore]

/-- Other prefixes of the beam leave the alignment alone. -/
theorem supportOf_foldl_other {others : Beam F} (hown : labels ++ [c] ∉ others.map Prod.fst)
    (hshorter : labels ∉ others.map Prod.fst) :
    supportOf (others.foldl (d.expandRow t lp candidates) next) (labels ++ [c]) =
      supportOf next (labels ++ [c]) := by
  refine List.foldlRecOn others _
    (motive := fun b => supportOf b (labels ++ [c]) = supportOf next (labels ++ [c])) rfl ?_
  intro b hb x hx
  rw [← hb]
  have hmem := List.mem_map_of_mem (f := Prod.fst) hx
  exact supportOf_expandRow_other (fun heq => hown (heq ▸ hmem)) fun heq => hshorter (heq ▸ hmem)

/-- Among prefixes of the beam without the longer one, the shorter one extends to it once. -/
theorem supportOf_foldl_shorter {others : Beam F} {shorter : Hypothesis F}
    (hdistinct : (others.map Prod.fst).Nodup) (hown : labels ++ [c] ∉ others.map Prod.fst)
    (hshorter : (labels, shorter) ∈ others) (hnodup : candidates.Nodup) (hc : c ∈ candidates)
    (hlabel : c ≠ d.blankId) (hpossible : lp.getD c 0 ≠ SingleArith.negInfinity)
    (hextends : (d.extension t lp labels shorter c).p ≠ SingleArith.negInfinity) :
    supportOf (others.foldl (d.expandRow t lp candidates) next) (labels ++ [c]) =
      (d.extension t lp labels shorter c).displace (supportOf next (labels ++ [c])) := by
  obtain ⟨before, after, rfl⟩ := List.append_of_mem hshorter
  rw [List.map_append, List.map_cons] at hdistinct hown
  obtain ⟨_, hafter, hdisjoint⟩ := List.nodup_append.mp hdistinct
  have hbefore : labels ∉ before.map Prod.fst := fun hmem =>
    hdisjoint labels hmem labels List.mem_cons_self rfl
  rw [List.mem_append, List.mem_cons, not_or, not_or] at hown
  rw [List.foldl_append, List.foldl_cons,
    supportOf_foldl_other hown.2.2 (List.nodup_cons.mp hafter).1,
    supportOf_expandRow_shorter hnodup hc hlabel hpossible hextends,
    supportOf_foldl_other hown.1 hbefore]

section Order

variable {beams : Beam F} {carried shorter : Hypothesis F}

/-- What the two hypotheses make of an empty slot, in the order of the beam. -/
theorem supportOf_expandFrame (hdistinct : (beams.map Prod.fst).Nodup)
    (hcarried : (labels ++ [c], carried) ∈ beams) (hshorter : (labels, shorter) ∈ beams)
    (hcandidate : c ∈ d.candidates (d.lp t) beams) (hlabel : c ≠ d.blankId)
    (hpossible : (d.lp t).getD c 0 ≠ SingleArith.negInfinity)
    (hextends : (d.extension t (d.lp t) labels shorter c).p ≠ SingleArith.negInfinity) :
    supportOf (d.expandFrame t beams) (labels ++ [c]) =
      if (beams.map Prod.fst).idxOf (labels ++ [c]) < (beams.map Prod.fst).idxOf labels then
        (d.extension t (d.lp t) labels shorter c).displace (some carried.support)
      else carry carried
        (some ((d.extension t (d.lp t) labels shorter c).tokens,
          (d.extension t (d.lp t) labels shorter c).p)) := by
  have hlonger : labels ++ [c] ≠ labels := fun heq => by simpa using congrArg List.length heq
  rw [expandFrame_eq]
  generalize hcands : d.candidates (d.lp t) beams = candidates at hcandidate
  have hnodup : candidates.Nodup := hcands ▸ nodup_candidates
  obtain ⟨before, after, rfl⟩ := List.append_of_mem hcarried
  rw [List.map_append, List.map_cons] at hdistinct
  obtain ⟨hbefore, hrest, hdisjoint⟩ := List.nodup_append.mp hdistinct
  obtain ⟨hafter, hafter'⟩ := List.nodup_cons.mp hrest
  have hown : labels ++ [c] ∉ before.map Prod.fst := fun hmem =>
    hdisjoint _ hmem _ List.mem_cons_self rfl
  rw [List.foldl_append, List.foldl_cons, List.map_append, List.map_cons,
    List.idxOf_append_of_notMem hown, List.idxOf_cons_self, Nat.add_zero]
  rcases List.mem_append.mp hshorter with hmem | hmem
  · -- the extension makes the slot
    have hkey : labels ∈ before.map Prod.fst := List.mem_map_of_mem (f := Prod.fst) hmem
    have hnot : labels ∉ after.map Prod.fst := fun hin =>
      hdisjoint labels hkey labels (List.mem_cons_of_mem _ hin) rfl
    have hfirst : (before.map Prod.fst).idxOf labels < before.length := by
      have hlt := List.idxOf_lt_length_of_mem hkey
      rwa [List.length_map] at hlt
    rw [List.idxOf_append_of_mem hkey, List.length_map, if_neg (by omega),
      supportOf_foldl_other hafter hnot, supportOf_expandRow_own hcandidate hpossible,
      supportOf_foldl_shorter hbefore hown hmem hnodup hcandidate hlabel hpossible hextends]
    rfl
  · -- the prefix itself makes the slot
    replace hmem := (List.mem_cons.mp hmem).resolve_left fun heq =>
      hlonger (congrArg Prod.fst heq).symm
    have hkey : labels ∈ after.map Prod.fst := List.mem_map_of_mem (f := Prod.fst) hmem
    have hnot : labels ∉ before.map Prod.fst := fun hin =>
      hdisjoint labels hin labels (List.mem_cons_of_mem _ hkey) rfl
    rw [List.idxOf_append_of_notMem hnot, List.idxOf_cons_ne _ hlonger, if_pos (by omega),
      supportOf_foldl_shorter hafter' hafter hmem hnodup hcandidate hlabel hpossible hextends,
      supportOf_expandRow_own hcandidate hpossible, supportOf_foldl_other hown hnot]
    rfl

end Order

end BeamSearch

end Slot

section Dated

variable {F : Type}

/-- Distinct prefixes, whose alignments stay before frame `n`. -/
structure Dated (n : Nat) (beams : Beam F) : Prop where
  distinct : (beams.map Prod.fst).Nodup
  before : ∀ x ∈ beams, ∀ info ∈ x.2.tokens, info.frameIndex < n

variable {n t : Nat} {next beams : Beam F} {labels : List Nat} {hyp : Hypothesis F}

theorem Dated.mono {m : Nat} (h : Dated n beams) (hnm : n ≤ m) : Dated m beams :=
  ⟨h.distinct, fun x hx info hinfo => (h.before x hx info hinfo).trans_le hnm⟩

theorem Dated.perm {beams' : Beam F} (h : Dated n beams) (hperm : beams'.Perm beams) :
    Dated n beams' :=
  ⟨(hperm.map Prod.fst).nodup_iff.mpr h.distinct, fun x hx => h.before x (hperm.mem_iff.mp hx)⟩

theorem Dated.upsert (h : Dated n next) {update : Hypothesis F → Hypothesis F}
    {fresh : Hypothesis F}
    (hupdate : ∀ slot, (∀ info ∈ slot.tokens, info.frameIndex < n) →
      ∀ info ∈ (update slot).tokens, info.frameIndex < n)
    (hfresh : ∀ info ∈ fresh.tokens, info.frameIndex < n) :
    Dated n (KeyedList.upsert labels update fresh next) := by
  refine ⟨KeyedList.nodup_keys_upsert h.distinct, fun x hx => ?_⟩
  rcases KeyedList.mem_upsert h.distinct hx with ⟨hold, _⟩ | ⟨slot, hslot, rfl⟩ | ⟨_, rfl⟩
  · exact h.before x hold
  · exact hupdate slot (h.before _ hslot)
  · exact hfresh

variable [SingleArith F] {d : BeamSearch F}

theorem Dated.merge (h : Dated n next) (hhyp : ∀ info ∈ hyp.tokens, info.frameIndex < n)
    (emission : Emission F) : Dated n (merge next labels hyp emission) := by
  have hemit : ∀ slot : Hypothesis F, (slot.emit emission).tokens = slot.tokens := fun slot =>
    congrArg Prod.fst (support_emit slot emission)
  apply h.upsert
  · intro slot hslot
    rwa [hemit]
  · rwa [hemit]

theorem Dated.extendWith (h : Dated (t + 1) next)
    (hhyp : ∀ info ∈ hyp.tokens, info.frameIndex < t) (lp : List F) (c : Nat) (p : F) :
    Dated (t + 1) (d.extendWith t lp next labels hyp c p) := by
  have htokens : ∀ confidence : F, ∀ info ∈ hyp.tokens ++ [⟨c, t, confidence⟩],
      info.frameIndex < t + 1 := by
    intro confidence info hinfo
    rcases List.mem_append.mp hinfo with hold | hnew
    · exact (hhyp info hold).trans (Nat.lt_succ_self t)
    · rw [List.mem_singleton.mp hnew]
      exact Nat.lt_succ_self t
  unfold BeamSearch.extendWith mergeExtension
  dsimp only
  split_ifs
  · exact h
  · apply h.upsert
    · intro slot hslot
      have hsupport := congrArg Prod.fst (support_credit (F := F)
        ⟨hyp.tokens ++ [⟨c, t, SingleArith.exp (lp.getD c 0)⟩],
          p + lp.getD c 0 + (d.biaser.scoreToken hyp.bias c).1,
          (d.biaser.scoreToken hyp.bias c).2⟩ slot)
      simp only [Hypothesis.support] at hsupport
      rw [hsupport]
      split_ifs
      · exact htokens _
      · exact hslot
    · exact htokens _

theorem Dated.expand (h : Dated (t + 1) next) {x : (List Nat × Hypothesis F) × Nat}
    (hx : ∀ info ∈ x.1.2.tokens, info.frameIndex < t) (lp : List F) :
    Dated (t + 1) (d.expand t lp next x) := by
  have hsoon : ∀ info ∈ x.1.2.tokens, info.frameIndex < t + 1 :=
    fun info hinfo => (hx info hinfo).trans (Nat.lt_succ_self t)
  unfold BeamSearch.expand
  dsimp only
  split_ifs
  · exact h
  · exact h.merge hsoon _
  · exact (h.merge hsoon _).extendWith hx lp _ _
  · exact h.extendWith hx lp _ _

theorem Dated.frame (h : Dated t beams) (d : BeamSearch F) :
    Dated (t + 1) (d.prune (d.expandFrame t beams)) := by
  have hexpand : Dated (t + 1) (d.expandFrame t beams) := by
    refine List.foldlRecOn _ _ (motive := Dated (t + 1)) ⟨List.nodup_nil, by simp⟩ ?_
    intro next hnext x hx
    exact hnext.expand (h.before x.1 (List.mem_product.mp hx).1) _
  exact ⟨nodup_keys_prune hexpand.distinct, fun x hx => hexpand.before x (mem_of_mem_prune hx)⟩

/-- The beam of every frame. -/
theorem dated_beamsAfter (d : BeamSearch F) (n : Nat) : Dated n (d.beamsAfter n).1 := by
  refine Loops.forEach_range_invariant (I := Dated) (P := Dated n) ?_ ?_ (fun _ h => h) ?_
  · intro t beams _ h hnone
    unfold BeamSearch.frame at hnone ⊢
    split_ifs at hnone ⊢
    exact h.frame d
  · intro t beams ht h hleave
    unfold BeamSearch.frame at hleave ⊢
    split_ifs at hleave ⊢
    · exact h.mono ht.le
    · exact h.mono ht.le
    · exact absurd rfl hleave
  · exact ⟨List.nodup_singleton _, by simp [BeamSearch.start]⟩

end Dated

section Best

variable {F : Type} [SingleArith F] {d : BeamSearch F} {t : Nat} {beams : Beam F}
  {labels : List Nat} {c : Nat} {carried shorter : Hypothesis F}

/-- The prefix keeps its own alignment unless the extension is worth more. -/
def KeepsBetter (carried merged : Hypothesis F) (x : Extension F) : Prop :=
  merged.support = if carried.anchor < x.p then (x.tokens, x.p) else carried.support

/-- The hypothesis the frame makes of the two. -/
theorem exists_merged (hdated : Dated t beams) (hcarried : (labels ++ [c], carried) ∈ beams)
    (hshorter : (labels, shorter) ∈ beams) (hcandidate : c ∈ d.candidates (d.lp t) beams)
    (hlabel : c ≠ d.blankId) (hpossible : (d.lp t).getD c 0 ≠ SingleArith.negInfinity)
    {x : Extension F} (hx : d.extension t (d.lp t) labels shorter c = x)
    (hextends : x.p ≠ SingleArith.negInfinity) :
    ∃ merged, (d.expandFrame t beams).lookup (labels ++ [c]) = some merged ∧
      merged.support =
        if (beams.map Prod.fst).idxOf (labels ++ [c]) < (beams.map Prod.fst).idxOf labels then
          if carried.anchor < x.p then (x.tokens, x.p) else carried.support
        else (x.tokens, x.p) := by
  subst hx
  have hsupport := BeamSearch.supportOf_expandFrame hdated.distinct hcarried hshorter hcandidate
    hlabel hpossible hextends
  have hsome : supportOf (d.expandFrame t beams) (labels ++ [c]) = some
      (if (beams.map Prod.fst).idxOf (labels ++ [c]) < (beams.map Prod.fst).idxOf labels then
        if carried.anchor < (d.extension t (d.lp t) labels shorter c).p then
          ((d.extension t (d.lp t) labels shorter c).tokens,
            (d.extension t (d.lp t) labels shorter c).p)
        else carried.support
      else ((d.extension t (d.lp t) labels shorter c).tokens,
        (d.extension t (d.lp t) labels shorter c).p)) := by
    rw [hsupport]
    by_cases hfirst : (beams.map Prod.fst).idxOf (labels ++ [c]) < (beams.map Prod.fst).idxOf labels
    · rw [if_pos hfirst, if_pos hfirst]
      rfl
    · rw [if_neg hfirst, if_neg hfirst]
      rfl
  exact Option.map_eq_some_iff.mp hsome

/-- The alignment of the extension has a token of this frame. -/
theorem extension_ne_support (hdated : Dated t beams)
    (hcarried : (labels ++ [c], carried) ∈ beams) :
    ((d.extension t (d.lp t) labels shorter c).tokens,
      (d.extension t (d.lp t) labels shorter c).p) ≠ carried.support := by
  intro heq
  have htokens : (d.extension t (d.lp t) labels shorter c).tokens = carried.tokens :=
    congrArg Prod.fst heq
  have hnow : (⟨c, t, SingleArith.exp ((d.lp t).getD c 0)⟩ : TokenInfo F) ∈
      (d.extension t (d.lp t) labels shorter c).tokens :=
    List.mem_append_right _ (List.mem_singleton_self _)
  rw [htokens] at hnow
  exact absurd (hdated.before _ hcarried _ hnow) (Nat.lt_irrefl t)

/-- The better alignment is kept when the prefix itself comes first in the beam, or the extension is
worth more. -/
theorem keepsBetter_iff (hbeams : beams.Perm (d.beamsAfter t).1)
    (hcarried : (labels ++ [c], carried) ∈ beams) (hshorter : (labels, shorter) ∈ beams)
    (hcandidate : c ∈ d.candidates (d.lp t) beams) (hlabel : c ≠ d.blankId)
    (hpossible : (d.lp t).getD c 0 ≠ SingleArith.negInfinity)
    (hextends : (d.extension t (d.lp t) labels shorter c).p ≠ SingleArith.negInfinity) :
    ∃ merged, (d.expandFrame t beams).lookup (labels ++ [c]) = some merged ∧
      (KeepsBetter carried merged (d.extension t (d.lp t) labels shorter c) ↔
        (beams.map Prod.fst).idxOf (labels ++ [c]) < (beams.map Prod.fst).idxOf labels ∨
          carried.anchor < (d.extension t (d.lp t) labels shorter c).p) := by
  have hdated := (dated_beamsAfter d t).perm hbeams
  obtain ⟨merged, hmerged, hsupport⟩ :=
    exists_merged hdated hcarried hshorter hcandidate hlabel hpossible rfl hextends
  refine ⟨merged, hmerged, ?_⟩
  rw [KeepsBetter, hsupport]
  by_cases hworth : carried.anchor < (d.extension t (d.lp t) labels shorter c).p
  · simp [hworth]
  · by_cases hfirst : (beams.map Prod.fst).idxOf (labels ++ [c]) < (beams.map Prod.fst).idxOf labels
    · simp [hfirst]
    · simp [hfirst, hworth, extension_ne_support hdated hcarried]

end Best

section Repeat

open scoped ENNReal

/-- Two frames over one label and the blank, which is the likelier class of both. -/
noncomputable def repeatSearch : RealSearch :=
  { logProbs := [0, 1, 0, 1], tLen := 2, vocab := 2, blankId := 1, biaser := rootOnly, abort := none,
    selection := Selection.stable, width := beamWidth, topK := beamTopK }

/-- Both frames have the same log-probabilities, and the blank is the likelier class. -/
theorem repeatSearch_lp : ∃ a b : EReal, a ≠ ⊥ ∧ b ≠ ⊥ ∧ a < b ∧ b < 0 ∧
    ∀ t < 2, repeatSearch.exact.lp t = [a, b] := by
  obtain ⟨a, b, hab⟩ : ∃ a b, logSoftmax ([0, 1].map Real.toEReal) = [a, b] := ⟨_, _, rfl⟩
  have hsum : (([0, 1] : List ℝ).map fun l : ℝ => EReal.exp l).sum = 1 + EReal.exp 1 := by
    rw [List.map_cons, List.map_cons, List.map_nil, List.sum_cons, List.sum_cons, List.sum_nil,
      EReal.coe_zero, EReal.coe_one, EReal.exp_zero, add_zero]
  have hone : (1 : ℝ≥0∞) < EReal.exp 1 := EReal.one_lt_exp_iff.mpr zero_lt_one
  have hfin : EReal.exp 1 ≠ ⊤ := fun htop => absurd (EReal.exp_eq_top_iff.mp htop) (by decide)
  have hsum0 : 1 + EReal.exp 1 ≠ 0 := by simp
  have hsumt : 1 + EReal.exp 1 ≠ ⊤ := ENNReal.add_ne_top.mpr ⟨ENNReal.one_ne_top, hfin⟩
  have ha : EReal.exp a = 1 / (1 + EReal.exp 1) := by
    have h := exp_logSoftmax (show 0 < [(0 : ℝ), 1].length by decide)
    rw [hab, softmax, hsum] at h
    simpa using h
  have hb : EReal.exp b = EReal.exp 1 / (1 + EReal.exp 1) := by
    have h := exp_logSoftmax (show 1 < [(0 : ℝ), 1].length by decide)
    rw [hab, softmax, hsum] at h
    simpa using h
  have hlt : a < b := by
    rw [← EReal.exp_lt_exp_iff, ha, hb]
    exact ENNReal.div_lt_div_right hsum0 hsumt hone
  refine ⟨a, b, ?_, ne_bot_of_gt hlt, hlt, ?_, ?_⟩
  · rw [Ne, ← EReal.exp_eq_zero_iff, ha]
    exact (ENNReal.div_pos one_ne_zero hsumt).ne'
  · rw [← EReal.exp_lt_one_iff, hb]
    apply ENNReal.div_lt_of_lt_mul
    rw [one_mul, add_comm]
    exact ENNReal.lt_add_right hfin one_ne_zero
  · intro t ht
    have hrow : repeatSearch.exact.row t = [0, 1].map Real.toEReal := by
      rw [RealSearch.row_eq]
      interval_cases t <;> rfl
    rw [BeamSearch.lp, hrow, hab]

theorem repeatSearch_candidates {lp : List EReal} (hlp : lp.length = 2) (beams : Beam EReal) :
    repeatSearch.exact.candidates lp beams = [0, 1] := by
  have hmem : ∀ c, c ∈ repeatSearch.exact.candidates lp beams ↔ c ∈ [0, 1] := by
    intro c
    constructor
    · intro hc
      have hlt : c < 2 := candidates_lt hc
      interval_cases c <;> simp
    · intro hc
      apply mem_candidates_of_le hlp (by decide)
      show c < 2
      rcases List.mem_pair.mp hc with rfl | rfl <;> decide
  have hperm : (repeatSearch.exact.candidates lp beams).Perm [0, 1] :=
    (List.perm_ext_iff_of_nodup nodup_candidates (by decide)).mpr hmem
  have hsorted : (repeatSearch.exact.candidates lp beams).Pairwise (· ≤ ·) := by
    unfold BeamSearch.candidates
    apply List.Pairwise.sublist (List.dedup_sublist _)
    exact List.pairwise_mergeSort' (· ≤ ·) _
  exact hperm.eq_of_pairwise' hsorted (by decide)


theorem logAddExp_left (x : EReal) : logAddExp SingleArith.negInfinity x = x := if_pos rfl

theorem logAddExp_right (x : EReal) : logAddExp x SingleArith.negInfinity = x := by
  by_cases hx : x = SingleArith.negInfinity
  · rw [logAddExp, if_pos hx, hx]
  · rw [logAddExp, if_neg hx, if_pos rfl]

theorem repeatSearch_score : repeatSearch.exact.biaser.scoreToken .default 0 = (0, .default) := by
  have hrefund : -(BiasPath.default : BiasPath EReal).pending = 0 := neg_zero
  exact Prod.ext hrefund rfl

/-- After the first frame the beam holds the blank, and then the label. -/
theorem repeatSearch_beams {a b : EReal} (ha : a ≠ ⊥) (hb : b ≠ ⊥) (hab : a < b)
    (hlp : repeatSearch.exact.lp 0 = [a, b]) :
    (repeatSearch.exact.beamsAfter 1).1 =
      [([], { pBlank := b, pNonblank := ⊥, tokens := [], bias := .default, anchor := 0 }),
       ([0], { pBlank := ⊥, pNonblank := a, tokens := [⟨0, 0, EReal.exp a⟩], bias := .default,
               anchor := a })] := by
  have ha' : a ≠ SingleArith.negInfinity := ha
  have hb' : b ≠ SingleArith.negInfinity := hb
  have hexpand : repeatSearch.exact.expandFrame 0 BeamSearch.start =
      [([0], { pBlank := ⊥, pNonblank := a, tokens := [⟨0, 0, EReal.exp a⟩], bias := .default,
               anchor := a }),
       ([], { pBlank := b, pNonblank := ⊥, tokens := [], bias := .default, anchor := 0 })] := by
    have hblank : repeatSearch.exact.blankId = 1 := rfl
    rw [BeamSearch.expandFrame, hlp, repeatSearch_candidates rfl]
    simp [BeamSearch.start, List.product, BeamSearch.expand, hblank, BeamSearch.extendWith,
      mergeExtension, merge, Hypothesis.total, Hypothesis.emit, Hypothesis.emptyFrom,
      Extension.hypothesis, repeatSearch_score, logAddExp_left, logAddExp_right, KeyedList.upsert,
      ha', hb']
    exact ⟨⟨rfl, rfl⟩, rfl⟩
  have hprune : repeatSearch.exact.prune (repeatSearch.exact.expandFrame 0 BeamSearch.start) =
      [([], { pBlank := b, pNonblank := ⊥, tokens := [], bias := .default, anchor := 0 }),
       ([0], { pBlank := ⊥, pNonblank := a, tokens := [⟨0, 0, EReal.exp a⟩], bias := .default,
               anchor := a })] := by
    have hworse : Hypothesis.total (F := EReal)
        { pBlank := ⊥, pNonblank := a, tokens := [⟨0, 0, EReal.exp a⟩], bias := .default,
          anchor := a } = a := logAddExp_left a
    have hbetter : Hypothesis.total (F := EReal)
        { pBlank := b, pNonblank := ⊥, tokens := [], bias := .default, anchor := 0 } = b :=
      logAddExp_right b
    have hwidth : 2 ≤ repeatSearch.exact.width := by decide
    rw [hexpand, BeamSearch.prune]
    simp [List.mergeSort, hworse, hbetter, hab.not_ge, hwidth]
  have hframe : repeatSearch.exact.frame 0 BeamSearch.start =
      (repeatSearch.exact.prune (repeatSearch.exact.expandFrame 0 BeamSearch.start), none) := by
    rw [BeamSearch.frame, if_neg (by decide), if_neg (by rw [hexpand]; exact Bool.false_ne_true)]
  have hafter : repeatSearch.exact.beamsAfter 1 =
      repeatSearch.exact.frame 0 BeamSearch.start := by
    show Loops.forEach _ [0] _ = _
    rw [Loops.forEach_cons_next (by rw [hframe]), hframe]
    rfl
  rw [hafter, hframe, hprune]

/-- What the second frame of the search starts from, and its extension of the blank. -/
theorem repeatSearch_second : ∃ shorter carried : Hypothesis EReal,
    (repeatSearch.exact.beamsAfter 1).1 = [([], shorter), ([0], carried)] ∧
    0 ∈ repeatSearch.exact.candidates (repeatSearch.exact.lp 1) [([], shorter), ([0], carried)] ∧
    (repeatSearch.exact.lp 1).getD 0 0 ≠ SingleArith.negInfinity ∧
    (repeatSearch.exact.extension 1 (repeatSearch.exact.lp 1) [] shorter 0).p ≠
      SingleArith.negInfinity ∧
    ¬carried.anchor < (repeatSearch.exact.extension 1 (repeatSearch.exact.lp 1) [] shorter 0).p := by
  obtain ⟨a, b, ha, hb, hab, hneg, hlp⟩ := repeatSearch_lp
  refine ⟨_, _, repeatSearch_beams ha hb hab (hlp 0 (by decide)), ?_, ?_, ?_⟩
  · rw [hlp 1 (by decide), repeatSearch_candidates rfl]
    exact List.mem_cons_self
  · rw [hlp 1 (by decide)]
    exact ha
  · have hp : (repeatSearch.exact.extension 1 (repeatSearch.exact.lp 1) []
        { pBlank := b, pNonblank := ⊥, tokens := [], bias := .default, anchor := 0 } 0).p =
          b + a := by
      have hbetter : Hypothesis.total (F := EReal)
          { pBlank := b, pNonblank := ⊥, tokens := [], bias := .default, anchor := 0 } = b :=
        logAddExp_right b
      simp only [BeamSearch.extension, repeatSearch_score, hlp 1 (by decide), List.getLast?_nil,
        if_neg (Option.some_ne_none 0).symm, hbetter]
      exact add_zero (b + a)
    rw [hp]
    constructor
    · intro hbot
      rcases EReal.add_eq_bot_iff.mp hbot with h | h
      · exact hb h
      · exact ha h
    · exact not_lt.mpr (add_le_of_nonpos_left hneg.le)

/-- The likelier blank comes first in the beam, and the label is kept with the worse alignment of the
second frame. -/
theorem keeps_worse : ∃ shorter carried merged : Hypothesis EReal,
    (repeatSearch.exact.beamsAfter 1).1 = [([], shorter), ([0], carried)] ∧
    (repeatSearch.exact.expandFrame 1 (repeatSearch.exact.beamsAfter 1).1).lookup [0] =
      some merged ∧
    ¬KeepsBetter carried merged
      (repeatSearch.exact.extension 1 (repeatSearch.exact.lp 1) [] shorter 0) := by
  obtain ⟨shorter, carried, hbeams, hcandidate, hpossible, hextends, hworse⟩ := repeatSearch_second
  have hdated := dated_beamsAfter repeatSearch.exact 1
  rw [hbeams] at hdated
  have hcarried : ([] ++ [0], carried) ∈ [([], shorter), ([0], carried)] := by simp
  obtain ⟨merged, hmerged, hsupport⟩ := exists_merged hdated hcarried (by simp) hcandidate
    (by decide) hpossible rfl hextends
  refine ⟨shorter, carried, merged, hbeams, by rwa [hbeams], ?_⟩
  have horder : ¬([([], shorter), ([0], carried)].map Prod.fst).idxOf ([] ++ [0]) <
      ([([], shorter), ([0], carried)].map Prod.fst).idxOf [] := by
    show ¬List.idxOf [0] [([] : List Nat), [0]] < List.idxOf [] [([] : List Nat), [0]]
    decide
  rw [KeepsBetter, hsupport, if_neg hworse, if_neg horder]
  exact extension_ne_support hdated hcarried

/-- In the other order the beam keeps the better alignment. -/
theorem keepsBetter_iff_reversed : ∃ shorter carried merged : Hypothesis EReal,
    [([0], carried), ([], shorter)].Perm (repeatSearch.exact.beamsAfter 1).1 ∧
    (repeatSearch.exact.expandFrame 1 [([0], carried), ([], shorter)]).lookup ([] ++ [0]) =
      some merged ∧
    (KeepsBetter carried merged
        (repeatSearch.exact.extension 1 (repeatSearch.exact.lp 1) [] shorter 0) ↔
      ([([0], carried), ([], shorter)].map Prod.fst).idxOf ([] ++ [0]) <
          ([([0], carried), ([], shorter)].map Prod.fst).idxOf [] ∨
        carried.anchor <
          (repeatSearch.exact.extension 1 (repeatSearch.exact.lp 1) [] shorter 0).p) := by
  obtain ⟨shorter, carried, hbeams, _, hpossible, hextends, _⟩ := repeatSearch_second
  have hperm : [([0], carried), ([], shorter)].Perm (repeatSearch.exact.beamsAfter 1).1 := by
    rw [hbeams]
    exact List.Perm.swap _ _ _
  have hcandidate : 0 ∈ repeatSearch.exact.candidates (repeatSearch.exact.lp 1)
      [([0], carried), ([], shorter)] := by
    obtain ⟨a, b, _, _, _, _, hlp⟩ := repeatSearch_lp
    rw [hlp 1 (by decide), repeatSearch_candidates rfl]
    exact List.mem_cons_self
  have hcarried : ([] ++ [0], carried) ∈ [([0], carried), ([], shorter)] := List.mem_cons_self
  obtain ⟨merged, hmerged, hiff⟩ := keepsBetter_iff hperm hcarried (by simp) hcandidate
    (by decide) hpossible hextends
  exact ⟨shorter, carried, merged, hperm, hmerged, hiff⟩

end Repeat

end Ctc

end Gigastt
