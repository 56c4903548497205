import Gigastt.Biaser
import Gigastt.Indexed
import Gigastt.Table

/-!
The compilation of a glossary. A node of the trie stands for the tokens on the way to it; what it
holds is read off the phrases that begin with them.
-/

namespace Gigastt

namespace Biaser

variable {F : Type}

section Insert

variable [Zero F]

/-- `nodes[node].children.get(&tok)`. -/
def childIn (nodes : List (TrieNode F)) (node tok : Nat) : Option Nat :=
  (nodes[node]?).bind fun n => n.children.lookup tok

/-- A new child of `node`, one level below it. -/
def addChild (nodes : List (TrieNode F)) (node tok : Nat) : List (TrieNode F) :=
  let depth := (nodes[node]?.map TrieNode.depth).getD 0 + 1
  nodes.modify node (fun n => { n with children := n.children ++ [(tok, nodes.length)] }) ++
    [TrieNode.new depth]

/-- One token of a phrase, from the node the phrase has come to. -/
def insertToken (scored : Nat) (s : List (TrieNode F) × Nat) (tok : Nat) :
    List (TrieNode F) × Nat :=
  let r := match childIn s.1 s.2 tok with
    | some child => (s.1, child)
    | none => (addChild s.1 s.2 tok, s.1.length)
  (r.1.modify r.2 fun n => { n with shortestPhrase := min n.shortestPhrase scored }, r.2)

/-- The tokens of a phrase that the boost is spread over. -/
def scoredLength (entryTokens : Nat) (seq : List Nat) : Nat := max (seq.length - entryTokens) 1

def insertSequence (entryTokens : Nat) (nodes : List (TrieNode F)) (seq : List Nat) :
    List (TrieNode F) :=
  if seq.isEmpty then nodes
  else
    let r := seq.foldl (insertToken (scoredLength entryTokens seq)) (nodes, 0)
    r.1.modify r.2 fun n => { n with isEnd := true }

def entryTokens (leadingIsEntry : Bool) : Nat := if leadingIsEntry then 1 else 0

/-- The trie of the phrases, before the grants are known. -/
def insertAll (sequences : List (List Nat)) (leadingIsEntry : Bool) : List (TrieNode F) :=
  sequences.foldl (insertSequence (entryTokens leadingIsEntry)) [TrieNode.new 0]

def finishNode [Div F] [NatCast F] (boost : F) (leadingIsEntry : Bool) (n : TrieNode F) :
    TrieNode F :=
  let isEntry := leadingIsEntry && n.depth == 1
  { n with isEntry, grant := if isEntry then 0 else boost / (max n.shortestPhrase 1 : Nat) }

/-- `nodes.iter_mut().skip(1)`. -/
def finishNodes [Div F] [NatCast F] (boost : F) (leadingIsEntry : Bool) :
    List (TrieNode F) → List (TrieNode F)
  | [] => []
  | root :: nodes => root :: nodes.map (finishNode boost leadingIsEntry)

end Insert

section Spelling

/-- The nodes spell distinct sequences of tokens, and an edge adds its token. -/
structure Spells (paths : List (List Nat)) (nodes : List (TrieNode F)) : Prop where
  length_eq : paths.length = nodes.length
  distinct : paths.Nodup
  root : paths[0]? = some []
  closed : ∀ p tok, p ++ [tok] ∈ paths → p ∈ paths
  edges : ∀ (i : Nat) (p : List Nat) (n : TrieNode F), paths[i]? = some p → nodes[i]? = some n →
    ∀ tok c, n.children.lookup tok = some c ↔ paths[c]? = some (p ++ [tok])
  keys : ∀ n : TrieNode F, n ∈ nodes → (n.children.map Prod.fst).Nodup

/-- What a node holds, by the tokens it stands for. Nothing is granted yet. -/
structure Tracks [Zero F] (paths : List (List Nat)) (nodes : List (TrieNode F))
    (short : List Nat → Nat) (ends : List Nat → Bool) : Prop where
  spells : Spells paths nodes
  shortest : ∀ (i : Nat) (p : List Nat) (n : TrieNode F), paths[i]? = some p →
    nodes[i]? = some n → n.shortestPhrase = short p
  isEnd : ∀ (i : Nat) (p : List Nat) (n : TrieNode F), paths[i]? = some p →
    nodes[i]? = some n → n.isEnd = ends p
  depth : ∀ (i : Nat) (p : List Nat) (n : TrieNode F), paths[i]? = some p →
    nodes[i]? = some n → n.depth = p.length
  absent_short : ∀ p ∉ paths, short p = 2 ^ 64 - 1
  absent_ends : ∀ p ∉ paths, ends p = false
  unpaid : ∀ n ∈ nodes, n.grant = 0

variable {paths : List (List Nat)} {nodes : List (TrieNode F)} {short : List Nat → Nat}
  {ends : List Nat → Bool} {p : List Nat} {i j tok : Nat}

theorem Spells.lt_length (h : Spells paths nodes) (hp : paths[i]? = some p) : i < nodes.length := by
  rw [← h.length_eq]
  exact (List.getElem?_eq_some_iff.mp hp).1

theorem Spells.node (h : Spells paths nodes) (hp : paths[i]? = some p) : ∃ n, nodes[i]? = some n :=
  ⟨_, List.getElem?_eq_getElem (h.lt_length hp)⟩

theorem Spells.path (h : Spells paths nodes) {n : TrieNode F} (hn : nodes[i]? = some n) :
    ∃ p, paths[i]? = some p := by
  have hlt : i < paths.length := by
    rw [h.length_eq]
    exact (List.getElem?_eq_some_iff.mp hn).1
  exact ⟨_, List.getElem?_eq_getElem hlt⟩

theorem Spells.unique (h : Spells paths nodes) (hi : paths[i]? = some p)
    (hj : paths[j]? = some p) : i = j := by
  obtain ⟨hilt, hieq⟩ := List.getElem?_eq_some_iff.mp hi
  obtain ⟨hjlt, hjeq⟩ := List.getElem?_eq_some_iff.mp hj
  exact (h.distinct.getElem_inj_iff).mp (hieq.trans hjeq.symm)

theorem Spells.childIn_eq (h : Spells paths nodes) (hp : paths[j]? = some p) (c : Nat) :
    childIn nodes j tok = some c ↔ paths[c]? = some (p ++ [tok]) := by
  obtain ⟨n, hn⟩ := h.node hp
  rw [childIn, hn, Option.bind_some]
  exact h.edges j p n hp hn tok c

/-- A change of the nodes that keeps their edges. -/
theorem Spells.modify (h : Spells paths nodes) (f : TrieNode F → TrieNode F)
    (hf : ∀ n, (f n).children = n.children) : Spells paths (nodes.modify j f) where
  length_eq := by rw [List.length_modify, h.length_eq]
  distinct := h.distinct
  root := h.root
  closed := h.closed
  edges := by
    intro i p n hp hn tok c
    rw [List.getElem?_modify] at hn
    obtain ⟨m, hm, rfl⟩ := Option.map_eq_some_iff.mp hn
    rw [← h.edges i p m hp hm tok c]
    split_ifs
    · rw [hf]
    · rfl
  keys := by
    intro n hn
    obtain ⟨i, hi⟩ := List.mem_iff_getElem?.mp hn
    rw [List.getElem?_modify] at hi
    obtain ⟨m, hm, rfl⟩ := Option.map_eq_some_iff.mp hi
    have hkeys := h.keys m (List.mem_of_getElem? hm)
    split_ifs
    · rwa [hf]
    · exact hkeys

theorem Spells.edge_lt (h : Spells paths nodes) {n : TrieNode F} (hn : n ∈ nodes)
    {edge : Nat × Nat} (hedge : edge ∈ n.children) : edge.2 < nodes.length := by
  obtain ⟨i, hi⟩ := List.mem_iff_getElem?.mp hn
  obtain ⟨p, hp⟩ := h.path hi
  have hlookup : n.children.lookup edge.1 = some edge.2 :=
    (Table.find_eq_some (t := ⟨n.children, h.keys n hn⟩)).mpr hedge
  exact h.lt_length ((h.edges i p n hp hi edge.1 edge.2).mp hlookup)

/-- A path that is not spelled yet leaves its edge free. -/
theorem Spells.lookup_none (h : Spells paths nodes) (hp : paths[j]? = some p)
    (hnew : p ++ [tok] ∉ paths) {n : TrieNode F} (hn : nodes[j]? = some n) :
    n.children.lookup tok = none := by
  rw [Option.eq_none_iff_forall_ne_some]
  intro c hc
  exact hnew (List.mem_of_getElem? ((h.edges j p n hp hn tok c).mp hc))

/-- The edges of a node that gets one more child. -/
theorem Spells.lookup_append (h : Spells paths nodes) (hp : paths[j]? = some p)
    (hnew : p ++ [tok] ∉ paths) {n : TrieNode F} (hn : nodes[j]? = some n) (t c child : Nat) :
    (n.children ++ [(tok, child)]).lookup t = some c ↔
      paths[c]? = some (p ++ [t]) ∨ c = child ∧ p ++ [t] = p ++ [tok] := by
  rw [List.lookup_append, List.lookup_cons, List.lookup_nil]
  by_cases ht : t = tok
  · subst ht
    have hno : paths[c]? ≠ some (p ++ [t]) := fun hc => hnew (List.mem_of_getElem? hc)
    simp only [h.lookup_none hp hnew hn, beq_self_eq_true, Option.none_or, Option.some_inj,
      and_true, hno, false_or, eq_comm]
  · have hother : p ++ [t] ≠ p ++ [tok] := fun heq =>
      ht (List.singleton_inj.mp (List.append_cancel_left heq))
    simp only [beq_eq_false_iff_ne.mpr ht, Option.or_none, h.edges j p n hp hn t c, hother,
      and_false, or_false]

variable [Zero F]

/-- A change of one node, by what it does to the node's own sequence. -/
theorem Tracks.modify (h : Tracks paths nodes short ends) (hp : paths[j]? = some p)
    {f : TrieNode F → TrieNode F} {least : Nat} (isEnd : Bool)
    (hchildren : ∀ n, (f n).children = n.children) (hdepth : ∀ n, (f n).depth = n.depth)
    (hgrant : ∀ n, (f n).grant = n.grant)
    (hleast : ∀ n, n.shortestPhrase = short p → (f n).shortestPhrase = least)
    (hend : ∀ n, n.isEnd = ends p → (f n).isEnd = isEnd) :
    Tracks paths (nodes.modify j f) (Function.update short p least)
      (Function.update ends p isEnd) := by
  have hcases : ∀ (i : Nat) q n, paths[i]? = some q → (nodes.modify j f)[i]? = some n →
      ∃ m, nodes[i]? = some m ∧ ((q = p ∧ n = f m) ∨ (q ≠ p ∧ n = m)) := by
    intro i q n hq hn
    rw [List.getElem?_modify] at hn
    obtain ⟨m, hm, rfl⟩ := Option.map_eq_some_iff.mp hn
    refine ⟨m, hm, ?_⟩
    by_cases hij : j = i
    · subst hij
      exact Or.inl ⟨Option.some.inj (hq.symm.trans hp), if_pos rfl⟩
    · refine Or.inr ⟨?_, if_neg hij⟩
      rintro rfl
      exact hij (h.spells.unique hp hq)
  have hmem : p ∈ paths := List.mem_of_getElem? hp
  constructor
  · exact h.spells.modify f hchildren
  · intro i q n hq hn
    obtain ⟨m, hm, ⟨rfl, rfl⟩ | ⟨hne, rfl⟩⟩ := hcases i q n hq hn
    · rw [Function.update_self]
      exact hleast m (h.shortest i q m hq hm)
    · rw [Function.update_of_ne hne]
      exact h.shortest i q n hq hm
  · intro i q n hq hn
    obtain ⟨m, hm, ⟨rfl, rfl⟩ | ⟨hne, rfl⟩⟩ := hcases i q n hq hn
    · rw [Function.update_self]
      exact hend m (h.isEnd i q m hq hm)
    · rw [Function.update_of_ne hne]
      exact h.isEnd i q n hq hm
  · intro i q n hq hn
    obtain ⟨m, hm, ⟨_, rfl⟩ | ⟨_, rfl⟩⟩ := hcases i q n hq hn
    · rw [hdepth]
      exact h.depth i q m hq hm
    · exact h.depth i q n hq hm
  · intro q hq
    rw [Function.update_of_ne (ne_of_mem_of_not_mem hmem hq).symm]
    exact h.absent_short q hq
  · intro q hq
    rw [Function.update_of_ne (ne_of_mem_of_not_mem hmem hq).symm]
    exact h.absent_ends q hq
  · intro n hn
    obtain ⟨i, hi⟩ := List.mem_iff_getElem?.mp hn
    obtain ⟨q, hq⟩ := (h.spells.modify f hchildren).path hi
    obtain ⟨m, hm, ⟨_, rfl⟩ | ⟨_, rfl⟩⟩ := hcases i q n hq hi
    · rw [hgrant]
      exact h.unpaid m (List.mem_of_getElem? hm)
    · exact h.unpaid n (List.mem_of_getElem? hm)

theorem Spells.keys_addChild (h : Spells paths nodes) (hp : paths[j]? = some p)
    (hnew : p ++ [tok] ∉ paths) {n : TrieNode F} (hn : n ∈ Biaser.addChild nodes j tok) :
    (n.children.map Prod.fst).Nodup := by
  rcases List.mem_append.mp hn with hn | hn
  · obtain ⟨i, hi⟩ := List.mem_iff_getElem?.mp hn
    rw [List.getElem?_modify] at hi
    obtain ⟨m, hm, rfl⟩ := Option.map_eq_some_iff.mp hi
    have hkeys := h.keys m (List.mem_of_getElem? hm)
    split_ifs with hnode
    · subst hnode
      rw [List.map_append]
      refine List.nodup_append.mpr ⟨hkeys, List.nodup_singleton _, ?_⟩
      rintro t ht u hu rfl
      rw [List.map_cons, List.map_nil, List.mem_singleton] at hu
      subst hu
      obtain ⟨e, he, rfl⟩ := List.mem_map.mp ht
      have hne := List.lookup_eq_none_iff.mp (h.lookup_none hp hnew hm) e he
      simp at hne
    · exact hkeys
  · rw [List.mem_singleton.mp hn]
    exact List.nodup_nil

/-- A node for one more sequence. -/
theorem Spells.addChild (h : Spells paths nodes) (hp : paths[j]? = some p)
    (hnew : p ++ [tok] ∉ paths) : Spells (paths ++ [p ++ [tok]]) (addChild nodes j tok) := by
  have hlength := h.length_eq
  constructor
  · rw [Biaser.addChild, List.length_append, List.length_append, List.length_modify, h.length_eq]
    rfl
  · refine List.nodup_append.mpr ⟨h.distinct, List.nodup_singleton _, ?_⟩
    rintro q hq r hr rfl
    exact hnew (List.mem_singleton.mp hr ▸ hq)
  · exact Indexed.getElem?_concat_left h.root
  · intro q t hq
    rw [List.mem_append, List.mem_singleton] at hq ⊢
    rcases hq with hq | hq
    · exact Or.inl (h.closed q t hq)
    · exact Or.inl (List.append_inj_left' hq rfl ▸ List.mem_of_getElem? hp)
  · intro i q n hq hn t c
    rw [Biaser.addChild, Indexed.getElem?_concat_iff, List.length_modify] at hn
    rw [Indexed.getElem?_concat_iff] at hq ⊢
    rcases hn with hn | ⟨rfl, rfl⟩
    · have hi : i < nodes.length := by
        have := (List.getElem?_eq_some_iff.mp hn).1
        rwa [List.length_modify] at this
      replace hq := hq.resolve_right fun hand => absurd (hand.1.trans hlength) hi.ne
      rw [List.getElem?_modify] at hn
      obtain ⟨m, hm, rfl⟩ := Option.map_eq_some_iff.mp hn
      rw [hlength]
      by_cases hnode : j = i
      · subst hnode
        obtain rfl : p = q := Option.some.inj (hp.symm.trans hq)
        rw [if_pos rfl]
        exact h.lookup_append hp hnew hm t c nodes.length
      · have hother : q ++ [t] ≠ p ++ [tok] := by
          intro heq
          obtain rfl := List.append_inj_left' heq rfl
          exact hnode (h.unique hp hq)
        simp only [if_neg hnode, h.edges i q m hq hm t c, hother, and_false, or_false]
    · -- the new node has no children, and nothing longer is spelled
      replace hq : q = p ++ [tok] := by
        rcases hq with hq | hq
        · exact absurd (h.lt_length hq) (Nat.lt_irrefl _)
        · exact hq.2
      subst hq
      have hclosed : paths[c]? ≠ some (p ++ [tok] ++ [t]) := fun hc =>
        hnew (h.closed _ t (List.mem_of_getElem? hc))
      simpa [TrieNode.new] using hclosed
  · exact fun n hn => h.keys_addChild hp hnew hn

theorem Tracks.addChild (h : Tracks paths nodes short ends) (hp : paths[j]? = some p)
    (hnew : p ++ [tok] ∉ paths) :
    Tracks (paths ++ [p ++ [tok]]) (addChild nodes j tok) short ends := by
  obtain ⟨parent, hparent⟩ := h.spells.node hp
  have hcases : ∀ (i : Nat) q (n : TrieNode F), (paths ++ [p ++ [tok]])[i]? = some q →
      (Biaser.addChild nodes j tok)[i]? = some n →
      (∃ m : TrieNode F, paths[i]? = some q ∧ nodes[i]? = some m ∧
        n.shortestPhrase = m.shortestPhrase ∧ n.isEnd = m.isEnd ∧ n.depth = m.depth ∧
        n.grant = m.grant) ∨
      (q = p ++ [tok] ∧ n = TrieNode.new (parent.depth + 1)) := by
    intro i q n hq hn
    rw [Biaser.addChild, Indexed.getElem?_concat_iff, List.length_modify, hparent] at hn
    rw [Indexed.getElem?_concat_iff] at hq
    rcases hn with hn | ⟨rfl, rfl⟩
    · have hi : i < nodes.length := by
        have := (List.getElem?_eq_some_iff.mp hn).1
        rwa [List.length_modify] at this
      rw [List.getElem?_modify] at hn
      obtain ⟨m, hm, rfl⟩ := Option.map_eq_some_iff.mp hn
      replace hq := hq.resolve_right fun hand =>
        absurd (hand.1.trans h.spells.length_eq) hi.ne
      refine Or.inl ⟨m, hq, hm, ?_⟩
      split_ifs <;> exact ⟨rfl, rfl, rfl, rfl⟩
    · rcases hq with hq | hq
      · exact absurd (h.spells.lt_length hq) (Nat.lt_irrefl _)
      · exact Or.inr ⟨hq.2, rfl⟩
  constructor
  · exact h.spells.addChild hp hnew
  · intro i q n hq hn
    obtain ⟨m, hqm, hm, hshort, _, _, _⟩ | ⟨rfl, rfl⟩ := hcases i q n hq hn
    · rw [hshort, h.shortest i q m hqm hm]
    · exact (h.absent_short _ hnew).symm
  · intro i q n hq hn
    obtain ⟨m, hqm, hm, _, hend, _, _⟩ | ⟨rfl, rfl⟩ := hcases i q n hq hn
    · rw [hend, h.isEnd i q m hqm hm]
    · exact (h.absent_ends _ hnew).symm
  · intro i q n hq hn
    obtain ⟨m, hqm, hm, _, _, hdepth, _⟩ | ⟨rfl, rfl⟩ := hcases i q n hq hn
    · rw [hdepth, h.depth i q m hqm hm]
    · rw [List.length_append, ← h.depth j p parent hp hparent]
      rfl
  · intro q hq
    exact h.absent_short q fun hmem => hq (List.mem_append_left _ hmem)
  · intro q hq
    exact h.absent_ends q fun hmem => hq (List.mem_append_left _ hmem)
  · intro n hn
    obtain ⟨i, hi⟩ := List.mem_iff_getElem?.mp hn
    obtain ⟨q, hq⟩ := (h.spells.addChild hp hnew).path hi
    obtain ⟨m, _, hm, _, _, _, hgrant⟩ | ⟨_, rfl⟩ := hcases i q n hq hi
    · rw [hgrant]
      exact h.unpaid m (List.mem_of_getElem? hm)
    · rfl

/-- One token: its node is there or is made, and hears of the phrase. -/
theorem Tracks.insertToken (h : Tracks paths nodes short ends) (hp : paths[j]? = some p)
    (scored tok : Nat) :
    ∃ paths', Tracks paths' (insertToken scored (nodes, j) tok).1
        (Function.update short (p ++ [tok]) (min (short (p ++ [tok])) scored)) ends ∧
      paths'[(Biaser.insertToken scored (nodes, j) tok).2]? = some (p ++ [tok]) ∧
      ∀ q, q ∈ paths' ↔ q ∈ paths ∨ q = p ++ [tok] := by
  have hnote : ∀ {paths nodes c}, Tracks paths nodes short ends →
      paths[c]? = some (p ++ [tok]) →
      Tracks paths (nodes.modify c fun n : TrieNode F =>
          { n with shortestPhrase := min n.shortestPhrase scored })
        (Function.update short (p ++ [tok]) (min (short (p ++ [tok])) scored)) ends := by
    intro paths nodes c htracks hc
    have hmodify := htracks.modify hc
      (f := fun n => { n with shortestPhrase := min n.shortestPhrase scored })
      (ends (p ++ [tok])) (fun _ => rfl) (fun _ => rfl) (fun _ => rfl)
      (fun n hn => congrArg (min · scored) hn) (fun _ hn => hn)
    rwa [Function.update_eq_self] at hmodify
  unfold Biaser.insertToken
  cases hchild : childIn nodes j tok with
  | some c =>
      have hc := (h.spells.childIn_eq hp c).mp hchild
      refine ⟨paths, hnote h hc, hc, fun q => ⟨Or.inl, ?_⟩⟩
      rintro (hq | rfl)
      · exact hq
      · exact List.mem_of_getElem? hc
  | none =>
      have hnew : p ++ [tok] ∉ paths := by
        intro hmem
        obtain ⟨c, hc⟩ := List.mem_iff_getElem?.mp hmem
        rw [(h.spells.childIn_eq hp c).mpr hc] at hchild
        cases hchild
      have hlast : (paths ++ [p ++ [tok]])[nodes.length]? = some (p ++ [tok]) :=
        Indexed.getElem?_concat_iff.mpr (Or.inr ⟨h.spells.length_eq.symm, rfl⟩)
      refine ⟨_, hnote (h.addChild hp hnew) hlast, hlast, fun q => ?_⟩
      rw [List.mem_append, List.mem_singleton]

/-- The phrases heard of by the nodes of a new phrase. -/
def noted (seq : List Nat) (scored : Nat) (short : List Nat → Nat) (q : List Nat) : Nat :=
  if q ≠ [] ∧ q <+: seq then min (short q) scored else short q

theorem noted_nil (scored : Nat) (short : List Nat → Nat) : noted [] scored short = short := by
  ext q
  rw [noted, if_neg]
  rintro ⟨hne, hstarts⟩
  exact hne (List.prefix_nil.mp hstarts)

theorem noted_concat (seq : List Nat) (tok scored : Nat) (short : List Nat → Nat) :
    Function.update (noted seq scored short) (seq ++ [tok])
        (min (noted seq scored short (seq ++ [tok])) scored) =
      noted (seq ++ [tok]) scored short := by
  have hlonger : ¬seq ++ [tok] <+: seq := fun hstarts => by simpa using hstarts.length_le
  ext q
  by_cases hq : q = seq ++ [tok]
  · subst hq
    rw [Function.update_self, noted, noted, if_neg fun hand => hlonger hand.2,
      if_pos ⟨by simp, List.prefix_rfl⟩]
  · rw [Function.update_of_ne hq]
    simp only [noted, List.prefix_concat_iff, hq, false_or]

/-- The tokens of a phrase one by one. -/
theorem Tracks.insertTokens (h : Tracks paths nodes short ends) (scored : Nat) (seq : List Nat) :
    ∃ paths', Tracks paths' (seq.foldl (Biaser.insertToken scored) (nodes, 0)).1
        (noted seq scored short) ends ∧
      paths'[(seq.foldl (Biaser.insertToken scored) (nodes, 0)).2]? = some seq ∧
      ∀ q, q ∈ paths' ↔ q ∈ paths ∨ q <+: seq := by
  induction seq using List.reverseRecOn with
  | nil =>
      refine ⟨paths, by rwa [noted_nil], h.spells.root, fun q => ⟨Or.inl, ?_⟩⟩
      rintro (hq | hq)
      · exact hq
      · rw [List.prefix_nil.mp hq]
        exact List.mem_of_getElem? h.spells.root
  | append_singleton seq tok ih =>
      obtain ⟨paths', htracks, hnode, hpaths⟩ := ih
      obtain ⟨paths'', htracks', hnode', hpaths'⟩ := htracks.insertToken hnode scored tok
      rw [noted_concat] at htracks'
      rw [List.foldl_append, List.foldl_cons, List.foldl_nil]
      refine ⟨paths'', htracks', hnode', fun q => ?_⟩
      rw [hpaths', hpaths, List.prefix_concat_iff, or_assoc, or_comm (a := q <+: seq)]

/-- The scored length of the shortest phrase that begins with `q`. -/
def shortestOf (entryTokens : Nat) (sequences : List (List Nat)) (q : List Nat) : Nat :=
  if q = [] then 2 ^ 64 - 1
  else ((sequences.filter (q <+: ·)).map (scoredLength entryTokens)).foldl min (2 ^ 64 - 1)

def endsAt (sequences : List (List Nat)) (q : List Nat) : Bool := q ≠ [] ∧ q ∈ sequences

theorem shortestOf_concat (entry : Nat) (sequences : List (List Nat)) (seq : List Nat) :
    shortestOf entry (sequences ++ [seq]) =
      noted seq (scoredLength entry seq) (shortestOf entry sequences) := by
  ext q
  unfold noted shortestOf
  by_cases hq : q = []
  · rw [if_pos hq, if_pos hq, if_neg fun hand => hand.1 hq]
  · rw [if_neg hq, if_neg hq, List.filter_append]
    by_cases hstarts : q <+: seq
    · rw [if_pos ⟨hq, hstarts⟩, List.filter_cons_of_pos (by simpa using hstarts), List.filter_nil,
        List.map_append, List.foldl_append]
      rfl
    · rw [if_neg fun hand => hstarts hand.2, List.filter_cons_of_neg (by simpa using hstarts),
        List.filter_nil, List.append_nil]

theorem endsAt_concat {seq : List Nat} (hseq : seq ≠ []) (sequences : List (List Nat)) :
    Function.update (endsAt sequences) seq true = endsAt (sequences ++ [seq]) := by
  ext q
  by_cases hq : q = seq
  · subst hq
    rw [Function.update_self]
    simp [endsAt, hseq]
  · rw [Function.update_of_ne hq]
    simp [endsAt, hq]

theorem tracks_root (entry : Nat) :
    Tracks [[]] [(TrieNode.new 0 : TrieNode F)] (shortestOf entry []) (endsAt []) := by
  have hroot : ∀ {i : Nat} {n : TrieNode F}, [(TrieNode.new 0 : TrieNode F)][i]? = some n →
      n = TrieNode.new 0 := fun hn => List.mem_singleton.mp (List.mem_of_getElem? hn)
  have hnil : ∀ {i : Nat} {q : List Nat}, [([] : List Nat)][i]? = some q → q = [] :=
    fun hq => List.mem_singleton.mp (List.mem_of_getElem? hq)
  have hshort : ∀ q, shortestOf entry [] q = 2 ^ 64 - 1 := fun q => by simp [shortestOf]
  refine ⟨⟨rfl, List.nodup_singleton _, rfl, ?_, ?_, ?_⟩, ?_, ?_, ?_, ?_, ?_, ?_⟩
  · intro p tok hp
    simp at hp
  · intro i p n hp hn tok c
    rw [hroot hn, hnil hp]
    have hne : [([] : List Nat)][c]? ≠ some ([] ++ [tok]) := fun hc => by simpa using hnil hc
    simpa [TrieNode.new] using hne
  · intro n hn
    rw [List.mem_singleton.mp hn]
    exact List.nodup_nil
  · intro i p n hp hn
    rw [hroot hn, hshort]
    rfl
  · intro i p n hp hn
    rw [hroot hn, hnil hp]
    rfl
  · intro i p n hp hn
    rw [hroot hn, hnil hp]
    rfl
  · exact fun p _ => hshort p
  · intro p _
    simp [endsAt]
  · intro n hn
    rw [List.mem_singleton.mp hn]
    rfl

/-- The trie holds what is read off the phrases. -/
theorem insertAll_tracks (sequences : List (List Nat)) (leadingIsEntry : Bool) :
    ∃ paths, Tracks paths (insertAll (F := F) sequences leadingIsEntry)
        (shortestOf (entryTokens leadingIsEntry) sequences) (endsAt sequences) ∧
      ∀ q, q ∈ paths ↔ q = [] ∨ ∃ seq ∈ sequences, q <+: seq := by
  induction sequences using List.reverseRecOn with
  | nil => exact ⟨[[]], tracks_root _, fun q => by simp⟩
  | append_singleton sequences seq ih =>
      obtain ⟨paths, htracks, hpaths⟩ := ih
      have hinsert : insertAll (F := F) (sequences ++ [seq]) leadingIsEntry =
          insertSequence (entryTokens leadingIsEntry) (insertAll sequences leadingIsEntry) seq := by
        rw [insertAll, List.foldl_append]
        rfl
      have hmem : ∀ q, (q = [] ∨ ∃ s ∈ sequences ++ [seq], q <+: s) ↔
          (q = [] ∨ ∃ s ∈ sequences, q <+: s) ∨ q <+: seq := by
        intro q
        simp only [List.mem_append, List.mem_singleton, or_and_right, exists_or, exists_eq_left,
          or_assoc]
      simp only [hinsert, hmem]
      rw [shortestOf_concat]
      unfold insertSequence
      cases hseq : seq.isEmpty with
      | true =>
          obtain rfl := List.isEmpty_iff.mp hseq
          have hends : endsAt (sequences ++ [[]]) = endsAt sequences := by
            ext q
            by_cases hq : q = [] <;> simp [endsAt, hq]
          refine ⟨paths, ?_, fun q => ?_⟩
          · rw [noted_nil, hends]
            exact htracks
          · rw [hpaths, List.prefix_nil]
            exact ⟨Or.inl, fun hor => hor.elim id Or.inl⟩
      | false =>
          have hne : seq ≠ [] := fun hnil => by simp [hnil] at hseq
          obtain ⟨paths', htracks', hnode, hpaths'⟩ :=
            htracks.insertTokens (scoredLength (entryTokens leadingIsEntry) seq) seq
          have hend := htracks'.modify hnode (f := fun n => { n with isEnd := true })
            true (fun _ => rfl) (fun _ => rfl) (fun _ => rfl) (fun _ hn => hn)
            (fun _ _ => rfl)
          rw [Function.update_eq_self, endsAt_concat hne] at hend
          refine ⟨paths', hend, fun q => ?_⟩
          rw [hpaths', hpaths]

/-- A finished trie spells what the unfinished one does. -/
theorem getElem?_finishNodes [Div F] [NatCast F] (boost : F) (leadingIsEntry : Bool) (i : Nat) :
    (finishNodes boost leadingIsEntry nodes)[i]? =
      (nodes[i]?).map fun n => if i = 0 then n else finishNode boost leadingIsEntry n := by
  rcases nodes with _ | ⟨root, rest⟩
  · rfl
  · cases i with
    | zero => rfl
    | succ i => simp [finishNodes]

theorem Spells.finish [Div F] [NatCast F] (h : Spells paths nodes) (boost : F)
    (leadingIsEntry : Bool) : Spells paths (finishNodes boost leadingIsEntry nodes) where
  length_eq := by
    rw [h.length_eq]
    cases nodes <;> simp [finishNodes]
  distinct := h.distinct
  root := h.root
  closed := h.closed
  edges := by
    intro i p n hp hn tok c
    rw [getElem?_finishNodes] at hn
    obtain ⟨m, hm, rfl⟩ := Option.map_eq_some_iff.mp hn
    rw [← h.edges i p m hp hm tok c]
    split_ifs <;> rfl
  keys := by
    intro n hn
    obtain ⟨i, hi⟩ := List.mem_iff_getElem?.mp hn
    rw [getElem?_finishNodes] at hi
    obtain ⟨m, hm, rfl⟩ := Option.map_eq_some_iff.mp hi
    have hkeys := h.keys m (List.mem_of_getElem? hm)
    split_ifs <;> exact hkeys

end Spelling

section Walk

variable [Zero F]

/-- The node the tokens lead to from the root. -/
def walk (b : Biaser F) (tokens : List Nat) : Option Nat :=
  tokens.foldl (fun node tok => node.bind fun i => b.child? i tok) (some 0)

theorem walk_concat (b : Biaser F) (tokens : List Nat) (tok : Nat) :
    b.walk (tokens ++ [tok]) = (b.walk tokens).bind fun i => b.child? i tok := by
  rw [walk, List.foldl_append]
  rfl

end Walk

section Build

variable [Zero F] [Div F] [NatCast F]

theorem built_spells (boost : F) (sequences : List (List Nat)) (leadingIsEntry : Bool) :
    ∃ paths, Spells paths
      (finishNodes boost leadingIsEntry (insertAll sequences leadingIsEntry)) := by
  obtain ⟨paths, htracks, _⟩ := insertAll_tracks (F := F) sequences leadingIsEntry
  exact ⟨paths, htracks.spells.finish boost leadingIsEntry⟩

/-- The glossary of the phrases that have a token; none without one. -/
def build (sequences : List (List Nat)) (boost : F) (leadingIsEntry : Bool) : Option (Biaser F) :=
  if sequences.all List.isEmpty then none
  else some {
    nodes := finishNodes boost leadingIsEntry (insertAll sequences leadingIsEntry)
    boost := boost
    phraseCount := sequences.countP fun seq => !seq.isEmpty
    nodes_pos := by
      obtain ⟨paths, hspells⟩ := built_spells boost sequences leadingIsEntry
      exact hspells.lt_length hspells.root
    children_lt := by
      intro n hn edge hedge
      obtain ⟨paths, hspells⟩ := built_spells boost sequences leadingIsEntry
      exact hspells.edge_lt hn hedge
    keys_nodup := by
      intro n hn
      obtain ⟨paths, hspells⟩ := built_spells boost sequences leadingIsEntry
      exact hspells.keys n hn }

/-- The tokens a phrase begins with. -/
def Begins (sequences : List (List Nat)) (tokens : List Nat) : Prop :=
  tokens = [] ∨ ∃ seq ∈ sequences, tokens <+: seq

theorem Begins.concat {sequences : List (List Nat)} {tokens : List Nat} {tok : Nat}
    (h : Begins sequences (tokens ++ [tok])) : Begins sequences tokens := by
  rcases h with hnil | ⟨seq, hseq, hstarts⟩
  · simp at hnil
  · exact Or.inr ⟨seq, hseq, (List.prefix_append tokens [tok]).trans hstarts⟩

/-- The grant of a node by the tokens it stands for. -/
def grantOf (sequences : List (List Nat)) (boost : F) (leadingIsEntry : Bool)
    (tokens : List Nat) : F :=
  if tokens = [] ∨ (leadingIsEntry = true ∧ tokens.length = 1) then 0
  else boost / (max (shortestOf (entryTokens leadingIsEntry) sequences tokens) 1 : Nat)

/-- A compiled glossary, read off its phrases. -/
structure Compiled (b : Biaser F) (sequences : List (List Nat)) (boost : F)
    (leadingIsEntry : Bool) : Prop where
  boost_eq : b.boost = boost
  walk_iff : ∀ tokens, (∃ i, b.walk tokens = some i) ↔ Begins sequences tokens
  injective : ∀ {tokens tokens' i}, b.walk tokens = some i → b.walk tokens' = some i →
    tokens = tokens'
  isEnd_iff : ∀ {tokens i}, b.walk tokens = some i →
    ((b.node i).isEnd = true ↔ tokens ≠ [] ∧ tokens ∈ sequences)
  grant_eq : ∀ {tokens i}, b.walk tokens = some i →
    (b.node i).grant = grantOf sequences boost leadingIsEntry tokens

/-- The nodes of a glossary, by the tokens they stand for. -/
theorem build_nodes {sequences : List (List Nat)} {boost : F} {leadingIsEntry : Bool}
    {b : Biaser F} (hbuild : build sequences boost leadingIsEntry = some b) :
    b.boost = boost ∧ ∃ paths,
      Tracks paths (insertAll (F := F) sequences leadingIsEntry)
        (shortestOf (entryTokens leadingIsEntry) sequences) (endsAt sequences) ∧
      (∀ q, q ∈ paths ↔ q = [] ∨ ∃ seq ∈ sequences, q <+: seq) ∧
      (∀ tokens i, b.walk tokens = some i ↔ paths[i]? = some tokens) ∧
      ∀ i p, paths[i]? = some p →
        ∃ m, (insertAll (F := F) sequences leadingIsEntry)[i]? = some m ∧
          b.node i = if i = 0 then m else finishNode boost leadingIsEntry m := by
  obtain ⟨paths, htracks, hpaths⟩ := insertAll_tracks (F := F) sequences leadingIsEntry
  have hspells := htracks.spells.finish boost leadingIsEntry
  unfold build at hbuild
  split_ifs at hbuild
  have hnodes : b.nodes = finishNodes boost leadingIsEntry (insertAll sequences leadingIsEntry) := by
    rw [← Option.some.inj hbuild]
  have hboost : b.boost = boost := by rw [← Option.some.inj hbuild]
  rw [← hnodes] at hspells
  refine ⟨hboost, paths, htracks, hpaths, ?_, ?_⟩
  · intro tokens
    induction tokens using List.reverseRecOn with
    | nil =>
        intro i
        constructor
        · intro hi
          cases hi
          exact hspells.root
        · intro hi
          rw [hspells.unique hi hspells.root]
          rfl
    | append_singleton tokens tok ih =>
        intro i
        have hchild : ∀ {j}, paths[j]? = some tokens →
            (b.child? j tok = some i ↔ paths[i]? = some (tokens ++ [tok])) := by
          intro j hj
          obtain ⟨n, hn⟩ := hspells.node hj
          rw [child?, node, List.getD_eq_getElem?_getD, hn]
          exact hspells.edges j tokens n hj hn tok i
        rw [walk_concat, Option.bind_eq_some_iff]
        constructor
        · rintro ⟨j, hj, hi⟩
          exact (hchild ((ih j).mp hj)).mp hi
        · intro hi
          obtain ⟨j, hj⟩ := List.mem_iff_getElem?.mp
            (hspells.closed tokens tok (List.mem_of_getElem? hi))
          exact ⟨j, (ih j).mpr hj, (hchild hj).mpr hi⟩
  · intro i p hp
    obtain ⟨m, hm⟩ := htracks.spells.node hp
    refine ⟨m, hm, ?_⟩
    rw [node, List.getD_eq_getElem?_getD, hnodes, getElem?_finishNodes, hm]
    rfl

theorem build_compiled {sequences : List (List Nat)} {boost : F} {leadingIsEntry : Bool}
    {b : Biaser F} (hbuild : build sequences boost leadingIsEntry = some b) :
    Compiled b sequences boost leadingIsEntry := by
  obtain ⟨hboost, paths, htracks, hpaths, hwalk, hnode⟩ := build_nodes hbuild
  refine ⟨hboost, ?_, ?_, ?_, ?_⟩
  · intro tokens
    simp only [hwalk, ← List.mem_iff_getElem?]
    exact hpaths tokens
  · intro tokens tokens' i hi hi'
    exact Option.some.inj (((hwalk _ _).mp hi).symm.trans ((hwalk _ _).mp hi'))
  · intro tokens i hi
    have hp := (hwalk _ _).mp hi
    obtain ⟨m, hm, hfinish⟩ := hnode i tokens hp
    have hend : (b.node i).isEnd = m.isEnd := by
      rw [hfinish]
      split_ifs <;> rfl
    rw [hend, htracks.isEnd i tokens m hp hm, endsAt, decide_eq_true_eq]
  · intro tokens i hi
    have hp := (hwalk _ _).mp hi
    obtain ⟨m, hm, hfinish⟩ := hnode i tokens hp
    have hroot : i = 0 ↔ tokens = [] := by
      constructor
      · rintro rfl
        exact Option.some.inj (hp.symm.trans htracks.spells.root)
      · rintro rfl
        exact htracks.spells.unique hp htracks.spells.root
    rw [hfinish, grantOf]
    by_cases hi0 : i = 0
    · rw [if_pos hi0, if_pos (Or.inl (hroot.mp hi0))]
      exact htracks.unpaid m (List.mem_of_getElem? hm)
    · simp [if_neg hi0, finishNode, htracks.depth i tokens m hp hm,
        htracks.shortest i tokens m hp hm, mt hroot.mpr hi0]

/-- The entries are the nodes of the first tokens. -/
theorem build_isEntry {sequences : List (List Nat)} {boost : F} {leadingIsEntry : Bool}
    {b : Biaser F} (hbuild : build sequences boost leadingIsEntry = some b) {tokens : List Nat}
    {i : Nat} (hwalk : b.walk tokens = some i) (hne : tokens ≠ []) :
    (b.node i).isEntry = (leadingIsEntry && tokens.length == 1) := by
  obtain ⟨_, paths, htracks, _, hpaths, hnode⟩ := build_nodes hbuild
  have hp := (hpaths _ _).mp hwalk
  obtain ⟨m, hm, hfinish⟩ := hnode i tokens hp
  have hi : i ≠ 0 := by
    rintro rfl
    exact hne (Option.some.inj (hp.symm.trans htracks.spells.root))
  rw [hfinish, if_neg hi, finishNode, htracks.depth i tokens m hp hm]

end Build

end Biaser

end Gigastt
