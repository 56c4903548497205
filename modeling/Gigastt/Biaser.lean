import Mathlib

/-!
The hotword prefix trie, what the beam search pays for walking it, and the prefixes a greedy decode
has matched. The root is node 0; an edge map is its list of edges.
-/

namespace Gigastt

structure TrieNode (F : Type) where
  /-- Edges keyed by token id, with the child's index. -/
  children : List (Nat × Nat)
  isEnd : Bool
  shortestPhrase : Nat
  depth : Nat
  isEntry : Bool
  grant : F

def TrieNode.new {F : Type} [Zero F] (depth : Nat) : TrieNode F :=
  { children := [], isEnd := false, shortestPhrase := 2 ^ 64 - 1, depth, isEntry := false, grant := 0 }

/-- A compiled glossary. Its edges stay inside the trie. -/
structure Biaser (F : Type) where
  nodes : List (TrieNode F)
  boost : F
  phraseCount : Nat
  nodes_pos : 0 < nodes.length
  children_lt : ∀ node ∈ nodes, ∀ edge ∈ node.children, edge.2 < nodes.length
  keys_nodup : ∀ node ∈ nodes, (node.children.map Prod.fst).Nodup

/-- Where one beam sits in the trie, and the boost granted for the phrase under way. -/
structure BiasPath (F : Type) where
  node : Nat
  pending : F
  deriving DecidableEq

/-- The trie nodes whose prefix the recent tokens matched. -/
structure BiasState where
  active : List Nat
  deriving DecidableEq, Repr

def TrieNode.map {F G : Type} (f : F → G) (n : TrieNode F) : TrieNode G :=
  { children := n.children, isEnd := n.isEnd, shortestPhrase := n.shortestPhrase, depth := n.depth,
    isEntry := n.isEntry, grant := f n.grant }

def BiasPath.map {F G : Type} (f : F → G) (path : BiasPath F) : BiasPath G :=
  { node := path.node, pending := f path.pending }

def BiasPath.default {F : Type} [Zero F] : BiasPath F := { node := 0, pending := 0 }

namespace Biaser

variable {F : Type}

section Node

variable [Zero F]

/-- `nodes[i]`. No index a state or a path holds lies outside the trie. -/
def node (b : Biaser F) (i : Nat) : TrieNode F := b.nodes.getD i (TrieNode.new 0)

/-- `nodes[i].children.get(&tok)`. -/
def child? (b : Biaser F) (i tok : Nat) : Option Nat := (b.node i).children.lookup tok

theorem node_keys_nodup (b : Biaser F) (i : Nat) :
    ((b.node i).children.map Prod.fst).Nodup := by
  by_cases hi : i < b.nodes.length
  · rw [node, List.getD_eq_getElem _ _ hi]
    exact b.keys_nodup _ (List.getElem_mem hi)
  · rw [node, List.getD_eq_default _ _ (Nat.le_of_not_lt hi)]
    exact List.nodup_nil

theorem child?_lt {b : Biaser F} {i tok child : Nat} (h : b.child? i tok = some child) :
    child < b.nodes.length := by
  have hmem : (tok, child) ∈ (b.node i).children := by
    obtain ⟨l₁, l₂, heq, _⟩ := List.lookup_eq_some_iff.mp h
    rw [heq]
    exact List.mem_append_right _ List.mem_cons_self
  by_cases hi : i < b.nodes.length
  · apply b.children_lt (b.node i) _ _ hmem
    rw [node, List.getD_eq_getElem _ _ hi]
    exact List.getElem_mem hi
  · rw [node, List.getD_eq_default _ _ (Nat.le_of_not_lt hi)] at hmem
    cases hmem

end Node

section Score

variable [Zero F] [Add F] [Neg F]

/-- The grant of `child`, and the path on it: a finished phrase owes nothing back. -/
def enter (b : Biaser F) (path : BiasPath F) (child : Nat) : F × BiasPath F :=
  let share := (b.node child).grant
  (share, { node := child, pending := if (b.node child).isEnd then 0 else path.pending + share })

/-- The score of emitting `tok` from `path`, and the path that follows. -/
def scoreToken (b : Biaser F) (path : BiasPath F) (tok : Nat) : F × BiasPath F :=
  match b.child? path.node tok with
  | some child => b.enter path child
  | none =>
      let refund := -path.pending
      match b.child? 0 tok with
      | some child => (refund + (b.enter .default child).1, (b.enter .default child).2)
      | none => (refund, .default)

theorem scoreToken_lt (b : Biaser F) (path : BiasPath F) (tok : Nat) :
    (b.scoreToken path tok).2.node < b.nodes.length := by
  unfold scoreToken
  split
  case h_1 child hchild => exact child?_lt hchild
  case h_2 =>
    split
    case h_1 child hchild => exact child?_lt hchild
    case h_2 => exact b.nodes_pos

/-- The scores of a sequence of tokens from the root, added up, and the path that follows. -/
def scoreLabels (b : Biaser F) (labels : List Nat) : F × BiasPath F :=
  labels.foldl (fun acc tok => (acc.1 + (b.scoreToken acc.2 tok).1, (b.scoreToken acc.2 tok).2))
    (0, .default)

theorem scoreLabels_concat (b : Biaser F) (labels : List Nat) (tok : Nat) :
    b.scoreLabels (labels ++ [tok])
      = ((b.scoreLabels labels).1 + (b.scoreToken (b.scoreLabels labels).2 tok).1,
          (b.scoreToken (b.scoreLabels labels).2 tok).2) := by
  simp only [scoreLabels, List.foldl_append, List.foldl_cons, List.foldl_nil]

/-- The tokens that extend the phrase under way, and those that start one. -/
def continuations (b : Biaser F) (path : BiasPath F) : List Nat :=
  (b.node path.node).children.map Prod.fst ++
    if path.node ≠ 0 then (b.node 0).children.map Prod.fst else []

end Score

section Greedy

variable [Zero F]

def newState (_ : Biaser F) : BiasState := { active := [0] }

/-- Adds the boost for one edge, unless it is the entry marker's. -/
def boostEdge [Add F] (b : Biaser F) (logits : List F) (edge : Nat × Nat) : List F :=
  if edge.1 < logits.length ∧ (b.node edge.2).isEntry = false then
    logits.modify edge.1 (· + b.boost)
  else logits

/-- Adds the boost to every token that extends an active prefix. -/
def boostLogits [Add F] (b : Biaser F) (state : BiasState) (logits : List F) : List F :=
  state.active.foldl (fun logits i => (b.node i).children.foldl b.boostEdge logits) logits

/-- `next.push(child)` unless it is there already. -/
def pushNew (next : List Nat) (child : Nat) : List Nat :=
  if child ∈ next then next else next ++ [child]

/-- The children `tok` reaches from the active nodes, each once, and the root. -/
def advance (b : Biaser F) (state : BiasState) (tok : Nat) : BiasState :=
  { active := pushNew ((state.active.filterMap fun i => b.child? i tok).foldl pushNew []) 0 }

theorem mem_pushNew {next : List Nat} {child i : Nat} :
    i ∈ pushNew next child ↔ i ∈ next ∨ i = child := by
  unfold pushNew
  split
  case isTrue h =>
    refine ⟨Or.inl, ?_⟩
    rintro (hi | rfl)
    · exact hi
    · exact h
  case isFalse h => rw [List.mem_append, List.mem_singleton]

theorem mem_foldl_pushNew {l next : List Nat} {i : Nat} :
    i ∈ l.foldl pushNew next ↔ i ∈ next ∨ i ∈ l := by
  induction l generalizing next with
  | nil => simp only [List.foldl_nil, List.not_mem_nil, or_false]
  | cons a l ih => rw [List.foldl_cons, ih, mem_pushNew, List.mem_cons, or_assoc]

theorem mem_active_advance {b : Biaser F} {state : BiasState} {tok i : Nat} :
    i ∈ (b.advance state tok).active ↔ (∃ n ∈ state.active, b.child? n tok = some i) ∨ i = 0 := by
  simp only [advance, mem_pushNew, mem_foldl_pushNew, List.not_mem_nil, false_or,
    List.mem_filterMap]

theorem advance_lt (b : Biaser F) (state : BiasState) (tok : Nat) :
    ∀ i ∈ (b.advance state tok).active, i < b.nodes.length := by
  intro i hi
  rcases mem_active_advance.mp hi with ⟨n, _, hchild⟩ | rfl
  · exact child?_lt hchild
  · exact b.nodes_pos

end Greedy

section Map

variable {G : Type}

/-- The same glossary over other numbers. -/
def map (f : F → G) (b : Biaser F) : Biaser G where
  nodes := b.nodes.map (TrieNode.map f)
  boost := f b.boost
  phraseCount := b.phraseCount
  nodes_pos := by
    rw [List.length_map]
    exact b.nodes_pos
  children_lt := by
    intro node hnode edge hedge
    obtain ⟨n, hn, rfl⟩ := List.mem_map.mp hnode
    rw [List.length_map]
    exact b.children_lt n hn edge hedge
  keys_nodup := by
    intro node hnode
    obtain ⟨n, hn, rfl⟩ := List.mem_map.mp hnode
    exact b.keys_nodup n hn

variable [Zero F] [Zero G] {f : F → G}

theorem node_map (hzero : f 0 = 0) (b : Biaser F) (i : Nat) :
    (b.map f).node i = (b.node i).map f := by
  have hdefault : (TrieNode.new 0 : TrieNode G) = (TrieNode.new 0 : TrieNode F).map f := by
    rw [TrieNode.map, TrieNode.new, TrieNode.new, hzero]
  rw [node, node, hdefault, map, List.getD_map]

theorem child?_map (hzero : f 0 = 0) (b : Biaser F) (i tok : Nat) :
    (b.map f).child? i tok = b.child? i tok := by
  rw [child?, child?, node_map hzero]
  rfl

variable [Add F] [Add G] (hzero : f 0 = 0) (hadd : ∀ x y, f (x + y) = f x + f y)

include hzero hadd

theorem enter_map (b : Biaser F) (path : BiasPath F) (child : Nat) :
    (b.map f).enter (path.map f) child
      = (f (b.enter path child).1, (b.enter path child).2.map f) := by
  simp only [enter, node_map hzero, TrieNode.map, BiasPath.map]
  split_ifs
  · rw [hzero]
  · rw [hadd]

variable [Neg F] [Neg G] (hneg : ∀ x, f (-x) = -f x)

include hneg

/-- Scoring commutes with a homomorphism of the numbers. -/
theorem scoreToken_map (b : Biaser F) (path : BiasPath F) (tok : Nat) :
    (b.map f).scoreToken (path.map f) tok
      = (f (b.scoreToken path tok).1, (b.scoreToken path tok).2.map f) := by
  have hroot : (BiasPath.default : BiasPath G) = (BiasPath.default : BiasPath F).map f := by
    rw [BiasPath.map, BiasPath.default, BiasPath.default, hzero]
  have hrefund : -(path.map f).pending = f (-path.pending) := (hneg _).symm
  have hnode : (path.map f).node = path.node := rfl
  unfold scoreToken
  rw [hroot, hrefund, hnode, child?_map hzero, child?_map hzero]
  cases b.child? path.node tok with
  | some child => exact enter_map hzero hadd b path child
  | none =>
      cases b.child? 0 tok with
      | some child =>
          simp only [enter_map hzero hadd, hadd]
      | none => rfl

theorem scoreLabels_map (b : Biaser F) (labels : List Nat) :
    (b.map f).scoreLabels labels = (f (b.scoreLabels labels).1, (b.scoreLabels labels).2.map f) := by
  induction labels using List.reverseRecOn with
  | nil =>
      show ((0 : G), BiasPath.default) = (f 0, BiasPath.map f BiasPath.default)
      rw [BiasPath.map, BiasPath.default, BiasPath.default, hzero]
  | append_singleton labels tok ih =>
      rw [scoreLabels_concat, scoreLabels_concat, ih, scoreToken_map hzero hadd hneg, hadd]

end Map

end Biaser

end Gigastt
