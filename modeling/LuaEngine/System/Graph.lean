import Mathlib

/-!
# Finite graphs and their unfoldings

A node with its list of children, an entry for each edge.  A graph without
cycles has no path longer than its nodes, and a graph covered by a tree is a
tree when the covering identifies no two nodes.
-/

namespace LuaEngine.System

universe u v

section Paths

variable {Node : Type u} (edge : Node → Node → Prop)

/-- No path from the node has as many edges as the bound. -/
def Bounded : Nat → Node → Prop
  | 0, _ => False
  | bound + 1, node => ∀ child, edge node child → Bounded bound child

def NoCycleFrom (node : Node) : Prop :=
  ∀ other, Relation.ReflTransGen edge node other → ¬ Relation.TransGen edge other other

variable {edge}

theorem NoCycleFrom.child {node child : Node} (acyclic : NoCycleFrom edge node)
    (step : edge node child) : NoCycleFrom edge child := by
  intro other reached
  exact acyclic other (.head step reached)

theorem Bounded.succ {bound : Nat} {node : Node} (bounded : Bounded edge bound node) :
    Bounded edge (bound + 1) node := by
  induction bound generalizing node with
  | zero => exact bounded.elim
  | succ bound inductionHypothesis =>
      intro child step
      exact inductionHypothesis (bounded child step)

theorem Bounded.descendant {bound : Nat} {node other : Node}
    (reached : Relation.ReflTransGen edge node other) (bounded : Bounded edge bound node) :
    Bounded edge bound other := by
  induction reached with
  | refl => exact bounded
  | tail _ step inductionHypothesis =>
      cases bound with
      | zero => exact bounded.elim
      | succ bound => exact Bounded.succ (inductionHypothesis _ step)

/-- A cycle leads to paths of any length. -/
theorem Bounded.noCycle {bound : Nat} {node : Node} (bounded : Bounded edge bound node) :
    ¬ Relation.TransGen edge node node := by
  induction bound generalizing node with
  | zero => exact bounded.elim
  | succ bound inductionHypothesis =>
      intro cycle
      obtain ⟨child, step, back⟩ := Relation.TransGen.head'_iff.mp cycle
      apply inductionHypothesis (bounded child step)
      exact Relation.TransGen.tail' back step

theorem Bounded.noCycleFrom {bound : Nat} {node : Node} (bounded : Bounded edge bound node) :
    NoCycleFrom edge node := by
  intro other reached
  exact (bounded.descendant reached).noCycle

/-- Without a cycle a step leaves one node fewer to go to. -/
theorem NoCycleFrom.bounded_card [DecidableEq Node] {node : Node}
    (acyclic : NoCycleFrom edge node) (nodes : Finset Node)
    (inside : ∀ other, Relation.ReflTransGen edge node other → other ∈ nodes) :
    Bounded edge nodes.card node := by
  induction size : nodes.card generalizing node nodes with
  | zero =>
      have membership := inside node .refl
      rw [Finset.card_eq_zero.mp size] at membership
      exact absurd membership (Finset.notMem_empty node)
  | succ size' inductionHypothesis =>
      intro child step
      apply inductionHypothesis (acyclic.child step) (nodes.erase node)
      · intro other reached
        apply Finset.mem_erase.mpr
        refine ⟨?_, inside other (.head step reached)⟩
        rintro rfl
        exact acyclic other .refl (Relation.TransGen.head' step reached)
      · rw [Finset.card_erase_of_mem (inside node .refl), size]
        rfl

end Paths

/-! ## Coverings -/

section Covering

variable {Node : Type u} {Image : Type v}

def ChildOf (children : Node → List Node) (parent child : Node) : Prop :=
  child ∈ children parent

def ReachableFrom (children : Node → List Node) : Node → Node → Prop :=
  Relation.ReflTransGen (ChildOf children)

/-- Every reachable node but the root is a child of one node, once. -/
structure TreeFrom (children : Node → List Node) (root : Node) : Prop where
  orphan : ∀ node, ReachableFrom children root node → root ∉ children node
  nodup : ∀ node, ReachableFrom children root node → (children node).Nodup
  parent : ∀ first second child, ReachableFrom children root first →
    ReachableFrom children root second → child ∈ children first → child ∈ children second →
      first = second

theorem TreeFrom.noCycle {children : Node → List Node} {root : Node}
    (tree : TreeFrom children root) : NoCycleFrom (ChildOf children) root := by
  intro node reached
  induction reached with
  | refl =>
      intro cycle
      obtain ⟨last, path, step⟩ := Relation.TransGen.tail'_iff.mp cycle
      exact tree.orphan last path step
  | tail before step inductionHypothesis =>
      intro cycle
      obtain ⟨last, path, back⟩ := Relation.TransGen.tail'_iff.mp cycle
      have reached := (before.tail step).trans path
      obtain rfl := tree.parent _ _ _ before reached step back
      exact inductionHypothesis (Relation.TransGen.head' step path)

/-- The map takes the children of every reachable node to the children of its
image. -/
structure Covering (children : Node → List Node) (root : Node)
    (imageChildren : Image → List Image) (imageRoot : Image) (map : Node → Image) : Prop where
  rooted : map root = imageRoot
  children : ∀ node, ReachableFrom children root node →
    ((children node).map map).Perm (imageChildren (map node))

namespace Covering

variable {children : Node → List Node} {root : Node} {imageChildren : Image → List Image}
  {imageRoot : Image} {map : Node → Image}

theorem mem_children (covering : Covering children root imageChildren imageRoot map)
    {node child : Node} (reached : ReachableFrom children root node)
    (membership : child ∈ children node) : map child ∈ imageChildren (map node) :=
  (covering.children node reached).subset (List.mem_map_of_mem membership)

theorem reachable (covering : Covering children root imageChildren imageRoot map)
    {node : Node} (reached : ReachableFrom children root node) :
    ReachableFrom imageChildren imageRoot (map node) := by
  induction reached with
  | refl =>
      rw [covering.rooted]
      exact .refl
  | tail before step inductionHypothesis =>
      exact inductionHypothesis.tail (covering.mem_children before step)

theorem surjective (covering : Covering children root imageChildren imageRoot map)
    {image : Image} (reached : ReachableFrom imageChildren imageRoot image) :
    ∃ node, ReachableFrom children root node ∧ map node = image := by
  induction reached with
  | refl => exact ⟨root, .refl, covering.rooted⟩
  | tail _ step inductionHypothesis =>
      obtain ⟨parent, before, rfl⟩ := inductionHypothesis
      have membership := (covering.children parent before).symm.subset step
      obtain ⟨child, isChild, rfl⟩ := List.mem_map.mp membership
      exact ⟨child, before.tail isChild, rfl⟩

/-- Two nodes over one node of a tree have parents over one node, and so on up to
the root. -/
theorem injective (covering : Covering children root imageChildren imageRoot map)
    (tree : TreeFrom imageChildren imageRoot) {first second : Node}
    (firstReached : ReachableFrom children root first)
    (secondReached : ReachableFrom children root second)
    (same : map first = map second) : first = second := by
  induction firstReached generalizing second with
  | refl =>
      rcases Relation.ReflTransGen.cases_tail secondReached with equality | ⟨parent, before, step⟩
      · exact equality.symm
      · have membership := covering.mem_children before step
        rw [← same, covering.rooted] at membership
        exact absurd membership (tree.orphan _ (covering.reachable before))
  | @tail parent child before step inductionHypothesis =>
      have membership := covering.mem_children before step
      rcases Relation.ReflTransGen.cases_tail secondReached with
        equality | ⟨other, otherBefore, otherStep⟩
      · rw [same, equality, covering.rooted] at membership
        exact absurd membership (tree.orphan _ (covering.reachable before))
      · have otherMembership := covering.mem_children otherBefore otherStep
        rw [← same] at otherMembership
        have parents : parent = other := by
          apply inductionHypothesis otherBefore
          exact tree.parent _ _ _ (covering.reachable before) (covering.reachable otherBefore)
            membership otherMembership
        subst other
        have nodup : ((children parent).map map).Nodup :=
          (covering.children parent before).nodup_iff.mpr
            (tree.nodup _ (covering.reachable before))
        exact List.inj_on_of_nodup_map nodup step otherStep same

/-- What covers a tree is a tree. -/
theorem tree (covering : Covering children root imageChildren imageRoot map)
    (tree : TreeFrom imageChildren imageRoot) : TreeFrom children root := by
  constructor
  · intro node reached membership
    apply tree.orphan _ (covering.reachable reached)
    rw [← covering.rooted]
    exact covering.mem_children reached membership
  · intro node reached
    apply List.Nodup.of_map map
    exact (covering.children node reached).nodup_iff.mpr (tree.nodup _ (covering.reachable reached))
  · intro first second child firstReached secondReached firstMembership secondMembership
    apply covering.injective tree firstReached secondReached
    exact tree.parent _ _ _ (covering.reachable firstReached) (covering.reachable secondReached)
      (covering.mem_children firstReached firstMembership)
      (covering.mem_children secondReached secondMembership)

end Covering

end Covering

end LuaEngine.System
