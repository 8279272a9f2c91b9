set_option autoImplicit false

/-! # Trees

A tree is a root value with an ordered list of subtrees. The measures below walk the tree with a
list of what is still to be visited, so that a deep tree costs memory and not call stack.

`OpenNode.close` is the other direction: it builds a tree from nodes that are met in the order of
their roots, each with the number of subtrees that follow it. -/

namespace StreamDecode

/-- A root value with an ordered list of subtrees. -/
inductive Tree (α : Type) where
  | node (root : α) (subtrees : List (Tree α))

namespace Tree

variable {α : Type}

/-- The value at the root. -/
def root : Tree α → α
  | node root _ => root

/-- The subtrees below the root. -/
def subtrees : Tree α → List (Tree α)
  | node _ subtrees => subtrees

mutual
/-- Equality of trees whose values are compared by `same`. -/
def beq (same : α → α → Bool) : Tree α → Tree α → Bool
  | node a as, node b bs => same a b && beqList same as bs

/-- Equality of lists of trees whose values are compared by `same`. -/
def beqList (same : α → α → Bool) : List (Tree α) → List (Tree α) → Bool
  | [], [] => true
  | a :: as, b :: bs => beq same a b && beqList same as bs
  | _, _ => false
end

/-- How many nodes a tree has, and how many of them lie on its longest path from the root. -/
structure Extent where
  nodes : Nat
  depth : Nat
deriving Repr, DecidableEq

/-- Visit the given forests, the first of which lies `level` nodes deep and each other one node
    less deep than the one before it. -/
def extentFrom (level : Nat) (found : Extent) : List (List (Tree α)) → Extent
  | [] => found
  | [] :: forests => extentFrom (level - 1) found forests
  | (node _ subtrees :: trees) :: forests =>
      extentFrom (level + 1) ⟨found.nodes + 1, max found.depth level⟩ (subtrees :: trees :: forests)
termination_by forests => sizeOf forests

/-- The number of nodes and the depth of a tree; a single node has depth 1. -/
def extent (t : Tree α) : Extent := extentFrom 1 ⟨0, 0⟩ [[t]]

end Tree

/-- A node whose subtrees are not all there yet. -/
structure OpenNode (α : Type) where
  root : α
  /-- The subtrees so far, last first. -/
  subtrees : List (Tree α)
  /-- How many subtrees are still to come. -/
  missing : Nat

namespace OpenNode

variable {α : Type}

/-- The node with the subtrees it has so far. -/
def toTree (node : OpenNode α) : Tree α := .node node.root node.subtrees.reverse

/-- The node with one more of its subtrees. -/
def add (node : OpenNode α) (subtree : Tree α) : OpenNode α :=
  { node with subtrees := subtree :: node.subtrees, missing := node.missing - 1 }

/-- Close the innermost open node if it misses no subtree, then the one around it, and so on. Gives
    the whole tree once the outermost node is closed, and the open nodes otherwise, innermost
    first. -/
def close (node : OpenNode α) : List (OpenNode α) → Tree α ⊕ List (OpenNode α)
  | [] => if node.missing = 0 then .inl node.toTree else .inr [node]
  | outer :: others =>
      if node.missing = 0 then (outer.add node.toTree).close others else .inr (node :: outer :: others)

theorem close_of_missing_ne_zero {node : OpenNode α} (h : node.missing ≠ 0)
    (stack : List (OpenNode α)) : node.close stack = .inr (node :: stack) := by
  cases stack <;> exact if_neg h

/-- Closing opens at most the node itself. -/
theorem length_le_of_close {node : OpenNode α} {stack left : List (OpenNode α)}
    (h : node.close stack = .inr left) : left.length ≤ stack.length + 1 := by
  induction stack generalizing node with
  | nil =>
      unfold close at h
      split at h
      · cases h
      · cases h
        exact Nat.le_refl _
  | cons outer others ih =>
      unfold close at h
      split at h
      · exact Nat.le_succ_of_le (ih h)
      · cases h
        exact Nat.le_refl _

end OpenNode

end StreamDecode
