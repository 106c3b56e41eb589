import TypedClosures.Code

/-!
# Counting the nodes of code

How many nodes of each kind there are, and how long the longest path from the
root to a leaf is. The nodes still to be counted stand in a list with their
depths, so code of any depth can be counted.
-/

namespace TypedClosures

structure Census where
  slots : Nat
  conds : Nat
  apps : Nat
  closures : Nat
  depth : Nat
  deriving DecidableEq, Repr

namespace Code

mutual

def size : Code → Nat
  | .slot .. => 1
  | .cond _ _ c a b => c.size + a.size + b.size + 1
  | .app _ _ f xs => f.size + sizeList xs + 1
  | .closure _ _ _ b => b.size + 1

def sizeList : List Code → Nat
  | [] => 0
  | e :: es => e.size + sizeList es

end

def children : Code → List Code
  | .slot .. => []
  | .cond _ _ c a b => [c, a, b]
  | .app _ _ f xs => f :: xs
  | .closure _ _ _ b => [b]

theorem sizeList_children (e : Code) : sizeList e.children + 1 = e.size := by
  cases e <;> simp [children, size, sizeList, Nat.add_assoc]

end Code

namespace Census

def empty : Census := ⟨0, 0, 0, 0, 0⟩

def add (n : Census) (depth : Nat) (e : Code) : Census :=
  let n := { n with depth := max n.depth depth }
  match e with
  | .slot .. => { n with slots := n.slots + 1 }
  | .cond .. => { n with conds := n.conds + 1 }
  | .app .. => { n with apps := n.apps + 1 }
  | .closure .. => { n with closures := n.closures + 1 }

def weigh : List (Nat × List Code) → Nat
  | [] => 0
  | (_, es) :: groups => 2 * Code.sizeList es + 1 + weigh groups

def count (n : Census) : List (Nat × List Code) → Census
  | [] => n
  | (_, []) :: groups => count n groups
  | (depth, e :: es) :: groups =>
    count (n.add depth e) ((depth + 1, e.children) :: (depth, es) :: groups)
termination_by groups => weigh groups
decreasing_by
  · simp [weigh]
  · have := Code.sizeList_children e
    simp [weigh, Code.sizeList]
    omega

end Census

/-- The count of all nodes; a single slot has depth 1. -/
def Code.census (e : Code) : Census := Census.empty.count [(1, [e])]

end TypedClosures
