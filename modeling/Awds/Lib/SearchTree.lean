import Mathlib

/-!
# Search trees as lists

`inorder` is what a binary tree holds, from left to right. A tree with a hole at the bottom of its right
or left spine is a list of its nodes along the spine, the lowest first: `plugRight`, `plugLeft` fill
the hole. `popLeft` takes the leftmost node away.
-/

namespace SearchTree

open BinaryTree

variable {α : Type*}

def inorder : BinaryTree α → List α
  | nil => []
  | node a l r => inorder l ++ a :: inorder r

@[simp] theorem inorder_nil : inorder (nil : BinaryTree α) = [] := rfl

@[simp] theorem inorder_node (a : α) (l r : BinaryTree α) : inorder (node a l r) = inorder l ++ a :: inorder r := rfl

/-- The nodes of a right spine, each with its left subtree. -/
def plugRight : List (α × BinaryTree α) → BinaryTree α → BinaryTree α
  | [], t => t
  | (a, l) :: ctx, t => plugRight ctx (node a l t)

/-- The nodes of a left spine, each with its right subtree. -/
def plugLeft : List (α × BinaryTree α) → BinaryTree α → BinaryTree α
  | [], t => t
  | (a, r) :: ctx, t => plugLeft ctx (node a t r)

def before : List (α × BinaryTree α) → List α
  | [] => []
  | (a, l) :: ctx => before ctx ++ (inorder l ++ [a])

def behind : List (α × BinaryTree α) → List α
  | [] => []
  | (a, r) :: ctx => a :: inorder r ++ behind ctx

theorem inorder_plugRight : ∀ (ctx : List (α × BinaryTree α)) (t : BinaryTree α),
    inorder (plugRight ctx t) = before ctx ++ inorder t
  | [], _ => rfl
  | (a, l) :: ctx, t => by
    rw [plugRight, inorder_plugRight ctx, before]
    simp

theorem inorder_plugLeft : ∀ (ctx : List (α × BinaryTree α)) (t : BinaryTree α),
    inorder (plugLeft ctx t) = inorder t ++ behind ctx
  | [], _ => by simp [plugLeft, behind]
  | (a, r) :: ctx, t => by
    rw [plugLeft, inorder_plugLeft ctx, behind]
    simp

/-- The leftmost node of `node a l r`, and what remains. -/
def popLeft (a : α) : BinaryTree α → BinaryTree α → α × BinaryTree α
  | nil, r => (a, r)
  | node b ll lr, r => ((popLeft b ll lr).1, node a (popLeft b ll lr).2 r)

theorem inorder_popLeft (a : α) (l r : BinaryTree α) :
    (popLeft a l r).1 :: inorder (popLeft a l r).2 = inorder (node a l r) := by
  induction l generalizing a r with
  | nil => rfl
  | node b ll lr ihl _ =>
    rw [popLeft, inorder_node, inorder_node, ← ihl b lr, List.cons_append]

end SearchTree
