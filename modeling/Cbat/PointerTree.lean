/-
**Trees as pointers, and their mirror images.**

A program holds a tree as a pointer that may be null.  `BinaryTree` is the type of such pointers;
a tree in which every internal node has two children is a pointer whose leaves have two null
children.

Main definitions:

* `BinaryTree.flip`, `LTree.flip` — **the mirror image**: the children of every node are swapped;
* `LTree.ptr` — the pointer to a leaf-oriented tree.

Main results:

* `BinaryTree.flip_flip`, `LTree.flip_flip`, `LTree.ptr_flip` — mirroring is an involution, and the
  same for both types;
* `LTree.leaves_flip` — it reverses the leaves.
-/

import Cbat.LeafTree
import Mathlib.Data.Tree.Basic

set_option relaxedAutoImplicit false
set_option autoImplicit false

namespace BinaryTree

variable {α : Type*}

/-- The mirror image. -/
def flip : BinaryTree α → BinaryTree α
  | nil => nil
  | node a l r => node a r.flip l.flip

@[simp] theorem flip_nil : (nil : BinaryTree α).flip = nil := rfl
@[simp] theorem flip_node (a : α) (l r : BinaryTree α) :
    (node a l r).flip = node a r.flip l.flip := rfl

@[simp] theorem flip_flip (t : BinaryTree α) : t.flip.flip = t := by
  induction t with
  | nil => rfl
  | node a l r ihl ihr => rw [flip_node, flip_node, ihl, ihr]

end BinaryTree

namespace LTree

variable {α : Type*}

/-- The mirror image. -/
def flip : LTree α → LTree α
  | leaf a => leaf a
  | node a l r => node a r.flip l.flip

@[simp] theorem flip_leaf (a : α) : (leaf a).flip = leaf a := rfl
@[simp] theorem flip_node (a : α) (l r : LTree α) : (node a l r).flip = node a r.flip l.flip := rfl

@[simp] theorem flip_flip (t : LTree α) : t.flip.flip = t := by
  induction t with
  | leaf a => rfl
  | node a l r ihl ihr => rw [flip_node, flip_node, ihl, ihr]

@[simp] theorem label_flip (t : LTree α) : t.flip.label = t.label := by
  cases t <;> rfl

theorem leaves_flip (t : LTree α) : t.flip.leaves = t.leaves.reverse := by
  induction t with
  | leaf a => rfl
  | node a l r ihl ihr => simp [ihl, ihr]

theorem mem_labels_flip {t : LTree α} {a : α} : a ∈ t.flip.labels ↔ a ∈ t.labels := by
  induction t with
  | leaf b => rfl
  | node b l r ihl ihr => simp [ihl, ihr, or_comm]

/-- The pointer to the tree. -/
def ptr : LTree α → BinaryTree α
  | leaf a => .node a .nil .nil
  | node a l r => .node a l.ptr r.ptr

@[simp] theorem ptr_leaf (a : α) : (leaf a).ptr = .node a .nil .nil := rfl
@[simp] theorem ptr_node (a : α) (l r : LTree α) : (node a l r).ptr = .node a l.ptr r.ptr := rfl

theorem ptr_ne_nil (t : LTree α) : t.ptr ≠ .nil := by
  cases t <;> exact nofun

theorem ptr_flip (t : LTree α) : t.flip.ptr = t.ptr.flip := by
  induction t with
  | leaf a => rfl
  | node a l r ihl ihr => rw [flip_node, ptr_node, ihl, ihr, ptr_node, BinaryTree.flip_node]

theorem ptr_injective : Function.Injective (ptr : LTree α → BinaryTree α) := by
  intro t
  induction t with
  | leaf a =>
      intro t' h
      cases t' with
      | leaf b => rw [(BinaryTree.node.inj h).1]
      | node b l r => exact absurd (BinaryTree.node.inj h).2.1.symm (ptr_ne_nil l)
  | node a l r ihl ihr =>
      intro t' h
      cases t' with
      | leaf b => exact absurd (BinaryTree.node.inj h).2.1 (ptr_ne_nil l)
      | node b l' r' =>
          obtain ⟨rfl, hl, hr⟩ := BinaryTree.node.inj h
          rw [ihl hl, ihr hr]

end LTree
