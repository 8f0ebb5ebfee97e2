/-
**Leaf-oriented search trees.**

A leaf-oriented (external) search tree keeps its keys in the leaves; the label of an internal node
only routes a search.  This module is about such trees over an arbitrary type of labels, with the
key and the weight of a label given by functions: the search path of a key, the order invariant
stated with explicit bounds, the weight balance of a chromatic tree, and what replacing one subtree
by another does to all of them.

Main definitions:

* `LTree`, `LTree.labels`, `LTree.leaves` — the trees, their labels and their leaves in order;
* `LTree.paths` — the ways from the top down to a leaf;
* `LTree.path`, `LTree.leafAt` — the search path of a key, and the leaf it ends in;
* `LTree.Within` — **the order invariant** between two bounds;
* `LTree.Bal` — every root-to-leaf path has the same weight;
* `LTree.Repl` — one tree is another with an occurrence of a subtree replaced.

Main results:

* `LTree.Within.mem_path` — a leaf lies on the search path of its own key;
* `LTree.Repl.within` — **replacement is local**: the bounds of the replaced subtree are all that
  the order of the new one has to respect, and the search paths that enter the replaced subtree
  are exactly those of the keys between these bounds.
-/

import Mathlib.Order.WithBot
import Mathlib.Data.List.Basic
import Mathlib.Data.List.Nodup
import Mathlib.Tactic.Common

set_option relaxedAutoImplicit false
set_option autoImplicit false

/-- Binary trees in which every internal node has two children. -/
inductive LTree (α : Type*) where
  | leaf (a : α) : LTree α
  | node (a : α) (l r : LTree α) : LTree α

namespace LTree

variable {α κ : Type*}

/-! ### Labels, leaves and search paths -/

/-- The label at the top. -/
def label : LTree α → α
  | leaf a => a
  | node a _ _ => a

@[simp] theorem label_leaf (a : α) : (leaf a).label = a := rfl
@[simp] theorem label_node (a : α) (l r : LTree α) : (node a l r).label = a := rfl

/-- All labels, the top first. -/
def labels : LTree α → List α
  | leaf a => [a]
  | node a l r => a :: (l.labels ++ r.labels)

@[simp] theorem labels_leaf (a : α) : (leaf a).labels = [a] := rfl
@[simp] theorem labels_node (a : α) (l r : LTree α) :
    (node a l r).labels = a :: (l.labels ++ r.labels) := rfl

/-- The leaves from left to right. -/
def leaves : LTree α → List α
  | leaf a => [a]
  | node _ l r => l.leaves ++ r.leaves

@[simp] theorem leaves_leaf (a : α) : (leaf a).leaves = [a] := rfl
@[simp] theorem leaves_node (a : α) (l r : LTree α) :
    (node a l r).leaves = l.leaves ++ r.leaves := rfl

theorem label_mem_labels (t : LTree α) : t.label ∈ t.labels := by
  cases t <;> simp

theorem leaves_subset_labels (t : LTree α) : t.leaves ⊆ t.labels := by
  induction t with
  | leaf a => simp
  | node a l r ihl ihr =>
      intro x hx
      rcases List.mem_append.mp hx with h | h
      · exact List.mem_cons_of_mem _ (List.mem_append_left _ (ihl h))
      · exact List.mem_cons_of_mem _ (List.mem_append_right _ (ihr h))

/-- The labels on each of the ways from the top down to a leaf. -/
def paths : LTree α → List (List α)
  | leaf a => [[a]]
  | node a l r => (l.paths ++ r.paths).map (a :: ·)

theorem mem_paths_leaf {a : α} {p : List α} : p ∈ (leaf a).paths ↔ p = [a] :=
  List.mem_singleton

theorem mem_paths_node {a : α} {l r : LTree α} {p : List α} :
    p ∈ (node a l r).paths ↔ ∃ q, (q ∈ l.paths ∨ q ∈ r.paths) ∧ a :: q = p := by
  simp only [paths, List.mem_map, List.mem_append]

theorem leaves_ne_nil (t : LTree α) : t.leaves ≠ [] := by
  induction t with
  | leaf a => simp
  | node a l r ihl _ => simp [ihl]

section Search

variable [LinearOrder κ] (key : α → κ)

/-- The labels met by a search for `q`: it goes left exactly when `q` is below the routing key. -/
def path (q : κ) : LTree α → List α
  | leaf a => [a]
  | node a l r => a :: if q < key a then l.path q else r.path q

/-- The leaf in which a search for `q` ends. -/
def leafAt (q : κ) : LTree α → α
  | leaf a => a
  | node a l r => if q < key a then l.leafAt q else r.leafAt q

@[simp] theorem path_leaf (q : κ) (a : α) : (leaf a).path key q = [a] := rfl
@[simp] theorem leafAt_leaf (q : κ) (a : α) : (leaf a).leafAt key q = a := rfl

theorem path_node (q : κ) (a : α) (l r : LTree α) :
    (node a l r).path key q = a :: if q < key a then l.path key q else r.path key q := rfl

theorem path_node_left {q : κ} {a : α} (l r : LTree α) (h : q < key a) :
    (node a l r).path key q = a :: l.path key q := by
  rw [path_node, if_pos h]

theorem path_node_right {q : κ} {a : α} (l r : LTree α) (h : ¬ q < key a) :
    (node a l r).path key q = a :: r.path key q := by
  rw [path_node, if_neg h]

theorem leafAt_node (q : κ) (a : α) (l r : LTree α) :
    (node a l r).leafAt key q = if q < key a then l.leafAt key q else r.leafAt key q := rfl

theorem path_sublist_labels (q : κ) (t : LTree α) : (t.path key q).Sublist t.labels := by
  induction t with
  | leaf a => simp
  | node a l r ihl ihr =>
      rw [path_node, labels_node]
      refine List.Sublist.cons_cons a ?_
      split_ifs
      · exact ihl.trans (List.sublist_append_left ..)
      · exact ihr.trans (List.sublist_append_right ..)

theorem leafAt_mem_leaves (q : κ) (t : LTree α) : t.leafAt key q ∈ t.leaves := by
  induction t with
  | leaf a => simp
  | node a l r ihl ihr =>
      rw [leafAt_node]
      split_ifs
      · exact List.mem_append_left _ ihl
      · exact List.mem_append_right _ ihr

/-! ### The order invariant -/

/-- Between the bounds `lo` (inclusive) and `hi` (exclusive) the tree is a search tree: a leaf key
lies between them, and a routing key bounds the left subtree from above and the right one from
below. -/
def Within : WithBot κ → WithTop κ → LTree α → Prop
  | lo, hi, leaf a => lo ≤ (key a : WithBot κ) ∧ (key a : WithTop κ) < hi
  | lo, hi, node a l r => l.Within lo (key a) ∧ r.Within (key a) hi

variable {key}

@[simp] theorem within_leaf {lo : WithBot κ} {hi : WithTop κ} {a : α} :
    (leaf a).Within key lo hi ↔ lo ≤ (key a : WithBot κ) ∧ (key a : WithTop κ) < hi := Iff.rfl

@[simp] theorem within_node {lo : WithBot κ} {hi : WithTop κ} {a : α} {l r : LTree α} :
    (node a l r).Within key lo hi ↔ l.Within key lo (key a) ∧ r.Within key (key a) hi := Iff.rfl

theorem Within.lt {lo : WithBot κ} {hi : WithTop κ} {t : LTree α} (h : t.Within key lo hi) :
    ∃ q : κ, lo ≤ (q : WithBot κ) ∧ (q : WithTop κ) < hi := by
  induction t generalizing lo hi with
  | leaf a => exact ⟨key a, h⟩
  | node a l r ihl ihr =>
      obtain ⟨q, hq, hqa⟩ := ihl h.1
      obtain ⟨q', hq', hqa'⟩ := ihr h.2
      have hle : q ≤ q' :=
        (WithTop.coe_lt_coe.mp hqa).le.trans (WithBot.coe_le_coe.mp hq')
      exact ⟨q, hq, lt_of_le_of_lt (WithTop.coe_le_coe.mpr hle) hqa'⟩

/-- A routing key lies between the bounds, because there is a leaf on each side of it. -/
theorem Within.key_between {lo : WithBot κ} {hi : WithTop κ} {a : α} {l r : LTree α}
    (h : (node a l r).Within key lo hi) :
    lo ≤ (key a : WithBot κ) ∧ (key a : WithTop κ) < hi := by
  obtain ⟨q, hq, hqa⟩ := h.1.lt
  obtain ⟨q', hq', hqa'⟩ := h.2.lt
  exact ⟨hq.trans (WithBot.coe_le_coe.mpr (WithTop.coe_lt_coe.mp hqa).le),
    lt_of_le_of_lt (WithTop.coe_le_coe.mpr (WithBot.coe_le_coe.mp hq')) hqa'⟩

theorem Within.mem_leaves {lo : WithBot κ} {hi : WithTop κ} {t : LTree α}
    (h : t.Within key lo hi) {a : α} (ha : a ∈ t.leaves) :
    lo ≤ (key a : WithBot κ) ∧ (key a : WithTop κ) < hi := by
  induction t generalizing lo hi with
  | leaf b => obtain rfl : a = b := by simpa using ha
              exact h
  | node b l r ihl ihr =>
      obtain ⟨hlo, hhi⟩ := h.key_between
      rcases List.mem_append.mp ha with ha | ha
      · exact ⟨(ihl h.1 ha).1, (ihl h.1 ha).2.trans hhi⟩
      · exact ⟨hlo.trans (ihr h.2 ha).1, (ihr h.2 ha).2⟩

/-- Weaker bounds. -/
theorem Within.mono {lo lo' : WithBot κ} {hi hi' : WithTop κ} {t : LTree α}
    (h : t.Within key lo hi) (hlo : lo' ≤ lo) (hhi : hi ≤ hi') : t.Within key lo' hi' := by
  induction t generalizing lo hi lo' hi' with
  | leaf a => exact ⟨hlo.trans h.1, lt_of_lt_of_le h.2 hhi⟩
  | node a l r ihl ihr => exact ⟨ihl h.1 hlo le_rfl, ihr h.2 le_rfl hhi⟩

/-- Order and search only look at the keys of the labels. -/
theorem Within.congr {key' : α → κ} {lo : WithBot κ} {hi : WithTop κ} {t : LTree α}
    (h : t.Within key lo hi) (hk : ∀ a ∈ t.labels, key' a = key a) : t.Within key' lo hi := by
  induction t generalizing lo hi with
  | leaf a =>
      rw [within_leaf, hk a (by simp)]
      exact h
  | node a l r ihl ihr =>
      simp only [labels_node, List.mem_cons, List.mem_append] at hk
      rw [within_node, hk a (.inl rfl)]
      exact ⟨ihl h.1 fun b hb => hk b (.inr (.inl hb)), ihr h.2 fun b hb => hk b (.inr (.inr hb))⟩

theorem path_congr {key' : α → κ} {q : κ} {t : LTree α} (hk : ∀ a ∈ t.labels, key' a = key a) :
    t.path key' q = t.path key q := by
  induction t with
  | leaf a => rfl
  | node a l r ihl ihr =>
      simp only [labels_node, List.mem_cons, List.mem_append] at hk
      rw [path_node, path_node, hk a (.inl rfl), ihl fun b hb => hk b (.inr (.inl hb)),
        ihr fun b hb => hk b (.inr (.inr hb))]

/-- **A leaf lies on the search path of its own key.** -/
theorem Within.mem_path {lo : WithBot κ} {hi : WithTop κ} {t : LTree α}
    (h : t.Within key lo hi) {a : α} (ha : a ∈ t.leaves) : a ∈ t.path key (key a) := by
  induction t generalizing lo hi with
  | leaf b => simpa using ha
  | node b l r ihl ihr =>
      rcases List.mem_append.mp ha with ha | ha
      · have hlt : key a < key b := WithTop.coe_lt_coe.mp (h.1.mem_leaves ha).2
        rw [path_node_left key l r hlt]
        exact List.mem_cons_of_mem _ (ihl h.1 ha)
      · have hge : ¬ key a < key b := not_lt.mpr (WithBot.coe_le_coe.mp (h.2.mem_leaves ha).1)
        rw [path_node_right key l r hge]
        exact List.mem_cons_of_mem _ (ihr h.2 ha)

theorem Within.leafAt_eq {lo : WithBot κ} {hi : WithTop κ} {t : LTree α}
    (h : t.Within key lo hi) {a : α} (ha : a ∈ t.leaves) : t.leafAt key (key a) = a := by
  induction t generalizing lo hi with
  | leaf b => simpa [eq_comm] using ha
  | node b l r ihl ihr =>
      rcases List.mem_append.mp ha with ha | ha
      · have hlt : key a < key b := WithTop.coe_lt_coe.mp (h.1.mem_leaves ha).2
        rw [leafAt_node, if_pos hlt, ihl h.1 ha]
      · have hge : ¬ key a < key b := not_lt.mpr (WithBot.coe_le_coe.mp (h.2.mem_leaves ha).1)
        rw [leafAt_node, if_neg hge, ihr h.2 ha]

/-- A key is stored exactly when the search for it ends in a leaf that has it. -/
theorem Within.exists_leaf_iff {lo : WithBot κ} {hi : WithTop κ} {t : LTree α}
    (h : t.Within key lo hi) (q : κ) :
    (∃ a ∈ t.leaves, key a = q) ↔ key (t.leafAt key q) = q := by
  constructor
  · rintro ⟨a, ha, rfl⟩
    rw [h.leafAt_eq ha]
  · intro hq
    exact ⟨_, leafAt_mem_leaves key q t, hq⟩

end Search

/-! ### Weight balance -/

section Balance

variable (wt : α → ℤ)

/-- Every path from the top to a leaf has weight `h`. -/
def Bal : ℤ → LTree α → Prop
  | h, leaf a => wt a = h
  | h, node a l r => l.Bal (h - wt a) ∧ r.Bal (h - wt a)

variable {wt}

@[simp] theorem bal_leaf {h : ℤ} {a : α} : (leaf a).Bal wt h ↔ wt a = h := Iff.rfl

@[simp] theorem bal_node {h : ℤ} {a : α} {l r : LTree α} :
    (node a l r).Bal wt h ↔ l.Bal wt (h - wt a) ∧ r.Bal wt (h - wt a) := Iff.rfl

/-- Without negative weights no label has more weight than the paths below it. -/
theorem Bal.label_le {t : LTree α} {h : ℤ} (hb : t.Bal wt h) (hn : ∀ a ∈ t.labels, 0 ≤ wt a) :
    wt t.label ≤ h := by
  induction t generalizing h with
  | leaf a => exact hb.le
  | node a l r ihl ihr =>
      have hl := ihl hb.1 fun b hb => hn b (by simp [hb])
      have h0 := hn l.label (by simp [label_mem_labels])
      rw [label_node]
      omega

end Balance

/-! ### Replacing a subtree -/

/-- `t.Repl t₀ t₁ t'` : the tree `t'` is `t` with one occurrence of the subtree `t₀` replaced
by `t₁`. -/
inductive Repl (t₀ t₁ : LTree α) : LTree α → LTree α → Prop
  | here : Repl t₀ t₁ t₀ t₁
  | left {l l' : LTree α} (a : α) (r : LTree α) :
      Repl t₀ t₁ l l' → Repl t₀ t₁ (node a l r) (node a l' r)
  | right {r r' : LTree α} (a : α) (l : LTree α) :
      Repl t₀ t₁ r r' → Repl t₀ t₁ (node a l r) (node a l r')

namespace Repl

variable {t₀ t₁ t t' : LTree α}

theorem labels (h : Repl t₀ t₁ t t') :
    ∃ xs ys, t.labels = xs ++ t₀.labels ++ ys ∧ t'.labels = xs ++ t₁.labels ++ ys := by
  induction h with
  | here => exact ⟨[], [], by simp⟩
  | left a r _ ih =>
      obtain ⟨xs, ys, h, h'⟩ := ih
      exact ⟨a :: xs, ys ++ r.labels, by simp [h], by simp [h']⟩
  | right a l _ ih =>
      obtain ⟨xs, ys, h, h'⟩ := ih
      exact ⟨a :: (l.labels ++ xs), ys, by simp [h], by simp [h']⟩

theorem leaves (h : Repl t₀ t₁ t t') :
    ∃ xs ys, t.leaves = xs ++ t₀.leaves ++ ys ∧ t'.leaves = xs ++ t₁.leaves ++ ys := by
  induction h with
  | here => exact ⟨[], [], by simp⟩
  | left a r _ ih =>
      obtain ⟨xs, ys, h, h'⟩ := ih
      exact ⟨xs, ys ++ r.leaves, by simp [h], by simp [h']⟩
  | right a l _ ih =>
      obtain ⟨xs, ys, h, h'⟩ := ih
      exact ⟨l.leaves ++ xs, ys, by simp [h], by simp [h']⟩

/-- A tree is not a proper subtree of itself. -/
theorem eq_of_top (h : Repl t₀ t₁ t₀ t') : t' = t₁ := by
  have key : ∀ {t t'}, Repl t₀ t₁ t t' → t₀.labels.length ≤ t.labels.length := fun h => by
    obtain ⟨xs, ys, h, -⟩ := h.labels
    simp only [h, List.length_append]
    omega
  cases h with
  | here => rfl
  | left a r h =>
      have := key h
      simp only [labels_node, List.length_cons, List.length_append] at this
      omega
  | right a l h =>
      have := key h
      simp only [labels_node, List.length_cons, List.length_append] at this
      omega

theorem label_eq (h : Repl t₀ t₁ t t') : (t = t₀ ∧ t' = t₁) ∨ t'.label = t.label := by
  cases h with
  | here => exact .inl ⟨rfl, rfl⟩
  | left a r h => exact .inr rfl
  | right a l h => exact .inr rfl

theorem bal {wt : α → ℤ} (h : Repl t₀ t₁ t t') {n : ℤ} (ht : t.Bal wt n) :
    ∃ n₀, t₀.Bal wt n₀ ∧ (t₁.Bal wt n₀ → t'.Bal wt n) := by
  induction h generalizing n with
  | here => exact ⟨n, ht, id⟩
  | left a r _ ih =>
      obtain ⟨n₀, h₀, h₁⟩ := ih ht.1
      exact ⟨n₀, h₀, fun h => ⟨h₁ h, ht.2⟩⟩
  | right a l _ ih =>
      obtain ⟨n₀, h₀, h₁⟩ := ih ht.2
      exact ⟨n₀, h₀, fun h => ⟨ht.1, h₁ h⟩⟩

variable [LinearOrder κ] {key : α → κ}

/-- What a replacement does to the search for `q`, when the replaced subtree is within `lo`
and `hi`: the search enters it, from labels outside of it, exactly when `q` lies between these
bounds, and is otherwise unchanged. -/
def Search (key : α → κ) (t₀ t₁ t t' : LTree α) (lo : WithBot κ) (hi : WithTop κ) (q : κ) : Prop :=
  ((lo ≤ (q : WithBot κ) ∧ (q : WithTop κ) < hi) ∧
      t.leafAt key q = t₀.leafAt key q ∧ t'.leafAt key q = t₁.leafAt key q ∧
      ∃ xs, t.path key q = xs ++ t₀.path key q ∧ t'.path key q = xs ++ t₁.path key q ∧
        (xs ++ t₀.labels).Sublist t.labels) ∨
    (¬ (lo ≤ (q : WithBot κ) ∧ (q : WithTop κ) < hi) ∧
      t'.leafAt key q = t.leafAt key q ∧ t'.path key q = t.path key q)

/-- **Replacement is local.**  The replaced subtree keeps the order between some bounds, which is
all that the new one has to do, and the searches that enter it are those between these bounds. -/
theorem within {lo : WithBot κ} {hi : WithTop κ} (h : Repl t₀ t₁ t t') (ht : t.Within key lo hi) :
    ∃ lo₀ hi₀, lo ≤ lo₀ ∧ hi₀ ≤ hi ∧ t₀.Within key lo₀ hi₀ ∧
      (t₁.Within key lo₀ hi₀ → t'.Within key lo hi) ∧
      ∀ q : κ, lo ≤ (q : WithBot κ) → (q : WithTop κ) < hi →
        Search key t₀ t₁ t t' lo₀ hi₀ q := by
  induction h generalizing lo hi with
  | here =>
      exact ⟨lo, hi, le_rfl, le_rfl, ht, id,
        fun q hlo hhi => .inl ⟨⟨hlo, hhi⟩, rfl, rfl, [], rfl, rfl, List.Sublist.refl _⟩⟩
  | left a r _ ih =>
      obtain ⟨lo₀, hi₀, hlo₀, hhi₀, h₀, h₁, hs⟩ := ih ht.1
      refine ⟨lo₀, hi₀, hlo₀, hhi₀.trans ht.key_between.2.le, h₀, fun h => ⟨h₁ h, ht.2⟩,
        fun q hlo _ => ?_⟩
      -- a search that goes right at `a` misses the replaced subtree, whose bounds are below `a`
      by_cases hq : q < key a
      · rcases hs q hlo (WithTop.coe_lt_coe.mpr hq) with
          ⟨hb, e, e', xs, hx, hx', hsub⟩ | ⟨hb, e, hx⟩
        · refine .inl ⟨hb, ?_, ?_, a :: xs, ?_, ?_,
            (hsub.trans (List.sublist_append_left ..)).cons_cons a⟩ <;>
            simp [leafAt_node, path_node, hq, e, e', hx, hx']
        · refine .inr ⟨hb, ?_, ?_⟩ <;> simp [leafAt_node, path_node, hq, e, hx]
      · refine .inr ⟨fun hb => hq (WithTop.coe_lt_coe.mp (lt_of_lt_of_le hb.2 hhi₀)), ?_, ?_⟩ <;>
          simp [leafAt_node, path_node, hq]
  | right a l _ ih =>
      obtain ⟨lo₀, hi₀, hlo₀, hhi₀, h₀, h₁, hs⟩ := ih ht.2
      refine ⟨lo₀, hi₀, ht.key_between.1.trans hlo₀, hhi₀, h₀, fun h => ⟨ht.1, h₁ h⟩,
        fun q _ hhi => ?_⟩
      by_cases hq : q < key a
      · refine .inr ⟨fun hb => ?_, ?_, ?_⟩
        · exact not_lt.mpr (WithBot.coe_le_coe.mp (hlo₀.trans hb.1)) hq
        · simp [leafAt_node, hq]
        · simp [path_node, hq]
      · rcases hs q (WithBot.coe_le_coe.mpr (not_lt.mp hq)) hhi with
          ⟨hb, e, e', xs, hx, hx', hsub⟩ | ⟨hb, e, hx⟩
        · refine .inl ⟨hb, ?_, ?_, a :: xs, ?_, ?_,
            (hsub.trans (List.sublist_append_right ..)).cons_cons a⟩ <;>
            simp [leafAt_node, path_node, hq, e, e', hx, hx']
        · refine .inr ⟨hb, ?_, ?_⟩ <;> simp [leafAt_node, path_node, hq, e, hx]

end Repl

end LTree
