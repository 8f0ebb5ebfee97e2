/-
**The rebalancing steps as rules on trees.**

A rebalancing step replaces a subtree whose top is the parent or the grandparent of a violation.
This module states the steps as eleven rules on trees, each with the weights at which it is used; a
violation on the other side is repaired by the mirror image of a rule.  On a tree that satisfies the
weight invariant the case distinction of the code always comes to a rule: the tests for null
pointers never fail, because all paths have the same weight.

Main definitions:

* `Cbat.Chromatic.Fits` — the weight invariant of a subtree, with the weight of its paths;
* `Cbat.Chromatic.Rule`, `Cbat.Chromatic.Rewrites` — **the rules**, and the rules with their mirror
  images;
* `Cbat.Chromatic.load` — the node at the top of a tree.

Main results:

* `Cbat.Chromatic.rebalance_over`, `Cbat.Chromatic.rebalance_red` — **the case distinction comes to
  a rule**.
-/

import Cbat.Chromatic.Symmetry
import Mathlib.Tactic.Linarith

set_option relaxedAutoImplicit false
set_option autoImplicit false

namespace Cbat.Chromatic

variable {K V : Type}

/-- The tree below the sentinels, or a part of it. -/
abbrev Tree (K V : Type) : Type := LTree (Item K V)

/-- The weight at the top of a tree. -/
abbrev wt (t : Tree K V) : ℤ := t.label.weight

@[simp] theorem wt_leaf (a : Item K V) : wt (.leaf a) = a.weight := rfl
@[simp] theorem wt_node (a : Item K V) (l r : Tree K V) : wt (.node a l r) = a.weight := rfl

/-- The item with another weight. -/
def Item.reweigh (a : Item K V) (w : ℤ) : Item K V := { a with weight := w }

@[simp] theorem reweigh_key (a : Item K V) (w : ℤ) : (a.reweigh w).key = a.key := rfl
@[simp] theorem reweigh_value (a : Item K V) (w : ℤ) : (a.reweigh w).value = a.value := rfl
@[simp] theorem reweigh_weight (a : Item K V) (w : ℤ) : (a.reweigh w).weight = w := rfl

/-- The tree with another weight at its top. -/
def recolor : Tree K V → ℤ → Tree K V
  | .leaf a, w => .leaf (a.reweigh w)
  | .node a l r, w => .node (a.reweigh w) l r

@[simp] theorem recolor_leaf (a : Item K V) (w : ℤ) :
    recolor (.leaf a) w = .leaf (a.reweigh w) := rfl
@[simp] theorem recolor_node (a : Item K V) (l r : Tree K V) (w : ℤ) :
    recolor (.node a l r) w = .node (a.reweigh w) l r := rfl

@[simp] theorem wt_recolor (t : Tree K V) (w : ℤ) : wt (recolor t w) = w := by
  cases t <;> rfl

@[simp] theorem wt_flip (t : Tree K V) : wt t.flip = wt t := by
  rw [wt, LTree.label_flip]

@[simp] theorem flip_recolor (t : Tree K V) (w : ℤ) : (recolor t w).flip = recolor t.flip w := by
  cases t <;> rfl

/-! ### The weight invariant of a subtree -/

/-- All paths to a leaf have the weight `h`, no weight is negative and no leaf has weight zero. -/
def Fits : ℤ → Tree K V → Prop
  | h, .leaf a => 1 ≤ a.weight ∧ a.weight = h
  | h, .node a l r => 0 ≤ a.weight ∧ Fits (h - a.weight) l ∧ Fits (h - a.weight) r

@[simp] theorem fits_leaf {h : ℤ} {a : Item K V} :
    Fits h (.leaf a) ↔ 1 ≤ a.weight ∧ a.weight = h := Iff.rfl

@[simp] theorem fits_node {h : ℤ} {a : Item K V} {l r : Tree K V} :
    Fits h (.node a l r) ↔ 0 ≤ a.weight ∧ Fits (h - a.weight) l ∧ Fits (h - a.weight) r := Iff.rfl

theorem fits_iff {h : ℤ} {t : Tree K V} : Fits h t ↔ (∀ a ∈ t.labels, 0 ≤ a.weight) ∧
    (∀ a ∈ t.leaves, 1 ≤ a.weight) ∧ t.Bal Item.weight h := by
  induction t generalizing h with
  | leaf a =>
      simp only [fits_leaf, LTree.labels_leaf, LTree.leaves_leaf, List.mem_singleton, forall_eq,
        LTree.bal_leaf]
      constructor
      · rintro ⟨h1, h2⟩
        exact ⟨by omega, h1, h2⟩
      · rintro ⟨-, h1, h2⟩
        exact ⟨h1, h2⟩
  | node a l r ihl ihr =>
      simp only [fits_node, ihl, ihr, LTree.labels_node, LTree.leaves_node, List.mem_cons,
        List.mem_append, or_imp, forall_and, forall_eq, LTree.bal_node]
      tauto

theorem fits_flip {h : ℤ} {t : Tree K V} : Fits h t.flip ↔ Fits h t := by
  induction t generalizing h with
  | leaf a => rfl
  | node a l r ihl ihr =>
      rw [LTree.flip_node, fits_node, fits_node, ihl, ihr, and_comm (a := Fits _ r)]

namespace Fits

variable {h : ℤ} {t : Tree K V}

theorem wt_nonneg (hf : Fits h t) : 0 ≤ wt t := by
  cases t with
  | leaf a => exact zero_le_one.trans hf.1
  | node a l r => exact hf.1

theorem wt_le (hf : Fits h t) : wt t ≤ h := by
  induction t generalizing h with
  | leaf a => exact hf.2.le
  | node a l r ihl ihr =>
      have := ihl hf.2.1
      have := hf.2.1.wt_nonneg
      simp only [wt, LTree.label_node] at *
      omega

theorem pos (hf : Fits h t) : 1 ≤ h := by
  induction t generalizing h with
  | leaf a => exact hf.1.trans hf.2.le
  | node a l r ihl ihr =>
      have := ihl hf.2.1
      have := hf.1
      omega

theorem of_eq {h' : ℤ} (hf : Fits h t) (he : h = h') : Fits h' t := he ▸ hf

/-- Another weight at the top. -/
theorem recolored {w h' : ℤ} (hf : Fits h t) (hw : 1 ≤ w) (he : h' = h - wt t + w) :
    Fits h' (recolor t w) := by
  cases t with
  | leaf a =>
      have := hf.2
      exact ⟨hw, by simp only [wt_leaf] at he; simp only [reweigh_weight]; omega⟩
  | node a l r =>
      rw [wt_node] at he
      rw [recolor_node, fits_node, reweigh_weight]
      exact ⟨by omega, hf.2.1.of_eq (by omega), hf.2.2.of_eq (by omega)⟩

/-- A tree that is lighter at its top than its paths has two subtrees. -/
theorem exists_node (hf : Fits h t) (hlt : wt t < h) : ∃ a l r, t = .node a l r ∧
    a.weight = wt t ∧ Fits (h - a.weight) l ∧ Fits (h - a.weight) r := by
  cases t with
  | leaf a => exact absurd hf.2 hlt.ne
  | node a l r => exact ⟨a, l, r, rfl, rfl, hf.2⟩

/-- A red node is no leaf. -/
theorem exists_red (hf : Fits h t) (h0 : wt t = 0) : ∃ a l r, t = .node a l r ∧
    a.weight = 0 ∧ Fits h l ∧ Fits h r := by
  have := hf.pos
  obtain ⟨a, l, r, rfl, ha, hl, hr⟩ := hf.exists_node (by omega)
  rw [ha, h0, sub_zero] at hl hr
  exact ⟨a, l, r, rfl, ha.trans h0, hl, hr⟩

/-- A tree may become heavier at its top. -/
theorem heavier {w h' : ℤ} (hf : Fits h t) (hw : wt t ≤ w) (he : h' = h - wt t + w) :
    Fits h' (recolor t w) := by
  by_cases h0 : 1 ≤ w
  · exact hf.recolored h0 he
  · have := hf.wt_nonneg
    obtain ⟨a, l, r, rfl, ha, hl, hr⟩ := hf.exists_red (by omega)
    rw [recolor_node, fits_node, reweigh_weight]
    rw [wt_node] at hw he
    exact ⟨by omega, hl.of_eq (by omega), hr.of_eq (by omega)⟩

end Fits

/-! ### The rules -/

/-- The violation below a red node with the children `l` and `r` that a search has found at the left
or the right one: two red nodes, or an overweight child beside a red one. -/
def Bad (left : Bool) (l r : Tree K V) : Prop :=
  let v := if left then l else r
  let s := if left then r else l
  wt v = 0 ∨ 1 < wt v ∧ wt s = 0

/-- **The rules for a violation on the left.**  The list says where the violation is: the turns from
the top of the replaced subtree to it.  `top` tells the subtree that is the whole tree below the
sentinels, whose weight is always one. -/
inductive Rule (top : Bool) : List Bool → Tree K V → Tree K V → Prop
  | blk {a b c : Item K V} {bl br cl cr : Tree K V} {d : Bool} (ha : a.weight = 1)
      (hb : b.weight = 0) (hc : c.weight = 0) (hv : Bad d bl br) :
      Rule top [true, d] (.node a (.node b bl br) (.node c cl cr))
        (.node (a.reweigh (if top then 1 else a.weight - 1)) (.node (b.reweigh 1) bl br)
          (.node (c.reweigh 1) cl cr))
  | rb1 {a b : Item K V} {bl br c : Tree K V} {d : Bool} (ha : a.weight = 1) (hb : b.weight = 0)
      (hbl : wt bl = 0) (hc : wt c ≠ 0) (hv : d = false → 1 < wt br) :
      Rule top [true, d] (.node a (.node b bl br) c)
        (.node (b.reweigh a.weight) bl (.node (a.reweigh 0) br c))
  | rb2 {a b q : Item K V} {bl x y c : Tree K V} {d : Bool} (ha : a.weight = 1)
      (hb : b.weight = 0) (hq : q.weight = 0) (hc : wt c ≠ 0) (hv : d = true → 1 < wt bl) :
      Rule top [true, d] (.node a (.node b bl (.node q x y)) c)
        (.node (q.reweigh a.weight) (.node (b.reweigh 0) bl x) (.node (a.reweigh 0) y c))
  | rb2Far {a b q : Item K V} {bl x y c : Tree K V} (ha : a.weight = 1)
      (hb : b.weight = 0) (hq : q.weight = 0) (hc : 1 < wt c) :
      Rule top [false] (.node a (.node b bl (.node q x y)) c)
        (.node (q.reweigh a.weight) (.node (b.reweigh 0) bl x) (.node (a.reweigh 0) y c))
  | push {a r : Item K V} {l rl rr : Tree K V} (ha : a.weight ≤ 1) (hl : 1 < wt l)
      (hr : r.weight = 1) (hrl : wt rl ≠ 0) (hrr : wt rr ≠ 0) :
      Rule top [true] (.node a l (.node r rl rr))
        (.node (a.reweigh (if top then 1 else a.weight + 1)) (recolor l (wt l - 1))
          (.node (r.reweigh 0) rl rr))
  | w1 {a r : Item K V} {l rl rr : Tree K V} (ha : a.weight = 1) (hl : 1 < wt l)
      (hr : r.weight = 0) (hrl : 1 < wt rl) :
      Rule top [true] (.node a l (.node r rl rr))
        (.node (r.reweigh a.weight)
          (.node (a.reweigh 1) (recolor l (wt l - 1)) (recolor rl (wt rl - 1))) rr)
  | w2 {a r p : Item K V} {l x y rr : Tree K V} (ha : a.weight = 1) (hl : 1 < wt l)
      (hr : r.weight = 0) (hp : p.weight = 1) (hx : wt x ≠ 0) (hy : wt y ≠ 0) :
      Rule top [true] (.node a l (.node r (.node p x y) rr))
        (.node (r.reweigh a.weight)
          (.node (a.reweigh 1) (recolor l (wt l - 1)) (.node (p.reweigh 0) x y)) rr)
  | w3 {a r p q : Item K V} {l x y z rr : Tree K V} (ha : a.weight = 1) (hl : 1 < wt l)
      (hr : r.weight = 0) (hp : p.weight = 1) (hq : q.weight = 0) (hz : wt z ≠ 0) :
      Rule top [true] (.node a l (.node r (.node p (.node q x y) z) rr))
        (.node (r.reweigh a.weight)
          (.node (q.reweigh 0) (.node (a.reweigh 1) (recolor l (wt l - 1)) x)
            (.node (p.reweigh 1) y z)) rr)
  | w4 {a r p q : Item K V} {l x y z rr : Tree K V} (ha : a.weight = 1) (hl : 1 < wt l)
      (hr : r.weight = 0) (hp : p.weight = 1) (hq : q.weight = 0) :
      Rule top [true] (.node a l (.node r (.node p x (.node q y z)) rr))
        (.node (p.reweigh a.weight) (.node (a.reweigh 1) (recolor l (wt l - 1)) x)
          (.node (r.reweigh 0) (.node (q.reweigh 1) y z) rr))
  | w5 {a r q : Item K V} {l rl x y : Tree K V} (ha : a.weight ≤ 1) (hl : 1 < wt l)
      (hr : r.weight = 1) (hq : q.weight = 0) :
      Rule top [true] (.node a l (.node r rl (.node q x y)))
        (.node (r.reweigh a.weight) (.node (a.reweigh 1) (recolor l (wt l - 1)) rl)
          (.node (q.reweigh 1) x y))
  | w6 {a r q : Item K V} {l x y rr : Tree K V} (ha : a.weight ≤ 1) (hl : 1 < wt l)
      (hr : r.weight = 1) (hq : q.weight = 0) (hrr : wt rr ≠ 0) :
      Rule top [true] (.node a l (.node r (.node q x y) rr))
        (.node (q.reweigh a.weight) (.node (a.reweigh 1) (recolor l (wt l - 1)) x)
          (.node (r.reweigh 1) y rr))
  | w7 {a : Item K V} {l r : Tree K V} (ha : a.weight ≤ 1) (hl : 1 < wt l) (hr : 1 < wt r) :
      Rule top [true] (.node a l r)
        (.node (a.reweigh (if top then 1 else a.weight + 1)) (recolor l (wt l - 1))
          (recolor r (wt r - 1)))

/-- **A rule or the mirror image of a rule.** -/
def Rewrites (top : Bool) (way : List Bool) (t t' : Tree K V) : Prop :=
  Rule top way t t' ∨ Rule top (way.map not) t.flip t'.flip

theorem Rule.rewrites {top : Bool} {way : List Bool} {t t' : Tree K V} (h : Rule top way t t') :
    Rewrites top way t t' := .inl h

theorem Rule.rewrites_flip {top : Bool} {way : List Bool} {t t' : Tree K V}
    (h : Rule top way t t') : Rewrites top (way.map not) t.flip t'.flip := by
  refine .inr ?_
  simpa [List.map_map, Function.comp_def] using h

theorem rewrites_flip {top : Bool} {way : List Bool} {t t' : Tree K V} :
    Rewrites top (way.map not) t.flip t'.flip ↔ Rewrites top way t t' := by
  unfold Rewrites
  rw [LTree.flip_flip, LTree.flip_flip, List.map_map, or_comm]
  simp [Function.comp_def]

/-! ### The case distinction comes to a rule -/

/-- The node at the top of a tree. -/
def load : Tree K V → Node K V
  | .leaf a => ⟨a, .nil, .nil⟩
  | .node a l r => ⟨a, l.ptr, r.ptr⟩

@[simp] theorem load_toItem (t : Tree K V) : (load t).toItem = t.label := by
  cases t <;> rfl
@[simp] theorem load_node (a : Item K V) (l r : Tree K V) :
    load (.node a l r) = ⟨a, l.ptr, r.ptr⟩ := rfl
@[simp] theorem llx_node (a : Item K V) (l r : Ptr K V) :
    llx (.node a l r) = .ok ⟨a, l, r⟩ := rfl
@[simp] theorem isNull_node (a : Item K V) (l r : Ptr K V) : isNull (.node a l r) = false := rfl
@[simp] theorem llx_ptr (t : Tree K V) : llx t.ptr = .ok (load t) := by
  cases t <;> rfl
@[simp] theorem load_mirror (t : Tree K V) : (load t).mirror = load t.flip := by
  cases t with
  | leaf a => rfl
  | node a l r => simp [Node.mirror, load, LTree.ptr_flip]

@[simp] theorem init_load (t : Tree K V) (w : ℤ) :
    initializeNode t.label.key t.label.value w (load t).left (load t).right =
      (recolor t w).ptr := by
  cases t <;> rfl

/-- A node with a child on the left or on the right of another one. -/
def branch (left : Bool) (g : Item K V) (t c : Tree K V) : Tree K V :=
  if left then .node g t c else .node g c t

@[simp] theorem branch_true (g : Item K V) (t c : Tree K V) : branch true g t c = .node g t c := rfl
@[simp] theorem branch_false (g : Item K V) (t c : Tree K V) :
    branch false g t c = .node g c t := rfl

@[simp] theorem flip_branch (e : Bool) (g : Item K V) (t c : Tree K V) :
    (branch e g t c).flip = branch (!e) g t.flip c.flip := by
  cases e <;> rfl

section Dispatch

variable [DecidableEq K] {noKey : K} {u uX : Node K V} {a : Item K V} {l r : Tree K V} {h : ℤ}
  {b : Bool}

/-- **The sibling of an overweight left child is red, their parent is not.** -/
theorem overweightLeft_red (hf : Fits h (.node a l r)) (ha : a.weight = 1) (hl : 1 < wt l)
    (hr : wt r = 0) : ∃ t', overweightLeft noKey u uX (load (.node a l r)) (load l) (load r) b =
      .ok (.uX, t'.ptr) ∧ Rewrites (isSentinel noKey a uX.toItem) [true] (.node a l r) t' := by
  obtain ⟨-, hfl, hfr⟩ := hf
  have hH := hfl.wt_le
  obtain ⟨r, rl, rr, rfl, hr0, hfrl, hfrr⟩ := hfr.exists_red hr
  have hRl := hfrl.wt_nonneg
  have ha0 : a.weight ≠ 0 := by omega
  rcases lt_trichotomy (wt rl) 1 with h1 | h1 | h1
  · -- the nephew is red: it is rotated upwards
    obtain ⟨q, x, y, rfl, hq, -, -⟩ := hfrl.exists_red (by omega)
    refine ⟨.node (q.reweigh a.weight) (.node (a.reweigh 0) l x) (.node (r.reweigh 0) y rr), ?_,
      .inr (.rb2Far ha hr0 hq (by simpa using hl))⟩
    simp [overweightLeft, hr0, ha0, hq, ok_bind]
    rfl
  · obtain ⟨p, x, z, rfl, hp, hfx, hfz⟩ := hfrl.exists_node (by omega)
    by_cases hz : wt z = 0
    · obtain ⟨q, y, z, rfl, hq, -, -⟩ := hfz.exists_red hz
      refine ⟨_, ?_, (Rule.w4 ha hl hr0 (hp.trans h1) hq).rewrites⟩
      simp [overweightLeft, hr0, ha0, hq, hp, h1, ok_bind, doW4]
      rfl
    · by_cases hx : wt x = 0
      · obtain ⟨q, x, y, rfl, hq, -, -⟩ := hfx.exists_red hx
        refine ⟨_, ?_, (Rule.w3 ha hl hr0 (hp.trans h1) hq hz).rewrites⟩
        simp [overweightLeft, hr0, ha0, hq, hp, h1, hz, ok_bind, doW3, isNull_ptr]
        rfl
      · refine ⟨_, ?_, (Rule.w2 ha hl hr0 (hp.trans h1) hx hz).rewrites⟩
        simp [overweightLeft, hr0, ha0, hp, h1, hx, hz, ok_bind, doW2, isNull_ptr]
        rfl
  · refine ⟨_, ?_, (Rule.w1 ha hl hr0 h1).rewrites⟩
    simp [overweightLeft, hr0, ha0, h1, ok_bind, doW1]
    rfl

/-- **The sibling of an overweight left child is not red.** -/
theorem overweightLeft_black (hf : Fits h (.node a l r)) (ha : a.weight ≤ 1) (hl : 1 < wt l)
    (hr : wt r ≠ 0) : ∃ t', overweightLeft noKey u uX (load (.node a l r)) (load l) (load r) b =
      .ok (.uX, t'.ptr) ∧ Rewrites (isSentinel noKey a uX.toItem) [true] (.node a l r) t' := by
  obtain ⟨-, hfl, hfr⟩ := hf
  have hH := hfl.wt_le
  have hR := hfr.wt_nonneg
  by_cases hr1 : wt r = 1
  · obtain ⟨r, rl, rr, rfl, hrw, hfrl, hfrr⟩ := hfr.exists_node (by omega)
    have hw1 : r.weight = 1 := hrw.trans hr1
    by_cases hrr : wt rr = 0
    · obtain ⟨q, x, y, rfl, hq, -, -⟩ := hfrr.exists_red hrr
      refine ⟨_, ?_, (Rule.w5 ha hl hw1 hq).rewrites⟩
      simp [overweightLeft, hw1, hq, ok_bind, isNull_ptr, doW5]
      rfl
    · by_cases hrl : wt rl = 0
      · obtain ⟨q, x, y, rfl, hq, -, -⟩ := hfrl.exists_red hrl
        refine ⟨_, ?_, (Rule.w6 ha hl hw1 hq hrr).rewrites⟩
        simp [overweightLeft, hw1, hq, hrr, ok_bind, doW6]
        rfl
      · refine ⟨_, ?_, (Rule.push ha hl hw1 hrl hrr).rewrites⟩
        simp [overweightLeft, hw1, hrl, hrr, ok_bind, isNull_ptr, doPush]
        rfl
  · refine ⟨_, ?_, (Rule.w7 ha hl (by omega)).rewrites⟩
    simp [overweightLeft, hr, hr1, doW7]
    rfl

/-- **An overweight left child, its red sibling and their red parent**, which is a left child. -/
theorem overweightLeft_left {g : Item K V} {c : Tree K V}
    (hf : Fits h (.node g (.node a l r) c)) (hg : g.weight = 1) (ha : a.weight = 0)
    (hl : 1 < wt l) (hr : wt r = 0) :
    ∃ t', overweightLeft noKey u (load (.node g (.node a l r) c)) (load (.node a l r)) (load l)
      (load r) true = .ok (.u, t'.ptr) ∧
      Rewrites (isSentinel noKey g u.toItem) [true, true] (.node g (.node a l r) c) t' := by
  obtain ⟨-, ⟨-, hfl, hfr⟩, hfc⟩ := hf
  obtain ⟨r, x, y, rfl, hr0, -, -⟩ := hfr.exists_red hr
  by_cases hc : wt c = 0
  · obtain ⟨c, cl, cr, rfl, hc0, -, -⟩ := hfc.exists_red hc
    refine ⟨_, ?_, (Rule.blk (d := true) hg ha hc0 (.inr ⟨hl, hr⟩)).rewrites⟩
    simp [overweightLeft, ha, hr0, hc0, ok_bind, doBlk]
    rfl
  · refine ⟨_, ?_, (Rule.rb2 (d := true) hg ha hr0 hc fun _ => hl).rewrites⟩
    simp [overweightLeft, ha, hr0, hc, ok_bind]
    rfl

/-- **An overweight left child, its red sibling and their red parent**, which is a right child. -/
theorem overweightLeft_right {g : Item K V} {c : Tree K V}
    (hf : Fits h (.node g c (.node a l r))) (hg : g.weight = 1) (ha : a.weight = 0)
    (hl : 1 < wt l) (hr : wt r = 0) :
    ∃ t', overweightLeft noKey u (load (.node g c (.node a l r))) (load (.node a l r)) (load l)
      (load r) false = .ok (.u, t'.ptr) ∧
      Rewrites (isSentinel noKey g u.toItem) [false, true] (.node g c (.node a l r)) t' := by
  obtain ⟨-, hfc, -, hfl, hfr⟩ := hf
  have hrf : wt r.flip = 0 := by rwa [wt_flip]
  have hlf : 1 < wt l.flip := by rwa [wt_flip]
  by_cases hc : wt c = 0
  · obtain ⟨c, cl, cr, rfl, hc0, -, -⟩ := hfc.exists_red hc
    refine ⟨.node (g.reweigh (if isSentinel noKey g u.toItem then 1 else g.weight - 1))
      (.node (c.reweigh 1) cl cr) (.node (a.reweigh 1) l r), ?_,
      .inr (.blk hg ha hc0 (.inr ⟨hlf, hrf⟩))⟩
    simp [overweightLeft, ha, hr, hc0, ok_bind, doBlk]
    rfl
  · refine ⟨.node (a.reweigh g.weight) (.node (g.reweigh 0) c l) r, ?_,
      .inr (.rb1 hg ha hrf (by rwa [wt_flip]) fun _ => hlf)⟩
    simp [overweightLeft, ha, hr, hc, ok_bind]
    rfl

/-- **Two red nodes, the upper one a left child.** -/
theorem redRed_left {g : Item K V} {c : Tree K V} {d : Bool}
    (hf : Fits h (.node g (.node a l r) c)) (hg : g.weight = 1) (ha : a.weight = 0)
    (hv : wt (if d then l else r) = 0) :
    ∃ t', redRed noKey u (load (.node g (.node a l r) c)) (load (.node a l r)) (load l) (load r)
      true d = .ok (.u, t'.ptr) ∧
      Rewrites (isSentinel noKey g u.toItem) [true, d] (.node g (.node a l r) c) t' := by
  obtain ⟨-, ⟨-, hfl, hfr⟩, hfc⟩ := hf
  by_cases hc : wt c = 0
  · obtain ⟨c, cl, cr, rfl, hc0, -, -⟩ := hfc.exists_red hc
    refine ⟨_, ?_, (Rule.blk hg ha hc0 (.inl hv)).rewrites⟩
    simp [redRed, hc0, ok_bind, doBlk]
    rfl
  · cases d with
    | true =>
        refine ⟨_, ?_, (Rule.rb1 (d := true) hg ha (show wt l = 0 from hv) hc
          (by intro h; cases h)).rewrites⟩
        simp [redRed, hc, ok_bind]
        rfl
    | false =>
        obtain ⟨q, x, y, rfl, hq, -, -⟩ := hfr.exists_red hv
        refine ⟨_, ?_, (Rule.rb2 (d := false) hg ha hq hc (by intro h; cases h)).rewrites⟩
        simp [redRed, hc, ok_bind]
        rfl

/-- The case distinction may be made in the mirror image. -/
theorem rebalance_eq_mirror {uXX uXXX : Node K V} {d : Bool} :
    rebalance noKey u uX uXX b uXXX d = mirrorNew <$>
      rebalance noKey u.mirror uX.mirror uXX.mirror (!b) uXXX.mirror (!d) := by
  have hm : rebalance noKey u uX uXX.mirror.mirror b uXXX.mirror.mirror (!!d) = mirrorNew <$>
      rebalance noKey u.mirror uX.mirror uXX.mirror (!b) uXXX.mirror (!d) :=
    rebalance_mirror rfl rfl fun _ => ⟨(mirror_mirror uX).symm, (Bool.not_not b).symm⟩
  simpa using hm

theorem rebalance_of_mirror {uXX uXXX : Node K V} {d : Bool} {spot : Spot} {t' : Tree K V}
    (he : rebalance noKey u.mirror uX.mirror uXX.mirror (!b) uXXX.mirror (!d) =
      .ok (spot, t'.ptr)) :
    rebalance noKey u uX uXX b uXXX d = .ok (spot, t'.flip.ptr) := by
  rw [rebalance_eq_mirror, he, map_ok, mirrorNew_mk, LTree.ptr_flip]

/-- **An overweight node is repaired below its grandparent** unless its parent and its sibling are
red. -/
theorem rebalance_over {v s : Tree K V} {d : Bool} (hf : Fits h (branch d a v s))
    (ha : a.weight ≤ 1) (hv : 1 < wt v) (hs : a.weight ≠ 0 ∨ wt s ≠ 0) :
    ∃ t', rebalance noKey u uX (load (branch d a v s)) b (load v) d = .ok (.uX, t'.ptr) ∧
      Rewrites (isSentinel noKey a uX.toItem) [d] (branch d a v s) t' := by
  -- on the left first, then in the mirror image
  have left : ∀ {u uX : Node K V} {b : Bool} {v s : Tree K V}, Fits h (.node a v s) → 1 < wt v →
      (a.weight ≠ 0 ∨ wt s ≠ 0) → ∃ t', rebalance noKey u uX (load (.node a v s)) b (load v) true =
        .ok (.uX, t'.ptr) ∧ Rewrites (isSentinel noKey a uX.toItem) [true] (.node a v s) t' := by
    intro u uX b v s hf hv hs
    have he : rebalance noKey u uX (load (.node a v s)) b (load v) true =
        overweightLeft noKey u uX (load (.node a v s)) (load v) (load s) b := by
      simp [rebalance, ok_bind, hv]
    rw [he]
    have := hf.1
    by_cases h0 : wt s = 0
    · have := hs.resolve_right (not_not.mpr h0)
      exact overweightLeft_red hf (by omega) hv h0
    · exact overweightLeft_black hf ha hv h0
  cases d with
  | true => exact left hf hv hs
  | false =>
      have hf' : Fits h (.node a v.flip s.flip) := by
        rw [← LTree.flip_node, fits_flip]
        exact hf
      obtain ⟨t', he, ht'⟩ := @left u.mirror uX.mirror (!b) v.flip s.flip hf' (by rwa [wt_flip])
        (by rwa [wt_flip])
      refine ⟨t'.flip, rebalance_of_mirror ?_, ?_⟩
      · rw [load_mirror, load_mirror]
        exact he
      · rw [← rewrites_flip, LTree.flip_flip]
        exact ht'

/-- **A violation below a red node is repaired below the great-grandparent.** -/
theorem rebalance_red {g : Item K V} {v s c : Tree K V} {e d : Bool}
    (hf : Fits h (branch e g (branch d a v s) c)) (hg : g.weight = 1) (ha : a.weight = 0)
    (hv : wt v = 0 ∨ 1 < wt v ∧ wt s = 0) :
    ∃ t', rebalance noKey u (load (branch e g (branch d a v s) c)) (load (branch d a v s)) e
      (load v) d = .ok (.u, t'.ptr) ∧
      Rewrites (isSentinel noKey g u.toItem) [e, d] (branch e g (branch d a v s) c) t' := by
  -- an overweight left child first, or two red nodes the upper one of which is a left child
  have heavy : ∀ {u : Node K V} {v s c : Tree K V} {e : Bool},
      Fits h (branch e g (.node a v s) c) → 1 < wt v → wt s = 0 →
      ∃ t', rebalance noKey u (load (branch e g (.node a v s) c)) (load (.node a v s)) e (load v)
        true = .ok (.u, t'.ptr) ∧
        Rewrites (isSentinel noKey g u.toItem) [e, true] (branch e g (.node a v s) c) t' := by
    intro u v s c e hf hv hs
    have he : ∀ uX, rebalance noKey u uX (load (.node a v s)) e (load v) true =
        overweightLeft noKey u uX (load (.node a v s)) (load v) (load s) e := by
      intro uX
      simp [rebalance, ok_bind, hv]
    rw [he]
    cases e with
    | true => exact overweightLeft_left hf hg ha hv hs
    | false => exact overweightLeft_right hf hg ha hv hs
  have red : ∀ {u : Node K V} {v s c : Tree K V} {d : Bool},
      Fits h (.node g (branch d a v s) c) → wt v = 0 →
      ∃ t', rebalance noKey u (load (.node g (branch d a v s) c)) (load (branch d a v s)) true
        (load v) d = .ok (.u, t'.ptr) ∧
        Rewrites (isSentinel noKey g u.toItem) [true, d] (.node g (branch d a v s) c) t' := by
    intro u v s c d hf hv
    cases d with
    | true =>
        have he : ∀ uX, rebalance noKey u uX (load (.node a v s)) true (load v) true =
            redRed noKey u uX (load (.node a v s)) (load v) (load s) true true := by
          intro uX
          simp [rebalance, ok_bind, hv]
        rw [branch_true, he]
        exact redRed_left (d := true) hf hg ha hv
    | false =>
        have he : ∀ uX, rebalance noKey u uX (load (.node a s v)) true (load v) false =
            redRed noKey u uX (load (.node a s v)) (load s) (load v) true false := by
          intro uX
          simp [rebalance, ok_bind, hv]
        rw [branch_false, he]
        exact redRed_left (d := false) hf hg ha hv
  -- the remaining cases are their mirror images
  have hff : Fits h (branch (!e) g (branch (!d) a v.flip s.flip) c.flip) := by
    rw [← flip_branch, ← flip_branch, fits_flip]
    exact hf
  rcases hv with hv | ⟨hv, hs⟩
  · cases e with
    | true => exact red hf hv
    | false =>
        obtain ⟨t', he, ht'⟩ := red (u := u.mirror) hff (by rwa [wt_flip])
        refine ⟨t'.flip, rebalance_of_mirror ?_, ?_⟩
        · rw [load_mirror, load_mirror, load_mirror, flip_branch, flip_branch]
          exact he
        · rw [← rewrites_flip, LTree.flip_flip, flip_branch, flip_branch]
          exact ht'
  · cases d with
    | true => exact heavy hf hv hs
    | false =>
        obtain ⟨t', he, ht'⟩ := heavy (u := u.mirror) hff (by rwa [wt_flip]) (by rwa [wt_flip])
        refine ⟨t'.flip, rebalance_of_mirror ?_, ?_⟩
        · rw [load_mirror, load_mirror, load_mirror, flip_branch, flip_branch]
          exact he
        · rw [← rewrites_flip, LTree.flip_flip, flip_branch, flip_branch]
          exact ht'

end Dispatch

end Cbat.Chromatic
