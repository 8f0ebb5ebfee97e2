/-
**Patches: replacing the top of a subtree.**

An update of a search tree that is stored as linked nodes replaces a few nodes at the top of a
subtree and keeps the subtrees that hang below them.  A *patch* is such a top: a tree some of whose
leaves are references to the subtrees that stay.  Two patches that list the same exits, with the
same bounds and the same weights above them, are interchangeable: the order, the balance, the
leaves and the way every search leaves the patch are the same.  For a rotation that equation of
lists is all there is to prove.

Main definitions:

* `Patch`, `Patch.plug` — patches, and the tree that a patch stands for;
* `Patch.trace` — **the exits of a patch** from left to right, each with its weight and bounds;
* `Patch.spine`, `Patch.route` — the labels a search meets in the patch, and where it leaves it.

Main results:

* `Patch.path_plug` — a search in the plugged tree goes through the patch and on in the subtree;
* `Patch.within_plug_iff`, `Patch.bal_plug_iff` — order and balance of the plugged tree are read off
  the trace;
* `Patch.route_eq_of_trace_eq` — **patches with equal traces route every search alike**.
-/

import Cbat.LeafTree
import Mathlib.Data.List.Pairwise
import Mathlib.Data.List.Perm.Basic
import Mathlib.Tactic.Ring

set_option relaxedAutoImplicit false
set_option autoImplicit false

/-- The top of a subtree; `sub i` refers to a subtree that hangs below it. -/
inductive Patch (α ι : Type*) where
  | sub (i : ι) : Patch α ι
  | leaf (a : α) : Patch α ι
  | node (a : α) (l r : Patch α ι) : Patch α ι

namespace Patch

variable {α β ι κ : Type*}

/-- The tree a patch stands for when `F` gives the subtrees. -/
def plug (F : ι → LTree α) : Patch α ι → LTree α
  | sub i => F i
  | leaf a => .leaf a
  | node a l r => .node a (l.plug F) (r.plug F)

/-- The labels of a patch, the top first. -/
def labels : Patch α ι → List α
  | sub _ => []
  | leaf a => [a]
  | node a l r => a :: (l.labels ++ r.labels)

/-- The references of a patch, from left to right. -/
def subs : Patch α ι → List ι
  | sub i => [i]
  | leaf _ => []
  | node _ l r => l.subs ++ r.subs

theorem plug_congr {F G : ι → LTree α} {p : Patch α ι} (h : ∀ i ∈ p.subs, F i = G i) :
    p.plug F = p.plug G := by
  induction p with
  | sub i => exact h i (by simp [subs])
  | leaf a => rfl
  | node a l r ihl ihr =>
      rw [plug, plug, ihl fun i hi => h i (List.mem_append_left _ hi),
        ihr fun i hi => h i (List.mem_append_right _ hi)]

/-- A part of a patch: the patch below one of its labels or references. -/
inductive Part (q : Patch α ι) : Patch α ι → Prop
  | refl : Part q q
  | left {l : Patch α ι} (a : α) (r : Patch α ι) : Part q l → Part q (node a l r)
  | right {r : Patch α ι} (a : α) (l : Patch α ι) : Part q r → Part q (node a l r)

theorem Part.trans {p q r : Patch α ι} (h : Part r q) (h' : Part q p) : Part r p := by
  induction h' with
  | refl => exact h
  | left a r _ ih => exact .left a r ih
  | right a l _ ih => exact .right a l ih

theorem Part.subs {p q : Patch α ι} (h : Part q p) : q.subs ⊆ p.subs := by
  induction h with
  | refl => exact List.Subset.refl _
  | left a r _ ih => exact List.Subset.trans ih (List.subset_append_left ..)
  | right a l _ ih => exact List.Subset.trans ih (List.subset_append_right ..)

theorem Part.labels {p q : Patch α ι} (h : Part q p) : q.labels ⊆ p.labels := by
  induction h with
  | refl => exact List.Subset.refl _
  | left a r _ ih =>
      exact fun x hx => List.mem_cons_of_mem _ (List.mem_append_left _ (ih hx))
  | right a l _ ih =>
      exact fun x hx => List.mem_cons_of_mem _ (List.mem_append_right _ (ih hx))

/-- Every label is at the top of a part. -/
theorem exists_part {p : Patch α ι} {a : α} (h : a ∈ p.labels) :
    Part (leaf a) p ∨ ∃ l r, Part (node a l r) p := by
  induction p with
  | sub i => simp [Patch.labels] at h
  | leaf b =>
      obtain rfl : a = b := by simpa [Patch.labels] using h
      exact .inl .refl
  | node b l r ihl ihr =>
      rcases List.mem_cons.mp h with rfl | h
      · exact .inr ⟨l, r, .refl⟩
      · rcases List.mem_append.mp h with h | h
        · rcases ihl h with h | ⟨l', r', h⟩
          · exact .inl (.left b r h)
          · exact .inr ⟨l', r', .left b r h⟩
        · rcases ihr h with h | ⟨l', r', h⟩
          · exact .inl (.right b l h)
          · exact .inr ⟨l', r', .right b l h⟩

/-- Relabelling. -/
def map (f : α → β) : Patch α ι → Patch β ι
  | sub i => sub i
  | leaf a => leaf (f a)
  | node a l r => node (f a) (l.map f) (r.map f)

theorem labels_map (f : α → β) (p : Patch α ι) : (p.map f).labels = p.labels.map f := by
  induction p with
  | sub i => rfl
  | leaf a => rfl
  | node a l r ihl ihr => simp [map, labels, ihl, ihr]

theorem subs_map (f : α → β) (p : Patch α ι) : (p.map f).subs = p.subs := by
  induction p with
  | sub i => rfl
  | leaf a => rfl
  | node a l r ihl ihr => simp [map, subs, ihl, ihr]

theorem mem_labels_plug (F : ι → LTree α) (p : Patch α ι) (a : α) :
    a ∈ (p.plug F).labels ↔ a ∈ p.labels ∨ ∃ i ∈ p.subs, a ∈ (F i).labels := by
  induction p with
  | sub i => simp [plug, labels, subs]
  | leaf b => simp [plug, labels, subs]
  | node b l r ihl ihr =>
      simp only [plug, LTree.labels_node, List.mem_cons, List.mem_append, ihl, ihr, labels, subs]
      constructor
      · rintro (h | (h | ⟨i, hi, h⟩) | (h | ⟨i, hi, h⟩))
        · exact .inl (.inl h)
        · exact .inl (.inr (.inl h))
        · exact .inr ⟨i, .inl hi, h⟩
        · exact .inl (.inr (.inr h))
        · exact .inr ⟨i, .inr hi, h⟩
      · rintro ((h | h | h) | ⟨i, hi | hi, h⟩)
        · exact .inl h
        · exact .inr (.inl (.inl h))
        · exact .inr (.inr (.inl h))
        · exact .inr (.inl (.inr ⟨i, hi, h⟩))
        · exact .inr (.inr (.inr ⟨i, hi, h⟩))

theorem labels_plug_perm (F : ι → LTree α) (p : Patch α ι) :
    (p.plug F).labels.Perm (p.labels ++ p.subs.flatMap fun i => (F i).labels) := by
  induction p with
  | sub i => simp [plug, labels, subs]
  | leaf a => simp [plug, labels, subs]
  | node a l r ihl ihr =>
      simp only [plug, LTree.labels_node, labels, subs, List.flatMap_append, List.cons_append]
      refine .cons a ((ihl.append ihr).trans ?_)
      simp only [List.append_assoc]
      refine .append_left _ ?_
      simp only [← List.append_assoc]
      exact .append_right _ List.perm_append_comm

/-! ### Searching through a patch -/

section Search

variable [LinearOrder κ] (key : α → κ)

/-- The labels that a search for `q` meets inside the patch. -/
def spine (q : κ) : Patch α ι → List α
  | sub _ => []
  | leaf a => [a]
  | node a l r => a :: if q < key a then l.spine q else r.spine q

/-- Where a search for `q` leaves the patch: in a subtree, or in a leaf of the patch. -/
def route (q : κ) : Patch α ι → ι ⊕ α
  | sub i => .inl i
  | leaf a => .inr a
  | node a l r => if q < key a then l.route q else r.route q

/-- **A search goes through the patch and on in the subtree where it leaves it.** -/
theorem path_plug (F : ι → LTree α) (q : κ) (p : Patch α ι) :
    (p.plug F).path key q =
      p.spine key q ++ Sum.elim (fun i => (F i).path key q) (fun _ => []) (p.route key q) := by
  induction p with
  | sub i => simp [plug, spine, route]
  | leaf a => simp [plug, spine, route]
  | node a l r ihl ihr =>
      by_cases h : q < key a
      · simp [plug, spine, route, LTree.path_node, h, ihl]
      · simp [plug, spine, route, LTree.path_node, h, ihr]

theorem leafAt_plug (F : ι → LTree α) (q : κ) (p : Patch α ι) :
    (p.plug F).leafAt key q =
      Sum.elim (fun i => (F i).leafAt key q) id (p.route key q) := by
  induction p with
  | sub i => rfl
  | leaf a => rfl
  | node a l r ihl ihr =>
      by_cases h : q < key a
      · simp [plug, route, LTree.leafAt_node, h, ihl]
      · simp [plug, route, LTree.leafAt_node, h, ihr]

theorem spine_subset_labels (q : κ) (p : Patch α ι) : p.spine key q ⊆ p.labels := by
  induction p with
  | sub i => simp [spine]
  | leaf a => simp [spine, labels]
  | node a l r ihl ihr =>
      intro x hx
      rw [spine, List.mem_cons] at hx
      rcases hx with rfl | hx
      · simp [labels]
      · split_ifs at hx
        · exact List.mem_cons_of_mem _ (List.mem_append_left _ (ihl hx))
        · exact List.mem_cons_of_mem _ (List.mem_append_right _ (ihr hx))

theorem route_mem_subs {q : κ} {p : Patch α ι} {i : ι} (h : p.route key q = .inl i) :
    i ∈ p.subs := by
  induction p with
  | sub j => simpa [route, subs, eq_comm] using h
  | leaf a => simp [route] at h
  | node a l r ihl ihr =>
      rw [route] at h
      split_ifs at h
      · exact List.mem_append_left _ (ihl h)
      · exact List.mem_append_right _ (ihr h)

end Search

/-! ### The trace of a patch -/

/-- One exit of a patch: a subtree or the contents of a leaf, the weight of the labels on the way
to it (the leaf's own included), and the bounds that the search order puts on it. -/
@[ext] structure Seg (ι β κ : Type*) where
  /-- the subtree or leaf -/
  exit : ι ⊕ β
  /-- the weight above it -/
  weight : ℤ
  /-- the lower bound, inclusive -/
  lo : WithBot κ
  /-- the upper bound, exclusive -/
  hi : WithTop κ

section Trace

variable (key : α → κ) (wt : α → ℤ) (val : α → β)

/-- **The exits of a patch** from left to right, below a weight `w` and between `lo` and `hi`. -/
def trace : ℤ → WithBot κ → WithTop κ → Patch α ι → List (Seg ι β κ)
  | w, lo, hi, sub i => [⟨.inl i, w, lo, hi⟩]
  | w, lo, hi, leaf a => [⟨.inr (val a), w + wt a, lo, hi⟩]
  | w, lo, hi, node a l r =>
      l.trace (w + wt a) lo (key a) ++ r.trace (w + wt a) (key a) hi

variable {key wt val}

variable (key val) in
theorem bal_plug_iff (F : ι → LTree α) (p : Patch α ι) (w h : ℤ) (lo : WithBot κ)
    (hi : WithTop κ) :
    (p.plug F).Bal wt h ↔
      ∀ s ∈ p.trace key wt val w lo hi,
        Sum.elim (fun i => (F i).Bal wt (h + w - s.weight)) (fun _ => h + w = s.weight) s.exit := by
  induction p generalizing w h lo hi with
  | sub i => simp [plug, trace]
  | leaf a =>
      simp only [plug, LTree.bal_leaf, trace, List.mem_singleton, forall_eq, Sum.elim_inr]
      omega
  | node a l r ihl ihr =>
      have hw : h - wt a + (w + wt a) = h + w := by ring
      simp only [plug, LTree.bal_node, trace, List.mem_append, or_imp, forall_and]
      rw [ihl (w + wt a) (h - wt a) lo (key a), ihr (w + wt a) (h - wt a) (key a) hi, hw]

variable [LinearOrder κ] {kof : β → κ}

/-- What the order asks of one exit. -/
def Seg.Fits (key : α → κ) (kof : β → κ) (F : ι → LTree α) (s : Seg ι β κ) : Prop :=
  Sum.elim (fun i => (F i).Within key s.lo s.hi)
    (fun b => s.lo ≤ (kof b : WithBot κ) ∧ (kof b : WithTop κ) < s.hi) s.exit

variable (wt) in
theorem within_plug_iff (hk : ∀ a, kof (val a) = key a) (F : ι → LTree α) (p : Patch α ι)
    (w : ℤ) (lo : WithBot κ) (hi : WithTop κ) :
    (p.plug F).Within key lo hi ↔ ∀ s ∈ p.trace key wt val w lo hi, s.Fits key kof F := by
  induction p generalizing w lo hi with
  | sub i => simp [plug, trace, Seg.Fits]
  | leaf a => simp [plug, trace, Seg.Fits, hk]
  | node a l r ihl ihr =>
      simp only [plug, LTree.within_node, trace, List.mem_append, or_imp, forall_and]
      rw [ihl (w + wt a) lo (key a), ihr (w + wt a) (key a) hi]

/-- The bounds of an exit are inside those of the patch. -/
theorem trace_bounds {F : ι → LTree α} {p : Patch α ι} {w : ℤ} {lo : WithBot κ} {hi : WithTop κ}
    (h : (p.plug F).Within key lo hi) {s : Seg ι β κ} (hs : s ∈ p.trace key wt val w lo hi) :
    lo ≤ s.lo ∧ s.hi ≤ hi := by
  induction p generalizing w lo hi with
  | sub i =>
      obtain rfl : s = ⟨.inl i, w, lo, hi⟩ := by simpa [trace] using hs
      exact ⟨le_rfl, le_rfl⟩
  | leaf a =>
      obtain rfl : s = ⟨.inr (val a), w + wt a, lo, hi⟩ := by simpa [trace] using hs
      exact ⟨le_rfl, le_rfl⟩
  | node a l r ihl ihr =>
      have hb := LTree.Within.key_between (show (LTree.node a _ _).Within key lo hi from h)
      rcases List.mem_append.mp hs with hs | hs
      · exact ⟨(ihl h.1 hs).1, (ihl h.1 hs).2.trans hb.2.le⟩
      · exact ⟨hb.1.trans (ihr h.2 hs).1, (ihr h.2 hs).2⟩

/-- The key `q` lies between the bounds of the exit. -/
def Seg.Has (q : κ) (s : Seg ι β κ) : Prop :=
  s.lo ≤ (q : WithBot κ) ∧ (q : WithTop κ) < s.hi

/-- A search leaves the patch at an exit whose bounds contain the key. -/
theorem route_mem_trace {p : Patch α ι} {w : ℤ} {lo : WithBot κ} {hi : WithTop κ} {q : κ}
    (hlo : lo ≤ (q : WithBot κ)) (hhi : (q : WithTop κ) < hi) :
    ∃ s ∈ p.trace key wt val w lo hi, s.exit = (p.route key q).map id val ∧ s.Has q := by
  induction p generalizing w lo hi with
  | sub i => exact ⟨_, List.mem_singleton.mpr rfl, rfl, hlo, hhi⟩
  | leaf a => exact ⟨_, List.mem_singleton.mpr rfl, rfl, hlo, hhi⟩
  | node a l r ihl ihr =>
      by_cases h : q < key a
      · obtain ⟨s, hs, he, hq⟩ := ihl (w := w + wt a) hlo (WithTop.coe_lt_coe.mpr h)
        exact ⟨s, List.mem_append_left _ hs, by simpa [route, h] using he, hq⟩
      · obtain ⟨s, hs, he, hq⟩ :=
          ihr (w := w + wt a) (WithBot.coe_le_coe.mpr (not_lt.mp h)) hhi
        exact ⟨s, List.mem_append_right _ hs, by simpa [route, h] using he, hq⟩

/-- The bounds of distinct exits are disjoint, so an exit that has `q` is the only one. -/
theorem trace_pairwise {F : ι → LTree α} {p : Patch α ι} {w : ℤ} {lo : WithBot κ}
    {hi : WithTop κ} (h : (p.plug F).Within key lo hi) (q : κ) :
    (p.trace key wt val w lo hi).Pairwise fun s s' => s.Has q → s'.Has q → s.exit = s'.exit := by
  induction p generalizing w lo hi with
  | sub i => simp [trace]
  | leaf a => simp [trace]
  | node a l r ihl ihr =>
      refine List.pairwise_append.mpr ⟨ihl h.1, ihr h.2, fun s hs s' hs' hq hq' => ?_⟩
      have hlt : q < key a := WithTop.coe_lt_coe.mp (lt_of_lt_of_le hq.2 (trace_bounds h.1 hs).2)
      have hge : key a ≤ q := WithBot.coe_le_coe.mp ((trace_bounds h.2 hs').1.trans hq'.1)
      exact absurd hlt (not_lt.mpr hge)

theorem exit_unique {F : ι → LTree α} {p : Patch α ι} {w : ℤ} {lo : WithBot κ}
    {hi : WithTop κ} (h : (p.plug F).Within key lo hi) {q : κ} {s s' : Seg ι β κ}
    (hs : s ∈ p.trace key wt val w lo hi) (hs' : s' ∈ p.trace key wt val w lo hi)
    (hq : s.Has q) (hq' : s'.Has q) : s.exit = s'.exit := by
  have : Std.Symm fun s s' : Seg ι β κ => s.Has q → s'.Has q → s.exit = s'.exit :=
    ⟨fun _ _ hxy hy hx => (hxy hx hy).symm⟩
  exact List.Pairwise.forall_of_forall (fun _ _ _ _ => rfl) (trace_pairwise h q) hs hs' hq hq'

end Trace

/-- **Patches with equal traces route every search alike.**  The patches may have labels of
different types; `d` is the weight that the second one has more than the first. -/
theorem route_eq_of_trace_eq {α' : Type*} [LinearOrder κ] {key : α → κ} {wt : α → ℤ} {val : α → β}
    {key' : α' → κ} {wt' : α' → ℤ} {val' : α' → β} {F : ι → LTree α} {p : Patch α ι}
    {p' : Patch α' ι} {d : ℤ} {lo : WithBot κ} {hi : WithTop κ}
    (htr : p'.trace key' wt' val' 0 lo hi = p.trace key wt val d lo hi)
    (h : (p.plug F).Within key lo hi) {q : κ} (hlo : lo ≤ (q : WithBot κ))
    (hhi : (q : WithTop κ) < hi) :
    (p'.route key' q).map id val' = (p.route key q).map id val := by
  obtain ⟨s, hs, he, hq⟩ : ∃ s ∈ p.trace key wt val d lo hi,
      s.exit = (p.route key q).map id val ∧ s.Has q := route_mem_trace hlo hhi
  obtain ⟨s', hs', he', hq'⟩ : ∃ s ∈ p'.trace key' wt' val' 0 lo hi,
      s.exit = (p'.route key' q).map id val' ∧ s.Has q := route_mem_trace hlo hhi
  rw [htr] at hs'
  rw [← he, ← he', exit_unique h hs' hs hq' hq]

end Patch
