/-
**Replacing the top of a subtree by swinging one pointer.**

Nodes point to their children, and some of them are reachable from a root.  A program that shares
such a structure between threads changes it in one way only: it builds a few new nodes above the
subtrees that hang below the nodes to be replaced, and then swings a single pointer.  This module
says what that does to the reachable nodes, in terms of pointers alone.

Main definitions:

* `Pointers.Edge`, `Pointers.Live` — the pointers, and the nodes reachable from the root;
* `Pointers.IsTree` — **the reachable nodes form a tree**: one pointer to each, none to the root;
* `Pointers.Replaces` — the new nodes can take the place of the removed ones;
* `Pointers.Holds` — a patch of nodes is there.

Main results:

* `Pointers.Replaces.live_iff` — **after the swing the removed nodes are gone, the new ones are
  there, and nothing else changes**;
* `Pointers.Replaces.isTree` — the reachable nodes still form a tree;
* `Pointers.Replaces.of_patches` — two patches with the same exits can be exchanged.
-/

import Cbat.TreePatch
import Mathlib.Logic.Relation

set_option relaxedAutoImplicit false
set_option autoImplicit false

namespace Pointers

variable {α : Type*} {kid kid' : α → Bool → Option α} {root u x y z : α} {d e : Bool}

/-! ### Reachable nodes -/

/-- There is a pointer from `x` to `y`; `kid x d` is the child of `x` on the side `d`. -/
def Edge (kid : α → Bool → Option α) (x y : α) : Prop := ∃ d, kid x d = some y

/-- The nodes that are reachable from the root. -/
def Live (kid : α → Bool → Option α) (root y : α) : Prop :=
  Relation.ReflTransGen (Edge kid) root y

theorem Live.down (h : Live kid root x) (hk : kid x d = some y) : Live kid root y :=
  h.tail ⟨d, hk⟩

/-- **The reachable nodes form a tree.** -/
structure IsTree (kid : α → Bool → Option α) (root : α) : Prop where
  unique : ∀ {x y z : α} {d e : Bool}, Live kid root x → Live kid root y → kid x d = some z →
    kid y e = some z → x = y ∧ d = e
  root_top : ∀ {x : α} {d : Bool}, Live kid root x → kid x d ≠ some root

section Closed

variable {S : Set α} (hroot : root ∈ S) (hS : ∀ x ∈ S, ∀ d y, kid x d = some y → y ∈ S)

include hroot hS

/-- A set that is closed under pointers holds everything that is reachable. -/
theorem Live.mem (h : Live kid root y) : y ∈ S := by
  induction h with
  | refl => exact hroot
  | tail _ hstep ih =>
      obtain ⟨d, hk⟩ := hstep
      exact hS _ ih d _ hk

variable (heq : ∀ x ∈ S, ∀ d, kid' x d = kid x d)

include heq

/-- Pointers outside of such a set do not matter. -/
theorem live_congr : Live kid' root y ↔ Live kid root y := by
  constructor
  · intro h
    suffices hs : Live kid root y ∧ y ∈ S from hs.1
    induction h with
    | refl => exact ⟨.refl, hroot⟩
    | tail _ hstep ih =>
        obtain ⟨d, hk⟩ := hstep
        rw [heq _ ih.2] at hk
        exact ⟨Live.down ih.1 hk, hS _ ih.2 d _ hk⟩
  · intro h
    induction h with
    | refl => exact .refl
    | tail hx hstep ih =>
        obtain ⟨d, hk⟩ := hstep
        exact Live.down ih ((heq _ (Live.mem hroot hS hx) d).trans hk)

theorem IsTree.congr (hT : IsTree kid root) : IsTree kid' root := by
  have live {x : α} (hx : Live kid' root x) : Live kid root x := (live_congr hroot hS heq).mp hx
  have old {x y : α} {d : Bool} (hx : Live kid' root x) (hk : kid' x d = some y) :
      kid x d = some y := (heq x (Live.mem hroot hS (live hx)) d).symm.trans hk
  exact ⟨fun hx hy hkx hky => hT.unique (live hx) (live hy) (old hx hkx) (old hy hky),
    fun hx hk => hT.root_top (live hx) (old hx hk)⟩

end Closed

/-- A pointer between two nodes of a set. -/
def Within (kid : α → Bool → Option α) (S : Set α) (x y : α) : Prop :=
  x ∈ S ∧ y ∈ S ∧ Edge kid x y

/-- The nodes `N` below `top` can take the place of the nodes `R` below the child of `u` on the
side `d`: the pointers that leave `N` are those that leave `R`. -/
structure Replaces (kid : α → Bool → Option α) (u : α) (d : Bool) (R N : Set α) (top : α) :
    Prop where
  u_notMem : u ∉ R
  removed : ∃ x ∈ R, kid u d = some x ∧
    ∀ y ∈ R, Relation.ReflTransGen (Within kid R) x y
  top_mem : top ∈ N
  reached : ∀ y ∈ N, Relation.ReflTransGen (Within kid N) top y
  new_kid : ∀ z ∈ N, ∀ e y, kid z e = some y →
    (y ∈ N ∧ y ≠ top) ∨ (y ∉ R ∧ ∃ z' ∈ R, ∃ e', kid z' e' = some y)
  new_unique : ∀ z ∈ N, ∀ z' ∈ N, ∀ e e' y, kid z e = some y → kid z' e' = some y →
    z = z' ∧ e = e'
  kept : ∀ z ∈ R, ∀ e y, kid z e = some y → y ∉ R → ∃ z' ∈ N, ∃ e', kid z' e' = some y

/-- The pointer of `u` on the side `d` now leads to `top`. -/
structure Swung (kid kid' : α → Bool → Option α) (u : α) (d : Bool) (top : α) : Prop where
  at_field : kid' u d = some top
  elsewhere : ∀ x e, ¬ (x = u ∧ e = d) → kid' x e = kid x e

namespace Replaces

variable {R N : Set α} {top : α}

/-! ### The removed nodes -/

theorem removed_live (h : Replaces kid u d R N top) (hu : Live kid root u) (hy : y ∈ R) :
    Live kid root y := by
  obtain ⟨x, -, hx, hR⟩ := h.removed
  have below := hR y hy
  clear hy
  induction below with
  | refl => exact Live.down hu hx
  | tail _ hstep ih => exact ih.tail hstep.2.2

/-- A removed node is the child of `u`, or its pointer comes from a removed node. -/
theorem parent (h : Replaces kid u d R N top) (hy : y ∈ R) :
    kid u d = some y ∨ ∃ z ∈ R, ∃ e, kid z e = some y := by
  obtain ⟨x, -, hx, hR⟩ := h.removed
  rcases (hR y hy).cases_tail with rfl | ⟨z, -, hz, -, e, he⟩
  · exact .inl hx
  · exact .inr ⟨z, hz, e, he⟩

/-- **Only the pointer that is swung leads from a kept node to a removed one.** -/
theorem enters (h : Replaces kid u d R N top) (hT : IsTree kid root) (hu : Live kid root u)
    (hz : Live kid root z) (hzR : z ∉ R) (hy : y ∈ R) (hk : kid z e = some y) :
    z = u ∧ e = d := by
  rcases h.parent hy with hk' | ⟨z', hz', e', hk'⟩
  · exact hT.unique hz hu hk hk'
  · exact absurd ((hT.unique hz (h.removed_live hu hz') hk hk').1 ▸ hz') hzR

theorem root_notMem (h : Replaces kid u d R N top) (hT : IsTree kid root) (hu : Live kid root u) :
    root ∉ R := by
  intro hr
  rcases h.parent hr with hk | ⟨z, hz, e, hk⟩
  · exact hT.root_top hu hk
  · exact hT.root_top (h.removed_live hu hz) hk

/-! ### The reachable nodes after the swing -/

/-- The swing leaves the pointers of the new nodes alone. -/
theorem new_kid_eq (hu : Live kid root u) (hN : ∀ y ∈ N, ¬ Live kid root y)
    (hs : Swung kid kid' u d top) (hz : z ∈ N) (e : Bool) : kid' z e = kid z e :=
  hs.elsewhere z e fun hc => hN z hz (hc.1 ▸ hu)

variable (h : Replaces kid u d R N top) (hT : IsTree kid root) (hu : Live kid root u)
  (hN : ∀ y ∈ N, ¬ Live kid root y) (hs : Swung kid kid' u d top)

include h hu hN hs

theorem new_live (hu' : Live kid' root u) (hy : y ∈ N) : Live kid' root y := by
  have below := h.reached y hy
  clear hy
  induction below with
  | refl => exact Live.down hu' hs.at_field
  | tail _ hstep ih =>
      obtain ⟨e, he⟩ := hstep.2.2
      exact Live.down ih ((new_kid_eq hu hN hs hstep.1 e).trans he)

include hT

/-- A kept node stays reachable; on the way to a removed node a path goes through `u`. -/
theorem stays_live (hy : Live kid root y) :
    (y ∉ R → Live kid' root y) ∧ (y ∈ R → Live kid' root u) := by
  induction hy with
  | refl => exact ⟨fun _ => .refl, fun hr => absurd hr (h.root_notMem hT hu)⟩
  | @tail z y hz hstep ih =>
      obtain ⟨e, he⟩ := hstep
      by_cases hzR : z ∈ R
      · refine ⟨fun hyR => ?_, fun _ => ih.2 hzR⟩
        obtain ⟨z', hz', e', he'⟩ := h.kept z hzR e y he hyR
        exact Live.down (h.new_live hu hN hs (ih.2 hzR) hz')
          ((new_kid_eq hu hN hs hz' e').trans he')
      · refine ⟨fun hyR => Live.down (ih.1 hzR) ((hs.elsewhere z e ?_).trans he), fun hyR => ?_⟩
        · -- the pointer that is swung led to a removed node
          intro hc
          obtain ⟨x, hx, hk, -⟩ := h.removed
          rw [hc.1, hc.2, hk] at he
          exact hyR (Option.some.inj he ▸ hx)
        · obtain ⟨rfl, -⟩ := h.enters hT hu hz hzR hyR he
          exact ih.1 hzR

/-- **After the swing the removed nodes are gone and the new ones are there.** -/
theorem live_iff : Live kid' root y ↔ (Live kid root y ∧ y ∉ R) ∨ y ∈ N := by
  constructor
  · intro hy
    induction hy with
    | refl => exact .inl ⟨.refl, h.root_notMem hT hu⟩
    | @tail z y _ hstep ih =>
        obtain ⟨e, he⟩ := hstep
        rcases ih with ⟨hz, hzR⟩ | hzN
        · by_cases hc : z = u ∧ e = d
          · rw [hc.1, hc.2, hs.at_field] at he
            exact .inr (Option.some.inj he ▸ h.top_mem)
          · rw [hs.elsewhere z e hc] at he
            exact .inl ⟨Live.down hz he, fun hyR => hc (h.enters hT hu hz hzR hyR he)⟩
        · rw [new_kid_eq hu hN hs hzN] at he
          rcases h.new_kid z hzN e y he with hy | ⟨hyR, z', hz', e', he'⟩
          · exact .inr hy.1
          · exact .inl ⟨Live.down (h.removed_live hu hz') he', hyR⟩
  · rintro (⟨hy, hyR⟩ | hy)
    · exact (h.stays_live hT hu hN hs hy).1 hyR
    · exact h.new_live hu hN hs ((h.stays_live hT hu hN hs hu).1 h.u_notMem) hy

/-- The pointers after the swing: to the new top, between new nodes, or as some pointer before. -/
theorem kid_cases (hx : Live kid' root x) (hk : kid' x e = some z) :
    (x = u ∧ e = d ∧ z = top) ∨ (x ∈ N ∧ z ∈ N ∧ z ≠ top) ∨
      (x ∈ N ∧ z ∉ N ∧ ∃ x' ∈ R, ∃ e', kid x' e' = some z) ∨
      (x ∉ R ∧ z ∉ N ∧ Live kid root x ∧ kid x e = some z) := by
  have live {z' : α} (hz : Live kid root z') : z' ∉ N := fun hn => hN z' hn hz
  rcases (h.live_iff hT hu hN hs).mp hx with ⟨hx, hxR⟩ | hxN
  · by_cases hc : x = u ∧ e = d
    · rw [hc.1, hc.2, hs.at_field] at hk
      exact .inl ⟨hc.1, hc.2, (Option.some.inj hk).symm⟩
    · rw [hs.elsewhere x e hc] at hk
      exact .inr (.inr (.inr ⟨hxR, live (Live.down hx hk), hx, hk⟩))
  · rw [new_kid_eq hu hN hs hxN] at hk
    rcases h.new_kid x hxN e z hk with hz | ⟨-, x', hx', e', hk'⟩
    · exact .inr (.inl ⟨hxN, hz⟩)
    · exact .inr (.inr (.inl ⟨hxN, live (Live.down (h.removed_live hu hx') hk'), x', hx', e', hk'⟩))

/-- **The reachable nodes still form a tree.** -/
theorem isTree : IsTree kid' root where
  unique := by
    intro x y z d₁ d₂ hx hy hkx hky
    have hx' := h.kid_cases hT hu hN hs hx hkx
    have hy' := h.kid_cases hT hu hN hs hy hky
    have new {w : α} {c : Bool} (hw : w ∈ N) (hk : kid' w c = some z) : kid w c = some z :=
      (new_kid_eq hu hN hs hw c).symm.trans hk
    have both (hxN : x ∈ N) (hyN : y ∈ N) : x = y ∧ d₁ = d₂ :=
      h.new_unique x hxN y hyN d₁ d₂ z (new hxN hkx) (new hyN hky)
    rcases hx' with ⟨rfl, rfl, rfl⟩ | ⟨hxN, hz, hzt⟩ | ⟨hxN, hz, x', hx', c, hk⟩ |
      ⟨hxR, hz, hx, hk⟩ <;>
    rcases hy' with ⟨rfl, rfl, hzt'⟩ | ⟨hyN, hz', hzt'⟩ | ⟨hyN, hz', y', hy', c', hk'⟩ |
      ⟨hyR, hz', hy, hk'⟩
    · exact ⟨rfl, rfl⟩
    · exact absurd rfl hzt'
    · exact absurd h.top_mem hz'
    · exact absurd h.top_mem hz'
    · exact absurd hzt' hzt
    · exact both hxN hyN
    · exact absurd hz hz'
    · exact absurd hz hz'
    · exact absurd (hzt' ▸ h.top_mem) hz
    · exact absurd hz' hz
    · exact both hxN hyN
    · exact absurd ((hT.unique (h.removed_live hu hx') hy hk hk').1 ▸ hx') hyR
    · exact absurd (hzt' ▸ h.top_mem) hz
    · exact absurd hz' hz
    · exact absurd ((hT.unique hx (h.removed_live hu hy') hk hk').1 ▸ hy') hxR
    · exact hT.unique hx hy hk hk'
  root_top := by
    intro x d₁ hx hk
    have hroot : root ∉ N := fun hn => hN root hn .refl
    rcases h.kid_cases hT hu hN hs hx hk with ⟨-, -, ht⟩ | ⟨-, hz, -⟩ | ⟨-, -, x', hx', c, hk'⟩ |
      ⟨-, -, hx, hk'⟩
    · exact hroot (ht ▸ h.top_mem)
    · exact hroot hz
    · exact hT.root_top (h.removed_live hu hx') hk'
    · exact hT.root_top hx hk'

end Replaces

/-! ### Patches -/

/-- The top of a patch. -/
def top : Patch α α → α
  | .sub i => i
  | .leaf a => a
  | .node a _ _ => a

@[simp] theorem top_sub (i : α) : top (.sub i : Patch α α) = i := rfl
@[simp] theorem top_leaf (a : α) : top (.leaf a : Patch α α) = a := rfl
@[simp] theorem top_node (a : α) (l r : Patch α α) : top (.node a l r) = a := rfl

/-- A patch of nodes is there; `true` is the left side. -/
def Holds (kid : α → Bool → Option α) : Patch α α → Prop
  | .sub _ => True
  | .leaf a => ∀ d, kid a d = none
  | .node a l r => kid a true = some (top l) ∧ kid a false = some (top r) ∧ Holds kid l ∧
      Holds kid r

theorem Holds.congr {p : Patch α α} (h : Holds kid p)
    (heq : ∀ x ∈ p.labels, ∀ d, kid' x d = kid x d) : Holds kid' p := by
  induction p with
  | sub i => trivial
  | leaf a => exact fun d => (heq a List.mem_cons_self d).trans (h d)
  | node a l r ihl ihr =>
      obtain ⟨hl, hr, hhl, hhr⟩ := h
      have ha := heq a List.mem_cons_self
      exact ⟨(ha true).trans hl, (ha false).trans hr,
        ihl hhl fun x hx => heq x (List.mem_cons_of_mem _ (List.mem_append_left _ hx)),
        ihr hhr fun x hx => heq x (List.mem_cons_of_mem _ (List.mem_append_right _ hx))⟩

/-- The pointers that start in a patch. -/
def edges : Patch α α → List ((α × Bool) × α)
  | .sub _ => []
  | .leaf _ => []
  | .node a l r => ((a, true), top l) :: ((a, false), top r) :: (edges l ++ edges r)

theorem label_of_edge {p : Patch α α} (h : ((x, e), y) ∈ edges p) : x ∈ p.labels := by
  induction p with
  | sub i => simp [edges] at h
  | leaf a => simp [edges] at h
  | node a l r ihl ihr =>
      simp only [edges, List.mem_cons, List.mem_append, Prod.mk.injEq] at h
      rcases h with h | h | h | h
      · exact h.1.1 ▸ List.mem_cons_self
      · exact h.1.1 ▸ List.mem_cons_self
      · exact List.mem_cons_of_mem _ (List.mem_append_left _ (ihl h))
      · exact List.mem_cons_of_mem _ (List.mem_append_right _ (ihr h))

/-- The pointers of the nodes of a patch are those that it lists. -/
theorem mem_edges_iff {p : Patch α α} (h : Holds kid p) (hx : x ∈ p.labels) (hnd : p.labels.Nodup) :
    ((x, e), y) ∈ edges p ↔ kid x e = some y := by
  induction p with
  | sub i => simp [Patch.labels] at hx
  | leaf a =>
      obtain rfl : x = a := by simpa [Patch.labels] using hx
      simp [edges, h e]
  | node a l r ihl ihr =>
      obtain ⟨hl, hr, hhl, hhr⟩ := h
      rw [Patch.labels, List.nodup_cons, List.nodup_append] at hnd
      obtain ⟨ha, hndl, hndr, hdis⟩ := hnd
      rw [Patch.labels, List.mem_cons, List.mem_append] at hx
      simp only [edges, List.mem_cons, List.mem_append, Prod.mk.injEq]
      rcases hx with rfl | hx | hx
      · have nl : ((x, e), y) ∉ edges l := fun hm =>
          ha (List.mem_append_left _ (label_of_edge hm))
        have nr : ((x, e), y) ∉ edges r := fun hm =>
          ha (List.mem_append_right _ (label_of_edge hm))
        cases e <;> simp [nl, nr, hl, hr, eq_comm]
      · have hxa : x ≠ a := fun hc => ha (List.mem_append_left _ (hc ▸ hx))
        have nr : ((x, e), y) ∉ edges r := fun hm => hdis x hx x (label_of_edge hm) rfl
        simp [hxa, nr, ihl hhl hx hndl]
      · have hxa : x ≠ a := fun hc => ha (List.mem_append_right _ (hc ▸ hx))
        have nl : ((x, e), y) ∉ edges l := fun hm => hdis x (label_of_edge hm) x hx rfl
        simp [hxa, nl, ihr hhr hx hndr]

/-- The pointers of a patch lead to its nodes below the top and to its exits. -/
theorem top_cons_targets (p : Patch α α) :
    (top p :: (edges p).map Prod.snd).Perm (p.labels ++ p.subs) := by
  induction p with
  | sub i => simp [edges, Patch.labels, Patch.subs]
  | leaf a => simp [edges, Patch.labels, Patch.subs]
  | node a l r ihl ihr =>
      simp only [top_node, edges, Patch.labels, Patch.subs, List.map_cons, List.map_append,
        List.cons_append]
      refine List.Perm.cons a ?_
      calc List.Perm (top l :: top r :: ((edges l).map Prod.snd ++ (edges r).map Prod.snd))
            ((top l :: (edges l).map Prod.snd) ++ (top r :: (edges r).map Prod.snd)) :=
          List.Perm.cons _ List.perm_middle.symm
        List.Perm _ ((l.labels ++ l.subs) ++ (r.labels ++ r.subs)) := ihl.append ihr
        List.Perm _ ((l.labels ++ r.labels) ++ (l.subs ++ r.subs)) := by
          simpa using (List.perm_append_comm_assoc l.subs r.labels r.subs).append_left l.labels

/-- A patch that is more than an exit. -/
theorem labels_eq {p : Patch α α} (hp : top p ∈ p.labels) : p.labels = top p :: p.labels.tail := by
  cases p with
  | sub i => simp [Patch.labels] at hp
  | leaf a => rfl
  | node a l r => rfl

theorem targets_perm {p : Patch α α} (hp : top p ∈ p.labels) :
    ((edges p).map Prod.snd).Perm (p.labels.tail ++ p.subs) := by
  have h := top_cons_targets p
  rw [labels_eq hp, List.cons_append] at h
  exact h.cons_inv

theorem exists_edge_iff {p : Patch α α} (hp : top p ∈ p.labels) :
    (∃ x e, ((x, e), y) ∈ edges p) ↔ y ∈ p.labels.tail ∨ y ∈ p.subs := by
  rw [← List.mem_append, ← (targets_perm hp).mem_iff, List.mem_map]
  constructor
  · rintro ⟨x, e, hm⟩
    exact ⟨_, hm, rfl⟩
  · rintro ⟨⟨⟨x, e⟩, y'⟩, hm, rfl⟩
    exact ⟨x, e, hm⟩

/-- Every node of a patch is below its top. -/
theorem Holds.reached {p : Patch α α} (h : Holds kid p) {S : Set α} (hS : ∀ x ∈ p.labels, x ∈ S)
    (hy : y ∈ p.labels) : Relation.ReflTransGen (Within kid S) (top p) y := by
  have down {q : Patch α α} (hq : ∀ x ∈ q.labels, x ∈ S) {a : α} (ha : a ∈ S) {d : Bool}
      (hd : kid a d = some (top q)) (hy : y ∈ q.labels)
      (ih : Relation.ReflTransGen (Within kid S) (top q) y) :
      Relation.ReflTransGen (Within kid S) a y := by
    refine .head ⟨ha, hq _ ?_, d, hd⟩ ih
    cases q with
    | sub i => simp [Patch.labels] at hy
    | leaf b => exact List.mem_cons_self
    | node b l r => exact List.mem_cons_self
  induction p with
  | sub i => simp [Patch.labels] at hy
  | leaf a =>
      obtain rfl : y = a := by simpa [Patch.labels] using hy
      exact .refl
  | node a l r ihl ihr =>
      obtain ⟨hl, hr, hhl, hhr⟩ := h
      simp only [Patch.labels, List.mem_cons, List.mem_append] at hS hy
      have hSl : ∀ x ∈ l.labels, x ∈ S := fun x hx => hS x (.inr (.inl hx))
      have hSr : ∀ x ∈ r.labels, x ∈ S := fun x hx => hS x (.inr (.inr hx))
      rcases hy with rfl | hy | hy
      · exact .refl
      · exact down hSl (hS a (.inl rfl)) hl hy (ihl hhl hSl hy)
      · exact down hSr (hS a (.inl rfl)) hr hy (ihr hhr hSr hy)

theorem edges_nodup {p : Patch α α} (hnd : p.labels.Nodup) : (edges p).Nodup := by
  induction p with
  | sub i => exact List.nodup_nil
  | leaf a => exact List.nodup_nil
  | node a l r ihl ihr =>
      rw [Patch.labels, List.nodup_cons, List.nodup_append] at hnd
      obtain ⟨ha, hndl, hndr, hdis⟩ := hnd
      have out (d : Bool) (y : α) : ((a, d), y) ∉ edges l ++ edges r := fun hm =>
        ha (List.mem_append.mpr ((List.mem_append.mp hm).imp label_of_edge label_of_edge))
      rw [edges, List.nodup_cons, List.nodup_cons, List.nodup_append]
      refine ⟨?_, out false _, ihl hndl, ihr hndr, ?_⟩
      · simpa using out true _
      · rintro ⟨⟨x, e⟩, y⟩ hx _ hy rfl
        exact hdis x (label_of_edge hx) x (label_of_edge hy) rfl

/-- In a tree the pointers of a patch lead to different nodes. -/
theorem targets_nodup {p : Patch α α} (hT : IsTree kid root) (h : Holds kid p)
    (hl : ∀ x ∈ p.labels, Live kid root x) (hnd : p.labels.Nodup) :
    ((edges p).map Prod.snd).Nodup := by
  refine List.Nodup.map_on ?_ (edges_nodup hnd)
  rintro ⟨⟨x, d⟩, z⟩ hx ⟨⟨y, e⟩, z'⟩ hy (rfl : z = z')
  have hxl := label_of_edge hx
  have hyl := label_of_edge hy
  obtain ⟨rfl, rfl⟩ := hT.unique (hl x hxl) (hl y hyl) ((mem_edges_iff h hxl hnd).mp hx)
    ((mem_edges_iff h hyl hnd).mp hy)
  rfl

/-- **Two patches with the same exits can be exchanged** if one is in the tree and the nodes of the
other are not. -/
theorem Replaces.of_patches {old new : Patch α α} (hT : IsTree kid root) (hu : Live kid root u)
    (hold : Holds kid old) (hnew : Holds kid new) (hk : kid u d = some (top old))
    (hnd : (u :: old.labels).Nodup) (hot : top old ∈ old.labels) (hnt : top new ∈ new.labels)
    (hndn : new.labels.Nodup) (hN : ∀ y ∈ new.labels, ¬ Live kid root y)
    (hsubs : new.subs = old.subs) :
    Replaces kid u d {x | x ∈ old.labels} {x | x ∈ new.labels} (top new) := by
  obtain ⟨huo, hndo⟩ := List.nodup_cons.mp hnd
  have live : ∀ x ∈ old.labels, Live kid root x := by
    intro x hx
    have below := hold.reached (S := Set.univ) (fun _ _ => trivial) hx
    have mono : ∀ a b, Within kid Set.univ a b → Edge kid a b := fun _ _ h => h.2.2
    exact (Live.down hu hk).trans (Relation.ReflTransGen.mono mono _ _ below)
  have hnds : (old.labels.tail ++ old.subs).Nodup :=
    (targets_perm hot).nodup_iff.mp (targets_nodup hT hold live hndo)
  obtain ⟨-, hndsub, hdis⟩ := List.nodup_append.mp hnds
  -- an exit hangs below the patch, so it is reachable, and it is no node of the patch
  have exit_edge {y : α} (hy : y ∈ old.subs) : ∃ x ∈ old.labels, ∃ e, kid x e = some y := by
    obtain ⟨x, e, hm⟩ := (exists_edge_iff hot).mpr (.inr hy)
    exact ⟨x, label_of_edge hm, e, (mem_edges_iff hold (label_of_edge hm) hndo).mp hm⟩
  have exit_out {y : α} (hy : y ∈ old.subs) : y ∉ old.labels := by
    intro hl
    rw [labels_eq hot, List.mem_cons] at hl
    rcases hl with rfl | hl
    · obtain ⟨x, hx, e, he⟩ := exit_edge hy
      exact huo ((hT.unique hu (live x hx) hk he).1 ▸ hx)
    · exact hdis y hl y hy rfl
  have hndt : ((edges new).map Prod.snd).Nodup := by
    refine (targets_perm hnt).nodup_iff.mpr (List.nodup_append.mpr ⟨hndn.sublist
      (List.tail_sublist _), hsubs ▸ hndsub, ?_⟩)
    rintro y hy _ hy' rfl
    obtain ⟨x, hx, e, he⟩ := exit_edge (hsubs ▸ hy')
    exact hN y (List.mem_of_mem_tail hy) (Live.down (live x hx) he)
  refine ⟨huo, ⟨top old, hot, hk, fun y hy => hold.reached (fun _ h => h) hy⟩, hnt,
    fun y hy => hnew.reached (fun _ h => h) hy, ?_, ?_, ?_⟩
  · intro z hz e y he
    have hm := (mem_edges_iff hnew hz hndn).mpr he
    rcases (exists_edge_iff hnt).mp ⟨z, e, hm⟩ with hy | hy
    · refine .inl ⟨List.mem_of_mem_tail hy, fun ht => ?_⟩
      rw [labels_eq hnt, List.nodup_cons] at hndn
      exact hndn.1 (ht ▸ hy)
    · rw [hsubs] at hy
      exact .inr ⟨exit_out hy, exit_edge hy⟩
  · intro z hz z' hz' e e' y he he'
    have heq := List.inj_on_of_nodup_map hndt ((mem_edges_iff hnew hz hndn).mpr he)
      ((mem_edges_iff hnew hz' hndn).mpr he') rfl
    simp only [Prod.mk.injEq, and_true] at heq
    exact heq
  · intro z hz e y he hy
    have hm := (mem_edges_iff hold hz hndo).mpr he
    have hsub : y ∈ new.subs := by
      rw [hsubs]
      exact ((exists_edge_iff hot).mp ⟨z, e, hm⟩).resolve_left fun ht =>
        hy (List.mem_of_mem_tail ht)
    obtain ⟨x, e', hm'⟩ := (exists_edge_iff hnt).mpr (.inr hsub)
    exact ⟨x, label_of_edge hm', e', (mem_edges_iff hnew (label_of_edge hm') hndn).mp hm'⟩

end Pointers
