/-
**Linked leaf-oriented search trees.**

A leaf-oriented search tree is often stored as nodes that refer to their children by address.  The
nodes that are reachable from the root form a tree; nodes that have been cut off keep their fields
and may still be read by a search that is under way.  There are two changes of such a tree: a leaf
is replaced by a new internal node above two new leaves (a *graft*), and the parent of a leaf is
replaced by the other child (a *splice*).  This module says what both do to the reachable nodes, to
the search paths and to the stored keys.

Main definitions:

* `Linked` — keys and children of the nodes at all addresses;
* `Linked.Live`, `Linked.Route` — reachable nodes, and the nodes that a search meets;
* `Linked.Tree` — **the reachable nodes form a search tree**;
* `Linked.Stored` — a reachable leaf has the key;
* `Linked.Graft`, `Linked.Splice` — the two changes.

Main results:

* `Linked.Tree.live_iff`, `Linked.Tree.route_iff` — reachability and searches in terms of the tree;
* `Linked.Tree.stored_iff` — **a key is stored exactly if the search for it ends in a leaf with
  it**;
* `Linked.Graft.tree`, `Linked.Splice.tree` — **both changes keep the search tree**;
* `Linked.Graft.sees`, `Linked.Splice.sees` — a search that is under way, possibly in nodes that
  have been cut off, comes back to the search path.
-/

import Cbat.LeafTree
import Mathlib.Logic.Relation

set_option relaxedAutoImplicit false
set_option autoImplicit false

/-- The keys and the children of the nodes at all addresses; a leaf has no children. -/
@[ext] structure Linked (κ : Type*) where
  /-- the key of a node -/
  key : ℕ → κ
  /-- the left and the right child -/
  kids : ℕ → Option (ℕ × ℕ)

namespace Linked

variable {κ : Type*} {h h' : Linked κ} {root x y : ℕ} {q : κ}

/-! ### Reachable nodes and searches -/

/-- The child on the left (`false`) or on the right (`true`). -/
def kid (h : Linked κ) (x : ℕ) (d : Bool) : Option ℕ :=
  (h.kids x).map fun c => if d then c.2 else c.1

/-- There is a pointer from `x` to `y`. -/
def Edge (h : Linked κ) (x y : ℕ) : Prop := ∃ d, h.kid x d = some y

/-- The nodes that are reachable from the root. -/
def Live (h : Linked κ) (root x : ℕ) : Prop := Relation.ReflTransGen h.Edge root x

theorem kid_of_kids {l r : ℕ} (hk : h.kids x = some (l, r)) (d : Bool) :
    h.kid x d = some (if d then r else l) := by
  simp [kid, hk]

theorem kid_of_leaf (hk : h.kids x = none) (d : Bool) : h.kid x d = none := by
  simp [kid, hk]

theorem kid_congr (hk : h'.kids x = h.kids x) (d : Bool) : h'.kid x d = h.kid x d := by
  rw [kid, kid, hk]

theorem kids_eq_some {l r : ℕ} (hl : h.kid x false = some l) (hr : h.kid x true = some r) :
    h.kids x = some (l, r) := by
  rw [kid, Option.map_eq_some_iff] at hl hr
  obtain ⟨c, hc, rfl⟩ := hl
  obtain ⟨c', hc', rfl⟩ := hr
  obtain rfl : c = c' := Option.some.inj (hc.symm.trans hc')
  exact hc

variable [LinearOrder κ]

/-- The side on which a search for `q` goes on. -/
def dir (h : Linked κ) (q : κ) (x : ℕ) : Bool := decide (h.key x ≤ q)

/-- A search for `q` goes from `x` to `y`. -/
def KEdge (h : Linked κ) (q : κ) (x y : ℕ) : Prop := h.kid x (h.dir q x) = some y

/-- The nodes that a search for `q` meets below `x`. -/
def Route (h : Linked κ) (q : κ) (x y : ℕ) : Prop := Relation.ReflTransGen (h.KEdge q) x y

theorem Route.reach (hr : h.Route q x y) : Relation.ReflTransGen h.Edge x y :=
  Relation.ReflTransGen.mono (fun _ _ he => ⟨_, he⟩) _ _ hr

theorem KEdge.unique {y' : ℕ} (he : h.KEdge q x y) (he' : h.KEdge q x y') : y = y' :=
  Option.some.inj (he.symm.trans he')

/-- **A search ends in one leaf.** -/
theorem Route.leaf_unique {y' : ℕ} (hr : h.Route q x y) (hr' : h.Route q x y')
    (hy : h.kids y = none) (hy' : h.kids y' = none) : y = y' := by
  induction hr using Relation.ReflTransGen.head_induction_on with
  | refl =>
      rcases hr'.cases_head with rfl | ⟨z, hz, -⟩
      · rfl
      · rw [KEdge, kid_of_leaf hy] at hz
        cases hz
  | @head a b hab _ ih =>
      rcases hr'.cases_head with rfl | ⟨z, hz, hzy⟩
      · rw [KEdge, kid_of_leaf hy'] at hab
        cases hab
      · obtain rfl := hab.unique hz
        exact ih hzy

/-! ### The tree of the reachable nodes -/

omit [LinearOrder κ] in
/-- The nodes of the tree `t`, whose labels are addresses, have the children that `t` says. -/
def Rep (h : Linked κ) : LTree ℕ → Prop
  | .leaf a => h.kids a = none
  | .node a l r => h.kids a = some (l.label, r.label) ∧ h.Rep l ∧ h.Rep r

/-- **The reachable nodes form a search tree.** -/
structure Tree (h : Linked κ) (root : ℕ) (t : LTree ℕ) : Prop where
  top : t.label = root
  rep : h.Rep t
  nodup : t.labels.Nodup
  ordered : t.Within h.key ⊥ ⊤

variable {t : LTree ℕ}

omit [LinearOrder κ] in
theorem Rep.congr (hrep : h.Rep t) (hk : ∀ a ∈ t.labels, h'.kids a = h.kids a) : h'.Rep t := by
  induction t with
  | leaf a => exact (hk a (by simp)).trans hrep
  | node a l r ihl ihr =>
      simp only [LTree.labels_node, List.mem_cons, List.mem_append] at hk
      obtain ⟨ha, hl, hr⟩ := hrep
      exact ⟨(hk a (.inl rfl)).trans ha, ihl hl fun b hb => hk b (.inr (.inl hb)),
        ihr hr fun b hb => hk b (.inr (.inr hb))⟩

omit [LinearOrder κ] in
/-- The tree is determined by its top. -/
theorem Rep.unique {t' : LTree ℕ} (hrep : h.Rep t) (hrep' : h.Rep t')
    (htop : t.label = t'.label) : t = t' := by
  induction t generalizing t' with
  | leaf a =>
      cases t' with
      | leaf b => rw [show a = b from htop]
      | node b l r =>
          have hb : h.kids a = some (l.label, r.label) := (show a = b from htop) ▸ hrep'.1
          cases hb.symm.trans hrep
  | node a l r ihl ihr =>
      cases t' with
      | leaf b =>
          have hb : h.kids a = none := (show a = b from htop) ▸ hrep'
          cases hb.symm.trans hrep.1
      | node b l' r' =>
          obtain rfl : a = b := htop
          have he := Option.some.inj (hrep.1.symm.trans hrep'.1)
          rw [Prod.mk.injEq] at he
          rw [ihl hrep.2.1 hrep'.2.1 he.1, ihr hrep.2.2 hrep'.2.2 he.2]

omit [LinearOrder κ] in
theorem Rep.edge_mem (hrep : h.Rep t) (hx : x ∈ t.labels) (he : h.Edge x y) : y ∈ t.labels := by
  induction t with
  | leaf a =>
      obtain rfl : x = a := by simpa using hx
      obtain ⟨d, hd⟩ := he
      rw [kid_of_leaf hrep] at hd
      cases hd
  | node a l r ihl ihr =>
      obtain ⟨ha, hl, hr⟩ := hrep
      simp only [LTree.labels_node, List.mem_cons, List.mem_append] at hx ⊢
      rcases hx with rfl | hx | hx
      · obtain ⟨d, hd⟩ := he
        rw [kid_of_kids ha, Option.some.injEq] at hd
        subst hd
        cases d
        · exact .inr (.inl (LTree.label_mem_labels l))
        · exact .inr (.inr (LTree.label_mem_labels r))
      · exact .inr (.inl (ihl hl hx))
      · exact .inr (.inr (ihr hr hx))

omit [LinearOrder κ] in
theorem Rep.mem_iff (hrep : h.Rep t) : x ∈ t.labels ↔ h.Live t.label x := by
  constructor
  · intro hx
    induction t with
    | leaf a =>
        obtain rfl : x = a := by simpa using hx
        exact .refl
    | node a l r ihl ihr =>
        obtain ⟨ha, hl, hr⟩ := hrep
        simp only [LTree.labels_node, List.mem_cons, List.mem_append] at hx
        rcases hx with rfl | hx | hx
        · exact .refl
        · exact .head ⟨false, kid_of_kids ha false⟩ (ihl hl hx)
        · exact .head ⟨true, kid_of_kids ha true⟩ (ihr hr hx)
  · intro hx
    induction hx with
    | refl => exact LTree.label_mem_labels t
    | tail _ he ih => exact hrep.edge_mem ih he

omit [LinearOrder κ] in
/-- No node is below itself. -/
theorem Rep.acyclic (hrep : h.Rep t) (hnd : t.labels.Nodup) (hx : x ∈ t.labels) :
    ¬Relation.TransGen h.Edge x x := by
  induction t with
  | leaf a =>
      intro hc
      obtain ⟨y, ⟨d, hd⟩, -⟩ := Relation.TransGen.head'_iff.mp hc
      obtain rfl : x = a := by simpa using hx
      rw [kid_of_leaf hrep] at hd
      cases hd
  | node a l r ihl ihr =>
      obtain ⟨ha, hl, hr⟩ := hrep
      simp only [LTree.labels_node, List.nodup_cons, List.mem_append, not_or] at hnd
      obtain ⟨⟨hal, har⟩, hnd⟩ := hnd
      simp only [LTree.labels_node, List.mem_cons, List.mem_append] at hx
      rcases hx with rfl | hx | hx
      · -- what is below the top is in one of the subtrees
        intro hc
        obtain ⟨y, ⟨d, hd⟩, hy⟩ := Relation.TransGen.head'_iff.mp hc
        rw [kid_of_kids ha, Option.some.injEq] at hd
        subst hd
        cases d
        · exact hal (hl.mem_iff.mpr hy)
        · exact har (hr.mem_iff.mpr hy)
      · exact ihl hl hnd.of_append_left hx
      · exact ihr hr hnd.of_append_right hx

omit [LinearOrder κ] in
/-- The top has no parent. -/
theorem Rep.edge_ne_label (hrep : h.Rep t) (hnd : t.labels.Nodup) (hx : x ∈ t.labels)
    (he : h.Edge x y) : y ≠ t.label := by
  rintro rfl
  exact hrep.acyclic hnd (LTree.label_mem_labels t) (.tail' (hrep.mem_iff.mp hx) he)

omit [LinearOrder κ] in
/-- **The other nodes have one parent.** -/
theorem Rep.parent_unique {z : ℕ} (hrep : h.Rep t) (hnd : t.labels.Nodup) (hx : x ∈ t.labels)
    (hy : y ∈ t.labels) (hxz : h.Edge x z) (hyz : h.Edge y z) : x = y := by
  induction t with
  | leaf a =>
      rw [LTree.labels_leaf, List.mem_singleton] at hx hy
      exact hx.trans hy.symm
  | node a l r ihl ihr =>
      obtain ⟨ha, hl, hr⟩ := hrep
      simp only [LTree.labels_node, List.nodup_cons, List.mem_append, not_or] at hnd
      obtain ⟨-, hnd⟩ := hnd
      have hdis := List.disjoint_of_nodup_append hnd
      have hndl := hnd.of_append_left
      have hndr := hnd.of_append_right
      -- a child of the top has no other parent
      have top : ∀ y, y ∈ l.labels ∨ y ∈ r.labels → h.Edge y z → ¬h.Edge a z := by
        rintro y hy hyz ⟨d, hd⟩
        rw [kid_of_kids ha, Option.some.injEq] at hd
        rcases hy with hy | hy
        · have hz := hl.edge_mem hy hyz
          cases d
          · exact hl.edge_ne_label hndl hy hyz hd.symm
          · exact hdis hz (hd ▸ LTree.label_mem_labels r)
        · have hz := hr.edge_mem hy hyz
          cases d
          · exact hdis (hd ▸ LTree.label_mem_labels l) hz
          · exact hr.edge_ne_label hndr hy hyz hd.symm
      simp only [LTree.labels_node, List.mem_cons, List.mem_append] at hx hy
      rcases hx with rfl | hx <;> rcases hy with rfl | hy
      · rfl
      · exact absurd hxz (top y hy hyz)
      · exact absurd hyz (top x hx hxz)
      · rcases hx with hx | hx <;> rcases hy with hy | hy
        · exact ihl hl hndl hx hy
        · exact absurd (hr.edge_mem hy hyz) (hdis (hl.edge_mem hx hxz))
        · exact absurd (hr.edge_mem hx hxz) (hdis (hl.edge_mem hy hyz))
        · exact ihr hr hndr hx hy

/-- The search path in terms of the tree. -/
theorem Rep.mem_path_iff (hrep : h.Rep t) : x ∈ t.path h.key q ↔ h.Route q t.label x := by
  induction t with
  | leaf a =>
      constructor
      · intro hx
        obtain rfl : x = a := by simpa using hx
        exact .refl
      · intro hx
        rcases hx.cases_head with hx | ⟨z, hz, -⟩
        · simpa using hx.symm
        · rw [LTree.label_leaf, KEdge, kid_of_leaf hrep] at hz
          cases hz
  | node a l r ihl ihr =>
      obtain ⟨ha, hl, hr⟩ := hrep
      have hkid := kid_of_kids ha (h.dir q a)
      rw [LTree.path_node, List.mem_cons, LTree.label_node]
      constructor
      · rintro (rfl | hx)
        · exact .refl
        · split_ifs at hx with hq
          · have hd : h.dir q a = false := decide_eq_false (not_le.mpr hq)
            rw [hd] at hkid
            exact .head (by rw [KEdge, hd]; exact hkid) ((ihl hl).mp hx)
          · have hd : h.dir q a = true := decide_eq_true (not_lt.mp hq)
            rw [hd] at hkid
            exact .head (by rw [KEdge, hd]; exact hkid) ((ihr hr).mp hx)
      · intro hx
        rcases hx.cases_head with hx | ⟨z, hz, hzx⟩
        · exact .inl hx.symm
        · refine .inr ?_
          rw [KEdge, hkid, Option.some.injEq] at hz
          split_ifs with hq
          · have hd : h.dir q a = false := decide_eq_false (not_le.mpr hq)
            rw [hd, if_neg Bool.false_ne_true] at hz
            exact (ihl hl).mpr (hz ▸ hzx)
          · have hd : h.dir q a = true := decide_eq_true (not_lt.mp hq)
            rw [hd, if_pos rfl] at hz
            exact (ihr hr).mpr (hz ▸ hzx)

omit [LinearOrder κ] in
theorem Rep.mem_leaves_iff (hrep : h.Rep t) :
    x ∈ t.leaves ↔ x ∈ t.labels ∧ h.kids x = none := by
  induction t with
  | leaf a =>
      simp only [LTree.leaves_leaf, LTree.labels_leaf, List.mem_singleton]
      constructor
      · rintro rfl
        exact ⟨rfl, hrep⟩
      · exact And.left
  | node a l r ihl ihr =>
      obtain ⟨ha, hl, hr⟩ := hrep
      simp only [LTree.leaves_node, LTree.labels_node, List.mem_append, List.mem_cons, ihl hl,
        ihr hr]
      constructor
      · rintro (hx | hx)
        · exact ⟨.inr (.inl hx.1), hx.2⟩
        · exact ⟨.inr (.inr hx.1), hx.2⟩
      · rintro ⟨rfl | hx | hx, hn⟩
        · cases hn.symm.trans ha
        · exact .inl ⟨hx, hn⟩
        · exact .inr ⟨hx, hn⟩

theorem Tree.live_iff (hT : h.Tree root t) : h.Live root x ↔ x ∈ t.labels := by
  rw [hT.rep.mem_iff, hT.top]

theorem Tree.route_iff (hT : h.Tree root t) : h.Route q root x ↔ x ∈ t.path h.key q := by
  rw [hT.rep.mem_path_iff, hT.top]

/-- A reachable leaf has the key. -/
def Stored (h : Linked κ) (root : ℕ) (q : κ) : Prop :=
  ∃ x, h.Live root x ∧ h.kids x = none ∧ h.key x = q

/-- **A reachable leaf is on the search path of its key.** -/
theorem Tree.route_of_leaf (hT : h.Tree root t) (hx : h.Live root x) (hl : h.kids x = none) :
    h.Route (h.key x) root x := by
  rw [hT.route_iff]
  exact hT.ordered.mem_path (hT.rep.mem_leaves_iff.mpr ⟨hT.live_iff.mp hx, hl⟩)

/-- **A key is stored exactly if the search for it ends in a leaf with it.** -/
theorem Tree.stored_iff (hT : h.Tree root t) :
    h.Stored root q ↔ ∃ x, h.Route q root x ∧ h.kids x = none ∧ h.key x = q := by
  constructor
  · rintro ⟨x, hx, hl, rfl⟩
    exact ⟨x, hT.route_of_leaf hx hl, hl, rfl⟩
  · rintro ⟨x, hx, hl, rfl⟩
    exact ⟨x, hx.reach, hl, rfl⟩

theorem Tree.stored_iff_leaf (hT : h.Tree root t) :
    h.Stored root q ↔ ∃ x ∈ t.leaves, h.key x = q := by
  simp only [Stored, hT.rep.mem_leaves_iff, hT.live_iff, and_assoc]

/-- The leaf of a stored key is the only one. -/
theorem Tree.leaf_unique (hT : h.Tree root t) (hx : h.Live root x) (hy : h.Live root y)
    (hxl : h.kids x = none) (hyl : h.kids y = none) (hk : h.key x = h.key y) : x = y := by
  have hrx := hT.route_of_leaf hx hxl
  have hry := hT.route_of_leaf hy hyl
  rw [hk] at hrx
  exact hrx.leaf_unique hry hxl hyl

/-! ### Swinging a pointer -/

section Swing

variable {p : ℕ} {d : Bool}

omit [LinearOrder κ] in
/-- The children of a node, one of which has been exchanged. -/
theorem kids_swung {l r z : ℕ} (hk : h.kids p = some (l, r)) (hz : h'.kid p d = some z)
    (ho : h'.kid p (!d) = h.kid p (!d)) :
    h'.kids p = some (if d then (l, z) else (z, r)) := by
  cases d
  · exact kids_eq_some hz (ho.trans (kid_of_kids hk true))
  · exact kids_eq_some (ho.trans (kid_of_kids hk false)) hz

omit [LinearOrder κ] in
/-- **A swung pointer replaces a subtree.**  The subtree `t₀` below the pointer does not contain the
node `p` that has the pointer. -/
theorem Rep.swing (hrep : h.Rep t) (hnd : t.labels.Nodup) (hp : p ∈ t.labels)
    (hx : h.kid p d = some x) :
    ∃ t₀, t₀.label = x ∧ h.Rep t₀ ∧ p ∉ t₀.labels ∧
      ∀ (h' : Linked κ) (t₁ : LTree ℕ), h'.kid p d = some t₁.label →
        h'.kid p (!d) = h.kid p (!d) → (∀ a ∈ t.labels, a ≠ p → h'.kids a = h.kids a) →
        h'.Rep t₁ → ∃ t', LTree.Repl t₀ t₁ t t' ∧ h'.Rep t' ∧ t'.label = t.label := by
  induction t with
  | leaf a =>
      obtain rfl : p = a := by simpa using hp
      rw [kid_of_leaf hrep] at hx
      cases hx
  | node a l r ihl ihr =>
      obtain ⟨ha, hl, hr⟩ := hrep
      simp only [LTree.labels_node, List.nodup_cons, List.nodup_append', List.mem_append,
        not_or] at hnd
      obtain ⟨⟨hal, har⟩, hndl, hndr, hdisj⟩ := hnd
      simp only [LTree.labels_node, List.mem_cons, List.mem_append] at hp ⊢
      rcases hp with rfl | hp | hp
      · -- the pointer is in the top node
        rw [kid_of_kids ha, Option.some.injEq] at hx
        cases d
        · refine ⟨l, hx, hl, hal, fun h' t₁ hz ho hsame hrep₁ => ?_⟩
          have hr' : h'.Rep r :=
            hr.congr fun b hb => hsame b (.inr (.inr hb)) fun e => har (e ▸ hb)
          exact ⟨.node p t₁ r, .left p r .here, ⟨kids_swung ha hz ho, hrep₁, hr'⟩, rfl⟩
        · refine ⟨r, hx, hr, har, fun h' t₁ hz ho hsame hrep₁ => ?_⟩
          have hl' : h'.Rep l :=
            hl.congr fun b hb => hsame b (.inr (.inl hb)) fun e => hal (e ▸ hb)
          exact ⟨.node p l t₁, .right p l .here, ⟨kids_swung ha hz ho, hl', hrep₁⟩, rfl⟩
      · have hpa : a ≠ p := fun e => hal (e ▸ hp)
        obtain ⟨t₀, h₀, hrep₀, hpt, hswing⟩ := ihl hl hndl hp
        refine ⟨t₀, h₀, hrep₀, hpt, fun h' t₁ hz ho hsame hrep₁ => ?_⟩
        obtain ⟨t', hrepl, hrep', htop⟩ :=
          hswing h' t₁ hz ho (fun b hb => hsame b (.inr (.inl hb))) hrep₁
        have hr' : h'.Rep r := hr.congr fun b hb =>
          hsame b (.inr (.inr hb)) fun e => hdisj hp (e ▸ hb)
        exact ⟨.node a t' r, .left a r hrepl,
          ⟨by rw [hsame a (.inl rfl) hpa, ha, htop], hrep', hr'⟩, rfl⟩
      · have hpa : a ≠ p := fun e => har (e ▸ hp)
        obtain ⟨t₀, h₀, hrep₀, hpt, hswing⟩ := ihr hr hndr hp
        refine ⟨t₀, h₀, hrep₀, hpt, fun h' t₁ hz ho hsame hrep₁ => ?_⟩
        obtain ⟨t', hrepl, hrep', htop⟩ :=
          hswing h' t₁ hz ho (fun b hb => hsame b (.inr (.inr hb))) hrep₁
        have hl' : h'.Rep l := hl.congr fun b hb =>
          hsame b (.inr (.inl hb)) fun e => hdisj (e ▸ hb) hp
        exact ⟨.node a l t', .right a l hrepl,
          ⟨by rw [hsame a (.inl rfl) hpa, ha, htop], hl', hrep'⟩, rfl⟩

end Swing

/-! ### Searches that are under way -/

omit [LinearOrder κ] in
/-- The addresses below `n` refer to addresses below `n`. -/
def Closed (h : Linked κ) (n : ℕ) : Prop := ∀ x y, x < n → h.Edge x y → y < n

omit [LinearOrder κ] in
theorem Closed.live_lt {n : ℕ} (hc : h.Closed n) (hroot : root < n) (hx : h.Live root x) :
    x < n := by
  induction hx with
  | refl => exact hroot
  | tail _ he ih => exact hc _ _ ih he

/-- **What a search for `q` knows of a node `x`** that it has come to, and that may have been cut
off since: the reachable nodes that it can come to from there are on the search path. -/
def Sees (h : Linked κ) (root : ℕ) (q : κ) (x : ℕ) : Prop :=
  ∀ z, h.Route q x z → h.Live root z → h.Route q root z

theorem Route.sees (hr : h.Route q root x) : h.Sees root q x := fun _ hz _ => hr.trans hz

theorem Sees.kedge (hx : h.Sees root q x) (he : h.KEdge q x y) : h.Sees root q y :=
  fun z hz => hx z (.head he hz)

/-- A search in a structure that has been changed at `w` only: it goes as before, or it comes to
`w`. -/
theorem Route.back {n w z : ℕ} (hc : h.Closed n)
    (hsame : ∀ u, u < n → u ≠ w → h'.kids u = h.kids u ∧ h'.key u = h.key u) (hx : x < n)
    (hr : h'.Route q x z) :
    (z < n ∧ h.Route q x z) ∨ (h.Route q x w ∧ h'.Route q w z) := by
  induction hr using Relation.ReflTransGen.head_induction_on with
  | refl => exact .inl ⟨hx, .refl⟩
  | @head u v huv hvz ih =>
      by_cases huw : u = w
      · subst huw
        exact .inr ⟨.refl, .head huv hvz⟩
      · obtain ⟨hk, hkey⟩ := hsame u hx huw
        have he : h.KEdge q u v := by
          rw [KEdge, dir, kid_congr hk, hkey] at huv
          exact huv
        rcases ih (hc u v hx ⟨_, he⟩) with ⟨hz, hr⟩ | ⟨hr, hr'⟩
        · exact .inl ⟨hz, .head he hr⟩
        · exact .inr ⟨.head he hr, hr'⟩

/-! ### Grafts -/

/-- **A graft**: the leaf `l` at the side `d` of `p` is replaced by the internal node `c` above the
leaves `a` and `b`.  The new nodes have addresses from `n` on; one of the new leaves has the key
`q`, the other one is a copy of `l`. -/
structure Graft (h h' : Linked κ) (n p : ℕ) (d : Bool) (l c a b : ℕ) (q : κ) : Prop where
  child : h.kid p d = some l
  leaf : h.kids l = none
  swung : h'.kid p d = some c
  other : h'.kid p (!d) = h.kid p (!d)
  top : h'.kids c = some (a, b)
  left : h'.kids a = none
  right : h'.kids b = none
  nodup : [c, a, b].Nodup
  fresh : ∀ x ∈ [c, a, b], n ≤ x
  same : ∀ x < n, x ≠ p → h'.kids x = h.kids x
  key : ∀ x < n, h'.key x = h.key x
  lt : h'.key a < h'.key b
  routing : h'.key c = h'.key b
  keys : (h'.key a = q ∧ h'.key b = h.key l) ∨ (h'.key a = h.key l ∧ h'.key b = q)

namespace Graft

variable {n p l c a b : ℕ} {d : Bool} (hg : Graft h h' n p d l c a b q)

include hg

/-- A search that does not end in the replaced leaf goes as before. -/
theorem follow {q' : κ} {z : ℕ} (hc : h.Closed n) (hx : x < n) (hr : h.Route q' x z) (hz : z ≠ l) :
    h'.Route q' x z := by
  induction hr using Relation.ReflTransGen.head_induction_on with
  | refl => exact .refl
  | @head u v huv hvz ih =>
      have hv : v < n := hc u v hx ⟨_, huv⟩
      have hdir : h'.dir q' u = h.dir q' u := by rw [dir, dir, hg.key u hx]
      have hedge : h'.KEdge q' u v := by
        rw [KEdge, hdir]
        by_cases hup : u = p
        · subst hup
          by_cases hd : h.dir q' u = d
          · -- the search goes to the replaced leaf, and ends there
            rw [KEdge, hd, hg.child, Option.some.injEq] at huv
            subst huv
            rcases hvz.cases_head with rfl | ⟨w, hw, -⟩
            · exact absurd rfl hz
            · rw [KEdge, kid_of_leaf hg.leaf] at hw
              cases hw
          · have hd' : h.dir q' u = !d := by
              cases d <;> simpa using hd
            rw [hd', hg.other, ← hd']
            exact huv
        · rw [kid_congr (hg.same u hx hup)]
          exact huv
      exact .head hedge (ih hv)

/-- The new addresses are not among the old ones. -/
theorem labels_nodup {t' : LTree ℕ} (hT : h.Tree root t) (hlt : ∀ x ∈ t.labels, x < n)
    (hr : LTree.Repl (.leaf l) (.node c (.leaf a) (.leaf b)) t t') :
    t'.labels.Nodup ∧ l ∉ t'.labels := by
  obtain ⟨xs, ys, hxs, hxs'⟩ := hr.labels
  have hnd := hT.nodup
  rw [hxs, LTree.labels_leaf, List.append_assoc, List.singleton_append, List.nodup_middle] at hnd
  rw [hxs] at hlt
  rw [hxs']
  obtain ⟨hl, hnd⟩ := List.nodup_cons.mp hnd
  have hperm : (xs ++ [c, a, b] ++ ys).Perm ([c, a, b] ++ (xs ++ ys)) := by
    rw [← List.append_assoc]
    exact List.perm_append_comm.append_right ys
  have hdisj : ∀ x ∈ [c, a, b], x ∉ xs ++ ys := by
    intro x hx hx'
    have hge := hg.fresh x hx
    have hlt' : x < n := hlt x (by
      rcases List.mem_append.mp hx' with hx' | hx' <;> simp [hx'])
    omega
  refine ⟨hperm.nodup_iff.mpr (List.nodup_append'.mpr ⟨hg.nodup, hnd, hdisj⟩), fun hmem => ?_⟩
  rcases List.mem_append.mp (hperm.mem_iff.mp hmem) with hnew | hold
  · have hge := hg.fresh l hnew
    have hlt' : l < n := hlt l (by simp)
    omega
  · exact hl hold

/-- **The tree with the new leaves.** -/
theorem tree (hT : h.Tree root t) (hlt : ∀ x ∈ t.labels, x < n) (hp : h.Live root p)
    (hq : h.Route q root l) :
    ∃ t', h'.Tree root t' ∧ LTree.Repl (.leaf l) (.node c (.leaf a) (.leaf b)) t t' := by
  have hnew : h'.Rep (.node c (.leaf a) (.leaf b)) := ⟨hg.top, hg.left, hg.right⟩
  have hleaf : h.Rep (.leaf l) := hg.leaf
  obtain ⟨t₀, htop, hrep₀, -, hswing⟩ := hT.rep.swing hT.nodup (hT.live_iff.mp hp) hg.child
  obtain ⟨t', hrepl, hrep', htop'⟩ := hswing h' (.node c (.leaf a) (.leaf b)) hg.swung hg.other
    (fun x hx hxp => hg.same x (hlt x hx) hxp) hnew
  obtain rfl : t₀ = .leaf l := hrep₀.unique hleaf htop
  obtain ⟨hnd, hl⟩ := hg.labels_nodup hT hlt hrepl
  refine ⟨t', ⟨htop'.trans hT.top, hrep', hnd, ?_⟩, hrepl⟩
  have hkey : ∀ x ∈ t.labels, h'.key x = h.key x := fun x hx => hg.key x (hlt x hx)
  have hkl : h'.key l = h.key l := by
    obtain ⟨xs, ys, hxs, -⟩ := hrepl.labels
    exact hkey l (by simp [hxs])
  obtain ⟨lo, hi, -, -, hb, hfill, hsearch⟩ := hrepl.within (hT.ordered.congr hkey)
  have hbq : lo ≤ (q : WithBot κ) ∧ (q : WithTop κ) < hi := by
    rcases hsearch q bot_le (WithTop.coe_lt_top q) with hin | hout
    · exact hin.1
    · -- a search that misses the replaced leaf does not end there
      refine absurd ?_ hl
      rw [hT.route_iff, ← LTree.path_congr hkey, ← hout.2.2] at hq
      exact (LTree.path_sublist_labels _ _ _).subset hq
  rw [LTree.within_leaf, hkl] at hb
  refine hfill ?_
  rw [LTree.within_node, LTree.within_leaf, LTree.within_leaf, hg.routing]
  have hab : ((h'.key a : κ) : WithTop κ) < h'.key b := WithTop.coe_lt_coe.mpr hg.lt
  rcases hg.keys with ⟨ha, hb'⟩ | ⟨ha, hb'⟩
  · exact ⟨⟨ha ▸ hbq.1, hab⟩, le_rfl, hb' ▸ hb.2⟩
  · exact ⟨⟨ha ▸ hb.1, hab⟩, le_rfl, hb' ▸ hbq.2⟩

/-- The reachable nodes after a graft. -/
theorem live_iff {t' : LTree ℕ} (hT : h.Tree root t) (hT' : h'.Tree root t')
    (hr : LTree.Repl (.leaf l) (.node c (.leaf a) (.leaf b)) t t') (hlt : ∀ x ∈ t.labels, x < n) :
    h'.Live root x ↔ (h.Live root x ∧ x ≠ l) ∨ x ∈ [c, a, b] := by
  have hl := (hg.labels_nodup hT hlt hr).2
  rw [hT.live_iff, hT'.live_iff]
  obtain ⟨xs, ys, hxs, hxs'⟩ := hr.labels
  rw [hxs'] at hl
  simp only [hxs, hxs', LTree.labels_leaf, LTree.labels_node, List.mem_append, List.mem_cons,
    List.not_mem_nil, or_false, not_or, List.cons_append, List.nil_append] at hl ⊢
  constructor
  · rintro ((hx | hx) | hx)
    · exact .inl ⟨.inl (.inl hx), fun e => hl.1.1 (e ▸ hx)⟩
    · exact .inr hx
    · exact .inl ⟨.inr hx, fun e => hl.2 (e ▸ hx)⟩
  · rintro (⟨(hx | hx) | hx, hne⟩ | hx)
    · exact .inl (.inl hx)
    · exact absurd hx hne
    · exact .inr hx
    · exact .inl (.inr hx)

/-- **The keys after a graft.** -/
theorem stored_iff {t' : LTree ℕ} {q' : κ} (hT : h.Tree root t) (hT' : h'.Tree root t')
    (hr : LTree.Repl (.leaf l) (.node c (.leaf a) (.leaf b)) t t') (hlt : ∀ x ∈ t.labels, x < n) :
    h'.Stored root q' ↔ h.Stored root q' ∨ q' = q := by
  have hkey : ∀ x ∈ t.leaves, h'.key x = h.key x := fun x hx =>
    hg.key x (hlt x (LTree.leaves_subset_labels t hx))
  rw [hT.stored_iff_leaf, hT'.stored_iff_leaf]
  obtain ⟨xs, ys, hxs, hxs'⟩ := hr.leaves
  rw [hxs] at hkey
  have hnew : (h'.key a = q' ∨ h'.key b = q') ↔ (h.key l = q' ∨ q' = q) := by
    rcases hg.keys with ⟨ha, hb⟩ | ⟨ha, hb⟩
    · rw [ha, hb, or_comm, eq_comm (b := q)]
    · rw [ha, hb, eq_comm (b := q)]
  simp only [hxs, hxs', LTree.leaves_leaf, LTree.leaves_node, List.mem_append, List.mem_cons,
    List.not_mem_nil, or_false, List.cons_append, List.nil_append] at hkey ⊢
  constructor
  · rintro ⟨x, (hx | hx) | hx, hk⟩
    · exact .inl ⟨x, .inl (.inl hx), (hkey x (.inl (.inl hx))).symm.trans hk⟩
    · have hor : h'.key a = q' ∨ h'.key b = q' := by
        rcases hx with rfl | rfl
        · exact .inl hk
        · exact .inr hk
      exact (hnew.mp hor).imp_left fun hl => ⟨l, .inl (.inr rfl), hl⟩
    · exact .inl ⟨x, .inr hx, (hkey x (.inr hx)).symm.trans hk⟩
  · have hpair : h.key l = q' ∨ q' = q → ∃ x, ((x ∈ xs ∨ x = a ∨ x = b) ∨ x ∈ ys) ∧
        h'.key x = q' := fun hor =>
      (hnew.mpr hor).elim (fun ha => ⟨a, .inl (.inr (.inl rfl)), ha⟩)
        fun hb => ⟨b, .inl (.inr (.inr rfl)), hb⟩
    rintro (⟨x, (hx | rfl) | hx, hk⟩ | hq)
    · exact ⟨x, .inl (.inl hx), (hkey x (.inl (.inl hx))).trans hk⟩
    · exact hpair (.inl hk)
    · exact ⟨x, .inr hx, (hkey x (.inr hx)).trans hk⟩
    · exact hpair (.inr hq)

theorem internal : h.kids p ≠ none := fun h0 => by
  have hc := hg.child
  rw [kid_of_leaf h0] at hc
  cases hc

theorem closed {n' : ℕ} (hc : h.Closed n) (hp : p < n) (hnew : ∀ x ∈ [c, a, b], x < n')
    (hall : ∀ x < n', x < n ∨ x ∈ [c, a, b]) : h'.Closed n' := by
  have hn : n ≤ n' := by
    have hcn := hg.fresh c (by simp)
    exact hcn.trans (hnew c (by simp)).le
  rintro x y hx ⟨e, he⟩
  have hold : h.kid x e = some y → x < n → y < n' := fun he hx => (hc x y hx ⟨e, he⟩).trans_le hn
  rcases hall x hx with hxn | hxnew
  · by_cases hxp : x = p
    · subst hxp
      by_cases hed : e = d
      · rw [hed, hg.swung, Option.some.injEq] at he
        exact he ▸ hnew c (by simp)
      · have hed' : e = !d := by
          cases d <;> simpa using hed
        rw [hed', hg.other, ← hed'] at he
        exact hold he hxn
    · rw [kid_congr (hg.same x hxn hxp)] at he
      exact hold he hxn
  · simp only [List.mem_cons, List.not_mem_nil, or_false] at hxnew
    rcases hxnew with rfl | rfl | rfl
    · rw [kid_of_kids hg.top, Option.some.injEq] at he
      subst he
      split_ifs
      · exact hnew b (by simp)
      · exact hnew a (by simp)
    · rw [kid_of_leaf hg.left] at he
      cases he
    · rw [kid_of_leaf hg.right] at he
      cases he

/-- **A search that is under way** stays on the search path. -/
theorem sees {t' : LTree ℕ} {q' : κ} (hT : h.Tree root t) (hT' : h'.Tree root t')
    (hr : LTree.Repl (.leaf l) (.node c (.leaf a) (.leaf b)) t t') (hc : h.Closed n)
    (hroot : root < n) (hp : h.Live root p) (hx : x < n) (hs : h.Sees root q' x) :
    h'.Sees root q' x := by
  have hlt : ∀ x ∈ t.labels, x < n := fun x hx => hc.live_lt hroot (hT.live_iff.mpr hx)
  have hpl : p ≠ l := by
    rintro rfl
    exact hg.internal hg.leaf
  intro z hz hlive
  rcases hz.back hc (fun u hu hup => ⟨hg.same u hu hup, hg.key u hu⟩) hx with ⟨hzn, hz⟩ | ⟨hxp, hpz⟩
  · rcases (hg.live_iff hT hT' hr hlt).mp hlive with ⟨hlz, hzl⟩ | hnew
    · exact hg.follow hc hroot (hs z hz hlz) hzl
    · exact absurd (hg.fresh z hnew) (not_le.mpr hzn)
  · exact (hg.follow hc hroot (hs p hxp hp) hpl).trans hpz

end Graft

/-! ### Splices -/

/-- **A splice**: the parent `p` of the leaf `l`, at the side `e` of `g`, is replaced by its other
child `s`. -/
structure Splice (h h' : Linked κ) (g : ℕ) (e : Bool) (p : ℕ) (d : Bool) (l s : ℕ) : Prop where
  child : h.kid g e = some p
  leafAt : h.kid p d = some l
  leaf : h.kids l = none
  sibling : h.kid p (!d) = some s
  swung : h'.kid g e = some s
  other : h'.kid g (!e) = h.kid g (!e)
  same : ∀ x, x ≠ g → h'.kids x = h.kids x
  key : h'.key = h.key

namespace Splice

variable {g p l s : ℕ} {d e : Bool} (hs : Splice h h' g e p d l s)

include hs

omit [LinearOrder κ] in
theorem leaf_ne : l ≠ g := by
  rintro rfl
  have hc := hs.child
  rw [kid_of_leaf hs.leaf] at hc
  cases hc

/-- A search that ends neither in the removed leaf nor in its parent goes as before, past the
parent. -/
theorem follow {z : ℕ} (hpg : p ≠ g) (hr : h.Route q x z) (hzl : z ≠ l) (hzp : z ≠ p) :
    h'.Route q x z := by
  have hdir : ∀ u, h'.dir q u = h.dir q u := by
    intro u
    rw [dir, dir, hs.key]
  induction hr using Relation.ReflTransGen.head_induction_on with
  | refl => exact .refl
  | @head u v huv _ ih =>
      by_cases hug : u = g
      · subst hug
        by_cases hd : h.dir q u = e
        · -- the search goes on to the parent, and from there to the other child
          rw [KEdge, hd, hs.child, Option.some.injEq] at huv
          subst huv
          rcases ih.cases_head with rfl | ⟨w, hw, hwz⟩
          · exact absurd rfl hzp
          · have hu : h'.KEdge q u s := by
              rw [KEdge, hdir, hd]
              exact hs.swung
            rw [KEdge, hdir, kid_congr (hs.same p hpg)] at hw
            by_cases hpd : h.dir q p = d
            · rw [hpd, hs.leafAt, Option.some.injEq] at hw
              subst hw
              rcases hwz.cases_head with rfl | ⟨v, hv, -⟩
              · exact absurd rfl hzl
              · rw [KEdge, kid_of_leaf] at hv
                · cases hv
                · exact (hs.same l hs.leaf_ne).trans hs.leaf
            · have hpd' : h.dir q p = !d := by
                cases d <;> simpa using hpd
              rw [hpd', hs.sibling, Option.some.injEq] at hw
              exact .head hu (hw ▸ hwz)
        · have hd' : h.dir q u = !e := by
            cases e <;> simpa using hd
          refine .head ?_ ih
          rw [KEdge, hdir, hd', hs.other, ← hd']
          exact huv
      · refine .head ?_ ih
        rw [KEdge, hdir, kid_congr (hs.same u hug)]
        exact huv

omit [LinearOrder κ] in
theorem closed {n : ℕ} (hc : h.Closed n) (hg : g < n) : h'.Closed n := by
  rintro x y hx ⟨i, hi⟩
  by_cases hxg : x = g
  · subst hxg
    by_cases hie : i = e
    · have hp := hc x p hg ⟨e, hs.child⟩
      rw [hie, hs.swung, Option.some.injEq] at hi
      exact hi ▸ hc p s hp ⟨_, hs.sibling⟩
    · have hie' : i = !e := by
        cases e <;> simpa using hie
      rw [hie', hs.other, ← hie'] at hi
      exact hc x y hx ⟨i, hi⟩
  · rw [kid_congr (hs.same x hxg)] at hi
    exact hc x y hx ⟨i, hi⟩

/-- **The tree without the leaf and its parent.**  The subtree `tp` at the parent consists of the
parent, the leaf and the subtree `ts` at the other child. -/
theorem tree (hT : h.Tree root t) (hg : h.Live root g) :
    ∃ t' tp ts, h'.Tree root t' ∧ LTree.Repl tp ts t t' ∧
      (tp = .node p (.leaf l) ts ∨ tp = .node p ts (.leaf l)) ∧ p ≠ g := by
  obtain ⟨tp, htop, hrepp, hgp, hswing⟩ := hT.rep.swing hT.nodup (hT.live_iff.mp hg) hs.child
  -- the parent is an internal node, one of whose children is the leaf
  obtain ⟨ts, htp, hts, hreps, hgs⟩ : ∃ ts,
    (tp = .node p (.leaf l) ts ∨ tp = .node p ts (.leaf l)) ∧
      ts.label = s ∧ h.Rep ts ∧ g ∉ ts.labels := by
    have hleaf : h.Rep (.leaf l) := hs.leaf
    have hlp := hs.leafAt
    have hsp := hs.sibling
    cases tp with
    | leaf a =>
        obtain rfl : a = p := htop
        rw [kid_of_leaf hrepp] at hlp
        cases hlp
    | node a tl tr =>
        obtain rfl : a = p := htop
        obtain ⟨ha, hl, hr⟩ := hrepp
        simp only [LTree.labels_node, List.mem_cons, List.mem_append, not_or] at hgp
        rw [kid_of_kids ha, Option.some.injEq] at hlp hsp
        cases d
        · obtain rfl : tl = .leaf l := hl.unique hleaf hlp
          exact ⟨tr, .inl rfl, hsp, hr, hgp.2.2⟩
        · obtain rfl : tr = .leaf l := hr.unique hleaf hlp
          exact ⟨tl, .inr rfl, hsp, hl, hgp.2.1⟩
  have hreps' : h'.Rep ts := hreps.congr fun b hb => hs.same b fun e => hgs (e ▸ hb)
  obtain ⟨t', hrepl, hrep', htop'⟩ :=
    hswing h' ts (hts ▸ hs.swung) hs.other (fun b _ hb => hs.same b hb) hreps'
  have hpg : p ≠ g := fun e => hgp (e ▸ htop ▸ LTree.label_mem_labels tp)
  refine ⟨t', tp, ts, ⟨htop'.trans hT.top, hrep', ?_, ?_⟩, hrepl, htp, hpg⟩
  · obtain ⟨xs, ys, hxs, hxs'⟩ := hrepl.labels
    refine hT.nodup.sublist ?_
    rw [hxs, hxs']
    refine List.Sublist.append_right (List.Sublist.append_left ?_ xs) ys
    rcases htp with rfl | rfl
    · exact (List.sublist_cons_self l _).cons p
    · exact (List.sublist_append_left _ _).cons p
  · rw [hs.key]
    obtain ⟨lo, hi, -, -, hb, hfill, -⟩ := hrepl.within hT.ordered
    refine hfill ?_
    rcases htp with rfl | rfl
    · exact hb.2.mono hb.key_between.1 le_rfl
    · exact hb.1.mono le_rfl hb.key_between.2.le

variable {t' tp ts : LTree ℕ}

omit hs in
/-- The reachable nodes after a splice. -/
theorem live_iff (hT : h.Tree root t) (hT' : h'.Tree root t') (hr : LTree.Repl tp ts t t')
    (htp : tp = .node p (.leaf l) ts ∨ tp = .node p ts (.leaf l)) :
    h'.Live root x ↔ h.Live root x ∧ x ≠ p ∧ x ≠ l := by
  have hnd := hT.nodup
  rw [hT.live_iff, hT'.live_iff]
  obtain ⟨xs, ys, hxs, hxs'⟩ := hr.labels
  have hperm : t.labels.Perm (p :: l :: t'.labels) := by
    rw [hxs, hxs']
    have hin : tp.labels.Perm (p :: l :: ts.labels) := by
      rcases htp with rfl | rfl
      · exact .refl _
      · exact .cons p (List.perm_append_comm)
    refine ((hin.append_left xs).append_right ys).trans ?_
    simp only [List.append_assoc, List.cons_append]
    exact List.perm_middle.trans (.cons p List.perm_middle)
  rw [hperm.mem_iff]
  rw [hperm.nodup_iff, List.nodup_cons, List.nodup_cons, List.mem_cons, not_or] at hnd
  obtain ⟨⟨-, hp⟩, hl, -⟩ := hnd
  constructor
  · intro hx
    exact ⟨by simp [hx], fun e => hp (e ▸ hx), fun e => hl (e ▸ hx)⟩
  · rintro ⟨hx, hxp, hxl⟩
    simpa [hxp, hxl] using hx

/-- **The keys after a splice.** -/
theorem stored_iff (hT : h.Tree root t) (hT' : h'.Tree root t') (hr : LTree.Repl tp ts t t')
    (htp : tp = .node p (.leaf l) ts ∨ tp = .node p ts (.leaf l)) (hg : h.Live root g) :
    h'.Stored root q ↔ h.Stored root q ∧ q ≠ h.key l := by
  have hpl : h.Live root p := hg.tail ⟨_, hs.child⟩
  have hll : h.Live root l := hpl.tail ⟨_, hs.leafAt⟩
  have hp0 : h.kids p ≠ none := fun h0 => by
    have hc := hs.leafAt
    rw [kid_of_leaf h0] at hc
    cases hc
  have hg0 : h.kids g ≠ none := fun h0 => by
    have hc := hs.child
    rw [kid_of_leaf h0] at hc
    cases hc
  have hg0' : h'.kids g ≠ none := fun h0 => by
    have hc := hs.swung
    rw [kid_of_leaf h0] at hc
    cases hc
  have hleaf : ∀ x, h'.kids x = none ↔ h.kids x = none := by
    intro x
    by_cases hxg : x = g
    · subst hxg
      exact iff_of_false hg0' hg0
    · rw [hs.same x hxg]
  constructor
  · rintro ⟨x, hx, hxl, rfl⟩
    obtain ⟨hx, -, hne⟩ := (live_iff hT hT' hr htp).mp hx
    rw [hleaf] at hxl
    rw [hs.key]
    exact ⟨⟨x, hx, hxl, rfl⟩, fun hk => hne (hT.leaf_unique hx hll hxl hs.leaf hk)⟩
  · rintro ⟨⟨x, hx, hxl, rfl⟩, hne⟩
    refine ⟨x, (live_iff hT hT' hr htp).mpr ⟨hx, ?_, ?_⟩, (hleaf x).mpr hxl, by rw [hs.key]⟩
    · rintro rfl
      exact hp0 hxl
    · rintro rfl
      exact hne rfl

/-- **A search that is under way** stays on the search path. -/
theorem sees {n : ℕ} (hT : h.Tree root t) (hT' : h'.Tree root t') (hr : LTree.Repl tp ts t t')
    (htp : tp = .node p (.leaf l) ts ∨ tp = .node p ts (.leaf l)) (hpg : p ≠ g) (hc : h.Closed n)
    (hg : h.Live root g) (hx : x < n) (hsee : h.Sees root q x) : h'.Sees root q x := by
  intro z hz hlive
  rcases hz.back hc (fun u _ hu => ⟨hs.same u hu, by rw [hs.key]⟩) hx with ⟨-, hz⟩ | ⟨hxg, hgz⟩
  · obtain ⟨hlz, hzp, hzl⟩ := (live_iff hT hT' hr htp).mp hlive
    exact hs.follow hpg (hsee z hz hlz) hzl hzp
  · exact (hs.follow hpg (hsee g hxg hg) hs.leaf_ne.symm hpg.symm).trans hgz

end Splice

end Linked
