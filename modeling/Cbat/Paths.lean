/-
**Live nodes and search paths.**

A node is live if the root reaches it through child pointers; the path of a key is what a search
for the key meets.  Both are defined on the memory alone, since claims about the code speak of
them.  While the live part of the memory is a search tree with the sentinel layout, the path of a
key is a list of addresses that the tree gives.

Main definitions:

* `Cbat.Live`, `Cbat.Route`, `Cbat.OnPath` — the live nodes, the nodes below a node on the path of
  a key, and the nodes on the path of a key;
* `Cbat.InTree` — **the node tree has a leaf with the key**;
* `Cbat.ord` — keys in the order in which the sentinels come last;
* `Cbat.TreeInv` — the live part of the memory is a search tree with the sentinel layout whose
  real part is weight-balanced.

Main results:

* `Cbat.TreeInv.live_iff`, `Cbat.TreeInv.onPath_iff`, `Cbat.TreeInv.route_iff` — the notions above
  read off the tree;
* `Cbat.TreeInv.coherent` — the paths of two keys through a node agree above it.
-/

import Cbat.Heap

set_option relaxedAutoImplicit false
set_option autoImplicit false

namespace Cbat

variable {K V : Type}

/-! ### Notions of the memory -/

/-- `y` is a child of `x`. -/
def Edge (m : Mem K V) (x y : ℕ) : Prop :=
  y ≠ 0 ∧ ((m.node x).left = y ∨ (m.node x).right = y)

/-- The root reaches the node through child pointers. -/
def Live (m : Mem K V) (x : ℕ) : Prop := Relation.ReflTransGen (Edge m) root x

/-- **The node tree has a leaf with the key.** -/
def InTree (m : Mem K V) (k : K) : Prop :=
  ∃ x, Live m x ∧ (m.node x).left = 0 ∧ (m.node x).key = k

section Routes

variable [LinearOrder K] (cfg : Cfg K V)

/-- `y` is the child of the internal node `x` on the path of `k`. -/
def KEdge (m : Mem K V) (k : K) (x y : ℕ) : Prop :=
  (m.node x).left ≠ 0 ∧ child cfg m k x = y ∧ y ≠ 0

/-- `y` is `x` or below it on the path of `k`. -/
def Route (m : Mem K V) (k : K) (x y : ℕ) : Prop := Relation.ReflTransGen (KEdge cfg m k) x y

/-- The node is on the path of `k`. -/
def OnPath (m : Mem K V) (k : K) (x : ℕ) : Prop := Route cfg m k root x

/-- A key in the order of the tree: the key of the sentinels is above all others. -/
def ord (k : K) : WithTop K := if k = cfg.noKey then ⊤ else (k : WithTop K)

/-- The key of a cell in the order of the tree. -/
def ckey (c : Cell K V) : WithTop K := ord cfg c.key

variable {cfg}

theorem ord_of_ne {k : K} (h : k ≠ cfg.noKey) : ord cfg k = (k : WithTop K) := if_neg h

theorem ord_noKey : ord cfg cfg.noKey = ⊤ := if_pos rfl

theorem ord_eq_coe_iff {k j : K} (hj : j ≠ cfg.noKey) : ord cfg k = (j : WithTop K) ↔ k = j := by
  unfold ord
  split_ifs with h
  · simp only [WithTop.top_ne_coe, false_iff]
    rintro rfl
    exact hj h
  · exact WithTop.coe_eq_coe

/-- `cmp(key, c->key) || c->key == NO_KEY` compares in the order of the tree. -/
theorem goesLeft_iff {k c : K} : goesLeft cfg k c = true ↔ (k : WithTop K) < ord cfg c := by
  unfold goesLeft ord
  split_ifs with h
  · simp [h]
  · simp [h]

theorem child_eq_left {m : Mem K V} {k : K} {x : ℕ}
    (h : (k : WithTop K) < ord cfg (m.node x).key) : child cfg m k x = (m.node x).left := by
  rw [child, if_pos (goesLeft_iff.mpr h)]

theorem child_eq_right {m : Mem K V} {k : K} {x : ℕ}
    (h : ¬ (k : WithTop K) < ord cfg (m.node x).key) : child cfg m k x = (m.node x).right := by
  rw [child, if_neg fun hl => h (goesLeft_iff.mp hl)]

theorem child_congr {m m' : Mem K V} {k : K} {x : ℕ} (h : m.Same m' x) :
    child cfg m' k x = child cfg m k x := by
  rw [child, child, h.key, h.left, h.right]

theorem KEdge.edge {m : Mem K V} {k : K} {x y : ℕ} (h : KEdge cfg m k x y) : Edge m x y := by
  refine ⟨h.2.2, ?_⟩
  by_cases hl : (k : WithTop K) < ord cfg (m.node x).key
  · exact .inl (by rw [← child_eq_left hl]; exact h.2.1)
  · exact .inr (by rw [← child_eq_right hl]; exact h.2.1)

theorem KEdge.unique {m : Mem K V} {k : K} {x y z : ℕ} (h : KEdge cfg m k x y)
    (h' : KEdge cfg m k x z) : y = z := h.2.1.symm.trans h'.2.1

theorem OnPath.live {m : Mem K V} {k : K} {x : ℕ} (h : OnPath cfg m k x) : Live m x :=
  Relation.ReflTransGen.mono (r := KEdge cfg m k) (fun _ _ hxy => hxy.edge) _ _ h

theorem onPath_root {m : Mem K V} {k : K} : OnPath cfg m k root := Relation.ReflTransGen.refl

theorem OnPath.step {m : Mem K V} {k : K} {x y : ℕ} (h : OnPath cfg m k x)
    (hxy : KEdge cfg m k x y) : OnPath cfg m k y := Relation.ReflTransGen.tail h hxy

theorem OnPath.route {m : Mem K V} {k : K} {x y : ℕ} (h : OnPath cfg m k x)
    (hxy : Route cfg m k x y) : OnPath cfg m k y := Relation.ReflTransGen.trans h hxy

/-- The nodes below `x` on a path: `x` itself, and those below its child. -/
theorem route_cases {m : Mem K V} {k : K} {x z : ℕ} :
    Route cfg m k x z ↔ x = z ∨ ∃ y, KEdge cfg m k x y ∧ Route cfg m k y z :=
  Relation.ReflTransGen.cases_head_iff

/-- Of two nodes on the path of a key one is below the other. -/
theorem Route.linear {m : Mem K V} {k : K} {x y z : ℕ} (hy : Route cfg m k x y)
    (hz : Route cfg m k x z) : Route cfg m k y z ∨ Route cfg m k z y := by
  induction hy using Relation.ReflTransGen.head_induction_on with
  | refl => exact .inl hz
  | @head a b hab hby ih =>
      rcases route_cases.mp hz with rfl | ⟨b', hab', hbz⟩
      · exact .inr (Relation.ReflTransGen.head hab hby)
      · exact ih (hab.unique hab' ▸ hbz)

end Routes

/-! ### The live tree -/

section Tree

variable [LinearOrder K] {cfg : Cfg K V} {m : Mem K V}

/-- The addresses on the path of `k` in a tree. -/
def pathIds (cfg : Cfg K V) (k : K) (t : LTree (Cell K V)) : List ℕ :=
  (t.path (ckey cfg) (k : WithTop K)).map Cell.id

theorem pathIds_sublist (cfg : Cfg K V) (k : K) (t : LTree (Cell K V)) :
    (pathIds cfg k t).Sublist (ids t) :=
  (LTree.path_sublist_labels ..).map _

theorem pathIds_subset (cfg : Cfg K V) (k : K) (t : LTree (Cell K V)) : pathIds cfg k t ⊆ ids t :=
  (pathIds_sublist cfg k t).subset

@[simp] theorem pathIds_leaf (k : K) (c : Cell K V) : pathIds cfg k (.leaf c) = [c.id] := rfl

theorem pathIds_node (k : K) (c : Cell K V) (l r : LTree (Cell K V)) :
    pathIds cfg k (.node c l r) =
      c.id :: if (k : WithTop K) < ckey cfg c then pathIds cfg k l else pathIds cfg k r := by
  unfold pathIds
  rw [LTree.path_node]
  split_ifs <;> rfl

omit [LinearOrder K] in
theorem label_id_ne_zero {t : LTree (Cell K V)} (h0 : 0 ∉ ids t) : t.label.id ≠ 0 :=
  fun h => h0 (h ▸ label_id_mem_ids t)

/-- In a represented tree the child on the path of `k` is the subtree that a search enters. -/
theorem kedge_node {k : K} {c : Cell K V} {l r : LTree (Cell K V)} (h : m.Rep (.node c l r))
    (h0 : 0 ∉ ids (.node c l r)) {y : ℕ} :
    KEdge cfg m k c.id y ↔
      y = if (k : WithTop K) < ckey cfg c then l.label.id else r.label.id := by
  simp only [ids_node, List.mem_cons, List.mem_append, not_or] at h0
  have hl : l.label.id ≠ 0 := label_id_ne_zero h0.2.1
  have hr : r.label.id ≠ 0 := label_id_ne_zero h0.2.2
  have hk : ord cfg (m.node c.id).key = ckey cfg c := by rw [h.1.key, ckey]
  unfold KEdge
  rw [h.1.left]
  split_ifs with hlt
  · rw [child_eq_left (hk ▸ hlt), h.1.left]
    exact ⟨fun hy => hy.2.1.symm, fun hy => ⟨hl, hy.symm, hy ▸ hl⟩⟩
  · rw [child_eq_right (hk ▸ hlt), h.1.right]
    exact ⟨fun hy => hy.2.1.symm, fun hy => ⟨hl, hy.symm, hy ▸ hr⟩⟩

theorem not_kedge_leaf {k : K} {c : Cell K V} (h : m.Rep (.leaf c)) {y : ℕ} :
    ¬ KEdge cfg m k c.id y := fun hy => hy.1 h.left

/-- The nodes below the top of a represented tree on the path of `k`. -/
theorem route_top_iff {k : K} {t : LTree (Cell K V)} (h : m.Rep t) (h0 : 0 ∉ ids t) {y : ℕ} :
    Route cfg m k t.label.id y ↔ y ∈ pathIds cfg k t := by
  induction t with
  | leaf c =>
      rw [route_cases]
      simp only [LTree.label_leaf, not_kedge_leaf h, false_and, exists_false, or_false,
        pathIds_leaf, List.mem_singleton]
      exact eq_comm
  | node c l r ihl ihr =>
      have h0' := h0
      simp only [ids_node, List.mem_cons, List.mem_append, not_or] at h0'
      rw [route_cases]
      simp only [LTree.label_node, kedge_node h h0, exists_eq_left, pathIds_node, List.mem_cons]
      split_ifs
      · rw [ihl h.2.1 h0'.2.1, eq_comm]
      · rw [ihr h.2.2 h0'.2.2, eq_comm]

/-- The nodes below any node on the path: the rest of the list. -/
theorem route_of_path_eq {k : K} {t : LTree (Cell K V)} (h : m.Rep t) (h0 : 0 ∉ ids t)
    {xs ys : List ℕ} {x y : ℕ} (hp : pathIds cfg k t = xs ++ x :: ys) :
    Route cfg m k x y ↔ y ∈ x :: ys := by
  induction t generalizing xs with
  | leaf c =>
      rw [pathIds_leaf] at hp
      obtain ⟨rfl, rfl, rfl⟩ : xs = [] ∧ c.id = x ∧ ys = [] := by
        cases xs with
        | nil => simpa [eq_comm] using hp
        | cons a xs => simp at hp
      exact route_top_iff (t := .leaf c) h h0
  | node c l r ihl ihr =>
      cases xs with
      | nil =>
          have hx : c.id = x := by
            rw [pathIds_node] at hp; exact (List.cons.inj hp).1
          have : Route cfg m k _ y ↔ _ := route_top_iff h h0
          rw [hp] at this
          rwa [LTree.label_node, hx] at this
      | cons a xs =>
          simp only [ids_node, List.mem_cons, List.mem_append, not_or] at h0
          rw [pathIds_node] at hp
          have hp' := (List.cons.inj hp).2
          split_ifs at hp'
          · exact ihl h.2.1 h0.2.1 hp'
          · exact ihr h.2.2 h0.2.2 hp'

/-- The paths of two keys through a node agree above it. -/
theorem prefix_unique {k j : K} {t : LTree (Cell K V)} (hnd : (ids t).Nodup) {x : ℕ}
    {xs ys xs' ys' : List ℕ} (hk : pathIds cfg k t = xs ++ x :: ys)
    (hj : pathIds cfg j t = xs' ++ x :: ys') : xs = xs' := by
  induction t generalizing xs xs' with
  | leaf c =>
      rw [pathIds_leaf] at hk hj
      have aux : ∀ {zs ws : List ℕ}, [c.id] = zs ++ x :: ws → zs = [] := fun {zs ws} h => by
        cases zs with
        | nil => rfl
        | cons a zs => simp at h
      rw [aux hk, aux hj]
  | node c l r ihl ihr =>
      simp only [ids_node, List.nodup_cons, List.mem_append, not_or, List.nodup_append] at hnd
      obtain ⟨⟨hcl, hcr⟩, hndl, hndr, hlr⟩ := hnd
      -- below the top, a path contains no node of the other subtree and not the top again
      have sub : ∀ {q : K} {zs ws : List ℕ}, pathIds cfg q (.node c l r) = zs ++ x :: ws →
          (zs = [] ∧ x = c.id) ∨ ∃ zs', zs = c.id :: zs' ∧
            ((x ∈ ids l ∧ pathIds cfg q l = zs' ++ x :: ws) ∨
              (x ∈ ids r ∧ pathIds cfg q r = zs' ++ x :: ws)) := by
        intro q zs ws h
        rw [pathIds_node] at h
        cases zs with
        | nil => exact .inl ⟨rfl, (List.cons.inj h).1.symm⟩
        | cons a zs =>
            have ha := (List.cons.inj h).1
            have htl := (List.cons.inj h).2
            refine .inr ⟨zs, by rw [ha], ?_⟩
            split_ifs at htl
            · exact .inl ⟨pathIds_subset cfg q l (by rw [htl]; simp), htl⟩
            · exact .inr ⟨pathIds_subset cfg q r (by rw [htl]; simp), htl⟩
      rcases sub hk with ⟨rfl, rfl⟩ | ⟨zs, rfl, hk'⟩
      · rcases sub hj with ⟨rfl, -⟩ | ⟨zs', rfl, ⟨hx, -⟩ | ⟨hx, -⟩⟩
        · rfl
        · exact absurd hx hcl
        · exact absurd hx hcr
      · rcases sub hj with ⟨rfl, rfl⟩ | ⟨zs', rfl, hj'⟩
        · rcases hk' with ⟨hx, -⟩ | ⟨hx, -⟩
          · exact absurd hx hcl
          · exact absurd hx hcr
        · rcases hk' with ⟨hx, hk'⟩ | ⟨hx, hk'⟩ <;> rcases hj' with ⟨hx', hj'⟩ | ⟨hx', hj'⟩
          · rw [ihl hndl hk' hj']
          · exact absurd rfl (hlr x hx x hx')
          · exact absurd rfl (hlr x hx' x hx)
          · rw [ihr hndr hk' hj']

/-! ### The invariant of the live tree -/

/-- The part of the tree that holds real keys: no weight is negative, no leaf is red, the top has
weight one, and the weights on all paths add up to the same. -/
structure RealPart (cfg : Cfg K V) (t : LTree (Cell K V)) : Prop where
  real : ∀ c ∈ t.labels, c.key ≠ cfg.noKey
  nonneg : ∀ c ∈ t.labels, 0 ≤ c.weight
  leaf_pos : ∀ c ∈ t.leaves, 1 ≤ c.weight
  top_weight : t.label.weight = 1
  balanced : ∃ h, t.Bal Cell.weight h

/-- The sentinel layout below the root: a leaf with the key `NO_KEY`, or a node with this key above
the real part and such a leaf. -/
def Shape (cfg : Cfg K V) (t : LTree (Cell K V)) : Prop :=
  (∃ s : Cell K V, t = .leaf s ∧ s.key = cfg.noKey) ∨
    ∃ (rl s : Cell K V) (T : LTree (Cell K V)), t = .node rl T (.leaf s) ∧
      rl.key = cfg.noKey ∧ rl.weight = 1 ∧ s.key = cfg.noKey ∧ RealPart cfg T

/-- **The live part of the memory is a search tree with the sentinel layout.** -/
structure TreeInv (cfg : Cfg K V) (m : Mem K V) (t : LTree (Cell K V)) : Prop where
  rep : m.Rep t
  root_left : (m.node root).left = t.label.id
  root_right : (m.node root).right = 0
  root_key : (m.node root).key = cfg.noKey
  nodup : (ids t).Nodup
  root_notMem : root ∉ ids t
  zero_notMem : 0 ∉ ids t
  lt_next : ∀ x ∈ ids t, x < m.next
  root_lt : root < m.next
  shape : Shape cfg t
  ordered : t.Within (ckey cfg) ⊥ ⊤

omit [LinearOrder K] in
/-- The children of a node of a represented tree are nodes of the tree. -/
theorem Mem.Rep.edge_mem {t : LTree (Cell K V)} (h : m.Rep t) {x y : ℕ} (hx : x ∈ ids t)
    (hxy : Edge m x y) : y ∈ ids t := by
  induction t with
  | leaf c =>
      obtain rfl : x = c.id := by simpa using hx
      rcases hxy.2 with he | he
      · exact absurd (he.symm.trans h.left) hxy.1
      · exact absurd (he.symm.trans h.right) hxy.1
  | node c l r ihl ihr =>
      simp only [ids_node, List.mem_cons, List.mem_append] at hx ⊢
      rcases hx with rfl | hx | hx
      · rcases hxy.2 with he | he
        · exact .inr (.inl (he ▸ h.1.left ▸ label_id_mem_ids l))
        · exact .inr (.inr (he ▸ h.1.right ▸ label_id_mem_ids r))
      · exact .inr (.inl (ihl h.2.1 hx))
      · exact .inr (.inr (ihr h.2.2 hx))

omit [LinearOrder K] in
/-- The top of a represented tree reaches all of it. -/
theorem Mem.Rep.reach_of_mem {t : LTree (Cell K V)} (h : m.Rep t) (h0 : 0 ∉ ids t) {y : ℕ}
    (hy : y ∈ ids t) : Relation.ReflTransGen (Edge m) t.label.id y := by
  induction t with
  | leaf c =>
      obtain rfl : y = c.id := by simpa using hy
      exact .refl
  | node c l r ihl ihr =>
      simp only [ids_node, List.mem_cons, List.mem_append, not_or] at hy h0
      rcases hy with rfl | hy | hy
      · exact .refl
      · exact .head ⟨label_id_ne_zero h0.2.1, .inl h.1.left⟩ (ihl h.2.1 h0.2.1 hy)
      · exact .head ⟨label_id_ne_zero h0.2.2, .inr h.1.right⟩ (ihr h.2.2 h0.2.2 hy)

omit [LinearOrder K] in
theorem Mem.Rep.is_leaf {t : LTree (Cell K V)} (h : m.Rep t) {c : Cell K V} (hc : c ∈ t.leaves) :
    m.Is c 0 0 := by
  induction t with
  | leaf d =>
      obtain rfl : c = d := by simpa using hc
      exact h
  | node d l r ihl ihr =>
      rcases List.mem_append.mp hc with hc | hc
      · exact ihl h.2.1 hc
      · exact ihr h.2.2 hc

omit [LinearOrder K] in
/-- A node of a represented tree without a left child is one of its leaves. -/
theorem Mem.Rep.leaf_of_mem {t : LTree (Cell K V)} (h : m.Rep t) (h0 : 0 ∉ ids t) {x : ℕ}
    (hx : x ∈ ids t) (hl : (m.node x).left = 0) :
    ∃ c ∈ t.leaves, c.id = x ∧ (m.node c.id).key = c.key := by
  induction t with
  | leaf c =>
      obtain rfl : x = c.id := by simpa using hx
      exact ⟨c, by simp, rfl, h.key⟩
  | node c l r ihl ihr =>
      simp only [ids_node, List.mem_cons, List.mem_append, not_or] at hx h0
      rcases hx with rfl | hx | hx
      · exact absurd (h.1.left.symm.trans hl) (label_id_ne_zero h0.2.1)
      · obtain ⟨d, hd, he⟩ := ihl h.2.1 h0.2.1 hx
        exact ⟨d, List.mem_append_left _ hd, he⟩
      · obtain ⟨d, hd, he⟩ := ihr h.2.2 h0.2.2 hx
        exact ⟨d, List.mem_append_right _ hd, he⟩

omit [LinearOrder K] in
/-- The top of a represented tree is no child in it. -/
theorem Mem.Rep.edge_mem_tail {t : LTree (Cell K V)} (h : m.Rep t) {x y : ℕ} (hx : x ∈ ids t)
    (hxy : Edge m x y) : y ∈ (ids t).tail := by
  cases t with
  | leaf c =>
      obtain rfl : x = c.id := by simpa using hx
      rcases hxy.2 with he | he
      · exact absurd (he.symm.trans h.left) hxy.1
      · exact absurd (he.symm.trans h.right) hxy.1
  | node c l r =>
      simp only [ids_node, List.mem_cons, List.mem_append, List.tail_cons] at hx ⊢
      rcases hx with rfl | hx | hx
      · rcases hxy.2 with he | he
        · exact .inl (he ▸ h.1.left ▸ label_id_mem_ids l)
        · exact .inr (he ▸ h.1.right ▸ label_id_mem_ids r)
      · exact .inl (h.2.1.edge_mem hx hxy)
      · exact .inr (h.2.2.edge_mem hx hxy)

omit [LinearOrder K] in
/-- A node of a represented tree has one parent in it. -/
theorem Mem.Rep.parent_unique {t : LTree (Cell K V)} (h : m.Rep t) (hnd : (ids t).Nodup)
    {x y z : ℕ} (hx : x ∈ ids t) (hz : z ∈ ids t) (hxy : Edge m x y) (hzy : Edge m z y) :
    x = z := by
  induction t with
  | leaf c =>
      have := h.edge_mem_tail hx hxy
      simp at this
  | node c l r ihl ihr =>
      simp only [ids_node, List.nodup_cons, List.mem_append, not_or, List.nodup_append] at hnd
      obtain ⟨-, hndl, hndr, hlr⟩ := hnd
      have top : ∀ {w : ℕ}, Edge m c.id y → w ∈ ids l ∨ w ∈ ids r → ¬ Edge m w y := by
        rintro w hcy (hw | hw) hwy
        · have hy := h.2.1.edge_mem_tail hw hwy
          rcases hcy.2 with he | he
          · exact label_id_notMem_tail hndl (he.symm.trans h.1.left ▸ hy)
          · exact hlr y (List.mem_of_mem_tail hy) y
              (he.symm.trans h.1.right ▸ label_id_mem_ids r) rfl
        · have hy := h.2.2.edge_mem_tail hw hwy
          rcases hcy.2 with he | he
          · exact hlr y (he.symm.trans h.1.left ▸ label_id_mem_ids l) y
              (List.mem_of_mem_tail hy) rfl
          · exact label_id_notMem_tail hndr (he.symm.trans h.1.right ▸ hy)
      simp only [ids_node, List.mem_cons, List.mem_append] at hx hz
      rcases hx with rfl | hx
      · rcases hz with rfl | hz
        · rfl
        · exact absurd hzy (top hxy hz)
      · rcases hz with rfl | hz
        · exact absurd hxy (top hzy hx)
        · rcases hx with hx | hx <;> rcases hz with hz | hz
          · exact ihl h.2.1 hndl hx hz
          · exact absurd rfl (hlr y (h.2.1.edge_mem hx hxy) y (h.2.2.edge_mem hz hzy))
          · exact absurd rfl (hlr y (h.2.1.edge_mem hz hzy) y (h.2.2.edge_mem hx hxy))
          · exact ihr h.2.2 hndr hx hz

omit [LinearOrder K] in
/-- Below a node of a represented tree there are only nodes of the tree. -/
theorem Mem.Rep.reach_mem {t : LTree (Cell K V)} (h : m.Rep t) {x y : ℕ} (hx : x ∈ ids t)
    (hxy : Relation.ReflTransGen (Edge m) x y) : y ∈ ids t := by
  induction hxy with
  | refl => exact hx
  | tail _ hbc ih => exact h.edge_mem ih hbc

omit [LinearOrder K] in
/-- A node of a represented tree is not below its children. -/
theorem Mem.Rep.not_reach_of_edge {t : LTree (Cell K V)} (h : m.Rep t) (hnd : (ids t).Nodup)
    {x y : ℕ} (hx : x ∈ ids t) (hxy : Edge m x y) :
    ¬ Relation.ReflTransGen (Edge m) y x := by
  induction t with
  | leaf c =>
      have := h.edge_mem_tail hx hxy
      simp at this
  | node c l r ihl ihr =>
      simp only [ids_node, List.nodup_cons, List.mem_append, not_or, List.nodup_append] at hnd
      obtain ⟨⟨hcl, hcr⟩, hndl, hndr, -⟩ := hnd
      simp only [ids_node, List.mem_cons, List.mem_append] at hx
      rcases hx with rfl | hx | hx
      · rcases hxy.2 with he | he
        · exact fun hyx => hcl (h.2.1.reach_mem
            (he.symm.trans h.1.left ▸ label_id_mem_ids l) hyx)
        · exact fun hyx => hcr (h.2.2.reach_mem
            (he.symm.trans h.1.right ▸ label_id_mem_ids r) hyx)
      · exact ihl h.2.1 hndl hx
      · exact ihr h.2.2 hndr hx

omit [LinearOrder K] in
theorem Mem.Rep.left_ne_right {t : LTree (Cell K V)} (h : m.Rep t) (hnd : (ids t).Nodup) {x : ℕ}
    (hx : x ∈ ids t) (hl : (m.node x).left ≠ 0) : (m.node x).left ≠ (m.node x).right := by
  induction t with
  | leaf c =>
      obtain rfl : x = c.id := by simpa using hx
      exact absurd h.left hl
  | node c l r ihl ihr =>
      simp only [ids_node, List.nodup_cons, List.nodup_append] at hnd
      obtain ⟨-, hndl, hndr, hlr⟩ := hnd
      simp only [ids_node, List.mem_cons, List.mem_append] at hx
      rcases hx with rfl | hx | hx
      · rw [h.1.left, h.1.right]
        exact hlr _ (label_id_mem_ids l) _ (label_id_mem_ids r)
      · exact ihl h.2.1 hndl hx
      · exact ihr h.2.2 hndr hx

omit [LinearOrder K] in
theorem Live.edge {x y : ℕ} (hx : Live m x) (hxy : Edge m x y) : Live m y := .tail hx hxy

omit [LinearOrder K] in
theorem Live.reach {x y : ℕ} (hx : Live m x) (hxy : Relation.ReflTransGen (Edge m) x y) :
    Live m y := .trans hx hxy

namespace TreeInv

variable {t : LTree (Cell K V)}

/-- The addresses on the path of `k`, the root first. -/
def path (cfg : Cfg K V) (k : K) (t : LTree (Cell K V)) : List ℕ := root :: pathIds cfg k t

theorem live_iff (h : TreeInv cfg m t) {x : ℕ} : Live m x ↔ x = root ∨ x ∈ ids t := by
  constructor
  · intro hx
    induction hx with
    | refl => exact .inl rfl
    | @tail b c _ hbc ih =>
        rcases ih with rfl | ih
        · rcases hbc.2 with he | he
          · exact .inr (he ▸ h.root_left ▸ label_id_mem_ids t)
          · exact absurd (he.symm.trans h.root_right) hbc.1
        · exact .inr (h.rep.edge_mem ih hbc)
  · rintro (rfl | hx)
    · exact .refl
    · exact .head ⟨label_id_ne_zero h.zero_notMem, .inl h.root_left⟩
        (h.rep.reach_of_mem h.zero_notMem hx)

theorem live_lt (h : TreeInv cfg m t) {x : ℕ} (hx : Live m x) : x < m.next := by
  rcases h.live_iff.mp hx with rfl | hx
  · exact h.root_lt
  · exact h.lt_next x hx

theorem live_ne_zero (h : TreeInv cfg m t) {x : ℕ} (hx : Live m x) : x ≠ 0 := by
  rintro rfl
  rcases h.live_iff.mp hx with h0 | h0
  · exact absurd h0 (by decide)
  · exact h.zero_notMem h0

theorem kedge_root (h : TreeInv cfg m t) {k : K} {y : ℕ} :
    KEdge cfg m k root y ↔ y = t.label.id := by
  have hlt : (k : WithTop K) < ord cfg (m.node root).key := by
    rw [h.root_key, ord_noKey]; exact WithTop.coe_lt_top k
  have h0 := label_id_ne_zero h.zero_notMem
  unfold KEdge
  rw [child_eq_left hlt, h.root_left]
  exact ⟨fun hy => hy.2.1.symm, fun hy => ⟨h0, hy.symm, hy ▸ h0⟩⟩

theorem onPath_iff (h : TreeInv cfg m t) {k : K} {x : ℕ} :
    OnPath cfg m k x ↔ x ∈ path cfg k t := by
  unfold OnPath
  rw [route_cases]
  simp only [h.kedge_root, exists_eq_left, route_top_iff h.rep h.zero_notMem, path, List.mem_cons]
  rw [eq_comm]

/-- The nodes below a node on the path are the rest of the path. -/
theorem route_iff (h : TreeInv cfg m t) {k : K} {xs ys : List ℕ} {x y : ℕ}
    (hp : path cfg k t = xs ++ x :: ys) : Route cfg m k x y ↔ y ∈ x :: ys := by
  cases xs with
  | nil =>
      obtain ⟨rfl, rfl⟩ : root = x ∧ pathIds cfg k t = ys := by simpa [path] using hp
      exact h.onPath_iff
  | cons a xs => exact route_of_path_eq h.rep h.zero_notMem (List.cons.inj hp).2

theorem path_nodup (h : TreeInv cfg m t) (k : K) : (path cfg k t).Nodup :=
  List.nodup_cons.mpr ⟨fun hr => h.root_notMem (pathIds_subset cfg k t hr),
    h.nodup.sublist (pathIds_sublist cfg k t)⟩

theorem path_prefix_unique (h : TreeInv cfg m t) {k j : K} {x : ℕ} {xs ys xs' ys' : List ℕ}
    (hk : path cfg k t = xs ++ x :: ys) (hj : path cfg j t = xs' ++ x :: ys') : xs = xs' := by
  have hroot : ∀ {q : K} {zs : List ℕ}, path cfg q t ≠ root :: zs ++ root :: ys ∧
      path cfg q t ≠ root :: zs ++ root :: ys' := fun {q zs} => by
    have hnd := h.path_nodup q
    constructor <;> intro he <;> rw [he] at hnd <;> simp at hnd
  cases xs with
  | nil =>
      cases xs' with
      | nil => rfl
      | cons a xs' =>
          obtain rfl : root = x := (List.cons.inj hk).1
          obtain rfl : root = a := (List.cons.inj hj).1
          exact absurd hj hroot.2
  | cons a xs =>
      cases xs' with
      | nil =>
          obtain rfl : root = x := (List.cons.inj hj).1
          obtain rfl : root = a := (List.cons.inj hk).1
          exact absurd hk hroot.1
      | cons b xs' =>
          rw [← (List.cons.inj hk).1, ← (List.cons.inj hj).1,
            prefix_unique h.nodup (List.cons.inj hk).2 (List.cons.inj hj).2]

/-- **The paths of two keys through a node agree above it.** -/
theorem coherent (h : TreeInv cfg m t) {k j : K} {x z : ℕ} (hk : OnPath cfg m k z)
    (hzx : Route cfg m k z x) (hj : OnPath cfg m j x) :
    OnPath cfg m j z ∧ Route cfg m j z x := by
  obtain ⟨xs, ys, hxs⟩ := List.append_of_mem (h.onPath_iff.mp hk)
  rcases List.mem_cons.mp ((h.route_iff hxs).mp hzx) with rfl | hx
  · exact ⟨hj, .refl⟩
  · obtain ⟨as, bs, rfl⟩ := List.append_of_mem hx
    obtain ⟨cs, ds, hcs⟩ := List.append_of_mem (h.onPath_iff.mp hj)
    have hk' : path cfg k t = (xs ++ z :: as) ++ x :: bs := by rw [hxs]; simp
    have hpre : xs ++ z :: as = cs := h.path_prefix_unique hk' hcs
    have hj' : path cfg j t = xs ++ z :: (as ++ x :: ds) := by rw [hcs, ← hpre]; simp
    exact ⟨h.onPath_iff.mpr (by rw [hj']; simp), (h.route_iff hj').mpr (by simp)⟩

/-- The root is no child. -/
theorem edge_ne_root (h : TreeInv cfg m t) {x y : ℕ} (hx : Live m x) (hxy : Edge m x y) :
    y ≠ root := by
  rintro rfl
  rcases h.live_iff.mp hx with rfl | hmem
  · rcases hxy.2 with he | he
    · exact h.root_notMem ((he.symm.trans h.root_left) ▸ label_id_mem_ids t)
    · exact absurd (he.symm.trans h.root_right) (by decide)
  · exact h.root_notMem (h.rep.edge_mem hmem hxy)

/-- A live node has one live parent. -/
theorem parent_unique (h : TreeInv cfg m t) {x y z : ℕ} (hx : Live m x) (hz : Live m z)
    (hxy : Edge m x y) (hzy : Edge m z y) : x = z := by
  have top : ∀ {w : ℕ}, Edge m root y → w ∈ ids t → ¬ Edge m w y := fun hry hw hwy => by
    have hy : y = t.label.id := by
      rcases hry.2 with he | he
      · exact he.symm.trans h.root_left
      · exact absurd (he.symm.trans h.root_right) hry.1
    exact label_id_notMem_tail h.nodup (hy ▸ h.rep.edge_mem_tail hw hwy)
  rcases h.live_iff.mp hx with rfl | hx
  · rcases h.live_iff.mp hz with rfl | hz
    · rfl
    · exact absurd hzy (top hxy hz)
  · rcases h.live_iff.mp hz with rfl | hz
    · exact absurd hxy (top hzy hx)
    · exact h.rep.parent_unique h.nodup hx hz hxy hzy

/-- The children of a live node are different. -/
theorem left_ne_right (h : TreeInv cfg m t) {x : ℕ} (hx : Live m x) (hl : (m.node x).left ≠ 0) :
    (m.node x).left ≠ (m.node x).right := by
  rcases h.live_iff.mp hx with rfl | hx
  · rw [h.root_right]
    exact hl
  · exact h.rep.left_ne_right h.nodup hx hl

/-- A live node is not below its children. -/
theorem not_reach_of_edge (h : TreeInv cfg m t) {x y : ℕ} (hx : Live m x) (hxy : Edge m x y) :
    ¬ Relation.ReflTransGen (Edge m) y x := by
  intro hyx
  rcases h.live_iff.mp hx with rfl | hx'
  · rcases Relation.ReflTransGen.cases_tail hyx with he | ⟨z, hyz, hzr⟩
    · exact h.edge_ne_root hx hxy he.symm
    · exact h.edge_ne_root ((hx.edge hxy).reach hyz) hzr rfl
  · exact h.rep.not_reach_of_edge h.nodup hx' hxy hyx

/-- The parent of a node on a path is on the path. -/
theorem onPath_of_edge (h : TreeInv cfg m t) {k : K} {x y : ℕ} (hx : Live m x) (hxy : Edge m x y)
    (hy : OnPath cfg m k y) : OnPath cfg m k x ∧ KEdge cfg m k x y := by
  rcases Relation.ReflTransGen.cases_tail hy with he | ⟨z, hz, hzy⟩
  · exact absurd he (h.edge_ne_root hx hxy)
  · obtain rfl : x = z := h.parent_unique hx (OnPath.live hz) hxy hzy.edge
    exact ⟨hz, hzy⟩

/-- A leaf with a real key is on the path of its key. -/
theorem leaf_onPath (h : TreeInv cfg m t) {x : ℕ} (hx : Live m x) (hl : (m.node x).left = 0)
    (hk : (m.node x).key ≠ cfg.noKey) : OnPath cfg m (m.node x).key x := by
  have hr : x ≠ root := by rintro rfl; exact hk h.root_key
  obtain ⟨c, hc, rfl, hkey⟩ :=
    h.rep.leaf_of_mem h.zero_notMem ((h.live_iff.mp hx).resolve_left hr) hl
  have hck : ckey cfg c = ((m.node c.id).key : WithTop K) := by
    rw [ckey, ← hkey, ord_of_ne hk]
  rw [h.onPath_iff]
  refine List.mem_cons_of_mem _ (List.mem_map.mpr ⟨c, ?_, rfl⟩)
  have := h.ordered.mem_path hc
  rwa [hck] at this

theorem route_of_leaf {k : K} {x y : ℕ} (hx : (m.node x).left = 0)
    (hxy : Route cfg m k x y) : x = y := by
  rcases route_cases.mp hxy with he | ⟨w, hw, -⟩
  · exact he
  · exact absurd hx hw.1

/-- A path has one leaf. -/
theorem leaf_unique {k : K} {x y : ℕ} (hx : OnPath cfg m k x) (hxl : (m.node x).left = 0)
    (hy : OnPath cfg m k y) (hyl : (m.node y).left = 0) : x = y := by
  rcases Route.linear hx hy with hxy | hyx
  · exact route_of_leaf hxl hxy
  · exact (route_of_leaf hyl hyx).symm

/-- The leaf on the path of a key decides whether the key is in the tree. -/
theorem inTree_iff_leaf (h : TreeInv cfg m t) {k : K} (hk : k ≠ cfg.noKey) {x : ℕ}
    (hx : OnPath cfg m k x) (hl : (m.node x).left = 0) : InTree m k ↔ (m.node x).key = k := by
  refine ⟨?_, fun he => ⟨x, hx.live, hl, he⟩⟩
  rintro ⟨y, hy, hyl, rfl⟩
  rw [leaf_unique hx hl (h.leaf_onPath hy hyl hk) hyl]

/-- A key is in the node tree exactly when the search for it ends in a leaf that has it. -/
theorem inTree_iff (h : TreeInv cfg m t) {k : K} (hk : k ≠ cfg.noKey) :
    InTree m k ↔ ∃ c ∈ t.leaves, c.key = k := by
  constructor
  · rintro ⟨x, hx, hl, hkey⟩
    rcases h.live_iff.mp hx with rfl | hx
    · exact absurd (hkey.symm.trans h.root_key) hk
    · obtain ⟨c, hc, hid⟩ := h.rep.leaf_of_mem h.zero_notMem hx hl
      exact ⟨c, hc, by rw [← hkey, ← hid.1, hid.2]⟩
  · rintro ⟨c, hc, rfl⟩
    have hi := h.rep.is_leaf hc
    exact ⟨c.id, h.live_iff.mpr (.inr (List.mem_map_of_mem (LTree.leaves_subset_labels t hc))),
      hi.left, hi.key⟩

end TreeInv

end Tree

end Cbat
