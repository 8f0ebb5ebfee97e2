/-
**Trees in the heap.**

The live part of the memory is a tree.  This module relates the heap to trees whose labels carry
the address and the immutable fields of a node: when a memory represents a tree, what a patch of
existing nodes has to do with it, and what publishing a new subtree and swinging one child pointer
do to the represented tree.

Main definitions:

* `Cbat.Cell` — the address and the immutable fields of a node;
* `Cbat.Mem.Rep` — **the memory represents a tree**;
* `Cbat.Mem.Holds` — a patch of nodes is in memory;
* `Cbat.inst` — the cells of a new subtree, once its slots have addresses.

Main results:

* `Cbat.Mem.Rep.unique`, `Cbat.Mem.Rep.plug` — the tree is determined by its top, and a patch held
  at its top is the top of the tree;
* `Cbat.Mem.written_publish` — publishing writes the new subtree;
* `Cbat.Mem.Rep.repl` — **a swung pointer replaces a subtree**.
-/

import Cbat.Machine

set_option relaxedAutoImplicit false
set_option autoImplicit false

namespace Cbat

variable {K V : Type}

/-- The address of a node and its fields that never change. -/
structure Cell (K V : Type) where
  /-- the address -/
  id : ℕ
  /-- the key -/
  key : K
  /-- the value -/
  value : V
  /-- the weight -/
  weight : ℤ

/-- The addresses of a tree, the top first. -/
def ids (t : LTree (Cell K V)) : List ℕ := t.labels.map Cell.id

@[simp] theorem ids_leaf (c : Cell K V) : ids (.leaf c) = [c.id] := rfl
@[simp] theorem ids_node (c : Cell K V) (l r : LTree (Cell K V)) :
    ids (.node c l r) = c.id :: (ids l ++ ids r) := by
  simp [ids]

theorem label_id_mem_ids (t : LTree (Cell K V)) : t.label.id ∈ ids t :=
  List.mem_map_of_mem (LTree.label_mem_labels t)

theorem label_id_notMem_tail {t : LTree (Cell K V)} (h : (ids t).Nodup) :
    t.label.id ∉ (ids t).tail := by
  cases t with
  | leaf c => simp
  | node c l r => exact (List.nodup_cons.mp (ids_node c l r ▸ h)).1

namespace Mem

variable {m m' : Mem K V}

/-- The node of the cell `c` has its fields and the children `l` and `r`. -/
structure Is (m : Mem K V) (c : Cell K V) (l r : ℕ) : Prop where
  key : (m.node c.id).key = c.key
  value : (m.node c.id).value = c.value
  weight : (m.node c.id).weight = c.weight
  left : (m.node c.id).left = l
  right : (m.node c.id).right = r

/-- **The memory represents a tree.** -/
def Rep (m : Mem K V) : LTree (Cell K V) → Prop
  | .leaf c => m.Is c 0 0
  | .node c l r => m.Is c l.label.id r.label.id ∧ m.Rep l ∧ m.Rep r

/-- The same fields, mark, freeze flag and version apart. -/
structure Same (m m' : Mem K V) (x : ℕ) : Prop where
  key : (m'.node x).key = (m.node x).key
  value : (m'.node x).value = (m.node x).value
  weight : (m'.node x).weight = (m.node x).weight
  left : (m'.node x).left = (m.node x).left
  right : (m'.node x).right = (m.node x).right

theorem Same.rfl' {x : ℕ} (h : m'.node x = m.node x) : m.Same m' x := by
  constructor <;> rw [h]

theorem Same.trans {m'' : Mem K V} {x : ℕ} (h : m.Same m' x) (h' : m'.Same m'' x) : m.Same m'' x :=
  ⟨h'.key.trans h.key, h'.value.trans h.value, h'.weight.trans h.weight, h'.left.trans h.left,
    h'.right.trans h.right⟩

theorem Is.of_same {c : Cell K V} {l r : ℕ} (h : m.Is c l r) (hs : m.Same m' c.id) :
    m'.Is c l r :=
  ⟨hs.key.trans h.key, hs.value.trans h.value, hs.weight.trans h.weight, hs.left.trans h.left,
    hs.right.trans h.right⟩

theorem Rep.of_same {t : LTree (Cell K V)} (h : m.Rep t) (hs : ∀ x ∈ ids t, m.Same m' x) :
    m'.Rep t := by
  induction t with
  | leaf c => exact Is.of_same h (hs _ (by simp))
  | node c l r ihl ihr =>
      simp only [ids_node, List.mem_cons, List.mem_append] at hs
      exact ⟨Is.of_same h.1 (hs _ (.inl rfl)), ihl h.2.1 fun x hx => hs x (.inr (.inl hx)),
        ihr h.2.2 fun x hx => hs x (.inr (.inr hx))⟩

theorem Is.cell_eq {c c' : Cell K V} {l r l' r' : ℕ} (h : m.Is c l r) (h' : m.Is c' l' r')
    (he : c.id = c'.id) : c = c' := by
  cases c; cases c'
  simp only at he
  subst he
  simp only [Cell.mk.injEq, true_and]
  exact ⟨h.key.symm.trans h'.key, h.value.symm.trans h'.value, h.weight.symm.trans h'.weight⟩

/-- A memory represents one tree at most with a given top. -/
theorem Rep.unique {t t' : LTree (Cell K V)} (h : m.Rep t) (h' : m.Rep t')
    (h0 : 0 ∉ ids t) (h0' : 0 ∉ ids t') (he : t.label.id = t'.label.id) : t = t' := by
  induction t generalizing t' with
  | leaf c =>
      cases t' with
      | leaf c' => rw [Is.cell_eq h h' he]
      | node c' l' r' =>
          -- a leaf has no left child, an internal node has one
          have hid : c.id = c'.id := he
          simp only [ids_node, List.mem_cons, List.mem_append, not_or] at h0'
          have hl : l'.label.id = 0 := by rw [← h'.1.left, ← hid, h.left]
          exact absurd (hl ▸ label_id_mem_ids l') h0'.2.1
  | node c l r ihl ihr =>
      cases t' with
      | leaf c' =>
          have hid : c.id = c'.id := he
          simp only [ids_node, List.mem_cons, List.mem_append, not_or] at h0
          have hl : l.label.id = 0 := by rw [← h.1.left, hid, h'.left]
          exact absurd (hl ▸ label_id_mem_ids l) h0.2.1
      | node c' l' r' =>
          have hid : c.id = c'.id := he
          simp only [ids_node, List.mem_cons, List.mem_append, not_or] at h0 h0'
          have hl : l.label.id = l'.label.id := by rw [← h.1.left, ← h'.1.left, hid]
          have hr : r.label.id = r'.label.id := by rw [← h.1.right, ← h'.1.right, hid]
          rw [Is.cell_eq h.1 h'.1 hid, ihl h.2.1 h'.2.1 h0.2.1 h0'.2.1 hl,
            ihr h.2.2 h'.2.2 h0.2.2 h0'.2.2 hr]

/-! ### Patches in memory -/

end Mem

/-- The address of the top of a patch. -/
def top : Patch (Cell K V) ℕ → ℕ
  | .sub p => p
  | .leaf c => c.id
  | .node c _ _ => c.id

/-- The addresses of the nodes of a patch. -/
def pids (p : Patch (Cell K V) ℕ) : List ℕ := p.labels.map Cell.id

@[simp] theorem pids_sub (i : ℕ) : pids (.sub i : Patch (Cell K V) ℕ) = [] := rfl
@[simp] theorem pids_leaf (c : Cell K V) : pids (.leaf c) = [c.id] := rfl
@[simp] theorem pids_node (c : Cell K V) (l r : Patch (Cell K V) ℕ) :
    pids (.node c l r) = c.id :: (pids l ++ pids r) := by
  simp [pids, Patch.labels]

namespace Mem

variable {m m' : Mem K V}

/-- A patch of nodes is in memory. -/
def Holds (m : Mem K V) : Patch (Cell K V) ℕ → Prop
  | .sub p => p ≠ 0
  | .leaf c => c.id ≠ 0 ∧ m.Is c 0 0
  | .node c l r => c.id ≠ 0 ∧ m.Is c (top l) (top r) ∧ m.Holds l ∧ m.Holds r

theorem Holds.top_ne_zero {p : Patch (Cell K V) ℕ} (h : m.Holds p) : top p ≠ 0 := by
  cases p with
  | sub i => exact h
  | leaf c => exact h.1
  | node c l r => exact h.1

theorem Holds.of_same {p : Patch (Cell K V) ℕ} (h : m.Holds p) (hs : ∀ x ∈ pids p, m.Same m' x) :
    m'.Holds p := by
  induction p with
  | sub i => exact h
  | leaf c => exact ⟨h.1, h.2.of_same (hs _ (by simp))⟩
  | node c l r ihl ihr =>
      simp only [pids_node, List.mem_cons, List.mem_append] at hs
      exact ⟨h.1, h.2.1.of_same (hs _ (.inl rfl)), ihl h.2.2.1 fun x hx => hs x (.inr (.inl hx)),
        ihr h.2.2.2 fun x hx => hs x (.inr (.inr hx))⟩

/-- `F` gives the trees below the exits of the patch. -/
def Fills (m : Mem K V) (F : ℕ → LTree (Cell K V)) (p : Patch (Cell K V) ℕ) : Prop :=
  ∀ i ∈ p.subs, m.Rep (F i) ∧ (F i).label.id = i

theorem top_plug {F : ℕ → LTree (Cell K V)} {p : Patch (Cell K V) ℕ} (hF : m.Fills F p) :
    (p.plug F).label.id = top p := by
  cases p with
  | sub i => exact (hF i (by simp [Patch.subs])).2
  | leaf c => rfl
  | node c l r => rfl

theorem Holds.rep_plug {F : ℕ → LTree (Cell K V)} {p : Patch (Cell K V) ℕ} (h : m.Holds p)
    (hF : m.Fills F p) : m.Rep (p.plug F) := by
  induction p with
  | sub i => exact (hF i (by simp [Patch.subs])).1
  | leaf c => exact h.2
  | node c l r ihl ihr =>
      have hFl : m.Fills F l := fun i hi => hF i (List.mem_append_left _ hi)
      have hFr : m.Fills F r := fun i hi => hF i (List.mem_append_right _ hi)
      refine ⟨?_, ihl h.2.2.1 hFl, ihr h.2.2.2 hFr⟩
      rw [top_plug hFl, top_plug hFr]
      exact h.2.1

/-- **A patch held at the top of a represented tree is the top of that tree.** -/
theorem Rep.plug {t : LTree (Cell K V)} {p : Patch (Cell K V) ℕ} (h : m.Rep t) (h0 : 0 ∉ ids t)
    (hp : m.Holds p) (he : t.label.id = top p) : ∃ F, t = p.plug F ∧ m.Fills F p ∧
      ∀ i ∈ p.subs, ids (F i) ⊆ ids t := by
  induction p generalizing t with
  | sub i =>
      refine ⟨fun _ => t, rfl, fun j hj => ?_, fun j _ => List.Subset.refl _⟩
      obtain rfl : j = i := by simpa [Patch.subs] using hj
      exact ⟨h, he⟩
  | leaf c =>
      cases t with
      | leaf c' =>
          refine ⟨fun _ => .leaf c', ?_, fun j hj => by simp [Patch.subs] at hj,
            fun j hj => by simp [Patch.subs] at hj⟩
          rw [Is.cell_eq h hp.2 he]; rfl
      | node c' l' r' =>
          have hid : c'.id = c.id := he
          simp only [ids_node, List.mem_cons, List.mem_append, not_or] at h0
          have hl : l'.label.id = 0 := by rw [← h.1.left, hid, hp.2.left]
          exact absurd (hl ▸ label_id_mem_ids l') h0.2.1
  | node c l r ihl ihr =>
      cases t with
      | leaf c' =>
          have hid : c'.id = c.id := he
          exact absurd (by rw [← hp.2.1.left, ← hid, h.left]) hp.2.2.1.top_ne_zero
      | node c' tl tr =>
          have hid : c'.id = c.id := he
          simp only [ids_node, List.mem_cons, List.mem_append, not_or] at h0
          obtain ⟨Fl, hl, hFl, hsl⟩ := ihl h.2.1 h0.2.1 hp.2.2.1
            (by rw [← h.1.left, hid, hp.2.1.left])
          obtain ⟨Fr, hr, hFr, hsr⟩ := ihr h.2.2 h0.2.2 hp.2.2.2
            (by rw [← h.1.right, hid, hp.2.1.right])
          -- an exit that occurs on both sides has the same tree on both
          have hagree : ∀ i ∈ l.subs, i ∈ r.subs → Fl i = Fr i := fun i hil hir =>
            Rep.unique (hFl i hil).1 (hFr i hir).1 (fun hz => h0.2.1 (hsl i hil hz))
              (fun hz => h0.2.2 (hsr i hir hz)) ((hFl i hil).2.trans (hFr i hir).2.symm)
          classical
          refine ⟨fun i => if i ∈ l.subs then Fl i else Fr i, ?_, ?_, ?_⟩
          · have el : l.plug (fun i => if i ∈ l.subs then Fl i else Fr i) = tl := by
              rw [hl]; exact Patch.plug_congr fun i hi => if_pos hi
            have er : r.plug (fun i => if i ∈ l.subs then Fl i else Fr i) = tr := by
              rw [hr]
              refine Patch.plug_congr fun i hi => ?_
              split_ifs with hil
              · exact hagree i hil hi
              · rfl
            rw [Patch.plug, el, er, Is.cell_eq h.1 hp.2.1 hid]
          · intro i hi
            simp only
            split_ifs with hil
            · exact hFl i hil
            · exact hFr i ((List.mem_append.mp hi).resolve_left hil)
          · intro i hi
            simp only [ids_node]
            split_ifs with hil
            · exact fun x hx => List.mem_cons_of_mem _ (List.mem_append_left _ (hsl i hil hx))
            · exact fun x hx => List.mem_cons_of_mem _ (List.mem_append_right _
                (hsr i ((List.mem_append.mp hi).resolve_left hil) hx))

end Mem

/-! ### Publishing a new subtree -/

/-- The cells of a new subtree whose slots start at the address `base`. -/
def inst (base : ℕ) (new : NewTree K V) : Patch (Cell K V) ℕ :=
  new.map fun a => ⟨base + a.slot, a.key, a.value, a.weight⟩

/-- The slots of a new subtree. -/
def slots (new : NewTree K V) : List ℕ := new.labels.map NewNode.slot

@[simp] theorem slots_sub (i : ℕ) : slots (.sub i : NewTree K V) = [] := rfl
@[simp] theorem slots_leaf (a : NewNode K V) : slots (.leaf a : NewTree K V) = [a.slot] := rfl
@[simp] theorem slots_node (a : NewNode K V) (l r : NewTree K V) :
    slots (.node a l r) = a.slot :: (slots l ++ slots r) := by
  simp [slots, Patch.labels]

@[simp] theorem top_inst (base : ℕ) (new : NewTree K V) :
    top (inst base new) = newPtr base new := by
  cases new <;> rfl

@[simp] theorem subs_inst (base : ℕ) (new : NewTree K V) : (inst base new).subs = new.subs :=
  Patch.subs_map ..

theorem pids_inst (base : ℕ) (new : NewTree K V) :
    pids (inst base new) = (slots new).map (base + ·) := by
  simp [pids, inst, Patch.labels_map, slots, Function.comp_def]

/-- The address of a part of a new subtree: a subtree that stays, or a new node. -/
theorem newPtr_cases {b : ℕ} {new p : NewTree K V} (hp : Patch.Part p new) :
    newPtr b p ∈ new.subs ∨ ∃ j ∈ slots new, newPtr b p = b + j := by
  cases p with
  | sub i => exact .inl (hp.subs (by simp [Patch.subs, newPtr]))
  | leaf a => exact .inr ⟨a.slot, List.mem_map_of_mem (hp.labels (by simp [Patch.labels])), rfl⟩
  | node a l r =>
      exact .inr ⟨a.slot, List.mem_map_of_mem (hp.labels (by simp [Patch.labels])), rfl⟩

theorem mem_pids_inst {base : ℕ} {new : NewTree K V} {x : ℕ} :
    x ∈ pids (inst base new) ↔ ∃ j ∈ slots new, base + j = x := by
  rw [pids_inst, List.mem_map]

namespace Mem

variable {m m' : Mem K V}

@[simp] theorem publish_next (m : Mem K V) (new : NewTree K V) : (m.publish new).next = m.next := by
  induction new generalizing m with
  | sub i => rfl
  | leaf a => rfl
  | node a l r ihl ihr => simp [publish, ihl, ihr]

@[simp] theorem publish_nextVer (m : Mem K V) (new : NewTree K V) :
    (m.publish new).nextVer = m.nextVer := by
  induction new generalizing m with
  | sub i => rfl
  | leaf a => rfl
  | node a l r ihl ihr => simp [publish, ihl, ihr]

@[simp] theorem publish_status (m : Mem K V) (new : NewTree K V) :
    (m.publish new).status = m.status := by
  induction new generalizing m with
  | sub i => rfl
  | leaf a => rfl
  | node a l r ihl ihr => simp [publish, ihl, ihr]

@[simp] theorem publish_nextStatus (m : Mem K V) (new : NewTree K V) :
    (m.publish new).nextStatus = m.nextStatus := by
  induction new generalizing m with
  | sub i => rfl
  | leaf a => rfl
  | node a l r ihl ihr => simp [publish, ihl, ihr]

/-- Publishing writes the new nodes only. -/
theorem publish_of_notMem (m : Mem K V) (new : NewTree K V) {x : ℕ}
    (hx : ∀ j ∈ slots new, m.next + j ≠ x) : (m.publish new).node x = m.node x := by
  induction new generalizing m with
  | sub i => rfl
  | leaf a => exact setNode_of_ne _ _ (hx _ (by simp)).symm
  | node a l r ihl ihr =>
      simp only [slots_node, List.mem_cons, List.mem_append] at hx
      rw [publish, setNode_of_ne _ _ (hx _ (.inl rfl)).symm,
        ihr _ fun j hj => by simpa using hx j (.inr (.inr hj)),
        ihl _ fun j hj => hx j (.inr (.inl hj))]

theorem publish_of_lt (m : Mem K V) (new : NewTree K V) {x : ℕ} (hx : x < m.next) :
    (m.publish new).node x = m.node x :=
  publish_of_notMem m new fun j _ => by omega

/-- The nodes of a new subtree are in memory as they were initialized; `b` and `v` are the first
addresses of its nodes and versions. -/
def Written (m : Mem K V) (b v : ℕ) : NewTree K V → Prop
  | .sub _ => True
  | .leaf a => m.node (b + a.slot) = ⟨a.key, a.value, a.weight, 0, 0, false, false,
      newVersion v (.leaf a)⟩
  | .node a l r => m.node (b + a.slot) = ⟨a.key, a.value, a.weight, newPtr b l, newPtr b r,
      false, false, newVersion v (.node a l r)⟩ ∧ m.Written b v l ∧ m.Written b v r

theorem Written.congr {b v : ℕ} {new : NewTree K V} (h : m.Written b v new)
    (hs : ∀ j ∈ slots new, m'.node (b + j) = m.node (b + j)) : m'.Written b v new := by
  induction new with
  | sub i => trivial
  | leaf a => exact (hs _ (by simp)).trans h
  | node a l r ihl ihr =>
      simp only [slots_node, List.mem_cons, List.mem_append] at hs
      exact ⟨(hs _ (.inl rfl)).trans h.1, ihl h.2.1 fun j hj => hs j (.inr (.inl hj)),
        ihr h.2.2 fun j hj => hs j (.inr (.inr hj))⟩

/-- **Publishing writes the new subtree.** -/
theorem written_publish (m : Mem K V) {new : NewTree K V} (hnd : (slots new).Nodup) :
    (m.publish new).Written m.next m.nextVer new := by
  induction new generalizing m with
  | sub i => trivial
  | leaf a => exact setNode_self ..
  | node a l r ihl ihr =>
      simp only [slots_node, List.nodup_cons, List.mem_append, not_or, List.nodup_append] at hnd
      obtain ⟨⟨hal, har⟩, hl, hr, hlr⟩ := hnd
      refine ⟨by simp [publish], (ihl m hl).congr fun j hj => ?_, ?_⟩
      · have hja : j ≠ a.slot := fun h => hal (h ▸ hj)
        rw [publish, setNode_of_ne _ _ (by omega), publish_of_notMem]
        intro j' hj'
        have := hlr j hj j' hj'
        simp only [publish_next]
        omega
      · have h := ihr (m.publish l) hr
        simp only [publish_next, publish_nextVer] at h
        refine h.congr fun j hj => ?_
        have hja : j ≠ a.slot := fun h => har (h ▸ hj)
        rw [publish, setNode_of_ne _ _ (by omega)]

theorem Written.holds {b v : ℕ} {new : NewTree K V} (h : m.Written b v new)
    (h0 : ∀ i ∈ new.subs, i ≠ 0) (hb : 0 < b) : m.Holds (inst b new) := by
  induction new with
  | sub i => exact h0 i (by simp [Patch.subs])
  | leaf a =>
      have h : m.node (b + a.slot) = _ := h
      exact ⟨Nat.ne_of_gt (Nat.add_pos_left hb _), by constructor <;> simp [h]⟩
  | node a l r ihl ihr =>
      refine ⟨Nat.ne_of_gt (Nat.add_pos_left hb _), ?_,
        ihl h.2.1 fun i hi => h0 i (List.mem_append_left _ hi),
        ihr h.2.2 fun i hi => h0 i (List.mem_append_right _ hi)⟩
      exact ⟨congrArg Node.key h.1, congrArg Node.value h.1, congrArg Node.weight h.1,
        (congrArg Node.left h.1).trans (top_inst b l).symm,
        (congrArg Node.right h.1).trans (top_inst b r).symm⟩

theorem Written.part {b v : ℕ} {new p : NewTree K V} (h : m.Written b v new)
    (hp : Patch.Part p new) : m.Written b v p := by
  induction hp with
  | refl => exact h
  | left a r _ ih => exact ih h.2.1
  | right a l _ ih => exact ih h.2.2

/-- **A new node as it was initialized.** -/
theorem Written.cases {b v : ℕ} {new : NewTree K V} (h : m.Written b v new) {j : ℕ}
    (hj : j ∈ slots new) :
    (∃ a, a.slot = j ∧ Patch.Part (.leaf a) new ∧ m.node (b + j) =
      ⟨a.key, a.value, a.weight, 0, 0, false, false, newVersion v (.leaf a)⟩) ∨
    ∃ a l r, a.slot = j ∧ Patch.Part (.node a l r) new ∧ m.node (b + j) =
      ⟨a.key, a.value, a.weight, newPtr b l, newPtr b r, false, false,
        newVersion v (.node a l r)⟩ := by
  obtain ⟨a, ha, rfl⟩ := List.mem_map.mp hj
  rcases Patch.exists_part ha with hp | ⟨l, r, hp⟩
  · exact .inl ⟨a, rfl, hp, h.part hp⟩
  · exact .inr ⟨a, l, r, rfl, hp, (h.part hp).1⟩

/-! ### Swinging a child pointer -/

/-- The child of `x` on one side. -/
def side (m : Mem K V) (x : ℕ) (isLeft : Bool) : ℕ :=
  if isLeft then (m.node x).left else (m.node x).right

/-- The memories agree on `u` up to the child on one side, which is `q` in the second. -/
structure SwungAt (m m' : Mem K V) (u : ℕ) (isLeft : Bool) (q : ℕ) : Prop where
  key : (m'.node u).key = (m.node u).key
  value : (m'.node u).value = (m.node u).value
  weight : (m'.node u).weight = (m.node u).weight
  side : m'.side u isLeft = q
  other : m'.side u (!isLeft) = m.side u (!isLeft)

/-- **A swung pointer replaces a subtree.**  If `m'` is `m` up to the child of `u` on one side,
then the tree below that child in `m` can be replaced by any tree that `m'` has there. -/
theorem Rep.repl {t : LTree (Cell K V)} {u : ℕ} {isLeft : Bool} {q : ℕ} (h : m.Rep t)
    (h0 : 0 ∉ ids t) (hnd : (ids t).Nodup) (hu : u ∈ ids t) (hin : m.side u isLeft ≠ 0)
    (hsame : ∀ x ∈ ids t, x ≠ u → m.Same m' x) (hsw : m.SwungAt m' u isLeft q) :
    ∃ t₀, m.Rep t₀ ∧ t₀.label.id = m.side u isLeft ∧ ids t₀ ⊆ ids t ∧ u ∉ ids t₀ ∧
      ∀ t₁, m'.Rep t₁ → t₁.label.id = q →
        ∃ t', LTree.Repl t₀ t₁ t t' ∧ m'.Rep t' ∧ t'.label = t.label := by
  induction t with
  | leaf c =>
      obtain rfl : u = c.id := by simpa using hu
      have hz : m.side c.id isLeft = 0 := by
        cases isLeft
        · exact h.right
        · exact h.left
      exact absurd hz hin
  | node c l r ihl ihr =>
      simp only [ids_node, List.nodup_cons, List.mem_append, not_or, List.nodup_append] at hnd
      obtain ⟨⟨hcl, hcr⟩, hndl, hndr, hlr⟩ := hnd
      simp only [ids_node, List.mem_cons, List.mem_append, not_or] at h0 hu hsame
      by_cases huc : u = c.id
      · subst huc
        have hl' : m'.Rep l := h.2.1.of_same fun x hx =>
          hsame x (.inr (.inl hx)) (by rintro rfl; exact hcl hx)
        have hr' : m'.Rep r := h.2.2.of_same fun x hx =>
          hsame x (.inr (.inr hx)) (by rintro rfl; exact hcr hx)
        cases isLeft with
        | true =>
            refine ⟨l, h.2.1, h.1.left.symm, fun x hx => by simp [hx], hcl, fun t₁ h₁ hq => ?_⟩
            refine ⟨.node c t₁ r, .left c r .here, ⟨⟨?_, ?_, ?_, ?_, ?_⟩, h₁, hr'⟩, rfl⟩
            · exact hsw.key.trans h.1.key
            · exact hsw.value.trans h.1.value
            · exact hsw.weight.trans h.1.weight
            · exact hsw.side.trans hq.symm
            · exact hsw.other.trans h.1.right
        | false =>
            refine ⟨r, h.2.2, h.1.right.symm, fun x hx => by simp [hx], hcr, fun t₁ h₁ hq => ?_⟩
            refine ⟨.node c l t₁, .right c l .here, ⟨⟨?_, ?_, ?_, ?_, ?_⟩, hl', h₁⟩, rfl⟩
            · exact hsw.key.trans h.1.key
            · exact hsw.value.trans h.1.value
            · exact hsw.weight.trans h.1.weight
            · exact hsw.other.trans h.1.left
            · exact hsw.side.trans hq.symm
      · have hc : m'.Is c l.label.id r.label.id := h.1.of_same (hsame _ (.inl rfl) (Ne.symm huc))
        rcases hu.resolve_left huc with hu | hu
        · have hr' : m'.Rep r := h.2.2.of_same fun x hx =>
            hsame x (.inr (.inr hx)) fun hxu => hlr u hu x hx hxu.symm
          obtain ⟨t₀, h₀, he, hss, hu₀, hrep⟩ := ihl h.2.1 h0.2.1 hndl hu
            fun x hx => hsame x (.inr (.inl hx))
          refine ⟨t₀, h₀, he, fun x hx => by simp [hss hx], hu₀, fun t₁ h₁ hq => ?_⟩
          obtain ⟨l', hrl, hl', hlab⟩ := hrep t₁ h₁ hq
          exact ⟨.node c l' r, .left c r hrl, ⟨hlab ▸ hc, hl', hr'⟩, rfl⟩
        · have hl' : m'.Rep l := h.2.1.of_same fun x hx =>
            hsame x (.inr (.inl hx)) fun hxu => hlr x hx u hu hxu
          obtain ⟨t₀, h₀, he, hss, hu₀, hrep⟩ := ihr h.2.2 h0.2.2 hndr hu
            fun x hx => hsame x (.inr (.inr hx))
          refine ⟨t₀, h₀, he, fun x hx => by simp [hss hx], hu₀, fun t₁ h₁ hq => ?_⟩
          obtain ⟨r', hrl, hr', hlab⟩ := hrep t₁ h₁ hq
          exact ⟨.node c l r', .right c l hrl, ⟨hlab ▸ hc, hl', hr'⟩, rfl⟩

end Mem

end Cbat
