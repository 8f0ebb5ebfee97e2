/-
**The tree under LLX and SCX.**

The nodes that are reachable from the root form a tree, and an internal node that has been in the
tree and is not marked is still there.  An SCX that is in progress either has lost one of its nodes
to another SCX, or everything that its LLXs have shown is still the case; so when its update CAS
comes, it replaces the nodes that it has frozen and marked by its new nodes.

Main definitions:

* `Cbat.Scx.FitsWith`, `Cbat.Scx.Fits` — **the record fits the memory**: what it removes and what it
  inserts are patches with the same exits;
* `Cbat.Scx.TreeOk` — the invariant of the tree;
* `Cbat.Scx.SameTree` — a step that leaves pointers and records alone.

Main results:

* `Cbat.Scx.TreeOk.same` — such a step keeps the invariant;
* `Cbat.Scx.TreeOk.swing` — **the update CAS keeps the invariant**: the removed nodes are not
  reachable afterwards.
-/

import Cbat.Scx.View

set_option relaxedAutoImplicit false
set_option autoImplicit false

namespace Cbat.Scx

variable {m m' : Mem} {h h' : History} {r r' x j s : ℕ}

theorem kid_eq_some_iff {y : ℕ} {d : Bool} :
    m.kid x d = some y ↔ m.child x d ≠ 0 ∧ m.child x d = y := by
  unfold Mem.kid
  split_ifs with hc
  · simp [hc]
  · simp [hc]

theorem kid_congr (hx : m'.node x = m.node x) (d : Bool) : m'.kid x d = m.kid x d := by
  unfold Mem.kid Mem.child
  rw [hx]

/-- The node is reachable from the root. -/
def Mem.Live (m : Mem) (x : ℕ) : Prop := Pointers.Live m.kid root x

/-- The nodes of `old`, which the record `r` removes, can be replaced by those of `new`. -/
structure FitsWith (m : Mem) (h : History) (r : ℕ) (old new : Patch ℕ ℕ) : Prop where
  first : ∃ s, Frz m r 0 (m.nodeAt r 0) s
  old_top : m.nodeAt r 1 = Pointers.top old
  removed : (m.record r).nodes.tail.Perm old.labels
  field : m.kid (m.nodeAt r 0) (m.record r).fieldIsLeft = some (Pointers.top old)
  old_mem : Pointers.top old ∈ old.labels
  old_holds : Pointers.Holds m.kid old
  new_top : Pointers.top new = (m.record r).newNode
  inserted : new.labels.Perm (h.of r).inserted
  new_mem : Pointers.top new ∈ new.labels
  new_nodup : new.labels.Nodup
  new_holds : Pointers.Holds m.kid new
  subs : new.subs = old.subs
  shown : ∀ j x s, Frz m r j x s → (h.of r).res x = .inner s (m.node x).left (m.node x).right
  fresh : ∀ y ∈ (h.of r).inserted, y ∉ h.linked ∧ 0 < y ∧ y < m.next

/-- **The record fits the memory.** -/
def Fits (m : Mem) (h : History) (r : ℕ) : Prop := ∃ old new, FitsWith m h r old new

/-- **The invariant of the tree.** -/
structure TreeOk (m : Mem) (h : History) : Prop where
  root_mem : root ∈ h.linked
  pos : ∀ x ∈ h.linked, 0 < x ∧ x < m.next
  child_mem : ∀ x ∈ h.linked, ∀ d, m.child x d ≠ 0 →
    m.child x d ∈ h.linked ∧ m.child x d ≠ root
  leaf : ∀ x ∈ h.linked, (m.node x).left = 0 → (m.node x).right = 0
  full : ∀ x ∈ h.linked, x ≠ root → (m.node x).right = 0 → (m.node x).left = 0
  tree : Pointers.IsTree m.kid root
  nodes_mem : ∀ r, ∀ x ∈ (m.record r).nodes, x ∈ h.linked
  nodes_nodup : ∀ r, (m.record r).nodes.Nodup
  frz_lt : ∀ r j x s, Frz m r j x s → j < (m.record r).nodes.length
  inner : ∀ r j x s, Frz m r j x s → (m.node x).left ≠ 0
  outer : ∀ r, ∀ x ∈ (m.record r).nodes, (∀ j s, ¬ Frz m r j x s) → (m.node x).left = 0
  present : ∀ x ∈ h.linked, (m.node x).left ≠ 0 → (m.node x).marked = false → m.Live x
  removed : ∀ r, 0 < (h.of r).swings → ∀ x ∈ (m.record r).nodes.tail, ¬ m.Live x
  field : ∀ r, 0 < (h.of r).swings →
    m.child (m.nodeAt r 0) (m.record r).fieldIsLeft ≠ m.nodeAt r 1
  swings_le : ∀ r, (h.of r).swings ≤ 1
  fits : ∀ r, m.state r = stateInProgress → (h.of r).swings = 0 →
    (view m h).Doomed r ∨ Fits m h r

/-! ### Steps that leave the tree alone -/

/-- The pointers, the arguments of the SCXs and what was in the tree are the same. -/
structure SameTree (m : Mem) (h : History) (m' : Mem) (h' : History) : Prop where
  left : ∀ x, (m'.node x).left = (m.node x).left
  right : ∀ x, (m'.node x).right = (m.node x).right
  marked : ∀ x, (m.node x).marked = true → (m'.node x).marked = true
  type : ∀ r, (m'.record r).type = (m.record r).type
  nodes : ∀ r, (m'.record r).nodes = (m.record r).nodes
  seen : ∀ r, (m'.record r).scxRecordsSeen = (m.record r).scxRecordsSeen
  newNode : ∀ r, (m'.record r).newNode = (m.record r).newNode
  fieldIsLeft : ∀ r, (m'.record r).fieldIsLeft = (m.record r).fieldIsLeft
  next : m.next ≤ m'.next
  linked : h'.linked = h.linked
  swings : ∀ r, (h'.of r).swings = (h.of r).swings
  res : ∀ r, (h'.of r).res = (h.of r).res
  inserted : ∀ r, (h'.of r).inserted = (h.of r).inserted

namespace SameTree

theorem child (hs : SameTree m h m' h') (x : ℕ) (d : Bool) : m'.child x d = m.child x d := by
  unfold Mem.child
  rw [hs.left, hs.right]

theorem kid (hs : SameTree m h m' h') : m'.kid = m.kid := by
  funext x d
  unfold Mem.kid
  rw [hs.child]

theorem live (hs : SameTree m h m' h') (x : ℕ) : m'.Live x ↔ m.Live x := by
  unfold Mem.Live
  rw [hs.kid]

theorem nodeAt (hs : SameTree m h m' h') (r i : ℕ) : m'.nodeAt r i = m.nodeAt r i := by
  unfold Mem.nodeAt
  rw [hs.nodes]

theorem frz (hs : SameTree m h m' h') (r : ℕ) : Frz m' r = Frz m r :=
  frz_congr (hs.type r) (hs.nodes r) (hs.seen r)

theorem fits (hs : SameTree m h m' h') (hf : Fits m h r) : Fits m' h' r := by
  obtain ⟨old, new, hf⟩ := hf
  refine ⟨old, new, ?_⟩
  constructor
  · rw [hs.frz, hs.nodeAt]; exact hf.first
  · rw [hs.nodeAt]; exact hf.old_top
  · rw [hs.nodes]; exact hf.removed
  · rw [hs.kid, hs.nodeAt, hs.fieldIsLeft]; exact hf.field
  · exact hf.old_mem
  · rw [hs.kid]; exact hf.old_holds
  · rw [hs.newNode]; exact hf.new_top
  · rw [hs.inserted]; exact hf.inserted
  · exact hf.new_mem
  · exact hf.new_nodup
  · rw [hs.kid]; exact hf.new_holds
  · exact hf.subs
  · intro j x s hj
    rw [hs.res, hs.left, hs.right]
    exact hf.shown j x s (hs.frz r ▸ hj)
  · intro y hy
    rw [hs.inserted] at hy
    obtain ⟨hl, h0, hlt⟩ := hf.fresh y hy
    exact ⟨hs.linked ▸ hl, h0, hlt.trans_le hs.next⟩

end SameTree

/-- **A step that leaves pointers and records alone keeps the invariant.** -/
theorem TreeOk.same (hT : TreeOk m h) (hs : SameTree m h m' h')
    (hstate : ∀ r, m'.state r = stateInProgress → m.state r = stateInProgress)
    (hdoomed : ∀ r, (view m h).Doomed r → (view m' h').Doomed r) : TreeOk m' h' := by
  constructor
  · rw [hs.linked]; exact hT.root_mem
  · intro x hx
    rw [hs.linked] at hx
    exact ⟨(hT.pos x hx).1, (hT.pos x hx).2.trans_le hs.next⟩
  · intro x hx d hc
    rw [hs.linked] at hx ⊢
    rw [hs.child] at hc ⊢
    exact hT.child_mem x hx d hc
  · intro x hx
    rw [hs.left, hs.right]
    exact hT.leaf x (hs.linked ▸ hx)
  · intro x hx
    rw [hs.left, hs.right]
    exact hT.full x (hs.linked ▸ hx)
  · rw [hs.kid]; exact hT.tree
  · intro r x hx
    rw [hs.linked]
    exact hT.nodes_mem r x (hs.nodes r ▸ hx)
  · intro r
    rw [hs.nodes]
    exact hT.nodes_nodup r
  · intro r j x s hj
    rw [hs.nodes]
    exact hT.frz_lt r j x s (hs.frz r ▸ hj)
  · intro r j x s hj
    rw [hs.left]
    exact hT.inner r j x s (hs.frz r ▸ hj)
  · intro r x hx hn
    rw [hs.left]
    exact hT.outer r x (hs.nodes r ▸ hx) fun j s hj => hn j s (by rwa [hs.frz])
  · intro x hx hl hm
    rw [hs.live]
    refine hT.present x (hs.linked ▸ hx) (hs.left x ▸ hl) ?_
    cases hmx : (m.node x).marked with
    | false => rfl
    | true => exact absurd (hs.marked x hmx) (by simp [hm])
  · intro r hr x hx
    rw [hs.live]
    exact hT.removed r (hs.swings r ▸ hr) x (hs.nodes r ▸ hx)
  · intro r hr
    rw [hs.child, hs.nodeAt, hs.nodeAt, hs.fieldIsLeft]
    exact hT.field r (hs.swings r ▸ hr)
  · intro r
    rw [hs.swings]
    exact hT.swings_le r
  · intro r hr h0
    rw [hs.swings] at h0
    exact (hT.fits r (hstate r hr) h0).imp (hdoomed r) hs.fits

/-! ### Reachable nodes -/

namespace TreeOk

theorem kid_mem (hT : TreeOk m h) {y : ℕ} {d : Bool} (hx : x ∈ h.linked) (hk : m.kid x d = some y) :
    y ∈ h.linked ∧ y ≠ root := by
  obtain ⟨hne, rfl⟩ := kid_eq_some_iff.mp hk
  exact hT.child_mem x hx d hne

theorem nodeAt_linked (hT : TreeOk m h) (r i : ℕ) : m.nodeAt r i ∈ h.linked ∨ m.nodeAt r i = 0 := by
  unfold Mem.nodeAt
  by_cases hi : i < (m.record r).nodes.length
  · rw [List.getD_eq_getElem _ _ hi]
    exact .inl (hT.nodes_mem r _ (List.getElem_mem hi))
  · exact .inr (List.getD_eq_default _ _ (Nat.le_of_not_lt hi))

theorem frz_mem (hT : TreeOk m h) (hj : Frz m r j x s) : x ∈ (m.record r).nodes := by
  have hlt := hT.frz_lt r j x s hj
  obtain ⟨-, -, rfl⟩ := hj
  unfold Mem.nodeAt
  rw [List.getD_eq_getElem _ _ hlt]
  exact List.getElem_mem hlt

theorem frz_mem_tail (hT : TreeOk m h) (hj : Frz m r j x s) (h0 : j ≠ 0) :
    x ∈ (m.record r).nodes.tail := by
  have hlt := hT.frz_lt r j x s hj
  obtain ⟨-, -, rfl⟩ := hj
  unfold Mem.nodeAt
  rw [List.getD_eq_getElem _ _ hlt, List.mem_iff_getElem]
  obtain ⟨k, rfl⟩ := Nat.exists_eq_succ_of_ne_zero h0
  have hk : k < (m.record r).nodes.tail.length := by
    rw [List.length_tail]
    omega
  exact ⟨k, hk, List.getElem_tail hk⟩

/-- **A node that is reachable has been in the tree.** -/
theorem linked_of_live (hT : TreeOk m h) (hx : m.Live x) : x ∈ h.linked :=
  Pointers.Live.mem (S := { x | x ∈ h.linked }) hT.root_mem
    (fun _ hx _ _ hk => (hT.kid_mem hx hk).1) hx

end TreeOk

/-! ### The update CAS -/

theorem child_setChild (u x c : ℕ) (d e : Bool) :
    (m.setChild u d c).child x e = if x = u ∧ e = d then c else m.child x e := by
  unfold Mem.setChild Mem.setNode Mem.child
  by_cases hx : x = u
  · subst hx
    cases d <;> cases e <;> simp
  · simp [hx]

/-- The memory after the update CAS of `r`. -/
def Mem.swung (m : Mem) (r : ℕ) : Mem :=
  m.setChild (m.nodeAt r 0) (m.record r).fieldIsLeft (m.record r).newNode

theorem child_swung (x : ℕ) (e : Bool) : (m.swung r).child x e =
    if x = m.nodeAt r 0 ∧ e = (m.record r).fieldIsLeft then (m.record r).newNode else m.child x e :=
  child_setChild ..

/-- The update CAS of a record whose nodes have been frozen and marked. -/
structure Ripe (m : Mem) (h : History) (r : ℕ) : Prop where
  inProgress : m.state r = stateInProgress
  swings : (h.of r).swings = 0
  first : ∃ s, Frz m r 0 (m.nodeAt r 0) s
  ptr : ∀ j x s, Frz m r j x s → m.ptr x = r
  marked : ∀ j x s, Frz m r j x s → j ≠ 0 → (m.node x).marked = true

theorem Ripe.first_left (hr : Ripe m h r) (hT : TreeOk m h) :
    (m.node (m.nodeAt r 0)).left ≠ 0 := by
  obtain ⟨s, hs⟩ := hr.first
  exact hT.inner r 0 _ s hs

namespace FitsWith

variable {old new : Patch ℕ ℕ}

theorem nodes_eq (hf : FitsWith m h r old new) :
    (m.record r).nodes = m.nodeAt r 0 :: (m.record r).nodes.tail := by
  have hmem := hf.removed.mem_iff.mpr hf.old_mem
  unfold Mem.nodeAt
  cases hn : (m.record r).nodes with
  | nil => simp [hn] at hmem
  | cons u t => rfl

theorem mem_inserted (hf : FitsWith m h r old new) (y : ℕ) :
    y ∈ new.labels ↔ y ∈ (h.of r).inserted := hf.inserted.mem_iff

theorem newNode_mem (hf : FitsWith m h r old new) : (m.record r).newNode ∈ (h.of r).inserted := by
  rw [← hf.new_top, ← hf.mem_inserted]
  exact hf.new_mem

theorem swung (hf : FitsWith m h r old new) : Pointers.Swung m.kid (m.swung r).kid (m.nodeAt r 0)
    (m.record r).fieldIsLeft (Pointers.top new) := by
  constructor
  · rw [kid_eq_some_iff, child_swung, if_pos ⟨rfl, rfl⟩, hf.new_top]
    exact ⟨(hf.fresh _ hf.newNode_mem).2.1.ne', rfl⟩
  · intro x e hne
    unfold Mem.kid
    rw [child_swung, if_neg hne]

/-- A new node has two children or none. -/
theorem new_full (hf : FitsWith m h r old new) {x : ℕ} (hx : x ∈ (h.of r).inserted) :
    (m.node x).left = 0 ↔ (m.node x).right = 0 := by
  have hx' := (hf.mem_inserted x).mpr hx
  have hh := hf.new_holds
  generalize new = p at hx' hh
  induction p with
  | sub i => simp [Patch.labels] at hx'
  | leaf a =>
      obtain rfl : x = a := by simpa [Patch.labels] using hx'
      have none_iff (d : Bool) : m.child x d = 0 := by
        have := hh d
        unfold Mem.kid at this
        by_contra hc
        simp [hc] at this
      exact iff_of_true (none_iff true) (none_iff false)
  | node a l r ihl ihr =>
      obtain ⟨hl, hr, hhl, hhr⟩ := hh
      simp only [Patch.labels, List.mem_cons, List.mem_append] at hx'
      rcases hx' with rfl | hx' | hx'
      · exact iff_of_false (kid_eq_some_iff.mp hl).1 (kid_eq_some_iff.mp hr).1
      · exact ihl hx' hhl
      · exact ihr hx' hhr

variable (hf : FitsWith m h r old new) (hT : TreeOk m h) (ho : (view m h).Ok dummy)
  (hr : Ripe m h r)

include hf hT

theorem first_linked : m.nodeAt r 0 ∈ h.linked :=
  hT.nodes_mem r _ (hf.nodes_eq ▸ List.mem_cons_self)

theorem new_not_live : ∀ y ∈ new.labels, ¬ m.Live y := by
  intro y hy hl
  exact (hf.fresh y ((hf.mem_inserted y).mp hy)).1 (hT.linked_of_live hl)

/-- An exit of the new nodes has been in the tree. -/
theorem sub_linked {y : ℕ} (hy : y ∈ new.subs) : y ∈ h.linked ∧ y ≠ root := by
  rw [hf.subs] at hy
  have hnd : old.labels.Nodup :=
    hf.removed.nodup_iff.mp ((hT.nodes_nodup r).sublist (List.tail_sublist _))
  obtain ⟨x, e, hm⟩ := (Pointers.exists_edge_iff hf.old_mem).mpr (.inr hy)
  have hx := Pointers.label_of_edge hm
  have hk := (Pointers.mem_edges_iff hf.old_holds hx hnd).mp hm
  exact hT.kid_mem (hT.nodes_mem r x (List.mem_of_mem_tail (hf.removed.mem_iff.mpr hx))) hk

/-- The children of the new nodes. -/
theorem new_kid_mem {x y : ℕ} {e : Bool} (hx : x ∈ (h.of r).inserted) (hk : m.kid x e = some y) :
    y ∈ (h.of r).inserted ++ h.linked ∧ y ≠ root := by
  have hx' := (hf.mem_inserted x).mpr hx
  have hm := (Pointers.mem_edges_iff hf.new_holds hx' hf.new_nodup).mpr hk
  rcases (Pointers.exists_edge_iff hf.new_mem).mp ⟨x, e, hm⟩ with hy | hy
  · have hy' := (hf.mem_inserted y).mp (List.mem_of_mem_tail hy)
    refine ⟨List.mem_append_left _ hy', ?_⟩
    rintro rfl
    exact (hf.fresh _ hy').1 hT.root_mem
  · exact ⟨List.mem_append_right _ (hf.sub_linked hT hy).1, (hf.sub_linked hT hy).2⟩

include ho hr

/-- **The node whose child is to be changed is in the tree**: it is frozen and not marked. -/
theorem first_live : m.Live (m.nodeAt r 0) := by
  refine hT.present _ (hf.first_linked hT) (hr.first_left hT) ?_
  cases hm : (m.node (m.nodeAt r 0)).marked with
  | false => rfl
  | true =>
      obtain ⟨s, hs⟩ := hr.first
      obtain ⟨j, s', hj, hj0, -⟩ := ho.marked_plan hm
      have hp : (view m h).ptr (m.nodeAt r 0) = r := hr.ptr 0 _ s hs
      rw [hp] at hj
      exact absurd (ho.plan_inj hj hs) hj0

theorem replaces : Pointers.Replaces m.kid (m.nodeAt r 0) (m.record r).fieldIsLeft
    { x | x ∈ old.labels } { x | x ∈ new.labels } (Pointers.top new) := by
  refine .of_patches hT.tree (hf.first_live hT ho hr) hf.old_holds hf.new_holds hf.field ?_
    hf.old_mem hf.new_mem hf.new_nodup (hf.new_not_live hT) hf.subs
  have hnd := hT.nodes_nodup r
  rw [hf.nodes_eq] at hnd
  exact (hf.removed.cons _).nodup_iff.mp hnd

/-- **What is reachable after the update CAS.** -/
theorem live_swung_iff (y : ℕ) : (m.swung r).Live y ↔
    (m.Live y ∧ y ∉ (m.record r).nodes.tail) ∨ y ∈ (h.of r).inserted := by
  rw [hf.removed.mem_iff, ← hf.mem_inserted]
  exact (hf.replaces hT ho hr).live_iff hT.tree (hf.first_live hT ho hr) (hf.new_not_live hT)
    hf.swung

end FitsWith

/-- Two records that can still make their change have no new node in common. -/
def Apart (m : Mem) (h : History) (r : ℕ) : Prop :=
  ∀ r', r' ≠ r → m.state r' = stateInProgress → (h.of r').swings = 0 → ¬ (view m h).Doomed r' →
    ∀ y ∈ (h.of r').inserted, y ∉ (h.of r).inserted

theorem view_swung : view (m.swung r) (h.swing r) =
    { view m h with swung := Function.update (view m h).swung r True } := by
  rw [view_swing, Mem.swung, view_setChild]

theorem owner_swing (r' : ℕ) : ((h.swing r).of r').owner = (h.of r').owner := by
  unfold History.swing History.set
  by_cases hr : r' = r
  · subst hr; simp
  · simp [hr]

theorem swings_swing (r' : ℕ) :
    ((h.swing r).of r').swings = if r' = r then (h.of r').swings + 1 else (h.of r').swings := by
  unfold History.swing History.set
  by_cases hr : r' = r
  · subst hr; simp
  · simp [hr]

theorem inserted_swing (r' : ℕ) : ((h.swing r).of r').inserted = (h.of r').inserted := by
  unfold History.swing History.set
  by_cases hr : r' = r
  · subst hr; simp
  · simp [hr]

theorem res_swing (r' : ℕ) : ((h.swing r).of r').res = (h.of r').res := by
  unfold History.swing History.set
  by_cases hr : r' = r
  · subst hr; simp
  · simp [hr]

theorem marked_swung (x : ℕ) : ((m.swung r).node x).marked = (m.node x).marked := by
  unfold Mem.swung Mem.setChild Mem.setNode
  by_cases hx : x = m.nodeAt r 0
  · subst hx
    cases (m.record r).fieldIsLeft <;> simp
  · simp [hx]

theorem node_swung_of_ne (hx : x ≠ m.nodeAt r 0) : (m.swung r).node x = m.node x := by
  unfold Mem.swung Mem.setChild Mem.setNode
  simp [hx]

/-- The changed node is internal before and after. -/
theorem FitsWith.left_swung_iff {old new : Patch ℕ ℕ} (hf : FitsWith m h r old new)
    (hT : TreeOk m h) (hr : Ripe m h r) (x : ℕ) :
    ((m.swung r).node x).left = 0 ↔ (m.node x).left = 0 := by
  by_cases hx : x = m.nodeAt r 0
  · subst hx
    refine iff_of_false ?_ (hr.first_left hT)
    change (m.swung r).child _ true ≠ 0
    rw [child_swung]
    split_ifs
    · exact (hf.fresh _ hf.newNode_mem).2.1.ne'
    · exact hr.first_left hT
  · rw [node_swung_of_ne hx]

/-- A node that is frozen for a record in progress is of no use to another one. -/
theorem doomed_of_first (hT : TreeOk m h) (ho : (view m h).Ok dummy) (hr : Ripe m h r)
    (hr' : m.state r' = stateInProgress) (hne : r' ≠ r)
    (hx : m.nodeAt r 0 ∈ (m.record r').nodes) : (view m h).Doomed r' := by
  obtain ⟨s₀, hs₀⟩ := hr.first
  have hp : (view m h).ptr (m.nodeAt r 0) = r := hr.ptr 0 _ s₀ hs₀
  by_cases hfrz : ∃ j s, Frz m r' j (m.nodeAt r 0) s
  · obtain ⟨j, s, hj⟩ := hfrz
    refine ⟨j, ?_, _, s, hj, fun hc => hne (hc.symm.trans hp), ?_⟩
    · by_contra hlt
      have := ho.busy (status_eq_inProgress_iff.mpr hr') hj (Nat.lt_of_not_le hlt)
      exact hne (this.symm.trans hp)
    · refine (ho.seen_behind hj).resolve_left fun hs => ho.seen_finished hj ?_
      rw [← hs, hp]
      exact status_eq_inProgress_iff.mpr hr.inProgress
  · exact absurd (hT.outer r' _ hx fun j s hj => hfrz ⟨j, s, hj⟩) (hr.first_left hT)

/-- **A record still fits** if nothing happens to its nodes, old and new. -/
theorem Fits.congr (hf : Fits m h r) (hT : TreeOk m h) (hrec : m'.record r = m.record r)
    (hres : (h'.of r).res = (h.of r).res) (hins : (h'.of r).inserted = (h.of r).inserted)
    (hold : ∀ x ∈ (m.record r).nodes, m'.node x = m.node x)
    (hnew : ∀ y ∈ (h.of r).inserted, m'.node y = m.node y ∧ y ∉ h'.linked)
    (hnext : m.next ≤ m'.next) : Fits m' h' r := by
  obtain ⟨old, new, hf⟩ := hf
  have hfrz : Frz m' r = Frz m r := frz_congr (by rw [hrec]) (by rw [hrec]) (by rw [hrec])
  have hat (j : ℕ) : m'.nodeAt r j = m.nodeAt r j := by unfold Mem.nodeAt; rw [hrec]
  refine ⟨old, new, ?_⟩
  constructor
  · rw [hfrz, hat]; exact hf.first
  · rw [hat]; exact hf.old_top
  · rw [hrec]; exact hf.removed
  · rw [hat, hrec, kid_congr (hold _ (hf.nodes_eq ▸ List.mem_cons_self))]; exact hf.field
  · exact hf.old_mem
  · exact hf.old_holds.congr fun x hx =>
      kid_congr (hold x (List.mem_of_mem_tail (hf.removed.mem_iff.mpr hx)))
  · rw [hrec]; exact hf.new_top
  · rw [hins]; exact hf.inserted
  · exact hf.new_mem
  · exact hf.new_nodup
  · exact hf.new_holds.congr fun x hx => kid_congr (hnew x ((hf.mem_inserted x).mp hx)).1
  · exact hf.subs
  · intro j x s hj
    rw [hfrz] at hj
    rw [hres, hold x (hT.frz_mem hj)]
    exact hf.shown j x s hj
  · intro y hy
    rw [hins] at hy
    obtain ⟨-, h0, hlt⟩ := hf.fresh y hy
    exact ⟨(hnew y hy).2, h0, hlt.trans_le hnext⟩

/-- A record that has nothing to do with the changed node still fits. -/
theorem Fits.swung (hf : Fits m h r') (hT : TreeOk m h) (hu : m.nodeAt r 0 ∈ h.linked)
    (hout : m.nodeAt r 0 ∉ (m.record r').nodes)
    (hdis : ∀ y ∈ (h.of r').inserted, y ∉ (h.of r).inserted) :
    Fits (m.swung r) (h.swing r) r' := by
  have hfresh : ∀ y ∈ (h.of r').inserted, y ∉ h.linked := by
    obtain ⟨old, new, hf⟩ := hf
    exact fun y hy => (hf.fresh y hy).1
  refine hf.congr hT rfl (res_swing r') (inserted_swing r') ?_ ?_ (Nat.le_refl _)
  · intro x hx
    refine node_swung_of_ne ?_
    rintro rfl
    exact hout hx
  · intro y hy
    refine ⟨node_swung_of_ne ?_, ?_⟩
    · rintro rfl
      exact hfresh _ hy hu
    · intro hl
      rcases List.mem_append.mp hl with hl | hl
      · exact hdis y hy hl
      · exact hfresh y hy hl

/-- **The update CAS keeps the invariant.** -/
theorem TreeOk.swing (hT : TreeOk m h) (ho : (view m h).Ok dummy) (hr : Ripe m h r)
    (hf : Fits m h r) (hapart : Apart m h r) : TreeOk (m.swung r) (h.swing r) := by
  obtain ⟨old, new, hf⟩ := hf
  have hu := hf.first_linked hT
  have hul := hr.first_left hT
  have live := hf.live_swung_iff hT ho hr
  have fresh {y : ℕ} (hy : y ∈ h.linked) : y ∉ (h.of r).inserted := fun hc =>
    (hf.fresh y hc).1 hy
  have hnew := hf.newNode_mem
  have hnew0 := (hf.fresh _ hnew).2.1
  have child_old {x : ℕ} {e : Bool} (hx : x ≠ m.nodeAt r 0) :
      (m.swung r).child x e = m.child x e := by
    rw [child_swung, if_neg fun hc => hx hc.1]
  have new_ne {x : ℕ} (hx : x ∈ (h.of r).inserted) : x ≠ m.nodeAt r 0 := by
    rintro rfl
    exact fresh hu hx
  have left_iff := hf.left_swung_iff hT hr
  have mem_cases {x : ℕ} (hx : x ∈ (h.swing r).linked) : x ∈ (h.of r).inserted ∨ x ∈ h.linked :=
    List.mem_append.mp hx
  constructor
  · exact List.mem_append_right _ hT.root_mem
  · intro x hx
    rcases mem_cases hx with hx | hx
    · exact (hf.fresh x hx).2
    · exact hT.pos x hx
  · intro x hx e hc
    rcases mem_cases hx with hx | hx
    · rw [child_old (new_ne hx)] at hc ⊢
      exact hf.new_kid_mem hT hx (kid_eq_some_iff.mpr ⟨hc, rfl⟩)
    · rw [child_swung] at hc ⊢
      split_ifs at hc ⊢ with hxe
      · refine ⟨List.mem_append_left _ hnew, ?_⟩
        intro hroot
        exact fresh hT.root_mem (hroot ▸ hnew)
      · obtain ⟨hc, hne⟩ := hT.child_mem x hx e hc
        exact ⟨List.mem_append_right _ hc, hne⟩
  · intro x hx hl
    rw [left_iff] at hl
    rcases mem_cases hx with hx | hx
    · rw [node_swung_of_ne (new_ne hx)]
      exact (hf.new_full hx).mp hl
    · rw [node_swung_of_ne]
      · exact hT.leaf x hx hl
      · rintro rfl
        exact hul hl
  · intro x hx hroot hright
    rw [left_iff]
    rcases mem_cases hx with hx | hx
    · rw [node_swung_of_ne (new_ne hx)] at hright
      exact (hf.new_full hx).mpr hright
    · change (m.swung r).child x false = 0 at hright
      rw [child_swung] at hright
      split_ifs at hright
      · exact absurd hright hnew0.ne'
      · exact hT.full x hx hroot hright
  · exact (hf.replaces hT ho hr).isTree hT.tree (hf.first_live hT ho hr) (hf.new_not_live hT)
      hf.swung
  · intro r' x hx
    exact List.mem_append_right _ (hT.nodes_mem r' x hx)
  · exact hT.nodes_nodup
  · exact hT.frz_lt
  · intro r' j x s hj
    rw [Ne, left_iff]
    exact hT.inner r' j x s hj
  · intro r' x hx hn
    rw [left_iff]
    exact hT.outer r' x hx hn
  · intro x hx hl hm
    rw [Ne, left_iff] at hl
    rw [marked_swung] at hm
    rw [live]
    rcases mem_cases hx with hx | hx
    · exact .inr hx
    · refine .inl ⟨hT.present x hx hl hm, fun ht => hl ?_⟩
      -- a removed node is marked, or it is a leaf
      refine hT.outer r x (List.mem_of_mem_tail ht) fun j s hj => ?_
      have hj0 : j ≠ 0 := by
        rintro rfl
        have hnd := hT.nodes_nodup r
        rw [hf.nodes_eq, List.nodup_cons] at hnd
        exact hnd.1 (hj.2.2 ▸ ht)
      simp [hr.marked j x s hj hj0] at hm
  · intro r' hs x hx
    rw [live]
    rintro (⟨hlive, hout⟩ | hx')
    · rw [swings_swing] at hs
      split_ifs at hs with hrr
      · exact hout (hrr ▸ hx)
      · exact hT.removed r' hs x hx hlive
    · exact fresh (hT.nodes_mem r' x (List.mem_of_mem_tail hx)) hx'
  · intro r' hs
    have hne : (m.record r).newNode ≠ m.nodeAt r' 1 := by
      intro hc
      rcases hT.nodeAt_linked r' 1 with hl | hl
      · exact fresh hl (hc ▸ hnew)
      · exact hnew0.ne' (hc.trans hl)
    change (m.swung r).child (m.nodeAt r' 0) (m.record r').fieldIsLeft ≠ m.nodeAt r' 1
    rw [child_swung]
    split_ifs with hc
    · exact hne
    · rw [swings_swing] at hs
      split_ifs at hs with hrr
      · exact absurd ⟨by rw [hrr], by rw [hrr]⟩ hc
      · exact hT.field r' hs
  · intro r'
    rw [swings_swing]
    split_ifs with hrr
    · rw [hrr, hr.swings]
    · exact hT.swings_le r'
  · intro r' hs h0
    have hrr : r' ≠ r := by
      rintro rfl
      simp [swings_swing] at h0
    rw [swings_swing, if_neg hrr] at h0
    rw [view_swung]
    by_cases hd : (view m h).Doomed r'
    · exact .inl hd
    · refine .inr (((hT.fits r' hs h0).resolve_left hd).swung hT hu ?_ (hapart r' hrr hs h0 hd))
      exact fun hx => hd (doomed_of_first hT ho hr hs hrr hx)

end Cbat.Scx
