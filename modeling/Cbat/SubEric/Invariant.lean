/-
**The unbalanced tree with delegation: the tree and the locks.**

The pointers of a node are written by a thread that holds its lock, and a node is cut off by a
thread that holds its lock and that of its parent.  So what a thread has read under its locks stays
true until it releases them.  The nodes that are not marked as removed are in the tree; a search may
be in nodes that have been cut off.

Main definitions:

* `Cbat.SubEric.Base` — the reachable nodes form a search tree, and the nodes that are not removed
  are reachable;
* `Cbat.SubEric.PC.locks` — the locks that a thread holds;
* `Cbat.SubEric.PcOk` — what a thread knows, at every program counter;
* `Cbat.SubEric.Inv` — the invariant of all reachable states.

Main results:

* `Cbat.SubEric.exec_kind` — **what one step does to the memory**;
* `Cbat.SubEric.reachable_inv` — the invariant.
-/

import Cbat.SubEric.Machine

set_option relaxedAutoImplicit false
set_option autoImplicit false

namespace Cbat.SubEric

open Linked

variable {m m' : Mem} {pc pc' : PC} {q : ℤ} {x : ℕ}

/-! ### The memory -/

theorem kids_of_leaf (h : (m.node x).isLeaf = true) : m.linked.kids x = none := if_pos h

theorem kids_of_internal (h : (m.node x).isLeaf = false) :
    m.linked.kids x = some ((m.node x).child false, (m.node x).child true) :=
  if_neg (by simp [h])

theorem isLeaf_of_kids (h : m.linked.kids x = none) : (m.node x).isLeaf = true := by
  by_contra hn
  rw [kids_of_internal (by simpa using hn)] at h
  cases h

theorem kid_eq (h : (m.node x).isLeaf = false) (d : Bool) :
    m.linked.kid x d = some ((m.node x).child d) := by
  rw [kid_of_kids (kids_of_internal h)]
  cases d <;> rfl

/-- **The reachable nodes form a search tree**, and an internal node that is not removed is
reachable. -/
structure Base (m : Mem) (t : LTree ℕ) : Prop where
  tree : m.linked.Tree root t
  closed : m.linked.Closed m.next
  root_lt : root < m.next
  root_key : (m.node root).key = maxKey
  root_internal : (m.node root).isLeaf = false
  present : ∀ x < m.next, (m.node x).isLeaf = false → (m.node x).removed = false →
    m.linked.Live root x

theorem Base.live_lt {t : LTree ℕ} (hB : Base m t) (hx : m.linked.Live root x) : x < m.next :=
  hB.closed.live_lt hB.root_lt hx

theorem Base.labels_lt {t : LTree ℕ} (hB : Base m t) : ∀ x ∈ t.labels, x < m.next :=
  fun _ hx => hB.live_lt (hB.tree.live_iff.mpr hx)

/-! ### What a thread knows -/

/-- The locks that a thread holds. -/
def PC.locks : PC → List ℕ
  | .insertRemoved _ f | .insertPtr _ f | .insertStore _ f => [f.p]
  | .removeLockP _ f => [f.gp]
  | .removeRemoved _ f | .removePtr _ f | .removeRemaining _ f | .removeTarget _ f _
  | .removeMark _ f _ | .removeStore _ f _ => [f.gp, f.p]
  | .unlock _ locks _ => locks
  | _ => []

/-- An internal node that a search for `q` has met. -/
structure Visited (m : Mem) (q : ℤ) (x : ℕ) : Prop where
  lt : x < m.next
  internal : (m.node x).isLeaf = false
  sees : m.linked.Sees root q x

/-- A search for `q`. -/
structure FoundOk (m : Mem) (q : ℤ) (f : Found) : Prop where
  bound : q < maxKey
  p : Visited m q f.p
  pDir : f.pDir = m.linked.dir q f.p
  l_lt : f.l < m.next
  l_sees : m.linked.Sees root q f.l
  gp : f.gp = 0 ∨ (f.gp < m.next ∧ (m.node f.gp).isLeaf = false)

/-- A search that has ended in a leaf. -/
structure EndOk (m : Mem) (q : ℤ) (f : Found) : Prop extends FoundOk m q f where
  leaf : (m.node f.l).isLeaf = true

/-- `insert` has found a leaf with another key. -/
structure InsertOk (m : Mem) (c : Call) (f : Found) : Prop extends EndOk m c.op.key f where
  op : ∃ v, c.op = .insert c.op.key v
  ne : (m.node f.l).key ≠ c.op.key

/-- `remove` has found a leaf with its key. -/
structure RemoveOk (m : Mem) (c : Call) (f : Found) : Prop extends EndOk m c.op.key f where
  key : (m.node f.l).key = c.op.key

/-- `remove` has checked the grandparent under its locks. -/
structure GpOk (m : Mem) (c : Call) (f : Found) : Prop extends RemoveOk m c f where
  gp_lt : f.gp < m.next
  gp_internal : (m.node f.gp).isLeaf = false
  gp_live : m.linked.Live root f.gp

/-- `remove` has checked all pointers under its locks. -/
structure SpliceOk (m : Mem) (c : Call) (f : Found) (s : ℕ) : Prop extends GpOk m c f where
  gp_child : (m.node f.gp).child f.gpDir = f.p
  p_child : (m.node f.p).child f.pDir = f.l
  remaining : (m.node f.p).child (!f.pDir) = s

/-- **What a thread knows**, at every program counter. -/
def PcOk (m : Mem) : PC → Prop
  | .start c => c.op.key < maxKey
  | .find c f => FoundOk m c.op.key f
  | .insertLock c f | .insertRemoved c f => InsertOk m c f
  | .insertPtr c f => InsertOk m c f ∧ m.linked.Live root f.p
  | .insertStore c f =>
      InsertOk m c f ∧ m.linked.Live root f.p ∧ (m.node f.p).child f.pDir = f.l
  | .removeLockGp c f => RemoveOk m c f
  | .removeLockP c f | .removeRemoved c f => RemoveOk m c f ∧ f.gp ≠ 0
  | .removePtr c f => GpOk m c f
  | .removeRemaining c f => GpOk m c f ∧ (m.node f.gp).child f.gpDir = f.p
  | .removeTarget c f s =>
      GpOk m c f ∧ (m.node f.gp).child f.gpDir = f.p ∧ (m.node f.p).child (!f.pDir) = s
  | .removeMark c f s => SpliceOk m c f s
  | .removeStore c f s => SpliceOk m c f s ∧ (m.node f.p).removed = true
  | .unlock c _ .retry => c.op.key < maxKey
  | _ => True

/-! ### What the steps do to the memory -/

/-- The memory later: addresses are not used twice, keys and leaves stay, and searches stay on their
paths. -/
structure Later (m m' : Mem) : Prop where
  next : m.next ≤ m'.next
  key : ∀ x < m.next, (m'.node x).key = (m.node x).key
  leaf : ∀ x < m.next, (m'.node x).isLeaf = (m.node x).isLeaf
  removed : ∀ x < m.next, (m.node x).removed = true → (m'.node x).removed = true
  sees : ∀ q, ∀ x < m.next, m.linked.Sees root q x → m'.linked.Sees root q x

/-- The step leaves the internal node `x` in its place, with its children. -/
structure Keeps (m m' : Mem) (x : ℕ) : Prop where
  live : m.linked.Live root x → m'.linked.Live root x
  child : (m'.node x).child = (m.node x).child

/-- The step changes neither keys nor pointers. -/
structure SameTree (m m' : Mem) : Prop where
  next : m'.next = m.next
  key : ∀ x, (m'.node x).key = (m.node x).key
  leaf : ∀ x, (m'.node x).isLeaf = (m.node x).isLeaf
  child : ∀ x, (m'.node x).child = (m.node x).child
  removed : ∀ x, (m.node x).removed = true → (m'.node x).removed = true

theorem SameTree.linked (h : SameTree m m') : m'.linked = m.linked := by
  refine Linked.ext (funext h.key) ?_
  funext x
  simp only [Mem.linked, h.leaf x, h.child x]

theorem SameTree.refl (m : Mem) : SameTree m m :=
    ⟨rfl, fun _ => rfl, fun _ => rfl, fun _ => rfl, fun _ => id⟩

theorem SameTree.later (h : SameTree m m') : Later m m' :=
  ⟨h.next.ge, fun x _ => h.key x, fun x _ => h.leaf x, fun x _ => h.removed x,
    fun _ _ _ hx => h.linked ▸ hx⟩

theorem SameTree.keeps (h : SameTree m m') (x : ℕ) : Keeps m m' x :=
  ⟨fun hx => h.linked ▸ hx, h.child x⟩

theorem Visited.later (h : Visited m q x) (hl : Later m m') : Visited m' q x :=
  ⟨h.lt.trans_le hl.next, (hl.leaf x h.lt).trans h.internal, hl.sees q x h.lt h.sees⟩

theorem FoundOk.later {f : Found} (h : FoundOk m q f) (hl : Later m m') : FoundOk m' q f where
  bound := h.bound
  p := h.p.later hl
  pDir := by
    have hk : m'.linked.key f.p = m.linked.key f.p := hl.key f.p h.p.lt
    rw [dir, hk]
    exact h.pDir
  l_lt := h.l_lt.trans_le hl.next
  l_sees := hl.sees q f.l h.l_lt h.l_sees
  gp := h.gp.imp_right fun hg => ⟨hg.1.trans_le hl.next, (hl.leaf _ hg.1).trans hg.2⟩

theorem EndOk.later {f : Found} (h : EndOk m q f) (hl : Later m m') : EndOk m' q f :=
  ⟨h.toFoundOk.later hl, (hl.leaf _ h.l_lt).trans h.leaf⟩

theorem InsertOk.later {c : Call} {f : Found} (h : InsertOk m c f) (hl : Later m m') :
    InsertOk m' c f :=
  ⟨h.toEndOk.later hl, h.op, (hl.key _ h.l_lt).trans_ne h.ne⟩

theorem RemoveOk.later {c : Call} {f : Found} (h : RemoveOk m c f) (hl : Later m m') :
    RemoveOk m' c f :=
  ⟨h.toEndOk.later hl, (hl.key _ h.l_lt).trans h.key⟩

theorem GpOk.later {c : Call} {f : Found} (h : GpOk m c f) (hl : Later m m')
    (hk : Keeps m m' f.gp) : GpOk m' c f :=
  ⟨h.toRemoveOk.later hl, h.gp_lt.trans_le hl.next, (hl.leaf _ h.gp_lt).trans h.gp_internal,
    hk.live h.gp_live⟩

theorem SpliceOk.later {c : Call} {f : Found} {s : ℕ} (h : SpliceOk m c f s) (hl : Later m m')
    (hg : Keeps m m' f.gp) (hp : Keeps m m' f.p) : SpliceOk m' c f s :=
  ⟨h.toGpOk.later hl hg, by rw [hg.child, h.gp_child], by rw [hp.child, h.p_child],
    by rw [hp.child, h.remaining]⟩

/-- **What a thread knows stays true** while the nodes that it has locked keep their places. -/
theorem PcOk.later (h : PcOk m pc) (hl : Later m m')
    (hk : ∀ x ∈ pc.locks, x < m.next → (m.node x).isLeaf = false → Keeps m m' x) :
    PcOk m' pc := by
  cases pc with
  | start c => exact h
  | find c f => exact FoundOk.later h hl
  | insertLock c f => exact InsertOk.later h hl
  | insertRemoved c f => exact InsertOk.later h hl
  | insertPtr c f =>
      obtain ⟨h, hp⟩ := h
      have hkp := hk f.p (by simp [PC.locks]) h.p.lt h.p.internal
      exact ⟨h.later hl, hkp.live hp⟩
  | insertStore c f =>
      obtain ⟨h, hp, hc⟩ := h
      have hkp := hk f.p (by simp [PC.locks]) h.p.lt h.p.internal
      exact ⟨h.later hl, hkp.live hp, by rw [hkp.child, hc]⟩
  | removeLockGp c f => exact RemoveOk.later h hl
  | removeLockP c f => exact ⟨h.1.later hl, h.2⟩
  | removeRemoved c f => exact ⟨h.1.later hl, h.2⟩
  | removePtr c f =>
      have hkg := hk f.gp (by simp [PC.locks]) h.gp_lt h.gp_internal
      exact GpOk.later h hl hkg
  | removeRemaining c f =>
      obtain ⟨h, hg⟩ := h
      have hkg := hk f.gp (by simp [PC.locks]) h.gp_lt h.gp_internal
      exact ⟨h.later hl hkg, by rw [hkg.child, hg]⟩
  | removeTarget c f s =>
      obtain ⟨h, hg, hs⟩ := h
      have hkg := hk f.gp (by simp [PC.locks]) h.gp_lt h.gp_internal
      have hkp := hk f.p (by simp [PC.locks]) h.p.lt h.p.internal
      exact ⟨h.later hl hkg, by rw [hkg.child, hg], by rw [hkp.child, hs]⟩
  | removeMark c f s =>
      have hkg := hk f.gp (by simp [PC.locks]) h.gp_lt h.gp_internal
      have hkp := hk f.p (by simp [PC.locks]) h.p.lt h.p.internal
      exact SpliceOk.later h hl hkg hkp
  | removeStore c f s =>
      obtain ⟨h, hr⟩ := h
      have hkg := hk f.gp (by simp [PC.locks]) h.gp_lt h.gp_internal
      have hkp := hk f.p (by simp [PC.locks]) h.p.lt h.p.internal
      exact ⟨h.later hl hkg hkp, hl.removed _ h.p.lt hr⟩
  | unlock c locks k =>
      cases k with
      | retry => exact h
      | propagate => trivial
  | _ => trivial

/-- **What one step does to the memory.** -/
inductive ExecKind (m : Mem) (pc : PC) (m' : Mem) : Prop
  | same (h : SameTree m m') (hrem : ∀ x, (m'.node x).removed = (m.node x).removed)
  | mark {c : Call} {f : Found} {s : ℕ} (hpc : pc = .removeMark c f s) (hm : m' = m.setRemoved f.p)
  | graft {c : Call} {f : Found} {key val : ℤ} (hpc : pc = .insertStore c f)
      (hop : c.op = .insert key val) (hm : m' = insertStore m key val f)
  | splice {c : Call} {f : Found} {s : ℕ} (hpc : pc = .removeStore c f s)
      (hm : m' = m.setChild f.gp f.gpDir s)

theorem ExecKind.rfl' (h : m' = m) : ExecKind m pc m' := by
  subst h
  exact .same (.refl _) fun _ => rfl

/-- One node is changed, but neither its key nor its pointers. -/
theorem ExecKind.of_update {n : Node} (hnode : m'.node = Function.update m.node x n)
    (hnext : m'.next = m.next) (hk : n.key = (m.node x).key) (hl : n.isLeaf = (m.node x).isLeaf)
    (hc : n.child = (m.node x).child) (hr : n.removed = (m.node x).removed) :
    ExecKind m pc m' := by
  have hnode' : ∀ y, m'.node y = if y = x then n else m.node y := by
    intro y
    rw [hnode, Function.update_apply]
  have hrem : ∀ y, (m'.node y).removed = (m.node y).removed := by
    intro y
    rw [hnode']
    split_ifs with h
    · rw [hr, h]
    · rfl
  refine .same ⟨hnext, fun y => ?_, fun y => ?_, fun y => ?_, fun y hy => ?_⟩ hrem
  · rw [hnode']
    split_ifs with h
    · rw [hk, h]
    · rfl
  · rw [hnode']
    split_ifs with h
    · rw [hl, h]
    · rfl
  · rw [hnode']
    split_ifs with h
    · rw [hc, h]
    · rfl
  · rw [hrem, hy]

theorem exec_kind (m : Mem) (pc : PC) : ExecKind m pc (exec m pc).1 := by
  cases pc with
  | idle | ret | crash => exact .rfl' rfl
  | start c | removeRemaining c f => exact .rfl' rfl
  | find c f =>
      simp only [exec, execUpdate]
      split_ifs <;> exact .rfl' rfl
  | insertLock c f =>
      simp only [exec, execUpdate]
      split_ifs
      · exact .rfl' rfl
      · exact .of_update rfl rfl rfl rfl rfl rfl
  | insertRemoved c f | insertPtr c f | removeRemoved c f | removePtr c f | removeTarget c f s =>
      simp only [exec, execUpdate]
      split_ifs <;> exact .rfl' rfl
  | insertStore c f =>
      simp only [exec, execUpdate]
      cases hop : c.op with
      | insert key val => exact .graft rfl hop rfl
      | remove key => exact .rfl' rfl
  | removeLockGp c f =>
      simp only [exec, execUpdate]
      split_ifs
      · exact .rfl' rfl
      · exact .rfl' rfl
      · exact .of_update rfl rfl rfl rfl rfl rfl
  | removeLockP c f =>
      simp only [exec, execUpdate]
      split_ifs
      · exact .rfl' rfl
      · exact .of_update rfl rfl rfl rfl rfl rfl
  | removeMark c f s => exact .mark rfl rfl
  | removeStore c f s => exact .splice rfl rfl
  | unlock c locks k =>
      cases locks with
      | nil => cases k <;> exact .rfl' rfl
      | cons x locks => exact .of_update rfl rfl rfl rfl rfl rfl
  | propNext stk r ps => cases stk <;> exact .rfl' rfl
  | loadExisted | loadChild | loadVersion => exact .rfl' rfl
  | checkChild R d child v =>
      simp only [exec, execPropagate]
      split_ifs <;> exact .rfl' rfl
  | cas R right =>
      simp only [exec, execPropagate, execCas]
      split_ifs
      · exact .of_update rfl rfl rfl rfl rfl rfl
      · exact .rfl' rfl
      · exact .rfl' rfl
  | propagate | subscribe | setDone =>
      exact .same ⟨rfl, fun _ => rfl, fun _ => rfl, fun _ => rfl, fun _ => id⟩ fun _ => rfl
  | subscribed r ps | wait r ps sub =>
      simp only [exec, execPropagate]
      split_ifs <;> exact .rfl' rfl

/-! ### The store of `insert` -/

section InsertStore

variable {key val : ℤ} {f : Found}

theorem insertStore_of_lt {y : ℕ} (hy : y < m.next) (hp : y ≠ f.p) :
    (insertStore m key val f).node y = m.node y := by
  have h0 : y ≠ m.next := by omega
  have h1 : y ≠ m.next + 1 := by omega
  have h2 : y ≠ m.next + 2 := by omega
  simp [insertStore, Mem.setChild, Mem.setNode, Function.update_of_ne, hp, h0, h1, h2]

theorem insertStore_p (hp : f.p < m.next) :
    (insertStore m key val f).node f.p =
      { m.node f.p with child := Function.update (m.node f.p).child f.pDir (m.next + 2) } := by
  have h0 : f.p ≠ m.next := by omega
  have h1 : f.p ≠ m.next + 1 := by omega
  have h2 : f.p ≠ m.next + 2 := by omega
  simp [insertStore, Mem.setChild, Mem.setNode, Function.update_of_ne, h0, h1, h2]

/-- The addresses of the new leaves, in the order of their keys. -/
def newLeaves (m : Mem) (key : ℤ) (f : Found) : ℕ × ℕ :=
  if key < (m.node f.l).key then (m.next, m.next + 1) else (m.next + 1, m.next)

theorem insertStore_new (hp : f.p < m.next) :
    let n := (insertStore m key val f).node
    (n m.next = leafNode m.nextVer key val ∧
      n (m.next + 1) = leafNode (m.nextVer + 1) (m.node f.l).key (m.node f.l).version.sum) ∧
    (n (m.next + 2)).isLeaf = false ∧ (n (m.next + 2)).removed = false ∧
    (n (m.next + 2)).key = max key (m.node f.l).key ∧
    (n (m.next + 2)).child false = (newLeaves m key f).1 ∧
    (n (m.next + 2)).child true = (newLeaves m key f).2 := by
  have h0 : m.next ≠ f.p := by omega
  have h1 : m.next + 1 ≠ f.p := by omega
  have h2 : m.next + 2 ≠ f.p := by omega
  have hl : m.next ≠ m.next + 2 := by omega
  simp only [insertStore, Mem.setChild, Mem.setNode, Function.update_of_ne h0,
    Function.update_of_ne h1, Function.update_of_ne h2, Function.update_self]
  refine ⟨⟨?_, ?_⟩, ?_⟩
  · simp
  · simp
  · by_cases hk : key < (m.node f.l).key
    · simp [hk, internalNode, newLeaves, hk.le]
    · simp [hk, internalNode, newLeaves, not_lt.mp hk]

/-- **The store of `insert` is a graft.** -/
theorem insertStore_graft {c : Call} (hop : c.op = .insert key val) (h : InsertOk m c f)
    (hc : (m.node f.p).child f.pDir = f.l) :
    Graft m.linked (insertStore m key val f).linked m.next f.p f.pDir f.l (m.next + 2)
      (newLeaves m key f).1 (newLeaves m key f).2 key := by
  have hp := h.p.lt
  have hne : (m.node f.l).key ≠ key := by
    have := h.ne
    rwa [hop, Op.key] at this
  obtain ⟨⟨hx, hy⟩, htl, -, htk, htc, htc'⟩ := @insertStore_new m key val f hp
  have hpi : ((insertStore m key val f).node f.p).isLeaf = false := by
    rw [insertStore_p hp]
    exact h.p.internal
  have hsame : ∀ y < m.next, y ≠ f.p →
      (insertStore m key val f).linked.kids y = m.linked.kids y := by
    intro y hy hyp
    simp only [Mem.linked, insertStore_of_lt hy hyp]
  have hkeys : ∀ y < m.next,
      (insertStore m key val f).linked.key y = m.linked.key y := by
    intro y hy
    by_cases hyp : y = f.p
    · subst hyp
      simp only [Mem.linked, insertStore_p hy]
    · simp only [Mem.linked, insertStore_of_lt hy hyp]
  have hxl := kids_of_leaf (m := insertStore m key val f) (x := m.next) (by rw [hx]; rfl)
  have hyl := kids_of_leaf (m := insertStore m key val f) (x := m.next + 1) (by rw [hy]; rfl)
  have hxk : (insertStore m key val f).linked.key m.next = key := by
    simp only [Mem.linked, hx, leafNode]
  have hyk : (insertStore m key val f).linked.key (m.next + 1) = m.linked.key f.l := by
    simp only [Mem.linked, hy, leafNode]
  have htop : (insertStore m key val f).linked.key (m.next + 2) =
      max key (m.linked.key f.l) := htk
  constructor
  case child => rw [kid_eq h.p.internal, hc]
  case leaf => exact kids_of_leaf h.leaf
  case swung =>
    rw [kid_eq hpi, insertStore_p hp]
    simp
  case other =>
    rw [kid_eq hpi, kid_eq h.p.internal, insertStore_p hp]
    simp
  case top => rw [kids_of_internal htl, htc, htc']
  case same => exact hsame
  case key => exact hkeys
  all_goals
    have hkl : m.linked.key f.l ≠ key := hne
    rcases lt_or_gt_of_ne hkl with hk | hk
  all_goals
    have hk' : (m.node f.l).key = m.linked.key f.l := rfl
    simp only [newLeaves, hk', hk, hk.not_gt, if_true, if_false, hxl, hyl, hxk, hyk, htop,
      max_eq_left_of_lt, max_eq_right_of_lt, List.nodup_cons, List.mem_cons, List.not_mem_nil]
  all_goals first | omega | grind

end InsertStore

/-! ### The store of `remove` -/

section RemoveStore

variable {c : Call} {f : Found} {s : ℕ}

theorem setChild_of_ne {y z : ℕ} {d : Bool} (h : y ≠ x) : (m.setChild x d z).node y = m.node y :=
  Function.update_of_ne h ..

theorem setChild_self {z : ℕ} {d : Bool} :
    (m.setChild x d z).node x =
      { m.node x with child := Function.update (m.node x).child d z } :=
  Function.update_self ..

theorem setChild_fields {z : ℕ} {d : Bool} (y : ℕ) :
    ((m.setChild x d z).node y).key = (m.node y).key ∧
      ((m.setChild x d z).node y).isLeaf = (m.node y).isLeaf ∧
      ((m.setChild x d z).node y).removed = (m.node y).removed := by
  by_cases h : y = x
  · subst h
    rw [setChild_self]
    exact ⟨rfl, rfl, rfl⟩
  · rw [setChild_of_ne h]
    exact ⟨rfl, rfl, rfl⟩

/-- **The store of `remove` is a splice.** -/
theorem removeStore_splice (h : SpliceOk m c f s) :
    Splice m.linked (m.setChild f.gp f.gpDir s).linked f.gp f.gpDir f.p f.pDir f.l s where
  child := by rw [kid_eq h.gp_internal, h.gp_child]
  leafAt := by rw [kid_eq h.p.internal, h.p_child]
  leaf := kids_of_leaf h.leaf
  sibling := by rw [kid_eq h.p.internal, h.remaining]
  swung := by
    rw [kid_eq ((setChild_fields f.gp).2.1.trans h.gp_internal), setChild_self]
    simp
  other := by
    rw [kid_eq ((setChild_fields f.gp).2.1.trans h.gp_internal), kid_eq h.gp_internal,
      setChild_self]
    simp
  same := by
    intro x hx
    simp only [Mem.linked, setChild_of_ne hx]
  key := funext fun x => (setChild_fields x).1

end RemoveStore

/-! ### One step -/

section OneStep

variable {t : LTree ℕ}

/-- The memory after a step, and what it leaves to the other threads. -/
structure StepOk (m m' : Mem) (locks : List ℕ) : Prop where
  base : ∃ t, Base m' t
  later : Later m m'
  keeps : ∀ x < m.next, (m.node x).isLeaf = false → x ∉ locks → Keeps m m' x

theorem Base.of_same (hB : Base m t) (h : SameTree m m')
    (hrem : ∀ x, (m'.node x).removed = false → (m.node x).removed = false) :
    Base m' t where
  tree := h.linked ▸ hB.tree
  closed := by rw [h.linked, h.next]; exact hB.closed
  root_lt := h.next ▸ hB.root_lt
  root_key := (h.key root).trans hB.root_key
  root_internal := (h.leaf root).trans hB.root_internal
  present := by
    intro x hx hl hr
    rw [h.linked]
    exact hB.present x (h.next ▸ hx) ((h.leaf x).symm.trans hl) (hrem x hr)

theorem setRemoved_node (m : Mem) (p y : ℕ) : (m.setRemoved p).node y =
    if y = p then { m.node p with removed := true } else m.node y :=
  Function.update_apply ..

theorem SameTree.setRemoved (m : Mem) (p : ℕ) : SameTree m (m.setRemoved p) := by
  refine ⟨rfl, fun y => ?_, fun y => ?_, fun y => ?_, fun y hy => ?_⟩ <;>
    rw [setRemoved_node] <;> split_ifs with h
  · rw [h]
  · rfl
  · rw [h]
  · rfl
  · rw [h]
  · rfl
  · rfl
  · exact hy

theorem Base.mark (hB : Base m t) (p : ℕ) (locks : List ℕ) : StepOk m (m.setRemoved p) locks := by
  have hs := SameTree.setRemoved m p
  refine ⟨⟨t, hB.of_same hs fun y hy => ?_⟩, hs.later, fun x _ _ _ => hs.keeps x⟩
  rw [setRemoved_node] at hy
  split_ifs at hy
  exact hy

/-- **An insertion replaces a leaf** of the tree by the new internal node. -/
theorem Base.graft_repl (hB : Base m t) {c : Call} {f : Found} {key val : ℤ} (h : InsertOk m c f)
    (hop : c.op = .insert key val) (hp : m.linked.Live root f.p)
    (hc : (m.node f.p).child f.pDir = f.l) :
    ∃ t', (insertStore m key val f).linked.Tree root t' ∧ LTree.Repl (.leaf f.l)
      (.node (m.next + 2) (.leaf (newLeaves m key f).1) (.leaf (newLeaves m key f).2)) t t' := by
  have hroute : m.linked.Route c.op.key root f.l := by
    have hrp : m.linked.Route c.op.key root f.p := h.p.sees f.p .refl hp
    have he : m.linked.KEdge c.op.key f.p f.l := by
      rw [KEdge, ← h.pDir, kid_eq h.p.internal, hc]
    exact hrp.tail he
  rw [hop] at hroute
  exact (insertStore_graft hop h hc).tree hB.tree hB.labels_lt hp hroute

theorem Base.graft (hB : Base m t) {c : Call} {f : Found} {key val : ℤ} (h : InsertOk m c f)
    (hop : c.op = .insert key val) (hp : m.linked.Live root f.p)
    (hc : (m.node f.p).child f.pDir = f.l) :
    StepOk m (insertStore m key val f) [f.p] := by
  have hg := insertStore_graft hop h hc
  have hplt := h.p.lt
  obtain ⟨t', hT', hrepl⟩ := hB.graft_repl h hop hp hc
  have hlive := fun x => @Graft.live_iff _ _ _ _ x _ _ _ _ _ _ _ _ _ _ hg _ hB.tree hT' hrepl
    hB.labels_lt
  have hfields : ∀ x < m.next, ((insertStore m key val f).node x).key = (m.node x).key ∧
      ((insertStore m key val f).node x).isLeaf = (m.node x).isLeaf ∧
      ((insertStore m key val f).node x).removed = (m.node x).removed := by
    intro x hx
    by_cases hxp : x = f.p
    · subst hxp
      rw [insertStore_p hx]
      exact ⟨rfl, rfl, rfl⟩
    · rw [insertStore_of_lt hx hxp]
      exact ⟨rfl, rfl, rfl⟩
  have hnext : (insertStore m key val f).next = m.next + 3 := rfl
  have hnews : (newLeaves m key f).1 = m.next ∧ (newLeaves m key f).2 = m.next + 1 ∨
      (newLeaves m key f).1 = m.next + 1 ∧ (newLeaves m key f).2 = m.next := by
    unfold newLeaves
    split_ifs <;> simp
  have hall : ∀ x ∈ [m.next + 2, (newLeaves m key f).1, (newLeaves m key f).2], x < m.next + 3 := by
    simp only [List.mem_cons, List.not_mem_nil, or_false]
    omega
  have hcases : ∀ x < m.next + 3,
      x < m.next ∨ x ∈ [m.next + 2, (newLeaves m key f).1, (newLeaves m key f).2] := by
    simp only [List.mem_cons, List.not_mem_nil, or_false]
    omega
  have hstay : ∀ x, (m.node x).isLeaf = false → m.linked.Live root x →
      (insertStore m key val f).linked.Live root x := by
    intro x hxi hx
    refine (hlive x).mpr (.inl ⟨hx, ?_⟩)
    rintro rfl
    rw [h.leaf] at hxi
    cases hxi
  refine ⟨⟨t', hT', ?_, ?_, ?_, ?_, ?_⟩, ⟨?_, ?_, ?_, ?_, ?_⟩, ?_⟩
  · refine hg.closed hB.closed hplt (fun x hx => hnext ▸ hall x hx) fun x hx => ?_
    rw [hnext] at hx
    exact hcases x hx
  · rw [hnext]
    exact hB.root_lt.trans_le (by omega)
  · exact (hfields root hB.root_lt).1.trans hB.root_key
  · exact (hfields root hB.root_lt).2.1.trans hB.root_internal
  · intro x hx hxl hxr
    rw [hnext] at hx
    rcases hcases x hx with hxn | hnew
    · obtain ⟨-, hl, hr⟩ := hfields x hxn
      rw [hl] at hxl
      exact hstay x hxl (hB.present x hxn hxl (hr.symm.trans hxr))
    · exact (hlive x).mpr (.inr hnew)
  · rw [hnext]
    omega
  · exact fun x hx => (hfields x hx).1
  · exact fun x hx => (hfields x hx).2.1
  · exact fun x hx hr => (hfields x hx).2.2.trans hr
  · exact fun q x hx hs => hg.sees hB.tree hT' hrepl hB.closed hB.root_lt hp hx hs
  · intro x hx hxi hxp
    rw [List.mem_singleton] at hxp
    exact ⟨hstay x hxi, by rw [insertStore_of_lt hx hxp]⟩

theorem Base.splice (hB : Base m t) {c : Call} {f : Found} {s : ℕ} (h : SpliceOk m c f s)
    (hr : (m.node f.p).removed = true) :
    StepOk m (m.setChild f.gp f.gpDir s) [f.gp, f.p] := by
  have hs := removeStore_splice h
  obtain ⟨t', tp, ts, hT', hrepl, htp, hpg⟩ := hs.tree hB.tree h.gp_live
  have hlive := fun x => @Splice.live_iff _ _ _ _ x _ _ _ _ _ _ _ hB.tree hT' hrepl htp
  have hfields := fun x => @setChild_fields m f.gp s f.gpDir x
  have hstay : ∀ x, (m.node x).isLeaf = false → m.linked.Live root x → x ≠ f.p →
      (m.setChild f.gp f.gpDir s).linked.Live root x := by
    intro x hxi hx hxp
    refine (hlive x).mpr ⟨hx, hxp, ?_⟩
    rintro rfl
    rw [h.leaf] at hxi
    cases hxi
  refine ⟨⟨t', hT', hs.closed hB.closed h.gp_lt, hB.root_lt, ?_, ?_, ?_⟩,
    ⟨le_rfl, ?_, ?_, ?_, ?_⟩, ?_⟩
  · exact (hfields root).1.trans hB.root_key
  · exact (hfields root).2.1.trans hB.root_internal
  · intro x hx hxl hxr
    rw [(hfields x).2.1] at hxl
    rw [(hfields x).2.2] at hxr
    refine hstay x hxl (hB.present x hx hxl hxr) ?_
    rintro rfl
    rw [hr] at hxr
    cases hxr
  · exact fun x _ => (hfields x).1
  · exact fun x _ => (hfields x).2.1
  · exact fun x _ hr => (hfields x).2.2.trans hr
  · exact fun q x hx hsee =>
      hs.sees hB.tree hT' hrepl htp hpg hB.closed h.gp_live hx hsee
  · intro x hx hxi hxl
    simp only [List.mem_cons, List.not_mem_nil, or_false, not_or] at hxl
    exact ⟨fun hxlive => hstay x hxi hxlive hxl.2, by rw [setChild_of_ne hxl.1]⟩

/-- **One step** keeps the tree, and what the other threads know under their locks. -/
theorem Base.step (hB : Base m t) (h : PcOk m pc) : StepOk m (exec m pc).1 pc.locks := by
  cases exec_kind m pc with
  | same hs hrem =>
      exact ⟨⟨t, hB.of_same hs fun x hx => (hrem x).symm.trans hx⟩, hs.later,
        fun x _ _ _ => hs.keeps x⟩
  | mark hpc hm => exact hm ▸ hB.mark _ _
  | graft hpc hop hm =>
      subst hpc
      obtain ⟨h, hp, hc⟩ := h
      exact hm ▸ hB.graft h hop hp hc
  | splice hpc hm =>
      subst hpc
      obtain ⟨h, hr⟩ := h
      exact hm ▸ hB.splice h hr

/-! ### The thread that makes the step -/

theorem Base.kid_lt (hB : Base m t) (hx : x < m.next) (hi : (m.node x).isLeaf = false) (d : Bool) :
    (m.node x).child d < m.next :=
  hB.closed x _ hx ⟨d, kid_eq hi d⟩

theorem Base.visited_root (hB : Base m t) : Visited m q root :=
  ⟨hB.root_lt, hB.root_internal, Route.sees .refl⟩

/-- A search goes on from a node that it has met. -/
theorem Base.goes (hB : Base m t) (hq : q < maxKey) {p gp : ℕ} {gpDir : Bool} {stk : List ℕ}
    (hp : Visited m q p) (hgp : gp = 0 ∨ (gp < m.next ∧ (m.node gp).isLeaf = false)) :
    FoundOk m q ⟨gp, gpDir, p, m.linked.dir q p, (m.node p).child (m.linked.dir q p), stk⟩ where
  bound := hq
  p := hp
  pDir := rfl
  l_lt := hB.kid_lt hp.lt hp.internal _
  l_sees := hp.sees.kedge (kid_eq hp.internal _)
  gp := hgp

/-- The step that takes a lock changes nothing that a thread knows. -/
theorem SameTree.setMtx (m : Mem) (x : ℕ) (b : Bool) : SameTree m (m.setMtx x b) := by
  have hnode : ∀ y, (m.setMtx x b).node y =
      if y = x then { m.node x with mtx := b } else m.node y := by
    intro y
    exact Function.update_apply ..
  refine ⟨rfl, fun y => ?_, fun y => ?_, fun y => ?_, fun y hy => ?_⟩ <;> rw [hnode] <;>
    split_ifs with h
  · rw [h]
  · rfl
  · rw [h]
  · rfl
  · rw [h]
  · rfl
  · rw [← h]
    exact hy
  · exact hy

/-- **What a search has found** when it has come to a leaf. -/
theorem FoundOk.found {c : Call} {f : Found} (h : FoundOk m c.op.key f)
    (hl : (m.node f.l).isLeaf = true) : PcOk m (found m c f) := by
  obtain ⟨op, prev⟩ := c
  unfold SubEric.found
  cases op with
  | insert key val =>
      by_cases hk : (m.node f.l).key = key
      · simp only [if_pos hk]
        trivial
      · simp only [if_neg hk]
        exact ⟨⟨h, hl⟩, ⟨val, rfl⟩, hk⟩
  | remove key =>
      by_cases hk : (m.node f.l).key = key
      · simp only [ne_eq, hk, not_true_eq_false, if_false]
        split_ifs
        · trivial
        · exact ⟨⟨h, hl⟩, hk⟩
      · simp only [ne_eq, hk, not_false_eq_true, if_true]
        trivial

/-- **What the thread knows after its own step.** -/
theorem Base.own (hB : Base m t) (h : PcOk m pc) : PcOk (exec m pc).1 (exec m pc).2 := by
  cases pc with
  | start c =>
      have hdir : m.linked.dir c.op.key root = false := by
        have hk : m.linked.key root = maxKey := hB.root_key
        rw [dir, hk, decide_eq_false_iff_not, not_le]
        exact h
      have hgo := @Base.goes m c.op.key t hB h root 0 true [root] hB.visited_root (.inl rfl)
      rw [hdir] at hgo
      exact hgo
  | find c f =>
      have hf : FoundOk m c.op.key f := h
      simp only [exec, execUpdate]
      by_cases hl : (m.node f.l).isLeaf = true
      · rw [if_pos hl]
        exact hf.found hl
      · rw [if_neg hl]
        have hl' : (m.node f.l).isLeaf = false := by simpa using hl
        exact hB.goes hf.bound ⟨hf.l_lt, hl', hf.l_sees⟩ (.inr ⟨hf.p.lt, hf.p.internal⟩)
  | insertLock c f =>
      have hf : InsertOk m c f := h
      simp only [exec, execUpdate]
      split_ifs
      · exact hf.bound
      · exact hf.later (SameTree.setMtx ..).later
  | insertRemoved c f =>
      have hf : InsertOk m c f := h
      simp only [exec, execUpdate]
      split_ifs with hr
      · exact hf.bound
      · exact ⟨hf, hB.present f.p hf.p.lt hf.p.internal (by simpa using hr)⟩
  | insertPtr c f =>
      obtain ⟨hf, hp⟩ := h
      simp only [exec, execUpdate]
      split_ifs with hc
      · exact hf.bound
      · exact ⟨hf, hp, not_not.mp hc⟩
  | insertStore c f =>
      simp only [exec, execUpdate]
      cases c.op <;> trivial
  | removeLockGp c f =>
      have hf : RemoveOk m c f := h
      simp only [exec, execUpdate]
      split_ifs with h0
      · trivial
      · exact hf.bound
      · exact ⟨hf.later (SameTree.setMtx ..).later, h0⟩
  | removeLockP c f =>
      obtain ⟨hf, h0⟩ := h
      simp only [exec, execUpdate]
      split_ifs
      · exact hf.bound
      · exact ⟨hf.later (SameTree.setMtx ..).later, h0⟩
  | removeRemoved c f =>
      obtain ⟨hf, h0⟩ := h
      obtain ⟨hg, hgi⟩ := hf.gp.resolve_left h0
      simp only [exec, execUpdate]
      split_ifs with hr
      · exact hf.bound
      · exact ⟨hf, hg, hgi, hB.present f.gp hg hgi (by simpa using hr)⟩
  | removePtr c f =>
      have hf : GpOk m c f := h
      simp only [exec, execUpdate]
      split_ifs with hc
      · exact hf.bound
      · exact ⟨hf, not_not.mp hc⟩
  | removeRemaining c f => exact ⟨h.1, h.2, rfl⟩
  | removeTarget c f s =>
      obtain ⟨hf, hg, hs⟩ := h
      simp only [exec, execUpdate]
      split_ifs with hc
      · exact hf.bound
      · exact ⟨hf, hg, not_not.mp hc, hs⟩
  | removeMark c f s =>
      have hf : SpliceOk m c f s := h
      have hS := hB.mark f.p []
      refine ⟨hf.later hS.later (hS.keeps _ hf.gp_lt hf.gp_internal (by simp))
        (hS.keeps _ hf.p.lt hf.p.internal (by simp)), ?_⟩
      simp [exec, execUpdate, Mem.setRemoved, Mem.setNode]
  | removeStore c f s => trivial
  | unlock c locks k =>
      cases locks with
      | nil =>
          cases k with
          | retry => exact h
          | propagate => trivial
      | cons x locks =>
          cases k with
          | retry => exact h
          | propagate => trivial
  | propNext stk r ps => cases stk <;> trivial
  | checkChild R d child v =>
      simp only [exec, execPropagate]
      split_ifs <;> trivial
  | cas R right =>
      simp only [exec, execPropagate, execCas]
      split_ifs <;> trivial
  | subscribed r ps | wait r ps sub =>
      simp only [exec, execPropagate]
      split_ifs <;> trivial
  | idle | ret | crash | propagate | loadExisted | loadChild | loadVersion | subscribe | setDone =>
      trivial

end OneStep

/-! ### The locks -/

/-- What a step does to the locks: nothing, or it takes a lock that is free, or it releases one. -/
inductive LockStep (m : Mem) (pc : PC) (m' : Mem) (pc' : PC) : Prop
  | same (hl : pc'.locks = pc.locks) (hm : ∀ x < m.next, (m'.node x).mtx = (m.node x).mtx)
  | take {x : ℕ} (hx : x < m.next) (hfree : (m.node x).mtx = false)
      (hl : pc'.locks = pc.locks ++ [x])
      (hm : ∀ y, (m'.node y).mtx = if y = x then true else (m.node y).mtx)
  | release {x : ℕ} (hl : pc.locks = x :: pc'.locks)
      (hm : ∀ y, (m'.node y).mtx = if y = x then false else (m.node y).mtx)

theorem LockStep.rfl' (hl : pc'.locks = pc.locks) : LockStep m pc m pc' := .same hl fun _ _ => rfl

theorem setMtx_mtx (m : Mem) (x y : ℕ) (b : Bool) :
    ((m.setMtx x b).node y).mtx = if y = x then b else (m.node y).mtx := by
  simp only [Mem.setMtx, Mem.setNode, Function.update_apply]
  split_ifs <;> rfl

theorem LockStep.taken (hx : x < m.next) (hfree : ¬(m.node x).mtx = true)
    (hl : pc'.locks = pc.locks ++ [x]) : LockStep m pc (m.setMtx x true) pc' :=
  .take hx (by simpa using hfree) hl fun y => setMtx_mtx m x y true

theorem setVersion_mtx (m : Mem) (x y : ℕ) (v : VersionInfo) (ps : ℕ) :
    ((m.setVersion x v ps).node y).mtx = (m.node y).mtx := by
  by_cases h : y = x <;> simp [Mem.setVersion, Mem.setNode, h]

theorem lock_step (h : PcOk m pc) : LockStep m pc (exec m pc).1 (exec m pc).2 := by
  cases pc with
  | find c f =>
      simp only [exec, execUpdate]
      split_ifs
      · refine .rfl' ?_
        unfold found
        cases c.op with
        | insert key val =>
            dsimp only
            split_ifs <;> rfl
        | remove key =>
            dsimp only
            split_ifs <;> rfl
      · exact .rfl' rfl
  | insertLock c f =>
      have hf : InsertOk m c f := h
      simp only [exec, execUpdate]
      split_ifs with hm
      · exact .rfl' rfl
      · exact .taken hf.p.lt hm rfl
  | insertRemoved c f | insertPtr c f | removeRemoved c f | removePtr c f | removeTarget c f s =>
      simp only [exec, execUpdate]
      split_ifs <;> exact .rfl' rfl
  | insertStore c f =>
      obtain ⟨hf, -, -⟩ := h
      simp only [exec, execUpdate]
      cases hop : c.op with
      | insert key val =>
          refine .same rfl fun x hx => ?_
          by_cases hxp : x = f.p
          · subst hxp
            rw [insertStore_p hx]
          · rw [insertStore_of_lt hx hxp]
      | remove key =>
          obtain ⟨v, hv⟩ := hf.op
          rw [hop] at hv
          cases hv
  | removeLockGp c f =>
      have hf : RemoveOk m c f := h
      simp only [exec, execUpdate]
      split_ifs with h0 hm
      · exact .rfl' rfl
      · exact .rfl' rfl
      · exact .taken (hf.gp.resolve_left h0).1 hm rfl
  | removeLockP c f =>
      obtain ⟨hf, -⟩ := h
      simp only [exec, execUpdate]
      split_ifs with hm
      · exact .rfl' rfl
      · exact .taken hf.p.lt hm rfl
  | removeMark c f s =>
      refine .same rfl fun x _ => ?_
      by_cases hx : x = f.p <;>
        simp [exec, execUpdate, Mem.setRemoved, Mem.setNode, hx]
  | removeStore c f s =>
      refine .same rfl fun x _ => ?_
      by_cases hx : x = f.gp <;>
        simp [exec, execUpdate, Mem.setChild, Mem.setNode, hx]
  | unlock c locks k =>
      cases locks with
      | nil => cases k <;> exact .rfl' rfl
      | cons x locks => exact .release rfl fun y => setMtx_mtx m x y false
  | propNext stk r ps => cases stk <;> exact .rfl' rfl
  | checkChild R d child v =>
      simp only [exec, execPropagate]
      split_ifs <;> exact .rfl' rfl
  | cas R right =>
      simp only [exec, execPropagate, execCas]
      split_ifs
      · exact .same rfl fun x _ => setVersion_mtx ..
      · exact .rfl' rfl
      · exact .rfl' rfl
  | subscribed r ps | wait r ps sub =>
      simp only [exec, execPropagate]
      split_ifs <;> exact .rfl' rfl
  | propagate | subscribe | setDone => exact .same rfl fun _ _ => rfl
  | start | removeRemaining | idle | ret | crash | loadExisted | loadChild | loadVersion =>
      exact .rfl' rfl

abbrev State := Machine.State Mem PC

/-- **A lock has one holder**, and it is taken as long as it has one. -/
structure LockInv (s : State) : Prop where
  held : ∀ i, ∀ x ∈ (s.pc i).locks, x < s.mem.next ∧ (s.mem.node x).mtx = true
  nodup : ∀ i, (s.pc i).locks.Nodup
  disjoint : ∀ i j, i ≠ j → ∀ x ∈ (s.pc i).locks, x ∉ (s.pc j).locks

theorem LockInv.step {s : State} {i : ℕ} (h : LockInv s) (hn : s.mem.next ≤ m'.next)
    (hs : LockStep s.mem (s.pc i) m' pc') : LockInv (s.set m' i pc') := by
  -- in all three cases: what the thread holds afterwards is its own, and the others keep theirs
  have hmain : (∀ x ∈ pc'.locks, x < m'.next ∧ (m'.node x).mtx = true) → pc'.locks.Nodup →
      (∀ j, j ≠ i → ∀ x ∈ (s.pc j).locks, (m'.node x).mtx = true ∧ x ∉ pc'.locks) →
      LockInv (s.set m' i pc') := by
    intro hown hnd hothers
    constructor
    case held =>
      intro j x hx
      by_cases hj : j = i
      · subst hj
        rw [Machine.State.set_pc_self] at hx
        exact hown x hx
      · rw [Machine.State.set_pc_of_ne _ _ _ hj] at hx
        exact ⟨(h.held j x hx).1.trans_le hn, (hothers j hj x hx).1⟩
    case nodup =>
      intro j
      by_cases hj : j = i
      · subst hj
        rwa [Machine.State.set_pc_self]
      · rw [Machine.State.set_pc_of_ne _ _ _ hj]
        exact h.nodup j
    case disjoint =>
      intro j k hjk x hx
      by_cases hj : j = i
      · subst hj
        rw [Machine.State.set_pc_self] at hx
        rw [Machine.State.set_pc_of_ne _ _ _ hjk.symm]
        exact fun hk => (hothers k hjk.symm x hk).2 hx
      · rw [Machine.State.set_pc_of_ne _ _ _ hj] at hx
        by_cases hk : k = i
        · subst hk
          rw [Machine.State.set_pc_self]
          exact (hothers j hj x hx).2
        · rw [Machine.State.set_pc_of_ne _ _ _ hk]
          exact h.disjoint j k hjk x hx
  cases hs with
  | same hl hm =>
      rw [hl] at hmain
      refine hmain (fun x hx => ?_) (h.nodup i) fun j hj x hx => ?_
      · obtain ⟨hlt, hmx⟩ := h.held i x hx
        exact ⟨hlt.trans_le hn, (hm x hlt).trans hmx⟩
      · obtain ⟨hlt, hmx⟩ := h.held j x hx
        exact ⟨(hm x hlt).trans hmx, h.disjoint j i hj x hx⟩
  | @take x hx hfree hl hm =>
      -- the lock was free, so nobody holds it
      have hnew : ∀ j, x ∉ (s.pc j).locks := by
        intro j hj
        have hmx := (h.held j x hj).2
        rw [hfree] at hmx
        cases hmx
      rw [hl] at hmain
      refine hmain (fun y hy => ?_) ?_ fun j hj y hy => ?_
      · rw [hm]
        rcases List.mem_append.mp hy with hy | hy
        · obtain ⟨hlt, hmy⟩ := h.held i y hy
          exact ⟨hlt.trans_le hn, by rw [hmy, ite_self]⟩
        · obtain rfl := List.mem_singleton.mp hy
          exact ⟨hx.trans_le hn, if_pos rfl⟩
      · refine List.nodup_append.mpr ⟨h.nodup i, List.nodup_singleton x, fun y hy z hz => ?_⟩
        obtain rfl := List.mem_singleton.mp hz
        rintro rfl
        exact hnew i hy
      · refine ⟨by rw [hm, (h.held j y hy).2, ite_self], fun hy' => ?_⟩
        rcases List.mem_append.mp hy' with hy' | hy'
        · exact h.disjoint j i hj y hy hy'
        · obtain rfl := List.mem_singleton.mp hy'
          exact hnew j hy
  | @release x hl hm =>
      have hnd := h.nodup i
      rw [hl, List.nodup_cons] at hnd
      refine hmain (fun y hy => ?_) hnd.2 fun j hj y hy => ?_
      · obtain ⟨hlt, hmy⟩ := h.held i y (hl ▸ List.mem_cons_of_mem _ hy)
        have hyx : y ≠ x := by
          rintro rfl
          exact hnd.1 hy
        exact ⟨hlt.trans_le hn, by rw [hm, if_neg hyx, hmy]⟩
      · have hdis := h.disjoint j i hj y hy
        rw [hl, List.mem_cons, not_or] at hdis
        exact ⟨by rw [hm, if_neg hdis.1, (h.held j y hy).2], hdis.2⟩


/-! ### The invariant -/

/-- **The invariant** of all reachable states. -/
structure Inv (s : State) : Prop where
  base : ∃ t, Base s.mem t
  pcs : ∀ i, PcOk s.mem (s.pc i)
  locks : LockInv s

theorem Inv.act {s : State} (h : Inv s) (i : ℕ) : Inv (machine.act s i) := by
  obtain ⟨t, hB⟩ := h.base
  have hS := hB.step (h.pcs i)
  refine ⟨hS.base, fun j => ?_, h.locks.step hS.later.next (lock_step (h.pcs i))⟩
  by_cases hj : j = i
  · subst hj
    rw [Machine.act, Machine.State.set_pc_self]
    exact hB.own (h.pcs j)
  · rw [Machine.act, Machine.State.set_pc_of_ne _ _ _ hj]
    refine (h.pcs j).later hS.later fun x hx hlt hi => ?_
    exact hS.keeps x hlt hi (h.locks.disjoint j i hj x hx)

theorem Op.proper.lt {op : Op} (h : op.proper = true) : op.key < maxKey := by
  cases op <;> simp_all [Op.proper, Op.key]

theorem locks_of_resting (h : pc.resting = true) : pc.locks = [] := by
  cases pc <;> first | rfl | cases h

theorem Inv.call {s : State} {i : ℕ} {op : Op} (h : Inv s) (hr : (s.pc i).resting = true)
    (hop : op.proper = true) : Inv (s.set s.mem i (.start ⟨op, 0⟩)) := by
  refine ⟨h.base, fun j => ?_, h.locks.step le_rfl (.rfl' (locks_of_resting hr).symm)⟩
  by_cases hj : j = i
  · subst hj
    rw [Machine.State.set_pc_self]
    exact Op.proper.lt hop
  · rw [Machine.State.set_pc_of_ne _ _ _ hj]
    exact h.pcs j

theorem Base.init : Base Mem.init (.node root (.leaf 2) (.leaf 3)) where
  tree :=
    { top := rfl
      rep := ⟨rfl, rfl, rfl⟩
      nodup := by decide
      ordered := ⟨⟨bot_le, WithTop.coe_lt_coe.mpr (by decide)⟩, le_rfl, WithTop.coe_lt_top _⟩ }
  closed := by
    rintro x y - ⟨d, hd⟩
    by_cases hx : x = root
    · subst hx
      cases d <;> cases hd <;> decide
    · have hleaf : Mem.init.linked.kids x = none := by
        refine kids_of_leaf ?_
        simp only [Mem.init, if_neg hx]
        split_ifs <;> rfl
      rw [kid_of_leaf hleaf] at hd
      cases hd
  root_lt := by decide
  root_key := rfl
  root_internal := rfl
  present := by
    intro x _ hl _
    by_cases hx : x = root
    · subst hx
      exact .refl
    · simp only [Mem.init, if_neg hx] at hl
      split_ifs at hl <;> cases hl

theorem Inv.init : Inv machine.init where
  base := ⟨_, Base.init⟩
  pcs _ := trivial
  locks := ⟨fun _ _ hx => (nomatch hx), fun _ => List.nodup_nil, fun _ _ _ _ hx => (nomatch hx)⟩

/-- **All reachable states satisfy the invariant.** -/
theorem reachable_inv {s : State} (h : machine.Reachable s) : Inv s := by
  refine Machine.Reachable.induct Inv.init ?_ h
  intro s i s' _ hI hs
  cases hs with
  | call op hrest hop => exact hI.call hrest hop
  | act => exact hI.act i

end Cbat.SubEric
