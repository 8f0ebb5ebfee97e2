/-
**The unbalanced tree, used by one thread.**

When only one thread calls `insert` and `remove`, the version tree below the root shows the tree
whenever no call is under way.  A change of a child pointer makes the versions of the nodes on the
search path out of date, and no others; `propagate` then brings them up to date, from the bottom to
the root, since no CAS of it is lost.  So the queries, which read the version tree, answer for the
keys and values that the calls have stored.

Main definitions:

* `Cbat.SubEric.Alone` — **the runs of one thread**, with the calls so far;
* `Cbat.SubEric.stored` — what the calls have stored;
* `Cbat.SubEric.Clean`, `Cbat.SubEric.CleanBut` — versions that are up to date;
* `Cbat.SubEric.PcAlone` — the invariant.

Main results:

* `Cbat.SubEric.PcAlone.step`, `Cbat.SubEric.Alone.pcAlone` — the invariant is kept;
* `Cbat.SubEric.queries_exact` — **`range_sum` and `lookup` are exact.**
-/

import Cbat.SubEric.Invariant
import Cbat.SubEric.Queries

set_option relaxedAutoImplicit false
set_option autoImplicit false

namespace Cbat.SubEric

open Linked

/-! ### Runs of one thread -/

/-- **The runs of thread `i`** on its own, with the calls that it has made so far. -/
inductive Alone (i : ℕ) : List Op → State → Prop
  | init : Alone i [] machine.init
  | call {ops : List Op} {s : State} (op : Op) (h : Alone i ops s)
      (hrest : (s.pc i).resting = true) (hop : op.proper = true) :
      Alone i (ops ++ [op]) (s.set s.mem i (.start ⟨op, 0⟩))
  | act {ops : List Op} {s : State} (h : Alone i ops s) : Alone i ops (machine.act s i)

theorem Alone.reachable {i : ℕ} {ops : List Op} {s : State} (h : Alone i ops s) :
    machine.Reachable s := by
  induction h with
  | init => exact .refl
  | call op h hrest hop ih => exact ih.step (.call op hrest hop)
  | act h ih => exact ih.step .act

/-- What a call does to the keys and values. -/
def Op.apply : Op → (ℤ → Option ℤ) → ℤ → Option ℤ
  | insert k v, f => if (f k).isSome then f else Function.update f k (some v)
  | remove k, f => Function.update f k none

/-- **The keys and values that the calls have stored.** -/
def stored (ops : List Op) : ℤ → Option ℤ := ops.foldl (fun f op => op.apply f) fun _ => none

theorem stored_concat (ops : List Op) (op : Op) : stored (ops ++ [op]) = op.apply (stored ops) := by
  simp [stored]

theorem Op.apply_insert_of_some {f : ℤ → Option ℤ} {k v w : ℤ} (h : f k = some w) :
    (Op.insert k v).apply f = f := by
  simp [Op.apply, h]

theorem Op.apply_insert_of_none {f : ℤ → Option ℤ} {k v : ℤ} (h : f k = none) :
    (Op.insert k v).apply f = Function.update f k (some v) := by
  simp [Op.apply, h]

theorem Op.apply_remove_of_none {f : ℤ → Option ℤ} {k : ℤ} (h : f k = none) :
    (Op.remove k).apply f = f := by
  rw [Op.apply, ← h, Function.update_eq_self]

theorem Op.proper.between {op : Op} (h : op.proper = true) :
    -maxKey < op.key ∧ op.key < maxKey := by
  cases op <;> simp_all [Op.proper, Op.key]

/-! ### Versions that are up to date -/

variable {m m' : Mem} {x : ℕ}

/-- **The version of the internal node `x` is up to date**: it is the one that
`make_updated_verion_info` makes of the versions of the children. -/
def Clean (m : Mem) (x : ℕ) : Prop :=
  ∃ id, (m.node x).version = makeUpdatedVersionInfo id (m.node x)
    (m.node ((m.node x).child false)).version (m.node ((m.node x).child true)).version

/-- The versions of the tree are up to date but for these nodes. -/
def CleanBut (m : Mem) (dirty : List ℕ) : Prop :=
  ∀ x, m.linked.Live root x → (m.node x).isLeaf = false → x ∉ dirty → Clean m x

/-- The versions of leaves are those of `LeafNode`. -/
def LeafVersions (m : Mem) : Prop :=
  ∀ x < m.next, (m.node x).isLeaf = true → ∃ id, (m.node x).version =
    .mk id (m.node x).key (m.node x).key (m.node x).key (m.node x).version.sum .nil .nil

theorem CleanBut.mono {dirty dirty' : List ℕ} (h : CleanBut m dirty) (hs : dirty ⊆ dirty') :
    CleanBut m dirty' :=
  fun x hx hi hd => h x hx hi fun hn => hd (hs hn)

theorem Clean.congr (h : Clean m x) (hn : (m'.node x).key = (m.node x).key)
    (hc : (m'.node x).child = (m.node x).child) (hv : (m'.node x).version = (m.node x).version)
    (hch : ∀ d, (m'.node ((m.node x).child d)).version = (m.node ((m.node x).child d)).version) :
    Clean m' x := by
  obtain ⟨id, he⟩ := h
  refine ⟨id, ?_⟩
  rw [hv, he, hc, hch, hch, makeUpdatedVersionInfo, makeUpdatedVersionInfo, hn]

/-- **A version tree that is up to date shows the tree.** -/
theorem shows_of_clean {t : LTree ℕ} (hclean : CleanBut m []) (hleaf : LeafVersions m)
    (hlt : ∀ x ∈ t.labels, x < m.next) (hrep : m.linked.Rep t)
    (hlive : ∀ x ∈ t.labels, m.linked.Live root x) :
    Shows m.linked.key (fun x => (m.node x).version.sum) t (m.node t.label).version := by
  induction t with
  | leaf a => exact hleaf a (hlt a (by simp)) (isLeaf_of_kids hrep)
  | node a l r ihl ihr =>
      obtain ⟨ha, hl, hr⟩ := hrep
      simp only [LTree.labels_node, List.mem_cons, List.mem_append, forall_eq_or_imp] at hlt hlive
      have hi : (m.node a).isLeaf = false := by
        by_contra hn
        rw [kids_of_leaf (by simpa using hn)] at ha
        cases ha
      rw [kids_of_internal hi, Option.some.injEq, Prod.mk.injEq] at ha
      obtain ⟨id, hv⟩ := hclean a hlive.1 hi (List.not_mem_nil)
      rw [ha.1, ha.2] at hv
      exact ⟨id, _, _, ihl (fun x hx => hlt.2 x (.inl hx)) hl fun x hx => hlive.2 x (.inl hx),
        ihr (fun x hx => hlt.2 x (.inr hx)) hr fun x hx => hlive.2 x (.inr hx), hv⟩

/-! ### The keys and values in the tree -/

/-- A leaf of the tree with this key and this value. -/
structure Entry (m : Mem) (k v : ℤ) (x : ℕ) : Prop where
  live : m.linked.Live root x
  leaf : (m.node x).isLeaf = true
  key : (m.node x).key = k
  value : (m.node x).version.sum = v

/-- **The tree holds these keys and values**, beside the sentinels. -/
def Holds (m : Mem) (f : ℤ → Option ℤ) : Prop :=
  ∀ k v, -maxKey < k → k < maxKey → (f k = some v ↔ ∃ x, Entry m k v x)

theorem Base.entry_unique {t : LTree ℕ} {k v w : ℤ} {y : ℕ} (hB : Base m t) (hx : Entry m k v x)
    (hy : Entry m k w y) : x = y :=
  hB.tree.leaf_unique hx.live hy.live (kids_of_leaf hx.leaf) (kids_of_leaf hy.leaf)
    (hx.key.trans hy.key.symm)

theorem Holds.eq_some {f : ℤ → Option ℤ} {k v : ℤ} (h : Holds m f) (hk : -maxKey < k)
    (hk' : k < maxKey) (hx : Entry m k v x) : f k = some v :=
  (h k v hk hk').mpr ⟨x, hx⟩

/-- A key is not stored if the search for it has ended in a leaf with another one. -/
theorem Holds.eq_none {f : ℤ → Option ℤ} {k : ℤ} {t : LTree ℕ} (h : Holds m f) (hB : Base m t)
    (hk : -maxKey < k) (hk' : k < maxKey) (hroute : m.linked.Route k root x)
    (hleaf : (m.node x).isLeaf = true) (hne : (m.node x).key ≠ k) : f k = none := by
  cases hf : f k with
  | none => rfl
  | some v =>
      obtain ⟨y, hy⟩ := (h k v hk hk').mp hf
      have hry := hB.tree.route_of_leaf hy.live (kids_of_leaf hy.leaf)
      rw [show m.linked.key y = k from hy.key] at hry
      obtain rfl := hroute.leaf_unique hry (kids_of_leaf hleaf) (kids_of_leaf hy.leaf)
      exact absurd hy.key hne

/-! ### The stack of a search -/

/-- **The stack of a search**: the nodes on the way up from the last one to the root. -/
inductive Stack (m : Mem) : List ℕ → Prop
  | bottom : Stack m [root]
  | push {x y : ℕ} {stk : List ℕ} {d : Bool} (h : Stack m (y :: stk))
      (hk : m.linked.kid y d = some x) (hx : (m.node x).isLeaf = false) : Stack m (x :: y :: stk)

variable {stk : List ℕ}

theorem Stack.root_mem (h : Stack m stk) : root ∈ stk := by
  induction h with
  | bottom => exact List.mem_cons_self
  | push _ _ _ ih => exact List.mem_cons_of_mem _ ih

theorem Stack.tail (h : Stack m (x :: stk)) (hne : stk ≠ []) : Stack m stk := by
  cases h with
  | bottom => exact absurd rfl hne
  | push h _ _ => exact h

theorem Stack.live (h : Stack m stk) : ∀ y ∈ stk, m.linked.Live root y := by
  induction h with
  | bottom =>
      intro y hy
      rw [List.mem_singleton.mp hy]
      exact .refl
  | push _ hk _ ih =>
      rw [List.forall_mem_cons]
      exact ⟨(ih _ List.mem_cons_self).tail ⟨_, hk⟩, ih⟩

theorem Stack.internal {t : LTree ℕ} (hB : Base m t) (h : Stack m (x :: stk)) :
    (m.node x).isLeaf = false := by
  cases h with
  | bottom => exact hB.root_internal
  | push _ _ hx => exact hx

/-- The first node is below all others. -/
theorem Stack.under (h : Stack m (x :: stk)) :
    ∀ y ∈ stk, Relation.TransGen m.linked.Edge y x := by
  generalize hl : x :: stk = l at h
  induction h generalizing x stk with
  | bottom =>
      cases hl
      exact nofun
  | push _ hk _ ih =>
      cases hl
      rw [List.forall_mem_cons]
      exact ⟨.single ⟨_, hk⟩, fun y hy => (ih rfl y hy).tail ⟨_, hk⟩⟩

theorem Stack.not_mem {t : LTree ℕ} (hB : Base m t) (h : Stack m (x :: stk)) : x ∉ stk := by
  intro hx
  exact hB.tree.rep.acyclic hB.tree.nodup (hB.tree.live_iff.mp (h.live x List.mem_cons_self))
    (h.under x hx)

/-- **The parent of the first node is the second one.** -/
theorem Stack.parent {t : LTree ℕ} {y : ℕ} (hB : Base m t) (h : Stack m (x :: stk))
    (hy : m.linked.Live root y) (he : m.linked.Edge y x) : y ∈ stk := by
  have hrep := hB.tree.rep
  have hnd := hB.tree.nodup
  rw [hB.tree.live_iff] at hy
  cases h with
  | bottom => exact absurd hB.tree.top.symm (hrep.edge_ne_label hnd hy he)
  | push h hk _ =>
      have hz := hB.tree.live_iff.mp (h.live _ List.mem_cons_self)
      obtain rfl := hrep.parent_unique hnd hy hz he ⟨_, hk⟩
      exact List.mem_cons_self

theorem Stack.congr (h : Stack m (x :: stk))
    (hk : ∀ y ∈ stk, ∀ d, m'.linked.kid y d = m.linked.kid y d)
    (hl : ∀ y ∈ x :: stk, (m'.node y).isLeaf = (m.node y).isLeaf) : Stack m' (x :: stk) := by
  generalize he : x :: stk = l at h hl ⊢
  induction h generalizing x stk with
  | bottom => exact .bottom
  | push _ hkid hx ih =>
      cases he
      rw [List.forall_mem_cons] at hk hl
      exact .push (ih hk.2 rfl hl.2) ((hk.1 _).trans hkid) (hl.1.trans hx)

/-! ### The invariant -/

/-- Before the call `c` has taken effect. -/
structure Before (ops : List Op) (m : Mem) (c : Call) : Prop where
  proper : c.op.proper = true
  holds : ∃ ops₀, ops = ops₀ ++ [c.op] ∧ Holds m (stored ops₀)
  clean : CleanBut m [root]
  prev : c.prevLeaf = 0 ∨ ∃ v, Entry m c.op.key v c.prevLeaf

/-- A search that has come to `f.l`, with its stack. -/
structure Path (m : Mem) (f : Found) : Prop where
  stack : Stack m f.stk
  child : m.linked.kid f.p f.pDir = some f.l
  top : f.gp = 0 ∧ f.stk = [f.p] ∨ ∃ stk, f.stk = f.p :: f.gp :: stk

/-- After the call has taken effect: the nodes in `dirty` are still to be brought up to date. -/
structure Effected (ops : List Op) (m : Mem) (dirty : List ℕ) : Prop where
  holds : Holds m (stored ops)
  clean : CleanBut m dirty

/-- The nodes that a call of `refreshUntilConsistent` leaves or finds out of date. -/
def Refresh.dirty (R : Refresh) : List ℕ := if R.old = none then R.nd :: R.stk else R.stk

/-- A call of `refreshUntilConsistent`, which has loaded the version of the left child if `d`
holds. -/
structure Refreshing (ops : List Op) (m : Mem) (R : Refresh) (d : Bool) : Prop extends
    Effected ops m R.dirty where
  stack : Stack m (R.nd :: R.stk)
  existed : R.existed = ((m.node R.nd).version, (m.node R.nd).status)
  left : d = true → R.left = (m.node ((m.node R.nd).child false)).version

/-- **The invariant**, at every program counter. -/
def PcAlone (ops : List Op) (m : Mem) : PC → Prop
  | .idle => ops = [] ∧ Effected ops m [root] ∧
      (m.node root).version = .mk 0 maxKey (-maxKey) maxKey 0 .nil .nil
  | .start c | .unlock c _ .retry => Before ops m c
  | .find c f | .insertLock c f | .insertRemoved c f | .insertPtr c f | .insertStore c f =>
      Before ops m c ∧ Path m f
  | .removeLockGp c f | .removeLockP c f | .removeRemoved c f | .removePtr c f
  | .removeRemaining c f | .removeTarget c f _ | .removeMark c f _ | .removeStore c f _ =>
      Before ops m c ∧ Path m f ∧ c.op = .remove c.op.key
  | .unlock _ _ (.propagate stk _) | .propagate stk _ | .propNext stk _ _ =>
      Effected ops m stk ∧ (stk = [] ∨ Stack m stk)
  | .loadExisted stk _ _ nd => Effected ops m (nd :: stk) ∧ Stack m (nd :: stk)
  | .loadChild R d => Refreshing ops m R d
  | .loadVersion R d child => Refreshing ops m R d ∧ child = (m.node R.nd).child d
  | .checkChild R d child v =>
      Refreshing ops m R d ∧ child = (m.node R.nd).child d ∧ v = (m.node child).version
  | .cas R right =>
      Refreshing ops m R true ∧ right = (m.node ((m.node R.nd).child true)).version
  -- no CAS is lost
  | .subscribe _ _ _ => False
  | .subscribed _ _ | .wait _ _ _ | .setDone _ _ | .ret _ => Effected ops m []
  | .crash => True

/-! ### Steps that change neither pointers nor versions -/

/-- The step changes neither pointers nor versions. -/
structure SameData (m m' : Mem) : Prop where
  next : m'.next = m.next
  key : ∀ x, (m'.node x).key = (m.node x).key
  leaf : ∀ x, (m'.node x).isLeaf = (m.node x).isLeaf
  child : ∀ x, (m'.node x).child = (m.node x).child
  version : ∀ x, (m'.node x).version = (m.node x).version
  status : ∀ x, (m'.node x).status = (m.node x).status

namespace SameData

theorem of_node (hnode : m'.node = m.node) (hnext : m'.next = m.next) : SameData m m' := by
  refine ⟨hnext, fun y => ?_, fun y => ?_, fun y => ?_, fun y => ?_, fun y => ?_⟩ <;> rw [hnode]

/-- One node is changed, but for its lock and its mark. -/
theorem of_update {n : Node} (hnode : m'.node = Function.update m.node x n)
    (hnext : m'.next = m.next) (hn : n.key = (m.node x).key ∧ n.isLeaf = (m.node x).isLeaf ∧
      n.child = (m.node x).child ∧ n.version = (m.node x).version ∧
      n.status = (m.node x).status) : SameData m m' := by
  obtain ⟨hk, hl, hc, hv, hs⟩ := hn
  have hnode' : ∀ y, m'.node y = if y = x then n else m.node y := by
    intro y
    rw [hnode, Function.update_apply]
  refine ⟨hnext, fun y => ?_, fun y => ?_, fun y => ?_, fun y => ?_, fun y => ?_⟩ <;>
    rw [hnode'] <;> split_ifs with h <;> simp only [h, hk, hl, hc, hv, hs]

theorem setMtx (m : Mem) (x : ℕ) (b : Bool) : SameData m (m.setMtx x b) :=
  .of_update rfl rfl ⟨rfl, rfl, rfl, rfl, rfl⟩

theorem setRemoved (m : Mem) (x : ℕ) : SameData m (m.setRemoved x) :=
  .of_update rfl rfl ⟨rfl, rfl, rfl, rfl, rfl⟩

variable (h : SameData m m')

include h

theorem linked : m'.linked = m.linked := by
  refine Linked.ext (funext h.key) ?_
  funext x
  simp only [Mem.linked, h.leaf x, h.child x]

theorem clean (hc : Clean m x) : Clean m' x :=
  hc.congr (h.key x) (h.child x) (h.version x) fun _ => h.version _

theorem cleanBut {dirty : List ℕ} (hc : CleanBut m dirty) : CleanBut m' dirty :=
  fun x hx hi hd => h.clean (hc x (h.linked ▸ hx) ((h.leaf x).symm.trans hi) hd)

theorem leafVersions (hl : LeafVersions m) : LeafVersions m' := by
  intro x hx hleaf
  obtain ⟨id, hv⟩ := hl x (h.next ▸ hx) ((h.leaf x).symm.trans hleaf)
  exact ⟨id, by rw [h.version, h.key, ← hv]⟩

theorem entry {k v : ℤ} : Entry m' k v x ↔ Entry m k v x := by
  constructor
  · rintro ⟨hx, hl, hk, hv⟩
    exact ⟨h.linked ▸ hx, (h.leaf x).symm.trans hl, (h.key x).symm.trans hk, h.version x ▸ hv⟩
  · rintro ⟨hx, hl, hk, hv⟩
    exact ⟨h.linked.symm ▸ hx, (h.leaf x).trans hl, (h.key x).trans hk, (h.version x).symm ▸ hv⟩

theorem holds {f : ℤ → Option ℤ} (hf : Holds m f) : Holds m' f := by
  intro k v hk hk'
  simp only [h.entry]
  exact hf k v hk hk'

theorem stack (hs : Stack m stk) : Stack m' stk := by
  cases hs with
  | bottom => exact .bottom
  | push hs hk hx =>
      exact (Stack.push hs hk hx).congr (fun y _ d => by rw [h.linked]) fun y _ => h.leaf y

theorem before {ops : List Op} {c : Call} (hb : Before ops m c) : Before ops m' c := by
  obtain ⟨ops₀, he, hf⟩ := hb.holds
  refine ⟨hb.proper, ⟨ops₀, he, h.holds hf⟩, h.cleanBut hb.clean, hb.prev.imp_right ?_⟩
  rintro ⟨v, hv⟩
  exact ⟨v, h.entry.mpr hv⟩

theorem path {f : Found} (hp : Path m f) : Path m' f :=
  ⟨h.stack hp.stack, h.linked ▸ hp.child, hp.top⟩

theorem effected {ops : List Op} {dirty : List ℕ} (he : Effected ops m dirty) :
    Effected ops m' dirty := ⟨h.holds he.holds, h.cleanBut he.clean⟩

theorem refreshing {ops : List Op} {R : Refresh} {d : Bool} (hr : Refreshing ops m R d) :
    Refreshing ops m' R d where
  toEffected := h.effected hr.toEffected
  stack := h.stack hr.stack
  existed := by rw [h.version, h.status]; exact hr.existed
  left hd := by rw [h.version, h.child]; exact hr.left hd

theorem pcAlone {ops : List Op} {pc : PC} (hp : PcAlone ops m pc) : PcAlone ops m' pc := by
  cases pc with
  | idle => exact ⟨hp.1, h.effected hp.2.1, (h.version root).trans hp.2.2⟩
  | start c => exact h.before hp
  | find c f | insertLock c f | insertRemoved c f | insertPtr c f | insertStore c f =>
      exact ⟨h.before hp.1, h.path hp.2⟩
  | removeLockGp c f | removeLockP c f | removeRemoved c f | removePtr c f | removeRemaining c f
  | removeTarget c f s | removeMark c f s | removeStore c f s =>
      exact ⟨h.before hp.1, h.path hp.2.1, hp.2.2⟩
  | unlock c locks k =>
      cases k with
      | retry => exact h.before hp
      | propagate stk r => exact ⟨h.effected hp.1, hp.2.imp_right h.stack⟩
  | propagate stk r | propNext stk r ps => exact ⟨h.effected hp.1, hp.2.imp_right h.stack⟩
  | loadExisted stk r ps nd => exact ⟨h.effected hp.1, h.stack hp.2⟩
  | loadChild R d => exact h.refreshing hp
  | loadVersion R d child => exact ⟨h.refreshing hp.1, by rw [h.child]; exact hp.2⟩
  | checkChild R d child v =>
      exact ⟨h.refreshing hp.1, by rw [h.child]; exact hp.2.1, by rw [h.version]; exact hp.2.2⟩
  | cas R right => exact ⟨h.refreshing hp.1, by rw [h.version, h.child]; exact hp.2⟩
  | subscribe r ps cur => exact hp
  | subscribed r ps | wait r ps sub | setDone r ps | ret r => exact h.effected hp
  | crash => trivial

end SameData

/-! ### The store of `insert` -/

section Insert

variable {ops : List Op} {c : Call} {f : Found} {key val : ℤ} {t : LTree ℕ}

theorem insertStore_version {y : ℕ} (hp : f.p < m.next) (hy : y < m.next) :
    ((insertStore m key val f).node y).version = (m.node y).version := by
  by_cases hyp : y = f.p
  · rw [hyp, insertStore_p hp]
  · rw [insertStore_of_lt hy hyp]

theorem insertStore_isLeaf {y : ℕ} (hp : f.p < m.next) (hy : y < m.next) :
    ((insertStore m key val f).node y).isLeaf = (m.node y).isLeaf := by
  by_cases hyp : y = f.p
  · rw [hyp, insertStore_p hp]
  · rw [insertStore_of_lt hy hyp]

/-- The new internal node comes with a version that is up to date. -/
theorem insertStore_clean (hp : f.p < m.next) :
    Clean (insertStore m key val f) (m.next + 2) := by
  obtain ⟨⟨hx, hy⟩, -, -, -, hl, hr⟩ := @insertStore_new m key val f hp
  refine ⟨m.nextVer + 2, ?_⟩
  rw [hl, hr]
  have h2 : m.next + 2 ≠ f.p := by omega
  by_cases hk : key < (m.node f.l).key
  · simp only [newLeaves, if_pos hk, hx, hy]
    simp [insertStore, Mem.setChild, Mem.setNode, Function.update_of_ne h2, hk, internalNode,
      makeUpdatedVersionInfo, leafNode]
  · simp only [newLeaves, if_neg hk, hx, hy]
    simp [insertStore, Mem.setChild, Mem.setNode, Function.update_of_ne h2, hk, internalNode,
      makeUpdatedVersionInfo, leafNode]

theorem insertStore_leafVersions (hL : LeafVersions m) (hp : f.p < m.next)
    (hi : (m.node f.p).isLeaf = false) : LeafVersions (insertStore m key val f) := by
  obtain ⟨⟨hx, hy⟩, htop, -⟩ := @insertStore_new m key val f hp
  intro z hz hleaf
  change z < m.next + 3 at hz
  rcases lt_or_ge z m.next with hlt | hge
  · rw [insertStore_isLeaf hp hlt] at hleaf
    have hzp : z ≠ f.p := fun e => by rw [e, hi] at hleaf; cases hleaf
    rw [insertStore_of_lt hlt hzp]
    exact hL z hlt hleaf
  · obtain rfl | rfl | rfl : z = m.next ∨ z = m.next + 1 ∨ z = m.next + 2 := by omega
    · rw [hx]
      exact ⟨_, rfl⟩
    · rw [hy]
      exact ⟨_, rfl⟩
    · rw [htop] at hleaf
      cases hleaf

/-- The nodes of the tree after the insertion. -/
theorem Base.live_graft (hB : Base m t) (h : InsertOk m c f) (hop : c.op = .insert key val)
    (hp : m.linked.Live root f.p) (hc : (m.node f.p).child f.pDir = f.l) :
    (insertStore m key val f).linked.Live root x ↔ (m.linked.Live root x ∧ x ≠ f.l) ∨
      x = m.next ∨ x = m.next + 1 ∨ x = m.next + 2 := by
  obtain ⟨t', hT', hrepl⟩ := hB.graft_repl h hop hp hc
  rw [(insertStore_graft hop h hc).live_iff hB.tree hT' hrepl hB.labels_lt]
  refine or_congr_right ?_
  simp only [List.mem_cons, List.not_mem_nil, or_false, newLeaves]
  split_ifs <;> simp only <;> tauto

/-- The leaves after the insertion. -/
theorem Base.entry_graft {k v : ℤ} (hB : Base m t) (h : InsertOk m c f)
    (hop : c.op = .insert key val) (hp : m.linked.Live root f.p)
    (hc : (m.node f.p).child f.pDir = f.l) :
    Entry (insertStore m key val f) k v x ↔
      (Entry m k v x ∧ x ≠ f.l) ∨ (x = m.next ∧ key = k ∧ val = v) ∨
        (x = m.next + 1 ∧ (m.node f.l).key = k ∧ (m.node f.l).version.sum = v) := by
  have hplt := h.p.lt
  obtain ⟨⟨hnew, hcopy⟩, htop, -⟩ := @insertStore_new m key val f hplt
  -- an old leaf is not changed
  have old : ∀ y, m.linked.Live root y → ((insertStore m key val f).node y).isLeaf = true →
      (insertStore m key val f).node y = m.node y := by
    intro y hy hl
    rw [insertStore_isLeaf hplt (hB.live_lt hy)] at hl
    exact insertStore_of_lt (hB.live_lt hy) fun e => by
      rw [e, h.p.internal] at hl
      cases hl
  constructor
  · rintro ⟨hx, hl, hk, hv⟩
    rcases (hB.live_graft h hop hp hc).mp hx with ⟨hx, hne⟩ | rfl | rfl | rfl
    · have he := old x hx hl
      rw [he] at hl hk hv
      exact .inl ⟨⟨hx, hl, hk, hv⟩, hne⟩
    · rw [hnew] at hk hv
      exact .inr (.inl ⟨rfl, hk, hv⟩)
    · rw [hcopy] at hk hv
      exact .inr (.inr ⟨rfl, hk, hv⟩)
    · rw [htop] at hl
      cases hl
  · rintro (⟨hx, hne⟩ | ⟨rfl, rfl, rfl⟩ | ⟨rfl, rfl, rfl⟩)
    · have hl : ((insertStore m key val f).node x).isLeaf = true :=
        (insertStore_isLeaf hplt (hB.live_lt hx.live)).trans hx.leaf
      have he := old x hx.live hl
      exact ⟨(hB.live_graft h hop hp hc).mpr (.inl ⟨hx.live, hne⟩), hl, he ▸ hx.key, he ▸ hx.value⟩
    · refine ⟨(hB.live_graft h hop hp hc).mpr (.inr (.inl rfl)), ?_, ?_, ?_⟩ <;> rw [hnew] <;> rfl
    · refine ⟨(hB.live_graft h hop hp hc).mpr (.inr (.inr (.inl rfl))), ?_, ?_, ?_⟩ <;>
        rw [hcopy] <;> rfl

/-- **The tree holds the new key**, with its value. -/
theorem Before.holds_graft (hb : Before ops m c) (hB : Base m t) (h : InsertOk m c f)
    (hop : c.op = .insert key val) (hp : m.linked.Live root f.p)
    (hc : (m.node f.p).child f.pDir = f.l) :
    Holds (insertStore m key val f) (stored ops) := by
  obtain ⟨ops₀, rfl, hf⟩ := hb.holds
  have hbetween := Op.proper.between hb.proper
  have hne := h.ne
  have hkid : m.linked.KEdge c.op.key f.p f.l := by rw [KEdge, ← h.pDir, kid_eq h.p.internal, hc]
  have hroute : m.linked.Route c.op.key root f.l := (h.p.sees f.p .refl hp).tail hkid
  have hnone := hf.eq_none hB hbetween.1 hbetween.2 hroute h.leaf hne
  rw [hop, Op.key] at hnone hne
  have hleaf : Entry m (m.node f.l).key (m.node f.l).version.sum f.l :=
    ⟨hroute.reach, h.leaf, rfl, rfl⟩
  rw [stored_concat, hop, Op.apply_insert_of_none hnone]
  intro k v hk hk'
  simp only [hB.entry_graft h hop hp hc]
  by_cases hkk : k = key
  · subst hkk
    rw [Function.update_self]
    constructor
    · intro hv
      exact ⟨_, .inr (.inl ⟨rfl, rfl, Option.some.inj hv⟩)⟩
    · rintro ⟨x, ⟨hx, -⟩ | ⟨-, -, rfl⟩ | ⟨-, hk, -⟩⟩
      · cases hnone.symm.trans (hf.eq_some hk hk' hx)
      · rfl
      · exact absurd hk hne
  · rw [Function.update_of_ne hkk, hf k v hk hk']
    constructor
    · rintro ⟨x, hx⟩
      by_cases hxl : x = f.l
      · subst hxl
        exact ⟨_, .inr (.inr ⟨rfl, hx.key, hx.value⟩)⟩
      · exact ⟨x, .inl ⟨hx, hxl⟩⟩
    · rintro ⟨x, ⟨hx, -⟩ | ⟨-, rfl, -⟩ | ⟨-, rfl, rfl⟩⟩
      · exact ⟨x, hx⟩
      · exact absurd rfl hkk
      · exact ⟨_, hleaf⟩

/-- **Only the versions on the search path are out of date.** -/
theorem Before.clean_graft (hb : Before ops m c) (hpath : Path m f) (hB : Base m t)
    (h : InsertOk m c f) (hop : c.op = .insert key val) (hp : m.linked.Live root f.p)
    (hc : (m.node f.p).child f.pDir = f.l) : CleanBut (insertStore m key val f) f.stk := by
  have hplt := h.p.lt
  have hpmem : f.p ∈ f.stk := by
    rcases hpath.top with ⟨-, he⟩ | ⟨stk, he⟩ <;> rw [he] <;> exact List.mem_cons_self
  obtain ⟨⟨hnew, hcopy⟩, -⟩ := @insertStore_new m key val f hplt
  intro x hx hi hd
  rcases (hB.live_graft h hop hp hc).mp hx with ⟨hx, -⟩ | rfl | rfl | rfl
  · have hlt := hB.live_lt hx
    have hne : x ≠ f.p := fun e => hd (e ▸ hpmem)
    have he : (insertStore m key val f).node x = m.node x := insertStore_of_lt hlt hne
    rw [he] at hi
    have hroot : x ∉ [root] := fun e => hd (List.mem_singleton.mp e ▸ hpath.stack.root_mem)
    refine (hb.clean x hx hi hroot).congr (by rw [he]) (by rw [he]) (by rw [he]) fun d => ?_
    exact insertStore_version hplt (hB.kid_lt hlt hi d)
  · rw [hnew] at hi
    cases hi
  · rw [hcopy] at hi
    cases hi
  · exact insertStore_clean hplt

/-- The stack is still the way up to the root. -/
theorem Path.stack_graft (hpath : Path m f) (hB : Base m t) (hp : f.p < m.next) :
    Stack (insertStore m key val f) f.stk := by
  have hlive := hpath.stack.live
  obtain ⟨stk, he⟩ : ∃ stk, f.stk = f.p :: stk := by
    rcases hpath.top with ⟨-, he⟩ | ⟨stk, he⟩
    · exact ⟨_, he⟩
    · exact ⟨_, he⟩
  have hstack := hpath.stack
  rw [he] at hstack hlive ⊢
  refine hstack.congr (fun y hy d => ?_) fun y hy => ?_
  · have hlt := hB.live_lt (hlive y (List.mem_cons_of_mem _ hy))
    refine kid_congr ?_ d
    simp only [Mem.linked, insertStore_of_lt hlt fun e => hstack.not_mem hB (e ▸ hy)]
  · exact insertStore_isLeaf hp (hB.live_lt (hlive y hy))

end Insert

/-! ### The store of `remove` -/

section Remove

variable {ops : List Op} {c : Call} {f : Found} {z : ℕ} {t : LTree ℕ}

theorem setChild_version {d : Bool} (y : ℕ) :
    ((m.setChild x d z).node y).version = (m.node y).version := by
  by_cases h : y = x
  · rw [h, setChild_self]
  · rw [setChild_of_ne h]

/-- The nodes of the tree after the deletion. -/
theorem Base.live_splice (hB : Base m t) (h : SpliceOk m c f z) :
    (m.setChild f.gp f.gpDir z).linked.Live root x ↔
      m.linked.Live root x ∧ x ≠ f.p ∧ x ≠ f.l := by
  obtain ⟨t', tp, ts, hT', hrepl, htp, -⟩ := (removeStore_splice h).tree hB.tree h.gp_live
  exact Splice.live_iff hB.tree hT' hrepl htp

theorem setChild_leafVersions {d : Bool} (hL : LeafVersions m) :
    LeafVersions (m.setChild x d z) := by
  intro y hy hl
  have hf := @setChild_fields m x z d y
  rw [hf.2.1] at hl
  obtain ⟨id, hv⟩ := hL y hy hl
  exact ⟨id, by rw [setChild_version, hf.1, ← hv]⟩

/-- The leaves after the deletion. -/
theorem Base.entry_splice {k v : ℤ} (hB : Base m t) (h : SpliceOk m c f z) :
    Entry (m.setChild f.gp f.gpDir z) k v x ↔ Entry m k v x ∧ x ≠ f.l := by
  have hf := @setChild_fields m f.gp z f.gpDir x
  constructor
  · rintro ⟨hx, hl, hk, hv⟩
    obtain ⟨hx, -, hne⟩ := (hB.live_splice h).mp hx
    rw [hf.2.1] at hl
    rw [hf.1] at hk
    rw [setChild_version] at hv
    exact ⟨⟨hx, hl, hk, hv⟩, hne⟩
  · rintro ⟨⟨hx, hl, hk, hv⟩, hne⟩
    have hxp : x ≠ f.p := fun e => by
      rw [e, h.p.internal] at hl
      cases hl
    exact ⟨(hB.live_splice h).mpr ⟨hx, hxp, hne⟩, hf.2.1.trans hl, hf.1.trans hk,
      by rwa [setChild_version]⟩

/-- **The tree does not hold the key any more.** -/
theorem Before.holds_splice (hb : Before ops m c) (hB : Base m t) (h : SpliceOk m c f z)
    (hop : c.op = .remove c.op.key) : Holds (m.setChild f.gp f.gpDir z) (stored ops) := by
  obtain ⟨ops₀, rfl, hf⟩ := hb.holds
  have hp : m.linked.Live root f.p := h.gp_live.tail ⟨_, h.gp_child ▸ kid_eq h.gp_internal _⟩
  have hl : m.linked.Live root f.l := hp.tail ⟨_, h.p_child ▸ kid_eq h.p.internal _⟩
  have hleaf : Entry m c.op.key (m.node f.l).version.sum f.l := ⟨hl, h.leaf, h.key, rfl⟩
  rw [stored_concat, hop]
  intro k v hk hk'
  simp only [hB.entry_splice h]
  by_cases hkk : k = c.op.key
  · subst hkk
    rw [Op.apply, Function.update_self]
    constructor
    · exact nofun
    · rintro ⟨x, hx, hne⟩
      exact absurd (hB.entry_unique hx hleaf) hne
  · rw [Op.apply, Function.update_of_ne hkk, hf k v hk hk']
    constructor
    · rintro ⟨x, hx⟩
      refine ⟨x, hx, ?_⟩
      rintro rfl
      exact hkk (hx.key.symm.trans hleaf.key)
    · rintro ⟨x, hx, -⟩
      exact ⟨x, hx⟩

/-- The grandparent is the next node on the stack. -/
theorem Path.stk_eq (hpath : Path m f) (hB : Base m t) (h : SpliceOk m c f z) :
    ∃ stk, f.stk = f.p :: f.gp :: stk := by
  refine hpath.top.resolve_left ?_
  rintro ⟨-, he⟩
  have hstack := hpath.stack
  rw [he] at hstack
  exact absurd (hstack.parent hB h.gp_live ⟨_, h.gp_child ▸ kid_eq h.gp_internal _⟩)
    List.not_mem_nil

theorem Before.clean_splice (hb : Before ops m c) (hpath : Path m f) (hB : Base m t)
    (h : SpliceOk m c f z) : CleanBut (m.setChild f.gp f.gpDir z) f.stk.tail := by
  obtain ⟨stk, he⟩ := hpath.stk_eq hB h
  have hstack := hpath.stack
  rw [he] at hstack ⊢
  have htail := hstack.tail (List.cons_ne_nil _ _)
  intro x hx hi hd
  rw [List.tail_cons] at hd
  obtain ⟨hx, -, -⟩ := (hB.live_splice h).mp hx
  have hne : x ≠ f.gp := fun e => hd (e ▸ List.mem_cons_self)
  rw [setChild_of_ne hne] at hi
  have hroot : x ∉ [root] := fun e => hd (List.mem_singleton.mp e ▸ htail.root_mem)
  refine (hb.clean x hx hi hroot).congr ?_ ?_ ?_ fun _ => setChild_version _ <;>
    rw [setChild_of_ne hne]

theorem Path.stack_splice (hpath : Path m f) (hB : Base m t) (h : SpliceOk m c f z) :
    Stack (m.setChild f.gp f.gpDir z) f.stk.tail := by
  obtain ⟨stk, he⟩ := hpath.stk_eq hB h
  have hstack := hpath.stack
  rw [he] at hstack ⊢
  have htail := hstack.tail (List.cons_ne_nil _ _)
  refine htail.congr (fun y hy d => kid_congr ?_ d) fun y _ => (setChild_fields y).2.1
  have hne : y ≠ f.gp := fun e => htail.not_mem hB (e ▸ hy)
  simp only [Mem.linked, setChild_of_ne hne]

end Remove

/-! ### The CAS -/

section Cas

variable {ops : List Op} {R : Refresh} {right : VersionInfo} {t : LTree ℕ} {v : VersionInfo}
  {ps : ℕ}

theorem setVersion_of_ne {y : ℕ} (h : y ≠ x) : (m.setVersion x v ps).node y = m.node y :=
  Function.update_of_ne h ..

theorem setVersion_self :
    (m.setVersion x v ps).node x = { m.node x with version := v, status := ps } :=
  Function.update_self ..

theorem setVersion_fields (y : ℕ) : ((m.setVersion x v ps).node y).key = (m.node y).key ∧
    ((m.setVersion x v ps).node y).isLeaf = (m.node y).isLeaf ∧
    ((m.setVersion x v ps).node y).child = (m.node y).child := by
  by_cases h : y = x
  · subst h
    rw [setVersion_self]
    exact ⟨rfl, rfl, rfl⟩
  · rw [setVersion_of_ne h]
    exact ⟨rfl, rfl, rfl⟩

theorem setVersion_linked : (m.setVersion x v ps).linked = m.linked := by
  refine Linked.ext (funext fun y => (setVersion_fields y).1) ?_
  funext y
  simp only [Mem.linked, (setVersion_fields y).2.1, (setVersion_fields y).2.2]

theorem setVersion_leafVersions (hL : LeafVersions m) (hi : (m.node x).isLeaf = false) :
    LeafVersions (m.setVersion x v ps) := by
  intro y hy hl
  rw [(setVersion_fields y).2.1] at hl
  have hne : y ≠ x := fun e => by
    rw [e, hi] at hl
    cases hl
  rw [setVersion_of_ne hne]
  exact hL y hy hl

theorem setVersion_holds {f : ℤ → Option ℤ} (hf : Holds m f) (hi : (m.node x).isLeaf = false) :
    Holds (m.setVersion x v ps) f := by
  have hleaf : ∀ {k w : ℤ} {y : ℕ}, Entry (m.setVersion x v ps) k w y ↔ Entry m k w y := by
    intro k w y
    by_cases hne : y = x
    · subst hne
      constructor
      · rintro ⟨-, hl, -, -⟩
        rw [(setVersion_fields y).2.1, hi] at hl
        cases hl
      · rintro ⟨-, hl, -, -⟩
        rw [hi] at hl
        cases hl
    · constructor
      · rintro ⟨hx, hl, hk, hv⟩
        rw [setVersion_linked] at hx
        rw [setVersion_of_ne hne] at hl hk hv
        exact ⟨hx, hl, hk, hv⟩
      · rintro ⟨hx, hl, hk, hv⟩
        refine ⟨by rwa [setVersion_linked], ?_, ?_, ?_⟩ <;> rwa [setVersion_of_ne hne]
  intro k w hk hk'
  simp only [hleaf]
  exact hf k w hk hk'

/-- **A CAS brings its node up to date**, and makes the version of no other node out of date but
that of the next one on the stack. -/
theorem Refreshing.cas (h : Refreshing ops m R true) (hB : Base m t)
    (hright : right = (m.node ((m.node R.nd).child true)).version) :
    let new := makeUpdatedVersionInfo m.nextVer (m.node R.nd) R.left right
    Refreshing ops (m.setVersion R.nd new R.ps)
      { R with existed := (new, R.ps), old := some (R.left, right) } false := by
  intro new
  have hi := h.stack.internal hB
  have hlive := h.stack.live R.nd List.mem_cons_self
  -- a child of a live node is not the node of the CAS unless that node is the parent
  have child : ∀ x d, m.linked.Live root x → (m.node x).isLeaf = false → x ∉ R.stk →
      (m.node x).child d ≠ R.nd := by
    intro x d hx hxi hd he
    exact hd (h.stack.parent hB hx ⟨d, he ▸ kid_eq hxi d⟩)
  refine ⟨⟨setVersion_holds h.holds hi, fun x hx hxi hd => ?_⟩, ?_, ?_, nofun⟩
  · rw [setVersion_linked] at hx
    rw [(setVersion_fields x).2.1] at hxi
    change x ∉ R.stk at hd
    have hch : ∀ d, ((m.setVersion R.nd new R.ps).node ((m.node x).child d)).version =
        (m.node ((m.node x).child d)).version := by
      intro d
      rw [setVersion_of_ne (child x d hx hxi hd)]
    by_cases hne : x = R.nd
    · subst hne
      refine ⟨m.nextVer, ?_⟩
      rw [(setVersion_fields R.nd).2.2, hch, hch, setVersion_self, ← h.left rfl, ← hright]
      rfl
    · have hdirty : x ∉ R.dirty := by
        unfold Refresh.dirty
        split_ifs
        · exact List.not_mem_cons_of_ne_of_not_mem hne hd
        · exact hd
      refine (h.clean x hx hxi hdirty).congr ?_ ?_ ?_ hch <;> rw [setVersion_of_ne hne]
  · exact h.stack.congr (fun y _ d => by rw [setVersion_linked])
      fun y _ => (setVersion_fields y).2.1
  · rw [setVersion_self]

end Cas

/-! ### One step -/

section Step

variable {ops : List Op} {c : Call} {f : Found} {t : LTree ℕ}

/-- The search has come to `f.l` on the search path. -/
theorem Path.route {q : ℤ} (hpath : Path m f) (h : FoundOk m q f) :
    m.linked.Route q root f.l := by
  have hp : m.linked.Live root f.p := by
    refine hpath.stack.live f.p ?_
    rcases hpath.top with ⟨-, he⟩ | ⟨stk, he⟩ <;> rw [he] <;> exact List.mem_cons_self
  refine (h.p.sees f.p .refl hp).tail ?_
  rw [KEdge, ← h.pDir]
  exact hpath.child

/-- The search goes on. -/
theorem Path.goes (hpath : Path m f) (hi : (m.node f.l).isLeaf = false) (d : Bool) :
    Path m ⟨f.p, f.pDir, f.l, d, (m.node f.l).child d, f.l :: f.stk⟩ := by
  obtain ⟨stk, he⟩ : ∃ stk, f.stk = f.p :: stk := by
    rcases hpath.top with ⟨-, he⟩ | ⟨stk, he⟩ <;> exact ⟨_, he⟩
  have hstack := hpath.stack
  rw [he] at hstack ⊢
  exact ⟨.push hstack hpath.child hi, kid_eq hi d, .inr ⟨stk, rfl⟩⟩

/-- The search has ended: the call has no effect, or goes on to lock the parent. -/
theorem Before.found (hb : Before ops m c) (hpath : Path m f) (hB : Base m t)
    (h : FoundOk m c.op.key f) (hl : (m.node f.l).isLeaf = true) :
    PcAlone ops m (found m c f) := by
  have hbetween := Op.proper.between hb.proper
  have hroute := hpath.route h
  have hclean : CleanBut m f.stk :=
    hb.clean.mono fun _ hx => List.mem_singleton.mp hx ▸ hpath.stack.root_mem
  obtain ⟨ops₀, hops, hf⟩ := hb.holds
  rw [SubEric.found]
  cases hop : c.op with
  | insert key val =>
      dsimp only
      split_ifs with hk
      · -- the key is stored
        rw [hop] at hbetween hops
        have hsome : stored ops₀ key = some _ :=
          hf.eq_some hbetween.1 hbetween.2 ⟨hroute.reach, hl, hk, rfl⟩
        refine ⟨⟨?_, hclean⟩, .inr hpath.stack⟩
        rw [hops, stored_concat, Op.apply_insert_of_some hsome]
        exact hf
      · exact ⟨hb, hpath⟩
  | remove key =>
      dsimp only
      split_ifs with hk hprev
      · -- the key is not stored
        rw [hop] at hbetween hops hroute
        have hnone : stored ops₀ key = none :=
          hf.eq_none hB hbetween.1 hbetween.2 hroute hl hk
        refine ⟨⟨?_, hclean⟩, .inr hpath.stack⟩
        rw [hops, stored_concat, Op.apply_remove_of_none hnone]
        exact hf
      · -- the leaf of the attempt before is still there
        have hk : (m.node f.l).key = c.op.key := by simpa [hop, Op.key] using hk
        obtain ⟨v, hv⟩ := hb.prev.resolve_left hprev.1
        exact absurd (hB.entry_unique hv ⟨hroute.reach, hl, hk, rfl⟩) hprev.2
      · exact ⟨⟨hop ▸ hb.proper, hop ▸ hb.holds, hb.clean,
          .inr ⟨_, hroute.reach, hl, not_not.mp hk, rfl⟩⟩, hpath, rfl⟩

/-- **The invariant is kept.** -/
theorem PcAlone.step {pc : PC} (hp : PcAlone ops m pc) (hB : Base m t) (hok : PcOk m pc)
    (hL : LeafVersions m) :
    LeafVersions (exec m pc).1 ∧ PcAlone ops (exec m pc).1 (exec m pc).2 := by
  -- most steps change neither pointers nor versions
  have same : ∀ {m' pc'}, SameData m m' → PcAlone ops m pc' →
      LeafVersions m' ∧ PcAlone ops m' pc' :=
    fun hs hp' => ⟨hs.leafVersions hL, hs.pcAlone hp'⟩
  have stay : ∀ {pc'}, PcAlone ops m pc' → LeafVersions m ∧ PcAlone ops m pc' :=
    fun hp' => ⟨hL, hp'⟩
  cases pc with
  | idle | ret r | crash => exact stay hp
  | start c =>
      exact stay ⟨hp, .bottom, kid_eq hB.root_internal false, .inl ⟨rfl, rfl⟩⟩
  | find c f =>
      rw [exec, execUpdate]
      split_ifs with hl
      · exact stay (hp.1.found hp.2 hB hok hl)
      · exact stay ⟨hp.1, hp.2.goes (by simpa using hl) _⟩
  | insertLock c f | removeLockP c f =>
      rw [exec, execUpdate]
      split_ifs
      · exact stay hp.1
      · exact same (.setMtx ..) hp
  | insertRemoved c f | insertPtr c f | removeRemoved c f | removePtr c f | removeTarget c f z =>
      rw [exec, execUpdate]
      split_ifs
      · exact stay hp.1
      · exact stay hp
  | insertStore c f =>
      obtain ⟨h, hlive, hc⟩ := hok
      obtain ⟨val, hop⟩ := h.op
      rw [exec, execUpdate, hop]
      exact ⟨insertStore_leafVersions hL h.p.lt h.p.internal,
        ⟨hp.1.holds_graft hB h hop hlive hc, hp.1.clean_graft hp.2 hB h hop hlive hc⟩,
        .inr (hp.2.stack_graft hB h.p.lt)⟩
  | removeLockGp c f =>
      rw [exec, execUpdate]
      split_ifs
      · exact stay trivial
      · exact stay hp.1
      · exact same (.setMtx ..) hp
  | removeRemaining c f => exact stay hp
  | removeMark c f z => exact same (.setRemoved ..) hp
  | removeStore c f z =>
      exact ⟨setChild_leafVersions hL,
        ⟨hp.1.holds_splice hB hok.1 hp.2.2, hp.1.clean_splice hp.2.1 hB hok.1⟩,
        .inr (hp.2.1.stack_splice hB hok.1)⟩
  | unlock c locks k =>
      cases locks with
      | cons x locks =>
          refine same (.setMtx ..) ?_
          cases k <;> exact hp
      | nil => cases k <;> exact stay hp
  | propagate stk r => exact same (.of_node rfl rfl) hp
  | propNext stk r ps =>
      cases stk with
      | nil => exact stay hp.1
      | cons nd stk => exact stay ⟨hp.1, hp.2.resolve_left (List.cons_ne_nil _ _)⟩
  | loadExisted stk r ps nd =>
      exact stay ⟨⟨hp.1.holds, hp.1.clean⟩, hp.2, rfl, by intro h; cases h⟩
  | loadChild R d => exact stay ⟨hp, rfl⟩
  | loadVersion R d child => exact stay ⟨hp.1, hp.2, rfl⟩
  | checkChild R d child v =>
      obtain ⟨hr, rfl, rfl⟩ := hp
      rw [exec, execPropagate, if_neg (not_not.mpr rfl)]
      cases d with
      | false => exact stay ⟨⟨hr.holds, hr.clean⟩, hr.stack, hr.existed, fun _ => rfl⟩
      | true =>
          rw [if_pos rfl]
          split_ifs with hold
          · -- the node is up to date
            have hdirty : R.dirty = R.stk := if_neg (by rw [hold]; intro h; cases h)
            have hstk : R.stk = [] ∨ Stack m R.stk := by
              by_cases hnil : R.stk = []
              · exact .inl hnil
              · exact .inr (hr.stack.tail hnil)
            exact stay ⟨⟨hr.holds, hdirty ▸ hr.clean⟩, hstk⟩
          · exact stay ⟨hr, rfl⟩
  | cas R right =>
      obtain ⟨hr, hright⟩ := hp
      rw [exec, execPropagate, execCas, if_pos hr.existed.symm]
      exact ⟨setVersion_leafVersions hL (hr.stack.internal hB), hr.cas hB hright⟩
  | subscribe r ps cur => exact hp.elim
  | subscribed r ps =>
      rw [exec, execPropagate]
      split_ifs <;> exact stay hp
  | wait r ps sub =>
      rw [exec, execPropagate]
      split_ifs <;> exact stay hp
  | setDone r ps => exact same (.of_node rfl rfl) hp

end Step

/-! ### Whole runs -/

section Runs

variable {i : ℕ} {ops : List Op} {s : State}

theorem init_node_of_ne (hx : x ≠ root) : Mem.init.node x = leafNode 1 (-maxKey) sentinalValue ∨
    Mem.init.node x = leafNode 2 maxKey sentinalValue := by
  simp only [Mem.init, if_neg hx]
  split_ifs
  · exact .inl rfl
  · exact .inr rfl

theorem PcAlone.init : LeafVersions Mem.init ∧ PcAlone [] Mem.init .idle := by
  have leaf : ∀ {x}, x ≠ root → (Mem.init.node x).isLeaf = true := by
    intro x hx
    rcases init_node_of_ne hx with he | he <;> rw [he] <;> rfl
  refine ⟨fun x _ hl => ?_, rfl, ⟨fun k v hk hk' => ⟨nofun, ?_⟩, fun x _ hi hd => ?_⟩, rfl⟩
  · have hx : x ≠ root := fun e => by
      rw [e] at hl
      cases hl
    rcases init_node_of_ne hx with he | he <;> rw [he] <;> exact ⟨_, rfl⟩
  · -- there are only the sentinels
    rintro ⟨x, -, hl, hxk, -⟩
    have hx : x ≠ root := fun e => by
      rw [e] at hl
      cases hl
    rcases init_node_of_ne hx with he | he <;> rw [he, leafNode] at hxk <;> dsimp only at hxk <;>
      omega
  · rw [leaf fun e => hd (List.mem_singleton.mpr e)] at hi
    cases hi

/-- **The invariant holds along every run of one thread.** -/
theorem Alone.pcAlone (h : Alone i ops s) : LeafVersions s.mem ∧ PcAlone ops s.mem (s.pc i) := by
  induction h with
  | init => exact PcAlone.init
  | @call ops s op h hrest hop ih =>
      refine ⟨ih.1, ?_⟩
      rw [Machine.State.set_pc_self, Machine.State.set_mem]
      have hpc := ih.2
      cases he : s.pc i with
      | idle =>
          rw [he] at hpc
          exact ⟨hop, ⟨ops, rfl, hpc.2.1.holds⟩, hpc.2.1.clean, .inl rfl⟩
      | ret r =>
          rw [he] at hpc
          exact ⟨hop, ⟨ops, rfl, hpc.holds⟩, hpc.clean.mono (List.nil_subset _), .inl rfl⟩
      | _ => rw [he] at hrest; cases hrest
  | @act ops s h ih =>
      have hI := reachable_inv h.reachable
      obtain ⟨t, hB⟩ := hI.base
      rw [Machine.act, Machine.State.set_pc_self, Machine.State.set_mem]
      exact ih.2.step hB (hI.pcs i) ih.1

theorem Effected.shows {m : Mem} {t : LTree ℕ} (h : Effected ops m []) (hL : LeafVersions m)
    (hB : Base m t) :
    Shows m.linked.key (fun x => (m.node x).version.sum) t (m.node root).version := by
  have hshows := shows_of_clean h.clean hL hB.labels_lt hB.tree.rep
    fun x hx => hB.tree.live_iff.mpr hx
  rwa [hB.tree.top] at hshows

/-- The value of a key, in terms of the tree. -/
theorem Holds.eq_leafAt {m : Mem} {t : LTree ℕ} {f : ℤ → Option ℤ} {k : ℤ} (hf : Holds m f)
    (hB : Base m t) (hk : -maxKey < k) (hk' : k < maxKey) :
    f k = if m.linked.key (t.leafAt m.linked.key k) = k then
      some (m.node (t.leafAt m.linked.key k)).version.sum else none := by
  have hmem : ∀ {x}, x ∈ t.leaves ↔ m.linked.Live root x ∧ (m.node x).isLeaf = true := by
    intro x
    rw [hB.tree.rep.mem_leaves_iff, hB.tree.live_iff]
    exact and_congr_right fun _ => ⟨isLeaf_of_kids, kids_of_leaf⟩
  have hleaf := hmem.mp (LTree.leafAt_mem_leaves m.linked.key k t)
  split_ifs with hkey
  · exact hf.eq_some hk hk' ⟨hleaf.1, hleaf.2, hkey, rfl⟩
  · cases hv : f k with
    | none => rfl
    | some v =>
        obtain ⟨x, hx⟩ := (hf k v hk hk').mp hv
        exact absurd ((hB.tree.ordered.exists_leaf_iff k).mp
          ⟨x, hmem.mpr ⟨hx.live, hx.leaf⟩, hx.key⟩) hkey

/-- **`lookup` is exact** when the last call of the thread has returned. -/
theorem Alone.lookup_eq (h : Alone i ops s) (hrest : (s.pc i).resting = true) {k : ℤ}
    (hk : -maxKey < k) (hk' : k < maxKey) :
    lookup k (s.mem.node root).version = (stored ops k).getD sentinalValue := by
  obtain ⟨hL, hpc⟩ := h.pcAlone
  obtain ⟨t, hB⟩ := (reachable_inv h.reachable).base
  cases he : s.pc i with
  | idle =>
      -- no call has been made
      rw [he] at hpc
      obtain ⟨rfl, -, hv⟩ := hpc
      rw [hv]
      simp [lookup, stored, hk'.ne']
  | ret r =>
      rw [he] at hpc
      rw [SubEric.lookup_eq (hpc.shows hL hB), hpc.holds.eq_leafAt hB hk hk']
      split_ifs <;> rfl
  | _ => rw [he] at hrest; cases hrest

/-- **`range_sum` is exact** when the last call of the thread has returned. -/
theorem Alone.rangeSum_eq (h : Alone i ops s) (hrest : (s.pc i).resting = true) {a b : ℤ}
    (ha : -maxKey < a) (hb : b < maxKey) : rangeSum a b (s.mem.node root).version =
      ∑ k ∈ Finset.Icc a b, (stored ops k).getD 0 := by
  obtain ⟨hL, hpc⟩ := h.pcAlone
  obtain ⟨t, hB⟩ := (reachable_inv h.reachable).base
  cases he : s.pc i with
  | idle =>
      rw [he] at hpc
      obtain ⟨rfl, -, hv⟩ := hpc
      rw [hv]
      simp [rangeSum, splitPoint, stored, not_le.mpr hb]
  | ret r =>
      rw [he] at hpc
      rw [SubEric.rangeSum_eq (hpc.shows hL hB) hB.tree.ordered, inRange_eq_sum hB.tree.ordered]
      refine Finset.sum_congr rfl fun k hk => ?_
      rw [Finset.mem_Icc] at hk
      rw [hpc.holds.eq_leafAt hB (ha.trans_le hk.1) (hk.2.trans_lt hb), valueAt]
      split_ifs <;> rfl
  | _ => rw [he] at hrest; cases hrest

/-- No call stores `SENTINAL_VALUE`. -/
theorem Alone.stored_ne (h : Alone i ops s) {k v : ℤ} (hv : stored ops k = some v) :
    v ≠ sentinalValue := by
  induction h generalizing k v with
  | init => cases hv
  | act h ih => exact ih hv
  | call op h hrest hop ih =>
      rw [stored_concat] at hv
      cases op with
      | insert key val =>
          rw [Op.apply] at hv
          split_ifs at hv
          · exact ih hv
          · by_cases hk : k = key
            · subst hk
              rw [Function.update_self, Option.some.injEq] at hv
              subst hv
              simp only [Op.proper, Bool.and_eq_true, bne_iff_ne] at hop
              exact hop.2
            · rw [Function.update_of_ne hk] at hv
              exact ih hv
      | remove key =>
          rw [Op.apply] at hv
          by_cases hk : k = key
          · subst hk
            rw [Function.update_self] at hv
            cases hv
          · rw [Function.update_of_ne hk] at hv
            exact ih hv

/-- So `search` finds the stored keys. -/
theorem Alone.search_eq (h : Alone i ops s) (hrest : (s.pc i).resting = true) {k : ℤ}
    (hk : -maxKey < k) (hk' : k < maxKey) :
    search k (s.mem.node root).version = (stored ops k).isSome := by
  rw [search, h.lookup_eq hrest hk hk']
  cases hv : stored ops k with
  | none => rfl
  | some v => exact decide_eq_true (h.stored_ne hv)

/-- **The queries are exact.**  When one thread has made these calls, and the last one has returned,
`range_sum` returns the sum of the values of the stored keys between its bounds, and `lookup` the
value of a stored key, and `SENTINAL_VALUE` for any other key. -/
theorem queries_exact (h : Alone i ops s) (hrest : (s.pc i).resting = true) :
    (∀ a b, -maxKey < a → a < maxKey → -maxKey < b → b < maxKey →
      rangeSum a b (s.mem.node root).version = ∑ k ∈ Finset.Icc a b, (stored ops k).getD 0) ∧
    ∀ k, -maxKey < k → k < maxKey →
      lookup k (s.mem.node root).version = (stored ops k).getD sentinalValue :=
  ⟨fun _ _ ha _ _ hb => h.rangeSum_eq hrest ha hb, fun _ hk hk' => h.lookup_eq hrest hk hk'⟩

theorem Alone.acts (h : Alone i ops s) (n : ℕ) :
    Alone i ops ((fun s => machine.act s i)^[n] s) := by
  induction n generalizing s with
  | zero => exact h
  | succ n ih => exact ih h.act

end Runs

/-- Sixty steps of thread 0, enough for a call in a small tree. -/
def sixty (s : State) : State := (fun s => machine.act s 0)^[60] s

/-- Thread 0 inserts the key 5. -/
def oneKey : State := sixty (machine.init.set .init 0 (.start ⟨.insert 5 7, 0⟩))

/-- It then inserts the key 9. -/
def twoKeys : State := sixty (oneKey.set oneKey.mem 0 (.start ⟨.insert 9 1, 0⟩))

theorem twoKeys_alone : Alone 0 [.insert 5 7, .insert 9 1] twoKeys :=
  have one : Alone 0 [.insert 5 7] oneKey := (Alone.init.call (.insert 5 7) rfl rfl).acts 60
  (one.call (.insert 9 1) (by decide +kernel) rfl).acts 60

theorem queries_exact_twoKeys : (twoKeys.pc 0).resting = true ∧
    rangeSum 1 8 (twoKeys.mem.node root).version =
      ∑ k ∈ Finset.Icc 1 8, (stored [.insert 5 7, .insert 9 1] k).getD 0 ∧
    lookup 9 (twoKeys.mem.node root).version = 1 := by
  have hrest : (twoKeys.pc 0).resting = true := by decide +kernel
  have hq := queries_exact twoKeys_alone hrest
  exact ⟨hrest, hq.1 1 8 (by decide) (by decide) (by decide) (by decide),
    hq.2 9 (by decide) (by decide)⟩

end Cbat.SubEric
