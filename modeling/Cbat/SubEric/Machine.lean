/-
**The unbalanced tree with delegation: the program.**

`SubEricTree` is an unbalanced leaf-oriented search tree with fine-grained locks.  `insert` locks
the parent of a leaf and replaces the leaf by an internal node above a new leaf and a copy of the
old one; `remove` locks the parent and the grandparent and replaces the parent by the other child.
Both then `propagate` the new sums along the search path, with delegation.  This module has the
nodes, the versions and all atomic steps.  Building new nodes, which no other thread can see yet,
belongs to the step that publishes them, and a load of a bundled pair of pointers is one step.

Main definitions:

* `Cbat.SubEric.VersionInfo`, `Cbat.SubEric.Node`, `Cbat.SubEric.Mem` — the memory;
* `Cbat.SubEric.PC` — where a thread is in `insert`, `remove` and `propagate`;
* `Cbat.SubEric.exec` — **one atomic step**;
* `Cbat.SubEric.machine` — the program.
-/

import Cbat.LinkedTree
import Cbat.Threads

set_option relaxedAutoImplicit false
set_option autoImplicit false

namespace Cbat.SubEric

/-! ### The memory -/

/-- `MAX_KEY` -/
def maxKey : ℤ := 2147483647

/-- `SENTINAL_VALUE` -/
def sentinalValue : ℤ := -1

/-- `VersionInfo`.  The field `id` stands for the address, and `nil` is the null pointer. -/
inductive VersionInfo where
  | nil : VersionInfo
  | mk (id : ℕ) (key minKey maxKey sum : ℤ) (left right : VersionInfo) : VersionInfo
  deriving DecidableEq

namespace VersionInfo

/-- The fields of a version; `0` for the null pointer, which the code does not read. -/
def sum : VersionInfo → ℤ
  | nil => 0
  | mk _ _ _ _ s _ _ => s

/-- The least key below a version. -/
def minKey : VersionInfo → ℤ
  | nil => 0
  | mk _ _ a _ _ _ _ => a

/-- The largest key below a version. -/
def maxKey : VersionInfo → ℤ
  | nil => 0
  | mk _ _ _ b _ _ _ => b

end VersionInfo

/-- `Node`, `LeafNode` and `InternalNode`.  `child false` and `child true` are `child[0]` and
`child[1]`; `version` and `status` are the two halves of `version_status`. -/
structure Node where
  /-- the key -/
  key : ℤ
  /-- whether it is a leaf -/
  isLeaf : Bool
  /-- the children of an internal node -/
  child : Bool → ℕ
  /-- set before the node is cut off -/
  removed : Bool
  /-- the lock -/
  mtx : Bool
  /-- the version -/
  version : VersionInfo
  /-- the status of the propagation that has written the version -/
  status : ℕ

/-- `PropagateStatus`: a pointer with the done bit. -/
structure PropagateStatus where
  /-- the propagation that this one has delegated to; `0` is null -/
  subscribedTo : ℕ
  /-- the done bit -/
  done : Bool

/-- The memory; the address `0` is null. -/
structure Mem where
  /-- the nodes -/
  node : ℕ → Node
  /-- the first free address -/
  next : ℕ
  /-- the status records -/
  status : ℕ → PropagateStatus
  /-- the first free address of a status record -/
  nextStatus : ℕ
  /-- the first free address of a version -/
  nextVer : ℕ

/-- The address of `root`. -/
def root : ℕ := 1

namespace Mem

/-- The memory with another node at `x`. -/
def setNode (m : Mem) (x : ℕ) (f : Node → Node) : Mem :=
  { m with node := Function.update m.node x (f (m.node x)) }

/-- Writes a child pointer. -/
def setChild (m : Mem) (x : ℕ) (d : Bool) (y : ℕ) : Mem :=
  m.setNode x fun n => { n with child := Function.update n.child d y }

/-- Writes the lock. -/
def setMtx (m : Mem) (x : ℕ) (b : Bool) : Mem := m.setNode x fun n => { n with mtx := b }

/-- Writes `removed`. -/
def setRemoved (m : Mem) (x : ℕ) : Mem := m.setNode x fun n => { n with removed := true }

/-- Writes `version_status`. -/
def setVersion (m : Mem) (x : ℕ) (v : VersionInfo) (ps : ℕ) : Mem :=
  { m.setNode x (fun n => { n with version := v, status := ps }) with nextVer := m.nextVer + 1 }

/-- Writes a status record. -/
def setStatus (m : Mem) (ps : ℕ) (f : PropagateStatus → PropagateStatus) : Mem :=
  { m with status := Function.update m.status ps (f (m.status ps)) }

end Mem

/-- `LeafNode(k, v)`, with the version `id`. -/
def leafNode (id : ℕ) (k v : ℤ) : Node :=
  ⟨k, true, fun _ => 0, false, false, .mk id k k k v .nil .nil, 0⟩

/-- `InternalNode(k, l, r)` above the leaves `l` and `r` at the addresses `x` and `y`. -/
def internalNode (id : ℕ) (k : ℤ) (x : ℕ) (l : Node) (y : ℕ) (r : Node) : Node :=
  ⟨k, false, fun d => if d then y else x, false, false,
    .mk id k (min l.key r.key) (max l.key r.key) (l.version.sum + r.version.sum)
      l.version r.version,
    0⟩

/-- The tree that the constructor builds: `root` above the two sentinels. -/
def Mem.init : Mem where
  node x :=
    if x = root then
      ⟨maxKey, false, fun d => if d then 3 else 2, false, false,
        .mk 0 maxKey (-maxKey) maxKey 0 .nil .nil, 0⟩
    else if x = 2 then leafNode 1 (-maxKey) sentinalValue
    else leafNode 2 maxKey sentinalValue
  next := 4
  status _ := ⟨0, false⟩
  nextStatus := 1
  nextVer := 3

/-- `make_updated_verion_info` -/
def makeUpdatedVersionInfo (id : ℕ) (nd : Node) (left right : VersionInfo) : VersionInfo :=
  .mk id nd.key (min left.minKey right.minKey) (max left.maxKey right.maxKey)
    (left.sum + right.sum) left right

/-! ### The program counters -/

/-- The updates. -/
inductive Op where
  | insert (key val : ℤ)
  | remove (key : ℤ)

/-- The key of an update. -/
def Op.key : Op → ℤ
  | insert k _ | remove k => k

/-- The keys are between the sentinels and the values are not `SENTINAL_VALUE`. -/
def Op.proper : Op → Bool
  | insert k v => -maxKey < k && k < maxKey && v != sentinalValue
  | remove k => -maxKey < k && k < maxKey

/-- What an update returns. -/
inductive Result where
  | inserted (success : Bool)
  | removed (value : ℤ)
  deriving DecidableEq

/-- A call: the update, and for `remove` the leaf of the attempt before (`0` is null). -/
structure Call where
  /-- the update -/
  op : Op
  /-- `prev_leaf` -/
  prevLeaf : ℕ

/-- Where a search is, or what `find` has returned. -/
structure Found where
  /-- the grandparent; `0` is null -/
  gp : ℕ
  /-- the side of the parent -/
  gpDir : Bool
  /-- the parent -/
  p : ℕ
  /-- the side of `l` -/
  pDir : Bool
  /-- the node that the search has come to -/
  l : ℕ
  /-- `path_stk`, the last node first -/
  stk : List ℕ

/-- What follows when the locks have been released. -/
inductive After where
  | retry
  | propagate (stk : List ℕ) (r : Result)

/-- A call of `refreshUntilConsistent`. -/
structure Refresh where
  /-- the rest of `path_stk` -/
  stk : List ℕ
  /-- what the update returns in the end -/
  r : Result
  /-- the status of this propagation -/
  ps : ℕ
  /-- the node -/
  nd : ℕ
  /-- `existed_0` -/
  existed : VersionInfo × ℕ
  /-- `left2.second` and `right2.second`, after the first CAS -/
  old : Option (VersionInfo × VersionInfo)
  /-- `left.second`, once it is loaded -/
  left : VersionInfo

/-- Where a thread is. -/
inductive PC where
  | idle
  /-- loads `root->child[0]` -/
  | start (c : Call)
  /-- at the head of the loop of `find` -/
  | find (c : Call) (f : Found)
  -- `insert`
  /-- tries to lock `p` -/
  | insertLock (c : Call) (f : Found)
  /-- reads `p->removed` -/
  | insertRemoved (c : Call) (f : Found)
  /-- reads the child pointer again -/
  | insertPtr (c : Call) (f : Found)
  /-- stores the new internal node -/
  | insertStore (c : Call) (f : Found)
  -- `remove`
  /-- tries to lock `gp` -/
  | removeLockGp (c : Call) (f : Found)
  /-- tries to lock `p` -/
  | removeLockP (c : Call) (f : Found)
  /-- reads `gp->removed` -/
  | removeRemoved (c : Call) (f : Found)
  /-- reads the pointer from `gp` to `p` again -/
  | removePtr (c : Call) (f : Found)
  /-- loads the other child of `p` -/
  | removeRemaining (c : Call) (f : Found)
  /-- reads the pointer from `p` to the leaf again -/
  | removeTarget (c : Call) (f : Found) (remaining : ℕ)
  /-- sets `p->removed` -/
  | removeMark (c : Call) (f : Found) (remaining : ℕ)
  /-- stores the other child -/
  | removeStore (c : Call) (f : Found) (remaining : ℕ)
  /-- releases locks -/
  | unlock (c : Call) (locks : List ℕ) (k : After)
  -- `propagate`
  /-- allocates the status record -/
  | propagate (stk : List ℕ) (r : Result)
  /-- at the head of the loop of `propagate` -/
  | propNext (stk : List ℕ) (r : Result) (ps : ℕ)
  /-- loads `existed_0` -/
  | loadExisted (stk : List ℕ) (r : Result) (ps nd : ℕ)
  /-- `load_child_version_atomic`: loads the child pointer -/
  | loadChild (R : Refresh) (d : Bool)
  /-- loads the version of the child -/
  | loadVersion (R : Refresh) (d : Bool) (child : ℕ)
  /-- reads the child pointer again -/
  | checkChild (R : Refresh) (d : Bool) (child : ℕ) (v : VersionInfo)
  /-- the CAS -/
  | cas (R : Refresh) (right : VersionInfo)
  /-- writes `ps->subscribedTo` -/
  | subscribe (r : Result) (ps cur : ℕ)
  /-- reads `ps->subscribedTo` -/
  | subscribed (r : Result) (ps : ℕ)
  /-- waits for the done bit -/
  | wait (r : Result) (ps sub : ℕ)
  /-- sets the done bit -/
  | setDone (r : Result) (ps : ℕ)
  | ret (r : Result)
  /-- a null pointer was dereferenced -/
  | crash

/-- The thread can start a call. -/
def PC.resting : PC → Bool
  | idle | ret _ => true
  | _ => false

/-! ### The steps -/

/-- What follows a search that has come to the leaf `f.l` with the key `k`. -/
def found (m : Mem) (c : Call) (f : Found) : PC :=
  match c.op with
  | .insert key _ =>
      if (m.node f.l).key = key then .propagate f.stk (.inserted false) else .insertLock c f
  | .remove key =>
      if (m.node f.l).key ≠ key then .propagate f.stk (.removed sentinalValue)
      else if c.prevLeaf ≠ 0 ∧ c.prevLeaf ≠ f.l then .propagate f.stk (.removed sentinalValue)
      else .removeLockGp { c with prevLeaf := f.l } f

/-- The store of `insert`: it builds the new leaf, the copy of the old leaf and the internal node
above them, and writes the child pointer of `p`. -/
def insertStore (m : Mem) (key val : ℤ) (f : Found) : Mem :=
  let old := m.node f.l
  let fresh := leafNode m.nextVer key val
  let copy := leafNode (m.nextVer + 1) old.key old.version.sum
  let x := m.next
  let top :=
    if key < old.key then internalNode (m.nextVer + 2) old.key x fresh (x + 1) copy
    else internalNode (m.nextVer + 2) key (x + 1) copy x fresh
  { m with
    node := Function.update (Function.update (Function.update m.node x fresh) (x + 1) copy)
      (x + 2) top
    next := x + 3
    nextVer := m.nextVer + 3 }.setChild f.p f.pDir (x + 2)

/-- The steps of `insert` and `remove` up to the release of the locks. -/
def execUpdate (m : Mem) : PC → Mem × PC
  | .start c =>
      (m, .find c ⟨0, true, root, false, (m.node root).child false, [root]⟩)
  | .find c f =>
      if (m.node f.l).isLeaf then (m, found m c f)
      else
        let dir := decide ((m.node f.l).key ≤ c.op.key)
        (m, .find c ⟨f.p, f.pDir, f.l, dir, (m.node f.l).child dir, f.l :: f.stk⟩)
  | .insertLock c f =>
      if (m.node f.p).mtx then (m, .start c) else (m.setMtx f.p true, .insertRemoved c f)
  | .insertRemoved c f =>
      if (m.node f.p).removed then (m, .unlock c [f.p] .retry) else (m, .insertPtr c f)
  | .insertPtr c f =>
      if (m.node f.p).child f.pDir ≠ f.l then (m, .unlock c [f.p] .retry)
      else (m, .insertStore c f)
  | .insertStore c f =>
      match c.op with
      | .insert key val =>
          (insertStore m key val f, .unlock c [f.p] (.propagate f.stk (.inserted true)))
      | .remove _ => (m, .crash)
  | .removeLockGp c f =>
      if f.gp = 0 then (m, .crash)
      else if (m.node f.gp).mtx then (m, .start c)
      else (m.setMtx f.gp true, .removeLockP c f)
  | .removeLockP c f =>
      if (m.node f.p).mtx then (m, .unlock c [f.gp] .retry)
      else (m.setMtx f.p true, .removeRemoved c f)
  | .removeRemoved c f =>
      if (m.node f.gp).removed then (m, .unlock c [f.gp, f.p] .retry) else (m, .removePtr c f)
  | .removePtr c f =>
      if (m.node f.gp).child f.gpDir ≠ f.p then (m, .unlock c [f.gp, f.p] .retry)
      else (m, .removeRemaining c f)
  | .removeRemaining c f => (m, .removeTarget c f ((m.node f.p).child (!f.pDir)))
  | .removeTarget c f remaining =>
      if (m.node f.p).child f.pDir ≠ f.l then (m, .unlock c [f.gp, f.p] .retry)
      else (m, .removeMark c f remaining)
  | .removeMark c f remaining => (m.setRemoved f.p, .removeStore c f remaining)
  | .removeStore c f remaining =>
      -- the value of the leaf, whose version never changes, is read after the store
      (m.setChild f.gp f.gpDir remaining, .unlock c [f.gp, f.p]
        (.propagate f.stk.tail (.removed (m.node f.l).version.sum)))
  | .unlock c (x :: locks) k => (m.setMtx x false, .unlock c locks k)
  | .unlock c [] .retry => (m, .start c)
  | .unlock _ [] (.propagate stk r) => (m, .propagate stk r)
  | pc => (m, pc)

/-- The CAS of `refreshUntilConsistent`. -/
def execCas (m : Mem) (R : Refresh) (right : VersionInfo) : Mem × PC :=
  let nd := m.node R.nd
  let new := makeUpdatedVersionInfo m.nextVer nd R.left right
  if (nd.version, nd.status) = R.existed then
    (m.setVersion R.nd new R.ps,
      .loadChild { R with existed := (new, R.ps), old := some (R.left, right) } false)
  else if nd.status ≠ R.ps then (m, .subscribe R.r R.ps nd.status)
  else (m, .propNext R.stk R.r R.ps)

/-- The steps of `propagate`. -/
def execPropagate (m : Mem) : PC → Mem × PC
  | .propagate stk r =>
      ({ m.setStatus m.nextStatus (fun _ => ⟨0, false⟩) with nextStatus := m.nextStatus + 1 },
        .propNext stk r m.nextStatus)
  | .propNext [] r ps => (m, .subscribed r ps)
  | .propNext (nd :: stk) r ps => (m, .loadExisted stk r ps nd)
  | .loadExisted stk r ps nd =>
      (m, .loadChild ⟨stk, r, ps, nd, ((m.node nd).version, (m.node nd).status), none, .nil⟩ false)
  | .loadChild R d => (m, .loadVersion R d ((m.node R.nd).child d))
  | .loadVersion R d child => (m, .checkChild R d child (m.node child).version)
  | .checkChild R d child v =>
      if (m.node R.nd).child d ≠ child then (m, .loadChild R d)
      else if d then
        -- the loop ends when no version has changed since the last CAS
        if R.old = some (R.left, v) then (m, .propNext R.stk R.r R.ps) else (m, .cas R v)
      else (m, .loadChild { R with left := v } true)
  | .cas R right => execCas m R right
  | .subscribe r ps cur =>
    (m.setStatus ps fun st => { st with subscribedTo := cur }, .subscribed r ps)
  | .subscribed r ps =>
      if (m.status ps).subscribedTo = 0 then (m, .setDone r ps)
      else (m, .wait r ps (m.status ps).subscribedTo)
  | .wait r ps sub => if (m.status sub).done then (m, .setDone r ps) else (m, .wait r ps sub)
  | .setDone r ps => (m.setStatus ps fun st => { st with done := true }, .ret r)
  | pc => (m, pc)

/-- **One atomic step.** -/
def exec (m : Mem) (pc : PC) : Mem × PC :=
  match pc with
  | .idle | .ret _ | .crash => (m, pc)
  | .start _ | .find _ _ | .insertLock _ _ | .insertRemoved _ _ | .insertPtr _ _ | .insertStore _ _
  | .removeLockGp _ _ | .removeLockP _ _ | .removeRemoved _ _ | .removePtr _ _
  | .removeRemaining _ _ | .removeTarget _ _ _ | .removeMark _ _ _ | .removeStore _ _ _
  | .unlock _ _ _ => execUpdate m pc
  | .propagate _ _ | .propNext _ _ _ | .loadExisted _ _ _ _ | .loadChild _ _ | .loadVersion _ _ _
  | .checkChild _ _ _ _ | .cas _ _ | .subscribe _ _ _ | .subscribed _ _ | .wait _ _ _
  | .setDone _ _ => execPropagate m pc

/-- **The program.** -/
def machine : Machine Mem PC Op where
  exec := exec
  resting := PC.resting
  start op := .start ⟨op, 0⟩
  proper := Op.proper
  mem₀ := .init
  idle := .idle

/-- Keys and children of the nodes. -/
def Mem.linked (m : Mem) : Linked ℤ where
  key x := (m.node x).key
  kids x := if (m.node x).isLeaf then none else some ((m.node x).child false, (m.node x).child true)

/-- A leaf of the tree has the key. -/
def InTree (m : Mem) (k : ℤ) : Prop := m.linked.Stored root k

end Cbat.SubEric
