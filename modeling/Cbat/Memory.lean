/-
**Shared memory: nodes, SCX records and what an SCX does.**

Nodes are cells of a heap indexed by addresses, with `0` for the null pointer; memory is never
recycled, so an address is used once.  An update reads the fields of a few nodes (LLX), builds the
top of a new subtree in nodes of its own, and hands both to an SCX.  The SCX freezes the nodes it
read and marks the ones that it removes, and in a later step swings one child pointer to the new
subtree.  The new nodes are private until that step, which is when they get their addresses here.

Main definitions:

* `Cbat.Node`, `Cbat.PropagateStatus`, `Cbat.Mem` — the shared memory;
* `Cbat.NewNode`, `Cbat.initializeNode`, `Cbat.initializeNodeWithVersion` — a new subtree, as a
  patch over the subtrees that stay;
* `Cbat.ScxType`, `Cbat.ScxRecord` — the types of replacement with their tables, and the records;
* `Cbat.Mem.freeze`, `Cbat.Mem.swing` — the two steps of an SCX;
* `Cbat.Mem.init` — what the constructor builds.
-/

import Cbat.TreePatch
import Cbat.Version
import Mathlib.Logic.Function.Basic

set_option relaxedAutoImplicit false
set_option autoImplicit false

namespace Cbat

variable {K V : Type}

/-- A node of the chromatic tree.  `frozen` says that `scxRecord` is an SCX in progress. -/
structure Node (K V : Type) where
  /-- the key: routing in an internal node, stored in a leaf -/
  key : K
  /-- the value -/
  value : V
  /-- the weight of the chromatic tree -/
  weight : ℤ
  /-- the left child -/
  left : ℕ
  /-- the right child -/
  right : ℕ
  /-- finalized by an SCX -/
  marked : Bool
  /-- frozen for an SCX in progress -/
  frozen : Bool
  /-- the current version -/
  version : Ver K

/-- The status record of a call of `propagate` in the delegating variants. -/
structure PropagateStatus where
  /-- the status of the call this one waits for -/
  delegatee : ℕ
  /-- the call is finished -/
  done : Bool

/-- The shared memory. -/
structure Mem (K V : Type) where
  /-- the nodes by address -/
  node : ℕ → Node K V
  /-- the first unused node address -/
  next : ℕ
  /-- the first unused version address -/
  nextVer : ℕ
  /-- the status records by address -/
  status : ℕ → PropagateStatus
  /-- the first unused status address -/
  nextStatus : ℕ

/-- The address of the root sentinel. -/
def root : ℕ := 1

namespace Mem

/-- The version of a child; the null pointer has none. -/
def ver (m : Mem K V) (x : ℕ) : Ver K := if x = 0 then .nil else (m.node x).version

@[simp] theorem ver_zero (m : Mem K V) : m.ver 0 = .nil := rfl

theorem ver_of_ne (m : Mem K V) {x : ℕ} (h : x ≠ 0) : m.ver x = (m.node x).version := if_neg h

/-- Write one node. -/
def setNode (m : Mem K V) (a : ℕ) (n : Node K V) : Mem K V :=
  { m with node := Function.update m.node a n }

/-- Store a version. -/
def setVersion (m : Mem K V) (a : ℕ) (v : Ver K) : Mem K V :=
  m.setNode a { m.node a with version := v }

@[simp] theorem setNode_self (m : Mem K V) (a : ℕ) (n : Node K V) : (m.setNode a n).node a = n :=
  Function.update_self ..

theorem setNode_of_ne (m : Mem K V) {a b : ℕ} (n : Node K V) (h : b ≠ a) :
    (m.setNode a n).node b = m.node b :=
  Function.update_of_ne h ..

@[simp] theorem setNode_next (m : Mem K V) (a : ℕ) (n : Node K V) :
    (m.setNode a n).next = m.next := rfl
@[simp] theorem setNode_nextVer (m : Mem K V) (a : ℕ) (n : Node K V) :
    (m.setNode a n).nextVer = m.nextVer := rfl
@[simp] theorem setNode_status (m : Mem K V) (a : ℕ) (n : Node K V) :
    (m.setNode a n).status = m.status := rfl
@[simp] theorem setNode_nextStatus (m : Mem K V) (a : ℕ) (n : Node K V) :
    (m.setNode a n).nextStatus = m.nextStatus := rfl

end Mem

/-! ### New subtrees -/

/-- A node that an update has initialized in one of its preallocated slots.  `sum` is the sum of
the version it starts with, if it starts with one. -/
structure NewNode (K V : Type) where
  /-- the index of the preallocated node -/
  slot : ℕ
  /-- the key -/
  key : K
  /-- the value -/
  value : V
  /-- the weight -/
  weight : ℤ
  /-- the sum of the initial version -/
  sum : Option ℤ

/-- The top of a new subtree, over the addresses of the subtrees that stay. -/
abbrev NewTree (K V : Type) := Patch (NewNode K V) ℕ

/-- `initializeNodeWithVersion`; the version has the sum `sum` and the versions of the children. -/
def initializeNodeWithVersion (slot : ℕ) (key : K) (value : V) (weight : ℤ)
    (left right : NewTree K V) (sum : ℤ) : NewTree K V :=
  match left with
  | .sub 0 => .leaf ⟨slot, key, value, weight, some sum⟩
  | _ => .node ⟨slot, key, value, weight, some sum⟩ left right

/-- `initializeNode`: a leaf gets a version with the sum 1, an internal node none. -/
def initializeNode (slot : ℕ) (key : K) (value : V) (weight : ℤ)
    (left right : NewTree K V) : NewTree K V :=
  match left with
  | .sub 0 => .leaf ⟨slot, key, value, weight, some 1⟩
  | _ => .node ⟨slot, key, value, weight, none⟩ left right

/-- The null pointer as a subtree. -/
def null : NewTree K V := .sub 0

/-- The address of the top of a new subtree whose slots start at `base`. -/
def newPtr (base : ℕ) : NewTree K V → ℕ
  | .sub p => p
  | .leaf a => base + a.slot
  | .node a _ _ => base + a.slot

/-- The version a new node starts with; the slots of the versions start at `base`. -/
def newVersion (base : ℕ) : NewTree K V → Ver K
  | .sub _ => .nil
  | .leaf a => match a.sum with
      | none => .nil
      | some s => .mk (base + a.slot) a.key s .nil .nil 0
  | .node a l r => match a.sum with
      | none => .nil
      | some s => .mk (base + a.slot) a.key s (newVersion base l) (newVersion base r) 0

/-- The new nodes written to memory. -/
def Mem.publish (m : Mem K V) : NewTree K V → Mem K V
  | .sub _ => m
  | .leaf a =>
      m.setNode (m.next + a.slot) ⟨a.key, a.value, a.weight, 0, 0, false, false,
        newVersion m.nextVer (.leaf a)⟩
  | .node a l r =>
      ((m.publish l).publish r).setNode (m.next + a.slot)
        ⟨a.key, a.value, a.weight, newPtr m.next l, newPtr m.next r, false, false,
          newVersion m.nextVer (.node a l r)⟩

/-! ### SCX records -/

/-- The types of replacement. -/
inductive ScxType where
  | ins | del | blk | rb1 | rb2 | push | w1 | w2 | w3 | w4 | w5 | w6 | w7
  | rb1Sym | rb2Sym | pushSym | w1Sym | w2Sym | w3Sym | w4Sym | w5Sym | w6Sym | w7Sym
  | replace
  deriving DecidableEq

/-- `NUM_INSERTED`. -/
def ScxType.numInserted : ScxType → ℕ
  | ins => 3 | del => 1 | blk => 3 | rb1 => 2 | rb2 => 3 | push => 3
  | w1 => 4 | w2 => 4 | w3 => 5 | w4 => 5 | w5 => 4 | w6 => 4 | w7 => 3
  | rb1Sym => 2 | rb2Sym => 3 | pushSym => 3
  | w1Sym => 4 | w2Sym => 4 | w3Sym => 5 | w4Sym => 5 | w5Sym => 4 | w6Sym => 4 | w7Sym => 3
  | replace => 1

/-- `NUM_TO_FREEZE`. -/
def ScxType.numToFreeze : ScxType → ℕ
  | ins => 1 | del => 3 | blk => 4 | rb1 => 3 | rb2 => 4 | push => 4
  | w1 => 5 | w2 => 5 | w3 => 6 | w4 => 6 | w5 => 5 | w6 => 5 | w7 => 4
  | rb1Sym => 3 | rb2Sym => 4 | pushSym => 4
  | w1Sym => 5 | w2Sym => 5 | w3Sym => 6 | w4Sym => 6 | w5Sym => 5 | w6Sym => 5 | w7Sym => 4
  | replace => 1

/-- The arguments of an SCX: `nodes[0]` is the node whose field changes, `nodes[1]` the old
value of that field. -/
structure ScxRecord (K V : Type) where
  /-- the type of replacement -/
  type : ScxType
  /-- the nodes of the record -/
  nodes : List ℕ
  /-- whether the field is `left` -/
  fieldIsLeft : Bool
  /-- the new subtree -/
  newNode : NewTree K V

namespace ScxRecord

/-- `nodes[i]`. -/
def nth (rec : ScxRecord K V) (i : ℕ) : ℕ := rec.nodes.getD i 0

/-- The nodes that the SCX freezes, leaves among them excepted. -/
def toFreeze (rec : ScxRecord K V) : List ℕ := rec.nodes.take rec.type.numToFreeze

end ScxRecord

/-- The first step of an SCX: freeze the nodes that are not leaves, and mark all but the first. -/
def Mem.freeze (m : Mem K V) (rec : ScxRecord K V) : Mem K V :=
  { m with node := fun x =>
      if x ∈ rec.toFreeze ∧ (m.node x).left ≠ 0 then
        { m.node x with
          frozen := true
          marked := (m.node x).marked || decide (x ∈ rec.toFreeze.tail) }
      else m.node x }

/-- The second step: publish the new nodes, swing the child pointer of `nodes[0]` if it is still
`nodes[1]`, and leave `nodes[0]` unfrozen. -/
def Mem.swing (m : Mem K V) (rec : ScxRecord K V) : Mem K V :=
  let u := rec.nth 0
  let top := newPtr m.next rec.newNode
  let n := m.node u
  let n' :=
    if rec.fieldIsLeft then
      if n.left = rec.nth 1 then { n with left := top, frozen := false }
      else { n with frozen := false }
    else
      if n.right = rec.nth 1 then { n with right := top, frozen := false }
      else { n with frozen := false }
  { (m.publish rec.newNode).setNode u n' with
    next := m.next + rec.type.numInserted
    nextVer := m.nextVer + rec.type.numInserted }

/-- What the constructor builds: `root` above `rootleft`, both with the key `NO_KEY` and a version
with the sum 0. -/
def Mem.init (noKey : K) (noValue : V) : Mem K V where
  node := fun a =>
    if a = root then
      ⟨noKey, noValue, 1, 2, 0, false, false, .mk 2 noKey 0 (.mk 1 noKey 0 .nil .nil 0) .nil 0⟩
    else ⟨noKey, noValue, 1, 0, 0, false, false, .mk 1 noKey 0 .nil .nil 0⟩
  next := 3
  nextVer := 3
  status := fun _ => ⟨0, false⟩
  nextStatus := 1

end Cbat
