/-
**The updates of the node tree, run alone.**

`updateInsert`, `updateErase` and `updateRebalancingStep` as functions of a tree.  A call that runs
alone finds every node as it left it: an LLX only fails on a null pointer, an SCX does not fail at
all, and the nodes of a search are still joined when they are checked.  What is left of the code is
what it computes.  A pointer is a binary tree, `nil` for null; a search keeps the nodes above the
one it has reached, because a rebalancing step replaces a subtree one or two nodes further up.  A
second LLX of the same node is left out.

Main definitions:

* `Cbat.Chromatic.Item`, `Cbat.Chromatic.Ptr`, `Cbat.Chromatic.Node` — what a node stores, pointers,
  and what an LLX returns;
* `Cbat.Chromatic.doBlk` … `Cbat.Chromatic.doW7Sym` — the new subtrees of the rebalancing steps;
* `Cbat.Chromatic.overweightLeft`, `Cbat.Chromatic.overweightRight`, `Cbat.Chromatic.redRed` — the
  case distinction;
* `Cbat.Chromatic.rebalanceAt`, `Cbat.Chromatic.updateRebalancingStep`,
  `Cbat.Chromatic.fixAllToKey` — **rebalancing**;
* `Cbat.Chromatic.updateInsert`, `Cbat.Chromatic.updateErase` — the updates;
* `Cbat.Chromatic.Valid`, `Cbat.Chromatic.holding` — **the chromatic weight invariant**, and the
  pointer to the root of a tree with the sentinels.
-/

import Cbat.Updates
import Cbat.PointerTree

set_option relaxedAutoImplicit false
set_option autoImplicit false

namespace Cbat.Chromatic

/-- The key, the value and the weight of a node. -/
structure Item (K V : Type) where
  /-- the key -/
  key : K
  /-- the value -/
  value : V
  /-- the weight -/
  weight : ℤ
  deriving DecidableEq

/-- A pointer to a node, with all that can be reached from it. -/
abbrev Ptr (K V : Type) : Type := BinaryTree (Item K V)

/-- A node as an LLX returns it. -/
structure Node (K V : Type) extends Item K V where
  /-- the left child -/
  left : Ptr K V
  /-- the right child -/
  right : Ptr K V

variable {K V : Type}

/-- The pointer to a node. -/
def Node.ptr (n : Node K V) : Ptr K V := .node n.toItem n.left n.right

/-- The pointer is null. -/
def isNull : Ptr K V → Bool
  | .nil => true
  | .node _ _ _ => false

/-- LLX, which reads the fields of the node. -/
def llx : Ptr K V → Except Stop (Node K V)
  | .nil => .error .crash
  | .node a l r => .ok ⟨a, l, r⟩

/-- A node with these fields. -/
def initializeNode (key : K) (value : V) (weight : ℤ) (left right : Ptr K V) : Ptr K V :=
  .node ⟨key, value, weight⟩ left right

/-- `IS_SENTINEL` -/
def isSentinel [DecidableEq K] (noKey : K) (node parent : Item K V) : Bool :=
  decide (node.key = noKey) || decide (parent.key = noKey)

/-! ### The steps

The arguments `n0`, `n1`, … are `nodes[0]`, `nodes[1]`, … of the source. -/

section Steps

variable (n0 n1 n2 n3 n4 n5 : Node K V)

/-- `doBlk` -/
def doBlk [DecidableEq K] (noKey : K) : Ptr K V :=
  let nodeXL := initializeNode n2.key n2.value 1 n2.left n2.right
  let nodeXR := initializeNode n3.key n3.value 1 n3.left n3.right
  let weight := if isSentinel noKey n1.toItem n0.toItem then 1 else n1.weight - 1
  initializeNode n1.key n1.value weight nodeXL nodeXR

/-- `doRb1` -/
def doRb1 : Ptr K V :=
  let nodeXR := initializeNode n1.key n1.value 0 n2.right n1.right
  let weight := n1.weight
  initializeNode n2.key n2.value weight n2.left nodeXR

/-- `doRb2` -/
def doRb2 : Ptr K V :=
  let nodeXL := initializeNode n2.key n2.value 0 n2.left n3.left
  let nodeXR := initializeNode n1.key n1.value 0 n3.right n1.right
  let weight := n1.weight
  initializeNode n3.key n3.value weight nodeXL nodeXR

/-- `doPush` -/
def doPush [DecidableEq K] (noKey : K) : Ptr K V :=
  let nodeXXL := initializeNode n2.key n2.value (n2.weight - 1) n2.left n2.right
  let nodeXXR := initializeNode n3.key n3.value 0 n3.left n3.right
  let weight := if isSentinel noKey n1.toItem n0.toItem then 1 else n1.weight + 1
  initializeNode n1.key n1.value weight nodeXXL nodeXXR

/-- `doW1` -/
def doW1 : Ptr K V :=
  let nodeXXLL := initializeNode n2.key n2.value (n2.weight - 1) n2.left n2.right
  let nodeXXLR := initializeNode n4.key n4.value (n4.weight - 1) n4.left n4.right
  let nodeXXL := initializeNode n1.key n1.value 1 nodeXXLL nodeXXLR
  let weight := n1.weight
  initializeNode n3.key n3.value weight nodeXXL n3.right

/-- `doW2` -/
def doW2 : Ptr K V :=
  let nodeXXLL := initializeNode n2.key n2.value (n2.weight - 1) n2.left n2.right
  let nodeXXLR := initializeNode n4.key n4.value 0 n4.left n4.right
  let nodeXXL := initializeNode n1.key n1.value 1 nodeXXLL nodeXXLR
  let weight := n1.weight
  initializeNode n3.key n3.value weight nodeXXL n3.right

/-- `doW3` -/
def doW3 : Ptr K V :=
  let nodeXXLLL := initializeNode n2.key n2.value (n2.weight - 1) n2.left n2.right
  let nodeXXLL := initializeNode n1.key n1.value 1 nodeXXLLL n5.left
  let nodeXXLR := initializeNode n4.key n4.value 1 n5.right n4.right
  let nodeXXL := initializeNode n5.key n5.value 0 nodeXXLL nodeXXLR
  let weight := n1.weight
  initializeNode n3.key n3.value weight nodeXXL n3.right

/-- `doW4` -/
def doW4 : Ptr K V :=
  let nodeXXLL := initializeNode n2.key n2.value (n2.weight - 1) n2.left n2.right
  let nodeXXL := initializeNode n1.key n1.value 1 nodeXXLL n4.left
  let nodeXXRL := initializeNode n5.key n5.value 1 n5.left n5.right
  let nodeXXR := initializeNode n3.key n3.value 0 nodeXXRL n3.right
  let weight := n1.weight
  initializeNode n4.key n4.value weight nodeXXL nodeXXR

/-- `doW5` -/
def doW5 : Ptr K V :=
  let nodeXXLL := initializeNode n2.key n2.value (n2.weight - 1) n2.left n2.right
  let nodeXXL := initializeNode n1.key n1.value 1 nodeXXLL n3.left
  let nodeXXR := initializeNode n4.key n4.value 1 n4.left n4.right
  let weight := n1.weight
  initializeNode n3.key n3.value weight nodeXXL nodeXXR

/-- `doW6` -/
def doW6 : Ptr K V :=
  let nodeXXLL := initializeNode n2.key n2.value (n2.weight - 1) n2.left n2.right
  let nodeXXL := initializeNode n1.key n1.value 1 nodeXXLL n4.left
  let nodeXXR := initializeNode n3.key n3.value 1 n4.right n3.right
  let weight := n1.weight
  initializeNode n4.key n4.value weight nodeXXL nodeXXR

/-- `doW7` -/
def doW7 [DecidableEq K] (noKey : K) : Ptr K V :=
  let nodeXXL := initializeNode n2.key n2.value (n2.weight - 1) n2.left n2.right
  let nodeXXR := initializeNode n3.key n3.value (n3.weight - 1) n3.left n3.right
  let weight := if isSentinel noKey n1.toItem n0.toItem then 1 else n1.weight + 1
  initializeNode n1.key n1.value weight nodeXXL nodeXXR

/-- `doRb1Sym` -/
def doRb1Sym : Ptr K V :=
  let nodeXL := initializeNode n1.key n1.value 0 n1.left n2.left
  let weight := n1.weight
  initializeNode n2.key n2.value weight nodeXL n2.right

/-- `doRb2Sym` -/
def doRb2Sym : Ptr K V :=
  let nodeXL := initializeNode n1.key n1.value 0 n1.left n3.left
  let nodeXR := initializeNode n2.key n2.value 0 n3.right n2.right
  let weight := n1.weight
  initializeNode n3.key n3.value weight nodeXL nodeXR

/-- `doPushSym` -/
def doPushSym [DecidableEq K] (noKey : K) : Ptr K V :=
  let nodeXXL := initializeNode n2.key n2.value 0 n2.left n2.right
  let nodeXXR := initializeNode n3.key n3.value (n3.weight - 1) n3.left n3.right
  let weight := if isSentinel noKey n1.toItem n0.toItem then 1 else n1.weight + 1
  initializeNode n1.key n1.value weight nodeXXL nodeXXR

/-- `doW1Sym` -/
def doW1Sym : Ptr K V :=
  let nodeXXRL := initializeNode n4.key n4.value (n4.weight - 1) n4.left n4.right
  let nodeXXRR := initializeNode n3.key n3.value (n3.weight - 1) n3.left n3.right
  let nodeXXR := initializeNode n1.key n1.value 1 nodeXXRL nodeXXRR
  let weight := n1.weight
  initializeNode n2.key n2.value weight n2.left nodeXXR

/-- `doW2Sym` -/
def doW2Sym : Ptr K V :=
  let nodeXXRL := initializeNode n4.key n4.value 0 n4.left n4.right
  let nodeXXRR := initializeNode n3.key n3.value (n3.weight - 1) n3.left n3.right
  let nodeXXR := initializeNode n1.key n1.value 1 nodeXXRL nodeXXRR
  let weight := n1.weight
  initializeNode n2.key n2.value weight n2.left nodeXXR

/-- `doW3Sym` -/
def doW3Sym : Ptr K V :=
  let nodeXXRL := initializeNode n4.key n4.value 1 n4.left n5.left
  let nodeXXRRR := initializeNode n3.key n3.value (n3.weight - 1) n3.left n3.right
  let nodeXXRR := initializeNode n1.key n1.value 1 n5.right nodeXXRRR
  let nodeXXR := initializeNode n5.key n5.value 0 nodeXXRL nodeXXRR
  let weight := n1.weight
  initializeNode n2.key n2.value weight n2.left nodeXXR

/-- `doW4Sym` -/
def doW4Sym : Ptr K V :=
  let nodeXXLR := initializeNode n5.key n5.value 1 n5.left n5.right
  let nodeXXL := initializeNode n2.key n2.value 0 n2.left nodeXXLR
  let nodeXXRR := initializeNode n3.key n3.value (n3.weight - 1) n3.left n3.right
  let nodeXXR := initializeNode n1.key n1.value 1 n4.right nodeXXRR
  let weight := n1.weight
  initializeNode n4.key n4.value weight nodeXXL nodeXXR

/-- `doW5Sym` -/
def doW5Sym : Ptr K V :=
  let nodeXXL := initializeNode n4.key n4.value 1 n4.left n4.right
  let nodeXXRR := initializeNode n3.key n3.value (n3.weight - 1) n3.left n3.right
  let nodeXXR := initializeNode n1.key n1.value 1 n2.right nodeXXRR
  let weight := n1.weight
  initializeNode n2.key n2.value weight nodeXXL nodeXXR

/-- `doW6Sym` -/
def doW6Sym : Ptr K V :=
  let nodeXXL := initializeNode n2.key n2.value 1 n2.left n4.left
  let nodeXXRR := initializeNode n3.key n3.value (n3.weight - 1) n3.left n3.right
  let nodeXXR := initializeNode n1.key n1.value 1 n4.right nodeXXRR
  let weight := n1.weight
  initializeNode n4.key n4.value weight nodeXXL nodeXXR

/-- `doW7Sym` -/
def doW7Sym [DecidableEq K] (noKey : K) : Ptr K V :=
  let nodeXXL := initializeNode n2.key n2.value (n2.weight - 1) n2.left n2.right
  let nodeXXR := initializeNode n3.key n3.value (n3.weight - 1) n3.left n3.right
  let weight := if isSentinel noKey n1.toItem n0.toItem then 1 else n1.weight + 1
  initializeNode n1.key n1.value weight nodeXXL nodeXXR

end Steps

/-! ### The case distinction -/

/-- The node whose child the SCX changes: it is `nodes[0]`. -/
inductive Spot where
  | u | uX
  deriving DecidableEq

section Dispatch

variable [DecidableEq K] (noKey : K) (u uX uXX uXXL uXXR : Node K V) (uXXleft : Bool)

/-- The left overweight violation at `uXXL`. -/
def overweightLeft : Except Stop (Spot × Ptr K V) :=
  if uXXR.weight = 0 then
    if uXX.weight = 0 then
      if uXXleft then do
        let uXR ← llx uX.right
        if uXR.weight = 0 then
          return (.u, doBlk u uX uXX uXR noKey)
        else
          return (.u, doRb2 uX uXX uXXR)
      else do
        let uXL ← llx uX.left
        if uXL.weight = 0 then
          return (.u, doBlk u uX uXL uXX noKey)
        else
          return (.u, doRb1Sym uX uXX)
    else do
      let uXXRL ← llx uXXR.left
      if uXXRL.weight > 1 then
        return (.uX, doW1 uXX uXXL uXXR uXXRL)
      else if uXXRL.weight = 0 then
        return (.uX, doRb2Sym uXX uXXR uXXRL)
      else if isNull uXXRL.right then
        throw .retry
      else do
        let uXXRLR ← llx uXXRL.right
        if uXXRLR.weight = 0 then
          return (.uX, doW4 uXX uXXL uXXR uXXRL uXXRLR)
        else if isNull uXXRL.left then
          throw .retry
        else do
          let uXXRLL ← llx uXXRL.left
          if uXXRLL.weight = 0 then
            return (.uX, doW3 uXX uXXL uXXR uXXRL uXXRLL)
          else
            return (.uX, doW2 uXX uXXL uXXR uXXRL)
  else if uXXR.weight = 1 then
    if isNull uXXR.left then
      throw .retry
    else do
      let uXXRR ← llx uXXR.right
      let uXXRL ← llx uXXR.left
      if uXXRR.weight = 0 then
        return (.uX, doW5 uXX uXXL uXXR uXXRR)
      else if uXXRL.weight = 0 then
        return (.uX, doW6 uXX uXXL uXXR uXXRL)
      else
        return (.uX, doPush uX uXX uXXL uXXR noKey)
  else
    return (.uX, doW7 uX uXX uXXL uXXR noKey)

/-- The right overweight violation at `uXXR`. -/
def overweightRight : Except Stop (Spot × Ptr K V) :=
  if uXXL.weight = 0 then
    if uXX.weight = 0 then
      if !uXXleft then do
        let uXL ← llx uX.left
        if uXL.weight = 0 then
          return (.u, doBlk u uX uXL uXX noKey)
        else
          return (.u, doRb2Sym uX uXX uXXL)
      else do
        let uXR ← llx uX.right
        if uXR.weight = 0 then
          return (.u, doBlk u uX uXX uXR noKey)
        else
          return (.u, doRb1 uX uXX)
    else do
      let uXXLR ← llx uXXL.right
      if uXXLR.weight > 1 then
        return (.uX, doW1Sym uXX uXXL uXXR uXXLR)
      else if uXXLR.weight = 0 then
        return (.uX, doRb2 uXX uXXL uXXLR)
      else if isNull uXXLR.left then
        throw .retry
      else do
        let uXXLRL ← llx uXXLR.left
        if uXXLRL.weight = 0 then
          return (.uX, doW4Sym uXX uXXL uXXR uXXLR uXXLRL)
        else if isNull uXXLR.right then
          throw .retry
        else do
          let uXXLRR ← llx uXXLR.right
          if uXXLRR.weight = 0 then
            return (.uX, doW3Sym uXX uXXL uXXR uXXLR uXXLRR)
          else
            return (.uX, doW2Sym uXX uXXL uXXR uXXLR)
  else if uXXL.weight = 1 then
    if isNull uXXL.right then
      throw .retry
    else do
      let uXXLL ← llx uXXL.left
      let uXXLR ← llx uXXL.right
      if uXXLL.weight = 0 then
        return (.uX, doW5Sym uXX uXXL uXXR uXXLL)
      else if uXXLR.weight = 0 then
        return (.uX, doW6Sym uXX uXXL uXXR uXXLR)
      else
        return (.uX, doPushSym uX uXX uXXL uXXR noKey)
  else
    return (.uX, doW7Sym uX uXX uXXL uXXR noKey)

/-- The red-red violation at a child of `uXX`. -/
def redRed (uXXXleft : Bool) : Except Stop (Spot × Ptr K V) :=
  if uXXleft then do
    let uXR ← llx uX.right
    if uXR.weight = 0 then
      return (.u, doBlk u uX uXX uXR noKey)
    else if uXXXleft then
      return (.u, doRb1 uX uXX)
    else
      return (.u, doRb2 uX uXX uXXR)
  else do
    let uXL ← llx uX.left
    if uXL.weight = 0 then
      return (.u, doBlk u uX uXL uXX noKey)
    else if !uXXXleft then
      return (.u, doRb1Sym uX uXX)
    else
      return (.u, doRb2Sym uX uXX uXXL)

/-- `updateRebalancingStep` from its first LLX on.  The branches are exhaustive, so that the code
after them, which would stop the program, is not reached. -/
def rebalance (uXXX : Node K V) (uXXXleft : Bool) : Except Stop (Spot × Ptr K V) := do
  let uXXL ← llx uXX.left
  let uXXR ← llx uXX.right
  if uXXX.weight > 1 then
    if uXXXleft then overweightLeft noKey u uX uXX uXXL uXXR uXXleft
    else overweightRight noKey u uX uXX uXXL uXXR uXXleft
  else redRed noKey u uX uXX uXXL uXXR uXXleft uXXXleft

end Dispatch

/-! ### Searches -/

/-- A node above the one that a search has reached; it has gone left or right from there. -/
structure Link (K V : Type) where
  /-- the search has gone left -/
  left : Bool
  /-- the node -/
  node : Node K V

/-- The node with another child on the path of the search. -/
def Link.set (f : Link K V) (p : Ptr K V) : Ptr K V :=
  if f.left then .node f.node.toItem p f.node.right else .node f.node.toItem f.node.left p

/-- The tree with another subtree in the place that the search has reached. -/
def plug : List (Link K V) → Ptr K V → Ptr K V
  | [], p => p
  | f :: fs, p => plug fs (f.set p)

/-- The last nodes of a search: the node reached, its parent, and the nodes above, the
grandparent first. -/
structure Cursor (K V : Type) where
  /-- the nodes above the parent -/
  above : List (Link K V)
  /-- the parent -/
  p : Link K V
  /-- the node reached -/
  l : Node K V

/-- The search loop: it goes on at an internal node at which `goesOn parent node` holds.  The turn
at a node may depend on its depth and on the node. -/
def searchLoop (goesOn : Item K V → Item K V → Bool) (goLeft : ℕ → Item K V → Bool) :
    List (Link K V) → Link K V → Ptr K V → Except Stop (Cursor K V)
  | _, _, .nil => .error .crash
  | above, p, .node a l r =>
      if !isNull l && goesOn p.node.toItem a then
        if goLeft above.length a then searchLoop goesOn goLeft (p :: above) ⟨true, a, l, r⟩ l
        else searchLoop goesOn goLeft (p :: above) ⟨false, a, l, r⟩ r
      else .ok ⟨above, p, a, l, r⟩

/-- A search goes left of the keys above its own. -/
def byKey [LinearOrder K] (key : K) (_ : ℕ) (a : Item K V) : Bool := decide (key < a.key)

/-- The search of a rebalancing step ends at a violation. -/
def noViolation (p l : Item K V) : Bool :=
  decide (l.weight ≤ 1) && (decide (l.weight ≠ 0) || decide (p.weight ≠ 0))

/-! ### The updates -/

/-- `updateRebalancingStep` from the end of its search on: the tree after the SCX, with which it
returns `true`; or it stops: `finish` when it returns `true` since there is no violation on the
path, `retry` when it returns `false`. -/
def rebalanceAt [DecidableEq K] (noKey : K) (c : Cursor K V) : Except Stop (Ptr K V) :=
  if c.l.weight = 1 then throw .finish
  else
    match c.above with
    | gp :: ggp :: rest => do
        let (spot, new) ← rebalance noKey ggp.node gp.node c.p.node gp.left c.l c.p.left
        match spot with
        | .u => return plug (ggp :: rest) new
        | .uX => return plug (gp :: ggp :: rest) new
    -- `ggp` and `gp` are both the root, which is no child of its own
    | _ => throw .retry

/-- `updateRebalancingStep`, with the turns of the search as a parameter. -/
def rebalanceAlong [DecidableEq K] (noKey : K) (goLeft : ℕ → Item K V → Bool) (root : Ptr K V) :
    Except Stop (Ptr K V) := do
  let root ← llx root
  let p ← llx root.left
  if isNull p.left then throw .finish
  else do
    let c ← searchLoop noViolation goLeft [⟨true, root⟩] ⟨true, p⟩ p.left
    rebalanceAt noKey c

section Updates

variable [LinearOrder K] (cfg : Cfg K V) (key : K) (root : Ptr K V)

/-- `updateRebalancingStep` -/
def updateRebalancingStep : Except Stop (Ptr K V) := rebalanceAlong cfg.noKey (byKey key) root

/-- `fixAllToKey`: rebalancing steps until one returns `true`.  The first argument bounds the number
of the steps. -/
def fixAllToKey : ℕ → Ptr K V → Option (Ptr K V)
  | 0, _ => none
  | n + 1, root =>
      match updateRebalancingStep cfg key root with
      | .ok root' => some root'
      | .error .finish => some root
      | .error .retry => fixAllToKey n root
      | .error .crash => none

/-- The search of an update ends at a leaf. -/
def searchLeaf : Except Stop (Cursor K V) := do
  let root ← llx root
  let l ← llx root.left
  if isNull l.left then return ⟨[], ⟨true, root⟩, l⟩
  else searchLoop (fun _ _ => true) (byKey key) [⟨true, root⟩] ⟨true, l⟩ l.left

/-- The new subtree of an insertion in the place of the leaf `l`. -/
def insertedSubtree (val : V) (p l : Item K V) : Ptr K V :=
  let newWeight := if isSentinel cfg.noKey l p then 1 else l.weight - 1
  let newLeaf := initializeNode key val 1 .nil .nil
  let copyWeight := match cfg.variant with
    | .bat => 1
    | _ => if l.key = cfg.noKey then 0 else 1
  let newCopyOfL := initializeNode l.key l.value copyWeight .nil .nil
  if l.key = cfg.noKey ∨ key < l.key then
    initializeNode l.key l.value newWeight newLeaf newCopyOfL
  else
    initializeNode key val newWeight newCopyOfL newLeaf

/-- `updateInsert` from the end of its search on. -/
def insertAt (val : V) (onlyIfAbsent : Bool) (c : Cursor K V) : Except Stop (Ptr K V) :=
  if key = c.l.key then
    if onlyIfAbsent then throw .finish
    else return plug (c.p :: c.above) (initializeNode key val c.l.weight .nil .nil)
  else
    return plug (c.p :: c.above) (insertedSubtree cfg key val c.p.node.toItem c.l.toItem)

/-- `updateInsert` -/
def updateInsert (val : V) (onlyIfAbsent : Bool) : Except Stop (Ptr K V) := do
  let c ← searchLeaf key root
  insertAt cfg key val onlyIfAbsent c

/-- `updateErase` from the end of its search on. -/
def eraseAt (c : Cursor K V) : Except Stop (Ptr K V) :=
  match c.above with
  -- the tree is empty
  | [] => throw .finish
  | gp :: rest =>
      if key ≠ c.l.key then throw .finish
      else do
        let s ← llx (if c.p.left then c.p.node.right else c.p.node.left)
        let newWeight := if isSentinel cfg.noKey c.p.node.toItem gp.node.toItem then 1
          else c.p.node.weight + s.weight
        return plug (gp :: rest) (initializeNode s.key s.value newWeight s.left s.right)

/-- `updateErase` -/
def updateErase : Except Stop (Ptr K V) := do
  let c ← searchLeaf key root
  eraseAt cfg key c

end Updates

/-! ### The trees -/

/-- **The chromatic weight invariant**, of the tree below the sentinels: the keys are real, no
weight is negative, no leaf has weight zero, the top has weight one, and the weights on all paths to
the leaves add up to the same. -/
structure Valid (cfg : Cfg K V) (T : LTree (Item K V)) : Prop where
  real : ∀ a ∈ T.labels, a.key ≠ cfg.noKey
  nonneg : ∀ a ∈ T.labels, 0 ≤ a.weight
  leaf_pos : ∀ a ∈ T.leaves, 1 ≤ a.weight
  top_weight : T.label.weight = 1
  balanced : ∃ h, T.Bal Item.weight h

/-- What a sentinel stores. -/
def sentinel (cfg : Cfg K V) : Item K V := ⟨cfg.noKey, cfg.noValue, 1⟩

/-- The pointer to the root of a tree with `T` below the sentinels; `s` is the sentinel leaf. -/
def holding (cfg : Cfg K V) (s : Item K V) (T : LTree (Item K V)) : Ptr K V :=
  .node (sentinel cfg) (.node (sentinel cfg) T.ptr (.node s .nil .nil)) .nil

/-- The tree without keys. -/
def emptyTree (cfg : Cfg K V) : Ptr K V :=
  .node (sentinel cfg) (.node (sentinel cfg) .nil .nil) .nil

theorem holding_injective {cfg : Cfg K V} {s s' : Item K V} {T T' : LTree (Item K V)}
    (h : holding cfg s T = holding cfg s' T') :
    s = s' ∧ T = T' := by
  simp only [holding, BinaryTree.node.injEq] at h
  exact ⟨h.2.1.2.2.1, LTree.ptr_injective h.2.1.2.1⟩

theorem holding_ne_emptyTree {cfg : Cfg K V} {s : Item K V} {T : LTree (Item K V)} :
     holding cfg s T ≠ emptyTree cfg := by
  simp [holding, emptyTree, LTree.ptr_ne_nil]

end Cbat.Chromatic
