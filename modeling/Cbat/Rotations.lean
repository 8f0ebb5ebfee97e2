/-
**The rebalancing steps.**

Each of the functions below builds the new subtree of one rebalancing step from the nodes that
`updateRebalancingStep` collected, and returns the arguments of the SCX that installs it.  The
slots are the indices of the preallocated nodes, as in the source.

Main definitions:

* `Cbat.Mem.initFrom` — `initializeNode` with the key and the value of an existing node, which is
  how every node of a rebalancing step is made;
* `Cbat.doBlk` … `Cbat.doW7Sym` — the 22 functions.
-/

import Cbat.Memory

set_option relaxedAutoImplicit false
set_option autoImplicit false

namespace Cbat

variable {K V : Type} [DecidableEq K]

/-- `IS_SENTINEL`. -/
def isSentinel (noKey : K) (m : Mem K V) (node parent : ℕ) : Bool :=
  decide ((m.node node).key = noKey) || decide ((m.node parent).key = noKey)

/-- A new node with the key and the value of the node `src`. -/
def Mem.initFrom (m : Mem K V) (slot src : ℕ) (weight : ℤ) (left right : NewTree K V) :
    NewTree K V :=
  initializeNode slot (m.node src).key (m.node src).value weight left right

/-- The left child of a node, as a subtree that stays. -/
def Mem.leftOf (m : Mem K V) (x : ℕ) : NewTree K V := .sub (m.node x).left

/-- The right child of a node, as a subtree that stays. -/
def Mem.rightOf (m : Mem K V) (x : ℕ) : NewTree K V := .sub (m.node x).right

/-- A new node that replaces `src` above the same children, with another weight. -/
def Mem.copyOf (m : Mem K V) (slot src : ℕ) (weight : ℤ) : NewTree K V :=
  m.initFrom slot src weight (m.leftOf src) (m.rightOf src)

/-! ### The steps

The arguments `n0`, `n1`, … are `nodes[0]`, `nodes[1]`, … of the source. -/

section Steps

variable (noKey : K) (m : Mem K V) (n0 n1 n2 n3 n4 n5 : ℕ) (fieldIsLeft : Bool)

/-- `doBlk` -/
def doBlk : ScxRecord K V :=
  let nodeXL := m.copyOf 1 n2 1
  let nodeXR := m.copyOf 2 n3 1
  let weight := if isSentinel noKey m n1 n0 then 1 else (m.node n1).weight - 1
  let nodeX := m.initFrom 0 n1 weight nodeXL nodeXR
  ⟨.blk, [n0, n1, n2, n3], fieldIsLeft, nodeX⟩

/-- `doRb1` -/
def doRb1 : ScxRecord K V :=
  let nodeXR := m.initFrom 1 n1 0 (m.rightOf n2) (m.rightOf n1)
  let weight := (m.node n1).weight
  let nodeX := m.initFrom 0 n2 weight (m.leftOf n2) nodeXR
  ⟨.rb1, [n0, n1, n2], fieldIsLeft, nodeX⟩

/-- `doRb2` -/
def doRb2 : ScxRecord K V :=
  let nodeXL := m.initFrom 1 n2 0 (m.leftOf n2) (m.leftOf n3)
  let nodeXR := m.initFrom 2 n1 0 (m.rightOf n3) (m.rightOf n1)
  let weight := (m.node n1).weight
  let nodeX := m.initFrom 0 n3 weight nodeXL nodeXR
  ⟨.rb2, [n0, n1, n2, n3], fieldIsLeft, nodeX⟩

/-- `doPush` -/
def doPush : ScxRecord K V :=
  let nodeXXL := m.copyOf 1 n2 ((m.node n2).weight - 1)
  let nodeXXR := m.copyOf 2 n3 0
  let weight := if isSentinel noKey m n1 n0 then 1 else (m.node n1).weight + 1
  let nodeXX := m.initFrom 0 n1 weight nodeXXL nodeXXR
  ⟨.push, [n0, n1, n2, n3], fieldIsLeft, nodeXX⟩

/-- `doW1` -/
def doW1 : ScxRecord K V :=
  let nodeXXLL := m.copyOf 2 n2 ((m.node n2).weight - 1)
  let nodeXXLR := m.copyOf 3 n4 ((m.node n4).weight - 1)
  let nodeXXL := m.initFrom 1 n1 1 nodeXXLL nodeXXLR
  let weight := (m.node n1).weight
  let nodeXX := m.initFrom 0 n3 weight nodeXXL (m.rightOf n3)
  ⟨.w1, [n0, n1, n2, n3, n4], fieldIsLeft, nodeXX⟩

/-- `doW2` -/
def doW2 : ScxRecord K V :=
  let nodeXXLL := m.copyOf 2 n2 ((m.node n2).weight - 1)
  let nodeXXLR := m.copyOf 3 n4 0
  let nodeXXL := m.initFrom 1 n1 1 nodeXXLL nodeXXLR
  let weight := (m.node n1).weight
  let nodeXX := m.initFrom 0 n3 weight nodeXXL (m.rightOf n3)
  ⟨.w2, [n0, n1, n2, n3, n4], fieldIsLeft, nodeXX⟩

/-- `doW3` -/
def doW3 : ScxRecord K V :=
  let nodeXXLLL := m.copyOf 4 n2 ((m.node n2).weight - 1)
  let nodeXXLL := m.initFrom 2 n1 1 nodeXXLLL (m.leftOf n5)
  let nodeXXLR := m.initFrom 3 n4 1 (m.rightOf n5) (m.rightOf n4)
  let nodeXXL := m.initFrom 1 n5 0 nodeXXLL nodeXXLR
  let weight := (m.node n1).weight
  let nodeXX := m.initFrom 0 n3 weight nodeXXL (m.rightOf n3)
  ⟨.w3, [n0, n1, n2, n3, n4, n5], fieldIsLeft, nodeXX⟩

/-- `doW4` -/
def doW4 : ScxRecord K V :=
  let nodeXXLL := m.copyOf 3 n2 ((m.node n2).weight - 1)
  let nodeXXL := m.initFrom 1 n1 1 nodeXXLL (m.leftOf n4)
  let nodeXXRL := m.copyOf 4 n5 1
  let nodeXXR := m.initFrom 2 n3 0 nodeXXRL (m.rightOf n3)
  let weight := (m.node n1).weight
  let nodeXX := m.initFrom 0 n4 weight nodeXXL nodeXXR
  ⟨.w4, [n0, n1, n2, n3, n4, n5], fieldIsLeft, nodeXX⟩

/-- `doW5` -/
def doW5 : ScxRecord K V :=
  let nodeXXLL := m.copyOf 3 n2 ((m.node n2).weight - 1)
  let nodeXXL := m.initFrom 1 n1 1 nodeXXLL (m.leftOf n3)
  let nodeXXR := m.copyOf 2 n4 1
  let weight := (m.node n1).weight
  let nodeXX := m.initFrom 0 n3 weight nodeXXL nodeXXR
  ⟨.w5, [n0, n1, n2, n3, n4], fieldIsLeft, nodeXX⟩

/-- `doW6` -/
def doW6 : ScxRecord K V :=
  let nodeXXLL := m.copyOf 3 n2 ((m.node n2).weight - 1)
  let nodeXXL := m.initFrom 1 n1 1 nodeXXLL (m.leftOf n4)
  let nodeXXR := m.initFrom 2 n3 1 (m.rightOf n4) (m.rightOf n3)
  let weight := (m.node n1).weight
  let nodeXX := m.initFrom 0 n4 weight nodeXXL nodeXXR
  ⟨.w6, [n0, n1, n2, n3, n4], fieldIsLeft, nodeXX⟩

/-- `doW7` -/
def doW7 : ScxRecord K V :=
  let nodeXXL := m.copyOf 1 n2 ((m.node n2).weight - 1)
  let nodeXXR := m.copyOf 2 n3 ((m.node n3).weight - 1)
  let weight := if isSentinel noKey m n1 n0 then 1 else (m.node n1).weight + 1
  let nodeXX := m.initFrom 0 n1 weight nodeXXL nodeXXR
  ⟨.w7, [n0, n1, n2, n3], fieldIsLeft, nodeXX⟩

/-- `doRb1Sym` -/
def doRb1Sym : ScxRecord K V :=
  let nodeXL := m.initFrom 1 n1 0 (m.leftOf n1) (m.leftOf n2)
  let weight := (m.node n1).weight
  let nodeX := m.initFrom 0 n2 weight nodeXL (m.rightOf n2)
  ⟨.rb1Sym, [n0, n1, n2], fieldIsLeft, nodeX⟩

/-- `doRb2Sym` -/
def doRb2Sym : ScxRecord K V :=
  let nodeXL := m.initFrom 1 n1 0 (m.leftOf n1) (m.leftOf n3)
  let nodeXR := m.initFrom 2 n2 0 (m.rightOf n3) (m.rightOf n2)
  let weight := (m.node n1).weight
  let nodeX := m.initFrom 0 n3 weight nodeXL nodeXR
  ⟨.rb2Sym, [n0, n1, n2, n3], fieldIsLeft, nodeX⟩

/-- `doPushSym` -/
def doPushSym : ScxRecord K V :=
  let nodeXXL := m.copyOf 1 n2 0
  let nodeXXR := m.copyOf 2 n3 ((m.node n3).weight - 1)
  let weight := if isSentinel noKey m n1 n0 then 1 else (m.node n1).weight + 1
  let nodeXX := m.initFrom 0 n1 weight nodeXXL nodeXXR
  ⟨.pushSym, [n0, n1, n2, n3], fieldIsLeft, nodeXX⟩

/-- `doW1Sym` -/
def doW1Sym : ScxRecord K V :=
  let nodeXXRL := m.copyOf 2 n4 ((m.node n4).weight - 1)
  let nodeXXRR := m.copyOf 3 n3 ((m.node n3).weight - 1)
  let nodeXXR := m.initFrom 1 n1 1 nodeXXRL nodeXXRR
  let weight := (m.node n1).weight
  let nodeXX := m.initFrom 0 n2 weight (m.leftOf n2) nodeXXR
  ⟨.w1Sym, [n0, n1, n2, n3, n4], fieldIsLeft, nodeXX⟩

/-- `doW2Sym` -/
def doW2Sym : ScxRecord K V :=
  let nodeXXRL := m.copyOf 2 n4 0
  let nodeXXRR := m.copyOf 3 n3 ((m.node n3).weight - 1)
  let nodeXXR := m.initFrom 1 n1 1 nodeXXRL nodeXXRR
  let weight := (m.node n1).weight
  let nodeXX := m.initFrom 0 n2 weight (m.leftOf n2) nodeXXR
  ⟨.w2Sym, [n0, n1, n2, n3, n4], fieldIsLeft, nodeXX⟩

/-- `doW3Sym` -/
def doW3Sym : ScxRecord K V :=
  let nodeXXRL := m.initFrom 2 n4 1 (m.leftOf n4) (m.leftOf n5)
  let nodeXXRRR := m.copyOf 4 n3 ((m.node n3).weight - 1)
  let nodeXXRR := m.initFrom 3 n1 1 (m.rightOf n5) nodeXXRRR
  let nodeXXR := m.initFrom 1 n5 0 nodeXXRL nodeXXRR
  let weight := (m.node n1).weight
  let nodeXX := m.initFrom 0 n2 weight (m.leftOf n2) nodeXXR
  ⟨.w3Sym, [n0, n1, n2, n3, n4, n5], fieldIsLeft, nodeXX⟩

/-- `doW4Sym` -/
def doW4Sym : ScxRecord K V :=
  let nodeXXLR := m.copyOf 3 n5 1
  let nodeXXL := m.initFrom 1 n2 0 (m.leftOf n2) nodeXXLR
  let nodeXXRR := m.copyOf 4 n3 ((m.node n3).weight - 1)
  let nodeXXR := m.initFrom 2 n1 1 (m.rightOf n4) nodeXXRR
  let weight := (m.node n1).weight
  let nodeXX := m.initFrom 0 n4 weight nodeXXL nodeXXR
  ⟨.w4Sym, [n0, n1, n2, n3, n4, n5], fieldIsLeft, nodeXX⟩

/-- `doW5Sym` -/
def doW5Sym : ScxRecord K V :=
  let nodeXXL := m.copyOf 1 n4 1
  let nodeXXRR := m.copyOf 3 n3 ((m.node n3).weight - 1)
  let nodeXXR := m.initFrom 2 n1 1 (m.rightOf n2) nodeXXRR
  let weight := (m.node n1).weight
  let nodeXX := m.initFrom 0 n2 weight nodeXXL nodeXXR
  ⟨.w5Sym, [n0, n1, n2, n3, n4], fieldIsLeft, nodeXX⟩

/-- `doW6Sym` -/
def doW6Sym : ScxRecord K V :=
  let nodeXXL := m.initFrom 1 n2 1 (m.leftOf n2) (m.leftOf n4)
  let nodeXXRR := m.copyOf 3 n3 ((m.node n3).weight - 1)
  let nodeXXR := m.initFrom 2 n1 1 (m.rightOf n4) nodeXXRR
  let weight := (m.node n1).weight
  let nodeXX := m.initFrom 0 n4 weight nodeXXL nodeXXR
  ⟨.w6Sym, [n0, n1, n2, n3, n4], fieldIsLeft, nodeXX⟩

/-- `doW7Sym` -/
def doW7Sym : ScxRecord K V :=
  let nodeXXL := m.copyOf 1 n2 ((m.node n2).weight - 1)
  let nodeXXR := m.copyOf 2 n3 ((m.node n3).weight - 1)
  let weight := if isSentinel noKey m n1 n0 then 1 else (m.node n1).weight + 1
  let nodeXX := m.initFrom 0 n1 weight nodeXXL nodeXXR
  ⟨.w7Sym, [n0, n1, n2, n3], fieldIsLeft, nodeXX⟩

end Steps

end Cbat
