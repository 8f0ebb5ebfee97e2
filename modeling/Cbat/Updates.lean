/-
**The updates: from the end of a search to the SCX.**

`updateInsert`, `updateErase` and `updateRebalancingStep` search for a place to act, read the nodes
around it with LLX and try one SCX.  This module has the part after the search, for a search that
ended with the nodes of a `Cursor`: which nodes are read, which checks make the function return
`false` and retry, what is written to the outputs, and which SCX is tried.

Main definitions:

* `Cbat.Cfg`, `Cbat.Call`, `Cbat.Cursor` — the parameters of the tree, the local variables of an
  update and those of its search;
* `Cbat.llx` — what an LLX checks;
* `Cbat.insertScx`, `Cbat.eraseParents`, `Cbat.eraseScx` — the SCX of an insertion or a deletion;
* `Cbat.overweightLeft`, `Cbat.overweightRight`, `Cbat.redRed`, `Cbat.rebalanceScx` — the case
  distinction of `updateRebalancingStep`;
* `Cbat.attempt`, `Cbat.abortCalls` — what one attempt does, and the outputs that an attempt which
  fails on the way may have written.
-/

import Cbat.Rotations
import Mathlib.Order.Lattice

set_option relaxedAutoImplicit false
set_option autoImplicit false

namespace Cbat

variable {K V : Type}

/-- The three trees: BAT, BAT-EagerDel and BAT-Del. -/
inductive Variant where
  | bat | eagerDel | del
  deriving DecidableEq

/-- The parameters of a tree: `NO_KEY`, `NO_VALUE`, the number `N` of violations that a search
path may have before the update rebalances, the variant, and the value type's `V()`. -/
structure Cfg (K V : Type) where
  /-- the key of the sentinels -/
  noKey : K
  /-- the value that stands for none -/
  noValue : V
  /-- `allowedViolationsPerPath` -/
  N : ℤ
  /-- the variant -/
  variant : Variant
  /-- `V()`, the value of a `pair<V,bool>` that was never assigned -/
  initValue : V

/-- The three updates. -/
inductive CallKind where
  | insert | insertIfAbsent | erase
  deriving DecidableEq

/-- The local variables of an update that outlive one attempt. -/
structure Call (K V : Type) where
  /-- the function called -/
  kind : CallKind
  /-- the argument `key` -/
  key : K
  /-- the argument `val` -/
  val : V
  /-- the output `*result` -/
  result : V
  /-- the output `*shouldRebalance` -/
  shouldRebalance : Bool
  /-- the stack of the search, top first -/
  stack : List ℕ
  /-- the violations met by the search -/
  count : ℤ

/-- The last nodes of a search, the great-grandparent first. -/
structure Cursor where
  /-- the great-grandparent -/
  ggp : ℕ
  /-- the grandparent -/
  gp : ℕ
  /-- the parent -/
  p : ℕ
  /-- the node reached -/
  l : ℕ

/-- Why an attempt does not come to an SCX: it returns `false`, it returns `true` since there is
nothing to do, or it follows a null pointer. -/
inductive Stop where
  | retry | finish | crash
  deriving DecidableEq

/-- LLX fails on a node that is frozen or marked. -/
def llx (m : Mem K V) (x : ℕ) : Except Stop Unit :=
  if x = 0 then .error .crash
  else if (m.node x).frozen || (m.node x).marked then .error .retry
  else .ok ()

/-- The check that `c` is a child of `p`. -/
def checkChild (m : Mem K V) (p c : ℕ) : Except Stop Unit :=
  if c = (m.node p).left ∨ c = (m.node p).right then .ok () else .error .retry

section Attempts

variable [LinearOrder K] (cfg : Cfg K V) (m : Mem K V)

/-! ### Insertion and deletion -/

/-- The new subtree of an insertion next to the leaf `l`. -/
def insertedSubtree (key : K) (val : V) (p l : ℕ) : NewTree K V :=
  let n := m.node l
  let newWeight := if isSentinel cfg.noKey m l p then 1 else n.weight - 1
  let newLeaf := initializeNodeWithVersion 0 key val 1 null null 1
  let copyWeight := match cfg.variant with
    | .bat => 1
    | _ => if n.key = cfg.noKey then 0 else 1
  let newCopyOfL := initializeNodeWithVersion 1 n.key n.value copyWeight null null
    (if n.key = cfg.noKey then 0 else 1)
  let sum := if n.key = cfg.noKey then 1 else 2
  if n.key = cfg.noKey ∨ key < n.key then
    initializeNodeWithVersion 2 n.key n.value newWeight newLeaf newCopyOfL sum
  else
    initializeNodeWithVersion 2 key val newWeight newCopyOfL newLeaf sum

/-- `updateInsert` from the LLX on. -/
def insertScx (c : Call K V) (cur : Cursor) : Except Stop (ScxRecord K V) := do
  llx m cur.p
  checkChild m cur.p cur.l
  let fieldIsLeft := decide (cur.l = (m.node cur.p).left)
  if c.key = (m.node cur.l).key then
    return ⟨.replace, [cur.p, cur.l], fieldIsLeft,
      initializeNodeWithVersion 0 c.key c.val (m.node cur.l).weight null null 1⟩
  else
    return ⟨.ins, [cur.p, cur.l], fieldIsLeft, insertedSubtree cfg m c.key c.val cur.p cur.l⟩

/-- `updateErase` from the LLX on, up to the output of the result. -/
def eraseParents (cur : Cursor) : Except Stop Unit := do
  llx m cur.gp
  checkChild m cur.gp cur.p
  llx m cur.p
  checkChild m cur.p cur.l

/-- `updateErase` after the output of the result. -/
def eraseScx (cur : Cursor) : Except Stop (ScxRecord K V) := do
  let s := if cur.l = (m.node cur.p).left then (m.node cur.p).right else (m.node cur.p).left
  llx m s
  let newWeight := if isSentinel cfg.noKey m cur.p cur.gp then 1
    else (m.node cur.p).weight + (m.node s).weight
  return ⟨.del, [cur.gp, cur.p, s, cur.l], decide (cur.p = (m.node cur.gp).left),
    m.copyOf 0 s newWeight⟩

/-! ### Rebalancing -/

/-- The left overweight violation at `uXXL`. -/
def overweightLeft (u uX uXX : ℕ) (uXleft uXXleft : Bool) : Except Stop (ScxRecord K V) :=
  let uXL := (m.node uX).left
  let uXR := (m.node uX).right
  let uXXL := (m.node uXX).left
  let uXXR := (m.node uXX).right
  let uXXRL := (m.node uXXR).left
  let uXXRR := (m.node uXXR).right
  let uXXRLL := (m.node uXXRL).left
  let uXXRLR := (m.node uXXRL).right
  if (m.node uXXR).weight = 0 then
    if (m.node uXX).weight = 0 then
      if uXXleft then do
        llx m uXR
        if (m.node uXR).weight = 0 then
          return doBlk cfg.noKey m u uX uXX uXR uXleft
        else
          return doRb2 m u uX uXX uXXR uXleft
      else do
        llx m uXL
        if (m.node uXL).weight = 0 then
          return doBlk cfg.noKey m u uX uXL uXX uXleft
        else
          return doRb1Sym m u uX uXX uXleft
    else do
      llx m uXXRL
      if (m.node uXXRL).weight > 1 then
        return doW1 m uX uXX uXXL uXXR uXXRL uXXleft
      else if (m.node uXXRL).weight = 0 then
        return doRb2Sym m uX uXX uXXR uXXRL uXXleft
      else if uXXRLR = 0 then
        throw .retry
      else do
        llx m uXXRLR
        if (m.node uXXRLR).weight = 0 then
          return doW4 m uX uXX uXXL uXXR uXXRL uXXRLR uXXleft
        else if uXXRLL = 0 then
          throw .retry
        else do
          llx m uXXRLL
          if (m.node uXXRLL).weight = 0 then
            return doW3 m uX uXX uXXL uXXR uXXRL uXXRLL uXXleft
          else
            return doW2 m uX uXX uXXL uXXR uXXRL uXXleft
  else if (m.node uXXR).weight = 1 then
    if uXXRL = 0 then
      throw .retry
    else do
      llx m uXXRR
      llx m uXXRL
      if (m.node uXXRR).weight = 0 then
        return doW5 m uX uXX uXXL uXXR uXXRR uXXleft
      else if (m.node uXXRL).weight = 0 then
        return doW6 m uX uXX uXXL uXXR uXXRL uXXleft
      else
        return doPush cfg.noKey m uX uXX uXXL uXXR uXXleft
  else
    return doW7 cfg.noKey m uX uXX uXXL uXXR uXXleft

/-- The right overweight violation at `uXXR`. -/
def overweightRight (u uX uXX : ℕ) (uXleft uXXleft : Bool) : Except Stop (ScxRecord K V) :=
  let uXL := (m.node uX).left
  let uXR := (m.node uX).right
  let uXXL := (m.node uXX).left
  let uXXR := (m.node uXX).right
  let uXXLL := (m.node uXXL).left
  let uXXLR := (m.node uXXL).right
  let uXXLRL := (m.node uXXLR).left
  let uXXLRR := (m.node uXXLR).right
  if (m.node uXXL).weight = 0 then
    if (m.node uXX).weight = 0 then
      if !uXXleft then do
        llx m uXL
        if (m.node uXL).weight = 0 then
          return doBlk cfg.noKey m u uX uXL uXX uXleft
        else
          return doRb2Sym m u uX uXX uXXL uXleft
      else do
        llx m uXR
        if (m.node uXR).weight = 0 then
          return doBlk cfg.noKey m u uX uXX uXR uXleft
        else
          return doRb1 m u uX uXX uXleft
    else do
      llx m uXXL
      llx m uXXLR
      if (m.node uXXLR).weight > 1 then
        return doW1Sym m uX uXX uXXL uXXR uXXLR uXXleft
      else if (m.node uXXLR).weight = 0 then
        return doRb2 m uX uXX uXXL uXXLR uXXleft
      else if uXXLRL = 0 then
        throw .retry
      else do
        llx m uXXLRL
        if (m.node uXXLRL).weight = 0 then
          return doW4Sym m uX uXX uXXL uXXR uXXLR uXXLRL uXXleft
        else if uXXLRR = 0 then
          throw .retry
        else do
          llx m uXXLRR
          if (m.node uXXLRR).weight = 0 then
            return doW3Sym m uX uXX uXXL uXXR uXXLR uXXLRR uXXleft
          else
            return doW2Sym m uX uXX uXXL uXXR uXXLR uXXleft
  else if (m.node uXXL).weight = 1 then
    if uXXLR = 0 then
      throw .retry
    else do
      llx m uXXLL
      llx m uXXLR
      if (m.node uXXLL).weight = 0 then
        return doW5Sym m uX uXX uXXL uXXR uXXLL uXXleft
      else if (m.node uXXLR).weight = 0 then
        return doW6Sym m uX uXX uXXL uXXR uXXLR uXXleft
      else
        return doPushSym cfg.noKey m uX uXX uXXL uXXR uXXleft
  else
    return doW7Sym cfg.noKey m uX uXX uXXL uXXR uXXleft

/-- The red-red violation at a child of `uXX`. -/
def redRed (u uX uXX : ℕ) (uXleft uXXleft uXXXleft : Bool) : Except Stop (ScxRecord K V) :=
  let uXL := (m.node uX).left
  let uXR := (m.node uX).right
  let uXXL := (m.node uXX).left
  let uXXR := (m.node uXX).right
  if uXXleft then do
    llx m uXR
    if (m.node uXR).weight = 0 then
      return doBlk cfg.noKey m u uX uXX uXR uXleft
    else if uXXXleft then
      return doRb1 m u uX uXX uXleft
    else do
      llx m uXXR
      return doRb2 m u uX uXX uXXR uXleft
  else do
    llx m uXL
    if (m.node uXL).weight = 0 then
      return doBlk cfg.noKey m u uX uXL uXX uXleft
    else if !uXXXleft then
      return doRb1Sym m u uX uXX uXleft
    else do
      llx m uXXL
      return doRb2Sym m u uX uXX uXXL uXleft

/-- `updateRebalancingStep` from the end of its search on. -/
def rebalanceScx (cur : Cursor) : Except Stop (ScxRecord K V) :=
  if (m.node cur.l).weight = 1 then
    throw .finish
  else do
    let u := cur.ggp
    let uX := cur.gp
    let uXX := cur.p
    let uXXX := cur.l
    llx m u
    let uXleft := decide (uX = (m.node u).left)
    checkChild m u uX
    llx m uX
    let uXXleft := decide (uXX = (m.node uX).left)
    checkChild m uX uXX
    llx m uXX
    let uXXXleft := decide (uXXX = (m.node uXX).left)
    checkChild m uXX uXXX
    llx m (m.node uXX).left
    llx m (m.node uXX).right
    if (m.node uXXX).weight > 1 then
      if uXXXleft then overweightLeft cfg m u uX uXX uXleft uXXleft
      else overweightRight cfg m u uX uXX uXleft uXXleft
    else redRed cfg m u uX uXX uXleft uXXleft uXXXleft

/-! ### One attempt -/

/-- What an update does after its search: the modes of the three functions. -/
inductive Mode where
  | update | rebalance
  deriving DecidableEq

/-- The outputs as the function writes them when it gets to its SCX. -/
def outputs (c : Call K V) (cur : Cursor) : Call K V :=
  let n := m.node cur.l
  match c.kind with
  | .erase => { c with result := n.value, shouldRebalance := decide (c.count > cfg.N) }
  | _ =>
      if c.key = n.key then { c with result := n.value }
      else { c with result := cfg.noValue, shouldRebalance := decide (c.count > cfg.N) }

/-- The whole part after the search: the outputs, and the SCX unless the function returns or
fails before it.  A deletion that fails in its last LLX has already written the result. -/
def attempt (c : Call K V) (md : Mode) (cur : Cursor) : Call K V × Except Stop (ScxRecord K V) :=
  match md with
  | .rebalance => (c, rebalanceScx cfg m cur)
  | .update =>
      match c.kind with
      | .erase =>
          if c.key ≠ (m.node cur.l).key then ({ c with result := cfg.noValue }, .error .finish)
          else match eraseParents m cur with
            | .error e => (c, .error e)
            | .ok () =>
                match eraseScx cfg m cur with
                | .ok rec => (outputs cfg m c cur, .ok rec)
                | .error e => ({ c with result := (m.node cur.l).value }, .error e)
      | .insertIfAbsent =>
          if c.key = (m.node cur.l).key then
            ({ c with result := (m.node cur.l).value }, .error .finish)
          else match insertScx cfg m c cur with
            | .ok rec => (outputs cfg m c cur, .ok rec)
            | .error e => (c, .error e)
      | .insert =>
          match insertScx cfg m c cur with
            | .ok rec => (outputs cfg m c cur, .ok rec)
            | .error e => (c, .error e)

/-- The outputs with which an attempt may return `false`: LLX and SCX may fail because of another
thread at any point, before or after the outputs are written. -/
def abortCalls (c : Call K V) (md : Mode) (cur : Cursor) : List (Call K V) :=
  match md with
  | .rebalance => [c]
  | .update =>
      match c.kind with
      | .erase =>
          if c.key ≠ (m.node cur.l).key then []
          else [c, { c with result := (m.node cur.l).value }, outputs cfg m c cur]
      | .insertIfAbsent =>
          if c.key = (m.node cur.l).key then [] else [c, outputs cfg m c cur]
      | .insert => [c, outputs cfg m c cur]

end Attempts

end Cbat
