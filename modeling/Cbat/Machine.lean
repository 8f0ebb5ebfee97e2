/-
**The threads: one atomic access per step.**

A thread that runs `insert`, `insertIfAbsent`, `erase`, `find` or `contains` is a program counter
with the local variables that are live there.  `exec` makes one step of it: it loads one field of a
node, does one CAS, or does one of the two steps of an SCX.  The three variants of the tree share
the search and the updates; they differ in `propagate` and `refresh`.  Several threads interleave
their steps in any order; a single thread that runs alone is the same machine.

Main definitions:

* `Cbat.Frame`, `Cbat.stepFrame` — a call of `refresh` or `refreshUntilConsistentChildren`, with
  the nested calls for children whose version is nil;
* `Cbat.Climb` — the local variables of `propagate`;
* `Cbat.PC`, `Cbat.exec` — **the program counters and the step of one thread**;
* `Cbat.State`, `Cbat.Step`, `Cbat.Reachable` — any number of threads and their interleavings.
-/

import Cbat.Updates
import Mathlib.Logic.Relation

set_option relaxedAutoImplicit false
set_option autoImplicit false

namespace Cbat

variable {K V : Type}

/-! ### Refreshing one node -/

/-- Where a refresh is: the next access. -/
inductive Pos where
  /-- `getVersion(x)` of an eager refresh: the first load -/
  | getOld
  /-- `getVersion(x)` of an eager refresh: the second load -/
  | reloadOld
  /-- `oldVer = x->version` -/
  | loadOld
  /-- `x->left` null? -/
  | leafTest
  /-- `left1 = x->left` -/
  | loadLeft
  /-- `left1->version`, nil? -/
  | loadLeftVer
  /-- `leftver = left1->version` -/
  | reloadLeftVer
  /-- `left1 != x->left`? -/
  | testLeft
  /-- `right1 = x->right` -/
  | loadRight
  /-- `right1->version`, nil? -/
  | loadRightVer
  /-- `rightver = right1->version` -/
  | reloadRightVer
  /-- `right1 != x->right`? -/
  | testRight
  /-- the CAS on `x->version` -/
  | cas
  deriving DecidableEq

/-- A call of a refresh function.  `main` tells the call made by `propagate` from the nested calls
that fill in a nil version.  `prev` is used by `refreshUntilConsistentChildren` only: the versions
of the children with which its last CAS succeeded. -/
structure Frame (K : Type) where
  /-- the node -/
  x : ℕ
  /-- called by `propagate` -/
  main : Bool
  /-- the next access -/
  pos : Pos
  /-- the version that the CAS expects -/
  oldVer : Ver K
  /-- the left child read last -/
  left1 : ℕ
  /-- its version -/
  leftver : Ver K
  /-- the right child read last -/
  right1 : ℕ
  /-- its version -/
  rightver : Ver K
  /-- `leftver1` and `rightver1` -/
  prev : Option (Ver K × Ver K)

/-- The start of a call. -/
def Frame.start (var : Variant) (x : ℕ) (main : Bool) : Frame K where
  x := x
  main := main
  pos := if main ∧ var = .eagerDel then .getOld else .loadOld
  oldVer := .nil
  left1 := 0
  leftver := .nil
  right1 := 0
  rightver := .nil
  prev := none

/-- What one step of a refresh leads to: the call goes on (with the callers of the active one), or
the outermost one returns: whether its CAS succeeded, and the status that it returns. -/
inductive FrameResult (K : Type) where
  | run (f : Frame K) (callers : List (Frame K)) : FrameResult K
  | ret (ok : Bool) (curps : ℕ) : FrameResult K

/-- The active call returns. -/
def FrameResult.pop (callers : List (Frame K)) (ok : Bool) (curps : ℕ) : FrameResult K :=
  match callers with
  | [] => .ret ok curps
  | f :: fs => .run f fs

section Refresh

variable [DecidableEq K] (var : Variant) (m : Mem K V) (ps : ℕ)

/-- The version that a refresh installs; its sum is that of the left version alone at the root,
which has no right child. -/
def Frame.newVer (f : Frame K) : Ver K :=
  .mk m.nextVer (m.node f.x).key (f.leftver.sum + f.rightver.sum) f.leftver f.rightver
    (if f.main then ps else 0)

/-- The CAS of a refresh: the memory after it, the version to retire if any, and how the call goes
on.  An eager refresh reads the children again and returns only once they have not changed. -/
def stepCas (f : Frame K) (callers : List (Frame K)) : Mem K V × List (Ver K) × FrameResult K :=
  if (m.node f.x).version = f.oldVer then
    let new := f.newVer m ps
    ({ m.setVersion f.x new with nextVer := m.nextVer + 1 },
      if f.oldVer.isNil then [] else [f.oldVer],
      if var = .eagerDel ∧ f.main then
        .run
          { f with oldVer := new, prev := some (f.leftver, f.rightver), pos := .loadLeft }
          callers
      else .pop callers true (if f.main then ps else 0))
  else (m, [], .pop callers false (m.node f.x).version.status)

/-- One access of a refresh. -/
def stepFrame (f : Frame K) (callers : List (Frame K)) :
    Mem K V × List (Ver K) × FrameResult K :=
  match f.pos with
  | .getOld =>
      if (m.node f.x).version.isNil then
        (m, [], .run (.start var f.x false) ({ f with pos := .reloadOld } :: callers))
      else (m, [], .run { f with pos := .reloadOld } callers)
  | .reloadOld => (m, [], .run { f with oldVer := (m.node f.x).version, pos := .leafTest } callers)
  | .loadOld =>
      -- outside BAT a nested call has nothing to do once the version is there
      if var ≠ .bat ∧ !f.main ∧ !(m.node f.x).version.isNil then (m, [], .pop callers true 0)
      else (m, [], .run { f with oldVer := (m.node f.x).version, pos := .leafTest } callers)
  | .leafTest =>
      if (m.node f.x).left = 0 then
        if var = .eagerDel then
          ({ m.setVersion f.x
              (.mk m.nextVer (m.node f.x).key 1 .nil .nil (if f.main then ps else 0))
              with nextVer := m.nextVer + 1 },
            [], .pop callers true (if f.main then ps else 0))
        else (m, [], .pop callers true (if f.main then ps else 0))
      else (m, [], .run { f with pos := .loadLeft } callers)
  | .loadLeft => (m, [], .run { f with left1 := (m.node f.x).left, pos := .loadLeftVer } callers)
  | .loadLeftVer =>
      if (m.node f.left1).version.isNil then
        (m, [], .run (.start var f.left1 false) ({ f with pos := .reloadLeftVer } :: callers))
      else if var = .bat then
        (m, [], .run { f with leftver := (m.node f.left1).version, pos := .testLeft } callers)
      else (m, [], .run { f with pos := .reloadLeftVer } callers)
  | .reloadLeftVer =>
      (m, [], .run { f with leftver := (m.node f.left1).version, pos := .testLeft } callers)
  | .testLeft =>
      (m, [], .run { f with pos := if f.left1 = (m.node f.x).left then .loadRight else .loadLeft }
        callers)
  | .loadRight =>
      if (m.node f.x).right = 0 then
        (m, [], .run { f with right1 := 0, rightver := .nil, pos := .testRight } callers)
      else (m, [], .run { f with right1 := (m.node f.x).right, pos := .loadRightVer } callers)
  | .loadRightVer =>
      if (m.node f.right1).version.isNil then
        (m, [], .run (.start var f.right1 false) ({ f with pos := .reloadRightVer } :: callers))
      else if var = .bat then
        (m, [], .run { f with rightver := (m.node f.right1).version, pos := .testRight } callers)
      else (m, [], .run { f with pos := .reloadRightVer } callers)
  | .reloadRightVer =>
      (m, [], .run { f with rightver := (m.node f.right1).version, pos := .testRight } callers)
  | .testRight =>
      if f.right1 = (m.node f.x).right then
        if f.prev = some (f.leftver, f.rightver) then (m, [], .pop callers true ps)
        else (m, [], .run { f with pos := .cas } callers)
      else (m, [], .run { f with pos := .loadRight } callers)
  | .cas => stepCas var m ps f callers

end Refresh

/-! ### Program counters -/

/-- The local variables of `propagate`. -/
structure Climb (K V : Type) where
  /-- the update that called it -/
  call : Call K V
  /-- the stack, top first -/
  stack : List ℕ
  /-- the set of refreshed nodes -/
  set : List ℕ
  /-- the versions to retire -/
  toRetire : List (Ver K)
  /-- the status record, in the delegating variants -/
  ps : ℕ

/-- The program counter of a thread. -/
inductive PC (K V : Type) where
  /-- no call yet -/
  | idle : PC K V
  /-- `l = root->left` -/
  | searchRoot (c : Call K V) (md : Mode) : PC K V
  /-- `l->left`, null? -/
  | searchTop (c : Call K V) (md : Mode) (l : ℕ) : PC K V
  /-- `l = p->left` -/
  | searchFirst (c : Call K V) (md : Mode) (p : ℕ) : PC K V
  /-- the test of the search loop -/
  | searchLoop (c : Call K V) (md : Mode) (cur : Cursor) : PC K V
  /-- the load of the next node of the search -/
  | searchNext (c : Call K V) (md : Mode) (cur : Cursor) : PC K V
  /-- LLX and the first step of an SCX -/
  | attempt (c : Call K V) (md : Mode) (cur : Cursor) : PC K V
  /-- the second step of an SCX -/
  | swing (c : Call K V) (md : Mode) (rec : ScxRecord K V) : PC K V
  /-- the start of `propagate` -/
  | propStart (c : Call K V) : PC K V
  /-- the load of the next node on the path -/
  | propChild (cl : Climb K V) : PC K V
  /-- `c && c->left && !set.count(c)` -/
  | propTest (cl : Climb K V) (c : ℕ) : PC K V
  /-- in a refresh of `r`; `again` for the second one -/
  | refresh (cl : Climb K V) (r : ℕ) (again : Bool) (f : Frame K)
    (callers : List (Frame K)) : PC K V
  /-- `r->marked` -/
  | propMark (cl : Climb K V) (r curps : ℕ) : PC K V
  /-- `currDel->getDone()` -/
  | waitDone (cl : Climb K V) (currDel : ℕ) : PC K V
  /-- `currDel->getPtr()` -/
  | waitPtr (cl : Climb K V) (currDel : ℕ) : PC K V
  /-- `ps->setDone(true)` -/
  | setDone (cl : Climb K V) : PC K V
  /-- the versions still to be retired -/
  | retire (cl : Climb K V) (todo : List (Ver K)) : PC K V
  /-- the update has returned -/
  | ret (c : Call K V) : PC K V
  /-- `p = root->left` -/
  | findRoot (key : K) : PC K V
  /-- `l = p->left` -/
  | findTop (key : K) (p : ℕ) : PC K V
  /-- `l->left`, null? -/
  | findLoop (key : K) (l : ℕ) : PC K V
  /-- the load of the next node of `find` -/
  | findNext (key : K) (p : ℕ) : PC K V
  /-- `find` has returned -/
  | findRet (value : V) (found : Bool) : PC K V
  /-- `contains` loads the version of the root -/
  | containsRoot (key : K) : PC K V
  /-- `contains` has returned -/
  | containsRet (found : Bool) : PC K V
  /-- a null pointer or the top of an empty stack was read -/
  | crash : PC K V

section Exec

variable [LinearOrder K] (cfg : Cfg K V) (m : Mem K V)

/-- `cmp(key, c->key) || c->key == NO_KEY`: the key is looked for on the left. -/
def goesLeft (key c : K) : Bool := decide (key < c) || decide (c = cfg.noKey)

/-- The child of `x` on the path of `key`. -/
def child (key : K) (x : ℕ) : ℕ :=
  if goesLeft cfg key (m.node x).key then (m.node x).left else (m.node x).right

/-- An attempt has succeeded: a rebalancing step follows the update if it is needed, and
`propagate` follows that. -/
def finished (c : Call K V) : Mode → PC K V
  | .update => if c.shouldRebalance then .searchRoot c .rebalance else .propStart c
  | .rebalance => .propStart c

/-- The loop of a search goes on at `l`. -/
def searchGoesOn (md : Mode) (cur : Cursor) : Bool :=
  decide ((m.node cur.l).left ≠ 0) &&
    match md with
    | .update => true
    | .rebalance => decide ((m.node cur.l).weight ≤ 1) &&
        (decide ((m.node cur.l).weight ≠ 0) || decide ((m.node cur.p).weight ≠ 0))

/-- The body of the search loop up to the load of the next node: an update pushes the parent and
counts the violation at `l`, a rebalancing step does not. -/
def searchBody (c : Call K V) (cur : Cursor) : Mode → Call K V
  | .update =>
      { c with
        stack := cur.p :: c.stack
        count := if (m.node cur.l).weight > 1 ∨
            ((m.node cur.l).weight = 0 ∧ (m.node cur.p).weight = 0) then c.count + 1 else c.count }
  | .rebalance => c

/-- `set.insert(r)`, and the test at the head of the loop. -/
def inserted (cl : Climb K V) (r : ℕ) : PC K V :=
  let cl := { cl with set := r :: cl.set }
  if root ∈ cl.set then
    if cfg.variant = .bat then .retire cl cl.toRetire else .setDone cl
  else .propChild cl

/-- A refresh called by `propagate` has returned. -/
def refreshed (cl : Climb K V) (r : ℕ) (again ok : Bool) (curps : ℕ) : PC K V :=
  match cfg.variant with
  | .bat =>
      if ok || again then inserted cfg cl r
      else .refresh cl r true (.start .bat r true) []
  | .eagerDel => if curps = cl.ps then inserted cfg cl r else .propMark cl r curps
  | .del =>
      if curps = cl.ps then inserted cfg cl r
      else if again then .propMark cl r curps
      else .refresh cl r true (.start .del r true) []

/-- One step of a call of an update up to its `propagate`. -/
def execUpdate : PC K V → Mem K V × PC K V
  | .searchRoot c .update =>
      (m, .searchTop { c with stack := [root], count := 0 } .update (m.node root).left)
  | .searchRoot c .rebalance => (m, .searchTop c .rebalance (m.node root).left)
  | .searchTop c md l =>
      if (m.node l).left = 0 then
        match md, c.kind with
        | .rebalance, _ => (m, finished c .rebalance)
        | .update, .erase => (m, finished c .update)
        | .update, _ => (m, .attempt c .update ⟨root, root, root, l⟩)
      else (m, .searchFirst c md l)
  | .searchFirst c md p => (m, .searchLoop c md ⟨root, root, p, (m.node p).left⟩)
  | .searchLoop c md cur =>
      if searchGoesOn m md cur then
        (m, .searchNext (searchBody m c cur md) md ⟨cur.gp, cur.p, cur.l, cur.l⟩)
      else (m, .attempt c md cur)
  | .searchNext c md cur =>
      (m, .searchLoop c md { cur with
        l := if c.key < (m.node cur.p).key then (m.node cur.p).left else (m.node cur.p).right })
  | .attempt c md cur =>
      match attempt cfg m c md cur with
      | (c', .ok rec) => (m.freeze rec, .swing c' md rec)
      | (c', .error .retry) => (m, .searchRoot c' md)
      | (c', .error .finish) => (m, finished c' md)
      | (_, .error .crash) => (m, .crash)
  | .swing c md rec => (m.swing rec, finished c md)
  | pc => (m, pc)

/-- One step of `propagate`. -/
def execPropagate : PC K V → Mem K V × PC K V
  | .propStart c =>
      if cfg.variant = .bat then (m, .propChild ⟨c, c.stack, [], [], 0⟩)
      else
        ({ m with
            status := Function.update m.status m.nextStatus ⟨0, false⟩
            nextStatus := m.nextStatus + 1 },
          .propChild ⟨c, c.stack, [], [], m.nextStatus⟩)
  | .propChild cl =>
      match cl.stack with
      | [] => (m, .crash)
      | t :: _ => (m, .propTest cl (child cfg m cl.call.key t))
  | .propTest cl c =>
      if c ≠ 0 ∧ (m.node c).left ≠ 0 ∧ c ∉ cl.set then
        (m, .propChild { cl with stack := c :: cl.stack })
      else
        match cl.stack with
        | [] => (m, .crash)
        | r :: st => (m, .refresh { cl with stack := st } r false (.start cfg.variant r true) [])
  | .refresh cl r again f callers =>
      match stepFrame cfg.variant m cl.ps f callers with
      | (m', vs, .run f' callers') =>
          (m', .refresh { cl with toRetire := cl.toRetire ++ vs } r again f' callers')
      | (m', vs, .ret ok curps) =>
          (m', refreshed cfg { cl with toRetire := cl.toRetire ++ vs } r again ok curps)
  | .propMark cl r curps =>
      if (m.node r).marked then (m, inserted cfg cl r)
      else
        ({ m with
            status := Function.update m.status cl.ps { m.status cl.ps with delegatee := curps } },
          if curps = 0 then .setDone cl else .waitDone cl curps)
  | .waitDone cl d => if (m.status d).done then (m, .setDone cl) else (m, .waitPtr cl d)
  | .waitPtr cl d =>
      (m, .waitDone cl (if (m.status d).delegatee ≠ 0 then (m.status d).delegatee else d))
  | .setDone cl =>
      ({ m with status := Function.update m.status cl.ps { m.status cl.ps with done := true } },
        .retire cl cl.toRetire)
  | .retire cl [] => (m, .ret cl.call)
  | .retire cl (_ :: vs) => (m, .retire cl vs)
  | pc => (m, pc)

/-- One step of `find` or `contains`. -/
def execQuery : PC K V → Mem K V × PC K V
  | .findRoot key => (m, .findTop key (m.node root).left)
  | .findTop key p =>
      let l := (m.node p).left
      if l = 0 then (m, .findRet cfg.noValue false) else (m, .findLoop key l)
  | .findLoop key l =>
      if (m.node l).left ≠ 0 then (m, .findNext key l)
      else if key = (m.node l).key then (m, .findRet (m.node l).value true)
      -- only BAT assigns the result of an unsuccessful search
      else (m, .findRet (if cfg.variant = .bat then cfg.noValue else cfg.initValue) false)
  | .findNext key p =>
      (m, .findLoop key (if key < (m.node p).key then (m.node p).left else (m.node p).right))
  | .containsRoot key =>
      (m, .containsRet (containsLoop cfg.noKey key (m.node root).version))
  | pc => (m, pc)

/-- **One step of a thread.** -/
def exec (pc : PC K V) : Mem K V × PC K V :=
  match pc with
  | .idle | .ret _ | .findRet _ _ | .containsRet _ | .crash => (m, pc)
  | .findRoot _ | .findTop _ _ | .findLoop _ _ | .findNext _ _ | .containsRoot _ =>
      execQuery cfg m pc
  | .propStart _ | .propChild _ | .propTest _ _ | .refresh _ _ _ _ _ | .propMark _ _ _
  | .waitDone _ _ | .waitPtr _ _ | .setDone _ | .retire _ _ => execPropagate cfg m pc
  | .searchRoot _ _ | .searchTop _ _ _ | .searchFirst _ _ _ | .searchLoop _ _ _
  | .searchNext _ _ _ | .attempt _ _ _ | .swing _ _ _ => execUpdate cfg m pc

end Exec

/-! ### Calls and interleavings -/

/-- The calls of the interface. -/
inductive Op (K V : Type) where
  | insert (key : K) (val : V) : Op K V
  | insertIfAbsent (key : K) (val : V) : Op K V
  | erase (key : K) : Op K V
  | find (key : K) : Op K V
  | contains (key : K) : Op K V

/-- The key of a call. -/
def Op.key : Op K V → K
  | insert k _ | insertIfAbsent k _ | erase k | find k | contains k => k

/-- The program counter at the start of a call. -/
def Op.start (cfg : Cfg K V) : Op K V → PC K V
  | insert k v => .searchRoot ⟨.insert, k, v, cfg.noValue, false, [], 0⟩ .update
  | insertIfAbsent k v => .searchRoot ⟨.insertIfAbsent, k, v, cfg.noValue, false, [], 0⟩ .update
  | erase k => .searchRoot ⟨.erase, k, cfg.noValue, cfg.noValue, false, [], 0⟩ .update
  | find k => .findRoot k
  | contains k => .containsRoot k

/-- No call is running. -/
def PC.Resting : PC K V → Prop
  | idle | ret _ | findRet _ _ | containsRet _ => True
  | _ => False

/-- Any number of threads over one memory. -/
structure State (K V : Type) where
  /-- the shared memory -/
  mem : Mem K V
  /-- the program counter of each thread -/
  pc : ℕ → PC K V

/-- The tree as constructed, no thread in a call. -/
def State.init (cfg : Cfg K V) : State K V where
  mem := .init cfg.noKey cfg.noValue
  pc := fun _ => .idle

/-- Thread `i` at the program counter `pc` over the memory `m`. -/
def State.set (s : State K V) (m : Mem K V) (i : ℕ) (pc : PC K V) : State K V where
  mem := m
  pc := Function.update s.pc i pc

section Steps

variable [LinearOrder K] (cfg : Cfg K V)

/-- **One step of the system**, made by thread `i`: a new call with a key other than `NO_KEY`, one
access of the running call, or an attempt that fails because LLX or SCX does. -/
inductive Step (s : State K V) (i : ℕ) : State K V → Prop
  | invoke (op : Op K V) (hrest : (s.pc i).Resting) (hkey : op.key ≠ cfg.noKey) :
      Step s i (s.set s.mem i (op.start cfg))
  | exec : Step s i (s.set (exec cfg s.mem (s.pc i)).1 i (exec cfg s.mem (s.pc i)).2)
  | abort {c : Call K V} {md : Mode} {cur : Cursor} {c' : Call K V}
      (hpc : s.pc i = .attempt c md cur) (hc : c' ∈ abortCalls cfg s.mem c md cur) :
      Step s i (s.set s.mem i (.searchRoot c' md))

/-- The states of all runs from the constructed tree. -/
def Reachable (s : State K V) : Prop :=
  Relation.ReflTransGen (fun s s' => ∃ i, Step cfg s i s') (State.init cfg) s

end Steps

end Cbat
