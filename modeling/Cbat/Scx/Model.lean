/-
**LLX, SCX, helping and reclamation, one atomic access at a time.**

An update reads a few nodes with `llx` and then calls `scx`, which freezes the nodes, marks those
that are to be removed and swings one child pointer, all through `help`, which any thread that meets
the record may run as well.  Afterwards the owner of the record gives the SCX records that the
frozen nodes pointed to, and the removed nodes, to the memory manager.  This module translates
`llx`, `scx`, `help`, `tryRetireSCXRecord` and `reclaimMemoryAfterSCX` with every load, store and
CAS of shared memory a step of its own.  Keys, values, weights and versions play no role in them
and are left out; the updates that call them are free to pass whatever their LLXs justify.

Memory is never recycled.  Next to the memory there is a history: facts about the past that the
steps write and never read.

Main definitions:

* `Cbat.Scx.Node`, `Cbat.Scx.SCXRecord`, `Cbat.Scx.Mem` — the shared memory;
* `Cbat.Scx.Pc`, `Cbat.Scx.Thread` — where a thread is, and what it owns;
* `Cbat.Scx.llxStep`, `Cbat.Scx.helpStep`, `Cbat.Scx.tryRetireStep`, `Cbat.Scx.reclaimStep` — the
  atomic steps;
* `Cbat.Scx.Call`, `Cbat.Scx.Proper` — the arguments of `scx`, and **what a caller has to respect**;
* `Cbat.Scx.Step`, `Cbat.Scx.Reachable` — the machine.
-/

import Cbat.Memory
import Cbat.Pointers
import Cbat.Scx.StateWord

set_option relaxedAutoImplicit false
set_option autoImplicit false

namespace Cbat

/-- `NUM_OF_NODES` -/
def ScxType.numOfNodes : ScxType → ℕ
  | .ins => 2 | .del => 4 | .blk => 4 | .rb1 => 3 | .rb2 => 4 | .push => 4
  | .w1 => 5 | .w2 => 5 | .w3 => 6 | .w4 => 6 | .w5 => 5 | .w6 => 5 | .w7 => 4
  | .rb1Sym => 3 | .rb2Sym => 4 | .pushSym => 4
  | .w1Sym => 5 | .w2Sym => 5 | .w3Sym => 6 | .w4Sym => 6 | .w5Sym => 5 | .w6Sym => 5
  | .w7Sym => 4
  | .replace => 2

theorem ScxType.numToFreeze_pos (t : ScxType) : 0 < t.numToFreeze := by
  cases t <;> decide

theorem ScxType.numToFreeze_lt (t : ScxType) : t.numToFreeze < 24 := by
  cases t <;> decide

theorem ScxType.numInserted_pos (t : ScxType) : 0 < t.numInserted := by
  cases t <;> decide

theorem ScxType.numToFreeze_le (t : ScxType) : t.numToFreeze ≤ t.numOfNodes := by
  cases t <;> decide

namespace Scx

/-! ### Shared memory -/

/-- The fields of a node that LLX and SCX use; `0` is the null pointer. -/
structure Node where
  /-- the left child -/
  left : ℕ
  /-- the right child -/
  right : ℕ
  /-- finalized -/
  marked : Bool
  /-- the SCX record that last froze the node -/
  scxRecord : ℕ

/-- An SCX record. -/
structure SCXRecord where
  /-- the type of replacement -/
  type : ScxType
  /-- the nodes -/
  nodes : List ℕ
  /-- what the LLXs returned, `none` for `LLX_RETURN_IS_LEAF` -/
  scxRecordsSeen : List (Option ℕ)
  /-- the top of the new subtree -/
  newNode : ℕ
  /-- whether the field to change is `nodes[0]->left` -/
  fieldIsLeft : Bool
  /-- the state word -/
  state : Word
  /-- all nodes have been frozen -/
  allFrozen : Bool

/-- The dummy record, to which every new node points. -/
def dummy : ℕ := 0

/-- The number of preallocated nodes of a thread, `MAX_NODES - 1`. -/
def numSlots : ℕ := 5

theorem numInserted_le_numSlots (t : ScxType) : t.numInserted ≤ numSlots := by
  cases t <;> decide

/-- The shared memory. -/
structure Mem where
  /-- the nodes by address -/
  node : ℕ → Node
  /-- the SCX records by address -/
  record : ℕ → SCXRecord
  /-- the first unused node address -/
  next : ℕ
  /-- the first unused record address -/
  nextRecord : ℕ
  /-- the SCX records handed to `retire`, the latest first -/
  retired : List ℕ
  /-- the nodes handed to `retire`, the latest first -/
  retiredNodes : List ℕ

namespace Mem

/-- The child of a node on a side; `true` is the left side. -/
def child (m : Mem) (x : ℕ) (d : Bool) : ℕ := if d then (m.node x).left else (m.node x).right

/-- The child of a node on a side, unless it is null. -/
def kid (m : Mem) (x : ℕ) (d : Bool) : Option ℕ :=
  if m.child x d = 0 then none else some (m.child x d)

/-- The SCX record of a node. -/
def ptr (m : Mem) (x : ℕ) : ℕ := (m.node x).scxRecord

/-- The state of an SCX record. -/
def state (m : Mem) (r : ℕ) : Word := (m.record r).state

/-- `nFreeze` -/
def nFreeze (m : Mem) (r : ℕ) : ℕ := (m.record r).type.numToFreeze

/-- `nodes[i]` -/
def nodeAt (m : Mem) (r i : ℕ) : ℕ := (m.record r).nodes.getD i 0

/-- `scxRecordsSeen[i]` -/
def seenAt (m : Mem) (r i : ℕ) : Option ℕ := (m.record r).scxRecordsSeen.getD i none

/-- Write a node. -/
def setNode (m : Mem) (x : ℕ) (n : Node) : Mem := { m with node := Function.update m.node x n }

/-- Write a record. -/
def setRecord (m : Mem) (r : ℕ) (c : SCXRecord) : Mem :=
  { m with record := Function.update m.record r c }

/-- Store the SCX record of a node. -/
def setPtr (m : Mem) (x r : ℕ) : Mem := m.setNode x { m.node x with scxRecord := r }

/-- Mark a node. -/
def setMarked (m : Mem) (x : ℕ) : Mem := m.setNode x { m.node x with marked := true }

/-- Store a child. -/
def setChild (m : Mem) (x : ℕ) (d : Bool) (c : ℕ) : Mem :=
  m.setNode x (if d then { m.node x with left := c } else { m.node x with right := c })

/-- Store a state. -/
def setState (m : Mem) (r : ℕ) (w : Word) : Mem := m.setRecord r { m.record r with state := w }

/-- Set `allFrozen`. -/
def setAllFrozen (m : Mem) (r : ℕ) : Mem := m.setRecord r { m.record r with allFrozen := true }

end Mem

/-! ### Threads -/

/-- What a successful LLX returns. -/
inductive LlxResult where
  | leaf
  | inner (scx left right : ℕ)
  deriving DecidableEq

/-- The return value of the LLX, `none` for `LLX_RETURN_IS_LEAF`. -/
def LlxResult.scx? : LlxResult → Option ℕ
  | leaf => none
  | inner scx _ _ => some scx

/-- The next access of `llx(x)`. -/
inductive LlxAt where
  | scx1
  | state (scx1 : ℕ)
  | marked (scx1 : ℕ) (state : Word)
  | left (scx1 : ℕ)
  | right (scx1 left : ℕ)
  | scx2 (scx1 left right : ℕ)
  | scx3
  deriving DecidableEq

/-- The next access of `help`: the first load of the state, the freezing CAS on `nodes[i]`, the
load of `allFrozen` after a failed one, the CAS that aborts, the store to `allFrozen`, the store
that marks `nodes[i]`, the update CAS, and the store that commits. -/
inductive HelpAt where
  | state
  | freeze (i : ℕ) (flags : Word)
  | check (i : ℕ) (flags : Word)
  | abort (i : ℕ) (flags : Word)
  | allFrozen
  | mark (i : ℕ)
  | update
  | commit
  deriving DecidableEq

/-- The next access of `tryRetireSCXRecord(otherSCX, nodes[j])`, or the head of the loop over `j`
that calls it. -/
inductive RetireAt where
  | loop
  | state (otherSCX : ℕ)
  | load (otherSCX i : ℕ)
  | cas (otherSCX i : ℕ) (stateOld : Word)
  | retire (otherSCX : ℕ)
  deriving DecidableEq

/-- Where a thread is: outside of the functions below, in `llx`, in `help`, at the start of
`reclaimMemoryAfterSCX`, in its loop over `scxRecordsSeen`, or in its loop over the nodes. -/
inductive Pc where
  | idle
  | llx (x : ℕ) (at_ : LlxAt)
  | help (r : ℕ) (helpingOther : Bool) (at_ : HelpAt)
  | reclaim (r : ℕ) (state : Word)
  | tryRetire (r : ℕ) (state : Word) (j : ℕ) (at_ : RetireAt)
  | retireNodes (r j : ℕ)
  deriving DecidableEq

/-- A thread: its preallocated record and nodes, the results of its LLXs so far, the latest first,
and its program counter. -/
structure Thread where
  /-- `allocatedSCXRecord[tid]` -/
  allocatedSCXRecord : ℕ
  /-- `allocatedNodes[tid]` -/
  allocatedNodes : ℕ → ℕ
  /-- the nodes of the LLXs that succeeded, with what they returned -/
  llxResults : List (ℕ × LlxResult)
  /-- the program counter -/
  pc : Pc

/-! ### History -/

/-- The past of a record: when its SCX began, how many of its nodes have been dealt with in the
loop that freezes them, how often its update CAS has succeeded, how many of the records it replaced
its owner has dealt with, its owner, the results of the LLXs it rests on and its new nodes. -/
structure RecordHistory where
  /-- the time at which the SCX began -/
  time : ℕ
  /-- the nodes before this index have been frozen, or are leaves -/
  front : ℕ
  /-- the number of update CASs that succeeded -/
  swings : ℕ
  /-- the number of rounds of the loop over `scxRecordsSeen` -/
  done : ℕ
  /-- the thread that called `scx` -/
  owner : ℕ
  /-- the results of the LLXs -/
  res : ℕ → LlxResult
  /-- the new nodes -/
  inserted : List ℕ

/-- The past. -/
structure History where
  /-- the past of the records -/
  of : ℕ → RecordHistory
  /-- the nodes that have been in the tree -/
  linked : List ℕ
  /-- the number of SCXs so far -/
  clock : ℕ

namespace History

/-- Change the history of one record. -/
def set (h : History) (r : ℕ) (c : RecordHistory) : History :=
  { h with of := Function.update h.of r c }

/-- The nodes before the index `i` have been dealt with. -/
def advance (h : History) (r i : ℕ) : History :=
  h.set r { h.of r with front := max (h.of r).front i }

/-- The update CAS has succeeded. -/
def swing (h : History) (r : ℕ) : History :=
  { h.set r { h.of r with swings := (h.of r).swings + 1 } with
    linked := (h.of r).inserted ++ h.linked }

/-- The owner has dealt with the first `j` records that it replaced. -/
def finish (h : History) (r j : ℕ) : History := h.set r { h.of r with done := j }

end History

/-! ### LLX -/

/-- One access of `llx(x)`; on success the result comes with it. -/
def llxStep (m : Mem) (x : ℕ) : LlxAt → Pc × Option LlxResult
  | .scx1 => (.llx x (.state (m.ptr x)), none)
  | .state scx1 => (.llx x (.marked scx1 (m.state scx1)), none)
  | .marked scx1 state =>
      if (state = stateCommitted ∧ (m.node x).marked = false) ∨ state.Aborted then
        (.llx x (.left scx1), none)
      else if state = stateInProgress then (.help scx1 true .state, none)
      else (.llx x .scx3, none)
  | .left scx1 => (.llx x (.right scx1 (m.node x).left), none)
  | .right scx1 left =>
      if left = 0 then (.idle, some .leaf)
      else (.llx x (.scx2 scx1 left (m.node x).right), none)
  | .scx2 scx1 left right =>
      if m.ptr x = scx1 then (.idle, some (.inner scx1 left right))
      else (.help (m.ptr x) true .state, none)
  | .scx3 => (.help (m.ptr x) true .state, none)

/-! ### Help -/

/-- Where a thread goes on when `help` returns: `llx` fails after helping, and `scx` goes on to
`reclaimMemoryAfterSCX`. -/
def helpReturn (r : ℕ) (helpingOther : Bool) (state : Word) : Pc :=
  if helpingOther then .idle else .reclaim r state

/-- One access of `help(r, helpingOther)`. -/
def helpStep (m : Mem) (h : History) (r : ℕ) (helpingOther : Bool) : HelpAt → Mem × History × Pc
  | .state =>
      if m.state r ≠ stateInProgress then (m, h, helpReturn r helpingOther (m.state r))
      else (m, h, .help r helpingOther (.freeze (if helpingOther then 1 else 0) 1))
  | .freeze i flags =>
      if i < m.nFreeze r then
        match m.seenAt r i with
        | none => (m, h.advance r (i + 1), .help r helpingOther (.freeze (i + 1) flags))
        | some exp =>
            let x := m.nodeAt r i
            if m.ptr x = exp then
              (m.setPtr x r, h.advance r (i + 1),
                .help r helpingOther (.freeze (i + 1) (flags ||| (1#32 <<< i))))
            else if m.ptr x = r then
              (m, h.advance r (i + 1),
                .help r helpingOther (.freeze (i + 1) (flags ||| (1#32 <<< i))))
            else (m, h, .help r helpingOther (.check i flags))
      else (m, h, .help r helpingOther .allFrozen)
  | .check i flags =>
      if (m.record r).allFrozen then (m, h, helpReturn r helpingOther stateCommitted)
      else if i = 0 then (m, h, helpReturn r helpingOther (abortStateInit 0 0))
      else (m, h, .help r helpingOther (.abort i flags))
  | .abort i flags =>
      let newState := abortStateInit (BitVec.ofNat 32 i) flags
      if m.state r = stateInProgress then
        (m.setState r newState, h, helpReturn r helpingOther newState)
      else (m, h, helpReturn r helpingOther (m.state r))
  | .allFrozen => (m.setAllFrozen r, h, .help r helpingOther (.mark 1))
  | .mark i =>
      if i < m.nFreeze r then
        match m.seenAt r i with
        | none => (m, h, .help r helpingOther (.mark (i + 1)))
        | some _ => (m.setMarked (m.nodeAt r i), h, .help r helpingOther (.mark (i + 1)))
      else (m, h, .help r helpingOther .update)
  | .update =>
      let x := m.nodeAt r 0
      let d := (m.record r).fieldIsLeft
      if m.child x d = m.nodeAt r 1 then
        (m.setChild x d (m.record r).newNode, h.swing r, .help r helpingOther .commit)
      else (m, h, .help r helpingOther .commit)
  | .commit => (m.setState r stateCommitted, h, helpReturn r helpingOther stateCommitted)

/-! ### Reclaiming memory -/

/-- `highestIndexReached` -/
def highestIndexReached (m : Mem) (r : ℕ) (state : Word) : ℕ :=
  if state = stateCommitted then m.nFreeze r else stateGetHighestIndexReached state

/-- The start of `reclaimMemoryAfterSCX`: a record that was never in the tree is kept, with the
nodes; otherwise the record is replaced, and after a commit the new nodes are replaced as well. -/
def reclaimStep (m : Mem) (t : Thread) (r : ℕ) (state : Word) : Mem × Thread :=
  if highestIndexReached m r state = 0 then (m, { t with pc := .idle })
  else
    let t' := { t with
      allocatedSCXRecord := m.nextRecord
      pc := .tryRetire r state 0 .loop }
    let m' := { m with nextRecord := m.nextRecord + 1 }
    if state = stateCommitted then
      let k := (m.record r).type.numInserted
      ({ m' with next := m.next + k },
        { t' with allocatedNodes := fun i => if i < k then m.next + i else t.allocatedNodes i })
    else (m', t')

/-- The index of a node among the nodes that a record freezes, if it is one of them. -/
def indexOf (m : Mem) (r x : ℕ) : Option ℕ :=
  let l := (m.record r).nodes.take (m.nFreeze r)
  if x ∈ l then some (l.idxOf x) else none

/-- One access of the loop over `scxRecordsSeen`; `tryRetireSCXRecord` is part of it. -/
def tryRetireStep (m : Mem) (h : History) (r : ℕ) (state : Word) (j : ℕ) :
    RetireAt → Mem × History × Pc
  | .loop =>
      if j < highestIndexReached m r state then
        match m.seenAt r j with
        | none => (m, h.finish r (j + 1), .tryRetire r state (j + 1) .loop)
        | some otherSCX =>
            if otherSCX = dummy then (m, h.finish r (j + 1), .tryRetire r state (j + 1) .loop)
            else (m, h, .tryRetire r state j (.state otherSCX))
      else if state = stateCommitted then (m, h, .retireNodes r 1)
      else (m, h, .idle)
  | .state otherSCX =>
      if m.state otherSCX = stateCommitted then
        (m, h.finish r (j + 1), .tryRetire r state j (.retire otherSCX))
      else
        match indexOf m otherSCX (m.nodeAt r j) with
        | some i => (m, h, .tryRetire r state j (.load otherSCX i))
        | none => (m, h.finish r (j + 1), .tryRetire r state (j + 1) .loop)
  | .load otherSCX i => (m, h, .tryRetire r state j (.cas otherSCX i (m.state otherSCX)))
  | .cas otherSCX i stateOld =>
      let stateNew := stateGetWithFlagOff stateOld i
      if m.state otherSCX = stateOld then
        (m.setState otherSCX stateNew, h.finish r (j + 1),
          if stateGetFlags stateNew = 0 then .tryRetire r state j (.retire otherSCX)
          else .tryRetire r state (j + 1) .loop)
      else (m, h, .tryRetire r state j (.load otherSCX i))
  | .retire otherSCX =>
      ({ m with retired := otherSCX :: m.retired }, h, .tryRetire r state (j + 1) .loop)

/-- One round of the loop over the removed nodes. -/
def retireNodesStep (m : Mem) (r j : ℕ) : Mem × Pc :=
  if j < (m.record r).type.numOfNodes then
    ({ m with retiredNodes := m.nodeAt r j :: m.retiredNodes }, .retireNodes r (j + 1))
  else (m, .idle)

/-! ### The machine -/

/-- The memory, its history and the threads, of which there are `n`. -/
structure State (n : ℕ) where
  /-- the shared memory -/
  mem : Mem
  /-- the past -/
  hist : History
  /-- the threads -/
  thread : Fin n → Thread

variable {n : ℕ}

namespace State

/-- The state after an action of thread `i`. -/
def set (s : State n) (m : Mem) (h : History) (i : Fin n) (t : Thread) : State n :=
  ⟨m, h, Function.update s.thread i t⟩

/-- The state after an action of thread `i` that changes nothing of its own but its program
counter. -/
def go (s : State n) (m : Mem) (h : History) (i : Fin n) (pc : Pc) : State n :=
  s.set m h i { s.thread i with pc := pc }

/-- One atomic step of thread `i`. -/
def exec (s : State n) (i : Fin n) : State n :=
  match (s.thread i).pc with
  | .idle => s
  | .llx x at_ =>
      match llxStep s.mem x at_ with
      | (pc, none) => s.go s.mem s.hist i pc
      | (pc, some res) =>
          s.set s.mem s.hist i { s.thread i with
            llxResults := (x, res) :: (s.thread i).llxResults
            pc := pc }
  | .help r helpingOther at_ =>
      let (m, h, pc) := helpStep s.mem s.hist r helpingOther at_
      s.go m h i pc
  | .reclaim r state =>
      let (m, t) := reclaimStep s.mem (s.thread i) r state
      s.set m s.hist i t
  | .tryRetire r state j at_ =>
      let (m, h, pc) := tryRetireStep s.mem s.hist r state j at_
      s.go m h i pc
  | .retireNodes r j =>
      let (m, pc) := retireNodesStep s.mem r j
      s.go m s.hist i pc

end State

/-! ### Calls of SCX -/

/-- The arguments of `scx`: the type, the nodes with what the LLXs of this thread returned for
them, the field of `nodes[0]`, and the new subtree, whose labels are indices of preallocated nodes
and whose exits are addresses. -/
structure Call where
  /-- the type of replacement -/
  type : ScxType
  /-- the nodes -/
  nodes : List ℕ
  /-- what the LLXs returned -/
  res : ℕ → LlxResult
  /-- whether the field is `nodes[0]->left` -/
  fieldIsLeft : Bool
  /-- the new subtree -/
  new : Patch ℕ ℕ

/-- `llxResults` -/
def Call.seen (c : Call) : List (Option ℕ) :=
  (c.nodes.take c.type.numToFreeze).map fun x => (c.res x).scx?

/-- The address of the top of a new subtree. -/
def newPtr (slot : ℕ → ℕ) : Patch ℕ ℕ → ℕ
  | .sub p => p
  | .leaf k => slot k
  | .node k _ _ => slot k

/-- `initializeNode`, for all nodes of a new subtree. -/
def Mem.initNodes (m : Mem) (slot : ℕ → ℕ) : Patch ℕ ℕ → Mem
  | .sub _ => m
  | .leaf k => m.setNode (slot k) ⟨0, 0, false, dummy⟩
  | .node k l r =>
      ((m.initNodes slot l).initNodes slot r).setNode (slot k)
        ⟨newPtr slot l, newPtr slot r, false, dummy⟩

/-- `initializeSCXRecord` -/
def Call.record (c : Call) (slot : ℕ → ℕ) : SCXRecord where
  type := c.type
  nodes := c.nodes
  scxRecordsSeen := c.seen
  newNode := newPtr slot c.new
  fieldIsLeft := c.fieldIsLeft
  state := stateInProgress
  allFrozen := false

/-- The caller initializes the new nodes, and `scx` the record; then `scx` calls `help`. -/
def State.scx (s : State n) (i : Fin n) (c : Call) : State n :=
  let t := s.thread i
  let r := t.allocatedSCXRecord
  let slot := t.allocatedNodes
  s.go ((s.mem.initNodes slot c.new).setRecord r (c.record slot))
    { s.hist.set r
        { time := s.hist.clock + 1
          front := 0
          swings := 0
          done := 0
          owner := i
          res := c.res
          inserted := (List.range c.type.numInserted).map slot } with
      clock := s.hist.clock + 1 }
    i (.help r false .state)

/-- The patch is what the LLXs have shown of the nodes that are to be removed. -/
def Shows (res : ℕ → LlxResult) : Patch ℕ ℕ → Prop
  | .sub _ => True
  | .leaf x => res x = .leaf
  | .node x l r => (∃ scx, res x = .inner scx (Pointers.top l) (Pointers.top r)) ∧ Shows res l ∧
      Shows res r

/-- One of the nodes has been frozen by someone else since its LLX. -/
def Stale (m : Mem) (c : Call) : Prop :=
  ∃ x ∈ c.nodes.take c.type.numToFreeze, ∃ scx l r, c.res x = .inner scx l r ∧ m.ptr x ≠ scx

/-- **What a caller has to respect.**  The nodes are distinct; for those that are frozen the LLX
results are results of this thread's LLXs, the others are leaves.  By these results, `nodes[1]` is
the child of `nodes[0]` that the field holds, and the remaining nodes are the nodes of a patch below
it.  The new nodes are built in the slots that `NUM_INSERTED` counts, above the exits of that patch.
The exits are loaded after the LLXs, so they may be others if a node has changed since. -/
structure Proper (s : State n) (i : Fin n) (c : Call) : Prop where
  nodup : c.nodes.Nodup
  length_eq : c.nodes.length = c.type.numOfNodes
  llx : ∀ x ∈ c.nodes.take c.type.numToFreeze, (x, c.res x) ∈ (s.thread i).llxResults
  leaf : ∀ x ∈ c.nodes.drop c.type.numToFreeze, c.res x = .leaf ∧ 0 < x ∧ (s.mem.node x).left = 0
  slots_lt : ∀ k ∈ c.new.labels, k < numSlots
  slots_nodup : c.new.labels.Nodup
  patch : ∃ u old scx l r, c.nodes.head? = some u ∧ c.res u = .inner scx l r ∧
    Pointers.top old = (if c.fieldIsLeft then l else r) ∧
    c.nodes.tail.head? = some (Pointers.top old) ∧ c.nodes.tail.Perm old.labels ∧
    Shows c.res old ∧
    ((c.new.subs = old.subs ∧ c.new.labels.Perm (List.range c.type.numInserted)) ∨
      Stale s.mem c)

/-- One step of the machine.  A thread that is outside may call `llx` for a node that has been in
the tree, or `scx` with proper arguments; a thread inside makes its next access, where the CAS of
`tryRetireSCXRecord` may fail for no reason. -/
inductive Step (s : State n) : State n → Prop
  | llx (i : Fin n) (x : ℕ) (hpc : (s.thread i).pc = .idle) (hx : x ∈ s.hist.linked) :
      Step s (s.go s.mem s.hist i (.llx x .scx1))
  | scx (i : Fin n) (c : Call) (hpc : (s.thread i).pc = .idle) (hc : Proper s i c) :
      Step s (s.scx i c)
  | exec (i : Fin n) (hpc : (s.thread i).pc ≠ .idle) : Step s (s.exec i)
  | weak (i : Fin n) (r : ℕ) (state : Word) (j otherSCX k : ℕ) (stateOld : Word)
      (hpc : (s.thread i).pc = .tryRetire r state j (.cas otherSCX k stateOld)) :
      Step s (s.go s.mem s.hist i (.tryRetire r state j (.load otherSCX k)))

/-- The memory after the constructor and `initThread` of all threads: the root, with one leaf. -/
def Mem.init (n : ℕ) : Mem where
  node := fun x => if x = root then ⟨2, 0, false, dummy⟩ else ⟨0, 0, false, dummy⟩
  record := fun _ => ⟨.ins, [], [], 0, false, stateAborted, false⟩
  next := 3 + numSlots * n
  nextRecord := n + 1
  retired := []
  retiredNodes := []

/-- The initial state. -/
def State.init (n : ℕ) : State n where
  mem := Mem.init n
  hist := ⟨fun _ => ⟨0, 0, 0, 0, 0, fun _ => .leaf, []⟩, [root, 2], 0⟩
  thread := fun i => ⟨i + 1, fun k => 3 + numSlots * i + k, [], .idle⟩

/-- The reachable states. -/
def Reachable (s : State n) : Prop := Relation.ReflTransGen Step (State.init n) s

/-- **The rule of invariants.** -/
theorem Reachable.induct {P : State n → Prop} {s : State n} (hs : Reachable s)
    (h0 : P (State.init n)) (hstep : ∀ s s', Reachable s → P s → Step s s' → P s') : P s := by
  induction hs with
  | refl => exact h0
  | tail hr hst ih => exact hstep _ _ hr ih hst

end Scx

end Cbat
