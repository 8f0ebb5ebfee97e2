/-
**The memory as a state of the freezing protocol.**

The records and nodes of the memory, together with the history, are a state of the protocol of
`Freezing`; what the accesses of `help` and `tryRetireSCXRecord` write is one of its moves.  This
module has the correspondence, one equation for each kind of write.

Main definitions:

* `Cbat.Scx.Frz` — the record is to be installed at a node in place of another one;
* `Cbat.Scx.status` — what a state word says;
* `Cbat.Scx.view` — **the state of the protocol**.

Main results:

* `Cbat.Scx.view_advance`, `Cbat.Scx.view_setPtr`, `Cbat.Scx.view_setState`,
  `Cbat.Scx.view_setRecord` and the like — what the writes do to it.
-/

import Cbat.Freezing
import Cbat.Scx.Model

set_option relaxedAutoImplicit false
set_option autoImplicit false

namespace Cbat.Scx

/-- The record `r` is to be installed at its node number `j`, which is `x`, in place of `s`. -/
def Frz (m : Mem) (r j x s : ℕ) : Prop :=
  j < m.nFreeze r ∧ m.seenAt r j = some s ∧ m.nodeAt r j = x

/-- What a state word says. -/
def status (w : Word) : FreezeStatus :=
  if w = stateInProgress then .inProgress
  else if w = stateCommitted then .committed
  else .aborted (stateGetHighestIndexReached w)

/-- **The state of the freezing protocol.** -/
def view (m : Mem) (h : History) : Freezing ℕ ℕ where
  plan := Frz m
  size := m.nFreeze
  ptr := m.ptr
  marked := fun x => (m.node x).marked = true
  status := fun r => status (m.state r)
  allFrozen := fun r => (m.record r).allFrozen = true
  flag := fun r j => (m.state r).flag j = true
  front := fun r => (h.of r).front
  swung := fun r => 0 < (h.of r).swings
  done := fun r => (h.of r).done
  time := fun r => (h.of r).time

/-! ### State words -/

theorem status_eq_inProgress_iff {w : Word} : status w = .inProgress ↔ w = stateInProgress := by
  unfold status
  split_ifs with h h' <;> simp [h]

theorem status_eq_committed_iff {w : Word} : status w = .committed ↔ w = stateCommitted := by
  unfold status
  split_ifs with h h'
  · subst h; decide
  · simp [h']
  · simp [h']

theorem status_of_aborted {w : Word} (hw : w.Aborted) :
    status w = .aborted (stateGetHighestIndexReached w) := by
  rw [status, if_neg, if_neg]
  · rintro rfl; exact not_aborted_committed hw
  · rintro rfl; exact not_aborted_inProgress hw

theorem aborted_of_status {w : Word} {i : ℕ} (hw : status w = .aborted i) :
    w.Aborted ∧ stateGetHighestIndexReached w = i := by
  rcases w.cases with rfl | rfl | hw'
  · simp [status] at hw
  · rw [status_eq_committed_iff.mpr rfl] at hw
    exact nomatch hw
  · rw [status_of_aborted hw'] at hw
    exact ⟨hw', FreezeStatus.aborted.inj hw⟩

theorem ne_inProgress_of_status {w w' : Word} (h : status w = status w')
    (hw : w' ≠ stateInProgress) : w ≠ stateInProgress := by
  rw [← status_eq_inProgress_iff.ne, h]
  exact mt status_eq_inProgress_iff.mp hw

/-! ### Writes

A write changes some components of the state at one record or one node. -/

variable (m : Mem) (h : History)

theorem view_advance (r k : ℕ) : view m (h.advance r k) =
    { view m h with front := Function.update (view m h).front r (max ((view m h).front r) k) } := by
  unfold view History.advance History.set
  congr 1
  all_goals
    funext r'
    by_cases hr : r' = r
    · subst hr; simp
    · simp [hr]

theorem view_setPtr (x r : ℕ) : view (m.setPtr x r) h =
    { view m h with ptr := Function.update (view m h).ptr x r } := by
  unfold view Mem.setPtr Mem.setNode
  congr 1
  all_goals
    funext y
    by_cases hy : y = x
    · subst hy; simp [Mem.ptr]
    · simp [hy, Mem.ptr]

theorem view_setMarked (x : ℕ) : view (m.setMarked x) h =
    { view m h with marked := Function.update (view m h).marked x True } := by
  unfold view Mem.setMarked Mem.setNode
  congr 1
  all_goals
    funext y
    by_cases hy : y = x
    · subst hy; simp [Mem.ptr]
    · simp [hy, Mem.ptr]

theorem view_setChild (x : ℕ) (d : Bool) (c : ℕ) : view (m.setChild x d c) h = view m h := by
  unfold view Mem.setChild Mem.setNode
  congr 1
  all_goals
    funext y
    by_cases hy : y = x
    · subst hy
      cases d <;> simp [Mem.ptr]
    · simp [hy, Mem.ptr]

theorem frz_congr {m m' : Mem} {r : ℕ} (ht : (m'.record r).type = (m.record r).type)
    (hn : (m'.record r).nodes = (m.record r).nodes)
    (hs : (m'.record r).scxRecordsSeen = (m.record r).scxRecordsSeen) : Frz m' r = Frz m r := by
  unfold Frz Mem.nFreeze Mem.seenAt Mem.nodeAt
  rw [ht, hn, hs]

theorem record_setState (r : ℕ) (w : Word) (r' : ℕ) : (m.setState r w).record r' =
    { m.record r' with state := if r' = r then w else (m.record r').state } := by
  unfold Mem.setState Mem.setRecord
  by_cases hr : r' = r
  · subst hr; simp
  · simp [hr]

theorem record_setAllFrozen (r r' : ℕ) : (m.setAllFrozen r).record r' =
    { m.record r' with allFrozen := if r' = r then true else (m.record r').allFrozen } := by
  unfold Mem.setAllFrozen Mem.setRecord
  by_cases hr : r' = r
  · subst hr; simp
  · simp [hr]

theorem view_setState (r : ℕ) (w : Word) : view (m.setState r w) h =
    { view m h with
      status := Function.update (view m h).status r (status w)
      flag := Function.update (view m h).flag r fun j => w.flag j = true } := by
  unfold view
  congr 1
  all_goals
    funext r'
  · exact frz_congr (by rw [record_setState]) (by rw [record_setState]) (by rw [record_setState])
  all_goals
    by_cases hr : r' = r
    · subst hr; simp [Mem.nFreeze, Mem.state, record_setState]
    · simp [hr, Mem.nFreeze, Mem.state, record_setState]

theorem view_setAllFrozen (r : ℕ) : view (m.setAllFrozen r) h =
    { view m h with allFrozen := Function.update (view m h).allFrozen r True } := by
  unfold view
  congr 1
  all_goals
    funext r'
  · exact frz_congr (by rw [record_setAllFrozen]) (by rw [record_setAllFrozen])
      (by rw [record_setAllFrozen])
  all_goals
    by_cases hr : r' = r
    · subst hr; simp [Mem.nFreeze, Mem.state, record_setAllFrozen]
    · simp [hr, Mem.nFreeze, Mem.state, record_setAllFrozen]

theorem view_swing (r : ℕ) : view m (h.swing r) =
    { view m h with swung := Function.update (view m h).swung r True } := by
  unfold view History.swing History.set
  congr 1
  all_goals
    funext r'
    by_cases hr : r' = r
    · subst hr; simp
    · simp [hr]

theorem view_finish (r j : ℕ) : view m (h.finish r j) =
    { view m h with done := Function.update (view m h).done r j } := by
  unfold view History.finish History.set
  congr 1
  all_goals
    funext r'
    by_cases hr : r' = r
    · subst hr; simp
    · simp [hr]

/-- The parts of the memory that the protocol does not see. -/
theorem view_congr {m' : Mem} (hn : m'.node = m.node) (hr : m'.record = m.record) :
    view m' h = view m h := by
  unfold view Frz Mem.nFreeze Mem.seenAt Mem.nodeAt Mem.ptr Mem.state
  rw [hn, hr]

/-- Writing a record. -/
theorem view_setRecord (r : ℕ) (c : SCXRecord) (hc : RecordHistory) (clock : ℕ) :
    view (m.setRecord r c) { h.set r hc with clock := clock } =
      { view m h with
        plan := Function.update (view m h).plan r (Frz (m.setRecord r c) r)
        size := Function.update (view m h).size r c.type.numToFreeze
        status := Function.update (view m h).status r (status c.state)
        allFrozen := Function.update (view m h).allFrozen r (c.allFrozen = true)
        flag := Function.update (view m h).flag r fun j => c.state.flag j = true
        front := Function.update (view m h).front r hc.front
        swung := Function.update (view m h).swung r (0 < hc.swings)
        done := Function.update (view m h).done r hc.done
        time := Function.update (view m h).time r hc.time } := by
  unfold view Mem.setRecord History.set
  congr 1
  all_goals
    funext r'
    by_cases hr : r' = r
  · subst hr; simp
  · rw [Function.update_of_ne hr]
    exact frz_congr (by simp [hr]) (by simp [hr]) (by simp [hr])
  all_goals first
    | subst hr; simp [Mem.nFreeze, Mem.state]
    | simp [hr, Mem.nFreeze, Mem.state]

end Cbat.Scx
