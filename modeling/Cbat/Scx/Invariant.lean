/-
**What a thread knows inside of LLX, SCX and the reclamation.**

A thread that is in the middle of a function has loaded some values, and other threads go on in the
meantime.  For each program counter this module says what still holds of the values, and that no
step of another thread changes it.

Main definitions:

* `Cbat.Scx.SeenOk`, `Cbat.Scx.Settled`, `Cbat.Scx.ResOk` — what an LLX knows, and what its result
  is worth later;
* `Cbat.Scx.HelpOk`, `Cbat.Scx.Outcome` — what a helper knows, and what `help` has returned;
* `Cbat.Scx.Reclaims`, `Cbat.Scx.RetireOk` — the same for the reclamation;
* `Cbat.Scx.PcOk` — **the invariant of one thread**;
* `Cbat.Scx.ThreadsOk` — whom the preallocated records and nodes belong to;
* `Cbat.Scx.Inv` — **the invariant**;
* `Cbat.Scx.Keeps`, `Cbat.Scx.Change`, `Cbat.Scx.Kept` — what all steps have in common.

Main results:

* `Cbat.Scx.ResOk.keeps`, `Cbat.Scx.PcOk.keeps` — **no step of another thread changes what a
  thread knows**.
-/

import Cbat.Scx.Tree

set_option relaxedAutoImplicit false
set_option autoImplicit false

namespace Cbat.Scx

variable {m m' : Mem} {h h' : History} {r x s : ℕ}

/-! ### LLX -/

/-- The record has been the record of the node. -/
structure SeenOk (m : Mem) (h : History) (x s : ℕ) : Prop where
  published : s = dummy ∨ ∃ i s', Frz m s i x s' ∧ i < (h.of s).front
  behind : (view m h).Behind x s

/-- Moreover it is finished, and it has not removed the node. -/
structure Settled (m : Mem) (h : History) (x s : ℕ) : Prop extends SeenOk m h x s where
  finished : m.state s ≠ stateInProgress
  kept : m.state s = stateCommitted → ∀ i s', Frz m s i x s' → i = 0

/-- A node that has been the child of another one. -/
def WasChild (h : History) (c : ℕ) : Prop := c ∈ h.linked ∧ c ≠ root

/-- What an LLX has shown: **as long as the node has the same record it has the same children**. -/
structure Shown (m : Mem) (h : History) (x s l r : ℕ) : Prop extends Settled m h x s where
  inner : (m.node x).left ≠ 0
  left_ne : l ≠ 0
  left : WasChild h l
  right_ne : x ≠ root → r ≠ 0
  right : r ≠ 0 → WasChild h r
  same : m.ptr x = s → (m.node x).left = l ∧ (m.node x).right = r

/-- The result of an LLX is worth something. -/
def ResOk (m : Mem) (h : History) (x : ℕ) : LlxResult → Prop
  | .leaf => x ∈ h.linked ∧ (m.node x).left = 0
  | .inner s l r => x ∈ h.linked ∧ Shown m h x s l r

/-- What `llx(x)` knows. -/
def LlxOk (m : Mem) (h : History) (x : ℕ) : LlxAt → Prop
  | .scx1 => True
  | .state s => SeenOk m h x s
  | .marked s w => SeenOk m h x s ∧ (w ≠ stateInProgress → status (m.state s) = status w)
  | .left s => Settled m h x s
  | .right s l => Settled m h x s ∧ ((m.node x).left = 0 ↔ l = 0) ∧ (l ≠ 0 → WasChild h l) ∧
      (m.ptr x = s → (m.node x).left = l)
  | .scx2 s l r => Shown m h x s l r
  | .scx3 => True

/-! ### Help -/

/-- Nobody but its owner knows the record. -/
def Fresh (m : Mem) (h : History) (r : ℕ) : Prop :=
  m.state r = stateInProgress ∧ (h.of r).front = 0

/-- The flags of the nodes before `i` are set. -/
def FlagsOk (m : Mem) (r i : ℕ) (flags : Word) : Prop :=
  ∀ j x s, Frz m r j x s → j < i → flags.getLsbD j = true

/-- The record has missed its node number `i`, which it needs next. -/
def Missed (m : Mem) (h : History) (r i : ℕ) : Prop := (view m h).Lost r i ∧ (h.of r).front ≤ i

/-- The nodes with numbers from `1` to `i - 1` are marked. -/
def MarkedTo (m : Mem) (r i : ℕ) : Prop :=
  ∀ j x s, Frz m r j x s → j ≠ 0 → j < i → (m.node x).marked = true

/-- What `help(r)` knows. -/
def HelpOk (m : Mem) (h : History) (r : ℕ) : HelpAt → Prop
  | .state => True
  | .freeze i flags => (i = 0 → Fresh m h r) ∧ i ≤ (h.of r).front ∧ FlagsOk m r i flags
  | .check i flags => (i = 0 → Fresh m h r) ∧ i ≤ (h.of r).front ∧ FlagsOk m r i flags ∧
      (∃ x s, Frz m r i x s) ∧ (Missed m h r i ∨ m.state r ≠ stateInProgress)
  | .abort i flags => 0 < i ∧ i ≤ (h.of r).front ∧ FlagsOk m r i flags ∧
      (Missed m h r i ∨ (m.state r).Aborted)
  | .allFrozen => (h.of r).front = m.nFreeze r ∧ 0 < (h.of r).front
  | .mark i => (m.record r).allFrozen = true ∧ 0 < i ∧ MarkedTo m r i
  | .update => (m.record r).allFrozen = true ∧ MarkedTo m r (m.nFreeze r)
  | .commit => 0 < (h.of r).swings

/-- What `help(r)` has returned to the owner: the state of the record, or that the first freezing
CAS has failed. -/
def Outcome (m : Mem) (h : History) (r : ℕ) (w : Word) : Prop :=
  (w ≠ stateInProgress ∧ status (m.state r) = status w ∧ 0 < (h.of r).front) ∨
    (w = abortStateInit 0 0 ∧ (h.of r).front = 0 ∧ (view m h).Doomed r)

/-! ### Reclamation -/

/-- The thread `i` gives back what its SCX with the record `r` has replaced. -/
structure Reclaims (m : Mem) (h : History) (i r : ℕ) (w : Word) (j : ℕ) : Prop where
  owner : (h.of r).owner = i
  ne_inProgress : w ≠ stateInProgress
  state : status (m.state r) = status w
  le : j ≤ (h.of r).front
  begun : 0 < (h.of r).front

/-- The record `r` has replaced the record `o` at its node number `j`. -/
def Replaced (m : Mem) (h : History) (r j o : ℕ) : Prop :=
  o ≠ dummy ∧ j < (h.of r).front ∧ Frz m r j (m.nodeAt r j) o

/-- What the loop over `scxRecordsSeen` knows. -/
def RetireOk (m : Mem) (h : History) (r j : ℕ) : RetireAt → Prop
  | .loop => (h.of r).done = j
  | .state o => (h.of r).done = j ∧ Replaced m h r j o
  | .load o k => (h.of r).done = j ∧ Replaced m h r j o ∧ (m.state o).Aborted ∧
      ∃ s, Frz m o k (m.nodeAt r j) s
  | .cas o k _ => (h.of r).done = j ∧ Replaced m h r j o ∧ (m.state o).Aborted ∧
      ∃ s, Frz m o k (m.nodeAt r j) s
  | .retire o => (h.of r).done = j + 1 ∧ Replaced m h r j o

/-! ### Threads -/

/-- The record is the one that the thread has allocated, and the thread has written it. -/
structure Owned (h : History) (i allocated r : ℕ) : Prop where
  record : r = allocated
  owner : (h.of r).owner = i
  done : (h.of r).done = 0

/-- **The invariant of one thread.** -/
def PcOk (m : Mem) (h : History) (i : ℕ) (t : Thread) : Prop :=
  match t.pc with
  | .idle => True
  | .llx x at_ => x ∈ h.linked ∧ LlxOk m h x at_
  | .help r true at_ => (r = dummy ∧ at_ = .state ∨ 0 < (h.of r).front) ∧ HelpOk m h r at_
  | .help r false at_ => Owned h i t.allocatedSCXRecord r ∧
      (at_ = .state → Fresh m h r) ∧ HelpOk m h r at_
  | .reclaim r w => Owned h i t.allocatedSCXRecord r ∧ Outcome m h r w
  | .tryRetire r w j at_ => Reclaims m h i r w j ∧ RetireOk m h r j at_
  | .retireNodes _ _ => True

/-- The thread is in its own SCX. -/
def Pc.Own (pc : Pc) (r : ℕ) : Prop :=
  (∃ at_, pc = .help r false at_) ∨ ∃ w, pc = .reclaim r w

variable {n : ℕ}

/-- **Whom the preallocated records and nodes belong to.** -/
structure ThreadsOk (st : State n) : Prop where
  record_inj : ∀ i k, (st.thread i).allocatedSCXRecord = (st.thread k).allocatedSCXRecord → i = k
  record_ne : ∀ i, (st.thread i).allocatedSCXRecord ≠ dummy
  record_lt : ∀ i, (st.thread i).allocatedSCXRecord < st.mem.nextRecord
  unused : ∀ r, st.mem.nextRecord ≤ r → (st.hist.of r).front = 0
  unpublished : ∀ i, (st.hist.of (st.thread i).allocatedSCXRecord).front = 0 ∨
    (st.thread i).pc.Own (st.thread i).allocatedSCXRecord
  slot_pos : ∀ i, ∀ k < numSlots, 0 < (st.thread i).allocatedNodes k ∧
    (st.thread i).allocatedNodes k < st.mem.next
  slot_inj : ∀ i k, ∀ a < numSlots, ∀ b < numSlots,
    (st.thread i).allocatedNodes a = (st.thread k).allocatedNodes b → i = k ∧ a = b
  slot_linked : ∀ i, ∀ k < numSlots, (st.thread i).allocatedNodes k ∈ st.hist.linked →
    (st.thread i).pc.Own (st.thread i).allocatedSCXRecord ∧
      0 < (st.hist.of (st.thread i).allocatedSCXRecord).swings ∧
      k < (st.mem.record (st.thread i).allocatedSCXRecord).type.numInserted
  working : ∀ r, st.mem.state r = stateInProgress → (st.hist.of r).swings = 0 →
    ¬ (view st.mem st.hist).Doomed r → ∃ i at_, (st.thread i).allocatedSCXRecord = r ∧
      (st.thread i).pc = .help r false at_ ∧
      (st.hist.of r).inserted =
        (List.range (st.mem.record r).type.numInserted).map (st.thread i).allocatedNodes

/-- The state words that occur. -/
def WordOk (w : Word) : Prop := w = stateInProgress ∨ w = stateCommitted ∨ w.getLsbD 1 = true

/-- **The invariant.** -/
structure Inv (st : State n) : Prop where
  ok : (view st.mem st.hist).Ok dummy
  word : ∀ r, WordOk (st.mem.state r)
  time_le : ∀ r, (st.hist.of r).time ≤ st.hist.clock
  tree : TreeOk st.mem st.hist
  threads : ThreadsOk st
  pc : ∀ i : Fin n, PcOk st.mem st.hist i (st.thread i)
  res : ∀ i, ∀ p ∈ (st.thread i).llxResults, ResOk st.mem st.hist p.1 p.2

/-! ### Stability -/

/-- **What all steps have in common**: they are moves of the freezing protocol, and the children of
a node change only while a record in progress has it. -/
structure Keeps (m : Mem) (h : History) (a : Freezing.Act ℕ) (m' : Mem) (h' : History) : Prop where
  ok : (view m h).Ok dummy
  move : (view m h).Move dummy a (view m' h')
  linked : ∀ x ∈ h.linked, x ∈ h'.linked
  leaf : ∀ x ∈ h.linked, (m'.node x).left = 0 ↔ (m.node x).left = 0
  kids : ∀ x ∈ h.linked, m.state (m.ptr x) ≠ stateInProgress →
    (m'.node x).left = (m.node x).left ∧ (m'.node x).right = (m.node x).right
  type : ∀ r, a ≠ .write r → (m'.record r).type = (m.record r).type
  nodes : ∀ r, a ≠ .write r → (m'.record r).nodes = (m.record r).nodes
  owner : ∀ r, a ≠ .write r → (h'.of r).owner = (h.of r).owner
  inserted : ∀ r, a ≠ .write r → (h'.of r).inserted = (h.of r).inserted
  res : ∀ r, a ≠ .write r → (h'.of r).res = (h.of r).res

/-- The update CAS of the record is due: its nodes are frozen and marked, and it has not been
made. -/
structure Due (m : Mem) (h : History) (r : ℕ) : Prop where
  allFrozen : (m.record r).allFrozen = true
  marked : MarkedTo m r (m.nFreeze r)
  swings : (h.of r).swings = 0

/-- **How a step changes the tree**: not at all, or by an update CAS that is due. -/
def Change (m : Mem) (h : History) (m' : Mem) (h' : History) : Prop :=
  (h'.linked = h.linked ∧ ∀ x ∈ h.linked, ∀ d, m'.child x d = m.child x d) ∨
    ∃ r, Due m h r ∧ m' = m.swung r ∧ h' = h.swing r

/-- **What a step keeps.** -/
structure Kept (st st' : State n) : Prop where
  inv : Inv st'
  keeps : ∃ a, Keeps st.mem st.hist a st'.mem st'.hist ∧
    ∀ r, a = .write r → st.hist.clock < (st'.hist.of r).time
  clock : st.hist.clock ≤ st'.hist.clock
  change : Change st.mem st.hist st'.mem st'.hist

namespace Keeps

variable {a : Freezing.Act ℕ} (hk : Keeps m h a m' h')

include hk

theorem ne_write (hr : r = dummy ∨ 0 < (h.of r).front) : a ≠ .write r := by
  rintro rfl
  obtain ⟨hne, h0⟩ := hk.move.unpublished
  rcases hr with hr | hr
  · exact hne hr
  · exact Nat.ne_of_gt hr h0

theorem later (hr : a ≠ .write r) : Freezing.Later (view m h) (view m' h') r :=
  hk.ok.later hk.move hr

theorem frz (hr : a ≠ .write r) : Frz m' r = Frz m r := (hk.later hr).plan

theorem front_le (hr : a ≠ .write r) : (h.of r).front ≤ (h'.of r).front := (hk.later hr).front

theorem begun (hr : 0 < (h.of r).front) : 0 < (h'.of r).front :=
  hr.trans_le (hk.front_le (hk.ne_write (.inr hr)))

theorem nodeAt (hr : a ≠ .write r) (i : ℕ) : m'.nodeAt r i = m.nodeAt r i := by
  unfold Mem.nodeAt
  rw [hk.nodes r hr]

theorem status_eq (hr : a ≠ .write r) (hs : m.state r ≠ stateInProgress) :
    status (m'.state r) = status (m.state r) :=
  (hk.later hr).status (mt status_eq_inProgress_iff.mp hs)

theorem finished (hr : a ≠ .write r) (hs : m.state r ≠ stateInProgress) :
    m'.state r ≠ stateInProgress := by
  rw [← status_eq_inProgress_iff.ne, hk.status_eq hr hs]
  exact mt status_eq_inProgress_iff.mp hs

theorem inProgress (hr : a ≠ .write r) (hs : m'.state r = stateInProgress) :
    m.state r = stateInProgress := by
  by_contra hne
  exact hk.finished hr hne hs

theorem aborted (hr : a ≠ .write r) (hs : (m.state r).Aborted) : (m'.state r).Aborted := by
  have hne : m.state r ≠ stateInProgress := fun hc => not_aborted_inProgress (hc ▸ hs)
  have heq := hk.status_eq hr hne
  rw [status_of_aborted hs] at heq
  exact (aborted_of_status heq).1

theorem marked (hx : (m.node x).marked = true) : (m'.node x).marked = true := hk.move.marked hx

theorem allFrozen (hr : a ≠ .write r) (ha : (m.record r).allFrozen = true) :
    (m'.record r).allFrozen = true := (hk.later hr).allFrozen ha

theorem ok' : (view m' h').Ok dummy := hk.ok.move hk.move

theorem wasChild {c : ℕ} (hc : WasChild h c) : WasChild h' c := ⟨hk.linked c hc.1, hc.2⟩

end Keeps

section Stability

variable {a : Freezing.Act ℕ}

theorem SeenOk.ne_write (hs : SeenOk m h x s) (hk : Keeps m h a m' h') : a ≠ .write s := by
  refine hk.ne_write (hs.published.imp_right ?_)
  rintro ⟨i, -, -, hi⟩
  exact Nat.zero_lt_of_lt hi

theorem SeenOk.keeps (hs : SeenOk m h x s) (hk : Keeps m h a m' h') : SeenOk m' h' x s := by
  have hw := hs.ne_write hk
  refine ⟨hs.published.imp_right ?_, hk.ok.behind_later hk.move hw hs.behind⟩
  rintro ⟨i, s', hi, hlt⟩
  exact ⟨i, s', hk.frz hw ▸ hi, hlt.trans_le (hk.front_le hw)⟩

theorem Settled.keeps (hs : Settled m h x s) (hk : Keeps m h a m' h') : Settled m' h' x s := by
  have hw := hs.toSeenOk.ne_write hk
  refine ⟨hs.toSeenOk.keeps hk, hk.finished hw hs.finished, ?_⟩
  intro hc i s' hi
  rw [← status_eq_committed_iff, hk.status_eq hw hs.finished, status_eq_committed_iff] at hc
  exact hs.kept hc i s' (hk.frz hw ▸ hi)

/-- A node with a finished record has the children that it had, as long as it has the record. -/
theorem Settled.kids (hs : Settled m h x s) (hk : Keeps m h a m' h') (hx : x ∈ h.linked)
    (hp : m'.ptr x = s) : m.ptr x = s ∧ (m'.node x).left = (m.node x).left ∧
      (m'.node x).right = (m.node x).right := by
  have hp' : m.ptr x = s := hk.ok.ptr_later hk.move hs.behind hp
  exact ⟨hp', hk.kids x hx (hp' ▸ hs.finished)⟩

theorem Shown.keeps {l r : ℕ} (hs : Shown m h x s l r) (hk : Keeps m h a m' h')
    (hx : x ∈ h.linked) : Shown m' h' x s l r where
  toSettled := hs.toSettled.keeps hk
  inner := mt (hk.leaf x hx).mp hs.inner
  left_ne := hs.left_ne
  left := hk.wasChild hs.left
  right_ne := hs.right_ne
  right := fun h0 => hk.wasChild (hs.right h0)
  same := by
    intro hp
    obtain ⟨hp', hl, hr⟩ := hs.toSettled.kids hk hx hp
    rw [hl, hr]
    exact hs.same hp'

/-- **The result of an LLX stays worth what it is.** -/
theorem ResOk.keeps {res : LlxResult} (hs : ResOk m h x res) (hk : Keeps m h a m' h') :
    ResOk m' h' x res := by
  cases res with
  | leaf => exact ⟨hk.linked x hs.1, (hk.leaf x hs.1).mpr hs.2⟩
  | inner s l r => exact ⟨hk.linked x hs.1, hs.2.keeps hk hs.1⟩

theorem LlxOk.keeps {at_ : LlxAt} (hs : LlxOk m h x at_) (hk : Keeps m h a m' h')
    (hx : x ∈ h.linked) : LlxOk m' h' x at_ := by
  cases at_ with
  | scx1 => trivial
  | state s => exact SeenOk.keeps hs hk
  | marked s w =>
      obtain ⟨hs, hw⟩ := hs
      refine ⟨hs.keeps hk, fun hne => ?_⟩
      have hst := hw hne
      exact (hk.status_eq (hs.ne_write hk) (ne_inProgress_of_status hst hne)).trans hst
  | left s => exact Settled.keeps hs hk
  | right s l =>
      obtain ⟨hs, hl, hc, hp⟩ := hs
      refine ⟨hs.keeps hk, (hk.leaf x hx).trans hl, fun h0 => hk.wasChild (hc h0), fun hp' => ?_⟩
      obtain ⟨hp'', hl', -⟩ := hs.kids hk hx hp'
      exact hl'.trans (hp hp'')
  | scx2 s l r => exact Shown.keeps hs hk hx
  | scx3 => trivial

theorem Fresh.keeps (hf : Fresh m h r) (hk : Keeps m h a m' h') (hw : a ≠ .write r)
    (hh : (h.of r).front = 0 → a ≠ .help r) : Fresh m' h' r := by
  obtain ⟨hfront, hst, -, -⟩ := hk.move.unhelped (hh hf.2) hw
  refine ⟨status_eq_inProgress_iff.mp (hst.trans (status_eq_inProgress_iff.mpr hf.1)), ?_⟩
  exact hfront.trans hf.2

theorem FlagsOk.keeps {i : ℕ} {flags : Word} (hf : FlagsOk m r i flags) (hk : Keeps m h a m' h')
    (hw : a ≠ .write r) : FlagsOk m' r i flags :=
  fun j x s hj => hf j x s (hk.frz hw ▸ hj)

theorem Missed.keeps {i : ℕ} (hf : Missed m h r i) (hk : Keeps m h a m' h') (hw : a ≠ .write r) :
    Missed m' h' r i := hk.ok.lost_later hk.move hw hf.1 hf.2

theorem MarkedTo.keeps {i : ℕ} (hf : MarkedTo m r i) (hk : Keeps m h a m' h') (hw : a ≠ .write r) :
    MarkedTo m' r i :=
  fun j x s hj h0 hi => hk.marked (hf j x s (hk.frz hw ▸ hj) h0 hi)

theorem HelpOk.keeps {at_ : HelpAt} (hf : HelpOk m h r at_) (hk : Keeps m h a m' h')
    (hw : a ≠ .write r) (hh : (h.of r).front = 0 → a ≠ .help r) : HelpOk m' h' r at_ := by
  have hle := hk.front_le hw
  cases at_ with
  | state => trivial
  | freeze i flags =>
      obtain ⟨h0, hi, hfl⟩ := hf
      exact ⟨fun hi0 => (h0 hi0).keeps hk hw hh, hi.trans hle, hfl.keeps hk hw⟩
  | check i flags =>
      obtain ⟨h0, hi, hfl, hx, hm⟩ := hf
      exact ⟨fun hi0 => (h0 hi0).keeps hk hw hh, hi.trans hle, hfl.keeps hk hw, hk.frz hw ▸ hx,
        hm.imp (·.keeps hk hw) (hk.finished hw)⟩
  | abort i flags =>
      obtain ⟨h0, hi, hfl, hm⟩ := hf
      exact ⟨h0, hi.trans hle, hfl.keeps hk hw, hm.imp (·.keeps hk hw) (hk.aborted hw)⟩
  | allFrozen =>
      obtain ⟨hfront, h0⟩ := hf
      have hsize : m'.nFreeze r = m.nFreeze r := (hk.later hw).size
      have hle' : (h'.of r).front ≤ m'.nFreeze r := hk.ok'.front_le r
      exact ⟨by omega, by omega⟩
  | mark i => exact ⟨hk.allFrozen hw hf.1, hf.2.1, hf.2.2.keeps hk hw⟩
  | update =>
      have hsize : m'.nFreeze r = m.nFreeze r := (hk.later hw).size
      exact ⟨hk.allFrozen hw hf.1, hsize ▸ hf.2.keeps hk hw⟩
  | commit => exact (hk.later hw).swung hf

theorem Outcome.keeps {w : Word} (hf : Outcome m h r w) (hk : Keeps m h a m' h')
    (hw : a ≠ .write r) (hh : (h.of r).front = 0 → a ≠ .help r) : Outcome m' h' r w := by
  rcases hf with ⟨hne, hst, h0⟩ | ⟨hw0, h0, hd⟩
  · exact .inl ⟨hne, (hk.status_eq hw (ne_inProgress_of_status hst hne)).trans hst, hk.begun h0⟩
  · exact .inr ⟨hw0, (hk.move.unhelped (hh h0) hw).1.trans h0, hk.ok.doomed_later hk.move hw hd⟩

theorem Reclaims.keeps {i j : ℕ} {w : Word} (hf : Reclaims m h i r w j) (hk : Keeps m h a m' h') :
    Reclaims m' h' i r w j := by
  have hw := hk.ne_write (.inr hf.begun)
  exact ⟨(hk.owner r hw).trans hf.owner, hf.ne_inProgress,
    (hk.status_eq hw (ne_inProgress_of_status hf.state hf.ne_inProgress)).trans hf.state,
    hf.le.trans (hk.front_le hw), hk.begun hf.begun⟩

theorem Replaced.keeps {j o : ℕ} (hf : Replaced m h r j o) (hk : Keeps m h a m' h') :
    Replaced m' h' r j o := by
  obtain ⟨ho, hj, hp⟩ := hf
  have hw := hk.ne_write (.inr (Nat.zero_lt_of_lt hj))
  rw [← hk.frz hw, ← hk.nodeAt hw] at hp
  exact ⟨ho, hj.trans_le (hk.front_le hw), hp⟩

/-- A record that was replaced has been in the tree. -/
theorem Replaced.ne_write {j o : ℕ} (hf : Replaced m h r j o) (hk : Keeps m h a m' h') :
    a ≠ .write o := by
  refine hk.ne_write ((hk.ok.seen_published hf.2.2).imp_right ?_)
  rintro ⟨i, s', -, hi⟩
  exact Nat.zero_lt_of_lt hi

theorem RetireOk.keeps {j : ℕ} {at_ : RetireAt} (hf : RetireOk m h r j at_)
    (hk : Keeps m h a m' h') (hr : 0 < (h.of r).front) (ha : a ≠ .account r) :
    RetireOk m' h' r j at_ := by
  have hw := hk.ne_write (.inr hr)
  have hd : (h'.of r).done = (h.of r).done := hk.move.done_eq ha hw
  have indexed {o k : ℕ} (ho : Replaced m h r j o) (hs : ∃ s, Frz m o k (m.nodeAt r j) s) :
      ∃ s, Frz m' o k (m'.nodeAt r j) s := by
    rwa [hk.frz (ho.ne_write hk), hk.nodeAt hw]
  cases at_ with
  | loop => exact hd.trans hf
  | state o => exact ⟨hd.trans hf.1, hf.2.keeps hk⟩
  | load o k =>
      obtain ⟨hj, ho, hst, hs⟩ := hf
      exact ⟨hd.trans hj, ho.keeps hk, hk.aborted (ho.ne_write hk) hst, indexed ho hs⟩
  | cas o k w =>
      obtain ⟨hj, ho, hst, hs⟩ := hf
      exact ⟨hd.trans hj, ho.keeps hk, hk.aborted (ho.ne_write hk) hst, indexed ho hs⟩
  | retire o => exact ⟨hd.trans hf.1, hf.2.keeps hk⟩

/-- The act is not about what belongs to a thread: it does not write the thread's record, helps it
only after it has been published, and does not give back what it has replaced. -/
structure Foreign (h : History) (a : Freezing.Act ℕ) (i : ℕ) (t : Thread) : Prop where
  write : a ≠ .write t.allocatedSCXRecord
  help : (h.of t.allocatedSCXRecord).front = 0 → a ≠ .help t.allocatedSCXRecord
  account : ∀ r, (h.of r).owner = i → a ≠ .account r

theorem Owned.keeps {i b : ℕ} (ho : Owned h i b r) (hk : Keeps m h a m' h')
    (hw : a ≠ .write r) (ha : a ≠ .account r) : Owned h' i b r :=
  ⟨ho.record, (hk.owner r hw).trans ho.owner, (hk.move.done_eq ha hw).trans ho.done⟩

/-- **No step of another thread changes what a thread knows.** -/
theorem PcOk.keeps {i : ℕ} {t : Thread} (hf : PcOk m h i t) (hk : Keeps m h a m' h')
    (ha : Foreign h a i t) : PcOk m' h' i t := by
  unfold PcOk at hf ⊢
  cases hpc : t.pc with
  | idle => trivial
  | llx x at_ =>
      rw [hpc] at hf
      exact ⟨hk.linked x hf.1, hf.2.keeps hk hf.1⟩
  | help r other at_ =>
      rw [hpc] at hf
      cases other with
      | true =>
          obtain ⟨hr | hr, hf⟩ := hf
          · obtain ⟨hr, rfl⟩ := hr
            exact ⟨.inl ⟨hr, rfl⟩, trivial⟩
          · exact ⟨.inr (hk.begun hr), hf.keeps hk (hk.ne_write (.inr hr))
              fun h0 => absurd h0 (Nat.ne_of_gt hr)⟩
      | false =>
          obtain ⟨ho, h0, hf⟩ := hf
          have hw := ha.write
          have hh := ha.help
          rw [← ho.record] at hw hh
          exact ⟨ho.keeps hk hw (ha.account r ho.owner), fun hs => (h0 hs).keeps hk hw hh,
            hf.keeps hk hw hh⟩
  | reclaim r w =>
      rw [hpc] at hf
      obtain ⟨ho, hf⟩ := hf
      have hw := ha.write
      have hh := ha.help
      rw [← ho.record] at hw hh
      exact ⟨ho.keeps hk hw (ha.account r ho.owner), hf.keeps hk hw hh⟩
  | tryRetire r w j at_ =>
      rw [hpc] at hf
      exact ⟨hf.1.keeps hk, hf.2.keeps hk hf.1.begun (ha.account r hf.1.owner)⟩
  | retireNodes r j => trivial

end Stability

/-! ### One step of a thread -/

section Set

variable {st : State n} {i : Fin n} {a : Freezing.Act ℕ} {t' : Thread}

theorem State.set_cases (k : Fin n) (P : Thread → Prop) (hP : k = i → P t')
    (hk : k ≠ i → P (st.thread k)) : P ((st.set m' h' i t').thread k) := by
  by_cases hki : k = i
  · subst hki; simpa [State.set] using hP rfl
  · simpa [State.set, hki] using hk hki

/-- What a step of the thread `i` has to take care of. -/
theorem Inv.set (hI : Inv st) (hk : Keeps st.mem st.hist a m' h')
    (hforeign : ∀ k, k ≠ i → Foreign st.hist a k (st.thread k))
    (hchange : Change st.mem st.hist m' h')
    (hwrite : ∀ r, a = .write r → st.hist.clock < (h'.of r).time)
    (hclock : st.hist.clock ≤ h'.clock)
    (hword : ∀ r, WordOk (m'.state r)) (htime : ∀ r, (h'.of r).time ≤ h'.clock)
    (htree : TreeOk m' h') (hthreads : ThreadsOk (st.set m' h' i t')) (hpc : PcOk m' h' i t')
    (hres : ∀ p ∈ t'.llxResults, ResOk m' h' p.1 p.2) : Kept st (st.set m' h' i t') where
  inv :=
    { ok := hk.ok'
      word := hword
      time_le := htime
      tree := htree
      threads := hthreads
      pc := fun k => State.set_cases k (PcOk m' h' k) (fun hki => hki ▸ hpc)
        fun hne => (hI.pc k).keeps hk (hforeign k hne)
      res := fun k => State.set_cases k (fun t => ∀ p ∈ t.llxResults, ResOk m' h' p.1 p.2)
        (fun _ => hres) fun _ p hp => (hI.res k p hp).keeps hk }
  keeps := ⟨a, hk, hwrite⟩
  clock := hclock
  change := hchange

end Set

/-- **A step of the thread `i`**, which keeps its preallocated objects: the memory and the history
become `m'` and `h'`, and the thread becomes `t'`. -/
structure Acts (st : State n) (i : Fin n) (a : Freezing.Act ℕ) (m' : Mem) (h' : History)
    (t' : Thread) : Prop where
  keeps : Keeps st.mem st.hist a m' h'
  change : Change st.mem st.hist m' h'
  no_write : ∀ r, a ≠ .write r
  help : ∀ r, a = .help r → 0 < (st.hist.of r).front ∨
    (r = (st.thread i).allocatedSCXRecord ∧ (st.thread i).pc.Own r)
  account : ∀ r, a = .account r → (st.hist.of r).owner = i
  word : ∀ r, WordOk (m'.state r)
  clock : h'.clock = st.hist.clock
  next : m'.next = st.mem.next
  nextRecord : m'.nextRecord = st.mem.nextRecord
  tree : TreeOk m' h'
  record_eq : t'.allocatedSCXRecord = (st.thread i).allocatedSCXRecord
  slots_eq : t'.allocatedNodes = (st.thread i).allocatedNodes
  own : (st.thread i).pc.Own t'.allocatedSCXRecord → t'.pc.Own t'.allocatedSCXRecord
  linked : ∀ x ∈ h'.linked, x ∈ st.hist.linked ∨ ∃ k r at_,
    (st.thread k).allocatedSCXRecord = r ∧ (st.thread k).pc = .help r false at_ ∧
    0 < (h'.of r).swings ∧
    x ∈ (List.range (st.mem.record r).type.numInserted).map (st.thread k).allocatedNodes
  pc : PcOk m' h' i t'
  res : ∀ p ∈ t'.llxResults, ResOk m' h' p.1 p.2

namespace Acts

variable {st : State n} {i : Fin n} {a : Freezing.Act ℕ} {t' : Thread}
  (hI : Inv st) (ha : Acts st i a m' h' t')

include ha

theorem record_thread (k : Fin n) : ((st.set m' h' i t').thread k).allocatedSCXRecord =
    (st.thread k).allocatedSCXRecord := by
  by_cases hk : k = i
  · subst hk; simp [State.set, ha.record_eq]
  · simp [State.set, hk]

theorem slots_thread (k : Fin n) : ((st.set m' h' i t').thread k).allocatedNodes =
    (st.thread k).allocatedNodes := by
  by_cases hk : k = i
  · subst hk; simp [State.set, ha.slots_eq]
  · simp [State.set, hk]

theorem own_thread (k : Fin n) (ho : (st.thread k).pc.Own (st.thread k).allocatedSCXRecord) :
    ((st.set m' h' i t').thread k).pc.Own (st.thread k).allocatedSCXRecord := by
  by_cases hk : k = i
  · subst hk
    simp only [State.set, Function.update_self]
    exact ha.record_eq ▸ ha.own (ha.record_eq ▸ ho)
  · simpa [State.set, hk] using ho

include hI

theorem foreign {k : Fin n} (hk : k ≠ i) : Foreign st.hist a k (st.thread k) where
  write := ha.no_write _
  help := by
    intro h0 hc
    rcases ha.help _ hc with hpos | ⟨heq, -⟩
    · omega
    · exact hk (hI.threads.record_inj k i heq)
  account := by
    intro r hr hc
    exact hk (Fin.ext (hr.symm.trans (ha.account r hc)))

theorem threads : ThreadsOk (st.set m' h' i t') := by
  have hT := hI.threads
  constructor
  · intro k l heq
    rw [ha.record_thread, ha.record_thread] at heq
    exact hT.record_inj k l heq
  · intro k
    rw [ha.record_thread]
    exact hT.record_ne k
  · intro k
    rw [ha.record_thread]
    exact (hT.record_lt k).trans_eq ha.nextRecord.symm
  · intro r hr
    have hr' : st.mem.nextRecord ≤ r := (Nat.le_of_eq ha.nextRecord.symm).trans hr
    have h0 := hT.unused r hr'
    refine (ha.keeps.move.unhelped ?_ (ha.no_write r)).1.trans h0
    intro hc
    rcases ha.help r hc with hpos | ⟨rfl, -⟩
    · omega
    · exact absurd (hT.record_lt i) (Nat.not_lt_of_le hr')
  · intro k
    rw [ha.record_thread]
    rcases hT.unpublished k with h0 | ho
    · by_cases hc : a = .help (st.thread k).allocatedSCXRecord
      · rcases ha.help _ hc with hpos | ⟨heq, ho⟩
        · omega
        · obtain rfl := hT.record_inj k i heq
          exact .inr (ha.own_thread k ho)
      · exact .inl ((ha.keeps.move.unhelped hc (ha.no_write _)).1.trans h0)
    · exact .inr (ha.own_thread k ho)
  · intro k j hj
    rw [ha.slots_thread]
    exact ⟨(hT.slot_pos k j hj).1, (hT.slot_pos k j hj).2.trans_eq ha.next.symm⟩
  · intro k l p hp q hq heq
    rw [ha.slots_thread, ha.slots_thread] at heq
    exact hT.slot_inj k l p hp q hq heq
  · intro k j hj hl
    rw [ha.slots_thread] at hl
    rw [ha.record_thread]
    rcases ha.linked _ hl with hl | ⟨l, r, at_, rfl, hpc, hs, hmem⟩
    · obtain ⟨ho, hs, hlt⟩ := hT.slot_linked k j hj hl
      exact ⟨ha.own_thread k ho, (ha.keeps.later (ha.no_write _)).swung hs,
        hlt.trans_eq (congrArg _ (ha.keeps.type _ (ha.no_write _)).symm)⟩
    · obtain ⟨p, hp, heq⟩ := List.mem_map.mp hmem
      have hp' := List.mem_range.mp hp
      have hps := hp'.trans_le (numInserted_le_numSlots _)
      obtain ⟨rfl, rfl⟩ := hT.slot_inj l k p hps j hj heq
      exact ⟨ha.own_thread l (.inl ⟨at_, hpc⟩), hs,
        hp'.trans_eq (congrArg _ (ha.keeps.type _ (ha.no_write _)).symm)⟩
  · intro r hr h0 hd
    have hw := ha.no_write r
    have hs0 : (st.hist.of r).swings = 0 := by
      by_contra hne
      exact Nat.ne_of_gt ((ha.keeps.later hw).swung (Nat.pos_of_ne_zero hne)) h0
    obtain ⟨k, at_, rfl, hpc, hins⟩ := hT.working r (ha.keeps.inProgress hw hr) hs0
      fun hc => hd (ha.keeps.ok.doomed_later ha.keeps.move hw hc)
    have hins' : (h'.of (st.thread k).allocatedSCXRecord).inserted =
        (List.range (m'.record (st.thread k).allocatedSCXRecord).type.numInserted).map
          (st.thread k).allocatedNodes := by
      rw [ha.keeps.inserted _ hw, ha.keeps.type _ hw, hins]
    suffices hsuff : ∃ at', ((st.set m' h' i t').thread k).pc =
        .help (st.thread k).allocatedSCXRecord false at' by
      obtain ⟨at', hat⟩ := hsuff
      exact ⟨k, at', ha.record_thread k, hat, by rw [ha.slots_thread]; exact hins'⟩
    rcases ha.own_thread k (.inl ⟨at_, hpc⟩) with hat | ⟨w, hw'⟩
    · exact hat
    · -- `help` has returned, so the record is finished or it has missed its first node
      have hki : k = i := by
        by_contra hne
        simp [State.set, hne, hpc] at hw'
      subst hki
      have hpc' := ha.pc
      simp only [State.set, Function.update_self] at hw'
      unfold PcOk at hpc'
      rw [hw'] at hpc'
      rcases hpc'.2 with ⟨hne, hst, -⟩ | ⟨-, -, hdoomed⟩
      · exact absurd hr (ne_inProgress_of_status hst hne)
      · exact absurd hdoomed hd

/-- **A step of a thread keeps the invariant.** -/
theorem kept : Kept st (st.set m' h' i t') := by
  refine hI.set ha.keeps (fun _ => ha.foreign hI) ha.change (fun r hr => absurd hr (ha.no_write r))
    (Nat.le_of_eq ha.clock.symm) ha.word ?_ ha.tree (ha.threads hI) ha.pc ha.res
  intro r
  have ht : (h'.of r).time = (st.hist.of r).time := (ha.keeps.later (ha.no_write r)).time
  exact (ht.trans_le (hI.time_le r)).trans_eq ha.clock.symm

end Acts

end Cbat.Scx
