/-
**LLX and SCX are atomic.**

An LLX that returns a result has seen the node, unmarked, with these children at one moment.  An SCX
that makes its change does so while all its nodes are as its LLXs have shown them.  Every record has
one outcome, on which all helpers agree.

Main definitions:

* `Cbat.Scx.helpResult` — what `help` returns in an access, if it returns;
* `Cbat.Scx.Reports` — what was returned is the outcome of the record;
* `Cbat.Scx.Snapshot` — what the result of an LLX says about the node.

Main results:

* `Cbat.Scx.record_outcome` — **the outcome of a record is final**: it is committed only while all
  its nodes are frozen for it, and the child pointer has been changed once if it is committed and
  not at all if it is aborted;
* `Cbat.Scx.help_outcomes_agree` — all calls of `help` for a record return the same outcome;
* `Cbat.Scx.llx_snapshot` — **an LLX that succeeds returns a snapshot**;
* `Cbat.Scx.marked_final` — a marked node never changes again, and no LLX of it succeeds;
* `Cbat.Scx.scx_atomic` — **nothing happens to the nodes of an SCX between its LLXs and its
  change**.
-/

import Cbat.Scx.Runs

set_option relaxedAutoImplicit false
set_option autoImplicit false

namespace Cbat.Scx

variable {n : ℕ} {st st' : State n} {i : Fin n} {r x s j : ℕ} {w : Word}

/-! ### The outcome of a record -/

/-- A record that has made its change has made it once. -/
theorem Inv.swings_eq (hI : Inv st) :
    (st.mem.state r = stateCommitted → (st.hist.of r).swings = 1) ∧
      ((st.mem.state r).Aborted → (st.hist.of r).swings = 0) := by
  constructor
  · intro hc
    have hpos : 0 < (st.hist.of r).swings := hI.ok.committed (status_eq_committed_iff.mpr hc)
    have hle := hI.tree.swings_le r
    omega
  · intro ha
    by_contra hne
    have hf := hI.ok.swung_frozen (r := r) (Nat.pos_of_ne_zero hne)
    exact hI.ok.not_aborted hf (status_of_aborted ha)

/-- A record in progress that has made its change has all its nodes. -/
theorem Inv.frozen_of_swings (hI : Inv st) (hs : st.mem.state r = stateInProgress)
    (h0 : 0 < (st.hist.of r).swings) : ∀ j x s, Frz st.mem r j x s → st.mem.ptr x = r := by
  intro j x s hj
  have hf := hI.ok.swung_frozen (r := r) h0
  refine hI.ok.busy (status_eq_inProgress_iff.mpr hs) hj ?_
  rw [(hI.ok.frozen hf).1]
  exact hj.1

/-- The moment before a record is committed. -/
theorem Run.commit_moment (hrun : Run st st') (hI : Inv st)
    (ht : (st'.hist.of r).time ≤ st.hist.clock) (hs : st.mem.state r = stateInProgress)
    (hs' : st'.mem.state r = stateCommitted) :
    ∃ t, Run st t ∧ Run t st' ∧ t.mem.state r = stateInProgress ∧
      ∀ j x s, Frz t.mem r j x s → t.mem.ptr x = r := by
  induction hrun with
  | refl => exact absurd (hs.symm.trans hs') (by decide)
  | @tail t t' hr hst ih =>
      have hIt := Run.inv hr hI
      obtain ⟨a, hk, hwrite⟩ := (hIt.step hst).keeps
      have hw : a ≠ .write r := by
        intro heq
        have hlt := hwrite r heq
        have hle := Run.clock_le hr hI
        omega
      have htime : (t'.hist.of r).time = (t.hist.of r).time := (hk.later hw).time
      by_cases hc : t.mem.state r = stateCommitted
      · obtain ⟨t₀, h₁, h₂, h₃⟩ := ih (htime ▸ ht) hc
        exact ⟨t₀, h₁, h₂.tail hst, h₃⟩
      · have hswung : 0 < (t.hist.of r).swings := hk.move.swung_of_committed hw
          (mt status_eq_committed_iff.mp hc) (status_eq_committed_iff.mpr hs')
        have hprog : t.mem.state r = stateInProgress := by
          by_contra hne
          have hf := hIt.ok.swung_frozen (r := r) hswung
          exact hc (committed_of_frozen hIt.ok hf hne)
        exact ⟨t, hr, .single hst, hprog, hIt.frozen_of_swings hprog hswung⟩

/-- **The outcome of a record is final.**  As long as the record is not written again, a finished
record stays committed or stays aborted at the same node.  It becomes committed only while all its
nodes are frozen for it at once; by then it has changed one child pointer, once, and an aborted
record has changed none. -/
theorem record_outcome (hr : Reachable st) (hrun : Run st st')
    (ht : (st'.hist.of r).time = (st.hist.of r).time) :
    (st.mem.state r ≠ stateInProgress → status (st'.mem.state r) = status (st.mem.state r)) ∧
      (st.mem.state r = stateInProgress → st'.mem.state r = stateCommitted →
        ∃ t, Run st t ∧ Run t st' ∧ t.mem.state r = stateInProgress ∧
          ∀ j x s, Frz t.mem r j x s → t.mem.ptr x = r) ∧
      (st'.mem.state r = stateCommitted → (st'.hist.of r).swings = 1) ∧
      ((st'.mem.state r).Aborted → (st'.hist.of r).swings = 0) := by
  have hI := hr.inv
  have hle : (st'.hist.of r).time ≤ st.hist.clock := ht.trans_le (hI.time_le r)
  have hold := hrun.old hI hle
  have hI' := hrun.inv hI
  refine ⟨fun hs => ?_, fun hs hs' => hrun.commit_moment hI hle hs hs', hI'.swings_eq⟩
  exact hold.later.status (mt status_eq_inProgress_iff.mp hs)

/-- The insertion of the sample run commits. -/
theorem record_outcome_inserted :
    Sample.begun.mem.state 1 = stateInProgress ∧ Sample.inserted.mem.state 1 = stateCommitted ∧
      (Sample.inserted.hist.of 1).swings = 1 ∧
      ∃ t, Run Sample.begun t ∧ Run t Sample.inserted ∧ t.mem.state 1 = stateInProgress ∧
        ∀ j x s, Frz t.mem 1 j x s → t.mem.ptr x = 1 := by
  have hrun : Run Sample.begun Sample.inserted :=
    Sample.run_begun.trans (.head Sample.step_ready Sample.run_changed)
  have hE := Sample.evaluated
  have hb := hE.begun_state
  have he := hE.inserted_state
  obtain ⟨-, hmoment, hswings, -⟩ :=
    record_outcome Sample.reachable_begun hrun hE.inserted_time
  exact ⟨hb, he, hswings he, hmoment hb he⟩

/-! ### What `help` returns -/

/-- What `help` returns in an access, if it returns. -/
def helpResult (m : Mem) (r : ℕ) : HelpAt → Option Word
  | .state => if m.state r ≠ stateInProgress then some (m.state r) else none
  | .check i _ =>
      if (m.record r).allFrozen then some stateCommitted
      else if i = 0 then some (abortStateInit 0 0) else none
  | .abort i flags =>
      if m.state r = stateInProgress then some (abortStateInit (BitVec.ofNat 32 i) flags)
      else some (m.state r)
  | .commit => some stateCommitted
  | _ => none

/-- The access returns the result, or `help` goes on. -/
theorem helpStep_pc (m : Mem) (h : History) (r : ℕ) (other : Bool) (at_ : HelpAt) :
    (∃ v, helpResult m r at_ = some v ∧ (helpStep m h r other at_).2.2 = helpReturn r other v) ∨
      (helpResult m r at_ = none ∧ ∃ at', (helpStep m h r other at_).2.2 = .help r other at') := by
  cases at_ with
  | state =>
      simp only [helpStep, helpResult]
      by_cases hs : m.state r = stateInProgress
      · rw [if_neg (not_not.mpr hs), if_neg (not_not.mpr hs)]
        exact .inr ⟨rfl, _, rfl⟩
      · rw [if_pos hs, if_pos hs]
        exact .inl ⟨_, rfl, rfl⟩
  | freeze i flags =>
      refine .inr ⟨rfl, ?_⟩
      simp only [helpStep]
      by_cases hi : i < m.nFreeze r
      · rw [if_pos hi]
        cases m.seenAt r i with
        | none => exact ⟨_, rfl⟩
        | some s =>
            simp only
            split_ifs <;> exact ⟨_, rfl⟩
      · rw [if_neg hi]
        exact ⟨_, rfl⟩
  | check i flags =>
      simp only [helpStep, helpResult]
      split_ifs
      · exact .inl ⟨_, rfl, rfl⟩
      · exact .inl ⟨_, rfl, rfl⟩
      · exact .inr ⟨rfl, _, rfl⟩
  | abort i flags =>
      simp only [helpStep, helpResult]
      split_ifs
      · exact .inl ⟨_, rfl, rfl⟩
      · exact .inl ⟨_, rfl, rfl⟩
  | allFrozen => exact .inr ⟨rfl, _, rfl⟩
  | mark i =>
      refine .inr ⟨rfl, ?_⟩
      simp only [helpStep]
      by_cases hi : i < m.nFreeze r
      · rw [if_pos hi]
        cases m.seenAt r i with
        | none => exact ⟨_, rfl⟩
        | some s => exact ⟨_, rfl⟩
      · rw [if_neg hi]
        exact ⟨_, rfl⟩
  | update =>
      refine .inr ⟨rfl, ?_⟩
      simp only [helpStep]
      split_ifs <;> exact ⟨_, rfl⟩
  | commit => exact .inl ⟨_, rfl, rfl⟩

/-- What was returned is the outcome of the record; a record that has missed its first node was
never in the tree. -/
def Reports (m : Mem) (h : History) (r : ℕ) (w : Word) : Prop :=
  (w = stateCommitted ∧ m.state r = stateCommitted) ∨ (w.Aborted ∧ (m.state r).Aborted) ∨
    (w.Aborted ∧ Missed m h r 0)

theorem reports_state {m : Mem} {h : History} (hs : m.state r ≠ stateInProgress) :
    Reports m h r (m.state r) := by
  rcases (m.state r).cases with hc | hc | hc
  · exact absurd hc hs
  · exact .inl ⟨hc, hc⟩
  · exact .inr (.inl ⟨hc, hc⟩)

theorem Reports.keeps {m m' : Mem} {h h' : History} {a : Freezing.Act ℕ} (hw : Reports m h r w)
    (hk : Keeps m h a m' h') (ha : a ≠ .write r) : Reports m' h' r w := by
  rcases hw with ⟨hw, hs⟩ | ⟨hw, hs⟩ | ⟨hw, hm⟩
  · refine .inl ⟨hw, ?_⟩
    have hne : m.state r ≠ stateInProgress := by rw [hs]; decide
    rw [← status_eq_committed_iff, hk.status_eq ha hne, hs]
    rfl
  · exact .inr (.inl ⟨hw, hk.aborted ha hs⟩)
  · exact .inr (.inr ⟨hw, hm.keeps hk ha⟩)

section Help

variable {other : Bool} {at_ : HelpAt}

/-- **`help` returns the outcome of the record.** -/
theorem Inv.reports (hI : Inv st) (hpc : (st.thread i).pc = .help r other at_)
    (hw : helpResult st.mem r at_ = some w) :
    Reports (st.exec i).mem (st.exec i).hist r w := by
  have hok := hI.helpOk hpc
  rw [exec_help_eq hpc]
  change Reports (helpStep st.mem st.hist r other at_).1
    (helpStep st.mem st.hist r other at_).2.1 r w
  cases at_ with
  | state =>
      simp only [helpResult, Option.ite_none_right_eq_some, Option.some.injEq] at hw
      obtain ⟨hs, rfl⟩ := hw
      simp only [helpStep, if_pos hs]
      exact reports_state hs
  | check k flags =>
      obtain ⟨hfresh, -, -, ⟨x, s, hp⟩, hm⟩ := hok
      simp only [helpResult] at hw
      simp only [helpStep]
      split_ifs at hw ⊢ with ha hk
      · obtain rfl := Option.some.inj hw
        have hfin : st.mem.state r ≠ stateInProgress := by
          refine hm.resolve_left fun hmiss => ?_
          have hsize : (st.hist.of r).front = st.mem.nFreeze r := (hI.ok.frozen (r := r) ha).1
          exact absurd hmiss.2 (Nat.not_le_of_lt (hsize ▸ hp.1))
        exact .inl ⟨rfl, committed_of_frozen hI.ok ha hfin⟩
      · obtain rfl := Option.some.inj hw
        subst hk
        exact .inr (.inr ⟨by decide, hm.resolve_right (not_not.mpr (hfresh rfl).1)⟩)
  | abort k flags =>
      simp only [helpResult] at hw
      simp only [helpStep]
      split_ifs at hw ⊢ with hs
      · obtain rfl := Option.some.inj hw
        have hab := aborted_of_bit (bit_abortStateInit (BitVec.ofNat 32 k) flags)
        refine .inr (.inl ⟨hab, ?_⟩)
        rw [state_setState]
        exact hab
      · obtain rfl := Option.some.inj hw
        exact reports_state hs
  | commit =>
      obtain rfl := Option.some.inj hw
      exact .inl ⟨rfl, state_setState _⟩
  | _ => cases hw

/-- What a call of `help` has returned stays the outcome of the record. -/
theorem Run.reports (hrun : Run (st.exec i) st') (hI : Inv st)
    (hpc : (st.thread i).pc = .help r other at_) (hw : helpResult st.mem r at_ = some w)
    (ht : (st'.hist.of r).time ≤ (st.exec i).hist.clock) : Reports st'.mem st'.hist r w :=
  hrun.lasts_of_time (P := fun s => Reports s.mem s.hist r w) (hI.exec_help hpc).inv ht
    (hI.reports hpc hw) fun _ _ _ hk ha hr => hr.keeps hk ha

theorem time_helpStep (m : Mem) (h : History) (r r' : ℕ) (other : Bool) (at_ : HelpAt) :
    ((helpStep m h r other at_).2.1.of r').time = (h.of r').time := by
  have hset (c : RecordHistory) (hc : c.time = (h.of r).time) :
      ((h.set r c).of r').time = (h.of r').time := by
    by_cases hr : r' = r
    · subst hr; simpa [History.set] using hc
    · simp [History.set, hr]
  by_cases hat : at_ = .update
  · subst hat
    simp only [helpStep]
    split_ifs
    · exact hset _ rfl
    · rfl
  · rcases hist_helpStep m h r other hat with heq | ⟨k, heq⟩
    · rw [heq]
    · rw [heq]
      exact hset _ rfl

/-- A record that has missed its first node is not in the tree. -/
theorem Missed.ptr_ne {m : Mem} {h : History} (hm : Missed m h r 0) (ho : (view m h).Ok dummy)
    (x : ℕ) : m.ptr x ≠ r := by
  obtain ⟨⟨y, s, hp, -⟩, h0⟩ := hm
  refine ho.ptr_ne_of_unpublished ?_ (Nat.eq_zero_of_le_zero h0) x
  rintro rfl
  exact ho.dummy_plan hp

/-- Two reports about one record say the same. -/
theorem Reports.agree {m : Mem} {h : History} {w' : Word} (ho : (view m h).Ok dummy)
    (hw : Reports m h r w) (hw' : Reports m h r w') :
    (w = stateCommitted ∧ w' = stateCommitted ∧ m.state r = stateCommitted) ∨
      (w.Aborted ∧ w'.Aborted ∧ ((m.state r).Aborted ∨ ∀ x, m.ptr x ≠ r)) := by
  have began (hc : m.state r = stateCommitted) : 0 < (h.of r).front :=
    (ho.frozen (ho.swung_frozen (ho.committed (r := r) (status_eq_committed_iff.mpr hc)))).2
  rcases hw with ⟨hw, hs⟩ | ⟨hw, hs⟩ | ⟨hw, hm⟩
  · rcases hw' with ⟨hw', -⟩ | ⟨-, hs'⟩ | ⟨-, hm'⟩
    · exact .inl ⟨hw, hw', hs⟩
    · rw [hs] at hs'
      exact absurd hs' not_aborted_committed
    · exact absurd hm'.2 (Nat.not_le_of_lt (began hs))
  · rcases hw' with ⟨-, hs'⟩ | ⟨hw', -⟩ | ⟨hw', -⟩
    · rw [hs'] at hs
      exact absurd hs not_aborted_committed
    · exact .inr ⟨hw, hw', .inl hs⟩
    · exact .inr ⟨hw, hw', .inl hs⟩
  · rcases hw' with ⟨-, hs'⟩ | ⟨hw', -⟩ | ⟨hw', -⟩
    · exact absurd hm.2 (Nat.not_le_of_lt (began hs'))
    · exact .inr ⟨hw, hw', .inr (hm.ptr_ne ho)⟩
    · exact .inr ⟨hw, hw', .inr (hm.ptr_ne ho)⟩

/-- **All calls of `help` for a record return the same outcome**, whoever makes them and however
they are interleaved.  If they return that it is committed, it is; otherwise it is aborted, or no
node ever led to it. -/
theorem help_outcomes_agree {k : Fin n} {other' : Bool} {at' : HelpAt} {w' : Word}
    (hr : Reachable st) (hpc : (st.thread i).pc = .help r other at_)
    (hw : helpResult st.mem r at_ = some w) (hrun : Run (st.exec i) st')
    (ht : (st'.hist.of r).time = (st.hist.of r).time)
    (hpc' : (st'.thread k).pc = .help r other' at') (hw' : helpResult st'.mem r at' = some w') :
    (w = stateCommitted ∧ w' = stateCommitted ∧ (st'.exec k).mem.state r = stateCommitted) ∨
      (w.Aborted ∧ w'.Aborted ∧
        (((st'.exec k).mem.state r).Aborted ∨ ∀ x, (st'.exec k).mem.ptr x ≠ r)) := by
  have hI := hr.inv
  have hI₁ := (hI.exec_help hpc).inv
  have hI₂ := hrun.inv hI₁
  have hI₃ := (hI₂.exec_help hpc').inv
  have hstep : Step st' (st'.exec k) := .exec k (by rw [hpc']; nofun)
  have htime : ((st'.exec k).hist.of r).time = (st'.hist.of r).time := by
    rw [exec_help_eq hpc']
    exact time_helpStep ..
  have hle : ((st'.exec k).hist.of r).time ≤ (st.exec i).hist.clock := by
    rw [htime, ht]
    exact (hI.time_le r).trans (hI.exec_help hpc).clock
  exact Reports.agree hI₃.ok (Run.reports (hrun.tail hstep) hI hpc hw hle)
    (hI₂.reports hpc' hw')

/-- In the sample run both threads get to know that the insertion has been committed. -/
theorem help_outcomes_agree_inserted :
    helpResult Sample.changed.mem 1 .commit = some stateCommitted ∧
      helpResult (Sample.changed.exec 0).mem 1 .state = some stateCommitted ∧
      ((stateCommitted = stateCommitted ∧ stateCommitted = stateCommitted ∧
          ((Sample.changed.exec 0).exec 1).mem.state 1 = stateCommitted) ∨
        (stateCommitted.Aborted ∧ stateCommitted.Aborted ∧
          ((((Sample.changed.exec 0).exec 1).mem.state 1).Aborted ∨
            ∀ x, ((Sample.changed.exec 0).exec 1).mem.ptr x ≠ 1))) := by
  have hE := Sample.evaluated
  have h₀ : helpResult Sample.changed.mem 1 .commit = some stateCommitted := rfl
  have h₁ : helpResult (Sample.changed.exec 0).mem 1 .state = some stateCommitted := by
    rw [helpResult, hE.committed_state]
    decide
  exact ⟨h₀, h₁, help_outcomes_agree Sample.reachable_changed hE.changed_pc h₀ .refl
    hE.committed_time hE.committed_pc h₁⟩

end Help

/-! ### Marked nodes -/

theorem Inv.linked_of_marked (hI : Inv st) (hx : (st.mem.node x).marked = true) :
    x ∈ st.hist.linked ∧ (st.mem.node x).left ≠ 0 := by
  obtain ⟨j, s, hp, -⟩ := hI.ok.marked_plan (x := x) hx
  exact ⟨hI.tree.nodes_mem _ x (hI.tree.frz_mem hp), hI.tree.inner _ j x s hp⟩

/-- A node that leads to a record that has not removed it is not marked. -/
theorem Settled.unmarked {m : Mem} {h : History} (hs : Settled m h x s) (ho : (view m h).Ok dummy)
    (hp : m.ptr x = s) : (m.node x).marked = false := by
  cases hm : (m.node x).marked with
  | false => rfl
  | true =>
      obtain ⟨j, t, hj, h0, ha⟩ := ho.marked_plan (x := x) hm
      have hp' : (view m h).ptr x = s := hp
      rw [hp'] at hj ha
      have hc := committed_of_frozen ho ha hs.finished
      exact absurd (hs.kept hc j t hj) h0

/-- The children of a marked node do not change. -/
theorem Kept.child_of_marked (hk : Kept st st') (hI : Inv st)
    (hx : (st.mem.node x).marked = true) (d : Bool) :
    st'.mem.child x d = st.mem.child x d := by
  rcases hk.change with ⟨-, hsame⟩ | ⟨r, hdue, hm, -⟩
  · exact hsame x (hI.linked_of_marked hx).1 d
  · obtain ⟨hripe, -⟩ := hI.ripe hdue.allFrozen hdue.marked hdue.swings
    rw [hm, child_swung, if_neg]
    rintro ⟨rfl, -⟩
    obtain ⟨s, hs⟩ := hripe.first
    obtain ⟨j, t, hj, h0, -⟩ := hI.ok.marked_plan hx
    have hp : (view st.mem st.hist).ptr (st.mem.nodeAt r 0) = r := hripe.ptr 0 _ s hs
    rw [hp] at hj
    exact h0 (hI.ok.plan_inj hj hs)

/-! ### LLX -/

/-- What the result of an LLX says about the node: it is not marked and has these children, and if
it is an internal node it is in the tree. -/
def Snapshot (m : Mem) (x : ℕ) : LlxResult → Prop
  | .leaf => (m.node x).marked = false ∧ (m.node x).left = 0 ∧ (m.node x).right = 0
  | .inner s l r => (m.node x).marked = false ∧ (m.node x).left = l ∧ (m.node x).right = r ∧
      m.ptr x = s ∧ m.state s ≠ stateInProgress ∧ m.Live x

theorem Snapshot.unmarked {m : Mem} {res : LlxResult} (hs : Snapshot m x res) :
    (m.node x).marked = false := by
  cases res with
  | leaf => exact hs.1
  | inner s l r => exact hs.1

theorem Inv.snapshot {at_ : LlxAt} {res : LlxResult} (hI : Inv st)
    (hpc : (st.thread i).pc = .llx x at_) (hres : (llxStep st.mem x at_).2 = some res) :
    Snapshot st.mem x res := by
  have hok := hI.pc i
  unfold PcOk at hok
  rw [hpc] at hok
  obtain ⟨hx, hl⟩ := hok
  cases at_ with
  | right s l =>
      obtain ⟨-, hiff, -⟩ := hl
      simp only [llxStep] at hres
      split_ifs at hres with h0
      obtain rfl := Option.some.inj hres
      have hleft := hiff.mpr h0
      refine ⟨?_, hleft, hI.tree.leaf x hx hleft⟩
      cases hm : (st.mem.node x).marked with
      | false => rfl
      | true => exact absurd hleft (hI.linked_of_marked hm).2
  | scx2 s l r =>
      simp only [llxStep] at hres
      split_ifs at hres with hp
      obtain rfl := Option.some.inj hres
      have hs : Shown st.mem st.hist x s l r := hl
      have hm := hs.toSettled.unmarked hI.ok hp
      obtain ⟨hleft, hright⟩ := hs.same hp
      exact ⟨hm, hleft, hright, hp, hs.finished, hI.tree.present x hx hs.inner hm⟩
  | marked s w =>
      simp only [llxStep] at hres
      split_ifs at hres
  | _ => cases hres

/-- **An LLX that succeeds returns a snapshot.**  When it returns, the node is not marked and has
the children that are returned, although they were loaded one after the other, and an internal node
is reachable from the root. -/
theorem llx_snapshot {at_ : LlxAt} {res : LlxResult} (hr : Reachable st)
    (hpc : (st.thread i).pc = .llx x at_) (hres : (llxStep st.mem x at_).2 = some res) :
    Snapshot st.mem x res :=
  hr.inv.snapshot hpc hres

/-- The LLX of the root in the sample run. -/
theorem llx_snapshot_root :
    Snapshot (((State.init 2).llx 0 root).play (List.replicate 5 0)).mem root
      (.inner dummy 2 0) := by
  have hrun : Run (State.init 2) (((State.init 2).llx 0 root).play (List.replicate 5 0)) :=
    .look (by decide)
  have hpc : ((((State.init 2).llx 0 root).play (List.replicate 5 0)).thread 0).pc =
      .llx root (.scx2 dummy 2 0) := by decide
  exact llx_snapshot (Reachable.run .refl hrun) hpc (by decide)

/-- **A marked node is final.**  It stays marked, its children and its record never change again,
no LLX of it succeeds, and the record that has marked it is never aborted. -/
theorem marked_final (hr : Reachable st) (hx : (st.mem.node x).marked = true)
    (hrun : Run st st') :
    (st'.mem.node x).marked = true ∧ st'.mem.ptr x = st.mem.ptr x ∧
      (∀ d, st'.mem.child x d = st.mem.child x d) ∧
      (∀ i at_, (st'.thread i).pc = .llx x at_ → (llxStep st'.mem x at_).2 = none) ∧
      ¬ (st'.mem.state (st.mem.ptr x)).Aborted := by
  have hI := hr.inv
  have hI' := hrun.inv hI
  obtain ⟨hm, hp, hc⟩ := hrun.lasts (P := fun s => (s.mem.node x).marked = true ∧
    s.mem.ptr x = st.mem.ptr x ∧ ∀ d, s.mem.child x d = st.mem.child x d) hI ⟨hx, rfl, fun _ => rfl⟩
    fun s s' hIs hk hs => by
      obtain ⟨hm, hp, hc⟩ := hs
      obtain ⟨a, ha, -⟩ := hk.keeps
      exact ⟨ha.marked hm, (hIs.ok.ptr_of_marked ha.move hm).trans hp,
        fun d => (hk.child_of_marked hIs hm d).trans (hc d)⟩
  refine ⟨hm, hp, hc, ?_, ?_⟩
  · intro i at_ hpc
    cases hres : (llxStep st'.mem x at_).2 with
    | none => rfl
    | some res =>
        have hun := (hI'.snapshot hpc hres).unmarked
        rw [hm] at hun
        cases hun
  · intro hab
    obtain ⟨j, s, -, -, ha⟩ := hI'.ok.marked_plan (x := x) hm
    have hp' : (view st'.mem st'.hist).ptr x = st.mem.ptr x := hp
    rw [hp'] at ha
    exact hI'.ok.not_aborted ha (status_of_aborted hab)

/-- The node that the sample run deletes. -/
theorem marked_final_deleted :
    (Sample.marked.mem.node 3).marked = true ∧ Sample.deleted.mem.child 3 true = 4 ∧
      ¬ (Sample.deleted.mem.state 2).Aborted := by
  have hE := Sample.evaluated
  have hm := hE.marked_marked
  obtain ⟨-, -, hchild, -, hab⟩ := marked_final Sample.reachable_marked hm Sample.run_marked
  rw [hE.marked_ptr] at hab
  exact ⟨hm, (hchild true).trans hE.marked_child, hab⟩

/-! ### SCX -/

/-- A node that a record can still freeze is not marked by another one. -/
theorem Inv.ptr_of_marked (hI : Inv st) (hs : st.mem.state r = stateInProgress)
    (hd : ¬ (view st.mem st.hist).Doomed r) (hj : Frz st.mem r j x s)
    (hm : (st.mem.node x).marked = true) : st.mem.ptr x = r := by
  by_contra hne
  have hp : st.mem.ptr x ≠ s := by
    rintro rfl
    obtain ⟨k, t, hk, h0, ha⟩ := hI.ok.marked_plan (x := x) hm
    have hfin : st.mem.state (st.mem.ptr x) ≠ stateInProgress :=
      mt status_eq_inProgress_iff.mpr (hI.ok.seen_finished hj)
    have hc := committed_of_frozen hI.ok ha hfin
    exact h0 (hI.ok.seen_kept hj (status_eq_committed_iff.mpr hc) hk)
  -- another record has come in between, so this one has missed the node
  have hlt := (hI.ok.seen_behind hj).resolve_left hp
  refine hd ⟨j, ?_, x, s, hj, hne, hlt⟩
  by_contra hfront
  exact hne (hI.ok.busy (status_eq_inProgress_iff.mpr hs) hj (Nat.lt_of_not_le hfront))

/-- A node does not come back to a record. -/
theorem Run.ptr_eq (hrun : Run st st') (hI : Inv st) (hs : SeenOk st.mem st.hist x s)
    (hp : st'.mem.ptr x = s) : st.mem.ptr x = s :=
  (hrun.lasts (P := fun t => SeenOk t.mem t.hist x s ∧ (t.mem.ptr x = s → st.mem.ptr x = s)) hI
    ⟨hs, id⟩ fun _ _ _ hk ht => by
      obtain ⟨a, ha, -⟩ := hk.keeps
      exact ⟨ht.1.keeps ha, fun hp => ht.2 (ha.ok.ptr_later ha.move ht.1.behind hp)⟩).2 hp

/-- **Nothing happens to the nodes of an SCX between its LLXs and its change.**  If the update CAS
of an SCX succeeds, then in all states from the LLX of a node that the SCX freezes to the update CAS
the node has the children that the LLX returned, and nobody but this SCX has marked it. -/
theorem scx_atomic {a b d e : State n} {c : Call} {k : Fin n} {other : Bool} {l rt : ℕ}
    (ha : Reachable a) (hres : (x, .inner s l rt) ∈ (a.thread i).llxResults) (hab : Run a b)
    (hidle : (b.thread i).pc = .idle) (hc : Proper b i c)
    (hx : x ∈ c.nodes.take c.type.numToFreeze) (hcx : c.res x = .inner s l rt)
    (hr : (b.thread i).allocatedSCXRecord = r) (hbd : Run (b.scx i c) d)
    (ht : (d.hist.of r).time = b.hist.clock + 1)
    (hpc : (d.thread k).pc = .help r other .update)
    (hcas : d.mem.child (d.mem.nodeAt r 0) (d.mem.record r).fieldIsLeft = d.mem.nodeAt r 1)
    (he : (Run a e ∧ Run e b) ∨ (Run (b.scx i c) e ∧ Run e d)) :
    (e.mem.node x).left = l ∧ (e.mem.node x).right = rt ∧
      ((e.mem.node x).marked = true → e.mem.ptr x = r) := by
  subst hr
  have hIa := ha.inv
  have hIb := hab.inv hIa
  have hIs := (hIb.scx hidle hc).inv
  have hId := hbd.inv hIs
  -- when the update CAS succeeds, the record has lost nothing
  obtain ⟨hfrozen, hmarked⟩ := hId.helpOk hpc
  have h0 : (d.hist.of (b.thread i).allocatedSCXRecord).swings = 0 := by
    by_contra hne
    exact hId.tree.field _ (Nat.pos_of_ne_zero hne) hcas
  obtain ⟨hst, hd⟩ := hId.not_doomed hfrozen h0
  have hold := hbd.old hIs (Nat.le_of_eq ht)
  rcases he with ⟨hae, heb⟩ | ⟨hse, hed⟩
  · -- before the SCX the node still leads to the record that the LLX has returned
    have hIe := hae.inv hIa
    obtain ⟨-, hshown⟩ : x ∈ e.hist.linked ∧ Shown e.mem e.hist x s l rt :=
      hae.resOk hIa (hIa.res i _ hres)
    have hp : b.mem.ptr x = s := by
      by_contra hne
      have hdoomed := hc.doomed_of_stale hIb hidle ⟨x, hx, s, l, rt, hcx, hne⟩
      exact hd (hold.doomed hdoomed)
    have hp' := heb.ptr_eq hIe hshown.toSeenOk hp
    obtain ⟨hleft, hright⟩ := hshown.same hp'
    refine ⟨hleft, hright, fun hm => ?_⟩
    rw [hshown.toSettled.unmarked hIe.ok hp'] at hm
    cases hm
  · -- afterwards it can still be frozen, so that it is as the record says
    have hIe := hse.inv hIs
    have hle : (d.hist.of (b.thread i).allocatedSCXRecord).time ≤ e.hist.clock :=
      (Nat.le_of_eq ht).trans (hse.clock_le hIs)
    have hold' := hed.old hIe hle
    have hte : (e.hist.of (b.thread i).allocatedSCXRecord).time = b.hist.clock + 1 :=
      hold'.later.time.symm.trans ht
    have hold'' := hse.old hIs (Nat.le_of_eq hte)
    obtain ⟨hste, h0e, hde⟩ := hold'.able hst h0 hd
    obtain ⟨j, hj⟩ := List.mem_iff_getElem?.mp hx
    rw [List.getElem?_take] at hj
    split_ifs at hj with hlt
    have hfrz : Frz e.mem (b.thread i).allocatedSCXRecord j x s := by
      have hplan : Frz e.mem _ = Frz (b.scx i c).mem (b.thread i).allocatedSCXRecord :=
        hold''.later.plan
      rw [hplan]
      exact (hc.frz_iff _ _ _).mpr ⟨hlt, hj, l, rt, hcx⟩
    obtain ⟨old, new, hfits⟩ := (hIe.tree.fits _ hste h0e).resolve_left hde
    have hshown := hfits.shown j x s hfrz
    have hres' : (e.hist.of (b.thread i).allocatedSCXRecord).res = c.res := by
      rw [hold''.res, scx_eq]
      exact congrArg RecordHistory.res of_scxHist_self
    rw [hres', hcx] at hshown
    obtain ⟨-, hleft, hright⟩ := LlxResult.inner.inj hshown
    exact ⟨hleft.symm, hright.symm, hIe.ptr_of_marked hste hde hfrz⟩

/-- The insertion of the sample run: from the beginning of its SCX to its change. -/
theorem scx_atomic_inserted : (Sample.begun.mem.node root).left = 2 ∧
    (Sample.begun.mem.node root).right = 0 ∧
    ((Sample.begun.mem.node root).marked = true → Sample.begun.mem.ptr root = 1) := by
  have hE := Sample.evaluated
  have hres : (root, LlxResult.inner dummy 2 0) ∈ (Sample.looked.thread 0).llxResults := by
    rw [hE.looked_results]
    exact List.mem_singleton_self _
  exact scx_atomic Sample.reachable_looked hres .refl hE.looked_idle Sample.proper_insertion
    (by decide) rfl hE.looked_record Sample.run_begun hE.ready_time hE.ready_pc hE.ready_field
    (.inr ⟨.refl, Sample.run_begun⟩)

end Cbat.Scx
