/-
**The epoch bracket of an update.**

An update takes a guard before its first attempt.  The guard announces the current epoch, and the
thread is then not quiescent: DEBRA frees no record that it may still reach.  But `scx` ends the
bracket as soon as `help` returns, and nothing opens it again.  So after its first SCX, whether it
commits or fails, the call goes on as a quiescent thread: it searches and rebalances, and in any
case it reads nodes and versions in `propagate`.

Main definitions:

* `Cbat.ThreadData`, `Cbat.ThreadData.startOp`, `Cbat.ThreadData.endOp` — what DEBRA knows of a
  thread;
* `Cbat.PC.dereferences` — the steps that read a shared node or version;
* `Cbat.EpochLog`, `Cbat.EpochNote` — the bracket of a call along its run.

Main results:

* `Cbat.update_bracket_iff` — **the bracket holds up to the first SCX, and for the whole call only
  if there is none**;
* `Cbat.update_outside_bracket` — an insertion that reads nodes outside of its bracket.
-/

import Cbat.Calls
import Cbat.Runs

set_option relaxedAutoImplicit false
set_option autoImplicit false

namespace Cbat

variable {K V : Type}

/-! ### DEBRA -/

/-- The announcement of a thread: the epoch, and in its last bit whether the thread is quiescent. -/
structure ThreadData where
  /-- the epoch that the thread announced last -/
  localvar_announcedEpoch : ℕ
  /-- the announcement -/
  announcedEpoch : ℕ

namespace ThreadData

/-- `startOp` with the epoch that it reads. -/
def startOp (readEpoch : ℕ) : ThreadData := ⟨readEpoch, readEpoch⟩

/-- `endOp`: the quiescent bit is set. -/
def endOp (d : ThreadData) : ThreadData :=
  { d with announcedEpoch := d.localvar_announcedEpoch ||| 1 }

/-- `isQuiescent`. -/
def isQuiescent (d : ThreadData) : Bool := d.announcedEpoch &&& 1 == 1

/-- Epochs are even: they grow by `EPOCH_INCREMENT`, which is two. -/
theorem isQuiescent_startOp {e : ℕ} (h : Even e) : (startOp e).isQuiescent = false := by
  simp [startOp, isQuiescent, Nat.even_iff.mp h]

theorem isQuiescent_endOp (d : ThreadData) : d.endOp.isQuiescent = true := by
  simp [endOp, isQuiescent]

end ThreadData

/-! ### The bracket along a run -/

/-- The next step reads or writes a shared node or version. -/
def PC.dereferences : PC K V → Bool
  | .searchRoot _ _ | .searchTop _ _ _ | .searchFirst _ _ _ | .searchLoop _ _ _
  | .searchNext _ _ _ | .attempt _ _ _ | .swing _ _ _ | .propChild _ | .propTest _ _
  | .refresh _ _ _ _ _ | .propMark _ _ _ => true
  | _ => false

/-- The bracket of a call. -/
structure EpochLog where
  /-- the announcement of the thread -/
  data : ThreadData
  /-- how many of its SCXs have returned -/
  scxs : ℕ
  /-- a node or version was read by the thread when it was quiescent -/
  outside : Bool

namespace EpochLog

/-- The call makes a step. -/
def access (l : EpochLog) (pc : PC K V) : EpochLog :=
  { l with outside := l.outside || (pc.dereferences && l.data.isQuiescent) }

/-- An SCX of the call returns. -/
def scx (l : EpochLog) : EpochLog := { l with data := l.data.endOp, scxs := l.scxs + 1 }

end EpochLog

/-- **What a step does to the bracket** of thread `i`.  An attempt that fails may have failed in LLX
or in its SCX. -/
inductive EpochNote (i : ℕ) (s : State K V) (j : ℕ) (s' : State K V) (l : EpochLog) :
    EpochLog → Prop
  | other (hj : j ≠ i) : EpochNote i s j s' l l
  | access (hj : j = i) (hc : (s.pc i).committing = false) :
      EpochNote i s j s' l (l.access (s.pc i))
  | committed (hj : j = i) (hc : (s.pc i).committing = true) :
      EpochNote i s j s' l (l.access (s.pc i)).scx
  | failed (hj : j = i) {c c' : Call K V} {md : Mode} {cur : Cursor}
      (hpc : s.pc i = .attempt c md cur) (hpc' : s'.pc i = .searchRoot c' md) :
      EpochNote i s j s' l (l.access (s.pc i)).scx

/-- Right after an SCX, before the next access. -/
def PC.afterScx : PC K V → Bool
  | .searchRoot _ _ | .propStart _ | .propChild _ => true
  | _ => false

/-- **The bracket is open up to the first SCX**, and the call cannot return after that without an
access. -/
structure Bracket (l : EpochLog) (pc : PC K V) : Prop where
  quiescent : l.data.isQuiescent = true ↔ l.scxs ≠ 0
  inside : l.scxs = 0 → l.outside = false
  after : l.scxs ≠ 0 → l.outside = true ∨ pc.afterScx = true

theorem finished_afterScx (c : Call K V) (md : Mode) : (finished c md).afterScx = true := by
  cases md with
  | rebalance => rfl
  | update => unfold finished; split_ifs <;> rfl

variable [LinearOrder K] {cfg : Cfg K V} {m m' : Mem K V} {l : EpochLog} {pc pc' : PC K V}

/-- An access of the call. -/
theorem Bracket.access (h : Bracket l pc) (hs : CallStep cfg m pc m' pc') :
    Bracket (l.access pc) pc' := by
  have hout : l.outside = true → (l.access pc).outside = true := fun ho => by
    simp [EpochLog.access, ho]
  refine ⟨h.quiescent, fun h0 => ?_, fun hne => ?_⟩
  · have hq : l.data.isQuiescent = false :=
      Bool.eq_false_iff.mpr fun hq => h.quiescent.mp hq h0
    simp [EpochLog.access, h.inside h0, hq]
  · rcases h.after hne with ho | ha
    · exact .inl (hout ho)
    · cases pc with
      | searchRoot | propChild =>
          refine .inl ?_
          simp [EpochLog.access, PC.dereferences, h.quiescent.mpr hne]
      | propStart c =>
          refine .inr ?_
          cases hs.propStep rfl <;> rfl
      | _ => cases ha

omit [LinearOrder K] in
/-- An SCX of the call returns. -/
theorem bracket_scx (l : EpochLog) (ha : pc'.afterScx = true) : Bracket (l.access pc).scx pc' := by
  refine ⟨?_, fun h0 => absurd h0 (Nat.succ_ne_zero _), fun _ => .inr ha⟩
  simp [EpochLog.scx, ThreadData.isQuiescent_endOp]

/-- A step of the call. -/
theorem Bracket.note {s s' : State K V} {i : ℕ} {l' : EpochLog} (h : Bracket l (s.pc i))
    (hs : CallStep cfg s.mem (s.pc i) s'.mem (s'.pc i)) (hn : EpochNote i s i s' l l') :
    Bracket l' (s'.pc i) := by
  cases hn with
  | other hj => exact absurd rfl hj
  | access => exact h.access hs
  | failed hj hpc hpc' => exact bracket_scx l (by rw [hpc']; rfl)
  | committed hj hc =>
      obtain ⟨c, md, rec, -, -, hpc'⟩ := hs.committing hc
      exact bracket_scx l (by rw [hpc']; exact finished_afterScx ..)

/-! ### Whole calls -/

/-- **The bracket of an update is open exactly up to its first SCX**, all accesses up to there are
inside, and a call that returns has made all its accesses inside only if it has made no SCX. -/
theorem update_bracket_iff {s₀ s : State K V} {i e : ℕ} {op : Op K V} (hop : op.IsUpdate)
    (he : Even e)
    (hrun : LogRun cfg i (EpochNote i) (s₀.set s₀.mem i (op.start cfg))
      ⟨.startOp e, 0, false⟩ s l) :
    (l.data.isQuiescent = false ↔ l.scxs = 0) ∧ (l.scxs = 0 → l.outside = false) ∧
      ∀ c, s.pc i = .ret c → (l.outside = false ↔ l.scxs = 0) := by
  have hB : Bracket l (s.pc i) ∧ ((s.pc i).inUpdate ∨ ∃ c, s.pc i = .ret c) := by
    induction hrun with
    | start =>
        rw [State.set_pc_self]
        obtain ⟨c, hc, -⟩ := hop.before cfg
        refine ⟨⟨?_, fun _ => rfl, fun h => absurd rfl h⟩, .inl (.inl (by rw [hc]; exact nofun))⟩
        simp [ThreadData.isQuiescent_startOp he]
    | @step s s' l l' j h hrun hs hn ih =>
        by_cases hj : j = i
        · subst hj
          have hu : (s.pc j).inUpdate :=
            ih.2.resolve_right fun ⟨c, hc⟩ => hrun (by rw [hc]; trivial)
          exact ⟨ih.1.note (hs.callStep hu) hn, (hs.callStep hu).inUpdate hu⟩
        · rw [hs.pc_of_ne (Ne.symm hj)]
          cases hn with
          | other => exact ih
          | access h | committed h | failed h => exact absurd h hj
  obtain ⟨hB, -⟩ := hB
  refine ⟨?_, hB.inside, fun c hret => ⟨fun ho => ?_, hB.inside⟩⟩
  · rw [← not_iff_not, Bool.not_eq_false]
    exact hB.quiescent
  · by_contra hne
    rcases hB.after hne with h | h
    · rw [ho] at h
      exact nomatch h
    · rw [hret] at h
      exact nomatch h

/-- What the schedule of a call adds to its bracket. -/
def epochNote (i : ℕ) (s : State ℕ ℕ) (j : ℕ) (l : EpochLog) : EpochLog :=
  if j = i then if (s.pc i).committing then (l.access (s.pc i)).scx else l.access (s.pc i) else l

theorem epochNote_note {i : ℕ} {s s' : State ℕ ℕ} {j : ℕ} (l : EpochLog) :
    EpochNote i s j s' l (epochNote i s j l) := by
  unfold epochNote
  split_ifs with hj hc
  · exact .committed hj hc
  · exact .access hj (Bool.eq_false_iff.mpr hc)
  · exact .other hj

/-- The first insertion into the empty tree. -/
def firstInsert : State ℕ ℕ :=
  (State.init (natCfg .bat)).set (State.init (natCfg .bat)).mem 0
    ((Op.insert 10 1).start (natCfg .bat))

theorem firstInsert_run (n : ℕ)
    (h : firstInsert.allRun (natCfg .bat) 0 (fun _ _ => true) [.steps 0 n]) :
    LogRun (natCfg .bat) 0 (EpochNote 0) ((State.init (natCfg .bat)).set
      (State.init (natCfg .bat)).mem 0 ((Op.insert 10 1).start (natCfg .bat)))
      ⟨.startOp 2, 0, false⟩
      (firstInsert.run (natCfg .bat) [.steps 0 n])
      (firstInsert.logRun (natCfg .bat) (epochNote 0) [.steps 0 n] ⟨.startOp 2, 0, false⟩) :=
  LogRun.run (epochNote 0) [.steps 0 n] .start (fun _ _ _ l _ => epochNote_note l) h

theorem update_bracket_first :
    (firstInsert.logRun (natCfg .bat) (epochNote 0) [.steps 0 31] ⟨.startOp 2, 0, false⟩).outside =
      true := by
  have hop : (Op.insert 10 1 : Op ℕ ℕ).IsUpdate := trivial
  obtain ⟨c, hret⟩ : ∃ c, (firstInsert.run (natCfg .bat) [.steps 0 31]).pc 0 = .ret c :=
    PC.returned_isSome (by decide +kernel)
  have hB := (update_bracket_iff hop even_two (firstInsert_run 31 (by decide +kernel))).2.2 c hret
  rw [← Bool.not_eq_false, hB]
  decide +kernel

/-- **An insertion that reads a node when it is quiescent**: it has made its SCX and starts to
propagate. -/
theorem update_outside_bracket : ∃ (s : State ℕ ℕ) (l : EpochLog),
    LogRun (natCfg .bat) 0 (EpochNote 0) ((State.init (natCfg .bat)).set
        (State.init (natCfg .bat)).mem 0 ((Op.insert 10 1).start (natCfg .bat)))
        ⟨.startOp 2, 0, false⟩ s l ∧
      (s.pc 0).dereferences = true ∧ l.data.isQuiescent = true :=
  ⟨_, _, firstInsert_run 5 (by decide +kernel), by decide +kernel, by decide +kernel⟩

end Cbat
