/-
**The steps of an update.**

`Cbat.UpdStep` lists what one step of the search or of an attempt can do to the local variables of
the call.  As for `propagate`, the proofs about calls look at these cases and not into `execUpdate`.
`Cbat.CallStep` puts them together with the steps of an SCX and those of `propagate`.

Main definitions:

* `Cbat.PC.search` — the call and the mode of a thread that searches or attempts;
* `Cbat.PC.before` — the same for a thread at any point before its `propagate`;
* `Cbat.PC.propCall` — the call of a thread that is in `propagate` or has returned from it;
* `Cbat.UpdStep` — **the steps of an update that change no memory**;
* `Cbat.CallStep` — **all steps of an update**.

Main results:

* `Cbat.Step.callStep` — a thread in an update makes one of them;
* `Cbat.CallStep.continues` — what stays the same up to `propagate`;
* `Cbat.PropStep.propCall` — `propagate` does not change the call.
-/

import Cbat.Invariant

set_option relaxedAutoImplicit false
set_option autoImplicit false

namespace Cbat

variable {K V : Type}

/-- The call and the mode of a thread that searches or is about to attempt an SCX. -/
def PC.search : PC K V → Option (Call K V × Mode)
  | .searchRoot c md | .searchTop c md _ | .searchFirst c md _ | .searchLoop c md _
  | .searchNext c md _ | .attempt c md _ => some (c, md)
  | _ => none

/-- The outputs of the calls agree, and so do their arguments. -/
structure Call.SameOutputs (c c' : Call K V) : Prop where
  kind : c'.kind = c.kind
  key : c'.key = c.key
  val : c'.val = c.val
  result : c'.result = c.result
  shouldRebalance : c'.shouldRebalance = c.shouldRebalance

theorem Call.SameOutputs.refl (c : Call K V) : c.SameOutputs c := ⟨rfl, rfl, rfl, rfl, rfl⟩

theorem Call.SameOutputs.trans {c c' c'' : Call K V} (h : c.SameOutputs c')
    (h' : c'.SameOutputs c'') : c.SameOutputs c'' :=
  ⟨h'.kind.trans h.kind, h'.key.trans h.key, h'.val.trans h.val, h'.result.trans h.result,
    h'.shouldRebalance.trans h.shouldRebalance⟩

variable [LinearOrder K] {cfg : Cfg K V}

/-- **The steps of an update that change no memory**: the search goes on, it finds the tree empty,
or the attempt returns before its SCX. -/
inductive UpdStep (cfg : Cfg K V) (m : Mem K V) : PC K V → PC K V → Prop
  | move {pc pc' : PC K V} {c c' : Call K V} {md : Mode} (h : pc.search = some (c, md))
      (h' : pc'.search = some (c', md)) (hsame : c.SameOutputs c')
      (htop : ∀ x, pc = .searchTop c .update x → c.kind = .erase → (m.node x).left ≠ 0) :
      UpdStep cfg m pc pc'
  | empty {c : Call K V} {l : ℕ} (hl : (m.node l).left = 0) (hk : c.kind = .erase) :
      UpdStep cfg m (.searchTop c .update l) (finished c .update)
  | balanced {c : Call K V} {l : ℕ} (hl : (m.node l).left = 0) :
      UpdStep cfg m (.searchTop c .rebalance l) (finished c .rebalance)
  | retry {c c' : Call K V} {md : Mode} {cur : Cursor}
      (ha : attempt cfg m c md cur = (c', .error .retry)) :
      UpdStep cfg m (.attempt c md cur) (.searchRoot c' md)
  | finish {c c' : Call K V} {md : Mode} {cur : Cursor}
      (ha : attempt cfg m c md cur = (c', .error .finish)) :
      UpdStep cfg m (.attempt c md cur) (finished c' md)
  | crash {c c' : Call K V} {md : Mode} {cur : Cursor}
      (ha : attempt cfg m c md cur = (c', .error .crash)) : UpdStep cfg m (.attempt c md cur) .crash

omit [LinearOrder K] in
theorem searchBody_sameOutputs (m : Mem K V) (c : Call K V) (cur : Cursor) (md : Mode) :
    c.SameOutputs (searchBody m c cur md) := by
  cases md <;> exact ⟨rfl, rfl, rfl, rfl, rfl⟩

/-! ### The whole update -/

omit [LinearOrder K] in
/-- The call of a thread that is in `propagate` or has returned from it. -/
def PC.propCall : PC K V → Option (Call K V)
  | .propStart c | .ret c => some c
  | .propChild cl | .propTest cl _ | .refresh cl _ _ _ _ | .propMark cl _ _ | .waitDone cl _
  | .waitPtr cl _ | .setDone cl | .retire cl _ => some cl.call
  | _ => none

omit [LinearOrder K] in
/-- The call and the mode of a thread in an update before its `propagate`. -/
def PC.before : PC K V → Option (Call K V × Mode)
  | .swing c md _ => some (c, md)
  | pc => pc.search

omit [LinearOrder K] in
/-- The thread is in an update. -/
def PC.inUpdate (pc : PC K V) : Prop :=
  pc.before ≠ none ∨ pc.propagating = true ∨ pc = .crash

omit [LinearOrder K] in
theorem PC.before_of_search {pc : PC K V} {a : Call K V × Mode} (h : pc.search = some a) :
    pc.before = some a := by
  cases pc <;> first | exact h | cases h

/-- **The steps of an update.** -/
inductive CallStep (cfg : Cfg K V) (m : Mem K V) : PC K V → Mem K V → PC K V → Prop
  | upd {pc pc' : PC K V} (h : UpdStep cfg m pc pc') : CallStep cfg m pc m pc'
  | abort {c c' : Call K V} {md : Mode} {cur : Cursor} (hc : c' ∈ abortCalls cfg m c md cur) :
      CallStep cfg m (.attempt c md cur) m (.searchRoot c' md)
  | freeze {c c' : Call K V} {md : Mode} {cur : Cursor} {rec : ScxRecord K V}
      (ha : attempt cfg m c md cur = (c', .ok rec)) :
      CallStep cfg m (.attempt c md cur) (m.freeze rec) (.swing c' md rec)
  | swing {c : Call K V} {md : Mode} {rec : ScxRecord K V} :
      CallStep cfg m (.swing c md rec) (m.swing rec) (finished c md)
  | prop {pc pc' : PC K V} {m' : Mem K V} (h : PropStep cfg m pc m' pc') : CallStep cfg m pc m' pc'
  | crash : CallStep cfg m .crash m .crash

/-- **A step of a search or of an attempt is one of these.** -/
theorem updStep (cfg : Cfg K V) (m : Mem K V) {pc : PC K V} (h : pc.search ≠ none) :
    CallStep cfg m pc (exec cfg m pc).1 (exec cfg m pc).2 := by
  cases pc with
  | searchRoot c md =>
      cases md <;> exact .upd (.move rfl rfl ⟨rfl, rfl, rfl, rfl, rfl⟩ (by intro _ h; cases h))
  | searchTop c md l =>
      simp only [exec, execUpdate]
      split_ifs with hl
      · cases md with
        | rebalance => exact .upd (.balanced hl)
        | update =>
            cases hk : c.kind with
            | erase => exact .upd (.empty hl hk)
            | insert | insertIfAbsent =>
                refine .upd (.move rfl rfl (.refl c) fun _ _ he => ?_)
                rw [hk] at he
                cases he
      · refine .upd (.move rfl rfl (.refl c) fun x hx _ => ?_)
        cases hx
        exact hl
  | searchFirst c md p => exact .upd (.move rfl rfl (.refl c) (by intro _ h; cases h))
  | searchLoop c md cur =>
      simp only [exec, execUpdate]
      split_ifs
      · exact .upd (.move rfl rfl (searchBody_sameOutputs m c cur md) (by intro _ h; cases h))
      · exact .upd (.move rfl rfl (.refl c) (by intro _ h; cases h))
  | searchNext c md cur => exact .upd (.move rfl rfl (.refl c) (by intro _ h; cases h))
  | attempt c md cur =>
      simp only [exec, execUpdate]
      rcases ha : attempt cfg m c md cur with ⟨c', e | rec⟩
      · cases e with
        | retry => exact .upd (.retry ha)
        | finish => exact .upd (.finish ha)
        | crash => exact .upd (.crash ha)
      · exact .freeze ha
  | _ => exact absurd rfl h

omit [LinearOrder K] in
theorem PC.inUpdate.not_resting {pc : PC K V} (h : pc.inUpdate) : ¬ pc.Resting := by
  intro hr
  cases pc <;> first | exact hr | exact h.elim (absurd rfl) (Or.elim · nofun nofun)

/-- **A step of a thread that is in an update.** -/
theorem Step.callStep {s s' : State K V} {i : ℕ} (h : Step cfg s i s') (hu : (s.pc i).inUpdate) :
    CallStep cfg s.mem (s.pc i) s'.mem (s'.pc i) := by
  cases h with
  | invoke op hrest hkey => exact absurd hrest hu.not_resting
  | abort hpc hc =>
      rw [State.set_mem, State.set_pc_self, hpc]
      exact .abort hc
  | exec =>
      rw [State.set_mem, State.set_pc_self]
      generalize s.pc i = pc at hu
      by_cases hs : pc.search = none
      · rcases hu with hb | hp | rfl
        · cases pc <;> first | exact .swing | exact absurd hs hb
        · exact .prop (exec_propagating cfg s.mem hp)
        · exact .crash
      · exact updStep cfg s.mem hs

omit [LinearOrder K] in
/-- After an attempt the call rebalances or propagates. -/
theorem finished_cases (c : Call K V) (md : Mode) :
    (finished c md).before = some (c, .rebalance) ∨ finished c md = .propStart c := by
  cases md with
  | rebalance => exact .inr rfl
  | update =>
      unfold finished
      split_ifs
      · exact .inl rfl
      · exact .inr rfl

omit [LinearOrder K] in
/-- Where a call before its `propagate` may be after a step: it keeps its arguments, and once it has
turned to rebalancing it does not search again. -/
inductive Continues (c : Call K V) (md : Mode) (pc : PC K V) : Prop
  | before {c' : Call K V} {md' : Mode} (h : pc.before = some (c', md')) (kind : c'.kind = c.kind)
      (key : c'.key = c.key) (mode : md = .rebalance → md' = .rebalance) : Continues c md pc
  | propagate {c' : Call K V} (h : pc = .propStart c') (kind : c'.kind = c.kind)
      (key : c'.key = c.key) : Continues c md pc
  | crash (h : pc = .crash) : Continues c md pc

omit [LinearOrder K] in
theorem Continues.finished {c c' : Call K V} {md md' : Mode} (kind : c'.kind = c.kind)
    (key : c'.key = c.key) : Continues c md (finished c' md') := by
  rcases finished_cases c' md' with h | h
  · exact .before h kind key fun _ => rfl
  · exact .propagate h kind key

/-- **Where a step leads a call before its `propagate`.** -/
theorem CallStep.continues {m m' : Mem K V} {pc pc' : PC K V} {c : Call K V} {md : Mode}
    (h : CallStep cfg m pc m' pc') (hb : pc.before = some (c, md)) : Continues c md pc' := by
  cases h with
  | upd h =>
      cases h with
      | move h h' hsame =>
          have hc : (c, md) = _ := Option.some.inj (hb.symm.trans (PC.before_of_search h))
          cases hc
          exact .before (PC.before_of_search h') hsame.kind hsame.key id
      | empty | balanced => cases hb; exact .finished rfl rfl
      | @retry c₁ c' md₁ cur ha =>
          have hs := attempt_same cfg m c₁ md₁ cur
          rw [ha] at hs
          cases hb
          exact .before rfl hs.kind hs.key id
      | @finish c₁ c' md₁ cur ha =>
          have hs := attempt_same cfg m c₁ md₁ cur
          rw [ha] at hs
          cases hb
          exact .finished hs.kind hs.key
      | crash => exact .crash rfl
  | abort hc =>
      have hs := abortCalls_same hc
      cases hb
      exact .before rfl hs.kind hs.key id
  | @freeze c₁ c' md₁ cur rec ha =>
      have hs := attempt_same cfg m c₁ md₁ cur
      rw [ha] at hs
      cases hb
      exact .before rfl hs.kind hs.key id
  | swing => cases hb; exact .finished rfl rfl
  | prop h => cases h <;> cases hb
  | crash => exact .crash rfl

/-- A thread that has crashed stays there. -/
theorem CallStep.of_crash {m m' : Mem K V} {pc' : PC K V} (h : CallStep cfg m .crash m' pc') :
    pc' = .crash := by
  cases h with
  | upd h => cases h with | move h => cases h
  | prop h => cases h
  | crash => rfl

omit [LinearOrder K] in
/-- The call is an update. -/
def Op.IsUpdate : Op K V → Prop
  | insert _ _ | insertIfAbsent _ _ | erase _ => True
  | find _ | contains _ => False

omit [LinearOrder K] in
theorem Op.IsUpdate.before {op : Op K V} (h : op.IsUpdate) (cfg : Cfg K V) :
    ∃ c, (op.start cfg).before = some (c, .update) ∧ c.key = op.key := by
  cases op <;> first | exact ⟨_, rfl, rfl⟩ | exact h.elim

omit [LinearOrder K] in
theorem inserted_propCall (cfg : Cfg K V) (cl : Climb K V) (r : ℕ) :
    (inserted cfg cl r).propCall = some cl.call := by
  unfold inserted
  simp only
  split_ifs <;> rfl

omit [LinearOrder K] in
theorem refreshed_propCall (cfg : Cfg K V) (cl : Climb K V) (r : ℕ) (again ok : Bool) (curps : ℕ) :
    (refreshed cfg cl r again ok curps).propCall = some cl.call := by
  unfold refreshed
  cases cfg.variant <;> simp only <;> split_ifs <;>
    first | rfl | exact inserted_propCall ..

/-- **`propagate` does not change the call.** -/
theorem PropStep.propCall {m m' : Mem K V} {pc pc' : PC K V} (h : PropStep cfg m pc m' pc') :
    pc' = .crash ∨ pc'.propCall = pc.propCall := by
  cases h with
  | emptyChild | emptyPop => exact .inl rfl
  | returned h => exact .inr (refreshed_propCall ..)
  | marked h => exact .inr (inserted_propCall ..)
  | delegate h =>
      refine .inr ?_
      split_ifs <;> rfl
  | _ => exact .inr rfl

omit [LinearOrder K] in
theorem PC.search_of_propagating {pc : PC K V} (h : pc.propagating = true) : pc.search = none := by
  cases pc <;> first | rfl | cases h

theorem CallStep.propStep {m m' : Mem K V} {pc pc' : PC K V} (h : CallStep cfg m pc m' pc')
    (hp : pc.propagating = true) : PropStep cfg m pc m' pc' := by
  cases h with
  | prop h => exact h
  | upd h =>
      cases h with
      | move h => exact nomatch h.symm.trans (PC.search_of_propagating hp)
      | _ => cases hp
  | _ => cases hp

omit [LinearOrder K] in
theorem PC.inUpdate_of_propCall {pc : PC K V} {c : Call K V} (h : pc.propCall = some c) :
    pc.inUpdate ∨ ∃ c, pc = .ret c := by
  cases pc <;> first | exact .inl (.inr (.inl rfl)) | exact .inr ⟨_, rfl⟩ | cases h

omit [LinearOrder K] in
theorem PC.propCall_of_propagating {pc : PC K V} (h : pc.propagating = true) :
    ∃ c, pc.propCall = some c := by
  cases pc <;> first | exact ⟨_, rfl⟩ | cases h

/-- The second step of an SCX. -/
theorem CallStep.committing {m m' : Mem K V} {pc pc' : PC K V} (h : CallStep cfg m pc m' pc')
    (hc : pc.committing = true) :
    ∃ c md rec, pc = .swing c md rec ∧ m' = m.swing rec ∧ pc' = finished c md := by
  cases h with
  | swing => exact ⟨_, _, _, rfl, rfl, rfl⟩
  | upd h =>
      cases h with
      | move h => cases pc <;> first | cases h; done | cases hc
      | _ => cases hc
  | prop h => cases h <;> cases hc
  | _ => cases hc

/-- **A thread in an update stays there until it returns.** -/
theorem CallStep.inUpdate {m m' : Mem K V} {pc pc' : PC K V} (h : CallStep cfg m pc m' pc')
    (hu : pc.inUpdate) : pc'.inUpdate ∨ ∃ c, pc' = .ret c := by
  rcases hu with hb | hp | rfl
  · obtain ⟨⟨c, md⟩, hb⟩ := Option.ne_none_iff_exists'.mp hb
    cases h.continues hb with
    | before h => exact .inl (.inl (by rw [h]; exact nofun))
    | propagate h => exact .inl (.inr (.inl (by rw [h]; rfl)))
    | crash h => exact .inl (.inr (.inr h))
  · obtain ⟨c, hc⟩ := PC.propCall_of_propagating hp
    rcases (h.propStep hp).propCall with h | h
    · exact .inl (.inr (.inr h))
    · exact PC.inUpdate_of_propCall (h.trans hc)
  · exact .inl (.inr (.inr h.of_crash))

/-! ### After the attempts -/

omit [LinearOrder K] in
/-- The call of a thread whose attempts are over. -/
def PC.reported (pc : PC K V) : Option (Call K V) :=
  match pc.before with
  | some (c, .rebalance) => some c
  | some (_, .update) => none
  | none => pc.propCall

omit [LinearOrder K] in
theorem finished_reported (c : Call K V) (md : Mode) : (finished c md).reported = some c := by
  rcases finished_cases c md with h | h
  · simp only [PC.reported, h]
  · rw [h]
    rfl

omit [LinearOrder K] in
theorem PC.reported_of_search {pc : PC K V} {c c' : Call K V} {md : Mode}
    (h : pc.search = some (c, md)) (hr : pc.reported = some c') : md = .rebalance ∧ c' = c := by
  simp only [PC.reported, PC.before_of_search h] at hr
  cases md with
  | update => cases hr
  | rebalance => exact ⟨rfl, (Option.some.inj hr).symm⟩

omit [LinearOrder K] in
theorem PC.reported_of_propCall {pc : PC K V} {c : Call K V} (h : pc.propCall = some c) :
    pc.reported = some c := by
  cases pc <;> first | exact h | cases h

omit [LinearOrder K] in
theorem PC.inUpdate_of_reported {pc : PC K V} {c : Call K V} (h : pc.reported = some c)
    (hr : ¬ pc.Resting) : pc.inUpdate := by
  cases hb : pc.before with
  | some a => exact .inl (by rw [hb]; exact nofun)
  | none =>
      simp only [PC.reported, hb] at h
      cases pc <;> first | exact .inr (.inl rfl) | exact absurd trivial hr | cases h

section Reported

variable {m m' : Mem K V} {pc pc' : PC K V} {c c' : Call K V} {cur : Cursor}

/-- A rebalancing step does not write to the outputs. -/
theorem attempt_rebalance {r : Except Stop (ScxRecord K V)}
    (h : attempt cfg m c .rebalance cur = (c', r)) : c' = c :=
  (congrArg Prod.fst h).symm

/-- **Once its attempts are over** a call does not change its outputs. -/
theorem CallStep.reported (h : CallStep cfg m pc m' pc') (hr : pc.reported = some c) :
    pc' = .crash ∨ ∃ c', pc'.reported = some c' ∧ c.SameOutputs c' := by
  cases h with
  | upd h =>
      cases h with
      | move h h' hsame htop =>
          obtain ⟨rfl, rfl⟩ := PC.reported_of_search h hr
          refine .inr ⟨_, ?_, hsame⟩
          simp only [PC.reported, PC.before_of_search h']
      | empty => cases hr
      | balanced =>
          cases hr
          exact .inr ⟨_, finished_reported .., .refl _⟩
      | retry ha =>
          obtain ⟨rfl, rfl⟩ := PC.reported_of_search rfl hr
          obtain rfl := attempt_rebalance ha
          exact .inr ⟨_, rfl, .refl _⟩
      | finish ha =>
          obtain ⟨rfl, rfl⟩ := PC.reported_of_search rfl hr
          obtain rfl := attempt_rebalance ha
          exact .inr ⟨_, rfl, .refl _⟩
      | crash => exact .inl rfl
  | abort hc =>
      obtain ⟨rfl, rfl⟩ := PC.reported_of_search rfl hr
      obtain rfl : _ = c := by simpa [abortCalls] using hc
      exact .inr ⟨_, rfl, .refl _⟩
  | freeze ha =>
      obtain ⟨rfl, rfl⟩ := PC.reported_of_search rfl hr
      obtain rfl := attempt_rebalance ha
      exact .inr ⟨_, rfl, .refl _⟩
  | @swing c₁ md rec =>
      cases md with
      | update => cases hr
      | rebalance =>
          cases hr
          exact .inr ⟨_, rfl, .refl _⟩
  | prop h =>
      have hp : pc.propCall = some c := by cases h <;> exact hr
      exact h.propCall.imp_right fun he => ⟨c, PC.reported_of_propCall (he.trans hp), .refl c⟩
  | crash => exact .inl rfl

end Reported

end Cbat
