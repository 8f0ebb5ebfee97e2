/-
**The steps of a refresh and of `propagate`, once and for all.**

`Cbat.FrameStep` lists what one access of `refresh` or `refreshUntilConsistentChildren` can do, and
`Cbat.PropStep` what one step of `propagate` can do.  The proofs about the machine look at these
cases and not into the definitions of `stepFrame` and `execPropagate`.

Main definitions:

* `Cbat.Mem.install` — a version stored at the next version address;
* `Cbat.FrameStep` — **the accesses of a refresh**;
* `Cbat.PropStep` — **the steps of `propagate`**.

Main results:

* `Cbat.frameStep`, `Cbat.propStep` — `stepFrame` and `execPropagate` make one of them.
-/

import Cbat.Machine

set_option relaxedAutoImplicit false
set_option autoImplicit false

namespace Cbat

variable {K V : Type}

/-- Store a version that was just allocated. -/
def Mem.install (m : Mem K V) (x : ℕ) (v : Ver K) : Mem K V :=
  { m.setVersion x v with nextVer := m.nextVer + 1 }

section Install

variable (m : Mem K V) (x : ℕ) (v : Ver K)

theorem install_node (y : ℕ) : (m.install x v).node y =
    if y = x then { m.node x with version := v } else m.node y := by
  simp only [Mem.install, Mem.setVersion, Mem.setNode, Function.update_apply]

@[simp] theorem install_next : (m.install x v).next = m.next := rfl
@[simp] theorem install_nextVer : (m.install x v).nextVer = m.nextVer + 1 := rfl
@[simp] theorem install_status : (m.install x v).status = m.status := rfl
@[simp] theorem install_nextStatus : (m.install x v).nextStatus = m.nextStatus := rfl

@[simp] theorem install_version_self : ((m.install x v).node x).version = v := by
  rw [install_node, if_pos rfl]

theorem install_version_of_ne {y : ℕ} (h : y ≠ x) :
    ((m.install x v).node y).version = (m.node y).version := by
  rw [install_node, if_neg h]

end Install

/-! ### The accesses of a refresh -/

section Refresh

variable [DecidableEq K]

/-- **The accesses of a refresh**: the memory, the versions to retire and what the call leads to. -/
inductive FrameStep (var : Variant) (m : Mem K V) (ps : ℕ) (f : Frame K)
    (callers : List (Frame K)) : Mem K V → List (Ver K) → FrameResult K → Prop
  | callOld (hp : f.pos = .getOld) (hn : (m.node f.x).version = .nil) :
      FrameStep var m ps f callers m []
        (.run (.start var f.x false) ({ f with pos := .reloadOld } :: callers))
  | oldThere (hp : f.pos = .getOld) (hn : (m.node f.x).version ≠ .nil) :
      FrameStep var m ps f callers m [] (.run { f with pos := .reloadOld } callers)
  | old (hp : f.pos = .reloadOld ∨ f.pos = .loadOld)
      (hvar : f.pos = .loadOld → var ≠ .bat → f.main = false → (m.node f.x).version = .nil) :
      FrameStep var m ps f callers m []
        (.run { f with oldVer := (m.node f.x).version, pos := .leafTest } callers)
  | skip (hp : f.pos = .loadOld) (hvar : var ≠ .bat) (hm : f.main = false)
      (hn : (m.node f.x).version ≠ .nil) :
      FrameStep var m ps f callers m [] (.pop callers true 0)
  | leafWrite (hp : f.pos = .leafTest) (hl : (m.node f.x).left = 0) (hvar : var = .eagerDel) :
      FrameStep var m ps f callers
        (m.install f.x (.mk m.nextVer (m.node f.x).key 1 .nil .nil (if f.main then ps else 0)))
        [] (.pop callers true (if f.main then ps else 0))
  | leaf (hp : f.pos = .leafTest) (hl : (m.node f.x).left = 0) (hvar : var ≠ .eagerDel) :
      FrameStep var m ps f callers m [] (.pop callers true (if f.main then ps else 0))
  | inner (hp : f.pos = .leafTest) (hl : (m.node f.x).left ≠ 0) :
      FrameStep var m ps f callers m [] (.run { f with pos := .loadLeft } callers)
  | left (hp : f.pos = .loadLeft) :
      FrameStep var m ps f callers m []
        (.run { f with left1 := (m.node f.x).left, pos := .loadLeftVer } callers)
  | callLeft (hp : f.pos = .loadLeftVer) (hn : (m.node f.left1).version = .nil) :
      FrameStep var m ps f callers m []
        (.run (.start var f.left1 false) ({ f with pos := .reloadLeftVer } :: callers))
  | leftThere (hp : f.pos = .loadLeftVer) (hn : (m.node f.left1).version ≠ .nil)
      (hvar : var ≠ .bat) :
      FrameStep var m ps f callers m [] (.run { f with pos := .reloadLeftVer } callers)
  | leftVer (hp : f.pos = .loadLeftVer ∧ var = .bat ∧ (m.node f.left1).version ≠ .nil ∨
        f.pos = .reloadLeftVer) :
      FrameStep var m ps f callers m []
        (.run { f with leftver := (m.node f.left1).version, pos := .testLeft } callers)
  | leftSame (hp : f.pos = .testLeft) (h : f.left1 = (m.node f.x).left) :
      FrameStep var m ps f callers m [] (.run { f with pos := .loadRight } callers)
  | leftMoved (hp : f.pos = .testLeft) (h : f.left1 ≠ (m.node f.x).left) :
      FrameStep var m ps f callers m [] (.run { f with pos := .loadLeft } callers)
  | noRight (hp : f.pos = .loadRight) (h : (m.node f.x).right = 0) :
      FrameStep var m ps f callers m []
        (.run { f with right1 := 0, rightver := .nil, pos := .testRight } callers)
  | right (hp : f.pos = .loadRight) (h : (m.node f.x).right ≠ 0) :
      FrameStep var m ps f callers m []
        (.run { f with right1 := (m.node f.x).right, pos := .loadRightVer } callers)
  | callRight (hp : f.pos = .loadRightVer) (hn : (m.node f.right1).version = .nil) :
      FrameStep var m ps f callers m []
        (.run (.start var f.right1 false) ({ f with pos := .reloadRightVer } :: callers))
  | rightThere (hp : f.pos = .loadRightVer) (hn : (m.node f.right1).version ≠ .nil)
      (hvar : var ≠ .bat) :
      FrameStep var m ps f callers m [] (.run { f with pos := .reloadRightVer } callers)
  | rightVer (hp : f.pos = .loadRightVer ∧ var = .bat ∧ (m.node f.right1).version ≠ .nil ∨
        f.pos = .reloadRightVer) :
      FrameStep var m ps f callers m []
        (.run { f with rightver := (m.node f.right1).version, pos := .testRight } callers)
  | unchanged (hp : f.pos = .testRight) (h : f.right1 = (m.node f.x).right)
      (hprev : f.prev = some (f.leftver, f.rightver)) :
      FrameStep var m ps f callers m [] (.pop callers true ps)
  | rightSame (hp : f.pos = .testRight) (h : f.right1 = (m.node f.x).right)
      (hprev : f.prev ≠ some (f.leftver, f.rightver)) :
      FrameStep var m ps f callers m [] (.run { f with pos := .cas } callers)
  | rightMoved (hp : f.pos = .testRight) (h : f.right1 ≠ (m.node f.x).right) :
      FrameStep var m ps f callers m [] (.run { f with pos := .loadRight } callers)
  | casOk (hp : f.pos = .cas) (h : (m.node f.x).version = f.oldVer)
      (hvar : ¬ (var = .eagerDel ∧ f.main = true)) :
      FrameStep var m ps f callers (m.install f.x (f.newVer m ps))
        (if f.oldVer.isNil then [] else [f.oldVer])
        (.pop callers true (if f.main then ps else 0))
  | casAgain (hp : f.pos = .cas) (h : (m.node f.x).version = f.oldVer) (hvar : var = .eagerDel)
      (hm : f.main = true) :
      FrameStep var m ps f callers (m.install f.x (f.newVer m ps))
        (if f.oldVer.isNil then [] else [f.oldVer])
        (.run { f with
          oldVer := f.newVer m ps
          prev := some (f.leftver, f.rightver)
          pos := .loadLeft } callers)
  | casFail (hp : f.pos = .cas) (h : (m.node f.x).version ≠ f.oldVer) :
      FrameStep var m ps f callers m []
        (.pop callers false (m.node f.x).version.status)

omit [DecidableEq K] in
/-- **A CAS that succeeds.** -/
theorem FrameStep.swaps {var : Variant} {m : Mem K V} {ps : ℕ} {f : Frame K}
    {callers : List (Frame K)} {m' : Mem K V} {vs : List (Ver K)} {res : FrameResult K}
    (h : FrameStep var m ps f callers m' vs res) (hpos : f.pos = .cas)
    (hv : (m.node f.x).version = f.oldVer) : m' = m.install f.x (f.newVer m ps) ∧
      if var = .eagerDel ∧ f.main = true then
        res = .run { f with
          oldVer := f.newVer m ps
          prev := some (f.leftver, f.rightver)
          pos := .loadLeft } callers
      else res = .pop callers true (if f.main then ps else 0) := by
  cases h with
  | casOk hp he hvar => exact ⟨rfl, by rw [if_neg hvar]⟩
  | casAgain hp he hvar hm => exact ⟨rfl, by rw [if_pos ⟨hvar, hm⟩]⟩
  | casFail hp he => exact absurd hv he
  | _ => simp_all

omit [DecidableEq K] in
theorem isNil_iff {v : Ver K} : v.isNil = true ↔ v = .nil := by
  cases v <;> simp [Ver.isNil]

/-- **`stepFrame` makes one of these accesses.** -/
theorem frameStep (var : Variant) (m : Mem K V) (ps : ℕ) (f : Frame K)
    (callers : List (Frame K)) :
    FrameStep var m ps f callers (stepFrame var m ps f callers).1
      (stepFrame var m ps f callers).2.1 (stepFrame var m ps f callers).2.2 := by
  unfold stepFrame
  cases hp : f.pos with
  | getOld =>
      simp only
      split_ifs with hn
      · exact .callOld hp (isNil_iff.mp hn)
      · exact .oldThere hp fun h => hn (isNil_iff.mpr h)
  | reloadOld => exact .old (.inl hp) fun h => by rw [hp] at h; exact nomatch h
  | loadOld =>
      simp only
      split_ifs with h
      · exact .skip hp h.1 (by simpa using h.2.1) fun hn => by simp [hn, Ver.isNil] at h
      · refine .old (.inr hp) fun _ hvar hm => ?_
        by_contra hn
        refine h ⟨hvar, by simpa using hm, ?_⟩
        rw [Bool.not_eq_true', Bool.eq_false_iff]
        exact fun h => hn (isNil_iff.mp h)
  | leafTest =>
      simp only
      by_cases hl : (m.node f.x).left = 0
      · rw [if_pos hl]
        by_cases hvar : var = .eagerDel
        · rw [if_pos hvar]; exact .leafWrite hp hl hvar
        · rw [if_neg hvar]; exact .leaf hp hl hvar
      · rw [if_neg hl]; exact .inner hp hl
  | loadLeft => exact .left hp
  | loadLeftVer =>
      simp only
      split_ifs with hn hvar
      · exact .callLeft hp (isNil_iff.mp hn)
      · exact .leftVer (.inl ⟨hp, hvar, fun h => hn (isNil_iff.mpr h)⟩)
      · exact .leftThere hp (fun h => hn (isNil_iff.mpr h)) hvar
  | reloadLeftVer => exact .leftVer (.inr hp)
  | testLeft =>
      simp only
      split_ifs with h
      · exact .leftSame hp h
      · exact .leftMoved hp h
  | loadRight =>
      simp only
      split_ifs with h
      · exact .noRight hp h
      · exact .right hp h
  | loadRightVer =>
      simp only
      split_ifs with hn hvar
      · exact .callRight hp (isNil_iff.mp hn)
      · exact .rightVer (.inl ⟨hp, hvar, fun h => hn (isNil_iff.mpr h)⟩)
      · exact .rightThere hp (fun h => hn (isNil_iff.mpr h)) hvar
  | reloadRightVer => exact .rightVer (.inr hp)
  | testRight =>
      simp only
      split_ifs with h hprev
      · exact .unchanged hp h hprev
      · exact .rightSame hp h hprev
      · exact .rightMoved hp h
  | cas =>
      simp only [stepCas]
      by_cases h : (m.node f.x).version = f.oldVer
      · rw [if_pos h]
        by_cases hvar : var = .eagerDel ∧ f.main = true
        · rw [if_pos hvar]; exact .casAgain hp h hvar.1 hvar.2
        · rw [if_neg hvar]; exact .casOk hp h hvar
      · rw [if_neg h]; exact .casFail hp h

end Refresh

/-! ### The steps of `propagate` -/

section Propagate

/-- The thread is in `propagate`. -/
def PC.propagating : PC K V → Bool
  | .propStart _ | .propChild _ | .propTest _ _ | .refresh _ _ _ _ _ | .propMark _ _ _
  | .waitDone _ _ | .waitPtr _ _ | .setDone _ | .retire _ _ => true
  | _ => false

variable [LinearOrder K]

/-- **What one step of `propagate` can do.** -/
inductive PropStep (cfg : Cfg K V) (m : Mem K V) : PC K V → Mem K V → PC K V → Prop
  | startBat (c : Call K V) (hv : cfg.variant = .bat) :
      PropStep cfg m (.propStart c) m (.propChild ⟨c, c.stack, [], [], 0⟩)
  | start (c : Call K V) (hv : cfg.variant ≠ .bat) :
      PropStep cfg m (.propStart c)
        { m with
          status := Function.update m.status m.nextStatus ⟨0, false⟩
          nextStatus := m.nextStatus + 1 }
        (.propChild ⟨c, c.stack, [], [], m.nextStatus⟩)
  | emptyChild {cl : Climb K V} (hst : cl.stack = []) : PropStep cfg m (.propChild cl) m .crash
  | child {cl : Climb K V} {t : ℕ} {st : List ℕ} (hst : cl.stack = t :: st) :
      PropStep cfg m (.propChild cl) m (.propTest cl (child cfg m cl.call.key t))
  | push {cl : Climb K V} {c : ℕ} (h0 : c ≠ 0) (hl : (m.node c).left ≠ 0) (hc : c ∉ cl.set) :
      PropStep cfg m (.propTest cl c) m (.propChild { cl with stack := c :: cl.stack })
  | emptyPop {cl : Climb K V} {c : ℕ} (hst : cl.stack = []) :
      PropStep cfg m (.propTest cl c) m .crash
  | pop {cl : Climb K V} {c r : ℕ} {st : List ℕ} (hst : cl.stack = r :: st)
      (hc : c = 0 ∨ (m.node c).left = 0 ∨ c ∈ cl.set) :
      PropStep cfg m (.propTest cl c) m
        (.refresh { cl with stack := st } r false (.start cfg.variant r true) [])
  | run {cl : Climb K V} {r : ℕ} {again : Bool} {f : Frame K} {cs : List (Frame K)} {m' : Mem K V}
      {vs : List (Ver K)} {f' : Frame K} {cs' : List (Frame K)}
      (h : FrameStep cfg.variant m cl.ps f cs m' vs (.run f' cs')) :
      PropStep cfg m (.refresh cl r again f cs) m'
        (.refresh { cl with toRetire := cl.toRetire ++ vs } r again f' cs')
  | returned {cl : Climb K V} {r : ℕ} {again : Bool} {f : Frame K} {cs : List (Frame K)}
      {m' : Mem K V} {vs : List (Ver K)} {ok : Bool} {curps : ℕ}
      (h : FrameStep cfg.variant m cl.ps f cs m' vs (.ret ok curps)) :
      PropStep cfg m (.refresh cl r again f cs) m'
        (refreshed cfg { cl with toRetire := cl.toRetire ++ vs } r again ok curps)
  | marked {cl : Climb K V} {r curps : ℕ} (h : (m.node r).marked = true) :
      PropStep cfg m (.propMark cl r curps) m (inserted cfg cl r)
  | delegate {cl : Climb K V} {r curps : ℕ} (h : (m.node r).marked = false) :
      PropStep cfg m (.propMark cl r curps)
        { m with
          status := Function.update m.status cl.ps { m.status cl.ps with delegatee := curps } }
        (if curps = 0 then .setDone cl else .waitDone cl curps)
  | seen {cl : Climb K V} {d : ℕ} (h : (m.status d).done = true) :
      PropStep cfg m (.waitDone cl d) m (.setDone cl)
  | wait {cl : Climb K V} {d : ℕ} (h : (m.status d).done = false) :
      PropStep cfg m (.waitDone cl d) m (.waitPtr cl d)
  | follow {cl : Climb K V} {d : ℕ} :
      PropStep cfg m (.waitPtr cl d) m
        (.waitDone cl (if (m.status d).delegatee ≠ 0 then (m.status d).delegatee else d))
  | setDone {cl : Climb K V} :
      PropStep cfg m (.setDone cl)
        { m with status := Function.update m.status cl.ps { m.status cl.ps with done := true } }
        (.retire cl cl.toRetire)
  | retire {cl : Climb K V} {v : Ver K} {vs : List (Ver K)} :
      PropStep cfg m (.retire cl (v :: vs)) m (.retire cl vs)
  | ret {cl : Climb K V} : PropStep cfg m (.retire cl []) m (.ret cl.call)

/-- A step of `propagate` is one of these. -/
theorem propStep (cfg : Cfg K V) (m : Mem K V) {pc : PC K V} (h : pc.propagating = true) :
    PropStep cfg m pc (execPropagate cfg m pc).1 (execPropagate cfg m pc).2 := by
  cases pc with
  | propStart c =>
      simp only [execPropagate]
      split_ifs with hv
      · exact .startBat c hv
      · exact .start c hv
  | propChild cl =>
      simp only [execPropagate]
      cases hst : cl.stack with
      | nil => exact .emptyChild hst
      | cons t st => exact .child hst
  | propTest cl c =>
      simp only [execPropagate]
      split_ifs with hc
      · exact .push hc.1 hc.2.1 hc.2.2
      · cases hst : cl.stack with
        | nil => exact .emptyPop hst
        | cons r st => exact .pop hst (by simpa only [not_and_or, not_not] using hc)
  | refresh cl r again f cs =>
      have hs := frameStep cfg.variant m cl.ps f cs
      simp only [execPropagate]
      revert hs
      rcases stepFrame cfg.variant m cl.ps f cs with ⟨m', vs, ⟨f', cs'⟩ | ⟨ok, curps⟩⟩ <;> intro hs
      · exact .run hs
      · exact .returned hs
  | propMark cl r curps =>
      simp only [execPropagate]
      by_cases hm : (m.node r).marked = true
      · rw [if_pos hm]
        exact .marked hm
      · rw [if_neg hm]
        exact .delegate (Bool.eq_false_iff.mpr hm)
  | waitDone cl d =>
      simp only [execPropagate]
      split_ifs with hd
      · exact .seen hd
      · exact .wait (Bool.eq_false_iff.mpr hd)
  | waitPtr cl d => exact .follow
  | setDone cl => exact .setDone
  | retire cl vs =>
      cases vs with
      | nil => exact .ret
      | cons v vs => exact .retire
  | _ => cases h

end Propagate

end Cbat
