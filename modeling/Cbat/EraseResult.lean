/-
**What `erase` reports.**

`updateErase` writes the value of the leaf to its output before the SCX, and the output outlives the
attempt.  An attempt that does not find the key resets the output, but one that finds the tree empty
returns without writing it.  So `erase` may report the value of a leaf that it has seen and that
another thread has removed.  Apart from that, and from leaves that hold `NO_VALUE`, it reports
success exactly when one of its own SCXs has committed.

Main definitions:

* `Cbat.Call.erased` — the pair that `erase` returns;
* `Cbat.EraseLog` — what the call has done so far, and the pair that it should return.

Main results:

* `Cbat.erase_answer_iff` — **the answer is right unless it is stale or the value is `NO_VALUE`**;
* `Cbat.erase_stale_answer` — a run in which it is stale.
-/

import Cbat.Calls
import Cbat.Runs

set_option relaxedAutoImplicit false
set_option autoImplicit false

namespace Cbat

variable {K V : Type}

/-- What a call of `erase` has done so far. -/
structure EraseLog (V : Type) where
  /-- the value of the leaf that its own SCX has removed -/
  removed : Option V
  /-- it has found the tree empty with the output of an earlier attempt -/
  stale : Bool

/-- The pair that the call should return. -/
def EraseLog.answer (cfg : Cfg K V) (l : EraseLog V) : V × Bool :=
  match l.removed with
  | some v => (v, true)
  | none => (cfg.noValue, false)

section Answers

variable [DecidableEq V] (cfg : Cfg K V)

/-- What a step of the call adds to its log. -/
def EraseLog.note (m : Mem K V) (l : EraseLog V) : PC K V → EraseLog V
  | .swing _ .update rec =>
      if rec.type = .del then { l with removed := some (m.node (rec.nth 3)).value } else l
  | .searchTop c .update x =>
      if c.kind = .erase ∧ (m.node x).left = 0 ∧ c.result ≠ cfg.noValue then
        { l with stale := true }
      else l
  | _ => l

/-- The output agrees with the log: the call has removed a leaf with this value, or it has not and
the output says so, or it is stale. -/
def Told (c : Call K V) (l : EraseLog V) : Prop :=
  (l.removed = some c.result ∧ l.stale = false) ∨
    (l.removed = none ∧ (l.stale = false ↔ c.result = cfg.noValue))

variable {cfg}

theorem note_reported {m : Mem K V} {l : EraseLog V} {pc : PC K V} {c : Call K V}
    (h : pc.reported = some c) : l.note cfg m pc = l := by
  cases pc with
  | searchTop c md x =>
      cases md with
      | update => cases h
      | rebalance => rfl
  | swing c md rec =>
      cases md with
      | update => cases h
      | rebalance => rfl
  | _ => rfl

end Answers

section Steps

variable [LinearOrder K] {cfg : Cfg K V} {m m' : Mem K V} {pc pc' : PC K V} {c c' : Call K V}
  {cur : Cursor} {rec : ScxRecord K V}

omit [LinearOrder K] in
/-- LLX and the check of a child make an attempt fail, they do not finish it. -/
theorem llx_finish {α : Type} {x : ℕ} {f : Unit → Except Stop α}
    (h : (llx m x >>= f) = .error .finish) : f () = .error .finish := by
  unfold llx at h
  split_ifs at h <;> first | exact h | cases h

omit [LinearOrder K] in
theorem checkChild_finish {α : Type} {p x : ℕ} {f : Unit → Except Stop α}
    (h : (checkChild m p x >>= f) = .error .finish) : f () = .error .finish := by
  unfold checkChild at h
  split_ifs at h <;> first | exact h | cases h

omit [LinearOrder K] in
theorem eraseParents_ne_finish : eraseParents m cur ≠ .error .finish := by
  intro h
  have h := llx_finish (checkChild_finish (llx_finish h))
  unfold checkChild at h
  split_ifs at h
  cases h

theorem eraseScx_ne_finish : eraseScx cfg m cur ≠ .error .finish := by
  intro h
  exact nomatch llx_finish h

/-- **What an attempt of a deletion does**: it finds the key absent and resets the output, it fails,
or it gets to its SCX and has written the value of the leaf. -/
inductive EraseAttempt (cfg : Cfg K V) (m : Mem K V) (cur : Cursor) :
    Call K V × Except Stop (ScxRecord K V) → Prop
  | absent {c : Call K V} (hr : c.result = cfg.noValue) : EraseAttempt cfg m cur (c, .error .finish)
  | failed {c : Call K V} {e : Stop} (he : e ≠ .finish) : EraseAttempt cfg m cur (c, .error e)
  | scx {c : Call K V} {rec : ScxRecord K V} (ht : rec.type = .del) (hl : rec.nth 3 = cur.l)
      (hr : c.result = (m.node cur.l).value) : EraseAttempt cfg m cur (c, .ok rec)

theorem eraseAttempt (hk : c.kind = .erase) :
    EraseAttempt cfg m cur (attempt cfg m c .update cur) := by
  simp only [attempt, hk]
  split_ifs with hne
  · exact .absent rfl
  · cases hp : eraseParents m cur with
    | error e => exact .failed fun he => eraseParents_ne_finish (he ▸ hp)
    | ok u =>
        cases hs : eraseScx cfg m cur with
        | error e => exact .failed fun he => eraseScx_ne_finish (he ▸ hs)
        | ok rec =>
            obtain ⟨-, hrec⟩ := llx_bind.mp hs
            obtain rfl := Except.ok.inj hrec
            exact .scx rfl rfl (by simp only [outputs, hk])

end Steps

/-! ### The whole call -/

section Run

variable [LinearOrder K] [DecidableEq V] {cfg : Cfg K V} {m m' : Mem K V} {l : EraseLog V}
  {pc pc' : PC K V}

/-- **What a thread in `erase` and the log of its call know of each other.** -/
inductive EraseAt (cfg : Cfg K V) (m : Mem K V) (l : EraseLog V) : PC K V → Prop
  | search {pc : PC K V} {c : Call K V} (h : pc.search = some (c, .update)) (hk : c.kind = .erase)
      (hl : l = ⟨none, false⟩) : EraseAt cfg m l pc
  | swing {c : Call K V} {rec : ScxRecord K V} (hl : l = ⟨none, false⟩) (ht : rec.type = .del)
      (hlt : rec.nth 3 < m.next) (hr : c.result = (m.node (rec.nth 3)).value) :
      EraseAt cfg m l (.swing c .update rec)
  | told {pc : PC K V} {c : Call K V} (h : pc.reported = some c) (ht : Told cfg c l) :
      EraseAt cfg m l pc
  | crash : EraseAt cfg m l .crash

omit [DecidableEq V] in
/-- The steps of other threads do not disturb it. -/
theorem EraseAt.later (h : EraseAt cfg m l pc) (hl : Later cfg m m') : EraseAt cfg m' l pc := by
  cases h with
  | search h hk he => exact .search h hk he
  | swing he ht hlt hr =>
      exact .swing he ht (hlt.trans_le hl.next) (hr.trans (hl.value _ hlt).symm)
  | told h ht => exact .told h ht
  | crash => exact .crash

omit [LinearOrder K] in
theorem note_of_move {c : Call K V} {md : Mode} (h : pc.search = some (c, md))
    (htop : ∀ x, pc = .searchTop c .update x → c.kind = .erase → (m.node x).left ≠ 0) :
    l.note cfg m pc = l := by
  cases pc with
  | searchTop c₁ md₁ x =>
      cases h
      cases md with
      | rebalance => rfl
      | update => exact if_neg fun hc => htop x rfl hc.1 hc.2.1
  | _ => first | rfl | cases h

omit [LinearOrder K] in
/-- The tree is empty: the output is what the attempts before have left in it. -/
theorem told_of_empty {c : Call K V} {x : ℕ} (hx : (m.node x).left = 0) (hk : c.kind = .erase) :
    Told cfg c (EraseLog.note cfg m ⟨none, false⟩ (.searchTop c .update x)) := by
  refine .inr ?_
  by_cases hr : c.result = cfg.noValue
  · simp [EraseLog.note, hr]
  · simp [EraseLog.note, hr, hk, hx]

/-- **A step of the call.** -/
theorem EraseAt.step (h : EraseAt cfg m l pc) (hs : CallStep cfg m pc m' pc') (hok : PcOk cfg m pc)
    (hl : Later cfg m m') : EraseAt cfg m' (l.note cfg m pc) pc' := by
  cases h with
  | search h hk he =>
      subst he
      cases hs with
      | upd hu =>
          cases hu with
          | move hm hm' hsame htop =>
              rw [note_of_move hm htop]
              obtain ⟨rfl, rfl⟩ := Prod.mk.inj (Option.some.inj (h.symm.trans hm))
              exact .search hm' (hsame.kind.trans hk) rfl
          | empty hx hk' => exact .told (finished_reported ..) (told_of_empty hx hk')
          | balanced => cases h
          | @retry c₁ c' md cur ha =>
              have hsame := attempt_same cfg m c₁ md cur
              rw [ha] at hsame
              cases h
              exact .search rfl (hsame.kind.trans hk) rfl
          | @finish c₁ c' md cur ha =>
              cases h
              have hat : EraseAttempt cfg m cur _ := eraseAttempt hk
              rw [ha] at hat
              cases hat with
              | absent hr =>
                  exact .told (finished_reported ..) (.inr ⟨rfl, by simp [EraseLog.note, hr]⟩)
              | failed he => exact absurd rfl he
          | crash => exact .crash
      | abort hc =>
          cases h
          exact .search rfl ((abortCalls_same hc).kind.trans hk) rfl
      | @freeze c₁ c' md cur rec ha =>
          cases h
          have hat : EraseAttempt cfg m cur _ := eraseAttempt hk
          rw [ha] at hat
          cases hat with
          | scx ht hn hr =>
              have hlt : rec.nth 3 < m.next := hn ▸ hok.2.l.lt
              refine .swing rfl ht hlt ?_
              rw [hr, hl.value _ hlt, hn]
      | swing => cases h
      | prop hp => cases hp <;> cases h
      | crash => cases h
  | @swing c rec he ht hlt hr =>
      subst he
      cases hs with
      | upd hu => cases hu with | move hm => cases hm
      | swing => exact .told (finished_reported ..) (.inl ⟨by simp [EraseLog.note, ht, hr], by
          simp [EraseLog.note, ht]⟩)
      | prop hp => cases hp
  | told h ht =>
      rw [note_reported h]
      rcases hs.reported h with rfl | ⟨c', h', ⟨-, -, -, hr, -⟩⟩
      · exact .crash
      · refine .told h' ?_
        rwa [Told, hr]
  | crash => rw [hs.of_crash]; exact .crash

omit [LinearOrder K] [DecidableEq V] in
theorem EraseAt.inUpdate (h : EraseAt cfg m l pc) (hr : ¬ pc.Resting) : pc.inUpdate := by
  cases h with
  | search h hk hl => exact .inl (by rw [PC.before_of_search h]; exact nofun)
  | swing => exact .inl nofun
  | told h ht => exact PC.inUpdate_of_reported h hr
  | crash => exact .inr (.inr rfl)

end Run

/-- A tree with one key. -/
def oneKey : State ℕ ℕ :=
  (State.init (natCfg .bat)).run (natCfg .bat) [.call 0 (.insert 10 1), .steps 0 60]

end Cbat
