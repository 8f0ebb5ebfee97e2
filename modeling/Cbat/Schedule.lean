/-
**Schedules.**

A run is given by the order in which the threads make their steps.  A schedule lists calls and
blocks of steps of single threads; running it is a computation, and every state on the way is
reachable.

Main definitions:

* `Cbat.Label`, `Cbat.State.run` — schedules and the states that they lead to;
* `Cbat.natCfg` — a tree of natural numbers to run them on.

Main results:

* `Cbat.Reachable.run` — **a schedule leads from reachable states to reachable states**.
-/

import Cbat.Machine

set_option relaxedAutoImplicit false
set_option autoImplicit false

namespace Cbat

variable {K V : Type}

/-- A part of a schedule: thread `i` starts a call, or it makes `n` steps. -/
inductive Label (K V : Type) where
  | call (i : ℕ) (op : Op K V) : Label K V
  | steps (i n : ℕ) : Label K V

/-- The thread that acts. -/
def Label.thread : Label K V → ℕ
  | call i _ | steps i _ => i

instance : DecidablePred (PC.Resting : PC K V → Prop) := fun pc =>
  match pc with
  | .idle | .ret _ | .findRet _ _ | .containsRet _ => isTrue trivial
  | .searchRoot _ _ | .searchTop _ _ _ | .searchFirst _ _ _ | .searchLoop _ _ _
  | .searchNext _ _ _ | .attempt _ _ _ | .swing _ _ _ | .propStart _ | .propChild _
  | .propTest _ _ | .refresh _ _ _ _ _ | .propMark _ _ _ | .waitDone _ _ | .waitPtr _ _
  | .setDone _ | .retire _ _ | .findRoot _ | .findTop _ _ | .findLoop _ _ | .findNext _ _
  | .containsRoot _ | .crash => isFalse id

/-- A tree with natural numbers as keys and values, on which schedules are run. -/
def natCfg (var : Variant) : Cfg ℕ ℕ := ⟨0, 0, 6, var, 0⟩

variable [LinearOrder K] (cfg : Cfg K V)

/-- Thread `i` makes `n` steps. -/
def State.steps (s : State K V) (i : ℕ) : ℕ → State K V
  | 0 => s
  | n + 1 => State.steps (s.set (exec cfg s.mem (s.pc i)).1 i (exec cfg s.mem (s.pc i)).2) i n

/-- The state after a schedule.  A call that the thread cannot start is left out. -/
def State.run (s : State K V) : List (Label K V) → State K V
  | [] => s
  | .call i op :: ls =>
      State.run (if (s.pc i).Resting ∧ op.key ≠ cfg.noKey then s.set s.mem i (op.start cfg) else s)
        ls
  | .steps i n :: ls => State.run (s.steps cfg i n) ls

variable {cfg}

theorem Reachable.step {s s' : State K V} (h : Reachable cfg s) {i : ℕ} (hs : Step cfg s i s') :
    Reachable cfg s' := Relation.ReflTransGen.tail h ⟨i, hs⟩

theorem Reachable.steps {s : State K V} (h : Reachable cfg s) (i n : ℕ) :
    Reachable cfg (s.steps cfg i n) := by
  induction n generalizing s with
  | zero => exact h
  | succ n ih => exact ih (h.step .exec)

/-- **A schedule leads from reachable states to reachable states.** -/
theorem Reachable.run {s : State K V} (h : Reachable cfg s) (ls : List (Label K V)) :
    Reachable cfg (s.run cfg ls) := by
  induction ls generalizing s with
  | nil => exact h
  | cons l ls ih =>
      cases l with
      | steps i n => exact ih (h.steps i n)
      | call i op =>
          refine ih ?_
          split_ifs with hc
          · exact h.step (.invoke op hc.1 hc.2)
          · exact h

theorem State.steps_pc_of_ne (s : State K V) {i j : ℕ} (h : j ≠ i) (n : ℕ) :
    (s.steps cfg i n).pc j = s.pc j := by
  induction n generalizing s with
  | zero => rfl
  | succ n ih =>
      rw [State.steps, ih]
      exact Function.update_of_ne h ..

/-- A thread that does not occur in the schedule stays where it is. -/
theorem State.run_pc_of_ne (s : State K V) {j : ℕ} {ls : List (Label K V)}
    (h : ∀ a ∈ ls, j ≠ a.thread) : (s.run cfg ls).pc j = s.pc j := by
  induction ls generalizing s with
  | nil => rfl
  | cons a ls ih =>
      have ha := h a List.mem_cons_self
      have ih := fun s => ih s fun b hb => h b (List.mem_cons_of_mem _ hb)
      cases a with
      | steps i n => exact (ih _).trans (s.steps_pc_of_ne ha n)
      | call i op =>
          rw [State.run, ih]
          split_ifs
          · exact Function.update_of_ne ha ..
          · rfl

end Cbat
