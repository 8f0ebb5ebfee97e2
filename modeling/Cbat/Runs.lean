/-
**Runs of a call.**

A statement about one call is a statement about the runs from its start to its return, with any
steps of other threads in between.  A run may have a log beside it, to which every step adds: what
the call has done so far and what the state does not show any more.

Main definitions:

* `Cbat.CallRun` — the states of a run up to the return of a call;
* `Cbat.LogRun` — the same with a log;
* `Cbat.State.allRun`, `Cbat.State.logRun` — whether all steps of a schedule are allowed, and the
  log that it leads to.

Main results:

* `Cbat.CallRun.run`, `Cbat.LogRun.run` — **a schedule of allowed steps is a run of the call**.
-/

import Cbat.Schedule

set_option relaxedAutoImplicit false
set_option autoImplicit false

namespace Cbat

variable {K V L : Type} [LinearOrder K] {cfg : Cfg K V} {s s₀ s' : State K V} {i j : ℕ}

/-- The states of a run from `s₀` in which thread `i` has not returned before the last one.  Every
step of a thread `j` satisfies `Q`. -/
inductive CallRun (cfg : Cfg K V) (i : ℕ) (Q : State K V → ℕ → State K V → Prop) (s₀ : State K V) :
    State K V → Prop
  | start : CallRun cfg i Q s₀ s₀
  | step {s s' : State K V} {j : ℕ} (h : CallRun cfg i Q s₀ s) (hrun : ¬ (s.pc i).Resting)
      (hs : Step cfg s j s') (hq : Q s j s') : CallRun cfg i Q s₀ s'

/-- A run of the call of thread `i` with a log: `Note s j s' l l'` says that the step of thread `j`
from `s` to `s'` may turn the log `l` into `l'`. -/
inductive LogRun (cfg : Cfg K V) (i : ℕ) (Note : State K V → ℕ → State K V → L → L → Prop)
    (s₀ : State K V) (l₀ : L) : State K V → L → Prop
  | start : LogRun cfg i Note s₀ l₀ s₀ l₀
  | step {s s' : State K V} {l l' : L} {j : ℕ} (h : LogRun cfg i Note s₀ l₀ s l)
      (hrun : ¬ (s.pc i).Resting) (hs : Step cfg s j s') (hn : Note s j s' l l') :
      LogRun cfg i Note s₀ l₀ s' l'

theorem CallRun.reachable {Q : State K V → ℕ → State K V → Prop} (h : CallRun cfg i Q s₀ s)
    (h₀ : Reachable cfg s₀) : Reachable cfg s := by
  induction h with
  | start => exact h₀
  | step h hrun hs hq ih => exact ih.step hs

theorem LogRun.reachable {Note : State K V → ℕ → State K V → L → L → Prop} {l₀ l : L}
    (h : LogRun cfg i Note s₀ l₀ s l) (h₀ : Reachable cfg s₀) : Reachable cfg s := by
  induction h with
  | start => exact h₀
  | step h hrun hs hn ih => exact ih.step hs

/-- A step changes the program counter of its thread only. -/
theorem Step.pc_of_ne (h : Step cfg s j s') (hi : i ≠ j) : s'.pc i = s.pc i := by
  cases h <;> exact Function.update_of_ne hi ..

/-! ### Runs given by schedules -/

omit [LinearOrder K] in
/-- The call that has returned. -/
def PC.returned : PC K V → Option (Call K V)
  | .ret c => some c
  | _ => none

omit [LinearOrder K] in
theorem PC.returned_isSome {pc : PC K V} (h : pc.returned.isSome = true) : ∃ c, pc = .ret c := by
  cases pc <;> first | exact ⟨_, rfl⟩ | cases h

section Schedules

variable (cfg) (i : ℕ) (ok : State K V → ℕ → Bool) (note : State K V → ℕ → L → L)

/-- Thread `i` has not returned, and the step of thread `j` is allowed. -/
def State.allowed (s : State K V) (j : ℕ) : Bool := decide (¬ (s.pc i).Resting) && ok s j

/-- All of `n` steps of thread `j` are allowed. -/
def State.allSteps (s : State K V) (j : ℕ) : ℕ → Bool
  | 0 => true
  | n + 1 => s.allowed i ok j &&
      State.allSteps (s.set (exec cfg s.mem (s.pc j)).1 j (exec cfg s.mem (s.pc j)).2) j n

/-- All steps of a schedule are allowed. -/
def State.allRun (s : State K V) : List (Label K V) → Bool
  | [] => true
  | .call j op :: ls => s.allowed i ok j &&
      State.allRun
        (if (s.pc j).Resting ∧ op.key ≠ cfg.noKey then s.set s.mem j (op.start cfg) else s)
        ls
  | .steps j n :: ls => s.allSteps cfg i ok j n && State.allRun (s.steps cfg j n) ls

/-- The log after `n` steps of thread `j`. -/
def State.logSteps (s : State K V) (j : ℕ) : ℕ → L → L
  | 0, l => l
  | n + 1, l =>
      State.logSteps (s.set (exec cfg s.mem (s.pc j)).1 j (exec cfg s.mem (s.pc j)).2) j n
        (note s j l)

/-- The log after a schedule. -/
def State.logRun (s : State K V) : List (Label K V) → L → L
  | [], l => l
  | .call j op :: ls, l =>
      if (s.pc j).Resting ∧ op.key ≠ cfg.noKey then
        State.logRun (s.set s.mem j (op.start cfg)) ls (note s j l)
      else State.logRun s ls l
  | .steps j n :: ls, l => State.logRun (s.steps cfg j n) ls (s.logSteps cfg note j n l)

variable {cfg i ok note}

omit [LinearOrder K] in
theorem State.allowed_iff {s : State K V} {j : ℕ} :
    s.allowed i ok j = true ↔ ¬ (s.pc i).Resting ∧ ok s j = true := by
  simp [State.allowed]

section Allowed

variable {Q : State K V → ℕ → State K V → Prop}

theorem CallRun.steps (h : CallRun cfg i Q s₀ s)
    (hQ : ∀ s j s', Step cfg s j s' → ok s j = true → Q s j s') {n : ℕ}
    (hc : s.allSteps cfg i ok j n = true) : CallRun cfg i Q s₀ (s.steps cfg j n) := by
  induction n generalizing s with
  | zero => exact h
  | succ n ih =>
      simp only [State.allSteps, Bool.and_eq_true, State.allowed_iff] at hc
      exact ih (.step h hc.1.1 .exec (hQ _ _ _ .exec hc.1.2)) hc.2

/-- **A schedule of allowed steps is a run of the call.** -/
theorem CallRun.run (ok : State K V → ℕ → Bool) (h : CallRun cfg i Q s₀ s)
    (hQ : ∀ s j s', Step cfg s j s' → ok s j = true → Q s j s') {ls : List (Label K V)}
    (hc : s.allRun cfg i ok ls = true) : CallRun cfg i Q s₀ (s.run cfg ls) := by
  induction ls generalizing s with
  | nil => exact h
  | cons a ls ih =>
      cases a with
      | steps j n =>
          simp only [State.allRun, Bool.and_eq_true] at hc
          exact ih (h.steps hQ hc.1) hc.2
      | call j op =>
          simp only [State.allRun, Bool.and_eq_true, State.allowed_iff] at hc
          refine ih ?_ hc.2
          split_ifs with hj
          · exact .step h hc.1.1 (.invoke op hj.1 hj.2) (hQ _ _ _ (.invoke op hj.1 hj.2) hc.1.2)
          · exact h

end Allowed

section Logs

variable {Note : State K V → ℕ → State K V → L → L → Prop} {l₀ l : L}

theorem LogRun.steps (h : LogRun cfg i Note s₀ l₀ s l)
    (hN : ∀ s j s' l, Step cfg s j s' → Note s j s' l (note s j l)) {n : ℕ}
    (hc : s.allSteps cfg i (fun _ _ => true) j n = true) :
    LogRun cfg i Note s₀ l₀ (s.steps cfg j n) (s.logSteps cfg note j n l) := by
  induction n generalizing s l with
  | zero => exact h
  | succ n ih =>
      simp only [State.allSteps, Bool.and_eq_true, State.allowed_iff] at hc
      exact ih (.step h hc.1.1 .exec (hN _ _ _ _ .exec)) hc.2

/-- **A schedule in which the call does not return early is a run with its log.** -/
theorem LogRun.run (note : State K V → ℕ → L → L) (ls : List (Label K V))
    (h : LogRun cfg i Note s₀ l₀ s l)
    (hN : ∀ s j s' l, Step cfg s j s' → Note s j s' l (note s j l))
    (hc : s.allRun cfg i (fun _ _ => true) ls = true) :
    LogRun cfg i Note s₀ l₀ (s.run cfg ls) (s.logRun cfg note ls l) := by
  induction ls generalizing s l with
  | nil => exact h
  | cons a ls ih =>
      cases a with
      | steps j n =>
          simp only [State.allRun, Bool.and_eq_true] at hc
          exact ih (h.steps hN hc.1) hc.2
      | call j op =>
          simp only [State.allRun, Bool.and_eq_true, State.allowed_iff] at hc
          rw [State.run, State.logRun]
          split_ifs at hc ⊢ with hj
          · exact ih (.step h hc.1.1 (.invoke op hj.1 hj.2) (hN _ _ _ _ (.invoke op hj.1 hj.2)))
              hc.2
          · exact ih h hc.2

end Logs

end Schedules

end Cbat
