/-
**Threads with shared memory.**

A concurrent program as a machine: every thread has a program counter, and a step of a thread is one
atomic action on the shared memory.  Any number of threads run, in any order; a thread that is at
rest may start a call at any time.  This module has the states, the reachable states, the traces of
a call from its start to its return, and schedules, which give concrete traces.

Main definitions:

* `Machine` — the atomic actions, the calls and the initial memory;
* `Machine.Step`, `Machine.Reachable` — one step of a thread, and the reachable states;
* `Machine.CallTrace` — **the states of a call**, from its start to its return;
* `Machine.states` — the states of a schedule.

Main results:

* `Machine.Reachable.induct` — **the rule of invariants**;
* `Machine.CallTrace.of_schedule` — a schedule in which the call does not return early is a trace.
-/

import Mathlib.Data.Nat.Notation
import Mathlib.Logic.Function.Basic
import Mathlib.Logic.Relation

set_option relaxedAutoImplicit false
set_option autoImplicit false

/-- A concurrent program: `exec m p` is the atomic action of a thread with the program counter `p`
on the memory `m`. -/
structure Machine (μ π ο : Type*) where
  /-- one atomic action -/
  exec : μ → π → μ × π
  /-- the thread can start a call -/
  resting : π → Bool
  /-- the program counter at the start of a call -/
  start : ο → π
  /-- the calls that the program is made for -/
  proper : ο → Bool
  /-- the initial memory -/
  mem₀ : μ
  /-- the initial program counter -/
  idle : π

namespace Machine

variable {μ π ο : Type*}

/-- The memory and the program counters of all threads. -/
structure State (μ π : Type*) where
  /-- the shared memory -/
  mem : μ
  /-- the program counters -/
  pc : ℕ → π

/-- The state after an action of thread `i`. -/
def State.set (s : State μ π) (m : μ) (i : ℕ) (p : π) : State μ π :=
  ⟨m, Function.update s.pc i p⟩

@[simp] theorem State.set_mem (s : State μ π) (m : μ) (i : ℕ) (p : π) : (s.set m i p).mem = m := rfl

@[simp] theorem State.set_pc_self (s : State μ π) (m : μ) (i : ℕ) (p : π) :
    (s.set m i p).pc i = p := Function.update_self ..

theorem State.set_pc_of_ne (s : State μ π) (m : μ) {i j : ℕ} (p : π) (h : j ≠ i) :
    (s.set m i p).pc j = s.pc j := Function.update_of_ne h ..

variable (M : Machine μ π ο)

/-- The state after one atomic action of thread `i`. -/
def act (s : State μ π) (i : ℕ) : State μ π :=
  s.set (M.exec s.mem (s.pc i)).1 i (M.exec s.mem (s.pc i)).2

/-- One step of thread `i`: it starts a call, or makes an atomic action. -/
inductive Step (s : State μ π) (i : ℕ) : State μ π → Prop
  | call (op : ο) (hrest : M.resting (s.pc i) = true) (hop : M.proper op = true) :
      Step s i (s.set s.mem i (M.start op))
  | act : Step s i (M.act s i)

/-- The initial state. -/
def init : State μ π := ⟨M.mem₀, fun _ => M.idle⟩

/-- The reachable states. -/
def Reachable (s : State μ π) : Prop :=
  Relation.ReflTransGen (fun a b => ∃ i, M.Step a i b) M.init s

variable {M}

theorem Reachable.step {s s' : State μ π} {i : ℕ} (h : M.Reachable s) (hs : M.Step s i s') :
    M.Reachable s' := h.tail ⟨i, hs⟩

/-- **The rule of invariants.** -/
theorem Reachable.induct {P : State μ π → Prop} (hinit : P M.init)
    (hstep : ∀ s i s', M.Reachable s → P s → M.Step s i s' → P s') {s : State μ π}
    (h : M.Reachable s) : P s := by
  induction h with
  | refl => exact hinit
  | tail hr hs ih =>
      obtain ⟨i, hs⟩ := hs
      exact hstep _ i _ hr ih hs

/-! ### The traces of a call -/

variable (M) in
/-- **The states of a call of thread `i`**, the last one first.  The thread has not returned before
the last state, and every step of every thread satisfies `Q`. -/
inductive CallTrace (i : ℕ) (Q : State μ π → ℕ → State μ π → Prop) (s₀ : State μ π) :
    List (State μ π) → Prop
  | start : CallTrace i Q s₀ [s₀]
  | step {s s' : State μ π} {ss : List (State μ π)} {j : ℕ} (h : CallTrace i Q s₀ (s :: ss))
      (hrun : M.resting (s.pc i) = false) (hs : M.Step s j s') (hq : Q s j s') :
      CallTrace i Q s₀ (s' :: s :: ss)

variable {i : ℕ} {Q : State μ π → ℕ → State μ π → Prop} {s₀ s : State μ π} {ss : List (State μ π)}

theorem CallTrace.reachable (h : M.CallTrace i Q s₀ ss) (h₀ : M.Reachable s₀) :
    ∀ s ∈ ss, M.Reachable s := by
  induction h with
  | start =>
      intro s hs
      rw [List.mem_singleton.mp hs]
      exact h₀
  | step _ _ hs _ ih =>
      intro s' hs'
      rcases List.mem_cons.mp hs' with rfl | hs'
      · exact (ih _ List.mem_cons_self).step hs
      · exact ih s' hs'

/-- A property of the state and the states before it that holds at the start, and that every step
keeps, holds at the end. -/
theorem CallTrace.induct {P : State μ π → Prop} {G : State μ π → Prop}
    (h : M.CallTrace i Q s₀ (s :: ss)) (h₀ : M.Reachable s₀) (hG : ∀ s' ∈ s :: ss, G s')
    (hstart : G s₀ → P s₀)
    (hstep : ∀ a j b, M.Reachable a → M.resting (a.pc i) = false → M.Step a j b → Q a j b →
      G a → G b → P a → P b) : P s := by
  generalize hl : s :: ss = l at h
  induction h generalizing s ss with
  | start =>
      obtain ⟨rfl, rfl⟩ := List.cons_eq_cons.mp hl
      exact hstart (hG s List.mem_cons_self)
  | @step a b ss' j h hrun hs hq ih =>
      obtain ⟨rfl, rfl⟩ := List.cons_eq_cons.mp hl
      have hGa := hG a (List.mem_cons_of_mem _ List.mem_cons_self)
      have hPa : P a := ih (fun s' hs' => hG s' (List.mem_cons_of_mem _ hs')) rfl
      exact hstep a j s (h.reachable h₀ a List.mem_cons_self) hrun hs hq hGa
        (hG s List.mem_cons_self) hPa

/-! ### Schedules -/

/-- A move: thread `i` starts a call, or makes one atomic action. -/
inductive Move (ο : Type*) where
  | call (i : ℕ) (op : ο) : Move ο
  | act (i : ℕ) : Move ο

/-- Thread `i` makes `n` atomic actions. -/
def Move.acts (i n : ℕ) : List (Move ο) := List.replicate n (.act i)

/-- The thread that moves. -/
def Move.thread : Move ο → ℕ
  | call i _ | act i => i

section Schedules

variable (M)

/-- The move is possible. -/
def allows (s : State μ π) : Move ο → Bool
  | .call i op => M.resting (s.pc i) && M.proper op
  | .act _ => true

/-- The state after a move. -/
def next (s : State μ π) : Move ο → State μ π
  | .call i op => s.set s.mem i (M.start op)
  | .act i => M.act s i

/-- **The states of a schedule**, the last one first. -/
def states : List (Move ο) → State μ π → List (State μ π) → List (State μ π)
  | [], s, ss => s :: ss
  | mv :: ms, s, ss => states ms (M.next s mv) (s :: ss)

/-- All moves of a schedule are possible, and `P` holds of the state before each of them and of the
thread that moves. -/
def allAllow (P : State μ π → ℕ → Bool) : List (Move ο) → State μ π → Bool
  | [], _ => true
  | mv :: ms, s => M.allows s mv && P s mv.thread && allAllow P ms (M.next s mv)

/-- The state after a schedule. -/
def after : List (Move ο) → State μ π → State μ π
  | [], s => s
  | mv :: ms, s => after ms (M.next s mv)

variable {M}

theorem states_eq (ms : List (Move ο)) (s : State μ π) (ss : List (State μ π)) :
    ∃ ss', M.states ms s ss = M.after ms s :: ss' := by
  induction ms generalizing s ss with
  | nil => exact ⟨ss, rfl⟩
  | cons mv ms ih => exact ih _ _

theorem Step.of_move {mv : Move ο} (h : M.allows s mv = true) :
    M.Step s mv.thread (M.next s mv) := by
  cases mv with
  | call i op =>
      rw [allows, Bool.and_eq_true] at h
      exact .call op h.1 h.2
  | act i => exact .act

/-- A schedule leads from reachable states to reachable states. -/
theorem Reachable.after {P : State μ π → ℕ → Bool} {ms : List (Move ο)} (h : M.Reachable s)
    (hok : M.allAllow P ms s = true) : M.Reachable (M.after ms s) := by
  induction ms generalizing s with
  | nil => exact h
  | cons mv ms ih =>
      simp only [allAllow, Bool.and_eq_true] at hok
      exact ih (h.step (.of_move hok.1.1)) hok.2

theorem next_pc_of_ne {mv : Move ο} {j : ℕ} (h : mv.thread ≠ j) :
    (M.next s mv).pc j = s.pc j := by
  cases mv with
  | call i op => exact State.set_pc_of_ne _ _ _ h.symm
  | act i => exact State.set_pc_of_ne _ _ _ h.symm

/-- A thread that does not move stays where it is. -/
theorem pc_of_mem_states {ms : List (Move ο)} {j : ℕ} {p : π} (hms : ∀ mv ∈ ms, mv.thread ≠ j)
    (hs : ∀ s' ∈ s :: ss, s'.pc j = p) : ∀ s' ∈ M.states ms s ss, s'.pc j = p := by
  induction ms generalizing s ss with
  | nil => exact hs
  | cons mv ms ih =>
      refine ih (fun mv' hmv' => hms mv' (List.mem_cons_of_mem _ hmv')) fun s' hs' => ?_
      rcases List.mem_cons.mp hs' with rfl | hs'
      · rw [next_pc_of_ne (hms mv List.mem_cons_self)]
        exact hs s List.mem_cons_self
      · exact hs s' hs'

/-- **A schedule in which the call does not return early is a trace of the call.** -/
theorem CallTrace.of_schedule {P : State μ π → ℕ → Bool} {ms : List (Move ο)}
    (h : M.CallTrace i Q s₀ (s :: ss)) (hQ : ∀ s j s', M.Step s j s' → P s j = true → Q s j s')
    (hok : M.allAllow (fun s j => !M.resting (s.pc i) && P s j) ms s = true) :
    M.CallTrace i Q s₀ (M.states ms s ss) := by
  induction ms generalizing s ss with
  | nil => exact h
  | cons mv ms ih =>
      simp only [allAllow, Bool.and_eq_true, Bool.not_eq_true'] at hok
      obtain ⟨⟨hmv, hrun, hP⟩, hok⟩ := hok
      have hs := Step.of_move hmv
      exact ih (.step h hrun hs (hQ _ _ _ hs hP)) hok

end Schedules

end Machine
