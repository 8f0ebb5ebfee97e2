/-
**Sequential objects and their histories.**

A sequential object has a state, and a call changes the state and returns an answer.  A program that
is called again and again from one thread is compared with such an object: it refines the object if
every call ends, with the answer of the object and in a state that represents the next one.  Nothing
here depends on a particular program.

Main definitions:

* `Cbat.SeqObject`, `Cbat.SeqObject.answers` — a sequential object and what it answers;
* `Cbat.History` — the histories of a program, given by the relation between the state before a
  call, the call, its answer and the state after it.

Main results:

* `Cbat.History.of_simulation` — **a simulation, call by call, gives the answers of the object**;
* `Cbat.History.unique` — if calls are deterministic, there are no other histories.
-/

import Mathlib.Data.List.Basic

set_option relaxedAutoImplicit false
set_option autoImplicit false

namespace Cbat

/-- A sequential object with the states `τ`, the calls `O` and the answers `A`. -/
structure SeqObject (τ O A : Type) where
  /-- the state after a call -/
  next : τ → O → τ
  /-- the answer of a call -/
  answer : τ → O → A

namespace SeqObject

variable {τ O A : Type} (S : SeqObject τ O A)

/-- The state after a sequence of calls. -/
def after (s : τ) (ops : List O) : τ := ops.foldl S.next s

/-- The answers of a sequence of calls. -/
def answers : τ → List O → List A
  | _, [] => []
  | s, op :: ops => S.answer s op :: answers (S.next s op) ops

@[simp] theorem after_nil (s : τ) : S.after s [] = s := rfl

@[simp] theorem after_cons (s : τ) (op : O) (ops : List O) :
    S.after s (op :: ops) = S.after (S.next s op) ops := rfl

@[simp] theorem answers_nil (s : τ) : S.answers s [] = [] := rfl

@[simp] theorem answers_cons (s : τ) (op : O) (ops : List O) :
    S.answers s (op :: ops) = S.answer s op :: S.answers (S.next s op) ops := rfl

end SeqObject

section Histories

variable {σ τ O A : Type} {call : σ → O → A → σ → Prop}

/-- **The histories of a program**: calls one after the other, with their answers. -/
inductive History (call : σ → O → A → σ → Prop) : σ → List O → List A → σ → Prop
  | nil (s : σ) : History call s [] [] s
  | cons {s s' s'' : σ} {op : O} {ops : List O} {a : A} {as : List A} (h : call s op a s')
      (hr : History call s' ops as s'') : History call s (op :: ops) (a :: as) s''

variable {S : SeqObject τ O A} {R : σ → τ → Prop} {P : O → Prop}

/-- **A simulation gives the answers of the object.** -/
theorem History.of_simulation
    (hsim : ∀ s a op, P op → R s a → ∃ s', call s op (S.answer a op) s' ∧ R s' (S.next a op))
    {s : σ} {a : τ} (h : R s a) (ops : List O) (hops : ∀ op ∈ ops, P op) :
    ∃ s', History call s ops (S.answers a ops) s' ∧ R s' (S.after a ops) := by
  induction ops generalizing s a with
  | nil => exact ⟨s, .nil s, h⟩
  | cons op ops ih =>
      obtain ⟨s₁, hcall, hR⟩ := hsim s a op (hops op List.mem_cons_self) h
      obtain ⟨s', hrest, hR'⟩ := ih hR fun o ho => hops o (List.mem_cons_of_mem _ ho)
      exact ⟨s', .cons hcall hrest, hR'⟩

/-- **Deterministic calls have one history.** -/
theorem History.unique {s s₁ s₂ : σ} {ops : List O} {as as' : List A}
    (h : History call s ops as s₁) (h' : History call s ops as' s₂)
    (hdet : ∀ s op a a' s₁ s₂, call s op a s₁ → call s op a' s₂ → a = a' ∧ s₁ = s₂) :
    as = as' ∧ s₁ = s₂ := by
  induction h generalizing as' with
  | nil =>
      cases h'
      exact ⟨rfl, rfl⟩
  | cons hc _ ih =>
      cases h' with
      | cons hc' hr' =>
          obtain ⟨rfl, rfl⟩ := hdet _ _ _ _ _ _ hc hc'
          obtain ⟨rfl, rfl⟩ := ih hr'
          exact ⟨rfl, rfl⟩

end Histories

end Cbat
