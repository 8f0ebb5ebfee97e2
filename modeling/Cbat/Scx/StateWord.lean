/-
**The state word of an SCX record.**

The state of an SCX is one `int`: 0 while it is in progress, 1 once it is committed.  An aborted SCX
keeps more in it: two bits say that it is aborted, the next five how far the freezing got, and one
bit for each node that was frozen says that the node may still point to the record.

Main definitions:

* `Cbat.Scx.Word`, `Cbat.Scx.stateInProgress`, `Cbat.Scx.stateCommitted`, `Cbat.Scx.stateAborted` —
  the words;
* `Cbat.Scx.abortStateInit`, `Cbat.Scx.stateGetFlags`, `Cbat.Scx.stateGetHighestIndexReached`,
  `Cbat.Scx.stateGetWithFlagOff` — the macros of the source;
* `Cbat.Scx.Word.Aborted`, `Cbat.Scx.Word.flag` — what a word says.

Main results:

* `Cbat.Scx.flag_abortStateInit`, `Cbat.Scx.highest_abortStateInit` — **nothing is lost by
  packing**;
* `Cbat.Scx.flag_stateGetWithFlagOff` — clearing a flag changes this flag only;
* `Cbat.Scx.stateGetFlags_eq_zero_iff` — no flag is left.
-/

import Mathlib.Data.Nat.Bitwise
import Mathlib.Tactic.Common

set_option relaxedAutoImplicit false
set_option autoImplicit false

namespace Cbat.Scx

/-- The state of an SCX record, an `int`. -/
abbrev Word := BitVec 32

/-- `STATE_INPROGRESS` -/
def stateInProgress : Word := 0
/-- `STATE_COMMITTED` -/
def stateCommitted : Word := 1
/-- `STATE_ABORTED` -/
def stateAborted : Word := 2

/-- `ABORT_STATE_INIT` -/
def abortStateInit (i flags : Word) : Word := stateAborted ||| (i <<< 2) ||| (flags <<< 7)

/-- `STATE_GET_FLAGS` -/
def stateGetFlags (state : Word) : Word := state &&& 0x7FFFFF80

/-- `STATE_GET_HIGHEST_INDEX_REACHED` -/
def stateGetHighestIndexReached (state : Word) : ℕ := ((state &&& 0x7C) >>> 2).toNat

/-- `STATE_GET_WITH_FLAG_OFF` -/
def stateGetWithFlagOff (state : Word) (i : ℕ) : Word := state &&& ~~~(1#32 <<< (i + 7))

namespace Word

/-- The test `state >= STATE_ABORTED`. -/
def Aborted (w : Word) : Prop := 2 ≤ w.toNat

instance (w : Word) : Decidable w.Aborted := inferInstanceAs (Decidable (2 ≤ w.toNat))

/-- The flag of the node with the index `j`. -/
def flag (w : Word) (j : ℕ) : Bool := w.getLsbD (j + 7)

end Word

theorem Word.cases (w : Word) : w = stateInProgress ∨ w = stateCommitted ∨ w.Aborted := by
  by_cases h : w.Aborted
  · exact .inr (.inr h)
  · have hlt : w.toNat < 2 := Nat.lt_of_not_le h
    have hw : w.toNat = 0 ∨ w.toNat = 1 := by omega
    exact hw.imp (fun hw => BitVec.eq_of_toNat_eq hw) fun hw => .inl (BitVec.eq_of_toNat_eq hw)

theorem not_aborted_inProgress : ¬ stateInProgress.Aborted := by decide

theorem not_aborted_committed : ¬ stateCommitted.Aborted := by decide

/-! ### Packing and unpacking -/

theorem Word.bit_eq_false {w : Word} {n j : ℕ} (hw : w.toNat < 2 ^ n) (hj : n ≤ j) :
    w.getLsbD j = false :=
  Nat.testBit_lt_two_pow (hw.trans_le (Nat.pow_le_pow_right (by omega) hj))

/-- The bit that makes a word aborted. -/
theorem aborted_of_bit {w : Word} (h : w.getLsbD 1 = true) : w.Aborted :=
  Nat.ge_two_pow_of_testBit (i := 1) h

theorem bit_abortStateInit (i flags : Word) : (abortStateInit i flags).getLsbD 1 = true := by
  simp [abortStateInit, stateAborted]

theorem flag_abortStateInit {i flags : Word} (hi : i.toNat < 32) {j : ℕ} (hj : j < 24) :
    (abortStateInit i flags).flag j = flags.getLsbD j := by
  have h5 : i.getLsbD (j + 5) = false := Word.bit_eq_false (n := 5) hi (by omega)
  have h2 : (2#32).getLsbD (j + 7) = false := Word.bit_eq_false (n := 2) (by decide) (by omega)
  simp only [abortStateInit, stateAborted, Word.flag, BitVec.getLsbD_or, BitVec.getLsbD_shiftLeft]
  simp [h5, h2]
  omega

theorem highest_abortStateInit {i flags : Word} (hi : i.toNat < 32) :
    stateGetHighestIndexReached (abortStateInit i flags) = i.toNat := by
  suffices h : (abortStateInit i flags &&& 0x7C) >>> 2 = i by rw [stateGetHighestIndexReached, h]
  have mask : ∀ k < 32, (0x7C#32).getLsbD (2 + k) = decide (k < 5) := by decide
  have two : ∀ k < 32, (2#32).getLsbD (2 + k) = false := by decide
  refine BitVec.eq_of_getLsbD_eq fun k hk => ?_
  simp only [abortStateInit, stateAborted, BitVec.getLsbD_ushiftRight, BitVec.getLsbD_and,
    BitVec.getLsbD_or, BitVec.getLsbD_shiftLeft, BitVec.ofNat_eq_ofNat, mask k hk, two k hk]
  rcases Nat.lt_or_ge k 5 with h | h
  · have h7 : 2 + k < 7 := by omega
    have h32 : 2 + k < 32 := by omega
    have h2 : ¬ 2 + k < 2 := by omega
    have hsub : 2 + k - 2 = k := by omega
    simp only [h, h7, h32, h2, hsub, decide_true, decide_false, Bool.not_false, Bool.not_true,
      Bool.true_and, Bool.false_and, Bool.and_true, Bool.false_or, Bool.or_false]
  · rw [Word.bit_eq_false (n := 5) hi h]
    simp [h]

/-! ### Clearing a flag -/

theorem getLsbD_stateGetWithFlagOff (w : Word) (i : ℕ) {k : ℕ} (hk : k < 32) :
    (stateGetWithFlagOff w i).getLsbD k = (w.getLsbD k && decide (k ≠ i + 7)) := by
  have one : (1#32 <<< (i + 7)).getLsbD k = decide (k = i + 7) := by
    rw [BitVec.getLsbD_shiftLeft, BitVec.getLsbD_one]
    rcases Nat.lt_trichotomy k (i + 7) with h | h | h
    · simp [h, h.ne]
    · simp [h]
      omega
    · have h0 : k - (i + 7) ≠ 0 := by omega
      simp [h.ne', h0]
  rw [stateGetWithFlagOff, BitVec.getLsbD_and, BitVec.getLsbD_not, one]
  simp [hk]

theorem flag_stateGetWithFlagOff (w : Word) (i j : ℕ) :
    (stateGetWithFlagOff w i).flag j = (w.flag j && decide (j ≠ i)) := by
  rw [Word.flag, Word.flag]
  by_cases hj : j + 7 < 32
  · rw [getLsbD_stateGetWithFlagOff w i hj]
    congr 2
    simp
  · have hge := Nat.le_of_not_lt hj
    rw [BitVec.getLsbD_of_ge _ _ hge, BitVec.getLsbD_of_ge _ _ hge]
    rfl

theorem bit_stateGetWithFlagOff {w : Word} (h : w.getLsbD 1 = true) (i : ℕ) :
    (stateGetWithFlagOff w i).getLsbD 1 = true := by
  simp [getLsbD_stateGetWithFlagOff w i (k := 1) (by omega), h]

theorem highest_stateGetWithFlagOff (w : Word) (i : ℕ) :
    stateGetHighestIndexReached (stateGetWithFlagOff w i) = stateGetHighestIndexReached w := by
  have mask : ∀ k < 32, (0x7C#32).getLsbD (2 + k) = decide (k < 5) := by decide
  rw [stateGetHighestIndexReached, stateGetHighestIndexReached]
  congr 1
  refine BitVec.eq_of_getLsbD_eq fun k hk => ?_
  rw [BitVec.getLsbD_ushiftRight, BitVec.getLsbD_ushiftRight, BitVec.getLsbD_and,
    BitVec.getLsbD_and, BitVec.ofNat_eq_ofNat, mask k hk]
  rcases Nat.lt_or_ge k 5 with h | h
  · have hne : 2 + k ≠ i + 7 := by omega
    rw [getLsbD_stateGetWithFlagOff w i (by omega)]
    simp [hne]
  · simp [Nat.not_lt.mpr h]

/-- **No flag is left.** -/
theorem stateGetFlags_eq_zero_iff {w : Word} :
    stateGetFlags w = 0 ↔ ∀ j < 24, w.flag j = false := by
  have mask : ∀ k < 32, (0x7FFFFF80#32).getLsbD k = (decide (7 ≤ k) && decide (k < 31)) := by
    decide
  constructor
  · intro h j hj
    have hbit : (stateGetFlags w).getLsbD (j + 7) = false := by rw [h]; simp
    rw [stateGetFlags, BitVec.getLsbD_and, BitVec.ofNat_eq_ofNat, mask _ (by omega)] at hbit
    have h31 : j + 7 < 31 := by omega
    simpa [Word.flag, h31] using hbit
  · intro h
    refine BitVec.eq_of_getLsbD_eq fun k hk => ?_
    rw [stateGetFlags, BitVec.getLsbD_and, BitVec.ofNat_eq_ofNat, mask k hk]
    by_cases hkr : 7 ≤ k ∧ k < 31
    · have hf := h (k - 7) (by omega)
      rw [Word.flag, Nat.sub_add_cancel hkr.1] at hf
      simp [hf]
    · have : (decide (7 ≤ k) && decide (k < 31)) = false := by simpa using fun h7 => by omega
      simp [this]

end Cbat.Scx
