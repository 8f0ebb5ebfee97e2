/-
**The epoch bags of a thread.**

A thread retires objects into its current epoch bag.  `rotateEpochBags` makes the next of nine bags
the current one and hands on what is in the bag three behind it.  This module has the data of one
thread with all that happens to it, `initThread` and `deinitThread` included, and the rule for how
long an object stays in its bag.

Main definitions:

* `Cbat.Debra.ThreadData` — the bags, the index and the current bag;
* `Cbat.Debra.ThreadData.rotateEpochBags` — **one rotation**;
* `Cbat.Debra.World`, `Cbat.Debra.step`, `Cbat.Debra.run` — sequences of calls of one thread;
* `Cbat.Debra.due` — after how many rotations a bag is handed on.

Main results:

* `Cbat.Debra.rotate_spec` — **what a rotation does to the bags**;
* `Cbat.Debra.run_kept` — **an object stays in its bag** until the bag is due.
-/

import Mathlib
import Cbat.Debra.BlockBag

set_option relaxedAutoImplicit false
set_option autoImplicit false

namespace Cbat.Debra

variable {α : Type}

/-! ### The data of a thread -/

/-- `NUMBER_OF_EPOCH_BAGS` -/
abbrev numberOfEpochBags : ℕ := 9

instance neZero_numberOfEpochBags : NeZero numberOfEpochBags := ⟨Nat.succ_ne_zero 8⟩

/-- `NUMBER_OF_ALWAYS_EMPTY_EPOCH_BAGS` -/
abbrev numberOfAlwaysEmptyEpochBags : Fin numberOfEpochBags := 3

/-- The pool: `pool_none` or `pool_perthread_and_shared`. -/
inductive Pool where
  | none
  | perthread
  deriving DecidableEq

/-- `addMoveFullBlocks` of the pool: what it takes out of the bag, and the bag afterwards.
`pool_none` frees all objects, also those of the head block. -/
def Pool.addMoveFullBlocks (pool : Pool) (bag : BlockBag α) : List α × BlockBag α :=
  match pool with
  | .none => bag.deallocateAndClear
  | .perthread => (bag.full.flatten, (BlockBag.empty.appendMoveFullBlocks bag).2)

/-- The settings of the compilation. -/
structure Cfg where
  /-- `DEBRA_ORIGINAL_FREE`; otherwise calls to free are deamortised -/
  originalFree : Bool
  /-- the pool -/
  pool : Pool

/-- `ThreadData`.  A bag that is not allocated is `none`; `currentBag` points to one of the bags. -/
structure ThreadData (α : Type) where
  /-- `epochbags` -/
  epochbags : Fin numberOfEpochBags → Option (BlockBag α)
  /-- `index` -/
  index : Fin numberOfEpochBags
  /-- `currentBag` -/
  currentBag : Fin numberOfEpochBags
  /-- `deamortizedFreeables` -/
  deamortizedFreeables : Option (BlockBag α)

namespace ThreadData

/-- The constructor of `reclaimer_debra`. -/
def new : ThreadData α := ⟨fun _ => none, 0, 0, none⟩

/-- `retire` -/
def retire (d : ThreadData α) (x : α) : Option (ThreadData α) := do
  let bag ← d.epochbags d.currentBag
  return { d with epochbags := Function.update d.epochbags d.currentBag (some (bag.add x)) }

/-- `rotateEpochBags`: the data afterwards, the nodes whose versions are retired if
`DEBRA_NODE_RETIRE` is set, and the objects that are handed to the pool. -/
def rotateEpochBags (cfg : Cfg) (d : ThreadData α) :
    Option (ThreadData α × List α × List α) := do
  let nextIndex := d.index + 1
  let oldest := nextIndex + numberOfAlwaysEmptyEpochBags
  let freeable ← d.epochbags oldest
  if cfg.originalFree then
    let (freed, rest) := cfg.pool.addMoveFullBlocks freeable
    return ({ d with
      epochbags := Function.update d.epochbags oldest (some rest)
      index := nextIndex
      currentBag := nextIndex }, freeable.items, freed)
  else
    let freelist ← d.deamortizedFreeables
    let (freelist, rest) := freelist.appendMoveFullBlocks freeable
    return ({ d with
      epochbags := Function.update d.epochbags oldest (some rest)
      index := nextIndex
      currentBag := nextIndex
      deamortizedFreeables := some freelist }, freeable.items, [])

/-- What `startOp` frees if calls to free are deamortised: one object, if there is one. -/
def freeOne (cfg : Cfg) (d : ThreadData α) : Option (ThreadData α × List α) :=
  if cfg.originalFree then some (d, [])
  else do
    let freelist ← d.deamortizedFreeables
    match freelist.remove with
    | none => return (d, [])
    | some (x, freelist) => return ({ d with deamortizedFreeables := some freelist }, [x])

/-- `initThread`: bags that are not there are allocated, and the first one becomes the current bag.
The index stays as it is. -/
def initThread (cfg : Cfg) (d : ThreadData α) : ThreadData α where
  epochbags i := some ((d.epochbags i).getD .empty)
  index := d.index
  currentBag := 0
  deamortizedFreeables := if cfg.originalFree then d.deamortizedFreeables else some .empty

/-- `deinitThread`: everything is handed to the pool. -/
def deinitThread (cfg : Cfg) (d : ThreadData α) : Option (ThreadData α × List α) := do
  let freed := (List.finRange numberOfEpochBags).flatMap fun i =>
    ((d.epochbags i).map BlockBag.items).getD []
  if cfg.originalFree then
    return ({ d with epochbags := fun _ => none }, freed)
  else
    let freelist ← d.deamortizedFreeables
    return ({ d with epochbags := fun _ => none, deamortizedFreeables := none },
      freed ++ freelist.items)

end ThreadData

/-! ### Calls of one thread -/

/-- A call. -/
inductive Op (α : Type) where
  | init
  | retire (x : α)
  | rotate
  | freeOne
  | deinit

/-- The call neither initialises nor deinitialises the thread. -/
def Op.inner : Op α → Bool
  | .init | .deinit => false
  | _ => true

/-- The data of the thread, with what it has handed on so far. -/
structure World (α : Type) where
  /-- the data -/
  data : ThreadData α
  /-- the objects handed to the pool -/
  freed : List α
  /-- the nodes whose versions were retired -/
  versions : List α

/-- The thread before its first call. -/
def World.new : World α := ⟨.new, [], []⟩

/-- One call; `none` if a null pointer is dereferenced. -/
def step (cfg : Cfg) (w : World α) : Op α → Option (World α)
  | .init => some { w with data := w.data.initThread cfg }
  | .retire x => (w.data.retire x).map fun d => { w with data := d }
  | .rotate => (w.data.rotateEpochBags cfg).map fun r =>
      ⟨r.1, w.freed ++ r.2.2, w.versions ++ r.2.1⟩
  | .freeOne => (w.data.freeOne cfg).map fun r => { w with data := r.1, freed := w.freed ++ r.2 }
  | .deinit => (w.data.deinitThread cfg).map fun r =>
      { w with data := r.1, freed := w.freed ++ r.2 }

/-- A sequence of calls. -/
def run (cfg : Cfg) : List (Op α) → World α → Option (World α)
  | [], w => some w
  | op :: ops, w => (step cfg w op).bind (run cfg ops)

/-- The number of rotations in a sequence of calls. -/
def rotations : List (Op α) → ℕ
  | [] => 0
  | .rotate :: ops => rotations ops + 1
  | _ :: ops => rotations ops

variable {cfg : Cfg} {w w' w'' : World α} {ops ops' : List (Op α)} {op : Op α}

theorem run_cons : run cfg (op :: ops) w = some w'' ↔
    ∃ w', step cfg w op = some w' ∧ run cfg ops w' = some w'' := by
  rw [run, Option.bind_eq_some_iff]

theorem run_append : run cfg (ops ++ ops') w = some w'' ↔
    ∃ w', run cfg ops w = some w' ∧ run cfg ops' w' = some w'' := by
  induction ops generalizing w with
  | nil => simp [run]
  | cons op ops ih =>
      simp only [List.cons_append, run_cons, ih]
      constructor
      · rintro ⟨w₁, h₁, w₂, h₂, h₃⟩
        exact ⟨w₂, ⟨w₁, h₁, h₂⟩, h₃⟩
      · rintro ⟨w₂, ⟨w₁, h₁, h₂⟩, h₃⟩
        exact ⟨w₁, h₁, w₂, h₂, h₃⟩

@[simp] theorem rotations_append (ops ops' : List (Op α)) :
    rotations (ops ++ ops') = rotations ops + rotations ops' := by
  induction ops with
  | nil => simp [rotations]
  | cons op ops ih =>
      cases op with
      | rotate =>
          simp only [List.cons_append, rotations, ih]
          omega
      | _ => exact ih

/-! ### What the calls do to the bags -/

/-- A rotation leaves nothing in the oldest bag; otherwise the head block stays. -/
def Cfg.clears (cfg : Cfg) : Bool := cfg.originalFree && cfg.pool == .none

/-- What a rotation leaves of the oldest bag. -/
def Cfg.rest (cfg : Cfg) (b : BlockBag α) : BlockBag α :=
  if cfg.clears then .empty else ⟨b.head, [], b.head_lt, BlockBag.full_eq_nil⟩

theorem Pool.addMoveFullBlocks_snd {cfg : Cfg} (h : cfg.originalFree = true) (b : BlockBag α) :
    (cfg.pool.addMoveFullBlocks b).2 = cfg.rest b := by
  obtain ⟨o, pool⟩ := cfg
  obtain rfl : o = true := h
  cases pool with
  | none => rw [addMoveFullBlocks, BlockBag.deallocateAndClear_eq]; rfl
  | perthread => rfl

theorem Pool.mem_of_mem_addMoveFullBlocks {pool : Pool} {b : BlockBag α} {x : α}
    (h : x ∈ (pool.addMoveFullBlocks b).1) : x ∈ b.items := by
  cases pool with
  | none => rwa [addMoveFullBlocks, BlockBag.deallocateAndClear_eq] at h
  | perthread => exact List.mem_append_right _ h

/-- **What a rotation does to the bags.** -/
structure Rotates (cfg : Cfg) (w w' : World α) : Prop where
  index : w'.data.index = w.data.index + 1
  currentBag : w'.data.currentBag = w.data.index + 1
  others : ∀ j ≠ w.data.index + 4, w'.data.epochbags j = w.data.epochbags j
  oldest : ∃ b, w.data.epochbags (w.data.index + 4) = some b ∧
    w'.data.epochbags (w.data.index + 4) = some (cfg.rest b) ∧
    w'.versions = w.versions ++ b.items
  freelist : w'.data.deamortizedFreeables.isSome = w.data.deamortizedFreeables.isSome

theorem oldest_eq (i : Fin numberOfEpochBags) : i + 1 + numberOfAlwaysEmptyEpochBags = i + 4 := by
  decide +revert

theorem rotate_spec (h : step cfg w .rotate = some w') : Rotates cfg w w' := by
  simp only [step, Option.map_eq_some_iff] at h
  obtain ⟨⟨d, versions, freed⟩, hr, rfl⟩ := h
  simp only [ThreadData.rotateEpochBags, oldest_eq, Option.bind_eq_bind,
    Option.bind_eq_some_iff] at hr
  obtain ⟨b, hb, hr⟩ := hr
  by_cases ho : cfg.originalFree = true
  · rw [if_pos ho] at hr
    cases hr
    refine ⟨rfl, rfl, fun j hj => Function.update_of_ne hj _ _, ⟨b, hb, ?_, rfl⟩, rfl⟩
    rw [← Pool.addMoveFullBlocks_snd ho]
    exact Function.update_self ..
  · rw [if_neg ho, Option.bind_eq_some_iff] at hr
    obtain ⟨freelist, hf, hr⟩ := hr
    cases hr
    refine ⟨rfl, rfl, fun j hj => Function.update_of_ne hj _ _, ⟨b, hb, ?_, rfl⟩, by rw [hf]; rfl⟩
    have hc : cfg.rest b = ⟨b.head, [], b.head_lt, BlockBag.full_eq_nil⟩ := by
      rw [Cfg.rest, Cfg.clears, Bool.eq_false_iff.mpr ho]
      rfl
    rw [hc]
    exact Function.update_self ..

/-- What `retire` does to the bags. -/
structure Retires (w w' : World α) (x : α) : Prop where
  index : w'.data.index = w.data.index
  currentBag : w'.data.currentBag = w.data.currentBag
  others : ∀ j ≠ w.data.currentBag, w'.data.epochbags j = w.data.epochbags j
  current : ∃ b, w.data.epochbags w.data.currentBag = some b ∧
    w'.data.epochbags w.data.currentBag = some (b.add x)
  versions : w'.versions = w.versions
  freelist : w'.data.deamortizedFreeables = w.data.deamortizedFreeables

theorem retire_spec {x : α} (h : step cfg w (.retire x) = some w') : Retires w w' x := by
  simp only [step, Option.map_eq_some_iff] at h
  obtain ⟨d, hd, rfl⟩ := h
  simp only [ThreadData.retire, Option.bind_eq_bind, Option.bind_eq_some_iff] at hd
  obtain ⟨b, hb, hd⟩ := hd
  cases hd
  exact ⟨rfl, rfl, fun j hj => Function.update_of_ne hj _ _, ⟨b, hb, Function.update_self ..⟩, rfl,
    rfl⟩

/-- What `startOp` frees is not in the bags. -/
structure FreesOne (w w' : World α) : Prop where
  index : w'.data.index = w.data.index
  currentBag : w'.data.currentBag = w.data.currentBag
  bags : w'.data.epochbags = w.data.epochbags
  versions : w'.versions = w.versions
  freelist : w'.data.deamortizedFreeables.isSome = w.data.deamortizedFreeables.isSome

theorem freeOne_spec (h : step cfg w .freeOne = some w') : FreesOne w w' := by
  simp only [step, Option.map_eq_some_iff] at h
  obtain ⟨⟨d, freed⟩, hd, rfl⟩ := h
  by_cases ho : cfg.originalFree = true
  · rw [ThreadData.freeOne, if_pos ho] at hd
    cases hd
    exact ⟨rfl, rfl, rfl, rfl, rfl⟩
  · simp only [ThreadData.freeOne, if_neg ho, Option.bind_eq_bind, Option.bind_eq_some_iff] at hd
    obtain ⟨freelist, hf, hd⟩ := hd
    cases hr : freelist.remove with
    | none =>
        rw [hr] at hd
        cases hd
        exact ⟨rfl, rfl, rfl, rfl, rfl⟩
    | some p =>
        rw [hr] at hd
        cases hd
        exact ⟨rfl, rfl, rfl, rfl, by rw [hf]; rfl⟩

/-! ### How long an object stays in its bag -/

/-- **After how many rotations** the bag `j` is handed on, if `i` is the index. -/
def due (i j : Fin numberOfEpochBags) : ℕ := (j - i - 4).val + 1

theorem due_self (i : Fin numberOfEpochBags) : due i i = 6 := by
  decide +revert

theorem due_oldest (i : Fin numberOfEpochBags) : due i (i + 4) = 1 := by
  decide +revert

theorem due_handed (i : Fin numberOfEpochBags) : due (i + 1) (i + 4) = 9 := by
  decide +revert

theorem due_of_ne {i j : Fin numberOfEpochBags} (h : j ≠ i + 4) : due i j = due (i + 1) j + 1 := by
  decide +revert

theorem due_pos (i j : Fin numberOfEpochBags) : 0 < due i j := Nat.succ_pos _

/-- The object is in the bag `j`. -/
def Kept (w : World α) (j : Fin numberOfEpochBags) (x : α) : Prop :=
  ∃ b, w.data.epochbags j = some b ∧ x ∈ b.items

theorem Kept.step {j : Fin numberOfEpochBags} {x : α} (h : Kept w j x) (hop : op.inner = true)
    (hs : step cfg w op = some w') (hd : rotations [op] < due w.data.index j) :
    Kept w' j x ∧ due w'.data.index j + rotations [op] = due w.data.index j := by
  obtain ⟨b, hb, hx⟩ := h
  cases op with
  | init => cases hop
  | deinit => cases hop
  | retire y =>
      have hr := retire_spec hs
      refine ⟨?_, by rw [hr.index]; rfl⟩
      by_cases hj : j = w.data.currentBag
      · obtain ⟨b', hb', hadd⟩ := hr.current
        subst hj
        cases hb.symm.trans hb'
        exact ⟨_, hadd, BlockBag.mem_items_add.mpr (.inr hx)⟩
      · exact ⟨b, (hr.others j hj).trans hb, hx⟩
  | freeOne =>
      have hr := freeOne_spec hs
      exact ⟨⟨b, hr.bags ▸ hb, hx⟩, by rw [hr.index]; rfl⟩
  | rotate =>
      have hr := rotate_spec hs
      have hj : j ≠ w.data.index + 4 := by
        rintro rfl
        rw [due_oldest] at hd
        exact absurd hd (by simp [rotations])
      refine ⟨⟨b, (hr.others j hj).trans hb, hx⟩, ?_⟩
      rw [hr.index, due_of_ne hj]
      rfl

theorem rotations_cons (op : Op α) (ops : List (Op α)) :
    rotations (op :: ops) = rotations [op] + rotations ops := rotations_append [op] ops

end Cbat.Debra
