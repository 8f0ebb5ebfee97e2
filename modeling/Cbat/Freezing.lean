/-
**A protocol for freezing nodes.**

Several processes want to change nodes, each a few at a time.  A process writes down what it is
about to do in a record: a list of nodes, and for each of them the record that it has last seen
there, which was finished by then.  The record is installed in these nodes one after the other, by
the process itself and by any helper; if another record has come in between somewhere, the record is
aborted, otherwise some of its nodes are marked for removal, the change is made and the record is
committed.  A node that leads to a finished record may be taken by the next one.

Records are numbered by the time at which they were written.  A node leads to later and later
records, so a record that has lost one node never gets it, and everything else follows from that.

When a record is replaced at a node, the process that replaced it has to account for it: an aborted
record has a flag for each of its nodes that may still lead to it, and the flag is cleared once.

Main definitions:

* `Freezing` — the records, the nodes and where they lead;
* `Freezing.Behind`, `Freezing.Lost`, `Freezing.Doomed` — a node leads to a record or a later one;
  a record has missed one of its nodes; it has missed one that it still needs;
* `Freezing.Ok` — **the invariant**;
* `Freezing.Act`, `Freezing.Move` — what one step of the protocol does, and to which record;
* `Freezing.Later` — what lasts about a record.

Main results:

* `Freezing.Ok.move` — **every move keeps the invariant**;
* `Freezing.Ok.not_aborted` — once all nodes are frozen the record cannot be aborted;
* `Freezing.Ok.later` — a move leaves alone what has been written;
* `Freezing.Ok.lost_later`, `Freezing.Ok.ptr_later` — **a record never gets a node that it has
  missed, and a node never comes back to a record**.
-/

import Mathlib.Logic.Function.Basic
import Mathlib.Order.Basic
import Mathlib.Tactic.Common

set_option relaxedAutoImplicit false
set_option autoImplicit false

/-- What has become of a record; an aborted one failed at a node. -/
inductive FreezeStatus where
  | inProgress
  | committed
  | aborted (i : ℕ)
  deriving DecidableEq

/-- Records of type `ρ` and nodes of type `ν`. -/
structure Freezing (ρ ν : Type*) where
  /-- `plan r j x s`: the node number `j` of the record `r` is `x`, where `r` is to replace `s` -/
  plan : ρ → ℕ → ν → ρ → Prop
  /-- the number of nodes of a record, including those that need not be frozen -/
  size : ρ → ℕ
  /-- the record that a node leads to -/
  ptr : ν → ρ
  /-- the node is marked -/
  marked : ν → Prop
  /-- the status of a record -/
  status : ρ → FreezeStatus
  /-- the record knows that all its nodes have been frozen -/
  allFrozen : ρ → Prop
  /-- the flag of a record for one of its nodes -/
  flag : ρ → ℕ → Prop
  /-- the nodes before this one have been dealt with -/
  front : ρ → ℕ
  /-- the change has been made -/
  swung : ρ → Prop
  /-- the records replaced at the nodes before this one have been accounted for -/
  done : ρ → ℕ
  /-- when the record was written -/
  time : ρ → ℕ

namespace Freezing

variable {ρ ν : Type*} {v v' : Freezing ρ ν} {dummy r r' s o : ρ} {i j : ℕ} {x : ν}

/-- The node leads to the record or to a later one. -/
def Behind (v : Freezing ρ ν) (x : ν) (s : ρ) : Prop := v.ptr x = s ∨ v.time s < v.time (v.ptr x)

/-- The record has missed its node number `j`. -/
def Lost (v : Freezing ρ ν) (r : ρ) (j : ℕ) : Prop :=
  ∃ x s, v.plan r j x s ∧ v.ptr x ≠ r ∧ v.time s < v.time (v.ptr x)

/-- The record has missed a node that it still needs. -/
def Doomed (v : Freezing ρ ν) (r : ρ) : Prop := ∃ j, v.front r ≤ j ∧ v.Lost r j

/-- **The invariant of the protocol.** -/
structure Ok (v : Freezing ρ ν) (dummy : ρ) : Prop where
  plan_lt : ∀ {r j x s}, v.plan r j x s → j < v.size r
  plan_fun : ∀ {r j x s x' s'}, v.plan r j x s → v.plan r j x' s' → x = x' ∧ s = s'
  plan_inj : ∀ {r j j' x s s'}, v.plan r j x s → v.plan r j' x s' → j = j'
  plan_zero : ∀ {r j x s}, v.plan r j x s → ∃ x s, v.plan r 0 x s
  dummy_plan : ∀ {j x s}, ¬ v.plan dummy j x s
  dummy_status : v.status dummy ≠ .inProgress ∧ v.status dummy ≠ .committed
  seen_published : ∀ {r j x s}, v.plan r j x s → s = dummy ∨ ∃ i s', v.plan s i x s' ∧ i < v.front s
  seen_finished : ∀ {r j x s}, v.plan r j x s → v.status s ≠ .inProgress
  seen_kept : ∀ {r j x s i s'}, v.plan r j x s → v.status s = .committed → v.plan s i x s' → i = 0
  seen_behind : ∀ {r j x s}, v.plan r j x s → v.Behind x s
  time_lt : ∀ {r j x s}, v.plan r j x s → v.time s < v.time r
  front_le : ∀ r, v.front r ≤ v.size r
  front_behind : ∀ {r j x s}, v.plan r j x s → j < v.front r → v.Behind x r
  busy : ∀ {r j x s}, v.status r = .inProgress → v.plan r j x s → j < v.front r → v.ptr x = r
  ptr_frozen : ∀ {x}, v.ptr x ≠ dummy → ∃ j s, v.plan (v.ptr x) j x s ∧ j < v.front (v.ptr x)
  replaced_once : ∀ {r j x s r' j'}, v.plan r j x s → j < v.front r → v.plan r' j' x s →
    j' < v.front r' → r = r'
  aborted : ∀ {r i}, 0 < v.front r → v.status r = .aborted i → v.front r = i ∧ v.Lost r i
  frozen : ∀ {r}, v.allFrozen r → v.front r = v.size r ∧ 0 < v.front r
  committed : ∀ {r}, v.status r = .committed → v.swung r
  swung_frozen : ∀ {r}, v.swung r → v.allFrozen r
  swung_marked : ∀ {r j x s}, v.swung r → v.plan r j x s → j ≠ 0 → v.marked x
  marked_plan : ∀ {x}, v.marked x → ∃ j s, v.plan (v.ptr x) j x s ∧ j ≠ 0 ∧ v.allFrozen (v.ptr x)
  flag_ptr : ∀ {o i x s k}, v.status o = .aborted k → v.ptr x = o → v.plan o i x s → v.flag o i
  flag_due : ∀ {r j x o i s k}, v.plan r j x o → j < v.front r → v.done r ≤ j →
    v.status o = .aborted k → v.plan o i x s → v.flag o i

/-! ### Moves -/

/-- The plan of a record that is about to be written. -/
structure Startable (v : Freezing ρ ν) (dummy r : ρ) (plan : ℕ → ν → ρ → Prop) (size time : ℕ) :
    Prop where
  ne_dummy : r ≠ dummy
  unpublished : v.front r = 0
  time_lt : ∀ r', v.time r' < time
  plan_lt : ∀ {j x s}, plan j x s → j < size
  plan_fun : ∀ {j x s x' s'}, plan j x s → plan j x' s' → x = x' ∧ s = s'
  plan_inj : ∀ {j j' x s s'}, plan j x s → plan j' x s' → j = j'
  plan_zero : ∀ {j x s}, plan j x s → ∃ x s, plan 0 x s
  published : ∀ {j x s}, plan j x s → s = dummy ∨ ∃ i s', v.plan s i x s' ∧ i < v.front s
  finished : ∀ {j x s}, plan j x s → v.status s ≠ .inProgress
  kept : ∀ {j x s i s'}, plan j x s → v.status s = .committed → v.plan s i x s' → i = 0
  behind : ∀ {j x s}, plan j x s → v.Behind x s

/-- The record that a move is about: it is helped, one that it has replaced is accounted for, or it
is written. -/
inductive Act (ρ : Type*) where
  | none
  | help (r : ρ)
  | account (r : ρ)
  | write (r : ρ)

/-- What one step of the protocol does. -/
inductive Move [DecidableEq ρ] [DecidableEq ν] (v : Freezing ρ ν) (dummy : ρ) :
    Act ρ → Freezing ρ ν → Prop
  /-- nothing -/
  | stay : Move v dummy .none v
  /-- the next node need not be frozen, or has been dealt with already -/
  | pass (r : ρ) (i : ℕ) (hi : i < v.size r) (hf : i ≤ v.front r) (h0 : 0 < v.front r)
      (hnone : i = v.front r → ∀ x s, ¬ v.plan r i x s) :
      Move v dummy (.help r) { v with front := Function.update v.front r (max (v.front r) (i + 1)) }
  /-- the next node is frozen -/
  | freeze (r : ρ) (i : ℕ) (x : ν) (s : ρ) (hp : v.plan r i x s) (hf : i ≤ v.front r)
      (hx : v.ptr x = s) (h0 : 0 < v.front r ∨ v.status r = .inProgress) :
      Move v dummy (.help r) { v with
        ptr := Function.update v.ptr x r
        front := Function.update v.front r (max (v.front r) (i + 1)) }
  /-- the record is aborted; the flags tell which nodes lead to it -/
  | abort (r : ρ) (i : ℕ) (flag : ℕ → Prop) (hs : v.status r = .inProgress) (hf : v.front r = i)
      (h0 : 0 < i) (hl : v.Lost r i) (hflag : ∀ j x s, v.plan r j x s → j < i → flag j) :
      Move v dummy (.help r) { v with
        status := Function.update v.status r (.aborted i)
        flag := Function.update v.flag r flag }
  /-- the record gets to know that all nodes are frozen -/
  | setFrozen (r : ρ) (hf : v.front r = v.size r) (h0 : 0 < v.front r) :
      Move v dummy (.help r) { v with allFrozen := Function.update v.allFrozen r True }
  /-- a node is marked -/
  | mark (r : ρ) (i : ℕ) (x : ν) (s : ρ) (hp : v.plan r i x s) (hi : i ≠ 0) (ha : v.allFrozen r) :
      Move v dummy (.help r) { v with marked := Function.update v.marked x True }
  /-- the change is made -/
  | swing (r : ρ) (ha : v.allFrozen r) (hm : ∀ j x s, v.plan r j x s → j ≠ 0 → v.marked x) :
      Move v dummy (.help r) { v with swung := Function.update v.swung r True }
  /-- the record is committed -/
  | commit (r : ρ) (flag : ℕ → Prop) (hs : v.swung r) :
      Move v dummy (.help r) { v with
        status := Function.update v.status r .committed
        flag := Function.update v.flag r flag }
  /-- a record that was replaced has no flags -/
  | account (r : ρ) (j : ℕ) (hj : v.done r = j) :
      Move v dummy (.account r) { v with done := Function.update v.done r (j + 1) }
  /-- the flag of a record that was replaced is cleared -/
  | clear (r : ρ) (j : ℕ) (x : ν) (o : ρ) (i : ℕ) (s : ρ) (hj : v.done r = j)
      (hp : v.plan r j x o) (hf : j < v.front r) (ho : v.plan o i x s) :
      Move v dummy (.account r) { v with
        flag := Function.update v.flag o fun k => v.flag o k ∧ k ≠ i
        done := Function.update v.done r (j + 1) }
  /-- a record is written -/
  | start (r : ρ) (plan : ℕ → ν → ρ → Prop) (size time : ℕ) (flag : ℕ → Prop)
      (h : v.Startable dummy r plan size time) :
      Move v dummy (.write r) { v with
        plan := Function.update v.plan r plan
        size := Function.update v.size r size
        status := Function.update v.status r .inProgress
        allFrozen := Function.update v.allFrozen r False
        flag := Function.update v.flag r flag
        front := Function.update v.front r 0
        swung := Function.update v.swung r False
        done := Function.update v.done r 0
        time := Function.update v.time r time }

namespace Ok

/-! ### First consequences -/

variable (h : v.Ok dummy)

include h

theorem not_aborted (ha : v.allFrozen r) : v.status r ≠ .aborted i := by
  intro hs
  obtain ⟨hsize, h0⟩ := h.frozen ha
  obtain ⟨hi, x, s, hp, -⟩ := h.aborted h0 hs
  have := h.plan_lt hp
  omega

theorem behind_ne (hp : v.plan r j x s) (hb : v.Behind x r) : v.ptr x ≠ s := by
  have ht := h.time_lt hp
  rcases hb with hb | hb
  · rintro rfl
    rw [hb] at ht
    omega
  · rintro rfl
    omega

/-- A node that leads to the seen record has not been dealt with. -/
theorem front_le_of_ptr (hp : v.plan r j x s) (hx : v.ptr x = s) : v.front r ≤ j := by
  by_contra hlt
  exact h.behind_ne hp (h.front_behind hp (Nat.lt_of_not_le hlt)) hx

theorem ptr_ne_of_unpublished (hr : r ≠ dummy) (h0 : v.front r = 0) (x : ν) : v.ptr x ≠ r := by
  rintro rfl
  obtain ⟨j, s, -, hj⟩ := h.ptr_frozen hr
  omega

theorem seen_ne_of_unpublished (hr : r ≠ dummy) (h0 : v.front r = 0) (hp : v.plan r' j x s) :
    s ≠ r := by
  rintro rfl
  rcases h.seen_published hp with hd | ⟨i, s', -, hi⟩
  · exact hr hd
  · omega

end Ok

/-! ### Every move keeps the invariant -/

namespace Ok

/-- A node that is not planned has been dealt with. -/
theorem pass [DecidableEq ρ] (h : v.Ok dummy) (hi : i < v.size r) (hf : i ≤ v.front r)
    (h0 : 0 < v.front r) (hnone : i = v.front r → ∀ x s, ¬ v.plan r i x s) :
    Ok { v with front := Function.update v.front r (max (v.front r) (i + 1)) } dummy := by
  have hle := h.front_le r
  have self : Function.update v.front r (max (v.front r) (i + 1)) r = max (v.front r) (i + 1) :=
    Function.update_self ..
  have other {r'} (hr : r' ≠ r) :
      Function.update v.front r (max (v.front r) (i + 1)) r' = v.front r' :=
    Function.update_of_ne hr ..
  generalize Function.update v.front r (max (v.front r) (i + 1)) = front' at *
  have mono (r') : v.front r' ≤ front' r' := by
    by_cases hr : r' = r
    · subst hr; omega
    · exact Nat.le_of_eq (other hr).symm
  have le (r') : front' r' ≤ v.size r' := by
    by_cases hr : r' = r
    · subst hr; omega
    · exact Nat.le_trans (Nat.le_of_eq (other hr)) (h.front_le r')
  have same {r' j x s} (hp : v.plan r' j x s) (hj : j < front' r') : j < v.front r' := by
    by_cases hr : r' = r
    · subst hr
      by_contra hlt
      obtain rfl : j = i := by omega
      exact hnone (by omega) _ _ hp
    · exact other hr ▸ hj
  have pos {r'} (hpos : 0 < front' r') : 0 < v.front r' := by
    by_cases hr : r' = r
    · exact hr ▸ h0
    · exact other hr ▸ hpos
  exact
    { h with
      seen_published := fun hp => (h.seen_published hp).imp_right fun ⟨k, s', hk, hlt⟩ =>
        ⟨k, s', hk, Nat.lt_of_lt_of_le hlt (mono _)⟩
      front_le := le
      front_behind := fun hp hj => h.front_behind hp (same hp hj)
      busy := fun hs hp hj => h.busy hs hp (same hp hj)
      ptr_frozen := fun hx => (h.ptr_frozen hx).imp fun k => Exists.imp fun s' hk =>
        ⟨hk.1, Nat.lt_of_lt_of_le hk.2 (mono _)⟩
      replaced_once := fun hp hj hp' hj' => h.replaced_once hp (same hp hj) hp' (same hp' hj')
      aborted := fun {r' k} hpos hs => by
        -- the node at which the record was aborted is planned
        obtain ⟨hk, x, s, hp, hl⟩ := h.aborted (pos hpos) hs
        have hge := mono r'
        have hnot : ¬ k < front' r' := fun hlt => by have := same hp hlt; omega
        exact ⟨by simp only; omega, x, s, hp, hl⟩
      frozen := fun {r'} ha => by
        obtain ⟨hsize, hpos⟩ := h.frozen ha
        have hge := mono r'
        have hle := le r'
        exact ⟨by simp only; omega, by simp only; omega⟩
      flag_due := fun hp hj hd ho hp' => h.flag_due hp (same hp hj) hd ho hp' }

/-- A record that can take its next node has not been aborted. -/
theorem not_aborted_of_ptr (h : v.Ok dummy) (hp : v.plan r i x s) (hf : i ≤ v.front r)
    (hx : v.ptr x = s) (h0 : 0 < v.front r ∨ v.status r = .inProgress) (k : ℕ) :
    v.status r ≠ .aborted k := by
  intro hs
  rcases h0 with h0 | h0
  · obtain ⟨hk, y, t, hp', -, hlt⟩ := h.aborted h0 hs
    have hle := h.front_le_of_ptr hp hx
    obtain rfl : k = i := by omega
    obtain ⟨rfl, rfl⟩ := h.plan_fun hp hp'
    rw [hx] at hlt
    omega
  · simp [hs] at h0

section Freeze

variable [DecidableEq ν]

theorem behind_freeze (h : v.Ok dummy) (hp : v.plan r i x s) (hx : v.ptr x = s) (front' : ρ → ℕ)
    {y : ν} {t : ρ} (hb : v.Behind y t) :
    Behind { v with ptr := Function.update v.ptr x r, front := front' } y t := by
  by_cases hy : y = x
  · subst hy
    have ht := h.time_lt hp
    refine .inr ?_
    simp only [Function.update_self]
    rcases hb with hb | hb
    · rwa [← hb, hx]
    · rw [hx] at hb
      omega
  · unfold Behind at hb ⊢
    simpa [hy] using hb

theorem lost_freeze (h : v.Ok dummy) (hp : v.plan r i x s) (hx : v.ptr x = s) (front' : ρ → ℕ)
    {k : ℕ} (hr : r' ≠ r) (hl : v.Lost r' k) :
    Lost { v with ptr := Function.update v.ptr x r, front := front' } r' k := by
  obtain ⟨y, t, hp', hne, hlt⟩ := hl
  refine ⟨y, t, hp', ?_⟩
  by_cases hy : y = x
  · subst hy
    have ht := h.time_lt hp
    rw [hx] at hlt
    simp only [Function.update_self]
    exact ⟨hr.symm, by omega⟩
  · simpa [hy] using ⟨hne, hlt⟩

variable [DecidableEq ρ]

theorem freeze (h : v.Ok dummy) (hp : v.plan r i x s) (hf : i ≤ v.front r) (hx : v.ptr x = s)
    (h0 : 0 < v.front r ∨ v.status r = .inProgress) :
    Ok { v with
      ptr := Function.update v.ptr x r
      front := Function.update v.front r (max (v.front r) (i + 1)) } dummy := by
  have hi : v.front r = i := by have := h.front_le_of_ptr hp hx; omega
  have hlt := h.plan_lt hp
  have hna := h.not_aborted_of_ptr hp hf hx h0
  have self : Function.update v.front r (max (v.front r) (i + 1)) r = i + 1 := by simp [hi]
  have other {r'} (hr : r' ≠ r) :
      Function.update v.front r (max (v.front r) (i + 1)) r' = v.front r' :=
    Function.update_of_ne hr ..
  generalize Function.update v.front r (max (v.front r) (i + 1)) = front' at *
  have mono (r') : v.front r' ≤ front' r' := by
    by_cases hr : r' = r
    · subst hr; omega
    · exact Nat.le_of_eq (other hr).symm
  have ptr_x : Function.update v.ptr x r x = r := Function.update_self ..
  have ptr_ne {y} (hy : y ≠ x) : Function.update v.ptr x r y = v.ptr y :=
    Function.update_of_ne hy ..
  -- a node that has been dealt with was so before, or it is the one that is frozen now
  have cases {r' j y t} (hp' : v.plan r' j y t) (hj : j < front' r') :
      j < v.front r' ∨ (r' = r ∧ j = i ∧ y = x ∧ t = s) := by
    by_cases hr : r' = r
    · subst hr
      by_cases hji : j = i
      · subst hji
        obtain ⟨rfl, rfl⟩ := h.plan_fun hp hp'
        exact .inr ⟨rfl, rfl, rfl, rfl⟩
      · exact .inl (by omega)
    · exact .inl (other hr ▸ hj)
  exact
    { h with
      seen_published := fun hp' => (h.seen_published hp').imp_right fun ⟨k, s', hk, hlt⟩ =>
        ⟨k, s', hk, Nat.lt_of_lt_of_le hlt (mono _)⟩
      seen_behind := fun hp' => h.behind_freeze hp hx _ (h.seen_behind hp')
      front_le := fun r' => by
        by_cases hr : r' = r
        · subst hr; simp only; omega
        · simp only [other hr]; exact h.front_le r'
      front_behind := fun hp' hj => by
        rcases cases hp' hj with hj | ⟨rfl, rfl, rfl, rfl⟩
        · exact h.behind_freeze hp hx _ (h.front_behind hp' hj)
        · exact .inl ptr_x
      busy := fun {r' j y t} hs hp' hj => by
        rcases cases hp' hj with hj | ⟨rfl, rfl, rfl, rfl⟩
        · have hy := h.busy hs hp' hj
          by_cases hyx : y = x
          · -- a seen record is finished
            subst hyx
            exact absurd (hy.symm.trans hx ▸ hs) (h.seen_finished hp)
          · exact (ptr_ne hyx).trans hy
        · exact ptr_x
      ptr_frozen := fun {y} hy => by
        by_cases hyx : y = x
        · subst hyx
          simp only [ptr_x]
          exact ⟨i, s, hp, by omega⟩
        · simp only [ptr_ne hyx] at hy ⊢
          obtain ⟨k, t, hk, hlt⟩ := h.ptr_frozen hy
          exact ⟨k, t, hk, Nat.lt_of_lt_of_le hlt (mono _)⟩
      replaced_once := fun {a j y t b k} ha hj hb hk => by
        have old {a j} (ha : v.plan a j x s) (hj : j < v.front a) : False :=
          h.behind_ne ha (h.front_behind ha hj) hx
        rcases cases ha hj with hj' | ⟨rfl, -, rfl, rfl⟩ <;>
          rcases cases hb hk with hk' | ⟨rfl, -, hy, ht⟩
        · exact h.replaced_once ha hj' hb hk'
        · exact (old (hy ▸ ht ▸ ha) hj').elim
        · exact (old hb hk').elim
        · rfl
      aborted := fun {r' k} hpos hs => by
        have hr : r' ≠ r := by rintro rfl; exact hna k hs
        simp only [other hr] at hpos ⊢
        obtain ⟨hk, hl⟩ := h.aborted hpos hs
        exact ⟨hk, h.lost_freeze hp hx _ hr hl⟩
      frozen := fun {r'} ha => by
        obtain ⟨hsize, hpos⟩ := h.frozen ha
        have hr : r' ≠ r := by rintro rfl; omega
        simp only [other hr]
        exact ⟨hsize, hpos⟩
      marked_plan := fun {y} hm => by
        obtain ⟨k, t, hk, hk0, ha⟩ := h.marked_plan hm
        by_cases hyx : y = x
        · -- a node that was removed by a committed record is not taken any more
          subst hyx
          rw [hx] at hk ha
          refine absurd (h.seen_kept hp ?_ hk) hk0
          cases hs : v.status s with
          | inProgress => exact absurd hs (h.seen_finished hp)
          | committed => rfl
          | aborted k => exact absurd hs (h.not_aborted ha)
        · simp only [ptr_ne hyx]
          exact ⟨k, t, hk, hk0, ha⟩
      flag_ptr := fun {o k y t k'} ho hy hp' => by
        by_cases hyx : y = x
        · subst hyx
          exact absurd (ptr_x.symm.trans hy ▸ ho) (hna k')
        · exact h.flag_ptr ho ((ptr_ne hyx).symm.trans hy) hp'
      flag_due := fun hp' hj hd ho hp'' => by
        rcases cases hp' hj with hj | ⟨rfl, rfl, rfl, rfl⟩
        · exact h.flag_due hp' hj hd ho hp''
        · exact h.flag_ptr ho hx hp'' }

end Freeze

/-- Nobody has seen a record that is in progress. -/
theorem seen_ne (h : v.Ok dummy) (hs : v.status r = .inProgress) (hp : v.plan r' j x s) :
    s ≠ r := by
  rintro rfl
  exact h.seen_finished hp hs

theorem ne_dummy_of_frozen (h : v.Ok dummy) (ha : v.allFrozen r) : dummy ≠ r := by
  rintro rfl
  cases hs : v.status dummy with
  | inProgress => exact h.dummy_status.1 hs
  | committed => exact h.dummy_status.2 hs
  | aborted k => exact h.not_aborted ha hs

section Others

variable [DecidableEq ρ]

theorem abort (h : v.Ok dummy) {flag : ℕ → Prop} (hs : v.status r = .inProgress)
    (hf : v.front r = i) (hl : v.Lost r i)
    (hflag : ∀ j x s, v.plan r j x s → j < i → flag j) :
    Ok { v with
      status := Function.update v.status r (.aborted i)
      flag := Function.update v.flag r flag } dummy := by
  have hna : ¬ v.allFrozen r := by
    intro ha
    obtain ⟨hsize, -⟩ := h.frozen ha
    obtain ⟨x, s, hp, -⟩ := hl
    have := h.plan_lt hp
    omega
  have hd : dummy ≠ r := by
    rintro rfl
    exact h.dummy_status.1 hs
  have self : Function.update v.status r (.aborted i) r = .aborted i := Function.update_self ..
  have other {r'} (hr : r' ≠ r) : Function.update v.status r (.aborted i) r' = v.status r' :=
    Function.update_of_ne hr ..
  have flag_self : Function.update v.flag r flag r = flag := Function.update_self ..
  have flag_other {r'} (hr : r' ≠ r) : Function.update v.flag r flag r' = v.flag r' :=
    Function.update_of_ne hr ..
  generalize Function.update v.status r (.aborted i) = status' at *
  generalize Function.update v.flag r flag = flag' at *
  exact
    { h with
      dummy_status := by simpa only [other hd] using h.dummy_status
      seen_finished := fun hp => by
        simp only [other (h.seen_ne hs hp)]
        exact h.seen_finished hp
      seen_kept := fun hp hc hp' => by
        simp only [other (h.seen_ne hs hp)] at hc
        exact h.seen_kept hp hc hp'
      busy := fun {r' j x s} hb hp hj => by
        have hr : r' ≠ r := by rintro rfl; simp [self] at hb
        exact h.busy ((other hr).symm.trans hb) hp hj
      aborted := fun {r' k} hpos ha => by
        by_cases hr : r' = r
        · subst hr
          obtain rfl : i = k := by simpa [self] using ha
          exact ⟨hf, hl⟩
        · exact h.aborted hpos ((other hr).symm.trans ha)
      committed := fun {r'} hc => by
        have hr : r' ≠ r := by rintro rfl; simp [self] at hc
        exact h.committed ((other hr).symm.trans hc)
      flag_ptr := fun {o k x s k'} ho hx hp => by
        by_cases hr : o = r
        · subst hr
          -- only the nodes that have been frozen lead to the record
          obtain ⟨k₂, s₂, hp₂, hlt⟩ := h.ptr_frozen (x := x) (by rw [hx]; exact hd.symm)
          rw [hx] at hp₂ hlt
          simp only [flag_self]
          exact hflag k x s hp (by rw [h.plan_inj hp hp₂]; omega)
        · simp only [flag_other hr]
          exact h.flag_ptr ((other hr).symm.trans ho) hx hp
      flag_due := fun hp hj hd ho hp' => by
        have hr := h.seen_ne hs hp
        simp only [flag_other hr]
        exact h.flag_due hp hj hd ((other hr).symm.trans ho) hp' }

theorem setFrozen (h : v.Ok dummy) (hf : v.front r = v.size r) (h0 : 0 < v.front r) :
    Ok { v with allFrozen := Function.update v.allFrozen r True } dummy := by
  have mono {r'} (ha : v.allFrozen r') : Function.update v.allFrozen r True r' := by
    by_cases hr : r' = r
    · subst hr; simp
    · rwa [Function.update_of_ne hr]
  exact
    { h with
      frozen := fun {r'} ha => by
        by_cases hr : r' = r
        · subst hr; exact ⟨hf, h0⟩
        · simp only [Function.update_of_ne hr] at ha
          exact h.frozen ha
      swung_frozen := fun hs => mono (h.swung_frozen hs)
      marked_plan := fun hm => (h.marked_plan hm).imp fun k => Exists.imp fun s hk =>
        ⟨hk.1, hk.2.1, mono hk.2.2⟩ }

theorem swing (h : v.Ok dummy) (ha : v.allFrozen r)
    (hm : ∀ j x s, v.plan r j x s → j ≠ 0 → v.marked x) :
    Ok { v with swung := Function.update v.swung r True } dummy :=
  { h with
    committed := fun {r'} hc => by
      by_cases hr : r' = r
      · subst hr; simp
      · simpa only [Function.update_of_ne hr] using h.committed hc
    swung_frozen := fun {r'} hs => by
      by_cases hr : r' = r
      · subst hr; exact ha
      · simp only [Function.update_of_ne hr] at hs
        exact h.swung_frozen hs
    swung_marked := fun {r' j x s} hs hp hj => by
      by_cases hr : r' = r
      · subst hr; exact hm j x s hp hj
      · simp only [Function.update_of_ne hr] at hs
        exact h.swung_marked hs hp hj }

theorem commit (h : v.Ok dummy) (hs : v.swung r) (flag : ℕ → Prop) :
    Ok { v with
      status := Function.update v.status r .committed
      flag := Function.update v.flag r flag } dummy := by
  have hd := h.ne_dummy_of_frozen (h.swung_frozen hs)
  have self : Function.update v.status r .committed r = .committed := Function.update_self ..
  have other {r'} (hr : r' ≠ r) : Function.update v.status r .committed r' = v.status r' :=
    Function.update_of_ne hr ..
  generalize Function.update v.status r .committed = status' at *
  have not_self {r' k} (hk : status' r' = .aborted k) : r' ≠ r := by
    rintro rfl
    simp [self] at hk
  have keep {o k k'} (hk : status' o = .aborted k') (hfl : v.flag o k) :
      Function.update v.flag r flag o k := by rwa [Function.update_of_ne (not_self hk)]
  exact
    { h with
      dummy_status := by simpa only [other hd] using h.dummy_status
      seen_finished := fun {_ _ _ s} hp => by
        by_cases hr : s = r
        · subst hr; simp [self]
        · simp only [other hr]; exact h.seen_finished hp
      seen_kept := fun {_ _ _ s _ _} hp hc hp' => by
        by_cases hr : s = r
        · -- a seen record was finished before
          subst hr
          cases hst : v.status s with
          | inProgress => exact absurd hst (h.seen_finished hp)
          | committed => exact h.seen_kept hp hst hp'
          | aborted k => exact absurd hst (h.not_aborted (h.swung_frozen hs))
        · exact h.seen_kept hp ((other hr).symm.trans hc) hp'
      busy := fun {r' j x s} hb hp hj => by
        have hr : r' ≠ r := by rintro rfl; simp [self] at hb
        exact h.busy ((other hr).symm.trans hb) hp hj
      aborted := fun hpos ha => h.aborted hpos ((other (not_self ha)).symm.trans ha)
      committed := fun {r'} hc => by
        by_cases hr : r' = r
        · subst hr; exact hs
        · exact h.committed ((other hr).symm.trans hc)
      flag_ptr := fun ho hx hp =>
        keep ho (h.flag_ptr ((other (not_self ho)).symm.trans ho) hx hp)
      flag_due := fun hp hj hd ho hp' =>
        keep ho (h.flag_due hp hj hd ((other (not_self ho)).symm.trans ho) hp') }

theorem account (h : v.Ok dummy) (hj : v.done r = j) :
    Ok { v with done := Function.update v.done r (j + 1) } dummy :=
  { h with
    flag_due := fun {r' j' _ _ _ _ _} hp hlt hd => h.flag_due hp hlt (by
      by_cases hr : r' = r
      · subst hr
        simp only [Function.update_self] at hd
        omega
      · simpa only [Function.update_of_ne hr] using hd) }

theorem clear (h : v.Ok dummy) (hj : v.done r = j) (hp : v.plan r j x o) (hf : j < v.front r)
    (ho : v.plan o i x s) :
    Ok { v with
      flag := Function.update v.flag o fun k => v.flag o k ∧ k ≠ i
      done := Function.update v.done r (j + 1) } dummy := by
  have keep {o' k} (hfl : v.flag o' k) (hk : o' = o → k ≠ i) :
      Function.update v.flag o (fun k => v.flag o k ∧ k ≠ i) o' k := by
    by_cases hr : o' = o
    · subst hr
      simpa using ⟨hfl, hk rfl⟩
    · simpa [hr] using hfl
  exact
    { h with
      flag_ptr := fun {o' k y _ _} hs hy hp' => keep (h.flag_ptr hs hy hp') fun hoo hk => by
        -- the node of the flag does not lead to the record any more
        subst hoo hk
        obtain ⟨rfl, -⟩ := h.plan_fun ho hp'
        exact h.behind_ne hp (h.front_behind hp hf) hy
      flag_due := fun {r' j' y o' k _ _} hp' hlt hd hs hp'' => by
        have hd' : v.done r' ≤ j' ∧ ¬ (r' = r ∧ j' = j) := by
          by_cases hr : r' = r
          · subst hr
            simp only [Function.update_self] at hd
            exact ⟨by omega, by omega⟩
          · simp only [Function.update_of_ne hr] at hd
            exact ⟨hd, fun hc => hr hc.1⟩
        refine keep (h.flag_due hp' hlt hd'.1 hs hp'') fun hoo hk => hd'.2 ?_
        -- a record is replaced at a node only once
        subst hoo hk
        obtain ⟨rfl, -⟩ := h.plan_fun ho hp''
        obtain rfl := h.replaced_once hp' hlt hp hf
        exact ⟨rfl, h.plan_inj hp' hp⟩ }

end Others

/-- Marking a node that has been frozen. -/
theorem mark [DecidableEq ν] (h : v.Ok dummy) (hp : v.plan r i x s) (hi : i ≠ 0)
    (ha : v.allFrozen r) : Ok { v with marked := Function.update v.marked x True } dummy := by
  have mono {y} (hm : v.marked y) : Function.update v.marked x True y := by
    by_cases hy : y = x
    · subst hy; simp
    · rwa [Function.update_of_ne hy]
  exact
    { h with
      swung_marked := fun hs hp' hj => mono (h.swung_marked hs hp' hj)
      marked_plan := fun {y} hm => by
        by_cases hy : y = x
        · subst hy
          cases hs : v.status r with
          | inProgress =>
              obtain ⟨hsize, -⟩ := h.frozen ha
              have hy := h.busy hs hp (hsize ▸ h.plan_lt hp)
              simp only [hy]
              exact ⟨i, s, hp, hi, ha⟩
          | committed => exact h.marked_plan (h.swung_marked (h.committed hs) hp hi)
          | aborted k => exact absurd hs (h.not_aborted ha)
        · simp only [Function.update_of_ne hy] at hm
          exact h.marked_plan hm }

/-- Writing a record that no node leads to. -/
theorem start [DecidableEq ρ] (h : v.Ok dummy) {plan : ℕ → ν → ρ → Prop} {size time : ℕ}
    (hs : v.Startable dummy r plan size time) (flag : ℕ → Prop) :
    Ok { v with
      plan := Function.update v.plan r plan
      size := Function.update v.size r size
      status := Function.update v.status r .inProgress
      allFrozen := Function.update v.allFrozen r False
      flag := Function.update v.flag r flag
      front := Function.update v.front r 0
      swung := Function.update v.swung r False
      done := Function.update v.done r 0
      time := Function.update v.time r time } dummy := by
  have hd := hs.ne_dummy.symm
  have hptr := h.ptr_ne_of_unpublished hs.ne_dummy hs.unpublished
  have old {r' j x s} (hr : r' ≠ r) (hp : Function.update v.plan r plan r' j x s) :
      v.plan r' j x s := by rwa [Function.update_of_ne hr] at hp
  have new {j x s} (hp : Function.update v.plan r plan r j x s) : plan j x s := by
    rwa [Function.update_self] at hp
  -- a seen record is another one
  have seen {r' j x s} (hp : Function.update v.plan r plan r' j x s) : s ≠ r := by
    by_cases hr : r' = r
    · subst hr
      rcases hs.published (new hp) with rfl | ⟨i, s', -, hi⟩
      · exact hd
      · rintro rfl
        have := hs.unpublished
        omega
    · exact h.seen_ne_of_unpublished hs.ne_dummy hs.unpublished (old hr hp)
  have behind {x s} (hne : s ≠ r) (hb : v.Behind x s) : v.ptr x = s ∨
      Function.update v.time r time s < Function.update v.time r time (v.ptr x) := by
    rwa [Function.update_of_ne hne, Function.update_of_ne (hptr x)]
  have begun {r' j} (hj : j < Function.update v.front r 0 r') : r' ≠ r ∧ j < v.front r' := by
    by_cases hr : r' = r
    · subst hr
      simp at hj
    · exact ⟨hr, by rwa [Function.update_of_ne hr] at hj⟩
  have frozen {r'} (ha : Function.update v.allFrozen r False r') : r' ≠ r ∧ v.allFrozen r' := by
    by_cases hr : r' = r
    · subst hr
      simp at ha
    · exact ⟨hr, by rwa [Function.update_of_ne hr] at ha⟩
  have swung {r'} (ha : Function.update v.swung r False r') : r' ≠ r ∧ v.swung r' := by
    by_cases hr : r' = r
    · subst hr
      simp at ha
    · exact ⟨hr, by rwa [Function.update_of_ne hr] at ha⟩
  have finished {r' k} (hk : Function.update v.status r .inProgress r' = k)
      (hne : k ≠ .inProgress) : r' ≠ r ∧ v.status r' = k := by
    by_cases hr : r' = r
    · subst hr
      simp only [Function.update_self] at hk
      exact absurd hk.symm hne
    · exact ⟨hr, by rwa [Function.update_of_ne hr] at hk⟩
  exact
    { plan_lt := fun {r' _ _ _} hp => by
        by_cases hr : r' = r
        · subst hr; simpa using hs.plan_lt (new hp)
        · simpa [hr] using h.plan_lt (old hr hp)
      plan_fun := fun {r' _ _ _ _ _} hp hp' => by
        by_cases hr : r' = r
        · subst hr; exact hs.plan_fun (new hp) (new hp')
        · exact h.plan_fun (old hr hp) (old hr hp')
      plan_inj := fun {r' _ _ _ _ _} hp hp' => by
        by_cases hr : r' = r
        · subst hr; exact hs.plan_inj (new hp) (new hp')
        · exact h.plan_inj (old hr hp) (old hr hp')
      plan_zero := fun {r' _ _ _} hp => by
        by_cases hr : r' = r
        · subst hr; simpa using hs.plan_zero (new hp)
        · simpa [hr] using h.plan_zero (old hr hp)
      dummy_plan := fun hp => h.dummy_plan (old hd hp)
      dummy_status := by simpa [hd] using h.dummy_status
      seen_published := fun {r' _ _ _} hp => by
        simp only [Function.update_of_ne (seen hp)]
        by_cases hr : r' = r
        · subst hr; exact hs.published (new hp)
        · exact h.seen_published (old hr hp)
      seen_finished := fun {r' _ _ _} hp => by
        simp only [Function.update_of_ne (seen hp)]
        by_cases hr : r' = r
        · subst hr; exact hs.finished (new hp)
        · exact h.seen_finished (old hr hp)
      seen_kept := fun {r' _ _ _ _ _} hp => by
        simp only [Function.update_of_ne (seen hp)]
        by_cases hr : r' = r
        · subst hr; exact hs.kept (new hp)
        · exact h.seen_kept (old hr hp)
      seen_behind := fun {r' _ _ _} hp => behind (seen hp) (by
        by_cases hr : r' = r
        · subst hr; exact hs.behind (new hp)
        · exact h.seen_behind (old hr hp))
      time_lt := fun {r' _ _ _} hp => by
        simp only [Function.update_of_ne (seen hp)]
        by_cases hr : r' = r
        · subst hr; simpa using hs.time_lt _
        · simpa [hr] using h.time_lt (old hr hp)
      front_le := fun r' => by
        by_cases hr : r' = r
        · subst hr; simp
        · simpa [hr] using h.front_le r'
      front_behind := fun hp hj =>
        behind (begun hj).1 (h.front_behind (old (begun hj).1 hp) (begun hj).2)
      busy := fun hst hp hj => by
        obtain ⟨hr, hj⟩ := begun hj
        exact h.busy ((Function.update_of_ne hr ..).symm.trans hst) (old hr hp) hj
      ptr_frozen := fun {x} hx => by
        simpa only [Function.update_of_ne (hptr x)] using h.ptr_frozen hx
      replaced_once := fun hp hj hp' hj' => h.replaced_once (old (begun hj).1 hp) (begun hj).2
        (old (begun hj').1 hp') (begun hj').2
      aborted := fun {r' k} hpos hst => by
        obtain ⟨hr, hpos⟩ := begun hpos
        obtain ⟨-, hst⟩ := finished hst nofun
        obtain ⟨hk, x, s, hp, hne, hlt⟩ := h.aborted hpos hst
        have hsr := h.seen_ne_of_unpublished hs.ne_dummy hs.unpublished hp
        exact ⟨by simpa [hr] using hk, x, s, by simpa [hr] using hp, hne,
          by simpa [hsr, hptr x] using hlt⟩
      frozen := fun ha => by
        obtain ⟨hr, ha⟩ := frozen ha
        simpa [hr] using h.frozen ha
      committed := fun hst => by
        obtain ⟨hr, hst⟩ := finished hst nofun
        simpa [hr] using h.committed hst
      swung_frozen := fun hsw => by
        obtain ⟨hr, hsw⟩ := swung hsw
        simpa [hr] using h.swung_frozen hsw
      swung_marked := fun hsw hp hj =>
        h.swung_marked (swung hsw).2 (old (swung hsw).1 hp) hj
      marked_plan := fun {x} hm => by
        simpa only [Function.update_of_ne (hptr x)] using h.marked_plan hm
      flag_ptr := fun hst hx hp => by
        obtain ⟨hr, hst⟩ := finished hst nofun
        simpa [hr] using h.flag_ptr hst hx (old hr hp)
      flag_due := fun {r' j x o i s k} hp hj hdone hst hp' => by
        obtain ⟨hr, hj⟩ := begun hj
        obtain ⟨hro, hst⟩ := finished hst nofun
        simp only [Function.update_of_ne hr] at hdone
        simpa [hro] using h.flag_due (old hr hp) hj hdone hst (old hro hp') }

/-- **Every move keeps the invariant.** -/
theorem move [DecidableEq ρ] [DecidableEq ν] {a : Act ρ} (h : v.Ok dummy)
    (hm : v.Move dummy a v') : v'.Ok dummy := by
  cases hm with
  | stay => exact h
  | pass r i hi hf h0 hnone => exact h.pass hi hf h0 hnone
  | freeze r i x s hp hf hx h0 => exact h.freeze hp hf hx h0
  | abort r i flag hs hf h0 hl hflag => exact h.abort hs hf hl hflag
  | setFrozen r hf h0 => exact h.setFrozen hf h0
  | mark r i x s hp hi ha => exact h.mark hp hi ha
  | swing r ha hm => exact h.swing ha hm
  | commit r flag hs => exact h.commit hs flag
  | account r j hj => exact h.account hj
  | clear r j x o i s hj hp hf ho => exact h.clear hj hp hf ho
  | start r plan size time flag hs => exact h.start hs flag

end Ok

/-! ### What lasts -/

/-- What stays as it is about a record, once it has been written. -/
structure Later (v v' : Freezing ρ ν) (r : ρ) : Prop where
  plan : v'.plan r = v.plan r
  size : v'.size r = v.size r
  time : v'.time r = v.time r
  front : v.front r ≤ v'.front r
  status : v.status r ≠ .inProgress → v'.status r = v.status r
  allFrozen : v.allFrozen r → v'.allFrozen r
  swung : v.swung r → v'.swung r

theorem Later.refl (v : Freezing ρ ν) (r : ρ) : Later v v r :=
  ⟨rfl, rfl, rfl, Nat.le_refl _, fun _ => rfl, id, id⟩

theorem Later.trans {v₁ v₂ v₃ : Freezing ρ ν} (h : Later v₁ v₂ r) (h' : Later v₂ v₃ r) :
    Later v₁ v₃ r where
  plan := h'.plan.trans h.plan
  size := h'.size.trans h.size
  time := h'.time.trans h.time
  front := Nat.le_trans h.front h'.front
  status := fun hs => (h'.status (by rwa [h.status hs])).trans (h.status hs)
  allFrozen := fun ha => h'.allFrozen (h.allFrozen ha)
  swung := fun hs => h'.swung (h.swung hs)

section Lasting

variable [DecidableEq ρ] [DecidableEq ν] {a : Act ρ}

/-- **A move leaves alone what has been written**, except for the record that it writes. -/
theorem Ok.later (h : v.Ok dummy) (hm : v.Move dummy a v') (hr : a ≠ .write r) : Later v v' r := by
  have front (b : ρ) (i : ℕ) :
      v.front r ≤ Function.update v.front b (max (v.front b) (i + 1)) r := by
    by_cases ha : r = b
    · subst ha
      simp only [Function.update_self]
      omega
    · simp [ha]
  cases hm with
  | stay => exact .refl v r
  | pass a i => exact { Later.refl v r with front := front a i }
  | freeze a i => exact { Later.refl v r with front := front a i }
  | abort a i flag hs =>
      refine { Later.refl v r with status := fun hne => Function.update_of_ne ?_ .. }
      rintro rfl
      exact hne hs
  | setFrozen a =>
      refine { Later.refl v r with allFrozen := fun hf => ?_ }
      by_cases ha : r = a
      · subst ha; simp
      · simpa [ha] using hf
  | mark => exact { Later.refl v r with }
  | swing a =>
      refine { Later.refl v r with swung := fun hf => ?_ }
      by_cases ha : r = a
      · subst ha; simp
      · simpa [ha] using hf
  | commit a flag hs =>
      refine { Later.refl v r with status := fun hne => ?_ }
      by_cases ha : r = a
      · subst ha
        cases hst : v.status r with
        | inProgress => exact absurd hst hne
        | committed => simp
        | aborted k => exact absurd hst (h.not_aborted (h.swung_frozen hs))
      · simp [ha]
  | account => exact { Later.refl v r with }
  | clear => exact { Later.refl v r with }
  | start a plan size time flag ha =>
      have hra : r ≠ a := fun h => hr (h ▸ rfl)
      constructor <;> simp [hra]

theorem Move.marked (hm : v.Move dummy a v') (hx : v.marked x) : v'.marked x := by
  cases hm with
  | mark r i y s hp hi ha =>
      by_cases hy : x = y
      · subst hy; simp
      · simpa [hy] using hx
  | _ => exact hx

/-- A node leads to later and later records. -/
theorem Ok.behind_later (h : v.Ok dummy) (hm : v.Move dummy a v') (hs : a ≠ .write s)
    (hb : v.Behind x s) : v'.Behind x s := by
  cases hm with
  | freeze r i y t hp hf hx h0 => exact h.behind_freeze hp hx _ hb
  | start a plan size time flag ha =>
      have hsa : s ≠ a := fun hc => hs (hc ▸ rfl)
      have hptr := h.ptr_ne_of_unpublished ha.ne_dummy ha.unpublished x
      unfold Behind at hb ⊢
      simpa [hsa, hptr] using hb
  | _ => exact hb

/-- A node never comes back to a record. -/
theorem Ok.ptr_later (h : v.Ok dummy) (hm : v.Move dummy a v') (hb : v.Behind x s)
    (hx : v'.ptr x = s) : v.ptr x = s := by
  cases hm with
  | freeze r i y t hp hf hy h0 =>
      by_cases hxy : x = y
      · subst hxy
        obtain rfl : r = s := by simpa using hx
        exact absurd hy (h.behind_ne hp hb)
      · simpa [hxy] using hx
  | _ => exact hx

/-- **A record never gets a node that it has missed.** -/
theorem Ok.lost_later (h : v.Ok dummy) (hm : v.Move dummy a v') (hr : a ≠ .write r)
    (hl : v.Lost r j) (hj : v.front r ≤ j) : v'.Lost r j ∧ v'.front r ≤ j := by
  obtain ⟨x, s, hp, hne, hlt⟩ := hl
  cases hm with
  | pass a i hi hf h0 hnone =>
      refine ⟨⟨x, s, hp, hne, hlt⟩, ?_⟩
      by_cases ha : r = a
      · subst ha
        have : i ≠ j := by
          rintro rfl
          exact hnone (by omega) x s hp
        simp only [Function.update_self]
        omega
      · simpa [ha] using hj
  | freeze a i y t hp' hf hx h0 =>
      by_cases ha : r = a
      · subst ha
        have hle := h.front_le_of_ptr hp' hx
        have hij : i ≠ j := by
          rintro rfl
          obtain ⟨rfl, rfl⟩ := h.plan_fun hp hp'
          rw [hx] at hlt
          omega
        have hxy : x ≠ y := by
          rintro rfl
          exact hij (h.plan_inj hp' hp)
        refine ⟨⟨x, s, hp, ?_⟩, ?_⟩
        · simpa [hxy] using ⟨hne, hlt⟩
        · simp only [Function.update_self]
          omega
      · exact ⟨h.lost_freeze hp' hx _ ha ⟨x, s, hp, hne, hlt⟩, by simpa [ha] using hj⟩
  | start a plan size time flag ha =>
      have hra : r ≠ a := fun hc => hr (hc ▸ rfl)
      have hptr := h.ptr_ne_of_unpublished ha.ne_dummy ha.unpublished x
      have hsa := h.seen_ne_of_unpublished ha.ne_dummy ha.unpublished hp
      exact ⟨⟨x, s, by simpa [hra] using hp, hne, by simpa [hptr, hsa] using hlt⟩,
        by simpa [hra] using hj⟩
  | _ => exact ⟨⟨x, s, hp, hne, hlt⟩, hj⟩

theorem Ok.doomed_later (h : v.Ok dummy) (hm : v.Move dummy a v') (hr : a ≠ .write r)
    (hd : v.Doomed r) : v'.Doomed r := by
  obtain ⟨j, hj, hl⟩ := hd
  obtain ⟨hl', hj'⟩ := h.lost_later hm hr hl hj
  exact ⟨j, hj', hl'⟩

theorem Move.unpublished (hm : v.Move dummy (.write r) v') : r ≠ dummy ∧ v.front r = 0 := by
  cases hm with
  | start r plan size time flag hs => exact ⟨hs.ne_dummy, hs.unpublished⟩

/-- A record is committed only after the change has been made. -/
theorem Move.swung_of_committed (hm : v.Move dummy a v') (hr : a ≠ .write r)
    (hs : v.status r ≠ .committed) (hs' : v'.status r = .committed) : v.swung r := by
  cases hm with
  | commit b flag hb =>
      by_cases hrb : r = b
      · exact hrb ▸ hb
      · simp only [Function.update_of_ne hrb] at hs'
        exact absurd hs' hs
  | abort b i =>
      by_cases hrb : r = b
      · subst hrb
        simp at hs'
      · simp only [Function.update_of_ne hrb] at hs'
        exact absurd hs' hs
  | start b =>
      have hb : r ≠ b := fun h => hr (h ▸ rfl)
      simp only [Function.update_of_ne hb] at hs'
      exact absurd hs' hs
  | _ => exact absurd hs' hs

/-- **A marked node keeps its record.** -/
theorem Ok.ptr_of_marked (h : v.Ok dummy) (hm : v.Move dummy a v') (hx : v.marked x) :
    v'.ptr x = v.ptr x := by
  cases hm with
  | freeze r i y s hp hf hy h0 =>
      have hxy : x ≠ y := by
        rintro rfl
        obtain ⟨j, t, hj, hj0, ha⟩ := h.marked_plan hx
        rw [hy] at hj ha
        refine hj0 (h.seen_kept hp ?_ hj)
        cases hs : v.status s with
        | inProgress => exact absurd hs (h.seen_finished hp)
        | committed => rfl
        | aborted k => exact absurd hs (h.not_aborted ha)
      simp [hxy]
  | _ => rfl

/-- A record that is not helped. -/
theorem Move.unhelped (hm : v.Move dummy a v') (hh : a ≠ .help r) (hr : a ≠ .write r) :
    v'.front r = v.front r ∧ v'.status r = v.status r ∧ (v'.allFrozen r ↔ v.allFrozen r) ∧
      (v'.swung r ↔ v.swung r) := by
  cases hm with
  | stay => simp
  | start b =>
      have hb : r ≠ b := fun h => hr (h ▸ rfl)
      simp [hb]
  | account => simp
  | clear => simp
  | _ b =>
      have hb : r ≠ b := fun h => hh (h ▸ rfl)
      simp [hb]

theorem Move.done_eq (hm : v.Move dummy a v') (ha : a ≠ .account r) (hr : a ≠ .write r) :
    v'.done r = v.done r := by
  cases hm with
  | start b =>
      have hb : r ≠ b := fun h => hr (h ▸ rfl)
      simp [hb]
  | account b =>
      have hb : r ≠ b := fun h => ha (h ▸ rfl)
      simp [hb]
  | clear b =>
      have hb : r ≠ b := fun h => ha (h ▸ rfl)
      simp [hb]
  | _ => rfl

theorem Move.done_le (hm : v.Move dummy a v') (hr : a ≠ .write r) : v.done r ≤ v'.done r := by
  have step (b : ρ) (j : ℕ) (hj : v.done b = j) :
      v.done r ≤ Function.update v.done b (j + 1) r := by
    by_cases hb : r = b
    · subst hb
      simp only [Function.update_self]
      omega
    · simp [hb]
  cases hm with
  | start b =>
      have hb : r ≠ b := fun h => hr (h ▸ rfl)
      simp [hb]
  | account b j hj => exact step b j hj
  | clear b j x o i s hj => exact step b j hj
  | _ => exact Nat.le_refl _

/-- **An aborted record gets no new flag.** -/
theorem Ok.flag_later (h : v.Ok dummy) (hm : v.Move dummy a v') (hr : a ≠ .write r)
    (hs : v.status r = .aborted i) (hf : v'.flag r j) : v.flag r j := by
  cases hm with
  | abort b k flag hb =>
      have hne : r ≠ b := by
        rintro rfl
        simp [hs] at hb
      simpa [hne] using hf
  | commit b flag hb =>
      have hne : r ≠ b := by
        rintro rfl
        exact h.not_aborted (h.swung_frozen hb) hs
      simpa [hne] using hf
  | clear b k x o l s hj hp hlt ho =>
      by_cases hro : r = o
      · subst hro
        simp only [Function.update_self] at hf
        exact hf.1
      · simpa [hro] using hf
  | start b =>
      have hb : r ≠ b := fun h => hr (h ▸ rfl)
      simpa [hb] using hf
  | _ => exact hf

end Lasting

end Freezing
