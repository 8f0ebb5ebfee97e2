/-
**`refreshLong` of the second version of BAT-EagerDel.**

A thread that refreshes a node tries to install a version that is made from the versions of the
children.  If it succeeds and the versions of the children have changed since, it tries a second
time; the version it installs then is marked as the one of a second CAS.  If the first CAS fails
against an unmarked version, that version's thread will see the same children, and the call returns
its status.  If it fails against a marked one, nobody will refresh the node again, so the call tries
once more itself.  But this CAS expects the version of the failed first attempt, which was never
installed.  It always fails, and the call returns its own status as if it had succeeded.

The module is about one internal node.  What happens to its children is left open: any other thread
may change them and their versions at any time.

Main definitions:

* `Cbat.RefreshLong.Mem`, `Cbat.RefreshLong.PC` — the node with its versions, and where a thread is;
* `Cbat.RefreshLong.exec` — **one atomic step** of `refreshLong`;
* `Cbat.RefreshLong.LostToSecond` — the first CAS was lost to a version of a second CAS;
* `Cbat.RefreshLong.Installed` — a version with the status was installed since.

Main results:

* `Cbat.RefreshLong.stage_of_trace` — what is known at each stage of a call;
* `Cbat.RefreshLong.success_iff` — **a call that reports success has installed a version**, if and
  only if its first CAS was not lost to a version of a second CAS;
* `Cbat.RefreshLong.success_without_install` — otherwise it has not.
-/

import Mathlib.Data.Int.Basic
import Mathlib.Data.List.Basic
import Mathlib.Data.Nat.Basic
import Mathlib.Order.Basic
import Cbat.Threads

set_option relaxedAutoImplicit false
set_option autoImplicit false

namespace Cbat.RefreshLong

/-! ### The node -/

/-- The version of a child: a pointer, and the sum that is read through it. -/
structure ChildVer where
  /-- the pointer -/
  ptr : ℕ
  /-- `sum` -/
  sum : ℤ
  deriving DecidableEq

/-- `Version`; the key is that of the node.  A status is a pointer to a `PropagateStatus`. -/
structure Version where
  /-- `sum` -/
  sum : ℤ
  /-- `left` -/
  left : Option ChildVer
  /-- `right` -/
  right : Option ChildVer
  /-- `status` -/
  status : Option ℕ
  /-- `isSecondCas` -/
  isSecondCas : Bool
  deriving DecidableEq

/-- The node with its versions. -/
structure Mem where
  /-- `version` -/
  version : Option ℕ
  /-- `left`; the node is internal -/
  left : ℕ
  /-- `right`, which the root does not have -/
  right : Option ℕ
  /-- the versions of the other nodes -/
  nodeVer : ℕ → Option ChildVer
  /-- the versions of this node -/
  heap : ℕ → Version
  /-- the next version to be allocated -/
  next : ℕ
  /-- the versions that were installed so far, the last one first -/
  log : List ℕ

/-- `initializeVersion` at the next address. -/
def Mem.alloc (m : Mem) (v : Version) : Mem :=
  { m with heap := Function.update m.heap m.next v, next := m.next + 1 }

/-- A successful CAS. -/
def Mem.install (m : Mem) (p : ℕ) : Mem := { m with version := some p, log := p :: m.log }

/-- A version made from the versions of the children. -/
def newVersion (leftver : ChildVer) (rightver : Option ChildVer) (status : Option ℕ)
    (isSecond : Bool) : Version :=
  ⟨leftver.sum + (rightver.map ChildVer.sum).getD 0, some leftver, rightver, status, isSecond⟩

/-! ### The code -/

/-- What the versions of the children are read for. -/
inductive Goal where
  /-- `refresh`, called by `getVersion` because the node has no version yet -/
  | fill
  /-- the first CAS, which expects `oldVer` -/
  | first (oldVer : Option ℕ)
  /-- the second CAS after the first one has installed `newVer1` -/
  | second (newVer1 : ℕ) (leftver1 : ChildVer) (rightver1 : Option ChildVer)
  /-- the CAS after the first one was lost to a second one -/
  | lost (newVer1 : ℕ)

/-- Where a thread is. -/
inductive PC where
  | idle
  /-- the children of the node change, and the versions of other nodes -/
  | change (left : ℕ) (right : Option ℕ) (nodeVer : ℕ → Option ChildVer)
  /-- the first load of `getVersion` -/
  | load (ps : ℕ)
  /-- the load of `refresh` -/
  | fillLoad (ps : ℕ)
  /-- the second load of `getVersion` -/
  | reload (ps : ℕ)
  /-- the left child is read -/
  | left (ps : ℕ) (goal : Goal)
  /-- `getVersion` of the left child -/
  | leftVer (ps : ℕ) (goal : Goal) (left : ℕ)
  /-- the right child is read -/
  | right (ps : ℕ) (goal : Goal) (leftver : ChildVer)
  /-- `getVersion` of the right child -/
  | rightVer (ps : ℕ) (goal : Goal) (leftver : ChildVer) (right : ℕ)
  /-- the CAS -/
  | cas (ps : ℕ) (goal : Goal) (leftver : ChildVer) (rightver : Option ChildVer)
  /-- the first CAS has failed and found `oldVer` -/
  | failed (ps : ℕ) (oldVer newVer1 : ℕ)
  /-- the call has returned -/
  | ret (ps : ℕ) (result : Option ℕ)
  /-- a null pointer was dereferenced -/
  | crash

/-- The status of the call. -/
def PC.status : PC → Option ℕ
  | .idle | .change _ _ _ | .crash => none
  | .load ps | .fillLoad ps | .reload ps | .left ps _ | .leftVer ps _ _ | .right ps _ _
  | .rightVer ps _ _ _ | .cas ps _ _ _ | .failed ps _ _ | .ret ps _ => some ps

/-- The CAS of a goal, with the allocation of the version before it. -/
def casStep (m : Mem) (ps : ℕ) (leftver : ChildVer) (rightver : Option ChildVer) :
    Goal → Mem × PC
  | .fill =>
      let m' := m.alloc (newVersion leftver rightver none false)
      (if m.version = none then m'.install m.next else m', .reload ps)
  | .first oldVer =>
      let m' := m.alloc (newVersion leftver rightver (some ps) false)
      if m.version = oldVer then
        (m'.install m.next, .left ps (.second m.next leftver rightver))
      else match m.version with
        | some found => (m', .failed ps found m.next)
        | none => (m', .crash)
  | .second newVer1 leftver1 rightver1 =>
      if leftver1.ptr = leftver.ptr ∧ rightver1.map ChildVer.ptr = rightver.map ChildVer.ptr then
        (m, .ret ps (some ps))
      else
        let m' := m.alloc (newVersion leftver rightver (some ps) true)
        if m.version = some newVer1 then (m'.install m.next, .ret ps (some ps))
        else match m.version with
          | some found => (m', .ret ps (m.heap found).status)
          | none => (m', .crash)
  | .lost newVer1 =>
      let m' := m.alloc (newVersion leftver rightver (some ps) true)
      if m.version = some newVer1 then (m'.install m.next, .ret ps (some ps))
      else (m', .ret ps (m.heap newVer1).status)

/-- **One atomic step.**  `getVersion` of a child that has no version yet waits until there is one;
the call of `refresh` that it makes is a change of the versions of other nodes. -/
def exec (m : Mem) : PC → Mem × PC
  | .idle => (m, .idle)
  | .change left right nodeVer =>
      ({ m with left := left, right := right, nodeVer := nodeVer }, .idle)
  | .load ps => (m, if m.version = none then .fillLoad ps else .reload ps)
  | .fillLoad ps => (m, if m.version = none then .left ps .fill else .reload ps)
  | .reload ps => (m, .left ps (.first m.version))
  | .left ps goal => (m, .leftVer ps goal m.left)
  | .leftVer ps goal left =>
      (m, match m.nodeVer left with
        | none => .leftVer ps goal left
        | some leftver => .right ps goal leftver)
  | .right ps goal leftver =>
      (m, match m.right with
        | none => .cas ps goal leftver none
        | some right => .rightVer ps goal leftver right)
  | .rightVer ps goal leftver right =>
      (m, match m.nodeVer right with
        | none => .rightVer ps goal leftver right
        | some rightver => .cas ps goal leftver (some rightver))
  | .cas ps goal leftver rightver => casStep m ps leftver rightver goal
  | .failed ps oldVer newVer1 =>
      (m, if (m.heap oldVer).isSecondCas then .left ps (.lost newVer1)
        else .ret ps (m.heap oldVer).status)
  | .ret ps result => (m, .ret ps result)
  | .crash => (m, .crash)

/-- What a thread may do: call `refreshLong`, or change something about the children. -/
inductive Op where
  | refreshLong (ps : ℕ)
  | change (left : ℕ) (right : Option ℕ) (nodeVer : ℕ → Option ChildVer)

/-- The node at the beginning, with any version or none. -/
def Mem.start (version : Option Version) : Mem where
  version := version.map fun _ => 0
  left := 0
  right := none
  nodeVer _ := none
  heap _ := version.getD ⟨0, none, none, none, false⟩
  next := 1
  log := (version.map fun _ => 0).toList

/-- Any number of threads that refresh the node. -/
def machine (version : Option Version) : Machine Mem PC Op where
  exec := exec
  resting pc := match pc with
    | .idle | .ret _ _ => true
    | _ => false
  start op := match op with
    | .refreshLong ps => .load ps
    | .change left right nodeVer => .change left right nodeVer
  proper _ := true
  mem₀ := Mem.start version
  idle := .idle

/-! ### What a step does to the node -/

variable {m m' m₀ : Mem} {v : Version} {status : Option ℕ} {ps : ℕ} {pc : PC}

/-- **What a step of a call does to the node**: it may allocate a version and install it. -/
inductive Effect (status : Option ℕ) (m : Mem) : Mem → Prop
  | none : Effect status m m
  | change (left : ℕ) (right : Option ℕ) (nodeVer : ℕ → Option ChildVer) :
      Effect status m { m with left := left, right := right, nodeVer := nodeVer }
  | alloc (v : Version) : Effect status m (m.alloc v)
  | install (v : Version) (hv : v.status = .none ∨ v.status = status) :
      Effect status m ((m.alloc v).install m.next)

theorem exec_effect (m : Mem) (pc : PC) : Effect pc.status m (exec m pc).1 := by
  cases pc with
  | change left right nodeVer => exact .change ..
  | cas ps goal leftver rightver =>
      simp only [exec]
      cases goal with
      | fill =>
          simp only [casStep]
          split_ifs
          · exact .install _ (.inl rfl)
          · exact .alloc _
      | first oldVer =>
          simp only [casStep]
          split_ifs
          · exact .install _ (.inr rfl)
          · split <;> exact .alloc _
      | second newVer1 leftver1 rightver1 =>
          simp only [casStep]
          split_ifs
          · exact .none
          · exact .install _ (.inr rfl)
          · split <;> exact .alloc _
      | lost newVer1 =>
          simp only [casStep]
          split_ifs
          · exact .install _ (.inr rfl)
          · exact .alloc _
  | _ => exact .none

@[simp] theorem Mem.alloc_heap_next (m : Mem) (v : Version) : (m.alloc v).heap m.next = v :=
  Function.update_self ..

theorem Mem.alloc_heap (v : Version) {p : ℕ} (hp : p < m.next) :
    (m.alloc v).heap p = m.heap p := Function.update_of_ne hp.ne ..

/-- The version of the node is the one that was installed last. -/
structure Inv (m : Mem) : Prop where
  version : m.version = m.log.head?
  log_lt : ∀ p ∈ m.log, p < m.next

theorem Inv.effect (h : Inv m) (he : Effect status m m') : Inv m' := by
  cases he with
  | none => exact h
  | change => exact ⟨h.version, h.log_lt⟩
  | alloc v => exact ⟨h.version, fun p hp => (h.log_lt p hp).trans (Nat.lt_succ_self _)⟩
  | install v hv =>
      refine ⟨rfl, fun p hp => ?_⟩
      rcases List.mem_cons.mp hp with rfl | hp
      · exact Nat.lt_succ_self _
      · exact (h.log_lt p hp).trans (Nat.lt_succ_self _)

theorem reachable_inv {version : Option Version} {s : Machine.State Mem PC}
    (h : (machine version).Reachable s) : Inv s.mem := by
  refine h.induct (P := fun s => Inv s.mem) ?_ fun s i s' _ hs hstep => ?_
  · cases version with
    | none => exact ⟨rfl, nofun⟩
    | some v =>
        refine ⟨rfl, fun p hp => ?_⟩
        obtain rfl := List.mem_singleton.mp hp
        exact Nat.one_pos
  · cases hstep with
    | call op hrest hop => exact hs
    | act => exact hs.effect (exec_effect _ _)

/-- Versions are not changed, and those that are installed are new. -/
structure Grows (status : Option ℕ) (m m' : Mem) : Prop where
  next_le : m.next ≤ m'.next
  heap : ∀ p < m.next, m'.heap p = m.heap p
  log : ∃ l, m'.log = l ++ m.log ∧ ∀ p ∈ l, m.next ≤ p ∧
    ((m'.heap p).status = none ∨ (m'.heap p).status = status)

theorem Effect.grows (h : Effect status m m') : Grows status m m' := by
  cases h with
  | none => exact ⟨le_rfl, fun _ _ => rfl, [], rfl, nofun⟩
  | change => exact ⟨le_rfl, fun _ _ => rfl, [], rfl, nofun⟩
  | alloc v => exact ⟨Nat.le_succ _, fun _ hp => Mem.alloc_heap v hp, [], rfl, nofun⟩
  | install v hv =>
      refine ⟨Nat.le_succ _, fun _ hp => Mem.alloc_heap v hp, [m.next], rfl, fun p hp => ⟨?_, ?_⟩⟩
      · exact (List.mem_singleton.mp hp).ge
      · rw [List.mem_singleton.mp hp]
        show ((m.alloc v).heap m.next).status = .none ∨ ((m.alloc v).heap m.next).status = status
        rwa [Mem.alloc_heap_next]

/-! ### The stages of a call -/

/-- The first CAS was lost to the version of a second one. -/
def LostToSecond (m : Mem) : PC → Prop
  | .failed _ oldVer _ => (m.heap oldVer).isSecondCas = true
  | _ => False

instance (m : Mem) (pc : PC) : Decidable (LostToSecond m pc) :=
  match pc with
  | .failed _ oldVer _ => inferInstanceAs (Decidable ((m.heap oldVer).isSecondCas = true))
  | .idle | .change _ _ _ | .load _ | .fillLoad _ | .reload _ | .left _ _ | .leftVer _ _ _
  | .right _ _ _ | .rightVer _ _ _ _ | .cas _ _ _ _ | .ret _ _ | .crash => isFalse id

/-- **A version with the status `ps` was installed** since the node was as in `m₀`. -/
def Installed (ps : ℕ) (m₀ m : Mem) : Prop :=
  ∃ l, m.log = l ++ m₀.log ∧ ∃ p ∈ l, (m.heap p).status = some ps

/-- `newVer1` was made by a first CAS that has failed. -/
structure Spare (ps newVer1 : ℕ) (m : Mem) : Prop where
  lt : newVer1 < m.next
  notMem : newVer1 ∉ m.log
  status : (m.heap newVer1).status = some ps

/-- What is known while the versions of the children are read for a goal.  The versions `l` were
installed since the call began, and `lost` says that the first CAS was lost to a second one. -/
def GoalStage (ps : ℕ) (m : Mem) (l : List ℕ) (lost : Prop) : Goal → Prop
  | .fill => ¬lost ∧ ∀ p ∈ l, (m.heap p).status ≠ some ps
  | .first oldVer => ¬lost ∧ (∀ p ∈ l, (m.heap p).status ≠ some ps) ∧
      (l = [] → oldVer = m.log.head?)
  | .second _ _ _ => ¬lost ∧ ∃ p ∈ l, (m.heap p).status = some ps
  | .lost newVer1 => lost ∧ (∀ p ∈ l, (m.heap p).status ≠ some ps) ∧ Spare ps newVer1 m

/-- What is known of a call. -/
def PcStage (ps : ℕ) (m : Mem) (l : List ℕ) (lost : Prop) : PC → Prop
  | .load q | .fillLoad q | .reload q => q = ps ∧ ¬lost ∧ ∀ p ∈ l, (m.heap p).status ≠ some ps
  | .left q goal | .leftVer q goal _ | .right q goal _ | .rightVer q goal _ _
  | .cas q goal _ _ => q = ps ∧ GoalStage ps m l lost goal
  | .failed q oldVer newVer1 => q = ps ∧ oldVer ∈ l ∧
      (∀ p ∈ l, (m.heap p).status ≠ some ps) ∧ Spare ps newVer1 m ∧
      (lost ↔ (m.heap oldVer).isSecondCas = true)
  | .ret q result => q = ps ∧
      (lost ∧ result = some ps ∧ (∀ p ∈ l, (m.heap p).status ≠ some ps) ∨
        ¬lost ∧ (result = some ps → ∃ p ∈ l, (m.heap p).status = some ps))
  | .idle | .change _ _ _ | .crash => True

/-- What is known at each stage of a call that began in `m₀`. -/
def Stage (ps : ℕ) (m₀ m : Mem) (lost : Prop) (pc : PC) : Prop :=
  ∃ l, m.log = l ++ m₀.log ∧ PcStage ps m l lost pc

variable {l l' : List ℕ} {lost : Prop} {goal : Goal}

/-- The versions `l'` were installed between `m` and `m'`, none of them with the status `ps`. -/
structure Passed (ps : ℕ) (m m' : Mem) (l' : List ℕ) : Prop where
  next_le : m.next ≤ m'.next
  heap : ∀ p < m.next, m'.heap p = m.heap p
  log : m'.log = l' ++ m.log
  new : ∀ p ∈ l', m.next ≤ p
  status : ∀ p ∈ l', (m'.heap p).status ≠ some ps

theorem Grows.passed (h : Grows status m m') (hs : status ≠ some ps) : ∃ l', Passed ps m m' l' := by
  obtain ⟨l', hlog, hnew⟩ := h.log
  refine ⟨l', h.next_le, h.heap, hlog, fun p hp => (hnew p hp).1, fun p hp hps => ?_⟩
  rcases (hnew p hp).2 with hnone | hsame
  · rw [hnone] at hps
    cases hps
  · exact hs (hsame.symm.trans hps)

theorem Passed.clean (h : Passed ps m m' l') (hl : ∀ p ∈ l, p < m.next)
    (hclean : ∀ p ∈ l, (m.heap p).status ≠ some ps) :
    ∀ p ∈ l' ++ l, (m'.heap p).status ≠ some ps := by
  intro p hp
  rcases List.mem_append.mp hp with hp | hp
  · exact h.status p hp
  · rw [h.heap p (hl p hp)]
    exact hclean p hp

theorem Passed.installed (h : Passed ps m m' l') (hl : ∀ p ∈ l, p < m.next)
    (hp : ∃ p ∈ l, (m.heap p).status = some ps) :
    ∃ p ∈ l' ++ l, (m'.heap p).status = some ps := by
  obtain ⟨p, hp, hstatus⟩ := hp
  refine ⟨p, List.mem_append_right _ hp, ?_⟩
  rwa [h.heap p (hl p hp)]

theorem Passed.spare {newVer1 : ℕ} (h : Passed ps m m' l') (hs : Spare ps newVer1 m) :
    Spare ps newVer1 m' where
  lt := hs.lt.trans_le h.next_le
  notMem := by
    rw [h.log, List.mem_append, not_or]
    exact ⟨fun hp => absurd hs.lt (not_lt.mpr (h.new _ hp)), hs.notMem⟩
  status := by
    rw [h.heap _ hs.lt]
    exact hs.status

theorem GoalStage.passed (h : GoalStage ps m l lost goal) (hp : Passed ps m m' l')
    (hl : ∀ p ∈ l, p < m.next) : GoalStage ps m' (l' ++ l) lost goal := by
  cases goal with
  | fill => exact ⟨h.1, hp.clean hl h.2⟩
  | first oldVer =>
      refine ⟨h.1, hp.clean hl h.2.1, fun hnil => ?_⟩
      obtain ⟨rfl, hnil⟩ := List.append_eq_nil_iff.mp hnil
      rw [hp.log]
      exact h.2.2 hnil
  | second newVer1 leftver1 rightver1 => exact ⟨h.1, hp.installed hl h.2⟩
  | lost newVer1 => exact ⟨h.1, hp.clean hl h.2.1, hp.spare h.2.2⟩

theorem PcStage.passed (h : PcStage ps m l lost pc) (hp : Passed ps m m' l')
    (hl : ∀ p ∈ l, p < m.next) : PcStage ps m' (l' ++ l) lost pc := by
  cases pc with
  | load q | fillLoad q | reload q => exact ⟨h.1, h.2.1, hp.clean hl h.2.2⟩
  | left q goal | leftVer q goal x | right q goal x | rightVer q goal x y | cas q goal x y =>
      exact ⟨h.1, h.2.passed hp hl⟩
  | failed q oldVer newVer1 =>
      obtain ⟨rfl, hmem, hclean, hspare, hlost⟩ := h
      refine ⟨rfl, List.mem_append_right _ hmem, hp.clean hl hclean, hp.spare hspare, ?_⟩
      rwa [hp.heap _ (hl _ hmem)]
  | ret q result =>
      refine ⟨h.1, h.2.imp ?_ ?_⟩
      · rintro ⟨hlost, hr, hclean⟩
        exact ⟨hlost, hr, hp.clean hl hclean⟩
      · rintro ⟨hlost, hr⟩
        exact ⟨hlost, fun hps => hp.installed hl (hr hps)⟩
  | idle | change _ _ _ | crash => trivial

/-- A step of another thread. -/
theorem Stage.other (h : Stage ps m₀ m lost pc) (hinv : Inv m) (hg : Grows status m m')
    (hs : status ≠ some ps) : Stage ps m₀ m' lost pc := by
  obtain ⟨l, hl, hstage⟩ := h
  obtain ⟨l', hp⟩ := hg.passed hs
  have hlt : ∀ p ∈ l, p < m.next := fun p hp => hinv.log_lt p (hl ▸ List.mem_append_left _ hp)
  exact ⟨l' ++ l, by rw [hp.log, hl, List.append_assoc], hstage.passed hp hlt⟩

theorem Effect.passed (h : Effect (Option.none) m m') (ps : ℕ) : ∃ l', Passed ps m m' l' :=
  h.grows.passed (by simp)

/-- What was found instead of the expected version was installed since the call began. -/
theorem mem_of_found {oldVer : Option ℕ} {found : ℕ} (hinv : Inv m) (hl : m.log = l ++ m₀.log)
    (hold : l = [] → oldVer = m.log.head?) (hne : m.version ≠ oldVer)
    (hfound : m.version = some found) : found ∈ l := by
  cases l with
  | nil => exact absurd (hinv.version.trans (hold rfl).symm) hne
  | cons p l =>
      rw [hinv.version, hl, List.cons_append, List.head?_cons] at hfound
      cases hfound
      exact List.mem_cons_self

theorem spare_alloc (hinv : Inv m) (hv : v.status = some ps) : Spare ps m.next (m.alloc v) where
  lt := Nat.lt_succ_self _
  notMem hmem := lt_irrefl _ (hinv.log_lt _ hmem)
  status := by rw [Mem.alloc_heap_next, hv]

theorem passed_alloc (ps : ℕ) (m : Mem) (v : Version) : Passed ps m (m.alloc v) [] :=
  ⟨Nat.le_succ _, fun _ hp => Mem.alloc_heap v hp, rfl, nofun, nofun⟩

/-- The CAS of a call. -/
theorem Stage.cas {q : ℕ} {leftver : ChildVer} {rightver : Option ChildVer}
    (h : Stage ps m₀ m lost (.cas q goal leftver rightver)) (hinv : Inv m) :
    Stage ps m₀ (casStep m q leftver rightver goal).1
      (lost ∨ LostToSecond (casStep m q leftver rightver goal).1
        (casStep m q leftver rightver goal).2) (casStep m q leftver rightver goal).2 := by
  obtain ⟨l, hl, rfl, hstage⟩ := h
  have hlt : ∀ p ∈ l, p < m.next := fun p hp => hinv.log_lt p (hl ▸ List.mem_append_left _ hp)
  cases goal with
  | fill =>
      simp only [casStep, LostToSecond, or_false]
      split_ifs
      · obtain ⟨l', hp⟩ := Effect.passed
          (.install (m := m) (newVersion leftver rightver none false) (.inl rfl)) q
        exact ⟨l' ++ l, by rw [hp.log, hl, List.append_assoc], rfl, hstage.1,
          hp.clean hlt hstage.2⟩
      · exact ⟨l, hl, rfl, hstage.1, (passed_alloc q m _).clean hlt hstage.2⟩
  | first oldVer =>
      obtain ⟨hlost, hclean, hold⟩ := hstage
      simp only [casStep]
      split_ifs with hcas
      · simp only [LostToSecond, or_false]
        refine ⟨m.next :: l, congrArg (m.next :: ·) hl, rfl, hlost, m.next, List.mem_cons_self, ?_⟩
        exact congrArg Version.status (Mem.alloc_heap_next m _)
      · split
        · next found hfound =>
            have hmem := mem_of_found hinv hl hold hcas hfound
            refine ⟨l, hl, rfl, hmem, (passed_alloc q m _).clean hlt hclean,
              spare_alloc hinv rfl, ?_⟩
            simp only [LostToSecond, hlost, false_or]
        · exact ⟨l, hl, trivial⟩
  | second newVer1 leftver1 rightver1 =>
      obtain ⟨hlost, hinst⟩ := hstage
      simp only [casStep]
      split_ifs
      · simp only [LostToSecond, or_false]
        exact ⟨l, hl, rfl, .inr ⟨hlost, fun _ => hinst⟩⟩
      · simp only [LostToSecond, or_false]
        refine ⟨m.next :: l, congrArg (m.next :: ·) hl, rfl, .inr ⟨hlost, fun _ => ?_⟩⟩
        exact ⟨m.next, List.mem_cons_self, congrArg Version.status (Mem.alloc_heap_next m _)⟩
      · split
        · simp only [LostToSecond, or_false]
          exact ⟨l, hl, rfl, .inr ⟨hlost, fun _ => (passed_alloc q m _).installed hlt hinst⟩⟩
        · exact ⟨l, hl, trivial⟩
  | lost newVer1 =>
      obtain ⟨hlost, hclean, hspare⟩ := hstage
      -- the version that is expected was never installed
      have hne : m.version ≠ some newVer1 := by
        rw [hinv.version]
        exact fun hhead => hspare.notMem (List.mem_of_head? hhead)
      simp only [casStep, if_neg hne, LostToSecond, or_false]
      exact ⟨l, hl, rfl, .inl ⟨hlost, hspare.status, (passed_alloc q m _).clean hlt hclean⟩⟩

/-- A step of the call itself. -/
theorem Stage.own (h : Stage ps m₀ m lost pc) (hinv : Inv m) :
    Stage ps m₀ (exec m pc).1 (lost ∨ LostToSecond (exec m pc).1 (exec m pc).2) (exec m pc).2 := by
  cases pc with
  | idle | change _ _ _ | crash =>
      obtain ⟨l, hl, -⟩ := h
      exact ⟨l, hl, trivial⟩
  | load q | fillLoad q =>
      simp only [exec]
      split_ifs
      · simp only [LostToSecond, or_false]
        exact h
      · simp only [LostToSecond, or_false]
        exact h
  | reload q =>
      simp only [exec, LostToSecond, or_false]
      obtain ⟨l, hl, rfl, hlost, hclean⟩ := h
      exact ⟨l, hl, rfl, hlost, hclean, fun _ => hinv.version⟩
  | left q goal =>
      simp only [exec, LostToSecond, or_false]
      exact h
  | leftVer q goal x | right q goal x | rightVer q goal x y =>
      simp only [exec]
      split
      · simp only [LostToSecond, or_false]
        exact h
      · simp only [LostToSecond, or_false]
        exact h
  | cas q goal x y => exact h.cas hinv
  | failed q oldVer newVer1 =>
      obtain ⟨l, hl, rfl, hmem, hclean, hspare, hlost⟩ := h
      simp only [exec]
      split_ifs with hsecond
      · simp only [LostToSecond, or_false]
        exact ⟨l, hl, rfl, hlost.mpr hsecond, hclean, hspare⟩
      · simp only [LostToSecond, or_false]
        exact ⟨l, hl, rfl, .inr ⟨fun h => hsecond (hlost.mp h), fun hps => ⟨oldVer, hmem, hps⟩⟩⟩
  | ret q result => simpa only [exec, LostToSecond, or_false] using h

/-! ### Whole calls -/

theorem Stage.lost_iff (h : Stage ps m₀ m lost pc) : (LostToSecond m pc ∨ lost) ↔ lost := by
  refine or_iff_right_of_imp fun hsecond => ?_
  cases pc with
  | failed q oldVer newVer1 =>
      obtain ⟨l, -, -, -, -, -, hlost⟩ := h
      exact hlost.mpr hsecond
  | _ => cases hsecond

variable {version : Option Version} {i : ℕ} {s₀ s : Machine.State Mem PC}
  {ss : List (Machine.State Mem PC)}
  {Q : Machine.State Mem PC → ℕ → Machine.State Mem PC → Prop}

/-- **What is known at each stage of a call.** -/
theorem stage_of_trace (h₀ : (machine version).Reachable s₀) (hstart : s₀.pc i = .load ps)
    (h : (machine version).CallTrace i Q s₀ (s :: ss))
    (hps : ∀ s' ∈ s :: ss, ∀ j ≠ i, (s'.pc j).status ≠ some ps) :
    Stage ps s₀.mem s.mem (∃ s' ∈ s :: ss, LostToSecond s'.mem (s'.pc i)) (s.pc i) := by
  generalize hlist : s :: ss = states at h
  induction h generalizing s ss with
  | start =>
      obtain ⟨rfl, rfl⟩ := List.cons_eq_cons.mp hlist
      rw [hstart]
      refine ⟨[], rfl, rfl, ?_, nofun⟩
      rintro ⟨s', hs', hsecond⟩
      rw [List.mem_singleton.mp hs', hstart] at hsecond
      exact hsecond
  | @step a b ss' j htrace hrun hs hq ih =>
      obtain ⟨rfl, rfl⟩ := List.cons_eq_cons.mp hlist
      have hps' : ∀ s' ∈ a :: ss', ∀ j ≠ i, (s'.pc j).status ≠ some ps :=
        fun s' hs' => hps s' (List.mem_cons_of_mem _ hs')
      have hstage := ih hps' rfl
      have hinv := reachable_inv (htrace.reachable h₀ a List.mem_cons_self)
      simp only [List.exists_mem_cons_iff (a := s)]
      by_cases hj : j = i
      · subst hj
        cases hs with
        | call op hrest hop => exact absurd hrest (by rw [hrun]; exact Bool.false_ne_true)
        | act =>
            rw [or_comm]
            simp only [Machine.act, Machine.State.set_mem, Machine.State.set_pc_self]
            exact hstage.own hinv
      · cases hs with
        | call op hrest hop =>
            rw [Machine.State.set_pc_of_ne _ _ _ (Ne.symm hj), Machine.State.set_mem,
              hstage.lost_iff]
            exact hstage
        | act =>
            have hother := hstage.other hinv (exec_effect _ (a.pc j)).grows
              (hps' a List.mem_cons_self j hj)
            simp only [Machine.act, Machine.State.set_mem,
              Machine.State.set_pc_of_ne _ _ _ (Ne.symm hj)]
            rw [show ((machine version).exec a.mem (a.pc j)).1 = (exec a.mem (a.pc j)).1 from rfl,
              hother.lost_iff]
            exact hother

/-- **A call that reports success has installed a version**, if and only if its first CAS was not
lost to the version of a second CAS.  The status `ps` is used by no other call. -/
theorem success_iff (version : Option Version) (i ps : ℕ) (s₀ s : Machine.State Mem PC)
    (ss : List (Machine.State Mem PC)) (result : Option ℕ)
    (h₀ : (machine version).Reachable s₀)
    (hstart : s₀.pc i = (machine version).start (.refreshLong ps))
    (htrace : (machine version).CallTrace i (fun _ _ _ => True) s₀ (s :: ss))
    (hps : ∀ s' ∈ s :: ss, ∀ j ≠ i, (s'.pc j).status ≠ some ps)
    (hret : s.pc i = .ret ps result) :
    (result = some ps → Installed ps s₀.mem s.mem) ↔
      ∀ s' ∈ s :: ss, ¬LostToSecond s'.mem (s'.pc i) := by
  have hstage := stage_of_trace h₀ hstart htrace hps
  rw [hret] at hstage
  obtain ⟨l, hl, -, ⟨hlost, hr, hclean⟩ | ⟨hlost, hr⟩⟩ := hstage
  · constructor
    · intro hclaim
      obtain ⟨l', hl', p, hp, hstatus⟩ := hclaim hr
      rw [List.append_cancel_right (hl.symm.trans hl')] at hclean
      exact absurd hstatus (hclean p hp)
    · intro hnot
      obtain ⟨s', hs', hsecond⟩ := hlost
      exact absurd hsecond (hnot s' hs')
  · exact ⟨fun _ s' hs' hsecond => hlost ⟨s', hs', hsecond⟩, fun _ hps => ⟨l, hl, hr hps⟩⟩

/-- The node has a version at the beginning. -/
abbrev someMachine : Machine Mem PC Op := machine (some ⟨0, none, none, none, false⟩)

/-- The children get versions, and thread 1 calls `refreshLong`. -/
def calling : List (Machine.Move Op) :=
  [.call 2 (.change 0 (some 1) fun x => some ⟨x, 1⟩), .act 2, .call 1 (.refreshLong 11)]

/-- The state in which thread 1 has called `refreshLong`. -/
def called : Machine.State Mem PC := someMachine.after calling someMachine.init

theorem called_reachable : someMachine.Reachable called :=
  Machine.Reachable.after (P := fun _ _ => true) .refl (by decide +kernel)

theorem called_pc {j : ℕ} (hj : j ≠ 1) : called.pc j = .idle := by
  by_cases hj' : j = 2
  · subst hj'
    rfl
  · obtain ⟨ss, hss⟩ := Machine.states_eq (M := someMachine) calling someMachine.init []
    have others : ∀ mv ∈ calling, mv.thread ≠ j := by
      simp only [calling, List.mem_cons, List.not_mem_nil, or_false]
      rintro mv (rfl | rfl | rfl)
      · exact Ne.symm hj'
      · exact Ne.symm hj'
      · exact Ne.symm hj
    have start : ∀ s' ∈ [someMachine.init], s'.pc j = .idle := by
      intro s' hs'
      rw [List.mem_singleton.mp hs']
      rfl
    exact Machine.pc_of_mem_states others start called (hss ▸ List.mem_cons_self)

/-- Thread 1 makes all steps of its call. -/
def undisturbed : List (Machine.Move Op) := Machine.Move.acts 1 12

theorem success_undisturbed :
    Installed 11 called.mem (someMachine.after undisturbed called).mem := by
  obtain ⟨ss, hss⟩ := Machine.states_eq (M := someMachine) undisturbed called []
  have hcall : someMachine.CallTrace 1 (fun _ _ _ => True) called
      (someMachine.states undisturbed called []) :=
    .of_schedule (P := fun _ _ => true) .start (fun _ _ _ _ _ => trivial) (by decide +kernel)
  have hlost : ∀ s' ∈ someMachine.states undisturbed called [],
      ¬LostToSecond s'.mem (s'.pc 1) := by decide +kernel
  have hothers : ∀ s' ∈ someMachine.states undisturbed called [], ∀ j ≠ 1,
      (s'.pc j).status ≠ some 11 := by
    intro s' hs' j hj
    rw [Machine.pc_of_mem_states (p := .idle) (fun mv hmv => ?_) (fun s hs => ?_) s' hs']
    · exact nofun
    · rw [List.eq_of_mem_replicate hmv]
      exact Ne.symm hj
    · rw [List.mem_singleton.mp hs]
      exact called_pc hj
  rw [hss] at hcall hlost hothers
  exact (success_iff _ 1 11 called _ ss (some 11) called_reachable rfl hcall hothers rfl).mpr hlost
    rfl

/-- Thread 1 reads everything for its first CAS.  Thread 0 installs a version, finds that the
children have changed, and installs another one; then thread 1 goes on. -/
def overtaken : List (Machine.Move Op) :=
  Machine.Move.acts 1 6 ++ [.call 0 (.refreshLong 10)] ++ Machine.Move.acts 0 7 ++
    [.call 2 (.change 0 (some 1) fun x => some ⟨x + 2, 2⟩), .act 2] ++ Machine.Move.acts 0 5 ++
    Machine.Move.acts 1 7

/-- **A call reports success without having installed a version.** -/
theorem success_without_install : ¬∀ (version : Option Version) (i ps : ℕ)
    (s₀ s : Machine.State Mem PC) (ss : List (Machine.State Mem PC)),
    (machine version).Reachable s₀ → s₀.pc i = (machine version).start (.refreshLong ps) →
    (machine version).CallTrace i (fun _ _ _ => True) s₀ (s :: ss) →
    s.pc i = .ret ps (some ps) → Installed ps s₀.mem s.mem := by
  intro hclaim
  obtain ⟨ss, hss⟩ := Machine.states_eq (M := someMachine) overtaken called []
  have hcall : someMachine.CallTrace 1 (fun _ _ _ => True) called
      (someMachine.states overtaken called []) :=
    .of_schedule (P := fun _ _ => true) .start (fun _ _ _ _ _ => trivial) (by decide +kernel)
  rw [hss] at hcall
  obtain ⟨l, hl, p, hp, hstatus⟩ := hclaim _ 1 11 called _ ss called_reachable rfl hcall rfl
  have hnone : ∀ p ∈ (someMachine.after overtaken called).mem.log,
      ((someMachine.after overtaken called).mem.heap p).status ≠ some 11 := by decide +kernel
  exact hnone p (hl ▸ List.mem_append_left _ hp) hstatus

end Cbat.RefreshLong
