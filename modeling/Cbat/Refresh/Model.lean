/-
**Refreshing one node while everything else changes.**

Fix a node `x`.  Any number of threads run refreshes, of `x` and of other nodes, one access at a
time by `stepFrame`, and between their steps the rest of the memory may change in any way, the
child pointers of `x` and the versions of its children included; only the version of `x` is left to
the refreshes.  The states keep the whole past: the memory at every moment, when each call in
progress has made its loads, and which call has installed the version that `x` has now.

Main definitions:

* `Cbat.Refresh.Stamp`, `Cbat.Refresh.Task` — the loads of a call with their moments, and a thread;
* `Cbat.Refresh.Install` — the call that has installed the version of `x`;
* `Cbat.Refresh.State`, `Cbat.Refresh.Step` — **the system around `x`**;
* `Cbat.Refresh.Read`, `Cbat.Refresh.Inv` — what a call has read and when.

Main results:

* `Cbat.Refresh.Read.step` — one access of a call on `x`;
* `Cbat.Refresh.Init.inv`, `Cbat.Refresh.Inv.step` — **every version of `x` is made of what its call
  has read after the version that it replaces was installed**.
-/

import Cbat.Local

set_option relaxedAutoImplicit false
set_option autoImplicit false

namespace Cbat

variable {K V : Type}

/-- How much a call has read: the version that it expects, the left child, its version, the right
child and its version. -/
def Pos.stage : Pos → ℕ
  | .getOld | .reloadOld | .loadOld => 0
  | .leafTest | .loadLeft => 1
  | .loadLeftVer | .reloadLeftVer => 2
  | .testLeft | .loadRight => 3
  | .loadRightVer | .reloadRightVer => 4
  | .testRight | .cas => 5

namespace Refresh

/-! ### The system -/

/-- The moments of the loads of a call: the version of its node, the child pointers and the versions
of the children. -/
structure Stamp where
  old : ℕ
  left : ℕ
  leftver : ℕ
  right : ℕ
  rightver : ℕ

/-- The moments after the access at the position.  A missing right child counts as one without a
version, and an eager call that has just installed a version knows it from then on. -/
def Stamp.mark (st : Stamp) (now : ℕ) : Pos → Stamp
  | .reloadOld | .loadOld => { st with old := now }
  | .loadLeft => { st with left := now }
  | .loadLeftVer | .reloadLeftVer => { st with leftver := now }
  | .loadRight => { st with right := now, rightver := now }
  | .loadRightVer | .reloadRightVer => { st with rightver := now }
  | .cas => { st with old := now + 1 }
  | .getOld | .leafTest | .testLeft | .testRight => st

/-- A thread that refreshes a node for `propagate`. -/
structure Task (K : Type) where
  /-- the status record of its `propagate` -/
  ps : ℕ
  /-- the moment when `propagate` made the first call on the node -/
  began : ℕ
  /-- in the second call -/
  again : Bool
  /-- the active call -/
  f : Frame K
  /-- its callers -/
  callers : List (Frame K)
  /-- the loads of each call by its depth, the outermost one at 0 -/
  stamps : ℕ → Stamp

/-- Who has installed the version of the node. -/
structure Install where
  /-- the thread -/
  thread : ℕ
  /-- the call, by its begin -/
  began : ℕ
  /-- its status record -/
  ps : ℕ
  /-- the loads that the version is made of -/
  stamp : Stamp
  /-- the first moment with the version -/
  time : ℕ
  /-- the first moment with the version that it replaced -/
  before : ℕ

/-- The system with its past. -/
structure State (K V : Type) where
  /-- the memory at each moment up to now -/
  hist : ℕ → Mem K V
  /-- now -/
  time : ℕ
  /-- the threads that refresh a node -/
  task : ℕ → Option (Task K)
  /-- who has installed the version of the node, unless it is the first one -/
  last : Option Install

/-- The memory. -/
def State.mem (s : State K V) : Mem K V := s.hist s.time

/-- The first moment with the version that the node has now. -/
def State.since (s : State K V) : ℕ := s.last.elim 0 Install.time

/-- The next moment. -/
def State.next (s : State K V) (m : Mem K V) (task : ℕ → Option (Task K)) (last : Option Install) :
    State K V where
  hist := Function.update s.hist (s.time + 1) m
  time := s.time + 1
  task := task
  last := last

/-- Everything but the version of `x` may change; addresses of versions are not used again. -/
structure Outside (x : ℕ) (m m' : Mem K V) : Prop where
  version : (m'.node x).version = (m.node x).version
  nextVer : m.nextVer ≤ m'.nextVer

/-- No call on `x` has begun. -/
structure Init (x : ℕ) (s : State K V) : Prop where
  time : s.time = 0
  last : s.last = none
  fresh : (s.mem.node x).version.Below s.mem.nextVer
  away : ∀ i t, s.task i = some t → t.began = 0 ∧ ∀ g ∈ t.f :: t.callers, g.x ≠ x

/-- The thread after an access.  `propagate` of BAT makes a second call if the first one fails. -/
def Task.after (var : Variant) (t : Task K) (now : ℕ) : FrameResult K → Option (Task K)
  | .run f' cs' => some { t with
      f := f'
      callers := cs'
      stamps := Function.update t.stamps t.callers.length
        ((t.stamps t.callers.length).mark now t.f.pos) }
  | .ret ok _ =>
      if var = .bat ∧ t.f.main = true ∧ ok = false ∧ t.again = false then
        some { t with
          again := true
          f := .start var t.f.x true
          callers := [] }
      else none

section Steps

variable [DecidableEq K] (var : Variant) (x : ℕ)

/-- Thread `i` makes one access. -/
def State.exec (s : State K V) (i : ℕ) (t : Task K) : State K V :=
  let r := stepFrame var s.mem t.ps t.f t.callers
  s.next r.1 (Function.update s.task i (t.after var s.time r.2.2))
    (if (r.1.node x).version = (s.mem.node x).version then s.last
    else some ⟨i, t.began, t.ps, t.stamps t.callers.length, s.time + 1, s.since⟩)

/-- **The steps of the system.**  The rest of the memory changes as far as `may` allows, a thread
begins to refresh a node, or it makes one access. -/
inductive Step (may : State K V → Mem K V → Prop) (s : State K V) : State K V → Prop
  | env {m : Mem K V} (h : Outside x s.mem m) (hm : may s m) : Step may s (s.next m s.task s.last)
  | call {i : ℕ} (h : s.task i = none) (r : ℕ) (main : Bool) {ps : ℕ}
      (hps : var ≠ .bat → ps ≠ 0) :
      Step may s (s.next s.mem (Function.update s.task i
        (some ⟨ps, s.time + 1, false, .start var r main, [], fun _ => ⟨0, 0, 0, 0, 0⟩⟩)) s.last)
  | run {i : ℕ} {t : Task K} (h : s.task i = some t) : Step may s (s.exec var x i t)

/-- The runs of the system. -/
def Run (may : State K V → Mem K V → Prop) : State K V → State K V → Prop :=
  Relation.ReflTransGen (Step var x may)

end Steps

/-! ### The calls of a thread -/

/-- All calls in progress satisfy `P`, which may depend on their depth and on their loads. -/
def Stack (P : ℕ → Frame K → Stamp → Prop) (stamps : ℕ → Stamp) : List (Frame K) → Prop
  | [] => True
  | g :: gs => P gs.length g (stamps gs.length) ∧ Stack P stamps gs

section Stack

variable {P Q : ℕ → Frame K → Stamp → Prop} {stamps : ℕ → Stamp}

theorem Stack.imp {gs : List (Frame K)} (h : Stack P stamps gs)
    (hPQ : ∀ d g st, P d g st → Q d g st) :
    Stack Q stamps gs := by
  induction gs with
  | nil => trivial
  | cons g gs ih => exact ⟨hPQ _ _ _ h.1, ih h.2⟩

theorem Stack.and {gs : List (Frame K)} (h : Stack P stamps gs) (h' : Stack Q stamps gs) :
    Stack (fun d g st => P d g st ∧ Q d g st) stamps gs := by
  induction gs with
  | nil => trivial
  | cons g gs ih => exact ⟨⟨h.1, h'.1⟩, ih h.2 h'.2⟩

theorem Stack.of_forall {gs : List (Frame K)} (h : ∀ g ∈ gs, ∀ d st, P d g st) :
    Stack P stamps gs := by
  induction gs with
  | nil => trivial
  | cons g gs ih => exact ⟨h g (by simp) _ _, ih fun g hg => h g (by simp [hg])⟩

/-- The loads of a deeper call do not matter. -/
theorem Stack.update {gs : List (Frame K)} (h : Stack P stamps gs) {n : ℕ} (hn : gs.length ≤ n)
    (st : Stamp) : Stack P (Function.update stamps n st) gs := by
  induction gs with
  | nil => trivial
  | cons g gs ih =>
      rw [List.length_cons] at hn
      refine ⟨?_, ih h.2 (by omega)⟩
      rw [Function.update_of_ne (by omega)]
      exact h.1

variable {var : Variant} {m m' : Mem K V} {ps : ℕ} {f f' : Frame K} {cs cs' : List (Frame K)}
  {vs : List (Ver K)} {res : FrameResult K}

/-- **The call becomes `g` by one access**, with or without a nested call. -/
inductive Goes (var : Variant) (m : Mem K V) (ps : ℕ) (f : Frame K) : Mem K V → Frame K → Prop
  | getOld (hp : f.pos = .getOld) : Goes var m ps f m { f with pos := .reloadOld }
  | old (hp : f.pos = .reloadOld ∨ f.pos = .loadOld)
      (hvar : f.pos = .loadOld → var ≠ .bat → f.main = false → (m.node f.x).version = .nil) :
      Goes var m ps f m { f with oldVer := (m.node f.x).version, pos := .leafTest }
  | inner (hp : f.pos = .leafTest) : Goes var m ps f m { f with pos := .loadLeft }
  | left (hp : f.pos = .loadLeft) :
      Goes var m ps f m { f with left1 := (m.node f.x).left, pos := .loadLeftVer }
  | getLeft (hp : f.pos = .loadLeftVer) : Goes var m ps f m { f with pos := .reloadLeftVer }
  | leftVer (hp : f.pos = .loadLeftVer ∨ f.pos = .reloadLeftVer) :
      Goes var m ps f m { f with leftver := (m.node f.left1).version, pos := .testLeft }
  | leftSame (hp : f.pos = .testLeft) (h : f.left1 = (m.node f.x).left) :
      Goes var m ps f m { f with pos := .loadRight }
  | leftMoved (hp : f.pos = .testLeft) : Goes var m ps f m { f with pos := .loadLeft }
  | noRight (hp : f.pos = .loadRight) (h : (m.node f.x).right = 0) :
      Goes var m ps f m { f with right1 := 0, rightver := .nil, pos := .testRight }
  | right (hp : f.pos = .loadRight) (h : (m.node f.x).right ≠ 0) :
      Goes var m ps f m { f with right1 := (m.node f.x).right, pos := .loadRightVer }
  | getRight (hp : f.pos = .loadRightVer) : Goes var m ps f m { f with pos := .reloadRightVer }
  | rightVer (hp : f.pos = .loadRightVer ∨ f.pos = .reloadRightVer) :
      Goes var m ps f m { f with rightver := (m.node f.right1).version, pos := .testRight }
  | rightSame (hp : f.pos = .testRight) (h : f.right1 = (m.node f.x).right) :
      Goes var m ps f m { f with pos := .cas }
  | rightMoved (hp : f.pos = .testRight) : Goes var m ps f m { f with pos := .loadRight }
  | again (hp : f.pos = .cas) (h : (m.node f.x).version = f.oldVer) (hvar : var = .eagerDel)
      (hm : f.main = true) : Goes var m ps f (m.install f.x (f.newVer m ps)) { f with
        oldVer := f.newVer m ps
        prev := some (f.leftver, f.rightver)
        pos := .loadLeft }

/-- **The calls after one access**: the active call goes on, it makes a nested call, or it returns
to its caller.  How it goes on does not depend on the callers. -/
theorem goes_or_pop (h : FrameStep var m ps f cs m' vs res) :
    (∃ g, Goes var m ps f m' g ∧
    (res = .run g cs ∨ ∃ y, res = .run (.start var y false) (g :: cs))) ∨
      ∃ ok c, res = .pop cs ok c := by
  cases h with
  | skip | leafWrite | leaf | unchanged | casOk | casFail => exact .inr ⟨_, _, rfl⟩
  | callOld hp => exact .inl ⟨_, .getOld hp, .inr ⟨_, rfl⟩⟩
  | callLeft hp => exact .inl ⟨_, .getLeft hp, .inr ⟨_, rfl⟩⟩
  | callRight hp => exact .inl ⟨_, .getRight hp, .inr ⟨_, rfl⟩⟩
  | oldThere hp => exact .inl ⟨_, .getOld hp, .inl rfl⟩
  | old hp hv => exact .inl ⟨_, .old hp hv, .inl rfl⟩
  | inner hp => exact .inl ⟨_, .inner hp, .inl rfl⟩
  | left hp => exact .inl ⟨_, .left hp, .inl rfl⟩
  | leftThere hp => exact .inl ⟨_, .getLeft hp, .inl rfl⟩
  | leftVer hp => exact .inl ⟨_, .leftVer (hp.imp_left And.left), .inl rfl⟩
  | leftSame hp h => exact .inl ⟨_, .leftSame hp h, .inl rfl⟩
  | leftMoved hp => exact .inl ⟨_, .leftMoved hp, .inl rfl⟩
  | noRight hp h => exact .inl ⟨_, .noRight hp h, .inl rfl⟩
  | right hp h => exact .inl ⟨_, .right hp h, .inl rfl⟩
  | rightThere hp => exact .inl ⟨_, .getRight hp, .inl rfl⟩
  | rightVer hp => exact .inl ⟨_, .rightVer (hp.imp_left And.left), .inl rfl⟩
  | rightSame hp h => exact .inl ⟨_, .rightSame hp h, .inl rfl⟩
  | rightMoved hp => exact .inl ⟨_, .rightMoved hp, .inl rfl⟩
  | casAgain hp h hv hm => exact .inl ⟨_, .again hp h hv hm, .inl rfl⟩

/-- A refresh that returns false has lost its CAS. -/
theorem failed_of_ret {c : ℕ} (h : FrameStep var m ps f cs m' vs (.ret false c)) :
    cs = [] ∧ f.pos = .cas ∧ (m.node f.x).version ≠ f.oldVer := by
  have hpop : ∀ {ok : Bool} {c' : ℕ}, FrameResult.ret false c = .pop cs ok c' →
      cs = [] ∧ ok = false := fun {ok c'} he => by
    cases cs with
    | nil => exact ⟨rfl, (FrameResult.ret.inj he).1.symm⟩
    | cons g gs => exact nomatch he
  generalize hres : FrameResult.ret false c = res at h
  cases h with
  | casFail hp hne => exact ⟨(hpop hres).1, hp, hne⟩
  | skip | leafWrite | leaf | unchanged | casOk => exact nomatch (hpop hres).2
  | _ => exact nomatch hres

theorem Goes.x {g : Frame K} (h : Goes var m ps f m' g) : g.x = f.x := by cases h <;> rfl

theorem Stack.step (hcs : Stack P stamps cs) (h : FrameStep var m ps f cs m' vs (.run f' cs'))
    (hstart : ∀ y st, P (cs.length + 1) (.start var y false) st) {st : Stamp}
    (hgo : ∀ g, Goes var m ps f m' g → P cs.length g st) :
    Stack P (Function.update stamps cs.length st) (f' :: cs') := by
  have hcs' : Stack P (Function.update stamps cs.length st) cs := hcs.update le_rfl st
  rcases goes_or_pop h with ⟨g, hg, he⟩ | ⟨ok, c, he⟩
  · have hg' : Stack P (Function.update stamps cs.length st) (g :: cs) := by
      refine ⟨?_, hcs'⟩
      rw [Function.update_self]
      exact hgo g hg
    rcases he with he | ⟨y, he⟩ <;> obtain ⟨rfl, rfl⟩ := FrameResult.run.inj he
    · exact hg'
    · exact ⟨hstart y _, hg'⟩
  · cases cs with
    | nil => exact nomatch he
    | cons g gs =>
        obtain ⟨rfl, rfl⟩ := FrameResult.run.inj he
        exact hcs'

end Stack

/-! ### What a call has read -/

/-- **What a call on `x` has read and when**: all of it since the call began, each load after the
one before. -/
structure Read (x : ℕ) (hist : ℕ → Mem K V) (now began : ℕ) (f : Frame K) (st : Stamp) : Prop where
  old : 1 ≤ f.pos.stage → began ≤ st.old ∧ st.old ≤ now ∧
    f.oldVer = ((hist st.old).node x).version
  left : 2 ≤ f.pos.stage → st.old ≤ st.left ∧ st.left ≤ now ∧
    f.left1 = ((hist st.left).node x).left
  leftver : 3 ≤ f.pos.stage → st.left ≤ st.leftver ∧ st.leftver ≤ now ∧
    f.leftver = ((hist st.leftver).node f.left1).version
  right : 4 ≤ f.pos.stage → st.leftver ≤ st.right ∧ st.right ≤ now ∧
    f.right1 = ((hist st.right).node x).right
  there : f.pos.stage = 4 → f.right1 ≠ 0
  rightver : 5 ≤ f.pos.stage → st.right ≤ st.rightver ∧ st.rightver ≤ now ∧
    f.rightver = (hist st.rightver).ver f.right1

section Read

variable {x now began : ℕ} {hist hist' : ℕ → Mem K V} {f g : Frame K} {st : Stamp} {var : Variant}
  {m m' : Mem K V} {ps : ℕ}

/-- What was read stays read. -/
theorem Read.later (h : Read x hist now began f st) (hh : ∀ t ≤ now, hist' t = hist t) {now' : ℕ}
    (hn : now ≤ now') : Read x hist' now' began f st where
  old := fun hs => by
    obtain ⟨h₁, h₂, h₃⟩ := h.old hs
    exact ⟨h₁, by omega, by rw [hh _ h₂, h₃]⟩
  left := fun hs => by
    obtain ⟨h₁, h₂, h₃⟩ := h.left hs
    exact ⟨h₁, by omega, by rw [hh _ h₂, h₃]⟩
  leftver := fun hs => by
    obtain ⟨h₁, h₂, h₃⟩ := h.leftver hs
    exact ⟨h₁, by omega, by rw [hh _ h₂, h₃]⟩
  right := fun hs => by
    obtain ⟨h₁, h₂, h₃⟩ := h.right hs
    exact ⟨h₁, by omega, by rw [hh _ h₂, h₃]⟩
  there := h.there
  rightver := fun hs => by
    obtain ⟨h₁, h₂, h₃⟩ := h.rightver hs
    exact ⟨h₁, by omega, by rw [hh _ h₂, h₃]⟩

/-- A call that has just begun has read nothing. -/
theorem Read.start (y : ℕ) (main : Bool) : Read x hist now began (.start var y main) st := by
  have hs : (Frame.start (K := K) var y main).pos.stage = 0 := by
    simp only [Frame.start]
    split_ifs <;> rfl
  constructor <;> intro h <;> rw [hs] at h <;> omega

/-- A call that moves on, or back, without a new value. -/
theorem Read.move (h : Read x hist now began f st) {p : Pos} {st' : Stamp}
    (hp : p.stage ≤ f.pos.stage) (h4 : p.stage = 4 → f.pos.stage = 4)
    (h₁ : 1 ≤ p.stage → st'.old = st.old) (h₂ : 2 ≤ p.stage → st'.left = st.left)
    (h₃ : 3 ≤ p.stage → st'.leftver = st.leftver) (h₄ : 4 ≤ p.stage → st'.right = st.right)
    (h₅ : 5 ≤ p.stage → st'.rightver = st.rightver) :
    Read x hist now began { f with pos := p } st' where
  old := fun hs => by
    rw [h₁ hs]
    exact h.old (le_trans hs hp)
  left := fun hs => by
    rw [h₁ (le_trans (by omega) hs), h₂ hs]
    exact h.left (le_trans hs hp)
  leftver := fun hs => by
    rw [h₂ (le_trans (by omega) hs), h₃ hs]
    exact h.leftver (le_trans hs hp)
  right := fun hs => by
    rw [h₃ (le_trans (by omega) hs), h₄ hs]
    exact h.right (le_trans hs hp)
  there := fun hs => h.there (h4 hs)
  rightver := fun hs => by
    rw [h₄ (le_trans (by omega) hs), h₅ hs]
    exact h.rightver (le_trans hs hp)

/-- **One access of a call on `x`.** -/
theorem Read.step (h : Read x hist now began f st) (hx : f.x = x) (hg : Goes var m ps f m' g)
    (hb : began ≤ now) (hm : hist now = m) (hm' : hist' (now + 1) = m')
    (hh : ∀ t ≤ now, hist' t = hist t) :
    Read x hist' (now + 1) began g (st.mark now f.pos) := by
  have hl := h.later hh (Nat.le_succ now)
  have hnow : hist' now = m := (hh now le_rfl).trans hm
  subst hx
  cases hg with
  | getOld hp | inner hp | getLeft hp | leftSame hp | leftMoved hp | getRight hp | rightSame hp
  | rightMoved hp =>
      refine hl.move ?_ ?_ ?_ ?_ ?_ ?_ ?_ <;> simp [hp, Pos.stage, Stamp.mark]
  | old hp hvar =>
      have hst : st.mark now f.pos = { st with old := now } := by
        rcases hp with hp | hp <;> rw [hp] <;> rfl
      rw [hst]
      refine ⟨fun _ => ⟨hb, Nat.le_succ now, by rw [hnow]⟩, ?_, ?_, ?_, nofun, ?_⟩ <;>
        exact fun hs => absurd hs (by simp [Pos.stage])
  | left hp =>
      have hst : st.mark now f.pos = { st with left := now } := by rw [hp]; rfl
      have hs : f.pos.stage = 1 := by rw [hp]; rfl
      rw [hst]
      refine ⟨fun _ => hl.old (by omega),
        fun _ => ⟨(h.old (by omega)).2.1, Nat.le_succ now, by rw [hnow]⟩,
        ?_, ?_, nofun, ?_⟩ <;> exact fun hs => absurd hs (by simp [Pos.stage])
  | leftVer hp =>
      have hst : st.mark now f.pos = { st with leftver := now } := by
        rcases hp with hp | hp <;> rw [hp] <;> rfl
      have hs : f.pos.stage = 2 := by rcases hp with hp | hp <;> rw [hp] <;> rfl
      rw [hst]
      refine ⟨fun _ => hl.old (by omega), fun _ => hl.left (by omega),
        fun _ => ⟨(h.left (by omega)).2.1, Nat.le_succ now, by rw [hnow]⟩, ?_, nofun, ?_⟩ <;>
        exact fun hs => absurd hs (by simp [Pos.stage])
  | noRight hp h0 =>
      have hst : st.mark now f.pos = { st with right := now, rightver := now } := by rw [hp]; rfl
      have hs : f.pos.stage = 3 := by rw [hp]; rfl
      rw [hst]
      exact ⟨fun _ => hl.old (by omega), fun _ => hl.left (by omega),
        fun _ => hl.leftver (by omega),
        fun _ => ⟨(h.leftver (by omega)).2.1, Nat.le_succ now, by rw [hnow, h0]⟩, nofun,
        fun _ => ⟨le_rfl, Nat.le_succ now, rfl⟩⟩
  | right hp h0 =>
      have hst : st.mark now f.pos = { st with right := now, rightver := now } := by rw [hp]; rfl
      have hs : f.pos.stage = 3 := by rw [hp]; rfl
      rw [hst]
      exact ⟨fun _ => hl.old (by omega), fun _ => hl.left (by omega),
        fun _ => hl.leftver (by omega),
        fun _ => ⟨(h.leftver (by omega)).2.1, Nat.le_succ now, by rw [hnow]⟩, fun _ => h0,
        fun hs => absurd hs (by simp [Pos.stage])⟩
  | rightVer hp =>
      have hst : st.mark now f.pos = { st with rightver := now } := by
        rcases hp with hp | hp <;> rw [hp] <;> rfl
      have hs : f.pos.stage = 4 := by rcases hp with hp | hp <;> rw [hp] <;> rfl
      rw [hst]
      refine ⟨fun _ => hl.old (by omega), fun _ => hl.left (by omega),
        fun _ => hl.leftver (by omega),
        fun _ => hl.right (by omega), nofun,
        fun _ => ⟨(h.right (by omega)).2.1, Nat.le_succ now, ?_⟩⟩
      rw [hnow]
      exact (Mem.ver_of_ne _ (h.there hs)).symm
  | again hp ho hvar hmain =>
      have hst : st.mark now f.pos = { st with old := now + 1 } := by rw [hp]; rfl
      rw [hst]
      refine ⟨fun _ => ⟨Nat.le_succ_of_le hb, le_rfl, ?_⟩, ?_, ?_, ?_, nofun, ?_⟩
      · rw [hm', install_version_self]
      all_goals exact fun hs => absurd hs (by simp [Pos.stage])

end Read

/-! ### The invariant -/

/-- **The version of `x` is made of what its call has read**, all of it after the version that it
replaced was installed. -/
structure Installed (x : ℕ) (s : State K V) (a : Install) : Prop where
  before : a.before ≤ a.stamp.old
  left : a.stamp.old ≤ a.stamp.left
  leftver : a.stamp.left ≤ a.stamp.leftver
  right : a.stamp.leftver ≤ a.stamp.right
  rightver : a.stamp.right ≤ a.stamp.rightver
  time : a.stamp.rightver < a.time
  le : a.time ≤ s.time
  version : ∃ adr k sum st, (s.mem.node x).version = .mk adr k sum
    ((s.hist a.stamp.leftver).node ((s.hist a.stamp.left).node x).left).version
    ((s.hist a.stamp.rightver).ver ((s.hist a.stamp.right).node x).right) st

/-- The moments of the loads. -/
def Stamp.all (st : Stamp) : List ℕ := [st.old, st.left, st.leftver, st.right, st.rightver]

/-- All loads were made between the two versions. -/
theorem Installed.loads {x : ℕ} {s : State K V} {a : Install} (h : Installed x s a) {u : ℕ}
    (hu : u ∈ a.stamp.all) : a.before ≤ u ∧ u < a.time := by
  obtain ⟨h₁, h₂, h₃, h₄, h₅, h₆, -, -⟩ := h
  simp only [Stamp.all, List.mem_cons, List.not_mem_nil, or_false] at hu
  omega

/-- **The invariant of the system**: `x` has its version since it was installed and had another one
at every moment before, and all calls on `x` have read what their loads say. -/
structure Inv (x : ℕ) (s : State K V) : Prop where
  cur : ∀ t, s.since ≤ t → t ≤ s.time →
    ((s.hist t).node x).version = (s.mem.node x).version
  ne : ∀ t < s.since, ((s.hist t).node x).version ≠ (s.mem.node x).version
  fresh : ∀ t ≤ s.time, ((s.hist t).node x).version.Below s.mem.nextVer
  last : ∀ a, s.last = some a → Installed x s a
  tasks : ∀ i t, s.task i = some t → t.began ≤ s.time ∧
    Stack (fun _ g st => g.x = x → Read x s.hist s.time t.began g st) t.stamps (t.f :: t.callers)

section Inv

variable {x : ℕ} {s s' : State K V} {m : Mem K V} {task : ℕ → Option (Task K)}
  {last : Option Install}

@[simp] theorem next_mem : (s.next m task last).mem = m := Function.update_self ..

theorem next_hist {t : ℕ} (ht : t ≤ s.time) : (s.next m task last).hist t = s.hist t :=
  Function.update_of_ne (by omega) ..

/-- An earlier moment, or the next one. -/
theorem next_hist_cases {t : ℕ} (ht : t ≤ s.time + 1) :
    t ≤ s.time ∧ (s.next m task last).hist t = s.hist t ∨
      t = s.time + 1 ∧ (s.next m task last).hist t = m := by
  rcases Nat.lt_or_ge s.time t with hlt | hge
  · obtain rfl : t = s.time + 1 := Nat.le_antisymm ht hlt
    exact .inr ⟨rfl, next_mem⟩
  · exact .inl ⟨hge, next_hist hge⟩

@[simp] theorem next_time : (s.next m task last).time = s.time + 1 := rfl
@[simp] theorem next_task : (s.next m task last).task = task := rfl
@[simp] theorem next_last : (s.next m task last).last = last := rfl

theorem Inv.since_le (h : Inv x s) : s.since ≤ s.time := by
  unfold State.since
  cases hl : s.last with
  | none => exact Nat.zero_le _
  | some a => exact (h.last a hl).le

/-- A version that was read is the current one exactly if it was read since that is there. -/
theorem Inv.since_le_iff (h : Inv x s) {t : ℕ} (ht : t ≤ s.time) :
    s.since ≤ t ↔ ((s.hist t).node x).version = (s.mem.node x).version :=
  ⟨fun hs => h.cur t hs ht, fun he => Nat.le_of_not_lt fun hlt => h.ne t hlt he⟩

/-- The calls of a thread keep what they have read. -/
theorem Inv.task_later (h : Inv x s) {i : ℕ} {t : Task K} (ht : s.task i = some t) :
    t.began ≤ s.time + 1 ∧ Stack (fun _ g st => g.x = x →
      Read x (s.next m task last).hist (s.time + 1) t.began g st) t.stamps (t.f :: t.callers) := by
  obtain ⟨hb, hS⟩ := h.tasks i t ht
  refine ⟨by omega, hS.imp fun d g st hg hx => ?_⟩
  exact (hg hx).later (fun u hu => next_hist hu) (Nat.le_succ _)

/-- **A step that leaves the version of `x` alone.** -/
theorem Inv.keep (h : Inv x s) (ho : Outside x s.mem m)
    (htasks : ∀ i t, task i = some t → t.began ≤ s.time + 1 ∧ Stack (fun _ g st => g.x = x →
      Read x (s.next m task s.last).hist (s.time + 1) t.began g st) t.stamps (t.f :: t.callers)) :
    Inv x (s.next m task s.last) := by
  have hle := h.since_le
  refine ⟨fun t hs ht => ?_, fun t ht => ?_, fun t ht => ?_, fun a ha => ?_, htasks⟩
  · rw [next_mem, ho.version]
    rcases next_hist_cases ht with ⟨hle, he⟩ | ⟨-, he⟩
    · rw [he]
      exact h.cur t hs hle
    · rw [he]
      exact ho.version
  · have ht' : t < s.since := ht
    rw [next_mem, ho.version, next_hist (by omega)]
    exact h.ne t ht
  · rw [next_mem]
    rcases next_hist_cases ht with ⟨hle, he⟩ | ⟨-, he⟩
    · rw [he]
      exact (h.fresh t hle).mono ho.nextVer
    · rw [he, ho.version]
      exact (h.fresh s.time le_rfl).mono ho.nextVer
  · obtain ⟨h₁, h₂, h₃, h₄, h₅, h₆, h₇, hv⟩ := h.last a ha
    refine ⟨h₁, h₂, h₃, h₄, h₅, h₆, Nat.le_succ_of_le h₇, ?_⟩
    rw [next_mem, ho.version, next_hist (by omega), next_hist (by omega), next_hist (by omega),
      next_hist (by omega)]
    exact hv

/-- **A call installs a version.** -/
theorem Inv.install (h : Inv x s) {f : Frame K} {st : Stamp} {began : ℕ} {ps : ℕ}
    (hr : Read x s.hist s.time began f st) (hp : f.pos = .cas)
    (hv : (s.mem.node x).version = f.oldVer) (hm : (m.node x).version = f.newVer s.mem ps)
    (hn : m.nextVer = s.mem.nextVer + 1) {a : Install} (hst : a.stamp = st)
    (htime : a.time = s.time + 1) (hbefore : a.before = s.since)
    (htasks : ∀ i t, task i = some t → t.began ≤ s.time + 1 ∧ Stack (fun _ g st => g.x = x →
      Read x (s.next m task (some a)).hist (s.time + 1) t.began g st) t.stamps (t.f :: t.callers)) :
    Inv x (s.next m task (some a)) := by
  subst hst
  have hs : f.pos.stage = 5 := by rw [hp]; rfl
  obtain ⟨-, ho, hov⟩ := hr.old (by omega)
  obtain ⟨hl, hl', hlv⟩ := hr.left (by omega)
  obtain ⟨hw, hw', hwv⟩ := hr.leftver (by omega)
  obtain ⟨hr₁, hr₁', hrv⟩ := hr.right (by omega)
  obtain ⟨hz, hz', hzv⟩ := hr.rightver (by omega)
  have hsince : (s.next m task (some a)).since = s.time + 1 := htime
  have hold : ∀ t ≤ s.time, ((s.hist t).node x).version ≠ (m.node x).version := fun t ht he => by
    have := h.fresh t ht
    rw [he, hm] at this
    exact Nat.lt_irrefl _ this
  refine ⟨fun t hts ht => ?_, fun t ht => ?_, fun t ht => ?_, fun b hb => ?_, htasks⟩
  · rw [hsince] at hts
    obtain rfl : t = s.time + 1 := Nat.le_antisymm ht hts
    rfl
  · rw [hsince] at ht
    rw [next_mem, next_hist (by omega)]
    exact hold t (by omega)
  · rw [next_mem, hn]
    rcases next_hist_cases ht with ⟨hle, he⟩ | ⟨-, he⟩
    · rw [he]
      exact (h.fresh t hle).mono (Nat.le_succ _)
    · rw [he, hm]
      exact Nat.lt_succ_self _
  · obtain rfl := Option.some.inj hb
    refine ⟨?_, hl, hw, hr₁, hz, by omega, by rw [htime]; exact le_rfl, ?_⟩
    · rw [hbefore]
      exact (h.since_le_iff ho).mpr (hov.symm.trans hv.symm)
    · rw [next_mem, hm, next_hist hw', next_hist hl', next_hist hz', next_hist hr₁', ← hlv, ← hrv,
        ← hwv, ← hzv]
      exact ⟨_, _, _, _, rfl⟩

section Step

variable {var : Variant} {may : State K V → Mem K V → Prop}

/-- The version of `x` after one access: a CAS on `x` has succeeded, or it is the same. -/
theorem version_cases {m m' : Mem K V} {ps : ℕ} {f : Frame K} {cs : List (Frame K)}
    {vs : List (Ver K)} {res : FrameResult K} (h : FrameStep var m ps f cs m' vs res)
    (hl : var = .eagerDel → (m.node x).left ≠ 0) :
    Outside x m m' ∨ f.x = x ∧ f.pos = .cas ∧ (m.node x).version = f.oldVer ∧
      m' = m.install x (f.newVer m ps) := by
  have hsame : Outside x m m := ⟨rfl, le_rfl⟩
  by_cases hx : f.x = x
  · subst hx
    cases h with
    | leafWrite hp h0 hvar => exact absurd h0 (hl hvar)
    | casOk hp he | casAgain hp he => exact .inr ⟨rfl, hp, he, rfl⟩
    | _ => exact .inl hsame
  · have hne : ∀ v : Ver K, Outside x m (m.install f.x v) := fun v =>
      ⟨install_version_of_ne _ _ _ (Ne.symm hx), Nat.le_succ _⟩
    cases h with
    | leafWrite | casOk | casAgain => exact .inl (hne _)
    | _ => exact .inl hsame

/-- The thread that makes an access. -/
theorem Inv.task_run (h : Inv x s) {i : ℕ} {t t' : Task K} (ht : s.task i = some t)
    {m' : Mem K V} {vs : List (Ver K)} {res : FrameResult K}
    (hs : FrameStep var s.mem t.ps t.f t.callers m' vs res)
    (ht' : t.after var s.time res = some t') :
    t'.began ≤ s.time + 1 ∧ Stack (fun _ g st => g.x = x →
      Read x (s.next m' task last).hist (s.time + 1) t'.began g st) t'.stamps
        (t'.f :: t'.callers) := by
  obtain ⟨hb, hf, -⟩ := h.tasks i t ht
  obtain ⟨hb', -, hcs⟩ := @Inv.task_later _ _ x s m' task last h i t ht
  cases res with
  | run f' cs' =>
      obtain rfl := Option.some.inj ht'
      refine ⟨hb', hcs.step hs (fun y st _ => .start y false) fun g hg hgx => ?_⟩
      have hx : t.f.x = x := hg.x.symm.trans hgx
      exact (hf hx).step hx hg hb rfl (Function.update_self ..) fun u hu => next_hist hu
  | ret ok c =>
      rw [Task.after] at ht'
      split_ifs at ht' with hc
      obtain rfl := Option.some.inj ht'
      exact ⟨hb', fun _ => .start _ true, trivial⟩

variable [DecidableEq K]

/-! ### Turns

To run the system, let the threads take turns: one that is idle begins to refresh `x`, any other one
makes its next access. -/

/-- The turn of thread `i`. -/
def State.turn (var : Variant) (x : ℕ) (s : State K V) (i : ℕ) : State K V :=
  match s.task i with
  | none => s.next s.mem (Function.update s.task i
      (some ⟨i + 1, s.time + 1, false, .start var x true, [], fun _ => ⟨0, 0, 0, 0, 0⟩⟩)) s.last
  | some t => s.exec var x i t

theorem run_turns (s : State K V) (is : List ℕ) :
    Run var x may s (is.foldl (State.turn var x) s) := by
  induction is generalizing s with
  | nil => exact .refl
  | cons i is ih =>
      refine .head ?_ (ih _)
      unfold State.turn
      cases h : s.task i with
      | none => exact .call h x true fun _ => Nat.succ_ne_zero i
      | some t => exact .run h

/-- The constructed tree before any call, at the root. -/
def fresh : State ℕ ℕ := ⟨fun _ => .init 0 0, 0, fun _ => none, none⟩

theorem fresh_init : Init root fresh := ⟨rfl, rfl, Nat.lt_succ_self 2, fun _ _ h => nomatch h⟩

/-! ### Every run -/

/-- **What an access does**: it leaves the version of `x` alone, or it is the CAS that installs the
version. -/
theorem Inv.exec_cases (h : Inv x s) (hl : var = .eagerDel → (s.mem.node x).left ≠ 0) (i : ℕ)
    (t : Task K) : ∃ m' vs res, FrameStep var s.mem t.ps t.f t.callers m' vs res ∧
      (Outside x s.mem m' ∧
        s.exec var x i t = s.next m' (Function.update s.task i (t.after var s.time res)) s.last ∨
      t.f.x = x ∧ t.f.pos = .cas ∧ (s.mem.node x).version = t.f.oldVer ∧
        m' = s.mem.install x (t.f.newVer s.mem t.ps) ∧
        s.exec var x i t = s.next m' (Function.update s.task i (t.after var s.time res))
          (some ⟨i, t.began, t.ps, t.stamps t.callers.length, s.time + 1, s.since⟩)) := by
  have hf := frameStep var s.mem t.ps t.f t.callers
  refine ⟨_, _, _, hf, ?_⟩
  rcases version_cases hf hl with ho | ⟨hx, hp, hv, hm⟩
  · refine .inl ⟨ho, ?_⟩
    unfold State.exec
    simp only
    rw [if_pos ho.version]
  · refine .inr ⟨hx, hp, hv, hm, ?_⟩
    have hne : ((stepFrame var s.mem t.ps t.f t.callers).1.node x).version ≠
        (s.mem.node x).version := fun he => by
      have := h.fresh s.time le_rfl
      rw [show ((s.hist s.time).node x).version = _ from he.symm, hm, install_version_self] at this
      exact Nat.lt_irrefl _ this
    unfold State.exec
    simp only
    rw [if_neg hne]

/-- **Every step keeps the invariant.** -/
theorem Inv.step (h : Inv x s) (hs : Step var x may s s')
    (hl : var = .eagerDel → (s.mem.node x).left ≠ 0) : Inv x s' := by
  cases hs with
  | env ho hm => exact h.keep ho fun i t ht => h.task_later ht
  | @call i hi r main ps hps =>
      refine h.keep ⟨rfl, le_rfl⟩ fun j t ht => ?_
      by_cases hj : j = i
      · rw [hj, Function.update_self] at ht
        obtain rfl := Option.some.inj ht
        exact ⟨le_rfl, fun _ => .start r main, trivial⟩
      · rw [Function.update_of_ne hj] at ht
        exact h.task_later ht
  | @run i t ht =>
      obtain ⟨m', vs, res, hf, hcases⟩ := h.exec_cases hl i t
      have htasks : ∀ last j t', Function.update s.task i (t.after var s.time res) j = some t' →
          t'.began ≤ s.time + 1 ∧ Stack (fun _ g st => g.x = x → Read x (s.next m'
            (Function.update s.task i (t.after var s.time res)) last).hist (s.time + 1)
            t'.began g st)
            t'.stamps (t'.f :: t'.callers) := fun last j t' hj => by
        by_cases hji : j = i
        · rw [hji, Function.update_self] at hj
          exact h.task_run ht hf hj
        · rw [Function.update_of_ne hji] at hj
          exact h.task_later hj
      rcases hcases with ⟨ho, he⟩ | ⟨hx, hp, hv, rfl, he⟩
      · rw [he]
        exact h.keep ho (htasks _)
      · rw [he]
        exact h.install ((h.tasks i t ht).2.1 hx) hp hv (install_version_self ..)
          (install_nextVer ..) rfl rfl rfl (htasks _)

omit [DecidableEq K] in
theorem Init.inv (h : Init x s) : Inv x s := by
  have hs : s.since = 0 := by rw [State.since, h.last]; rfl
  refine ⟨fun t _ ht => ?_, fun t ht => ?_, fun t ht => ?_, fun a ha => ?_, fun i t ht => ?_⟩
  · rw [h.time, Nat.le_zero] at ht
    rw [ht, State.mem, h.time]
  · rw [hs] at ht
    exact absurd ht (Nat.not_lt_zero t)
  · rw [h.time, Nat.le_zero] at ht
    have := h.fresh
    rw [State.mem, h.time] at this ⊢
    rwa [ht]
  · rw [h.last] at ha
    exact nomatch ha
  · obtain ⟨hb, hg⟩ := h.away i t ht
    exact ⟨hb ▸ Nat.zero_le _, .of_forall fun g hm d st hx => absurd hx (hg g hm)⟩

end Step

end Inv

end Refresh

end Cbat
