/-
**A failed eager refresh is covered by the one that it has lost to.**

`refreshUntilConsistentChildren` of BAT-EagerDel reads the children again after its CAS, and returns
only once they have not changed or another CAS was faster.  Suppose that a call on an internal node
`x` fails, and take the call that has installed the version it finds.  Either that call replaces
this version or somebody else does, and every such version is made of loads that were made after the
failed call began; or that call returns because it has seen the same versions of the children again,
also after the failed call began.  So when both calls have returned, the version of `x` records
versions that the children of `x` had since the failed call began, and this stays so.

Main definitions:

* `Cbat.Refresh.Steady` — how the rest of the memory may change: `x` stays an internal node and a
  child pointer does not return to an earlier child;
* `Cbat.Refresh.Shown` — **the version of `x` records what its children had since a moment**;
* `Cbat.Refresh.EagerFrame`, `Cbat.Refresh.EagerInv` — the invariant of the eager calls on `x`.

Main results:

* `Cbat.Refresh.EagerInv.step` — every step keeps the invariant;
* `Cbat.Refresh.failed_covered` — **the record that a failed call returns is not null, and once its
  owner's call has returned, too, the version of `x` is good enough for the failed call**.
-/

import Cbat.Refresh.Model

set_option relaxedAutoImplicit false
set_option autoImplicit false

namespace Cbat.Refresh

variable {K V : Type}

/-- `x` stays an internal node, and a child pointer does not return to an earlier child. -/
structure Steady (x : ℕ) (s : State K V) (m : Mem K V) : Prop where
  internal : (m.node x).left ≠ 0
  left : (m.node x).left = (s.mem.node x).left ∨
    ∀ t ≤ s.time, (m.node x).left ≠ ((s.hist t).node x).left
  right : (m.node x).right = (s.mem.node x).right ∨
    ∀ t ≤ s.time, (m.node x).right ≠ ((s.hist t).node x).right

/-- **Each child version that the version of `x` records was that of the child of `x` on this side
at a moment since `u`.** -/
def Shown (x : ℕ) (s : State K V) (u : ℕ) : Prop :=
  ∃ adr k sum l r st, (s.mem.node x).version = .mk adr k sum l r st ∧
    (∃ t, u ≤ t ∧ t ≤ s.time ∧ (s.hist t).ver ((s.hist t).node x).left = l) ∧
    ∃ t, u ≤ t ∧ t ≤ s.time ∧ (s.hist t).ver ((s.hist t).node x).right = r

/-! ### The calls -/

/-- **An eager call on `x`.**  A nested call fills in a version where there is none.  Between the
load of a child and the test, the child was the same. -/
structure EagerFrame (x : ℕ) (hist : ℕ → Mem K V) (ps d : ℕ) (g : Frame K) (st : Stamp) : Prop where
  depth : g.main = true → d = 0
  ps : g.main = true → ps ≠ 0
  first : g.pos.stage = 0 → (g.pos = .loadOld ↔ g.main = false)
  nested : g.main = false → g.oldVer = .nil ∧ g.prev = none
  there : g.main = true → 1 ≤ g.pos.stage → g.oldVer ≠ .nil
  prev : ∀ l r, g.prev = some (l, r) →
    1 ≤ g.pos.stage ∧ ∃ adr k sum st, g.oldVer = .mk adr k sum l r st
  left : 3 ≤ g.pos.stage → g.pos ≠ .testLeft → ((hist st.leftver).node x).left = g.left1
  right : g.pos = .cas → ((hist st.rightver).node x).right = g.right1

/-- The child pointer was the same all the time between two moments at which it was the same. -/
def NoReturn (child : Node K V → ℕ) (x : ℕ) (s : State K V) : Prop :=
  ∀ a b c, a ≤ b → b ≤ c → c ≤ s.time → child ((s.hist a).node x) = child ((s.hist c).node x) →
    child ((s.hist b).node x) = child ((s.hist c).node x)

section Frames

variable {x now began ps d : ℕ} {hist hist' : ℕ → Mem K V} {f g : Frame K} {st : Stamp}
  {m m' : Mem K V}

theorem EagerFrame.later (h : EagerFrame x hist ps d g st) (hr : Read x hist now began g st)
    (hh : ∀ t ≤ now, hist' t = hist t) : EagerFrame x hist' ps d g st where
  depth := h.depth
  ps := h.ps
  first := h.first
  nested := h.nested
  there := h.there
  prev := h.prev
  left := fun hs hp => by rw [hh _ (hr.leftver hs).2.1, h.left hs hp]
  right := fun hp => by rw [hh _ (hr.rightver (by rw [hp]; decide)).2.1, h.right hp]

/-- A call that begins. -/
theorem EagerFrame.start (y : ℕ) (main : Bool) (hd : main = true → d = 0 ∧ ps ≠ 0) :
    EagerFrame x hist ps d (.start .eagerDel y main) st := by
  have hs : (Frame.start (K := K) .eagerDel y main).pos.stage = 0 := by
    simp only [Frame.start]
    split_ifs <;> rfl
  refine ⟨fun h => (hd h).1, fun h => (hd h).2, fun _ => ?_, fun _ => ⟨rfl, rfl⟩, fun _ h => ?_,
    (by intro _ _ h; cases h), fun h => ?_, fun h => ?_⟩
  · cases main <;> simp [Frame.start]
  · omega
  · omega
  · rw [h] at hs
    cases hs

/-- A call that goes on with the version that it expects. -/
theorem EagerFrame.go (h : EagerFrame x hist ps d f st) (hs : 1 ≤ f.pos.stage) {p : Pos} {l r : ℕ}
    {lv rv : Ver K} {st' : Stamp} (hs' : 1 ≤ p.stage)
    (hl : 3 ≤ p.stage → p ≠ .testLeft → ((hist st'.leftver).node x).left = l)
    (hr : p = .cas → ((hist st'.rightver).node x).right = r) :
    EagerFrame x hist ps d
      { f with pos := p, left1 := l, leftver := lv, right1 := r, rightver := rv } st' where
  depth := h.depth
  ps := h.ps
  first := fun h' => by
    rw [show p.stage = 0 from h'] at hs'
    exact nomatch hs'
  nested := h.nested
  there := fun h' _ => h.there h' hs
  prev := fun l r h' => ⟨hs', (h.prev l r h').2⟩
  left := hl
  right := hr

/-- **One access of an eager call on `x`.** -/
theorem EagerFrame.step (h : EagerFrame x hist ps d f st) (hr : Read x hist now began f st)
    (hx : f.x = x) (hg : Goes .eagerDel m ps f m' g) (hh : ∀ t ≤ now, hist' t = hist t)
    (hold : f.pos = .reloadOld → (m.node x).version ≠ .nil)
    (hleft : ∀ a b, a ≤ b → b ≤ now → ((hist a).node x).left = (m.node x).left →
      ((hist b).node x).left = (m.node x).left)
    (hright : ∀ a b, a ≤ b → b ≤ now → ((hist a).node x).right = (m.node x).right →
      ((hist b).node x).right = (m.node x).right) :
    EagerFrame x hist' ps d g (st.mark now f.pos) := by
  have hl := h.later hr hh
  subst hx
  cases hg with
  | getOld hp =>
      have hmain : f.main = true := by
        have := h.first (by rw [hp]; rfl)
        rw [hp] at this
        cases hm : f.main with
        | true => rfl
        | false => cases this.mpr hm
      have h0 : ∀ l r, f.prev ≠ some (l, r) := fun l r hprev => by
        have := (h.prev l r hprev).1
        rw [hp] at this
        exact absurd this (by decide)
      refine ⟨h.depth, h.ps, fun _ => by simp [hmain], h.nested, fun _ hs => ?_,
        fun l r hprev => absurd hprev (h0 l r), fun hs => ?_, by intro h; cases h⟩ <;>
        simp [Pos.stage] at hs
  | old hp hvar =>
      have h0 : f.pos.stage = 0 := by rcases hp with hp | hp <;> rw [hp] <;> rfl
      have hfirst := h.first h0
      refine ⟨h.depth, h.ps, (by intro h; cases h), fun hm => ⟨?_, (h.nested hm).2⟩, fun hm _ => ?_,
        fun l r hprev => ?_, fun hs => ?_, by intro h; cases h⟩
      · exact hvar (hfirst.mpr hm) (by decide) hm
      · refine hold (hp.resolve_right fun hp => ?_)
        have hm' : f.main = true := hm
        rw [hfirst.mp hp] at hm'
        cases hm'
      · have := (h.prev l r hprev).1
        omega
      · simp [Pos.stage] at hs
  | inner hp | left hp | getLeft hp | leftMoved hp =>
      exact hl.go (by rw [hp]; decide) (by decide) (fun hs => absurd hs (by decide))
        (by intro h; cases h)
  | leftVer hp =>
      refine hl.go ?_ (by decide) (fun _ hs => absurd rfl hs) (by intro h; cases h)
      rcases hp with hp | hp <;> rw [hp] <;> decide
  | leftSame hp he =>
      have hs : f.pos.stage = 3 := by rw [hp]; rfl
      obtain ⟨-, -, hl₁⟩ := hr.left (by omega)
      obtain ⟨hw, hw', -⟩ := hr.leftver (by omega)
      refine hl.go (by omega) (by decide) (fun _ _ => ?_) (by intro h; cases h)
      rw [hp, Stamp.mark, hh _ hw']
      exact (hleft _ _ hw hw' (by rw [← hl₁, he])).trans he.symm
  | noRight hp | right hp | getRight hp | rightMoved hp =>
      have hl₁ := hl.left (by rw [hp]; decide) (by rw [hp]; decide)
      refine hl.go (by rw [hp]; decide) (by decide) (fun _ _ => ?_) (by intro h; cases h)
      rw [hp]
      exact hl₁
  | rightVer hp =>
      have hs : f.pos.stage = 4 := by rcases hp with hp | hp <;> rw [hp] <;> rfl
      have hl₁ := hl.left (by omega) (by rcases hp with hp | hp <;> rw [hp] <;> decide)
      refine hl.go (by omega) (by decide) (fun _ _ => ?_) (by intro h; cases h)
      rcases hp with hp | hp <;> rw [hp] <;> exact hl₁
  | rightSame hp he =>
      have hs : f.pos.stage = 5 := by rw [hp]; rfl
      obtain ⟨-, -, hr₁⟩ := hr.right (by omega)
      obtain ⟨hz, hz', -⟩ := hr.rightver (by omega)
      have hl₁ := hl.left (by omega) (by rw [hp]; decide)
      refine hl.go (by omega) (by decide) (fun _ _ => ?_) fun _ => ?_
      · rw [hp]
        exact hl₁
      · rw [hp, Stamp.mark, hh _ hz']
        exact (hright _ _ hz hz' (by rw [← hr₁, he])).trans he.symm
  | again hp ho hvar hmain =>
      refine ⟨h.depth, h.ps, (by intro h; cases h), fun hm => ?_, fun _ _ => (by intro h; cases h),
        fun l r hlr => ?_, fun hs => ?_, by intro h; cases h⟩
      · rw [show f.main = false from hm] at hmain
        cases hmain
      · obtain ⟨rfl, rfl⟩ := Prod.mk.inj (Option.some.inj hlr)
        exact ⟨by simp [Pos.stage], _, _, _, _, rfl⟩
      · simp [Pos.stage] at hs

/-! ### Filling in the first version -/

/-- A call that has found no version of `x` has made a nested call on `x`. -/
def Fills (x : ℕ) : List (Frame K) → Prop
  | g :: c :: cs => (c.pos = .reloadOld → c.x = x → g.x = x ∧ g.main = false) ∧ Fills x (c :: cs)
  | _ => True

theorem Fills.tail {cs : List (Frame K)} (h : Fills x (f :: cs)) : Fills x cs := by
  cases cs with
  | nil => trivial
  | cons c cs => exact h.2

theorem Fills.congr {cs : List (Frame K)} (h : Fills x (f :: cs)) (hx : g.x = f.x)
    (hm : g.main = f.main) : Fills x (g :: cs) := by
  cases cs with
  | nil => trivial
  | cons c cs =>
      refine ⟨fun hp hc => ?_, h.2⟩
      rw [hx, hm]
      exact h.1 hp hc

variable {var : Variant} {cs cs' : List (Frame K)} {vs : List (Ver K)} {res : FrameResult K}
  {f' : Frame K}

theorem Goes.main (h : Goes var m ps f m' g) : g.main = f.main := by cases h <;> rfl

theorem Fills.step (hF : Fills x (f :: cs)) (h : FrameStep var m ps f cs m' vs (.run f' cs')) :
    Fills x (f' :: cs') := by
  generalize hres : FrameResult.run f' cs' = res at h
  have hpop : ∀ {ok : Bool} {c : ℕ}, FrameResult.run f' cs' = .pop cs ok c →
      Fills x (f' :: cs') := fun {ok c} he => by
    cases cs with
    | nil => exact nomatch he
    | cons g gs =>
        obtain ⟨rfl, rfl⟩ := FrameResult.run.inj he
        exact hF.tail
  cases h with
  | skip | leafWrite | leaf | unchanged | casOk | casFail => exact hpop hres
  | callOld =>
      obtain ⟨rfl, rfl⟩ := FrameResult.run.inj hres
      exact ⟨fun _ hx => ⟨hx, rfl⟩, hF.congr rfl rfl⟩
  | callLeft | callRight =>
      obtain ⟨rfl, rfl⟩ := FrameResult.run.inj hres
      exact ⟨nofun, hF.congr rfl rfl⟩
  | _ =>
      obtain ⟨rfl, rfl⟩ := FrameResult.run.inj hres
      exact hF.congr rfl rfl

/-- **When a call loads the version that it expects for the second time, there is one.** -/
theorem reload_there (hF : Fills x (f :: cs))
    (h : FrameStep .eagerDel m ps f cs m' vs (.run f' cs'))
    (hn : f.x = x → f.main = false → f.oldVer = .nil ∧ f.prev = none) (hp : f'.pos = .reloadOld)
    (hx : f'.x = x) : (m'.node x).version ≠ .nil := by
  generalize hres : FrameResult.run f' cs' = res at h
  -- a nested call on `x` returns
  have hpop : ∀ {ok : Bool} {c : ℕ}, FrameResult.run f' cs' = .pop cs ok c →
      f.x = x ∧ f.main = false := fun {ok c} he => by
    cases cs with
    | nil => exact nomatch he
    | cons g gs =>
        obtain ⟨rfl, rfl⟩ := FrameResult.run.inj he
        exact hF.1 hp hx
  cases h with
  | oldThere hp' hv =>
      obtain ⟨rfl, rfl⟩ := FrameResult.run.inj hres
      exact hx ▸ hv
  | skip hp' hvar hm hv => exact (hpop hres).1 ▸ hv
  | leafWrite | casOk =>
      rw [(hpop hres).1, install_version_self]
      exact nofun
  | leaf hp' hl hvar => exact absurd rfl hvar
  | unchanged hp' he hprev =>
      rw [(hn (hpop hres).1 (hpop hres).2).2] at hprev
      exact nomatch hprev
  | casFail hp' hne =>
      rw [(hn (hpop hres).1 (hpop hres).2).1, (hpop hres).1] at hne
      exact hne
  | callOld | callLeft | callRight =>
      obtain ⟨rfl, rfl⟩ := FrameResult.run.inj hres
      exact nomatch hp
  | _ =>
      obtain ⟨rfl, rfl⟩ := FrameResult.run.inj hres
      exact nomatch hp

end Frames

/-! ### The invariant -/

/-- The call that has installed the version of `x` has not returned: it reads the children again. -/
def Running (x : ℕ) (s : State K V) (a : Install) : Prop :=
  ∃ t, s.task a.thread = some t ∧ t.began = a.began ∧ Stack (fun d g _ => d = 0 → g.x = x ∧
    g.main = true ∧ 1 ≤ g.pos.stage ∧ g.oldVer = (s.mem.node x).version ∧ ∃ lr, g.prev = some lr)
      t.stamps (t.f :: t.callers)

/-- **The version of `x`.**  It carries the record of its call or is the first one; the children
were the same when their versions were read; and the call has seen them again or is still running.
-/
structure LastOk (x : ℕ) (s : State K V) (a : Install) : Prop where
  status : (s.mem.node x).version.status = a.ps ∧ a.ps ≠ 0 ∨
    (s.mem.node x).version.status = 0 ∧ ∀ t < a.time, ((s.hist t).node x).version = .nil
  left : ((s.hist a.stamp.leftver).node x).left = ((s.hist a.stamp.left).node x).left
  right : ((s.hist a.stamp.rightver).node x).right = ((s.hist a.stamp.right).node x).right
  done : (s.mem.node x).version.status ≠ 0 → Shown x s a.time ∨ Running x s a

/-- **The invariant of the eager calls on `x`.** -/
structure EagerInv (x : ℕ) (s : State K V) : Prop where
  internal : ∀ t ≤ s.time, ((s.hist t).node x).left ≠ 0
  left : NoReturn Node.left x s
  right : NoReturn Node.right x s
  nil : ∀ a b, a ≤ b → b ≤ s.time → ((s.hist b).node x).version = .nil →
    ((s.hist a).node x).version = .nil
  frames : ∀ i t, s.task i = some t → Stack (fun d g st => g.x = x →
    EagerFrame x s.hist t.ps d g st) t.stamps (t.f :: t.callers)
  fills : ∀ i t, s.task i = some t → Fills x (t.f :: t.callers) ∧
    (t.f.pos = .reloadOld → t.f.x = x → (s.mem.node x).version ≠ .nil)
  last : ∀ a, s.last = some a → LastOk x s a

section Inv

variable {x : ℕ} {s s' : State K V} {m : Mem K V} {task : ℕ → Option (Task K)}
  {last : Option Install}

theorem NoReturn.next {child : Node K V → ℕ} (h : NoReturn child x s)
    (hm : child (m.node x) = child (s.mem.node x) ∨
      ∀ t ≤ s.time, child (m.node x) ≠ child ((s.hist t).node x)) :
    NoReturn child x (s.next m task last) := by
  intro a b c hab hbc hc he
  rcases next_hist_cases (m := m) hc with ⟨hc', hc⟩ | ⟨hc', hc⟩
  · rw [next_hist (by omega), hc] at he ⊢
    exact h a b c hab hbc hc' he
  · rcases next_hist_cases (m := m) (show b ≤ s.time + 1 by omega) with ⟨hb', hb⟩ | ⟨hb', hb⟩
    · rw [next_hist (by omega), hc] at he
      rw [hb, hc]
      rcases hm with hm | hm
      · rw [hm] at he ⊢
        exact h a b s.time hab hb' le_rfl he
      · exact absurd he.symm (hm a (by omega))
    · rw [hb, hc]

theorem Shown.keep {u : ℕ} (h : Shown x s u) (ho : Outside x s.mem m) :
    Shown x (s.next m task last) u := by
  obtain ⟨adr, k, sum, l, r, st, hv, ⟨t, htu, ht, hl⟩, t', htu', ht', hr⟩ := h
  refine ⟨adr, k, sum, l, r, st, by rw [next_mem, ho.version, hv],
    ⟨t, htu, Nat.le_succ_of_le ht, ?_⟩,
    t', htu', Nat.le_succ_of_le ht', ?_⟩
  · rw [next_hist ht, hl]
  · rw [next_hist ht', hr]

theorem Shown.mono {u u' : ℕ} (h : Shown x s u) (hu : u' ≤ u) : Shown x s u' := by
  obtain ⟨adr, k, sum, l, r, st, hv, ⟨t, htu, ht, hl⟩, t', htu', ht', hr⟩ := h
  exact ⟨adr, k, sum, l, r, st, hv, ⟨t, hu.trans htu, ht, hl⟩, t', hu.trans htu', ht', hr⟩

/-- A thread that does not make the step. -/
theorem EagerInv.task_later (h : EagerInv x s) (hI : Inv x s) {i : ℕ} {t : Task K}
    (ht : s.task i = some t) : Stack (fun d g st => g.x = x →
      EagerFrame x (s.next m task last).hist t.ps d g st) t.stamps (t.f :: t.callers) :=
  ((h.frames i t ht).and (hI.tasks i t ht).2).imp fun _ _ _ hg hx =>
    (hg.1 hx).later (hg.2 hx) fun _ hu => next_hist hu

/-- **A step that leaves the version of `x` alone.** -/
theorem EagerInv.keep (h : EagerInv x s) (hI : Inv x s) (ho : Outside x s.mem m)
    (hs : Steady x s m)
    (hframes : ∀ i t, task i = some t → Stack (fun d g st => g.x = x →
      EagerFrame x (s.next m task s.last).hist t.ps d g st) t.stamps (t.f :: t.callers))
    (hfills : ∀ i t, task i = some t → Fills x (t.f :: t.callers) ∧
      (t.f.pos = .reloadOld → t.f.x = x → (m.node x).version ≠ .nil))
    (hrun : ∀ a, s.last = some a → Running x s a →
      Shown x (s.next m task s.last) a.time ∨ Running x (s.next m task s.last) a) :
    EagerInv x (s.next m task s.last) where
  internal := fun t ht => by
    rcases next_hist_cases (m := m) ht with ⟨ht', he⟩ | ⟨-, he⟩
    · rw [he]
      exact h.internal t ht'
    · rw [he]
      exact hs.internal
  left := h.left.next hs.left
  right := h.right.next hs.right
  nil := fun a b hab hb hv => by
    rcases next_hist_cases (m := m) hb with ⟨hb', he⟩ | ⟨hb', he⟩
    · rw [he] at hv
      rw [next_hist (by omega)]
      exact h.nil a b hab hb' hv
    · rw [he, ho.version] at hv
      rcases next_hist_cases (m := m) (show a ≤ s.time + 1 by omega) with ⟨ha', he'⟩ | ⟨ha', he'⟩
      · rw [he']
        exact h.nil a s.time ha' le_rfl hv
      · rw [he', ho.version]
        exact hv
  frames := hframes
  fills := fun i t ht => by
    rw [next_mem]
    exact hfills i t ht
  last := fun a ha => by
    obtain ⟨hst, hl, hr, hd⟩ := h.last a ha
    have hi := hI.last a ha
    have hle := hi.le
    have hload : ∀ u ∈ a.stamp.all, u ≤ s.time := fun u hu => by
      have := hi.loads hu
      omega
    refine ⟨?_, ?_, ?_, fun h0 => ?_⟩
    · rw [next_mem, ho.version]
      refine hst.imp_right fun hst => ⟨hst.1, fun t ht => ?_⟩
      rw [next_hist (by omega)]
      exact hst.2 t ht
    · rw [next_hist (hload _ (by simp [Stamp.all])), next_hist (hload _ (by simp [Stamp.all]))]
      exact hl
    · rw [next_hist (hload _ (by simp [Stamp.all])), next_hist (hload _ (by simp [Stamp.all]))]
      exact hr
    · rw [next_mem, ho.version] at h0
      rcases hd h0 with hd | hd
      · exact .inl (hd.keep ho)
      · exact hrun a ha hd

/-- A thread that does not make the step keeps its part of the invariant. -/
theorem Running.other {a : Install} (h : Running x s a) (ho : Outside x s.mem m)
    (ht : task a.thread = s.task a.thread) : Running x (s.next m task last) a := by
  obtain ⟨t, hs, hb, hS⟩ := h
  refine ⟨t, by rw [next_task, ht, hs], hb, ?_⟩
  rw [next_mem, ho.version]
  exact hS

theorem EagerInv.fills_later (h : EagerInv x s) (ho : Outside x s.mem m) {i : ℕ} {t : Task K}
    (ht : s.task i = some t) : Fills x (t.f :: t.callers) ∧
      (t.f.pos = .reloadOld → t.f.x = x → (m.node x).version ≠ .nil) := by
  rw [ho.version]
  exact h.fills i t ht

variable {i : ℕ} {t t' : Task K} {m' : Mem K V} {vs : List (Ver K)} {res : FrameResult K}

/-- The thread that makes an access. -/
theorem EagerInv.task_run (h : EagerInv x s) (hI : Inv x s) (ht : s.task i = some t)
    (hs : FrameStep .eagerDel s.mem t.ps t.f t.callers m' vs res)
    (ht' : t.after .eagerDel s.time res = some t') :
    Stack (fun d g st => g.x = x → EagerFrame x (s.next m' task last).hist t'.ps d g st) t'.stamps
      (t'.f :: t'.callers) ∧ Fills x (t'.f :: t'.callers) ∧
      (t'.f.pos = .reloadOld → t'.f.x = x → (m'.node x).version ≠ .nil) := by
  obtain ⟨hf, -⟩ := h.frames i t ht
  obtain ⟨-, hr, -⟩ := hI.tasks i t ht
  obtain ⟨-, hcs⟩ := @EagerInv.task_later _ _ x s m' task last h hI i t ht
  obtain ⟨hF, hold⟩ := h.fills i t ht
  cases res with
  | ret ok c =>
      rw [Task.after, if_neg (fun h => by cases h.1)] at ht'
      cases ht'
  | run f' cs' =>
      obtain rfl := Option.some.inj ht'
      refine ⟨hcs.step hs (fun y st _ => .start y false (by intro h; cases h))
        fun g hg hgx => ?_, hF.step hs,
        reload_there hF hs fun hx hm => (hf hx).nested hm⟩
      have hx : t.f.x = x := hg.x.symm.trans hgx
      refine (hf hx).step (hr hx) hx hg (fun u hu => next_hist hu) (fun hp => hold hp hx) ?_ ?_
      · exact fun a b hab hb he => h.left a b s.time hab hb le_rfl he
      · exact fun a b hab hb he => h.right a b s.time hab hb le_rfl he

/-- A call that expects a version goes on with it until its CAS. -/
theorem Goes.loaded {ps : ℕ} {f g : Frame K} (hg : Goes .eagerDel m ps f m' g)
    (hs : 1 ≤ f.pos.stage) (hp : f.pos ≠ .cas) :
    1 ≤ g.pos.stage ∧ g.oldVer = f.oldVer ∧ g.prev = f.prev := by
  cases hg with
  | getOld hp' => rw [hp'] at hs; exact nomatch hs
  | old hp' => rcases hp' with hp' | hp' <;> rw [hp'] at hs <;> exact nomatch hs
  | again hp' => exact absurd hp' hp
  | _ => exact ⟨by simp [Pos.stage], rfl, rfl⟩

/-- **The call that has installed the version returns only after it has seen the children again.**
-/
theorem EagerInv.shown_of_unchanged (h : EagerInv x s) (hI : Inv x s) (ht : s.task i = some t)
    (hx : t.f.x = x) (hp : t.f.pos = .testRight) (he : t.f.right1 = (s.mem.node x).right)
    (hprev : t.f.prev = some (t.f.leftver, t.f.rightver))
    (ho : t.f.oldVer = (s.mem.node x).version) : Shown x s s.since := by
  have hf := (h.frames i t ht).1 hx
  have hr := (hI.tasks i t ht).2.1 hx
  have hs : t.f.pos.stage = 5 := by rw [hp]; rfl
  obtain ⟨-, hb', hbv⟩ := hr.old (by omega)
  obtain ⟨hl, -, -⟩ := hr.left (by omega)
  obtain ⟨hw, hw', hwv⟩ := hr.leftver (by omega)
  obtain ⟨hq, -, hqv⟩ := hr.right (by omega)
  obtain ⟨hz, hz', hzv⟩ := hr.rightver (by omega)
  obtain ⟨-, adr, k, sum, st, hmk⟩ := hf.prev _ _ hprev
  have hsince := (hI.since_le_iff hb').mpr (hbv.symm.trans ho)
  have hleft := hf.left (by omega) (by rw [hp]; decide)
  have hright : ((s.hist (t.stamps t.callers.length).rightver).node x).right = t.f.right1 :=
    (h.right _ _ _ hz hz' le_rfl (hqv.symm.trans he)).trans he.symm
  refine ⟨adr, k, sum, _, _, st, ho.symm.trans hmk, ⟨_, ?_, hw', ?_⟩, _, ?_, hz', ?_⟩
  · omega
  · rw [Mem.ver_of_ne _ (h.internal _ hw'), hleft, hwv]
  · omega
  · rw [hright, hzv]

/-- **The call that has installed the version makes an access** and does not replace it. -/
theorem Running.own (h : EagerInv x s) (hI : Inv x s) {a : Install} (ha : s.last = some a)
    (hR : Running x s a) (ht : s.task a.thread = some t)
    (hs : FrameStep .eagerDel s.mem t.ps t.f t.callers m' vs res) (ho : Outside x s.mem m')
    (htask : task a.thread = t.after .eagerDel s.time res) :
    Shown x (s.next m' task last) a.time ∨ Running x (s.next m' task last) a := by
  obtain ⟨t', ht', hb, hf, hcs⟩ := hR
  obtain rfl := Option.some.inj (ht'.symm.trans ht)
  cases res with
  | run f' cs' =>
      refine .inr ⟨_, htask, hb, ?_⟩
      rw [next_mem, ho.version]
      refine hcs.step hs (fun y st hd => by cases hd) fun g hg hd => ?_
      obtain ⟨hx, hm, hstage, hov, hlr⟩ := hf hd
      have hp : t'.f.pos ≠ .cas := fun hp => by
        cases hg with
        | again hp' he =>
            have hfresh := hI.fresh s.time le_rfl
            have hv := ho.version
            rw [← hx, install_version_self, hx] at hv
            rw [show ((s.hist s.time).node x).version = _ from hv.symm] at hfresh
            exact Nat.lt_irrefl _ hfresh
        | old hp' | leftVer hp' | rightVer hp' => rcases hp' with hp' | hp' <;> simp [hp] at hp'
        | _ hp' => simp [hp] at hp'
      obtain ⟨hs', ho', hp'⟩ := hg.loaded hstage hp
      rw [ho', hp', hg.x, hg.main]
      exact ⟨hx, hm, hs', hov, hlr⟩
  | ret ok c =>
      refine .inl ?_
      generalize hres : FrameResult.ret ok c = res at hs
      have hnil : ∀ {ok' : Bool} {c' : ℕ}, FrameResult.ret ok c = .pop t'.callers ok' c' →
          t'.callers.length = 0 := fun {ok' c'} he => by
        cases hcs : t'.callers with
        | nil => rfl
        | cons g gs => rw [hcs] at he; cases he
      have hsince : s.since = a.time := by rw [State.since, ha]; rfl
      cases hs with
      | skip hp hvar hm =>
          rw [(hf (hnil hres)).2.1] at hm
          cases hm
      | leafWrite hp hl =>
          rw [(hf (hnil hres)).1] at hl
          exact absurd hl (h.internal s.time le_rfl)
      | leaf hp hl hvar => exact absurd rfl hvar
      | unchanged hp he hprev =>
          obtain ⟨hx, -, -, hov, -⟩ := hf (hnil hres)
          rw [← hsince]
          exact (h.shown_of_unchanged hI ht hx hp (hx ▸ he) hprev hov).keep ho
      | casOk hp he hvar => exact absurd ⟨rfl, (hf (hnil hres)).2.1⟩ hvar
      | casFail hp hne =>
          obtain ⟨hx, -, -, hov, -⟩ := hf (hnil hres)
          exact absurd (by rw [hx, hov]) hne
      | _ => cases hres

/-- The new version, and the call that has installed it. -/
theorem EagerInv.last_install (h : EagerInv x s) (hI : Inv x s) (ht : s.task i = some t)
    (hx : t.f.x = x) (hp : t.f.pos = .cas) (hv : (s.mem.node x).version = t.f.oldVer)
    (hs : FrameStep .eagerDel s.mem t.ps t.f t.callers (s.mem.install x (t.f.newVer s.mem t.ps))
      vs res) (htask : task i = t.after .eagerDel s.time res) {a : Install} (hai : a.thread = i)
    (hab : a.began = t.began) (haps : a.ps = t.ps) (hst : a.stamp = t.stamps t.callers.length)
    (htime : a.time = s.time + 1) :
    LastOk x (s.next (s.mem.install x (t.f.newVer s.mem t.ps)) task (some a)) a := by
  have hf := (h.frames i t ht).1 hx
  have hr := (hI.tasks i t ht).2.1 hx
  have hs5 : t.f.pos.stage = 5 := by rw [hp]; rfl
  obtain ⟨-, hl', hlv⟩ := hr.left (by omega)
  obtain ⟨-, hw', -⟩ := hr.leftver (by omega)
  obtain ⟨-, hq', hqv⟩ := hr.right (by omega)
  obtain ⟨-, hz', -⟩ := hr.rightver (by omega)
  have hleft := hf.left (by omega) (by rw [hp]; decide)
  have hright := hf.right hp
  have hstatus : (t.f.newVer s.mem t.ps).status = if t.f.main then t.ps else 0 := rfl
  refine ⟨?_, ?_, ?_, fun h0 => .inr ?_⟩
  · rw [next_mem, install_version_self, hstatus, haps, htime]
    cases hm : t.f.main with
    | true => exact .inl ⟨rfl, hf.ps hm⟩
    | false =>
        refine .inr ⟨rfl, fun u hu => ?_⟩
        rw [next_hist (by omega)]
        exact h.nil u s.time (by omega) le_rfl (hv.trans (hf.nested hm).1)
  · rw [hst, next_hist hw', next_hist hl', hleft, hlv]
  · rw [hst, next_hist hz', next_hist hq', hright, hqv]
  · rw [next_mem, install_version_self, hstatus] at h0
    have hm : t.f.main = true := by
      by_contra hm
      exact h0 (if_neg hm)
    have hcs : t.callers = [] := List.length_eq_zero_iff.mp (hf.depth hm)
    have hres := (hs.swaps hp (hx ▸ hv)).2
    rw [if_pos ⟨rfl, hm⟩] at hres
    subst hres
    subst hai
    refine ⟨_, htask, hab.symm, ?_⟩
    rw [next_mem, install_version_self]
    refine ⟨fun _ => ⟨hx, hm, by simp [Pos.stage], rfl, _, rfl⟩, ?_⟩
    rw [show t.callers = [] from hcs]
    trivial

/-- **A call installs a version.** -/
theorem EagerInv.install (h : EagerInv x s) (hI : Inv x s) (ht : s.task i = some t)
    (hx : t.f.x = x) (hp : t.f.pos = .cas) (hv : (s.mem.node x).version = t.f.oldVer)
    (hs : FrameStep .eagerDel s.mem t.ps t.f t.callers (s.mem.install x (t.f.newVer s.mem t.ps))
      vs res) :
    EagerInv x (s.next (s.mem.install x (t.f.newVer s.mem t.ps))
      (Function.update s.task i (t.after .eagerDel s.time res))
      (some ⟨i, t.began, t.ps, t.stamps t.callers.length, s.time + 1, s.since⟩)) := by
  have hnode : ∀ child : Node K V → ℕ, (∀ n v, child { n with version := v } = child n) →
      child ((s.mem.install x (t.f.newVer s.mem t.ps)).node x) = child (s.mem.node x) :=
    fun child hc => by
      rw [install_node, if_pos rfl]
      exact hc _ _
  have hnew : ((s.mem.install x (t.f.newVer s.mem t.ps)).node x).version ≠ .nil := by
    rw [install_version_self]
    exact nofun
  have htasks : ∀ {j : ℕ} {t' : Task K}, Function.update s.task i
      (t.after .eagerDel s.time res) j = some t' →
      (j = i ∧ t.after .eagerDel s.time res = some t') ∨ s.task j = some t' := fun {j t'} hj => by
    by_cases hji : j = i
    · rw [hji, Function.update_self] at hj
      exact .inl ⟨hji, hj⟩
    · rw [Function.update_of_ne hji] at hj
      exact .inr hj
  refine ⟨fun u hu => ?_, h.left.next (.inl (hnode _ fun _ _ => rfl)),
    h.right.next (.inl (hnode _ fun _ _ => rfl)), fun a b hab hb hnil => ?_, fun j t' hj => ?_,
    fun j t' hj => ?_, fun a ha => ?_⟩
  · rcases next_hist_cases hu with ⟨hu', he⟩ | ⟨-, he⟩
    · rw [he]
      exact h.internal u hu'
    · rw [he, hnode Node.left fun _ _ => rfl]
      exact h.internal s.time le_rfl
  · rcases next_hist_cases hb with ⟨hb', he⟩ | ⟨-, he⟩
    · rw [he] at hnil
      rw [next_hist (by omega)]
      exact h.nil a b hab hb' hnil
    · rw [he] at hnil
      exact absurd hnil hnew
  · rcases htasks hj with ⟨-, hj⟩ | hj
    · exact (h.task_run hI ht hs hj).1
    · exact h.task_later hI hj
  · rw [next_mem]
    refine ⟨?_, fun _ _ => hnew⟩
    rcases htasks hj with ⟨-, hj⟩ | hj
    · exact (@EagerInv.task_run _ _ x s s.task s.last i t t' _ _ _ h hI ht hs hj).2.1
    · exact (h.fills j t' hj).1
  · obtain rfl := Option.some.inj ha
    exact h.last_install hI ht hx hp hv hs (Function.update_self ..) rfl rfl rfl rfl rfl

theorem Fills.away {gs : List (Frame K)} (h : ∀ g ∈ gs, g.x ≠ x) : Fills x gs := by
  induction gs with
  | nil => trivial
  | cons g gs ih =>
      cases gs with
      | nil => trivial
      | cons c cs =>
          exact ⟨fun _ hc => absurd hc (h c (by simp)), ih fun g hg => h g (by simp [hg])⟩

/-- Before the first call on an internal node. -/
theorem Init.eager (h : Init x s) (hl : (s.mem.node x).left ≠ 0) : EagerInv x s := by
  have h0 : ∀ u ≤ s.time, s.hist u = s.mem := fun u hu => by
    rw [h.time, Nat.le_zero] at hu
    rw [hu, State.mem, h.time]
  refine ⟨fun u hu => by rwa [h0 u hu], fun a b c hab hbc hc _ => ?_, fun a b c hab hbc hc _ => ?_,
    fun a b hab hb hn => ?_, fun i t ht => .of_forall fun g hg d st hx => ?_, fun i t ht => ?_,
    fun a ha => ?_⟩
  · rw [h0 b (by omega), h0 c hc]
  · rw [h0 b (by omega), h0 c hc]
  · rw [h0 b hb] at hn
    rwa [h0 a (by omega)]
  · exact absurd hx ((h.away i t ht).2 g hg)
  · obtain ⟨-, hg⟩ := h.away i t ht
    exact ⟨.away hg, fun _ hx => absurd hx (hg t.f (by simp))⟩
  · rw [h.last] at ha
    cases ha

variable [DecidableEq K]

/-- **Every step keeps the invariant of the eager calls.** -/
theorem EagerInv.step (h : EagerInv x s) (hI : Inv x s)
    (hs : Step .eagerDel x (Steady x) s s') : EagerInv x s' := by
  have hinternal := h.internal s.time le_rfl
  cases hs with
  | env ho hm =>
      exact h.keep hI ho hm (fun i t ht => h.task_later hI ht) (fun i t ht => h.fills_later ho ht)
        fun a _ hR => .inr (hR.other ho rfl)
  | @call i hi r main ps hps =>
      have ho : Outside x s.mem s.mem := ⟨rfl, le_rfl⟩
      refine h.keep hI ho ⟨hinternal, .inl rfl, .inl rfl⟩ (fun j t hj => ?_) (fun j t hj => ?_)
        fun a _ hR => .inr (hR.other ho ?_)
      · by_cases hji : j = i
        · rw [hji, Function.update_self] at hj
          obtain rfl := Option.some.inj hj
          exact ⟨fun _ => .start r main fun _ => ⟨rfl, hps (by decide)⟩, trivial⟩
        · rw [Function.update_of_ne hji] at hj
          exact h.task_later hI hj
      · by_cases hji : j = i
        · rw [hji, Function.update_self] at hj
          obtain rfl := Option.some.inj hj
          refine ⟨trivial, fun hp => ?_⟩
          cases main <;> simp [Frame.start] at hp
        · rw [Function.update_of_ne hji] at hj
          exact h.fills_later ho hj
      · obtain ⟨t, ht, -⟩ := hR
        refine Function.update_of_ne ?_ ..
        rintro rfl
        rw [hi] at ht
        cases ht
  | @run i t ht =>
      obtain ⟨m', vs, res, hf, hcases⟩ := hI.exec_cases (fun _ => hinternal) i t
      rcases hcases with ⟨ho, he⟩ | ⟨hx, hp, hv, rfl, he⟩
      · rw [he]
        have hsame := hf.quiet.same x
        refine h.keep hI ho ⟨hsame.left ▸ hinternal, .inl hsame.left, .inl hsame.right⟩
          (fun j t' hj => ?_) (fun j t' hj => ?_) fun a ha hR => ?_
        · by_cases hji : j = i
          · rw [hji, Function.update_self] at hj
            exact (h.task_run hI ht hf hj).1
          · rw [Function.update_of_ne hji] at hj
            exact h.task_later hI hj
        · by_cases hji : j = i
          · rw [hji, Function.update_self] at hj
            exact (@EagerInv.task_run _ _ x s s.task s.last i t t' _ _ _ h hI ht hf hj).2
          · rw [Function.update_of_ne hji] at hj
            exact h.fills_later ho hj
        · by_cases hai : a.thread = i
          · subst hai
            exact hR.own h hI ha ht hf ho (Function.update_self ..)
          · exact .inr (hR.other ho (Function.update_of_ne hai ..))
      · rw [he]
        exact h.install hI ht hx hp hv hf

end Inv

/-! ### Covered calls -/

/-- The version of `x` is good enough for a call that has begun at `u`, at the latest once the call
`a` has returned. -/
def Covers (x : ℕ) (s : State K V) (u : ℕ) (a : Install) : Prop :=
  s.last = some a ∧ u ≤ a.time ∧ (s.mem.node x).version.status ≠ 0 ∨
    ∃ b, s.last = some b ∧ u ≤ b.before

section Covers

variable {x u : ℕ} {s₀ s s' : State K V} {a : Install}

/-- **It is, when the call has returned.** -/
theorem Covers.shown (h : Covers x s u a) (hI : Inv x s) (hE : EagerInv x s)
    (hret : ∀ t, s.task a.thread = some t → t.began ≠ a.began) : Shown x s u := by
  rcases h with ⟨ha, hu, h0⟩ | ⟨b, hb, hu⟩
  · rcases (hE.last a ha).done h0 with hs | ⟨t, ht, hbegan, -⟩
    · exact hs.mono hu
    · exact absurd hbegan (hret t ht)
  · have hi := hI.last b hb
    have hl := hE.last b hb
    have h₁ := @Installed.loads _ _ x s b hi b.stamp.leftver (by simp [Stamp.all])
    have h₂ := @Installed.loads _ _ x s b hi b.stamp.rightver (by simp [Stamp.all])
    have h₃ := hi.le
    obtain ⟨adr, k, sum, st, hv⟩ := hi.version
    refine ⟨adr, k, sum, _, _, st, hv, ⟨b.stamp.leftver, by omega, by omega, ?_⟩, b.stamp.rightver,
      by omega, by omega, ?_⟩
    · rw [Mem.ver_of_ne _ (hE.internal _ (by omega)), hl.left]
    · rw [hl.right]

variable [DecidableEq K]

/-- A version that replaces a good one is good. -/
theorem Covers.step (h : Covers x s u a) (hI : Inv x s) (hE : EagerInv x s)
    (hs : Step .eagerDel x (Steady x) s s') : Covers x s' u a := by
  have hkeep : ∀ {m : Mem K V} {task : ℕ → Option (Task K)}, Outside x s.mem m →
      Covers x (s.next m task s.last) u a := fun ho => by
    refine h.imp_left fun ⟨ha, hu, h0⟩ => ⟨ha, hu, ?_⟩
    rw [next_mem, ho.version]
    exact h0
  cases hs with
  | env ho => exact hkeep ho
  | call => exact hkeep ⟨rfl, le_rfl⟩
  | @run i t ht =>
      obtain ⟨m', vs, res, hf, hcases⟩ :=
        hI.exec_cases (fun _ => hE.internal s.time le_rfl) i t
      rcases hcases with ⟨ho, he⟩ | ⟨-, -, -, -, he⟩
      · rw [he]
        exact hkeep ho
      · rw [he]
        refine .inr ⟨_, rfl, ?_⟩
        rcases h with ⟨ha, hu, -⟩ | ⟨b, hb, hu⟩
        · simpa [State.since, ha] using hu
        · have hi := @Installed.loads _ _ x s b (hI.last b hb) b.stamp.old (by simp [Stamp.all])
          have hsince : s.since = b.time := by rw [State.since, hb]; rfl
          simp only [hsince]
          omega

/-- What is known in every state of a run of BAT-EagerDel. -/
theorem run_eager (h0 : Init x s₀) (hl : (s₀.mem.node x).left ≠ 0)
    (h : Run .eagerDel x (Steady x) s₀ s) : Inv x s ∧ EagerInv x s := by
  induction h with
  | refl => exact ⟨h0.inv, h0.eager hl⟩
  | tail _ hs ih =>
      exact ⟨ih.1.step hs fun _ => ih.2.internal _ le_rfl, ih.2.step ih.1 hs⟩

omit [DecidableEq K] in
/-- A call that returns the record of another `propagate` has lost its CAS. -/
theorem lost_of_ret {m m' : Mem K V} {ps c : ℕ} {f : Frame K} {cs : List (Frame K)}
    {vs : List (Ver K)} {ok : Bool} (h : FrameStep .eagerDel m ps f cs m' vs (.ret ok c))
    (hm : f.main = true) (hl : (m.node f.x).left ≠ 0) (hc : c ≠ ps) :
    f.pos = .cas ∧ (m.node f.x).version ≠ f.oldVer ∧ (m.node f.x).version.status = c := by
  have hpop : ∀ {ok' : Bool} {c' : ℕ}, FrameResult.ret ok c = .pop cs ok' c' → c = c' :=
    fun {ok' c'} he => by
      cases cs with
      | nil => exact (FrameResult.ret.inj he).2
      | cons g gs => exact nomatch he
  generalize hres : FrameResult.ret ok c = res at h
  cases h with
  | casFail hp hne => exact ⟨hp, hne, (hpop hres).symm⟩
  | skip hp hvar hm' => rw [hm] at hm'; exact nomatch hm'
  | leafWrite hp h0 | leaf hp h0 => exact absurd h0 hl
  | unchanged => exact absurd (hpop hres) hc
  | casOk hp he hvar => exact absurd ⟨rfl, hm⟩ hvar
  | _ => exact nomatch hres

/-- **A failed eager refresh is covered by the one that it has lost to.**  If a call on `x` returns
the record of another `propagate`, the record is not null, it is that of the call `a` that has
installed the version of `x`, and in every state after that in which `a` has returned, too, the
versions of the children that the version of `x` records were those of its children at moments since
the failed call began. -/
theorem failed_covered (h0 : Init x s₀) (hl : (s₀.mem.node x).left ≠ 0)
    (h : Run .eagerDel x (Steady x) s₀ s) {i : ℕ} {t : Task K} (ht : s.task i = some t)
    (hx : t.f.x = x) (hmain : t.f.main = true) {ok : Bool} {c : ℕ}
    (hret : (stepFrame .eagerDel s.mem t.ps t.f t.callers).2.2 = .ret ok c) (hc : c ≠ t.ps) :
    c ≠ 0 ∧ ∃ a, s.last = some a ∧ a.ps = c ∧
      ∀ s', Run .eagerDel x (Steady x) (s.exec .eagerDel x i t) s' →
        (∀ t', s'.task a.thread = some t' → t'.began ≠ a.began) → Shown x s' t.began := by
  obtain ⟨hI, hE⟩ := run_eager h0 hl h
  have hf := frameStep .eagerDel s.mem t.ps t.f t.callers
  rw [hret] at hf
  obtain ⟨hp, hne, rfl⟩ := lost_of_ret hf hmain (hx ▸ hE.internal _ le_rfl) hc
  rw [hx] at hne ⊢
  have hframe := (hE.frames i t ht).1 hx
  obtain ⟨hb, hle, hov⟩ := ((hI.tasks i t ht).2.1 hx).old (by rw [hp]; decide)
  -- the version was installed after the call had read another one
  have hlt : (t.stamps t.callers.length).old < s.since := by
    by_contra hge
    rw [Nat.not_lt, hI.since_le_iff hle, ← hov] at hge
    exact hne hge.symm
  cases ha : s.last with
  | none =>
      rw [State.since, ha] at hlt
      exact absurd hlt (Nat.not_lt_zero _)
  | some a =>
      have hsince : s.since = a.time := by rw [State.since, ha]; rfl
      -- it is not the first version, so it carries the record of its call
      obtain ⟨hst, hps⟩ := (hE.last a ha).status.resolve_right fun hst =>
        hframe.there hmain (by rw [hp]; decide) (hov.trans (hst.2 _ (hsince ▸ hlt)))
      have hcov : Covers x s t.began a := .inl ⟨ha, by omega, hst ▸ hps⟩
      refine ⟨hst ▸ hps, a, rfl, hst.symm, fun s' hs' hgone => ?_⟩
      have hstep : Step .eagerDel x (Steady x) s (s.exec .eagerDel x i t) := .run ht
      have hrun : Run .eagerDel x (Steady x) s₀ s' := h.trans (.head hstep hs')
      have hcov' : Covers x s' t.began a := by
        clear hgone hrun
        induction hs' with
        | refl => exact hcov.step hI hE hstep
        | tail hr hs ih =>
            obtain ⟨hI', hE'⟩ := run_eager h0 hl (h.trans (.head hstep hr))
            exact ih.step hI' hE' hs
      obtain ⟨hI', hE'⟩ := run_eager h0 hl hrun
      exact hcov'.shown hI' hE' hgone

end Covers

/-- Thread 0 is about to lose its CAS on the version of the root to thread 1. -/
def outrun : State ℕ ℕ :=
  (List.replicate 10 0 ++ List.replicate 11 1).foldl (State.turn .eagerDel root) fresh

theorem outrun_covered : ∃ t, outrun.task 0 = some t ∧ t.ps = 1 ∧ 2 ≠ 0 ∧
    ∃ a, outrun.last = some a ∧ a.ps = 2 ∧
      ∀ s', Run .eagerDel root (Steady root) (outrun.exec .eagerDel root 0 t) s' →
        (∀ t', s'.task a.thread = some t' → t'.began ≠ a.began) → Shown root s' t.began :=
  ⟨_, rfl, rfl, failed_covered (i := 0) (c := 2) fresh_init (by decide) (run_turns fresh _) rfl rfl
    rfl rfl (by decide)⟩

end Cbat.Refresh
