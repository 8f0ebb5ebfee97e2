/-
**What a thread knows at each program counter.**

The local variables of a thread point to nodes that it has read before.  This module says what is
certain of them at each program counter, shows that it stays true while other threads run
(`Cbat.PcOk.later`), and that the steps of the thread itself establish it for its next program
counter.

Main definitions:

* `Cbat.Quiet` — a step that changes versions and status records only;
* `Cbat.FrameOk`, `Cbat.ClimbOk`, `Cbat.CursorOk` — the local variables of `refresh`, `propagate`
  and of the searches;
* `Cbat.PcOk` — **what a thread knows at each program counter**.

Main results:

* `Cbat.PcOk.later` — it stays true;
* `Cbat.PropStep.quiet`, `Cbat.PropStep.ok`, `Cbat.execUpdate_ok` — the steps of the thread.
-/

import Cbat.Frames
import Cbat.Violations

set_option relaxedAutoImplicit false
set_option autoImplicit false

namespace Cbat

variable {K V : Type}

/-! ### Steps that change no node -/

/-- The version is at an address below `n`, if it is not nil. -/
def Ver.Below (n : ℕ) : Ver K → Prop
  | .nil => True
  | .mk a _ _ _ _ _ => a < n

theorem Ver.Below.mono {n n' : ℕ} {v : Ver K} (h : v.Below n) (hn : n ≤ n') : v.Below n' := by
  cases v with
  | nil => trivial
  | mk a key s l r st => exact Nat.lt_of_lt_of_le h hn

/-- **A step that changes versions and status records only**, and versions not to nil. -/
structure Quiet (m m' : Mem K V) : Prop extends SameNodes m m' where
  marked : ∀ x, (m'.node x).marked = (m.node x).marked
  frozen : ∀ x, (m'.node x).frozen = (m.node x).frozen
  version : ∀ x, (m'.node x).version = .nil → (m.node x).version = .nil

theorem Quiet.rfl' {m m' : Mem K V} (hn : m'.node = m.node) (h : m'.next = m.next)
    (hv : m.nextVer ≤ m'.nextVer) : Quiet m m' where
  same := fun x => .rfl' (by rw [hn])
  next := h
  nextVer := hv
  marked := fun x => by rw [hn]
  frozen := fun x => by rw [hn]
  version := fun x => by rw [hn]; exact id

theorem Quiet.refl (m : Mem K V) : Quiet m m := .rfl' rfl rfl le_rfl

theorem Quiet.install (m : Mem K V) (x : ℕ) {v : Ver K} (hv : v ≠ .nil) :
    Quiet m (m.install x v) := by
  refine ⟨⟨fun y => ?_, rfl, Nat.le_succ _⟩, fun y => ?_, fun y => ?_, fun y => ?_⟩
  · constructor <;> rw [install_node] <;> split_ifs with h <;> simp [h]
  · rw [install_node]; split_ifs with h <;> simp [h]
  · rw [install_node]; split_ifs with h <;> simp [h]
  · rw [install_node]
    split_ifs with h
    · exact fun hv' => absurd hv' hv
    · exact id

variable [LinearOrder K] {cfg : Cfg K V} {m m' : Mem K V}

theorem Quiet.later (h : Quiet m m') : Later cfg m m' :=
  .of_same h.toSameNodes (fun x _ hm => by rw [h.marked, hm]) fun x _ => h.version x

theorem Quiet.base {t : LTree (Cell K V)} (h : Quiet m m') (hB : Base cfg m t) :
    Base cfg m' t where
  tree := h.treeInv hB.tree
  closed := h.closed hB.closed
  marked := fun x hx h0 hl hlive => by
    rw [h.marked]
    rw [(h.same x).left] at hl
    exact hB.marked x (h.next ▸ hx) h0 hl fun hx => hlive (h.live_iff.mpr hx)
  keyed := fun x hx hr hl => by
    rw [(h.same x).left] at hl
    simp only [(h.same x).left, (h.same x).right, (h.same x).key, (h.same _).key]
    exact hB.keyed x (h.next ▸ hx) hr hl
  acyclic := fun x hx => by
    rw [h.edge_eq]
    exact hB.acyclic x (h.next ▸ hx)

/-! ### Local variables -/

/-- A node that was in the tree and from which the search for `k` may go on. -/
structure Ptr (cfg : Cfg K V) (m : Mem K V) (k : K) (x : ℕ) : Prop where
  lt : x < m.next
  ne_zero : x ≠ 0
  good : Good cfg m k x

/-- Such a node that is internal. -/
structure Inner (cfg : Cfg K V) (m : Mem K V) (k : K) (x : ℕ) : Prop extends Ptr cfg m k x where
  internal : (m.node x).left ≠ 0

/-- The left child of the root. -/
structure TopOk (cfg : Cfg K V) (m : Mem K V) (k : K) (l : ℕ) : Prop extends Ptr cfg m k l where
  ne_root : l ≠ root
  key : (m.node l).key = cfg.noKey
  weight : (m.node l).left ≠ 0 → (m.node l).weight = 1

/-- The nodes above the last one of a search. -/
structure AboveOk (cfg : Cfg K V) (m : Mem K V) (k : K) (md : Mode) (cur : Cursor) : Prop where
  ggp : Inner cfg m k cur.ggp
  gp : Inner cfg m k cur.gp
  p : Inner cfg m k cur.p
  above : md = .rebalance → (m.node cur.p).weight ≠ 0 ∨ (m.node cur.gp).weight ≠ 0

/-- The nodes of a search at the test of its loop. -/
structure CursorOk (cfg : Cfg K V) (m : Mem K V) (k : K) (md : Mode) (cur : Cursor) : Prop extends
    AboveOk cfg m k md cur where
  l : Ptr cfg m k cur.l
  l_real : (m.node cur.l).key ≠ cfg.noKey

/-- The nodes of a search at its end. -/
structure EndOk (cfg : Cfg K V) (m : Mem K V) (k : K) (md : Mode) (cur : Cursor) : Prop extends
    AboveOk cfg m k md cur where
  l : Ptr cfg m k cur.l
  leaf : md = .update → (m.node cur.l).left = 0
  violation : md = .rebalance → (m.node cur.l).left = 0 ∨ 1 < (m.node cur.l).weight ∨
    ((m.node cur.l).weight = 0 ∧ (m.node cur.p).weight = 0)

/-- Nodes that a search for `k` has met one after the other, the last one first, and the root as
the first of all. -/
structure Trail (cfg : Cfg K V) (m : Mem K V) (k : K) (xs : List ℕ) : Prop where
  lt : ∀ x ∈ xs, x < m.next
  ne_zero : ∀ x ∈ xs, x ≠ 0
  last : xs.getLast? = some root
  below : xs.Pairwise fun x y => Leads cfg m k y x ∧ ¬ Route cfg m k x y

/-- The stack of `propagate`. -/
structure StackOk (cfg : Cfg K V) (m : Mem K V) (k : K) (xs : List ℕ) : Prop extends
    Trail cfg m k xs where
  internal : ∀ x ∈ xs, (m.node x).left ≠ 0

/-- The local variables of a call. -/
structure CallOk (cfg : Cfg K V) (m : Mem K V) (c : Call K V) : Prop where
  key : c.key ≠ cfg.noKey
  stack : StackOk cfg m c.key c.stack

/-- The local variables of `propagate`: the nodes of the stack are above those of the set. -/
structure ClimbOk (cfg : Cfg K V) (m : Mem K V) (cl : Climb K V) (xs : List ℕ) : Prop where
  key : cl.call.key ≠ cfg.noKey
  stack : StackOk cfg m cl.call.key xs
  set_lt : ∀ c ∈ cl.set, c < m.next
  notMem : ∀ x ∈ xs, x ∉ cl.set
  above : ∀ x ∈ xs, ∀ c ∈ cl.set, Live m c → Route cfg m cl.call.key x c

/-- The node that `propagate` has read as the child of the top of its stack. -/
structure NextOk (cfg : Cfg K V) (m : Mem K V) (cl : Climb K V) (c : ℕ) : Prop where
  ne_zero : c ≠ 0
  trail : Trail cfg m cl.call.key (c :: cl.stack)
  above : ∀ c' ∈ cl.set, Live m c' → Route cfg m cl.call.key c c'

omit [LinearOrder K] in
/-- The local variables of a refresh. -/
structure FrameOk (m : Mem K V) (f : Frame K) : Prop where
  x : f.x < m.next
  left1 : f.left1 < m.next
  right1 : f.right1 < m.next
  oldVer : f.oldVer.Below m.nextVer

/-- **What a thread knows at each program counter.** -/
def PcOk (cfg : Cfg K V) (m : Mem K V) : PC K V → Prop
  | .searchRoot c md => c.key ≠ cfg.noKey ∧ (md = .rebalance → StackOk cfg m c.key c.stack)
  | .searchTop c md l => CallOk cfg m c ∧ TopOk cfg m c.key l ∧
      (md = .update → Trail cfg m c.key (l :: c.stack))
  | .searchFirst c md p => CallOk cfg m c ∧ TopOk cfg m c.key p ∧ (m.node p).left ≠ 0 ∧
      (md = .update → Trail cfg m c.key (p :: c.stack))
  | .searchLoop c md cur => CallOk cfg m c ∧ CursorOk cfg m c.key md cur ∧
      (md = .update → Trail cfg m c.key (cur.l :: cur.p :: c.stack))
  | .searchNext c md cur => CallOk cfg m c ∧ AboveOk cfg m c.key md cur ∧
      (m.node cur.p).key ≠ cfg.noKey ∧ (md = .update → Trail cfg m c.key (cur.p :: c.stack))
  | .attempt c md cur => CallOk cfg m c ∧ EndOk cfg m c.key md cur
  | .swing c _ _ | .propStart c => CallOk cfg m c
  | .propChild cl => ClimbOk cfg m cl cl.stack
  | .propTest cl c => ClimbOk cfg m cl cl.stack ∧ NextOk cfg m cl c
  | .refresh cl r _ f callers => ClimbOk cfg m cl (r :: cl.stack) ∧ ∀ g ∈ f :: callers, FrameOk m g
  | .propMark cl r _ => ClimbOk cfg m cl (r :: cl.stack)
  | .waitDone cl _ | .waitPtr cl _ | .setDone cl | .retire cl _ => cl.call.key ≠ cfg.noKey
  | .idle | .ret _ | .findRoot _ | .findTop _ _ | .findLoop _ _ | .findNext _ _ | .findRet _ _
  | .containsRoot _ | .containsRet _ => True
  | .crash => True

/-! ### The knowledge stays -/

section Later

variable {k : K} {x : ℕ} {md : Mode} {cur : Cursor}

theorem Ptr.later (h : Ptr cfg m k x) (hl : Later cfg m m') : Ptr cfg m' k x :=
  ⟨h.lt.trans_le hl.next, h.ne_zero, hl.good k x h.lt h.good⟩

theorem Inner.later (h : Inner cfg m k x) (hl : Later cfg m m') : Inner cfg m' k x :=
  ⟨h.toPtr.later hl, fun h0 => h.internal ((hl.leaf x h.lt).mp h0)⟩

theorem TopOk.later (h : TopOk cfg m k x) (hl : Later cfg m m') : TopOk cfg m' k x :=
  ⟨h.toPtr.later hl, h.ne_root, (hl.key x h.lt).trans h.key, fun h0 =>
    (hl.weight x h.lt).trans (h.weight fun h0' => h0 ((hl.leaf x h.lt).mpr h0'))⟩

theorem AboveOk.later (h : AboveOk cfg m k md cur) (hl : Later cfg m m') :
    AboveOk cfg m' k md cur := by
  refine ⟨h.ggp.later hl, h.gp.later hl, h.p.later hl, fun hm => ?_⟩
  rw [hl.weight _ h.p.lt, hl.weight _ h.gp.lt]
  exact h.above hm

theorem CursorOk.later (h : CursorOk cfg m k md cur) (hl : Later cfg m m') :
    CursorOk cfg m' k md cur :=
  ⟨h.toAboveOk.later hl, h.l.later hl, (hl.key _ h.l.lt).trans_ne h.l_real⟩

theorem EndOk.later (h : EndOk cfg m k md cur) (hl : Later cfg m m') : EndOk cfg m' k md cur := by
  refine ⟨h.toAboveOk.later hl, h.l.later hl, fun hm => (hl.leaf _ h.l.lt).mpr (h.leaf hm),
    fun hm => ?_⟩
  rw [hl.weight _ h.l.lt, hl.weight _ h.p.lt, hl.leaf _ h.l.lt]
  exact h.violation hm

theorem Trail.good {xs : List ℕ} (h : Trail cfg m k xs) (hx : x ∈ xs) : Good cfg m k x := by
  obtain ⟨ys, rfl⟩ := List.getLast?_eq_some_iff.mp h.last
  rcases List.mem_append.mp hx with hx | hx
  · exact ((List.pairwise_append.mp h.below).2.2 x hx root (by simp)).1
  · obtain rfl : x = root := by simpa using hx
    exact onPath_root.good

theorem Trail.later {xs : List ℕ} (h : Trail cfg m k xs) (hl : Later cfg m m') :
    Trail cfg m' k xs where
  lt := fun x hx => (h.lt x hx).trans_le hl.next
  ne_zero := h.ne_zero
  last := h.last
  below := by
    refine h.below.imp_of_mem fun {x y} hx hy hxy => ?_
    exact ⟨hl.leads k y x (h.lt y hy) (h.lt x hx) (h.good hy) hxy.1, fun hr =>
      hxy.2 (hl.route_back k x y (h.lt x hx) (h.lt y hy) (h.good hx) (h.good hy) hr)⟩

theorem StackOk.later {xs : List ℕ} (h : StackOk cfg m k xs) (hl : Later cfg m m') :
    StackOk cfg m' k xs :=
  ⟨h.toTrail.later hl, fun x hx h0 => h.internal x hx ((hl.leaf x (h.lt x hx)).mp h0)⟩

theorem CallOk.later {c : Call K V} (h : CallOk cfg m c) (hl : Later cfg m m') : CallOk cfg m' c :=
  ⟨h.key, h.stack.later hl⟩

theorem ClimbOk.later {cl : Climb K V} {xs : List ℕ} (h : ClimbOk cfg m cl xs)
    (hl : Later cfg m m') : ClimbOk cfg m' cl xs where
  key := h.key
  stack := h.stack.later hl
  set_lt := fun c hc => (h.set_lt c hc).trans_le hl.next
  notMem := h.notMem
  above := fun x hx c hc hlive => hl.route _ x c (h.stack.lt x hx) (h.stack.good hx)
    (h.above x hx c hc (hl.live c (h.set_lt c hc) hlive)) hlive

theorem NextOk.later {cl : Climb K V} {c : ℕ} (h : NextOk cfg m cl c)
    (hcl : ClimbOk cfg m cl cl.stack) (hl : Later cfg m m') : NextOk cfg m' cl c where
  ne_zero := h.ne_zero
  trail := h.trail.later hl
  above := fun c' hc' hlive => hl.route _ c c' (h.trail.lt c (by simp)) (h.trail.good (by simp))
    (h.above c' hc' (hl.live c' (hcl.set_lt c' hc') hlive)) hlive

omit [LinearOrder K] in
theorem FrameOk.mono {f : Frame K} (h : FrameOk m f) (hn : m.next ≤ m'.next)
    (hv : m.nextVer ≤ m'.nextVer) : FrameOk m' f :=
  ⟨h.x.trans_le hn, h.left1.trans_le hn, h.right1.trans_le hn, h.oldVer.mono hv⟩

/-- **What a thread knows stays true while other threads run.** -/
theorem PcOk.later {pc : PC K V} (h : PcOk cfg m pc) (hl : Later cfg m m') : PcOk cfg m' pc := by
  cases pc with
  | searchRoot c md => exact ⟨h.1, fun hmd => (h.2 hmd).later hl⟩
  | propStart c => exact CallOk.later h hl
  | searchTop c md l => exact ⟨h.1.later hl, h.2.1.later hl, fun hmd => (h.2.2 hmd).later hl⟩
  | searchFirst c md p =>
      exact ⟨h.1.later hl, h.2.1.later hl, fun h0 => h.2.2.1 ((hl.leaf p h.2.1.lt).mp h0),
        fun hmd => (h.2.2.2 hmd).later hl⟩
  | searchLoop c md cur => exact ⟨h.1.later hl, h.2.1.later hl, fun hmd => (h.2.2 hmd).later hl⟩
  | searchNext c md cur =>
      exact ⟨h.1.later hl, h.2.1.later hl, (hl.key _ h.2.1.p.lt).trans_ne h.2.2.1,
        fun hmd => (h.2.2.2 hmd).later hl⟩
  | attempt c md cur => exact ⟨h.1.later hl, h.2.later hl⟩
  | swing c md rec => exact CallOk.later h hl
  | propChild cl => exact ClimbOk.later h hl
  | propTest cl c => exact ⟨h.1.later hl, h.2.later h.1 hl⟩
  | refresh cl r again f callers =>
      exact ⟨h.1.later hl, fun g hg => (h.2 g hg).mono hl.next hl.nextVer⟩
  | propMark cl r curps => exact ClimbOk.later h hl
  | waitDone | waitPtr | setDone | retire => exact h
  | idle | ret | findRoot | findTop | findLoop | findNext | findRet | containsRoot | containsRet
  | crash => trivial

end Later

/-! ### The steps of a refresh -/

omit [LinearOrder K] in
/-- The versions in memory are at allocated addresses. -/
def AddrOk (m : Mem K V) : Prop := ∀ x < m.next, (m.node x).version.Below m.nextVer

section Refresh

variable {var : Variant} {ps : ℕ} {f : Frame K} {cs : List (Frame K)} {vs : List (Ver K)}
  {res : FrameResult K}

omit [LinearOrder K] in
theorem FrameStep.quiet (h : FrameStep var m ps f cs m' vs res) : Quiet m m' := by
  cases h with
  | leafWrite => exact .install m f.x nofun
  | casOk => exact .install m f.x nofun
  | casAgain => exact .install m f.x nofun
  | _ => exact .refl m

omit [LinearOrder K] in
theorem AddrOk.install (ha : AddrOk m) (x : ℕ) {v : Ver K} (hv : v.Below (m.nextVer + 1)) :
    AddrOk (m.install x v) := by
  intro y hy
  by_cases hyx : y = x
  · rw [hyx, install_version_self]; exact hv
  · rw [install_version_of_ne m x v hyx]
    exact (ha y hy).mono (Nat.le_succ _)

omit [LinearOrder K] in
theorem FrameStep.addrOk (h : FrameStep var m ps f cs m' vs res) (ha : AddrOk m) : AddrOk m' := by
  cases h with
  | leafWrite => exact ha.install f.x (Nat.lt_succ_self _)
  | casOk => exact ha.install f.x (Nat.lt_succ_self _)
  | casAgain => exact ha.install f.x (Nat.lt_succ_self _)
  | _ => exact ha

omit [LinearOrder K] in
theorem FrameOk.start (var : Variant) {x : ℕ} (main : Bool) (hx : x < m.next) :
    FrameOk m (.start var x main) :=
  ⟨hx, Nat.zero_lt_of_lt hx, Nat.zero_lt_of_lt hx, trivial⟩

omit [LinearOrder K] in
/-- The callers go on when the active call returns. -/
theorem pop_run {ok : Bool} {curps : ℕ} {f' : Frame K} {cs' : List (Frame K)}
    (h : FrameResult.pop cs ok curps = .run f' cs') : cs = f' :: cs' := by
  cases cs with
  | nil => exact nomatch h
  | cons g gs =>
      obtain ⟨rfl, rfl⟩ := FrameResult.run.inj h
      rfl

omit [LinearOrder K] in
theorem FrameStep.frames (h : FrameStep var m ps f cs m' vs res) (hc : Closed m) (ha : AddrOk m)
    (hf : ∀ g ∈ f :: cs, FrameOk m g) {f' : Frame K} {cs' : List (Frame K)}
    (hres : res = .run f' cs') : ∀ g ∈ f' :: cs', FrameOk m' g := by
  have hmono : ∀ g ∈ cs, FrameOk m' g := fun g hg =>
    (hf g (List.mem_cons_of_mem _ hg)).mono h.quiet.next.ge h.quiet.nextVer
  have hf0 : FrameOk m f := hf f (by simp)
  have hpop : ∀ {ok : Bool} {curps : ℕ}, FrameResult.pop cs ok curps = .run f' cs' →
      ∀ g ∈ f' :: cs', FrameOk m' g := fun he g hg => hmono g (pop_run he ▸ hg)
  have hrun : ∀ {f₁ : Frame K}, FrameResult.run f₁ cs = .run f' cs' → FrameOk m' f₁ →
      ∀ g ∈ f' :: cs', FrameOk m' g := fun he h₁ => by
    obtain ⟨rfl, rfl⟩ := FrameResult.run.inj he
    exact List.forall_mem_cons.mpr ⟨h₁, hmono⟩
  have hcall : ∀ {f₁ f₂ : Frame K}, FrameResult.run f₁ (f₂ :: cs) = .run f' cs' →
      FrameOk m' f₁ → FrameOk m' f₂ → ∀ g ∈ f' :: cs', FrameOk m' g :=
    fun he h₁ h₂ => by
      obtain ⟨rfl, rfl⟩ := FrameResult.run.inj he
      exact List.forall_mem_cons.mpr ⟨h₁, List.forall_mem_cons.mpr ⟨h₂, hmono⟩⟩
  cases h with
  | callOld => exact hcall hres (.start var false hf0.x) ⟨hf0.x, hf0.left1, hf0.right1, hf0.oldVer⟩
  | oldThere => exact hrun hres ⟨hf0.x, hf0.left1, hf0.right1, hf0.oldVer⟩
  | old => exact hrun hres ⟨hf0.x, hf0.left1, hf0.right1, ha _ hf0.x⟩
  | skip => exact hpop hres
  | leafWrite => exact hpop hres
  | leaf => exact hpop hres
  | inner => exact hrun hres ⟨hf0.x, hf0.left1, hf0.right1, hf0.oldVer⟩
  | left => exact hrun hres ⟨hf0.x, hc.left_lt _ hf0.x, hf0.right1, hf0.oldVer⟩
  | callLeft =>
      exact hcall hres (.start var false hf0.left1) ⟨hf0.x, hf0.left1, hf0.right1, hf0.oldVer⟩
  | leftThere => exact hrun hres ⟨hf0.x, hf0.left1, hf0.right1, hf0.oldVer⟩
  | leftVer => exact hrun hres ⟨hf0.x, hf0.left1, hf0.right1, hf0.oldVer⟩
  | leftSame => exact hrun hres ⟨hf0.x, hf0.left1, hf0.right1, hf0.oldVer⟩
  | leftMoved => exact hrun hres ⟨hf0.x, hf0.left1, hf0.right1, hf0.oldVer⟩
  | noRight => exact hrun hres ⟨hf0.x, hf0.left1, Nat.zero_lt_of_lt hf0.x, hf0.oldVer⟩
  | right => exact hrun hres ⟨hf0.x, hf0.left1, hc.right_lt _ hf0.x, hf0.oldVer⟩
  | callRight =>
      exact hcall hres (.start var false hf0.right1) ⟨hf0.x, hf0.left1, hf0.right1, hf0.oldVer⟩
  | rightThere => exact hrun hres ⟨hf0.x, hf0.left1, hf0.right1, hf0.oldVer⟩
  | rightVer => exact hrun hres ⟨hf0.x, hf0.left1, hf0.right1, hf0.oldVer⟩
  | unchanged => exact hpop hres
  | rightSame => exact hrun hres ⟨hf0.x, hf0.left1, hf0.right1, hf0.oldVer⟩
  | rightMoved => exact hrun hres ⟨hf0.x, hf0.left1, hf0.right1, hf0.oldVer⟩
  | casOk => exact hpop hres
  | casAgain => exact hrun hres ⟨hf0.x, hf0.left1, hf0.right1, Nat.lt_succ_self _⟩
  | casFail => exact hpop hres

end Refresh

/-! ### The steps of `propagate` -/

section Propagate

variable {pc pc' : PC K V} {t : LTree (Cell K V)}

theorem PropStep.quiet (h : PropStep cfg m pc m' pc') : Quiet m m' := by
  cases h with
  | run h | returned h => exact h.quiet
  | start | delegate | setDone => exact .rfl' rfl rfl le_rfl
  | _ => exact .refl m

/-- The search for a key goes from an internal node to a node that is there. -/
theorem Inner.child (hB : Base cfg m t) {k : K} {x : ℕ} (h : Inner cfg m k x) :
    Ptr cfg m k (child cfg m k x) := by
  have h0 : Cbat.child cfg m k x ≠ 0 := by
    by_cases hr : x = root
    · subst hr
      rw [(hB.tree.kedge_root.mpr rfl).2.1]
      exact label_id_ne_zero hB.tree.zero_notMem
    · unfold Cbat.child
      split_ifs
      · exact h.internal
      · exact hB.closed.full x h.lt hr h.internal
  have he : KEdge cfg m k x (Cbat.child cfg m k x) := ⟨h.internal, rfl, h0⟩
  exact ⟨hB.closed.kedge_lt h.lt he, h0, h.good.step he⟩

theorem Route.reach {k : K} {x y : ℕ} (h : Route cfg m k x y) :
    Relation.ReflTransGen (Edge m) x y :=
  Relation.ReflTransGen.mono (r := KEdge cfg m k) (fun _ _ hxy => hxy.edge) _ _ h

/-- The search for a key adds the child on its path. -/
theorem Trail.cons {k : K} {x : ℕ} {xs : List ℕ} (h : Trail cfg m k (x :: xs)) (hB : Base cfg m t)
    {y : ℕ} (hxy : KEdge cfg m k x y) : Trail cfg m k (y :: x :: xs) where
  lt := List.forall_mem_cons.mpr ⟨hB.closed.kedge_lt (h.lt x (by simp)) hxy, h.lt⟩
  ne_zero := List.forall_mem_cons.mpr ⟨hxy.2.2, h.ne_zero⟩
  last := by
    rw [List.getLast?_cons_cons]
    exact h.last
  below := by
    refine List.pairwise_cons.mpr ⟨fun z hz => ?_, h.below⟩
    rcases List.mem_cons.mp hz with rfl | hz
    · exact ⟨fun w hw _ => .head hxy hw, fun hr =>
        (hB.acyclic z (h.lt z (by simp)) y hxy.edge).2 hr.reach⟩
    · have := (List.pairwise_cons.mp h.below).1 z hz
      exact ⟨this.1.step hxy, fun hr => this.2 (.head hxy hr)⟩

theorem Trail.ne_nil {k : K} {xs : List ℕ} (h : Trail cfg m k xs) : xs ≠ [] := by
  rintro rfl
  exact nomatch h.last

theorem Trail.tail {k : K} {x : ℕ} {xs : List ℕ} (h : Trail cfg m k (x :: xs)) (hxs : xs ≠ []) :
    Trail cfg m k xs where
  lt := fun y hy => h.lt y (by simp [hy])
  ne_zero := fun y hy => h.ne_zero y (by simp [hy])
  last := by
    cases xs with
    | nil => exact absurd rfl hxs
    | cons y ys =>
        have := h.last
        rwa [List.getLast?_cons_cons] at this
  below := (List.pairwise_cons.mp h.below).2

theorem StackOk.inner {k : K} {x : ℕ} {xs : List ℕ} (h : StackOk cfg m k xs) (hx : x ∈ xs) :
    Inner cfg m k x :=
  ⟨⟨h.lt x hx, h.ne_zero x hx, h.good hx⟩, h.internal x hx⟩

theorem StackOk.tail {k : K} {x : ℕ} {xs : List ℕ} (h : StackOk cfg m k (x :: xs))
    (hx : x ≠ root) : StackOk cfg m k xs := by
  refine ⟨h.toTrail.tail ?_, fun y hy => h.internal y (by simp [hy])⟩
  rintro rfl
  exact hx (by simpa using h.last)

theorem inserted_ok {cl : Climb K V} {r : ℕ} (h : ClimbOk cfg m cl (r :: cl.stack)) :
    PcOk cfg m (inserted cfg cl r) := by
  unfold inserted
  simp only
  split_ifs with hr hv
  · exact h.key
  · exact h.key
  · have hne : r ≠ root := fun he => hr (by simp [he])
    refine ⟨h.key, h.stack.tail hne, List.forall_mem_cons.mpr ⟨h.stack.lt r (by simp), h.set_lt⟩,
      fun x hx => ?_, fun x hx c hc hl => ?_⟩
    · have hxr := (List.pairwise_cons.mp h.stack.below).1 x hx
      exact List.not_mem_cons_of_ne_of_not_mem (fun he => hxr.2 (he ▸ .refl))
        (h.notMem x (by simp [hx]))
    · rcases List.mem_cons.mp hc with rfl | hc
      · exact ((List.pairwise_cons.mp h.stack.below).1 x hx).1 c .refl hl
      · exact h.above x (by simp [hx]) c hc hl

theorem refreshed_ok {cl : Climb K V} {r : ℕ} {again ok : Bool} {curps : ℕ}
    (h : ClimbOk cfg m cl (r :: cl.stack)) : PcOk cfg m (refreshed cfg cl r again ok curps) := by
  have hs : ∀ var, PcOk cfg m (.refresh cl r true (.start var r true) []) := fun var =>
    ⟨h, by simpa using FrameOk.start var true (h.stack.lt r (by simp))⟩
  unfold refreshed
  cases cfg.variant with
  | bat =>
      simp only
      split_ifs
      · exact inserted_ok h
      · exact hs .bat
  | eagerDel =>
      simp only
      split_ifs
      · exact inserted_ok h
      · exact h
  | del =>
      simp only
      split_ifs
      · exact inserted_ok h
      · exact h
      · exact hs .del

/-- **The steps of `propagate` keep what the thread knows.** -/
theorem PropStep.ok (h : PropStep cfg m pc m' pc') (hB : Base cfg m t) (ha : AddrOk m)
    (hpc : PcOk cfg m pc) : PcOk cfg m' pc' := by
  have hq := h.quiet
  -- the versions to retire are no part of what is known
  have hcl : ∀ {cl : Climb K V} {xs : List ℕ} (vs : List (Ver K)), ClimbOk cfg m cl xs →
      ClimbOk cfg m' { cl with toRetire := vs } xs := fun vs h => by
    have := h.later hq.later
    exact ⟨this.key, this.stack, this.set_lt, this.notMem, this.above⟩
  cases h with
  | startBat c hv => exact ⟨CallOk.key hpc, CallOk.stack hpc, by simp, by simp, by simp⟩
  | start c hv =>
      exact ⟨CallOk.key hpc, (CallOk.stack hpc).later hq.later, by simp, by simp, by simp⟩
  | emptyChild | emptyPop => trivial
  | @child cl x st hst =>
      have hcl : ClimbOk cfg m cl cl.stack := hpc
      have hx : x ∈ cl.stack := by simp [hst]
      have hin := hcl.stack.inner hx
      have hch := hin.child hB
      have hke : KEdge cfg m cl.call.key x (Cbat.child cfg m cl.call.key x) :=
        ⟨hin.internal, rfl, hch.ne_zero⟩
      have htr := hcl.stack.toTrail
      refine ⟨hcl, hch.ne_zero, ?_, fun c hc hl => ?_⟩
      · rw [hst] at htr ⊢
        exact htr.cons hB hke
      · -- a live node of the set is below the top of the stack, hence below its child
        rcases route_cases.mp (hcl.above x hx c hc hl) with rfl | ⟨y, hy, hyc⟩
        · exact absurd hc (hcl.notMem x hx)
        · rwa [hke.unique hy]
  | push h0 hl hc =>
      obtain ⟨hcl, hn⟩ := hpc
      exact ⟨hcl.key, ⟨hn.trail, List.forall_mem_cons.mpr ⟨hl, hcl.stack.internal⟩⟩, hcl.set_lt,
        List.forall_mem_cons.mpr ⟨hc, hcl.notMem⟩, List.forall_mem_cons.mpr ⟨hn.above, hcl.above⟩⟩
  | @pop cl c r st hst hc =>
      have h := hpc.1
      rw [hst] at h
      refine ⟨⟨h.key, h.stack, h.set_lt, h.notMem, h.above⟩, ?_⟩
      simpa using FrameOk.start cfg.variant true (h.stack.lt r (by simp))
  | run h => exact ⟨hcl _ hpc.1, h.frames hB.closed ha hpc.2 rfl⟩
  | returned h => exact refreshed_ok (hcl _ hpc.1)
  | marked h => exact inserted_ok hpc
  | delegate h => split_ifs <;> exact ClimbOk.key hpc
  | setDone | seen | wait | follow | retire => exact hpc
  | ret => trivial

theorem PropStep.addrOk (h : PropStep cfg m pc m' pc') (ha : AddrOk m) : AddrOk m' := by
  cases h with
  | run h | returned h => exact h.addrOk ha
  | _ => exact ha

end Propagate

/-! ### The steps of the updates -/

section Update

variable {pc : PC K V} {t : LTree (Cell K V)} {c c' : Call K V} {md : Mode} {cur : Cursor}
  {rec : ScxRecord K V}

omit [LinearOrder K] in
/-- What an SCX of the call does to the binding of its key. -/
def Call.effect (c : Call K V) : Mode → Effect V
  | .rebalance => .keep
  | .update =>
      match c.kind with
      | .erase => .drop
      | _ => .put c.val

omit [LinearOrder K] in
/-- The calls agree up to their outputs. -/
structure Call.Same (c c' : Call K V) : Prop where
  kind : c'.kind = c.kind
  key : c'.key = c.key
  val : c'.val = c.val
  stack : c'.stack = c.stack

omit [LinearOrder K] in
theorem Call.Same.refl (c : Call K V) : c.Same c := ⟨rfl, rfl, rfl, rfl⟩

omit [LinearOrder K] in
theorem Call.Same.effect (h : c.Same c') (md : Mode) : c'.effect md = c.effect md := by
  cases md with
  | rebalance => rfl
  | update => simp only [Call.effect, h.kind, h.val]

theorem outputs_same (cfg : Cfg K V) (m : Mem K V) (c : Call K V) (cur : Cursor) :
    c.Same (outputs cfg m c cur) := by
  unfold outputs
  cases hk : c.kind with
  | erase => exact ⟨hk.symm, rfl, rfl, rfl⟩
  | insert => simp only; split_ifs <;> exact ⟨hk.symm, rfl, rfl, rfl⟩
  | insertIfAbsent => simp only; split_ifs <;> exact ⟨hk.symm, rfl, rfl, rfl⟩

/-- An attempt changes the outputs of the call only. -/
theorem attempt_same (cfg : Cfg K V) (m : Mem K V) (c : Call K V) (md : Mode) (cur : Cursor) :
    c.Same (attempt cfg m c md cur).1 := by
  have ho := outputs_same cfg m c cur
  unfold attempt
  cases md with
  | rebalance => exact .refl c
  | update =>
      cases hk : c.kind with
      | erase =>
          simp only
          split_ifs
          · exact ⟨hk.symm, rfl, rfl, rfl⟩
          · cases eraseParents m cur with
            | error e => exact .refl c
            | ok u =>
                cases eraseScx cfg m cur with
                | error e => exact ⟨hk.symm, rfl, rfl, rfl⟩
                | ok rec => exact ho
      | insert =>
          simp only
          cases insertScx cfg m c cur with
          | error e => exact .refl c
          | ok rec => exact ho
      | insertIfAbsent =>
          simp only
          split_ifs
          · exact ⟨hk.symm, rfl, rfl, rfl⟩
          · cases insertScx cfg m c cur with
            | error e => exact .refl c
            | ok rec => exact ho

theorem abortCalls_same (h : c' ∈ abortCalls cfg m c md cur) : c.Same c' := by
  have ho := outputs_same cfg m c cur
  unfold abortCalls at h
  cases md with
  | rebalance =>
      obtain rfl : c' = c := by simpa using h
      exact .refl _
  | update =>
      cases hk : c.kind <;> simp only [hk] at h <;> (try split_ifs at h) <;>
        simp only [List.mem_cons, List.not_mem_nil, or_false] at h
      · rcases h with rfl | rfl
        · exact .refl _
        · exact ho
      · rcases h with rfl | rfl
        · exact .refl _
        · exact ho
      · rcases h with rfl | rfl | rfl
        · exact .refl _
        · exact ⟨hk.symm, rfl, rfl, rfl⟩
        · exact ho

theorem EndOk.insertCursor (h : EndOk cfg m c.key .update cur) :
    InsertCursor cfg m c.key cur.p cur.l :=
  ⟨h.p.lt, h.p.internal, h.p.good, h.leaf rfl, h.l.ne_zero, h.l.good⟩

theorem EndOk.eraseCursor (h : EndOk cfg m c.key .update cur) :
    EraseCursor cfg m c.key cur.gp cur.p cur.l :=
  ⟨h.gp.lt, h.gp.internal, h.gp.good, h.p.internal, h.p.good, h.leaf rfl, h.l.ne_zero, h.l.good⟩

/-- **An attempt that comes to its SCX may commit it.** -/
theorem attempt_ready (hB : Base cfg m t) (hk : c.key ≠ cfg.noKey)
    (hE : EndOk cfg m c.key md cur) (h : attempt cfg m c md cur = (c', .ok rec)) :
    Ready cfg m rec c.key (c.effect md) := by
  unfold attempt at h
  cases md with
  | rebalance =>
      exact rebalanceScx_ready hB ⟨hE.ggp.lt, hE.ggp.internal, hE.violation rfl, hE.above rfl⟩
        (Prod.mk.inj h).2
  | update =>
      simp only [Call.effect]
      cases hkind : c.kind with
      | erase =>
          simp only [hkind] at h ⊢
          split_ifs at h with hkl
          · exact nomatch (Prod.mk.inj h).2
          · cases hp : eraseParents m cur with
            | error e => simp [hp] at h
            | ok u =>
                cases hs : eraseScx cfg m cur with
                | error e => simp [hp, hs] at h
                | ok rec' =>
                    simp only [hp, hs, Prod.mk.injEq, Except.ok.injEq] at h
                    exact eraseScx_ready hB hk hE.eraseCursor (not_not.mp hkl) hp (h.2 ▸ hs)
      | insert =>
          simp only [hkind] at h ⊢
          cases hs : insertScx cfg m c cur with
          | error e => simp [hs] at h
          | ok rec' =>
              simp only [hs, Prod.mk.injEq, Except.ok.injEq] at h
              exact insertScx_ready hB hk hE.insertCursor (h.2 ▸ hs)
      | insertIfAbsent =>
          simp only [hkind] at h ⊢
          split_ifs at h with hkl
          · exact nomatch (Prod.mk.inj h).2
          · cases hs : insertScx cfg m c cur with
            | error e => simp [hs] at h
            | ok rec' =>
                simp only [hs, Prod.mk.injEq, Except.ok.injEq] at h
                exact insertScx_ready hB hk hE.insertCursor (h.2 ▸ hs)

theorem finished_ok (h : CallOk cfg m c) (md : Mode) : PcOk cfg m (finished c md) := by
  cases md with
  | rebalance => exact h
  | update =>
      unfold finished
      split_ifs
      · exact ⟨h.key, fun _ => h.stack⟩
      · exact h

theorem CallOk.of_same (h : CallOk cfg m c) (hs : c.Same c') : CallOk cfg m c' :=
  ⟨hs.key ▸ h.key, hs.key ▸ hs.stack ▸ h.stack⟩

theorem inner_root (hB : Base cfg m t) (k : K) : Inner cfg m k root :=
  ⟨⟨hB.tree.root_lt, by decide, onPath_root.good⟩,
    hB.tree.root_left ▸ label_id_ne_zero hB.tree.zero_notMem⟩

/-- The left child of the root. -/
theorem topOk_left (hB : Base cfg m t) (k : K) : TopOk cfg m k (m.node root).left := by
  have h0 : (m.node root).left ≠ 0 := (inner_root hB k).internal
  have he : Edge m root (m.node root).left := ⟨h0, .inl rfl⟩
  have hp : OnPath cfg m k (m.node root).left :=
    onPath_root.step (hB.tree.kedge_root.mpr hB.tree.root_left)
  refine ⟨⟨hB.closed.left_lt _ hB.tree.root_lt, h0, hp.good⟩, hB.tree.edge_ne_root .refl he, ?_, ?_⟩
  all_goals cases hB.tree.edgeKind .refl he with
    | root _ hy hw => assumption
    | top hx => exact absurd rfl hx
    | sentinel hx => exact absurd rfl hx
    | real hx => exact absurd rfl hx

omit [LinearOrder K] in
theorem searchBody_key (m : Mem K V) (c : Call K V) (cur : Cursor) (md : Mode) :
    (searchBody m c cur md).key = c.key := by cases md <;> rfl

/-- The search of an update pushes the parent. -/
theorem searchBody_ok (h : CallOk cfg m c) (hp : (m.node cur.p).left ≠ 0)
    (htr : md = .update → Trail cfg m c.key (cur.l :: cur.p :: c.stack)) :
    CallOk cfg m (searchBody m c cur md) ∧
      (md = .update → Trail cfg m c.key (cur.l :: (searchBody m c cur md).stack)) := by
  cases md with
  | rebalance => exact ⟨h, nofun⟩
  | update =>
      refine ⟨⟨h.key, ⟨(htr rfl).tail (by simp), ?_⟩⟩, htr⟩
      exact List.forall_mem_cons.mpr ⟨hp, h.stack.internal⟩

omit [LinearOrder K] in
theorem searchGoesOn_iff : searchGoesOn m md cur = true ↔ (m.node cur.l).left ≠ 0 ∧
    (md = .rebalance → (m.node cur.l).weight ≤ 1 ∧
      ((m.node cur.l).weight ≠ 0 ∨ (m.node cur.p).weight ≠ 0)) := by
  cases md <;> simp [searchGoesOn]

/-- **The steps of an update keep what the thread knows.** -/
theorem execUpdate_ok (hB : Base cfg m t) (hl : Later cfg m (execUpdate cfg m pc).1)
    (h : PcOk cfg m pc) : PcOk cfg (execUpdate cfg m pc).1 (execUpdate cfg m pc).2 := by
  cases pc with
  | searchRoot c md =>
      have htop := topOk_left hB c.key
      cases md with
      | update =>
          have htr : Trail cfg m c.key [root] :=
            ⟨by simpa using hB.tree.root_lt, by simp [root], rfl, List.pairwise_singleton ..⟩
          have hin : ∀ x ∈ [root], (m.node x).left ≠ 0 := by
            simpa using (inner_root hB c.key).internal
          exact ⟨⟨h.1, htr, hin⟩, htop,
            fun _ => htr.cons hB (hB.tree.kedge_root.mpr hB.tree.root_left)⟩
      | rebalance => exact ⟨⟨h.1, h.2 rfl⟩, htop, nofun⟩
  | searchTop c md l =>
      simp only [execUpdate]
      split_ifs with hl
      · have hend : md = .update → PcOk cfg m (.attempt c .update ⟨root, root, root, l⟩) := fun _ =>
          ⟨h.1, ⟨inner_root hB _, inner_root hB _, inner_root hB _, nofun⟩, h.2.1.toPtr,
            fun _ => hl, nofun⟩
        cases md with
        | rebalance => exact finished_ok h.1 .rebalance
        | update =>
            cases c.kind with
            | erase => exact finished_ok h.1 .update
            | insert => exact hend rfl
            | insertIfAbsent => exact hend rfl
      · exact ⟨h.1, h.2.1, hl, h.2.2⟩
  | searchFirst c md p =>
      obtain ⟨hc, hp, hl, htr⟩ := h
      have hin : Inner cfg m c.key p := ⟨hp.toPtr, hl⟩
      have hlt : ((c.key : K) : WithTop K) < ord cfg (m.node p).key := by
        rw [hp.key, ord_noKey]; exact WithTop.coe_lt_top _
      have hch := hin.child hB
      have hke : KEdge cfg m c.key p (m.node p).left := ⟨hl, child_eq_left hlt, hl⟩
      rw [child_eq_left hlt] at hch
      exact ⟨hc, ⟨⟨inner_root hB _, inner_root hB _, hin,
        fun _ => .inl ((hp.weight hl).trans_ne one_ne_zero)⟩, hch,
        (hB.keyed p hp.lt hp.ne_root hl).1⟩, fun hmd => (htr hmd).cons hB hke⟩
  | searchLoop c md cur =>
      obtain ⟨hc, hcur, htr⟩ := h
      simp only [execUpdate]
      split_ifs with hgo
      · rw [searchGoesOn_iff] at hgo
        have hbody := searchBody_ok hc hcur.p.internal htr
        refine ⟨hbody.1, ?_, hcur.l_real, ?_⟩
        · rw [searchBody_key]
          exact ⟨hcur.gp, hcur.p, ⟨hcur.l, hgo.1⟩, fun hmd => (hgo.2 hmd).2⟩
        · rw [searchBody_key]
          exact hbody.2
      · rw [searchGoesOn_iff] at hgo
        refine ⟨hc, hcur.toAboveOk, hcur.l, fun hmd => ?_, fun hmd => ?_⟩
        · by_contra hl
          exact hgo ⟨hl, fun hr => nomatch hmd.symm.trans hr⟩
        · by_contra hcon
          simp only [not_or, not_and, not_lt] at hcon
          exact hgo ⟨hcon.1, fun _ => ⟨hcon.2.1,
            or_iff_not_imp_left.mpr fun hw => hcon.2.2 (not_not.mp hw)⟩⟩
  | searchNext c md cur =>
      obtain ⟨hc, hcur, hreal, htr⟩ := h
      have hr : cur.p ≠ root := fun he => hreal (he ▸ hB.tree.root_key)
      have hch := hcur.p.child hB
      have hkey := hB.keyed cur.p hcur.p.lt hr hcur.p.internal
      have he : child cfg m c.key cur.p = if c.key < (m.node cur.p).key then (m.node cur.p).left
          else (m.node cur.p).right := by
        unfold child
        simp only [goesLeft, hreal, decide_false, Bool.or_false, decide_eq_true_eq]
      have hke : KEdge cfg m c.key cur.p (child cfg m c.key cur.p) :=
        ⟨hcur.p.internal, rfl, hch.ne_zero⟩
      rw [he] at hch hke
      refine ⟨hc, ⟨⟨hcur.ggp, hcur.gp, hcur.p, hcur.above⟩, hch, ?_⟩,
        fun hmd => (htr hmd).cons hB hke⟩
      simp only
      split_ifs
      · exact hkey.1
      · exact hkey.2 hreal
  | attempt c md cur =>
      have hs := (h.1.of_same (attempt_same cfg m c md cur)).later hl
      revert hs
      simp only [execUpdate]
      rcases attempt cfg m c md cur with ⟨c', e | rec⟩ <;> intro hs
      · cases e with
        | retry => exact ⟨hs.key, fun _ => hs.stack⟩
        | finish => exact finished_ok hs md
        | crash => trivial
      · exact hs
  | swing c md rec => exact finished_ok (CallOk.later h hl) md
  | _ => exact h

end Update

end Cbat
