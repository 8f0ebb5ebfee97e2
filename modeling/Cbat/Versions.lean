/-
**Every snapshot is a well-formed search tree.**

A refresh builds the version of a node from versions of its children that it has read at different
times, while other threads replace the nodes below.  The version of a live node has nevertheless
keys on the paths through the node only: the paths through a node that stays in the tree never
become fewer, and a refresh uses the version of a child only after it has seen that the child is
still there.  It follows that every version tree that is ever installed is ordered.

Main definitions:

* `Cbat.Ver.Wf` — a well-formed version tree;
* `Cbat.Fits` — a version that may be the version of a node;
* `Cbat.FrameFit`, `Cbat.FramesFit` — what a refresh has read fits;
* `Cbat.VerInv` — the versions of the live nodes fit.

Main results:

* `Cbat.FrameStep.fit`, `Cbat.VerInv.swing` — the steps keep it;
* `Cbat.snapshot_wellFormed` — **the version tree of the root is a search tree in every reachable
  state**.
-/

import Cbat.Invariant
import Cbat.Schedule

set_option relaxedAutoImplicit false
set_option autoImplicit false

namespace Cbat

variable {K V : Type} [LinearOrder K] {cfg : Cfg K V} {m m' : Mem K V} {t : LTree (Cell K V)}

/-! ### Well-formed version trees -/

/-- **A well-formed version tree**: an internal version has two children, its sum is the sum of
theirs, and its key separates their real keys. -/
def Ver.Wf (cfg : Cfg K V) : Ver K → Prop
  | .nil => False
  | .mk _ k s l r _ => (l = .nil ∧ r = .nil) ∨
      (l.Wf cfg ∧ r.Wf cfg ∧ s = l.sum + r.sum ∧
        (∀ j ∈ l.leafKeys, j ≠ cfg.noKey → (j : WithTop K) < ord cfg k) ∧
        ∀ j ∈ r.leafKeys, j ≠ cfg.noKey → ord cfg k ≤ (j : WithTop K))

theorem Ver.Wf.ne_nil {v : Ver K} (h : v.Wf cfg) : v ≠ .nil := by
  rintro rfl
  exact h

theorem Ver.wf_leaf (cfg : Cfg K V) (a : ℕ) (k : K) (s : ℤ) (ps : ℕ) :
    (Ver.mk a k s .nil .nil ps).Wf cfg := .inl ⟨rfl, rfl⟩

/-- **The real keys of a well-formed version tree increase from left to right.** -/
theorem Ver.Wf.pairwise {v : Ver K} (h : v.Wf cfg) :
    (v.leafKeys.filter (· ≠ cfg.noKey)).Pairwise (· < ·) := by
  induction v with
  | nil => exact h.elim
  | mk a k s l r ps ihl ihr =>
      rcases h with ⟨rfl, rfl⟩ | ⟨hl, hr, -, hlk, hrk⟩
      · exact (List.pairwise_singleton ..).filter _
      · rw [Ver.leafKeys_mk hl.ne_nil, List.filter_append, List.pairwise_append]
        refine ⟨ihl hl, ihr hr, fun x hx y hy => ?_⟩
        simp only [List.mem_filter, decide_eq_true_eq] at hx hy
        exact WithTop.coe_lt_coe.mp ((hlk x hx.1 hx.2).trans_le (hrk y hy.1 hy.2))

/-- The versions below a well-formed one are well-formed. -/
theorem Ver.Wf.of_mem_reach {v w : Ver K} (h : v.Wf cfg) (hw : w ∈ v.reach) : w.Wf cfg := by
  induction v with
  | nil => exact h.elim
  | mk a k s l r ps ihl ihr =>
      rcases List.mem_cons.mp hw with rfl | hw
      · exact h
      · rcases h with ⟨rfl, rfl⟩ | ⟨hl, hr, -⟩
        · simp [Ver.reach] at hw
        · rcases List.mem_append.mp hw with hw | hw
          · exact ihl hl hw
          · exact ihr hr hw

/-! ### Versions that fit a node -/

/-- **The version may be the version of `x`**: its keys are on paths through `x`. -/
structure Fits (cfg : Cfg K V) (m : Mem K V) (x : ℕ) (v : Ver K) : Prop where
  wf : v.Wf cfg
  onPath : ∀ j ∈ v.leafKeys, j ≠ cfg.noKey → OnPath cfg m j x

/-- The version may be the left child of the version of `x`. -/
structure FitsLeft (cfg : Cfg K V) (m : Mem K V) (x : ℕ) (v : Ver K) : Prop extends
    Fits cfg m x v where
  lt : ∀ j ∈ v.leafKeys, j ≠ cfg.noKey → (j : WithTop K) < ord cfg (m.node x).key

/-- The version may be the right child of the version of `x`. -/
structure FitsRight (cfg : Cfg K V) (m : Mem K V) (x : ℕ) (v : Ver K) : Prop extends
    Fits cfg m x v where
  le : ∀ j ∈ v.leafKeys, j ≠ cfg.noKey → ord cfg (m.node x).key ≤ (j : WithTop K)

section Fits

variable {x : ℕ} {v l r : Ver K}

theorem Fits.later (h : Fits cfg m x v) (hl : Later cfg m m') (hx : Live m' x) : Fits cfg m' x v :=
  ⟨h.wf, fun j hj hk => hl.onPath j x (h.onPath j hj hk) hx⟩

theorem FitsLeft.later (h : FitsLeft cfg m x v) (hl : Later cfg m m') (hx : Live m' x)
    (hlt : x < m.next) : FitsLeft cfg m' x v :=
  ⟨h.toFits.later hl hx, fun j hj hk => by rw [hl.key x hlt]; exact h.lt j hj hk⟩

theorem FitsRight.later (h : FitsRight cfg m x v) (hl : Later cfg m m') (hx : Live m' x)
    (hlt : x < m.next) : FitsRight cfg m' x v :=
  ⟨h.toFits.later hl hx, fun j hj hk => by rw [hl.key x hlt]; exact h.le j hj hk⟩

/-- A version of the left child fits on the left. -/
theorem fitsLeft_of_child (hT : TreeInv cfg m t) (hx : Live m x) (h0 : (m.node x).left ≠ 0)
    (h : Fits cfg m (m.node x).left v) : FitsLeft cfg m x v := by
  have he : Edge m x (m.node x).left := ⟨h0, .inl rfl⟩
  refine ⟨⟨h.wf, fun j hj hk => (hT.onPath_of_edge hx he (h.onPath j hj hk)).1⟩,
    fun j hj hk => ?_⟩
  have hke := (hT.onPath_of_edge hx he (h.onPath j hj hk)).2
  by_contra hlt
  exact hT.left_ne_right hx h0 (hke.2.1.symm.trans (child_eq_right hlt))

/-- A version of the right child fits on the right. -/
theorem fitsRight_of_child (hT : TreeInv cfg m t) (hx : Live m x) (h0 : (m.node x).right ≠ 0)
    (h : Fits cfg m (m.node x).right v) : FitsRight cfg m x v := by
  have he : Edge m x (m.node x).right := ⟨h0, .inr rfl⟩
  refine ⟨⟨h.wf, fun j hj hk => (hT.onPath_of_edge hx he (h.onPath j hj hk)).1⟩,
    fun j hj hk => ?_⟩
  have hke := (hT.onPath_of_edge hx he (h.onPath j hj hk)).2
  by_contra hlt
  exact hT.left_ne_right hx hke.1 ((child_eq_left (not_le.mp hlt)).symm.trans hke.2.1)

/-- The version of a node with two children. -/
theorem fits_mk (hl : FitsLeft cfg m x l) (hr : FitsRight cfg m x r) (a ps : ℕ) :
    Fits cfg m x (.mk a (m.node x).key (l.sum + r.sum) l r ps) := by
  refine ⟨.inr ⟨hl.wf, hr.wf, rfl, hl.lt, hr.le⟩, fun j hj hk => ?_⟩
  rw [Ver.leafKeys_mk hl.wf.ne_nil] at hj
  rcases List.mem_append.mp hj with hj | hj
  · exact hl.onPath j hj hk
  · exact hr.onPath j hj hk

end Fits

/-! ### The versions in memory and those that a refresh has read -/

/-- **The versions in memory fit their nodes.**  Leaves have versions from the start; the root has
one without a right child. -/
structure VerInv (cfg : Cfg K V) (m : Mem K V) : Prop where
  leaf : ∀ x < m.next, (m.node x).left = 0 →
    ∃ a s ps, (m.node x).version = .mk a (m.node x).key s .nil .nil ps
  live : ∀ x, Live m x → x ≠ root → (m.node x).version ≠ .nil → Fits cfg m x (m.node x).version
  top : ∃ a s l ps, (m.node root).version = .mk a cfg.noKey s l .nil ps ∧ l.Wf cfg ∧ s = l.sum

/-- Steps that change no child pointer and no version. -/
theorem VerInv.of_same (hV : VerInv cfg m) (h : SameNodes m m')
    (hv : ∀ x, (m'.node x).version = (m.node x).version) : VerInv cfg m' where
  leaf := fun x hx hl => by
    rw [hv, (h.same x).key]
    exact hV.leaf x (h.next ▸ hx) ((h.same x).left ▸ hl)
  live := fun x hx hr hn => by
    rw [hv] at hn ⊢
    have := hV.live x (h.live_iff.mp hx) hr hn
    exact ⟨this.wf, fun j hj hk => h.onPath_iff.mpr (this.onPath j hj hk)⟩
  top := by
    rw [hv]
    exact hV.top

/-- What a refresh has read on the left. -/
def LeftFit (cfg : Cfg K V) (m : Mem K V) (f : Frame K) : Prop :=
  match f.pos with
  | .getOld | .reloadOld | .loadOld | .leafTest | .loadLeft => True
  | .loadLeftVer | .reloadLeftVer => f.left1 ≠ root
  | .testLeft => Live m f.left1 → Fits cfg m f.left1 f.leftver
  | .loadRight | .loadRightVer | .reloadRightVer | .testRight | .cas =>
      Live m f.x → FitsLeft cfg m f.x f.leftver

/-- What a refresh has read on the right; the root has no right child. -/
def RightFit (cfg : Cfg K V) (m : Mem K V) (f : Frame K) : Prop :=
  match f.pos with
  | .loadRightVer | .reloadRightVer => f.right1 ≠ 0 ∧ f.right1 ≠ root
  | .testRight => (f.right1 = 0 ∧ f.rightver = .nil) ∨
      (f.right1 ≠ 0 ∧ (Live m f.right1 → Fits cfg m f.right1 f.rightver))
  | .cas => Live m f.x → (f.x = root ∧ f.rightver = .nil) ∨
      (f.x ≠ root ∧ FitsRight cfg m f.x f.rightver)
  | _ => True

/-- **What a refresh has read fits the node.** -/
structure FrameFit (cfg : Cfg K V) (m : Mem K V) (f : Frame K) : Prop where
  internal : (m.node f.x).left ≠ 0
  old : f.oldVer ≠ .nil → (m.node f.x).version ≠ .nil
  prev : f.prev ≠ none → f.main = true
  left : LeftFit cfg m f
  right : RightFit cfg m f

omit [LinearOrder K] in
/-- The call `f` was made by `g`. -/
def Calls (f g : Frame K) : Prop :=
  (g.pos = .reloadLeftVer ∧ f.x = g.left1) ∨ (g.pos = .reloadRightVer ∧ f.x = g.right1) ∨
    (g.pos = .reloadOld ∧ f.x = g.x)

omit [LinearOrder K] in
/-- The active call first, each made by the next one, and the last one by `propagate`. -/
def Nested : List (Frame K) → Prop
  | [] => True
  | [f] => f.main = true
  | f :: g :: fs => f.main = false ∧ Calls f g ∧ Nested (g :: fs)

omit [LinearOrder K] in
/-- The version that the active call is about to read again is there. -/
structure HeadOk (m : Mem K V) (f : Frame K) : Prop where
  left : f.pos = .reloadLeftVer → (m.node f.left1).version ≠ .nil
  right : f.pos = .reloadRightVer → (m.node f.right1).version ≠ .nil
  old : f.pos = .reloadOld → (m.node f.x).version ≠ .nil

/-- The calls of a refresh. -/
structure FramesFit (cfg : Cfg K V) (m : Mem K V) (f : Frame K) (cs : List (Frame K)) : Prop where
  each : ∀ g ∈ f :: cs, FrameFit cfg m g
  nested : Nested (f :: cs)
  head : HeadOk m f

section Frames

variable {var : Variant} {ps : ℕ} {f f' g : Frame K} {cs cs' : List (Frame K)} {vs : List (Ver K)}
  {res : FrameResult K}

theorem LeftFit.later (h : LeftFit cfg m f) (hok : FrameOk m f) (hl : Later cfg m m') :
    LeftFit cfg m' f := by
  unfold LeftFit at h ⊢
  cases hp : f.pos <;> rw [hp] at h <;> simp only at h ⊢
  case testLeft => exact fun hx => (h (hl.live _ hok.left1 hx)).later hl hx
  case loadLeftVer | reloadLeftVer => exact h
  all_goals exact fun hx => (h (hl.live _ hok.x hx)).later hl hx hok.x

theorem RightFit.later (h : RightFit cfg m f) (hok : FrameOk m f) (hl : Later cfg m m') :
    RightFit cfg m' f := by
  unfold RightFit at h ⊢
  cases hp : f.pos <;> rw [hp] at h <;> simp only at h ⊢
  case testRight =>
    exact h.imp_right fun h => ⟨h.1, fun hx => (h.2 (hl.live _ hok.right1 hx)).later hl hx⟩
  case loadRightVer | reloadRightVer => exact h
  case cas =>
    exact fun hx => (h (hl.live _ hok.x hx)).imp_right fun h => ⟨h.1, h.2.later hl hx hok.x⟩

theorem FrameFit.later (h : FrameFit cfg m f) (hok : FrameOk m f) (hl : Later cfg m m') :
    FrameFit cfg m' f :=
  ⟨fun h0 => h.internal ((hl.leaf _ hok.x).mp h0), fun ho hv => h.old ho (hl.version _ hok.x hv),
    h.prev, h.left.later hok hl, h.right.later hok hl⟩

theorem HeadOk.later (h : HeadOk m f) (hok : FrameOk m f) (hl : Later cfg m m') : HeadOk m' f :=
  ⟨fun hp hn => h.left hp (hl.version _ hok.left1 hn),
    fun hp hn => h.right hp (hl.version _ hok.right1 hn),
    fun hp hn => h.old hp (hl.version _ hok.x hn)⟩

omit [LinearOrder K] in
theorem Nested.congr (h : Nested (f :: cs)) (hx : f'.x = f.x) (hm : f'.main = f.main) :
    Nested (f' :: cs) := by
  cases cs with
  | nil => exact hm.trans h
  | cons g gs =>
      refine ⟨hm.trans h.1, ?_, h.2.2⟩
      unfold Calls
      rw [hx]
      exact h.2.1

theorem FrameFit.start {x : ℕ} (hx : (m.node x).left ≠ 0) (var : Variant) (main : Bool) :
    FrameFit cfg m (.start var x main) := by
  refine ⟨hx, fun h => absurd rfl h, fun h => absurd rfl h, ?_, ?_⟩
  · unfold LeftFit Frame.start
    split_ifs <;> trivial
  · unfold RightFit Frame.start
    split_ifs <;> trivial

omit [LinearOrder K] in
theorem HeadOk.of_pos (h₁ : f.pos ≠ .reloadLeftVer) (h₂ : f.pos ≠ .reloadRightVer)
    (h₃ : f.pos ≠ .reloadOld) : HeadOk m f :=
  ⟨fun h => absurd h h₁, fun h => absurd h h₂, fun h => absurd h h₃⟩

theorem FramesFit.later (h : FramesFit cfg m f cs) (hok : ∀ g ∈ f :: cs, FrameOk m g)
    (hl : Later cfg m m') : FramesFit cfg m' f cs :=
  ⟨fun g hg => (h.each g hg).later (hok g hg) hl, h.nested,
    h.head.later (hok f (by simp)) hl⟩

/-- The active call goes on. -/
theorem FramesFit.go (h : FramesFit cfg m f cs) (hx : f'.x = f.x) (hm : f'.main = f.main)
    (hf : FrameFit cfg m f') (hh : HeadOk m f') : FramesFit cfg m f' cs :=
  ⟨List.forall_mem_cons.mpr ⟨hf, fun g hg => h.each g (by simp [hg])⟩, h.nested.congr hx hm, hh⟩

/-- The active call makes a nested one. -/
theorem FramesFit.call (h : FramesFit cfg m f cs) {y : ℕ} (hx : f'.x = f.x) (hm : f'.main = f.main)
    (hf : FrameFit cfg m f') (hc : Calls (.start var y false) f') (hy : (m.node y).left ≠ 0) :
    FramesFit cfg m (.start var y false) (f' :: cs) := by
  refine ⟨List.forall_mem_cons.mpr ⟨.start hy var false, List.forall_mem_cons.mpr
    ⟨hf, fun g hg => h.each g (by simp [hg])⟩⟩, ⟨rfl, hc, h.nested.congr hx hm⟩, ?_⟩
  refine .of_pos ?_ ?_ ?_ <;> simp [Frame.start]

/-- A nested call returns once its node has a version. -/
theorem FramesFit.pop (h : FramesFit cfg m f (g :: cs)) (hok : ∀ g' ∈ g :: cs, FrameOk m g')
    (hl : Later cfg m m') (hv : (m'.node f.x).version ≠ .nil) : FramesFit cfg m' g cs := by
  refine ⟨fun g' hg => (h.each g' (by simp [hg])).later (hok g' hg) hl, h.nested.2.2, ?_⟩
  rcases h.nested.2.1 with ⟨hp, hx⟩ | ⟨hp, hx⟩ | ⟨hp, hx⟩
  · exact ⟨fun _ => hx ▸ hv, fun hp' => (by rw [hp] at hp'; exact nomatch hp'),
      fun hp' => (by rw [hp] at hp'; exact nomatch hp')⟩
  · exact ⟨fun hp' => (by rw [hp] at hp'; exact nomatch hp'), fun _ => hx ▸ hv,
      fun hp' => (by rw [hp] at hp'; exact nomatch hp')⟩
  · exact ⟨fun hp' => (by rw [hp] at hp'; exact nomatch hp'),
      fun hp' => (by rw [hp] at hp'; exact nomatch hp'), fun _ => hx ▸ hv⟩

/-- An internal node without a version. -/
theorem VerInv.internal (hV : VerInv cfg m) {x : ℕ} (hx : x < m.next)
    (hn : (m.node x).version = .nil) : (m.node x).left ≠ 0 := fun hl => by
  obtain ⟨a, s, ps, he⟩ := hV.leaf x hx hl
  rw [hn] at he
  exact nomatch he

/-- **The accesses of a refresh keep what is known of it.** -/
theorem FrameStep.fit (h : FrameStep var m ps f cs m' vs res) (hB : Base cfg m t)
    (hV : VerInv cfg m) (hok : ∀ g ∈ f :: cs, FrameOk m g) (hF : FramesFit cfg m f cs)
    (hres : res = .run f' cs') : FramesFit cfg m' f' cs' := by
  have hf := hF.each f (by simp)
  have hof := hok f (by simp)
  have hq := h.quiet
  -- the rest of the calls after the active one has returned
  have hpop : ∀ {ok : Bool} {curps : ℕ}, FrameResult.pop cs ok curps = .run f' cs' →
      (m'.node f.x).version ≠ .nil → FramesFit cfg m' f' cs' := fun he hv => by
    obtain rfl := pop_run he
    exact hF.pop (fun g hg => hok g (by simp [hg])) hq.later hv
  have hl := hf.left
  have hr := hf.right
  unfold LeftFit at hl
  unfold RightFit at hr
  cases h with
  | callOld hp hn =>
      obtain ⟨rfl, rfl⟩ := FrameResult.run.inj hres
      exact hF.call rfl rfl ⟨hf.internal, hf.old, hf.prev, trivial, trivial⟩
        (.inr (.inr ⟨rfl, rfl⟩)) hf.internal
  | oldThere hp hn =>
      obtain ⟨rfl, rfl⟩ := FrameResult.run.inj hres
      exact hF.go rfl rfl ⟨hf.internal, hf.old, hf.prev, trivial, trivial⟩
        ⟨nofun, nofun, fun _ => hn⟩
  | old hp hvar =>
      obtain ⟨rfl, rfl⟩ := FrameResult.run.inj hres
      exact hF.go rfl rfl ⟨hf.internal, id, hf.prev, trivial, trivial⟩ (.of_pos nofun nofun nofun)
  | skip hp hvar hm hn => exact hpop hres hn
  | leafWrite hp hl0 hvar => exact absurd hl0 hf.internal
  | leaf hp hl0 hvar => exact absurd hl0 hf.internal
  | inner hp hl0 =>
      obtain ⟨rfl, rfl⟩ := FrameResult.run.inj hres
      exact hF.go rfl rfl ⟨hf.internal, hf.old, hf.prev, trivial, trivial⟩
        (.of_pos nofun nofun nofun)
  | left hp =>
      obtain ⟨rfl, rfl⟩ := FrameResult.run.inj hres
      have hne := (hB.acyclic f.x hof.x _ ⟨hf.internal, .inl rfl⟩).1
      exact hF.go rfl rfl ⟨hf.internal, hf.old, hf.prev, hne, trivial⟩ (.of_pos nofun nofun nofun)
  | callLeft hp hn =>
      obtain ⟨rfl, rfl⟩ := FrameResult.run.inj hres
      rw [hp] at hl
      exact hF.call rfl rfl ⟨hf.internal, hf.old, hf.prev, hl, trivial⟩ (.inl ⟨rfl, rfl⟩)
        (hV.internal hof.left1 hn)
  | leftThere hp hn hvar =>
      obtain ⟨rfl, rfl⟩ := FrameResult.run.inj hres
      rw [hp] at hl
      exact hF.go rfl rfl ⟨hf.internal, hf.old, hf.prev, hl, trivial⟩ ⟨fun _ => hn, nofun, nofun⟩
  | leftVer hp =>
      obtain ⟨rfl, rfl⟩ := FrameResult.run.inj hres
      have hn : f.left1 ≠ root ∧ (m.node f.left1).version ≠ .nil := by
        rcases hp with ⟨hp, -, hn⟩ | hp
        · rw [hp] at hl
          exact ⟨hl, hn⟩
        · rw [hp] at hl
          exact ⟨hl, hF.head.left hp⟩
      exact hF.go rfl rfl ⟨hf.internal, hf.old, hf.prev, fun hx => hV.live _ hx hn.1 hn.2, trivial⟩
        (.of_pos nofun nofun nofun)
  | leftSame hp he =>
      obtain ⟨rfl, rfl⟩ := FrameResult.run.inj hres
      rw [hp] at hl
      refine hF.go rfl rfl ⟨hf.internal, hf.old, hf.prev, fun hx => ?_, trivial⟩
        (.of_pos nofun nofun nofun)
      have hlive : Live m f.left1 := hx.edge (he ▸ ⟨hf.internal, .inl rfl⟩)
      exact fitsLeft_of_child hB.tree hx hf.internal (he ▸ hl hlive)
  | leftMoved hp he =>
      obtain ⟨rfl, rfl⟩ := FrameResult.run.inj hres
      exact hF.go rfl rfl ⟨hf.internal, hf.old, hf.prev, trivial, trivial⟩
        (.of_pos nofun nofun nofun)
  | noRight hp h0 =>
      obtain ⟨rfl, rfl⟩ := FrameResult.run.inj hres
      rw [hp] at hl
      exact hF.go rfl rfl ⟨hf.internal, hf.old, hf.prev, hl, .inl ⟨rfl, rfl⟩⟩
        (.of_pos nofun nofun nofun)
  | right hp h0 =>
      obtain ⟨rfl, rfl⟩ := FrameResult.run.inj hres
      rw [hp] at hl
      have hne := (hB.acyclic f.x hof.x _ ⟨h0, .inr rfl⟩).1
      exact hF.go rfl rfl ⟨hf.internal, hf.old, hf.prev, hl, h0, hne⟩ (.of_pos nofun nofun nofun)
  | callRight hp hn =>
      obtain ⟨rfl, rfl⟩ := FrameResult.run.inj hres
      rw [hp] at hl hr
      exact hF.call rfl rfl ⟨hf.internal, hf.old, hf.prev, hl, hr⟩ (.inr (.inl ⟨rfl, rfl⟩))
        (hV.internal hof.right1 hn)
  | rightThere hp hn hvar =>
      obtain ⟨rfl, rfl⟩ := FrameResult.run.inj hres
      rw [hp] at hl hr
      exact hF.go rfl rfl ⟨hf.internal, hf.old, hf.prev, hl, hr⟩ ⟨nofun, fun _ => hn, nofun⟩
  | rightVer hp =>
      obtain ⟨rfl, rfl⟩ := FrameResult.run.inj hres
      have hn : (f.right1 ≠ 0 ∧ f.right1 ≠ root) ∧ (m.node f.right1).version ≠ .nil ∧
          (Live m f.x → FitsLeft cfg m f.x f.leftver) := by
        rcases hp with ⟨hp, -, hn⟩ | hp
        · rw [hp] at hl hr
          exact ⟨hr, hn, hl⟩
        · rw [hp] at hl hr
          exact ⟨hr, hF.head.right hp, hl⟩
      exact hF.go rfl rfl ⟨hf.internal, hf.old, hf.prev, hn.2.2,
        .inr ⟨hn.1.1, fun hx => hV.live _ hx hn.1.2 hn.2.1⟩⟩ (.of_pos nofun nofun nofun)
  | unchanged hp he hprev =>
      -- only the outermost call reads its children again
      have hm := hf.prev (by simp [hprev])
      cases cs with
      | nil => exact nomatch hres
      | cons g gs => exact absurd (hm.symm.trans hF.nested.1) (by decide)
  | rightSame hp he hprev =>
      obtain ⟨rfl, rfl⟩ := FrameResult.run.inj hres
      rw [hp] at hl hr
      refine hF.go rfl rfl ⟨hf.internal, hf.old, hf.prev, hl, fun hx => ?_⟩
        (.of_pos nofun nofun nofun)
      by_cases hroot : f.x = root
      · rcases hr with hr | hr
        · exact .inl ⟨hroot, hr.2⟩
        · exact absurd (he.trans (hroot ▸ hB.tree.root_right)) hr.1
      · have h0 := hB.closed.full _ hof.x hroot hf.internal
        rcases hr with hr | hr
        · exact absurd (he.symm.trans hr.1) h0
        · have hlive : Live m f.right1 := hx.edge (he ▸ ⟨h0, .inr rfl⟩)
          exact .inr ⟨hroot, fitsRight_of_child hB.tree hx h0 (he ▸ hr.2 hlive)⟩
  | rightMoved hp he =>
      obtain ⟨rfl, rfl⟩ := FrameResult.run.inj hres
      rw [hp] at hl
      exact hF.go rfl rfl ⟨hf.internal, hf.old, hf.prev, hl, trivial⟩ (.of_pos nofun nofun nofun)
  | casOk hp he hvar =>
      refine hpop hres ?_
      rw [install_version_self]
      exact nofun
  | casAgain hp he hvar hm =>
      obtain ⟨rfl, rfl⟩ := FrameResult.run.inj hres
      refine (hF.later hok hq.later).go rfl rfl ⟨(hf.later hof hq.later).internal, fun _ => ?_,
        fun _ => hm, trivial, trivial⟩ (.of_pos nofun nofun nofun)
      rw [install_version_self]
      exact nofun
  | casFail hp he =>
      refine hpop hres fun hn => ?_
      by_cases ho : f.oldVer = .nil
      · exact he (hn.trans ho.symm)
      · exact hf.old ho hn

/-- What a refresh installs fits the node. -/
theorem FrameFit.newVer_fits (h : FrameFit cfg m f) (hp : f.pos = .cas) (hx : Live m f.x)
    (hr : f.x ≠ root) : Fits cfg m f.x (f.newVer m ps) := by
  have hl := h.left
  have hr' := h.right
  simp only [LeftFit, RightFit, hp] at hl hr'
  rcases hr' hx with hr' | hr'
  · exact absurd hr'.1 hr
  · exact fits_mk (hl hx) hr'.2 _ _

/-- A version stored at an internal node. -/
theorem VerInv.install (hV : VerInv cfg m) {x : ℕ} {v : Ver K} (hv : v ≠ .nil)
    (hx : (m.node x).left ≠ 0) (hfit : Live m x → x ≠ root → Fits cfg m x v)
    (hroot : x = root → ∃ a s l ps, v = .mk a cfg.noKey s l .nil ps ∧ l.Wf cfg ∧ s = l.sum) :
    VerInv cfg (m.install x v) := by
  have hq := Quiet.install m x hv
  refine ⟨fun y hy hl => ?_, fun y hy hr hn => ?_, ?_⟩
  · rw [(hq.same y).left] at hl
    rw [(hq.same y).key, install_version_of_ne _ _ _ (by rintro rfl; exact hx hl)]
    exact hV.leaf y hy hl
  · have hym : Live m y := hq.live_iff.mp hy
    by_cases hyx : y = x
    · subst hyx
      rw [install_version_self]
      exact (hfit hym hr).later hq.later hy
    · rw [install_version_of_ne _ _ _ hyx] at hn ⊢
      exact (hV.live y hym hr hn).later hq.later hy
  · by_cases hr : x = root
    · subst hr
      rw [install_version_self]
      exact hroot rfl
    · rw [install_version_of_ne _ _ _ (Ne.symm hr)]
      exact hV.top

/-- **What a refresh installs keeps the invariant of the versions.** -/
theorem FrameStep.verInv (h : FrameStep var m ps f cs m' vs res) (hB : Base cfg m t)
    (hV : VerInv cfg m) (hf : FrameFit cfg m f) : VerInv cfg m' := by
  have hcas : f.pos = .cas → VerInv cfg (m.install f.x (f.newVer m ps)) := fun hp => by
    refine hV.install nofun hf.internal (hf.newVer_fits hp) fun hr => ?_
    have hl := hf.left
    have hr' := hf.right
    simp only [LeftFit, RightFit, hp] at hl hr'
    have hx : Live m f.x := hr ▸ .refl
    rcases hr' hx with hr' | hr'
    · refine ⟨m.nextVer, f.leftver.sum, f.leftver, if f.main then ps else 0, ?_, (hl hx).wf, rfl⟩
      simp [Frame.newVer, hr, hB.tree.root_key, hr'.2]
    · exact absurd hr hr'.1
  cases h with
  | casOk hp | casAgain hp => exact hcas hp
  | leafWrite hp hl => exact absurd hl hf.internal
  | _ => exact hV

end Frames

/-! ### The second step of an SCX -/

section Swing

variable {rec : ScxRecord K V} {old : Patch (Cell K V) ℕ} {k : K} {e : Effect V}

omit [LinearOrder K] in
theorem VersOk.part {p new : NewTree K V} (h : VersOk cfg new) (hp : Patch.Part p new) :
    VersOk cfg p := by
  induction hp with
  | refl => exact h
  | left a r _ ih => exact ih h.1
  | right a l _ ih => exact ih h.2.1

omit [LinearOrder K] in
/-- **The version that a new node starts with**: that of a leaf, none, or one over two leaves. -/
inductive FirstVersion (m : Mem K V) (x : ℕ) : Prop
  | leaf (a : ℕ) (s : ℤ) (hl : (m.node x).left = 0)
      (hv : (m.node x).version = .mk a (m.node x).key s .nil .nil 0) : FirstVersion m x
  | bare (hl : (m.node x).left ≠ 0) (hv : (m.node x).version = .nil) : FirstVersion m x
  | pair (a l r : ℕ) (hl : (m.node x).left = l) (hr : (m.node x).right = r) (hl0 : l ≠ 0)
      (hr0 : r ≠ 0) (hll : (m.node l).left = 0) (hrl : (m.node r).left = 0)
      (hv : (m.node x).version = .mk a (m.node x).key
        ((m.node l).version.sum + (m.node r).version.sum) (m.node l).version (m.node r).version 0) :
      FirstVersion m x

theorem Commit.firstVersion (h : Commit cfg m rec old k e) (hT : TreeInv cfg m t) {j : ℕ}
    (hj : j ∈ slots rec.newNode) : FirstVersion (m.swing rec) (m.next + j) := by
  have hw := Mem.swing_written h.removes.slots_nodup (hT.live_lt h.live)
  have hleaf : ∀ {a : NewNode K V}, Patch.Part (.leaf a) rec.newNode →
      (m.swing rec).node (m.next + a.slot) = ⟨a.key, a.value, a.weight, 0, 0, false, false,
        newVersion m.nextVer (.leaf a)⟩ := fun hp => hw.part hp
  rcases hw.cases hj with ⟨a, rfl, hp, he⟩ | ⟨a, l, r, rfl, hp, he⟩
  · obtain ⟨s, hs, -⟩ := h.plan.vers.part hp
    exact .leaf (m.nextVer + a.slot) s (by rw [he]) (by rw [he]; simp [newVersion, hs])
  · have hl0 := (h.newPtr_lt hT ((Patch.Part.left a r .refl).trans hp)).1
    have hr0 := (h.newPtr_lt hT ((Patch.Part.right a l .refl).trans hp)).1
    obtain ⟨-, -, hsum | ⟨b, c, s, s', rfl, rfl, hb, hc, hsum⟩⟩ := h.plan.vers.part hp
    · exact .bare (by rw [he]; exact hl0) (by rw [he]; simp [newVersion, hsum])
    · have hbn := hleaf ((Patch.Part.left a (.leaf c) .refl).trans hp)
      have hcn := hleaf ((Patch.Part.right a (.leaf b) .refl).trans hp)
      refine .pair (m.nextVer + a.slot) (m.next + b.slot) (m.next + c.slot) (by rw [he]; rfl)
        (by rw [he]; rfl) hl0 hr0 (by rw [hbn]) (by rw [hcn]) ?_
      rw [he, hbn, hcn]
      simp [newVersion, hb, hc, hsum]

/-- The version of a live leaf fits. -/
theorem fits_leaf (hT : TreeInv cfg m t) {x : ℕ} (hx : Live m x) (hl : (m.node x).left = 0) {a : ℕ}
    {s : ℤ} {ps : ℕ} (hv : (m.node x).version = .mk a (m.node x).key s .nil .nil ps) :
    Fits cfg m x (m.node x).version := by
  rw [hv]
  refine ⟨Ver.wf_leaf .., fun j hj hk => ?_⟩
  obtain rfl : j = (m.node x).key := by simpa [Ver.leafKeys] using hj
  exact hT.leaf_onPath hx hl hk

/-- **The second step of an SCX keeps the invariant of the versions.** -/
theorem VerInv.swing (hV : VerInv cfg m) (hB : Base cfg m t) (h : Commit cfg m rec old k e) :
    VerInv cfg (m.swing rec) := by
  have hT := hB.tree
  obtain ⟨hu, t', hT', hs⟩ := h.swing hT
  have hl := Later.swing h hT hB.closed
  have hleaf : ∀ x < (m.swing rec).next, ((m.swing rec).node x).left = 0 →
      ∃ a s ps, ((m.swing rec).node x).version =
        .mk a ((m.swing rec).node x).key s .nil .nil ps := fun x hx hl0 => by
    rcases h.lt_next_cases hx with hlt | ⟨j, hj, rfl⟩
    · rw [h.swing_version hlt, hl.key x hlt]
      exact hV.leaf x hlt ((hl.leaf x hlt).mp hl0)
    · cases h.firstVersion hT hj with
      | leaf a s _ hv => exact ⟨a, s, 0, hv⟩
      | bare hl' => exact absurd hl0 hl'
      | pair a l r hl' _ hl0' => exact absurd (hl'.symm.trans hl0) hl0'
  have hfit : ∀ x, Live (m.swing rec) x → ((m.swing rec).node x).left = 0 →
      Fits cfg (m.swing rec) x ((m.swing rec).node x).version := fun x hx hl0 => by
    obtain ⟨a, s, ps, hv⟩ := hleaf x (hT'.live_lt hx) hl0
    exact fits_leaf hT' hx hl0 hv
  refine ⟨hleaf, fun x hx hr hn => ?_, ?_⟩
  · rcases h.lt_next_cases (hT'.live_lt hx) with hlt | ⟨j, hj, rfl⟩
    · rw [h.swing_version hlt] at hn ⊢
      exact (hV.live x (hl.live x hlt hx) hr hn).later hl hx
    · cases h.firstVersion hT hj with
      | leaf a s hl' => exact hfit _ hx hl'
      | bare _ hv => exact absurd hv hn
      | pair a l r hl' hr' hl0 hr0 hll hrl hv =>
          subst hl' hr'
          rw [hv]
          exact fits_mk (fitsLeft_of_child hT' hx hl0 (hfit _ (hx.edge ⟨hl0, .inl rfl⟩) hll))
            (fitsRight_of_child hT' hx hr0 (hfit _ (hx.edge ⟨hr0, .inr rfl⟩) hrl)) a 0
  · rw [h.swing_version hT.root_lt]
    exact hV.top

end Swing

/-! ### All runs -/

/-- What the refresh of a thread has read fits. -/
def PcFit (cfg : Cfg K V) (m : Mem K V) : PC K V → Prop
  | .refresh _ _ _ f cs => FramesFit cfg m f cs
  | _ => True

section Runs

variable {s s' : State K V} {i : ℕ} {pc pc' : PC K V}

theorem PcFit.later (h : PcFit cfg m pc) (hok : PcOk cfg m pc) (hl : Later cfg m m') :
    PcFit cfg m' pc := by
  cases pc with
  | refresh cl r again f cs => exact FramesFit.later h hok.2 hl
  | _ => trivial

theorem FramesFit.start {r : ℕ} (hr : (m.node r).left ≠ 0) (var : Variant) :
    FramesFit cfg m (.start var r true) [] := by
  refine ⟨by simpa using FrameFit.start hr var true, rfl, ?_⟩
  unfold Frame.start
  refine .of_pos ?_ ?_ ?_ <;> simp only <;> split_ifs <;> exact nofun

theorem inserted_fit {cl : Climb K V} {r : ℕ} : PcFit cfg m (inserted cfg cl r) := by
  unfold inserted
  simp only
  split_ifs <;> trivial

theorem refreshed_fit {cl : Climb K V} {r : ℕ} {again ok : Bool} {curps : ℕ}
    (hr : (m.node r).left ≠ 0) : PcFit cfg m (refreshed cfg cl r again ok curps) := by
  unfold refreshed
  cases cfg.variant <;> simp only <;> split_ifs <;>
    first | exact inserted_fit | exact FramesFit.start hr _ | trivial

/-- **A step of `propagate` keeps the invariant of the versions.** -/
theorem PropStep.fit (h : PropStep cfg m pc m' pc') (hB : Base cfg m t) (hV : VerInv cfg m)
    (hok : PcOk cfg m pc) (hF : PcFit cfg m pc) : VerInv cfg m' ∧ PcFit cfg m' pc' := by
  have hq := h.quiet
  cases h with
  | run h => exact ⟨h.verInv hB hV (hF.each _ (by simp)), h.fit hB hV hok.2 hF rfl⟩
  | @returned cl r again f cs m' vs ok curps h =>
      refine ⟨h.verInv hB hV (hF.each _ (by simp)), refreshed_fit ?_⟩
      rw [(hq.same r).left]
      exact hok.1.stack.internal r (by simp)
  | @pop cl c r st hst hc =>
      exact ⟨hV, .start (hok.1.stack.internal r (by simp [hst])) _⟩
  | marked h => exact ⟨hV, inserted_fit⟩
  | delegate h => exact ⟨hV.of_same hq.toSameNodes fun _ => rfl, by split_ifs <;> trivial⟩
  | start | setDone => exact ⟨hV.of_same hq.toSameNodes fun _ => rfl, trivial⟩
  | _ => exact ⟨hV, trivial⟩

/-- **The invariant of the versions**, in memory and in the refreshes of all threads. -/
structure VInv (cfg : Cfg K V) (s : State K V) : Prop where
  mem : VerInv cfg s.mem
  pcs : ∀ i, PcFit cfg s.mem (s.pc i)

/-- **Every step keeps the invariant of the versions.** -/
theorem VInv.step (hV : VInv cfg s) (hI : Inv cfg s) (h : Step cfg s i s') : VInv cfg s' := by
  obtain ⟨t, hB⟩ := hI.base
  obtain ⟨m', pc', rfl, hk⟩ := h.kind
  have hl := hI.later hk
  suffices hs : VerInv cfg m' ∧ PcFit cfg m' pc' from
    ⟨hs.1, forall_set (P := fun _ => PcFit cfg m') hs.2 fun j _ => (hV.pcs j).later (hI.pcs j) hl⟩
  have hearly : ∀ {pc : PC K V} {m : Mem K V}, pc.early = true → PcFit cfg m pc := by
    intro pc m h
    cases pc <;> trivial
  cases hk with
  | still h h' => exact ⟨hV.mem, hearly h'⟩
  | prop h => exact h.fit hB hV.mem (hI.pcs i) (hV.pcs i)
  | @freeze c md cur c' rec hpc ha =>
      exact ⟨hV.mem.of_same (freeze_sameNodes _ _) (freeze_version _ rec), trivial⟩
  | swing hpc =>
      obtain ⟨old, hc⟩ := hI.commit hpc
      exact ⟨hV.mem.swing hB hc, hearly (finished_early ..)⟩

theorem vInv_init (cfg : Cfg K V) : VInv cfg (State.init cfg) where
  mem := by
    refine ⟨fun x _ hl => ?_, fun x hx hr _ => ?_, ?_⟩
    · have hx : x ≠ root := by rintro rfl; simp [State.init, Mem.init] at hl
      exact ⟨1, 0, 0, by simp [State.init, Mem.init, hx]⟩
    · have hv : ((State.init cfg).mem.node x).version = .mk 1 cfg.noKey 0 .nil .nil 0 := by
        simp [State.init, Mem.init, hr]
      rw [hv]
      refine ⟨Ver.wf_leaf .., fun j hj hk => absurd ?_ hk⟩
      simpa [Ver.leafKeys] using hj
    · exact ⟨2, 0, _, 0, rfl, Ver.wf_leaf .., rfl⟩
  pcs := fun _ => trivial

theorem Reachable.vInv {s : State K V} (h : Reachable cfg s) : VInv cfg s := by
  induction h with
  | refl => exact vInv_init cfg
  | tail hr hs ih =>
      obtain ⟨i, hs⟩ := hs
      exact ih.step (Reachable.inv hr) hs

end Runs

/-! ### Snapshots -/

/-- **A well-formed snapshot**: the version of the root has one child and its sum; every other
internal version has two children and the sum of their sums, real keys separate the real keys of
the leaves below, and these increase from left to right. -/
structure Snapshot (noKey : K) (v : Ver K) : Prop where
  top : ∃ a l ps, v = .mk a noKey l.sum l .nil ps ∧ l ≠ .nil
  children : ∀ a k s l r ps, Ver.mk a k s l r ps ∈ v.reach → Ver.mk a k s l r ps ≠ v →
    ¬ (l = .nil ∧ r = .nil) → l ≠ .nil ∧ r ≠ .nil ∧ s = l.sum + r.sum
  order : ∀ a k s l r ps, Ver.mk a k s l r ps ∈ v.reach → k ≠ noKey → ¬ (l = .nil ∧ r = .nil) →
    (∀ j ∈ l.leafKeys, j ≠ noKey → j < k) ∧ ∀ j ∈ r.leafKeys, j ≠ noKey → k ≤ j
  sorted : (v.leafKeys.filter (· ≠ noKey)).Pairwise (· < ·)

theorem Ver.Wf.children {a : ℕ} {k : K} {s : ℤ} {l r : Ver K} {ps : ℕ}
    (h : (Ver.mk a k s l r ps).Wf cfg) (hn : ¬ (l = .nil ∧ r = .nil)) :
    l ≠ .nil ∧ r ≠ .nil ∧ s = l.sum + r.sum := by
  rcases h with h | ⟨hl, hr, hs, -⟩
  · exact absurd h hn
  · exact ⟨hl.ne_nil, hr.ne_nil, hs⟩

theorem Ver.Wf.order {a : ℕ} {k : K} {s : ℤ} {l r : Ver K} {ps : ℕ}
    (h : (Ver.mk a k s l r ps).Wf cfg) (hn : ¬ (l = .nil ∧ r = .nil)) (hk : k ≠ cfg.noKey) :
    (∀ j ∈ l.leafKeys, j ≠ cfg.noKey → j < k) ∧ ∀ j ∈ r.leafKeys, j ≠ cfg.noKey → k ≤ j := by
  rcases h with h | ⟨-, -, -, hl, hr⟩
  · exact absurd h hn
  · rw [ord_of_ne hk] at hl hr
    exact ⟨fun j hj hjk => WithTop.coe_lt_coe.mp (hl j hj hjk),
      fun j hj hjk => WithTop.coe_le_coe.mp (hr j hj hjk)⟩

/-- **The version tree of the root is a search tree in every reachable state.** -/
theorem snapshot_wellFormed {s : State K V} (h : Reachable cfg s) :
    Snapshot cfg.noKey (s.mem.node root).version := by
  obtain ⟨a, sum, l, ps, hv, hl, rfl⟩ := h.vInv.mem.top
  rw [hv]
  -- below the version of the root all versions are well-formed
  have hbelow : ∀ {w : Ver K}, w ∈ (Ver.mk a cfg.noKey l.sum l .nil ps).reach →
      w = .mk a cfg.noKey l.sum l .nil ps ∨ w.Wf cfg := fun hw => by
    rcases List.mem_cons.mp hw with rfl | hw
    · exact .inl rfl
    · exact .inr (hl.of_mem_reach (by simpa [Ver.reach] using hw))
  refine ⟨⟨a, l, ps, rfl, hl.ne_nil⟩, fun _ _ _ _ _ _ hw hne => ?_, fun _ _ _ _ _ _ hw hk hn => ?_,
    ?_⟩
  · exact ((hbelow hw).resolve_left hne).children
  · rcases hbelow hw with he | hw
    · exact absurd (Ver.mk.inj he).2.1 hk
    · exact hw.order hn hk
  · rw [Ver.leafKeys_mk hl.ne_nil, Ver.leafKeys, List.append_nil]
    exact hl.pairwise

/-- Two insertions at once, the second of which commits first. -/
theorem snapshot_wellFormed_interleaved :
    Snapshot 0 (((State.init (natCfg .bat)).run (natCfg .bat)
      [.call 0 (.insert 10 1), .steps 0 5, .call 1 (.insert 20 1), .steps 1 60,
        .steps 0 60]).mem.node root).version :=
  have h : Reachable (natCfg .bat) _ := Reachable.run .refl _
  snapshot_wellFormed h

/-! ### `contains` -/

/-- **The loop of `contains` finds the keys of the leaves.** -/
theorem Ver.Wf.containsLoop_iff {v : Ver K} (h : v.Wf cfg) {k : K} (hk : k ≠ cfg.noKey) :
    containsLoop cfg.noKey k v = true ↔ k ∈ v.leafKeys := by
  induction v with
  | nil => exact h.elim
  | mk a key sum l r ps ihl ihr =>
      rcases h with ⟨rfl, rfl⟩ | ⟨hl, hr, -, hlt, hle⟩
      · simp [containsLoop, Ver.leafKeys]
      · rw [Ver.leafKeys_mk hl.ne_nil, List.mem_append, containsLoop,
          if_neg (by simp [Ver.isNil_iff, hl.ne_nil])]
        split_ifs with hgo
        · -- the keys on the right are not below the key of the version
          have hord : (k : WithTop K) < ord cfg key := by
            rcases hgo with rfl | hgo
            · rw [ord_noKey]
              exact WithTop.coe_lt_top k
            · unfold ord
              split_ifs
              · exact WithTop.coe_lt_top k
              · exact WithTop.coe_lt_coe.mpr hgo
          rw [ihl hl, or_iff_left fun hkr => absurd (hle k hkr hk) (not_le.mpr hord)]
        · rw [not_or, not_lt] at hgo
          have hord : ord cfg key ≤ (k : WithTop K) := by
            rw [ord_of_ne hgo.1]
            exact WithTop.coe_le_coe.mpr hgo.2
          rw [ihr hr, or_iff_right fun hkl => absurd (hlt k hkl hk) (not_lt.mpr hord)]

/-- **`contains` finds the keys of the version tree of the root.** -/
theorem Reachable.containsLoop_iff {s : State K V} (h : Reachable cfg s) {k : K}
    (hk : k ≠ cfg.noKey) :
    containsLoop cfg.noKey k (s.mem.node root).version = true ↔
      k ∈ (s.mem.node root).version.leafKeys := by
  obtain ⟨a, sum, l, ps, hv, hl, -⟩ := h.vInv.mem.top
  rw [hv, Ver.leafKeys_mk hl.ne_nil, Ver.leafKeys, List.append_nil, containsLoop,
    if_neg (by simp [Ver.isNil_iff, hl.ne_nil]), if_pos (.inl rfl)]
  exact hl.containsLoop_iff hk

end Cbat
