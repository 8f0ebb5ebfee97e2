/-
**The versions mirror the nodes.**

A node mirrors its subtree if its version has its key and, as children, the current versions of its
children.  An SCX leaves nodes that do not: those on the path of the key, whose children have
changed, and new nodes without a version.  `propagate` refreshes the path from below, and every
refresh first fills in the versions that are missing below the node.  When it comes to the root, all
nodes mirror their subtrees.

Main definitions:

* `Cbat.Fine` — the version of the node has the current versions of the children as its children;
* `Cbat.Progress` — the nodes that are not fine have no version, or are on the path of the key and
  still to be refreshed;
* `Cbat.Filled` — what a refresh does to the versions.

Main results:

* `Cbat.Progress.swing` — an SCX leaves only the path of its key to be refreshed;
* `Cbat.runs_fill` — **a nested refresh ends and fills in what is missing**;
* `Cbat.runs_propagate` — **`propagate` ends, and then all nodes are fine**.
-/

import Cbat.Solo

set_option relaxedAutoImplicit false
set_option autoImplicit false

namespace Cbat

variable {K V : Type} {m m' : Mem K V} {x y : ℕ}

/-! ### Fine nodes -/

/-- **The version of `x` mirrors its subtree**: it has the key of `x`, its children are the current
versions of the children of `x`, and in an internal node its sum is the sum of theirs. -/
def Mirrors (m : Mem K V) (x : ℕ) : Prop :=
  ∃ a s ps, (m.node x).version =
      .mk a (m.node x).key s (m.ver (m.node x).left) (m.ver (m.node x).right) ps ∧
    ((m.node x).left ≠ 0 → s = (m.ver (m.node x).left).sum + (m.ver (m.node x).right).sum)

/-- It does, and no child is without a version. -/
def Fine (m : Mem K V) (x : ℕ) : Prop :=
  Mirrors m x ∧ ((m.node x).left ≠ 0 → m.ver (m.node x).left ≠ .nil) ∧
    ((m.node x).right ≠ 0 → m.ver (m.node x).right ≠ .nil)

/-- Being fine depends on the node and on the versions of its children only. -/
theorem Fine.congr (h : Fine m x) (hs : m.Same m' x)
    (hv : (m'.node x).version = (m.node x).version)
    (hl : m'.ver (m.node x).left = m.ver (m.node x).left)
    (hr : m'.ver (m.node x).right = m.ver (m.node x).right) : Fine m' x := by
  obtain ⟨⟨a, s, ps, he, hsum⟩, h₁, h₂⟩ := h
  unfold Fine Mirrors
  rw [hs.key, hs.left, hs.right, hv, hl, hr]
  exact ⟨⟨a, s, ps, he, hsum⟩, h₁, h₂⟩

variable [LinearOrder K] {cfg : Cfg K V} {k : K}

theorem VerInv.fine_leaf (hV : VerInv cfg m) (hc : Closed m) (hx : x < m.next)
    (hl : (m.node x).left = 0) : Fine m x := by
  obtain ⟨a, s, ps, hv⟩ := hV.leaf x hx hl
  have hr := hc.leaf x hx hl
  refine ⟨⟨a, s, ps, ?_, fun h => absurd hl h⟩, fun h => absurd hl h, fun h => absurd hr h⟩
  rw [hv, hl, hr]
  rfl

/-- **What is left to do for `propagate`**: a node of the tree has no version, or it is fine, or it
is on the path of the key and not yet refreshed. -/
def Progress (cfg : Cfg K V) (m : Mem K V) (k : K) (set : List ℕ) : Prop :=
  ∀ x, Live m x → (m.node x).version = .nil ∨ Fine m x ∨ (OnPath cfg m k x ∧ x ∉ set)

theorem Progress.of_same {set : List ℕ} (h : Progress cfg m k set) (hs : SameNodes m m')
    (hv : ∀ x, (m'.node x).version = (m.node x).version) : Progress cfg m' k set := by
  have hver : ∀ x, m'.ver x = m.ver x := fun x => by unfold Mem.ver; rw [hv]
  intro x hx
  rcases h x (hs.live_iff.mp hx) with hn | hf | ⟨ho, hS⟩
  · exact .inl ((hv x).trans hn)
  · exact .inr (.inl (hf.congr (hs.same x) (hv x) (hver _) (hver _)))
  · exact .inr (.inr ⟨hs.onPath_iff.mpr ho, hS⟩)

/-- **An SCX of an update leaves only the path of its key to be refreshed.** -/
theorem Progress.swing {t : LTree (Cell K V)} {rec : ScxRecord K V} {old : Patch (Cell K V) ℕ}
    {e : Effect V} (h : Progress cfg m k []) (hB : Base cfg m t) (hV : VerInv cfg m)
    (hc : Commit cfg m rec old k e) (ho : OnPath cfg m k (rec.nth 0)) :
    Progress cfg (m.swing rec) k [] := by
  have hT := hB.tree
  obtain ⟨-, t', hT', -⟩ := hc.swing hT
  have hl := Later.swing hc hT hB.closed
  have hclosed := hB.closed.swing hc hT
  have hV' := hV.swing hB hc
  have hver : ∀ y < m.next, (m.swing rec).ver y = m.ver y := fun y hy => by
    unfold Mem.ver
    rw [hc.swing_version hy]
  intro x hx
  rcases hc.lt_next_cases (hT'.live_lt hx) with hlt | ⟨j, hj, rfl⟩
  · rcases h x (hl.live x hlt hx) with hn | hf | ⟨hox, hS⟩
    · exact .inl ((hc.swing_version hlt).trans hn)
    · by_cases hu : x = rec.nth 0
      · subst hu
        exact .inr (.inr ⟨hc.onPath_self hT ho, nofun⟩)
      · have he := Mem.swing_of_ne hlt hu
        exact .inr (.inl (hf.congr (.rfl' he) (by rw [he])
          (hver _ (hB.closed.left_lt x hlt)) (hver _ (hB.closed.right_lt x hlt))))
    · exact .inr (.inr ⟨hl.onPath k x hox hx, hS⟩)
  · cases hc.firstVersion hT hj with
    | leaf a s hl0 => exact .inr (.inl (hV'.fine_leaf hclosed (hT'.live_lt hx) hl0))
    | bare _ hv => exact .inl hv
    | pair a l r hl' hr' hl0 hr0 hll hrl hv =>
        have hlv := (hV'.fine_leaf hclosed (hl' ▸ hclosed.left_lt _ (hT'.live_lt hx)) hll).1
        have hrv := (hV'.fine_leaf hclosed (hr' ▸ hclosed.right_lt _ (hT'.live_lt hx)) hrl).1
        have hfine : Fine (m.swing rec) (m.next + j) := by
          unfold Fine Mirrors
          rw [hl', hr', Mem.ver_of_ne _ hl0, Mem.ver_of_ne _ hr0]
          refine ⟨⟨a, _, 0, hv, fun _ => rfl⟩, fun _ => ?_, fun _ => ?_⟩
          · obtain ⟨_, _, _, he, -⟩ := hlv
            rw [he]
            exact nofun
          · obtain ⟨_, _, _, he, -⟩ := hrv
            rw [he]
            exact nofun
        exact .inr (.inl hfine)

/-! ### Runs of a refresh -/

section Frames

variable {var : Variant} {ps : ℕ} {f g : Frame K} {cs : List (Frame K)} {res : FrameResult K}

omit [LinearOrder K] in
/-- What a refresh of a node does to the versions, apart from the one it installs: versions that are
missing are filled in, and nothing else changes. -/
structure Filled (m m' : Mem K V) : Prop where
  same : SameNodes m m'
  kept : ∀ y, (m.node y).version ≠ .nil → (m'.node y).version = (m.node y).version
  filled : ∀ y, (m.node y).version = .nil → (m'.node y).version = .nil ∨ Fine m' y

omit [LinearOrder K] in
theorem Filled.ver_eq (h : Filled m m') (hy : y ≠ 0 → m.ver y ≠ .nil) : m'.ver y = m.ver y := by
  by_cases h0 : y = 0
  · subst h0
    rfl
  · have hy := hy h0
    rw [Mem.ver_of_ne _ h0] at hy
    rw [Mem.ver_of_ne _ h0, Mem.ver_of_ne _ h0, h.kept y hy]

omit [LinearOrder K] in
theorem Fine.version_ne (h : Fine m x) : (m.node x).version ≠ .nil := by
  obtain ⟨a, s, ps, he, -⟩ := h.1
  rw [he]
  exact nofun

omit [LinearOrder K] in
/-- Fine nodes stay fine. -/
theorem Fine.filled (h : Fine m x) (hf : Filled m m') : Fine m' x :=
  h.congr (hf.same.same x) (hf.kept x h.version_ne) (hf.ver_eq h.2.1) (hf.ver_eq h.2.2)

omit [LinearOrder K] in
theorem Filled.refl (m : Mem K V) : Filled m m :=
  ⟨(Quiet.refl m).toSameNodes, fun _ _ => rfl, fun _ h => .inl h⟩

omit [LinearOrder K] in
theorem Filled.trans {m'' : Mem K V} (h : Filled m m') (h' : Filled m' m'') : Filled m m'' where
  same := h.same.trans h'.same
  kept := fun y hy => by
    have hk := h.kept y hy
    rw [h'.kept y (hk ▸ hy), hk]
  filled := fun y hy => by
    rcases h.filled y hy with hn | hf
    · exact h'.filled y hn
    · exact .inr (hf.filled h')

/-- **Steps of a refresh of a thread that runs alone.** -/
inductive FrameRun (var : Variant) (ps : ℕ) :
    Mem K V → Frame K → List (Frame K) → Mem K V → FrameResult K → Prop
  | refl (m : Mem K V) (f : Frame K) (cs : List (Frame K)) : FrameRun var ps m f cs m (.run f cs)
  | last {m m' : Mem K V} {f : Frame K} {cs : List (Frame K)} {vs : List (Ver K)}
      {res : FrameResult K} (h : stepFrame var m ps f cs = (m', vs, res)) :
      FrameRun var ps m f cs m' res
  | step {m m₁ m' : Mem K V} {f f₁ : Frame K} {cs cs₁ : List (Frame K)} {vs : List (Ver K)}
      {res : FrameResult K} (h : stepFrame var m ps f cs = (m₁, vs, .run f₁ cs₁))
      (hr : FrameRun var ps m₁ f₁ cs₁ m' res) : FrameRun var ps m f cs m' res

theorem FrameRun.trans {m₁ : Mem K V} {f₁ : Frame K} {cs₁ : List (Frame K)}
    (h : FrameRun var ps m f cs m₁ (.run f₁ cs₁)) (h' : FrameRun var ps m₁ f₁ cs₁ m' res) :
    FrameRun var ps m f cs m' res := by
  obtain ⟨r, hr⟩ : ∃ r, r = FrameResult.run f₁ cs₁ := ⟨_, rfl⟩
  rw [← hr] at h
  induction h with
  | refl =>
      cases hr
      exact h'
  | last he =>
      subst hr
      exact .step he h'
  | step he _ ih => exact .step he (ih h' hr)

/-- Where the thread is after these steps. -/
def afterFrame (cfg : Cfg K V) (cl : Climb K V) (r : ℕ) (again : Bool) : FrameResult K → PC K V
  | .run f cs => .refresh cl r again f cs
  | .ret ok curps => refreshed cfg cl r again ok curps

theorem FrameRun.runs {cl : Climb K V} (h : FrameRun cfg.variant cl.ps m f cs m' res) (r : ℕ)
    (again : Bool) : ∃ vs, Runs cfg m (.refresh cl r again f cs) m'
      (afterFrame cfg { cl with toRetire := vs } r again res) := by
  obtain ⟨ps, hps⟩ : ∃ ps, ps = cl.ps := ⟨_, rfl⟩
  rw [← hps] at h
  induction h generalizing cl with
  | refl => exact ⟨cl.toRetire, .refl ..⟩
  | @last m m' f cs vs res he =>
      refine ⟨cl.toRetire ++ vs, .single ?_⟩
      rw [hps] at he
      cases res <;> simp only [exec, execPropagate, he, afterFrame]
  | @step m m₁ _ f f₁ cs cs₁ vs _ he _ ih =>
      rw [hps] at he
      obtain ⟨vs', hr⟩ := @ih { cl with toRetire := cl.toRetire ++ vs } hps
      refine ⟨vs', .step ?_ hr⟩
      simp only [exec, execPropagate, he]

/-! ### Filling in the versions below a node -/

/-- The version of `y` is there, or a nested refresh fills it in. -/
def Supplies (var : Variant) (ps : ℕ) (m : Mem K V) (y : ℕ) (m' : Mem K V) : Prop :=
  ((m.node y).version ≠ .nil ∧ m' = m) ∨
    ((m.node y).version = .nil ∧
      ∀ cs, FrameRun var ps m (.start var y false) cs m' (.pop cs true 0))

/-- The left child and its version are read. -/
theorem Supplies.readLeft (h : Supplies var ps m (m.node g.x).left m') (hs : SameNodes m m') :
    FrameRun var ps m { g with pos := .loadLeft } cs m'
      (.run { g with
        left1 := (m.node g.x).left
        leftver := (m'.node (m.node g.x).left).version
        pos := .loadRight } cs) := by
  obtain ⟨g₁, hg⟩ : ∃ g₁, g₁ = { g with left1 := (m.node g.x).left } := ⟨_, rfl⟩
  have hload : stepFrame var m ps { g with pos := .loadLeft } cs =
      (m, [], .run { g₁ with pos := .loadLeftVer } cs) := by
    rw [hg]
    rfl
  have hreload : stepFrame var m' ps { g₁ with pos := .reloadLeftVer } cs =
      (m', [], .run { g₁ with leftver := (m'.node g₁.left1).version, pos := .testLeft } cs) := rfl
  have htest : FrameRun var ps m'
      { g₁ with leftver := (m'.node g₁.left1).version, pos := .testLeft } cs m'
      (.run { g₁ with leftver := (m'.node g₁.left1).version, pos := .loadRight } cs) := by
    refine @FrameRun.last _ _ _ _ _ _ _ _ _ [] _ ?_
    simp only [stepFrame, hg, (hs.same g.x).left, if_true]
  have hrun : FrameRun var ps m { g₁ with pos := .loadLeftVer } cs m'
      (.run { g₁ with leftver := (m'.node g₁.left1).version, pos := .loadRight } cs) := by
    rw [← show g₁.left1 = (m.node g.x).left by rw [hg]] at h
    rcases h with ⟨hv, rfl⟩ | ⟨hv, hcall⟩
    · by_cases hvar : var = .bat
      · have hthere : stepFrame var m' ps { g₁ with pos := .loadLeftVer } cs = (m', [],
            .run { g₁ with leftver := (m'.node g₁.left1).version, pos := .testLeft } cs) := by
          simp only [stepFrame, isNil_iff, if_neg hv, if_pos hvar]
        exact .step hthere htest
      · have hthere : stepFrame var m' ps { g₁ with pos := .loadLeftVer } cs =
            (m', [], .run { g₁ with pos := .reloadLeftVer } cs) := by
          simp only [stepFrame, isNil_iff, if_neg hv, if_neg hvar]
        exact .step hthere (.step hreload htest)
    · have hstart : stepFrame var m ps { g₁ with pos := .loadLeftVer } cs = (m, [],
          .run (.start var g₁.left1 false) ({ g₁ with pos := .reloadLeftVer } :: cs)) := by
        simp only [stepFrame, isNil_iff, if_pos hv]
      exact .step hstart ((hcall _).trans (.step hreload htest))
  subst hg
  exact .step hload hrun

/-- The right child and its version are read, if there is one. -/
theorem Supplies.readRight
    (h : (m.node g.x).right ≠ 0 → Supplies var ps m (m.node g.x).right m')
    (h0 : (m.node g.x).right = 0 → m' = m) :
    FrameRun var ps m { g with pos := .loadRight } cs m'
      (.run { g with
        right1 := (m.node g.x).right
        rightver := m'.ver (m.node g.x).right
        pos := .testRight } cs) := by
  by_cases hr : (m.node g.x).right = 0
  · rw [h0 hr, hr]
    refine @FrameRun.last _ _ _ _ _ _ _ _ _ [] _ ?_
    simp only [stepFrame, if_pos hr, Mem.ver_zero]
  · rw [Mem.ver_of_ne _ hr]
    obtain ⟨g₁, hg⟩ : ∃ g₁, g₁ = { g with right1 := (m.node g.x).right } := ⟨_, rfl⟩
    have hload : stepFrame var m ps { g with pos := .loadRight } cs =
        (m, [], .run { g₁ with pos := .loadRightVer } cs) := by
      simp only [stepFrame, if_neg hr, hg]
    have hreload : stepFrame var m' ps { g₁ with pos := .reloadRightVer } cs = (m', [],
        .run { g₁ with rightver := (m'.node g₁.right1).version, pos := .testRight } cs) := rfl
    have hrun : FrameRun var ps m { g₁ with pos := .loadRightVer } cs m'
        (.run { g₁ with rightver := (m'.node g₁.right1).version, pos := .testRight } cs) := by
      have h := h hr
      rw [← show g₁.right1 = (m.node g.x).right by rw [hg]] at h
      rcases h with ⟨hv, rfl⟩ | ⟨hv, hcall⟩
      · by_cases hvar : var = .bat
        · have hthere : stepFrame var m' ps { g₁ with pos := .loadRightVer } cs = (m', [],
              .run { g₁ with rightver := (m'.node g₁.right1).version, pos := .testRight } cs) := by
            simp only [stepFrame, isNil_iff, if_neg hv, if_pos hvar]
          exact .last hthere
        · have hthere : stepFrame var m' ps { g₁ with pos := .loadRightVer } cs =
              (m', [], .run { g₁ with pos := .reloadRightVer } cs) := by
            simp only [stepFrame, isNil_iff, if_neg hv, if_neg hvar]
          exact .step hthere (.last hreload)
      · have hstart : stepFrame var m ps { g₁ with pos := .loadRightVer } cs = (m, [],
            .run (.start var g₁.right1 false) ({ g₁ with pos := .reloadRightVer } :: cs)) := by
          simp only [stepFrame, isNil_iff, if_pos hv]
        exact .step hstart ((hcall _).trans (.last hreload))
    subst hg
    exact .step hload hrun

omit [LinearOrder K] in
/-- What a refresh needs of the nodes: pointers stay inside, there are no cycles, and leaves have
versions. -/
structure Ground (m : Mem K V) : Prop where
  closed : Closed m
  acyclic : ∀ x < m.next, ∀ y, Edge m x y → ¬ Relation.ReflTransGen (Edge m) y x
  leaf : ∀ x < m.next, (m.node x).left = 0 → (m.node x).version ≠ .nil

omit [LinearOrder K] in
theorem Ground.filled (h : Ground m) (hf : Filled m m') : Ground m' where
  closed := hf.same.closed h.closed
  acyclic := fun x hx => by
    rw [hf.same.edge_eq]
    exact h.acyclic x (hf.same.next ▸ hx)
  leaf := fun x hx hl => by
    have hv := h.leaf x (hf.same.next ▸ hx) ((hf.same.same x).left ▸ hl)
    rwa [hf.kept x hv]

omit [LinearOrder K] in
/-- What filling in the versions below `x` does: nothing changes that cannot be reached from `x`. -/
structure FilledBelow (x : ℕ) (m m' : Mem K V) : Prop extends Filled m m' where
  outside : ∀ y, ¬ Relation.ReflTransGen (Edge m) x y →
    (m'.node y).version = (m.node y).version

omit [LinearOrder K] in
theorem FilledBelow.of_edge {z : ℕ} (h : FilledBelow y m m') (he : Edge m x y)
    (hz : ¬ Relation.ReflTransGen (Edge m) x z) : (m'.node z).version = (m.node z).version :=
  h.outside z fun hr => hz (.head he hr)

omit [LinearOrder K] in
/-- The call has read the children and their versions. -/
def Frame.took (f : Frame K) (m : Mem K V) : Frame K :=
  { f with
    left1 := (m.node f.x).left
    leftver := m.ver (m.node f.x).left
    right1 := (m.node f.x).right
    rightver := m.ver (m.node f.x).right }

omit [LinearOrder K] in
/-- A new version of a node does not change those of its children. -/
theorem install_ver {v : Ver K} (hne : ∀ y, Edge m x y → y ≠ x)
    (hy : (m.node x).left = y ∨ (m.node x).right = y) : (m.install x v).ver y = m.ver y := by
  by_cases h0 : y = 0
  · rw [h0, Mem.ver_zero, Mem.ver_zero]
  · rw [Mem.ver_of_ne _ h0, Mem.ver_of_ne _ h0, install_version_of_ne _ _ _ (hne y ⟨h0, hy⟩)]

omit [LinearOrder K] in
theorem took_install {v : Ver K} (hv : v ≠ .nil) (hne : ∀ y, Edge m f.x y → y ≠ f.x) :
    f.took (m.install f.x v) = f.took m := by
  have hs := (Quiet.install m f.x hv).same f.x
  unfold Frame.took
  rw [hs.left, hs.right, install_ver hne (.inl rfl), install_ver hne (.inr rfl)]

omit [LinearOrder K] in
/-- The version that a refresh then installs makes the node fine. -/
theorem Fine.install (hne : ∀ y, Edge m f.x y → y ≠ f.x)
    (hl : m.ver (m.node f.x).left ≠ .nil)
    (hr : (m.node f.x).right ≠ 0 → m.ver (m.node f.x).right ≠ .nil) :
    Fine (m.install f.x ((f.took m).newVer m ps)) f.x := by
  have hnew : (f.took m).newVer m ps ≠ .nil := nofun
  have hs := (Quiet.install m f.x hnew).same f.x
  unfold Fine Mirrors
  rw [hs.left, hs.right, hs.key, install_ver hne (.inl rfl), install_ver hne (.inr rfl),
    install_version_self]
  exact ⟨⟨_, _, _, rfl, fun _ => rfl⟩, fun _ => hl, hr⟩

omit [LinearOrder K] in
theorem Filled.install {v : Ver K} (hv : v ≠ .nil) (hn : (m.node x).version = .nil)
    (hf : Fine (m.install x v) x) : Filled m (m.install x v) where
  same := (Quiet.install m x hv).toSameNodes
  kept := fun y hy => install_version_of_ne _ _ _ fun h => hy (h ▸ hn)
  filled := fun y hy => by
    by_cases hyx : y = x
    · exact .inr (hyx ▸ hf)
    · exact .inl ((install_version_of_ne _ _ _ hyx).trans hy)

/-- A refresh of the node `x` reads its children, once they have versions. -/
def ReadsBoth (var : Variant) (ps : ℕ) (x : ℕ) (m m' : Mem K V) : Prop :=
  ∀ (f : Frame K) (cs : List (Frame K)), f.x = x →
    FrameRun var ps m { f with pos := .loadLeft } cs m'
      (.run { f.took m' with pos := .testRight } cs)

/-- The children can be read one after the other. -/
theorem reads_of_supplies {m₁ : Mem K V} (hin : (m.node x).left ≠ 0)
    (hl : Supplies var ps m (m.node x).left m₁) (hlf : Filled m m₁)
    (hlv : m₁.ver (m.node x).left ≠ .nil)
    (hr : (m.node x).right ≠ 0 → Supplies var ps m₁ (m.node x).right m')
    (h0 : (m.node x).right = 0 → m' = m₁) (hrf : Filled m₁ m') : ReadsBoth var ps x m m' := by
  intro f cs hf
  subst hf
  have hleft : FrameRun var ps m { f with pos := .loadLeft } cs m₁ _ := hl.readLeft hlf.same
  rw [← Mem.ver_of_ne _ hin, ← hrf.ver_eq fun _ => hlv] at hleft
  have hright := @Supplies.readRight _ _ m₁ m' _ var ps
    { f with left1 := (m.node f.x).left, leftver := m'.ver (m.node f.x).left } cs
  simp only [(hlf.same.same f.x).right] at hright
  have hrun := hleft.trans (hright hr h0)
  have hs := (hlf.trans hrf).same.same f.x
  rwa [← hs.left, ← hs.right] at hrun

/-- What a nested refresh of `x` achieves. -/
def FillsIn (var : Variant) (ps : ℕ) (x : ℕ) (m : Mem K V) : Prop :=
  ∃ m', (∀ cs, FrameRun var ps m (.start var x false) cs m' (.pop cs true 0)) ∧
    FilledBelow x m m' ∧ Fine m' x

/-- The version of a child is supplied. -/
theorem supplies (hy : y ≠ 0) (h : (m.node y).version = .nil → FillsIn var ps y m) :
    ∃ m', Supplies var ps m y m' ∧ FilledBelow y m m' ∧ m'.ver y ≠ .nil := by
  by_cases hv : (m.node y).version = .nil
  · obtain ⟨m', hrun, hf, hfine⟩ := h hv
    exact ⟨m', .inr ⟨hv, hrun⟩, hf, (Mem.ver_of_ne m' hy).symm ▸ hfine.version_ne⟩
  · exact ⟨m, .inl ⟨hv, rfl⟩, ⟨.refl m, fun _ _ => rfl⟩, (Mem.ver_of_ne m hy).symm ▸ hv⟩

/-- The versions of the children of an internal node are supplied, and its own does not change. -/
theorem reads (hG : Ground m) (hx : x < m.next) (hin : (m.node x).left ≠ 0)
    (h : ∀ (y : ℕ) (m' : Mem K V), Edge m x y → Filled m m' → (m'.node y).version = .nil →
      FillsIn var ps y m') :
    ∃ m', ReadsBoth var ps x m m' ∧ Filled m m' ∧ m'.ver (m.node x).left ≠ .nil ∧
      ((m.node x).right ≠ 0 → m'.ver (m.node x).right ≠ .nil) ∧
      (m'.node x).version = (m.node x).version ∧
      ∀ y, ¬ Relation.ReflTransGen (Edge m) x y → (m'.node y).version = (m.node y).version := by
  have hel : Edge m x (m.node x).left := ⟨hin, .inl rfl⟩
  obtain ⟨m₁, hsl, hfl, hlv⟩ := supplies hin (h _ m hel (.refl m))
  have hxl := hfl.outside x (hG.acyclic x hx _ hel)
  by_cases hr : (m.node x).right = 0
  · exact ⟨m₁, reads_of_supplies hin hsl hfl.toFilled hlv (absurd hr) (fun _ => rfl) (.refl m₁),
      hfl.toFilled, hlv, absurd hr, hxl, fun y hy => hfl.of_edge hel hy⟩
  · have her : Edge m x (m.node x).right := ⟨hr, .inr rfl⟩
    obtain ⟨m', hsr, hfr, hrv⟩ := supplies hr (h _ m₁ her hfl.toFilled)
    have hout : ∀ y, ¬ Relation.ReflTransGen (Edge m) (m.node x).right y →
        (m'.node y).version = (m₁.node y).version := fun y hy =>
      hfr.outside y (by rwa [hfl.same.edge_eq])
    refine ⟨m', reads_of_supplies hin hsl hfl.toFilled hlv (fun _ => hsr) (absurd · hr)
      hfr.toFilled, hfl.toFilled.trans hfr.toFilled, ?_, fun _ => hrv,
      (hout x (hG.acyclic x hx _ her)).trans hxl, fun y hy => ?_⟩
    · rwa [hfr.ver_eq fun _ => hlv]
    · exact (hout y fun h => hy (.head her h)).trans (hfl.of_edge hel hy)

/-- **From the first load of a child to the CAS, which succeeds.** -/
theorem runs_pass (hG : Ground m) (hx : f.x < m.next) (hin : (m.node f.x).left ≠ 0)
    (hold : f.oldVer = (m.node f.x).version) (hprev : f.prev = none)
    (h : ∀ (y : ℕ) (m' : Mem K V), Edge m f.x y → Filled m m' → (m'.node y).version = .nil →
      FillsIn var ps y m') :
    ∃ m₁ v, v ≠ .nil ∧ Filled m m₁ ∧ Fine (m₁.install f.x v) f.x ∧
      (m₁.node f.x).version = (m.node f.x).version ∧ f.took (m₁.install f.x v) = f.took m₁ ∧
      (∀ y, ¬ Relation.ReflTransGen (Edge m) f.x y →
        (m₁.node y).version = (m.node y).version) ∧
      ∀ cs, FrameRun var ps m { f with pos := .loadLeft } cs (m₁.install f.x v)
        (if var = .eagerDel ∧ f.main then
          .run { f.took m₁ with
            oldVer := v
            prev := some ((f.took m₁).leftver, (f.took m₁).rightver)
            pos := .loadLeft } cs
        else .pop cs true (if f.main then ps else 0)) := by
  obtain ⟨m₁, hreads, hf, hl, hr, hsame, hout⟩ := reads hG hx hin h
  have hs := hf.same.same f.x
  have hne : ∀ y, Edge m₁ f.x y → y ≠ f.x := fun y he h =>
    hG.acyclic _ hx y (hf.same.edge_eq ▸ he) (h ▸ .refl)
  have hfine : Fine (m₁.install f.x ((f.took m₁).newVer m₁ ps)) f.x :=
    Fine.install hne (hs.left ▸ hl) (hs.right ▸ hr)
  refine ⟨m₁, (f.took m₁).newVer m₁ ps, nofun, hf, hfine, hsame, took_install nofun hne, hout,
    fun cs => ?_⟩
  have htest : stepFrame var m₁ ps { f.took m₁ with pos := .testRight } cs =
      (m₁, [], .run { f.took m₁ with pos := .cas } cs) := by
    simp [stepFrame, Frame.took, hprev]
  have hcas : stepFrame var m₁ ps { f.took m₁ with pos := .cas } cs =
      (m₁.install f.x ((f.took m₁).newVer m₁ ps), if f.oldVer.isNil then [] else [f.oldVer],
        if var = .eagerDel ∧ f.main then
          .run { f.took m₁ with
            oldVer := (f.took m₁).newVer m₁ ps
            prev := some ((f.took m₁).leftver, (f.took m₁).rightver)
            pos := .loadLeft } cs
        else .pop cs true (if f.main then ps else 0)) :=
    if_pos (hsame.trans hold.symm)
  exact (hreads f cs rfl).trans (.step htest (.last hcas))

/-- **A nested refresh ends and fills in what is missing below its node.** -/
theorem runs_fill {E : ℕ → ℕ → Prop} (hacc : Acc (fun y x => E x y) x) (hE : Edge m = E)
    (hG : Ground m) (hx : x < m.next) (hv : (m.node x).version = .nil) : FillsIn var ps x m := by
  induction hacc generalizing m with
  | intro x _ ih =>
      subst hE
      have hin : (m.node x).left ≠ 0 := fun h => hG.leaf x hx h hv
      obtain ⟨m₁, v, hv0, hf, hfine, hsame, -, hout, hrun⟩ :=
        @runs_pass _ _ m _ var ps (.start var x false) hG hx hin hv.symm rfl fun y m' he hf hn =>
          ih y he hf.same.edge_eq (hG.filled hf) (hf.same.next ▸ hG.closed.edge_lt hx he) hn
      have hstart : ∀ cs, stepFrame var m ps (.start var x false) cs =
          (m, [], .run { Frame.start var x false with pos := .leafTest } cs) := by
        intro cs
        simp [stepFrame, Frame.start, hv, Ver.isNil]
      have hinner : ∀ cs, stepFrame var m ps { Frame.start var x false with pos := .leafTest } cs =
          (m, [], .run { Frame.start var x false with pos := .loadLeft } cs) := fun cs => if_neg hin
      have hnested : ¬ (var = .eagerDel ∧ (Frame.start (K := K) var x false).main) :=
        fun h => by cases h.2
      simp only [if_neg hnested] at hrun
      refine ⟨m₁.install x v, fun cs => .step (hstart cs) (.step (hinner cs) (hrun cs)),
        ⟨hf.trans (.install hv0 (hsame.trans hv) hfine), fun y hy => ?_⟩, hfine⟩
      have hyx : y ≠ x := fun h => hy (h ▸ .refl)
      rw [install_version_of_ne _ _ _ hyx, hout y hy]

/-! ### The refresh called by `propagate` -/

/-- The call comes to the first load of a child: it has the version that its CAS expects. -/
theorem runs_start (hacc : Acc (fun y x => Edge m x y) x) (hG : Ground m) (hx : x < m.next)
    (hin : (m.node x).left ≠ 0) :
    ∃ m₁, Filled m m₁ ∧ FrameRun var ps m (.start var x true) [] m₁
      (.run { Frame.start var x true with
        oldVer := (m₁.node x).version
        pos := .loadLeft } []) := by
  have hinner : ∀ (m₁ : Mem K V) (v : Ver K), SameNodes m m₁ →
      stepFrame var m₁ ps { Frame.start var x true with oldVer := v, pos := .leafTest } [] =
        (m₁, [], .run { Frame.start var x true with oldVer := v, pos := .loadLeft } []) :=
    fun m₁ v hs => if_neg ((hs.same x).left.symm ▸ hin)
  have hreload : ∀ m₁ : Mem K V,
      stepFrame var m₁ ps { Frame.start var x true with pos := .reloadOld } [] =
        (m₁, [], .run { Frame.start var x true with
          oldVer := (m₁.node x).version
          pos := .leafTest } []) := fun m₁ => rfl
  by_cases hvar : var = .eagerDel
  · have hget : ∀ m₁ : Mem K V, Filled m m₁ →
        FrameRun var ps m (.start var x true) [] m₁
          (.run { Frame.start var x true with pos := .reloadOld } []) →
        ∃ m₁, Filled m m₁ ∧ FrameRun var ps m (.start var x true) [] m₁
          (.run { Frame.start var x true with
            oldVer := (m₁.node x).version
            pos := .loadLeft } []) := fun m₁ hf hrun =>
      ⟨m₁, hf, hrun.trans (.step (hreload m₁) (.last (hinner m₁ _ hf.same)))⟩
    by_cases hv : (m.node x).version = .nil
    · obtain ⟨m₁, hrun, hf, -⟩ := @runs_fill _ _ m _ _ var ps _ hacc rfl hG hx hv
      have hcall : stepFrame var m ps (.start var x true) [] = (m, [],
          .run (.start var x false) [{ Frame.start var x true with pos := .reloadOld }]) := by
        simp [stepFrame, Frame.start, hvar, hv, Ver.isNil]
      exact hget m₁ hf.toFilled (.step hcall (hrun _))
    · have hthere : stepFrame var m ps (.start var x true) [] =
          (m, [], .run { Frame.start var x true with pos := .reloadOld } []) := by
        simp [stepFrame, Frame.start, hvar, isNil_iff, hv]
      exact hget m (.refl m) (.last hthere)
  · have hload : stepFrame var m ps (.start var x true) [] = (m, [],
        .run { Frame.start var x true with
          oldVer := (m.node x).version
          pos := .leafTest } []) := by
      simp [stepFrame, Frame.start, hvar]
    exact ⟨m, .refl m, .step hload (.last (hinner m _ (Filled.refl m).same))⟩

/-- The children of a fine node can be read as they are. -/
theorem Fine.reads (h : Fine m x) (hin : (m.node x).left ≠ 0) : ReadsBoth var ps x m m := by
  have hsup : ∀ y, y ≠ 0 → m.ver y ≠ .nil → Supplies var ps m y m := fun y hy hv =>
    .inl ⟨Mem.ver_of_ne m hy ▸ hv, rfl⟩
  exact reads_of_supplies hin (hsup _ hin (h.2.1 hin)) (.refl m) (h.2.1 hin)
    (fun hr => hsup _ hr (h.2.2 hr)) (fun _ => rfl) (.refl m)

/-- An eager refresh that reads the same versions again returns. -/
theorem runs_again (h : Fine m f.x) (hin : (m.node f.x).left ≠ 0)
    (hprev : f.prev = some ((f.took m).leftver, (f.took m).rightver)) :
    FrameRun var ps m { f with pos := .loadLeft } [] m (.ret true ps) := by
  have htest : stepFrame var m ps { f.took m with pos := .testRight } [] =
      (m, [], .ret true ps) := (if_pos rfl).trans (if_pos hprev)
  exact (h.reads hin f [] rfl).trans (.last htest)

/-- **A refresh ends**: the version that it installs makes its node fine, and otherwise it only
fills in what is missing. -/
theorem runs_refresh (hacc : Acc (fun y x => Edge m x y) x) (hG : Ground m) (hx : x < m.next)
    (hin : (m.node x).left ≠ 0) :
    ∃ m₁ v, v ≠ .nil ∧ Filled m m₁ ∧ Fine (m₁.install x v) x ∧
      FrameRun var ps m (.start var x true) [] (m₁.install x v) (.ret true ps) := by
  obtain ⟨m₀, hf₀, hstart⟩ := @runs_start _ _ m _ _ var ps hacc hG hx hin
  obtain ⟨f, hf⟩ : ∃ f : Frame K,
      f = { Frame.start var x true with oldVer := (m₀.node x).version } := ⟨_, rfl⟩
  have hfx : f.x = x := by rw [hf]; rfl
  have hmain : f.main = true := by rw [hf]; rfl
  have hold : f.oldVer = (m₀.node f.x).version := by rw [hf]; rfl
  have hprev : f.prev = none := by rw [hf]; rfl
  have hstart : FrameRun var ps m (.start var x true) [] m₀
      (.run { f with pos := .loadLeft } []) := by
    subst hf
    exact hstart
  have hG₀ := hG.filled hf₀
  have hacc₀ : ∀ y, Edge m₀ x y → Acc (fun y x => Edge m₀ x y) y := by
    rw [hf₀.same.edge_eq]
    exact fun y he => hacc.inv he
  have hx₀ : x < m₀.next := hf₀.same.next ▸ hx
  obtain ⟨m₁, v, hv, hf₁, hfine, -, htook, -, hrun⟩ :=
    @runs_pass _ _ m₀ _ var ps f hG₀ (hfx ▸ hx₀) (by rwa [hfx, (hf₀.same.same x).left])
      hold hprev fun y m' he hf' hn =>
        runs_fill (hacc₀ y (hfx ▸ he)) hf'.same.edge_eq (hG₀.filled hf')
          (hf'.same.next ▸ hG₀.closed.edge_lt hx₀ (hfx ▸ he)) hn
  have hrun := hrun []
  subst hfx
  refine ⟨m₁, v, hv, hf₀.trans hf₁, hfine, hstart.trans ?_⟩
  by_cases hvar : var = .eagerDel
  · -- the second reading finds the versions of the first one
    rw [if_pos ⟨hvar, hmain⟩] at hrun
    have hin' : ((m₁.install f.x v).node f.x).left ≠ 0 := by
      rwa [((Quiet.install m₁ f.x hv).same f.x).left, ((hf₀.trans hf₁).same.same f.x).left]
    have hagain := @runs_again _ _ (m₁.install f.x v) _ var ps { f.took m₁ with
      oldVer := v
      prev := some ((f.took m₁).leftver, (f.took m₁).rightver) } hfine hin' (by
        rw [← htook]
        rfl)
    exact hrun.trans hagain
  · rwa [if_neg fun h => hvar h.1, if_pos hmain] at hrun

end Frames

/-! ### The way up -/

section Propagate

variable {t : LTree (Cell K V)} {set : List ℕ} {r : ℕ} {cl : Climb K V}

/-- A refresh of a node on the path, with the nodes below it refreshed already. -/
theorem Progress.refresh {m₁ : Mem K V} {v : Ver K} (h : Progress cfg m k set) (hB : Base cfg m t)
    (hf : Filled m m₁) (hv : v ≠ .nil) (hfine : Fine (m₁.install r v) r) (hg : Good cfg m k r)
    (hr : ∀ c ∈ set, Live m c → Route cfg m k r c) :
    Progress cfg (m₁.install r v) k (r :: set) := by
  have hq := (Quiet.install m₁ r hv).toSameNodes
  have hver : ∀ y, y ≠ r → (m₁.install r v).ver y = m₁.ver y := fun y hy => by
    unfold Mem.ver
    rw [install_version_of_ne _ _ _ hy]
  intro y hy
  have hlive : Live m y := hf.same.live_iff.mp (hq.live_iff.mp hy)
  have hpath : OnPath cfg m k y → OnPath cfg (m₁.install r v) k y := fun ho =>
    hq.onPath_iff.mpr (hf.same.onPath_iff.mpr ho)
  by_cases hyr : y = r
  · exact .inr (.inl (hyr ▸ hfine))
  · have hfiney : Fine m₁ y → (Fine (m₁.install r v) y ∨ OnPath cfg (m₁.install r v) k y ∧
        y ∉ r :: set) := by
      intro hfy
      by_cases he : Edge m y r
      · -- the parent of the node is on the path, and it is still to be refreshed
        obtain ⟨hoy, hke⟩ := hB.tree.onPath_of_edge hlive he (hg.onPath (hlive.edge he))
        refine .inr ⟨hpath hoy, fun hmem => ?_⟩
        rcases List.mem_cons.mp hmem with h | h
        · exact hyr h
        · exact (hB.acyclic y (hB.tree.live_lt hlive) r he).2 (hr y h hlive).reach
      · have hs := hf.same.same y
        rw [← hf.same.edge_eq] at he
        have hne : ∀ z, (m₁.node y).left = z ∨ (m₁.node y).right = z →
            (m₁.install r v).ver z = m₁.ver z := by
          intro z hz
          by_cases hz0 : z = 0
          · rw [hz0, Mem.ver_zero, Mem.ver_zero]
          · exact hver z fun h => he ⟨h ▸ hz0, h ▸ hz⟩
        exact .inl (hfy.congr (hq.same y) (install_version_of_ne _ _ _ hyr) (hne _ (.inl rfl))
          (hne _ (.inr rfl)))
    rcases h y hlive with hn | hfy | ⟨ho, hset⟩
    · rcases hf.filled y hn with hn | hfy
      · exact .inl ((install_version_of_ne _ _ _ hyr).trans hn)
      · exact .inr (hfiney hfy)
    · exact .inr (hfiney (hfy.filled hf))
    · exact .inr (.inr ⟨hpath ho, fun h => (List.mem_cons.mp h).elim hyr hset⟩)

/-- The nodes of the set have what is below them on the path in the set. -/
def Chained (cfg : Cfg K V) (m : Mem K V) (k : K) (set : List ℕ) : Prop :=
  ∀ x ∈ set, ∀ c, KEdge cfg m k x c → (m.node c).left = 0 ∨ c ∈ set

theorem Chained.of_same (h : Chained cfg m k set) (hs : SameNodes m m') :
    Chained cfg m' k set := by
  intro x hx c hc
  rw [(hs.same c).left]
  exact h x hx c ((KEdge.congr (hs.same x)).mp hc)

theorem Chained.cons (h : Chained cfg m k set)
    (hr : ∀ c, KEdge cfg m k r c → (m.node c).left = 0 ∨ c ∈ set) : Chained cfg m k (r :: set) := by
  intro x hx c hc
  rcases List.mem_cons.mp hx with rfl | hx
  · exact (hr c hc).imp_right (List.mem_cons_of_mem _)
  · exact (h x hx c hc).imp_right (List.mem_cons_of_mem _)

/-- **When the root is refreshed, all nodes are fine.** -/
theorem Progress.fine (h : Progress cfg m k set) (hc : Chained cfg m k set) (hroot : root ∈ set)
    (hB : Base cfg m t) (hV : VerInv cfg m) {x : ℕ} (hx : Live m x) : Fine m x := by
  -- along the tree from the root: the node is fine, and in the set if it is on the path
  suffices hs : Fine m x ∧ (OnPath cfg m k x → (m.node x).left ≠ 0 → x ∈ set) from hs.1
  induction hx with
  | refl =>
      refine ⟨?_, fun _ _ => hroot⟩
      rcases h root .refl with hn | hf | ⟨-, hset⟩
      · obtain ⟨a, s, l, ps, he, -⟩ := hV.top
        exact nomatch he.symm.trans hn
      · exact hf
      · exact absurd hroot hset
  | @tail y z hy he ih =>
      have hz : Live m z := Live.edge hy he
      have hmem : OnPath cfg m k z → (m.node z).left ≠ 0 → z ∈ set := by
        intro ho hin
        obtain ⟨hoy, hke⟩ := hB.tree.onPath_of_edge hy he ho
        exact (hc y (ih.2 hoy hke.1) z hke).resolve_left hin
      refine ⟨?_, hmem⟩
      by_cases hin : (m.node z).left = 0
      · exact hV.fine_leaf hB.closed (hB.tree.live_lt hz) hin
      · rcases h z hz with hn | hf | ⟨ho, hset⟩
        · have hver : m.ver z ≠ .nil := by
            rcases he.2 with rfl | rfl
            · exact ih.1.2.1 he.1
            · exact ih.1.2.2 he.1
          rw [Mem.ver_of_ne m he.1] at hver
          exact absurd hn hver
        · exact hf
        · exact absurd (hmem ho hin) hset

theorem Reachable.ground {s : State K V} (h : Reachable cfg s) : Ground s.mem := by
  obtain ⟨t, hB⟩ := h.inv.base
  refine ⟨hB.closed, fun x hx y he => (hB.acyclic x hx y he).2, fun x hx hl => ?_⟩
  obtain ⟨a, s, ps, he⟩ := h.vInv.mem.leaf x hx hl
  rw [he]
  exact nofun

/-- **The way down ends** at a node with nothing more to refresh below it. -/
theorem runs_down {top : ℕ} {st : List ℕ} (hacc : Acc (fun y x => Edge m x y) top)
    (hst : cl.stack = top :: st) :
    ∃ r st', Runs cfg m (.propChild cl) m
        (.refresh { cl with stack := st' } r false (.start cfg.variant r true) []) ∧
      ∀ c, KEdge cfg m cl.call.key r c → (m.node c).left = 0 ∨ c ∈ cl.set := by
  induction hacc generalizing cl st with
  | intro top _ ih =>
      obtain ⟨c, hc⟩ : ∃ c, c = child cfg m cl.call.key top := ⟨_, rfl⟩
      have hload : exec cfg m (.propChild cl) = (m, .propTest cl c) := by
        simp only [exec, execPropagate, hst, hc]
      by_cases htest : c ≠ 0 ∧ (m.node c).left ≠ 0 ∧ c ∉ cl.set
      · have hpush : exec cfg m (.propTest cl c) =
            (m, .propChild { cl with stack := c :: cl.stack }) := by
          simp only [exec, execPropagate, if_pos htest]
        have he : Edge m top c := by
          refine ⟨htest.1, ?_⟩
          rw [hc, child]
          split_ifs
          · exact .inl rfl
          · exact .inr rfl
        obtain ⟨r, st', hrun, hr⟩ := @ih c he { cl with stack := c :: cl.stack } cl.stack rfl
        exact ⟨r, st', .step hload (.step hpush hrun), hr⟩
      · refine ⟨top, st, .step hload (.single ?_), fun c' hc' => ?_⟩
        · simp only [exec, execPropagate, if_neg htest, hst]
        · obtain rfl : c = c' := hc.trans hc'.2.1
          by_contra hno
          rw [not_or] at hno
          exact htest ⟨hc'.2.2, hno⟩

/-- What `propagate` has achieved when it leaves its loop. -/
structure ClimbDone (cfg : Cfg K V) (m : Mem K V) (cl : Climb K V) (m' : Mem K V)
    (cl' : Climb K V) : Prop where
  call : cl'.call = cl.call
  same : SameNodes m m'
  progress : Progress cfg m' cl.call.key cl'.set
  chained : Chained cfg m' cl.call.key cl'.set
  root : root ∈ cl'.set

/-- **The loop of `propagate` ends.** -/
theorem runs_climb (n : ℕ) (hn : ((Finset.range m.next).filter (· ∉ cl.set)).card = n)
    (hr : Reachable cfg (solo m (.propChild cl))) (hp : Progress cfg m cl.call.key cl.set)
    (hc : Chained cfg m cl.call.key cl.set) :
    ∃ m' cl', ClimbDone cfg m cl m' cl' ∧ Runs cfg m (.propChild cl) m'
      (if cfg.variant = .bat then .retire cl' cl'.toRetire else .setDone cl') := by
  induction n using Nat.strong_induction_on generalizing m cl with
  | _ n ih =>
      have hI := hr.inv
      obtain ⟨t, hB⟩ : ∃ t, Base cfg m t := hI.base
      have hcl := (hI.pcs 0 : ClimbOk cfg m cl cl.stack)
      obtain ⟨top, st, hst⟩ : ∃ top st, cl.stack = top :: st :=
        List.exists_cons_of_ne_nil fun h => by simpa [h] using hcl.stack.last
      obtain ⟨r, st', hdown, hbelow⟩ := runs_down (hB.acc (hcl.stack.lt top (by simp [hst]))) hst
      have hcl' : ClimbOk cfg m { cl with stack := st' } (r :: st') :=
        ((hdown.reachable hr).inv.pcs 0).1
      have hmem : r ∈ r :: st' := List.mem_cons_self
      have hlt := hcl'.stack.lt r hmem
      obtain ⟨m₁, v, hv, hf, hfine, hframe⟩ := @runs_refresh _ _ m r _ cfg.variant cl.ps
        (hB.acc hlt) hr.ground hlt (hcl'.stack.internal r hmem)
      have hq := (Quiet.install m₁ r hv).toSameNodes
      have hs : SameNodes m (m₁.install r v) := hf.same.trans hq
      obtain ⟨vs, hrun⟩ :=
        @FrameRun.runs _ _ _ _ _ cfg _ _ _ { cl with stack := st' } hframe r false
      have hins : afterFrame cfg { cl with stack := st', toRetire := vs } r false
        (.ret true cl.ps) =
          inserted cfg { cl with stack := st', toRetire := vs } r := by
        simp only [afterFrame, refreshed]
        cases cfg.variant <;> simp
      rw [hins] at hrun
      have hp' := hp.refresh hB hf hv hfine (hcl'.stack.good hmem) (hcl'.above r hmem)
      have hc' := (hc.cons hbelow).of_same hs
      by_cases hroot : root ∈ r :: cl.set
      · refine ⟨_, { cl with stack := st', toRetire := vs, set := r :: cl.set },
          ⟨rfl, hs, hp', hc', hroot⟩, hdown.trans ?_⟩
        simpa only [inserted, if_pos hroot] using hrun
      · simp only [inserted, if_neg hroot] at hrun
        have hless : ((Finset.range (m₁.install r v).next).filter (· ∉ r :: cl.set)).card < n := by
          rw [hs.next, ← hn]
          refine Finset.card_lt_card ⟨fun y hy => ?_, fun hsub => ?_⟩
          · simp only [Finset.mem_filter, List.mem_cons, not_or] at hy ⊢
            exact ⟨hy.1, hy.2.2⟩
          · have := hsub (Finset.mem_filter.mpr ⟨Finset.mem_range.mpr hlt, hcl'.notMem r hmem⟩)
            simp at this
        obtain ⟨m', cl', hcd, hrest⟩ := @ih _ hless (m₁.install r v)
          { cl with stack := st', toRetire := vs, set := r :: cl.set } rfl
          ((hdown.trans hrun).reachable hr) hp' hc'
        exact ⟨m', cl', ⟨hcd.call, hs.trans hcd.same, hcd.progress, hcd.chained, hcd.root⟩,
          (hdown.trans hrun).trans hrest⟩

omit [LinearOrder K] in
theorem sameNodes_status (st : ℕ → PropagateStatus) (n : ℕ) :
    SameNodes m { m with status := st, nextStatus := n } :=
  ⟨fun _ => .rfl' rfl, rfl, le_rfl⟩

theorem runs_retire (cl : Climb K V) (vs : List (Ver K)) :
    Runs cfg m (.retire cl vs) m (.ret cl.call) := by
  induction vs with
  | nil => exact .single rfl
  | cons v vs ih =>
      have hnext : exec cfg m (.retire cl (v :: vs)) = (m, .retire cl vs) := rfl
      exact .step hnext ih

/-- **`propagate` ends, and then all nodes are fine.** -/
theorem runs_propagate {c : Call K V} (hr : Reachable cfg (solo m (.propStart c)))
    (hp : Progress cfg m c.key []) :
    ∃ m', Runs cfg m (.propStart c) m' (.ret c) ∧ SameNodes m m' ∧ ∀ x, Live m' x → Fine m' x := by
  obtain ⟨m₀, ps, hs₀, hnode, hstart⟩ : ∃ m₀ ps, SameNodes m m₀ ∧ m₀.node = m.node ∧
      exec cfg m (.propStart c) = (m₀, .propChild ⟨c, c.stack, [], [], ps⟩) := by
    by_cases hvar : cfg.variant = .bat
    · refine ⟨m, 0, (Quiet.refl m).toSameNodes, rfl, ?_⟩
      simp only [exec, execPropagate, if_pos hvar]
    · refine ⟨{ m with
          status := Function.update m.status m.nextStatus ⟨0, false⟩
          nextStatus := m.nextStatus + 1 }, m.nextStatus,
        sameNodes_status _ _, rfl, ?_⟩
      simp only [exec, execPropagate, if_neg hvar]
  have hr₀ := (Runs.single hstart).reachable hr
  obtain ⟨m₁, cl, hcd, hrun⟩ := runs_climb _ rfl hr₀ (hp.of_same hs₀ fun x => by rw [hnode])
    (by intro _ h; cases h)
  have hr₁ := hrun.reachable hr₀
  have hfine : ∀ x, Live m₁ x → Fine m₁ x := by
    obtain ⟨t, hB⟩ : ∃ t, Base cfg m₁ t := hr₁.inv.base
    exact fun x => hcd.progress.fine hcd.chained hcd.root hB hr₁.vInv.mem
  have hcall : cl.call = c := hcd.call
  by_cases hvar : cfg.variant = .bat
  · rw [if_pos hvar] at hrun
    exact ⟨m₁, .step hstart (hrun.trans (hcall ▸ runs_retire cl _)), hs₀.trans hcd.same, hfine⟩
  · rw [if_neg hvar] at hrun
    have hdone : exec cfg m₁ (.setDone cl) = ({ m₁ with
        status := Function.update m₁.status cl.ps { m₁.status cl.ps with done := true } },
        .retire cl cl.toRetire) := rfl
    have hret : Runs cfg _ (.retire cl cl.toRetire) { m₁ with
        status := Function.update m₁.status cl.ps { m₁.status cl.ps with done := true } }
        (.ret cl.call) := runs_retire cl _
    rw [hcall] at hret
    exact ⟨_, .step hstart (hrun.trans (.step hdone hret)),
      (hs₀.trans hcd.same).trans (sameNodes_status _ _), hfine⟩

end Propagate

end Cbat
