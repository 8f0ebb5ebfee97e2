/-
**What a rebalancing step keeps.**

A rule moves and recolours nodes.  It keeps the contents of the leaves in their order, the search
order, and the weight of all paths, except that the whole tree may become lighter or heavier at its
top.

Main definitions:

* `Cbat.Chromatic.Item.contents` — the key and the value of a leaf;
* `Cbat.Chromatic.Separated` — **the search order**: an internal key is above the keys of the leaves
  to its left, and not above those to its right.

Main results:

* `Cbat.Chromatic.StepAt.contents_eq`, `Cbat.Chromatic.StepAt.within`,
  `Cbat.Chromatic.StepAt.valid` — a step keeps the leaves, the order and the weight invariant;
* `Cbat.Chromatic.rebalancing_keeps_contents` — **rebalancing keeps the contents and the order**;
* `Cbat.Chromatic.rebalancing_never_stuck` — **rebalancing is never stuck on a valid tree**.
-/

import Cbat.Chromatic.Steps

set_option relaxedAutoImplicit false
set_option autoImplicit false

namespace Cbat.Chromatic

variable {K V : Type}

/-! ### Leaves -/

/-- The key and the value. -/
def Item.contents (a : Item K V) : K × V := (a.key, a.value)

@[simp] theorem reweigh_contents (a : Item K V) (w : ℤ) : (a.reweigh w).contents = a.contents := rfl

/-- The contents of the leaves from left to right. -/
def contents (t : Tree K V) : List (K × V) := t.leaves.map Item.contents

@[simp] theorem contents_leaf (a : Item K V) : contents (.leaf a) = [a.contents] := rfl
@[simp] theorem contents_node (a : Item K V) (l r : Tree K V) :
    contents (.node a l r) = contents l ++ contents r := by
  simp [contents]
@[simp] theorem contents_recolor (t : Tree K V) (w : ℤ) : contents (recolor t w) = contents t := by
  cases t <;> simp

theorem contents_flip (t : Tree K V) : contents t.flip = (contents t).reverse := by
  rw [contents, contents, LTree.leaves_flip, List.map_reverse]

section Rules

variable {top : Bool} {way : List Bool} {t t' : Tree K V}

theorem Rule.contents_eq (h : Rule top way t t') : contents t' = contents t := by
  cases h <;> simp

/-- **A rule keeps the leaves.** -/
theorem Rewrites.contents_eq (h : Rewrites top way t t') : contents t' = contents t := by
  rcases h with h | h
  · exact h.contents_eq
  · have := h.contents_eq
    rwa [contents_flip, contents_flip, List.reverse_inj] at this

/-! ### The order -/

section Order

variable [LinearOrder K] {lo : WithBot K} {hi : WithTop K}

@[simp] theorem within_recolor {w : ℤ} :
    (recolor t w).Within Item.key lo hi ↔ t.Within Item.key lo hi := by
  cases t <;> rfl

theorem Rule.within (h : Rule top way t t') (hw : t.Within Item.key lo hi) :
    t'.Within Item.key lo hi := by
  cases h <;> simp only [LTree.within_node, within_recolor, reweigh_key] at hw ⊢ <;> tauto

theorem Rule.within_flip (h : Rule top way t t') (hw : t.flip.Within Item.key lo hi) :
    t'.flip.Within Item.key lo hi := by
  cases h <;> simp only [LTree.flip_node, flip_recolor, LTree.within_node, within_recolor,
    reweigh_key] at hw ⊢ <;> tauto

/-- **A rule keeps the order.** -/
theorem Rewrites.within (h : Rewrites top way t t') (hw : t.Within Item.key lo hi) :
    t'.Within Item.key lo hi := by
  rcases h with h | h
  · exact h.within hw
  · have hm : t.flip.flip.Within Item.key lo hi → t'.flip.flip.Within Item.key lo hi :=
      h.within_flip
    rw [LTree.flip_flip, LTree.flip_flip] at hm
    exact hm hw

end Order

/-! ### The weights -/

/-- **A rule keeps the weights of all paths**, except at the top of the tree. -/
theorem Rule.fits {h : ℤ} (hr : Rule top way t t') (hf : Fits h t) :
    ∃ h', Fits h' t' ∧ (top = false → h' = h) := by
  cases hr with
  | @blk a b c bl br cl cr d ha hb hc hv =>
      obtain ⟨-, ⟨-, hbl, hbr⟩, -, hcl, hcr⟩ := hf
      refine ⟨if top then h + 1 else h, ?_, fun ht => by simp [ht]⟩
      cases top <;> simp only [fits_node, reweigh_weight] <;>
        exact ⟨by simp [ha], ⟨by simp, hbl.of_eq (by simp; omega), hbr.of_eq (by simp; omega)⟩,
          by simp, hcl.of_eq (by simp; omega), hcr.of_eq (by simp; omega)⟩
  | @push a r l rl rr ha hl hr hrl hrr =>
      obtain ⟨ha0, hfl, -, hfrl, hfrr⟩ := hf
      refine ⟨if top then h - a.weight else h, ?_, fun ht => by simp [ht]⟩
      cases top <;> simp only [fits_node, reweigh_weight] <;>
        exact ⟨by simp; try omega, hfl.recolored (by omega) (by simp; try omega), by simp,
          hfrl.of_eq (by simp; omega), hfrr.of_eq (by simp; omega)⟩
  | @w7 a l r ha hl hr =>
      obtain ⟨ha0, hfl, hfr⟩ := hf
      refine ⟨if top then h - a.weight else h, ?_, fun ht => by simp [ht]⟩
      cases top <;> simp only [fits_node, reweigh_weight] <;>
        exact ⟨by simp; try omega, hfl.recolored (by omega) (by simp; try omega),
          hfr.recolored (by omega) (by simp; try omega)⟩
  | _ =>
      -- a rotation: the subtrees below keep the weight above them
      refine ⟨h, ?_, fun _ => rfl⟩
      simp only [fits_node, reweigh_weight] at hf ⊢
      casesm* _ ∧ _
      constructorm* _ ∧ _ <;> first
        | omega
        | (apply Fits.of_eq <;> first | assumption | omega)
        | (apply Fits.recolored <;> first | assumption | omega)

/-- **A rule keeps the weights of all paths.** -/
theorem Rewrites.fits {h : ℤ} (hr : Rewrites top way t t') (hf : Fits h t) :
    ∃ h', Fits h' t' ∧ (top = false → h' = h) := by
  rcases hr with hr | hr
  · exact hr.fits hf
  · obtain ⟨h', hf', htop⟩ := hr.fits (fits_flip.mpr hf)
    exact ⟨h', fits_flip.mp hf', htop⟩

theorem Rule.top_weight (hr : Rule true way t t') (h1 : wt t = 1) : wt t' = 1 := by
  cases hr <;> simp_all

theorem Rewrites.top_weight (hr : Rewrites true way t t') (h1 : wt t = 1) : wt t' = 1 := by
  rcases hr with hr | hr
  · exact hr.top_weight h1
  · have := hr.top_weight (by rwa [wt_flip])
    rwa [wt_flip] at this

/-! ### The keys -/

/-- All keys are other than the one of the sentinels. -/
def Real (noKey : K) (t : Tree K V) : Prop := ∀ a ∈ t.labels, a.key ≠ noKey

section Keys

variable {noKey : K}

@[simp] theorem real_leaf {a : Item K V} : Real noKey (.leaf a) ↔ a.key ≠ noKey := by
  simp [Real]

@[simp] theorem real_node {a : Item K V} {l r : Tree K V} :
    Real noKey (.node a l r) ↔ a.key ≠ noKey ∧ Real noKey l ∧ Real noKey r := by
  simp only [Real, LTree.labels_node, List.mem_cons, List.mem_append, or_imp, forall_and, forall_eq]

@[simp] theorem real_recolor {w : ℤ} : Real noKey (recolor t w) ↔ Real noKey t := by
  cases t <;> simp

theorem real_flip : Real noKey t.flip ↔ Real noKey t := by
  simp only [Real, LTree.mem_labels_flip]

theorem Rule.real (hr : Rule top way t t') (h : Real noKey t) : Real noKey t' := by
  cases hr <;> simp only [real_node, real_recolor, reweigh_key] at h ⊢ <;> tauto

theorem Rewrites.real (hr : Rewrites top way t t') (h : Real noKey t) : Real noKey t' := by
  rcases hr with hr | hr
  · exact hr.real h
  · exact real_flip.mp (hr.real (real_flip.mpr h))

end Keys

end Rules

/-! ### Steps -/

section Steps

variable {g : Item K V → Bool} {top : Bool} {pw : ℤ} {t t' : Tree K V}

theorem StepAt.contents_eq (h : StepAt g top pw t t') : contents t' = contents t := by
  induction h with
  | here _ _ h => exact h.contents_eq
  | left _ _ _ _ ih => rw [contents_node, contents_node, ih]
  | right _ _ _ _ ih => rw [contents_node, contents_node, ih]

theorem StepAt.within [LinearOrder K] {lo : WithBot K} {hi : WithTop K} (h : StepAt g top pw t t')
    (hw : t.Within Item.key lo hi) : t'.Within Item.key lo hi := by
  induction h generalizing lo hi with
  | here _ _ h => exact h.within hw
  | left _ _ _ _ ih =>
      rw [LTree.within_node] at hw ⊢
      exact ⟨ih hw.1, hw.2⟩
  | right _ _ _ _ ih =>
      rw [LTree.within_node] at hw ⊢
      exact ⟨hw.1, ih hw.2⟩

theorem StepAt.fits {h : ℤ} (hs : StepAt g top pw t t') (hf : Fits h t) :
    ∃ h', Fits h' t' ∧ (top = false → h' = h) := by
  induction hs generalizing h with
  | here _ _ hr => exact hr.fits hf
  | left _ _ _ _ ih =>
      obtain ⟨h', hf', he⟩ := ih hf.2.1
      exact ⟨h, ⟨hf.1, he rfl ▸ hf', hf.2.2⟩, fun _ => rfl⟩
  | right _ _ _ _ ih =>
      obtain ⟨h', hf', he⟩ := ih hf.2.2
      exact ⟨h, ⟨hf.1, hf.2.1, he rfl ▸ hf'⟩, fun _ => rfl⟩

theorem StepAt.real {noKey : K} (hs : StepAt g top pw t t') (h : Real noKey t) :
    Real noKey t' := by
  induction hs with
  | here _ _ hr => exact hr.real h
  | left _ _ _ _ ih =>
      rw [real_node] at h ⊢
      exact ⟨h.1, ih h.2.1, h.2.2⟩
  | right _ _ _ _ ih =>
      rw [real_node] at h ⊢
      exact ⟨h.1, h.2.1, ih h.2.2⟩

/-- **A step keeps the weight invariant.** -/
theorem StepAt.valid {cfg : Cfg K V} {T T' : Tree K V} (hs : StepAt g true pw T T')
    (hT : Valid cfg T) : Valid cfg T' := by
  obtain ⟨h, hf⟩ := hT.fits
  obtain ⟨h', hf', -⟩ := hs.fits hf
  have htop : wt T' = 1 := by
    cases hs with
    | here _ _ hr => exact hr.top_weight hT.top_weight
    | left _ _ _ _ => exact hT.top_weight
    | right _ _ _ _ => exact hT.top_weight
  exact .of_fits (hs.real hT.real) htop hf'

end Steps

/-! ### The search order -/

section Search

variable [LinearOrder K]

/-- **The search order**: the key of an internal node is above the keys of the leaves to its left,
and not above those to its right. -/
def Separated : Tree K V → Prop
  | .leaf _ => True
  | .node a l r => (∀ x ∈ l.leaves, x.key < a.key) ∧ (∀ x ∈ r.leaves, a.key ≤ x.key) ∧
      Separated l ∧ Separated r

theorem within_iff_separated {lo : WithBot K} {hi : WithTop K} {t : Tree K V} :
    t.Within Item.key lo hi ↔
      Separated t ∧ ∀ x ∈ t.leaves, lo ≤ (x.key : WithBot K) ∧ (x.key : WithTop K) < hi := by
  induction t generalizing lo hi with
  | leaf a => simp [Separated]
  | node a l r ihl ihr =>
      constructor
      · intro h
        refine ⟨⟨?_, ?_, (ihl.mp h.1).1, (ihr.mp h.2).1⟩, fun x hx => h.mem_leaves hx⟩
        · intro x hx
          exact WithTop.coe_lt_coe.mp (h.1.mem_leaves hx).2
        · intro x hx
          exact WithBot.coe_le_coe.mp (h.2.mem_leaves hx).1
      · rintro ⟨⟨hl, hr, hsl, hsr⟩, hb⟩
        rw [LTree.leaves_node] at hb
        refine ⟨ihl.mpr ⟨hsl, fun x hx => ⟨?_, ?_⟩⟩, ihr.mpr ⟨hsr, fun x hx => ⟨?_, ?_⟩⟩⟩
        · exact (hb x (List.mem_append_left _ hx)).1
        · exact WithTop.coe_lt_coe.mpr (hl x hx)
        · exact WithBot.coe_le_coe.mpr (hr x hx)
        · exact (hb x (List.mem_append_right _ hx)).2

theorem separated_iff_within {t : Tree K V} : Separated t ↔ t.Within Item.key ⊥ ⊤ := by
  rw [within_iff_separated]
  exact ⟨fun h => ⟨h, fun x _ => ⟨bot_le, WithTop.coe_lt_top _⟩⟩, And.left⟩

/-! ### Calls of `updateRebalancingStep` -/

variable {cfg : Cfg K V} {s : Item K V} {T : Tree K V}

/-- **A call on a valid tree** either finds no violation on the path of its key and reports so, or
replaces the tree in one step by another valid tree. -/
theorem updateRebalancingStep_spec (hT : Valid cfg T) (key : K) :
    (updateRebalancingStep cfg key (holding cfg s T) = .error .finish ∧ NoViolation key T) ∨
    ∃ T', updateRebalancingStep cfg key (holding cfg s T) = .ok (holding cfg s T') ∧
      StepAt (byKey key 0) true 1 T T' := by
  rcases rebalanceAlong_spec (g := byKey key 0) (s := s) hT with ⟨he, hc⟩ | h
  · obtain ⟨hle, hchain, -⟩ := clean_iff_path.mp hc
    exact .inl ⟨he, hle, hchain⟩
  · exact .inr h

/-- **Rebalancing keeps the contents and the order**: a step leaves the keys and values of the
leaves as they are, from left to right, and the tree a search tree. -/
theorem rebalancing_keeps_contents (hT : Valid cfg T) (key : K) {root' : Ptr K V}
    (h : updateRebalancingStep cfg key (holding cfg s T) = .ok root') :
    ∃ T', root' = holding cfg s T' ∧ contents T' = contents T ∧ (Separated T → Separated T') := by
  rcases updateRebalancingStep_spec (s := s) hT key with ⟨he, -⟩ | ⟨T', he, hs⟩
  · cases he.symm.trans h
  · refine ⟨T', (Except.ok.inj (he.symm.trans h)).symm, hs.contents_eq, ?_⟩
    rw [separated_iff_within, separated_iff_within]
    exact hs.within

theorem redChain_keeps_contents : ∃ root',
    updateRebalancingStep plain 40 (holding plain (sentinel plain) redChain) = .ok root' ∧
      ∃ T', root' = holding plain (sentinel plain) T' ∧
        contents T' = [(10, 1), (20, 2), (30, 3), (40, 4)] ∧ (Separated redChain → Separated T') :=
  ⟨_, rfl, rebalancing_keeps_contents redChain_valid 40 rfl⟩

/-- **Rebalancing is never stuck on a valid tree**: no call returns to try again, and none follows a
null pointer.  It reports that there is no violation on the path of the key, or it replaces the tree
in one step, and no new node has a negative weight. -/
theorem rebalancing_never_stuck (hT : Valid cfg T) (key : K) :
    (updateRebalancingStep cfg key (holding cfg s T) = .error .finish ∧ NoViolation key T) ∨
    ∃ T', updateRebalancingStep cfg key (holding cfg s T) = .ok (holding cfg s T') ∧
      StepAt (byKey key 0) true 1 T T' ∧ ∀ a ∈ T'.labels, 0 ≤ a.weight := by
  rcases updateRebalancingStep_spec (s := s) hT key with h | ⟨T', he, hs⟩
  · exact .inl h
  · exact .inr ⟨T', he, hs, (hs.valid hT).nonneg⟩

theorem redChain_not_stuck :
    ∃ T', updateRebalancingStep plain 40 (holding plain (sentinel plain) redChain) =
        .ok (holding plain (sentinel plain) T') ∧
      StepAt (byKey 40 0) true 1 redChain T' ∧ ∀ a ∈ T'.labels, 0 ≤ a.weight := by
  rcases rebalancing_never_stuck (s := sentinel plain) redChain_valid 40 with ⟨-, -, hchain⟩ | h
  · have hred : ¬ (redChain.path Item.key 40).IsChain
        fun a b => ¬ (a.weight = 0 ∧ b.weight = 0) := by decide
    exact absurd hchain hred
  · exact h

end Search

end Cbat.Chromatic
