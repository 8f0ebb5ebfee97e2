/-
**What one call of `fixAllToKey` repairs.**

`fixAllToKey` repeats rebalancing steps until one of them returns `true`; but a step that has
changed the tree returns `true` as well, so that a call does at most one step.  This module says
when one step is enough: when the first violation on the path is the only one, and the step removes
it from the path instead of moving it upwards or only changing its surroundings.

Main definitions:

* `Cbat.Chromatic.Mendable` — **the paths that one step repairs**, by the weights along the path and
  beside it;
* `Cbat.Chromatic.Steady` — a search turns the same way at all nodes on one side of a node that it
  leaves to the other side.

Main results:

* `Cbat.Chromatic.StepAt.clean_iff` — a step repairs exactly these paths;
* `Cbat.Chromatic.fixAllToKey_repairs_iff` — **`fixAllToKey` repairs exactly these paths**.
-/

import Cbat.Chromatic.Reached

set_option relaxedAutoImplicit false
set_option autoImplicit false

namespace Cbat.Chromatic

variable {K V : Type}

/-! ### The condition -/

/-- The child on the left or on the right; a leaf stands for its own children. -/
def side (left : Bool) : Tree K V → Tree K V
  | .leaf a => .leaf a
  | .node _ l r => if left then l else r

section Condition

variable (g : Item K V → Bool)

/-- The next node on the path. -/
def nextOn : Tree K V → Tree K V
  | .leaf a => .leaf a
  | .node a l r => if g a then l else r

/-- There is no violation below a node of weight `w` that takes the place of the top. -/
def CleanBelow (w : ℤ) : Tree K V → Prop
  | .leaf _ => True
  | .node a l r => if g a then Clean g w l else Clean g w r

/-- One step repairs the path at the overweight node `v`, a child of a node of weight `w` on the
side `d`, with the sibling `s`. -/
def OverMends (top d : Bool) (w : ℤ) (v s : Tree K V) : Prop :=
  wt v = 2 ∧ CleanBelow g 1 v ∧
    if wt s = 0 then w ≠ 0 ∧ wt (side d s) ≠ 0
    else (wt s = 1 ∧ (wt (side d s) = 0 ∨ wt (side (!d) s) = 0)) ∨ top = true ∨ w = 0

/-- One step repairs the path at the lower red node `v` of two; the upper one has the sibling `s`,
and `pw` is the weight above their parent. -/
def RedMends (top : Bool) (pw : ℤ) (v s : Tree K V) : Prop :=
  CleanBelow g 0 v ∧ (wt s = 0 → top = true ∨ pw ≠ 0)

/-- **The paths that one step repairs**, those without a violation among them. -/
def Mendable : Bool → ℤ → Tree K V → Prop
  | _, _, .leaf _ => True
  | top, pw, .node a l r =>
      let x := if g a then l else r
      let s := if g a then r else l
      if 1 < wt x then OverMends g top (g a) a.weight x s
      else if wt x = 0 ∧ wt (nextOn g x) = 0 then RedMends g top pw (nextOn g x) s
      else if g a then Mendable false a.weight l else Mendable false a.weight r

/-- The labels of the internal nodes. -/
def inner : Tree K V → List (Item K V)
  | .leaf _ => []
  | .node a l r => a :: (inner l ++ inner r)

/-- A search that goes left at a node would go left everywhere to the right of it, and the other way
around. -/
def Steady : Tree K V → Prop
  | .leaf _ => True
  | .node a l r => (g a = false → ∀ x ∈ inner l, g x = false) ∧
      (g a = true → ∀ x ∈ inner r, g x = true) ∧ Steady l ∧ Steady r

end Condition

/-! ### Mirror images -/

section Mirror

variable {g : Item K V → Bool} {t : Tree K V} {w : ℤ} {d top : Bool}

/-- The turns in the mirror image. -/
def turned (g : Item K V → Bool) (a : Item K V) : Bool := !g a

theorem clean_flip : Clean (turned g) w t.flip ↔ Clean g w t := by
  induction t generalizing w with
  | leaf a => rfl
  | node a l r ihl ihr =>
      by_cases hga : g a = true <;> simp [LTree.flip_node, Clean, turned, hga, ihl, ihr]

theorem cleanBelow_flip : CleanBelow (turned g) w t.flip ↔ CleanBelow g w t := by
  cases t with
  | leaf a => rfl
  | node a l r =>
      by_cases hga : g a = true <;> simp [LTree.flip_node, CleanBelow, turned, hga, clean_flip]

theorem side_flip : side d t.flip = (side (!d) t).flip := by
  cases t <;> cases d <;> rfl

theorem nextOn_flip : nextOn (turned g) t.flip = (nextOn g t).flip := by
  cases t with
  | leaf a => rfl
  | node a l r => by_cases hga : g a = true <;> simp [LTree.flip_node, nextOn, turned, hga]

theorem overMends_flip {v s : Tree K V} :
    OverMends (turned g) top (!d) w v.flip s.flip ↔ OverMends g top d w v s := by
  simp only [OverMends, wt_flip, cleanBelow_flip, side_flip, Bool.not_not]

theorem redMends_flip {v s : Tree K V} :
    RedMends (turned g) top w v.flip s.flip ↔ RedMends g top w v s := by
  simp only [RedMends, wt_flip, cleanBelow_flip]

theorem mendable_flip : Mendable (turned g) top w t.flip ↔ Mendable g top w t := by
  induction t generalizing top w with
  | leaf a => rfl
  | node a l r ihl ihr =>
      have hover := fun (v s : Tree K V) => @overMends_flip K V g a.weight (g a) top v s
      have hturn : turned g a = !g a := rfl
      by_cases hga : g a = true
      · simp only [hga, Bool.not_true] at hover hturn
        simp [Mendable, hturn, hga, hover, redMends_flip, nextOn_flip, ihl]
      · simp only [hga, Bool.not_false] at hover hturn
        simp [Mendable, hturn, hga, hover, redMends_flip, nextOn_flip, ihr]

theorem mem_inner_flip {x : Item K V} : x ∈ inner t.flip ↔ x ∈ inner t := by
  induction t with
  | leaf a => rfl
  | node a l r ihl ihr => simp [inner, ihl, ihr, or_comm]

theorem Steady.flip (h : Steady g t) : Steady (turned g) t.flip := by
  induction t with
  | leaf a => trivial
  | node a l r ihl ihr =>
      obtain ⟨hl, hr, hsl, hsr⟩ := h
      refine ⟨fun ha x hx => ?_, fun ha x hx => ?_, ihr hsr, ihl hsl⟩
      · simp only [turned, Bool.not_eq_false'] at ha ⊢
        exact hr ha x (mem_inner_flip.mp hx)
      · simp only [turned, Bool.not_eq_true'] at ha ⊢
        exact hl ha x (mem_inner_flip.mp hx)

theorem Follows.flip {way : List Bool} (h : Follows g way t) :
    Follows (turned g) (way.map not) t.flip := by
  induction way generalizing t with
  | nil => trivial
  | cons d ds ih =>
      cases t with
      | leaf a => exact h
      | node a l r =>
          obtain ⟨hd, hf⟩ := h
          refine ⟨by simp [turned, hd], ?_⟩
          cases d <;> exact ih hf

end Mirror

/-! ### Rules -/

section Rules

variable {g : Item K V → Bool} {t t' l r s : Tree K V} {a : Item K V} {w pw : ℤ} {top : Bool}

theorem clean_iff_label :
    Clean g pw t ↔ (wt t ≤ 1 ∧ (wt t ≠ 0 ∨ pw ≠ 0)) ∧ CleanBelow g (wt t) t := by
  cases t with
  | leaf a => simp [Clean, CleanBelow]
  | node a l r => rfl

theorem mendable_over (hga : g a = true) (hl : 1 < wt l) :
    Mendable g top pw (.node a l s) ↔ OverMends g top true a.weight l s := by
  simp [Mendable, hga, hl]

theorem mendable_red {b : Item K V} {v : Tree K V} (hga : g a = true) (hb : b.weight = 0)
    (hv : nextOn g (.node b l r) = v) (h0 : wt v = 0) :
    Mendable g top pw (.node a (.node b l r) s) ↔ RedMends g top pw v s := by
  simp [Mendable, hga, hb, hv, h0]

theorem mendable_next (hga : g a = true) (hl : wt l ≤ 1) (hv : ¬ (wt l = 0 ∧ wt (nextOn g l) = 0)) :
    Mendable g top pw (.node a l s) ↔ Mendable g false a.weight l := by
  simp [Mendable, hga, not_lt.mpr hl, hv]

theorem not_clean_over (h : 1 < wt t) : ¬ Clean g pw t := by
  rw [clean_iff_label]
  omega

theorem clean_red (h : wt t = 0) : Clean g 1 t ↔ CleanBelow g 0 t := by
  rw [clean_iff_label, h]
  simp

/-- A step cannot repair an overweight node below a red one and beside a red one. -/
theorem not_mendable_stuck {b : Item K V} {d : Bool} (hga : g a = true) (hgb : g b = d)
    (hb : b.weight = 0) (hv : 1 < wt (if d then l else r)) (hs : wt (if d then r else l) = 0) :
    ¬ Mendable g top pw (.node a (.node b l r) s) := by
  rw [mendable_next hga (by simp [hb]) ?_]
  · cases d <;> simp only [Bool.false_eq_true, if_true, if_false] at hv hs <;>
      simp [Mendable, hgb, hv, OverMends, hs, hb]
  · cases d <;> simp only [Bool.false_eq_true, if_true, if_false] at hv <;>
      simp [nextOn, hgb] <;> omega

/-- A node that takes over an overweight becomes overweight, except at the top or when it is red. -/
theorem lifted_iff (h0 : 0 ≤ w) (h1 : w ≤ 1) :
    ((if top then 1 else w + 1) ≤ 1 ∧ ((if top then 1 else w + 1) ≠ 0 ∨ pw ≠ 0)) ↔
      top = true ∨ w = 0 := by
  cases top <;> simp
  omega

variable (hg : ∀ (a : Item K V) (w : ℤ), g (a.reweigh w) = g a)

include hg

theorem cleanBelow_recolor {w' : ℤ} : CleanBelow g w (recolor t w') ↔ CleanBelow g w t := by
  cases t with
  | leaf a => rfl
  | node a l r => simp only [recolor_node, CleanBelow, hg]

/-- An overweight node becomes lighter by one. -/
theorem clean_lightened (h : 1 < wt t) :
    Clean g pw (recolor t (wt t - 1)) ↔ wt t = 2 ∧ CleanBelow g 1 t := by
  rw [clean_iff_label, wt_recolor, cleanBelow_recolor hg]
  constructor
  · rintro ⟨⟨h1, -⟩, hb⟩
    have h2 : wt t = 2 := by omega
    rw [h2] at hb
    exact ⟨h2, hb⟩
  · rintro ⟨h2, hb⟩
    refine ⟨⟨by omega, .inl (by omega)⟩, ?_⟩
    rw [h2]
    exact hb

/-- **A rule repairs exactly the paths that one step can repair.** -/
theorem Rule.clean_iff {way : List Bool} (hr : Rule top way t t') (hw : Follows g way t)
    (hs : Steady g t) (hn : 0 ≤ wt t) (hp : wt t ≠ 0 ∨ pw ≠ 0) :
    Clean g pw t' ↔ Mendable g top pw t := by
  cases hr with
  | @blk a b c bl br cl cr d ha hb hc hv =>
      obtain ⟨hga, hgb, -⟩ := hw
      have hc' : Clean g pw (.node (a.reweigh (if top then 1 else a.weight - 1))
          (.node (b.reweigh 1) bl br) (.node (c.reweigh 1) cl cr)) ↔
          (top = true ∨ pw ≠ 0) ∧ Clean g 1 (if d then bl else br) := by
        cases top <;> cases d <;> simp [Clean, hg, hga, hgb, ha]
      have hbelow : nextOn g (.node b bl br) = if d then bl else br := by simp [nextOn, hgb]
      rw [hc']
      rcases hv with hv | ⟨hv, hs'⟩
      · rw [mendable_red hga hb hbelow hv, RedMends, clean_red hv, wt_node]
        tauto
      · exact iff_of_false (fun h => not_clean_over hv h.2) (not_mendable_stuck hga hgb hb hv hs')
  | @rb1 a b bl br c d ha hb hbl hc hv =>
      obtain ⟨hga, hgb, -⟩ := hw
      cases d with
      | true =>
          have hbelow : nextOn g (.node b bl br) = bl := by simp [nextOn, hgb]
          rw [mendable_red hga hb hbelow hbl, RedMends]
          simp [Clean, hg, hgb, ha, hc, clean_red hbl]
      | false =>
          have hv := hv rfl
          refine iff_of_false ?_ (not_mendable_stuck hga hgb hb hv hbl)
          simp [Clean, hg, hga, hgb, not_clean_over hv]
  | @rb2 a b q bl x y c d ha hb hq hc hv =>
      obtain ⟨hga, hgb, -⟩ := hw
      cases d with
      | false =>
          have hbelow : nextOn g (.node b bl (.node q x y)) = .node q x y := by simp [nextOn, hgb]
          rw [mendable_red hga hb hbelow hq, RedMends]
          by_cases hgq : g q = true <;> simp [Clean, CleanBelow, hg, hga, hgb, hgq, ha, hc]
      | true =>
          have hv := hv rfl
          have hgq : g q = true := hs.2.2.1.2.1 hgb q (by simp [inner])
          refine iff_of_false ?_ (not_mendable_stuck hga hgb hb hv hq)
          simp [Clean, hg, hgb, hgq, not_clean_over hv]
  | @rb2Far a b q bl x y c ha hb hq hc =>
      obtain ⟨hga, -⟩ := hw
      have hgq : g q = false := hs.1 hga q (by simp [inner])
      refine iff_of_false ?_ ?_
      · simp [Clean, hg, hga, hgq, not_clean_over hc]
      · simp [Mendable, hga, hc, OverMends, side, hb, hq]
  | @push a r l rl rr ha hl hr hrl hrr =>
      obtain ⟨hga, -⟩ := hw
      rw [mendable_over hga hl]
      rw [wt_node] at hn
      simp only [Clean, hg, hga, if_true, reweigh_weight, clean_lightened hg hl, OverMends, side,
        wt_node, hr, lifted_iff hn ha]
      simp [hrl, hrr]
      tauto
  | @w1 a r l rl rr ha hl hr hrl =>
      obtain ⟨hga, -⟩ := hw
      have hgr : g r = true := hs.2.1 hga r (by simp [inner])
      rw [mendable_over hga hl]
      simp only [Clean, hg, hga, hgr, if_true, reweigh_weight, clean_lightened hg hl, OverMends,
        side, wt_node, hr, ha]
      simp
      omega
  | @w2 a r p l x y rr ha hl hr hp' hx hy =>
      obtain ⟨hga, -⟩ := hw
      have hgr : g r = true := hs.2.1 hga r (by simp [inner])
      rw [mendable_over hga hl]
      simp only [Clean, hg, hga, hgr, if_true, reweigh_weight, clean_lightened hg hl, OverMends,
        side, wt_node, hr, ha, hp']
      simp
  | @w3 a r p q l x y z rr ha hl hr hp' hq hz =>
      obtain ⟨hga, -⟩ := hw
      have hgr : g r = true := hs.2.1 hga r (by simp [inner])
      have hgq : g q = true := hs.2.1 hga q (by simp [inner])
      rw [mendable_over hga hl]
      simp only [Clean, hg, hga, hgr, hgq, if_true, reweigh_weight, clean_lightened hg hl,
        OverMends, side, wt_node, hr, ha, hp']
      simp
  | @w4 a r p q l x y z rr ha hl hr hp' hq =>
      obtain ⟨hga, -⟩ := hw
      have hgp : g p = true := hs.2.1 hga p (by simp [inner])
      rw [mendable_over hga hl]
      simp only [Clean, hg, hga, hgp, if_true, reweigh_weight, clean_lightened hg hl, OverMends,
        side, wt_node, hr, ha, hp']
      simp
  | @w5 a r q l rl x y ha hl hr hq =>
      obtain ⟨hga, -⟩ := hw
      have hgr : g r = true := hs.2.1 hga r (by simp [inner])
      rw [mendable_over hga hl]
      rw [wt_node] at hp
      simp only [Clean, hg, hga, hgr, if_true, reweigh_weight, clean_lightened hg hl, OverMends,
        side, wt_node, hr]
      simp [ha, hp, hq]
  | @w6 a r q l x y rr ha hl hr hq hrr =>
      obtain ⟨hga, -⟩ := hw
      have hgq : g q = true := hs.2.1 hga q (by simp [inner])
      rw [mendable_over hga hl]
      rw [wt_node] at hp
      simp only [Clean, hg, hga, hgq, if_true, reweigh_weight, clean_lightened hg hl, OverMends,
        side, wt_node, hr, hq]
      simp [ha, hp]
  | @w7 a l r ha hl hr =>
      obtain ⟨hga, -⟩ := hw
      rw [mendable_over hga hl]
      rw [wt_node] at hn
      simp only [Clean, hg, hga, if_true, reweigh_weight, clean_lightened hg hl, OverMends,
        lifted_iff hn ha, if_neg (show ¬ wt r = 0 by omega)]
      have : ¬ wt r = 1 := by omega
      tauto

theorem Rewrites.clean_iff {way : List Bool} (hr : Rewrites top way t t') (hw : Follows g way t)
    (hs : Steady g t) (hn : 0 ≤ wt t) (hp : wt t ≠ 0 ∨ pw ≠ 0) :
    Clean g pw t' ↔ Mendable g top pw t := by
  rcases hr with hr | hr
  · exact hr.clean_iff hg hw hs hn hp
  · have hg' : ∀ (a : Item K V) (w : ℤ), turned g (a.reweigh w) = turned g a := by
      intro a w
      rw [turned, turned, hg]
    rw [← clean_flip, ← mendable_flip]
    exact hr.clean_iff hg' hw.flip hs.flip (by rwa [wt_flip]) (by rwa [wt_flip])

omit hg

/-- There is no violation at the top of the subtree that a rule replaces. -/
theorem Rule.calm {way : List Bool} (hr : Rule top way t t') (hw : Follows g way t) :
    wt t ≤ 1 ∧ ¬ (wt t = 0 ∧ wt (nextOn g t) = 0) := by
  cases hr <;> obtain ⟨hga, -⟩ := hw <;>
    simp only [wt_node, nextOn, hga, if_true, Bool.false_eq_true, if_false] <;> omega

theorem StepAt.label (h : StepAt g top pw t t') : wt t ≠ 0 ∨ pw ≠ 0 := by
  cases h with
  | here hp _ _ => exact hp
  | left _ _ hp _ => exact hp
  | right _ _ hp _ => exact hp

theorem StepAt.calm (h : StepAt g top pw t t') :
    wt t ≤ 1 ∧ ¬ (wt t = 0 ∧ wt (nextOn g t) = 0) := by
  cases h with
  | here _ hw hr =>
      rcases hr with hr | hr
      · exact hr.calm hw
      · have := hr.calm hw.flip
        rwa [wt_flip, nextOn_flip, wt_flip] at this
  | left hga ha _ h =>
      have := h.label
      simp only [wt_node, nextOn, hga, if_true]
      omega
  | right hga ha _ h =>
      have := h.label
      simp only [wt_node, nextOn, hga, Bool.false_eq_true, if_false]
      omega

include hg

/-- **A step repairs exactly the paths that one step can repair.** -/
theorem StepAt.clean_iff {h : ℤ} (hstep : StepAt g top pw t t') (hs : Steady g t) (hf : Fits h t) :
    Clean g pw t' ↔ Mendable g top pw t := by
  induction hstep generalizing h with
  | here hp hw hr => exact hr.clean_iff hg hw hs hf.wt_nonneg hp
  | left hga ha hp hstep ih =>
      have hc := hstep.calm
      simp only [Clean, Mendable, hga, if_true, not_lt.mpr hc.1, hc.2, if_false]
      rw [ih hs.2.2.1 hf.2.1]
      tauto
  | right hga ha hp hstep ih =>
      have hc := hstep.calm
      simp only [Clean, Mendable, hga, Bool.false_eq_true, not_lt.mpr hc.1, hc.2, if_false]
      rw [ih hs.2.2.2 hf.2.2]
      tauto

omit hg

theorem Clean.calm {h : ℤ} (hc : Clean g pw t) (hf : Fits h t) :
    wt t ≤ 1 ∧ ¬ (wt t = 0 ∧ wt (nextOn g t) = 0) := by
  cases t with
  | leaf a =>
      have ha : 1 ≤ wt (.leaf a) := hf.1
      exact ⟨hc.1, by omega⟩
  | node a l r =>
      obtain ⟨⟨h1, -⟩, hc⟩ := hc
      refine ⟨h1, ?_⟩
      by_cases hga : g a = true
      · rw [if_pos hga] at hc
        have := (clean_iff_label.mp hc).1
        simp only [wt_node, nextOn, hga, if_true]
        omega
      · rw [if_neg hga] at hc
        have := (clean_iff_label.mp hc).1
        simp only [wt_node, nextOn, hga, Bool.false_eq_true, if_false]
        omega

/-- There is nothing to repair on a path without a violation. -/
theorem Clean.mendable {h : ℤ} (hc : Clean g pw t) (hf : Fits h t) : Mendable g top pw t := by
  induction t generalizing pw top h with
  | leaf a => trivial
  | node a l r ihl ihr =>
      obtain ⟨-, hc⟩ := hc
      by_cases hga : g a = true
      · rw [if_pos hga] at hc
        have hcalm := hc.calm hf.2.1
        simp only [Mendable, hga, if_true, not_lt.mpr hcalm.1, hcalm.2, if_false]
        exact ihl hc hf.2.1
      · rw [if_neg hga] at hc
        have hcalm := hc.calm hf.2.2
        simp only [Mendable, hga, Bool.false_eq_true, not_lt.mpr hcalm.1, hcalm.2, if_false]
        exact ihr hc hf.2.2

end Rules

/-! ### `fixAllToKey` -/

section Calls

variable [LinearOrder K] {cfg : Cfg K V} {s : Item K V} {T : Tree K V} {key : K}

theorem mem_inner_within {lo : WithBot K} {hi : WithTop K} {t : Tree K V}
    (h : t.Within Item.key lo hi) {x : Item K V} (hx : x ∈ inner t) :
    lo ≤ (x.key : WithBot K) ∧ (x.key : WithTop K) < hi := by
  induction t generalizing lo hi with
  | leaf a => cases hx
  | node a l r ihl ihr =>
      obtain ⟨hlo, hhi⟩ := h.key_between
      rcases List.mem_cons.mp hx with rfl | hx
      · exact ⟨hlo, hhi⟩
      · rcases List.mem_append.mp hx with hx | hx
        · exact ⟨(ihl h.1 hx).1, (ihl h.1 hx).2.trans hhi⟩
        · exact ⟨hlo.trans (ihr h.2 hx).1, (ihr h.2 hx).2⟩

/-- The searches in a search tree are steady. -/
theorem steady_byKey {lo : WithBot K} {hi : WithTop K} {t : Tree K V}
    (h : t.Within Item.key lo hi) : Steady (byKey key 0) t := by
  induction t generalizing lo hi with
  | leaf a => trivial
  | node a l r ihl ihr =>
      refine ⟨fun ha x hx => ?_, fun ha x hx => ?_, ihl h.1, ihr h.2⟩
      · have hxa : x.key < a.key := WithTop.coe_lt_coe.mp (mem_inner_within h.1 hx).2
        simp only [byKey, decide_eq_false_iff_not, not_lt] at ha ⊢
        exact hxa.le.trans ha
      · have hxa : a.key ≤ x.key := WithBot.coe_le_coe.mp (mem_inner_within h.2 hx).1
        simp only [byKey, decide_eq_true_eq] at ha ⊢
        exact lt_of_lt_of_le ha hxa

theorem noViolation_iff_clean : NoViolation key T ↔ Clean (byKey key 0) 1 T := by
  rw [clean_iff_path, NoViolation]
  simp

/-- **`fixAllToKey` repairs the path of its key exactly when one step can**: a call returns, and
there is no violation on the path after it if and only if the path was mendable before. -/
theorem fixAllToKey_repairs_iff (hT : Valid cfg T) (ho : Separated T) (key : K) (n : ℕ) :
    ∃ T', fixAllToKey cfg key (n + 1) (holding cfg s T) = some (holding cfg s T') ∧
      (NoViolation key T' ↔ Mendable (byKey key 0) true 1 T) := by
  obtain ⟨h, hf⟩ := hT.fits
  rcases updateRebalancingStep_spec (s := s) hT key with ⟨he, hn⟩ | ⟨T', he, hs⟩
  · refine ⟨T, by rw [fixAllToKey, he], iff_of_true hn ?_⟩
    exact (noViolation_iff_clean.mp hn).mendable hf
  · refine ⟨T', by rw [fixAllToKey, he], ?_⟩
    rw [noViolation_iff_clean]
    exact hs.clean_iff (fun _ _ => rfl) (steady_byKey (separated_iff_within.mp ho)) hf

theorem redChain_repaired : Valid plain redChain ∧ Separated redChain ∧
    ∃ T', fixAllToKey plain 40 1 (holding plain (sentinel plain) redChain) =
      some (holding plain (sentinel plain) T') ∧ NoViolation 40 T' := by
  have ho : Separated redChain := by simp [redChain, Separated]
  obtain ⟨T', he, hiff⟩ := fixAllToKey_repairs_iff (s := sentinel plain) redChain_valid ho 40 0
  refine ⟨redChain_valid, ho, T', he, hiff.mpr ?_⟩
  simp [redChain, Mendable, byKey, nextOn, RedMends, CleanBelow, Clean]

/-- The tree after the insertions of 10, 20, 30, 40 and 50, if no violation is repaired. -/
def longChain : Tree ℕ ℕ :=
  .node ⟨20, 2, 1⟩ (.leaf ⟨10, 1, 1⟩)
    (.node ⟨30, 3, 0⟩ (.leaf ⟨20, 2, 1⟩)
      (.node ⟨40, 4, 0⟩ (.leaf ⟨30, 3, 1⟩)
        (.node ⟨50, 5, 0⟩ (.leaf ⟨40, 4, 1⟩) (.leaf ⟨50, 5, 1⟩))))

/-- **`fixAllToKey` leaves a violation on the path**: there are two on the path of 50, and the call
returns after it has repaired the first. -/
theorem fixAllToKey_leaves_violation :
    Reached plain (holding plain (sentinel plain) longChain) ∧ Valid plain longChain ∧
    ∃ T', (∀ n, fixAllToKey plain 50 (n + 1) (holding plain (sentinel plain) longChain) =
      some (holding plain (sentinel plain) T')) ∧ ¬ NoViolation 50 T' := by
  refine ⟨@Reached.insert ℕ ℕ _ plain _ _ 50 5 false redChain_reached (by decide) rfl,
    .of_fits (h := 2) (by decide) rfl (by simp [longChain]),
    .node ⟨30, 3, 1⟩ (.node ⟨20, 2, 0⟩ (.leaf ⟨10, 1, 1⟩) (.leaf ⟨20, 2, 1⟩))
      (.node ⟨40, 4, 0⟩ (.leaf ⟨30, 3, 1⟩)
        (.node ⟨50, 5, 0⟩ (.leaf ⟨40, 4, 1⟩) (.leaf ⟨50, 5, 1⟩))), fun n => rfl, ?_⟩
  rintro ⟨-, hchain⟩
  exact absurd hchain (by decide)

end Calls

end Cbat.Chromatic
