/-
**What a rebalancing step that comes to its SCX has found.**

`updateRebalancingStep` looks at the weights around a violation and chooses one of 22 replacements.
In each case the nodes that it has loaded and the weights that it has compared are those that the
replacement needs.

Main definitions:

* `Cbat.RebalanceCursor` — what the search of a rebalancing step ends with;
* `Cbat.Nodes` — the nodes that its checks have found.

Main results:

* `Cbat.rebalanceScx_ready` — **a rebalancing step may commit the SCX it comes to**.
-/

import Cbat.Attempts

set_option relaxedAutoImplicit false
set_option autoImplicit false

namespace Cbat

variable {K V : Type} [LinearOrder K] {cfg : Cfg K V} {m : Mem K V}

/-! ### The nodes of a rebalancing step -/

section Rebalance

variable {t : LTree (Cell K V)} {cur : Cursor} {rec : ScxRecord K V} {k : K}

/-- The nodes of a patch below a real node are real. -/
theorem Base.real_patch (hB : Base cfg m t) {p : Patch (Cell K V) ℕ} (h : m.Holds p)
    (hl : Live m (top p)) (hk : (m.node (top p)).key ≠ cfg.noKey) :
    ∀ c ∈ p.labels, c.key ≠ cfg.noKey := by
  induction p with
  | sub i => simp [Patch.labels]
  | leaf c =>
      intro d hd
      obtain rfl : d = c := by simpa [Patch.labels] using hd
      exact h.2.key ▸ hk
  | node c l r ihl ihr =>
      have el : Edge m c.id (top l) := ⟨h.2.2.1.top_ne_zero, .inl h.2.1.left⟩
      have er : Edge m c.id (top r) := ⟨h.2.2.2.top_ne_zero, .inr h.2.1.right⟩
      intro d hd
      rcases List.mem_cons.mp hd with rfl | hd
      · exact h.2.1.key ▸ hk
      · rcases List.mem_append.mp hd with hd | hd
        · exact ihl h.2.2.1 (hl.edge el) (hB.real_edge hl hk el).real d hd
        · exact ihr h.2.2.2 (hl.edge er) (hB.real_edge hl hk er).real d hd

/-- **A rebalancing step below a live node, above a real one, may be committed.** -/
theorem Base.ready (hB : Base cfg m t) (h : Rebalances cfg m rec) (hlive : Live m (rec.nth 0))
    (hside : m.side (rec.nth 0) rec.fieldIsLeft = rec.nth 1)
    (hedge : Edge m (rec.nth 0) (rec.nth 1)) (hreal : (m.node (rec.nth 1)).key ≠ cfg.noKey)
    (hfree : ∀ x ∈ rec.toFreeze, Free m x) : Ready cfg m rec k .keep := by
  obtain ⟨old, hrem, hrea⟩ := h
  have hlabels := hB.real_patch hrem.holds (hrem.top_eq ▸ hlive.edge hedge) (hrem.top_eq ▸ hreal)
  refine ⟨⟨old, hrem, hrea.plan, hlive, hside, fun h => absurd rfl h, .real (fun hr => ?_) hreal
    (hrea.realShape hlabels)⟩, hfree⟩
  cases hB.tree.edgeKind hlive hedge with
  | root _ hy => exact hreal hy
  | top hx => exact hx hr
  | sentinel hx => exact hx hr
  | real hx => exact hx hr

/-- What a rebalancing step knows of the nodes of its search. -/
structure RebalanceCursor (m : Mem K V) (cur : Cursor) : Prop where
  u_lt : cur.ggp < m.next
  u_internal : (m.node cur.ggp).left ≠ 0
  violation : (m.node cur.l).left = 0 ∨ 1 < (m.node cur.l).weight ∨
    ((m.node cur.l).weight = 0 ∧ (m.node cur.p).weight = 0)
  above : (m.node cur.p).weight ≠ 0 ∨ (m.node cur.gp).weight ≠ 0

/-- The nodes that the checks of `updateRebalancingStep` have found. -/
structure Nodes (cfg : Cfg K V) (m : Mem K V) (u uX uXX : ℕ) : Prop where
  u_free : Free m u
  uX_free : Free m uX
  uXX_free : Free m uXX
  l_free : Free m (m.node uXX).left
  r_free : Free m (m.node uXX).right
  u_live : Live m u
  u_edge : Edge m u uX
  uX_edge : Edge m uX uXX
  uX_child : uX = (m.node u).left ∨ uX = (m.node u).right
  uXX_child : uXX = (m.node uX).left ∨ uXX = (m.node uX).right
  uXX_real : RealNode cfg m uXX
  above : (m.node uXX).weight ≠ 0 ∨ (m.node uX).weight ≠ 0

namespace Nodes

variable {u uX uXX : ℕ}

omit [LinearOrder K] in
theorem uX_live (h : Nodes cfg m u uX uXX) : Live m uX := h.u_live.edge h.u_edge

omit [LinearOrder K] in
theorem uXX_live (h : Nodes cfg m u uX uXX) : Live m uXX := h.uX_live.edge h.uX_edge

/-- A child of a live real node, by either pointer. -/
theorem real_left (hB : Base cfg m t) {x : ℕ} (hx : Live m x) (hr : RealNode cfg m x)
    (h0 : (m.node x).left ≠ 0) :
    RealNode cfg m (m.node x).left ∧ Live m (m.node x).left :=
  ⟨hB.real_edge hx hr.real ⟨h0, .inl rfl⟩, hx.edge ⟨h0, .inl rfl⟩⟩

theorem real_right (hB : Base cfg m t) {x : ℕ} (hx : Live m x) (hr : RealNode cfg m x)
    (h0 : (m.node x).right ≠ 0) :
    RealNode cfg m (m.node x).right ∧ Live m (m.node x).right :=
  ⟨hB.real_edge hx hr.real ⟨h0, .inr rfl⟩, hx.edge ⟨h0, .inr rfl⟩⟩

/-- Below a sentinel the real part starts with weight one. -/
theorem top_weight (h : Nodes cfg m u uX uXX) (hB : Base cfg m t)
    (hk : (m.node uX).key = cfg.noKey) : (m.node uXX).weight = 1 := by
  cases hB.tree.edgeKind h.uX_live h.uX_edge with
  | root _ hy => exact absurd hy h.uXX_real.real
  | top _ _ _ hw => exact hw
  | sentinel _ _ hy => exact absurd hy h.uXX_real.real
  | real _ hx => exact absurd hk hx

/-- The parent of a red node is real. -/
theorem uX_real (h : Nodes cfg m u uX uXX) (hB : Base cfg m t) (hw : (m.node uXX).weight = 0) :
    RealNode cfg m uX :=
  hB.realNode h.uX_live fun hk => by have := h.top_weight hB hk; omega

theorem top_weight' (h : Nodes cfg m u uX uXX) (hB : Base cfg m t)
    (hw : (m.node uXX).weight = 0) (hk : (m.node u).key = cfg.noKey) :
    (m.node uX).weight = 1 := by
  have hr := h.uX_real hB hw
  cases hB.tree.edgeKind h.u_live h.u_edge with
  | root _ hy => exact absurd hy hr.real
  | top _ _ _ hw => exact hw
  | sentinel _ _ hy => exact absurd hy hr.real
  | real _ hx => exact absurd hk hx

theorem uX_weight (h : Nodes cfg m u uX uXX) (hB : Base cfg m t)
    (hw : (m.node uXX).weight = 0) : 1 ≤ (m.node uX).weight := by
  have := (h.uX_real hB hw).nonneg
  have := h.above
  omega

/-- A step that replaces `uXX`. -/
theorem ready_uX (h : Nodes cfg m u uX uXX) (hB : Base cfg m t) (hR : Rebalances cfg m rec)
    (hn : rec.nth 0 = uX ∧ rec.nth 1 = uXX)
    (hf : rec.fieldIsLeft = decide (uXX = (m.node uX).left))
    (hfree : ∀ x ∈ rec.toFreeze, Free m x) : Ready cfg m rec k .keep := by
  refine hB.ready hR ?_ ?_ ?_ ?_ hfree
  · exact hn.1 ▸ h.uX_live
  · rw [hf, hn.1, hn.2]; exact side_of_child h.uXX_child
  · rw [hn.1, hn.2]; exact h.uX_edge
  · exact hn.2 ▸ h.uXX_real.real

/-- A step that replaces `uX`. -/
theorem ready_u (h : Nodes cfg m u uX uXX) (hB : Base cfg m t)
    (hw : (m.node uXX).weight = 0) (hR : Rebalances cfg m rec)
    (hn : rec.nth 0 = u ∧ rec.nth 1 = uX) (hf : rec.fieldIsLeft = decide (uX = (m.node u).left))
    (hfree : ∀ x ∈ rec.toFreeze, Free m x) : Ready cfg m rec k .keep := by
  refine hB.ready hR ?_ ?_ ?_ ?_ hfree
  · exact hn.1 ▸ h.u_live
  · rw [hf, hn.1, hn.2]; exact side_of_child h.uX_child
  · rw [hn.1, hn.2]; exact h.u_edge
  · exact hn.2 ▸ (h.uX_real hB hw).real

/-! ### The choice of the step -/

omit [LinearOrder K] in
theorem child_left {x c : ℕ} (h : decide (c = (m.node x).left) = true) : (m.node x).left = c :=
  (of_decide_eq_true h).symm

omit [LinearOrder K] in
theorem child_right {x c : ℕ} (hc : c = (m.node x).left ∨ c = (m.node x).right)
    (h : ¬ decide (c = (m.node x).left) = true) : (m.node x).right = c :=
  (hc.resolve_left fun he => h (decide_eq_true he)).symm

/-- **Red-red violations.** -/
theorem redRed_ready (h : Nodes cfg m u uX uXX) (hB : Base cfg m t)
    (hw : (m.node uXX).weight = 0) {b : Bool} (hb : (m.node (m.side uXX b)).weight = 0)
    (hrec : redRed cfg m u uX uXX (decide (uX = (m.node u).left))
      (decide (uXX = (m.node uX).left)) b = .ok rec) : Ready cfg m rec k .keep := by
  have h1 := h.uX_real hB hw
  have h2 := h.uXX_real
  have hu := h.top_weight' hB hw
  have hw1 := h.uX_weight hB hw
  have hfu := h.u_free
  have hfX := h.uX_free
  have hfXX := h.uXX_free
  have i2 := h2.left_ne hw
  have h2l := (real_left hB h.uXX_live h2 i2).1
  have h2r := (real_right hB h.uXX_live h2 (h2.right_ne i2)).1
  simp only [redRed] at hrec
  split_ifs at hrec with hl w3 hb' w2 hb'
  · obtain ⟨hf, hrec⟩ := llx_bind.mp hrec
    obtain rfl := Except.ok.inj hrec
    have hr := (real_right hB h.uX_live h1 hf.ne_zero).1
    refine h.ready_u hB hw (plan_doBlk h1 h2 hr (child_left hl) rfl hw w3 fun _ => hw1)
      ⟨rfl, rfl⟩ rfl ?_
    simp [doBlk, ScxRecord.toFreeze, ScxType.numToFreeze, hfu, hfX, hfXX, hf]
  · obtain ⟨hf, hrec⟩ := llx_bind.mp hrec
    obtain rfl := Except.ok.inj hrec
    refine h.ready_u hB hw (plan_doRb1 h1 h2 (child_left hl) hw hu) ⟨rfl, rfl⟩ rfl ?_
    simp [doRb1, ScxRecord.toFreeze, ScxType.numToFreeze, hfu, hfX, hfXX]
  · obtain ⟨hf, hrec⟩ := llx_bind.mp hrec
    obtain ⟨hf', hrec⟩ := llx_bind.mp hrec
    obtain rfl := Except.ok.inj hrec
    obtain rfl : b = false := by simpa using hb'
    refine h.ready_u hB hw (plan_doRb2 h1 h2 h2r (child_left hl) rfl hw hb hu) ⟨rfl, rfl⟩ rfl ?_
    simp [doRb2, ScxRecord.toFreeze, ScxType.numToFreeze, hfu, hfX, hfXX, hf']
  · obtain ⟨hf, hrec⟩ := llx_bind.mp hrec
    obtain rfl := Except.ok.inj hrec
    have hr := (real_left hB h.uX_live h1 hf.ne_zero).1
    refine h.ready_u hB hw (plan_doBlk h1 hr h2 rfl (child_right h.uXX_child hl) w2 hw
      fun _ => hw1) ⟨rfl, rfl⟩ rfl ?_
    simp [doBlk, ScxRecord.toFreeze, ScxType.numToFreeze, hfu, hfX, hfXX, hf]
  · obtain ⟨hf, hrec⟩ := llx_bind.mp hrec
    obtain rfl := Except.ok.inj hrec
    refine h.ready_u hB hw (plan_doRb1Sym h1 h2 (child_right h.uXX_child hl) hw hu) ⟨rfl, rfl⟩
      rfl ?_
    simp [doRb1Sym, ScxRecord.toFreeze, ScxType.numToFreeze, hfu, hfX, hfXX]
  · obtain ⟨hf, hrec⟩ := llx_bind.mp hrec
    obtain ⟨hf', hrec⟩ := llx_bind.mp hrec
    obtain rfl := Except.ok.inj hrec
    obtain rfl : b = true := by simpa using hb'
    refine h.ready_u hB hw (plan_doRb2Sym h1 h2 h2l (child_right h.uXX_child hl) rfl hw hb hu)
      ⟨rfl, rfl⟩ rfl ?_
    simp [doRb2Sym, ScxRecord.toFreeze, ScxType.numToFreeze, hfu, hfX, hfXX, hf']

/-- **Overweight violations at the left child.** -/
theorem overweightLeft_ready (h : Nodes cfg m u uX uXX) (hB : Base cfg m t)
    (hover : 1 < (m.node (m.node uXX).left).weight)
    (hrec : overweightLeft cfg m u uX uXX (decide (uX = (m.node u).left))
      (decide (uXX = (m.node uX).left)) = .ok rec) : Ready cfg m rec k .keep := by
  have h2 := h.uXX_real
  have hu := h.top_weight hB
  have hfu := h.u_free
  have hfX := h.uX_free
  have hfXX := h.uXX_free
  have hfl := h.l_free
  have hfr := h.r_free
  obtain ⟨hL, -⟩ := real_left hB h.uXX_live h2 hfl.ne_zero
  obtain ⟨hR, hRlive⟩ := real_right hB h.uXX_live h2 hfr.ne_zero
  simp only [overweightLeft] at hrec
  split_ifs at hrec with wR wXX hl wS wS w4 w4 h0 w5 h0' w5' wR' h0 w4 w4
  -- the parent of the violation and its sibling are red
  · obtain ⟨hf, hrec⟩ := llx_bind.mp hrec
    obtain rfl := Except.ok.inj hrec
    have hr := (real_right hB h.uX_live (h.uX_real hB wXX) hf.ne_zero).1
    refine h.ready_u hB wXX (plan_doBlk (h.uX_real hB wXX) h2 hr (child_left hl) rfl wXX wS
      fun _ => h.uX_weight hB wXX) ⟨rfl, rfl⟩ rfl ?_
    simp [doBlk, ScxRecord.toFreeze, ScxType.numToFreeze, hfu, hfX, hfXX, hf]
  · obtain ⟨hf, hrec⟩ := llx_bind.mp hrec
    obtain rfl := Except.ok.inj hrec
    refine h.ready_u hB wXX (plan_doRb2 (h.uX_real hB wXX) h2 hR (child_left hl) rfl wXX wR
      (h.top_weight' hB wXX)) ⟨rfl, rfl⟩ rfl ?_
    simp [doRb2, ScxRecord.toFreeze, ScxType.numToFreeze, hfu, hfX, hfXX, hfr]
  · obtain ⟨hf, hrec⟩ := llx_bind.mp hrec
    obtain rfl := Except.ok.inj hrec
    have hr := (real_left hB h.uX_live (h.uX_real hB wXX) hf.ne_zero).1
    refine h.ready_u hB wXX (plan_doBlk (h.uX_real hB wXX) hr h2 rfl (child_right h.uXX_child hl)
      wS wXX fun _ => h.uX_weight hB wXX) ⟨rfl, rfl⟩ rfl ?_
    simp [doBlk, ScxRecord.toFreeze, ScxType.numToFreeze, hfu, hfX, hfXX, hf]
  · obtain ⟨hf, hrec⟩ := llx_bind.mp hrec
    obtain rfl := Except.ok.inj hrec
    refine h.ready_u hB wXX (plan_doRb1Sym (h.uX_real hB wXX) h2 (child_right h.uXX_child hl) wXX
      (h.top_weight' hB wXX)) ⟨rfl, rfl⟩ rfl ?_
    simp [doRb1Sym, ScxRecord.toFreeze, ScxType.numToFreeze, hfu, hfX, hfXX]
  -- the sibling is red
  · obtain ⟨hf, hrec⟩ := llx_bind.mp hrec
    obtain rfl := Except.ok.inj hrec
    have h4 := (real_left hB hRlive hR hf.ne_zero).1
    refine h.ready_uX hB (plan_w12 ⟨rfl, rfl⟩ h2 hL hR h4 rfl rfl rfl hover wR rfl (by omega)
      (fun _ => by omega) hu) ⟨rfl, rfl⟩ rfl ?_
    simp [doW1, ScxRecord.toFreeze, ScxType.numToFreeze, hfX, hfXX, hfl, hfr, hf]
  · obtain ⟨hf, hrec⟩ := llx_bind.mp hrec
    obtain rfl := Except.ok.inj hrec
    have h4 := (real_left hB hRlive hR hf.ne_zero).1
    refine h.ready_uX hB (plan_doRb2Sym h2 hR h4 rfl rfl wR w4 hu) ⟨rfl, rfl⟩ rfl ?_
    simp [doRb2Sym, ScxRecord.toFreeze, ScxType.numToFreeze, hfX, hfXX, hfr, hf]
  · obtain ⟨hf, hrec⟩ := llx_bind.mp hrec
    cases hrec
  · obtain ⟨hf, hrec⟩ := llx_bind.mp hrec
    obtain ⟨hf5, hrec⟩ := llx_bind.mp hrec
    obtain rfl := Except.ok.inj hrec
    obtain ⟨h4, h4live⟩ := real_left hB hRlive hR hf.ne_zero
    have h5 := (real_right hB h4live h4 h0).1
    have := h4.nonneg
    refine h.ready_uX hB (plan_doW4 h2 hL hR h4 h5 rfl rfl rfl rfl hover wR (by omega) w5 hu)
      ⟨rfl, rfl⟩ rfl ?_
    simp [doW4, ScxRecord.toFreeze, ScxType.numToFreeze, hfX, hfXX, hfl, hfr, hf, hf5]
  · obtain ⟨hf, hrec⟩ := llx_bind.mp hrec
    obtain ⟨hf5, hrec⟩ := llx_bind.mp hrec
    cases hrec
  · obtain ⟨hf, hrec⟩ := llx_bind.mp hrec
    obtain ⟨-, hrec⟩ := llx_bind.mp hrec
    obtain ⟨hf5, hrec⟩ := llx_bind.mp hrec
    obtain rfl := Except.ok.inj hrec
    obtain ⟨h4, h4live⟩ := real_left hB hRlive hR hf.ne_zero
    have h5 := (real_left hB h4live h4 h0').1
    have := h4.nonneg
    refine h.ready_uX hB (plan_doW3 h2 hL hR h4 h5 rfl rfl rfl rfl hover wR (by omega) w5' hu)
      ⟨rfl, rfl⟩ rfl ?_
    simp [doW3, ScxRecord.toFreeze, ScxType.numToFreeze, hfX, hfXX, hfl, hfr, hf, hf5]
  · obtain ⟨hf, hrec⟩ := llx_bind.mp hrec
    obtain ⟨-, hrec⟩ := llx_bind.mp hrec
    obtain ⟨-, hrec⟩ := llx_bind.mp hrec
    obtain rfl := Except.ok.inj hrec
    have h4 := (real_left hB hRlive hR hf.ne_zero).1
    have := h4.nonneg
    refine h.ready_uX hB (plan_w12 ⟨rfl, rfl⟩ h2 hL hR h4 rfl rfl rfl hover wR (by omega) le_rfl
      (fun h => absurd h h0') hu) ⟨rfl, rfl⟩ rfl ?_
    simp [doW2, ScxRecord.toFreeze, ScxType.numToFreeze, hfX, hfXX, hfl, hfr, hf]
  -- the sibling has weight one
  · obtain ⟨hfR, hrec⟩ := llx_bind.mp hrec
    obtain ⟨hfL, hrec⟩ := llx_bind.mp hrec
    obtain rfl := Except.ok.inj hrec
    have h4 := (real_right hB hRlive hR hfR.ne_zero).1
    refine h.ready_uX hB (plan_doW5 h2 hL hR h4 rfl rfl rfl hover wR' w4 hu) ⟨rfl, rfl⟩ rfl ?_
    simp [doW5, ScxRecord.toFreeze, ScxType.numToFreeze, hfX, hfXX, hfl, hfr, hfR]
  · obtain ⟨hfR, hrec⟩ := llx_bind.mp hrec
    obtain ⟨hfL, hrec⟩ := llx_bind.mp hrec
    obtain rfl := Except.ok.inj hrec
    have h4 := (real_left hB hRlive hR hfL.ne_zero).1
    refine h.ready_uX hB (plan_doW6 h2 hL hR h4 rfl rfl rfl hover wR' w4 hu) ⟨rfl, rfl⟩ rfl ?_
    simp [doW6, ScxRecord.toFreeze, ScxType.numToFreeze, hfX, hfXX, hfl, hfr, hfL]
  · obtain ⟨hfR, hrec⟩ := llx_bind.mp hrec
    obtain ⟨hfL, hrec⟩ := llx_bind.mp hrec
    obtain rfl := Except.ok.inj hrec
    refine h.ready_uX hB (plan_doPush h2 hL hR rfl rfl hover wR' h0) ⟨rfl, rfl⟩ rfl ?_
    simp [doPush, ScxRecord.toFreeze, ScxType.numToFreeze, hfX, hfXX, hfl, hfr]
  -- the sibling is overweight
  · obtain rfl := Except.ok.inj hrec
    have := hR.nonneg
    refine h.ready_uX hB (plan_doW7 h2 hL hR rfl rfl hover (by omega)) ⟨rfl, rfl⟩ rfl ?_
    simp [doW7, ScxRecord.toFreeze, ScxType.numToFreeze, hfX, hfXX, hfl, hfr]

/-- **Overweight violations at the right child.** -/
theorem overweightRight_ready (h : Nodes cfg m u uX uXX) (hB : Base cfg m t)
    (hover : 1 < (m.node (m.node uXX).right).weight)
    (hrec : overweightRight cfg m u uX uXX (decide (uX = (m.node u).left))
      (decide (uXX = (m.node uX).left)) = .ok rec) : Ready cfg m rec k .keep := by
  have h2 := h.uXX_real
  have hu := h.top_weight hB
  have hfu := h.u_free
  have hfX := h.uX_free
  have hfXX := h.uXX_free
  have hfl := h.l_free
  have hfr := h.r_free
  obtain ⟨hL, hLlive⟩ := real_left hB h.uXX_live h2 hfl.ne_zero
  obtain ⟨hR, -⟩ := real_right hB h.uXX_live h2 hfr.ne_zero
  simp only [overweightRight] at hrec
  split_ifs at hrec with wL wXX hl wS wS w4 w4 h0 w5 h0' w5' wL' h0 w4 w4
  -- the parent of the violation and its sibling are red
  · obtain ⟨hf, hrec⟩ := llx_bind.mp hrec
    obtain rfl := Except.ok.inj hrec
    have hr := (real_left hB h.uX_live (h.uX_real hB wXX) hf.ne_zero).1
    refine h.ready_u hB wXX (plan_doBlk (h.uX_real hB wXX) hr h2 rfl
      (child_right h.uXX_child (by simpa using hl)) wS wXX fun _ => h.uX_weight hB wXX)
      ⟨rfl, rfl⟩ rfl ?_
    simp [doBlk, ScxRecord.toFreeze, ScxType.numToFreeze, hfu, hfX, hfXX, hf]
  · obtain ⟨hf, hrec⟩ := llx_bind.mp hrec
    obtain rfl := Except.ok.inj hrec
    refine h.ready_u hB wXX (plan_doRb2Sym (h.uX_real hB wXX) h2 hL
      (child_right h.uXX_child (by simpa using hl)) rfl wXX wL (h.top_weight' hB wXX))
      ⟨rfl, rfl⟩ rfl ?_
    simp [doRb2Sym, ScxRecord.toFreeze, ScxType.numToFreeze, hfu, hfX, hfXX, hfl]
  · obtain ⟨hf, hrec⟩ := llx_bind.mp hrec
    obtain rfl := Except.ok.inj hrec
    have hr := (real_right hB h.uX_live (h.uX_real hB wXX) hf.ne_zero).1
    refine h.ready_u hB wXX (plan_doBlk (h.uX_real hB wXX) h2 hr
      (child_left (by simpa using hl)) rfl wXX wS fun _ => h.uX_weight hB wXX) ⟨rfl, rfl⟩ rfl ?_
    simp [doBlk, ScxRecord.toFreeze, ScxType.numToFreeze, hfu, hfX, hfXX, hf]
  · obtain ⟨hf, hrec⟩ := llx_bind.mp hrec
    obtain rfl := Except.ok.inj hrec
    refine h.ready_u hB wXX (plan_doRb1 (h.uX_real hB wXX) h2 (child_left (by simpa using hl)) wXX
      (h.top_weight' hB wXX)) ⟨rfl, rfl⟩ rfl ?_
    simp [doRb1, ScxRecord.toFreeze, ScxType.numToFreeze, hfu, hfX, hfXX]
  -- the sibling is red
  · obtain ⟨-, hrec⟩ := llx_bind.mp hrec
    obtain ⟨hf, hrec⟩ := llx_bind.mp hrec
    obtain rfl := Except.ok.inj hrec
    have h4 := (real_right hB hLlive hL hf.ne_zero).1
    refine h.ready_uX hB (plan_w12Sym ⟨rfl, rfl⟩ h2 hL hR h4 rfl rfl rfl hover wL rfl (by omega)
      (fun _ => by omega) hu) ⟨rfl, rfl⟩ rfl ?_
    simp [doW1Sym, ScxRecord.toFreeze, ScxType.numToFreeze, hfX, hfXX, hfl, hfr, hf]
  · obtain ⟨-, hrec⟩ := llx_bind.mp hrec
    obtain ⟨hf, hrec⟩ := llx_bind.mp hrec
    obtain rfl := Except.ok.inj hrec
    have h4 := (real_right hB hLlive hL hf.ne_zero).1
    refine h.ready_uX hB (plan_doRb2 h2 hL h4 rfl rfl wL w4 hu) ⟨rfl, rfl⟩ rfl ?_
    simp [doRb2, ScxRecord.toFreeze, ScxType.numToFreeze, hfX, hfXX, hfl, hf]
  · obtain ⟨-, hrec⟩ := llx_bind.mp hrec
    obtain ⟨hf, hrec⟩ := llx_bind.mp hrec
    cases hrec
  · obtain ⟨-, hrec⟩ := llx_bind.mp hrec
    obtain ⟨hf, hrec⟩ := llx_bind.mp hrec
    obtain ⟨hf5, hrec⟩ := llx_bind.mp hrec
    obtain rfl := Except.ok.inj hrec
    obtain ⟨h4, h4live⟩ := real_right hB hLlive hL hf.ne_zero
    have h5 := (real_left hB h4live h4 h0).1
    have := h4.nonneg
    refine h.ready_uX hB (plan_doW4Sym h2 hL hR h4 h5 rfl rfl rfl rfl hover wL (by omega) w5 hu)
      ⟨rfl, rfl⟩ rfl ?_
    simp [doW4Sym, ScxRecord.toFreeze, ScxType.numToFreeze, hfX, hfXX, hfl, hfr, hf, hf5]
  · obtain ⟨-, hrec⟩ := llx_bind.mp hrec
    obtain ⟨hf, hrec⟩ := llx_bind.mp hrec
    obtain ⟨hf5, hrec⟩ := llx_bind.mp hrec
    cases hrec
  · obtain ⟨-, hrec⟩ := llx_bind.mp hrec
    obtain ⟨hf, hrec⟩ := llx_bind.mp hrec
    obtain ⟨-, hrec⟩ := llx_bind.mp hrec
    obtain ⟨hf5, hrec⟩ := llx_bind.mp hrec
    obtain rfl := Except.ok.inj hrec
    obtain ⟨h4, h4live⟩ := real_right hB hLlive hL hf.ne_zero
    have h5 := (real_right hB h4live h4 h0').1
    have := h4.nonneg
    refine h.ready_uX hB (plan_doW3Sym h2 hL hR h4 h5 rfl rfl rfl rfl hover wL (by omega) w5' hu)
      ⟨rfl, rfl⟩ rfl ?_
    simp [doW3Sym, ScxRecord.toFreeze, ScxType.numToFreeze, hfX, hfXX, hfl, hfr, hf, hf5]
  · obtain ⟨-, hrec⟩ := llx_bind.mp hrec
    obtain ⟨hf, hrec⟩ := llx_bind.mp hrec
    obtain ⟨-, hrec⟩ := llx_bind.mp hrec
    obtain ⟨-, hrec⟩ := llx_bind.mp hrec
    obtain rfl := Except.ok.inj hrec
    have h4 := (real_right hB hLlive hL hf.ne_zero).1
    have := h4.nonneg
    refine h.ready_uX hB (plan_w12Sym ⟨rfl, rfl⟩ h2 hL hR h4 rfl rfl rfl hover wL (by omega)
      le_rfl (fun h => absurd h (h4.left_ne_of_right h0')) hu) ⟨rfl, rfl⟩ rfl ?_
    simp [doW2Sym, ScxRecord.toFreeze, ScxType.numToFreeze, hfX, hfXX, hfl, hfr, hf]
  -- the sibling has weight one
  · obtain ⟨hfL, hrec⟩ := llx_bind.mp hrec
    obtain ⟨hfR, hrec⟩ := llx_bind.mp hrec
    obtain rfl := Except.ok.inj hrec
    have h4 := (real_left hB hLlive hL hfL.ne_zero).1
    refine h.ready_uX hB (plan_doW5Sym h2 hL hR h4 rfl rfl rfl hover wL' w4 hu) ⟨rfl, rfl⟩ rfl ?_
    simp [doW5Sym, ScxRecord.toFreeze, ScxType.numToFreeze, hfX, hfXX, hfl, hfr, hfL]
  · obtain ⟨hfL, hrec⟩ := llx_bind.mp hrec
    obtain ⟨hfR, hrec⟩ := llx_bind.mp hrec
    obtain rfl := Except.ok.inj hrec
    have h4 := (real_right hB hLlive hL hfR.ne_zero).1
    refine h.ready_uX hB (plan_doW6Sym h2 hL hR h4 rfl rfl rfl hover wL' w4 hu) ⟨rfl, rfl⟩ rfl ?_
    simp [doW6Sym, ScxRecord.toFreeze, ScxType.numToFreeze, hfX, hfXX, hfl, hfr, hfR]
  · obtain ⟨hfL, hrec⟩ := llx_bind.mp hrec
    obtain ⟨hfR, hrec⟩ := llx_bind.mp hrec
    obtain rfl := Except.ok.inj hrec
    refine h.ready_uX hB (plan_doPushSym h2 hL hR rfl rfl hover wL'
      (hL.left_ne_of_right h0)) ⟨rfl, rfl⟩ rfl ?_
    simp [doPushSym, ScxRecord.toFreeze, ScxType.numToFreeze, hfX, hfXX, hfl, hfr]
  -- the sibling is overweight
  · obtain rfl := Except.ok.inj hrec
    have := hL.nonneg
    refine h.ready_uX hB (plan_doW7Sym h2 hL hR rfl rfl (by omega) hover) ⟨rfl, rfl⟩ rfl ?_
    simp [doW7Sym, ScxRecord.toFreeze, ScxType.numToFreeze, hfX, hfXX, hfl, hfr]

end Nodes

/-- The nodes after the first LLXs and checks: a sentinel with children has the root above it, and
nothing is above the root. -/
theorem Nodes.of_checks (hB : Base cfg m t) (hcur : RebalanceCursor m cur)
    (hfu : Free m cur.ggp) (hcX : cur.gp = (m.node cur.ggp).left ∨ cur.gp = (m.node cur.ggp).right)
    (hfX : Free m cur.gp) (hcXX : cur.p = (m.node cur.gp).left ∨ cur.p = (m.node cur.gp).right)
    (hfXX : Free m cur.p) (hl : (m.node cur.p).left ≠ 0) :
    Live m cur.ggp ∧ Edge m cur.ggp cur.gp ∧ Edge m cur.gp cur.p ∧ RealNode cfg m cur.p := by
  have hT := hB.tree
  have hlu := hB.live_of_free hfu hcur.u_lt hcur.u_internal
  have eu : Edge m cur.ggp cur.gp := ⟨hfX.ne_zero, hcX.imp Eq.symm Eq.symm⟩
  have eX : Edge m cur.gp cur.p := ⟨hfXX.ne_zero, hcXX.imp Eq.symm Eq.symm⟩
  have hlX := hlu.edge eu
  refine ⟨hlu, eu, eX, hB.realNode (hlX.edge eX) fun hk => ?_⟩
  cases hT.edgeKind hlX eX with
  | root hx => exact hT.edge_ne_root hlu eu hx
  | top _ _ hy => exact hy hk
  | sentinel _ _ _ h0 => exact hl h0
  | real _ _ hy => exact hy hk

omit [LinearOrder K] in
/-- A violation that is no overweight is a red-red one: no real leaf is red. -/
theorem RebalanceCursor.red (hcur : RebalanceCursor m cur) (hl : RealNode cfg m cur.l)
    (hw : (m.node cur.l).weight ≠ 1) (hgt : ¬ 1 < (m.node cur.l).weight) :
    (m.node cur.l).weight = 0 ∧ (m.node cur.p).weight = 0 := by
  rcases hcur.violation with hv | hv | hv
  · have := hl.leaf_pos hv
    omega
  · exact absurd hv hgt
  · exact hv

/-- **A rebalancing step whose LLXs and checks succeed may commit its SCX.** -/
theorem rebalanceScx_ready (hB : Base cfg m t) (hcur : RebalanceCursor m cur)
    (h : rebalanceScx cfg m cur = .ok rec) : Ready cfg m rec k .keep := by
  unfold rebalanceScx at h
  split_ifs at h with hw1
  obtain ⟨hfu, h⟩ := llx_bind.mp h
  obtain ⟨hcX, h⟩ := checkChild_bind.mp h
  obtain ⟨hfX, h⟩ := llx_bind.mp h
  obtain ⟨hcXX, h⟩ := checkChild_bind.mp h
  obtain ⟨hfXX, h⟩ := llx_bind.mp h
  obtain ⟨hcl, h⟩ := checkChild_bind.mp h
  obtain ⟨hfl, h⟩ := llx_bind.mp h
  obtain ⟨hfr, h⟩ := llx_bind.mp h
  obtain ⟨hlu, eu, eX, hXX⟩ := Nodes.of_checks hB hcur hfu hcX hfX hcXX hfXX hfl.ne_zero
  have hn : Nodes cfg m cur.ggp cur.gp cur.p :=
    ⟨hfu, hfX, hfXX, hfl, hfr, hlu, eu, eX, hcX, hcXX, hXX, hcur.above⟩
  have hside := side_of_child hcl
  have el : Edge m cur.p cur.l := by
    refine ⟨?_, hcl.imp Eq.symm Eq.symm⟩
    rcases hcl with hl | hl
    · exact hl ▸ hfl.ne_zero
    · exact hl ▸ hfr.ne_zero
  split_ifs at h with hgt hleft
  · refine hn.overweightLeft_ready hB ?_ h
    rwa [Nodes.child_left hleft]
  · refine hn.overweightRight_ready hB ?_ h
    rwa [Nodes.child_right hcl hleft]
  · obtain ⟨hl0, hp0⟩ := hcur.red (hB.real_edge hn.uXX_live hXX.real el) hw1 hgt
    exact hn.redRed_ready hB hp0 (by rw [hside]; exact hl0) h

end Rebalance

end Cbat
