/-
**Why an attempt fails.**

The functions around LLX and SCX test for null pointers and for nodes that do not fit together, and
they follow pointers without a test where the weights say that there must be a child.  In the trees
that occur, an attempt never follows a null pointer; and apart from an LLX that finds a node frozen
or marked, no test around a violation ever fails, because the tree is balanced.

Main definitions:

* `Cbat.HasHeight` — the weight on all paths from a node to the leaves below it;
* `Cbat.Stuck` — some live node is frozen or marked.

Main results:

* `Cbat.rebalanceScx_error`, `Cbat.attempt_error` — **an attempt only fails because of another
  thread**;
* `Cbat.Reachable.ne_crash` — no thread ever follows a null pointer or pops an empty stack.
-/

import Cbat.Calls
import Cbat.Runs

set_option relaxedAutoImplicit false
set_option autoImplicit false

namespace Cbat

variable {K V : Type} {m : Mem K V}

/-! ### Heights -/

/-- All paths from `x` to a leaf have the weight `h`, and no weight is negative. -/
def HasHeight (m : Mem K V) (x : ℕ) (h : ℤ) : Prop :=
  ∃ u : LTree (Cell K V), m.Rep u ∧ u.label.id = x ∧ u.Bal Cell.weight h ∧ 0 ∉ ids u ∧
    ∀ c ∈ u.labels, 0 ≤ c.weight

/-- A subtree of a balanced tree is balanced. -/
theorem Mem.Rep.hasHeight {t : LTree (Cell K V)} (hr : m.Rep t) {h : ℤ} (hb : t.Bal Cell.weight h)
    (h0 : 0 ∉ ids t) (hn : ∀ c ∈ t.labels, 0 ≤ c.weight) {x : ℕ} (hx : x ∈ ids t) :
    ∃ h', HasHeight m x h' := by
  induction t generalizing h with
  | leaf c =>
      obtain rfl : x = c.id := by simpa using hx
      exact ⟨h, .leaf c, hr, rfl, hb, h0, hn⟩
  | node c l r ihl ihr =>
      simp only [ids_node, List.mem_cons, List.mem_append] at hx
      rcases hx with rfl | hx | hx
      · exact ⟨h, .node c l r, hr, rfl, hb, h0, hn⟩
      · exact ihl hr.2.1 hb.1 (by simp_all) (fun d hd => hn d (by simp [hd])) hx
      · exact ihr hr.2.2 hb.2 (by simp_all) (fun d hd => hn d (by simp [hd])) hx

theorem Mem.Rep.label_weight {t : LTree (Cell K V)} (hr : m.Rep t) :
    t.label.weight = (m.node t.label.id).weight := by
  cases t with
  | leaf c => exact hr.weight.symm
  | node c l r => exact hr.1.weight.symm

namespace HasHeight

variable {x : ℕ} {h : ℤ}

theorem leaf (hh : HasHeight m x h) (hl : (m.node x).left = 0) : (m.node x).weight = h := by
  obtain ⟨u, hr, rfl, hb, h0, hn⟩ := hh
  cases u with
  | leaf c => exact hr.weight.trans hb
  | node c l r =>
      refine absurd (hr.1.left.symm.trans hl) fun he => h0 ?_
      rw [ids_node, ← he]
      simp [label_id_mem_ids]

theorem left (hh : HasHeight m x h) (hl : (m.node x).left ≠ 0) :
    HasHeight m (m.node x).left (h - (m.node x).weight) := by
  obtain ⟨u, hr, rfl, hb, h0, hn⟩ := hh
  cases u with
  | leaf c => exact absurd hr.left hl
  | node c l r =>
      refine ⟨l, hr.2.1, hr.1.left.symm, ?_, by simp_all, fun d hd => hn d (by simp [hd])⟩
      rw [LTree.label_node, hr.1.weight]
      exact hb.1

theorem right (hh : HasHeight m x h) (hl : (m.node x).left ≠ 0) :
    HasHeight m (m.node x).right (h - (m.node x).weight) := by
  obtain ⟨u, hr, rfl, hb, h0, hn⟩ := hh
  cases u with
  | leaf c => exact absurd hr.left hl
  | node c l r =>
      refine ⟨r, hr.2.2, hr.1.right.symm, ?_, by simp_all, fun d hd => hn d (by simp [hd])⟩
      rw [LTree.label_node, hr.1.weight]
      exact hb.2

theorem weight_le (hh : HasHeight m x h) : (m.node x).weight ≤ h := by
  obtain ⟨u, hr, rfl, hb, -, hn⟩ := hh
  rw [← hr.label_weight]
  exact hb.label_le hn

end HasHeight

/-- **A live real node has a height.** -/
theorem Base.hasHeight [LinearOrder K] {cfg : Cfg K V} {t : LTree (Cell K V)} (hB : Base cfg m t)
    {x : ℕ} (hx : Live m x) (hk : (m.node x).key ≠ cfg.noKey) : ∃ h, HasHeight m x h := by
  have hT := hB.tree
  have hrep := hT.rep
  have hmem := (hT.live_iff.mp hx).resolve_left fun hr => hk (hr ▸ hT.root_key)
  rcases hT.shape with ⟨s, rfl, hs⟩ | ⟨rl, s, T, rfl, hrl, -, hs, hreal⟩
  · obtain rfl : x = s.id := by simpa using hmem
    exact absurd (hrep.key.trans hs) hk
  · simp only [ids_node, ids_leaf, List.mem_cons, List.mem_append, List.not_mem_nil,
      or_false] at hmem
    rcases hmem with rfl | hmem | rfl
    · exact absurd (hrep.1.key.trans hrl) hk
    · obtain ⟨h, hbal⟩ := hreal.balanced
      exact hrep.2.1.hasHeight hbal (fun hz => hT.zero_notMem (by simp [hz])) hreal.nonneg hmem
    · exact absurd (hrep.2.2.key.trans hs) hk

/-! ### LLX that fail -/

/-- Some node of the tree is frozen or marked. -/
def Stuck (m : Mem K V) : Prop := ∃ x, Live m x ∧ ¬ Free m x

/-- The attempt fails since some node is frozen or marked. -/
def Blocked (m : Mem K V) (e : Stop) : Prop := e = .retry ∧ Stuck m

/-- The attempt fails since some node is frozen or marked, or since the nodes of its search are not
`P` any more. -/
def Fault (m : Mem K V) (P : Prop) (e : Stop) : Prop := e = .retry ∧ (P → Stuck m)

section Errors

variable [LinearOrder K] {cfg : Cfg K V} {t : LTree (Cell K V)} {e : Stop} {α : Type} {x : ℕ}

omit [LinearOrder K] in
theorem Blocked.fault {P : Prop} (h : Blocked m e) : Fault m P e := ⟨h.1, fun _ => h.2⟩

omit [LinearOrder K] in
theorem llx_fault {P : Prop} {f : Unit → Except Stop α} (h0 : x ≠ 0) (hP : P → Live m x)
    (h : (llx m x >>= f) = .error e) (hf : Free m x → f () = .error e → Fault m P e) :
    Fault m P e := by
  unfold llx at h
  rw [if_neg h0] at h
  split_ifs at h with hfree
  · refine ⟨(Except.error.inj h).symm, fun hp => ⟨x, hP hp, fun hf => ?_⟩⟩
    rw [hf.frozen, hf.marked] at hfree
    exact absurd hfree (by simp)
  · rw [Bool.or_eq_true, not_or, Bool.not_eq_true, Bool.not_eq_true] at hfree
    exact hf ⟨h0, hfree.1, hfree.2⟩ h

omit [LinearOrder K] in
theorem checkChild_fault {P : Prop} {p c : ℕ} {f : Unit → Except Stop α} (hP : P → Edge m p c)
    (h : (checkChild m p c >>= f) = .error e)
    (hf : c = (m.node p).left ∨ c = (m.node p).right → f () = .error e → Fault m P e) :
    Fault m P e := by
  unfold checkChild at h
  split_ifs at h with hc
  · exact hf hc h
  · exact ⟨(Except.error.inj h).symm, fun hp => absurd ((hP hp).2.imp Eq.symm Eq.symm) hc⟩

/-- An LLX of a node of the tree with the rest of the attempt. -/
theorem Base.llx_then (hB : Base cfg m t) (hx : Live m x) {f : Unit → Except Stop α}
    (h : (llx m x >>= f) = .error e) (hf : f () = .error e → Blocked m e) : Blocked m e := by
  obtain ⟨he, hs⟩ := llx_fault (hB.tree.live_ne_zero hx) (fun _ : True => hx) h
    fun _ h => (hf h).fault
  exact ⟨he, hs trivial⟩

/-- The last LLX before an SCX. -/
theorem Base.llx_last (hB : Base cfg m t) (hx : Live m x) {r : α}
    (h : (llx m x >>= fun _ => .ok r) = .error e) : Blocked m e :=
  hB.llx_then hx h fun h => nomatch h

/-- A real node of the tree with its height. -/
structure Placed (cfg : Cfg K V) (m : Mem K V) (x : ℕ) (h : ℤ) : Prop where
  live : Live m x
  real : RealNode cfg m x
  height : HasHeight m x h

/-- A node that is lighter than it is high has two children. -/
theorem Placed.children {h : ℤ} (hx : Placed cfg m x h) (hB : Base cfg m t)
    (hw : (m.node x).weight < h) :
    Placed cfg m (m.node x).left (h - (m.node x).weight) ∧
      Placed cfg m (m.node x).right (h - (m.node x).weight) := by
  have hl : (m.node x).left ≠ 0 := fun hl => absurd (hx.height.leaf hl) hw.ne
  obtain ⟨hL, hLlive⟩ := Nodes.real_left hB hx.live hx.real hl
  obtain ⟨hR, hRlive⟩ := Nodes.real_right hB hx.live hx.real fun hr => hl (hx.real.full.mpr hr)
  exact ⟨⟨hLlive, hL, hx.height.left hl⟩, ⟨hRlive, hR, hx.height.right hl⟩⟩

namespace Nodes

variable {u uX uXX : ℕ}

/-- The children of the parent of a red node are in the tree. -/
theorem uX_children_live (h : Nodes cfg m u uX uXX) (hB : Base cfg m t)
    (hw : (m.node uXX).weight = 0) : Live m (m.node uX).left ∧ Live m (m.node uX).right := by
  have hX := h.uX_real hB hw
  have hl : (m.node uX).left ≠ 0 := by
    intro hl
    rcases h.uXX_child with he | he
    · exact h.uXX_real.ne_zero (he.trans hl)
    · exact h.uXX_real.ne_zero (he.trans (hX.full.mp hl))
  exact ⟨h.uX_live.edge ⟨hl, .inl rfl⟩, h.uX_live.edge ⟨fun hr => hl (hX.full.mpr hr), .inr rfl⟩⟩

/-- **Red-red violations.** -/
theorem redRed_error (h : Nodes cfg m u uX uXX) (hB : Base cfg m t)
    (hw : (m.node uXX).weight = 0) {b b' b'' : Bool}
    (he : redRed cfg m u uX uXX b b' b'' = .error e) : Blocked m e := by
  obtain ⟨hXl, hXr⟩ := h.uX_children_live hB hw
  have hl := h.uXX_live.edge ⟨h.l_free.ne_zero, .inl rfl⟩
  have hr := h.uXX_live.edge ⟨h.r_free.ne_zero, .inr rfl⟩
  simp only [redRed] at he
  split_ifs at he
  · exact hB.llx_last hXr he
  · exact hB.llx_last hXr he
  · exact hB.llx_then hXr he (hB.llx_last hr)
  · exact hB.llx_last hXl he
  · exact hB.llx_last hXl he
  · exact hB.llx_then hXl he (hB.llx_last hl)

/-- The two children of a node have one height. -/
theorem children_placed (h : Nodes cfg m u uX uXX) (hB : Base cfg m t) :
    ∃ H, Placed cfg m (m.node uXX).left H ∧ Placed cfg m (m.node uXX).right H := by
  obtain ⟨H, hH⟩ := hB.hasHeight h.uXX_live h.uXX_real.real
  obtain ⟨hL, hLlive⟩ := real_left hB h.uXX_live h.uXX_real h.l_free.ne_zero
  obtain ⟨hR, hRlive⟩ := real_right hB h.uXX_live h.uXX_real h.r_free.ne_zero
  exact ⟨_, ⟨hLlive, hL, hH.left h.l_free.ne_zero⟩, ⟨hRlive, hR, hH.right h.l_free.ne_zero⟩⟩

/-- **Overweight violations at the left child.** -/
theorem overweightLeft_error (h : Nodes cfg m u uX uXX) (hB : Base cfg m t)
    (hover : 1 < (m.node (m.node uXX).left).weight) {b b' : Bool}
    (he : overweightLeft cfg m u uX uXX b b' = .error e) : Blocked m e := by
  obtain ⟨H, hL, hR⟩ := h.children_placed hB
  have hH : 1 < H := hover.trans_le hL.height.weight_le
  simp only [overweightLeft] at he
  split_ifs at he with wR wXX hl wS wS w4 w4 h0 w5 h0' w5' wR' h0 w4 w4
  -- the parent of the violation and its sibling are red
  · exact hB.llx_last (h.uX_children_live hB wXX).2 he
  · exact hB.llx_last (h.uX_children_live hB wXX).2 he
  · exact hB.llx_last (h.uX_children_live hB wXX).1 he
  · exact hB.llx_last (h.uX_children_live hB wXX).1 he
  -- the sibling is red, its child is as high as the violation, and so it has children too
  · exact hB.llx_last (hR.children hB (by omega)).1.live he
  · exact hB.llx_last (hR.children hB (by omega)).1.live he
  · have hRL := (hR.children hB (by omega)).1
    exact absurd h0 (hRL.children hB (by omega)).2.real.ne_zero
  · have hRL := (hR.children hB (by omega)).1
    refine hB.llx_then hRL.live he fun he => ?_
    exact hB.llx_last (hRL.children hB (by omega)).2.live he
  · have hRL := (hR.children hB (by omega)).1
    exact absurd h0' (hRL.children hB (by omega)).1.real.ne_zero
  · have hRL := (hR.children hB (by omega)).1
    obtain ⟨hRLL, hRLR⟩ := hRL.children hB (by omega)
    exact hB.llx_then hRL.live he fun he => hB.llx_then hRLR.live he (hB.llx_last hRLL.live)
  · have hRL := (hR.children hB (by omega)).1
    obtain ⟨hRLL, hRLR⟩ := hRL.children hB (by omega)
    exact hB.llx_then hRL.live he fun he => hB.llx_then hRLR.live he (hB.llx_last hRLL.live)
  -- the sibling has weight one
  · exact absurd h0 (hR.children hB (by omega)).1.real.ne_zero
  · obtain ⟨hRL, hRR⟩ := hR.children hB (by omega)
    exact hB.llx_then hRR.live he (hB.llx_last hRL.live)
  · obtain ⟨hRL, hRR⟩ := hR.children hB (by omega)
    exact hB.llx_then hRR.live he (hB.llx_last hRL.live)
  · obtain ⟨hRL, hRR⟩ := hR.children hB (by omega)
    exact hB.llx_then hRR.live he (hB.llx_last hRL.live)
  · cases he

/-- **Overweight violations at the right child.** -/
theorem overweightRight_error (h : Nodes cfg m u uX uXX) (hB : Base cfg m t)
    (hover : 1 < (m.node (m.node uXX).right).weight) {b b' : Bool}
    (he : overweightRight cfg m u uX uXX b b' = .error e) : Blocked m e := by
  obtain ⟨H, hL, hR⟩ := h.children_placed hB
  have hH : 1 < H := hover.trans_le hR.height.weight_le
  simp only [overweightRight] at he
  split_ifs at he with wL wXX hl wS wS w4 w4 h0 w5 h0' w5' wL' h0 w4 w4
  -- the parent of the violation and its sibling are red
  · exact hB.llx_last (h.uX_children_live hB wXX).1 he
  · exact hB.llx_last (h.uX_children_live hB wXX).1 he
  · exact hB.llx_last (h.uX_children_live hB wXX).2 he
  · exact hB.llx_last (h.uX_children_live hB wXX).2 he
  -- the sibling is red, its child is as high as the violation, and so it has children too
  · exact hB.llx_then hL.live he (hB.llx_last (hL.children hB (by omega)).2.live)
  · exact hB.llx_then hL.live he (hB.llx_last (hL.children hB (by omega)).2.live)
  · have hLR := (hL.children hB (by omega)).2
    exact absurd h0 (hLR.children hB (by omega)).1.real.ne_zero
  · have hLR := (hL.children hB (by omega)).2
    have hLRL := (hLR.children hB (by omega)).1
    exact hB.llx_then hL.live he fun he => hB.llx_then hLR.live he (hB.llx_last hLRL.live)
  · have hLR := (hL.children hB (by omega)).2
    exact absurd h0' (hLR.children hB (by omega)).2.real.ne_zero
  · have hLR := (hL.children hB (by omega)).2
    obtain ⟨hLRL, hLRR⟩ := hLR.children hB (by omega)
    exact hB.llx_then hL.live he fun he => hB.llx_then hLR.live he fun he =>
      hB.llx_then hLRL.live he (hB.llx_last hLRR.live)
  · have hLR := (hL.children hB (by omega)).2
    obtain ⟨hLRL, hLRR⟩ := hLR.children hB (by omega)
    exact hB.llx_then hL.live he fun he => hB.llx_then hLR.live he fun he =>
      hB.llx_then hLRL.live he (hB.llx_last hLRR.live)
  -- the sibling has weight one
  · exact absurd h0 (hL.children hB (by omega)).2.real.ne_zero
  · obtain ⟨hLL, hLR⟩ := hL.children hB (by omega)
    exact hB.llx_then hLL.live he (hB.llx_last hLR.live)
  · obtain ⟨hLL, hLR⟩ := hL.children hB (by omega)
    exact hB.llx_then hLL.live he (hB.llx_last hLR.live)
  · obtain ⟨hLL, hLR⟩ := hL.children hB (by omega)
    exact hB.llx_then hLL.live he (hB.llx_last hLR.live)
  · cases he

end Nodes

/-! ### Attempts that fail -/


variable {cur : Cursor} {c : Call K V} {k : K}

/-- **An insertion.** -/
theorem insertScx_error (hp : cur.p ≠ 0) (he : insertScx cfg m c cur = .error e) :
    Fault m (Live m cur.p ∧ Edge m cur.p cur.l) e := by
  unfold insertScx at he
  refine llx_fault hp And.left he fun _ he => checkChild_fault And.right he fun _ he => ?_
  split_ifs at he <;> exact nomatch he

omit [LinearOrder K] in
/-- **A deletion** up to the output of its result. -/
theorem eraseParents_error (hg : cur.gp ≠ 0) (hp : cur.p ≠ 0)
    (he : eraseParents m cur = .error e) :
    Fault m (Live m cur.gp ∧ Edge m cur.gp cur.p ∧ Edge m cur.p cur.l) e := by
  unfold eraseParents at he
  refine llx_fault hg And.left he fun _ he => checkChild_fault (fun h => h.2.1) he fun _ he =>
    llx_fault hp (fun h => h.1.edge h.2.1) he fun _ he => ?_
  unfold checkChild at he
  split_ifs at he with hc
  exact ⟨(Except.error.inj he).symm, fun h => absurd (h.2.2.2.imp Eq.symm Eq.symm) hc⟩

/-- **The rest of a deletion**: the sibling of a leaf that was found is in the tree. -/
theorem eraseScx_error (hB : Base cfg m t) (hcur : EraseCursor cfg m k cur.gp cur.p cur.l)
    (hpar : eraseParents m cur = .ok ()) (he : eraseScx cfg m cur = .error e) : Blocked m e := by
  unfold eraseParents at hpar
  obtain ⟨hfg, h⟩ := llx_bind.mp hpar
  obtain ⟨hcp, h⟩ := checkChild_bind.mp h
  obtain ⟨hfp, h⟩ := llx_bind.mp h
  have hlg := hB.live_of_free hfg hcur.gp_lt hcur.gp_internal
  have egp : Edge m cur.gp cur.p := ⟨hfp.ne_zero, hcp.imp Eq.symm Eq.symm⟩
  have hlp := hlg.edge egp
  have hr : (m.node cur.p).right ≠ 0 := hB.closed.full cur.p (hB.tree.live_lt hlp)
    (hB.tree.edge_ne_root hlg egp) hcur.p_internal
  unfold eraseScx at he
  refine hB.llx_last ?_ he
  split_ifs
  · exact hlp.edge ⟨hr, .inr rfl⟩
  · exact hlp.edge ⟨hcur.p_internal, .inl rfl⟩

/-- **A rebalancing step.** -/
theorem rebalanceScx_error (hB : Base cfg m t) (hcur : RebalanceCursor m cur) (hu : cur.ggp ≠ 0)
    (hX : cur.gp ≠ 0) (hXX : cur.p ≠ 0) (hXXi : (m.node cur.p).left ≠ 0) (hl : cur.l ≠ 0)
    (hw : (m.node cur.l).weight ≠ 1) (he : rebalanceScx cfg m cur = .error e) :
    Fault m (Live m cur.ggp ∧ Edge m cur.ggp cur.gp ∧ Edge m cur.gp cur.p ∧
      Edge m cur.p cur.l) e := by
  unfold rebalanceScx at he
  rw [if_neg hw] at he
  refine llx_fault hu And.left he fun hfu he => checkChild_fault (fun h => h.2.1) he fun hcX he =>
    llx_fault hX (fun h => h.1.edge h.2.1) he fun hfX he =>
    checkChild_fault (fun h => h.2.2.1) he fun hcXX he =>
    llx_fault hXX (fun h => (h.1.edge h.2.1).edge h.2.2.1) he fun hfXX he =>
    checkChild_fault (fun h => h.2.2.2) he fun hcl he => ?_
  obtain ⟨hlu, eu, eX, hreal⟩ := Nodes.of_checks hB hcur hfu hcX hfX hcXX hfXX hXXi
  have hlXX := (hlu.edge eu).edge eX
  obtain ⟨-, hL⟩ := Nodes.real_left hB hlXX hreal hXXi
  obtain ⟨-, hR⟩ := Nodes.real_right hB hlXX hreal fun hr => hXXi (hreal.full.mpr hr)
  refine llx_fault (hB.tree.live_ne_zero hL) (fun _ => hL) he fun hfl he =>
    llx_fault (hB.tree.live_ne_zero hR) (fun _ => hR) he fun hfr he => Blocked.fault ?_
  have hn : Nodes cfg m cur.ggp cur.gp cur.p :=
    ⟨hfu, hfX, hfXX, hfl, hfr, hlu, eu, eX, hcX, hcXX, hreal, hcur.above⟩
  have el : Edge m cur.p cur.l := ⟨hl, hcl.imp Eq.symm Eq.symm⟩
  split_ifs at he with hgt hleft
  · refine hn.overweightLeft_error hB ?_ he
    rwa [Nodes.child_left hleft]
  · refine hn.overweightRight_error hB ?_ he
    rwa [Nodes.child_right hcl hleft]
  · exact hn.redRed_error hB (hcur.red (hB.real_edge hlXX hreal.real el) hw hgt).2 he

/-- The nodes that an attempt checks are still joined as the search has found them. -/
def Joined (m : Mem K V) (c : Call K V) (cur : Cursor) : Mode → Prop
  | .rebalance =>
      Live m cur.ggp ∧ Edge m cur.ggp cur.gp ∧ Edge m cur.gp cur.p ∧ Edge m cur.p cur.l
  | .update =>
      if c.kind = .erase then Live m cur.gp ∧ Edge m cur.gp cur.p ∧ Edge m cur.p cur.l
      else Live m cur.p ∧ Edge m cur.p cur.l

/-- **An attempt only fails because of another thread.** -/
theorem attempt_error {md : Mode} {c' : Call K V} (hB : Base cfg m t)
    (hE : EndOk cfg m c.key md cur) (h : attempt cfg m c md cur = (c', .error e)) :
    e = .finish ∨ Fault m (Joined m c cur md) e := by
  unfold attempt at h
  cases md with
  | rebalance =>
      by_cases hw : (m.node cur.l).weight = 1
      · unfold rebalanceScx at h
        rw [if_pos hw] at h
        exact .inl (Except.error.inj (Prod.mk.inj h).2).symm
      · exact .inr (rebalanceScx_error hB
          ⟨hE.ggp.lt, hE.ggp.internal, hE.violation rfl, hE.above rfl⟩ hE.ggp.ne_zero hE.gp.ne_zero
          hE.p.ne_zero hE.p.internal hE.l.ne_zero hw (Prod.mk.inj h).2)
  | update =>
      have hins : ∀ r, insertScx cfg m c cur = r → r = .error e → c.kind ≠ .erase →
          Fault m (Joined m c cur .update) e := by
        rintro r hr rfl hk
        simp only [Joined, if_neg hk]
        exact insertScx_error hE.p.ne_zero hr
      cases hkind : c.kind with
      | erase =>
          simp only [hkind] at h
          split_ifs at h with hkl
          · exact .inl (Except.error.inj (Prod.mk.inj h).2).symm
          · simp only [Joined, if_pos hkind]
            cases hp : eraseParents m cur with
            | error e' =>
                simp only [hp, Prod.mk.injEq, Except.error.injEq] at h
                exact .inr (h.2 ▸ eraseParents_error hE.gp.ne_zero hE.p.ne_zero hp)
            | ok u =>
                cases hs : eraseScx cfg m cur with
                | error e' =>
                    simp only [hp, hs, Prod.mk.injEq, Except.error.injEq] at h
                    exact .inr (h.2 ▸ (eraseScx_error hB hE.eraseCursor hp hs).fault)
                | ok rec => simp [hp, hs] at h
      | insert =>
          simp only [hkind] at h
          cases hs : insertScx cfg m c cur with
          | error e' =>
              simp only [hs, Prod.mk.injEq, Except.error.injEq] at h
              exact .inr (hins _ hs (by rw [h.2]) (by simp [hkind]))
          | ok rec => simp [hs] at h
      | insertIfAbsent =>
          simp only [hkind] at h
          split_ifs at h with hkl
          · exact .inl (Except.error.inj (Prod.mk.inj h).2).symm
          · cases hs : insertScx cfg m c cur with
            | error e' =>
                simp only [hs, Prod.mk.injEq, Except.error.injEq] at h
                exact .inr (hins _ hs (by rw [h.2]) (by simp [hkind]))
            | ok rec => simp [hs] at h

/-! ### No crash -/

theorem attempt_ne_crash {md : Mode} {c' : Call K V} (hB : Base cfg m t)
    (hE : EndOk cfg m c.key md cur) : attempt cfg m c md cur ≠ (c', .error .crash) := by
  intro h
  rcases attempt_error hB hE h with he | he
  · exact nomatch he
  · exact nomatch he.1

theorem PropStep.ne_crash {m' : Mem K V} {pc pc' : PC K V} (h : PropStep cfg m pc m' pc')
    (hpc : PcOk cfg m pc) : pc' ≠ .crash := by
  have hcall : ∀ {pc : PC K V} {c : Call K V}, pc.propCall = some c → pc ≠ .crash := by
    rintro _ _ h rfl
    exact nomatch h
  cases h with
  | emptyChild hst => exact absurd hst hpc.stack.toTrail.ne_nil
  | emptyPop hst => exact absurd hst hpc.1.stack.toTrail.ne_nil
  | returned _ => exact hcall (refreshed_propCall ..)
  | marked _ => exact hcall (inserted_propCall ..)
  | delegate _ => split_ifs <;> exact nofun
  | _ => exact nofun

omit [LinearOrder K] in
theorem finished_ne_crash (c : Call K V) (md : Mode) : finished c md ≠ .crash := by
  rcases finished_cases c md with h | h <;> intro he <;> rw [he] at h <;> exact nomatch h

theorem CallStep.ne_crash {m' : Mem K V} {pc pc' : PC K V} (hB : Base cfg m t)
    (h : CallStep cfg m pc m' pc') (hpc : PcOk cfg m pc) (hne : pc ≠ .crash) : pc' ≠ .crash := by
  cases h with
  | upd h =>
      cases h with
      | move _ h' =>
          rintro rfl
          exact nomatch h'
      | empty | balanced | finish => exact finished_ne_crash _ _
      | retry => exact nofun
      | crash ha => exact absurd ha (attempt_ne_crash hB hpc.2)
  | abort | freeze => exact nofun
  | swing => exact finished_ne_crash _ _
  | prop h => exact h.ne_crash hpc
  | crash => exact absurd rfl hne

/-- A thread that is in no update. -/
theorem exec_ne_crash {pc : PC K V} (h : ¬ pc.inUpdate) : (exec cfg m pc).2 ≠ .crash := by
  cases pc with
  | findTop key p => simp only [exec, execQuery]; split_ifs <;> intro h <;> cases h
  | findLoop key l => simp only [exec, execQuery]; split_ifs <;> intro h <;> cases h
  | crash => exact absurd (.inr (.inr rfl)) h
  | idle | ret | findRet | containsRet | findRoot | findNext | containsRoot => intro h; cases h
  | searchRoot | searchTop | searchFirst | searchLoop | searchNext | attempt | swing =>
      exact absurd (.inl (Option.some_ne_none _)) h
  | _ => exact absurd (.inr (.inl rfl)) h

theorem Step.ne_crash {s s' : State K V} {i : ℕ} (hI : Inv cfg s) (h : Step cfg s i s')
    (hne : ∀ j, s.pc j ≠ .crash) (j : ℕ) : s'.pc j ≠ .crash := by
  by_cases hj : j = i
  · subst hj
    obtain ⟨t, hB⟩ := hI.base
    by_cases hu : (s.pc j).inUpdate
    · exact (h.callStep hu).ne_crash hB (hI.pcs j) (hne j)
    · cases h with
      | invoke op => rw [State.set_pc_self]; cases op <;> exact nofun
      | exec => rw [State.set_pc_self]; exact exec_ne_crash hu
      | abort => rw [State.set_pc_self]; exact nofun
  · rw [h.pc_of_ne hj]
    exact hne j

/-- **No thread ever follows a null pointer or pops an empty stack.** -/
theorem Reachable.ne_crash {s : State K V} (h : Reachable cfg s) (i : ℕ) : s.pc i ≠ .crash := by
  induction h generalizing i with
  | refl => exact nofun
  | tail hr hs ih =>
      obtain ⟨j, hs⟩ := hs
      exact hs.ne_crash (Reachable.inv hr) ih i

end Errors

end Cbat
