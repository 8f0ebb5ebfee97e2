/-
**One thread alone.**

A thread that runs alone makes its steps one after the other, from a tree that no SCX has frozen.
Its searches end, its attempts do not fail, and its call comes to `propagate` with the change that
its kind asks for.

Main definitions:

* `Cbat.solo`, `Cbat.Runs` — the state in which one thread acts, and its runs;
* `Cbat.LeafOk` — leaves are never frozen or marked, and those with a real key count one.

Main results:

* `Cbat.Reachable.free` — between its SCXs a thread that runs alone finds every node free;
* `Cbat.runs_search` — **a search ends** with nodes that are joined as it has found them;
* `Cbat.runs_attempt` — **an attempt succeeds**.
-/

import Cbat.Errors
import Cbat.Versions
import Mathlib.Data.Set.Finite.Lattice

set_option relaxedAutoImplicit false
set_option autoImplicit false

namespace Cbat

variable {K V : Type} [LinearOrder K] {cfg : Cfg K V} {m m' : Mem K V} {pc pc' : PC K V}

/-! ### Runs of one thread -/

omit [LinearOrder K] in
/-- The first thread is at `pc`, and no other thread has ever made a call. -/
def solo (m : Mem K V) (pc : PC K V) : State K V where
  mem := m
  pc := fun i => if i = 0 then pc else .idle

omit [LinearOrder K] in
@[simp] theorem solo_mem (m : Mem K V) (pc : PC K V) : (solo m pc).mem = m := rfl

omit [LinearOrder K] in
@[simp] theorem solo_pc (m : Mem K V) (pc : PC K V) : (solo m pc).pc 0 = pc := rfl

omit [LinearOrder K] in
theorem solo_pc_of_ne (m : Mem K V) (pc : PC K V) {i : ℕ} (h : i ≠ 0) : (solo m pc).pc i = .idle :=
  if_neg h

omit [LinearOrder K] in
theorem solo_set (m m' : Mem K V) (pc pc' : PC K V) : (solo m pc).set m' 0 pc' = solo m' pc' := by
  refine congrArg (State.mk m') (funext fun i => ?_)
  by_cases hi : i = 0
  · subst hi
    exact Function.update_self ..
  · rw [Function.update_of_ne hi, solo_pc_of_ne _ _ hi, if_neg hi]

omit [LinearOrder K] in
theorem solo_init (cfg : Cfg K V) : State.init cfg = solo (.init cfg.noKey cfg.noValue) .idle := by
  refine congrArg (State.mk _) (funext fun i => ?_)
  split_ifs <;> rfl

/-- **The runs of a thread that is alone.** -/
inductive Runs (cfg : Cfg K V) : Mem K V → PC K V → Mem K V → PC K V → Prop
  | refl (m : Mem K V) (pc : PC K V) : Runs cfg m pc m pc
  | step {m m₁ m' : Mem K V} {pc pc₁ pc' : PC K V} (h : exec cfg m pc = (m₁, pc₁))
      (hr : Runs cfg m₁ pc₁ m' pc') : Runs cfg m pc m' pc'

theorem Runs.single (h : exec cfg m pc = (m', pc')) : Runs cfg m pc m' pc' := .step h (.refl ..)

theorem Runs.trans {m'' : Mem K V} {pc'' : PC K V} (h : Runs cfg m pc m' pc')
    (h' : Runs cfg m' pc' m'' pc'') : Runs cfg m pc m'' pc'' := by
  induction h with
  | refl => exact h'
  | step he _ ih => exact .step he (ih h')

theorem solo_step (m : Mem K V) (pc : PC K V) :
    Step cfg (solo m pc) 0 (solo (exec cfg m pc).1 (exec cfg m pc).2) := by
  have h : Step cfg (solo m pc) 0 _ := .exec
  rwa [solo_set] at h

theorem Runs.reachable (h : Runs cfg m pc m' pc') (hr : Reachable cfg (solo m pc)) :
    Reachable cfg (solo m' pc') := by
  induction h with
  | refl => exact hr
  | @step m m₁ _ pc pc₁ _ he _ ih =>
      have hs : Step cfg (solo m pc) 0 _ := solo_step m pc
      rw [he] at hs
      exact ih (hr.step hs)

/-! ### Leaves -/

/-- Leaves are never frozen or marked, and those with a real key count one. -/
def LeafOk (cfg : Cfg K V) (m : Mem K V) : Prop :=
  ∀ x < m.next, (m.node x).left = 0 → (m.node x).frozen = false ∧ (m.node x).marked = false ∧
    ((m.node x).key ≠ cfg.noKey → (m.node x).version.sum = 1)

omit [LinearOrder K] in
theorem LeafOk.of_same (h : LeafOk cfg m) (hn : m'.next = m.next)
    (hs : ∀ x, (m'.node x).left = 0 → m'.node x = m.node x) : LeafOk cfg m' := by
  intro x hx hl
  have he := hs x hl
  rw [he] at hl ⊢
  exact h x (hn ▸ hx) hl

omit [LinearOrder K] in
/-- A refresh of an internal node does not change the leaves. -/
theorem FrameStep.leaf_eq {var : Variant} {ps : ℕ} {f : Frame K} {cs : List (Frame K)}
    {vs : List (Ver K)} {res : FrameResult K} (h : FrameStep var m ps f cs m' vs res)
    (hf : (m.node f.x).left ≠ 0) {x : ℕ} (hl : (m'.node x).left = 0) : m'.node x = m.node x := by
  have hi : ∀ v, ((m.install f.x v).node x).left = 0 → (m.install f.x v).node x = m.node x := by
    intro v hl
    rw [install_node] at hl ⊢
    split_ifs at hl ⊢
    · exact absurd hl hf
    · rfl
  cases h with
  | leafWrite | casOk | casAgain => exact hi _ hl
  | _ => rfl

theorem PropStep.leaf_eq (h : PropStep cfg m pc m' pc') (hf : PcFit cfg m pc) {x : ℕ}
    (hl : (m'.node x).left = 0) : m'.node x = m.node x := by
  cases h with
  | run h => exact h.leaf_eq (hf.each _ List.mem_cons_self).internal hl
  | returned h => exact h.leaf_eq (hf.each _ List.mem_cons_self).internal hl
  | _ => rfl

theorem LeafOk.swing {rec : ScxRecord K V} {old : Patch (Cell K V) ℕ} {k : K} {e : Effect V}
    {t : LTree (Cell K V)} (h : LeafOk cfg m) (hB : Base cfg m t) (hc : Commit cfg m rec old k e) :
    LeafOk cfg (m.swing rec) := by
  have hl := Later.swing hc hB.tree hB.closed
  intro x hx h0
  rcases hc.lt_next_cases hx with hlt | ⟨j, hj, rfl⟩
  · have hu : x ≠ rec.nth 0 := by
      rintro rfl
      exact hc.left_ne hB.tree hB.closed ((hl.leaf _ hlt).mp h0)
    rw [Mem.swing_of_ne hlt hu] at h0 ⊢
    exact h x hlt h0
  · have hw := Mem.swing_written hc.removes.slots_nodup (hB.tree.live_lt hc.live)
    rcases hw.cases hj with ⟨a, rfl, hp, he⟩ | ⟨a, l, r, rfl, hp, he⟩
    · obtain ⟨s, hs, h1⟩ := hc.plan.vers.part hp
      rw [he]
      refine ⟨rfl, rfl, fun hk => ?_⟩
      simp only [newVersion, hs, Ver.sum_mk]
      exact h1 hk
    · rw [he] at h0
      exact absurd h0 (hc.newPtr_lt hB.tree ((Patch.Part.left a r .refl).trans hp)).1

theorem Reachable.leafOk {s : State K V} (h : Reachable cfg s) : LeafOk cfg s.mem := by
  induction h with
  | refl =>
      intro x _ _
      simp only [State.init, Mem.init]
      split_ifs <;> exact ⟨rfl, rfl, fun h => absurd rfl h⟩
  | @tail s s' hr hs ih =>
      have hI := Reachable.inv hr
      have hV := Reachable.vInv hr
      obtain ⟨t, hB⟩ := hI.base
      obtain ⟨i, hs⟩ := hs
      obtain ⟨m', pc', rfl, hK⟩ := hs.kind
      cases hK with
      | still => exact ih
      | prop hp => exact ih.of_same hp.quiet.toSameNodes.next fun x => hp.leaf_eq (hV.pcs i)
      | @freeze c md cur c' rec hpc ha =>
          refine ih.of_same rfl fun x hl => ?_
          simp only [State.set_mem, Mem.freeze] at hl ⊢
          split_ifs at hl ⊢ with hx
          · exact absurd hl hx.2
          · rfl
      | swing hpc =>
          obtain ⟨old, hc⟩ := hI.commit hpc
          exact ih.swing hB hc

/-- **Between its SCXs a thread that runs alone finds every node free.** -/
theorem Reachable.free (h : Reachable cfg (solo m pc)) (hc : pc.committing = false) {x : ℕ}
    (hx : Live m x) : Free m x := by
  have hI := h.inv
  obtain ⟨t, hB⟩ := hI.base
  have hnot : ¬ ((m.node x).frozen = true ∨ (m.node x).marked = true) := by
    intro hf
    by_cases hl : (m.node x).left = 0
    · obtain ⟨h1, h2, -⟩ := h.leafOk x (hB.tree.live_lt hx) hl
      rw [solo_mem] at h1 h2
      rw [h1, h2] at hf
      exact hf.elim nofun nofun
    · obtain ⟨i, hi⟩ := hI.held x hx hl hf
      by_cases h0 : i = 0
      · rw [h0, solo_pc, PC.holds_of_not hc] at hi
        exact nomatch hi
      · rw [solo_pc_of_ne _ _ h0] at hi
        exact nomatch hi
  rw [not_or, Bool.not_eq_true, Bool.not_eq_true] at hnot
  exact ⟨hB.tree.live_ne_zero hx, hnot.1, hnot.2⟩

theorem Reachable.not_stuck (h : Reachable cfg (solo m pc)) (hc : pc.committing = false) :
    ¬ Stuck m := fun ⟨_, hx, hf⟩ => hf (h.free hc hx)

/-! ### Searches -/

/-- From a node one comes to the leaves. -/
theorem Base.acc {t : LTree (Cell K V)} (hB : Base cfg m t) {x : ℕ} (hx : x < m.next) :
    Acc (fun y x => Edge m x y) x := by
  have hlt : ∀ {x y}, x < m.next → Edge m x y → y < m.next := by
    rintro x y hx ⟨-, rfl | rfl⟩
    · exact hB.closed.left_lt x hx
    · exact hB.closed.right_lt x hx
  let r : {x // x < m.next} → {x // x < m.next} → Prop :=
    fun y x => Relation.TransGen (Edge m) x.1 y.1
  have htrans : IsTrans _ r := ⟨fun _ _ _ hab hbc => hbc.trans hab⟩
  have hirr : Std.Irrefl r := ⟨fun x hxx => by
    obtain ⟨y, hxy, hyx⟩ := Relation.TransGen.head'_iff.mp hxx
    exact (hB.acyclic x.1 x.2 y hxy).2 hyx⟩
  have hfin : Finite {x // x < m.next} := (Set.finite_lt_nat m.next).to_subtype
  have hwf : WellFounded r := Finite.wellFounded_of_trans_of_irrefl r
  have hacc : ∀ z : {x // x < m.next}, Acc (fun y x => Edge m x y) z.1 := by
    intro z
    induction z using hwf.induction with
    | _ z ih => exact ⟨_, fun y hy => ih ⟨y, hlt z.2 hy⟩ (.single hy)⟩
  exact hacc ⟨x, hx⟩

/-- The cursor of a search that runs alone: the nodes are joined as they were found.  At the top of
the tree the great-grandparent is not the parent of the grandparent, but there is no violation
there. -/
structure Descent (m : Mem K V) (cur : Cursor) : Prop where
  gp_live : Live m cur.gp
  gp : Edge m cur.gp cur.p
  p : Edge m cur.p cur.l
  ggp : (Live m cur.ggp ∧ Edge m cur.ggp cur.gp) ∨ (m.node cur.l).weight = 1

omit [LinearOrder K] in
theorem Descent.p_live {cur : Cursor} (h : Descent m cur) : Live m cur.p := h.gp_live.edge h.gp

section Search

variable {t : LTree (Cell K V)} {cur : Cursor}

/-- **The loop of a search ends.** -/
theorem runs_loop (c : Call K V) (md : Mode) (hB : Base cfg m t) (hd : Descent m cur) :
    ∃ c' cur', c.SameOutputs c' ∧ Descent m cur' ∧
      Runs cfg m (.searchLoop c md cur) m (.attempt c' md cur') := by
  obtain ⟨l, hl⟩ : ∃ l, l = cur.l := ⟨_, rfl⟩
  have hacc := hB.acc (hB.tree.live_lt (hd.p_live.edge hd.p))
  rw [← hl] at hacc
  induction hacc generalizing c cur with
  | intro l _ ih =>
      by_cases hgo : searchGoesOn m md cur = true
      · have hl0 : (m.node cur.l).left ≠ 0 := by
          simp only [searchGoesOn, Bool.and_eq_true, decide_eq_true_eq] at hgo
          exact hgo.1
        have hlive := hd.p_live.edge hd.p
        have hr0 := hB.closed.full cur.l (hB.tree.live_lt hlive)
          (hB.tree.edge_ne_root hd.p_live hd.p) hl0
        have hbody := searchBody_sameOutputs m c cur md
        have hedge : Edge m cur.l (if (searchBody m c cur md).key < (m.node cur.l).key then
            (m.node cur.l).left else (m.node cur.l).right) := by
          split_ifs
          · exact ⟨hl0, .inl rfl⟩
          · exact ⟨hr0, .inr rfl⟩
        have hd' : Descent m ⟨cur.gp, cur.p, cur.l, _⟩ :=
          ⟨hd.p_live, hd.p, hedge, .inl ⟨hd.gp_live, hd.gp⟩⟩
        obtain ⟨c', cur', hs, hd', hrun⟩ := @ih _ (hl ▸ hedge) _ (searchBody m c cur md) hd' rfl
        refine ⟨c', cur', hbody.trans hs, hd', ?_⟩
        have hloop : exec cfg m (.searchLoop c md cur) =
            (m, .searchNext (searchBody m c cur md) md ⟨cur.gp, cur.p, cur.l, cur.l⟩) := by
          simp only [exec, execUpdate, if_pos hgo]
        exact .step hloop (.step rfl hrun)
      · refine ⟨c, cur, .refl c, hd, .single ?_⟩
        simp only [exec, execUpdate, if_neg hgo]

/-- The top of the tree. -/
theorem Base.top_edge (hB : Base cfg m t) : Edge m root (m.node root).left :=
  ⟨hB.tree.root_left ▸ label_id_ne_zero hB.tree.zero_notMem, .inl rfl⟩

theorem Base.top_key (hB : Base cfg m t) : (m.node (m.node root).left).key = cfg.noKey := by
  cases hB.tree.edgeKind .refl hB.top_edge with
  | root _ hy => exact hy
  | top hx => exact absurd rfl hx
  | sentinel hx => exact absurd rfl hx
  | real hx => exact absurd rfl hx

/-- The top of the real part. -/
theorem Base.first_real (hB : Base cfg m t) (hl : (m.node (m.node root).left).left ≠ 0) :
    (m.node (m.node (m.node root).left).left).key ≠ cfg.noKey ∧
      (m.node (m.node (m.node root).left).left).weight = 1 := by
  have htop := hB.top_edge
  have hlive : Live m (m.node root).left := .single htop
  have hedge : Edge m (m.node root).left (m.node (m.node root).left).left := ⟨hl, .inl rfl⟩
  cases hB.tree.edgeKind hlive hedge with
  | root hx => exact absurd hx (hB.tree.edge_ne_root .refl htop)
  | top _ _ hyk hw => exact ⟨hyk, hw⟩
  | sentinel _ _ _ _ hyl => exact absurd rfl hyl
  | real _ hx => exact absurd hB.top_key hx

theorem Base.descent_top (hB : Base cfg m t) (hl : (m.node (m.node root).left).left ≠ 0) :
    Descent m ⟨root, root, (m.node root).left, (m.node (m.node root).left).left⟩ :=
  ⟨.refl, hB.top_edge, ⟨hl, .inl rfl⟩, .inr (hB.first_real hl).2⟩

/-- The cursor with which a search that runs alone comes to its attempt. -/
def Found (m : Mem K V) (c : Call K V) (md : Mode) (cur : Cursor) : Prop :=
  Joined m c cur md ∨ (md = .rebalance ∧ (m.node cur.l).weight = 1)

omit [LinearOrder K] in
theorem Descent.found (h : Descent m cur) (c : Call K V) (md : Mode) : Found m c md cur := by
  cases md with
  | rebalance =>
      rcases h.ggp with hg | hw
      · exact .inl ⟨hg.1, hg.2, h.gp, h.p⟩
      · exact .inr ⟨rfl, hw⟩
  | update =>
      refine .inl ?_
      unfold Joined
      split_ifs
      · exact ⟨h.gp_live, h.gp, h.p⟩
      · exact ⟨h.p_live, h.p⟩

/-- **A search ends**: it finds the tree empty and there is nothing to do, or it comes to an
attempt. -/
theorem runs_search (hB : Base cfg m t) (c : Call K V) (md : Mode) :
    ∃ c', c.SameOutputs c' ∧
      (((m.node (m.node root).left).left = 0 ∧ (md = .update → c'.kind = .erase) ∧
          Runs cfg m (.searchRoot c md) m (finished c' md)) ∨
        ∃ cur, Found m c' md cur ∧
          ((m.node (m.node root).left).left = 0 → c'.kind ≠ .erase) ∧
          Runs cfg m (.searchRoot c md) m (.attempt c' md cur)) := by
  obtain ⟨c₁, hs, hroot⟩ : ∃ c₁, c.SameOutputs c₁ ∧
      exec cfg m (.searchRoot c md) = (m, .searchTop c₁ md (m.node root).left) := by
    cases md
    · exact ⟨{ c with stack := [root], count := 0 }, ⟨rfl, rfl, rfl, rfl, rfl⟩, rfl⟩
    · exact ⟨_, .refl c, rfl⟩
  by_cases hl : (m.node (m.node root).left).left = 0
  · refine ⟨c₁, hs, ?_⟩
    cases md with
    | rebalance =>
        refine .inl ⟨hl, nofun, .step hroot (.single ?_)⟩
        simp only [exec, execUpdate, if_pos hl]
    | update =>
        by_cases hk : c₁.kind = .erase
        · refine .inl ⟨hl, fun _ => hk, .step hroot (.single ?_)⟩
          simp only [exec, execUpdate, if_pos hl, hk]
        · refine .inr ⟨⟨root, root, root, (m.node root).left⟩, .inl ?_, fun _ => hk,
            .step hroot (.single ?_)⟩
          · simp only [Joined, if_neg hk]
            exact ⟨.refl, hB.top_edge⟩
          · simp only [exec, execUpdate, if_pos hl]
  · obtain ⟨c₂, cur, hs', hd, hrun⟩ := runs_loop c₁ md hB (hB.descent_top hl)
    have htop : exec cfg m (.searchTop c₁ md (m.node root).left) =
        (m, .searchFirst c₁ md (m.node root).left) := by
      simp only [exec, execUpdate, if_neg hl]
    have hfirst : exec cfg m (.searchFirst c₁ md (m.node root).left) =
        (m, .searchLoop c₁ md ⟨root, root, _, _⟩) := rfl
    exact ⟨c₂, hs.trans hs',
      .inr ⟨cur, hd.found c₂ md, (absurd · hl), .step hroot (.step htop (.step hfirst hrun))⟩⟩

end Search

/-! ### Attempts -/

section Attempt

variable {t : LTree (Cell K V)} {c c' : Call K V} {md : Mode} {cur : Cursor} {rec : ScxRecord K V}
  {u uX uXX : ℕ}

theorem overweightLeft_nth {b b' : Bool} (h : overweightLeft cfg m u uX uXX b b' = .ok rec) :
    rec.nth 0 = u ∨ rec.nth 0 = uX := by
  simp only [overweightLeft] at h
  split_ifs at h <;> (repeat obtain ⟨-, h⟩ := llx_bind.mp h) <;> cases h <;>
    first | exact .inl rfl | exact .inr rfl

theorem overweightRight_nth {b b' : Bool} (h : overweightRight cfg m u uX uXX b b' = .ok rec) :
    rec.nth 0 = u ∨ rec.nth 0 = uX := by
  simp only [overweightRight] at h
  split_ifs at h <;> (repeat obtain ⟨-, h⟩ := llx_bind.mp h) <;> cases h <;>
    first | exact .inl rfl | exact .inr rfl

theorem redRed_nth {b b' b'' : Bool} (h : redRed cfg m u uX uXX b b' b'' = .ok rec) :
    rec.nth 0 = u := by
  simp only [redRed] at h
  split_ifs at h <;> (repeat obtain ⟨-, h⟩ := llx_bind.mp h) <;> cases h <;> rfl

/-- The node whose child a rebalancing step changes is one of those of its search. -/
theorem rebalanceScx_nth (h : rebalanceScx cfg m cur = .ok rec) :
    rec.nth 0 = cur.ggp ∨ rec.nth 0 = cur.gp := by
  unfold rebalanceScx at h
  split_ifs at h
  obtain ⟨-, h⟩ := llx_bind.mp h
  obtain ⟨-, h⟩ := checkChild_bind.mp h
  obtain ⟨-, h⟩ := llx_bind.mp h
  obtain ⟨-, h⟩ := checkChild_bind.mp h
  obtain ⟨-, h⟩ := llx_bind.mp h
  obtain ⟨-, h⟩ := checkChild_bind.mp h
  obtain ⟨-, h⟩ := llx_bind.mp h
  obtain ⟨-, h⟩ := llx_bind.mp h
  split_ifs at h
  · exact overweightLeft_nth h
  · exact overweightRight_nth h
  · exact .inl (redRed_nth h)

/-- **The tree after an SCX of an update with the key `k`.** -/
def Replaced (cfg : Cfg K V) (k : K) (e : Effect V) (rec : ScxRecord K V) (m m' : Mem K V) : Prop :=
  (∃ old, Commit cfg m rec old k e) ∧ OnPath cfg m k (rec.nth 0) ∧ m' = m.swing rec

theorem attempt_replaced (hr : Reachable cfg (solo m (.attempt c md cur)))
    (ha : attempt cfg m c md cur = (c', .ok rec)) :
    Replaced cfg c.key (c.effect md) rec (m.freeze rec) ((m.freeze rec).swing rec) := by
  have hI := hr.inv
  obtain ⟨t, hB⟩ := hI.base
  have hE := (hI.pcs 0 : PcOk cfg m (.attempt c md cur))
  have hready := attempt_ready hB hE.1.key hE.2 ha
  obtain ⟨⟨old, hc⟩, -⟩ := hready
  have hsame := freeze_sameNodes m rec
  refine ⟨⟨old, hsame.commit hc⟩, hsame.onPath_iff.mpr ?_, rfl⟩
  cases md with
  | update =>
      refine (hc.path ?_).1
      unfold Call.effect
      cases c.kind <;> exact nofun
  | rebalance =>
      rcases rebalanceScx_nth (Prod.mk.inj ha).2 with h | h
      · rw [h]
        exact hE.2.ggp.good.onPath (h ▸ hc.live)
      · rw [h]
        exact hE.2.gp.good.onPath (h ▸ hc.live)

/-- **An attempt of a thread that runs alone succeeds.** -/
theorem runs_attempt (hr : Reachable cfg (solo m (.attempt c md cur))) (hf : Found m c md cur) :
    ∃ m' c', Runs cfg m (.attempt c md cur) m' (finished c' md) ∧
      ((attempt cfg m c md cur = (c', .error .finish) ∧ m' = m) ∨
        ∃ rec, attempt cfg m c md cur = (c', .ok rec) ∧
          Replaced cfg c.key (c.effect md) rec (m.freeze rec) m') := by
  obtain ⟨t, hB⟩ := hr.inv.base
  have hE := (hr.inv.pcs 0 : PcOk cfg m (.attempt c md cur))
  rcases ha : attempt cfg m c md cur with ⟨c', e | rec⟩
  · have he : e = .finish := by
      rcases attempt_error hB hE.2 ha with he | ⟨-, hstuck⟩
      · exact he
      · rcases hf with hj | ⟨rfl, hw⟩
        · exact absurd (hstuck hj) (hr.not_stuck rfl)
        · have hscx : rebalanceScx cfg m cur = .error e := (Prod.mk.inj ha).2
          unfold rebalanceScx at hscx
          rw [if_pos hw] at hscx
          exact (Except.error.inj hscx).symm
    subst he
    refine ⟨m, c', .single ?_, .inl ⟨rfl, rfl⟩⟩
    simp only [exec, execUpdate, ha]
  · have hfreeze : exec cfg m (.attempt c md cur) = (m.freeze rec, .swing c' md rec) := by
      simp only [exec, execUpdate, ha]
    exact ⟨_, c', .step hfreeze (.single rfl), .inr ⟨rec, rfl, attempt_replaced hr ha⟩⟩

end Attempt

end Cbat
