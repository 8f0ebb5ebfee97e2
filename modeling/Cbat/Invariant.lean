/-
**The invariant of all runs.**

Threads hold the nodes that their pending SCXs have frozen; no two of them hold the same internal
node, so that what a pending SCX has read stays true until its second step.  The live part of the
memory is a search tree after every step of every thread.

Main definitions:

* `Cbat.Pending` — what is known of an SCX between its two steps;
* `Cbat.ExecKind` — the kinds of steps;
* `Cbat.Inv` — **the invariant**.

Main results:

* `Cbat.Base.swing`, `Cbat.Inv.step` — every step keeps the invariant;
* `Cbat.Reachable.inv` — **it holds in every reachable state**.
-/

import Cbat.Local

set_option relaxedAutoImplicit false
set_option autoImplicit false

namespace Cbat

variable {K V : Type}

/-! ### The first step of an SCX -/

section Freeze

variable {m : Mem K V} {rec : ScxRecord K V} {x : ℕ}

theorem freeze_of_held (hx : x ∈ rec.toFreeze) (hl : (m.node x).left ≠ 0) :
    (m.freeze rec).node x = { m.node x with
      frozen := true
      marked := (m.node x).marked || decide (x ∈ rec.toFreeze.tail) } := if_pos ⟨hx, hl⟩

theorem freeze_of_not (h : ¬ (x ∈ rec.toFreeze ∧ (m.node x).left ≠ 0)) :
    (m.freeze rec).node x = m.node x := if_neg h

theorem freeze_sameNodes (m : Mem K V) (rec : ScxRecord K V) : SameNodes m (m.freeze rec) := by
  refine ⟨fun x => ?_, rfl, le_rfl⟩
  by_cases h : x ∈ rec.toFreeze ∧ (m.node x).left ≠ 0
  · constructor <;> rw [freeze_of_held h.1 h.2]
  · exact .rfl' (freeze_of_not h)

theorem freeze_version (m : Mem K V) (rec : ScxRecord K V) (x : ℕ) :
    ((m.freeze rec).node x).version = (m.node x).version := by
  by_cases h : x ∈ rec.toFreeze ∧ (m.node x).left ≠ 0
  · rw [freeze_of_held h.1 h.2]
  · rw [freeze_of_not h]

theorem freeze_marked (h : (m.node x).marked = true) : ((m.freeze rec).node x).marked = true := by
  by_cases hx : x ∈ rec.toFreeze ∧ (m.node x).left ≠ 0
  · rw [freeze_of_held hx.1 hx.2]
    simp [h]
  · rw [freeze_of_not hx, h]

theorem freeze_frozen (h : (m.node x).frozen = true) : ((m.freeze rec).node x).frozen = true := by
  by_cases hx : x ∈ rec.toFreeze ∧ (m.node x).left ≠ 0
  · rw [freeze_of_held hx.1 hx.2]
  · rw [freeze_of_not hx, h]

/-- `nodes[0]` is among the nodes to freeze. -/
theorem nth_zero_mem (h : rec.nth 0 ≠ 0) : rec.nth 0 ∈ rec.toFreeze := by
  have hpos : 0 < rec.type.numToFreeze := by cases rec.type <;> decide
  unfold ScxRecord.nth at h ⊢
  unfold ScxRecord.toFreeze
  cases hn : rec.nodes with
  | nil => simp [hn] at h
  | cons a as =>
      obtain ⟨n, hn⟩ := Nat.exists_eq_succ_of_ne_zero hpos.ne'
      simp [hn]

theorem mem_toFreeze (hx : x ∈ rec.toFreeze) : x = rec.nth 0 ∨ x ∈ rec.toFreeze.tail := by
  have hh : rec.toFreeze.head? = some (rec.nth 0) ∨ rec.toFreeze = [] := by
    unfold ScxRecord.toFreeze ScxRecord.nth
    cases rec.nodes with
    | nil => simp
    | cons a as => cases rec.type.numToFreeze <;> simp
  rcases hh with hh | hh
  · obtain ⟨ys, hys⟩ := List.head?_eq_some_iff.mp hh
    rw [hys] at hx ⊢
    simpa using hx
  · simp [hh] at hx

end Freeze

/-! ### Between the two steps of an SCX -/

variable [LinearOrder K] {cfg : Cfg K V} {m m' : Mem K V} {t : LTree (Cell K V)}

/-- **What is known of an SCX between its two steps**: it may be committed, its nodes are frozen,
those to be removed are marked, and the node that stays is not. -/
structure Pending (cfg : Cfg K V) (m : Mem K V) (rec : ScxRecord K V) (k : K) (e : Effect V) :
    Prop where
  commit : ∃ old, Commit cfg m rec old k e
  frozen : ∀ x ∈ rec.toFreeze, (m.node x).left ≠ 0 → (m.node x).frozen = true
  marked : ∀ x ∈ rec.toFreeze.tail, (m.node x).left ≠ 0 → (m.node x).marked = true
  unmarked : (m.node (rec.nth 0)).marked = false

section Pending

variable {rec : ScxRecord K V} {k : K} {e : Effect V} {old : Patch (Cell K V) ℕ}

theorem Pending.quiet (h : Pending cfg m rec k e) (hq : Quiet m m') : Pending cfg m' rec k e where
  commit := h.commit.imp fun _ => hq.commit
  frozen := fun x hx hl => by
    rw [hq.frozen]
    exact h.frozen x hx ((hq.same x).left ▸ hl)
  marked := fun x hx hl => by
    rw [hq.marked]
    exact h.marked x hx ((hq.same x).left ▸ hl)
  unmarked := by rw [hq.marked, h.unmarked]

/-- The first step of an SCX that may be committed. -/
theorem Ready.freeze (h : Ready cfg m rec k e) (hT : TreeInv cfg m t) :
    Pending cfg (m.freeze rec) rec k e where
  commit := h.1.imp fun _ => (freeze_sameNodes m rec).commit
  frozen := fun x hx hl => by
    rw [((freeze_sameNodes m rec).same x).left] at hl
    rw [freeze_of_held hx hl]
  marked := fun x hx hl => by
    rw [((freeze_sameNodes m rec).same x).left] at hl
    rw [freeze_of_held (List.mem_of_mem_tail hx) hl]
    simp [hx]
  unmarked := by
    obtain ⟨old, hc⟩ := h.1
    have hf := (h.2 _ (nth_zero_mem (hT.live_ne_zero hc.live))).marked
    have hnt : rec.nth 0 ∉ rec.toFreeze.tail := fun hx =>
      (hc.swing hT).1 (hc.removes.tail_sub _ hx)
    by_cases hx : rec.nth 0 ∈ rec.toFreeze ∧ (m.node (rec.nth 0)).left ≠ 0
    · rw [freeze_of_held hx.1 hx.2]
      simp [hf, hnt]
    · rw [freeze_of_not hx, hf]

/-- Another thread freezes nodes. -/
theorem Pending.freeze (h : Pending cfg m rec k e) (hB : Base cfg m t) {rec' : ScxRecord K V}
    (hfree : ∀ x ∈ rec'.toFreeze, Free m x) : Pending cfg (m.freeze rec') rec k e where
  commit := h.commit.imp fun _ => (freeze_sameNodes m rec').commit
  frozen := fun x hx hl => by
    rw [((freeze_sameNodes m rec').same x).left] at hl
    exact freeze_frozen (h.frozen x hx hl)
  marked := fun x hx hl => by
    rw [((freeze_sameNodes m rec').same x).left] at hl
    exact freeze_marked (h.marked x hx hl)
  unmarked := by
    obtain ⟨old, hc⟩ := h.commit
    have hfr := h.frozen _ (nth_zero_mem (hB.tree.live_ne_zero hc.live))
      (hc.left_ne hB.tree hB.closed)
    rw [freeze_of_not fun hx => ?_, h.unmarked]
    rw [(hfree _ hx.1).frozen] at hfr
    exact absurd hfr (by decide)

omit [LinearOrder K] in
/-- The internal nodes among those that an SCX removes are the ones that it freezes. -/
theorem Removes.mem_tail (h : Removes m rec old) {x : ℕ} (hx : x ∈ pids old)
    (hl : (m.node x).left ≠ 0) : x ∈ rec.toFreeze.tail := by
  refine h.inner_sub x ?_
  have key : ∀ p : Patch (Cell K V) ℕ, m.Holds p → x ∈ pids p → x ∈ inner p := fun p hp hx => by
    induction p with
    | sub i => simp at hx
    | leaf c =>
        obtain rfl : x = c.id := by simpa using hx
        exact absurd hp.2.left hl
    | node c l r ihl ihr =>
        simp only [pids_node, List.mem_cons, List.mem_append, inner] at hx ⊢
        rcases hx with hx | hx | hx
        · exact .inl hx
        · exact .inr (.inl (ihl hp.2.2.1 hx))
        · exact .inr (.inr (ihr hp.2.2.2 hx))
  exact key old h.holds hx

end Pending

/-! ### The memory after a step -/

section Memory

variable {rec : ScxRecord K V} {k : K} {e : Effect V} {old : Patch (Cell K V) ℕ}

theorem Base.freeze (hB : Base cfg m t) (rec : ScxRecord K V) : Base cfg (m.freeze rec) t where
  tree := (freeze_sameNodes m rec).treeInv hB.tree
  closed := (freeze_sameNodes m rec).closed hB.closed
  marked := fun x hx h0 hl hlive => by
    rw [((freeze_sameNodes m rec).same x).left] at hl
    exact freeze_marked (hB.marked x hx h0 hl fun h =>
      hlive ((freeze_sameNodes m rec).live_iff.mpr h))
  keyed := fun x hx hr hl => by
    have hs := (freeze_sameNodes m rec).same
    rw [(hs x).left] at hl
    simp only [(hs x).left, (hs x).right, (hs x).key, (hs _).key]
    exact hB.keyed x hx hr hl
  acyclic := fun x hx => by
    rw [(freeze_sameNodes m rec).edge_eq]
    exact hB.acyclic x hx

/-- Below a live internal node other than the root, and below its right child unless it is a
sentinel, there are real keys. -/
theorem TreeInv.keyed (hT : TreeInv cfg m t) (hc : Closed m) {x : ℕ} (hx : Live m x)
    (hr : x ≠ root) (hl : (m.node x).left ≠ 0) :
    (m.node (m.node x).left).key ≠ cfg.noKey ∧
      ((m.node x).key ≠ cfg.noKey → (m.node (m.node x).right).key ≠ cfg.noKey) := by
  constructor
  · cases hT.edgeKind hx ⟨hl, .inl rfl⟩ with
    | root hx' => exact absurd hx' hr
    | top _ _ hy => exact hy
    | sentinel _ _ _ _ hyl => exact absurd rfl hyl
    | real _ _ hy => exact hy
  · intro hk
    cases hT.edgeKind hx ⟨hc.full x (hT.live_lt hx) hr hl, .inr rfl⟩ with
    | root hx' => exact absurd hx' hr
    | top _ hxk => exact absurd hxk hk
    | sentinel _ hxk => exact absurd hxk hk
    | real _ _ hy => exact hy

/-- **The second step of an SCX keeps the invariant of the memory.** -/
theorem Base.swing (hB : Base cfg m t) (h : Commit cfg m rec old k e)
    (hm : ∀ x ∈ rec.toFreeze.tail, (m.node x).left ≠ 0 → (m.node x).marked = true) :
    ∃ t', Base cfg (m.swing rec) t' ∧
      Swap cfg t t' (pids old) (pids (inst m.next rec.newNode)) k e := by
  have hT := hB.tree
  obtain ⟨hu, t', hT', hs⟩ := h.swing hT
  have hc' := hB.closed.swing h hT
  have hlater := Later.swing h hT hB.closed
  have hlive : Live (m.swing rec) (rec.nth 0) := (hs.live_iff hT hT').mpr (.inl ⟨h.live, hu⟩)
  -- a node that is not live is an old one, and its fields are as before
  have hdead : ∀ x < (m.swing rec).next, ¬ Live (m.swing rec) x →
      x < m.next ∧ (m.swing rec).node x = m.node x := fun x hx hxl => by
    rcases h.lt_next_cases hx with hlt | ⟨j, hj, rfl⟩
    · exact ⟨hlt, Mem.swing_of_ne hlt fun he => hxl (he ▸ hlive)⟩
    · exact absurd ((hs.live_iff hT hT').mpr (.inr (mem_pids_inst.mpr ⟨j, hj, rfl⟩))) hxl
  have hedge : ∀ {x y}, x < (m.swing rec).next → ¬ Live (m.swing rec) x →
      Edge (m.swing rec) x y → Edge m x y ∧ y < (m.swing rec).next := fun {x y} hx hxl hxy => by
    obtain ⟨hlt, hn⟩ := hdead x hx hxl
    have he : Edge m x y := by
      unfold Edge at hxy ⊢
      rwa [hn] at hxy
    refine ⟨he, lt_of_lt_of_le ?_ hlater.next⟩
    rcases he.2 with rfl | rfl
    · exact hB.closed.left_lt x hlt
    · exact hB.closed.right_lt x hlt
  refine ⟨t', ⟨hT', hc', fun x hx h0 hl hxl => ?_, fun x hx hr hl => ?_, fun x hx y hxy => ?_⟩, hs⟩
  · obtain ⟨hlt, hn⟩ := hdead x hx hxl
    rw [hn] at hl ⊢
    by_cases hxm : Live m x
    · have hR : x ∈ pids old := by
        by_contra hR
        exact hxl ((hs.live_iff hT hT').mpr (.inl ⟨hxm, hR⟩))
      exact hm x (h.removes.mem_tail hR hl) hl
    · exact hB.marked x hlt h0 hl hxm
  · by_cases hxl : Live (m.swing rec) x
    · exact hT'.keyed hc' hxl hr hl
    · obtain ⟨hlt, hn⟩ := hdead x hx hxl
      rw [hn] at hl ⊢
      rw [hlater.key _ (hB.closed.left_lt x hlt), hlater.key _ (hB.closed.right_lt x hlt)]
      exact hB.keyed x hlt hr hl
  · by_cases hxl : Live (m.swing rec) x
    · exact ⟨hT'.edge_ne_root hxl hxy, hT'.not_reach_of_edge hxl hxy⟩
    · obtain ⟨he, hy⟩ := hedge hx hxl hxy
      obtain ⟨hyr, hyx⟩ := hB.acyclic x (hdead x hx hxl).1 y he
      -- a path back to a removed node is one of removed nodes
      refine ⟨hyr, fun hr => hyx ?_⟩
      clear hyx hyr he hxy
      induction hr using Relation.ReflTransGen.head_induction_on with
      | refl => exact .refl
      | head hab hbx ih =>
          have hal := fun hl => hxl (Live.reach hl (.head hab hbx))
          obtain ⟨he, hb⟩ := hedge hy hal hab
          exact .head he (ih hb)

omit [LinearOrder K] in
theorem newVersion_below {b n : ℕ} {new : NewTree K V} (h : ∀ j ∈ slots new, b + j < n) :
    (newVersion b new).Below n := by
  cases new with
  | sub i => trivial
  | leaf a =>
      unfold newVersion
      cases a.sum with
      | none => trivial
      | some s => exact h a.slot (by simp)
  | node a l r =>
      unfold newVersion
      cases a.sum with
      | none => trivial
      | some s => exact h a.slot (by simp)

/-- The versions of the old nodes stay. -/
theorem Commit.swing_version (h : Commit cfg m rec old k e) {x : ℕ} (hx : x < m.next) :
    ((m.swing rec).node x).version = (m.node x).version := by
  by_cases hxu : x = rec.nth 0
  · subst hxu
    rw [Mem.swing_self h.side]
    split_ifs <;> rfl
  · rw [Mem.swing_of_ne hx hxu]

theorem AddrOk.swing (ha : AddrOk m) (h : Commit cfg m rec old k e) (hT : TreeInv cfg m t) :
    AddrOk (m.swing rec) := by
  intro x hx
  have hw := Mem.swing_written h.removes.slots_nodup (hT.live_lt h.live)
  have hb : ∀ {p : NewTree K V}, Patch.Part p rec.newNode →
      ∀ j ∈ slots p, m.nextVer + j < (m.swing rec).nextVer := fun hp j hj => by
    have := h.removes.mem_slots.mp (List.map_subset _ hp.labels hj)
    simp only [Mem.swing_nextVer]
    omega
  rcases h.lt_next_cases hx with hlt | ⟨j, hj, rfl⟩
  · rw [h.swing_version hlt]
    exact (ha x hlt).mono (by simp)
  · rcases hw.cases hj with ⟨a, -, hp, he⟩ | ⟨a, l, r, -, hp, he⟩
    · rw [he]
      exact newVersion_below (hb hp)
    · rw [he]
      exact newVersion_below (hb hp)

/-- The second step of an SCX of one thread leaves the SCX of another pending: they hold no
internal node in common. -/
theorem Pending.swing {rec' : ScxRecord K V} {k' : K} {e' : Effect V}
    (h : Pending cfg m rec k e) (hB : Base cfg m t) (h' : Commit cfg m rec' old k' e')
    (hd : ∀ x ∈ rec.toFreeze, x ∈ rec'.toFreeze → (m.node x).left = 0) :
    Pending cfg (m.swing rec') rec k e := by
  have hT := hB.tree
  obtain ⟨hu', t', hT', hs⟩ := h'.swing hT
  have hu'l := h'.left_ne hT hB.closed
  have hu'f : rec'.nth 0 ∈ rec'.toFreeze := nth_zero_mem (hT.live_ne_zero h'.live)
  obtain ⟨old₀, hc⟩ := h.commit
  have hul := hc.left_ne hT hB.closed
  have huf : rec.nth 0 ∈ rec.toFreeze := nth_zero_mem (hT.live_ne_zero hc.live)
  have hne : rec.nth 0 ≠ rec'.nth 0 := fun he => hul (hd _ huf (he ▸ hu'f))
  have hnode : ∀ x, Live m x → x ≠ rec'.nth 0 → (m.swing rec').node x = m.node x :=
    fun x hx => Mem.swing_of_ne (hT.live_lt hx)
  have hnu := hnode _ hc.live hne
  have htail : ∀ x ∈ rec.toFreeze.tail, Live m x ∧ (m.swing rec').node x = m.node x :=
    fun x hx => by
      have hxl := hc.live_of_mem (.inl (hc.removes.tail_sub x hx))
      exact ⟨hxl, hnode x hxl fun he => hu'l (he ▸ hd x (List.mem_of_mem_tail hx) (he ▸ hu'f))⟩
  have hold : ∀ x ∈ pids old₀, (m.swing rec').node x = m.node x := fun x hx => by
    refine hnode x (hc.live_of_mem (.inl hx)) fun he => ?_
    have hxl : (m.node x).left ≠ 0 := he ▸ hu'l
    exact hxl (hd x (List.mem_of_mem_tail (hc.removes.mem_tail hx hxl)) (he ▸ hu'f))
  have huR : rec.nth 0 ∉ pids old := fun hx =>
    hul (hd _ huf (List.mem_of_mem_tail (h'.removes.mem_tail hx hul)))
  have htop := hold _ (hc.removes.top_eq ▸ hc.removes.top_mem)
  have hholds := hc.removes.holds.of_same fun x hx => .rfl' (hold x hx)
  refine ⟨⟨old₀, { hc.removes with holds := hholds },
    hc.plan, (hs.live_iff hT hT').mpr (.inl ⟨hc.live, huR⟩), ?_, fun he => ?_, ?_⟩, ?_, ?_, ?_⟩
  · have := hc.side
    unfold Mem.side at this ⊢
    rwa [hnu]
  · exact ⟨hs.onPath hT hT' (hc.path he).1 huR, (KEdge.congr (.rfl' hnu)).mpr (hc.path he).2⟩
  · cases hc.shape with
    | top hu hsh => exact .top hu hsh
    | real hu hk hsh => exact .real hu (by rwa [htop]) (by rwa [hnu])
  · intro x hx hl
    rcases mem_toFreeze hx with rfl | hxt
    · rw [hnu] at hl ⊢
      exact h.frozen _ hx hl
    · rw [(htail x hxt).2] at hl ⊢
      exact h.frozen x hx hl
  · intro x hx hl
    rw [(htail x hx).2] at hl ⊢
    exact h.marked x hx hl
  · rw [hnu, h.unmarked]

end Memory

/-! ### Kinds of steps -/

section Kinds

variable {pc pc' : PC K V}

omit [LinearOrder K] in
/-- The thread is between the two steps of an SCX. -/
def PC.committing : PC K V → Bool
  | .swing _ _ _ => true
  | _ => false

omit [LinearOrder K] in
/-- The nodes that the thread has frozen. -/
def PC.holds : PC K V → List ℕ
  | .swing _ _ rec => rec.toFreeze
  | _ => []

/-- What is known of a pending SCX of the thread. -/
def PcPending (cfg : Cfg K V) (m : Mem K V) : PC K V → Prop
  | .swing c md rec => Pending cfg m rec c.key (c.effect md)
  | _ => True

omit [LinearOrder K] in
theorem PC.holds_of_not (h : pc.committing = false) : pc.holds = [] := by
  cases pc <;> first | rfl | cases h

theorem pcPending_of_not (h : pc.committing = false) : PcPending cfg m pc := by
  cases pc <;> trivial

omit [LinearOrder K] in
@[simp] theorem finished_committing (c : Call K V) (md : Mode) :
    (finished c md).committing = false := by
  cases md with
  | rebalance => rfl
  | update => unfold finished; split_ifs <;> rfl

omit [LinearOrder K] in
theorem inserted_committing (cfg : Cfg K V) (cl : Climb K V) (r : ℕ) :
    (inserted cfg cl r).committing = false := by
  unfold inserted
  simp only
  split_ifs <;> rfl

omit [LinearOrder K] in
theorem refreshed_committing (cfg : Cfg K V) (cl : Climb K V) (r : ℕ) (again ok : Bool)
    (curps : ℕ) : (refreshed cfg cl r again ok curps).committing = false := by
  unfold refreshed
  cases cfg.variant <;> simp only <;> split_ifs <;>
    first | exact inserted_committing .. | rfl

theorem PropStep.committing (h : PropStep cfg m pc m' pc') :
    pc.committing = false ∧ pc'.committing = false := by
  cases h with
  | returned h => exact ⟨rfl, refreshed_committing ..⟩
  | marked h => exact ⟨rfl, inserted_committing ..⟩
  | delegate h => exact ⟨rfl, by split_ifs <;> rfl⟩
  | _ => exact ⟨rfl, rfl⟩

omit [LinearOrder K] in
/-- The thread is at most at the start of `propagate` and not between the steps of an SCX. -/
def PC.early : PC K V → Bool
  | .propStart _ => true
  | pc => !pc.propagating && !pc.committing

/-- **The kinds of steps of a call**: steps that change no memory, those of `propagate`, and the two
steps of an SCX. -/
inductive ExecKind (cfg : Cfg K V) (m : Mem K V) (pc : PC K V) : Mem K V → PC K V → Prop
  | still {pc' : PC K V} (h : pc.propagating = false ∧ pc.committing = false)
      (h' : pc'.early = true) : ExecKind cfg m pc m pc'
  | prop {m' : Mem K V} {pc' : PC K V} (h : PropStep cfg m pc m' pc') : ExecKind cfg m pc m' pc'
  | freeze {c : Call K V} {md : Mode} {cur : Cursor} {c' : Call K V} {rec : ScxRecord K V}
      (hpc : pc = .attempt c md cur) (ha : attempt cfg m c md cur = (c', .ok rec)) :
      ExecKind cfg m pc (m.freeze rec) (.swing c' md rec)
  | swing {c : Call K V} {md : Mode} {rec : ScxRecord K V} (hpc : pc = .swing c md rec) :
      ExecKind cfg m pc (m.swing rec) (finished c md)

omit [LinearOrder K] in
theorem PC.early_not_committing (h : pc.early = true) : pc.committing = false := by
  cases pc <;> first | rfl | cases h

omit [LinearOrder K] in
theorem finished_early (c : Call K V) (md : Mode) : (finished c md).early = true := by
  cases md with
  | rebalance => rfl
  | update => unfold finished; split_ifs <;> rfl

theorem execUpdate_kind (cfg : Cfg K V) (m : Mem K V) (h : pc.propagating = false) :
    ExecKind cfg m pc (execUpdate cfg m pc).1 (execUpdate cfg m pc).2 := by
  cases pc with
  | searchRoot c md => cases md <;> exact .still ⟨rfl, rfl⟩ rfl
  | searchTop c md l =>
      simp only [execUpdate]
      split_ifs
      · cases md with
        | rebalance => exact .still ⟨rfl, rfl⟩ rfl
        | update =>
            cases c.kind <;>
              exact .still ⟨rfl, rfl⟩ (by first | rfl | exact finished_early c .update)
      · exact .still ⟨rfl, rfl⟩ rfl
  | searchLoop c md cur =>
      simp only [execUpdate]
      split_ifs <;> exact .still ⟨rfl, rfl⟩ rfl
  | attempt c md cur =>
      simp only [execUpdate]
      rcases ha : attempt cfg m c md cur with ⟨c', e | rec⟩
      · cases e with
        | finish => exact .still ⟨rfl, rfl⟩ (finished_early c' md)
        | _ => exact .still ⟨rfl, rfl⟩ rfl
      · exact .freeze rfl ha
  | swing c md rec => exact .swing rfl
  | _ => first | exact .still ⟨rfl, rfl⟩ rfl | cases h

theorem execQuery_kind (cfg : Cfg K V) (m : Mem K V) (h : pc.propagating = false)
    (hc : pc.committing = false) :
    ExecKind cfg m pc (execQuery cfg m pc).1 (execQuery cfg m pc).2 := by
  cases pc with
  | findTop key p => simp only [execQuery]; split_ifs <;> exact .still ⟨rfl, rfl⟩ rfl
  | findLoop key l => simp only [execQuery]; split_ifs <;> exact .still ⟨rfl, rfl⟩ rfl
  | swing => cases hc
  | _ => first | exact .still ⟨rfl, rfl⟩ rfl | cases h

theorem exec_propagating (cfg : Cfg K V) (m : Mem K V) (h : pc.propagating = true) :
    PropStep cfg m pc (exec cfg m pc).1 (exec cfg m pc).2 := by
  have hp := propStep cfg m h
  cases pc <;> first | exact hp | cases h

theorem exec_kind (cfg : Cfg K V) (m : Mem K V) (pc : PC K V) :
    ExecKind cfg m pc (exec cfg m pc).1 (exec cfg m pc).2 := by
  have hp := fun h : pc.propagating = true => ExecKind.prop (exec_propagating cfg m h)
  have hq := fun h : pc.propagating = false => execQuery_kind cfg m h
  have hu := fun h : pc.propagating = false => execUpdate_kind cfg m h
  cases pc <;> first
    | exact hu rfl
    | exact hp rfl
    | exact hq rfl rfl

theorem exec_ok (hB : Base cfg m t) (ha : AddrOk m) (hl : Later cfg m (exec cfg m pc).1)
    (h : PcOk cfg m pc) : PcOk cfg (exec cfg m pc).1 (exec cfg m pc).2 := by
  have hp := fun hp : pc.propagating = true => (exec_propagating cfg m hp).ok hB ha h
  cases pc <;> first
    | exact hp rfl
    | exact execUpdate_ok hB hl h
    | trivial
    | skip
  all_goals simp only [exec, execQuery]
  all_goals split_ifs <;> trivial

end Kinds

/-! ### The invariant -/

/-- **The invariant**: the memory is in order, every thread knows what its program counter says, and
the live internal nodes that are frozen or marked are held each by one pending SCX. -/
structure Inv (cfg : Cfg K V) (s : State K V) : Prop where
  base : ∃ t, Base cfg s.mem t
  addr : AddrOk s.mem
  pcs : ∀ i, PcOk cfg s.mem (s.pc i)
  pending : ∀ i, PcPending cfg s.mem (s.pc i)
  disjoint : ∀ i j, i ≠ j → ∀ x ∈ (s.pc i).holds, x ∈ (s.pc j).holds → (s.mem.node x).left = 0
  held : ∀ x, Live s.mem x → (s.mem.node x).left ≠ 0 →
    (s.mem.node x).frozen = true ∨ (s.mem.node x).marked = true → ∃ i, x ∈ (s.pc i).holds

section Steps

variable {s s' : State K V} {i j : ℕ} {pc' : PC K V}

omit [LinearOrder K] in
@[simp] theorem State.set_mem (s : State K V) (m : Mem K V) (i : ℕ) (pc : PC K V) :
    (s.set m i pc).mem = m := rfl

omit [LinearOrder K] in
@[simp] theorem State.set_pc_self (s : State K V) (m : Mem K V) (i : ℕ) (pc : PC K V) :
    (s.set m i pc).pc i = pc := Function.update_self ..

omit [LinearOrder K] in
theorem State.set_pc_of_ne (s : State K V) (m : Mem K V) {i j : ℕ} (pc : PC K V) (h : j ≠ i) :
    (s.set m i pc).pc j = s.pc j := Function.update_of_ne h ..

omit [LinearOrder K] in
theorem PC.Resting.not_propagating {pc : PC K V} (h : pc.Resting) :
    pc.propagating = false ∧ pc.committing = false := by
  cases pc <;> first | exact ⟨rfl, rfl⟩ | exact h.elim

/-- A step of the system is of one of these kinds. -/
theorem Step.kind (h : Step cfg s i s') :
    ∃ m' pc', s' = s.set m' i pc' ∧ ExecKind cfg s.mem (s.pc i) m' pc' := by
  cases h with
  | invoke op hrest hkey =>
      exact ⟨_, _, rfl, .still hrest.not_propagating (by cases op <;> rfl)⟩
  | exec => exact ⟨_, _, rfl, exec_kind ..⟩
  | abort hpc hc => exact ⟨_, _, rfl, .still (by rw [hpc]; exact ⟨rfl, rfl⟩) rfl⟩

/-- The second step of an SCX commits it. -/
theorem Inv.commit (hI : Inv cfg s) {c : Call K V} {md : Mode} {rec : ScxRecord K V}
    (hpc : s.pc i = .swing c md rec) : ∃ old, Commit cfg s.mem rec old c.key (c.effect md) := by
  have hp := hI.pending i
  rw [hpc] at hp
  exact hp.commit

/-- The memory after a step is later than the memory before. -/
theorem Inv.later (hI : Inv cfg s) {m' : Mem K V} (h : ExecKind cfg s.mem (s.pc i) m' pc') :
    Later cfg s.mem m' := by
  obtain ⟨t, hB⟩ := hI.base
  cases h with
  | still => exact (Quiet.refl _).later
  | prop h => exact h.quiet.later
  | @freeze c md cur c' rec hpc ha =>
      exact .of_same (freeze_sameNodes _ rec) (fun x _ => freeze_marked) fun x _ hv => by
        rwa [freeze_version] at hv
  | swing hpc =>
      obtain ⟨old, hc⟩ := hI.commit hpc
      exact .swing hc hB.tree hB.closed

/-- A step keeps what its thread knows. -/
theorem Step.ok (h : Step cfg s i s') (hI : Inv cfg s) : PcOk cfg s'.mem (s'.pc i) := by
  obtain ⟨t, hB⟩ := hI.base
  cases h with
  | invoke op hrest hkey =>
      rw [State.set_pc_self, State.set_mem]
      cases op with
      | insert | insertIfAbsent | erase => exact ⟨hkey, nofun⟩
      | find | contains => trivial
  | exec =>
      rw [State.set_pc_self, State.set_mem]
      exact exec_ok hB hI.addr (hI.later (exec_kind ..)) (hI.pcs i)
  | abort hpc hc =>
      have := hI.pcs i
      rw [hpc] at this
      rw [State.set_pc_self, State.set_mem]
      have hc := this.1.of_same (abortCalls_same hc)
      exact ⟨hc.key, fun _ => hc.stack⟩

omit [LinearOrder K] in
/-- The threads after a step: the one that makes it and the others. -/
theorem forall_set {P : ℕ → PC K V → Prop} {m' : Mem K V} (hi : P i pc')
    (h : ∀ j, j ≠ i → P j (s.pc j)) (j : ℕ) : P j ((s.set m' i pc').pc j) := by
  by_cases hj : j = i
  · subst hj
    rwa [State.set_pc_self]
  · rw [State.set_pc_of_ne _ _ _ hj]
    exact h j hj

theorem Inv.quiet (hI : Inv cfg s) {m' : Mem K V} (hq : Quiet s.mem m')
    (h : (s.pc i).committing = false) (h' : pc'.committing = false) (hok : PcOk cfg m' pc')
    (ha : AddrOk m') : Inv cfg (s.set m' i pc') where
  base := hI.base.imp fun _ => hq.base
  addr := ha
  pcs := forall_set (P := fun _ => PcOk cfg m') hok fun j _ => (hI.pcs j).later hq.later
  pending := forall_set (P := fun _ => PcPending cfg m') (pcPending_of_not h') fun j _ => by
    have := hI.pending j
    revert this
    cases s.pc j with
    | swing c md rec => exact fun hp => hp.quiet hq
    | _ => exact fun _ => trivial
  disjoint := fun a b hab x hxa hxb => by
    have key : ∀ a, x ∈ ((s.set m' i pc').pc a).holds → x ∈ (s.pc a).holds :=
      forall_set (P := fun a pc => x ∈ pc.holds → x ∈ (s.pc a).holds)
        (by simp [PC.holds_of_not h']) fun _ _ => id
    rw [State.set_mem, (hq.same x).left]
    exact hI.disjoint a b hab x (key a hxa) (key b hxb)
  held := fun x hx hl hf => by
    rw [State.set_mem] at hx hl hf
    rw [(hq.same x).left] at hl
    rw [hq.frozen, hq.marked] at hf
    obtain ⟨j, hj⟩ := hI.held x (hq.live_iff.mp hx) hl hf
    have hji : j ≠ i := fun he => by simp [he, PC.holds_of_not h] at hj
    exact ⟨j, by rwa [State.set_pc_of_ne _ _ _ hji]⟩

theorem Inv.freeze (hI : Inv cfg s) {c c' : Call K V} {md : Mode} {cur : Cursor}
    {rec : ScxRecord K V} (hpc : s.pc i = .attempt c md cur)
    (hat : attempt cfg s.mem c md cur = (c', .ok rec))
    (hok : PcOk cfg (s.mem.freeze rec) (.swing c' md rec)) :
    Inv cfg (s.set (s.mem.freeze rec) i (.swing c' md rec)) := by
  obtain ⟨t, hB⟩ := hI.base
  have hn := freeze_sameNodes s.mem rec
  have hk := hI.pcs i
  rw [hpc] at hk
  have hs : c.Same c' := by
    have := attempt_same cfg s.mem c md cur
    rwa [hat] at this
  have hr : Ready cfg s.mem rec c.key (c.effect md) := attempt_ready hB hk.1.key hk.2 hat
  -- what another thread holds is frozen
  have hfree : ∀ j, ∀ x ∈ (s.pc j).holds, x ∈ rec.toFreeze → (s.mem.node x).left = 0 :=
    fun j x hx hxr => by
      by_contra hl
      have hp := hI.pending j
      revert hx hp
      cases s.pc j with
      | swing c₁ md₁ rec₁ =>
          intro hx hp
          have := hp.frozen x hx hl
          rw [(hr.2 x hxr).frozen] at this
          exact absurd this (by decide)
      | _ => simp [PC.holds]
  refine ⟨⟨t, hB.freeze rec⟩, fun x hx => ?_, ?_, ?_, fun a b hab x hxa hxb => ?_,
    fun x hx hl hf => ?_⟩
  · rw [State.set_mem, freeze_version]
    exact hI.addr x hx
  · exact forall_set (P := fun _ => PcOk cfg _) hok fun j _ =>
      (hI.pcs j).later (hI.later (.freeze hpc hat))
  · refine forall_set (P := fun _ => PcPending cfg _) ?_ fun j _ => ?_
    · have := hr.freeze hB.tree
      rwa [← hs.key, ← hs.effect] at this
    · have := hI.pending j
      revert this
      cases s.pc j with
      | swing c₁ md₁ rec₁ => exact fun hp => hp.freeze hB hr.2
      | _ => exact fun _ => trivial
  · rw [State.set_mem, (hn.same x).left]
    by_cases ha : a = i
    · subst ha
      rw [State.set_pc_self] at hxa
      rw [State.set_pc_of_ne _ _ _ (Ne.symm hab)] at hxb
      exact hfree b x hxb hxa
    · rw [State.set_pc_of_ne _ _ _ ha] at hxa
      by_cases hb : b = i
      · subst hb
        rw [State.set_pc_self] at hxb
        exact hfree a x hxa hxb
      · rw [State.set_pc_of_ne _ _ _ hb] at hxb
        exact hI.disjoint a b hab x hxa hxb
  · rw [State.set_mem] at hx hl hf
    by_cases hxr : x ∈ rec.toFreeze
    · exact ⟨i, by rwa [State.set_pc_self]⟩
    · rw [freeze_of_not fun h => hxr h.1] at hl hf
      obtain ⟨j, hj⟩ := hI.held x (hn.live_iff.mp hx) hl hf
      have hji : j ≠ i := fun he => by simp [he, hpc, PC.holds] at hj
      exact ⟨j, by rwa [State.set_pc_of_ne _ _ _ hji]⟩

theorem Inv.swing (hI : Inv cfg s) {c : Call K V} {md : Mode} {rec : ScxRecord K V}
    (hpc : s.pc i = .swing c md rec) (hok : PcOk cfg (s.mem.swing rec) (finished c md)) :
    Inv cfg (s.set (s.mem.swing rec) i (finished c md)) := by
  obtain ⟨t, hB⟩ := hI.base
  have hp := hI.pending i
  rw [hpc] at hp
  obtain ⟨old, hc⟩ := hp.commit
  obtain ⟨t', hB', hs⟩ := hB.swing hc hp.marked
  have hlater := hI.later (ExecKind.swing hpc)
  have hhold : ∀ {j x}, j ≠ i → x ∈ (s.pc j).holds → x ∈ rec.toFreeze →
      (s.mem.node x).left = 0 := fun hj hx hxr =>
    hI.disjoint _ i hj _ hx (by rw [hpc]; exact hxr)
  have hnil := PC.holds_of_not (finished_committing c md)
  -- the nodes that the other threads hold are old ones
  have holt : ∀ j, ∀ x ∈ (s.pc j).holds, x < s.mem.next := fun j x hx => by
    have hpj := hI.pending j
    revert hx hpj
    cases s.pc j with
    | swing c₁ md₁ rec₁ =>
        intro hx hpj
        obtain ⟨old₁, hc₁⟩ := hpj.commit
        rcases mem_toFreeze hx with rfl | hx
        · exact hB.tree.live_lt hc₁.live
        · exact hB.tree.live_lt (hc₁.live_of_mem (.inl (hc₁.removes.tail_sub x hx)))
    | _ => simp [PC.holds]
  refine ⟨⟨t', hB'⟩, hI.addr.swing hc hB.tree, ?_, ?_, fun a b hab x hxa hxb => ?_,
    fun x hx hl hf => ?_⟩
  · exact forall_set (P := fun _ => PcOk cfg _) hok fun j _ => (hI.pcs j).later hlater
  · refine forall_set (P := fun _ => PcPending cfg _)
      (pcPending_of_not (finished_committing c md)) fun j hj => ?_
    have hpj := hI.pending j
    have hd : ∀ x ∈ (s.pc j).holds, x ∈ rec.toFreeze → (s.mem.node x).left = 0 :=
      fun x hx => hhold hj hx
    revert hd hpj
    cases s.pc j with
    | swing c₁ md₁ rec₁ => exact fun hpj hd => hpj.swing hB hc hd
    | _ => exact fun _ _ => trivial
  · have key : ∀ a, x ∈ ((s.set (s.mem.swing rec) i (finished c md)).pc a).holds →
        a ≠ i ∧ x ∈ (s.pc a).holds :=
      forall_set (P := fun a pc => x ∈ pc.holds → a ≠ i ∧ x ∈ (s.pc a).holds)
        (by simp [hnil]) fun j hj hx => ⟨hj, hx⟩
    rw [State.set_mem, hlater.leaf x (holt a x (key a hxa).2)]
    exact hI.disjoint a b hab x (key a hxa).2 (key b hxb).2
  · rw [State.set_mem] at hx hl hf
    rcases (hs.live_iff hB.tree hB'.tree).mp hx with ⟨hxl, hR⟩ | hN
    · have hlt := hB.tree.live_lt hxl
      by_cases hxu : x = rec.nth 0
      · -- the node that stays is neither frozen nor marked any more
        subst hxu
        rw [Mem.swing_self hc.side] at hf
        split_ifs at hf <;> simp [hp.unmarked] at hf
      · rw [Mem.swing_of_ne hlt hxu] at hl hf
        obtain ⟨j, hj⟩ := hI.held x hxl hl hf
        by_cases hji : j = i
        · subst hji
          rw [hpc] at hj
          exact absurd (hc.removes.tail_sub x ((mem_toFreeze hj).resolve_left hxu)) hR
        · exact ⟨j, by rwa [State.set_pc_of_ne _ _ _ hji]⟩
    · obtain ⟨q, hq, rfl⟩ := mem_pids_inst.mp hN
      have hw := Mem.swing_written hc.removes.slots_nodup (hB.tree.live_lt hc.live)
      rcases hw.cases hq with ⟨a, -, -, he⟩ | ⟨a, l, r, -, -, he⟩ <;> simp [he] at hf

/-- **Every step keeps the invariant.** -/
theorem Inv.step (hI : Inv cfg s) (h : Step cfg s i s') : Inv cfg s' := by
  have hok := h.ok hI
  obtain ⟨m', pc', rfl, hk⟩ := h.kind
  rw [State.set_pc_self, State.set_mem] at hok
  cases hk with
  | still hn h' => exact hI.quiet (.refl _) hn.2 (PC.early_not_committing h') hok hI.addr
  | prop h => exact hI.quiet h.quiet h.committing.1 h.committing.2 hok (h.addrOk hI.addr)
  | freeze hpc hat => exact hI.freeze hpc hat hok
  | swing hpc => exact hI.swing hpc hok

end Steps

/-! ### The constructed tree -/

theorem base_init (cfg : Cfg K V) : Base cfg (Mem.init cfg.noKey cfg.noValue)
    (.leaf ⟨2, cfg.noKey, cfg.noValue, 1⟩) := by
  have hnode : ∀ x, x ≠ root → ((Mem.init cfg.noKey cfg.noValue).node x).left = 0 := fun x hx => by
    simp [Mem.init, hx]
  have hT : TreeInv cfg (Mem.init cfg.noKey cfg.noValue)
      (.leaf ⟨2, cfg.noKey, cfg.noValue, 1⟩) := by
    refine ⟨⟨rfl, rfl, rfl, rfl, rfl⟩, rfl, rfl, rfl, by simp, by simp [root], by simp, ?_,
      Nat.lt_of_sub_eq_succ rfl, .inl ⟨_, rfl, rfl⟩, ?_⟩
    · intro x hx
      obtain rfl : x = 2 := by simpa using hx
      exact Nat.lt_of_sub_eq_succ rfl
    · simp [LTree.Within, ckey, ord_noKey]
  refine ⟨hT, ⟨fun x _ => ?_, fun x _ => ?_, fun x _ _ => ?_, fun x _ hr hl => ?_⟩,
    fun x hx h0 hl hlive => ?_, fun x _ hr hl => absurd (hnode x hr) hl, fun x hx y hxy => ?_⟩
  · simp only [Mem.init]
    split_ifs <;> simp
  · simp only [Mem.init]
    split_ifs <;> simp
  · simp only [Mem.init]
    split_ifs <;> rfl
  · exact absurd (hnode x hr) hl
  · by_cases hr : x = root
    · exact absurd (hr ▸ .refl) hlive
    · exact absurd (hnode x hr) hl
  · by_cases hr : x = root
    · subst hr
      exact ⟨hT.edge_ne_root .refl hxy, hT.not_reach_of_edge .refl hxy⟩
    · rcases hxy.2 with he | he
      · exact absurd (he.symm.trans (hnode x hr)) hxy.1
      · exact absurd (he.symm.trans (by simp [Mem.init, hr])) hxy.1

theorem inv_init (cfg : Cfg K V) : Inv cfg (State.init cfg) where
  base := ⟨_, base_init cfg⟩
  addr := fun x _ => by
    simp only [State.init, Mem.init]
    split_ifs <;> simp [Ver.Below]
  pcs := fun _ => trivial
  pending := fun _ => trivial
  disjoint := fun _ _ _ x hx => by simp [State.init, PC.holds] at hx
  held := fun x _ _ hf => by
    simp only [State.init, Mem.init] at hf
    split_ifs at hf <;> simp at hf

/-- **The invariant holds in every reachable state.** -/
theorem Reachable.inv {s : State K V} (h : Reachable cfg s) : Inv cfg s := by
  induction h with
  | refl => exact inv_init cfg
  | tail _ hs ih =>
      obtain ⟨i, hs⟩ := hs
      exact ih.step hs

end Cbat
