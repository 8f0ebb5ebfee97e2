/-
**What an attempt that comes to its SCX has found.**

`updateInsert`, `updateErase` and `updateRebalancingStep` collect nodes with LLX and check that they
are linked as they were during the search.  An attempt that passes all checks commits an SCX that
replaces a patch of the live tree in the way `Cbat.Plan` specifies.

Main definitions:

* `Cbat.Base` — the invariant of the memory on which the attempts rely;
* `Cbat.Free` — LLX succeeds;
* `Cbat.Ready` — **the SCX of an attempt may be committed**.

Main results:

* `Cbat.insertScx_ready`, `Cbat.eraseScx_ready` — insertion and deletion.
-/

import Cbat.Later

set_option relaxedAutoImplicit false
set_option autoImplicit false

namespace Cbat

variable {K V : Type} [LinearOrder K] {cfg : Cfg K V} {m : Mem K V}

/-- The live tree and the closed memory; removed internal nodes are marked.  Also among the removed
nodes no node is below its children, the root is no child, and sentinels are above real nodes
only. -/
structure Base (cfg : Cfg K V) (m : Mem K V) (t : LTree (Cell K V)) : Prop where
  tree : TreeInv cfg m t
  closed : Closed m
  marked : ∀ x < m.next, x ≠ 0 → (m.node x).left ≠ 0 → ¬ Live m x → (m.node x).marked = true
  keyed : ∀ x < m.next, x ≠ root → (m.node x).left ≠ 0 →
    (m.node (m.node x).left).key ≠ cfg.noKey ∧
      ((m.node x).key ≠ cfg.noKey → (m.node (m.node x).right).key ≠ cfg.noKey)
  acyclic : ∀ x < m.next, ∀ y, Edge m x y → y ≠ root ∧ ¬ Relation.ReflTransGen (Edge m) y x

/-! ### Edges of the live tree -/

section Edges

variable {t : LTree (Cell K V)} {x y : ℕ}

/-- The edges of the live tree by the layers of the sentinels. -/
inductive EdgeKind (cfg : Cfg K V) (m : Mem K V) (x y : ℕ) : Prop
  | root (hx : x = root) (hy : (m.node y).key = cfg.noKey)
      (hw : (m.node y).left ≠ 0 → (m.node y).weight = 1) : EdgeKind cfg m x y
  | top (hx : x ≠ Cbat.root) (hxk : (m.node x).key = cfg.noKey) (hyk : (m.node y).key ≠ cfg.noKey)
      (hw : (m.node y).weight = 1) (hy : y = (m.node x).left) (hyr : y ≠ (m.node x).right) :
      EdgeKind cfg m x y
  | sentinel (hx : x ≠ Cbat.root) (hxk : (m.node x).key = cfg.noKey)
      (hyk : (m.node y).key = cfg.noKey) (hy : (m.node y).left = 0) (hyl : y ≠ (m.node x).left) :
      EdgeKind cfg m x y
  | real (hx : x ≠ Cbat.root) (hxk : (m.node x).key ≠ cfg.noKey)
      (hyk : (m.node y).key ≠ cfg.noKey) : EdgeKind cfg m x y

theorem TreeInv.edgeKind (hT : TreeInv cfg m t) (hx : Live m x) (hxy : Edge m x y) :
    EdgeKind cfg m x y := by
  have hrep := hT.rep
  rcases hT.live_iff.mp hx with rfl | hmem
  · have hy : y = t.label.id := by
      rcases hxy.2 with he | he
      · exact he.symm.trans hT.root_left
      · exact absurd (he.symm.trans hT.root_right) hxy.1
    subst hy
    rcases hT.shape with ⟨s, rfl, hs⟩ | ⟨rl, s, T, rfl, hrl, hrlw, hs, hreal⟩
    · exact .root rfl (hrep.key.trans hs) fun hl => absurd hrep.left hl
    · exact .root rfl (hrep.1.key.trans hrl) fun _ => hrep.1.weight.trans hrlw
  · have hxr : x ≠ Cbat.root := fun he => hT.root_notMem (he ▸ hmem)
    rcases hT.shape with ⟨s, rfl, hs⟩ | ⟨rl, s, T, rfl, hrl, hrlw, hs, hreal⟩
    · obtain rfl : x = s.id := by simpa using hmem
      rcases hxy.2 with he | he
      · exact absurd (he.symm.trans hrep.left) hxy.1
      · exact absurd (he.symm.trans hrep.right) hxy.1
    · have hts : T.label.id ≠ s.id := by
        have hnd := hT.nodup
        simp only [ids_node, ids_leaf, List.nodup_cons, List.nodup_append] at hnd
        exact hnd.2.2.2 _ (label_id_mem_ids T) s.id (by simp)
      simp only [ids_node, ids_leaf, List.mem_cons, List.mem_append, List.not_mem_nil,
        or_false] at hmem
      rcases hmem with rfl | hmem | rfl
      · rcases hxy.2 with he | he
        · have hy : y = T.label.id := he.symm.trans hrep.1.left
          obtain ⟨c, hc, hid, hk, hw⟩ := hrep.2.1.key_of_mem (label_id_mem_ids T)
          refine .top hxr (hrep.1.key.trans hrl) (by rw [hy, hk]; exact hreal.real c hc) ?_ he.symm
            fun he' => hts (hy.symm.trans (he'.trans hrep.1.right))
          have hT' : ∀ T : LTree (Cell K V), m.Rep T →
              (m.node T.label.id).weight = T.label.weight :=
            fun T hT => by
              cases T with
              | leaf c => exact hT.weight
              | node c l r => exact hT.1.weight
          rw [hy, hT' T hrep.2.1]
          exact hreal.top_weight
        · have hy : y = s.id := he.symm.trans hrep.1.right
          refine .sentinel hxr (hrep.1.key.trans hrl) (hy ▸ hrep.2.2.key.trans hs)
            (hy ▸ hrep.2.2.left) fun he' => hts ?_
          rw [← hy, he', hrep.1.left]
      · obtain ⟨c, hc, -, hk, -⟩ := hrep.2.1.key_of_mem hmem
        obtain ⟨d, hd, -, hk', -⟩ := hrep.2.1.key_of_mem (hrep.2.1.edge_mem hmem hxy)
        exact .real hxr (hk ▸ hreal.real c hc) (hk' ▸ hreal.real d hd)
      · rcases hxy.2 with he | he
        · exact absurd (he.symm.trans hrep.2.2.left) hxy.1
        · exact absurd (he.symm.trans hrep.2.2.right) hxy.1

/-- A live node with a real key. -/
theorem Base.realNode (hB : Base cfg m t) (hx : Live m x) (hk : (m.node x).key ≠ cfg.noKey) :
    RealNode cfg m x := by
  have hT := hB.tree
  have hrep := hT.rep
  have hlt := hT.live_lt hx
  have hne : x ≠ root := by rintro rfl; exact hk hT.root_key
  have hfull : (m.node x).left = 0 ↔ (m.node x).right = 0 :=
    ⟨hB.closed.leaf x hlt, fun hr => by_contra fun hl => hB.closed.full x hlt hne hl hr⟩
  have hmem := (hT.live_iff.mp hx).resolve_left hne
  rcases hT.shape with ⟨s, rfl, hs⟩ | ⟨rl, s, T, rfl, hrl, hrlw, hs, hreal⟩
  · obtain rfl : x = s.id := by simpa using hmem
    exact absurd (hrep.key.trans hs) hk
  · simp only [ids_node, ids_leaf, List.mem_cons, List.mem_append, List.not_mem_nil,
      or_false] at hmem
    rcases hmem with rfl | hmem | rfl
    · exact absurd (hrep.1.key.trans hrl) hk
    · obtain ⟨c, hc, -, -, hw⟩ := hrep.2.1.key_of_mem hmem
      refine ⟨hT.live_ne_zero hx, hk, hw ▸ hreal.nonneg c hc, fun hl => ?_, hfull⟩
      obtain ⟨d, hd, rfl, -⟩ := hrep.2.1.leaf_of_mem
        (fun hz => hT.zero_notMem (by simp [hz])) hmem hl
      rw [(hrep.2.1.is_leaf hd).weight]
      exact hreal.leaf_pos d hd
    · exact absurd (hrep.2.2.key.trans hs) hk

theorem Base.real_edge (hB : Base cfg m t) (hx : Live m x) (hk : (m.node x).key ≠ cfg.noKey)
    (hxy : Edge m x y) : RealNode cfg m y := by
  refine hB.realNode (hx.edge hxy) ?_
  cases hB.tree.edgeKind hx hxy with
  | root hr => exact absurd (hr ▸ hB.tree.root_key) hk
  | top _ h => exact absurd h hk
  | sentinel _ h => exact absurd h hk
  | real _ _ h => exact h

end Edges

/-! ### LLX and the checks -/

/-- LLX succeeds. -/
structure Free (m : Mem K V) (x : ℕ) : Prop where
  ne_zero : x ≠ 0
  frozen : (m.node x).frozen = false
  marked : (m.node x).marked = false

section Checks

variable {x p c : ℕ} {α : Type}

omit [LinearOrder K] in
theorem llx_bind {f : Unit → Except Stop α} {r : α} :
    (llx m x >>= f) = .ok r ↔ Free m x ∧ f () = .ok r := by
  unfold llx
  split_ifs with h0 h
  · exact ⟨nofun, fun hf => absurd h0 hf.1.ne_zero⟩
  · refine ⟨nofun, fun hf => ?_⟩
    rw [hf.1.frozen, hf.1.marked] at h
    exact absurd h (by simp)
  · rw [Bool.or_eq_true, not_or, Bool.not_eq_true, Bool.not_eq_true] at h
    exact ⟨fun hf => ⟨⟨h0, h.1, h.2⟩, hf⟩, fun hf => hf.2⟩

omit [LinearOrder K] in
theorem checkChild_bind {f : Unit → Except Stop α} {r : α} :
    (checkChild m p c >>= f) = .ok r ↔
      (c = (m.node p).left ∨ c = (m.node p).right) ∧ f () = .ok r := by
  unfold checkChild
  split_ifs with h
  · exact ⟨fun hf => ⟨h, hf⟩, fun hf => hf.2⟩
  · exact ⟨nofun, fun hf => absurd hf.1 h⟩

omit [LinearOrder K] in
theorem checkChild_ok :
    checkChild m p c = .ok () ↔ c = (m.node p).left ∨ c = (m.node p).right := by
  unfold checkChild
  split_ifs with h
  · exact ⟨fun _ => h, fun _ => rfl⟩
  · exact ⟨nofun, fun hf => absurd hf h⟩

omit [LinearOrder K] in
theorem side_of_child (h : c = (m.node p).left ∨ c = (m.node p).right) :
    m.side p (decide (c = (m.node p).left)) = c := by
  unfold Mem.side
  split_ifs with hc
  · exact (of_decide_eq_true hc).symm
  · exact (h.resolve_left fun he => hc (decide_eq_true he)).symm

/-- A free internal node is live. -/
theorem Base.live_of_free {t : LTree (Cell K V)} (hB : Base cfg m t) (hf : Free m x)
    (hlt : x < m.next) (hl : (m.node x).left ≠ 0) : Live m x := by
  by_contra hx
  have := hB.marked x hlt hf.ne_zero hl hx
  rw [hf.marked] at this
  exact absurd this (by decide)

end Checks

/-- **The SCX of an attempt may be committed**, and the nodes that it freezes are free. -/
def Ready (cfg : Cfg K V) (m : Mem K V) (rec : ScxRecord K V) (k : K) (e : Effect V) : Prop :=
  (∃ old, Commit cfg m rec old k e) ∧ ∀ x ∈ rec.toFreeze, Free m x

/-! ### Insertion -/

section Insert

variable {t : LTree (Cell K V)} {c : Call K V} {cur : Cursor} {rec : ScxRecord K V}

/-- What an insertion knows of its last two nodes. -/
structure InsertCursor (cfg : Cfg K V) (m : Mem K V) (k : K) (p l : ℕ) : Prop where
  p_lt : p < m.next
  p_internal : (m.node p).left ≠ 0
  p_good : Good cfg m k p
  l_leaf : (m.node l).left = 0
  l_ne : l ≠ 0
  l_good : Good cfg m k l

/-- The links that an insertion has checked. -/
structure InsertLinks (cfg : Cfg K V) (m : Mem K V) (k : K) (p l : ℕ) : Prop where
  live : Live m p
  edge : Edge m p l
  onPath : OnPath cfg m k p
  kedge : KEdge cfg m k p l
  l_right : (m.node l).right = 0
  kind : EdgeKind cfg m p l
  not_sentinel : (m.node l).key = cfg.noKey → p = root

theorem InsertCursor.links (hB : Base cfg m t) {k : K} {p l : ℕ} (h : InsertCursor cfg m k p l)
    (hf : Free m p) (hc : l = (m.node p).left ∨ l = (m.node p).right) :
    InsertLinks cfg m k p l := by
  have hlive := hB.live_of_free hf h.p_lt h.p_internal
  have hedge : Edge m p l := ⟨h.l_ne, hc.imp Eq.symm Eq.symm⟩
  have hp := h.p_good.onPath hlive
  have hke := (hB.tree.onPath_of_edge hlive hedge (h.l_good.onPath (hlive.edge hedge))).2
  have hkind := hB.tree.edgeKind hlive hedge
  refine ⟨hlive, hedge, hp, hke, hB.closed.leaf l (hB.tree.live_lt (hlive.edge hedge)) h.l_leaf,
    hkind, fun hk => ?_⟩
  cases hkind with
  | root hx => exact hx
  | top _ _ h => exact absurd hk h
  | real _ _ h => exact absurd hk h
  | sentinel hx hxk _ _ hyl =>
      -- the search for a real key goes left at a sentinel
      refine absurd (hke.2.1.symm.trans (child_eq_left ?_)) hyl
      rw [hxk, ord_noKey]
      exact WithTop.coe_lt_top k

omit [LinearOrder K] in
theorem removes_leaf {ty : ScxType} {p l : ℕ} {fl : Bool} {new : NewTree K V}
    (hty : ty.numToFreeze = 1) (h0 : l ≠ 0) (hl : (m.node l).left = 0)
    (hr : (m.node l).right = 0) (hs : (slots new).Perm (List.range ty.numInserted)) :
    Removes m ⟨ty, [p, l], fl, new⟩ (.leaf (m.cell l)) where
  holds := ⟨h0, rfl, rfl, rfl, hl, hr⟩
  top_eq := rfl
  top_mem := by simp [top]
  inner_sub := by simp [inner]
  tail_sub := by simp [ScxRecord.toFreeze, hty]
  slots_perm := hs

/-- Below a node of the real part, or at its top, a leaf may be replaced by a real subtree of the
same weight. -/
theorem InsertLinks.realShape {k : K} {p l : ℕ} {w : ℤ} (h : InsertLinks cfg m k p l)
    (new : NewTree K V) (hl : (m.node l).key ≠ cfg.noKey)
    (real : ∀ a ∈ new.labels, a.key ≠ cfg.noKey) (nonneg : ∀ a ∈ new.labels, 0 ≤ a.weight)
    (leaf_pos : ∀ a ∈ newLeaves new, 1 ≤ a.weight)
    (top_weight : (m.node p).key = cfg.noKey → topWeight new = 1)
    (hbal : ∀ b F, ((inst b new).plug F).Bal Cell.weight w)
    (hw : (m.node p).key ≠ cfg.noKey → w = (m.node l).weight) :
    p ≠ root ∧ RealShape cfg (m.node p).key (.leaf (m.cell l)) new := by
  refine ⟨fun hp => ?_, real, nonneg, leaf_pos, top_weight, w - (m.node l).weight,
    fun hu => by rw [hw hu, sub_self], fun b F n hn => ?_⟩
  · cases h.kind with
    | root _ hy => exact hl hy
    | top hx => exact hx hp
    | sentinel hx => exact hx hp
    | real hx => exact hx hp
  · obtain rfl : (m.node l).weight = n := hn
    simpa using hbal b F

/-- The top of the real part has weight one. -/
theorem InsertLinks.weight_of_top {k : K} {p l : ℕ} (h : InsertLinks cfg m k p l)
    (hl : (m.node l).key ≠ cfg.noKey) (hp : (m.node p).key = cfg.noKey) :
    (m.node l).weight = 1 := by
  cases h.kind with
  | root _ hy => exact absurd hy hl
  | top _ _ _ hw => exact hw
  | sentinel _ _ hy => exact absurd hy hl
  | real _ hx => exact absurd hp hx

/-- The new leaf of an insertion. -/
def insLeaf (key : K) (val : V) : NewNode K V := ⟨0, key, val, 1, some 1⟩

/-- The copy of the old leaf. -/
def insCopy (cfg : Cfg K V) (m : Mem K V) (l : ℕ) : NewNode K V :=
  ⟨1, (m.node l).key, (m.node l).value,
    match cfg.variant with
    | .bat => 1
    | _ => if (m.node l).key = cfg.noKey then 0 else 1,
    some (if (m.node l).key = cfg.noKey then 0 else 1)⟩

/-- The node above the two, with the key and the value of one of them. -/
def insTop (cfg : Cfg K V) (m : Mem K V) (p l : ℕ) (key : K) (val : V) : NewNode K V :=
  ⟨2, key, val, if isSentinel cfg.noKey m l p then 1 else (m.node l).weight - 1,
    some (if (m.node l).key = cfg.noKey then 1 else 2)⟩

theorem insertedSubtree_eq (key : K) (val : V) (p l : ℕ) :
    insertedSubtree cfg m key val p l =
      if (key : WithTop K) < ord cfg (m.node l).key then
        .node (insTop cfg m p l (m.node l).key (m.node l).value) (.leaf (insLeaf key val))
          (.leaf (insCopy cfg m l))
      else
        .node (insTop cfg m p l key val) (.leaf (insCopy cfg m l)) (.leaf (insLeaf key val)) := by
  have hiff : (m.node l).key = cfg.noKey ∨ key < (m.node l).key ↔
      (key : WithTop K) < ord cfg (m.node l).key := by
    unfold ord
    split_ifs with hn
    · simp [hn]
    · simp [hn]
  unfold insertedSubtree
  simp only [hiff]
  rfl

theorem slots_insertedSubtree (key : K) (val : V) (p l : ℕ) :
    (slots (insertedSubtree cfg m key val p l)).Perm (List.range 3) := by
  rw [insertedSubtree_eq]
  split_ifs
  · exact (by decide : List.Perm [2, 0, 1] (List.range 3))
  · exact (by decide : List.Perm [2, 1, 0] (List.range 3))

/-- **An insertion adds the binding of its key.** -/
theorem plan_insertedSubtree {key : K} {val : V} {p l : ℕ} (hk : key ≠ cfg.noKey)
    (hne : key ≠ (m.node l).key) :
    Plan cfg key (.put val) (.leaf (m.cell l)) (insertedSubtree cfg m key val p l) := by
  have hs : (m.node l).key ≠ cfg.noKey → (if (m.node l).key = cfg.noKey then (0 : ℤ) else 1) = 1 :=
    fun h => if_neg h
  rw [insertedSubtree_eq]
  split_ifs with hlt
  · refine plan_insert_left hk hlt rfl rfl rfl rfl rfl hs ?_
    simp only [insTop]
    split_ifs <;> rfl
  · refine plan_insert_right hk (lt_of_le_of_ne (not_lt.mp hlt) fun he => ?_) rfl rfl rfl rfl rfl
      hs ?_
    · exact hne ((ord_eq_coe_iff hk).mp he).symm
    · simp only [insTop]
      split_ifs <;> rfl

/-- An insertion keeps the layout of the sentinels. -/
theorem InsertLinks.shapeOk {key : K} {val : V} {p l : ℕ} {fl : Bool}
    (h : InsertLinks cfg m key p l) (hk : key ≠ cfg.noKey)
    (hreal : (m.node l).key ≠ cfg.noKey → 1 ≤ (m.node l).weight) :
    ShapeOk cfg m ⟨.ins, [p, l], fl, insertedSubtree cfg m key val p l⟩ (.leaf (m.cell l)) := by
  by_cases hl : (m.node l).key = cfg.noKey
  · refine .top (h.not_sentinel hl) ?_
    rw [insertedSubtree_eq, if_pos (by rw [hl, ord_noKey]; exact WithTop.coe_lt_top key)]
    exact .fill _ _ _ hl (if_pos (by simp [isSentinel, hl])) hk rfl hl (congrArg some (if_pos hl))
  · have hw : (insTop cfg m p l key val).weight =
        if (m.node p).key = cfg.noKey then 1 else (m.node l).weight - 1 := by
      simp [insTop, isSentinel, hl]
    have hcw : (insCopy cfg m l).weight = 1 := by
      simp only [insCopy]
      cases cfg.variant <;> simp [hl]
    have h1 := hreal hl
    have hnn : 0 ≤ (insTop cfg m p l key val).weight := by
      rw [hw]; split_ifs <;> omega
    -- both orders of the two leaves give the same weights
    have key' : ∀ (key' : K) (val' : V) (x y : NewNode K V), key' ≠ cfg.noKey →
        x.key ≠ cfg.noKey → y.key ≠ cfg.noKey → x.weight = 1 → y.weight = 1 →
        p ≠ root ∧ RealShape cfg (m.node p).key (.leaf (m.cell l))
          (.node (insTop cfg m p l key' val') (.leaf x) (.leaf y)) := by
      intro key' val' x y hk' hx hy hxw hyw
      have hw' : (insTop cfg m p l key' val').weight = (insTop cfg m p l key val).weight := rfl
      refine h.realShape _ hl ?_ ?_ ?_ (fun hp => ?_)
        (w := (insTop cfg m p l key val).weight + 1) (fun b F => ⟨?_, ?_⟩) (fun hp => ?_)
      · simpa [Patch.labels] using ⟨hk', hx, hy⟩
      · simp [Patch.labels, hw', hxw, hyw, hnn]
      · simp [hxw, hyw]
      · rw [topWeight, hw', hw, if_pos hp]
      · exact hxw.trans (by simp [hw'])
      · exact hyw.trans (by simp [hw'])
      · rw [hw, if_neg hp]; omega
    have hsh : p ≠ root ∧ RealShape cfg (m.node p).key (.leaf (m.cell l))
        (insertedSubtree cfg m key val p l) := by
      rw [insertedSubtree_eq]
      split_ifs
      · exact key' _ _ _ _ hl hk hl rfl hcw
      · exact key' _ _ _ _ hk hl hk hcw rfl
    exact .real hsh.1 hl hsh.2

/-- **An insertion whose LLX and check succeed may commit its SCX.** -/
theorem insertScx_ready (hB : Base cfg m t) (hk : c.key ≠ cfg.noKey)
    (hcur : InsertCursor cfg m c.key cur.p cur.l) (h : insertScx cfg m c cur = .ok rec) :
    Ready cfg m rec c.key (.put c.val) := by
  unfold insertScx at h
  rw [llx_bind, checkChild_bind] at h
  obtain ⟨hf, hc, h⟩ := h
  have L := hcur.links hB hf hc
  have hfree : ∀ {ty : ScxType} {fl : Bool} {new : NewTree K V}, ty.numToFreeze = 1 →
      ∀ x ∈ (⟨ty, [cur.p, cur.l], fl, new⟩ : ScxRecord K V).toFreeze, Free m x := fun hty => by
    simpa [ScxRecord.toFreeze, hty] using hf
  have hside := side_of_child hc
  have hreal : (m.node cur.l).key ≠ cfg.noKey → RealNode cfg m cur.l :=
    hB.realNode (L.live.edge L.edge)
  split_ifs at h with hkl
  · obtain rfl := Except.ok.inj h
    have hl : (m.node cur.l).key ≠ cfg.noKey := hkl ▸ hk
    obtain ⟨hroot, hsh⟩ := L.realShape (.leaf ⟨0, c.key, c.val, (m.node cur.l).weight, some 1⟩)
      hl (by simpa [Patch.labels] using hk) (by simpa [Patch.labels] using (hreal hl).nonneg)
      (by simpa using (hreal hl).leaf_pos hcur.l_leaf) (L.weight_of_top hl) (fun b F => rfl)
      fun _ => rfl
    exact ⟨⟨_, removes_leaf rfl hcur.l_ne hcur.l_leaf L.l_right
      (by decide : List.Perm [0] (List.range 1)), plan_replace hkl.symm, L.live, hside,
      fun _ => ⟨L.onPath, L.kedge⟩, .real hroot hl hsh⟩, hfree rfl⟩
  · obtain rfl := Except.ok.inj h
    exact ⟨⟨_, removes_leaf rfl hcur.l_ne hcur.l_leaf L.l_right (slots_insertedSubtree ..),
      plan_insertedSubtree hk hkl, L.live, hside, fun _ => ⟨L.onPath, L.kedge⟩,
      L.shapeOk hk fun hl => (hreal hl).leaf_pos hcur.l_leaf⟩, hfree rfl⟩

end Insert

/-! ### Deletion -/

section Erase

variable {t : LTree (Cell K V)} {c : Call K V} {cur : Cursor} {rec : ScxRecord K V}

/-- What a deletion knows of its last three nodes. -/
structure EraseCursor (cfg : Cfg K V) (m : Mem K V) (k : K) (gp p l : ℕ) : Prop where
  gp_lt : gp < m.next
  gp_internal : (m.node gp).left ≠ 0
  gp_good : Good cfg m k gp
  p_internal : (m.node p).left ≠ 0
  p_good : Good cfg m k p
  l_leaf : (m.node l).left = 0
  l_ne : l ≠ 0
  l_good : Good cfg m k l

omit [LinearOrder K] in
theorem removes_erase {gp p s l : ℕ} {fl : Bool} {w : ℤ} {old : Patch (Cell K V) ℕ}
    (hold : old = .node (m.cell p) (.leaf (m.cell l)) (m.one s) ∨
      old = .node (m.cell p) (m.one s) (.leaf (m.cell l))) (hh : m.Holds old) :
    Removes m ⟨.del, [gp, p, s, l], fl, m.copyOf 0 s w⟩ old where
  holds := hh
  top_eq := by rcases hold with rfl | rfl <;> rfl
  top_mem := by rcases hold with rfl | rfl <;> simp [top]
  inner_sub := by
    have : ∀ x ∈ inner (m.one s), x = s := fun x hx => mem_inner_one hx
    rcases hold with rfl | rfl <;>
      simpa [inner, ScxRecord.toFreeze, ScxType.numToFreeze, Mem.cell] using
        fun x hx => .inr (this x hx)
  tail_sub := by
    rcases hold with rfl | rfl <;>
      simp [ScxRecord.toFreeze, ScxType.numToFreeze, pids, Patch.labels, Mem.cell]
  slots_perm := by
    rw [slots_copyOf]
    exact (by decide : List.Perm [0] (List.range 1))

/-- The sibling of a real leaf may take the place of their parent in the real part. -/
theorem realShape_erase {uKey : K} {p s : ℕ} {l : Cell K V} {w : ℤ} {old : Patch (Cell K V) ℕ}
    (hold : old = .node (m.cell p) (.leaf l) (m.one s) ∨
      old = .node (m.cell p) (m.one s) (.leaf l)) (hp : RealNode cfg m p) (hs : RealNode cfg m s)
    (hw : w = if uKey = cfg.noKey then 1 else (m.node p).weight + (m.node s).weight) :
    RealShape cfg uKey old (m.copyOf 0 s w) := by
  have hp0 := hp.nonneg
  have hs0 := hs.nonneg
  refine ⟨by simpa using hs.real, ?_, ?_, fun hu => by rw [topWeight_copyOf, hw, if_pos hu],
    w - (m.node s).weight - (m.node p).weight, fun hu => by rw [hw, if_neg hu]; omega,
    fun b F n hn => ?_⟩
  · simp only [labels_copyOf, List.mem_singleton, forall_eq, hw]
    split_ifs <;> omega
  · intro a ha
    rw [newLeaves_copyOf] at ha
    split_ifs at ha with hl
    · have hl1 := hs.leaf_pos hl
      rw [List.mem_singleton.mp ha, hw]
      simp only
      split_ifs <;> omega
    · simp at ha
  · have hS : ((m.one s).plug F).Bal Cell.weight (n - (m.node p).weight) := by
      rcases hold with rfl | rfl
      · exact hn.2
      · exact hn.1
    have htr : newTrace cfg 0 ⊥ ⊤ (m.copyOf 0 s w) = _ := newTrace_copyOf 0 s w 0 ⊥ ⊤
    have := bal_of_trace b F htr hS
    convert this using 1
    omega

/-- **A deletion whose LLXs and checks succeed may commit its SCX.** -/
theorem eraseScx_ready (hB : Base cfg m t) (hk : c.key ≠ cfg.noKey)
    (hcur : EraseCursor cfg m c.key cur.gp cur.p cur.l) (hkl : c.key = (m.node cur.l).key)
    (hpar : eraseParents m cur = .ok ()) (h : eraseScx cfg m cur = .ok rec) :
    Ready cfg m rec c.key .drop := by
  rw [eraseParents, llx_bind, checkChild_bind, llx_bind, checkChild_ok] at hpar
  obtain ⟨hfg, hcp, hfp, hcl⟩ := hpar
  rw [eraseScx, llx_bind] at h
  obtain ⟨hfs, h⟩ := h
  have hT := hB.tree
  have hlg := hB.live_of_free hfg hcur.gp_lt hcur.gp_internal
  have egp : Edge m cur.gp cur.p := ⟨hfp.ne_zero, hcp.imp Eq.symm Eq.symm⟩
  have epl : Edge m cur.p cur.l := ⟨hcur.l_ne, hcl.imp Eq.symm Eq.symm⟩
  have hlp := hlg.edge egp
  have hpg := hcur.gp_good.onPath hlg
  have hpp := hcur.p_good.onPath hlp
  have hpr : cur.p ≠ root := hT.edge_ne_root hlg egp
  have hlk : (m.node cur.l).key ≠ cfg.noKey := hkl ▸ hk
  have hlr : (m.node cur.l).right = 0 := hB.closed.leaf _ (hT.live_lt (hlp.edge epl)) hcur.l_leaf
  obtain rfl := Except.ok.inj h
  clear h
  set s := if cur.l = (m.node cur.p).left then (m.node cur.p).right else (m.node cur.p).left
    with hsdef
  set w : ℤ := if isSentinel cfg.noKey m cur.p cur.gp then 1
    else (m.node cur.p).weight + (m.node s).weight with hwdef
  have eps : Edge m cur.p s := ⟨hfs.ne_zero, by rw [hsdef]; split_ifs <;> simp⟩
  have hsr := hT.edge_ne_root hlp eps
  have hslt := hT.live_lt (hlp.edge eps)
  have hsfull : (m.node s).left = 0 ↔ (m.node s).right = 0 :=
    ⟨hB.closed.leaf s hslt, fun hr => by_contra fun hl => hB.closed.full s hslt hsr hl hr⟩
  have hleaf : m.Holds (.leaf (m.cell cur.l)) :=
    ⟨hcur.l_ne, rfl, rfl, rfl, hcur.l_leaf, hlr⟩
  have hsib : m.Holds (m.one s) := holds_one_of_full hfs.ne_zero hsfull
  have htr : ∀ lo hi, newTrace cfg 0 lo hi (m.copyOf 0 s w) =
      oldTrace cfg (0 + w - (m.node s).weight) lo hi (m.one s) := newTrace_copyOf 0 s w 0
  obtain ⟨old, hold, hh, hplan⟩ : ∃ old,
      (old = .node (m.cell cur.p) (.leaf (m.cell cur.l)) (m.one s) ∨
      old = .node (m.cell cur.p) (m.one s) (.leaf (m.cell cur.l))) ∧ m.Holds old ∧
      Plan cfg c.key .drop old (m.copyOf 0 s w) := by
    by_cases hl : cur.l = (m.node cur.p).left
    · have hs : s = (m.node cur.p).right := by rw [hsdef, if_pos hl]
      exact ⟨_, .inl rfl, holds_node hfp.ne_zero hl.symm (by rw [top_one, hs]) hleaf hsib,
        plan_erase_left htr hkl.symm (plain_copyOf ..).versOk⟩
    · have hs : s = (m.node cur.p).left := by rw [hsdef, if_neg hl]
      exact ⟨_, .inr rfl, holds_node hfp.ne_zero (by rw [top_one, hs])
        (hcl.resolve_left hl).symm hsib hleaf,
        plan_erase_right htr hkl.symm (plain_copyOf ..).versOk⟩
  have hshape : ShapeOk cfg m ⟨.del, [cur.gp, cur.p, s, cur.l],
      decide (cur.p = (m.node cur.gp).left), m.copyOf 0 s w⟩ old := by
    have real : cur.gp ≠ root → (m.node cur.p).key ≠ cfg.noKey → ShapeOk cfg m
        ⟨.del, [cur.gp, cur.p, s, cur.l], decide (cur.p = (m.node cur.gp).left),
          m.copyOf 0 s w⟩ old := fun hg hpk =>
      .real hg hpk (realShape_erase hold (hB.realNode hlp hpk) (hB.real_edge hlp hpk eps)
        (by rw [hwdef]; simp [isSentinel, hpk, ScxRecord.nth]))
    cases hT.edgeKind hlg egp with
    | root hg hpk =>
        -- the last real leaf goes, and a copy of the sentinel leaf stays
        refine .top hg ?_
        have hl : cur.l = (m.node cur.p).left ∧ cur.l ≠ (m.node cur.p).right := by
          cases hT.edgeKind hlp epl with
          | root hx => exact absurd hx hpr
          | top _ _ _ _ hy hyr => exact ⟨hy, hyr⟩
          | sentinel _ _ hy => exact absurd hy hlk
          | real _ hx => exact absurd hpk hx
        have hs : s = (m.node cur.p).right := by rw [hsdef, if_pos hl.1]
        cases hT.edgeKind hlp eps with
        | root hx => exact absurd hx hpr
        | top _ _ _ _ _ hyr => exact absurd hs hyr
        | sentinel _ _ hsk hs0 =>
            show TopShape cfg (m.copyOf 0 s w)
            rw [copyOf_of_leaf hs0]
            exact .clear _ hsk rfl
        | real _ hx => exact absurd hpk hx
    | top hg _ hpk => exact real hg hpk
    | sentinel _ _ _ h0 => exact absurd h0 hcur.p_internal
    | real hg _ hpk => exact real hg hpk
  refine ⟨⟨old, removes_erase hold hh, hplan, hlg, side_of_child hcp,
    fun _ => ⟨hpg, (hT.onPath_of_edge hpg.live egp hpp).2⟩, hshape⟩, ?_⟩
  simp only [ScxRecord.toFreeze, ScxType.numToFreeze, List.take_succ_cons, List.take_zero,
    List.mem_cons, List.not_mem_nil, or_false]
  rintro x (rfl | rfl | rfl)
  · exact hfg
  · exact hfp
  · exact hfs

end Erase

end Cbat
