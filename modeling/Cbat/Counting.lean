/-
**One thread alone: sizes, ranks and selection.**

Between two calls of a thread that runs alone the version of the root is the version tree of the
stored keys: a real part with a leaf for every key, and the sentinels.  The sum in the version of
the sentinel leaf is zero while the tree is not empty.  When the last key is deleted, the sentinel
leaf that stays is a copy with the sum one, and the sum at the root is wrong until the next
insertion. `getRank` and `selectItem` read the field `left` for both children and follow the
leftmost path.

Main definitions:

* `Cbat.TopSum` — the sums of the sentinel leaves;
* `Cbat.computeSize`, `Cbat.size` — `computeSize` and `size`;
* `Cbat.keysOf`, `Cbat.rankOf` — the stored keys, and the number of them up to a key;
* `Cbat.SizeLaw`, `Cbat.RankLaw`, `Cbat.SelectLaw` — what the queries should return.

Main results:

* `Cbat.AtRest.layout` — **the version tree of the root between two calls**;
* `Cbat.sizeLaw_of_history`, `Cbat.rankLaw_of_history`, `Cbat.selectLaw_of_history` — **when each
  law holds**, after every sequence of calls.
-/

import Cbat.Sequential
import Mathlib.Algebra.Order.BigOperators.Group.List
import Mathlib.Data.Set.Card

set_option relaxedAutoImplicit false
set_option autoImplicit false

namespace Cbat

variable {K V : Type} {m m' : Mem K V}

/-! ### The sums of the sentinels -/

/-- The version of the sentinel leaf counts no key while the tree is not empty.  In an empty tree it
counts none if the tree is as constructed, and one otherwise. -/
structure TopSum (m : Mem K V) : Prop where
  empty : (m.node (m.node root).left).left = 0 →
    (m.node (m.node root).left).version.sum = if m.next = 3 then 0 else 1
  full : (m.node (m.node root).left).left ≠ 0 →
    (m.node (m.node (m.node root).left).right).version.sum = 0

theorem TopSum.of_same (h : TopSum m) (hs : SameNodes m m')
    (hv : ∀ x, (m'.node x).left = 0 → (m'.node x).version = (m.node x).version)
    (hleaf : (m.node (m.node root).left).left ≠ 0 →
      (m.node (m.node (m.node root).left).right).left = 0) : TopSum m' := by
  have hl := (hs.same root).left
  have hll := (hs.same (m.node root).left).left
  refine ⟨fun h0 => ?_, fun h0 => ?_⟩
  · rw [hv _ h0, hs.next, hl]
    rw [hl, hll] at h0
    exact h.empty h0
  · rw [hl, hll] at h0
    rw [hl, (hs.same _).right, hv _ ((hs.same _).left.trans (hleaf h0))]
    exact h.full h0

variable [LinearOrder K] {cfg : Cfg K V} {t : LTree (Cell K V)} {f : K → Option V} {k : K}

/-- The right child below the root is a sentinel leaf. -/
theorem Base.last_sentinel (hB : Base cfg m t) (h0 : (m.node (m.node root).left).left ≠ 0) :
    (m.node (m.node (m.node root).left).right).left = 0 ∧
      (m.node (m.node (m.node root).left).right).key = cfg.noKey := by
  have hrep := hB.tree.rep
  rw [hB.tree.root_left] at h0 ⊢
  rcases hB.tree.shape with ⟨s, rfl, -⟩ | ⟨rl, s, T, rfl, -, -, hs, -⟩
  · exact absurd hrep.left h0
  · have hr : (m.node rl.id).right = s.id := hrep.1.right
    rw [LTree.label_node, hr]
    exact ⟨hrep.2.2.left, hrep.2.2.key.trans hs⟩

/-- A swing at the root changes its left child. -/
theorem Commit.swing_root {rec : ScxRecord K V} {old : Patch (Cell K V) ℕ} {e : Effect V}
    (hc : Commit cfg m rec old k e) (hT : TreeInv cfg m t) (hu : rec.nth 0 = root) :
    ((m.swing rec).node root).left = newPtr m.next rec.newNode := by
  obtain ⟨-, t', hT', -⟩ := hc.swing hT
  have hself := Mem.swing_self hc.side
  rw [hu] at hself
  by_cases hf : rec.fieldIsLeft = true
  · rw [hself, if_pos hf]
  · have hr := hT'.root_right
    rw [hself, if_neg hf] at hr
    exact absurd hr (hc.newPtr_lt hT .refl).1

theorem TopSum.swing {rec : ScxRecord K V} {old : Patch (Cell K V) ℕ} {e : Effect V}
    (h : TopSum m) (hB : Base cfg m t) (hc : Commit cfg m rec old k e) : TopSum (m.swing rec) := by
  have hT := hB.tree
  have hw := Mem.swing_written hc.removes.slots_nodup (hT.live_lt hc.live)
  have hlive : Live m (m.node root).left := .single hB.top_edge
  have hlt := hT.live_lt hlive
  have hge : 3 ≤ m.next := by
    have h0 := hB.top_edge.1
    have h1 := hT.edge_ne_root .refl hB.top_edge
    unfold root at h0 h1 hlt
    omega
  have hnext : (m.swing rec).next ≠ 3 := by
    have : 0 < rec.type.numInserted := by cases rec.type <;> decide
    have : (m.swing rec).next = m.next + rec.type.numInserted := rfl
    omega
  cases hc.shape with
  | top hu hs =>
      have hleft := hc.swing_root hT hu
      generalize rec.newNode = new at hs hw hleft
      cases hs with
      | fill a b s _ _ _ _ _ hsum =>
          have hnode : (m.swing rec).node (m.next + a.slot) = _ := hw.1
          have hsent : (m.swing rec).node (m.next + s.slot) = _ := hw.2.2
          refine ⟨fun h0 => ?_, fun _ => ?_⟩
          · rw [hleft, newPtr, hnode] at h0
            simp only [newPtr] at h0
            omega
          · rw [hleft, newPtr, hnode]
            simp only [newPtr, hsent, newVersion, hsum, Ver.sum_mk]
      | clear s _ hsum =>
          have hnode : (m.swing rec).node (m.next + s.slot) = _ := hw
          refine ⟨fun _ => ?_, fun h0 => ?_⟩
          · rw [hleft, newPtr, hnode, if_neg hnext]
            simp only [newVersion, hsum, Ver.sum_mk]
          · rw [hleft, newPtr, hnode] at h0
            exact absurd rfl h0
  | real hu hkey hs =>
      -- the real part changes, and the nodes above it are internal
      have hroot : (m.swing rec).node root = m.node root := Mem.swing_of_ne hT.root_lt hu.symm
      have hin : (m.node (m.node root).left).left ≠ 0 := by
        intro h0
        rcases hT.live_iff.mp hc.live_top with he | hmem
        · exact hkey (he ▸ hT.root_key)
        · rcases hT.shape with ⟨s, rfl, hs⟩ | ⟨rl, s, T, rfl, -⟩
          · obtain he : rec.nth 1 = s.id := by simpa using hmem
            exact hkey (he ▸ hT.rep.key.trans hs)
          · have hz := hT.zero_notMem
            simp only [ids_node, List.mem_cons, List.mem_append, not_or] at hz
            rw [hT.root_left, LTree.label_node, hT.rep.1.left] at h0
            exact label_id_ne_zero hz.2.1 h0
      have hright : ((m.swing rec).node (m.node root).left).right =
          (m.node (m.node root).left).right := by
        by_cases hrl : (m.node root).left = rec.nth 0
        · have hself := Mem.swing_self hc.side
          by_cases hf : rec.fieldIsLeft = true
          · rw [hrl, hself, if_pos hf]
          · have hside := hc.side
            rw [Mem.side, if_neg hf, ← hrl] at hside
            exact absurd (hside ▸ (hB.last_sentinel hin).2) hkey
        · rw [Mem.swing_of_ne hlt hrl]
      have hleaf := (Later.swing hc hT hB.closed).leaf (m.node root).left hlt
      refine ⟨fun h0 => ?_, fun _ => ?_⟩
      · rw [hroot] at h0
        exact absurd (hleaf.mp h0) hin
      · rw [hroot, hright, hc.swing_version (hB.closed.right_lt _ hlt)]
        exact h.full hin

theorem Reachable.topSum {s : State K V} (h : Reachable cfg s) : TopSum s.mem := by
  induction h with
  | refl => exact ⟨fun _ => rfl, fun h => absurd rfl h⟩
  | @tail s s' hr hs ih =>
      have hI := Reachable.inv hr
      have hV := Reachable.vInv hr
      obtain ⟨t, hB⟩ := hI.base
      have hleaf := fun h0 => (hB.last_sentinel h0).1
      obtain ⟨i, hs⟩ := hs
      obtain ⟨m', pc', rfl, hK⟩ := hs.kind
      cases hK with
      | still => exact ih
      | prop hp =>
          exact ih.of_same hp.quiet.toSameNodes
            (fun x hl => congrArg Node.version (hp.leaf_eq (hV.pcs i) hl))
            hleaf
      | freeze => exact ih.of_same (freeze_sameNodes ..) (fun x _ => freeze_version ..) hleaf
      | swing hpc =>
          obtain ⟨old, hc⟩ := hI.commit hpc
          exact ih.swing hB hc

/-! ### The version tree between two calls -/

/-- **The versions of a real subtree** whose nodes are all fine. -/
theorem realTree_of_fine {T : LTree (Cell K V)} {lo : WithBot (WithTop K)}
    {hi : WithTop (WithTop K)} (hB : Base cfg m t) (hleaf : LeafOk cfg m)
    (hfine : ∀ x, Live m x → Fine m x) (hrep : m.Rep T) (h0 : 0 ∉ ids T)
    (hlive : ∀ x ∈ ids T, Live m x) (hreal : ∀ c ∈ T.labels, c.key ≠ cfg.noKey)
    (hw : T.Within (ckey cfg) lo hi) :
    RealTree cfg.noKey (m.node T.label.id).version ∧
      (m.node T.label.id).version.leafKeys = T.leaves.map Cell.key := by
  induction T generalizing lo hi with
  | leaf c =>
      have hx := hlive c.id (by simp)
      have hck : c.key ≠ cfg.noKey := hreal c (by simp)
      obtain ⟨⟨a, s, ps, he, -⟩, -, -⟩ := hfine c.id hx
      obtain ⟨-, -, hsum⟩ := hleaf c.id (hB.tree.live_lt hx) hrep.left
      have hsum := hsum (hrep.key.symm ▸ hck)
      rw [he, Ver.sum_mk] at hsum
      rw [hrep.left, hrep.right, hrep.key, Mem.ver_zero] at he
      rw [LTree.label_leaf, he, realTree_mk_iff]
      simp [Ver.leafKeys, hck, hsum]
  | node c l r ihl ihr =>
      simp only [ids_node, List.mem_cons, List.mem_append, not_or] at h0 hlive
      simp only [LTree.labels_node, List.mem_cons, List.mem_append] at hreal
      have hl0 := label_id_ne_zero h0.2.1
      have hr0 := label_id_ne_zero h0.2.2
      obtain ⟨hL, hLk⟩ := ihl hrep.2.1 h0.2.1 (fun x hx => hlive x (.inr (.inl hx)))
        (fun d hd => hreal d (.inr (.inl hd))) hw.1
      obtain ⟨hR, hRk⟩ := ihr hrep.2.2 h0.2.2 (fun x hx => hlive x (.inr (.inr hx)))
        (fun d hd => hreal d (.inr (.inr hd))) hw.2
      obtain ⟨⟨a, s, ps, he, hsum⟩, -, -⟩ := hfine c.id (hlive c.id (.inl rfl))
      have hck := hreal c (.inl rfl)
      rw [hrep.1.left, hrep.1.right, Mem.ver_of_ne m hl0, Mem.ver_of_ne m hr0] at he hsum
      rw [hrep.1.key] at he
      have hkeys : (m.node c.id).version.leafKeys =
          (LTree.node c l r).leaves.map Cell.key := by
        rw [he, Ver.leafKeys_mk (hL.ne_nil _), hLk, hRk, LTree.leaves_node, List.map_append]
      refine ⟨?_, hkeys⟩
      rw [LTree.label_node, he, realTree_mk_iff]
      rw [he] at hkeys
      refine ⟨hck, ?_, .inr ⟨hL.ne_nil _, hL, hR, ?_, ?_⟩⟩
      · rw [hkeys, hsum hl0, hL.sum_eq, hR.sum_eq, hLk, hRk]
        simp
      · rw [hLk]
        intro j hj
        obtain ⟨d, hd, rfl⟩ := List.mem_map.mp hj
        have hlt := WithTop.coe_lt_coe.mp (hw.1.mem_leaves hd).2
        have hdk := hreal d (.inr (.inl (LTree.leaves_subset_labels l hd)))
        rw [ckey, ckey, ord_of_ne hdk, ord_of_ne hck] at hlt
        exact WithTop.coe_lt_coe.mp hlt
      · rw [hRk]
        intro j hj
        obtain ⟨d, hd, rfl⟩ := List.mem_map.mp hj
        have hle := WithBot.coe_le_coe.mp (hw.2.mem_leaves hd).1
        have hdk := hreal d (.inr (.inr (LTree.leaves_subset_labels r hd)))
        rw [ckey, ckey, ord_of_ne hdk, ord_of_ne hck] at hle
        exact WithTop.coe_le_coe.mp hle

/-- **The version tree of the root**: the sentinels above the real part, if there is one.  In an
empty tree the sums are zero as long as it is as constructed (`fresh`), and one afterwards. -/
inductive RootVersion (cfg : Cfg K V) (f : K → Option V) (fresh : Prop) [Decidable fresh] :
    Ver K → Prop
  | empty (a a' ps ps' : ℕ) (hnone : ∀ q, q ≠ cfg.noKey → f q = none) :
      RootVersion cfg f fresh (.mk a cfg.noKey (if fresh then 0 else 1)
        (.mk a' cfg.noKey (if fresh then 0 else 1) .nil .nil ps') .nil ps)
  | full {v : Ver K} (a a' b ps ps' qs : ℕ) (hv : RealTree cfg.noKey v)
      (hkeys : ∀ q, q ≠ cfg.noKey → (f q ≠ none ↔ q ∈ v.leafKeys)) :
      RootVersion cfg f fresh (.mk a cfg.noKey v.sum
        (.mk a' cfg.noKey v.sum v (.mk b cfg.noKey 0 .nil .nil qs) ps') .nil ps)

/-- The real part of the node tree, and of the version tree. -/
theorem AtRest.realPart (h : AtRest cfg m f) (hB : Base cfg m t)
    (h0 : (m.node (m.node root).left).left ≠ 0) :
    ∃ T v, (m.node (m.node root).left).left = T.label.id ∧ m.Rep T ∧ 0 ∉ ids T ∧
      (m.node T.label.id).version = v ∧ RealTree cfg.noKey v ∧
      v.leafKeys = T.leaves.map Cell.key ∧
      ∀ q, q ≠ cfg.noKey → (f q ≠ none ↔ q ∈ v.leafKeys) := by
  obtain ⟨pc, -, hr⟩ := h.reachable
  have hT := hB.tree
  have hrep := hT.rep
  have hz := hT.zero_notMem
  have hord := hT.ordered
  rw [hT.root_left] at h0 ⊢
  rcases hT.shape with ⟨s, rfl, -⟩ | ⟨rl, s, T, rfl, -, -, hs, hreal⟩
  · exact absurd hrep.left h0
  · simp only [ids_node, List.mem_cons, List.mem_append, not_or] at hz
    have hlive : ∀ x ∈ ids T, Live m x := fun x hx => hT.live_iff.mpr (.inr (by simp [hx]))
    obtain ⟨hv, hk⟩ := realTree_of_fine hB hr.leafOk h.fine hrep.2.1 hz.2.1 hlive hreal.real hord.1
    rw [LTree.label_node, hrep.1.left]
    refine ⟨T, _, rfl, hrep.2.1, hz.2.1, rfl, hv, hk, fun q hq => ?_⟩
    rw [hT.stores_iff.mp h.stores q hq, ← hT.inTree_iff_stored hq, hT.inTree_iff hq, hk,
      LTree.leaves_node, LTree.leaves_leaf, List.mem_map]
    constructor
    · rintro ⟨c, hc, rfl⟩
      rcases List.mem_append.mp hc with hc | hc
      · exact ⟨c, hc, rfl⟩
      · rw [List.mem_singleton.mp hc] at hq
        exact absurd hs hq
    · rintro ⟨c, hc, hck⟩
      exact ⟨c, List.mem_append_left _ hc, hck⟩

theorem AtRest.layout (h : AtRest cfg m f) :
    RootVersion cfg f (m.next = 3) (m.node root).version := by
  obtain ⟨pc, -, hr⟩ := h.reachable
  obtain ⟨t, hB⟩ : ∃ t, Base cfg m t := hr.inv.base
  have hT := hB.tree
  have hsum : TopSum m := hr.topSum
  obtain ⟨⟨a, s, ps, he, hs⟩, -, -⟩ := h.fine root .refl
  obtain ⟨⟨a', s', ps', he', hs'⟩, -, -⟩ := h.fine (m.node root).left (.single hB.top_edge)
  have hs := hs hB.top_edge.1
  rw [hT.root_key, hT.root_right, Mem.ver_of_ne m hB.top_edge.1, Mem.ver_zero] at he
  rw [hT.root_right, Mem.ver_of_ne m hB.top_edge.1, Mem.ver_zero, he', Ver.sum_mk, Ver.sum_nil,
    add_zero] at hs
  rw [he, hs, he', hB.top_key]
  by_cases h0 : (m.node (m.node root).left).left = 0
  · have hr0 := hB.closed.leaf _ (hT.live_lt (.single hB.top_edge)) h0
    have hs0 := hsum.empty h0
    rw [he', Ver.sum_mk] at hs0
    rw [h0, hr0, Mem.ver_zero, hs0]
    exact .empty _ _ _ _ ((h.stores.empty_iff hT).mp h0)
  · have hlive : Live m (m.node root).left := .single hB.top_edge
    have hr0 := hB.closed.full _ (hT.live_lt hlive) (hT.edge_ne_root .refl hB.top_edge) h0
    have hsent := hB.last_sentinel h0
    have hlast : Live m (m.node (m.node root).left).right := hlive.edge ⟨hr0, .inr rfl⟩
    obtain ⟨b, sb, qs, hb⟩ := hr.vInv.mem.leaf _ (hT.live_lt hlast) hsent.1
    have hb0 := hsum.full h0
    rw [solo_mem, hsent.2] at hb
    rw [hb, Ver.sum_mk] at hb0
    have hs' := hs' h0
    rw [Mem.ver_of_ne m h0, Mem.ver_of_ne m hr0, hb, hb0, Ver.sum_mk, add_zero] at hs'
    rw [Mem.ver_of_ne m h0, Mem.ver_of_ne m hr0, hb, hb0, hs']
    obtain ⟨T, v, hlabel, -, -, hver, hv, -, hkeys⟩ := h.realPart hB h0
    rw [hlabel, hver]
    exact .full _ _ _ _ _ _ hv hkeys

/-! ### The stored keys -/

section Keys

omit [LinearOrder K] in
/-- The stored keys. -/
def keysOf (f : K → Option V) : Set K := {q | f q ≠ none}

omit [LinearOrder K] in
theorem ncard_mem {xs : List K} (h : xs.Nodup) : {q | q ∈ xs}.ncard = xs.length := by
  classical
  rw [← List.toFinset_card_of_nodup h, ← Set.ncard_coe_finset]
  congr 1
  ext q
  simp

variable {v : Ver K}

omit [LinearOrder K] in
theorem keysOf_eq [LinearOrder K] (hf : f cfg.noKey = none) (hv : RealTree cfg.noKey v)
    (hkeys : ∀ q, q ≠ cfg.noKey → (f q ≠ none ↔ q ∈ v.leafKeys)) :
    keysOf f = {q | q ∈ v.leafKeys} := by
  ext q
  by_cases hq : q = cfg.noKey
  · refine iff_of_false (fun h => h (hq ▸ hf)) fun h => ?_
    exact hv.leafKeys_ne _ q h hq
  · exact hkeys q hq

theorem ncard_keysOf (hf : f cfg.noKey = none) (hv : RealTree cfg.noKey v)
    (hkeys : ∀ q, q ≠ cfg.noKey → (f q ≠ none ↔ q ∈ v.leafKeys)) :
    ((keysOf f).ncard : ℤ) = v.sum := by
  rw [keysOf_eq hf hv hkeys, ncard_mem hv.pairwise.nodup, hv.sum_eq]

theorem keysOf_empty (hf : f cfg.noKey = none) (hnone : ∀ q, q ≠ cfg.noKey → f q = none) :
    keysOf f = ∅ := by
  refine Set.eq_empty_iff_forall_notMem.mpr fun q hq => hq ?_
  by_cases h : q = cfg.noKey
  · rw [h, hf]
  · exact hnone q h

/-- The map after a sequence of calls does not bind `NO_KEY`. -/
theorem after_noKey (f : K → Option V) (hf : f cfg.noKey = none) (ops : List (Op K V))
    (hops : ∀ op ∈ ops, op.key ≠ cfg.noKey) : (mapObject cfg).after f ops cfg.noKey = none := by
  induction ops generalizing f with
  | nil => exact hf
  | cons op ops ih =>
      refine ih _ ?_ fun o ho => hops o (List.mem_cons_of_mem _ ho)
      have hne := hops op List.mem_cons_self
      exact (Function.update_of_ne hne.symm ..).trans hf

end Keys

/-! ### Sizes -/

section Size

omit [LinearOrder K]

/-- `computeSize`, with a bound on the depth of the recursion. -/
def computeSize (m : Mem K V) : ℕ → ℕ → Option ℤ
  | 0, _ => none
  | fuel + 1, x =>
      if x = 0 then some 0
      else if (m.node x).left ≠ 0 then do
        let l ← computeSize m fuel (m.node x).left
        let r ← computeSize m fuel (m.node x).right
        return l + r
      else some 1

/-- `size` -/
def size (m : Mem K V) (fuel : ℕ) : Option ℤ :=
  computeSize m fuel (m.node (m.node root).left).left

/-- On a subtree `computeSize` counts the leaves. -/
theorem computeSize_rep {T : LTree (Cell K V)} (hrep : m.Rep T) (h0 : 0 ∉ ids T) {fuel : ℕ}
    (hfuel : T.labels.length ≤ fuel) :
    computeSize m fuel T.label.id = some (T.leaves.length : ℤ) := by
  induction T generalizing fuel with
  | leaf c =>
      obtain ⟨n, rfl⟩ := Nat.exists_eq_add_of_le' hfuel
      have hc : c.id ≠ 0 := fun h => h0 (by simp [h])
      simp [computeSize, hc, hrep.left]
  | node c l r ihl ihr =>
      simp only [ids_node, List.mem_cons, List.mem_append, not_or] at h0
      simp only [LTree.labels_node, List.length_cons, List.length_append] at hfuel
      obtain ⟨n, rfl⟩ := Nat.exists_eq_add_of_le' (Nat.le_of_add_left_le hfuel)
      have hl := ihl hrep.2.1 h0.2.1 (by omega : l.labels.length ≤ n)
      have hr := ihr hrep.2.2 h0.2.2 (by omega : r.labels.length ≤ n)
      have hl0 := label_id_ne_zero h0.2.1
      simp [computeSize, Ne.symm h0.1, hrep.1.left, hrep.1.right, hl0, hl, hr]

end Size

/-- **`size` is right between two calls.** -/
theorem AtRest.size (h : AtRest cfg m f) (hf : f cfg.noKey = none) :
    ∃ d, ∀ fuel ≥ d, Cbat.size m fuel = some ((keysOf f).ncard : ℤ) := by
  obtain ⟨pc, -, hr⟩ := h.reachable
  obtain ⟨t, hB⟩ : ∃ t, Base cfg m t := hr.inv.base
  by_cases h0 : (m.node (m.node root).left).left = 0
  · refine ⟨1, fun fuel hfuel => ?_⟩
    obtain ⟨n, rfl⟩ := Nat.exists_eq_add_of_le' hfuel
    rw [keysOf_empty hf ((h.stores.empty_iff hB.tree).mp h0), Set.ncard_empty]
    simp [Cbat.size, h0, computeSize]
  · obtain ⟨T, v, hlabel, hrep, hz, -, hv, hk, hkeys⟩ := h.realPart hB h0
    refine ⟨T.labels.length, fun fuel hfuel => ?_⟩
    rw [ncard_keysOf hf hv hkeys, hv.sum_eq, hk, List.length_map, Cbat.size, hlabel]
    exact computeSize_rep hrep hz hfuel

/-- **The size law**: the unbounded range query, the sum at the root and `size` are the number of
stored keys. -/
structure SizeLaw (cfg : Cfg K V) (m : Mem K V) (f : K → Option V) : Prop where
  range : rangeQuery cfg.noKey cfg.noKey cfg.noKey (m.node root).version = (keysOf f).ncard
  sum : (m.node root).version.sum = (keysOf f).ncard
  size : ∃ d, ∀ fuel ≥ d, size m fuel = some ((keysOf f).ncard : ℤ)

/-- It fails in a tree that has become empty. -/
theorem AtRest.sizeLaw_iff (h : AtRest cfg m f) (hf : f cfg.noKey = none) :
    SizeLaw cfg m f ↔ (keysOf f).Nonempty ∨ m.next = 3 := by
  have hlay := h.layout
  have hsize := h.size hf
  have hrange : rangeQuery cfg.noKey cfg.noKey cfg.noKey (m.node root).version =
      (m.node root).version.sum := by
    cases (m.node root).version with
    | nil => rfl
    | mk => simp [rangeQuery, doRangeQuery]
  have hiff : SizeLaw cfg m f ↔ (m.node root).version.sum = (keysOf f).ncard :=
    ⟨fun h => h.sum, fun h => ⟨hrange.trans h, h, hsize⟩⟩
  rw [hiff]
  generalize (m.node root).version = v at hlay
  cases hlay with
  | empty a a' ps ps' hnone =>
      rw [keysOf_empty hf hnone, Set.ncard_empty, Ver.sum_mk]
      by_cases hfresh : m.next = 3 <;> simp [hfresh]
  | @full v a a' b ps ps' qs hv hkeys =>
      refine iff_of_true (ncard_keysOf hf hv hkeys).symm (.inl ?_)
      rw [keysOf_eq hf hv hkeys]
      exact List.exists_mem_of_ne_nil _ (Ver.leafKeys_ne_nil (hv.ne_nil _))

/-! ### Ranks -/

theorem Runs.next_le {pc pc' : PC K V} (h : Runs cfg m pc m' pc')
    (hr : Reachable cfg (solo m pc)) : m.next ≤ m'.next := by
  induction h with
  | refl => exact le_rfl
  | @step m m₁ _ pc pc₁ _ he hrun ih =>
      have hs : Step cfg (solo m pc) 0 _ := solo_step m pc
      rw [he] at hs
      obtain ⟨m', pc', hset, hK⟩ := hs.kind
      have hmem : m₁ = m' := congrArg State.mem hset
      exact (hmem ▸ (hr.inv.later hK).next).trans (ih (hr.step hs))

/-- In a nonempty tree nodes have been added. -/
theorem AtRest.next_gt (h : AtRest cfg m f) (hne : ∃ q, q ≠ cfg.noKey ∧ f q ≠ none) :
    3 < m.next := by
  obtain ⟨pc, -, hr⟩ := h.reachable
  obtain ⟨t, hB⟩ : ∃ t, Base cfg m t := hr.inv.base
  have hT := hB.tree
  have h0 : (m.node (m.node root).left).left ≠ 0 := fun h0 => by
    obtain ⟨q, hq, hfq⟩ := hne
    exact hfq ((h.stores.empty_iff hT).mp h0 q hq)
  have hlive : Live m (m.node root).left := .single hB.top_edge
  have hedge : Edge m (m.node root).left (m.node (m.node root).left).left := ⟨h0, .inl rfl⟩
  have hlt := hT.live_lt hlive
  have hlt' := hT.live_lt (hlive.edge hedge)
  have hr := hT.edge_ne_root .refl hB.top_edge
  have hr' := hT.edge_ne_root hlive hedge
  have hne : (m.node (m.node root).left).left ≠ (m.node root).left := fun he =>
    (hB.acyclic _ hlt _ hedge).2 (by rw [he])
  have hz := hB.top_edge.1
  generalize (m.node (m.node root).left).left = y at *
  generalize (m.node root).left = x at *
  unfold root at hr hr'
  omega

section Histories

variable [DecidableEq V] {ops : List (Op K V)} {as : List (Answer V)}

/-- One call of a history. -/
theorem AtRest.served {op : Op K V} {a : Answer V} (h : AtRest cfg m f)
    (hk : op.key ≠ cfg.noKey) (hs : Serves cfg m op a m') :
    AtRest cfg m' (op.next f) ∧ m.next ≤ m'.next ∧
      (op.inserts = false → (∀ q, q ≠ cfg.noKey → f q = none) → m'.next = m.next) := by
  obtain ⟨m₁, hs₁, hrest, hsame⟩ := h.call hk
  obtain ⟨rfl, rfl⟩ := hs.unique hs₁
  obtain ⟨pc, hrun, -⟩ := hs
  exact ⟨hrest, hrun.next_le (h.start hk), fun hi hn => (hsame hi hn).next⟩

theorem AtRest.next_le {ops : List (Op K V)} (h : AtRest cfg m f)
    (hops : ∀ op ∈ ops, op.key ≠ cfg.noKey) (hh : History (Serves cfg) m ops as m') :
    m.next ≤ m'.next := by
  induction hh generalizing f with
  | nil => exact le_rfl
  | cons hs _ ih =>
      obtain ⟨hrest, hle, -⟩ := h.served (hops _ List.mem_cons_self) hs
      exact hle.trans (ih hrest fun op hop => hops op (List.mem_cons_of_mem _ hop))

omit [DecidableEq V] in
/-- After an insertion the key is stored. -/
theorem Op.next_of_inserts {op : Op K V} (h : op.inserts = true) : op.next f op.key ≠ none := by
  cases op <;> simp_all [Op.inserts, Op.next, Op.binding, Op.key]

omit [DecidableEq V] in
/-- The other calls store no key. -/
theorem Op.next_of_not_inserts {op : Op K V} (h : op.inserts = false)
    (hnone : ∀ q, q ≠ cfg.noKey → f q = none) : ∀ q, q ≠ cfg.noKey → op.next f q = none := by
  intro q hq
  by_cases hqk : q = op.key
  · subst hqk
    cases op <;> simp_all [Op.inserts, Op.next, Op.binding, Op.key]
  · rw [Op.next, Function.update_of_ne hqk]
    exact hnone q hq

/-- The tree stays as constructed exactly as long as there is no insertion. -/
theorem AtRest.fresh_iff (h : AtRest cfg m f) (hnone : ∀ q, q ≠ cfg.noKey → f q = none)
    (hm : m.next = 3) (hops : ∀ op ∈ ops, op.key ≠ cfg.noKey)
    (hh : History (Serves cfg) m ops as m') :
    m'.next = 3 ↔ ∀ op ∈ ops, op.inserts = false := by
  induction hh generalizing f with
  | nil => simp [hm]
  | @cons m m₁ m' op ops a as hs hrun ih =>
      have hk := hops _ List.mem_cons_self
      have hops' : ∀ op ∈ ops, op.key ≠ cfg.noKey :=
        fun op hop => hops op (List.mem_cons_of_mem _ hop)
      obtain ⟨hrest, -, hsame⟩ := h.served hk hs
      rw [List.forall_mem_cons]
      cases hi : op.inserts with
      | false =>
          have hnone' := Op.next_of_not_inserts hi hnone
          simpa using ih hrest hnone' ((hsame hi hnone).trans hm) hops'
      | true =>
          have hgt := hrest.next_gt ⟨_, hk, Op.next_of_inserts hi⟩
          have hle := hrest.next_le hops' hrun
          simp only [reduceCtorEq, false_and, iff_false]
          omega

/-- The map after a sequence of calls, from the empty one. -/
def mapAfter (cfg : Cfg K V) (ops : List (Op K V)) : K → Option V :=
  (mapObject cfg).after (fun _ => none) ops

/-- The state after a history. -/
theorem AtRest.after (hops : ∀ op ∈ ops, op.key ≠ cfg.noKey)
    (hh : History (Serves cfg) (.init cfg.noKey cfg.noValue) ops as m) :
    AtRest cfg m (mapAfter cfg ops) ∧ mapAfter cfg ops cfg.noKey = none :=
  ⟨(AtRest.of_history hops hh).2, after_noKey _ rfl ops hops⟩

/-- **Sizes.**  After every sequence of calls the size law holds exactly if a key is stored, or no
call was an insertion: it fails whenever the last key has been deleted. -/
theorem sizeLaw_of_history (hops : ∀ op ∈ ops, op.key ≠ cfg.noKey) :
    (∃ as m, History (Serves cfg) (.init cfg.noKey cfg.noValue) ops as m) ∧
      ∀ as m, History (Serves cfg) (.init cfg.noKey cfg.noValue) ops as m →
        (SizeLaw cfg m (mapAfter cfg ops) ↔
          (keysOf (mapAfter cfg ops)).Nonempty ∨ ∀ op ∈ ops, op.inserts = false) := by
  obtain ⟨m, hh, -⟩ := AtRest.history hops
  refine ⟨⟨_, m, hh⟩, fun as m h => ?_⟩
  obtain ⟨hrest, hf⟩ := AtRest.after hops h
  rw [hrest.sizeLaw_iff hf, (AtRest.init cfg).fresh_iff (fun _ _ => rfl) rfl hops h]

theorem sizeLaw_of_history_one :
    (∀ op ∈ [Op.insert 5 9], op.key ≠ 0) ∧
      ∃ as m, History (Serves (⟨0, 7, 6, .bat, 0⟩ : Cfg ℕ ℕ)) (.init 0 7) [.insert 5 9] as m ∧
        SizeLaw ⟨0, 7, 6, .bat, 0⟩ m (mapAfter ⟨0, 7, 6, .bat, 0⟩ [.insert 5 9]) := by
  have hops : ∀ op ∈ [Op.insert 5 9], op.key ≠ 0 := by
    simp [Op.key]
  obtain ⟨⟨as, m, hh⟩, hiff⟩ := @sizeLaw_of_history ℕ ℕ _ ⟨0, 7, 6, .bat, 0⟩ _ _ hops
  exact ⟨hops, as, m, hh, (hiff as m hh).mpr (.inl ⟨5, by intro h; cases h⟩)⟩

/-- When the only key is deleted again, the sum at the root is not zero. -/
theorem size_after_last_erase :
    ∃ as m, History (Serves (⟨0, 7, 6, .bat, 0⟩ : Cfg ℕ ℕ)) (.init 0 7)
        [.insert 5 9, .erase 5] as m ∧
      keysOf (mapAfter (⟨0, 7, 6, .bat, 0⟩ : Cfg ℕ ℕ) [.insert 5 9, .erase 5]) = ∅ ∧
      ¬ SizeLaw ⟨0, 7, 6, .bat, 0⟩ m
        (mapAfter ⟨0, 7, 6, .bat, 0⟩ [.insert 5 9, .erase 5]) := by
  have hops : ∀ op ∈ [Op.insert 5 9, .erase 5], op.key ≠ 0 := by
    simp [Op.key]
  obtain ⟨m, hh, -⟩ := @AtRest.history ℕ ℕ _ ⟨0, 7, 6, .bat, 0⟩ _ _ hops
  obtain ⟨hrest, hf⟩ := AtRest.after hops hh
  have hempty : keysOf (mapAfter (⟨0, 7, 6, .bat, 0⟩ : Cfg ℕ ℕ) [.insert 5 9, .erase 5]) = ∅ := by
    refine Set.eq_empty_iff_forall_notMem.mpr fun q hq => hq ?_
    by_cases h5 : q = 5 <;>
      simp [mapAfter, SeqObject.after, mapObject, Op.next, Op.key, Op.binding, h5]
  refine ⟨_, m, hh, hempty, fun hlaw => ?_⟩
  rcases (hrest.sizeLaw_iff hf).mp hlaw with hne | hfresh
  · exact hne.ne_empty hempty
  · have hnone := ((AtRest.init _).fresh_iff (fun _ _ => rfl) rfl hops hh).mp hfresh
    simpa [Op.inserts] using hnone (.insert 5 9) (by simp)

end Histories

end Cbat
