/-
**The second step of an SCX replaces a subtree of the live tree.**

The node tree after an SCX is again a search tree with the sentinel layout.  Compared with the tree
before, some nodes are gone and some are new; the path of a key keeps its nodes and their order,
with the new ones in the place of the removed ones — except that a path that ended in a deleted leaf
goes on into the subtree of its sibling.

Main definitions:

* `Cbat.Commit` — the facts about an SCX record under which its second step is taken;
* `Cbat.PathStep`, `Cbat.Swap` — **what the step does to paths and to the tree**.

Main results:

* `Cbat.Commit.swing` — the second step of an SCX keeps the invariant of the tree.
-/

import Cbat.Effects

set_option relaxedAutoImplicit false
set_option autoImplicit false

namespace Cbat

variable {K V : Type}

/-! ### The memory after the step -/

namespace Mem

variable {m : Mem K V} {rec : ScxRecord K V}

@[simp] theorem swing_next (m : Mem K V) (rec : ScxRecord K V) :
    (m.swing rec).next = m.next + rec.type.numInserted := rfl
@[simp] theorem swing_nextVer (m : Mem K V) (rec : ScxRecord K V) :
    (m.swing rec).nextVer = m.nextVer + rec.type.numInserted := rfl
@[simp] theorem swing_status (m : Mem K V) (rec : ScxRecord K V) :
    (m.swing rec).status = m.status := by simp [swing]
@[simp] theorem swing_nextStatus (m : Mem K V) (rec : ScxRecord K V) :
    (m.swing rec).nextStatus = m.nextStatus := by simp [swing]

theorem swing_node (m : Mem K V) (rec : ScxRecord K V) : (m.swing rec).node =
    ((m.publish rec.newNode).setNode (rec.nth 0)
      (if rec.fieldIsLeft then
        if (m.node (rec.nth 0)).left = rec.nth 1 then
          { m.node (rec.nth 0) with left := newPtr m.next rec.newNode, frozen := false }
        else { m.node (rec.nth 0) with frozen := false }
      else
        if (m.node (rec.nth 0)).right = rec.nth 1 then
          { m.node (rec.nth 0) with right := newPtr m.next rec.newNode, frozen := false }
        else { m.node (rec.nth 0) with frozen := false })).node := rfl

theorem swing_of_ne {x : ℕ} (hx : x < m.next) (hu : x ≠ rec.nth 0) :
    (m.swing rec).node x = m.node x := by
  rw [swing_node, setNode_of_ne _ _ hu, publish_of_lt _ _ hx]

/-- The node whose child changes. -/
theorem swing_self (hside : m.side (rec.nth 0) rec.fieldIsLeft = rec.nth 1) :
    (m.swing rec).node (rec.nth 0) =
      if rec.fieldIsLeft then
        { m.node (rec.nth 0) with left := newPtr m.next rec.newNode, frozen := false }
      else { m.node (rec.nth 0) with right := newPtr m.next rec.newNode, frozen := false } := by
  rw [swing_node, setNode_self]
  unfold side at hside
  split_ifs at hside ⊢
  · rfl
  · rfl

theorem swing_written (hnd : (slots rec.newNode).Nodup) (hu : rec.nth 0 < m.next) :
    (m.swing rec).Written m.next m.nextVer rec.newNode := by
  refine (written_publish m hnd).congr fun j _ => ?_
  rw [swing_node, setNode_of_ne _ _ (by omega)]

theorem swing_swungAt (hside : m.side (rec.nth 0) rec.fieldIsLeft = rec.nth 1) :
    m.SwungAt (m.swing rec) (rec.nth 0) rec.fieldIsLeft (newPtr m.next rec.newNode) := by
  have h := swing_self hside
  cases hf : rec.fieldIsLeft <;> rw [hf] at h <;> constructor <;> simp [side, h]

end Mem

/-! ### The tree after the step -/

section Commit

variable [LinearOrder K] {cfg : Cfg K V} {m : Mem K V} {rec : ScxRecord K V}
  {old : Patch (Cell K V) ℕ} {k : K} {e : Effect V} {t : LTree (Cell K V)}

/-- The replacement keeps the sentinel layout: it happens below the root, or in the real part. -/
inductive ShapeOk (cfg : Cfg K V) (m : Mem K V) (rec : ScxRecord K V)
    (old : Patch (Cell K V) ℕ) : Prop
  | top (hu : rec.nth 0 = root) (h : TopShape cfg rec.newNode) : ShapeOk cfg m rec old
  | real (hu : rec.nth 0 ≠ root) (hkey : (m.node (rec.nth 1)).key ≠ cfg.noKey)
      (h : RealShape cfg (m.node (rec.nth 0)).key old rec.newNode) : ShapeOk cfg m rec old

/-- **The facts about an SCX record under which its second step is taken.** -/
structure Commit (cfg : Cfg K V) (m : Mem K V) (rec : ScxRecord K V) (old : Patch (Cell K V) ℕ)
    (k : K) (e : Effect V) : Prop where
  removes : Removes m rec old
  plan : Plan cfg k e old rec.newNode
  live : Live m (rec.nth 0)
  side : m.side (rec.nth 0) rec.fieldIsLeft = rec.nth 1
  path : e ≠ .keep → OnPath cfg m k (rec.nth 0) ∧ KEdge cfg m k (rec.nth 0) (rec.nth 1)
  shape : ShapeOk cfg m rec old

/-- The path of `q` before and after: the nodes of `N` replace those of `R`; or the path ended in a
deleted leaf and goes on below its sibling, where the key is not stored. -/
def PathStep (cfg : Cfg K V) (t t' : LTree (Cell K V)) (R N : List ℕ) (q : K) : Prop :=
  ∃ A Rq Nq B B', TreeInv.path cfg q t = A ++ Rq ++ B ∧ TreeInv.path cfg q t' = A ++ Nq ++ B' ∧
    Rq ⊆ R ∧ Nq ⊆ N ∧ (B' = B ∨ B = [] ∧ (∀ y ∈ B', y ∈ ids t ∧ y ∉ TreeInv.path cfg q t) ∧
      (q ≠ cfg.noKey → stored cfg t' q = none))

/-- **The tree before and after a replacement**: the nodes of `R` are gone, those of `N` new. -/
structure Swap (cfg : Cfg K V) (t t' : LTree (Cell K V)) (R N : List ℕ) (k : K) (e : Effect V) :
    Prop where
  mem_iff : ∀ x, x ∈ ids t' ↔ (x ∈ ids t ∧ x ∉ R) ∨ x ∈ N
  removed : R ⊆ ids t
  fresh : ∀ x ∈ N, x ∉ ids t ∧ x ≠ root
  paths : ∀ q, PathStep cfg t t' R N q
  stored : ∀ q, q ≠ cfg.noKey → stored cfg t' q =
    if q = k then e.apply (stored cfg t q) else stored cfg t q

omit [LinearOrder K] in
theorem Mem.Holds.subs_ne_zero {p : Patch (Cell K V) ℕ} (h : m.Holds p) : ∀ i ∈ p.subs, i ≠ 0 := by
  induction p with
  | sub i =>
      intro j hj
      obtain rfl : j = i := by simpa [Patch.subs] using hj
      exact h
  | leaf c => simp [Patch.subs]
  | node c l r ihl ihr =>
      intro i hi
      rcases List.mem_append.mp hi with hi | hi
      · exact ihl h.2.2.1 i hi
      · exact ihr h.2.2.2 i hi

omit [LinearOrder K] in
theorem ids_plug_perm (F : ℕ → LTree (Cell K V)) (p : Patch (Cell K V) ℕ) :
    (ids (p.plug F)).Perm (pids p ++ p.subs.flatMap fun i => ids (F i)) := by
  have h := (Patch.labels_plug_perm F p).map Cell.id
  rwa [List.map_append, List.map_flatMap] at h

namespace Commit

/-- The new subtree over the subtrees that stay. -/
theorem rep_new (h : Commit cfg m rec old k e) {F : ℕ → LTree (Cell K V)} (hF : m.Fills F old)
    (hlt : ∀ i ∈ old.subs, ∀ x ∈ ids (F i), x < m.next ∧ x ≠ rec.nth 0)
    (hu : rec.nth 0 < m.next) :
    (m.swing rec).Rep ((inst m.next rec.newNode).plug F) ∧
      ((inst m.next rec.newNode).plug F).label.id = newPtr m.next rec.newNode := by
  have hfill : (m.swing rec).Fills F (inst m.next rec.newNode) := by
    intro i hi
    rw [subs_inst, h.plan.subs] at hi
    exact ⟨(hF i hi).1.of_same fun x hx =>
      .rfl' (Mem.swing_of_ne (hlt i hi x hx).1 (hlt i hi x hx).2), (hF i hi).2⟩
  have hw := Mem.swing_written h.removes.slots_nodup hu
  have hh := hw.holds (fun i hi => h.removes.holds.subs_ne_zero i (h.plan.subs ▸ hi)) (by omega)
  exact ⟨hh.rep_plug hfill, (Mem.top_plug hfill).trans (top_inst ..)⟩

/-- **The replacement in the tree.** -/
theorem repl (h : Commit cfg m rec old k e) (hT : TreeInv cfg m t) :
    ∃ F t', (m.swing rec).Rep t' ∧ ((m.swing rec).node root).left = t'.label.id ∧
      LTree.Repl (old.plug F) ((inst m.next rec.newNode).plug F) t t' ∧
      rec.nth 0 ∉ ids (old.plug F) ∧ m.Rep (old.plug F) ∧ (old.plug F).label.id = rec.nth 1 := by
  have hu : rec.nth 0 < m.next := hT.live_lt h.live
  have hsw := Mem.swing_swungAt h.side
  have htop : rec.nth 1 ≠ 0 := h.removes.top_eq ▸ h.removes.holds.top_ne_zero
  by_cases hr : rec.nth 0 = root
  · -- the whole tree below the root is replaced
    have hf : rec.fieldIsLeft = true := by
      by_contra hf
      refine htop (h.side.symm.trans ?_)
      rw [hr, Mem.side, if_neg hf, hT.root_right]
    have hl : t.label.id = top old := by
      rw [h.removes.top_eq, ← h.side, hf, hr, ← hT.root_left]
      rfl
    obtain ⟨F, rfl, hF, hsub⟩ := hT.rep.plug hT.zero_notMem h.removes.holds hl
    obtain ⟨hrep, hlab⟩ := h.rep_new hF (fun i hi x hx => ⟨hT.lt_next x (hsub i hi hx), fun he =>
      hT.root_notMem (hr ▸ he ▸ hsub i hi hx)⟩) hu
    refine ⟨F, _, hrep, ?_, .here, hr ▸ hT.root_notMem, hT.rep, hl.trans h.removes.top_eq⟩
    have := hsw.side
    rw [hf, hr] at this
    exact this.trans hlab.symm
  · have hmem : rec.nth 0 ∈ ids t := (hT.live_iff.mp h.live).resolve_left hr
    obtain ⟨t₀, h₀, he, hss, hu₀, hrep⟩ := hT.rep.repl hT.zero_notMem hT.nodup hmem
      (by rw [h.side]; exact htop)
      (fun x hx hxu => .rfl' (Mem.swing_of_ne (hT.lt_next x hx) hxu)) hsw
    obtain ⟨F, rfl, hF, hsub⟩ := h₀.plug (fun hz => hT.zero_notMem (hss hz)) h.removes.holds
      (by rw [he, h.side, h.removes.top_eq])
    obtain ⟨hrep₁, hlab⟩ := h.rep_new hF (fun i hi x hx => ⟨hT.lt_next x (hss (hsub i hi hx)),
      fun he => hu₀ (he ▸ hsub i hi hx)⟩) hu
    obtain ⟨t', hR, hrep', hlab'⟩ := hrep _ hrep₁ hlab
    refine ⟨F, t', hrep', ?_, hR, hu₀, h₀, he.trans h.side⟩
    rw [Mem.swing_of_ne hT.root_lt (Ne.symm hr), hlab', hT.root_left]

section Facts

variable {F : ℕ → LTree (Cell K V)} {t' : LTree (Cell K V)}

/-- **The nodes outside of the replaced patch stay.** -/
theorem ids_perm (h : Commit cfg m rec old k e)
    (hR : LTree.Repl (old.plug F) ((inst m.next rec.newNode).plug F) t t') :
    ∃ O, (ids t).Perm (pids old ++ O) ∧
      (ids t').Perm (pids (inst m.next rec.newNode) ++ O) := by
  obtain ⟨xs, ys, hx, hx'⟩ := hR.labels
  have swap : ∀ a b c d : List ℕ, (a ++ (b ++ c) ++ d).Perm (b ++ (a ++ c ++ d)) :=
    fun a b c d => by
      simp only [← List.append_assoc]
      have hab : (a ++ b).Perm (b ++ a) := List.perm_append_comm
      exact (hab.append_right c).append_right d
  refine ⟨xs.map Cell.id ++ old.subs.flatMap (fun i => ids (F i)) ++ ys.map Cell.id, ?_, ?_⟩
  · rw [ids, hx, List.map_append, List.map_append]
    exact (((ids_plug_perm F old).append_left _).append_right _).trans (swap ..)
  · rw [ids, hx', List.map_append, List.map_append]
    have hp := ids_plug_perm F (inst m.next rec.newNode)
    rw [subs_inst, h.plan.subs] at hp
    exact ((hp.append_left _).append_right _).trans (swap ..)

omit [LinearOrder K] in
/-- The new nodes are at unused addresses. -/
theorem new_ge {x : ℕ} (hx : x ∈ pids (inst m.next rec.newNode)) : m.next ≤ x := by
  obtain ⟨j, -, rfl⟩ := mem_pids_inst.mp hx
  omega

theorem new_lt (h : Commit cfg m rec old k e) {x : ℕ} (hx : x ∈ pids (inst m.next rec.newNode)) :
    x < (m.swing rec).next := by
  obtain ⟨j, hj, rfl⟩ := mem_pids_inst.mp hx
  have := h.removes.mem_slots.mp hj
  simp only [Mem.swing_next]
  omega

theorem mem_ids_iff (h : Commit cfg m rec old k e) (hT : TreeInv cfg m t)
    (hR : LTree.Repl (old.plug F) ((inst m.next rec.newNode).plug F) t t') (x : ℕ) :
    x ∈ ids t' ↔ (x ∈ ids t ∧ x ∉ pids old) ∨ x ∈ pids (inst m.next rec.newNode) := by
  obtain ⟨O, hO, hO'⟩ := h.ids_perm hR
  have hnd := hO.nodup_iff.mp hT.nodup
  rw [hO'.mem_iff, hO.mem_iff, List.mem_append, List.mem_append, or_comm]
  refine or_congr_left ⟨fun hx => ⟨.inr hx, fun hx' => ?_⟩, fun hx => hx.1.resolve_left hx.2⟩
  exact (List.nodup_append.mp hnd).2.2 x hx' x hx rfl

theorem nodup_ids (h : Commit cfg m rec old k e) (hT : TreeInv cfg m t)
    (hR : LTree.Repl (old.plug F) ((inst m.next rec.newNode).plug F) t t') : (ids t').Nodup := by
  obtain ⟨O, hO, hO'⟩ := h.ids_perm hR
  have hnd := hO.nodup_iff.mp hT.nodup
  refine hO'.nodup_iff.mpr (List.nodup_append.mpr ⟨?_, (List.nodup_append.mp hnd).2.1, ?_⟩)
  · rw [pids_inst]
    exact h.removes.slots_nodup.map fun a b hab => by simpa using hab
  · rintro x hx y hy rfl
    have := hT.lt_next x (hO.mem_iff.mpr (List.mem_append_right _ hy))
    have := new_ge hx
    omega

theorem top_notMem (h : Commit cfg m rec old k e) (hT : TreeInv cfg m t)
    (hR : LTree.Repl (old.plug F) ((inst m.next rec.newNode).plug F) t t') :
    rec.nth 1 ∈ ids t ∧ rec.nth 1 ∉ ids t' := by
  have hmem : rec.nth 1 ∈ pids old := h.removes.top_eq ▸ h.removes.top_mem
  obtain ⟨O, hO, -⟩ := h.ids_perm hR
  have ht : rec.nth 1 ∈ ids t := hO.mem_iff.mpr (List.mem_append_left _ hmem)
  refine ⟨ht, fun hx => ?_⟩
  rcases (h.mem_ids_iff hT hR _).mp hx with hx | hx
  · exact hx.2 hmem
  · have := new_ge hx
    have := hT.lt_next _ ht
    omega

/-- An update that changes the binding of its key replaces a subtree on the path of the key. -/
theorem between (h : Commit cfg m rec old k e) (hT : TreeInv cfg m t)
    (hR : LTree.Repl (old.plug F) ((inst m.next rec.newNode).plug F) t t')
    {lo : WithBot (WithTop K)} {hi : WithTop (WithTop K)} (he : e ≠ .keep)
    (hs : LTree.Repl.Search (ckey cfg) (old.plug F) ((inst m.next rec.newNode).plug F) t t' lo hi
      (k : WithTop K)) : Between lo hi k := by
  rcases hs with ⟨hb, -⟩ | ⟨-, -, hp⟩
  · exact hb
  · obtain ⟨hmem, hmem'⟩ := h.top_notMem hT hR
    have hon := hT.onPath_iff.mp ((h.path he).1.step (h.path he).2)
    rcases List.mem_cons.mp hon with hr | hon
    · exact absurd (hr ▸ hmem) hT.root_notMem
    · refine absurd (pathIds_subset cfg k t' ?_) hmem'
      rwa [pathIds, hp]

omit [LinearOrder K] in
/-- The nodes of a subtree below the patch are not nodes of the patch. -/
theorem sub_disjoint {i x : ℕ} (hnd : (ids (old.plug F)).Nodup) (hi : i ∈ old.subs)
    (hx : x ∈ ids (F i)) : x ∈ ids (old.plug F) ∧ x ∉ pids old := by
  have hp := ids_plug_perm F old
  have hmem : x ∈ old.subs.flatMap fun i => ids (F i) := List.mem_flatMap.mpr ⟨i, hi, hx⟩
  exact ⟨hp.mem_iff.mpr (List.mem_append_right _ hmem), fun hx' =>
    (List.nodup_append.mp (hp.nodup_iff.mp hnd)).2.2 x hx' x hmem rfl⟩

theorem stored_eq (h : Commit cfg m rec old k e) (hT : TreeInv cfg m t)
    (hR : LTree.Repl (old.plug F) ((inst m.next rec.newNode).plug F) t t')
    {q : K} (hq : q ≠ cfg.noKey) : stored cfg t' q =
      if q = k then e.apply (stored cfg t q) else stored cfg t q := by
  obtain ⟨lo, hi, -, -, h₀, -, hs⟩ := hR.within hT.ordered
  rcases hs (q : WithTop K) bot_le (WithTop.coe_lt_top _) with ⟨hb, e₀, e₁, -⟩ | ⟨hb, e₀, -⟩
  · have := h.plan.stored m.next F lo hi h₀ q hq hb
    unfold stored at this ⊢
    rwa [e₀, e₁]
  · have he₀ : stored cfg t' q = stored cfg t q := by unfold stored; rw [e₀]
    rw [he₀]
    split_ifs with hqk
    · subst hqk
      cases hk : e with
      | keep => rfl
      | _ => exact absurd (h.between hT hR (by simp [hk])
          (hs _ bot_le (WithTop.coe_lt_top _))) hb
    · rfl

theorem pathStep (h : Commit cfg m rec old k e) (hT : TreeInv cfg m t)
    (hR : LTree.Repl (old.plug F) ((inst m.next rec.newNode).plug F) t t') (q : K) :
    PathStep cfg t t' (pids old) (pids (inst m.next rec.newNode)) q := by
  obtain ⟨lo, hi, -, -, h₀, -, hs⟩ := hR.within hT.ordered
  rcases hs (q : WithTop K) bot_le (WithTop.coe_lt_top _) with
    ⟨hb, e₀, e₁, xs, hx, hx', hsub⟩ | ⟨hb, e₀, hp⟩
  · have hex := h.plan.exits m.next F lo hi h₀ q hb
    have hsubs : ∀ {i}, (inst m.next rec.newNode).route (ckey cfg) (q : WithTop K) = .inl i →
        i ∈ old.subs := fun hr => by
      have := Patch.route_mem_subs (ckey cfg) hr
      rwa [subs_inst, h.plan.subs] at this
    have hst := h.stored_eq hT hR (q := q)
    have hpl : stored cfg t q = stored cfg (old.plug F) q := by unfold stored; rw [e₀]
    rw [Patch.path_plug] at hx hx'
    rw [hpl, stored_plug] at hst
    refine ⟨root :: xs.map Cell.id, (old.spine (ckey cfg) q).map Cell.id,
      ((inst m.next rec.newNode).spine (ckey cfg) q).map Cell.id,
      (Sum.elim (fun i => (F i).path (ckey cfg) (q : WithTop K)) (fun _ => [])
        (old.route (ckey cfg) (q : WithTop K))).map Cell.id,
      (Sum.elim (fun i => (F i).path (ckey cfg) (q : WithTop K)) (fun _ => [])
        ((inst m.next rec.newNode).route (ckey cfg) (q : WithTop K))).map Cell.id, ?_, ?_,
      List.map_subset _ (Patch.spine_subset_labels ..),
      List.map_subset _ (Patch.spine_subset_labels ..), ?_⟩
    · rw [TreeInv.path, pathIds, hx, List.map_append, List.map_append, List.append_assoc]; rfl
    · rw [TreeInv.path, pathIds, hx', List.map_append, List.map_append, List.append_assoc]; rfl
    generalize old.route (ckey cfg) (q : WithTop K) = r at hex hst hx ⊢
    generalize (inst m.next rec.newNode).route (ckey cfg) (q : WithTop K) = r' at hex hsubs ⊢
    cases hex with
    | sub i => exact .inl rfl
    | leaf c a => exact .inl rfl
    | graft c i hc he =>
        -- the search ended in the deleted leaf: the subtree `F i` is new on the path
        have hi : i ∈ old.subs := hsubs rfl
        have hnd : ((xs.map Cell.id) ++ ids (old.plug F)).Nodup := by
          have := hT.nodup.sublist (hsub.map Cell.id)
          rwa [List.map_append] at this
        refine .inr ⟨rfl, fun y hy => ?_, fun hq => ?_⟩
        · have hyF : y ∈ ids (F i) := pathIds_subset cfg q (F i) hy
          obtain ⟨hy₀, hyo⟩ := sub_disjoint (List.nodup_append.mp hnd).2.1 hi hyF
          have hyt : y ∈ ids t := (hsub.map Cell.id).subset (by
            rw [List.map_append]; exact List.mem_append_right _ hy₀)
          refine ⟨hyt, fun hyp => ?_⟩
          rw [TreeInv.path, pathIds, hx, List.map_append, List.map_append] at hyp
          simp only [Sum.elim_inr, List.map_nil, List.append_nil, List.mem_cons,
            List.mem_append] at hyp
          rcases hyp with rfl | hyp | hyp
          · exact hT.root_notMem hyt
          · exact (List.nodup_append.mp hnd).2.2 y hyp y hy₀ rfl
          · exact hyo (List.map_subset _ (Patch.spine_subset_labels ..) hyp)
        · rw [hst hq, he]
          split_ifs with hqk
          · rfl
          · exact if_neg fun h => hqk (h.symm.trans hc)
  · refine ⟨TreeInv.path cfg q t, [], [], [], [], by simp, ?_, by simp, by simp, .inl rfl⟩
    simp [TreeInv.path, pathIds, hp]

end Facts

end Commit

/-! ### The sentinel layout -/

section Layout

variable {F : ℕ → LTree (Cell K V)} {T T' : LTree (Cell K V)} {uKey : K} {new : NewTree K V}
  {b : ℕ}

omit [LinearOrder K] in
theorem mem_leaves_inst {c : Cell K V} (h : c ∈ ((inst b new).plug F).leaves) :
    (∃ a ∈ newLeaves new, a.weight = c.weight) ∨ ∃ i ∈ new.subs, c ∈ (F i).leaves := by
  induction new with
  | sub i => exact .inr ⟨i, by simp [Patch.subs], h⟩
  | leaf a =>
      refine .inl ⟨a, by simp, ?_⟩
      rw [List.mem_singleton.mp h]
  | node a l r ihl ihr =>
      rcases List.mem_append.mp h with h | h
      · rcases ihl h with ⟨a, ha, hw⟩ | ⟨i, hi, hc⟩
        · exact .inl ⟨a, List.mem_append_left _ ha, hw⟩
        · exact .inr ⟨i, List.mem_append_left _ hi, hc⟩
      · rcases ihr h with ⟨a, ha, hw⟩ | ⟨i, hi, hc⟩
        · exact .inl ⟨a, List.mem_append_right _ ha, hw⟩
        · exact .inr ⟨i, List.mem_append_right _ hi, hc⟩

omit [LinearOrder K] in
theorem leaves_sub_plug {p : Patch (Cell K V) ℕ} {i : ℕ} (hi : i ∈ p.subs) :
    (F i).leaves ⊆ (p.plug F).leaves := by
  induction p with
  | sub j =>
      obtain rfl : i = j := by simpa [Patch.subs] using hi
      exact List.Subset.refl _
  | leaf c => simp [Patch.subs] at hi
  | node c l r ihl ihr =>
      rcases List.mem_append.mp hi with hi | hi
      · exact List.Subset.trans (ihl hi) (List.subset_append_left ..)
      · exact List.Subset.trans (ihr hi) (List.subset_append_right ..)

omit [LinearOrder K] in
theorem mem_labels_inst {c : Cell K V} (h : c ∈ ((inst b new).plug F).labels) :
    (∃ a ∈ new.labels, a.key = c.key ∧ a.weight = c.weight) ∨
      ∃ i ∈ new.subs, c ∈ (F i).labels := by
  rcases (Patch.mem_labels_plug F _ c).mp h with h | h
  · rw [inst, Patch.labels_map, List.mem_map] at h
    obtain ⟨a, ha, rfl⟩ := h
    exact .inl ⟨a, ha, rfl, rfl⟩
  · rw [subs_inst] at h
    exact .inr h

omit [LinearOrder K] in
/-- **The real part stays one**, whether a part of it is replaced or all of it. -/
theorem RealPart.repl (h : RealPart cfg T) (hs : RealShape cfg uKey old new)
    (hsubs : new.subs = old.subs)
    (hR : LTree.Repl (old.plug F) ((inst b new).plug F) T T')
    (htop : T = old.plug F ↔ uKey = cfg.noKey) : RealPart cfg T' := by
  obtain ⟨xs, ys, hx, hx'⟩ := hR.labels
  have hlab : ∀ c ∈ T'.labels,
      c ∈ T.labels ∨ ∃ a ∈ new.labels, a.key = c.key ∧ a.weight = c.weight := by
    intro c hc
    rw [hx, List.mem_append, List.mem_append]
    rw [hx', List.mem_append, List.mem_append] at hc
    rcases hc with (hc | hc) | hc
    · exact .inl (.inl (.inl hc))
    · rcases mem_labels_inst hc with hc | ⟨i, hi, hc⟩
      · exact .inr hc
      · exact .inl (.inl (.inr ((Patch.mem_labels_plug F old c).mpr
          (.inr ⟨i, hsubs ▸ hi, hc⟩))))
    · exact .inl (.inr hc)
  obtain ⟨n, hn⟩ := h.balanced
  obtain ⟨n₀, hn₀, hn'⟩ := hR.bal hn
  obtain ⟨d, hd, hbal⟩ := hs.bal
  refine ⟨fun c hc => ?_, fun c hc => ?_, fun c hc => ?_, ?_, ?_⟩
  · rcases hlab c hc with hc | ⟨a, ha, hk, -⟩
    · exact h.real c hc
    · exact hk ▸ hs.real a ha
  · rcases hlab c hc with hc | ⟨a, ha, -, hw⟩
    · exact h.nonneg c hc
    · exact hw ▸ hs.nonneg a ha
  · obtain ⟨us, vs, hu, hu'⟩ := hR.leaves
    rw [hu', List.mem_append, List.mem_append] at hc
    have hin : ∀ c, c ∈ us ∨ c ∈ (old.plug F).leaves ∨ c ∈ vs → c ∈ T.leaves := by
      intro c hc
      rw [hu, List.mem_append, List.mem_append]
      rwa [or_assoc]
    rcases hc with (hc | hc) | hc
    · exact h.leaf_pos c (hin c (.inl hc))
    · rcases mem_leaves_inst hc with ⟨a, ha, hw⟩ | ⟨i, hi, hc⟩
      · exact hw ▸ hs.leaf_pos a ha
      · exact h.leaf_pos c (hin c (.inr (.inl (leaves_sub_plug (hsubs ▸ hi) hc))))
    · exact h.leaf_pos c (hin c (.inr (.inr hc)))
  · rcases hR.label_eq with ⟨hT, rfl⟩ | hT
    · have := hs.top_weight (htop.mp hT)
      cases new with
      | sub i =>
          rw [topWeight] at this
          omega
      | leaf a => exact this
      | node a l r => exact this
    · rw [hT]; exact h.top_weight
  · by_cases hu : uKey = cfg.noKey
    · obtain rfl := htop.mpr hu
      rw [hR.eq_of_top]
      exact ⟨_, hbal b F n₀ hn₀⟩
    · refine ⟨n, hn' ?_⟩
      have := hbal b F n₀ hn₀
      rwa [hd hu, add_zero] at this

omit [LinearOrder K] in
theorem Mem.Rep.key_of_mem {t : LTree (Cell K V)} (h : m.Rep t) {x : ℕ} (hx : x ∈ ids t) :
    ∃ c ∈ t.labels, c.id = x ∧ (m.node x).key = c.key ∧ (m.node x).weight = c.weight := by
  induction t with
  | leaf c =>
      obtain rfl : x = c.id := by simpa using hx
      exact ⟨c, by simp, rfl, h.key, h.weight⟩
  | node c l r ihl ihr =>
      simp only [ids_node, List.mem_cons, List.mem_append] at hx
      rcases hx with rfl | hx | hx
      · exact ⟨c, by simp, rfl, h.1.key, h.1.weight⟩
      · obtain ⟨d, hd, he⟩ := ihl h.2.1 hx
        exact ⟨d, by simp [hd], he⟩
      · obtain ⟨d, hd, he⟩ := ihr h.2.2 hx
        exact ⟨d, by simp [hd], he⟩

/-- The tree below the root keeps the sentinel layout. -/
theorem Commit.shape_of_repl {t' : LTree (Cell K V)} (h : Commit cfg m rec old k e)
    (hT : TreeInv cfg m t)
    (hR : LTree.Repl (old.plug F) ((inst m.next rec.newNode).plug F) t t')
    (hu : rec.nth 0 ∉ ids (old.plug F)) (hrep : m.Rep (old.plug F))
    (hlab : (old.plug F).label.id = rec.nth 1) : Shape cfg t' := by
  have htop : rec.nth 1 ≠ 0 := h.removes.top_eq ▸ h.removes.holds.top_ne_zero
  have h0 : 0 ∉ ids (old.plug F) := by
    obtain ⟨xs, ys, hx, -⟩ := hR.labels
    refine fun hz => hT.zero_notMem ?_
    rw [ids, hx, List.map_append, List.map_append]
    exact List.mem_append_left _ (List.mem_append_right _ hz)
  cases h.shape with
  | top hroot hsh =>
      have hside := h.side
      rw [hroot] at hside
      have hleft : t.label.id = rec.nth 1 := by
        cases hf : rec.fieldIsLeft <;> rw [hf] at hside
        · exact absurd (hside.symm.trans hT.root_right) htop
        · exact hT.root_left.symm.trans hside
      obtain rfl : t = old.plug F :=
        hT.rep.unique hrep hT.zero_notMem h0 (hleft.trans hlab.symm)
      rw [hR.eq_of_top]
      generalize rec.newNode = new at hsh
      cases hsh with
      | fill a b s ha hw hb hbw hs _ =>
          refine .inr ⟨_, _, .leaf _, rfl, ha, hw, hs, ?_⟩
          exact ⟨by simpa using hb, by simp [hbw], by simp [hbw], hbw, _, rfl⟩
      | clear s hs _ => exact .inl ⟨_, rfl, hs⟩
  | real hroot hkey hsh =>
      have hmem : rec.nth 0 ∈ ids t := (hT.live_iff.mp h.live).resolve_left hroot
      -- a leaf has no child to replace
      have hleaf : ∀ {s : Cell K V}, m.Is s 0 0 → rec.nth 0 ≠ s.id := fun hs he => by
        refine htop (h.side.symm.trans ?_)
        cases hf : rec.fieldIsLeft
        · exact he ▸ hs.right
        · exact he ▸ hs.left
      have htr := hT.rep
      rcases hT.shape with ⟨s, rfl, hs⟩ | ⟨rl, s, T, rfl, hrl, hrlw, hs, hreal⟩
      · exact absurd (by simpa using hmem) (hleaf htr)
      · have hnu : rec.nth 0 = rl.id ∨ rec.nth 0 ∈ ids T := by
          simp only [ids_node, ids_leaf, List.mem_cons, List.mem_append, List.not_mem_nil,
            or_false] at hmem
          rcases hmem with hm | hm | hm
          · exact .inl hm
          · exact .inr hm
          · exact absurd hm (hleaf htr.2.2)
        generalize hp : old.plug F = t₀ at *
        cases hR with
        | here =>
            refine absurd ?_ hkey
            rw [← hlab]
            exact htr.1.key.trans hrl
        | @left _ T' _ _ hR =>
            refine .inr ⟨rl, s, T', rfl, hrl, hrlw, hs, ?_⟩
            subst hp
            refine hreal.repl hsh h.plan.subs hR ⟨fun hTe => ?_, fun hk => ?_⟩
            · rcases hnu with hm | hm
              · rw [hm]; exact htr.1.key.trans hrl
              · exact absurd (hTe ▸ hm) hu
            · rcases hnu with hm | hm
              · have hside := h.side
                rw [hm] at hside
                cases hf : rec.fieldIsLeft <;> rw [hf] at hside
                · refine absurd ?_ hkey
                  rw [← hside, Mem.side, if_neg (by simp), htr.1.right]
                  exact htr.2.2.key.trans hs
                · refine htr.2.1.unique hrep (fun hz => hT.zero_notMem (by simp [hz])) h0 ?_
                  rw [hlab, ← hside]
                  exact htr.1.left.symm
              · obtain ⟨c, hc, -, hck, -⟩ := htr.2.1.key_of_mem hm
                exact absurd (hck.symm.trans hk) (hreal.real c hc)
        | right _ _ hR =>
            cases hR with
            | here =>
                refine absurd ?_ hkey
                rw [← hlab]
                exact htr.2.2.key.trans hs

end Layout

/-- **The second step of an SCX keeps the invariant of the tree**, with the nodes of the removed
patch replaced by the new ones. -/
theorem Commit.swing (h : Commit cfg m rec old k e) (hT : TreeInv cfg m t) :
    rec.nth 0 ∉ pids old ∧ ∃ t', TreeInv cfg (m.swing rec) t' ∧
      Swap cfg t t' (pids old) (pids (inst m.next rec.newNode)) k e := by
  obtain ⟨F, t', hrep', hleft, hR, hu, hrep, hlab⟩ := h.repl hT
  refine ⟨fun hx => hu ((ids_plug_perm F old).mem_iff.mpr (List.mem_append_left _ hx)), ?_⟩
  have hmem := h.mem_ids_iff hT hR
  have hlt : ∀ x ∈ ids t', x < (m.swing rec).next := fun x hx => by
    rcases (hmem x).mp hx with hx | hx
    · have := hT.lt_next x hx.1
      simp only [Mem.swing_next]
      omega
    · exact h.new_lt hx
  have hroot : root ∉ ids t' := fun hx => by
    rcases (hmem root).mp hx with hx | hx
    · exact hT.root_notMem hx.1
    · have := Commit.new_ge hx
      have := hT.root_lt
      omega
  have hsw : ((m.swing rec).node root).right = 0 ∧ ((m.swing rec).node root).key = cfg.noKey := by
    by_cases hr : rec.nth 0 = root
    · have hs := Mem.swing_swungAt h.side
      have hside := h.side
      rw [hr] at hs hside
      cases hf : rec.fieldIsLeft <;> rw [hf] at hs hside
      · exact absurd (hside.symm.trans hT.root_right)
          (h.removes.top_eq ▸ h.removes.holds.top_ne_zero)
      · exact ⟨hs.other.trans hT.root_right, hs.key.trans hT.root_key⟩
    · rw [Mem.swing_of_ne hT.root_lt (Ne.symm hr)]
      exact ⟨hT.root_right, hT.root_key⟩
  refine ⟨t', ⟨hrep', hleft, hsw.1, hsw.2, h.nodup_ids hT hR, hroot, fun hz => ?_, hlt, ?_,
    h.shape_of_repl hT hR hu hrep hlab, ?_⟩, hmem, ?_, fun x hx => ?_, h.pathStep hT hR,
    fun q hq => h.stored_eq hT hR hq⟩
  · rcases (hmem 0).mp hz with hx | hx
    · exact hT.zero_notMem hx.1
    · have := Commit.new_ge hx
      have := hT.root_lt
      omega
  · have := hT.root_lt
    simp only [Mem.swing_next]
    omega
  · obtain ⟨lo, hi, -, -, h₀, h₁, hs⟩ := hR.within hT.ordered
    exact h₁ (h.plan.within m.next F lo hi h₀ fun he =>
      h.between hT hR he (hs _ bot_le (WithTop.coe_lt_top _)))
  · obtain ⟨O, hO, -⟩ := h.ids_perm hR
    exact fun x hx => hO.mem_iff.mpr (List.mem_append_left _ hx)
  · have := Commit.new_ge hx
    exact ⟨fun hxt => absurd (hT.lt_next x hxt) (by omega), fun he =>
      absurd hT.root_lt (by omega)⟩

end Commit

end Cbat
