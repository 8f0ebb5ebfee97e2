/-
**What a node keeps while other threads run.**

A thread holds addresses of nodes that it read some time ago.  Meanwhile other threads remove nodes
and put new ones in their place.  This module collects what is certain all the same: a node keeps
its key, its weight and whether it is a leaf; it never comes back once it is removed; and as long as
it is in the tree, it stays on the path of every key that it was on the path of.

Main definitions:

* `Cbat.Good` — **the search for `k` may go on from the node**: every live node that it leads to,
  maybe through removed nodes, is on the path of `k`;
* `Cbat.Closed` — the child pointers of allocated nodes are to allocated nodes;
* `Cbat.Later` — **what holds between a memory and a later one**.

Main results:

* `Cbat.Swap.route_back`, `Cbat.Swap.newly_route` — the paths after the second step of an SCX;
* `Cbat.Good.swing` — a search may go on after it;
* `Cbat.Later.of_same`, `Cbat.Later.swing` — the steps of the machine lead to later memories.
-/

import Cbat.Swing

set_option relaxedAutoImplicit false
set_option autoImplicit false

namespace Cbat

variable {K V : Type} [LinearOrder K] {cfg : Cfg K V} {m m' : Mem K V}

/-! ### Paths across a replacement -/

namespace Swap

variable {t t' : LTree (Cell K V)} {R N : List ℕ} {k q : K} {e : Effect V} {x y : ℕ}

theorem live_iff (hs : Swap cfg t t' R N k e) (hT : TreeInv cfg m t) (hT' : TreeInv cfg m' t') :
    Live m' x ↔ (Live m x ∧ x ∉ R) ∨ x ∈ N := by
  rw [hT'.live_iff, hT.live_iff, hs.mem_iff]
  constructor
  · rintro (rfl | ⟨hx, hR⟩ | hx)
    · exact .inl ⟨.inl rfl, fun hR => hT.root_notMem (hs.removed hR)⟩
    · exact .inl ⟨.inr hx, hR⟩
    · exact .inr hx
  · rintro (⟨rfl | hx, hR⟩ | hx)
    · exact .inl rfl
    · exact .inr (.inl ⟨hx, hR⟩)
    · exact .inr (.inr hx)

theorem not_live_of_fresh (hs : Swap cfg t t' R N k e) (hT : TreeInv cfg m t) (hx : x ∈ N) :
    ¬ Live m x := fun h => by
  rcases hT.live_iff.mp h with h | h
  · exact (hs.fresh x hx).2 h
  · exact (hs.fresh x hx).1 h

/-- A node that stays in the tree stays on the paths that it is on. -/
theorem onPath (hs : Swap cfg t t' R N k e) (hT : TreeInv cfg m t) (hT' : TreeInv cfg m' t')
    (h : OnPath cfg m q x) (hx : x ∉ R) : OnPath cfg m' q x := by
  obtain ⟨A, Rq, Nq, B, B', hp, hp', hRq, -, hB⟩ := hs.paths q
  rw [hT.onPath_iff, hp] at h
  rw [hT'.onPath_iff, hp']
  simp only [List.mem_append] at h ⊢
  rcases h with (h | h) | h
  · exact .inl (.inl h)
  · exact absurd (hRq h) hx
  · rcases hB with rfl | ⟨rfl, -⟩
    · exact .inr h
    · simp at h

/-- The nodes that stay keep their order on a path. -/
theorem route (hs : Swap cfg t t' R N k e) (hT : TreeInv cfg m t) (hT' : TreeInv cfg m' t')
    (h : OnPath cfg m q x) (hxy : Route cfg m q x y) (hx : x ∉ R) (hy : y ∉ R) :
    Route cfg m' q x y := by
  obtain ⟨A, Rq, Nq, B, B', hp, hp', hRq, -, hB⟩ := hs.paths q
  rw [hT.onPath_iff, hp] at h
  simp only [List.mem_append] at h
  rcases h with (h | h) | h
  · obtain ⟨a, a', rfl⟩ := List.append_of_mem h
    have hpx : TreeInv.path cfg q t = a ++ x :: (a' ++ Rq ++ B) := by rw [hp]; simp
    have hpx' : TreeInv.path cfg q t' = a ++ x :: (a' ++ Nq ++ B') := by rw [hp']; simp
    rw [hT.route_iff hpx] at hxy
    rw [hT'.route_iff hpx']
    simp only [List.mem_cons, List.mem_append] at hxy ⊢
    rcases hxy with hxy | (hxy | hxy) | hxy
    · exact .inl hxy
    · exact .inr (.inl (.inl hxy))
    · exact absurd (hRq hxy) hy
    · rcases hB with rfl | ⟨rfl, -⟩
      · exact .inr (.inr hxy)
      · simp at hxy
  · exact absurd (hRq h) hx
  · rcases hB with rfl | ⟨rfl, -⟩
    · obtain ⟨b, b', rfl⟩ := List.append_of_mem h
      have hpx : TreeInv.path cfg q t = (A ++ Rq ++ b) ++ x :: b' := by rw [hp]; simp
      have hpx' : TreeInv.path cfg q t' = (A ++ Nq ++ b) ++ x :: b' := by rw [hp']; simp
      rw [hT.route_iff hpx] at hxy
      rwa [hT'.route_iff hpx']
    · simp at h

/-- **Below a node that stays** there are, afterwards, nodes that were below it, new nodes, and
nodes that are new on the path. -/
theorem route_back (hs : Swap cfg t t' R N k e) (hT : TreeInv cfg m t) (hT' : TreeInv cfg m' t')
    (h : OnPath cfg m q x) (hx : x ∉ R) (hxy : Route cfg m' q x y) :
    y ∈ N ∨ Route cfg m q x y ∨ (Live m y ∧ ¬ OnPath cfg m q y) := by
  obtain ⟨A, Rq, Nq, B, B', hp, hp', hRq, hNq, hB⟩ := hs.paths q
  have hnew : y ∈ B' → B' = B ∨ (Live m y ∧ ¬ OnPath cfg m q y) := fun hy => by
    rcases hB with rfl | ⟨-, hB', -⟩
    · exact .inl rfl
    · exact .inr ⟨hT.live_iff.mpr (.inr (hB' y hy).1), fun ho => (hB' y hy).2 (hT.onPath_iff.mp ho)⟩
  rw [hT.onPath_iff, hp] at h
  simp only [List.mem_append] at h
  rcases h with (h | h) | h
  · obtain ⟨a, a', rfl⟩ := List.append_of_mem h
    have hpx : TreeInv.path cfg q t = a ++ x :: (a' ++ Rq ++ B) := by rw [hp]; simp
    have hpx' : TreeInv.path cfg q t' = a ++ x :: (a' ++ Nq ++ B') := by rw [hp']; simp
    rw [hT'.route_iff hpx'] at hxy
    rw [hT.route_iff hpx]
    simp only [List.mem_cons, List.mem_append] at hxy ⊢
    rcases hxy with hxy | (hxy | hxy) | hxy
    · exact .inr (.inl (.inl hxy))
    · exact .inr (.inl (.inr (.inl (.inl hxy))))
    · exact .inl (hNq hxy)
    · rcases hnew hxy with rfl | hn
      · exact .inr (.inl (.inr (.inr hxy)))
      · exact .inr (.inr hn)
  · exact absurd (hRq h) hx
  · rcases hB with rfl | ⟨rfl, -⟩
    · obtain ⟨b, b', rfl⟩ := List.append_of_mem h
      have hpx : TreeInv.path cfg q t = (A ++ Rq ++ b) ++ x :: b' := by rw [hp]; simp
      have hpx' : TreeInv.path cfg q t' = (A ++ Nq ++ b) ++ x :: b' := by rw [hp']; simp
      rw [hT'.route_iff hpx'] at hxy
      rw [hT.route_iff hpx]
      exact .inr (.inl hxy)
    · simp at h

/-- **Below a node that is new on a path** all nodes are, and the key is not stored. -/
theorem newly_route (hs : Swap cfg t t' R N k e) (hT : TreeInv cfg m t) (hT' : TreeInv cfg m' t')
    (hl : Live m x) (hn : ¬ OnPath cfg m q x) (h' : OnPath cfg m' q x)
    (hxy : Route cfg m' q x y) :
    (Live m y ∧ ¬ OnPath cfg m q y) ∧ (q ≠ cfg.noKey → Cbat.stored cfg t' q = none) := by
  obtain ⟨A, Rq, Nq, B, B', hp, hp', -, hNq, hB⟩ := hs.paths q
  rw [hT.onPath_iff, hp] at hn
  rw [hT'.onPath_iff, hp'] at h'
  simp only [List.mem_append, not_or] at hn h'
  rcases h' with (h' | h') | h'
  · exact absurd h' hn.1.1
  · exact absurd hl (hs.not_live_of_fresh hT (hNq h'))
  · rcases hB with rfl | ⟨-, hB', hst⟩
    · exact absurd h' hn.2
    · obtain ⟨b, b', rfl⟩ := List.append_of_mem h'
      have hpx' : TreeInv.path cfg q t' = (A ++ Nq ++ b) ++ x :: b' := by rw [hp']; simp
      rw [hT'.route_iff hpx'] at hxy
      have hy := hB' y (List.mem_append_right _ hxy)
      exact ⟨⟨hT.live_iff.mpr (.inr hy.1), fun ho => hy.2 (hT.onPath_iff.mp ho)⟩, hst⟩

end Swap

/-- A key is in the node tree exactly when it is bound. -/
theorem TreeInv.inTree_iff_stored {t : LTree (Cell K V)} (hT : TreeInv cfg m t) {q : K}
    (hq : q ≠ cfg.noKey) : InTree m q ↔ stored cfg t q ≠ none := by
  rw [hT.inTree_iff hq]
  have := hT.ordered.exists_leaf_iff (q : WithTop K)
  simp only [ckey, ord_eq_coe_iff hq] at this
  rw [this, stored]
  simp only [ne_eq, ite_eq_right_iff, reduceCtorEq, imp_false, not_not]

/-! ### Searches that go on -/

/-- **The search for `k` may go on from `x`**: the live nodes that it leads to are on the path of
`k`.  The node itself, and some of those after it, may have been removed. -/
def Good (cfg : Cfg K V) (m : Mem K V) (k : K) (x : ℕ) : Prop :=
  ∀ y, Route cfg m k x y → Live m y → OnPath cfg m k y

theorem OnPath.good {k : K} {x : ℕ} (h : OnPath cfg m k x) : Good cfg m k x :=
  fun _ hy _ => h.route hy

theorem Good.onPath {k : K} {x : ℕ} (h : Good cfg m k x) (hx : Live m x) : OnPath cfg m k x :=
  h x .refl hx

theorem Good.step {k : K} {x y : ℕ} (h : Good cfg m k x) (hy : KEdge cfg m k x y) :
    Good cfg m k y := fun z hz => h z (.head hy hz)

/-- **The search for `k` from `a` meets what the search from `x` does**, up to removed nodes. -/
def Leads (cfg : Cfg K V) (m : Mem K V) (k : K) (a x : ℕ) : Prop :=
  ∀ y, Route cfg m k x y → Live m y → Route cfg m k a y

theorem Leads.step {k : K} {a x y : ℕ} (h : Leads cfg m k a x) (hy : KEdge cfg m k x y) :
    Leads cfg m k a y := fun z hz => h z (.head hy hz)

omit [LinearOrder K] in
/-- The child pointers of allocated nodes are to allocated nodes; leaves have none, and internal
nodes other than the root have two. -/
structure Closed (m : Mem K V) : Prop where
  left_lt : ∀ x < m.next, (m.node x).left < m.next
  right_lt : ∀ x < m.next, (m.node x).right < m.next
  leaf : ∀ x < m.next, (m.node x).left = 0 → (m.node x).right = 0
  full : ∀ x < m.next, x ≠ root → (m.node x).left ≠ 0 → (m.node x).right ≠ 0

omit [LinearOrder K] in
theorem Closed.edge_lt (h : Closed m) {x y : ℕ} (hx : x < m.next) (hxy : Edge m x y) :
    y < m.next := by
  rcases hxy.2 with rfl | rfl
  · exact h.left_lt x hx
  · exact h.right_lt x hx

theorem Closed.kedge_lt (h : Closed m) {k : K} {x y : ℕ} (hx : x < m.next)
    (hxy : KEdge cfg m k x y) : y < m.next := h.edge_lt hx hxy.edge

theorem KEdge.congr {k : K} {x y : ℕ} (hs : m.Same m' x) :
    KEdge cfg m' k x y ↔ KEdge cfg m k x y := by
  unfold KEdge
  rw [hs.left, child_congr hs]

omit [LinearOrder K] in
/-- The nodes of a patch in memory and the subtrees below it are below its top. -/
theorem Mem.Holds.reach {p : Patch (Cell K V) ℕ} (h : m.Holds p) {x : ℕ}
    (hx : x ∈ pids p ∨ x ∈ p.subs) : Relation.ReflTransGen (Edge m) (top p) x := by
  induction p with
  | sub i =>
      obtain rfl : x = i := by simpa [Patch.subs] using hx
      exact .refl
  | leaf c =>
      obtain rfl : x = c.id := by simpa [Patch.subs] using hx
      exact .refl
  | node c l r ihl ihr =>
      have el : Edge m c.id (top l) := ⟨h.2.2.1.top_ne_zero, .inl h.2.1.left⟩
      have er : Edge m c.id (top r) := ⟨h.2.2.2.top_ne_zero, .inr h.2.1.right⟩
      simp only [pids_node, Patch.subs, List.mem_cons, List.mem_append] at hx
      rcases hx with (rfl | hx | hx) | hx | hx
      · exact .refl
      · exact .head el (ihl h.2.2.1 (.inl hx))
      · exact .head er (ihr h.2.2.2 (.inl hx))
      · exact .head el (ihl h.2.2.1 (.inr hx))
      · exact .head er (ihr h.2.2.2 (.inr hx))

section Swing

variable {rec : ScxRecord K V} {old : Patch (Cell K V) ℕ} {k : K} {e : Effect V}
  {t : LTree (Cell K V)}

/-- The node whose child changes stays, and so do the paths through it. -/
theorem Commit.onPath_self (h : Commit cfg m rec old k e) (hT : TreeInv cfg m t) {q : K}
    (hq : OnPath cfg m q (rec.nth 0)) : OnPath cfg (m.swing rec) q (rec.nth 0) := by
  obtain ⟨hu, t', hT', hs⟩ := h.swing hT
  exact hs.onPath hT hT' hq hu

/-- A node that stays is still met by a search that met it. -/
theorem Route.swing (h : Commit cfg m rec old k e) (hT : TreeInv cfg m t) (hc : Closed m) {q : K}
    {a x : ℕ} (ha : a < m.next) (hg : Good cfg m q a) (hax : Route cfg m q a x)
    (hx : Live (m.swing rec) x) : Route cfg (m.swing rec) q a x := by
  obtain ⟨hu, t', hT', hs⟩ := h.swing hT
  induction hax using Relation.ReflTransGen.head_induction_on with
  | refl => exact .refl
  | @head a b hab hbx ih =>
      by_cases hau : a = rec.nth 0
      · subst hau
        have hp := hg.onPath h.live
        have hxm : Live m x := (hp.route (.head hab hbx)).live
        refine hs.route hT hT' hp (.head hab hbx) hu fun hR => ?_
        rcases (hs.live_iff hT hT').mp hx with hl | hl
        · exact hl.2 hR
        · exact hs.not_live_of_fresh hT hl hxm
      · exact .head ((KEdge.congr (.rfl' (Mem.swing_of_ne ha hau))).mpr hab)
          (ih (hc.kedge_lt ha hab) (hg.step hab))

/-- A search meets an old node on the path of the key only if it did before. -/
theorem Route.swing_back (h : Commit cfg m rec old k e) (hT : TreeInv cfg m t) (hc : Closed m)
    {q : K} {x y : ℕ} (hx : x < m.next) (hy : y < m.next) (hgx : Good cfg m q x)
    (hgy : Good cfg m q y) (hxy : Route cfg (m.swing rec) q x y) : Route cfg m q x y := by
  obtain ⟨hu, t', hT', hs⟩ := h.swing hT
  induction hxy using Relation.ReflTransGen.head_induction_on with
  | refl => exact .refl
  | @head a b hab hby ih =>
      by_cases hau : a = rec.nth 0
      · subst hau
        have hp := hgx.onPath h.live
        have hyl : Live (m.swing rec) y := ((h.onPath_self hT hp).route (.head hab hby)).live
        rcases hs.route_back hT hT' hp hu (.head hab hby) with hN | hr | ⟨hl, hn⟩
        · exact absurd (Commit.new_ge hN) (by omega)
        · exact hr
        · exact absurd (hgy.onPath hl) hn
      · rw [KEdge.congr (.rfl' (Mem.swing_of_ne hx hau))] at hab
        exact .head hab (ih (hc.kedge_lt hx hab) (hgx.step hab))

theorem Leads.swing (h : Commit cfg m rec old k e) (hT : TreeInv cfg m t) (hc : Closed m) {q : K}
    {a x : ℕ} (ha : a < m.next) (hx : x < m.next) (hg : Good cfg m q a)
    (hl : Leads cfg m q a x) : Leads cfg (m.swing rec) q a x := by
  obtain ⟨hu, t', hT', hs⟩ := h.swing hT
  intro y hxy
  induction hxy using Relation.ReflTransGen.head_induction_on with
  | refl =>
      intro hy
      rcases (hs.live_iff hT hT').mp hy with ⟨hyl, -⟩ | hN
      · exact (hl y .refl hyl).swing h hT hc ha hg hy
      · exact absurd (Commit.new_ge hN) (by omega)
  | @head b c hbc hcy ih =>
      intro hy
      by_cases hb : b = rec.nth 0
      · subst hb
        have hlive : Live (m.swing rec) (rec.nth 0) :=
          (hs.live_iff hT hT').mpr (.inl ⟨h.live, hu⟩)
        exact .trans ((hl _ .refl h.live).swing h hT hc ha hg hlive) (.head hbc hcy)
      · rw [KEdge.congr (.rfl' (Mem.swing_of_ne hx hb))] at hbc
        exact ih (hc.kedge_lt hx hbc) (hl.step hbc) hy

/-- **A search may go on after the second step of an SCX.** -/
theorem Good.swing (h : Commit cfg m rec old k e) (hT : TreeInv cfg m t) (hc : Closed m) {q : K}
    {x : ℕ} (hx : x < m.next) (hg : Good cfg m q x) : Good cfg (m.swing rec) q x :=
  Leads.swing h hT hc hT.root_lt hx onPath_root.good hg

theorem Commit.live_top (h : Commit cfg m rec old k e) : Live m (rec.nth 1) := by
  refine Relation.ReflTransGen.tail h.live
    ⟨h.removes.top_eq ▸ h.removes.holds.top_ne_zero, ?_⟩
  have hs := h.side
  unfold Mem.side at hs
  split_ifs at hs
  · exact .inl hs
  · exact .inr hs

theorem Commit.live_of_mem (h : Commit cfg m rec old k e) {x : ℕ}
    (hx : x ∈ pids old ∨ x ∈ old.subs) : Live m x :=
  Relation.ReflTransGen.trans h.live_top (h.removes.top_eq ▸ h.removes.holds.reach hx)

/-- The addresses of the new subtree: subtrees that stay and new nodes. -/
theorem Commit.newPtr_lt (h : Commit cfg m rec old k e) (hT : TreeInv cfg m t)
    {p : NewTree K V} (hp : Patch.Part p rec.newNode) :
    newPtr m.next p ≠ 0 ∧ newPtr m.next p < (m.swing rec).next := by
  have h0 := hT.root_lt
  rcases newPtr_cases (b := m.next) hp with hi | ⟨j, hj, he⟩
  · rw [h.plan.subs] at hi
    have := hT.live_lt (h.live_of_mem (.inr hi))
    exact ⟨h.removes.holds.subs_ne_zero _ hi, by simp only [Mem.swing_next]; omega⟩
  · have := h.removes.mem_slots.mp hj
    rw [he]
    exact ⟨by omega, by simp only [Mem.swing_next]; omega⟩

/-- The allocated nodes after an SCX: the old ones and the new ones. -/
theorem Commit.lt_next_cases (h : Commit cfg m rec old k e) {x : ℕ} (hx : x < (m.swing rec).next) :
    x < m.next ∨ ∃ j ∈ slots rec.newNode, x = m.next + j := by
  by_cases hlt : x < m.next
  · exact .inl hlt
  · refine .inr ⟨x - m.next, h.removes.mem_slots.mpr ?_, by omega⟩
    simp only [Mem.swing_next] at hx
    omega

/-- The node whose child changes is internal. -/
theorem Commit.left_ne (h : Commit cfg m rec old k e) (hT : TreeInv cfg m t) (hc : Closed m) :
    (m.node (rec.nth 0)).left ≠ 0 := fun hl => by
  have hr := hc.leaf _ (hT.live_lt h.live) hl
  refine h.removes.holds.top_ne_zero (h.removes.top_eq.trans (h.side.symm.trans ?_))
  unfold Mem.side
  split_ifs
  · exact hl
  · exact hr

/-- The nodes written by an SCX keep the memory closed. -/
theorem Closed.swing (hc : Closed m) (h : Commit cfg m rec old k e) (hT : TreeInv cfg m t) :
    Closed (m.swing rec) := by
  have hu : rec.nth 0 < m.next := hT.live_lt h.live
  have hw := Mem.swing_written h.removes.slots_nodup hu
  have hle : m.next ≤ (m.swing rec).next := by simp only [Mem.swing_next]; omega
  have htop := h.newPtr_lt hT .refl
  have hin := h.left_ne hT hc
  have key : ∀ x < (m.swing rec).next, ((m.swing rec).node x).left < (m.swing rec).next ∧
      ((m.swing rec).node x).right < (m.swing rec).next ∧
      (((m.swing rec).node x).left = 0 → ((m.swing rec).node x).right = 0) ∧
      (x ≠ root → ((m.swing rec).node x).left ≠ 0 → ((m.swing rec).node x).right ≠ 0) := by
    intro x hx
    rcases h.lt_next_cases hx with hlt | ⟨j, hj, rfl⟩
    · have hl := hc.left_lt x hlt
      have hr := hc.right_lt x hlt
      by_cases hxu : x = rec.nth 0
      · subst hxu
        rw [Mem.swing_self h.side]
        split_ifs
        · exact ⟨htop.2, by simp only; omega, fun h0 => absurd h0 htop.1,
            fun hr _ => hc.full _ hlt hr hin⟩
        · exact ⟨by simp only; omega, htop.2, fun h0 => absurd h0 hin, fun _ _ => htop.1⟩
      · rw [Mem.swing_of_ne hlt hxu]
        exact ⟨by omega, by omega, hc.leaf x hlt, hc.full x hlt⟩
    · rcases hw.cases hj with ⟨a, -, -, he⟩ | ⟨a, l, r, -, hp, he⟩
      · rw [he]
        exact ⟨by simp only; omega, by simp only; omega, fun _ => rfl, fun _ h0 => absurd rfl h0⟩
      · have hl := h.newPtr_lt hT ((Patch.Part.left a r .refl).trans hp)
        have hr := h.newPtr_lt hT ((Patch.Part.right a l .refl).trans hp)
        rw [he]
        exact ⟨hl.2, hr.2, fun h0 => absurd h0 hl.1, fun _ _ => hr.1⟩
  exact ⟨fun x hx => (key x hx).1, fun x hx => (key x hx).2.1, fun x hx => (key x hx).2.2.1,
    fun x hx => (key x hx).2.2.2⟩

end Swing

/-! ### Later memories -/

/-- **What holds between a memory and a later one.** -/
structure Later (cfg : Cfg K V) (m m' : Mem K V) : Prop where
  next : m.next ≤ m'.next
  nextVer : m.nextVer ≤ m'.nextVer
  key : ∀ x < m.next, (m'.node x).key = (m.node x).key
  value : ∀ x < m.next, (m'.node x).value = (m.node x).value
  weight : ∀ x < m.next, (m'.node x).weight = (m.node x).weight
  leaf : ∀ x < m.next, ((m'.node x).left = 0 ↔ (m.node x).left = 0)
  live : ∀ x < m.next, Live m' x → Live m x
  onPath : ∀ (q : K) (x : ℕ), OnPath cfg m q x → Live m' x → OnPath cfg m' q x
  good : ∀ (q : K) (x : ℕ), x < m.next → Good cfg m q x → Good cfg m' q x
  route : ∀ (q : K) (a x : ℕ), a < m.next → Good cfg m q a → Route cfg m q a x → Live m' x →
    Route cfg m' q a x
  route_back : ∀ (q : K) (x y : ℕ), x < m.next → y < m.next → Good cfg m q x → Good cfg m q y →
    Route cfg m' q x y → Route cfg m q x y
  leads : ∀ (q : K) (a x : ℕ), a < m.next → x < m.next → Good cfg m q a → Leads cfg m q a x →
    Leads cfg m' q a x
  marked : ∀ x < m.next, (m.node x).marked = true → (m'.node x).marked = true
  version : ∀ x < m.next, (m'.node x).version = .nil → (m.node x).version = .nil

/-- The nodes are the same up to marks, freeze flags and versions. -/
structure SameNodes (m m' : Mem K V) : Prop where
  same : ∀ x, m.Same m' x
  next : m'.next = m.next
  nextVer : m.nextVer ≤ m'.nextVer

namespace SameNodes

omit [LinearOrder K]

theorem trans {m'' : Mem K V} (h : SameNodes m m') (h' : SameNodes m' m'') : SameNodes m m'' :=
  ⟨fun x => (h.same x).trans (h'.same x), h'.next.trans h.next, h.nextVer.trans h'.nextVer⟩

theorem edge_eq (h : SameNodes m m') : Edge m' = Edge m := by
  funext x y
  unfold Edge
  rw [(h.same x).left, (h.same x).right]

theorem live_iff (h : SameNodes m m') {x : ℕ} : Live m' x ↔ Live m x := by
  unfold Live
  rw [h.edge_eq]

theorem inTree_iff (h : SameNodes m m') {k : K} : InTree m' k ↔ InTree m k := by
  unfold InTree
  simp only [h.live_iff, (h.same _).left, (h.same _).key]

theorem closed (h : SameNodes m m') (hc : Closed m) : Closed m' := by
  refine ⟨fun x hx => ?_, fun x hx => ?_, fun x hx => ?_, fun x hx => ?_⟩ <;>
    rw [h.next] at hx <;> simp only [(h.same x).left, (h.same x).right, h.next]
  · exact hc.left_lt x hx
  · exact hc.right_lt x hx
  · exact hc.leaf x hx
  · exact hc.full x hx

end SameNodes

namespace SameNodes

theorem route_iff (h : SameNodes m m') {k : K} {x y : ℕ} :
    Route cfg m' k x y ↔ Route cfg m k x y := by
  unfold Route
  rw [show KEdge cfg m' k = KEdge cfg m k from
    funext fun x => funext fun y => propext (KEdge.congr (h.same x))]

theorem onPath_iff (h : SameNodes m m') {k : K} {x : ℕ} :
    OnPath cfg m' k x ↔ OnPath cfg m k x := h.route_iff

theorem good_iff (h : SameNodes m m') {k : K} {x : ℕ} : Good cfg m' k x ↔ Good cfg m k x := by
  unfold Good
  simp only [h.route_iff, h.live_iff, h.onPath_iff]

theorem treeInv (h : SameNodes m m') {t : LTree (Cell K V)} (hT : TreeInv cfg m t) :
    TreeInv cfg m' t where
  rep := hT.rep.of_same fun x _ => h.same x
  root_left := (h.same root).left.trans hT.root_left
  root_right := (h.same root).right.trans hT.root_right
  root_key := (h.same root).key.trans hT.root_key
  nodup := hT.nodup
  root_notMem := hT.root_notMem
  zero_notMem := hT.zero_notMem
  lt_next := fun x hx => h.next ▸ hT.lt_next x hx
  root_lt := h.next ▸ hT.root_lt
  shape := hT.shape
  ordered := hT.ordered

theorem commit (h : SameNodes m m') {rec : ScxRecord K V} {old : Patch (Cell K V) ℕ} {k : K}
    {e : Effect V} (hc : Commit cfg m rec old k e) : Commit cfg m' rec old k e where
  removes := { hc.removes with holds := hc.removes.holds.of_same fun x _ => h.same x }
  plan := hc.plan
  live := h.live_iff.mpr hc.live
  side := by
    have := hc.side
    unfold Mem.side at this ⊢
    rwa [(h.same _).left, (h.same _).right]
  path := fun he => ⟨h.onPath_iff.mpr (hc.path he).1, (KEdge.congr (h.same _)).mpr (hc.path he).2⟩
  shape := by
    cases hc.shape with
    | top hu hs => exact .top hu hs
    | real hu hk hs => exact .real hu ((h.same _).key ▸ hk) ((h.same _).key ▸ hs)

end SameNodes

theorem Later.of_same (h : SameNodes m m')
    (hm : ∀ x < m.next, (m.node x).marked = true → (m'.node x).marked = true)
    (hv : ∀ x < m.next, (m'.node x).version = .nil → (m.node x).version = .nil) :
    Later cfg m m' where
  next := h.next.ge
  nextVer := h.nextVer
  key := fun x _ => (h.same x).key
  value := fun x _ => (h.same x).value
  weight := fun x _ => (h.same x).weight
  leaf := fun x _ => by rw [(h.same x).left]
  live := fun x _ => h.live_iff.mp
  onPath := fun q x hp _ => h.onPath_iff.mpr hp
  good := fun q x _ => h.good_iff.mpr
  route := fun q a x _ _ hr _ => h.route_iff.mpr hr
  route_back := fun q x y _ _ _ _ => h.route_iff.mp
  leads := fun q a x _ _ _ hl y hy hyl => h.route_iff.mpr (hl y (h.route_iff.mp hy)
    (h.live_iff.mp hyl))
  marked := hm
  version := hv

/-- **The second step of an SCX leads to a later memory.** -/
theorem Later.swing {rec : ScxRecord K V} {old : Patch (Cell K V) ℕ} {k : K} {e : Effect V}
    {t : LTree (Cell K V)} (h : Commit cfg m rec old k e) (hT : TreeInv cfg m t) (hc : Closed m) :
    Later cfg m (m.swing rec) := by
  obtain ⟨hu, t', hT', hs⟩ := h.swing hT
  have hsw := Mem.swing_swungAt h.side
  have hself := Mem.swing_self h.side
  have hin : (m.node (rec.nth 0)).left ≠ 0 := h.left_ne hT hc
  have htop := h.newPtr_lt hT .refl
  have hne : ∀ x < m.next, x ≠ rec.nth 0 → (m.swing rec).node x = m.node x :=
    fun x hx => Mem.swing_of_ne hx
  refine ⟨by simp, by simp, fun x hx => ?_, fun x hx => ?_, fun x hx => ?_, fun x hx => ?_,
    fun x hx hl => ?_, fun q x hp hl => ?_, fun q x hx hg => hg.swing h hT hc hx,
    fun q a x ha hg hr hl => hr.swing h hT hc ha hg hl,
    fun q x y hx hy hgx hgy => Route.swing_back h hT hc hx hy hgx hgy,
    fun q a x ha hx hg hl => hl.swing h hT hc ha hx hg,
    fun x hx => ?_, fun x hx => ?_⟩
  · by_cases hxu : x = rec.nth 0
    · exact hxu ▸ hsw.key
    · rw [hne x hx hxu]
  · by_cases hxu : x = rec.nth 0
    · exact hxu ▸ hsw.value
    · rw [hne x hx hxu]
  · by_cases hxu : x = rec.nth 0
    · exact hxu ▸ hsw.weight
    · rw [hne x hx hxu]
  · by_cases hxu : x = rec.nth 0
    · subst hxu
      rw [hself]
      split_ifs
      · simp [hin, htop.1]
      · rfl
    · rw [hne x hx hxu]
  · rcases (hs.live_iff hT hT').mp hl with hl | hl
    · exact hl.1
    · exact absurd (Commit.new_ge hl) (by omega)
  · rcases (hs.live_iff hT hT').mp hl with hl | hl
    · exact hs.onPath hT hT' hp hl.2
    · exact absurd hp.live (hs.not_live_of_fresh hT hl)
  · by_cases hxu : x = rec.nth 0
    · subst hxu
      rw [hself]
      split_ifs <;> exact id
    · rw [hne x hx hxu]; exact id
  · by_cases hxu : x = rec.nth 0
    · subst hxu
      rw [hself]
      split_ifs <;> exact id
    · rw [hne x hx hxu]; exact id

end Cbat
