/-
**One thread alone: the tree is a finite map.**

A thread that runs alone makes its calls one after the other.  Between two calls the node tree
stores a finite map, and the version tree mirrors the node tree.  `insert`, `insertIfAbsent` and
`erase` change the map as they should, `find` reads it from the nodes and `contains` from the
versions.  The only answer that depends on the variant is that of a `find` without success: BAT
returns `NO_VALUE`, the delegating variants return whatever an unassigned value is, unless the tree
is empty.

Main definitions:

* `Cbat.Stores` — the map that the node tree stores;
* `Cbat.Op.next`, `Cbat.Op.answer` — the calls of a finite map;
* `Cbat.mapObject`, `Cbat.treeObject` — the finite map, and the map as the code answers;
* `Cbat.Serves` — a call of the machine, from its start to its return;
* `Cbat.AtRest` — what holds between two calls.

Main results:

* `Cbat.AtRest.call` — **every call ends with its answer, and keeps what holds between calls**;
* `Cbat.bat_refines_map` — **BAT refines a finite map**;
* `Cbat.eagerDel_refines_map` — BAT-EagerDel does, exactly when no `find` meets a key that is
  missing in a nonempty tree, or the unassigned value is `NO_VALUE`;
* `Cbat.versions_mirror` — the version tree mirrors the node tree between the calls.
-/

import Cbat.Mirror
import Cbat.Histories

set_option relaxedAutoImplicit false
set_option autoImplicit false

namespace Cbat

variable {K V : Type} {m m' : Mem K V}

/-! ### The map that the node tree stores -/

/-- A leaf of the node tree has the key `q` and the value `v`. -/
def Binds (m : Mem K V) (q : K) (v : V) : Prop :=
  ∃ x, Live m x ∧ (m.node x).left = 0 ∧ (m.node x).key = q ∧ (m.node x).value = v

/-- **The node tree stores the map `f`.** -/
def Stores (cfg : Cfg K V) (m : Mem K V) (f : K → Option V) : Prop :=
  ∀ q, q ≠ cfg.noKey → ∀ v, f q = some v ↔ Binds m q v

theorem Binds.of_same {q : K} {v : V} (hs : SameNodes m m') : Binds m' q v ↔ Binds m q v := by
  unfold Binds
  simp only [hs.live_iff, (hs.same _).left, (hs.same _).key, (hs.same _).value]

theorem Stores.of_same {cfg : Cfg K V} {f : K → Option V} (h : Stores cfg m f)
    (hs : SameNodes m m') : Stores cfg m' f := fun q hq v =>
  (h q hq v).trans (Binds.of_same hs).symm

variable [LinearOrder K] {cfg : Cfg K V} {t : LTree (Cell K V)} {f : K → Option V} {k : K}

/-- The leaf that stores a key is the one in which a search for it ends. -/
theorem TreeInv.binds_iff (hT : TreeInv cfg m t) {q : K} (hq : q ≠ cfg.noKey) {v : V} :
    Binds m q v ↔ stored cfg t q = some v := by
  constructor
  · rintro ⟨x, hx, hl, hkey, hval⟩
    have hr : x ≠ root := by
      rintro rfl
      exact hq (hkey.symm.trans hT.root_key)
    obtain ⟨c, hc, rfl, -⟩ :=
      hT.rep.leaf_of_mem hT.zero_notMem ((hT.live_iff.mp hx).resolve_left hr) hl
    have hi := hT.rep.is_leaf hc
    have hck : c.key = q := hi.key.symm.trans hkey
    have hat := hT.ordered.leafAt_eq hc
    rw [show ckey cfg c = (q : WithTop K) from (ord_eq_coe_iff hq).mpr hck] at hat
    unfold stored
    rw [hat, if_pos hck, ← hi.value, hval]
  · intro h
    simp only [stored] at h
    split_ifs at h with hkey
    have hc := LTree.leafAt_mem_leaves (ckey cfg) (q : WithTop K) t
    have hi := hT.rep.is_leaf hc
    exact ⟨_, hT.live_iff.mpr (.inr (List.mem_map_of_mem (LTree.leaves_subset_labels t hc))),
      hi.left, hi.key.trans hkey, hi.value.trans (Option.some.inj h)⟩

theorem TreeInv.stores_iff (hT : TreeInv cfg m t) :
    Stores cfg m f ↔ ∀ q, q ≠ cfg.noKey → f q = stored cfg t q := by
  refine forall₂_congr fun q hq => ?_
  simp only [hT.binds_iff hq]
  exact ⟨fun h => Option.ext h, fun h v => by rw [h]⟩

/-- The leaf on the path of a key has its binding. -/
theorem Stores.of_leaf (h : Stores cfg m f) (hT : TreeInv cfg m t) (hk : k ≠ cfg.noKey) {x : ℕ}
    (hx : OnPath cfg m k x) (hl : (m.node x).left = 0) :
    f k = if (m.node x).key = k then some (m.node x).value else none := by
  split_ifs with hkey
  · exact (h k hk _).mpr ⟨x, hx.live, hl, hkey, rfl⟩
  · refine Option.eq_none_iff_forall_ne_some.mpr fun v hv => ?_
    obtain ⟨y, hy, hyl, rfl, -⟩ := (h k hk v).mp hv
    exact hkey (by rw [TreeInv.leaf_unique hx hl (hT.leaf_onPath hy hyl hk) hyl])

/-- **An SCX changes the binding of its key.** -/
theorem Stores.swing {rec : ScxRecord K V} {old : Patch (Cell K V) ℕ} {e : Effect V}
    (h : Stores cfg m f) (hT : TreeInv cfg m t) (hc : Commit cfg m rec old k e) :
    Stores cfg (m.swing rec) (Function.update f k (e.apply (f k))) := by
  obtain ⟨-, t', hT', hs⟩ := hc.swing hT
  rw [hT.stores_iff] at h
  rw [hT'.stores_iff]
  intro q hq
  rw [hs.stored q hq]
  by_cases hqk : q = k
  · rw [hqk, Function.update_self, if_pos rfl, h k (hqk ▸ hq)]
  · rw [Function.update_of_ne hqk, if_neg hqk, h q hq]

/-- The tree is empty exactly when the map is. -/
theorem Stores.empty_iff (h : Stores cfg m f) (hT : TreeInv cfg m t) :
    (m.node (m.node root).left).left = 0 ↔ ∀ q, q ≠ cfg.noKey → f q = none := by
  have hrep := hT.rep
  have hzero := hT.zero_notMem
  rw [hT.root_left]
  rcases hT.shape with ⟨s, rfl, hs⟩ | ⟨rl, s, T, rfl, -, -, hs, hreal⟩
  · refine iff_of_true hrep.left fun q hq => ?_
    rw [hT.stores_iff.mp h q hq, stored, LTree.leafAt_leaf, if_neg fun he => hq (he.symm.trans hs)]
  · refine iff_of_false ?_ fun hnone => ?_
    · simp only [ids_node, List.mem_cons, List.mem_append, not_or] at hzero
      rw [LTree.label_node, hrep.1.left]
      exact label_id_ne_zero hzero.2.1
    · obtain ⟨c, hc⟩ := List.exists_mem_of_ne_nil _ T.leaves_ne_nil
      have hck := hreal.real c (LTree.leaves_subset_labels T hc)
      have hmem : c ∈ (LTree.node rl T (.leaf s)).leaves := List.mem_append_left _ hc
      have hin := (hT.inTree_iff hck).mpr ⟨c, hmem, rfl⟩
      exact (hT.inTree_iff_stored hck).mp hin ((hT.stores_iff.mp h c.key hck).symm.trans
        (hnone c.key hck))

/-! ### Attempts -/

section Attempt

variable {c c' : Call K V} {cur : Cursor} {r : Except Stop (ScxRecord K V)}

omit [LinearOrder K] in
/-- What an update makes of the binding of its key. -/
def Call.binding (c : Call K V) (o : Option V) : Option V :=
  match c.kind with
  | .insert => some c.val
  | .insertIfAbsent => some (o.getD c.val)
  | .erase => none

/-- **The outputs of an attempt** that returns without an SCX or comes to one: the old value is
reported, and the SCX changes the binding as it should. -/
theorem attempt_result (hB : Base cfg m t) (hE : EndOk cfg m c.key .update cur)
    (hs : Stores cfg m f) (hk : c.key ≠ cfg.noKey) (hl : Live m cur.l)
    (h : attempt cfg m c .update cur = (c', r)) (hr : ∀ e, r = .error e → e = .finish) :
    c'.result = (f c.key).getD cfg.noValue ∧
      c.binding (f c.key) = match r with
        | .error _ => f c.key
        | .ok _ => (c.effect .update).apply (f c.key) := by
  have hf := hs.of_leaf hB.tree hk (hE.l.good.onPath hl) (hE.leaf rfl)
  have hins : ∀ e, insertScx cfg m c cur = .error e → e = .retry := fun e he =>
    (insertScx_error hE.p.ne_zero he).1
  unfold attempt at h
  cases hkind : c.kind with
  | erase =>
      simp only [hkind] at h
      split_ifs at h with hkl
      · obtain ⟨rfl, rfl⟩ := Prod.mk.inj h
        rw [hf, if_neg (Ne.symm hkl)]
        simp [Call.binding, hkind]
      · rw [hf, if_pos (not_not.mp hkl).symm]
        cases hp : eraseParents m cur with
        | error e =>
            simp only [hp, Prod.mk.injEq] at h
            have he := (eraseParents_error hE.gp.ne_zero hE.p.ne_zero hp).1
            exact nomatch he.symm.trans (hr e h.2.symm)
        | ok u =>
            cases hq : eraseScx cfg m cur with
            | error e =>
                simp only [hp, hq, Prod.mk.injEq] at h
                exact nomatch (eraseScx_error hB hE.eraseCursor hp hq).1.symm.trans (hr e h.2.symm)
            | ok rec =>
                simp only [hp, hq, Prod.mk.injEq] at h
                obtain ⟨rfl, rfl⟩ := h
                simp [Call.binding, Call.effect, outputs, hkind, Effect.apply]
  | insert =>
      simp only [hkind] at h
      cases hq : insertScx cfg m c cur with
      | error e =>
          simp only [hq, Prod.mk.injEq] at h
          exact nomatch (hins e hq).symm.trans (hr e h.2.symm)
      | ok rec =>
          simp only [hq, Prod.mk.injEq] at h
          obtain ⟨rfl, rfl⟩ := h
          rw [hf]
          by_cases hkl : c.key = (m.node cur.l).key
          · simp [Call.binding, Call.effect, outputs, hkind, Effect.apply, hkl]
          · simp [Call.binding, Call.effect, outputs, hkind, Effect.apply, hkl, Ne.symm hkl]
  | insertIfAbsent =>
      simp only [hkind] at h
      split_ifs at h with hkl
      · obtain ⟨rfl, rfl⟩ := Prod.mk.inj h
        rw [hf, if_pos hkl.symm]
        simp [Call.binding, hkind]
      · rw [hf, if_neg (Ne.symm hkl)]
        cases hq : insertScx cfg m c cur with
        | error e =>
            simp only [hq, Prod.mk.injEq] at h
            exact nomatch (hins e hq).symm.trans (hr e h.2.symm)
        | ok rec =>
            simp only [hq, Prod.mk.injEq] at h
            obtain ⟨rfl, rfl⟩ := h
            simp [Call.binding, Call.effect, outputs, hkind, Effect.apply, hkl]

/-- An SCX of a thread that runs alone. -/
theorem Replaced.stores {md : Mode} {rec : ScxRecord K V}
    (hr : Reachable cfg (solo m (.attempt c md cur)))
    (ha : attempt cfg m c md cur = (c', .ok rec))
    (h : Replaced cfg c.key (c.effect md) rec (m.freeze rec) m') (hs : Stores cfg m f)
    (hp : Progress cfg m c.key []) :
    Stores cfg m' (Function.update f c.key ((c.effect md).apply (f c.key))) ∧
      Progress cfg m' c.key [] := by
  obtain ⟨⟨old, hc⟩, ho, rfl⟩ := h
  have hfreeze : exec cfg m (.attempt c md cur) = (m.freeze rec, .swing c' md rec) := by
    simp only [exec, execUpdate, ha]
  have hr' := (Runs.single hfreeze).reachable hr
  obtain ⟨t, hB⟩ : ∃ t, Base cfg (m.freeze rec) t := hr'.inv.base
  have hsame := freeze_sameNodes m rec
  refine ⟨(hs.of_same hsame).swing hB.tree hc, ?_⟩
  exact (hp.of_same hsame (freeze_version m rec)).swing hB
    hr'.vInv.mem hc ho

omit [LinearOrder K] in
theorem Found.live (h : Found m c .update cur) : Live m cur.l := by
  rcases h with hj | ⟨h, -⟩
  · unfold Joined at hj
    split_ifs at hj
    · exact (hj.1.edge hj.2.1).edge hj.2.2
    · exact hj.1.edge hj.2
  · exact nomatch h

/-- **The rebalancing step** changes no binding. -/
theorem runs_rebalance (hr : Reachable cfg (solo m (.searchRoot c .rebalance)))
    (hs : Stores cfg m f) (hp : Progress cfg m c.key []) :
    ∃ m' c', Runs cfg m (.searchRoot c .rebalance) m' (.propStart c') ∧ c.SameOutputs c' ∧
      Stores cfg m' f ∧ Progress cfg m' c.key [] := by
  obtain ⟨t, hB⟩ : ∃ t, Base cfg m t := hr.inv.base
  obtain ⟨c₁, hc₁, ⟨-, -, hrun⟩ | ⟨cur, hfound, -, hrun⟩⟩ := runs_search hB c .rebalance
  · exact ⟨m, c₁, hrun, hc₁, hs, hp⟩
  · have hr₁ := hrun.reachable hr
    obtain ⟨m', c', hrun', hcase⟩ := runs_attempt hr₁ hfound
    have hc' : c' = c₁ := by
      rcases hcase with ⟨ha, -⟩ | ⟨rec, ha, -⟩
      · exact (Prod.mk.inj ha).1.symm
      · exact (Prod.mk.inj ha).1.symm
    subst hc'
    refine ⟨m', c', hrun.trans hrun', hc₁, ?_⟩
    rw [← hc₁.key] at hp ⊢
    rcases hcase with ⟨-, rfl⟩ | ⟨rec, ha, hrep⟩
    · exact ⟨hs, hp⟩
    · have hst := hrep.stores hr₁ ha hs hp
      rwa [show (c'.effect .rebalance).apply (f c'.key) = f c'.key from rfl,
        Function.update_eq_self] at hst

/-- **An update comes to its `propagate`**, with the old value as its result and the binding
changed. -/
theorem runs_update (hr : Reachable cfg (solo m (.searchRoot c .update)))
    (hreb : c.shouldRebalance = false) (hres : c.result = cfg.noValue)
    (hs : Stores cfg m f) (hp : Progress cfg m c.key []) :
    ∃ m' c', Runs cfg m (.searchRoot c .update) m' (.propStart c') ∧ c'.kind = c.kind ∧
      c'.key = c.key ∧ c'.result = (f c.key).getD cfg.noValue ∧
      Stores cfg m' (Function.update f c.key (c.binding (f c.key))) ∧
      Progress cfg m' c.key [] ∧
      (c.kind = .erase → (∀ q, q ≠ cfg.noKey → f q = none) → m' = m) := by
  obtain ⟨t, hB⟩ : ∃ t, Base cfg m t := hr.inv.base
  have hk : c.key ≠ cfg.noKey := (hr.inv.pcs 0).1
  obtain ⟨c₁, hc₁, ⟨hempty, hkind, hrun⟩ | ⟨cur, hfound, hfull, hrun⟩⟩ := runs_search hB c .update
  · -- a deletion finds the tree empty
    have hf : f c.key = none := (hs.empty_iff hB.tree).mp hempty c.key hk
    have hb : c.binding (f c.key) = f c.key := by
      simp only [Call.binding, ← hc₁.kind, hkind rfl, hf]
    simp only [finished, hc₁.shouldRebalance, hreb, Bool.false_eq_true, if_false] at hrun
    refine ⟨m, c₁, hrun, hc₁.kind, hc₁.key, ?_, ?_, hp, fun _ _ => rfl⟩
    · rw [hc₁.result, hres, hf]
      rfl
    · rwa [hb, Function.update_eq_self]
  · have hr₁ := hrun.reachable hr
    have hE := ((hr₁.inv.pcs 0).2 : EndOk cfg m c₁.key .update cur)
    have hne : c.kind = .erase → ¬ ∀ q, q ≠ cfg.noKey → f q = none := fun hkind hnone =>
      hfull ((hs.empty_iff hB.tree).mpr hnone) (hc₁.kind.trans hkind)
    obtain ⟨m₁, c₂, hrun₁, hcase⟩ := runs_attempt hr₁ hfound
    rw [← hc₁.key] at hk hp ⊢
    have hbind : c.binding = c₁.binding := by
      unfold Call.binding
      rw [hc₁.kind, hc₁.val]
    have hsame : c₁.Same c₂ := by
      have := attempt_same cfg m c₁ .update cur
      rcases hcase with ⟨ha, -⟩ | ⟨rec, ha, -⟩ <;> rwa [ha] at this
    obtain ⟨hres₂, hs₁, hp₁⟩ : c₂.result = (f c₁.key).getD cfg.noValue ∧
        Stores cfg m₁ (Function.update f c₁.key (c.binding (f c₁.key))) ∧
        Progress cfg m₁ c₁.key [] := by
      rw [hbind]
      rcases hcase with ⟨ha, rfl⟩ | ⟨rec, ha, hrep⟩
      · obtain ⟨hres₂, hb⟩ := attempt_result hB hE hs hk hfound.live ha (by simp)
        refine ⟨hres₂, ?_, hp⟩
        rw [hb, Function.update_eq_self]
        exact hs
      · obtain ⟨hres₂, hb⟩ := attempt_result hB hE hs hk hfound.live ha (by simp)
        rw [hb]
        exact ⟨hres₂, hrep.stores hr₁ ha hs hp⟩
    have hall := hrun.trans hrun₁
    by_cases hreb₂ : c₂.shouldRebalance = true
    · simp only [finished, if_pos hreb₂] at hall
      obtain ⟨m', c', hrun₂, hc', hs', hp'⟩ :=
        runs_rebalance (hall.reachable hr) hs₁ (hsame.key.symm ▸ hp₁)
      refine ⟨m', c', hall.trans hrun₂, ?_, ?_, hc'.result.trans hres₂, hs', hsame.key ▸ hp',
        fun hkind hnone => absurd hnone (hne hkind)⟩
      · rw [hc'.kind, hsame.kind, hc₁.kind]
      · rw [hc'.key, hsame.key]
    · simp only [finished, if_neg hreb₂] at hall
      exact ⟨m₁, c₂, hall, hsame.kind.trans hc₁.kind, hsame.key, hres₂, hs₁, hp₁,
        fun hkind hnone => absurd hnone (hne hkind)⟩

end Attempt

/-! ### Queries -/

section Queries

/-- What a `find` returns. -/
def findAnswer (cfg : Cfg K V) (o : Option V) : PC K V :=
  match o with
  | some v => .findRet v true
  | none => .findRet (if cfg.variant = .bat then cfg.noValue else cfg.initValue) false

/-- The loop of `find` ends in the leaf on the path of its key. -/
theorem runs_findLoop (hB : Base cfg m t) (hs : Stores cfg m f) (hk : k ≠ cfg.noKey) {l : ℕ}
    (ho : OnPath cfg m k l) (hl : (m.node l).key ≠ cfg.noKey) :
    Runs cfg m (.findLoop k l) m (findAnswer cfg (f k)) := by
  have hacc := hB.acc (hB.tree.live_lt ho.live)
  induction hacc with
  | intro l _ ih =>
      by_cases h0 : (m.node l).left = 0
      · refine .single ?_
        rw [hs.of_leaf hB.tree hk ho h0]
        by_cases hkey : (m.node l).key = k
        · simp only [exec, execQuery, if_neg (not_not.mpr h0), if_pos hkey, if_pos hkey.symm,
            findAnswer]
        · simp only [exec, execQuery, if_neg (not_not.mpr h0), if_neg hkey, if_neg (Ne.symm hkey),
            findAnswer]
      · have hnext : exec cfg m (.findLoop k l) = (m, .findNext k l) := by
          simp only [exec, execQuery, if_pos h0]
        obtain ⟨y, hy⟩ :
            ∃ y, y = if k < (m.node l).key then (m.node l).left else (m.node l).right :=
          ⟨_, rfl⟩
        have hload : exec cfg m (.findNext k l) = (m, .findLoop k y) := by rw [hy]; rfl
        have hr0 :=
          hB.closed.full l (hB.tree.live_lt ho.live) (fun h => hl (h ▸ hB.tree.root_key)) h0
        have hke : KEdge cfg m k l y := by
          refine ⟨h0, ?_, ?_⟩
          · rw [hy]
            simp [child, goesLeft, hl]
          · rw [hy]
            split_ifs
            · exact h0
            · exact hr0
        exact .step hnext (.step hload (ih y hke.edge (ho.step hke)
          (hB.real_edge ho.live hl hke.edge).real))

/-- **`find` ends.** -/
theorem runs_find (hB : Base cfg m t) (hs : Stores cfg m f) (hk : k ≠ cfg.noKey) :
    Runs cfg m (.findRoot k) m
      (if (m.node (m.node root).left).left = 0 then .findRet cfg.noValue false
        else findAnswer cfg (f k)) := by
  have hroot : exec cfg m (.findRoot k) = (m, .findTop k (m.node root).left) := rfl
  refine .step hroot ?_
  split_ifs with h0
  · refine .single ?_
    simp only [exec, execQuery, if_pos h0]
  · have htop : exec cfg m (.findTop k (m.node root).left) =
        (m, .findLoop k (m.node (m.node root).left).left) := by
      simp only [exec, execQuery, if_neg h0]
    have hroot' : KEdge cfg m k root (m.node root).left := by
      refine ⟨hB.top_edge.1, ?_, hB.top_edge.1⟩
      simp [child, goesLeft, hB.tree.root_key]
    have htop' : KEdge cfg m k (m.node root).left (m.node (m.node root).left).left := by
      refine ⟨h0, ?_, h0⟩
      simp [child, goesLeft, hB.top_key]
    exact .step htop (runs_findLoop hB hs hk ((onPath_root.step hroot').step htop')
      (hB.first_real h0).1)

/-- The keys of a fine version tree are those of the leaves below its node. -/
theorem Fine.mem_leafKeys (hfine : ∀ x, Live m x → Fine m x) (hB : Base cfg m t) {x : ℕ}
    (hx : Live m x) : k ∈ (m.node x).version.leafKeys ↔
      ∃ y, Relation.ReflTransGen (Edge m) x y ∧ (m.node y).left = 0 ∧ (m.node y).key = k := by
  have hacc := hB.acc (hB.tree.live_lt hx)
  induction hacc with
  | intro x _ ih =>
      obtain ⟨⟨a, s, ps, he, -⟩, hl, hr⟩ := hfine x hx
      have hsub : ∀ y, (m.node x).left = y ∨ (m.node x).right = y → (k ∈ (m.ver y).leafKeys ↔
          y ≠ 0 ∧ ∃ z, Relation.ReflTransGen (Edge m) y z ∧ (m.node z).left = 0 ∧
            (m.node z).key = k) := by
        intro y hy
        by_cases h0 : y = 0
        · simp [h0, Ver.leafKeys]
        · have hedge : Edge m x y := ⟨h0, hy⟩
          rw [Mem.ver_of_ne m h0]
          exact (ih y hedge (hx.edge hedge)).trans (and_iff_right h0).symm
      rw [he]
      by_cases h0 : (m.node x).left = 0
      · have hr0 := hB.closed.leaf x (hB.tree.live_lt hx) h0
        have hend : ∀ y, Relation.ReflTransGen (Edge m) x y → y = x := by
          intro y hy
          rcases hy.cases_head with h | ⟨z, ⟨hz, hz' | hz'⟩, -⟩
          · exact h.symm
          · exact absurd (hz'.symm.trans h0) hz
          · exact absurd (hz'.symm.trans hr0) hz
        rw [h0, hr0, Mem.ver_zero]
        simp only [Ver.leafKeys, Ver.isNil_nil, if_true, List.mem_singleton]
        constructor
        · rintro rfl
          exact ⟨x, .refl, h0, rfl⟩
        · rintro ⟨y, hy, -, rfl⟩
          rw [hend y hy]
      · rw [Ver.leafKeys_mk (hl h0), List.mem_append, hsub _ (.inl rfl), hsub _ (.inr rfl)]
        constructor
        · rintro (⟨h, y, hy, hrest⟩ | ⟨h, y, hy, hrest⟩)
          · exact ⟨y, .head ⟨h, .inl rfl⟩ hy, hrest⟩
          · exact ⟨y, .head ⟨h, .inr rfl⟩ hy, hrest⟩
        · rintro ⟨y, hy, hyl, hrest⟩
          rcases hy.cases_head with rfl | ⟨z, ⟨hz, rfl | rfl⟩, hzy⟩
          · exact absurd hyl h0
          · exact .inl ⟨hz, y, hzy, hyl, hrest⟩
          · exact .inr ⟨hz, y, hzy, hyl, hrest⟩

end Queries

/-! ### The finite map -/

omit [LinearOrder K] in
/-- What a call returns: a value, a value and a flag, or a flag. -/
inductive Answer (V : Type) where
  | value (v : V) : Answer V
  | found (v : V) (ok : Bool) : Answer V
  | member (b : Bool) : Answer V
  deriving DecidableEq

omit [LinearOrder K] in
/-- The return statements. -/
def PC.answer [DecidableEq V] (cfg : Cfg K V) : PC K V → Option (Answer V)
  | .ret c => match c.kind with
      | .erase => some (.found c.result (decide (c.result ≠ cfg.noValue)))
      | _ => some (.value c.result)
  | .findRet v ok => some (.found v ok)
  | .containsRet b => some (.member b)
  | _ => none

omit [LinearOrder K] in
/-- What a call makes of the binding of its key. -/
def Op.binding : Op K V → Option V → Option V
  | insert _ v, _ => some v
  | insertIfAbsent _ v, o => some (o.getD v)
  | erase _, _ => none
  | find _, o | contains _, o => o

/-- The map after a call. -/
def Op.next (f : K → Option V) (op : Op K V) : K → Option V :=
  Function.update f op.key (op.binding (f op.key))

omit [LinearOrder K] in
/-- The answer of a call, with the value that a `find` without success returns. -/
def Op.answer (noValue missing : V) (f : K → Option V) : Op K V → Answer V
  | insert k _ | insertIfAbsent k _ => .value ((f k).getD noValue)
  | erase k => .found ((f k).getD noValue) (f k).isSome
  | find k => .found ((f k).getD missing) (f k).isSome
  | contains k => .member (f k).isSome

/-- **The finite map.** -/
def mapObject (cfg : Cfg K V) : SeqObject (K → Option V) (Op K V) (Answer V) where
  next := Op.next
  answer := Op.answer cfg.noValue cfg.noValue

omit [LinearOrder K] in
open Classical in
/-- The value that a `find` without success returns: BAT always assigns it, the delegating variants
only if the tree is empty. -/
noncomputable def missing (cfg : Cfg K V) (f : K → Option V) : V :=
  if cfg.variant = .bat ∨ ∀ q, q ≠ cfg.noKey → f q = none then cfg.noValue else cfg.initValue

/-- The finite map as the code answers: whether a deletion has succeeded is read off its result. -/
noncomputable def treeObject [DecidableEq V] (cfg : Cfg K V) :
    SeqObject (K → Option V) (Op K V) (Answer V) where
  next := Op.next
  answer := fun f op => match op with
    | .erase k =>
        .found ((f k).getD cfg.noValue) (decide ((f k).getD cfg.noValue ≠ cfg.noValue))
    | op => op.answer cfg.noValue (missing cfg f) f

omit [LinearOrder K] in
/-- The keys and values that a call may have. -/
def Op.Proper (cfg : Cfg K V) : Op K V → Prop
  | insert k v | insertIfAbsent k v => k ≠ cfg.noKey ∧ v ≠ cfg.noValue
  | erase k | find k | contains k => k ≠ cfg.noKey

omit [LinearOrder K] in
theorem Op.Proper.key {op : Op K V} (h : op.Proper cfg) : op.key ≠ cfg.noKey := by
  cases op with
  | insert | insertIfAbsent => exact h.1
  | _ => exact h

/-! ### The calls of a thread that runs alone -/

/-- **A call, from its start to its return.** -/
def Serves [DecidableEq V] (cfg : Cfg K V) (m : Mem K V) (op : Op K V) (a : Answer V)
    (m' : Mem K V) : Prop :=
  ∃ pc, Runs cfg m (op.start cfg) m' pc ∧ pc.answer cfg = some a

/-- **What holds between two calls**: the tree stores the map, and the versions mirror the nodes. -/
structure AtRest (cfg : Cfg K V) (m : Mem K V) (f : K → Option V) : Prop where
  reachable : ∃ pc : PC K V, pc.Resting ∧ Reachable cfg (solo m pc)
  stores : Stores cfg m f
  fine : ∀ x, Live m x → Fine m x

section Calls

variable {op : Op K V}

theorem AtRest.start (h : AtRest cfg m f) (hk : op.key ≠ cfg.noKey) :
    Reachable cfg (solo m (op.start cfg)) := by
  obtain ⟨pc, hrest, hr⟩ := h.reachable
  have hs : Step cfg (solo m pc) 0 _ := .invoke op hrest hk
  rw [solo_set] at hs
  exact hr.step hs

/-- An update runs to its return. -/
theorem AtRest.update (h : AtRest cfg m f) {c : Call K V}
    (hr : Reachable cfg (solo m (.searchRoot c .update))) (hreb : c.shouldRebalance = false)
    (hres : c.result = cfg.noValue) :
    ∃ m' c', Runs cfg m (.searchRoot c .update) m' (.ret c') ∧ c'.kind = c.kind ∧
      c'.result = (f c.key).getD cfg.noValue ∧
      Stores cfg m' (Function.update f c.key (c.binding (f c.key))) ∧
      (∀ x, Live m' x → Fine m' x) ∧
      (c.kind = .erase → (∀ q, q ≠ cfg.noKey → f q = none) → SameNodes m m') := by
  obtain ⟨m₁, c', hrun, hkind, hkey, hresult, hs, hp, hempty⟩ :=
    runs_update hr hreb hres h.stores fun x hx => .inr (.inl (h.fine x hx))
  obtain ⟨m', hprop, hsame, hfine⟩ := runs_propagate (hrun.reachable hr) (hkey ▸ hp)
  exact ⟨m', c', hrun.trans hprop, hkind, hresult, hs.of_same hsame, hfine,
    fun hk hnone => hempty hk hnone ▸ hsame⟩

/-- The call may add a key. -/
def Op.inserts : Op K V → Bool
  | insert _ _ | insertIfAbsent _ _ => true
  | _ => false

/-- A call that changes no binding. -/
theorem AtRest.query (h : AtRest cfg m f) (hk : op.key ≠ cfg.noKey) {pc : PC K V}
    (hbind : op.binding (f op.key) = f op.key) (hrun : Runs cfg m (op.start cfg) m pc)
    (hrest : pc.Resting) : AtRest cfg m (op.next f) := by
  rw [Op.next, hbind, Function.update_eq_self]
  exact { h with reachable := ⟨pc, hrest, hrun.reachable (h.start hk)⟩ }

/-- A call of an update. -/
theorem AtRest.serve_update [DecidableEq V] (h : AtRest cfg m f) (hk : op.key ≠ cfg.noKey)
    {c : Call K V} (hstart : op.start cfg = .searchRoot c .update)
    (hreb : c.shouldRebalance = false) (hres : c.result = cfg.noValue) (hkey : op.key = c.key)
    (hkind : op.inserts = false → c.kind = .erase) (hbind : ∀ o, op.binding o = c.binding o)
    {a : Answer V} (hans : ∀ c' : Call K V, c'.kind = c.kind →
      c'.result = (f c.key).getD cfg.noValue → (PC.ret c').answer cfg = some a) :
    ∃ m', Serves cfg m op a m' ∧ AtRest cfg m' (op.next f) ∧
      (op.inserts = false → (∀ q, q ≠ cfg.noKey → f q = none) → SameNodes m m') := by
  have hr := h.start hk
  rw [hstart] at hr
  obtain ⟨m', c', hrun, hkind', hresult, hs, hfine, hsame⟩ := h.update hr hreb hres
  refine ⟨m', ⟨.ret c', hstart ▸ hrun, hans c' hkind' hresult⟩,
    ⟨⟨.ret c', trivial, hrun.reachable hr⟩, ?_, hfine⟩, fun hins => hsame (hkind hins)⟩
  rw [Op.next, hbind, hkey]
  exact hs

/-- `contains` reads the map from the versions. -/
theorem AtRest.containsLoop (h : AtRest cfg m f) (hk : k ≠ cfg.noKey) :
    Cbat.containsLoop cfg.noKey k (m.node root).version = (f k).isSome := by
  obtain ⟨pc, -, hr⟩ := h.reachable
  obtain ⟨t, hB⟩ : ∃ t, Base cfg m t := hr.inv.base
  have hloop := hr.containsLoop_iff hk
  rw [solo_mem, Fine.mem_leafKeys h.fine hB .refl] at hloop
  rw [Bool.eq_iff_iff, hloop, Option.isSome_iff_exists]
  simp only [h.stores k hk]
  constructor
  · rintro ⟨y, hy, hl, hkey⟩
    exact ⟨_, y, hy, hl, hkey, rfl⟩
  · rintro ⟨v, y, hy, hl, hkey, -⟩
    exact ⟨y, hy, hl, hkey⟩

/-- `find` reads it from the nodes. -/
theorem AtRest.find (h : AtRest cfg m f) (hk : k ≠ cfg.noKey) :
    Runs cfg m (.findRoot k) m (.findRet ((f k).getD (missing cfg f)) (f k).isSome) := by
  obtain ⟨pc, -, hr⟩ := h.reachable
  obtain ⟨t, hB⟩ : ∃ t, Base cfg m t := hr.inv.base
  have hrun := runs_find hB h.stores hk
  by_cases h0 : (m.node (m.node root).left).left = 0
  · have hnone := (h.stores.empty_iff hB.tree).mp h0
    have hmiss : missing cfg f = cfg.noValue := if_pos (.inr hnone)
    rw [if_pos h0] at hrun
    rwa [hnone k hk, Option.getD_none, hmiss]
  · have hmiss : missing cfg f =
        if cfg.variant = .bat then cfg.noValue else cfg.initValue := by
      have hne := mt (h.stores.empty_iff hB.tree).mpr h0
      simp only [missing, hne, or_false]
    rw [if_neg h0] at hrun
    rw [hmiss]
    cases hf : f k with
    | none => rwa [hf] at hrun
    | some v => rwa [hf] at hrun

/-- **Every call ends, with its answer, and keeps what holds between calls.** -/
theorem AtRest.call [DecidableEq V] (h : AtRest cfg m f) (hk : op.key ≠ cfg.noKey) :
    ∃ m', Serves cfg m op ((treeObject cfg).answer f op) m' ∧
      AtRest cfg m' ((treeObject cfg).next f op) ∧
      (op.inserts = false → (∀ q, q ≠ cfg.noKey → f q = none) → SameNodes m m') := by
  have hrefl : op.inserts = false → (∀ q, q ≠ cfg.noKey → f q = none) → SameNodes m m := fun _ _ =>
    (Quiet.refl m).toSameNodes
  cases hop : op with
  | insert k v =>
      subst hop
      refine h.serve_update hk rfl rfl rfl rfl nofun (fun _ => rfl) fun c' hkind hresult => ?_
      simp only [PC.answer, hkind, hresult, treeObject, Op.answer]
  | insertIfAbsent k v =>
      subst hop
      refine h.serve_update hk rfl rfl rfl rfl nofun (fun _ => rfl) fun c' hkind hresult => ?_
      simp only [PC.answer, hkind, hresult, treeObject, Op.answer]
  | erase k =>
      subst hop
      refine h.serve_update hk rfl rfl rfl rfl (fun _ => rfl) (fun _ => rfl)
        fun c' hkind hresult => ?_
      simp only [PC.answer, hkind, hresult, treeObject]
  | find k =>
      subst hop
      have hrun := h.find hk
      exact ⟨m, ⟨_, hrun, rfl⟩, h.query hk rfl hrun trivial, hrefl⟩
  | contains k =>
      subst hop
      have hrun : Runs cfg m (.containsRoot k) m
          (.containsRet (Cbat.containsLoop cfg.noKey k (m.node root).version)) := .single rfl
      refine ⟨m, ⟨_, hrun, ?_⟩, h.query hk rfl hrun trivial, hrefl⟩
      exact congrArg (fun b => some (Answer.member b)) (h.containsLoop hk)

/-- The constructor. -/
theorem AtRest.init (cfg : Cfg K V) :
    AtRest cfg (.init cfg.noKey cfg.noValue) fun _ => none := by
  have hr : Reachable cfg (solo (.init cfg.noKey cfg.noValue) .idle) := solo_init cfg ▸ .refl
  refine ⟨⟨.idle, trivial, hr⟩, fun q hq v => iff_of_false (by intro h; cases h) ?_, fun x hx => ?_⟩
  · rintro ⟨x, -, -, hkey, -⟩
    refine hq (hkey.symm.trans ?_)
    simp only [Mem.init]
    split_ifs <;> rfl
  · by_cases hroot : x = root
    · subst hroot
      exact ⟨⟨2, 0, 0, rfl, fun _ => rfl⟩, (fun _ => by intro h; cases h), fun h => absurd rfl h⟩
    · have hnode : (Mem.init cfg.noKey cfg.noValue).node x =
        ⟨cfg.noKey, cfg.noValue, 1, 0, 0, false,
          false, .mk 1 cfg.noKey 0 .nil .nil 0⟩ := if_neg hroot
      unfold Fine Mirrors
      rw [hnode]
      exact ⟨⟨1, 0, 0, rfl, fun h => absurd rfl h⟩, fun h => absurd rfl h, fun h => absurd rfl h⟩

end Calls

/-! ### Histories -/

section Histories

/-- A thread that has returned makes no more steps. -/
theorem exec_of_answer [DecidableEq V] {pc : PC K V} {a : Answer V}
    (h : pc.answer cfg = some a) : exec cfg m pc = (m, pc) := by
  cases pc with
  | ret | findRet | containsRet => rfl
  | _ => exact nomatch h

theorem Runs.of_fixed {pc pc' : PC K V} (h : Runs cfg m pc m' pc')
    (hf : exec cfg m pc = (m, pc)) : m' = m ∧ pc' = pc := by
  induction h with
  | refl => exact ⟨rfl, rfl⟩
  | step he _ ih =>
      obtain ⟨rfl, rfl⟩ := Prod.mk.inj (he.symm.trans hf)
      exact ih hf

/-- **The runs to a return are unique.** -/
theorem Runs.unique {m₁ m₂ : Mem K V} {pc pc₁ pc₂ : PC K V} (h₁ : Runs cfg m pc m₁ pc₁)
    (h₂ : Runs cfg m pc m₂ pc₂) (hf₁ : exec cfg m₁ pc₁ = (m₁, pc₁))
    (hf₂ : exec cfg m₂ pc₂ = (m₂, pc₂)) : m₁ = m₂ ∧ pc₁ = pc₂ := by
  induction h₁ with
  | refl =>
      obtain ⟨rfl, rfl⟩ := h₂.of_fixed hf₁
      exact ⟨rfl, rfl⟩
  | step he hr ih =>
      cases h₂ with
      | refl =>
          obtain ⟨rfl, rfl⟩ := Prod.mk.inj (he.symm.trans hf₂)
          exact hr.of_fixed hf₂
      | step he' hr' =>
          obtain ⟨rfl, rfl⟩ := Prod.mk.inj (he.symm.trans he')
          exact ih hr' hf₁

theorem Serves.unique [DecidableEq V] {op : Op K V} {a a' : Answer V} {m₁ m₂ : Mem K V}
    (h : Serves cfg m op a m₁) (h' : Serves cfg m op a' m₂) : a = a' ∧ m₁ = m₂ := by
  obtain ⟨pc, hrun, ha⟩ := h
  obtain ⟨pc', hrun', ha'⟩ := h'
  obtain ⟨rfl, rfl⟩ := hrun.unique hrun' (exec_of_answer ha) (exec_of_answer ha')
  exact ⟨Option.some.inj (ha.symm.trans ha'), rfl⟩

variable [DecidableEq V] {ops : List (Op K V)} {as : List (Answer V)}

/-- **The histories of a thread that runs alone**, in all variants. -/
theorem AtRest.history (hops : ∀ op ∈ ops, op.key ≠ cfg.noKey) :
    ∃ m, History (Serves cfg) (.init cfg.noKey cfg.noValue) ops
        ((treeObject cfg).answers (fun _ => none) ops) m ∧
      AtRest cfg m ((treeObject cfg).after (fun _ => none) ops) :=
  History.of_simulation (S := treeObject cfg) (R := AtRest cfg) (P := fun op => op.key ≠ cfg.noKey)
    (fun _ _ _ hk h => (h.call hk).imp fun _ hc => ⟨hc.1, hc.2.1⟩) (AtRest.init cfg) ops hops

/-- Every history is this one. -/
theorem AtRest.of_history (hops : ∀ op ∈ ops, op.key ≠ cfg.noKey)
    (h : History (Serves cfg) (.init cfg.noKey cfg.noValue) ops as m) :
    as = (treeObject cfg).answers (fun _ => none) ops ∧
      AtRest cfg m ((mapObject cfg).after (fun _ => none) ops) := by
  obtain ⟨m', hh, hrest⟩ := AtRest.history hops
  obtain ⟨rfl, rfl⟩ := h.unique hh fun _ _ _ _ _ _ => Serves.unique
  exact ⟨rfl, hrest⟩

/-! ### Answers -/

omit [LinearOrder K] [DecidableEq V] in
/-- No key is bound to `NO_VALUE`. -/
def Valued (cfg : Cfg K V) (f : K → Option V) : Prop := ∀ q, f q ≠ some cfg.noValue

omit [LinearOrder K] [DecidableEq V] in
theorem Valued.empty (cfg : Cfg K V) : Valued cfg fun _ => none := fun _ => nofun

omit [DecidableEq V] in
theorem Valued.next {op : Op K V} (h : Valued cfg f) (hp : op.Proper cfg) :
    Valued cfg (op.next f) := by
  intro q
  by_cases hq : q = op.key
  · rw [hq, Op.next, Function.update_self]
    cases op with
    | insert k w => exact fun hv => hp.2 (Option.some.inj hv)
    | insertIfAbsent k w =>
        have hk := h k
        simp only [Op.binding, Op.key]
        cases hf : f k with
        | none => exact fun hv => hp.2 (Option.some.inj hv)
        | some w' =>
            rw [hf] at hk
            exact hk
    | erase k => exact nofun
    | find k => exact h k
    | contains k => exact h k
  · rw [Op.next, Function.update_of_ne hq]
    exact h q

omit [DecidableEq V] in
/-- The call is not a `find` of a key that is missing in a nonempty map. -/
def Op.Hits (cfg : Cfg K V) (f : K → Option V) : Op K V → Prop
  | .find k => f k ≠ none ∨ ∀ q, q ≠ cfg.noKey → f q = none
  | _ => True

/-- The code answers as the map does, except for a `find` of a missing key. -/
theorem answer_eq_iff (hf : Valued cfg f) (op : Op K V) :
    (treeObject cfg).answer f op = (mapObject cfg).answer f op ↔
      cfg.variant = .bat ∨ cfg.initValue = cfg.noValue ∨ op.Hits cfg f := by
  cases op with
  | find k =>
      simp only [treeObject, mapObject, Op.answer, Op.Hits, missing]
      cases hk : f k with
      | some v => simp
      | none =>
          by_cases hnone : ∀ q, q ≠ cfg.noKey → f q = none
          · exact iff_of_true (by rw [if_pos (.inr hnone)]) (.inr (.inr (.inr hnone)))
          · by_cases hv : cfg.variant = .bat
            · simp only [hv, true_or, if_true]
            · simp [hv, hnone]
  | erase k =>
      refine iff_of_true ?_ (.inr (.inr trivial))
      have hk := hf k
      simp only [treeObject, mapObject, Op.answer]
      cases hfk : f k with
      | none => simp
      | some v =>
          rw [hfk] at hk
          simp_all
  | insert | insertIfAbsent | contains => exact iff_of_true rfl (.inr (.inr trivial))

/-- No `find` of the sequence is. -/
def FindsHit (cfg : Cfg K V) : (K → Option V) → List (Op K V) → Prop
  | _, [] => True
  | f, op :: ops => op.Hits cfg f ∧ FindsHit cfg (op.next f) ops

theorem answers_eq_iff (hf : Valued cfg f) (hops : ∀ op ∈ ops, op.Proper cfg) :
    (treeObject cfg).answers f ops = (mapObject cfg).answers f ops ↔
      cfg.variant = .bat ∨ cfg.initValue = cfg.noValue ∨ FindsHit cfg f ops := by
  induction ops generalizing f with
  | nil => exact iff_of_true rfl (.inr (.inr trivial))
  | cons op ops ih =>
      have hp := hops op List.mem_cons_self
      have hrest : (treeObject cfg).answers ((treeObject cfg).next f op) ops =
          (mapObject cfg).answers ((mapObject cfg).next f op) ops ↔ _ :=
        ih (hf.next hp) fun o ho => hops o (List.mem_cons_of_mem _ ho)
      rw [SeqObject.answers_cons, SeqObject.answers_cons, List.cons_eq_cons,
        answer_eq_iff hf, hrest,
        FindsHit]
      tauto

/-- **BAT refines a finite map**: every sequence of calls has a history, in which every call has
returned what the map answers. -/
theorem bat_refines_map (hv : cfg.variant = .bat) (hops : ∀ op ∈ ops, op.Proper cfg) :
    (∃ m, History (Serves cfg) (.init cfg.noKey cfg.noValue) ops
        ((mapObject cfg).answers (fun _ => none) ops) m) ∧
      ∀ as m, History (Serves cfg) (.init cfg.noKey cfg.noValue) ops as m →
        as = (mapObject cfg).answers (fun _ => none) ops := by
  have hkeys : ∀ op ∈ ops, op.key ≠ cfg.noKey := fun op hop => (hops op hop).key
  have hans := (answers_eq_iff (Valued.empty cfg) hops).mpr (.inl hv)
  obtain ⟨m, hh, -⟩ := AtRest.history hkeys
  refine ⟨⟨m, hans ▸ hh⟩, fun as m h => ?_⟩
  exact (AtRest.of_history hkeys h).1.trans hans

theorem bat_refines_map_three :
    (∀ op ∈ [Op.insert 5 9, .find 6, .contains 5], op.Proper (⟨0, 0, 6, .bat, 0⟩ : Cfg ℕ ℕ)) ∧
      ∃ m, History (Serves (⟨0, 0, 6, .bat, 0⟩ : Cfg ℕ ℕ)) (.init 0 0)
        [.insert 5 9, .find 6, .contains 5] [.value 0, .found 0 false, .member true] m := by
  have hops : ∀ op ∈ [Op.insert 5 9, .find 6, .contains 5],
      op.Proper (⟨0, 0, 6, .bat, 0⟩ : Cfg ℕ ℕ) := by
    simp [Op.Proper]
  exact ⟨hops, (bat_refines_map rfl hops).1⟩

/-- **BAT-EagerDel refines a finite map** exactly when the value of an unassigned result is
`NO_VALUE`, or no `find` looks for a missing key in a nonempty map. -/
theorem eagerDel_refines_map (hv : cfg.variant = .eagerDel) (hops : ∀ op ∈ ops, op.Proper cfg) :
    (∃ as m, History (Serves cfg) (.init cfg.noKey cfg.noValue) ops as m) ∧
      ∀ as m, History (Serves cfg) (.init cfg.noKey cfg.noValue) ops as m →
        (as = (mapObject cfg).answers (fun _ => none) ops ↔
          cfg.initValue = cfg.noValue ∨ FindsHit cfg (fun _ => none) ops) := by
  have hkeys : ∀ op ∈ ops, op.key ≠ cfg.noKey := fun op hop => (hops op hop).key
  obtain ⟨m, hh, -⟩ := AtRest.history hkeys
  refine ⟨⟨_, m, hh⟩, fun as m h => ?_⟩
  rw [(AtRest.of_history hkeys h).1, answers_eq_iff (Valued.empty cfg) hops, hv]
  simp

theorem eagerDel_refines_map_hit :
    (∀ op ∈ [Op.insert 5 9, .find 5], op.Proper (⟨0, 7, 6, .eagerDel, 0⟩ : Cfg ℕ ℕ)) ∧
      ∃ as m, History (Serves (⟨0, 7, 6, .eagerDel, 0⟩ : Cfg ℕ ℕ)) (.init 0 7)
        [.insert 5 9, .find 5] as m := by
  have hops : ∀ op ∈ [Op.insert 5 9, .find 5], op.Proper (⟨0, 7, 6, .eagerDel, 0⟩ : Cfg ℕ ℕ) := by
    simp [Op.Proper]
  exact ⟨hops, (eagerDel_refines_map rfl hops).1⟩

/-- A `find` of a missing key returns the unassigned value, and not `NO_VALUE`. -/
theorem eagerDel_find_unassigned :
    (∀ op ∈ [Op.insert 5 9, .find 6], op.Proper (⟨0, 7, 6, .eagerDel, 0⟩ : Cfg ℕ ℕ)) ∧
      (mapObject (⟨0, 7, 6, .eagerDel, 0⟩ : Cfg ℕ ℕ)).answers (fun _ => none)
        [.insert 5 9, .find 6] = [.value 7, .found 7 false] ∧
      ∃ m, History (Serves (⟨0, 7, 6, .eagerDel, 0⟩ : Cfg ℕ ℕ)) (.init 0 7)
        [.insert 5 9, .find 6] [.value 7, .found 0 false] m := by
  refine ⟨by simp [Op.Proper], rfl, ?_⟩
  have hops : ∀ op ∈ [Op.insert 5 9, .find 6], op.key ≠ 0 := by
    simp [Op.key]
  obtain ⟨m, hh, -⟩ := @AtRest.history ℕ ℕ _ ⟨0, 7, 6, .eagerDel, 0⟩ _ _ hops
  have hfive : ¬ ∀ q, q ≠ 0 → Op.next (fun _ => none) (.insert 5 9) q = none := by
    intro h
    cases h 5 (by decide)
  have hmiss : missing (⟨0, 7, 6, .eagerDel, 0⟩ : Cfg ℕ ℕ)
      (Op.next (fun _ => none) (.insert 5 9)) = 0 := if_neg (by simpa using hfive)
  have hans : (treeObject (⟨0, 7, 6, .eagerDel, 0⟩ : Cfg ℕ ℕ)).answers (fun _ => none)
      [.insert 5 9, .find 6] = [.value 7, .found 0 false] := by
    simp only [SeqObject.answers_cons, SeqObject.answers_nil, treeObject, Op.answer, hmiss]
    rfl
  exact ⟨m, hans ▸ hh⟩

/-! ### The versions between two calls -/

/-- **The versions mirror the nodes between the calls**: every sequence of calls runs to its end;
then the version of every node of the tree has the key of the node, the current versions of its
children and the sum of theirs; and no step of the next call reads a null pointer or the top of an
empty stack. -/
theorem versions_mirror (hops : ∀ op ∈ ops, op.key ≠ cfg.noKey) :
    (∃ as m, History (Serves cfg) (.init cfg.noKey cfg.noValue) ops as m) ∧
      ∀ as m, History (Serves cfg) (.init cfg.noKey cfg.noValue) ops as m →
        (∀ x, Live m x → Mirrors m x) ∧
        ∀ op : Op K V, op.key ≠ cfg.noKey →
          ∀ m' pc', Runs cfg m (op.start cfg) m' pc' → pc' ≠ .crash := by
  obtain ⟨m, hh, -⟩ := AtRest.history hops
  refine ⟨⟨_, m, hh⟩, fun as m h => ?_⟩
  have hrest := (AtRest.of_history hops h).2
  refine ⟨fun x hx => (hrest.fine x hx).1, fun op hp m' pc' hrun => ?_⟩
  exact (hrun.reachable (hrest.start hp)).ne_crash 0

theorem versions_mirror_two :
    (∀ op ∈ [Op.insert 5 9, .erase 5], op.key ≠ 0) ∧
      ∃ as m, History (Serves (⟨0, 7, 6, .bat, 0⟩ : Cfg ℕ ℕ)) (.init 0 7)
        [.insert 5 9, .erase 5] as m := by
  have hops : ∀ op ∈ [Op.insert 5 9, .erase 5], op.key ≠ 0 := by
    simp [Op.key]
  exact ⟨hops, (@versions_mirror ℕ ℕ _ ⟨0, 7, 6, .bat, 0⟩ _ _ hops).1⟩

end Histories

end Cbat
