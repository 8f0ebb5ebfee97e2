/-
**The trees that the updates build.**

An insertion replaces the leaf in which its search ends by a new leaf, or by an internal node with
two leaves; a deletion replaces the parent of a leaf by a copy of its sibling.  Both keep the
weights of all paths.  So every tree that insertions, deletions and rebalancing steps build from the
empty tree satisfies the weight invariant, and a tree with no violation left is balanced.

Main definitions:

* `Cbat.Chromatic.insertInto`, `Cbat.Chromatic.eraseFrom` — the updates as functions of the tree
  below the sentinels;
* `Cbat.Chromatic.Reached` — **the trees reached from the empty tree**.

Main results:

* `Cbat.Chromatic.updateInsert_holding`, `Cbat.Chromatic.updateErase_holding` — what the code
  computes;
* `Cbat.Chromatic.reached_chromatic` — **every tree reached satisfies the weight invariant**;
* `Cbat.Chromatic.height_le_of_no_violation` — **the height bound**.
-/

import Cbat.Chromatic.Contents
import Mathlib.Data.Nat.Log

set_option relaxedAutoImplicit false
set_option autoImplicit false

namespace Cbat.Chromatic

variable {K V : Type}

/-! ### Trees without a violation -/

section Height

variable {t : Tree K V} {h pw : ℤ}

/-- There is no violation in the tree; `pw` is the weight of the node above. -/
def Sound : ℤ → Tree K V → Prop
  | pw, .leaf a => a.weight ≤ 1 ∧ (a.weight ≠ 0 ∨ pw ≠ 0)
  | pw, .node a l r => (a.weight ≤ 1 ∧ (a.weight ≠ 0 ∨ pw ≠ 0)) ∧ Sound a.weight l ∧
      Sound a.weight r

theorem Sound.label (hs : Sound pw t) : wt t ≤ 1 ∧ (wt t ≠ 0 ∨ pw ≠ 0) := by
  cases t with
  | leaf a => exact hs
  | node a l r => exact hs.1

/-- **A tree without violations has many leaves.** -/
theorem Fits.two_pow_le (hf : Fits h t) (hs : Sound pw t) :
    2 ^ (h.toNat - 1) ≤ t.leaves.length := by
  induction t generalizing h pw with
  | leaf a =>
      have h1 : h.toNat - 1 = 0 := by
        have := hf.2
        have := hs.1
        omega
      simp [h1]
  | node a l r ihl ihr =>
      obtain ⟨⟨ha, -⟩, hsl, hsr⟩ := hs
      obtain ⟨ha0, hfl, hfr⟩ := hf
      have := hfl.pos
      calc 2 ^ (h.toNat - 1) ≤ 2 ^ ((h - a.weight).toNat - 1 + 1) :=
            Nat.pow_le_pow_right (by omega) (by omega)
        _ = 2 ^ ((h - a.weight).toNat - 1) + 2 ^ ((h - a.weight).toNat - 1) := by
            rw [pow_succ, mul_two]
        _ ≤ (LTree.node a l r).leaves.length := by
            rw [LTree.leaves_node, List.length_append]
            exact Nat.add_le_add (ihl hfl hsl) (ihr hfr hsr)

/-- **A path without violations is at most twice as long as it is heavy.** -/
theorem Fits.length_le (hf : Fits h t) (hs : Sound pw t) {p : List (Item K V)} (hp : p ∈ t.paths) :
    (p.length : ℤ) + wt t ≤ 2 * h := by
  induction t generalizing h pw p with
  | leaf a =>
      obtain rfl := LTree.mem_paths_leaf.mp hp
      have := hf.1
      have := hf.2
      simp only [List.length_singleton, wt_leaf, Nat.cast_one]
      omega
  | node a l r ihl ihr =>
      obtain ⟨⟨ha, -⟩, hsl, hsr⟩ := hs
      obtain ⟨ha0, hfl, hfr⟩ := hf
      obtain ⟨q, hq | hq, rfl⟩ := LTree.mem_paths_node.mp hp
      · have := ihl hfl hsl hq
        have := hsl.label
        have := hfl.wt_nonneg
        simp only [List.length_cons, wt_node, Nat.cast_add, Nat.cast_one]
        omega
      · have := ihr hfr hsr hq
        have := hsr.label
        have := hfr.wt_nonneg
        simp only [List.length_cons, wt_node, Nat.cast_add, Nat.cast_one]
        omega

end Height

/-! ### The updates as functions of trees -/

/-- The tree is a single leaf. -/
def isLeaf : Tree K V → Bool
  | .leaf _ => true
  | .node _ _ _ => false

/-- The sibling takes the place of its parent. -/
theorem raised_fits {top : Bool} {h : ℤ} {a : Item K V} {c : Tree K V} (ha : 0 ≤ a.weight)
    (hf : Fits (h - a.weight) c) :
    ∃ h', Fits h' (recolor c (if top then 1 else a.weight + wt c)) ∧ (top = false → h' = h) := by
  cases top with
  | true => exact ⟨_, hf.recolored le_rfl rfl, nofun⟩
  | false =>
      refine ⟨h, hf.heavier ?_ ?_, fun _ => rfl⟩ <;> simp only [Bool.false_eq_true, if_false] <;>
        omega

variable [LinearOrder K]

section Functions

variable (key : K)

/-- The subtree that an insertion puts in the place of the leaf `l`. -/
def grown (val : V) (top : Bool) (l : Item K V) : Tree K V :=
  if key < l.key then
    .node ⟨l.key, l.value, if top then 1 else l.weight - 1⟩ (.leaf ⟨key, val, 1⟩)
      (.leaf ⟨l.key, l.value, 1⟩)
  else
    .node ⟨key, val, if top then 1 else l.weight - 1⟩ (.leaf ⟨l.key, l.value, 1⟩)
      (.leaf ⟨key, val, 1⟩)

/-- The tree after an insertion. -/
def insertInto (val : V) : Bool → Tree K V → Tree K V
  | top, .leaf a => if key = a.key then .leaf ⟨key, val, a.weight⟩ else grown key val top a
  | _, .node a l r =>
      if key < a.key then .node a (insertInto val false l) r
      else .node a l (insertInto val false r)

/-- The tree after the deletion of a leaf that has a parent. -/
def eraseFrom : Bool → Tree K V → Tree K V
  | _, .leaf a => .leaf a
  | top, .node a l r =>
      if key < a.key then
        if isLeaf l then recolor r (if top then 1 else a.weight + wt r)
        else .node a (eraseFrom false l) r
      else
        if isLeaf r then recolor l (if top then 1 else a.weight + wt l)
        else .node a l (eraseFrom false r)

end Functions

/-! ### What the code computes -/

variable {cfg : Cfg K V} {s : Item K V} {T : Tree K V} {key : K} {val : V}

/-- The flag of the subtrees below a node: only the topmost one is below a sentinel. -/
theorem insertedSubtree_eq {p l : Item K V} {top : Bool} (hp : top = decide (p.key = cfg.noKey))
    (hl : l.key ≠ cfg.noKey) :
    insertedSubtree cfg key val p l = (grown key val top l).ptr := by
  rcases hv : cfg.variant <;> by_cases hlt : key < l.key <;>
    simp [insertedSubtree, grown, isSentinel, initializeNode, hp, hl, hlt, hv]

/-- **An insertion**, from a node on its path on. -/
theorem insertAt_spec {t : Tree K V} (hreal : Real cfg.noKey t) {above : List (Link K V)}
    {p : Link K V} {top : Bool} (hp : top = decide (p.node.key = cfg.noKey)) (b : Bool) :
    (searchLoop (fun _ _ => true) (byKey key) above p t.ptr >>= insertAt cfg key val b) =
      if key = (t.leafAt Item.key key).key ∧ b = true then .error .finish
      else .ok (plug (p :: above) (insertInto key val top t).ptr) := by
  induction t generalizing above p top with
  | leaf a =>
      rw [real_leaf] at hreal
      rw [LTree.ptr_leaf, searchLoop, isNull, if_neg (by simp), ok_bind, insertAt,
        insertedSubtree_eq hp hreal]
      by_cases hk : key = a.key <;> cases b <;> simp [hk, insertInto, initializeNode] <;> rfl
  | node a l r ihl ihr =>
      rw [real_node] at hreal
      have ha : false = decide (a.key = cfg.noKey) := by simp [hreal.1]
      by_cases hlt : key < a.key
      · have := @ihl hreal.2.1 (p :: above) ⟨true, a, l.ptr, r.ptr⟩ false ha
        simpa [searchLoop, isNull_ptr, byKey, hlt, LTree.leafAt_node, insertInto, plug, Link.set]
          using this
      · have := @ihr hreal.2.2 (p :: above) ⟨false, a, l.ptr, r.ptr⟩ false ha
        simpa [searchLoop, isNull_ptr, byKey, hlt, LTree.leafAt_node, insertInto, plug, Link.set]
          using this

/-- The deletion of the leaf `b`, a child of `a`: the sibling `c` takes the place of `a`. -/
theorem eraseAt_leaf {above : List (Link K V)} {p : Link K V} {a b : Item K V} {c : Tree K V}
    {e top : Bool} (ha : a.key ≠ cfg.noKey) (hp : top = decide (p.node.key = cfg.noKey)) :
    eraseAt cfg key ⟨p :: above, ⟨e, load (branch e a (.leaf b) c)⟩, ⟨b, .nil, .nil⟩⟩ =
      if key = b.key then
        .ok (plug (p :: above) (recolor c (if top then 1 else a.weight + wt c)).ptr)
      else .error .finish := by
  by_cases hk : key = b.key
  · cases e <;> simp [eraseAt, hk, isSentinel, ha, hp]
  · simp [eraseAt, hk]
    rfl

/-- **A deletion**, from a node on its path on. -/
theorem eraseAt_spec {t : Tree K V} (hreal : Real cfg.noKey t) (hnode : isLeaf t = false)
    {above : List (Link K V)} {p : Link K V} {top : Bool}
    (hp : top = decide (p.node.key = cfg.noKey)) :
    (searchLoop (fun _ _ => true) (byKey key) above p t.ptr >>= eraseAt cfg key) =
      if key = (t.leafAt Item.key key).key then
        .ok (plug (p :: above) (eraseFrom key top t).ptr)
      else .error .finish := by
  induction t generalizing above p top with
  | leaf a => cases hnode
  | node a l r ihl ihr =>
      rw [real_node] at hreal
      have ha : false = decide (a.key = cfg.noKey) := by simp [hreal.1]
      by_cases hlt : key < a.key
      · cases l with
        | leaf b =>
            have := @eraseAt_leaf K V _ cfg key above p a b r true top hreal.1 hp
            simpa [searchLoop, isNull, byKey, hlt, LTree.leafAt_node, eraseFrom, isLeaf, ok_bind]
              using this
        | node b x y =>
            have := @ihl hreal.2.1 rfl (p :: above) ⟨true, a, (LTree.node b x y).ptr, r.ptr⟩ false
              ha
            rw [LTree.ptr_node, searchLoop, isNull_ptr]
            simpa [byKey, hlt, LTree.leafAt_node, eraseFrom, isLeaf, plug, Link.set] using this
      · cases r with
        | leaf b =>
            have := @eraseAt_leaf K V _ cfg key above p a b l false top hreal.1 hp
            rw [LTree.ptr_node, searchLoop, isNull_ptr]
            simpa [searchLoop, isNull, byKey, hlt, LTree.leafAt_node, eraseFrom, isLeaf, ok_bind]
              using this
        | node b x y =>
            have := @ihr hreal.2.2 rfl (p :: above) ⟨false, a, l.ptr, (LTree.node b x y).ptr⟩ false
              ha
            rw [LTree.ptr_node, searchLoop, isNull_ptr]
            simpa [byKey, hlt, LTree.leafAt_node, eraseFrom, isLeaf, plug, Link.set] using this

theorem searchLeaf_holding : searchLeaf key (holding cfg s T) =
    searchLoop (fun _ _ => true) (byKey key) [rootLink cfg s T] (entryLink cfg s T) T.ptr := by
  simp [searchLeaf, holding, ok_bind, isNull_ptr, entryLink, rootLink]

/-- **`updateInsert`** on a tree that is not empty. -/
theorem updateInsert_holding (hreal : Real cfg.noKey T) (b : Bool) :
    updateInsert cfg key (holding cfg s T) val b =
      if key = (T.leafAt Item.key key).key ∧ b = true then .error .finish
      else .ok (holding cfg s (insertInto key val true T)) := by
  rw [updateInsert, searchLeaf_holding]
  exact insertAt_spec hreal (by simp [entryLink, sentinel]) b

/-- **`updateErase`** on a tree with two keys or more. -/
theorem updateErase_holding (hreal : Real cfg.noKey T) (hnode : isLeaf T = false) :
    updateErase cfg key (holding cfg s T) =
      if key = (T.leafAt Item.key key).key then .ok (holding cfg s (eraseFrom key true T))
      else .error .finish := by
  rw [updateErase, searchLeaf_holding]
  exact eraseAt_spec hreal hnode (by simp [entryLink, sentinel])

/-- `updateErase` on a tree with one key. -/
theorem updateErase_single {a : Item K V} (hs : s.key = cfg.noKey) (hv : s.value = cfg.noValue) :
    updateErase cfg key (holding cfg s (.leaf a)) =
      if key = a.key then .ok (emptyTree cfg) else .error .finish := by
  rw [updateErase, searchLeaf_holding, LTree.ptr_leaf, searchLoop, isNull, if_neg (by simp),
    ok_bind]
  by_cases hk : key = a.key
  · simp [eraseAt, hk, entryLink, rootLink, plug, Link.set, emptyTree, isSentinel, sentinel,
      initializeNode, hs, hv]
  · simp [eraseAt, hk]
    rfl

/-- `updateInsert` on the tree without keys. -/
theorem updateInsert_empty (hk : key ≠ cfg.noKey) (b : Bool) : ∃ w : ℤ, 0 ≤ w ∧
    updateInsert cfg key (emptyTree cfg) val b =
      .ok (holding cfg ⟨cfg.noKey, cfg.noValue, w⟩ (.leaf ⟨key, val, 1⟩)) := by
  refine ⟨if cfg.variant = .bat then 1 else 0, by split_ifs <;> decide, ?_⟩
  cases hv : cfg.variant <;>
    simp [updateInsert, searchLeaf, emptyTree, ok_bind, isNull, insertAt, hk, hv, holding, sentinel,
      insertedSubtree, isSentinel, initializeNode, plug, Link.set] <;> rfl

/-! ### What the updates keep -/

section Keep

variable {top : Bool} {t : Tree K V} {h : ℤ}

theorem grown_fits {a : Item K V} (hf : Fits h (.leaf a)) :
    ∃ h', Fits h' (grown key val top a) ∧ (top = false → h' = h) := by
  obtain ⟨h1, rfl⟩ := hf
  refine ⟨if top then 2 else a.weight, ?_, fun ht => by simp [ht]⟩
  cases top <;> by_cases hlt : key < a.key <;> simp [grown, hlt, h1]

theorem insertInto_fits (hf : Fits h t) :
    ∃ h', Fits h' (insertInto key val top t) ∧ (top = false → h' = h) := by
  induction t generalizing h top with
  | leaf a =>
      by_cases hk : key = a.key
      · exact ⟨h, by simpa [insertInto, hk] using hf, fun _ => rfl⟩
      · simpa [insertInto, hk] using grown_fits hf
  | node a l r ihl ihr =>
      refine ⟨h, ?_, fun _ => rfl⟩
      by_cases hlt : key < a.key
      · obtain ⟨h', hf', he⟩ := @ihl false _ hf.2.1
        rw [insertInto, if_pos hlt]
        exact ⟨hf.1, he rfl ▸ hf', hf.2.2⟩
      · obtain ⟨h', hf', he⟩ := @ihr false _ hf.2.2
        rw [insertInto, if_neg hlt]
        exact ⟨hf.1, hf.2.1, he rfl ▸ hf'⟩

theorem eraseFrom_fits (hf : Fits h t) :
    ∃ h', Fits h' (eraseFrom key top t) ∧ (top = false → h' = h) := by
  induction t generalizing h top with
  | leaf a => exact ⟨h, hf, fun _ => rfl⟩
  | node a l r ihl ihr =>
      by_cases hlt : key < a.key
      · rw [eraseFrom, if_pos hlt]
        by_cases hl : isLeaf l = true
        · rw [if_pos hl]
          exact raised_fits hf.1 hf.2.2
        · rw [if_neg hl]
          obtain ⟨h', hf', he⟩ := @ihl false _ hf.2.1
          exact ⟨h, ⟨hf.1, he rfl ▸ hf', hf.2.2⟩, fun _ => rfl⟩
      · rw [eraseFrom, if_neg hlt]
        by_cases hr : isLeaf r = true
        · rw [if_pos hr]
          exact raised_fits hf.1 hf.2.1
        · rw [if_neg hr]
          obtain ⟨h', hf', he⟩ := @ihr false _ hf.2.2
          exact ⟨h, ⟨hf.1, hf.2.1, he rfl ▸ hf'⟩, fun _ => rfl⟩

variable {noKey : K} {lo : WithBot K} {hi : WithTop K}

theorem insertInto_real (hk : key ≠ noKey) (ht : Real noKey t) :
    Real noKey (insertInto key val top t) := by
  induction t generalizing top with
  | leaf a =>
      rw [real_leaf] at ht
      by_cases he : key = a.key <;> by_cases hlt : key < a.key <;>
        simp [insertInto, grown, he, hlt, hk, ht]
  | node a l r ihl ihr =>
      rw [real_node] at ht
      by_cases hlt : key < a.key
      · simpa [insertInto, hlt] using ⟨ht.1, ihl ht.2.1, ht.2.2⟩
      · simpa [insertInto, hlt] using ⟨ht.1, ht.2.1, ihr ht.2.2⟩

/-- A deletion raises a child of the topmost node, or goes on below. -/
theorem eraseFrom_cases (key : K) (top : Bool) (a : Item K V) (l r : Tree K V) :
    (∃ w, (top = true → w = 1) ∧ eraseFrom key top (.node a l r) = recolor r w) ∨
    (∃ w, (top = true → w = 1) ∧ eraseFrom key top (.node a l r) = recolor l w) ∨
    eraseFrom key top (.node a l r) = .node a (eraseFrom key false l) r ∨
    eraseFrom key top (.node a l r) = .node a l (eraseFrom key false r) := by
  by_cases hlt : key < a.key
  · by_cases hl : isLeaf l = true
    · refine .inl ⟨if top then 1 else a.weight + wt r, fun ht => if_pos ht, ?_⟩
      simp only [eraseFrom, hlt, hl, if_true]
    · exact .inr (.inr (.inl (by simp [eraseFrom, hlt, hl])))
  · by_cases hr : isLeaf r = true
    · refine .inr (.inl ⟨if top then 1 else a.weight + wt l, fun ht => if_pos ht, ?_⟩)
      simp only [eraseFrom, hlt, hr, if_true, if_false]
    · exact .inr (.inr (.inr (by simp [eraseFrom, hlt, hr])))

theorem eraseFrom_real (ht : Real noKey t) : Real noKey (eraseFrom key top t) := by
  induction t generalizing top with
  | leaf a => exact ht
  | node a l r ihl ihr =>
      rw [real_node] at ht
      rcases eraseFrom_cases key top a l r with ⟨w, -, he⟩ | ⟨w, -, he⟩ | he | he <;> rw [he]
      · exact real_recolor.mpr ht.2.2
      · exact real_recolor.mpr ht.2.1
      · exact real_node.mpr ⟨ht.1, ihl ht.2.1, ht.2.2⟩
      · exact real_node.mpr ⟨ht.1, ht.2.1, ihr ht.2.2⟩

theorem insertInto_within (hlo : lo ≤ (key : WithBot K)) (hhi : (key : WithTop K) < hi)
    (ht : t.Within Item.key lo hi) : (insertInto key val top t).Within Item.key lo hi := by
  induction t generalizing top lo hi with
  | leaf a =>
      obtain ⟨halo, hahi⟩ := ht
      rw [insertInto]
      by_cases he : key = a.key
      · rw [if_pos he]
        exact ⟨hlo, hhi⟩
      · rw [if_neg he, grown]
        by_cases hlt : key < a.key
        · rw [if_pos hlt]
          exact ⟨⟨hlo, WithTop.coe_lt_coe.mpr hlt⟩, le_rfl, hahi⟩
        · rw [if_neg hlt]
          have hgt : a.key < key := lt_of_le_of_ne (not_lt.mp hlt) (Ne.symm he)
          exact ⟨⟨halo, WithTop.coe_lt_coe.mpr hgt⟩, le_rfl, hhi⟩
  | node a l r ihl ihr =>
      rw [insertInto]
      split_ifs with hlt
      · exact ⟨ihl hlo (WithTop.coe_lt_coe.mpr hlt) ht.1, ht.2⟩
      · exact ⟨ht.1, ihr (WithBot.coe_le_coe.mpr (not_lt.mp hlt)) hhi ht.2⟩

theorem eraseFrom_within (ht : t.Within Item.key lo hi) :
    (eraseFrom key top t).Within Item.key lo hi := by
  induction t generalizing top lo hi with
  | leaf a => exact ht
  | node a l r ihl ihr =>
      obtain ⟨hlo, hhi⟩ := ht.key_between
      rcases eraseFrom_cases key top a l r with ⟨w, -, he⟩ | ⟨w, -, he⟩ | he | he <;> rw [he]
      · exact within_recolor.mpr (ht.2.mono hlo le_rfl)
      · exact within_recolor.mpr (ht.1.mono le_rfl hhi.le)
      · exact ⟨ihl ht.1, ht.2⟩
      · exact ⟨ht.1, ihr ht.2⟩

theorem grown_top {a : Item K V} : wt (grown key val true a) = 1 := by
  by_cases hlt : key < a.key <;> simp [grown, hlt]

theorem insertInto_top (h1 : wt t = 1) : wt (insertInto key val true t) = 1 := by
  cases t with
  | leaf a =>
      rw [insertInto]
      split_ifs
      · exact h1
      · exact grown_top
  | node a l r =>
      rw [insertInto]
      split_ifs <;> exact h1

theorem eraseFrom_top (h1 : wt t = 1) : wt (eraseFrom key true t) = 1 := by
  cases t with
  | leaf a => exact h1
  | node a l r =>
      rcases eraseFrom_cases key true a l r with ⟨w, hw, he⟩ | ⟨w, hw, he⟩ | he | he <;> rw [he]
      · rw [wt_recolor, hw rfl]
      · rw [wt_recolor, hw rfl]
      · exact h1
      · exact h1

theorem insertInto_valid (hk : key ≠ cfg.noKey) (hT : Valid cfg T) :
    Valid cfg (insertInto key val true T) := by
  obtain ⟨h, hf⟩ := hT.fits
  obtain ⟨h', hf', -⟩ := @insertInto_fits K V _ key val true T h hf
  exact .of_fits (insertInto_real hk hT.real) (insertInto_top hT.top_weight) hf'

theorem eraseFrom_valid (hT : Valid cfg T) : Valid cfg (eraseFrom key true T) := by
  obtain ⟨h, hf⟩ := hT.fits
  obtain ⟨h', hf', -⟩ := @eraseFrom_fits K V _ key true T h hf
  exact .of_fits (eraseFrom_real hT.real) (eraseFrom_top hT.top_weight) hf'

end Keep

/-! ### The trees reached -/

/-- **The trees reached from the empty tree** by insertions, replacements, deletions and rebalancing
steps.  The key of the sentinels is not inserted. -/
inductive Reached (cfg : Cfg K V) : Ptr K V → Prop
  | init : Reached cfg (emptyTree cfg)
  | insert {root root' : Ptr K V} {key : K} {val : V} {onlyIfAbsent : Bool}
      (h : Reached cfg root) (hk : key ≠ cfg.noKey)
      (hr : updateInsert cfg key root val onlyIfAbsent = .ok root') : Reached cfg root'
  | erase {root root' : Ptr K V} {key : K} (h : Reached cfg root)
      (hr : updateErase cfg key root = .ok root') : Reached cfg root'
  | rebalance {root root' : Ptr K V} {key : K} (h : Reached cfg root)
      (hr : updateRebalancingStep cfg key root = .ok root') : Reached cfg root'

/-- **What is known of a tree reached**: it is the empty tree, or a search tree that satisfies the
weight invariant is below the sentinels. -/
def WellFormed (cfg : Cfg K V) (root : Ptr K V) : Prop :=
  root = emptyTree cfg ∨ ∃ (w : ℤ) (T : Tree K V), 0 ≤ w ∧
    root = holding cfg ⟨cfg.noKey, cfg.noValue, w⟩ T ∧ Valid cfg T ∧ Separated T

theorem WellFormed.insert {root root' : Ptr K V} {b : Bool} (hc : WellFormed cfg root)
    (hk : key ≠ cfg.noKey) (hr : updateInsert cfg key root val b = .ok root') :
    WellFormed cfg root' := by
  rcases hc with rfl | ⟨w, T, hw, rfl, hT, ho⟩
  · obtain ⟨w, hw, he⟩ := @updateInsert_empty K V _ cfg key val hk b
    cases he.symm.trans hr
    refine .inr ⟨w, _, hw, rfl, .of_fits (h := 1) ?_ rfl ⟨le_rfl, rfl⟩, trivial⟩
    simpa using hk
  · rw [updateInsert_holding hT.real] at hr
    split_ifs at hr
    cases hr
    refine .inr ⟨w, _, hw, rfl, insertInto_valid hk hT, ?_⟩
    rw [separated_iff_within] at ho ⊢
    exact insertInto_within bot_le (WithTop.coe_lt_top _) ho

theorem WellFormed.erase {root root' : Ptr K V} (hc : WellFormed cfg root)
    (hr : updateErase cfg key root = .ok root') : WellFormed cfg root' := by
  rcases hc with rfl | ⟨w, T, hw, rfl, hT, ho⟩
  · cases hr
  · cases T with
    | leaf a =>
        rw [updateErase_single rfl rfl] at hr
        split_ifs at hr
        cases hr
        exact .inl rfl
    | node a l r =>
        rw [updateErase_holding hT.real rfl] at hr
        split_ifs at hr
        cases hr
        refine .inr ⟨w, _, hw, rfl, eraseFrom_valid hT, ?_⟩
        rw [separated_iff_within] at ho ⊢
        exact eraseFrom_within ho

theorem WellFormed.rebalance {root root' : Ptr K V} (hc : WellFormed cfg root)
    (hr : updateRebalancingStep cfg key root = .ok root') : WellFormed cfg root' := by
  rcases hc with rfl | ⟨w, T, hw, rfl, hT, ho⟩
  · cases hr
  · rcases updateRebalancingStep_spec (s := ⟨cfg.noKey, cfg.noValue, w⟩) hT key with
      ⟨he, -⟩ | ⟨T', he, hs⟩
    · cases he.symm.trans hr
    · cases he.symm.trans hr
      refine .inr ⟨w, T', hw, rfl, hs.valid hT, ?_⟩
      rw [separated_iff_within] at ho ⊢
      exact hs.within ho

/-- **Every tree reached satisfies the weight invariant.** -/
theorem reached_chromatic {root : Ptr K V} (h : Reached cfg root) : WellFormed cfg root := by
  induction h with
  | init => exact .inl rfl
  | insert _ hk hr ih => exact ih.insert hk hr
  | erase _ hr ih => exact ih.erase hr
  | rebalance _ hr ih => exact ih.rebalance hr

theorem redChain_reached : Reached plain (holding plain (sentinel plain) redChain) := by
  have h₁ := @Reached.insert ℕ ℕ _ plain _ _ 10 1 false .init (by decide) rfl
  have h₂ := @Reached.insert ℕ ℕ _ plain _ _ 20 2 false h₁ (by decide) rfl
  have h₃ := @Reached.insert ℕ ℕ _ plain _ _ 30 3 false h₂ (by decide) rfl
  exact @Reached.insert ℕ ℕ _ plain _ _ 40 4 false h₃ (by decide) rfl

theorem redChain_wellFormed : Reached plain (holding plain (sentinel plain) redChain) ∧
    WellFormed plain (holding plain (sentinel plain) redChain) :=
  ⟨redChain_reached, reached_chromatic redChain_reached⟩

/-! ### The height -/

section Height

variable {t : Tree K V} {h pw : ℤ}

/-- **Every node lies on the path of a key.** -/
theorem sound_of_clean {lo : WithBot K} {hi : WithTop K} (ho : t.Within Item.key lo hi)
    (hc : ∀ key : K, lo ≤ (key : WithBot K) → (key : WithTop K) < hi →
      Clean (byKey key 0) pw t) : Sound pw t := by
  induction t generalizing pw lo hi with
  | leaf a => exact hc a.key ho.1 ho.2
  | node a l r ihl ihr =>
      obtain ⟨hlo, hhi⟩ := ho.key_between
      have hr : ∀ key : K, (a.key : WithBot K) ≤ key → (key : WithTop K) < hi →
          (a.weight ≤ 1 ∧ (a.weight ≠ 0 ∨ pw ≠ 0)) ∧ Clean (byKey key 0) a.weight r := by
        intro key hk hkhi
        have hge : ¬ key < a.key := not_lt.mpr (WithBot.coe_le_coe.mp hk)
        simpa [Clean, byKey, hge] using hc key (hlo.trans hk) hkhi
      refine ⟨(hr a.key le_rfl hhi).1, ihl ho.1 fun key hk hka => ?_,
        ihr ho.2 fun key hk hkhi => (hr key hk hkhi).2⟩
      have hlt : key < a.key := WithTop.coe_lt_coe.mp hka
      have := hc key hk (hka.trans hhi)
      simp only [Clean, byKey, hlt, decide_true, if_true] at this
      exact this.2

/-- No call finds a violation on the path of any key. -/
theorem sound_of_finish (hT : Valid cfg T) (ho : Separated T)
    (hfin : ∀ key, updateRebalancingStep cfg key (holding cfg s T) = .error .finish) :
    Sound 1 T := by
  refine sound_of_clean (separated_iff_within.mp ho) fun key _ _ => ?_
  rcases updateRebalancingStep_spec (s := s) hT key with ⟨-, hle, hchain⟩ | ⟨T', he, -⟩
  · exact clean_iff_path.mpr ⟨hle, hchain, .inr one_ne_zero⟩
  · cases he.symm.trans (hfin key)

/-- **The height bound**: when no rebalancing step finds a violation in a tree reached, a path from
the top down to a leaf has at most `2 * log₂ n + 1` nodes, where `n` is the number of keys. -/
theorem height_le_of_no_violation (hr : Reached cfg (holding cfg s T))
    (hfin : ∀ key, updateRebalancingStep cfg key (holding cfg s T) = .error .finish)
    {p : List (Item K V)} (hp : p ∈ T.paths) : p.length ≤ 2 * Nat.log 2 T.leaves.length + 1 := by
  rcases reached_chromatic hr with he | ⟨w, T', -, he, hT, ho⟩
  · exact absurd he holding_ne_emptyTree
  · obtain ⟨rfl, rfl⟩ := holding_injective he
    obtain ⟨h, hf⟩ := hT.fits
    have hs := sound_of_finish hT ho hfin
    have hlog : h.toNat - 1 ≤ Nat.log 2 T.leaves.length :=
      (Nat.le_log_iff_pow_le one_lt_two (by simp [LTree.leaves_ne_nil])).mpr (hf.two_pow_le hs)
    have hlen := hf.length_le hs hp
    have htop : wt T = 1 := hT.top_weight
    have := hf.pos
    omega

/-- The tree after the insertions of 10 and 20. -/
def pair : Tree ℕ ℕ := .node ⟨20, 2, 1⟩ (.leaf ⟨10, 1, 1⟩) (.leaf ⟨20, 2, 1⟩)

theorem pair_height : Reached plain (holding plain (sentinel plain) pair) ∧
    (∀ key, updateRebalancingStep plain key (holding plain (sentinel plain) pair) =
      .error .finish) ∧
    [(⟨20, 2, 1⟩ : Item ℕ ℕ), ⟨10, 1, 1⟩].length ≤ 2 * Nat.log 2 pair.leaves.length + 1 := by
  have h₁ := @Reached.insert ℕ ℕ _ plain _ _ 10 1 false .init (by decide) rfl
  have h₂ : Reached plain (holding plain (sentinel plain) pair) :=
    @Reached.insert ℕ ℕ _ plain _ _ 20 2 false h₁ (by decide) rfl
  have hfin : ∀ key, updateRebalancingStep plain key (holding plain (sentinel plain) pair) =
      .error .finish := by
    intro key
    rw [updateRebalancingStep, rebalanceAlong_holding]
    by_cases hlt : key < 20 <;>
      simp [pair, searchLoop, isNull, noViolation, byKey, hlt, ok_bind, rebalanceAt] <;> rfl
  exact ⟨h₂, hfin, height_le_of_no_violation h₂ hfin (by simp [pair, LTree.paths])⟩

end Height

end Cbat.Chromatic
