/-
**Two implementations build the same tree.**

BAT and BAT-EagerDel give the copy of the sentinel leaf different weights.  The copy is the right
child of the sentinel below the root, next to the tree, and no call that runs alone reads its
weight: a search goes left of it, a deletion that raises it gives it weight one, and a rebalancing
step would only look at it for a violation whose parent is red, which the top of the tree is not.
So the calls of the two go through the same trees.

Main definitions:

* `Cbat.Chromatic.countViolations` — the violations that the search of an update counts;
* `Cbat.Chromatic.Update`, `Cbat.Chromatic.call`, `Cbat.Chromatic.calls` — **`insert`,
  `insertIfAbsent` and `erase`**, and a sequence of calls;
* `Cbat.Chromatic.innerTree` — the subtree at `root->left->left`;
* `Cbat.Chromatic.SameTree` — the trees of two implementations between calls.

Main results:

* `Cbat.Chromatic.rebalancingStep_inner` — **a rebalancing step does not see the sentinel leaf**;
* `Cbat.Chromatic.SameTree.call` — a call returns the same and keeps the trees the same;
* `Cbat.Chromatic.bat_eagerDel_same` — so does every sequence of calls.
-/

import Cbat.Chromatic.Reached

set_option relaxedAutoImplicit false
set_option autoImplicit false

namespace Cbat.Chromatic

variable {K V : Type}

/-! ### The calls -/

/-- The violations among nodes of these weights, the lowest first: a weight above one, or a zero
below a zero.  The two topmost nodes are the parent in the first turn of the loop and the root. -/
def countViolations : List ℤ → ℤ
  | l :: p :: q :: ws =>
      (if l > 1 ∨ l = 0 ∧ p = 0 then 1 else 0) + countViolations (p :: q :: ws)
  | _ => 0

/-- The number that the search of an update has counted when it ends. -/
def Cursor.count (c : Cursor K V) : ℤ :=
  countViolations ((c.p :: c.above).map fun f => f.node.weight)

/-- A call of an update. -/
inductive Update (K V : Type) where
  | insert (key : K) (val : V)
  | insertIfAbsent (key : K) (val : V)
  | erase (key : K)

/-- The key of a call. -/
def Update.key : Update K V → K
  | .insert key _ => key
  | .insertIfAbsent key _ => key
  | .erase key => key

/-- What a call returns. -/
inductive Result (V : Type) where
  | value (result : V)
  | pair (result : V) (found : Bool)

section Calls

variable [LinearOrder K] (cfg : Cfg K V) (fuel : ℕ) (key : K)

/-- The end of an update: rebalancing, if there were too many violations. -/
def finishCall (shouldRebalance : Bool) (root : Ptr K V) : Option (Ptr K V) :=
  if shouldRebalance then fixAllToKey cfg key fuel root else some root

/-- `insert` and `insertIfAbsent`, with the value they return. -/
def insertCall (val : V) (onlyIfAbsent : Bool) (root : Ptr K V) : Option (V × Ptr K V) :=
  match searchLeaf key root with
  | .error _ => none
  | .ok c =>
      match insertAt cfg key val onlyIfAbsent c with
      | .error .finish => some (c.l.value, root)
      | .error _ => none
      | .ok root' =>
          if key = c.l.key then some (c.l.value, root')
          else (finishCall cfg fuel key (decide (c.count > cfg.N)) root').map (cfg.noValue, ·)

/-- `erase`, with the value it returns. -/
def eraseCall (root : Ptr K V) : Option (V × Ptr K V) :=
  match searchLeaf key root with
  | .error _ => none
  | .ok c =>
      match eraseAt cfg key c with
      | .error .finish => some (cfg.noValue, root)
      | .error _ => none
      | .ok root' =>
          (finishCall cfg fuel key (decide (c.count > cfg.N)) root').map (c.l.value, ·)

variable [DecidableEq V]

/-- A call: what it returns, and the tree that it leaves. -/
def call (root : Ptr K V) : Update K V → Option (Result V × Ptr K V)
  | .insert key val => (insertCall cfg fuel key val false root).map (Prod.map .value id)
  | .insertIfAbsent key val => (insertCall cfg fuel key val true root).map (Prod.map .value id)
  | .erase key =>
      (eraseCall cfg fuel key root).map (Prod.map (fun v => .pair v (decide (v ≠ cfg.noValue))) id)

/-- A sequence of calls by one thread. -/
def calls : Ptr K V → List (Update K V) → Option (List (Result V × Ptr K V))
  | _, [] => some []
  | root, u :: us => do
      let r ← call cfg fuel root u
      let rs ← calls r.2 us
      return r :: rs

end Calls

/-- The subtree at `root->left->left`. -/
def innerTree : Ptr K V → Ptr K V
  | .node _ (.node _ t _) _ => t
  | _ => .nil

/-! ### Searches below the sentinels -/

/-- A search below other nodes. -/
def Cursor.extend (base : List (Link K V)) (c : Cursor K V) : Cursor K V :=
  { c with above := c.above ++ base }

section Search

variable (goesOn : Item K V → Item K V → Bool) (g : Item K V → Bool)

/-- **A search does not read the nodes above its start.** -/
theorem searchLoop_extend (base above : List (Link K V)) (p : Link K V) (t : Ptr K V) :
    searchLoop goesOn (fun _ => g) (above ++ base) p t =
      (searchLoop goesOn (fun _ => g) above p t).map (Cursor.extend base) := by
  induction t generalizing above p with
  | nil => rfl
  | node a l r ihl ihr =>
      rw [searchLoop, searchLoop, ← List.cons_append, ihl, ihr]
      split_ifs <;> rfl

theorem exists_searchLoop (above : List (Link K V)) (p : Link K V) (t : Tree K V) :
    ∃ c, searchLoop goesOn (fun _ => g) above p t.ptr = .ok c := by
  induction t generalizing above p with
  | leaf a => exact ⟨⟨above, p, a, .nil, .nil⟩, rfl⟩
  | node a l r ihl ihr =>
      rw [LTree.ptr_node, searchLoop]
      split_ifs
      · exact ihl _ _
      · exact ihr _ _
      · exact ⟨_, rfl⟩

/-- **A search below the sentinels**: the top of the tree is an internal node at which it goes
on. -/
theorem exists_search_below (cfg : Cfg K V) {b : Item K V} (l r : Tree K V)
    (hn : goesOn (sentinel cfg) b = true) : ∃ c,
    searchLoop goesOn (fun _ => g) [] ⟨g b, b, l.ptr, r.ptr⟩ (if g b then l else r).ptr = .ok c ∧
    ∀ s, searchLoop goesOn (fun _ => g) [rootLink cfg s (.node b l r)]
      (entryLink cfg s (.node b l r)) (LTree.node b l r).ptr =
        .ok (c.extend (sentinels cfg s (.node b l r))) := by
  obtain ⟨c, hc⟩ := exists_searchLoop goesOn g []
    ⟨g b, b, l.ptr, r.ptr⟩ (if g b then l else r)
  refine ⟨c, hc, fun s => ?_⟩
  have hext := searchLoop_extend goesOn g (sentinels cfg s (.node b l r)) []
    ⟨g b, b, l.ptr, r.ptr⟩ (if g b then l else r).ptr
  rw [hc] at hext
  rw [LTree.ptr_node, searchLoop, isNull_ptr, show (entryLink cfg s _).node.toItem = sentinel cfg
    from rfl, hn, Bool.not_false, Bool.and_self, if_pos rfl]
  cases hk : g b with
  | false => simpa [hk, sentinels, Except.map] using hext
  | true => simpa [hk, sentinels, Except.map] using hext

variable {g} in
/-- A search that ends right below a top of weight one has found an overweight node. -/
theorem search_top {p : Link K V} {t : Tree K V} (hp : p.node.weight = 1)
    (hpos : ∀ a ∈ t.leaves, 1 ≤ a.weight) {c : Cursor K V}
    (h : searchLoop noViolation (fun _ => g) [] p t.ptr = .ok c) (hc : c.above = [])
    (h1 : c.l.weight ≠ 1) : c.l.weight > 1 ∧ c.p.node.weight ≠ 0 := by
  cases t with
  | leaf a =>
      obtain rfl : (⟨[], p, a, .nil, .nil⟩ : Cursor K V) = c := Except.ok.inj h
      exact ⟨lt_of_le_of_ne (hpos a (by simp)) (Ne.symm h1), hp ▸ one_ne_zero⟩
  | node a l r =>
      rw [LTree.ptr_node, searchLoop, isNull_ptr] at h
      by_cases hn : noViolation p.node.toItem a = true
      · -- the search goes on, so that the top is above the parent
        have below : ∀ q t, searchLoop noViolation (fun _ => g) [p] q t ≠ .ok c := by
          intro q t he
          rw [← List.nil_append [p], searchLoop_extend] at he
          cases hx : searchLoop noViolation (fun _ => g) [] q t with
          | error e => rw [hx] at he; cases he
          | ok c' =>
              rw [hx] at he
              rw [← Except.ok.inj he] at hc
              simp [Cursor.extend] at hc
        split_ifs at h
        · exact absurd h (below _ _)
        · exact absurd h (below _ _)
        · simp_all
      · obtain rfl : (⟨[], p, a, l.ptr, r.ptr⟩ : Cursor K V) = c := by simpa [hn] using h
        simp only [noViolation, Bool.and_eq_true, Bool.or_eq_true, decide_eq_true_eq, hp] at hn
        exact ⟨by simp_all, hp ▸ one_ne_zero⟩

end Search

/-! ### Rebalancing below the sentinels -/

section Rebalance

variable [DecidableEq K] {noKey : K} {u u' uX uX' uXX uXXX : Node K V} {b b' e : Bool}

theorem isSentinel_congr {a b c : Item K V} (h : b.key = c.key) :
    isSentinel noKey a b = isSentinel noKey a c := by
  rw [isSentinel, isSentinel, h]

/-- Of the great-grandparent, a step reads the key. -/
theorem rebalance_congr (hu : u.key = u'.key) :
    rebalance noKey u uX uXX b uXXX e = rebalance noKey u' uX uXX b uXXX e := by
  have blk : ∀ n2 n3, doBlk u uX n2 n3 noKey = doBlk u' uX n2 n3 noKey := by
    intro n2 n3
    rw [doBlk, doBlk, isSentinel_congr hu]
  simp only [rebalance, overweightLeft, overweightRight, redRed, blk]

/-- Of the grandparent of an overweight node too, unless the parent is red. -/
theorem rebalance_congr_over (hw : uXXX.weight > 1) (h0 : uXX.weight ≠ 0) (hX : uX.key = uX'.key) :
    rebalance noKey u uX uXX b uXXX e = rebalance noKey u' uX' uXX b' uXXX e := by
  have push : ∀ n2 n3, doPush uX uXX n2 n3 noKey = doPush uX' uXX n2 n3 noKey ∧
      doPushSym uX uXX n2 n3 noKey = doPushSym uX' uXX n2 n3 noKey := by
    intro n2 n3
    rw [doPush, doPush, doPushSym, doPushSym, isSentinel_congr hX]
    exact ⟨rfl, rfl⟩
  have w7 : ∀ n2 n3, doW7 uX uXX n2 n3 noKey = doW7 uX' uXX n2 n3 noKey ∧
      doW7Sym uX uXX n2 n3 noKey = doW7Sym uX' uXX n2 n3 noKey := by
    intro n2 n3
    rw [doW7, doW7, doW7Sym, doW7Sym, isSentinel_congr hX]
    exact ⟨rfl, rfl⟩
  simp only [rebalance, if_pos hw, overweightLeft, overweightRight, if_neg h0, push, w7]

/-- The tree with the new subtree in its place. -/
def placed (gp ggp : Link K V) (rest : List (Link K V)) : Spot × Ptr K V → Ptr K V
  | (.u, new) => plug (ggp :: rest) new
  | (.uX, new) => plug (gp :: ggp :: rest) new

theorem rebalanceAt_cons {gp ggp p : Link K V} {rest : List (Link K V)} {l : Node K V}
    (h1 : l.weight ≠ 1) :
    rebalanceAt noKey ⟨gp :: ggp :: rest, p, l⟩ =
      (rebalance noKey ggp.node gp.node p.node gp.left l p.left).map (placed gp ggp rest) := by
  rw [rebalanceAt, if_neg h1]
  dsimp only
  rcases rebalance noKey ggp.node gp.node p.node gp.left l p.left with e | ⟨_ | _, new⟩ <;> rfl

theorem except_map_map {α β γ : Type} (f : α → β) (f' : β → γ) (x : Except Stop α) :
    (x.map f).map f' = x.map (f' ∘ f) := by
  cases x <;> rfl

/-- **The step at the end of a search reads nothing but the keys of the sentinels**, if the search
does not end right below a red top. -/
theorem rebalanceAt_inner (cfg : Cfg K V) (s s' : Item K V) (T : Tree K V) {c : Cursor K V}
    (hc : c.above = [] → c.l.weight ≠ 1 → c.l.weight > 1 ∧ c.p.node.weight ≠ 0) :
    (rebalanceAt cfg.noKey (c.extend (sentinels cfg s T))).map innerTree =
      (rebalanceAt cfg.noKey (c.extend (sentinels cfg s' T))).map innerTree := by
  obtain ⟨above, p, l⟩ := c
  simp only at hc
  by_cases h1 : l.weight = 1
  · have finish : ∀ base, rebalanceAt cfg.noKey (Cursor.extend base ⟨above, p, l⟩) =
        throw .finish := fun _ => if_pos h1
    rw [finish, finish]
  · match above with
    | [] =>
        -- the parent is the top of the tree, the grandparent a sentinel
        obtain ⟨hw, h0⟩ := hc rfl h1
        have he : rebalance cfg.noKey (rootLink cfg s T).node (entryLink cfg s T).node p.node
            (entryLink cfg s T).left l p.left =
          rebalance cfg.noKey (rootLink cfg s' T).node (entryLink cfg s' T).node p.node
            (entryLink cfg s' T).left l p.left := rebalance_congr_over hw h0 rfl
        simp only [Cursor.extend, List.nil_append, sentinels]
        rw [rebalanceAt_cons h1, rebalanceAt_cons h1, he, except_map_map, except_map_map]
        congr 1
        funext ⟨spot, new⟩
        cases spot <;> rfl
    | [gp] =>
        -- the great-grandparent is a sentinel
        have he : rebalance cfg.noKey (entryLink cfg s T).node gp.node p.node gp.left l p.left =
          rebalance cfg.noKey (entryLink cfg s' T).node gp.node p.node gp.left l p.left :=
          rebalance_congr rfl
        simp only [Cursor.extend, List.singleton_append, sentinels]
        rw [rebalanceAt_cons h1, rebalanceAt_cons h1, he, except_map_map, except_map_map]
        congr 1
        funext ⟨spot, new⟩
        cases spot <;> rfl
    | gp :: ggp :: rest =>
        simp only [Cursor.extend, List.cons_append]
        rw [rebalanceAt_cons h1, rebalanceAt_cons h1, except_map_map, except_map_map]
        congr 1
        funext ⟨spot, new⟩
        cases spot <;> simp only [Function.comp_apply, placed, plug, plug_append] <;> rfl

end Rebalance

/-! ### The trees of two implementations -/

/-- **The trees of two implementations between calls**: equal up to the weight of the sentinel
leaf. -/
def SameTree (cfg : Cfg K V) (root root' : Ptr K V) : Prop :=
  (root = emptyTree cfg ∧ root' = emptyTree cfg) ∨
  ∃ T w w', Valid cfg T ∧ root = holding cfg ⟨cfg.noKey, cfg.noValue, w⟩ T ∧
    root' = holding cfg ⟨cfg.noKey, cfg.noValue, w'⟩ T

theorem SameTree.innerTree_eq {cfg : Cfg K V} {root root' : Ptr K V} (h : SameTree cfg root root') :
    innerTree root = innerTree root' := by
  rcases h with ⟨rfl, rfl⟩ | ⟨T, w, w', -, rfl, rfl⟩ <;> rfl

/-- The other implementations of a configuration. -/
def withVariant (cfg : Cfg K V) (v : Variant) : Cfg K V := { cfg with variant := v }

section Same

variable [LinearOrder K] {cfg : Cfg K V} {key : K}

theorem byKey_eq (key : K) : (byKey key : ℕ → Item K V → Bool) = fun _ => byKey key 0 := rfl

/-- **A rebalancing step does not see the sentinel leaf.** -/
theorem rebalancingStep_inner {T : Tree K V} (hT : Valid cfg T) (s s' : Item K V) (key : K) :
    (updateRebalancingStep cfg key (holding cfg s T)).map innerTree =
      (updateRebalancingStep cfg key (holding cfg s' T)).map innerTree := by
  rw [updateRebalancingStep, updateRebalancingStep, rebalanceAlong_holding, rebalanceAlong_holding]
  cases T with
  | leaf a =>
      have finish : ∀ s, searchLoop noViolation (byKey key) [rootLink cfg s (.leaf a)]
          (entryLink cfg s (.leaf a)) (LTree.leaf a).ptr >>= rebalanceAt cfg.noKey =
            .error .finish := by
        intro s
        exact if_pos hT.top_weight
      rw [finish, finish]
  | node b l r =>
      have hb : b.weight = 1 := hT.top_weight
      have hn : noViolation (sentinel cfg) b = true := by simp [noViolation, hb]
      obtain ⟨c, hc, below⟩ := exists_search_below noViolation (byKey key 0) cfg l r hn
      rw [byKey_eq, below, below]
      refine rebalanceAt_inner cfg s s' _ fun ha h1 => search_top hb ?_ hc ha h1
      intro a ha
      refine hT.leaf_pos a ?_
      rw [LTree.leaves_node, List.mem_append]
      split_ifs at ha
      · exact .inl ha
      · exact .inr ha

/-- So it leaves the same tree. -/
theorem rebalancingStep_same {T : Tree K V} (hT : Valid cfg T) (s s' : Item K V) (key : K) :
    (updateRebalancingStep cfg key (holding cfg s T) = .error .finish ∧
      updateRebalancingStep cfg key (holding cfg s' T) = .error .finish) ∨
    ∃ T', Valid cfg T' ∧ updateRebalancingStep cfg key (holding cfg s T) = .ok (holding cfg s T') ∧
      updateRebalancingStep cfg key (holding cfg s' T) = .ok (holding cfg s' T') := by
  have hi := rebalancingStep_inner hT s s' key
  rcases updateRebalancingStep_spec (s := s) hT key with ⟨he, -⟩ | ⟨T', he, hs⟩ <;>
    rcases updateRebalancingStep_spec (s := s') hT key with ⟨he', -⟩ | ⟨T'', he', -⟩ <;>
    rw [he, he'] at hi
  · exact .inl ⟨he, he'⟩
  · cases hi
  · cases hi
  · obtain rfl : T' = T'' := LTree.ptr_injective (Except.ok.inj hi)
    exact .inr ⟨T', hs.valid hT, he, he'⟩

/-! ### Calls of two implementations -/

/-- The searches of an update in the two trees end at the same leaf, with the same count. -/
theorem searchLeaf_same (T : Tree K V) (s s' : Item K V) (key : K) : ∃ c c',
    searchLeaf key (holding cfg s T) = .ok c ∧ searchLeaf key (holding cfg s' T) = .ok c' ∧
      c.l = c'.l ∧ c.count = c'.count := by
  rw [searchLeaf_holding, searchLeaf_holding]
  cases T with
  | leaf a => exact ⟨_, _, rfl, rfl, rfl, rfl⟩
  | node b l r =>
      obtain ⟨c, -, below⟩ := exists_search_below (fun _ _ => true) (byKey key 0) cfg l r rfl
      rw [byKey_eq, below, below]
      refine ⟨_, _, rfl, rfl, rfl, ?_⟩
      simp [Cursor.count, Cursor.extend, sentinels, entryLink, rootLink]

variable (v v' : Variant) {root root' : Ptr K V}

theorem updateRebalancingStep_withVariant : updateRebalancingStep (withVariant cfg v) key root =
    updateRebalancingStep cfg key root := rfl

theorem SameTree.fixAllToKey (h : SameTree cfg root root') (fuel : ℕ) (key : K) : ∃ q q',
    fixAllToKey (withVariant cfg v) key (fuel + 1) root = some q ∧
      fixAllToKey (withVariant cfg v') key (fuel + 1) root' = some q' ∧ SameTree cfg q q' := by
  rcases h with ⟨rfl, rfl⟩ | ⟨T, w, w', hT, rfl, rfl⟩
  · exact ⟨_, _, rfl, rfl, .inl ⟨rfl, rfl⟩⟩
  · have hstep := rebalancingStep_same hT ⟨cfg.noKey, cfg.noValue, w⟩
      ⟨cfg.noKey, cfg.noValue, w'⟩ key
    rcases hstep with ⟨he, he'⟩ | ⟨T', hT', he, he'⟩
    · refine ⟨_, _, ?_, ?_, .inr ⟨T, w, w', hT, rfl, rfl⟩⟩
      · simp only [Chromatic.fixAllToKey, updateRebalancingStep_withVariant, he]
      · simp only [Chromatic.fixAllToKey, updateRebalancingStep_withVariant, he']
    · refine ⟨_, _, ?_, ?_, .inr ⟨T', w, w', hT', rfl, rfl⟩⟩
      · simp only [Chromatic.fixAllToKey, updateRebalancingStep_withVariant, he]
      · simp only [Chromatic.fixAllToKey, updateRebalancingStep_withVariant, he']

theorem SameTree.finishCall (h : SameTree cfg root root') (fuel : ℕ) (key : K) (b : Bool) :
    ∃ q q', finishCall (withVariant cfg v) (fuel + 1) key b root = some q ∧
      finishCall (withVariant cfg v') (fuel + 1) key b root' = some q' ∧ SameTree cfg q q' := by
  cases b with
  | false => exact ⟨root, root', rfl, rfl, h⟩
  | true => exact h.fixAllToKey v v' fuel key

theorem insertCall_eq {c : Cursor K V} (hc : searchLeaf key root = .ok c) (fuel : ℕ) (val : V)
    (b : Bool) : insertCall cfg fuel key val b root =
      match updateInsert cfg key root val b with
      | .error .finish => some (c.l.value, root)
      | .error _ => none
      | .ok root' =>
          if key = c.l.key then some (c.l.value, root')
          else (Chromatic.finishCall cfg fuel key (decide (c.count > cfg.N)) root').map
            (cfg.noValue, ·) := by
  rw [insertCall, updateInsert, hc]
  rfl

theorem eraseCall_eq {c : Cursor K V} (hc : searchLeaf key root = .ok c) (fuel : ℕ) :
    eraseCall cfg fuel key root =
      match updateErase cfg key root with
      | .error .finish => some (cfg.noValue, root)
      | .error _ => none
      | .ok root' =>
          (Chromatic.finishCall cfg fuel key (decide (c.count > cfg.N)) root').map
            (c.l.value, ·) := by
  rw [eraseCall, updateErase, hc]
  rfl

theorem SameTree.searchLeaf (h : SameTree cfg root root') (key : K) : ∃ c c',
    searchLeaf key root = .ok c ∧ searchLeaf key root' = .ok c' ∧ c.l = c'.l ∧
      c.count = c'.count := by
  rcases h with ⟨rfl, rfl⟩ | ⟨T, w, w', -, rfl, rfl⟩
  · exact ⟨_, _, rfl, rfl, rfl, rfl⟩
  · exact searchLeaf_same T _ _ key

theorem SameTree.updateInsert (h : SameTree cfg root root') (hk : key ≠ cfg.noKey) (val : V)
    (b : Bool) :
    (updateInsert (withVariant cfg v) key root val b = .error .finish ∧
      updateInsert (withVariant cfg v') key root' val b = .error .finish) ∨
    ∃ q q', updateInsert (withVariant cfg v) key root val b = .ok q ∧
      updateInsert (withVariant cfg v') key root' val b = .ok q' ∧ SameTree cfg q q' := by
  rcases h with ⟨rfl, rfl⟩ | ⟨T, w, w', hT, rfl, rfl⟩
  · obtain ⟨w, -, he⟩ := @updateInsert_empty K V _ (withVariant cfg v) key val hk b
    obtain ⟨w', -, he'⟩ := @updateInsert_empty K V _ (withVariant cfg v') key val hk b
    have hT : Valid cfg (.leaf ⟨key, val, 1⟩) :=
      .of_fits (h := 1) (by simpa using hk) rfl ⟨le_rfl, rfl⟩
    exact .inr ⟨_, _, he, he', .inr ⟨_, w, w', hT, rfl, rfl⟩⟩
  · have he := fun u w => @updateInsert_holding K V _ (withVariant cfg u)
      ⟨cfg.noKey, cfg.noValue, w⟩ T key val hT.real b
    by_cases hf : key = (T.leafAt Item.key key).key ∧ b = true
    · exact .inl ⟨(he v w).trans (if_pos hf), (he v' w').trans (if_pos hf)⟩
    · exact .inr ⟨_, _, (he v w).trans (if_neg hf), (he v' w').trans (if_neg hf),
        .inr ⟨_, w, w', insertInto_valid hk hT, rfl, rfl⟩⟩

theorem SameTree.updateErase (h : SameTree cfg root root') (key : K) :
    (updateErase (withVariant cfg v) key root = .error .finish ∧
      updateErase (withVariant cfg v') key root' = .error .finish) ∨
    ∃ q q', updateErase (withVariant cfg v) key root = .ok q ∧
      updateErase (withVariant cfg v') key root' = .ok q' ∧ SameTree cfg q q' := by
  rcases h with ⟨rfl, rfl⟩ | ⟨T, w, w', hT, rfl, rfl⟩
  · exact .inl ⟨rfl, rfl⟩
  · cases T with
    | leaf a =>
        have he := fun u w => @updateErase_single K V _ (withVariant cfg u)
          ⟨cfg.noKey, cfg.noValue, w⟩ key a rfl rfl
        by_cases hf : key = a.key
        · exact .inr ⟨_, _, (he v w).trans (if_pos hf), (he v' w').trans (if_pos hf),
            .inl ⟨rfl, rfl⟩⟩
        · exact .inl ⟨(he v w).trans (if_neg hf), (he v' w').trans (if_neg hf)⟩
    | node a l r =>
        have he := fun u w => @updateErase_holding K V _ (withVariant cfg u)
          ⟨cfg.noKey, cfg.noValue, w⟩ (.node a l r) key hT.real rfl
        by_cases hf : key = ((LTree.node a l r).leafAt Item.key key).key
        · exact .inr ⟨_, _, (he v w).trans (if_pos hf), (he v' w').trans (if_pos hf),
            .inr ⟨_, w, w', eraseFrom_valid hT, rfl, rfl⟩⟩
        · exact .inl ⟨(he v w).trans (if_neg hf), (he v' w').trans (if_neg hf)⟩

/-- **Insertions** return the same and keep the trees the same. -/
theorem SameTree.insertCall (h : SameTree cfg root root') (hk : key ≠ cfg.noKey) (fuel : ℕ)
    (val : V) (b : Bool) : ∃ x q q',
    insertCall (withVariant cfg v) (fuel + 1) key val b root = some (x, q) ∧
      insertCall (withVariant cfg v') (fuel + 1) key val b root' = some (x, q') ∧
        SameTree cfg q q' := by
  obtain ⟨c, c', hc, hc', hl, hn⟩ := h.searchLeaf key
  rw [insertCall_eq hc, insertCall_eq hc']
  rcases h.updateInsert v v' hk val b with ⟨he, he'⟩ | ⟨q, q', he, he', hq⟩
  · rw [he, he', hl]
    exact ⟨_, _, _, rfl, rfl, h⟩
  · rw [he, he', hl, hn]
    by_cases hf : key = c'.l.key
    · exact ⟨_, q, q', if_pos hf, if_pos hf, hq⟩
    · obtain ⟨r, r', hr, hr', hs⟩ := hq.finishCall v v' fuel key
        (decide (c'.count > cfg.N))
      exact ⟨cfg.noValue, r, r', (if_neg hf).trans (congrArg (Option.map _) hr),
        (if_neg hf).trans (congrArg (Option.map _) hr'), hs⟩

/-- **Deletions** return the same and keep the trees the same. -/
theorem SameTree.eraseCall (h : SameTree cfg root root') (fuel : ℕ) (key : K) : ∃ x q q',
    eraseCall (withVariant cfg v) (fuel + 1) key root = some (x, q) ∧
      eraseCall (withVariant cfg v') (fuel + 1) key root' = some (x, q') ∧ SameTree cfg q q' := by
  obtain ⟨c, c', hc, hc', hl, hn⟩ := h.searchLeaf key
  rw [eraseCall_eq hc, eraseCall_eq hc']
  rcases h.updateErase v v' key with ⟨he, he'⟩ | ⟨q, q', he, he', hq⟩
  · rw [he, he']
    exact ⟨_, _, _, rfl, rfl, h⟩
  · rw [he, he', hl, hn]
    obtain ⟨r, r', hr, hr', hs⟩ := hq.finishCall v v' fuel key
      (decide (c'.count > cfg.N))
    exact ⟨c'.l.value, r, r', congrArg (Option.map _) hr, congrArg (Option.map _) hr', hs⟩

variable [DecidableEq V]

/-- **A call** returns the same and keeps the trees the same. -/
theorem SameTree.call (h : SameTree cfg root root') {u : Update K V} (hk : u.key ≠ cfg.noKey)
    (fuel : ℕ) : ∃ x q q', call (withVariant cfg v) (fuel + 1) root u = some (x, q) ∧
      call (withVariant cfg v') (fuel + 1) root' u = some (x, q') ∧ SameTree cfg q q' := by
  cases u with
  | insert key val =>
      obtain ⟨x, q, q', he, he', hq⟩ := h.insertCall v v' hk fuel val false
      exact ⟨_, q, q', congrArg (Option.map _) he, congrArg (Option.map _) he', hq⟩
  | insertIfAbsent key val =>
      obtain ⟨x, q, q', he, he', hq⟩ := h.insertCall v v' hk fuel val true
      exact ⟨_, q, q', congrArg (Option.map _) he, congrArg (Option.map _) he', hq⟩
  | erase key =>
      obtain ⟨x, q, q', he, he', hq⟩ := h.eraseCall v v' fuel key
      exact ⟨_, q, q', congrArg (Option.map _) he, congrArg (Option.map _) he', hq⟩

/-- A sequence of calls, by induction on it. -/
theorem SameTree.calls (h : SameTree cfg root root') {us : List (Update K V)}
    (hus : ∀ u ∈ us, u.key ≠ cfg.noKey) (fuel : ℕ) : ∃ rs rs',
    calls (withVariant cfg v) (fuel + 1) root us = some rs ∧
      calls (withVariant cfg v') (fuel + 1) root' us = some rs' ∧
        rs.map (Prod.map id innerTree) = rs'.map (Prod.map id innerTree) := by
  induction us generalizing root root' with
  | nil => exact ⟨[], [], rfl, rfl, rfl⟩
  | cons u us ih =>
      rw [List.forall_mem_cons] at hus
      obtain ⟨x, q, q', he, he', hq⟩ := h.call v v' hus.1 fuel
      obtain ⟨rs, rs', hrs, hrs', hs⟩ := ih hq hus.2
      refine ⟨(x, q) :: rs, (x, q') :: rs', ?_, ?_, ?_⟩
      · simp [Chromatic.calls, he, hrs]
      · simp [Chromatic.calls, he', hrs']
      · simp [hs, hq.innerTree_eq]

/-- **BAT and BAT-EagerDel build the same tree**: whatever calls one thread makes, and with whatever
bound on the violations of a path, every call of both returns, the results are the same, and so are
the subtrees at `root->left->left` after each call, with their keys, values and weights. -/
theorem bat_eagerDel_same (noKey : K) (noValue initValue : V) (N : ℤ) (fuel : ℕ)
    (us : List (Update K V)) (hus : ∀ u ∈ us, u.key ≠ noKey) :
    let bat : Cfg K V := ⟨noKey, noValue, N, .bat, initValue⟩
    let eagerDel : Cfg K V := ⟨noKey, noValue, N, .eagerDel, initValue⟩
    ∃ rs rs', calls bat (fuel + 1) (emptyTree bat) us = some rs ∧
      calls eagerDel (fuel + 1) (emptyTree eagerDel) us = some rs' ∧
      rs.map Prod.fst = rs'.map Prod.fst ∧
      rs.map (fun r => innerTree r.2) = rs'.map (fun r => innerTree r.2) := by
  intro bat eagerDel
  have start : SameTree bat (emptyTree bat) (emptyTree eagerDel) := .inl ⟨rfl, rfl⟩
  obtain ⟨rs, rs', hrs, hrs', hs⟩ := start.calls .bat .eagerDel hus fuel
  refine ⟨rs, rs', hrs, hrs', ?_, ?_⟩
  · simpa [Function.comp_def] using congrArg (List.map Prod.fst) hs
  · simpa [Function.comp_def] using congrArg (List.map Prod.snd) hs

end Same

/-- Four calls, with rebalancing after every violation. -/
def fourCalls : List (Update ℕ ℕ) :=
  [.insert 10 1, .insertIfAbsent 20 2, .insert 30 3, .erase 10]

theorem bat_eagerDel_same_fourCalls : ∃ rs rs',
    calls ⟨0, 0, 0, .bat, 0⟩ 1 (emptyTree ⟨0, 0, 0, .bat, 0⟩) fourCalls = some rs ∧
      calls ⟨0, 0, 0, .eagerDel, 0⟩ 1 (emptyTree ⟨0, 0, 0, .eagerDel, 0⟩) fourCalls = some rs' ∧
      rs.map Prod.fst = rs'.map Prod.fst ∧
      rs.map (fun r => innerTree r.2) = rs'.map (fun r => innerTree r.2) :=
  bat_eagerDel_same 0 0 0 0 0 fourCalls (by decide)

end Cbat.Chromatic
