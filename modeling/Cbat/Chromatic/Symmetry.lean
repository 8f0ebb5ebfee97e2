/-
**Left and right.**

The source has each rotation twice, and the case distinction twice: once for a violation at a left
child and once for a violation at a right child.  The second copy is the mirror image of the first.

Main definitions:

* `Cbat.Chromatic.Node.mirror`, `Cbat.Chromatic.Link.mirror` — nodes and the links of a search in
  the mirror image;
* `Cbat.Chromatic.mirrorTop` — the tree in which the subtree below the sentinels is mirrored.

Main results:

* `Cbat.Chromatic.overweightRight_mirror`, `Cbat.Chromatic.redRed_mirror` — the copies of the case
  distinction;
* `Cbat.Chromatic.rebalancing_symmetric` — **a step along a path and a step along the mirrored path
  give mirror images**.
-/

import Cbat.Chromatic.Model
import Cbat.PointerTree

set_option relaxedAutoImplicit false
set_option autoImplicit false

namespace Cbat.Chromatic

open BinaryTree

variable {K V : Type}

/-! ### Nodes -/

@[simp] theorem isNull_flip (p : Ptr K V) : isNull p.flip = isNull p := by
  cases p <;> rfl

/-- The node in the mirror image. -/
def Node.mirror (n : Node K V) : Node K V := ⟨n.toItem, n.right.flip, n.left.flip⟩

@[simp] theorem mirror_toItem (n : Node K V) : n.mirror.toItem = n.toItem := rfl
@[simp] theorem mirror_left (n : Node K V) : n.mirror.left = n.right.flip := rfl
@[simp] theorem mirror_right (n : Node K V) : n.mirror.right = n.left.flip := rfl

@[simp] theorem mirror_mirror (n : Node K V) : n.mirror.mirror = n := by
  simp [Node.mirror]

@[simp] theorem llx_flip (p : Ptr K V) : llx p.flip = Node.mirror <$> llx p := by
  cases p <;> rfl

/-! ### The steps -/

section Steps

variable {n0 n0' n1 n1' : Node K V} (n2 n3 n4 n5 : Node K V)

theorem flip_doBlk [DecidableEq K] {noKey : K} (h0 : n0'.toItem = n0.toItem) :
    (doBlk n0 n1 n2 n3 noKey).flip = doBlk n0' n1.mirror n3.mirror n2.mirror noKey := by
  simp only [doBlk, h0]
  rfl

theorem flip_doPush [DecidableEq K] {noKey : K} (h0 : n0'.toItem = n0.toItem) :
    (doPush n0 n1 n2 n3 noKey).flip = doPushSym n0' n1.mirror n3.mirror n2.mirror noKey := by
  simp only [doPush, doPushSym, h0]
  rfl

theorem flip_doW7 [DecidableEq K] {noKey : K} (h0 : n0'.toItem = n0.toItem) :
    (doW7 n0 n1 n2 n3 noKey).flip = doW7Sym n0' n1.mirror n3.mirror n2.mirror noKey := by
  simp only [doW7, doW7Sym, h0]
  rfl

variable (n1 : Node K V)

@[simp] theorem flip_doRb1 : (doRb1 n1 n2).flip = doRb1Sym n1.mirror n2.mirror := rfl

@[simp] theorem flip_doRb1Sym : (doRb1Sym n1 n2).flip = doRb1 n1.mirror n2.mirror := rfl

@[simp] theorem flip_doRb2 :
    (doRb2 n1 n2 n3).flip = doRb2Sym n1.mirror n2.mirror n3.mirror := rfl

@[simp] theorem flip_doRb2Sym :
    (doRb2Sym n1 n2 n3).flip = doRb2 n1.mirror n2.mirror n3.mirror := rfl

@[simp] theorem flip_doW1 :
    (doW1 n1 n2 n3 n4).flip = doW1Sym n1.mirror n3.mirror n2.mirror n4.mirror := rfl

@[simp] theorem flip_doW2 :
    (doW2 n1 n2 n3 n4).flip = doW2Sym n1.mirror n3.mirror n2.mirror n4.mirror := rfl

@[simp] theorem flip_doW3 : (doW3 n1 n2 n3 n4 n5).flip =
    doW3Sym n1.mirror n3.mirror n2.mirror n4.mirror n5.mirror := rfl

@[simp] theorem flip_doW4 : (doW4 n1 n2 n3 n4 n5).flip =
    doW4Sym n1.mirror n3.mirror n2.mirror n4.mirror n5.mirror := rfl

@[simp] theorem flip_doW5 :
    (doW5 n1 n2 n3 n4).flip = doW5Sym n1.mirror n3.mirror n2.mirror n4.mirror := rfl

@[simp] theorem flip_doW6 :
    (doW6 n1 n2 n3 n4).flip = doW6Sym n1.mirror n3.mirror n2.mirror n4.mirror := rfl

end Steps

/-! ### The case distinction -/

/-- What a step puts where, in the mirror image. -/
def mirrorNew (x : Spot × Ptr K V) : Spot × Ptr K V := (x.1, x.2.flip)

@[simp] theorem mirrorNew_mk (s : Spot) (p : Ptr K V) : mirrorNew (s, p) = (s, p.flip) := rfl

theorem mirrorNew_mirrorNew (x : Spot × Ptr K V) : mirrorNew (mirrorNew x) = x := by
  simp [mirrorNew]

theorem map_ok {α β : Type} (f : α → β) (a : α) :
    f <$> (.ok a : Except Stop α) = .ok (f a) := rfl

theorem ok_bind {α β : Type} (f : α → Except Stop β) (a : α) :
    ((.ok a : Except Stop α) >>= f) = f a := rfl

theorem exists_of_bind_ok {α β : Type} {f : α → Except Stop β} {x : Except Stop α} {b : β}
    (h : x >>= f = .ok b) : ∃ a, f a = .ok b := by
  cases x with
  | error e => cases h
  | ok a => exact ⟨a, h⟩

theorem map_throw {α β : Type} (f : α → β) (e : Stop) :
    f <$> (throw e : Except Stop α) = throw e := rfl

theorem map_ite {α β : Type} (f : α → β) (c : Prop) [Decidable c] (x y : Except Stop α) :
    f <$> (if c then x else y) = if c then f <$> x else f <$> y := apply_ite ..

section Dispatch

variable [DecidableEq K] {noKey : K} {u u' uX uX' uXX uXXL uXXR : Node K V} {uXXleft b : Bool}

/-- **The case distinction for a right child** is that for a left child, mirrored.  The nodes above
only matter by their keys unless `uXX` is red. -/
theorem overweightRight_mirror (hu : u'.toItem = u.toItem) (hX : uX'.toItem = uX.toItem)
    (h : uXX.weight = 0 → uX' = uX.mirror ∧ b = !uXXleft) :
    overweightRight noKey u' uX' uXX.mirror uXXR.mirror uXXL.mirror b =
      mirrorNew <$> overweightLeft noKey u uX uXX uXXL uXXR uXXleft := by
  unfold overweightRight overweightLeft
  by_cases h0 : uXX.weight = 0
  · obtain ⟨rfl, rfl⟩ := h h0
    simp [h0, map_ite, map_throw, flip_doBlk _ _ hu, flip_doPush _ _ hX, flip_doW7 _ _ hX]
    rfl
  · simp [h0, map_ite, map_throw, flip_doPush _ _ hX, flip_doW7 _ _ hX]
    rfl

theorem overweightLeft_mirror (hu : u'.toItem = u.toItem) (hX : uX'.toItem = uX.toItem)
    (h : uXX.weight = 0 → uX' = uX.mirror ∧ b = !uXXleft) :
    overweightLeft noKey u' uX' uXX.mirror uXXR.mirror uXXL.mirror b =
      mirrorNew <$> overweightRight noKey u uX uXX uXXL uXXR uXXleft := by
  have hr : overweightRight noKey u uX uXX.mirror.mirror uXXL.mirror.mirror uXXR.mirror.mirror
      uXXleft = mirrorNew <$> overweightLeft noKey u' uX' uXX.mirror uXXR.mirror uXXL.mirror b :=
    overweightRight_mirror hu.symm hX.symm fun h0 => by
      obtain ⟨rfl, rfl⟩ := h h0
      simp
  simp only [mirror_mirror] at hr
  rw [hr, Functor.map_map]
  simp [mirrorNew_mirrorNew]

theorem redRed_mirror (hu : u'.toItem = u.toItem) {d : Bool} :
    redRed noKey u' uX.mirror uXX.mirror uXXR.mirror uXXL.mirror (!uXXleft) (!d) =
      mirrorNew <$> redRed noKey u uX uXX uXXL uXXR uXXleft d := by
  unfold redRed
  cases uXXleft <;> cases d <;> simp [map_ite, flip_doBlk _ _ hu] <;> rfl

/-- **The whole case distinction.** -/
theorem rebalance_mirror {uXXX : Node K V} {d : Bool} (hu : u'.toItem = u.toItem)
    (hX : uX'.toItem = uX.toItem)
    (h : uXX.weight = 0 ∨ uXXX.weight ≤ 1 → uX' = uX.mirror ∧ b = !uXXleft) :
    rebalance noKey u' uX' uXX.mirror b uXXX.mirror (!d) =
      mirrorNew <$> rebalance noKey u uX uXX uXXleft uXXX d := by
  unfold rebalance
  simp only [mirror_left, mirror_right, llx_flip]
  cases hl : uXX.left with
  | nil => cases uXX.right <;> rfl
  | node a l r =>
      cases hr : uXX.right with
      | nil => rfl
      | node a' l' r' =>
          simp only [llx, map_ok, ok_bind, map_ite]
          by_cases hw : 1 < uXXX.weight
          · have hc : uXX.weight = 0 → uX' = uX.mirror ∧ b = !uXXleft := fun h0 => h (.inl h0)
            rw [if_pos (show uXXX.mirror.weight > 1 from hw), if_pos hw]
            cases d with
            | false => exact overweightLeft_mirror hu hX hc
            | true => exact overweightRight_mirror hu hX hc
          · obtain ⟨rfl, rfl⟩ := h (.inr (not_lt.mp hw))
            rw [if_neg (show ¬ uXXX.mirror.weight > 1 from hw), if_neg hw]
            exact redRed_mirror hu

variable {new : Ptr K V}

/-- Only a red node moves the change up to the great-grandparent. -/
theorem overweightLeft_spot (h : overweightLeft noKey u uX uXX uXXL uXXR b = .ok (.u, new)) :
    uXX.weight = 0 := by
  by_contra h0
  rw [overweightLeft, if_neg h0] at h
  repeat' first
    | (obtain ⟨_, h⟩ := exists_of_bind_ok h)
    | split at h
    | cases h

theorem overweightRight_spot (h : overweightRight noKey u uX uXX uXXL uXXR b = .ok (.u, new)) :
    uXX.weight = 0 := by
  by_contra h0
  rw [overweightRight, if_neg h0] at h
  repeat' first
    | (obtain ⟨_, h⟩ := exists_of_bind_ok h)
    | split at h
    | cases h

theorem rebalance_spot {uXXX : Node K V} {d : Bool}
    (h : rebalance noKey u uX uXX b uXXX d = .ok (.u, new)) : uXX.weight = 0 ∨ uXXX.weight ≤ 1 := by
  obtain ⟨_, h⟩ := exists_of_bind_ok h
  obtain ⟨_, h⟩ := exists_of_bind_ok h
  split_ifs at h with hw
  · exact .inl (overweightLeft_spot h)
  · exact .inl (overweightRight_spot h)
  · exact .inr (not_lt.mp hw)

end Dispatch

/-! ### The search -/

/-- The link in the mirror image. -/
def Link.mirror (f : Link K V) : Link K V := ⟨!f.left, f.node.mirror⟩

@[simp] theorem Link.mirror_left (f : Link K V) : f.mirror.left = !f.left := rfl
@[simp] theorem Link.mirror_node (f : Link K V) : f.mirror.node = f.node.mirror := rfl

theorem Link.set_mirror (f : Link K V) (p : Ptr K V) : f.mirror.set p.flip = (f.set p).flip := by
  obtain ⟨b, n⟩ := f
  cases b <;> rfl

theorem plug_append (fs gs : List (Link K V)) (p : Ptr K V) :
    plug (fs ++ gs) p = plug gs (plug fs p) := by
  induction fs generalizing p with
  | nil => rfl
  | cons f fs ih => exact ih _

theorem plug_mirror (fs : List (Link K V)) (p : Ptr K V) :
    plug (fs.map Link.mirror) p.flip = (plug fs p).flip := by
  induction fs generalizing p with
  | nil => rfl
  | cons f fs ih => rw [List.map_cons, plug, plug, Link.set_mirror, ih]

theorem isNull_ptr (t : LTree (Item K V)) : isNull t.ptr = false := by
  cases t <;> rfl

/-- **A search and the search in the mirror image** pass mirrored nodes. -/
theorem searchLoop_mirror {goesOn : Item K V → Item K V → Bool} {goLeft : ℕ → Item K V → Bool}
    (t : LTree (Item K V)) {above above' : List (Link K V)} {p q : Link K V}
    (ha : above'.length = above.length) (hp : q.node.toItem = p.node.toItem) :
    ∃ c c' fs, searchLoop goesOn goLeft above p t.ptr = .ok c ∧
      searchLoop goesOn (fun d a => !goLeft d a) above' q t.ptr.flip = .ok c' ∧
      c.p :: c.above = fs ++ p :: above ∧ c'.p :: c'.above = fs.map Link.mirror ++ q :: above' ∧
      c'.l = c.l.mirror := by
  induction t generalizing above above' p q with
  | leaf a => exact ⟨_, _, [], rfl, rfl, rfl, rfl, rfl⟩
  | node a l r ihl ihr =>
      simp only [LTree.ptr_node, flip_node, searchLoop, isNull_ptr, isNull_flip, hp, ha]
      by_cases hg : goesOn p.node.toItem a = true
      · have hlen : (q :: above').length = (p :: above).length := by simp [ha]
        by_cases ht : goLeft above.length a = true
        · obtain ⟨c, c', fs, hc, hc', hfs, hfs', hl⟩ := ihl (p := ⟨true, a, l.ptr, r.ptr⟩)
            (q := ⟨false, a, r.ptr.flip, l.ptr.flip⟩) hlen rfl
          refine ⟨c, c', fs ++ [⟨true, a, l.ptr, r.ptr⟩], ?_, ?_, ?_, ?_, hl⟩
          · simpa [hg, ht] using hc
          · simpa [hg, ht] using hc'
          · simpa using hfs
          · simpa [Link.mirror, Node.mirror] using hfs'
        · obtain ⟨c, c', fs, hc, hc', hfs, hfs', hl⟩ := ihr (p := ⟨false, a, l.ptr, r.ptr⟩)
            (q := ⟨true, a, r.ptr.flip, l.ptr.flip⟩) hlen rfl
          refine ⟨c, c', fs ++ [⟨false, a, l.ptr, r.ptr⟩], ?_, ?_, ?_, ?_, hl⟩
          · simpa [hg, ht] using hc
          · simpa [hg, ht] using hc'
          · simpa using hfs
          · simpa [Link.mirror, Node.mirror] using hfs'
      · refine ⟨⟨above, p, a, l.ptr, r.ptr⟩, ⟨above', q, a, r.ptr.flip, l.ptr.flip⟩, [], ?_,
          ?_, rfl,
          rfl, rfl⟩
        · simp [hg]
        · simp [hg]

/-- **Where a search ends**: at a leaf, or at the first node at which it does not go on.  The first
node that it passes is the one at the top. -/
theorem searchLoop_end {goesOn : Item K V → Item K V → Bool} {goLeft : ℕ → Item K V → Bool}
    (t : LTree (Item K V)) {above : List (Link K V)} {p : Link K V} {c : Cursor K V}
    (h : searchLoop goesOn goLeft above p t.ptr = .ok c) :
    (c.l.toItem ∈ t.leaves ∨
      c.l.toItem ∈ t.labels ∧ goesOn c.p.node.toItem c.l.toItem = false) ∧
    ∃ fs, c.p :: c.above = fs ++ p :: above ∧ ∀ f ∈ fs.getLast?, f.node.toItem = t.label := by
  induction t generalizing above p with
  | leaf a =>
      obtain rfl : _ = c := Except.ok.inj h
      exact ⟨.inl (by simp), [], rfl, by simp⟩
  | node a l r ihl ihr =>
      simp only [LTree.ptr_node, searchLoop, isNull_ptr] at h
      by_cases hg : goesOn p.node.toItem a = true
      · by_cases ht : goLeft above.length a = true
        · obtain ⟨hc, fs, hfs, -⟩ := ihl (by simpa [hg, ht] using h)
          refine ⟨?_, fs ++ [⟨true, a, l.ptr, r.ptr⟩], by simpa using hfs, by simp⟩
          simp only [LTree.leaves_node, LTree.labels_node, List.mem_append, List.mem_cons]
          tauto
        · obtain ⟨hc, fs, hfs, -⟩ := ihr (by simpa [hg, ht] using h)
          refine ⟨?_, fs ++ [⟨false, a, l.ptr, r.ptr⟩], by simpa using hfs, by simp⟩
          simp only [LTree.leaves_node, LTree.labels_node, List.mem_append, List.mem_cons]
          tauto
      · obtain rfl : (⟨above, p, a, l.ptr, r.ptr⟩ : Cursor K V) = c := by simpa [hg] using h
        exact ⟨.inr ⟨by simp, by simpa using hg⟩, [], rfl, by simp⟩

/-! ### The step -/

/-- The tree in which the subtree below the sentinels is mirrored. -/
def mirrorTop : Ptr K V → Ptr K V
  | .node a (.node b t s) r => .node a (.node b t.flip s) r
  | p => p

section Step

variable (cfg : Cfg K V) (s : Item K V) (T : LTree (Item K V))

theorem mirrorTop_holding : mirrorTop (holding cfg s T) = holding cfg s T.flip := by
  rw [holding, holding, mirrorTop, LTree.ptr_flip]

/-- The root, on the path of a search. -/
def rootLink : Link K V :=
  ⟨true, sentinel cfg, .node (sentinel cfg) T.ptr (.node s .nil .nil), .nil⟩

/-- The sentinel below the root, on the path of a search. -/
def entryLink : Link K V := ⟨true, sentinel cfg, T.ptr, .node s .nil .nil⟩

/-- The sentinels above the tree, on the path of a search. -/
def sentinels : List (Link K V) := [entryLink cfg s T, rootLink cfg s T]

/-- The search starts below the sentinels. -/
theorem rebalanceAlong_holding [DecidableEq K] (goLeft : ℕ → Item K V → Bool) :
    rebalanceAlong cfg.noKey goLeft (holding cfg s T) =
      searchLoop noViolation goLeft [rootLink cfg s T] (entryLink cfg s T) T.ptr >>=
        rebalanceAt cfg.noKey := by
  simp [rebalanceAlong, holding, llx, ok_bind, isNull_ptr, entryLink, rootLink]

theorem plug_sentinels (fs : List (Link K V)) (p : Ptr K V) :
    plug (fs.map Link.mirror ++ sentinels cfg s T.flip) p.flip =
      mirrorTop (plug (fs ++ sentinels cfg s T) p) := by
  rw [plug_append, plug_append, plug_mirror]
  rfl

variable {cfg s T} [DecidableEq K]

/-- The step, from the grandparent and the great-grandparent of the node that the search has found
on. -/
theorem rebalanceAt_cons_mirror {gp ggp gp' ggp' p : Link K V} {rest rest' : List (Link K V)}
    {l : Node K V} {noKey : K} (hu : ggp'.node.toItem = ggp.node.toItem)
    (hX : gp'.node.toItem = gp.node.toItem)
    (h : p.node.weight = 0 ∨ l.weight < 1 → gp' = gp.mirror ∧
      ∀ q : Ptr K V, plug (ggp' :: rest') q.flip = mirrorTop (plug (ggp :: rest) q))
    (hplug : ∀ q : Ptr K V,
      plug (gp' :: ggp' :: rest') q.flip = mirrorTop (plug (gp :: ggp :: rest) q)) :
    rebalanceAt noKey ⟨gp' :: ggp' :: rest', p.mirror, l.mirror⟩ =
      mirrorTop <$> rebalanceAt noKey ⟨gp :: ggp :: rest, p, l⟩ := by
  unfold rebalanceAt
  by_cases h1 : l.weight = 1
  · rw [if_pos (show l.mirror.weight = 1 from h1), if_pos h1]
    rfl
  · rw [if_neg (show ¬ l.mirror.weight = 1 from h1), if_neg h1]
    have hm : rebalance noKey ggp'.node gp'.node p.node.mirror gp'.left l.mirror (!p.left) =
        mirrorNew <$> rebalance noKey ggp.node gp.node p.node gp.left l p.left := by
      refine rebalance_mirror hu hX fun hc => ?_
      rw [(h (by omega)).1]
      exact ⟨rfl, rfl⟩
    simp only [Link.mirror_node, Link.mirror_left, hm]
    rcases hr : rebalance noKey ggp.node gp.node p.node gp.left l p.left with e | ⟨spot, new⟩
    · rfl
    · cases spot with
      | u =>
          have := rebalance_spot hr
          exact congrArg Except.ok ((h (by omega)).2 new)
      | uX => exact congrArg Except.ok (hplug new)

theorem rebalanceAt_mirror {noKey : K} {fs : List (Link K V)} {p : Link K V} {l : Node K V}
    (h : fs = [] → p.node.weight ≠ 0 ∧ 1 ≤ l.weight) :
    rebalanceAt noKey ⟨fs.map Link.mirror ++ sentinels cfg s T.flip, p.mirror, l.mirror⟩ =
      mirrorTop <$> rebalanceAt noKey ⟨fs ++ sentinels cfg s T, p, l⟩ := by
  have hplug := plug_sentinels cfg s T
  match fs with
  | [] =>
      -- the sentinel above the tree is not mirrored, but then it is not looked at either
      refine rebalanceAt_cons_mirror rfl rfl (fun hc => ?_) (hplug [])
      have := h rfl
      omega
  | [gp] => exact rebalanceAt_cons_mirror rfl rfl (fun _ => ⟨rfl, hplug []⟩) (hplug [gp])
  | gp :: ggp :: rest =>
      exact rebalanceAt_cons_mirror rfl rfl (fun _ => ⟨rfl, hplug (ggp :: rest)⟩)
        (hplug (gp :: ggp :: rest))

theorem rebalanceAlong_mirror (hT : Valid cfg T) (path : ℕ → Bool) :
    rebalanceAlong cfg.noKey (fun d _ => !path d) (mirrorTop (holding cfg s T)) =
      mirrorTop <$> rebalanceAlong cfg.noKey (fun d _ => path d) (holding cfg s T) := by
  obtain ⟨c, c', fs, hc, hc', hfs, hfs', hl⟩ := @searchLoop_mirror K V noViolation
    (fun d _ => path d) T [rootLink cfg s T] [rootLink cfg s T.flip] (entryLink cfg s T)
    (entryLink cfg s T.flip) rfl rfl
  obtain ⟨hend, fs₂, hfs₂, hlast⟩ := searchLoop_end T hc
  obtain rfl : fs = fs₂ := List.append_cancel_right (hfs.symm.trans hfs₂)
  rw [mirrorTop_holding, rebalanceAlong_holding, rebalanceAlong_holding, hc, LTree.ptr_flip, hc',
    ok_bind, ok_bind]
  obtain ⟨above, p, l⟩ := c
  obtain ⟨above', p', l'⟩ := c'
  obtain rfl : l' = l.mirror := hl
  cases fs with
  | nil =>
      -- the search has ended at the top
      obtain ⟨rfl, rfl⟩ := List.cons.inj hfs
      obtain ⟨rfl, rfl⟩ := List.cons.inj hfs'
      by_cases h1 : l.weight = 1
      · simp [rebalanceAt, h1, map_throw]
      · simp [rebalanceAt, h1, map_throw]
  | cons f fs =>
      obtain ⟨rfl, rfl⟩ := List.cons.inj hfs
      obtain ⟨rfl, rfl⟩ := List.cons.inj hfs'
      refine rebalanceAt_mirror fun hnil => ?_
      subst hnil
      -- the parent is the top of the tree, which has weight one
      have hp : p.node.weight = 1 := by
        rw [hlast p (by simp)]
        exact hT.top_weight
      refine ⟨by rw [hp]; exact one_ne_zero, ?_⟩
      rcases hend with hleaf | ⟨-, hviol⟩
      · exact hT.leaf_pos _ hleaf
      · simp only [noViolation, hp, Bool.and_eq_false_iff, Bool.or_eq_false_iff,
          decide_eq_false_iff_not] at hviol
        omega

/-- **A step along a path and a step along the mirrored path give mirror images**, and a violation
is found on one of the two paths if and only if it is found on the other. -/
theorem rebalancing_symmetric (hT : Valid cfg T) (path : ℕ → Bool) :
    rebalanceAlong cfg.noKey (fun d _ => !path d) (mirrorTop (holding cfg s T)) =
      mirrorTop <$> rebalanceAlong cfg.noKey (fun d _ => path d) (holding cfg s T) ∧
    (rebalanceAlong cfg.noKey (fun d _ => !path d) (mirrorTop (holding cfg s T)) = .error .finish ↔
      rebalanceAlong cfg.noKey (fun d _ => path d) (holding cfg s T) = .error .finish) := by
  have hm := rebalanceAlong_mirror (s := s) hT path
  refine ⟨hm, ?_⟩
  rw [hm]
  cases rebalanceAlong cfg.noKey (fun d _ => path d) (holding cfg s T) with
  | error e => rfl
  | ok root' => constructor <;> nofun

end Step

/-- Natural numbers as keys and values. -/
def plain : Cfg ℕ ℕ := ⟨0, 0, 6, .bat, 0⟩

/-- The tree after the insertions of 10, 20, 30 and 40, if no violation is repaired. -/
def redChain : LTree (Item ℕ ℕ) :=
  .node ⟨20, 2, 1⟩ (.leaf ⟨10, 1, 1⟩)
    (.node ⟨30, 3, 0⟩ (.leaf ⟨20, 2, 1⟩)
      (.node ⟨40, 4, 0⟩ (.leaf ⟨30, 3, 1⟩) (.leaf ⟨40, 4, 1⟩)))

theorem redChain_valid : Valid plain redChain where
  real := by decide
  nonneg := by decide
  leaf_pos := by decide
  top_weight := rfl
  balanced := ⟨2, by simp [redChain]⟩

theorem redChain_symmetric : Valid plain redChain ∧
    rebalanceAlong plain.noKey (fun _ _ => true)
        (mirrorTop (holding plain (sentinel plain) redChain)) =
      mirrorTop <$> rebalanceAlong plain.noKey (fun _ _ => false)
        (holding plain (sentinel plain) redChain) :=
  ⟨redChain_valid, (rebalancing_symmetric redChain_valid fun _ => false).1⟩

end Cbat.Chromatic
