/-
**What an SCX replaces by what.**

An SCX record names the nodes it removes and a new subtree over the subtrees that stay.  Seen as
trees, it replaces one patch by another.  This module says which pairs of patches the updates
produce — a rebalancing step keeps the exits of the patch in order, with the weights above them; an
insertion puts a node with two leaves in place of a leaf; a deletion keeps only the sibling — and
proves it of each rebalancing step.

Main definitions:

* `Cbat.Mem.cell`, `Cbat.Mem.one` — the cell of a node, and the patch that consists of this node;
* `Cbat.Rearranges` — **a rebalancing step**: equal traces, the versions of new internal nodes nil.

Main results:

* `Cbat.plan_doBlk` … `Cbat.plan_doW7Sym` — every rebalancing step is a rearrangement of the nodes
  it removes.
-/

import Cbat.Paths

set_option relaxedAutoImplicit false
set_option autoImplicit false

namespace Cbat

variable {K V : Type} [LinearOrder K] {cfg : Cfg K V} {m : Mem K V}

/-! ### Patches of nodes and of new nodes -/

/-- The key of a new node in the order of the tree. -/
def nkey (cfg : Cfg K V) (a : NewNode K V) : WithTop K := ord cfg a.key

/-- The contents of a new node. -/
def nval (a : NewNode K V) : K × V := (a.key, a.value)

/-- The contents of a node. -/
def cval (c : Cell K V) : K × V := (c.key, c.value)

/-- The exits of a patch of nodes. -/
abbrev oldTrace (cfg : Cfg K V) (w : ℤ) (lo : WithBot (WithTop K)) (hi : WithTop (WithTop K))
    (p : Patch (Cell K V) ℕ) : List (Patch.Seg ℕ (K × V) (WithTop K)) :=
  p.trace (ckey cfg) Cell.weight cval w lo hi

/-- The exits of a new subtree. -/
abbrev newTrace (cfg : Cfg K V) (w : ℤ) (lo : WithBot (WithTop K)) (hi : WithTop (WithTop K))
    (p : NewTree K V) : List (Patch.Seg ℕ (K × V) (WithTop K)) :=
  p.trace (nkey cfg) NewNode.weight nval w lo hi

omit [LinearOrder K] in
/-- The cell of a node. -/
def Mem.cell (m : Mem K V) (x : ℕ) : Cell K V :=
  ⟨x, (m.node x).key, (m.node x).value, (m.node x).weight⟩

/-- The patch that consists of one node. -/
def Mem.one (m : Mem K V) (x : ℕ) : Patch (Cell K V) ℕ :=
  if (m.node x).left = 0 then .leaf (m.cell x)
  else .node (m.cell x) (.sub (m.node x).left) (.sub (m.node x).right)

/-- The addresses of the internal nodes of a patch. -/
def inner : Patch (Cell K V) ℕ → List ℕ
  | .sub _ => []
  | .leaf _ => []
  | .node c l r => c.id :: (inner l ++ inner r)

/-- Leaves start with a version of sum one, internal nodes with none. -/
@[simp] def Plain : NewTree K V → Prop
  | .sub _ => True
  | .leaf a => a.sum = some 1
  | .node a l r => a.sum = none ∧ Plain l ∧ Plain r

/-- The leaves of a new subtree that are new themselves. -/
@[simp] def newLeaves : NewTree K V → List (NewNode K V)
  | .sub _ => []
  | .leaf a => [a]
  | .node _ l r => newLeaves l ++ newLeaves r

/-- The weight at the top of a new subtree. -/
def topWeight : NewTree K V → ℤ
  | .sub _ => 0
  | .leaf a => a.weight
  | .node a _ _ => a.weight

/-- A new internal node with the key and the value of `src`. -/
def Mem.fresh (m : Mem K V) (slot src : ℕ) (w : ℤ) : NewNode K V :=
  ⟨slot, (m.node src).key, (m.node src).value, w, none⟩

omit [LinearOrder K] in
@[simp] theorem fresh_slot (slot src : ℕ) (w : ℤ) : (m.fresh slot src w).slot = slot := rfl
omit [LinearOrder K] in
@[simp] theorem fresh_key (slot src : ℕ) (w : ℤ) :
    (m.fresh slot src w).key = (m.node src).key := rfl
omit [LinearOrder K] in
@[simp] theorem fresh_weight (slot src : ℕ) (w : ℤ) : (m.fresh slot src w).weight = w := rfl
omit [LinearOrder K] in
@[simp] theorem fresh_sum (slot src : ℕ) (w : ℤ) : (m.fresh slot src w).sum = none := rfl

section Init

omit [LinearOrder K]

theorem initFrom_of_ne {slot src : ℕ} {w : ℤ} {l r : NewTree K V} (h : l ≠ .sub 0) :
    m.initFrom slot src w l r = .node (m.fresh slot src w) l r := by
  unfold Mem.initFrom initializeNode
  split
  · exact absurd rfl h
  · rfl

theorem copyOf_of_internal {slot src : ℕ} {w : ℤ} (h : (m.node src).left ≠ 0) :
    m.copyOf slot src w =
      .node (m.fresh slot src w) (.sub (m.node src).left) (.sub (m.node src).right) :=
  initFrom_of_ne fun he => h (by simpa [Mem.leftOf] using he)

theorem copyOf_of_leaf {slot src : ℕ} {w : ℤ} (h : (m.node src).left = 0) :
    m.copyOf slot src w = .leaf ⟨slot, (m.node src).key, (m.node src).value, w, some 1⟩ := by
  unfold Mem.copyOf Mem.leftOf Mem.initFrom initializeNode
  simp only [h]

theorem copyOf_ne {slot src : ℕ} {w : ℤ} : m.copyOf slot src w ≠ .sub 0 := by
  by_cases h : (m.node src).left = 0
  · rw [copyOf_of_leaf h]; exact nofun
  · rw [copyOf_of_internal h]; exact nofun

theorem initFrom_node {slot src : ℕ} {w : ℤ} {a : NewNode K V} {l r r' : NewTree K V} :
    m.initFrom slot src w (.node a l r) r' =
      .node (m.fresh slot src w) (.node a l r) r' := rfl

theorem initFrom_copyOf {slot src slot' src' : ℕ} {w w' : ℤ} {r : NewTree K V} :
    m.initFrom slot src w (m.copyOf slot' src' w') r =
      .node (m.fresh slot src w) (m.copyOf slot' src' w') r :=
  initFrom_of_ne copyOf_ne

theorem initFrom_sub {slot src p : ℕ} {w : ℤ} {r : NewTree K V} (h : p ≠ 0) :
    m.initFrom slot src w (.sub p) r = .node (m.fresh slot src w) (.sub p) r :=
  initFrom_of_ne fun he => h (by simpa using he)

end Init

/-- **Copying a node with another weight shifts the weights above its exits.** -/
theorem newTrace_copyOf (slot src : ℕ) (w w₀ : ℤ) (lo : WithBot (WithTop K))
    (hi : WithTop (WithTop K)) :
    newTrace cfg w₀ lo hi (m.copyOf slot src w) =
      oldTrace cfg (w₀ + w - (m.node src).weight) lo hi (m.one src) := by
  by_cases h : (m.node src).left = 0
  · rw [copyOf_of_leaf h, Mem.one, if_pos h]
    simp [Patch.trace, nval, cval, Mem.cell]
  · rw [copyOf_of_internal h, Mem.one, if_neg h]
    simp [Patch.trace, nkey, ckey, Mem.cell, Mem.fresh]

/-! ### Rearrangements -/

/-- **A rebalancing step**, below a node with the key `uKey`: the new subtree has the exits of the
removed patch, in order and with the weights above them (shifted by `d`, which is zero unless the
step happens at the top of the real part). -/
structure Rearranges (cfg : Cfg K V) (uKey : K) (old : Patch (Cell K V) ℕ) (new : NewTree K V) :
    Prop where
  trace : ∃ d, (uKey ≠ cfg.noKey → d = 0) ∧
    ∀ lo hi, newTrace cfg 0 lo hi new = oldTrace cfg d lo hi old
  keys : ∀ a ∈ new.labels, ∃ c ∈ old.labels, a.key = c.key
  nonneg : ∀ a ∈ new.labels, 0 ≤ a.weight
  leaf_pos : ∀ a ∈ newLeaves new, 1 ≤ a.weight
  top_weight : uKey = cfg.noKey → topWeight new = 1
  plain : Plain new

/-- A node of the real part of the tree, as the memory has it. -/
structure RealNode (cfg : Cfg K V) (m : Mem K V) (x : ℕ) : Prop where
  ne_zero : x ≠ 0
  real : (m.node x).key ≠ cfg.noKey
  nonneg : 0 ≤ (m.node x).weight
  leaf_pos : (m.node x).left = 0 → 1 ≤ (m.node x).weight
  full : (m.node x).left = 0 ↔ (m.node x).right = 0

/-- An SCX record with the patch that it removes. -/
structure Removes (m : Mem K V) (rec : ScxRecord K V) (old : Patch (Cell K V) ℕ) : Prop where
  holds : m.Holds old
  top_eq : top old = rec.nth 1
  top_mem : top old ∈ pids old
  inner_sub : ∀ x ∈ inner old, x ∈ rec.toFreeze.tail
  tail_sub : ∀ x ∈ rec.toFreeze.tail, x ∈ pids old
  slots_perm : (slots rec.newNode).Perm (List.range rec.type.numInserted)

/-- A rebalancing step with the patch that it removes. -/
def Rebalances (cfg : Cfg K V) (m : Mem K V) (rec : ScxRecord K V) : Prop :=
  ∃ old, Removes m rec old ∧ Rearranges cfg (m.node (rec.nth 0)).key old rec.newNode

omit [LinearOrder K] in
@[simp] theorem labels_copyOf (slot src : ℕ) (w : ℤ) :
    (m.copyOf slot src w).labels = [⟨slot, (m.node src).key, (m.node src).value, w,
      if (m.node src).left = 0 then some 1 else none⟩] := by
  by_cases h : (m.node src).left = 0
  · simp [copyOf_of_leaf h, h, Patch.labels]
  · simp [copyOf_of_internal h, h, Patch.labels, Mem.fresh]

omit [LinearOrder K] in
@[simp] theorem newLeaves_copyOf (slot src : ℕ) (w : ℤ) :
    newLeaves (m.copyOf slot src w) = if (m.node src).left = 0 then
      [⟨slot, (m.node src).key, (m.node src).value, w, some 1⟩] else [] := by
  by_cases h : (m.node src).left = 0
  · simp [copyOf_of_leaf h, h, newLeaves]
  · simp [copyOf_of_internal h, h, newLeaves]

omit [LinearOrder K] in
@[simp] theorem slots_copyOf (slot src : ℕ) (w : ℤ) : slots (m.copyOf slot src w) = [slot] := by
  simp [slots, labels_copyOf]

omit [LinearOrder K] in
@[simp] theorem topWeight_copyOf (slot src : ℕ) (w : ℤ) : topWeight (m.copyOf slot src w) = w := by
  by_cases h : (m.node src).left = 0
  · simp [copyOf_of_leaf h, topWeight]
  · simp [copyOf_of_internal h, topWeight]

omit [LinearOrder K] in
@[simp] theorem plain_copyOf (slot src : ℕ) (w : ℤ) : Plain (m.copyOf slot src w) := by
  by_cases h : (m.node src).left = 0
  · simp [copyOf_of_leaf h, Plain]
  · simp [copyOf_of_internal h, Plain, Mem.fresh]

omit [LinearOrder K] in
@[simp] theorem top_one (x : ℕ) : top (m.one x) = x := by
  unfold Mem.one; split_ifs <;> rfl

omit [LinearOrder K] in
@[simp] theorem labels_one (x : ℕ) : (m.one x).labels = [m.cell x] := by
  unfold Mem.one; split_ifs <;> rfl

omit [LinearOrder K] in
theorem mem_inner_one {x y : ℕ} (h : y ∈ inner (m.one x)) : y = x := by
  unfold Mem.one at h
  split_ifs at h
  · simp [inner] at h
  · simpa [inner, Mem.cell] using h

omit [LinearOrder K] in
theorem holds_one_of_full {x : ℕ} (h0 : x ≠ 0)
    (hfull : (m.node x).left = 0 ↔ (m.node x).right = 0) : m.Holds (m.one x) := by
  unfold Mem.one
  split_ifs with hl
  · exact ⟨h0, ⟨rfl, rfl, rfl, hl, hfull.mp hl⟩⟩
  · exact ⟨h0, ⟨rfl, rfl, rfl, rfl, rfl⟩, hl, fun hr => hl (hfull.mpr hr)⟩

omit [LinearOrder K] in
theorem holds_one {x : ℕ} (h : RealNode cfg m x) : m.Holds (m.one x) :=
  holds_one_of_full h.ne_zero h.full

omit [LinearOrder K] in
theorem holds_node {x : ℕ} {l r : Patch (Cell K V) ℕ} (hx : x ≠ 0) (hl : (m.node x).left = top l)
    (hr : (m.node x).right = top r) (hhl : m.Holds l) (hhr : m.Holds r) :
    m.Holds (.node (m.cell x) l r) :=
  ⟨hx, ⟨rfl, rfl, rfl, hl, hr⟩, hhl, hhr⟩

omit [LinearOrder K] in
/-- A red node is internal. -/
theorem RealNode.left_ne {x : ℕ} (h : RealNode cfg m x) (hw : (m.node x).weight = 0) :
    (m.node x).left ≠ 0 := fun hl => by have := h.leaf_pos hl; omega

omit [LinearOrder K] in
theorem RealNode.right_ne {x : ℕ} (h : RealNode cfg m x) (hl : (m.node x).left ≠ 0) :
    (m.node x).right ≠ 0 := fun hr => hl (h.full.mpr hr)

omit [LinearOrder K] in
theorem RealNode.left_ne_of_right {x : ℕ} (h : RealNode cfg m x) (hr : (m.node x).right ≠ 0) :
    (m.node x).left ≠ 0 := fun hl => hr (h.full.mp hl)

omit [LinearOrder K] in
theorem inner_subset_pids (p : Patch (Cell K V) ℕ) : inner p ⊆ pids p := by
  induction p with
  | sub i => simp [inner]
  | leaf c => simp [inner]
  | node c l r ihl ihr =>
      rw [pids_node, inner]
      exact List.cons_subset_cons _ (List.append_subset.mpr
        ⟨List.Subset.trans ihl (List.subset_append_left ..),
          List.Subset.trans ihr (List.subset_append_right ..)⟩)

omit [LinearOrder K] in
/-- A rebalancing step freezes all the nodes it removes. -/
theorem Removes.of_mem_iff {rec : ScxRecord K V} {old : Patch (Cell K V) ℕ} (js : List ℕ)
    (holds : m.Holds old) (top_eq : top old = rec.nth 1)
    (mem_iff : ∀ x, x ∈ rec.toFreeze.tail ↔ x ∈ pids old) (slots_eq : slots rec.newNode = js)
    (hjs : js.Perm (List.range rec.type.numInserted))
    (top_mem : top old ∈ pids old) : Removes m rec old where
  holds := holds
  top_eq := top_eq
  top_mem := top_mem
  inner_sub := fun x hx => (mem_iff x).mpr (inner_subset_pids old hx)
  tail_sub := fun x hx => (mem_iff x).mp hx
  slots_perm := slots_eq ▸ hjs

namespace Removes

variable {rec : ScxRecord K V} {old : Patch (Cell K V) ℕ}

omit [LinearOrder K] in
theorem slots_nodup (h : Removes m rec old) : (slots rec.newNode).Nodup :=
  h.slots_perm.nodup_iff.mpr List.nodup_range

omit [LinearOrder K] in
theorem mem_slots (h : Removes m rec old) {j : ℕ} :
    j ∈ slots rec.newNode ↔ j < rec.type.numInserted :=
  h.slots_perm.mem_iff.trans List.mem_range

end Removes

/-- A rebalancing step that keeps the weights. -/
theorem rebalances_of {rec : ScxRecord K V} (js : List ℕ) (c : Cell K V)
    (l r : Patch (Cell K V) ℕ) (new : NewTree K V) (hnew : rec.newNode = new)
    (holds : m.Holds (.node c l r)) (top_eq : c.id = rec.nth 1)
    (mem_iff : ∀ x, x ∈ rec.toFreeze.tail ↔ x ∈ pids (.node c l r)) (slots_eq : slots new = js)
    (hjs : js.Perm (List.range rec.type.numInserted))
    (trace : ∀ lo hi, newTrace cfg 0 lo hi new = oldTrace cfg 0 lo hi (.node c l r))
    (keys : ∀ a ∈ new.labels, ∃ d ∈ (Patch.node c l r).labels, a.key = d.key)
    (nonneg : ∀ a ∈ new.labels, 0 ≤ a.weight) (leaf_pos : ∀ a ∈ newLeaves new, 1 ≤ a.weight)
    (top_weight : (m.node (rec.nth 0)).key = cfg.noKey → topWeight new = 1)
    (plain : Plain new) : Rebalances cfg m rec := by
  subst hnew
  have htop : top (.node c l r) ∈ pids (.node c l r) := by simp [top]
  exact ⟨.node c l r, .of_mem_iff js holds top_eq mem_iff slots_eq hjs htop,
    ⟨0, fun _ => rfl, trace⟩, keys, nonneg, leaf_pos, top_weight, plain⟩

section Steps

variable {n0 n1 n2 n3 n4 n5 : ℕ} {fl : Bool}

/-- The steps that keep the shape and only change weights: the top gets the weight `w`, its
children `a` and `b`. -/
theorem rearranges_recolor {w a b : ℤ} {uKey : K}
    (hab : a - (m.node n2).weight = b - (m.node n3).weight)
    (hw : uKey ≠ cfg.noKey → w + a = (m.node n1).weight + (m.node n2).weight)
    (hu : uKey = cfg.noKey → w = 1) (w0 : 0 ≤ w) (a0 : 0 ≤ a) (b0 : 0 ≤ b)
    (ha : (m.node n2).left = 0 → 1 ≤ a) (hb : (m.node n3).left = 0 → 1 ≤ b) :
    Rearranges cfg uKey (.node (m.cell n1) (m.one n2) (m.one n3))
      (m.initFrom 0 n1 w (m.copyOf 1 n2 a) (m.copyOf 2 n3 b)) := by
  rw [initFrom_of_ne copyOf_ne]
  refine ⟨⟨w + a - (m.node n2).weight - (m.node n1).weight, fun h => by have := hw h; omega,
    fun lo hi => ?_⟩, ?_, ?_, ?_, hu, ?_⟩
  · simp only [Patch.trace, newTrace_copyOf, nkey, ckey, Mem.cell, Mem.fresh]
    congr 2 <;> omega
  · simp [Patch.labels, labels_copyOf, Mem.cell, Mem.fresh]
  · simp [Patch.labels, labels_copyOf, Mem.fresh, w0, a0, b0]
  · simp only [newLeaves, newLeaves_copyOf, List.mem_append]
    rintro x (hx | hx) <;> split_ifs at hx with hl <;> simp at hx
    · rw [hx]; exact ha hl
    · rw [hx]; exact hb hl
  · exact ⟨rfl, plain_copyOf .., plain_copyOf ..⟩

omit [LinearOrder K] in
theorem removes_recolor {w a b : ℤ} {ty : ScxType} (hty : ty.numToFreeze = 4 ∧ ty.numInserted = 3)
    (h1 : RealNode cfg m n1) (h2 : RealNode cfg m n2) (h3 : RealNode cfg m n3)
    (hl : (m.node n1).left = n2) (hr : (m.node n1).right = n3) :
    Removes m ⟨ty, [n0, n1, n2, n3], fl, m.initFrom 0 n1 w (m.copyOf 1 n2 a) (m.copyOf 2 n3 b)⟩
      (.node (m.cell n1) (m.one n2) (m.one n3)) := by
  refine .of_mem_iff [0, 1, 2] ?_ rfl ?_ ?_ ?_ (by simp [top])
  · exact holds_node h1.ne_zero (by simpa) (by simpa) (holds_one h2) (holds_one h3)
  · simp [ScxRecord.toFreeze, hty.1, pids, Patch.labels, Mem.cell]
  · simp [initFrom_of_ne copyOf_ne, slots_copyOf, Mem.fresh]
  · rw [hty.2]; decide

/-- A step that only changes weights, with the weight of the top as the source has it. -/
theorem plan_recolor {w a b : ℤ} {ty : ScxType} (hty : ty.numToFreeze = 4 ∧ ty.numInserted = 3)
    (h1 : RealNode cfg m n1) (h2 : RealNode cfg m n2) (h3 : RealNode cfg m n3)
    (hl : (m.node n1).left = n2) (hr : (m.node n1).right = n3)
    (hab : a - (m.node n2).weight = b - (m.node n3).weight)
    (hw : w + a = (m.node n1).weight + (m.node n2).weight)
    (w0 : (m.node n0).key ≠ cfg.noKey → 0 ≤ w) (a0 : 0 ≤ a) (b0 : 0 ≤ b)
    (ha : (m.node n2).left = 0 → 1 ≤ a) (hb : (m.node n3).left = 0 → 1 ≤ b) :
    Rebalances cfg m ⟨ty, [n0, n1, n2, n3], fl,
      m.initFrom 0 n1 (if isSentinel cfg.noKey m n1 n0 then 1 else w) (m.copyOf 1 n2 a)
        (m.copyOf 2 n3 b)⟩ := by
  have hs : isSentinel cfg.noKey m n1 n0 = decide ((m.node n0).key = cfg.noKey) := by
    simp [isSentinel, h1.real]
  refine ⟨_, removes_recolor hty h1 h2 h3 hl hr, rearranges_recolor hab ?_ ?_ ?_ a0 b0 ha hb⟩
  all_goals simp only [ScxRecord.nth, List.getD_cons_zero, hs, decide_eq_true_eq]
  · intro hk
    rw [if_neg hk, hw]
  · exact fun hk => if_pos hk
  · split_ifs with hk
    · exact zero_le_one
    · exact w0 hk

/-- **The red siblings become black.** -/
theorem plan_doBlk (h1 : RealNode cfg m n1) (h2 : RealNode cfg m n2) (h3 : RealNode cfg m n3)
    (hl : (m.node n1).left = n2) (hr : (m.node n1).right = n3) (w2 : (m.node n2).weight = 0)
    (w3 : (m.node n3).weight = 0) (w1 : (m.node n0).key ≠ cfg.noKey → 1 ≤ (m.node n1).weight) :
    Rebalances cfg m (doBlk cfg.noKey m n0 n1 n2 n3 fl) :=
  plan_recolor (by decide) h1 h2 h3 hl hr (by omega) (by omega)
    (fun h => by have := w1 h; omega) zero_le_one zero_le_one (fun _ => le_rfl) fun _ => le_rfl

/-- **Weight moves from the siblings to their parent.** -/
theorem plan_doPush (h1 : RealNode cfg m n1) (h2 : RealNode cfg m n2) (h3 : RealNode cfg m n3)
    (hl : (m.node n1).left = n2) (hr : (m.node n1).right = n3) (w2 : 1 < (m.node n2).weight)
    (w3 : (m.node n3).weight = 1) (i3 : (m.node n3).left ≠ 0) :
    Rebalances cfg m (doPush cfg.noKey m n0 n1 n2 n3 fl) :=
  plan_recolor (by decide) h1 h2 h3 hl hr (by omega) (by omega)
    (fun _ => by have := h1.nonneg; omega) (by omega) le_rfl (fun _ => by omega)
    fun h => absurd h i3

theorem plan_doPushSym (h1 : RealNode cfg m n1) (h2 : RealNode cfg m n2)
    (h3 : RealNode cfg m n3) (hl : (m.node n1).left = n2) (hr : (m.node n1).right = n3)
    (w3 : 1 < (m.node n3).weight) (w2 : (m.node n2).weight = 1) (i2 : (m.node n2).left ≠ 0) :
    Rebalances cfg m (doPushSym cfg.noKey m n0 n1 n2 n3 fl) :=
  plan_recolor (by decide) h1 h2 h3 hl hr (by omega) (by omega)
    (fun _ => by have := h1.nonneg; omega) le_rfl (by omega) (fun h => absurd h i2)
    fun _ => by omega

theorem plan_doW7 (h1 : RealNode cfg m n1) (h2 : RealNode cfg m n2) (h3 : RealNode cfg m n3)
    (hl : (m.node n1).left = n2) (hr : (m.node n1).right = n3) (w2 : 1 < (m.node n2).weight)
    (w3 : 1 < (m.node n3).weight) :
    Rebalances cfg m (doW7 cfg.noKey m n0 n1 n2 n3 fl) :=
  plan_recolor (by decide) h1 h2 h3 hl hr (by omega) (by omega)
    (fun _ => by have := h1.nonneg; omega) (by omega) (by omega) (fun _ => by omega)
    fun _ => by omega

theorem plan_doW7Sym (h1 : RealNode cfg m n1) (h2 : RealNode cfg m n2) (h3 : RealNode cfg m n3)
    (hl : (m.node n1).left = n2) (hr : (m.node n1).right = n3) (w2 : 1 < (m.node n2).weight)
    (w3 : 1 < (m.node n3).weight) :
    Rebalances cfg m (doW7Sym cfg.noKey m n0 n1 n2 n3 fl) :=
  plan_recolor (by decide) h1 h2 h3 hl hr (by omega) (by omega)
    (fun _ => by have := h1.nonneg; omega) (by omega) (by omega) (fun _ => by omega)
    fun _ => by omega

/-- `doW1` and `doW2`: the red sibling `n3` is rotated above the parent, and `n4` between them gets
one unit less. -/
theorem plan_w12 {ty : ScxType} (hty : ty.numToFreeze = 5 ∧ ty.numInserted = 4) {a : ℤ}
    (h1 : RealNode cfg m n1) (h2 : RealNode cfg m n2) (h3 : RealNode cfg m n3)
    (h4 : RealNode cfg m n4) (hl : (m.node n1).left = n2) (hr : (m.node n1).right = n3)
    (hrl : (m.node n3).left = n4) (w2 : 1 < (m.node n2).weight) (w3 : (m.node n3).weight = 0)
    (ha : a = (m.node n4).weight - 1) (a0 : 0 ≤ a) (a1 : (m.node n4).left = 0 → 1 ≤ a)
    (hu : (m.node n0).key = cfg.noKey → (m.node n1).weight = 1) :
    Rebalances cfg m ⟨ty, [n0, n1, n2, n3, n4], fl, m.initFrom 0 n3 (m.node n1).weight
      (m.initFrom 1 n1 1 (m.copyOf 2 n2 ((m.node n2).weight - 1)) (m.copyOf 3 n4 a))
      (m.rightOf n3)⟩ := by
  have i3 := h3.right_ne (hrl ▸ h4.ne_zero)
  refine rebalances_of [0, 1, 2, 3] (m.cell n1)
    (m.one n2) (.node (m.cell n3) (m.one n4) (.sub (m.node n3).right))
    (.node (m.fresh 0 n3 (m.node n1).weight)
      (.node (m.fresh 1 n1 1) (m.copyOf 2 n2 ((m.node n2).weight - 1)) (m.copyOf 3 n4 a))
      (.sub (m.node n3).right)) ?_ ?_ rfl ?_ ?_ ?_ (fun lo hi => ?_) ?_ ?_ ?_ hu ?_
  · simp only [initFrom_copyOf, Mem.rightOf, initFrom_node]
  · exact holds_node h1.ne_zero (by simpa) hr (holds_one h2)
      (holds_node h3.ne_zero (by simpa) rfl (holds_one h4) i3)
  · simp [ScxRecord.toFreeze, hty.1, pids, Patch.labels, Mem.cell]
  · simp
  · rw [hty.2]; decide
  · simp only [Patch.trace, newTrace_copyOf, nkey, ckey, Mem.cell, Mem.fresh, List.append_assoc,
      w3, ha]
    ring_nf
  · simp [Patch.labels, Mem.cell]
  · simp [Patch.labels, h1.nonneg, a0]
    omega
  · simp
    grind
  · simp

theorem plan_w12Sym {ty : ScxType} (hty : ty.numToFreeze = 5 ∧ ty.numInserted = 4) {a : ℤ}
    (h1 : RealNode cfg m n1) (h2 : RealNode cfg m n2) (h3 : RealNode cfg m n3)
    (h4 : RealNode cfg m n4) (hl : (m.node n1).left = n2) (hr : (m.node n1).right = n3)
    (hlr : (m.node n2).right = n4) (w3 : 1 < (m.node n3).weight) (w2 : (m.node n2).weight = 0)
    (ha : a = (m.node n4).weight - 1) (a0 : 0 ≤ a) (a1 : (m.node n4).left = 0 → 1 ≤ a)
    (hu : (m.node n0).key = cfg.noKey → (m.node n1).weight = 1) :
    Rebalances cfg m ⟨ty, [n0, n1, n2, n3, n4], fl, m.initFrom 0 n2 (m.node n1).weight
      (m.leftOf n2)
      (m.initFrom 1 n1 1 (m.copyOf 2 n4 a) (m.copyOf 3 n3 ((m.node n3).weight - 1)))⟩ := by
  have i2 := h2.left_ne w2
  refine rebalances_of [0, 1, 2, 3] (m.cell n1)
    (.node (m.cell n2) (.sub (m.node n2).left) (m.one n4)) (m.one n3)
    (.node (m.fresh 0 n2 (m.node n1).weight) (.sub (m.node n2).left)
      (.node (m.fresh 1 n1 1) (m.copyOf 2 n4 a) (m.copyOf 3 n3 ((m.node n3).weight - 1))))
    ?_ ?_ rfl ?_ ?_ ?_ (fun lo hi => ?_) ?_ ?_ ?_ hu ?_
  · simp only [initFrom_copyOf, Mem.leftOf, initFrom_sub i2]
  · exact holds_node h1.ne_zero hl (by simpa)
      (holds_node h2.ne_zero rfl (by simpa) i2 (holds_one h4)) (holds_one h3)
  · simp [ScxRecord.toFreeze, hty.1, pids, Patch.labels, Mem.cell]
    omega
  · simp
  · rw [hty.2]; decide
  · simp only [Patch.trace, newTrace_copyOf, nkey, ckey, Mem.cell, Mem.fresh, List.append_assoc,
      w2, ha]
    ring_nf
  · simp [Patch.labels, Mem.cell]
  · simp [Patch.labels, h1.nonneg, a0]
    omega
  · simp
    grind
  · simp

/-- **A red node is rotated above its parent.** -/
theorem plan_doRb1
    (h1 : RealNode cfg m n1) (h2 : RealNode cfg m n2) (hl : (m.node n1).left = n2)
    (w2 : (m.node n2).weight = 0) (hu : (m.node n0).key = cfg.noKey → (m.node n1).weight = 1) :
    Rebalances cfg m (doRb1 m n0 n1 n2 fl) := by
  have i2 := h2.left_ne w2
  have i1 := h1.right_ne (hl ▸ h2.ne_zero)
  refine rebalances_of [0, 1] (m.cell n1) (m.one n2) (.sub (m.node n1).right)
    (.node (m.fresh 0 n2 (m.node n1).weight) (.sub (m.node n2).left)
      (.node (m.fresh 1 n1 0) (.sub (m.node n2).right) (.sub (m.node n1).right)))
    ?_ ?_ rfl ?_ ?_ ?_ (fun lo hi => ?_) ?_ ?_ ?_ hu ?_
  · simp only [doRb1, Mem.leftOf, Mem.rightOf, initFrom_sub (h2.right_ne i2), initFrom_sub i2]
  · exact holds_node h1.ne_zero (by simpa) rfl (holds_one h2) i1
  · simp [doRb1, ScxRecord.toFreeze, ScxType.numToFreeze, pids, Patch.labels, Mem.cell]
  · simp
  · exact (by decide : List.Perm [0, 1] (List.range 2))
  · simp only [Patch.trace, nkey, ckey, Mem.cell, Mem.fresh, Mem.one, if_neg i2,
      List.append_assoc, w2]
    ring_nf
  · simp [Patch.labels, Mem.cell]
  · simp [Patch.labels, h1.nonneg]
  · simp
  · simp

theorem plan_doRb1Sym
    (h1 : RealNode cfg m n1) (h2 : RealNode cfg m n2) (hr : (m.node n1).right = n2)
    (w2 : (m.node n2).weight = 0) (hu : (m.node n0).key = cfg.noKey → (m.node n1).weight = 1) :
    Rebalances cfg m (doRb1Sym m n0 n1 n2 fl) := by
  have i2 := h2.left_ne w2
  have i1 := h1.left_ne_of_right (hr ▸ h2.ne_zero)
  refine rebalances_of [0, 1] (m.cell n1) (.sub (m.node n1).left) (m.one n2)
    (.node (m.fresh 0 n2 (m.node n1).weight)
      (.node (m.fresh 1 n1 0) (.sub (m.node n1).left) (.sub (m.node n2).left))
      (.sub (m.node n2).right))
    ?_ ?_ rfl ?_ ?_ ?_ (fun lo hi => ?_) ?_ ?_ ?_ hu ?_
  · simp only [doRb1Sym, Mem.leftOf, Mem.rightOf, initFrom_sub i1, initFrom_node]
  · exact holds_node h1.ne_zero rfl (by simpa) i1 (holds_one h2)
  · simp [doRb1Sym, ScxRecord.toFreeze, ScxType.numToFreeze, pids, Patch.labels, Mem.cell]
  · simp
  · exact (by decide : List.Perm [0, 1] (List.range 2))
  · simp only [Patch.trace, nkey, ckey, Mem.cell, Mem.fresh, Mem.one, if_neg i2,
      List.append_assoc, w2]
    ring_nf
  · simp [Patch.labels, Mem.cell]
  · simp [Patch.labels, h1.nonneg]
  · simp
  · simp

/-- **A red node is rotated above its parent and its grandparent.** -/
theorem plan_doRb2
    (h1 : RealNode cfg m n1) (h2 : RealNode cfg m n2) (h3 : RealNode cfg m n3)
    (hl : (m.node n1).left = n2) (hlr : (m.node n2).right = n3) (w2 : (m.node n2).weight = 0)
    (w3 : (m.node n3).weight = 0) (hu : (m.node n0).key = cfg.noKey → (m.node n1).weight = 1) :
    Rebalances cfg m (doRb2 m n0 n1 n2 n3 fl) := by
  have i3 := h3.left_ne w3
  have i2 := h2.left_ne w2
  have i1 := h1.right_ne (hl ▸ h2.ne_zero)
  refine rebalances_of [0, 1, 2] (m.cell n1) (.node (m.cell n2) (.sub (m.node n2).left) (m.one n3))
      (.sub (m.node n1).right)
    (.node (m.fresh 0 n3 (m.node n1).weight)
      (.node (m.fresh 1 n2 0) (.sub (m.node n2).left) (.sub (m.node n3).left))
      (.node (m.fresh 2 n1 0) (.sub (m.node n3).right) (.sub (m.node n1).right)))
    ?_ ?_ rfl ?_ ?_ ?_ (fun lo hi => ?_) ?_ ?_ ?_ hu ?_
  · simp only [doRb2, Mem.leftOf, Mem.rightOf, initFrom_sub i2, initFrom_sub (h3.right_ne i3),
      initFrom_node]
  · exact holds_node h1.ne_zero hl rfl (holds_node h2.ne_zero rfl (by simpa) i2 (holds_one h3)) i1
  · simp [doRb2, ScxRecord.toFreeze, ScxType.numToFreeze, pids, Patch.labels, Mem.cell]
  · simp
  · exact (by decide : List.Perm [0, 1, 2] (List.range 3))
  · simp only [Patch.trace, nkey, ckey, Mem.cell, Mem.fresh, Mem.one, if_neg i3,
      List.append_assoc, w2, w3]
    ring_nf
  · simp [Patch.labels, Mem.cell]
  · simp [Patch.labels, h1.nonneg]
  · simp
  · simp

theorem plan_doRb2Sym
    (h1 : RealNode cfg m n1) (h2 : RealNode cfg m n2) (h3 : RealNode cfg m n3)
    (hr : (m.node n1).right = n2) (hrl : (m.node n2).left = n3) (w2 : (m.node n2).weight = 0)
    (w3 : (m.node n3).weight = 0) (hu : (m.node n0).key = cfg.noKey → (m.node n1).weight = 1) :
    Rebalances cfg m (doRb2Sym m n0 n1 n2 n3 fl) := by
  have i3 := h3.left_ne w3
  have i2 := h2.right_ne (hrl ▸ h3.ne_zero)
  have i1 := h1.left_ne_of_right (hr ▸ h2.ne_zero)
  refine rebalances_of [0, 1, 2] (m.cell n1) (.sub (m.node n1).left)
      (.node (m.cell n2) (m.one n3) (.sub (m.node n2).right))
    (.node (m.fresh 0 n3 (m.node n1).weight)
      (.node (m.fresh 1 n1 0) (.sub (m.node n1).left) (.sub (m.node n3).left))
      (.node (m.fresh 2 n2 0) (.sub (m.node n3).right) (.sub (m.node n2).right)))
    ?_ ?_ rfl ?_ ?_ ?_ (fun lo hi => ?_) ?_ ?_ ?_ hu ?_
  · simp only [doRb2Sym, Mem.leftOf, Mem.rightOf, initFrom_sub i1, initFrom_sub (h3.right_ne i3),
      initFrom_node]
  · exact holds_node h1.ne_zero rfl hr i1 (holds_node h2.ne_zero (by simpa) rfl (holds_one h3) i2)
  · simp [doRb2Sym, ScxRecord.toFreeze, ScxType.numToFreeze, pids, Patch.labels, Mem.cell]
  · simp
  · exact (by decide : List.Perm [0, 1, 2] (List.range 3))
  · simp only [Patch.trace, nkey, ckey, Mem.cell, Mem.fresh, Mem.one, if_neg i3,
      List.append_assoc, w2, w3]
    ring_nf
  · simp [Patch.labels, Mem.cell]
  · simp [Patch.labels, h1.nonneg]
  · simp
  · simp

theorem plan_doW3
    (h1 : RealNode cfg m n1) (h2 : RealNode cfg m n2) (h3 : RealNode cfg m n3)
    (h4 : RealNode cfg m n4) (h5 : RealNode cfg m n5) (hl : (m.node n1).left = n2)
    (hr : (m.node n1).right = n3) (hrl : (m.node n3).left = n4) (hrll : (m.node n4).left = n5)
    (w2 : 1 < (m.node n2).weight) (w3 : (m.node n3).weight = 0) (w4 : (m.node n4).weight = 1)
    (w5 : (m.node n5).weight = 0) (hu : (m.node n0).key = cfg.noKey → (m.node n1).weight = 1) :
    Rebalances cfg m (doW3 m n0 n1 n2 n3 n4 n5 fl) := by
  have i5 := h5.left_ne w5
  have i4 := h4.right_ne (hrll ▸ h5.ne_zero)
  have i3 := h3.right_ne (hrl ▸ h4.ne_zero)
  refine rebalances_of [0, 1, 2, 4, 3] (m.cell n1) (m.one n2) (.node (m.cell n3)
      (.node (m.cell n4) (m.one n5) (.sub (m.node n4).right)) (.sub (m.node n3).right))
    (.node (m.fresh 0 n3 (m.node n1).weight)
      (.node (m.fresh 1 n5 0)
        (.node (m.fresh 2 n1 1) (m.copyOf 4 n2 ((m.node n2).weight - 1)) (.sub (m.node n5).left))
        (.node (m.fresh 3 n4 1) (.sub (m.node n5).right) (.sub (m.node n4).right)))
      (.sub (m.node n3).right))
    ?_ ?_ rfl ?_ ?_ ?_ (fun lo hi => ?_) ?_ ?_ ?_ hu ?_
  · simp only [doW3, initFrom_copyOf, Mem.leftOf, Mem.rightOf, initFrom_sub (h5.right_ne i5),
      initFrom_node]
  · exact holds_node h1.ne_zero (by simpa) hr (holds_one h2) (holds_node h3.ne_zero hrl rfl
      (holds_node h4.ne_zero (by simpa) rfl (holds_one h5) i4) i3)
  · simp [doW3, ScxRecord.toFreeze, ScxType.numToFreeze, pids, Patch.labels, Mem.cell]
  · simp
  · exact (by decide : List.Perm [0, 1, 2, 4, 3] (List.range 5))
  · simp only [Patch.trace, newTrace_copyOf, nkey, ckey, Mem.cell, Mem.fresh, Mem.one, if_neg i5,
      List.append_assoc, w3, w4, w5]
    ring_nf
  · simp [Patch.labels, Mem.cell]
  · simp [Patch.labels, h1.nonneg]
    omega
  · simp
    omega
  · simp

theorem plan_doW3Sym
    (h1 : RealNode cfg m n1) (h2 : RealNode cfg m n2) (h3 : RealNode cfg m n3)
    (h4 : RealNode cfg m n4) (h5 : RealNode cfg m n5) (hl : (m.node n1).left = n2)
    (hr : (m.node n1).right = n3) (hlr : (m.node n2).right = n4) (hlrr : (m.node n4).right = n5)
    (w3 : 1 < (m.node n3).weight) (w2 : (m.node n2).weight = 0) (w4 : (m.node n4).weight = 1)
    (w5 : (m.node n5).weight = 0) (hu : (m.node n0).key = cfg.noKey → (m.node n1).weight = 1) :
    Rebalances cfg m (doW3Sym m n0 n1 n2 n3 n4 n5 fl) := by
  have i5 := h5.left_ne w5
  have i4 := h4.left_ne_of_right (hlrr ▸ h5.ne_zero)
  have i2 := h2.left_ne w2
  refine rebalances_of [0, 1, 2, 3, 4] (m.cell n1) (.node (m.cell n2) (.sub (m.node n2).left)
      (.node (m.cell n4) (.sub (m.node n4).left) (m.one n5))) (m.one n3)
    (.node (m.fresh 0 n2 (m.node n1).weight) (.sub (m.node n2).left)
      (.node (m.fresh 1 n5 0)
        (.node (m.fresh 2 n4 1) (.sub (m.node n4).left) (.sub (m.node n5).left))
        (.node (m.fresh 3 n1 1) (.sub (m.node n5).right) (m.copyOf 4 n3 ((m.node n3).weight - 1)))))
    ?_ ?_ rfl ?_ ?_ ?_ (fun lo hi => ?_) ?_ ?_ ?_ hu ?_
  · simp only [doW3Sym, Mem.leftOf, Mem.rightOf, initFrom_sub i4, initFrom_sub (h5.right_ne i5),
      initFrom_sub i2, initFrom_node]
  · exact holds_node h1.ne_zero hl (by simpa) (holds_node h2.ne_zero rfl hlr i2 (holds_node
      h4.ne_zero rfl (by simpa) i4 (holds_one h5))) (holds_one h3)
  · simp [doW3Sym, ScxRecord.toFreeze, ScxType.numToFreeze, pids, Patch.labels, Mem.cell]
    omega
  · simp
  · exact (by decide : List.Perm [0, 1, 2, 3, 4] (List.range 5))
  · simp only [Patch.trace, newTrace_copyOf, nkey, ckey, Mem.cell, Mem.fresh, Mem.one, if_neg i5,
      List.append_assoc, w2, w4, w5]
    ring_nf
  · simp [Patch.labels, Mem.cell]
  · simp [Patch.labels, h1.nonneg]
    omega
  · simp
    omega
  · simp

theorem plan_doW4
    (h1 : RealNode cfg m n1) (h2 : RealNode cfg m n2) (h3 : RealNode cfg m n3)
    (h4 : RealNode cfg m n4) (h5 : RealNode cfg m n5) (hl : (m.node n1).left = n2)
    (hr : (m.node n1).right = n3) (hrl : (m.node n3).left = n4) (hrlr : (m.node n4).right = n5)
    (w2 : 1 < (m.node n2).weight) (w3 : (m.node n3).weight = 0) (w4 : (m.node n4).weight = 1)
    (w5 : (m.node n5).weight = 0) (hu : (m.node n0).key = cfg.noKey → (m.node n1).weight = 1) :
    Rebalances cfg m (doW4 m n0 n1 n2 n3 n4 n5 fl) := by
  have i4 := h4.left_ne_of_right (hrlr ▸ h5.ne_zero)
  have i3 := h3.right_ne (hrl ▸ h4.ne_zero)
  refine rebalances_of [0, 1, 3, 2, 4] (m.cell n1) (m.one n2) (.node (m.cell n3)
      (.node (m.cell n4) (.sub (m.node n4).left) (m.one n5)) (.sub (m.node n3).right))
    (.node (m.fresh 0 n4 (m.node n1).weight)
      (.node (m.fresh 1 n1 1) (m.copyOf 3 n2 ((m.node n2).weight - 1)) (.sub (m.node n4).left))
      (.node (m.fresh 2 n3 0) (m.copyOf 4 n5 1) (.sub (m.node n3).right)))
    ?_ ?_ rfl ?_ ?_ ?_ (fun lo hi => ?_) ?_ ?_ ?_ hu ?_
  · simp only [doW4, initFrom_copyOf, Mem.leftOf, Mem.rightOf, initFrom_node]
  · exact holds_node h1.ne_zero (by simpa) hr (holds_one h2) (holds_node h3.ne_zero hrl rfl
      (holds_node h4.ne_zero rfl (by simpa) i4 (holds_one h5)) i3)
  · simp [doW4, ScxRecord.toFreeze, ScxType.numToFreeze, pids, Patch.labels, Mem.cell]
  · simp
  · exact (by decide : List.Perm [0, 1, 3, 2, 4] (List.range 5))
  · simp only [Patch.trace, newTrace_copyOf, nkey, ckey, Mem.cell, Mem.fresh, List.append_assoc,
      w3, w4, w5]
    ring_nf
  · simp [Patch.labels, Mem.cell]
  · simp [Patch.labels, h1.nonneg]
    omega
  · simp
    grind
  · simp

theorem plan_doW4Sym
    (h1 : RealNode cfg m n1) (h2 : RealNode cfg m n2) (h3 : RealNode cfg m n3)
    (h4 : RealNode cfg m n4) (h5 : RealNode cfg m n5) (hl : (m.node n1).left = n2)
    (hr : (m.node n1).right = n3) (hlr : (m.node n2).right = n4) (hlrl : (m.node n4).left = n5)
    (w3 : 1 < (m.node n3).weight) (w2 : (m.node n2).weight = 0) (w4 : (m.node n4).weight = 1)
    (w5 : (m.node n5).weight = 0) (hu : (m.node n0).key = cfg.noKey → (m.node n1).weight = 1) :
    Rebalances cfg m (doW4Sym m n0 n1 n2 n3 n4 n5 fl) := by
  have i4 := h4.right_ne (hlrl ▸ h5.ne_zero)
  have i2 := h2.left_ne w2
  refine rebalances_of [0, 1, 3, 2, 4] (m.cell n1) (.node (m.cell n2) (.sub (m.node n2).left)
      (.node (m.cell n4) (m.one n5) (.sub (m.node n4).right))) (m.one n3)
    (.node (m.fresh 0 n4 (m.node n1).weight)
      (.node (m.fresh 1 n2 0) (.sub (m.node n2).left) (m.copyOf 3 n5 1))
      (.node (m.fresh 2 n1 1) (.sub (m.node n4).right) (m.copyOf 4 n3 ((m.node n3).weight - 1))))
    ?_ ?_ rfl ?_ ?_ ?_ (fun lo hi => ?_) ?_ ?_ ?_ hu ?_
  · simp only [doW4Sym, Mem.leftOf, Mem.rightOf, initFrom_sub i2, initFrom_sub i4, initFrom_node]
  · exact holds_node h1.ne_zero hl (by simpa) (holds_node h2.ne_zero rfl hlr i2 (holds_node
      h4.ne_zero (by simpa) rfl (holds_one h5) i4)) (holds_one h3)
  · simp [doW4Sym, ScxRecord.toFreeze, ScxType.numToFreeze, pids, Patch.labels, Mem.cell]
    omega
  · simp
  · exact (by decide : List.Perm [0, 1, 3, 2, 4] (List.range 5))
  · simp only [Patch.trace, newTrace_copyOf, nkey, ckey, Mem.cell, Mem.fresh, List.append_assoc,
      w2, w4, w5]
    ring_nf
  · simp [Patch.labels, Mem.cell]
  · simp [Patch.labels, h1.nonneg]
    omega
  · simp
    grind
  · simp

theorem plan_doW5
    (h1 : RealNode cfg m n1) (h2 : RealNode cfg m n2) (h3 : RealNode cfg m n3)
    (h4 : RealNode cfg m n4) (hl : (m.node n1).left = n2) (hr : (m.node n1).right = n3)
    (hrr : (m.node n3).right = n4) (w2 : 1 < (m.node n2).weight) (w3 : (m.node n3).weight = 1)
    (w4 : (m.node n4).weight = 0) (hu : (m.node n0).key = cfg.noKey → (m.node n1).weight = 1) :
    Rebalances cfg m (doW5 m n0 n1 n2 n3 n4 fl) := by
  have i3 := h3.left_ne_of_right (hrr ▸ h4.ne_zero)
  refine rebalances_of [0, 1, 3, 2] (m.cell n1)
    (m.one n2) (.node (m.cell n3) (.sub (m.node n3).left) (m.one n4))
    (.node (m.fresh 0 n3 (m.node n1).weight)
      (.node (m.fresh 1 n1 1) (m.copyOf 3 n2 ((m.node n2).weight - 1)) (.sub (m.node n3).left))
      (m.copyOf 2 n4 1))
    ?_ ?_ rfl ?_ ?_ ?_ (fun lo hi => ?_) ?_ ?_ ?_ hu ?_
  · simp only [doW5, initFrom_copyOf, Mem.leftOf, initFrom_node]
  · exact holds_node h1.ne_zero (by simpa) hr (holds_one h2) (holds_node h3.ne_zero rfl (by simpa)
      i3 (holds_one h4))
  · simp [doW5, ScxRecord.toFreeze, ScxType.numToFreeze, pids, Patch.labels, Mem.cell]
  · simp
  · exact (by decide : List.Perm [0, 1, 3, 2] (List.range 4))
  · simp only [Patch.trace, newTrace_copyOf, nkey, ckey, Mem.cell, Mem.fresh, List.append_assoc,
      w3, w4]
    ring_nf
  · simp [Patch.labels, Mem.cell]
  · simp [Patch.labels, h1.nonneg]
    omega
  · simp
    grind
  · simp

theorem plan_doW5Sym
    (h1 : RealNode cfg m n1) (h2 : RealNode cfg m n2) (h3 : RealNode cfg m n3)
    (h4 : RealNode cfg m n4) (hl : (m.node n1).left = n2) (hr : (m.node n1).right = n3)
    (hll : (m.node n2).left = n4) (w3 : 1 < (m.node n3).weight) (w2 : (m.node n2).weight = 1)
    (w4 : (m.node n4).weight = 0) (hu : (m.node n0).key = cfg.noKey → (m.node n1).weight = 1) :
    Rebalances cfg m (doW5Sym m n0 n1 n2 n3 n4 fl) := by
  have i2 := h2.right_ne (hll ▸ h4.ne_zero)
  refine rebalances_of [0, 1, 2, 3] (m.cell n1)
    (.node (m.cell n2) (m.one n4) (.sub (m.node n2).right)) (m.one n3)
    (.node (m.fresh 0 n2 (m.node n1).weight) (m.copyOf 1 n4 1)
      (.node (m.fresh 2 n1 1) (.sub (m.node n2).right) (m.copyOf 3 n3 ((m.node n3).weight - 1))))
    ?_ ?_ rfl ?_ ?_ ?_ (fun lo hi => ?_) ?_ ?_ ?_ hu ?_
  · simp only [doW5Sym, initFrom_copyOf, Mem.rightOf, initFrom_sub i2]
  · exact holds_node h1.ne_zero hl (by simpa) (holds_node h2.ne_zero (by simpa) rfl (holds_one h4)
      i2) (holds_one h3)
  · simp [doW5Sym, ScxRecord.toFreeze, ScxType.numToFreeze, pids, Patch.labels, Mem.cell]
    omega
  · simp
  · exact (by decide : List.Perm [0, 1, 2, 3] (List.range 4))
  · simp only [Patch.trace, newTrace_copyOf, nkey, ckey, Mem.cell, Mem.fresh, List.append_assoc,
      w2, w4]
    ring_nf
  · simp [Patch.labels, Mem.cell]
  · simp [Patch.labels, h1.nonneg]
    omega
  · simp
    grind
  · simp

theorem plan_doW6
    (h1 : RealNode cfg m n1) (h2 : RealNode cfg m n2) (h3 : RealNode cfg m n3)
    (h4 : RealNode cfg m n4) (hl : (m.node n1).left = n2) (hr : (m.node n1).right = n3)
    (hrl : (m.node n3).left = n4) (w2 : 1 < (m.node n2).weight) (w3 : (m.node n3).weight = 1)
    (w4 : (m.node n4).weight = 0) (hu : (m.node n0).key = cfg.noKey → (m.node n1).weight = 1) :
    Rebalances cfg m (doW6 m n0 n1 n2 n3 n4 fl) := by
  have i4 := h4.left_ne w4
  have i3 := h3.right_ne (hrl ▸ h4.ne_zero)
  refine rebalances_of [0, 1, 3, 2] (m.cell n1)
    (m.one n2) (.node (m.cell n3) (m.one n4) (.sub (m.node n3).right))
    (.node (m.fresh 0 n4 (m.node n1).weight)
      (.node (m.fresh 1 n1 1) (m.copyOf 3 n2 ((m.node n2).weight - 1)) (.sub (m.node n4).left))
      (.node (m.fresh 2 n3 1) (.sub (m.node n4).right) (.sub (m.node n3).right)))
    ?_ ?_ rfl ?_ ?_ ?_ (fun lo hi => ?_) ?_ ?_ ?_ hu ?_
  · simp only [doW6, initFrom_copyOf, Mem.leftOf, Mem.rightOf, initFrom_sub (h4.right_ne i4),
      initFrom_node]
  · exact holds_node h1.ne_zero (by simpa) hr (holds_one h2) (holds_node h3.ne_zero (by simpa) rfl
      (holds_one h4) i3)
  · simp [doW6, ScxRecord.toFreeze, ScxType.numToFreeze, pids, Patch.labels, Mem.cell]
  · simp
  · exact (by decide : List.Perm [0, 1, 3, 2] (List.range 4))
  · simp only [Patch.trace, newTrace_copyOf, nkey, ckey, Mem.cell, Mem.fresh, Mem.one, if_neg i4,
      List.append_assoc, w3, w4]
    ring_nf
  · simp [Patch.labels, Mem.cell]
  · simp [Patch.labels, h1.nonneg]
    omega
  · simp
    omega
  · simp

theorem plan_doW6Sym
    (h1 : RealNode cfg m n1) (h2 : RealNode cfg m n2) (h3 : RealNode cfg m n3)
    (h4 : RealNode cfg m n4) (hl : (m.node n1).left = n2) (hr : (m.node n1).right = n3)
    (hlr : (m.node n2).right = n4) (w3 : 1 < (m.node n3).weight) (w2 : (m.node n2).weight = 1)
    (w4 : (m.node n4).weight = 0) (hu : (m.node n0).key = cfg.noKey → (m.node n1).weight = 1) :
    Rebalances cfg m (doW6Sym m n0 n1 n2 n3 n4 fl) := by
  have i4 := h4.left_ne w4
  have i2 := h2.left_ne_of_right (hlr ▸ h4.ne_zero)
  refine rebalances_of [0, 1, 2, 3] (m.cell n1)
    (.node (m.cell n2) (.sub (m.node n2).left) (m.one n4)) (m.one n3)
    (.node (m.fresh 0 n4 (m.node n1).weight)
      (.node (m.fresh 1 n2 1) (.sub (m.node n2).left) (.sub (m.node n4).left))
      (.node (m.fresh 2 n1 1) (.sub (m.node n4).right) (m.copyOf 3 n3 ((m.node n3).weight - 1))))
    ?_ ?_ rfl ?_ ?_ ?_ (fun lo hi => ?_) ?_ ?_ ?_ hu ?_
  · simp only [doW6Sym, Mem.leftOf, Mem.rightOf, initFrom_sub i2, initFrom_sub (h4.right_ne i4),
      initFrom_node]
  · exact holds_node h1.ne_zero hl (by simpa) (holds_node h2.ne_zero rfl (by simpa) i2 (holds_one
      h4)) (holds_one h3)
  · simp [doW6Sym, ScxRecord.toFreeze, ScxType.numToFreeze, pids, Patch.labels, Mem.cell]
    omega
  · simp
  · exact (by decide : List.Perm [0, 1, 2, 3] (List.range 4))
  · simp only [Patch.trace, newTrace_copyOf, nkey, ckey, Mem.cell, Mem.fresh, Mem.one, if_neg i4,
      List.append_assoc, w2, w4]
    ring_nf
  · simp [Patch.labels, Mem.cell]
  · simp [Patch.labels, h1.nonneg]
    omega
  · simp
    omega
  · simp

end Steps

end Cbat
