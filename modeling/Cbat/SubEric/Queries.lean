/-
**The queries of the unbalanced tree.**

`lookup` and `range_sum` read the version tree below the version of the root, which does not change
while they do.  `range_sum` first goes down to the node where the ways to its two bounds part, and
then from there along both ways, with a queue; on each of them it adds up the subtrees that lie
between the bounds.  A shortcut takes a subtree as a whole that reaches beyond both bounds, the
wrong way round; it is never taken, since the subtrees in the queue lie on one side of the node
where the ways part, and so between two keys one of which is a bound.

Main definitions:

* `Cbat.SubEric.lookup`, `Cbat.SubEric.search` — the queries for a key;
* `Cbat.SubEric.splitPoint`, `Cbat.SubEric.sumLoop`, `Cbat.SubEric.rangeSum` — **the sum over a
  range**;
* `Cbat.SubEric.Shows` — the version tree shows a tree;
* `Cbat.SubEric.inRange` — the sum of the values in a range.

Main results:

* `Cbat.SubEric.lookup_eq` — `lookup` returns the value in the leaf of the key;
* `Cbat.SubEric.rangeSum_eq` — **`range_sum` returns the sum over the range.**
-/

import Cbat.SubEric.Machine
import Mathlib

set_option relaxedAutoImplicit false
set_option autoImplicit false

namespace Cbat.SubEric

/-! ### The code -/

namespace VersionInfo

/-- The children. -/
def child : VersionInfo → Bool → VersionInfo
  | nil, _ => nil
  | mk _ _ _ _ _ left right, d => if d then right else left

section Fields

variable (id : ℕ) (k lo hi s : ℤ) (left right : VersionInfo)

@[simp] theorem minKey_mk : (mk id k lo hi s left right).minKey = lo := rfl
@[simp] theorem maxKey_mk : (mk id k lo hi s left right).maxKey = hi := rfl
@[simp] theorem sum_mk : (mk id k lo hi s left right).sum = s := rfl

end Fields

/-- The number of the nodes, the null pointers counted. -/
def size : VersionInfo → ℕ
  | nil => 1
  | mk _ _ _ _ _ left right => 1 + left.size + right.size

theorem size_pos (v : VersionInfo) : 0 < v.size := by
  cases v with
  | nil => exact Nat.one_pos
  | mk id k lo hi s left right => simp only [size]; omega

theorem size_child_lt (id : ℕ) (k lo hi s : ℤ) (left right : VersionInfo) (d : Bool) :
    ((mk id k lo hi s left right).child d).size < (mk id k lo hi s left right).size := by
  have := left.size_pos
  have := right.size_pos
  cases d <;> simp only [child, size, Bool.false_eq_true, if_false, if_true] <;> omega

end VersionInfo

/-- `lookup`, from a version on. -/
def lookup (key : ℤ) : VersionInfo → ℤ
  | .nil => sentinalValue
  | .mk _ k minKey maxKey sum left right =>
      if left ≠ .nil then
        if key < minKey ∨ maxKey < key then sentinalValue
        else if key < k then lookup key left
        else lookup key right
      else if k = key then sum
      else sentinalValue

/-- `search` -/
def search (key : ℤ) (v : VersionInfo) : Bool := decide (lookup key v ≠ sentinalValue)

/-- The first loop of `range_sum`: it ends where the ways to the bounds part. -/
def splitPoint (keySt keyEd : ℤ) : VersionInfo → VersionInfo
  | .nil => .nil
  | .mk id k minKey maxKey sum left right =>
      let stDir := if k ≤ keySt then true else false
      let edDir := if k > keyEd then false else true
      if stDir = edDir ∧ (if stDir then right else left) ≠ .nil then
        if stDir then splitPoint keySt keyEd right else splitPoint keySt keyEd left
      else .mk id k minKey maxKey sum left right

/-- `dir`: where the way to a bound goes on. -/
def boundDir (keySt keyEd k : ℤ) (rDir : Bool) : Bool :=
  if rDir = false then (if k < keySt then true else false)
  else (if k ≤ keyEd then true else false)

/-- The second loop of `range_sum`, with the queue `q` and the sum so far. -/
def sumLoop (keySt keyEd : ℤ) : List (VersionInfo × Bool) → ℤ → ℤ
  | [], result => result
  | (.nil, _) :: q, result => sumLoop keySt keyEd q result
  | (.mk id k minKey maxKey sum left right, rDir) :: q, result =>
      if keyEd < minKey ∨ maxKey < keySt then sumLoop keySt keyEd q result
      else if minKey ≤ keySt ∧ keyEd ≤ maxKey then sumLoop keySt keyEd q (result + sum)
      else if left = .nil ∧ right = .nil then
        if keySt ≤ k ∧ k ≤ keyEd then sumLoop keySt keyEd q (result + sum)
        else sumLoop keySt keyEd q result
      else
        let v := VersionInfo.mk id k minKey maxKey sum left right
        let dir := boundDir keySt keyEd k rDir
        sumLoop keySt keyEd (q ++ [(v.child dir, rDir)])
          (if rDir = dir then result + (v.child (!dir)).sum else result)
termination_by q => (q.map fun item => item.1.size).sum
decreasing_by
  all_goals simp only [List.map_append, List.map_cons, List.map_nil, List.sum_append,
    List.sum_cons, List.sum_nil]
  · exact Nat.lt_add_of_pos_left (VersionInfo.size_pos _)
  · exact Nat.lt_add_of_pos_left (VersionInfo.size_pos _)
  · exact Nat.lt_add_of_pos_left (VersionInfo.size_pos _)
  · exact Nat.lt_add_of_pos_left (VersionInfo.size_pos _)
  · exact Nat.lt_add_of_pos_left (VersionInfo.size_pos _)
  · have := VersionInfo.size_child_lt id k minKey maxKey sum left right
      (boundDir keySt keyEd k rDir)
    omega

/-- `range_sum` -/
def rangeSum (keySt keyEd : ℤ) (v : VersionInfo) : ℤ :=
  match splitPoint keySt keyEd v with
  | .nil => 0
  | .mk _ k _ _ sum left right =>
      if left = .nil ∧ right = .nil then
        if keySt ≤ k ∧ k ≤ keyEd then sum else 0
      else sumLoop keySt keyEd [(left, false), (right, true)] 0

/-! ### What a version tree shows -/

section Trees

variable {α : Type*} (key val : α → ℤ)

/-- **The version tree shows the tree** with these keys, and these values in the leaves. -/
def Shows : LTree α → VersionInfo → Prop
  | .leaf a, v => ∃ id, v = .mk id (key a) (key a) (key a) (val a) .nil .nil
  | .node a l r, v => ∃ id vl vr, Shows l vl ∧ Shows r vr ∧
      v = .mk id (key a) (min vl.minKey vr.minKey) (max vl.maxKey vr.maxKey) (vl.sum + vr.sum) vl vr

/-- The sum of the values in the leaves with keys between the bounds. -/
def inRange (keySt keyEd : ℤ) (t : LTree α) : ℤ :=
  (t.leaves.map fun a => if keySt ≤ key a ∧ key a ≤ keyEd then val a else 0).sum

variable {key val} {keySt keyEd : ℤ} {t l r : LTree α} {v : VersionInfo} {a : α}

theorem Shows.ne_nil (h : Shows key val t v) : v ≠ .nil := by
  cases t with
  | leaf a =>
      obtain ⟨id, rfl⟩ := h
      exact nofun
  | node a l r =>
      obtain ⟨id, vl, vr, -, -, rfl⟩ := h
      exact nofun

theorem inRange_leaf : inRange key val keySt keyEd (.leaf a) =
    if keySt ≤ key a ∧ key a ≤ keyEd then val a else 0 := by
  simp [inRange]

theorem inRange_node : inRange key val keySt keyEd (.node a l r) =
    inRange key val keySt keyEd l + inRange key val keySt keyEd r := by
  simp [inRange]

theorem inRange_eq_zero (h : ∀ x ∈ t.leaves, key x < keySt ∨ keyEd < key x) :
    inRange key val keySt keyEd t = 0 := by
  refine List.sum_eq_zero fun y hy => ?_
  obtain ⟨x, hx, rfl⟩ := List.mem_map.mp hy
  refine if_neg fun hin => ?_
  have := h x hx
  omega

/-- **The sum of a version** is the sum of the values below it. -/
theorem Shows.sum_eq (h : Shows key val t v) : v.sum = (t.leaves.map val).sum := by
  induction t generalizing v with
  | leaf a =>
      obtain ⟨id, rfl⟩ := h
      simp [VersionInfo.sum]
  | node a l r ihl ihr =>
      obtain ⟨id, vl, vr, hl, hr, rfl⟩ := h
      rw [LTree.leaves_node, List.map_append, List.sum_append, ← ihl hl, ← ihr hr]
      rfl

theorem Shows.inRange_eq_sum (h : Shows key val t v)
    (hin : ∀ x ∈ t.leaves, keySt ≤ key x ∧ key x ≤ keyEd) :
    inRange key val keySt keyEd t = v.sum := by
  rw [h.sum_eq, inRange]
  exact congrArg List.sum (List.map_congr_left fun x hx => if_pos (hin x hx))

/-- **`min_key` and `max_key` bound the keys below a version.** -/
theorem Shows.key_between (h : Shows key val t v) {x : α} (hx : x ∈ t.leaves) :
    v.minKey ≤ key x ∧ key x ≤ v.maxKey := by
  induction t generalizing v with
  | leaf a =>
      obtain ⟨id, rfl⟩ := h
      obtain rfl : x = a := by simpa using hx
      exact ⟨le_rfl, le_rfl⟩
  | node a l r ihl ihr =>
      obtain ⟨id, vl, vr, hl, hr, rfl⟩ := h
      rcases List.mem_append.mp hx with hx | hx
      · exact ⟨(min_le_left _ _).trans (ihl hl hx).1, (ihl hl hx).2.trans (le_max_left _ _)⟩
      · exact ⟨(min_le_right _ _).trans (ihr hr hx).1, (ihr hr hx).2.trans (le_max_right _ _)⟩

/-- They are keys. -/
theorem Shows.minKey_mem (h : Shows key val t v) : ∃ x ∈ t.leaves, key x = v.minKey := by
  induction t generalizing v with
  | leaf a =>
      obtain ⟨id, rfl⟩ := h
      exact ⟨a, by simp, rfl⟩
  | node a l r ihl ihr =>
      obtain ⟨id, vl, vr, hl, hr, rfl⟩ := h
      obtain ⟨x, hx, hxk⟩ := ihl hl
      obtain ⟨y, hy, hyk⟩ := ihr hr
      rcases min_choice vl.minKey vr.minKey with he | he
      · exact ⟨x, List.mem_append_left _ hx, hxk.trans he.symm⟩
      · exact ⟨y, List.mem_append_right _ hy, hyk.trans he.symm⟩

theorem Shows.maxKey_mem (h : Shows key val t v) : ∃ x ∈ t.leaves, key x = v.maxKey := by
  induction t generalizing v with
  | leaf a =>
      obtain ⟨id, rfl⟩ := h
      exact ⟨a, by simp, rfl⟩
  | node a l r ihl ihr =>
      obtain ⟨id, vl, vr, hl, hr, rfl⟩ := h
      obtain ⟨x, hx, hxk⟩ := ihl hl
      obtain ⟨y, hy, hyk⟩ := ihr hr
      rcases max_choice vl.maxKey vr.maxKey with he | he
      · exact ⟨x, List.mem_append_left _ hx, hxk.trans he.symm⟩
      · exact ⟨y, List.mem_append_right _ hy, hyk.trans he.symm⟩

/-! ### `lookup` -/

variable {lo : WithBot ℤ} {hi : WithTop ℤ}

/-- **`lookup` returns the value in the leaf of the key**, if there is one. -/
theorem lookup_eq (h : Shows key val t v) (q : ℤ) :
    lookup q v = if key (t.leafAt key q) = q then val (t.leafAt key q) else sentinalValue := by
  induction t generalizing v with
  | leaf a =>
      obtain ⟨id, rfl⟩ := h
      exact if_neg (not_not.mpr rfl)
  | node a l r ihl ihr =>
      have hbounds : ∀ x ∈ (LTree.node a l r).leaves, v.minKey ≤ key x ∧ key x ≤ v.maxKey :=
        fun x hx => h.key_between hx
      have hmem := LTree.leafAt_mem_leaves key q (.node a l r)
      obtain ⟨id, vl, vr, hl, hr, rfl⟩ := h
      rw [lookup, if_pos hl.ne_nil]
      by_cases hout : q < min vl.minKey vr.minKey ∨ max vl.maxKey vr.maxKey < q
      · -- no leaf has the key
        have hne : key ((LTree.node a l r).leafAt key q) ≠ q := by
          intro he
          have hb := hbounds _ hmem
          rw [he] at hb
          rcases hout with hlt | hlt
          · exact absurd hb.1 (not_le.mpr hlt)
          · exact absurd hb.2 (not_le.mpr hlt)
        rw [if_pos hout, if_neg hne]
      · rw [if_neg hout, LTree.leafAt_node]
        by_cases hq : q < key a
        · rw [if_pos hq, if_pos hq]
          exact ihl hl
        · rw [if_neg hq, if_neg hq]
          exact ihr hr

/-! ### `range_sum` -/

/-- A subtree in the queue: it is skipped at once, or it lies on the inner side of one of the
bounds. -/
structure Ready (key val : α → ℤ) (keySt keyEd : ℤ) (t : LTree α) (v : VersionInfo) (rDir : Bool) :
    Prop where
  shows : Shows key val t v
  ordered : ∃ lo hi, t.Within key lo hi
  side : keyEd < v.minKey ∨ v.maxKey < keySt ∨
    if rDir then ∀ x ∈ t.leaves, keySt < key x else ∀ x ∈ t.leaves, key x < keyEd

theorem within_left (h : (LTree.node a l r).Within key lo hi) : ∀ x ∈ l.leaves, key x < key a :=
  fun _ hx => WithTop.coe_lt_coe.mp (h.1.mem_leaves hx).2

theorem within_right (h : (LTree.node a l r).Within key lo hi) : ∀ x ∈ r.leaves, key a ≤ key x :=
  fun _ hx => WithBot.coe_le_coe.mp (h.2.mem_leaves hx).1

/-- **The shortcut is not taken**: a subtree on the inner side of a bound does not reach beyond
it. -/
theorem Ready.not_shortcut {d : Bool} (h : Ready key val keySt keyEd t v d)
    (hin : ¬(keyEd < v.minKey ∨ v.maxKey < keySt)) :
    ¬(v.minKey ≤ keySt ∧ keyEd ≤ v.maxKey) := by
  rintro ⟨hmin, hmax⟩
  have hside := (or_assoc.mpr h.side).resolve_left hin
  cases d with
  | false =>
      obtain ⟨x, hx, hxk⟩ := h.shows.maxKey_mem
      have : key x < keyEd := hside x hx
      omega
  | true =>
      obtain ⟨x, hx, hxk⟩ := h.shows.minKey_mem
      have : keySt < key x := hside x hx
      omega

/-- The way to a bound goes on in a child; the other one lies between the bounds, or outside. -/
theorem Ready.child {d : Bool} {id : ℕ} {vl vr : VersionInfo} {mn mx sm : ℤ}
    (hv : v = .mk id (key a) mn mx sm vl vr) (hl : Shows key val l vl) (hr : Shows key val r vr)
    (hw : (LTree.node a l r).Within key lo hi)
    (hside : if d then ∀ x ∈ (LTree.node a l r).leaves, keySt < key x
      else ∀ x ∈ (LTree.node a l r).leaves, key x < keyEd) :
    ∃ t', Ready key val keySt keyEd t' (v.child (boundDir keySt keyEd (key a) d)) d ∧
      inRange key val keySt keyEd (.node a l r) = inRange key val keySt keyEd t' +
        if d = boundDir keySt keyEd (key a) d then
          (v.child (!boundDir keySt keyEd (key a) d)).sum else 0 := by
  have hlt := within_left hw
  have hge := within_right hw
  subst hv
  rw [inRange_node]
  cases d with
  | false =>
      have hside : ∀ x, x ∈ l.leaves ∨ x ∈ r.leaves → key x < keyEd := by simpa using hside
      by_cases hst : key a < keySt
      · -- the left subtree is outside
        have hd : boundDir keySt keyEd (key a) false = true := by simp [boundDir, hst]
        rw [hd]
        refine ⟨r, ⟨hr, ⟨_, _, hw.2⟩, .inr (.inr fun x hx => hside x (.inr hx))⟩, ?_⟩
        have h0 : inRange key val keySt keyEd l = 0 :=
          inRange_eq_zero fun x hx => .inl ((hlt x hx).trans hst)
        rw [h0, zero_add, if_neg (by decide), add_zero]
      · -- the right subtree is between the bounds
        have hd : boundDir keySt keyEd (key a) false = false := by simp [boundDir, hst]
        rw [hd]
        refine ⟨l, ⟨hl, ⟨_, _, hw.1⟩, .inr (.inr fun x hx => hside x (.inl hx))⟩, ?_⟩
        have h1 : inRange key val keySt keyEd r = vr.sum :=
          hr.inRange_eq_sum fun x hx => ⟨(not_lt.mp hst).trans (hge x hx), (hside x (.inr hx)).le⟩
        rw [h1, if_pos rfl]
        rfl
  | true =>
      have hside : ∀ x, x ∈ l.leaves ∨ x ∈ r.leaves → keySt < key x := by simpa using hside
      by_cases hed : key a ≤ keyEd
      · -- the left subtree is between the bounds
        have hd : boundDir keySt keyEd (key a) true = true := by simp [boundDir, hed]
        rw [hd]
        refine ⟨r, ⟨hr, ⟨_, _, hw.2⟩, .inr (.inr fun x hx => hside x (.inr hx))⟩, ?_⟩
        have h1 : inRange key val keySt keyEd l = vl.sum :=
          hl.inRange_eq_sum fun x hx => ⟨(hside x (.inl hx)).le, (hlt x hx).le.trans hed⟩
        rw [h1, if_pos rfl, add_comm]
        rfl
      · -- the right subtree is outside
        have hd : boundDir keySt keyEd (key a) true = false := by simp [boundDir, hed]
        rw [hd]
        refine ⟨l, ⟨hl, ⟨_, _, hw.1⟩, .inr (.inr fun x hx => hside x (.inl hx))⟩, ?_⟩
        have h0 : inRange key val keySt keyEd r = 0 :=
          inRange_eq_zero fun x hx => .inr ((not_le.mp hed).trans_le (hge x hx))
        rw [h0, if_neg (by decide)]

/-- **One turn of the loop**: it is done with the first subtree, or goes on in a child of it. -/
theorem sumLoop_cons {d : Bool} (h : Ready key val keySt keyEd t v d)
    (q : List (VersionInfo × Bool)) (result : ℤ) :
    sumLoop keySt keyEd ((v, d) :: q) result =
      sumLoop keySt keyEd q (result + inRange key val keySt keyEd t) ∨
    ∃ t' v' x, Ready key val keySt keyEd t' v' d ∧ v'.size < v.size ∧
      inRange key val keySt keyEd t = inRange key val keySt keyEd t' + x ∧
      sumLoop keySt keyEd ((v, d) :: q) result =
        sumLoop keySt keyEd (q ++ [(v', d)]) (result + x) := by
  by_cases hout : keyEd < v.minKey ∨ v.maxKey < keySt
  · left
    have h0 : inRange key val keySt keyEd t = 0 := by
      refine inRange_eq_zero fun x hx => ?_
      have := h.shows.key_between hx
      omega
    have hne := h.shows.ne_nil
    cases v with
    | nil => exact absurd rfl hne
    | mk id k mn mx sm vl vr =>
        rw [VersionInfo.minKey_mk, VersionInfo.maxKey_mk] at hout
        rw [sumLoop, if_pos hout, h0, add_zero]
  · have hshort := h.not_shortcut hout
    have hside := (or_assoc.mpr h.side).resolve_left hout
    obtain ⟨hshows, ⟨lo, hi, hw⟩, -⟩ := h
    cases t with
    | leaf a =>
        left
        obtain ⟨id, rfl⟩ := hshows
        rw [VersionInfo.minKey_mk, VersionInfo.maxKey_mk] at hout hshort
        rw [sumLoop, if_neg hout, if_neg hshort, if_pos ⟨rfl, rfl⟩, inRange_leaf]
        split_ifs
        · rfl
        · rw [add_zero]
    | node a l r =>
        right
        obtain ⟨id, vl, vr, hl, hr, rfl⟩ := hshows
        obtain ⟨t', ht', hsum⟩ := Ready.child rfl hl hr hw hside
        refine ⟨t', _, _, ht', VersionInfo.size_child_lt .., hsum, ?_⟩
        rw [VersionInfo.minKey_mk, VersionInfo.maxKey_mk] at hout hshort
        rw [sumLoop, if_neg hout, if_neg hshort, if_neg fun hn => hl.ne_nil hn.1]
        dsimp only
        split_ifs
        · rfl
        · rw [add_zero]

/-- **The second loop adds up what is between the bounds** in the subtrees of the queue. -/
theorem sumLoop_eq {ts : List (LTree α)} {q : List (VersionInfo × Bool)}
    (h : List.Forall₂ (fun t item => Ready key val keySt keyEd t item.1 item.2) ts q)
    (result : ℤ) : sumLoop keySt keyEd q result =
      result + (ts.map (inRange key val keySt keyEd)).sum := by
  induction hn : (q.map fun item => item.1.size).sum using Nat.strong_induction_on
    generalizing ts q result with
  | _ n ih =>
      cases h with
      | nil => simp [sumLoop]
      | @cons t item ts q ht hq =>
          obtain ⟨v, d⟩ := item
          have hpos := v.size_pos
          simp only [List.map_cons, List.sum_cons] at hn ⊢
          rcases sumLoop_cons (v := v) (d := d) ht q result with
            he | ⟨t', v', x, ht', hlt, hx, he⟩
          · rw [he, ih _ (by omega) hq _ rfl]
            omega
          · have hq' : List.Forall₂ (fun t item => Ready key val keySt keyEd t item.1 item.2)
                (ts ++ [t']) (q ++ [(v', d)]) := List.rel_append hq (.cons ht' .nil)
            rw [he, ih _ ?_ hq' _ rfl]
            · simp only [List.map_append, List.sum_append, List.map_cons, List.map_nil,
                List.sum_cons, List.sum_nil, hx]
              omega
            · simp only [List.map_append, List.sum_append, List.map_cons, List.map_nil,
                List.sum_cons, List.sum_nil]
              omega

variable (keySt keyEd) in
/-- **The first loop** leaves out subtrees outside the range.  It ends at a leaf, or at a node with
bounds on both sides. -/
theorem splitPoint_eq (h : Shows key val t v) (hw : t.Within key lo hi) :
    ∃ t' lo' hi', Shows key val t' (splitPoint keySt keyEd v) ∧ t'.Within key lo' hi' ∧
      inRange key val keySt keyEd t' = inRange key val keySt keyEd t ∧
      ∀ a l r, t' = .node a l r →
        keySt < key a ∧ key a ≤ keyEd ∨ keyEd < key a ∧ key a ≤ keySt := by
  induction t generalizing v lo hi with
  | leaf a =>
      refine ⟨.leaf a, lo, hi, ?_, hw, rfl, nofun⟩
      obtain ⟨id, rfl⟩ := h
      rw [splitPoint, if_neg]
      · exact ⟨id, rfl⟩
      · rintro ⟨-, hne⟩
        exact hne (by split_ifs <;> rfl)
  | node a l r ihl ihr =>
      have hlt := within_left hw
      have hge := within_right hw
      have hshows := h
      obtain ⟨id, vl, vr, hl, hr, rfl⟩ := h
      rw [splitPoint]
      by_cases hst : key a ≤ keySt <;> by_cases hed : key a > keyEd
      · refine ⟨_, lo, hi, ?_, hw, rfl, ?_⟩
        · simpa [hst, hed] using hshows
        · rintro a l r ⟨⟩
          exact .inr ⟨hed, hst⟩
      · -- the left subtree is below the range
        obtain ⟨t', lo', hi', hs, hw', he, hn⟩ := ihr hr hw.2
        refine ⟨t', lo', hi', ?_, hw', ?_, hn⟩
        · simpa [hst, hed, hr.ne_nil] using hs
        · have h0 : inRange key val keySt keyEd l = 0 :=
            inRange_eq_zero fun x hx => .inl ((hlt x hx).trans_le hst)
          rw [he, inRange_node, h0, zero_add]
      · -- the right subtree is above the range
        obtain ⟨t', lo', hi', hs, hw', he, hn⟩ := ihl hl hw.1
        refine ⟨t', lo', hi', ?_, hw', ?_, hn⟩
        · simpa [hst, hed, hl.ne_nil] using hs
        · have h0 : inRange key val keySt keyEd r = 0 :=
            inRange_eq_zero fun x hx => .inr (lt_of_lt_of_le hed (hge x hx))
          rw [he, inRange_node, h0, add_zero]
      · refine ⟨_, lo, hi, ?_, hw, rfl, ?_⟩
        · simpa [hst, hed] using hshows
        · rintro a l r ⟨⟩
          exact .inl ⟨not_le.mp hst, not_lt.mp hed⟩

/-- **`range_sum` returns the sum over the range.** -/
theorem rangeSum_eq (h : Shows key val t v) (hw : t.Within key lo hi) :
    rangeSum keySt keyEd v = inRange key val keySt keyEd t := by
  obtain ⟨t', lo', hi', hs, hw', he, hn⟩ := splitPoint_eq keySt keyEd h hw
  rw [rangeSum, ← he]
  cases t' with
  | leaf a =>
      obtain ⟨id, hv⟩ := hs
      rw [hv, inRange_leaf]
      exact if_pos ⟨rfl, rfl⟩
  | node a l r =>
      obtain ⟨id, vl, vr, hl, hr, hv⟩ := hs
      have hlt := within_left hw'
      have hge := within_right hw'
      rw [hv]
      simp only [if_neg fun hnil : vl = .nil ∧ vr = .nil => hl.ne_nil hnil.1]
      have left : Ready key val keySt keyEd l vl false := by
        refine ⟨hl, ⟨_, _, hw'.1⟩, ?_⟩
        rcases hn a l r rfl with ⟨-, hed⟩ | ⟨-, hst⟩
        · exact .inr (.inr fun x hx => (hlt x hx).trans_le hed)
        · obtain ⟨x, hx, hxk⟩ := hl.maxKey_mem
          exact .inr (.inl (hxk ▸ (hlt x hx).trans_le hst))
      have right : Ready key val keySt keyEd r vr true := by
        refine ⟨hr, ⟨_, _, hw'.2⟩, ?_⟩
        rcases hn a l r rfl with ⟨hst, -⟩ | ⟨hed, -⟩
        · exact .inr (.inr fun x hx => hst.trans_le (hge x hx))
        · obtain ⟨x, hx, hxk⟩ := hr.minKey_mem
          exact .inl (hxk ▸ hed.trans_le (hge x hx))
      rw [sumLoop_eq (.cons left (.cons right .nil)), inRange_node]
      simp

/-! ### The range, key by key -/

/-- The value in the leaf of the key `k`, or zero. -/
def valueAt (key val : α → ℤ) (t : LTree α) (k : ℤ) : ℤ :=
  if key (t.leafAt key k) = k then val (t.leafAt key k) else 0

theorem valueAt_eq_zero {k : ℤ} (h : ∀ x ∈ t.leaves, key x ≠ k) : valueAt key val t k = 0 :=
  if_neg (h _ (LTree.leafAt_mem_leaves key k t))

theorem valueAt_node (hw : (LTree.node a l r).Within key lo hi) (k : ℤ) :
    valueAt key val (.node a l r) k = valueAt key val l k + valueAt key val r k := by
  rw [valueAt, LTree.leafAt_node]
  by_cases hk : k < key a
  · have h0 : valueAt key val r k = 0 :=
      valueAt_eq_zero fun x hx => (hk.trans_le (within_right hw x hx)).ne'
    rw [if_pos hk, h0, add_zero]
    rfl
  · have h0 : valueAt key val l k = 0 :=
      valueAt_eq_zero fun x hx => ((within_left hw x hx).trans_le (not_lt.mp hk)).ne
    rw [if_neg hk, h0, zero_add]
    rfl

/-- **The sum over the range**, key by key. -/
theorem inRange_eq_sum (hw : t.Within key lo hi) :
    inRange key val keySt keyEd t = ∑ k ∈ Finset.Icc keySt keyEd, valueAt key val t k := by
  induction t generalizing lo hi with
  | leaf a =>
      rw [inRange_leaf]
      refine Eq.trans ?_ (Finset.sum_ite_eq (Finset.Icc keySt keyEd) (key a) fun _ => val a).symm
      simp only [Finset.mem_Icc]
  | node a l r ihl ihr =>
      simp only [inRange_node, valueAt_node hw, Finset.sum_add_distrib, ihl hw.1, ihr hw.2]

end Trees

end Cbat.SubEric
