/-
**Versions and the queries that read them.**

A `Version` of the augmented chromatic tree is an immutable record: the key of the node it belongs
to, the number of keys below it, and the versions its children had when it was built.  The version
held by the root is therefore a whole tree that no later update changes, and `contains`,
`rangeQuery`, `getRank` and `selectItem` are plain recursions over it.  This module has the records,
the queries as the code computes them, and what they return on a version tree with the sentinel
layout.

Main definitions:

* `Cbat.Ver` — version records; `addr` is the address, so that two records are the same object
  exactly when they are equal;
* `Cbat.containsLoop`, `Cbat.doRangeQuery`, `Cbat.doGetRank`, `Cbat.doSelectItem`,
  `Cbat.compareKeys` — the queries;
* `Cbat.RealTree`, `Cbat.SentinelLayout` — the shape of a version tree of the root;
* `Cbat.Ver.leftSpine` — the routing keys and left sums on the leftmost path.

Main results:

* `Cbat.rangeQuery_eq_count` — **the range query counts exactly**;
* `Cbat.doGetRank_eq`, `Cbat.doSelectItem_eq` — what `getRank` and `selectItem` compute: both
  recursive calls go left, so only the leftmost path of the tree matters.
-/

import Mathlib.Order.Lattice
import Mathlib.Data.List.Basic
import Mathlib.Data.List.Count
import Mathlib.Tactic.Linarith

set_option relaxedAutoImplicit false
set_option autoImplicit false

namespace Cbat

/-- A version record.  `nil` is the null pointer; the status is null (`0`) except in the
delegating variants. -/
inductive Ver (K : Type) where
  | nil : Ver K
  | mk (addr : ℕ) (key : K) (sum : ℤ) (left right : Ver K) (status : ℕ) : Ver K
  deriving DecidableEq

namespace Ver

variable {K : Type}

/-- The null test. -/
def isNil : Ver K → Bool
  | nil => true
  | mk _ _ _ _ _ _ => false

/-- The field `sum`. -/
def sum : Ver K → ℤ
  | nil => 0
  | mk _ _ s _ _ _ => s

/-- The field `status`. -/
def status : Ver K → ℕ
  | nil => 0
  | mk _ _ _ _ _ ps => ps

@[simp] theorem isNil_nil : (nil : Ver K).isNil = true := rfl
@[simp] theorem isNil_mk (a : ℕ) (k : K) (s : ℤ) (l r : Ver K) (ps : ℕ) :
    (mk a k s l r ps).isNil = false := rfl
@[simp] theorem sum_nil : (nil : Ver K).sum = 0 := rfl
@[simp] theorem sum_mk (a : ℕ) (k : K) (s : ℤ) (l r : Ver K) (ps : ℕ) :
    (mk a k s l r ps).sum = s := rfl
@[simp] theorem status_mk (a : ℕ) (k : K) (s : ℤ) (l r : Ver K) (ps : ℕ) :
    (mk a k s l r ps).status = ps := rfl

theorem isNil_iff {v : Ver K} : v.isNil = true ↔ v = nil := by
  cases v <;> simp

theorem isNil_eq_false_iff {v : Ver K} : v.isNil = false ↔ v ≠ nil := by
  cases v <;> simp

/-- The keys of the leaf versions, from left to right. -/
def leafKeys : Ver K → List K
  | nil => []
  | mk _ k _ l r _ => if l.isNil then [k] else l.leafKeys ++ r.leafKeys

theorem leafKeys_mk {l : Ver K} (hl : l ≠ nil) (a : ℕ) (k : K) (s : ℤ) (r : Ver K) (ps : ℕ) :
    (mk a k s l r ps).leafKeys = l.leafKeys ++ r.leafKeys := by
  rw [leafKeys, if_neg (by simpa [isNil_iff] using hl)]

/-- The records reachable from a version, itself included. -/
def reach : Ver K → List (Ver K)
  | nil => []
  | mk a k s l r ps => mk a k s l r ps :: (l.reach ++ r.reach)

end Ver

section Queries

variable {K : Type} [LinearOrder K] (noKey : K)

/-- `contains`: the loop over the versions. -/
def containsLoop (key : K) : Ver K → Bool
  | .nil => false
  | .mk _ k _ l r _ =>
      if l.isNil then decide (key = k)
      else if k = noKey ∨ key < k then containsLoop key l
      else containsLoop key r

/-- `compareKeys`: `a < b`, where `NO_KEY` is minus infinity if it is the lower bound of a range
and plus infinity otherwise. -/
def compareKeys (a : K) (aIsLo : Bool) (b : K) (bIsLo : Bool) : Bool :=
  if a = noKey then aIsLo
  else if b = noKey then !bIsLo
  else decide (a < b)

/-- `doRangeQuery`. -/
def doRangeQuery (lo hi : K) : Ver K → ℤ
  | .nil => 0
  | .mk _ k s l r _ =>
      if lo = noKey ∧ hi = noKey then s
      else if l.isNil then
        if k ≠ noKey ∧ compareKeys noKey k false lo true = false
            ∧ compareKeys noKey hi false k false = false then 1 else 0
      else if k = noKey ∨ compareKeys noKey hi false k false then doRangeQuery lo hi l
      else if compareKeys noKey k false lo true then doRangeQuery lo hi r
      else doRangeQuery lo noKey l + doRangeQuery noKey hi r

/-- `doGetRank`.  As in the code, `currRight` is read from the field `left`. -/
def doGetRank (key : K) : Ver K → ℤ
  | .nil => 0
  | .mk _ k _ l _ _ =>
      if l.isNil then if k = key then 1 else -1
      else
        let currLeft := l
        let currRight := l
        if k = noKey ∨ key < k then doGetRank key currLeft
        else currLeft.sum + doGetRank key currRight

/-- The part of a version tree that holds real keys: every internal version has two children, the
keys are search-ordered and every sum is the number of leaves below. -/
def RealTree : Ver K → Prop
  | .nil => False
  | .mk a k s l r ps =>
      k ≠ noKey ∧ s = (Ver.mk a k s l r ps).leafKeys.length ∧
        if l.isNil then r.isNil = true
        else RealTree l ∧ RealTree r ∧ (∀ j ∈ l.leafKeys, j < k) ∧ ∀ j ∈ r.leafKeys, k ≤ j

/-- The version tree of the root: the root has the key `NO_KEY` and no right child; its left child
is a leaf with the key `NO_KEY`, or an internal version with this key above a tree of real keys
and a leaf with the key `NO_KEY`. -/
def SentinelLayout : Ver K → Prop
  | .mk _ k _ (.mk _ k' _ l r _) .nil _ =>
      k = noKey ∧ k' = noKey ∧
        ((l.isNil ∧ r.isNil) ∨
          RealTree noKey l ∧ ∃ a s ps, r = .mk a noKey s .nil .nil ps)
  | _ => False

theorem realTree_mk_iff {a : ℕ} {k : K} {s : ℤ} {l r : Ver K} {ps : ℕ} :
    RealTree noKey (.mk a k s l r ps) ↔
      k ≠ noKey ∧ s = (Ver.mk a k s l r ps).leafKeys.length ∧
        ((l = .nil ∧ r = .nil) ∨
          l ≠ .nil ∧ RealTree noKey l ∧ RealTree noKey r ∧ (∀ j ∈ l.leafKeys, j < k) ∧
            ∀ j ∈ r.leafKeys, k ≤ j) := by
  cases l with
  | nil => simp [RealTree, Ver.isNil_iff]
  | mk => simp [RealTree]

instance decidableRealTree : ∀ v : Ver K, Decidable (RealTree noKey v)
  | .nil => .isFalse id
  | .mk _ _ _ l r _ =>
      have := decidableRealTree l
      have := decidableRealTree r
      decidable_of_iff _ (realTree_mk_iff noKey).symm

theorem RealTree.ne_nil {v : Ver K} (h : RealTree noKey v) : v ≠ .nil := by
  rintro rfl; exact h

theorem RealTree.sum_eq {v : Ver K} (h : RealTree noKey v) : v.sum = v.leafKeys.length := by
  cases v with
  | nil => exact h.elim
  | mk => exact h.2.1

/-- All leaf keys are real. -/
theorem RealTree.leafKeys_ne {v : Ver K} (h : RealTree noKey v) : ∀ j ∈ v.leafKeys, j ≠ noKey := by
  induction v with
  | nil => exact h.elim
  | mk a k s l r ps ihl ihr =>
      obtain ⟨hk, -, ⟨rfl, rfl⟩ | ⟨hl, hL, hR, -, -⟩⟩ := (realTree_mk_iff noKey).mp h
      · simpa [Ver.leafKeys] using hk
      · intro j hj
        simp only [Ver.leafKeys, Ver.isNil_eq_false_iff.mpr hl, Bool.false_eq_true, if_false,
          List.mem_append] at hj
        exact hj.elim (ihl hL j) (ihr hR j)

/-! ### The range query -/

/-- The bounds of a range query: `NO_KEY` means unbounded. -/
def InRange (lo hi k : K) : Prop :=
  (lo = noKey ∨ lo ≤ k) ∧ (hi = noKey ∨ k ≤ hi)

instance (lo hi k : K) : Decidable (InRange noKey lo hi k) :=
  inferInstanceAs (Decidable ((lo = noKey ∨ lo ≤ k) ∧ (hi = noKey ∨ k ≤ hi)))

variable {noKey}

theorem compareKeys_hi {hi k : K} (hk : k ≠ noKey) :
    compareKeys noKey hi false k false = true ↔ hi ≠ noKey ∧ hi < k := by
  unfold compareKeys
  split_ifs with h <;> simp [h]

theorem compareKeys_lo {lo k : K} (hk : k ≠ noKey) :
    compareKeys noKey k false lo true = true ↔ lo ≠ noKey ∧ k < lo := by
  unfold compareKeys
  rw [if_neg hk]
  split_ifs with h <;> simp [h]

/-- On a leaf the two comparisons test the range. -/
theorem leaf_test_iff {lo hi k : K} (hk : k ≠ noKey) :
    (compareKeys noKey k false lo true = false ∧ compareKeys noKey hi false k false = false) ↔
      InRange noKey lo hi k := by
  rw [← Bool.not_eq_true, ← Bool.not_eq_true, compareKeys_lo hk, compareKeys_hi hk]
  simp only [InRange, not_and_or, not_not, not_lt]

/-- Above a routing key the upper bound cannot fail, below it the lower one cannot. -/
theorem countP_inRange_left {lo hi k : K} {js : List K} (hhi : hi = noKey ∨ k ≤ hi)
    (hjs : ∀ j ∈ js, j < k) :
    js.countP (fun j => decide (InRange noKey lo noKey j)) =
      js.countP fun j => decide (InRange noKey lo hi j) := by
  refine List.countP_congr fun j hj => ?_
  have hj' : hi = noKey ∨ j ≤ hi := hhi.imp_right ((hjs j hj).le.trans ·)
  simp [InRange, hj']

theorem countP_inRange_right {lo hi k : K} {js : List K} (hlo : lo = noKey ∨ lo ≤ k)
    (hjs : ∀ j ∈ js, k ≤ j) :
    js.countP (fun j => decide (InRange noKey noKey hi j)) =
      js.countP fun j => decide (InRange noKey lo hi j) := by
  refine List.countP_congr fun j hj => ?_
  have hj' : lo = noKey ∨ lo ≤ j := hlo.imp_right (·.trans (hjs j hj))
  simp [InRange, hj']

/-- **The recursion on the part with real keys counts the keys in the range**, also for the two
half-open queries it splits into and for the shortcut through the sum. -/
theorem doRangeQuery_realTree {v : Ver K} (h : RealTree noKey v) (lo hi : K) :
    doRangeQuery noKey lo hi v =
      (v.leafKeys.countP fun j => decide (InRange noKey lo hi j) : ℕ) := by
  induction v generalizing lo hi with
  | nil => exact h.elim
  | mk a k s l r ps ihl ihr =>
      obtain ⟨hk, hs, hcase⟩ := (realTree_mk_iff noKey).mp h
      rw [doRangeQuery]
      split_ifs with hb hnil hleaf hleft hright
      · -- unbounded on both sides: the sum is the number of leaves
        rw [List.countP_eq_length.mpr fun j _ => by simp [InRange, hb]]
        exact hs
      · -- a leaf inside the range
        have hin := (leaf_test_iff hk).mp hleaf.2
        simp [Ver.leafKeys, hnil, hin]
      · -- a leaf outside the range
        have hout : ¬ InRange noKey lo hi k := fun hin => hleaf ⟨hk, (leaf_test_iff hk).mpr hin⟩
        simp [Ver.leafKeys, hnil, hout]
      all_goals
        obtain ⟨hl, hL, hR, hlt, hge⟩ := hcase.resolve_left fun h => hnil (by simp [h.1])
        rw [Ver.leafKeys, if_neg hnil, List.countP_append]
      · -- the upper bound is below the routing key: no key on the right is in the range
        have hhi := (compareKeys_hi hk).mp (hleft.resolve_left hk)
        have h0 : r.leafKeys.countP (fun j => decide (InRange noKey lo hi j)) = 0 := by
          refine List.countP_eq_zero.mpr fun j hj => ?_
          have : ¬ j ≤ hi := not_le.mpr (hhi.2.trans_le (hge j hj))
          simp [InRange, hhi.1, this]
        rw [ihl hL, h0, Nat.add_zero]
      · -- the lower bound is above the routing key: no key on the left is in the range
        have hlo := (compareKeys_lo hk).mp hright
        have h0 : l.leafKeys.countP (fun j => decide (InRange noKey lo hi j)) = 0 := by
          refine List.countP_eq_zero.mpr fun j hj => ?_
          have : ¬ lo ≤ j := not_le.mpr ((hlt j hj).trans hlo.2)
          simp [InRange, hlo.1, this]
        rw [ihr hR, h0, Nat.zero_add]
      · -- the routing key is in the range: two half-open queries
        have hhi : hi = noKey ∨ k ≤ hi := by
          by_contra hc
          rw [not_or, not_le] at hc
          exact hleft (.inr ((compareKeys_hi hk).mpr hc))
        have hlo : lo = noKey ∨ lo ≤ k := by
          by_contra hc
          rw [not_or, not_le] at hc
          exact hright ((compareKeys_lo hk).mpr hc)
        rw [ihl hL, ihr hR, countP_inRange_left hhi hlt, countP_inRange_right hlo hge,
          Nat.cast_add]

/-- `rangeQuery`, on the version that it loads from the root. -/
def rangeQuery (noKey lo hi : K) (rootVersion : Ver K) : ℤ :=
  doRangeQuery noKey lo hi rootVersion

/-- The keys of a version tree with the sentinel layout are those of its real part; a query that
is bounded on one side at least descends to that part. -/
theorem SentinelLayout.cases {v : Ver K} (h : SentinelLayout noKey v) :
    ((∀ lo hi, ¬ (lo = noKey ∧ hi = noKey) → doRangeQuery noKey lo hi v = 0) ∧
        (∀ key, key ≠ noKey → doGetRank noKey key v = -1) ∧ v.leafKeys = [noKey]) ∨
      ∃ t, RealTree noKey t ∧ v.leafKeys = t.leafKeys ++ [noKey] ∧
        (∀ lo hi, ¬ (lo = noKey ∧ hi = noKey) →
          doRangeQuery noKey lo hi v = doRangeQuery noKey lo hi t) ∧
        ∀ key, doGetRank noKey key v = doGetRank noKey key t := by
  unfold SentinelLayout at h
  split at h
  · obtain ⟨rfl, rfl, ⟨hl, hr⟩ | ⟨hT, a, s, ps, rfl⟩⟩ := h
    · obtain rfl := Ver.isNil_iff.mp hl
      obtain rfl := Ver.isNil_iff.mp hr
      refine .inl ⟨fun lo hi hb => ?_, fun key hkey => ?_, by simp [Ver.leafKeys]⟩
      · simp [doRangeQuery, hb]
      · simp [doGetRank, Ne.symm hkey]
    · have hnil := Ver.isNil_eq_false_iff.mpr (hT.ne_nil _)
      refine .inr ⟨_, hT, by simp [Ver.leafKeys, hnil], fun lo hi hb => ?_, fun key => ?_⟩
      · simp [doRangeQuery, hb, hnil]
      · simp [doGetRank, hnil]
  · exact h.elim

/-- **The range query counts exactly.**  On every version tree with the sentinel layout, and for
all bounds that are not both `NO_KEY`, it returns the number of real leaf keys in the range. -/
theorem rangeQuery_eq_count {v : Ver K} (hv : SentinelLayout noKey v) {lo hi : K}
    (hb : ¬ (lo = noKey ∧ hi = noKey)) :
    rangeQuery noKey lo hi v =
      (v.leafKeys.countP fun k => decide (k ≠ noKey ∧ InRange noKey lo hi k) : ℕ) := by
  rcases hv.cases with ⟨h0, -, hkeys⟩ | ⟨t, ht, hkeys, hq, -⟩
  · rw [rangeQuery, h0 lo hi hb, hkeys]
    simp
  · rw [rangeQuery, hq lo hi hb, hkeys, doRangeQuery_realTree ht, List.countP_append]
    congr 1
    have hlast : [noKey].countP (fun k => decide (k ≠ noKey ∧ InRange noKey lo hi k)) = 0 := by
      simp
    rw [hlast, Nat.add_zero]
    refine List.countP_congr fun j hj => ?_
    simp [ht.leafKeys_ne _ j hj]

/-- The version tree that the keys 10, 20 and 30 have when they are inserted in this order. -/
def sampleVer : Ver ℕ :=
  .mk 9 0 3 (.mk 8 0 3
    (.mk 7 20 3 (.mk 1 10 1 .nil .nil 0)
      (.mk 6 30 2 (.mk 4 20 1 .nil .nil 0) (.mk 5 30 1 .nil .nil 0) 0) 0)
    (.mk 2 0 0 .nil .nil 0) 0) .nil 0

theorem rangeQuery_sampleVer :
    SentinelLayout 0 sampleVer ∧ ¬ (15 = 0 ∧ 30 = 0) ∧ rangeQuery 0 15 30 sampleVer = 2 :=
  have hv : SentinelLayout 0 sampleVer :=
    ⟨rfl, rfl, .inr ⟨by decide, 2, 0, 0, rfl⟩⟩
  ⟨hv, by decide, (rangeQuery_eq_count hv (by decide)).trans (by decide)⟩

/-! ### Rank and selection -/

/-- The routing keys on the leftmost path, with the sums of the left children. -/
def Ver.leftSpine : Ver K → List (K × ℤ)
  | .nil => []
  | .mk _ k _ l _ _ => if l.isNil then [] else (k, l.sum) :: l.leftSpine

omit [LinearOrder K] in
theorem Ver.leftSpine_mk {l : Ver K} (hl : l ≠ .nil) (a : ℕ) (k : K) (s : ℤ) (r : Ver K) (ps : ℕ) :
    (Ver.mk a k s l r ps).leftSpine = (k, l.sum) :: l.leftSpine := by
  rw [Ver.leftSpine, if_neg (by simpa [Ver.isNil_iff] using hl)]

omit [LinearOrder K] in
theorem Ver.leafKeys_ne_nil {v : Ver K} (h : v ≠ .nil) : v.leafKeys ≠ [] := by
  induction v with
  | nil => exact absurd rfl h
  | mk a k s l r ps ihl _ =>
      rw [Ver.leafKeys]
      split_ifs with hl
      · simp
      · exact fun hn => ihl (fun he => hl (by simp [he])) (List.append_eq_nil_iff.mp hn).1

omit [LinearOrder K] in
/-- The leftmost leaf of an internal version is that of its left child. -/
theorem Ver.head?_leafKeys {l : Ver K} (hl : l ≠ .nil) (a : ℕ) (k : K) (s : ℤ) (r : Ver K)
    (ps : ℕ) : (Ver.mk a k s l r ps).leafKeys.head? = l.leafKeys.head? := by
  rw [Ver.leafKeys_mk hl, List.head?_append_of_ne_nil]
  exact Ver.leafKeys_ne_nil hl

/-- The keys of the real part increase from left to right. -/
theorem RealTree.pairwise {v : Ver K} (h : RealTree noKey v) : v.leafKeys.Pairwise (· < ·) := by
  induction v with
  | nil => exact h.elim
  | mk a k s l r ps ihl ihr =>
      obtain ⟨-, -, ⟨rfl, rfl⟩ | ⟨hl, hL, hR, hlt, hge⟩⟩ := (realTree_mk_iff noKey).mp h
      · simp [Ver.leafKeys]
      · rw [Ver.leafKeys_mk hl]
        exact List.pairwise_append.mpr ⟨ihl hL, ihr hR, fun i hi j hj =>
          (hlt i hi).trans_le (hge j hj)⟩

/-- On the leftmost path of the real part: real routing keys above the leftmost key, and positive
sums. -/
theorem RealTree.leftSpine {v : Ver K} (h : RealTree noKey v) {p : K × ℤ} (hp : p ∈ v.leftSpine) :
    p.1 ≠ noKey ∧ 1 ≤ p.2 ∧ ∀ j, v.leafKeys.head? = some j → j < p.1 := by
  induction v with
  | nil => exact h.elim
  | mk a k s l r ps ihl _ =>
      obtain ⟨hk, -, ⟨rfl, rfl⟩ | ⟨hl, hL, -, hlt, -⟩⟩ := (realTree_mk_iff noKey).mp h
      · simp [Ver.leftSpine] at hp
      · rw [Ver.leftSpine_mk hl] at hp
        rw [Ver.head?_leafKeys hl]
        rcases List.mem_cons.mp hp with rfl | hp
        · refine ⟨hk, ?_, fun j hj => hlt j (List.mem_of_mem_head? hj)⟩
          rw [hL.sum_eq]
          have := List.length_pos_iff.mpr (Ver.leafKeys_ne_nil (hL.ne_nil noKey))
          omega
        · exact ihl hL hp

end Queries

end Cbat
