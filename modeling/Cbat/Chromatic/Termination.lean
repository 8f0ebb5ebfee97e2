/-
**Rebalancing ends.**

A rebalancing step removes an overweight, or it removes a red node below a red one, or it moves an
overweight upwards, or it makes two red nodes black and at most one black node red.  The four
numbers that count these, in this order, decrease with each step, so that only finitely many calls
can change a tree.

Main definitions:

* `Cbat.Chromatic.total` — a number for each node, added up;
* `Cbat.Chromatic.overweight`, `Cbat.Chromatic.redPairs`, `Cbat.Chromatic.burden`,
  `Cbat.Chromatic.reds` — the four numbers, and `Cbat.Chromatic.rank` in lexicographic order;
* `Cbat.Chromatic.afterCalls` — a tree after some calls of `updateRebalancingStep`.

Main results:

* `Cbat.Chromatic.StepAt.rank_lt` — **a step decreases the rank**;
* `Cbat.Chromatic.rebalancing_terminates` — **only finitely many calls change a tree, and repeated
  calls for one key end with no violation on its path**.
-/

import Cbat.Chromatic.Contents
import Mathlib.Order.OrderIsoNat
import Mathlib.Data.Prod.Lex

set_option relaxedAutoImplicit false
set_option autoImplicit false

namespace Cbat.Chromatic

variable {K V : Type}

/-! ### Adding up over a tree -/

/-- A node of this weight is red. -/
def isRed (w : ℤ) : Bool := decide (w = 0)

theorem isRed_of_ne {w : ℤ} (h : w ≠ 0) : isRed w = false := decide_eq_false h

@[simp] theorem isRed_zero : isRed 0 = true := rfl
@[simp] theorem isRed_one : isRed 1 = false := rfl

/-- The sum over the nodes of a number that depends on the depth, on whether the parent is red, and
on the weight. -/
def total (f : ℕ → Bool → ℤ → ℕ) : ℕ → Bool → Tree K V → ℕ
  | d, b, .leaf a => f d b a.weight
  | d, b, .node a l r => f d b a.weight + total f (d + 1) (isRed a.weight) l +
      total f (d + 1) (isRed a.weight) r

section Total

variable {f : ℕ → Bool → ℤ → ℕ} {d : ℕ} {b : Bool} {t : Tree K V}

theorem total_flip : total f d b t.flip = total f d b t := by
  induction t generalizing d b with
  | leaf a => rfl
  | node a l r ihl ihr =>
      rw [LTree.flip_node, total, total, ihl, ihr]
      omega

/-- Another weight at the top. -/
theorem total_recolor {w : ℤ} (hw : isRed w = isRed (wt t)) :
    total f d b (recolor t w) + f d b (wt t) = total f d b t + f d b w := by
  cases t with
  | leaf a => exact add_comm _ _
  | node a l r =>
      rw [wt_node] at hw
      simp only [recolor_node, total, reweigh_weight, wt_node, hw]
      omega

theorem total_depth (hf : ∀ d d' b w, f d b w = f d' b w) (d' : ℕ) :
    total f d b t = total f d' b t := by
  induction t generalizing d d' b with
  | leaf a => exact hf ..
  | node a l r ihl ihr => rw [total, total, hf d d', ihl (d' + 1), ihr (d' + 1)]

theorem total_above (hf : ∀ d b b' w, f d b w = f d b' w) (b' : Bool) :
    total f d b t = total f d b' t := by
  cases t with
  | leaf a => exact hf ..
  | node a l r => rw [total, total, hf d b b']

end Total

/-! ### The rank -/

/-- The weight above one of all nodes. -/
def overweight (t : Tree K V) : ℕ := total (fun _ _ w => (w - 1).toNat) 0 false t

/-- The red nodes with a red parent; `b` tells whether the node above is red. -/
def redPairs (b : Bool) (t : Tree K V) : ℕ :=
  total (fun _ b w => if isRed w && b then 1 else 0) 0 b t

/-- The weight above one, multiplied by the depth; `d` is the depth of the top. -/
def burden (d : ℕ) (t : Tree K V) : ℕ := total (fun d _ w => d * (w - 1).toNat) d false t

/-- The red nodes. -/
def reds (t : Tree K V) : ℕ := total (fun _ _ w => if isRed w then 1 else 0) 0 false t

section Rank

variable {a : Item K V} {l r t t' : Tree K V} {b : Bool} {d : ℕ}

theorem overweight_node :
    overweight (.node a l r) = (a.weight - 1).toNat + overweight l + overweight r := by
  simp only [overweight, total]
  rw [total_depth (fun _ _ _ _ => rfl) 0, total_depth (t := r) (fun _ _ _ _ => rfl) 0,
    total_above (fun _ _ _ _ => rfl) false, total_above (t := r) (fun _ _ _ _ => rfl) false]

theorem redPairs_node : redPairs b (.node a l r) =
    (if isRed a.weight && b then 1 else 0) + redPairs (isRed a.weight) l +
      redPairs (isRed a.weight) r := by
  simp only [redPairs, total]
  rw [total_depth (fun _ _ _ _ => rfl) 0, total_depth (t := r) (fun _ _ _ _ => rfl) 0]

theorem burden_node : burden d (.node a l r) =
    d * (a.weight - 1).toNat + burden (d + 1) l + burden (d + 1) r := by
  simp only [burden, total]
  rw [total_above (fun _ _ _ _ => rfl) false, total_above (t := r) (fun _ _ _ _ => rfl) false]

theorem reds_node : reds (.node a l r) =
    (if isRed a.weight then 1 else 0) + reds l + reds r := by
  simp only [reds, total]
  rw [total_depth (fun _ _ _ _ => rfl) 0, total_depth (t := r) (fun _ _ _ _ => rfl) 0,
    total_above (fun _ _ _ _ => rfl) false, total_above (t := r) (fun _ _ _ _ => rfl) false]

/-- The four numbers in lexicographic order. -/
def rank (b : Bool) (d : ℕ) (t : Tree K V) : ℕ ×ₗ ℕ ×ₗ ℕ ×ₗ ℕ :=
  toLex (overweight t, toLex (redPairs b t, toLex (burden d t, reds t)))

theorem rank_flip : rank b d t.flip = rank b d t := by
  simp only [rank, overweight, redPairs, burden, reds, total_flip]

theorem rank_lt_iff : rank b d t' < rank b d t ↔ overweight t' < overweight t ∨
    overweight t' = overweight t ∧ (redPairs b t' < redPairs b t ∨
      redPairs b t' = redPairs b t ∧ (burden d t' < burden d t ∨
        burden d t' = burden d t ∧ reds t' < reds t)) := by
  simp only [rank, Prod.Lex.toLex_lt_toLex]

/-! A red node that becomes lighter by one, or moves below another node. -/

theorem isRed_pred {w : ℤ} (h : 1 < w) : isRed (w - 1) = isRed w := by
  rw [isRed_of_ne (by omega), isRed_of_ne (by omega)]

theorem overweight_recolor (h : 1 < wt t) :
    overweight (recolor t (wt t - 1)) + 1 = overweight t := by
  have := total_recolor (f := fun _ _ w => (w - 1).toNat) (d := 0) (b := false) (isRed_pred h)
  simp only [overweight]
  omega

theorem burden_recolor (h : 1 < wt t) : burden d (recolor t (wt t - 1)) + d = burden d t := by
  have := total_recolor (f := fun d _ w => d * (w - 1).toNat) (d := d) (b := false) (isRed_pred h)
  have hw : (wt t - 1).toNat = (wt t - 1 - 1).toNat + 1 := by omega
  rw [hw, Nat.mul_succ] at this
  simp only [burden]
  omega

theorem redPairs_black (h : wt t ≠ 0) : redPairs b t = redPairs false t := by
  cases t with
  | leaf a => simp [redPairs, total, isRed_of_ne (show a.weight ≠ 0 from h)]
  | node a l r => simp [redPairs, total, isRed_of_ne (show a.weight ≠ 0 from h)]

theorem redPairs_red (h : wt t = 0) : redPairs true t = redPairs false t + 1 := by
  have h0 : isRed (wt t) = true := by simp [h]
  cases t with
  | leaf a => simp [redPairs, total, show isRed a.weight = true from h0]
  | node a l r =>
      simp only [redPairs_node, show isRed a.weight = true from h0]
      simp
      omega

theorem redPairs_le : redPairs false t ≤ redPairs b t := by
  by_cases h : wt t = 0
  · cases b with
    | false => exact le_rfl
    | true => exact (redPairs_red h).ge.trans' (Nat.le_succ _)
  · exact (redPairs_black h).ge

theorem redPairs_recolor (h : 1 < wt t) :
    redPairs b (recolor t (wt t - 1)) = redPairs false t := by
  have := total_recolor (f := fun _ b w => if isRed w && b then 1 else 0) (d := 0) (b := b)
    (isRed_pred h)
  rw [isRed_pred h, isRed_of_ne (show wt t ≠ 0 by omega)] at this
  rw [← redPairs_black (b := b) (by omega)]
  simpa [redPairs] using this

/-- Blackening two red siblings one of which has a red child. -/
theorem rank_blk {a x c : Item K V} {xl xr cl cr : Tree K V} {w : ℤ} (ha : a.weight = 1)
    (hx : x.weight = 0) (hc : c.weight = 0) (hv : wt xl = 0 ∨ wt xr = 0) (hw : w = 0 ∨ w = 1) :
    rank b d (.node (a.reweigh w) (.node (x.reweigh 1) xl xr) (.node (c.reweigh 1) cl cr)) <
      rank b d (.node a (.node x xl xr) (.node c cl cr)) := by
  have hpairs :
      redPairs false xl + redPairs false xr + 1 ≤ redPairs true xl + redPairs true xr := by
    rcases hv with hv | hv
    · have := redPairs_red hv
      have := redPairs_le (b := true) (t := xr)
      omega
    · have := redPairs_red hv
      have := redPairs_le (b := true) (t := xl)
      omega
  have := redPairs_le (b := true) (t := cl)
  have := redPairs_le (b := true) (t := cr)
  rw [rank_lt_iff]
  simp only [overweight_node, redPairs_node, burden_node, reds_node, reweigh_weight, ha, hx, hc]
  rcases hw with rfl | rfl <;> cases b <;> simp <;> omega

/-- A double rotation with two red nodes one below the other. -/
theorem rank_rb2 {a x q : Item K V} {xl y z c : Tree K V} (ha : a.weight = 1) (hx : x.weight = 0)
    (hq : q.weight = 0) (hc : wt c ≠ 0) :
    rank b d (.node (q.reweigh a.weight) (.node (x.reweigh 0) xl y) (.node (a.reweigh 0) z c)) <
      rank b d (.node a (.node x xl (.node q y z)) c) := by
  have := redPairs_black (b := true) hc
  rw [rank_lt_iff]
  refine .inr ⟨?_, .inl ?_⟩
  · simp only [overweight_node, reweigh_weight, ha, hx, hq]
    omega
  · simp only [redPairs_node, reweigh_weight, ha, hx, hq, isRed_zero, isRed_one]
    simp
    omega

/-- Moving an overweight upwards. -/
theorem rank_push {a r : Item K V} {l rl rr : Tree K V} {w : ℤ} (ha : a.weight ≤ 1) (hl : 1 < wt l)
    (hr : r.weight = 1) (hrl : wt rl ≠ 0) (hrr : wt rr ≠ 0) (hw : w = a.weight + 1 ∨ w = 1) :
    rank b d (.node (a.reweigh w) (recolor l (wt l - 1)) (.node (r.reweigh 0) rl rr)) <
      rank b d (.node a l (.node r rl rr)) := by
  have ho := overweight_recolor hl
  rw [rank_lt_iff]
  by_cases h2 : w = 2
  · -- the parent becomes overweight
    have ha1 : a.weight = 1 := by omega
    refine .inr ⟨?_, .inr ⟨?_, .inl ?_⟩⟩
    · simp only [overweight_node, reweigh_weight, h2, ha1, hr]
      omega
    · rw [redPairs_node, redPairs_node, redPairs_node, redPairs_node, reweigh_weight,
        reweigh_weight, ha1, hr, h2, redPairs_recolor hl, redPairs_black (t := rl) hrl,
        redPairs_black (t := rr) hrr,
        redPairs_black (b := isRed 1) (t := l) (by omega)]
      rfl
    · have := burden_recolor (d := d + 1) hl
      simp only [burden_node, reweigh_weight, h2, ha1, hr]
      simp
      omega
  · refine .inl ?_
    simp only [overweight_node, reweigh_weight, hr]
    omega

/-- **A rule decreases the rank.** -/
theorem Rule.rank_lt {top : Bool} {way : List Bool} (h : Rule top way t t') :
    rank b d t' < rank b d t := by
  cases h with
  | @blk a x c xl xr cl cr e ha hx hc hv =>
      refine rank_blk ha hx hc ?_ (by cases top <;> simp [ha])
      cases e <;> simp only [Bad, if_true, Bool.false_eq_true, if_false] at hv <;> tauto
  | @rb1 a x xl xr c e ha hx hxl hc hv =>
      have := redPairs_red hxl
      have := redPairs_black (b := true) hc
      rw [rank_lt_iff]
      refine .inr ⟨?_, .inl ?_⟩
      · simp only [overweight_node, reweigh_weight, ha, hx]
        omega
      · simp only [redPairs_node, reweigh_weight, ha, hx, isRed_zero, isRed_one]
        simp
        omega
  | rb2 ha hx hq hc hv => exact rank_rb2 ha hx hq hc
  | rb2Far ha hx hq hc => exact rank_rb2 ha hx hq (by omega)
  | push ha hl hr hrl hrr =>
      exact rank_push ha hl hr hrl hrr (by cases top <;> simp)
  | w1 ha hl hr hrl =>
      have := overweight_recolor hl
      have := overweight_recolor hrl
      refine rank_lt_iff.mpr (.inl ?_)
      simp only [overweight_node, reweigh_weight, ha, hr]
      omega
  | @w7 a l r ha hl hr =>
      have := overweight_recolor hl
      have := overweight_recolor hr
      refine rank_lt_iff.mpr (.inl ?_)
      cases top <;> simp [overweight_node] <;> omega
  | _ =>
      -- the left child loses weight, and no other node becomes overweight
      have := overweight_recolor ‹1 < wt _›
      refine rank_lt_iff.mpr (.inl ?_)
      simp only [overweight_node, reweigh_weight]
      omega

theorem Rewrites.rank_lt {top : Bool} {way : List Bool} (h : Rewrites top way t t') :
    rank b d t' < rank b d t := by
  rcases h with h | h
  · exact h.rank_lt
  · have := h.rank_lt (b := b) (d := d)
    rwa [rank_flip, rank_flip] at this

/-- **A step decreases the rank.** -/
theorem StepAt.rank_lt {g : Item K V → Bool} {top : Bool} {pw : ℤ} (h : StepAt g top pw t t') :
    rank b d t' < rank b d t := by
  induction h generalizing b d with
  | here _ _ h => exact h.rank_lt
  | @left top pw a l l' r _ _ _ _ ih =>
      have := rank_lt_iff.mp (ih (b := isRed a.weight) (d := d + 1))
      simp only [rank_lt_iff, overweight_node, redPairs_node, burden_node, reds_node]
      omega
  | @right top pw a l r r' _ _ _ _ ih =>
      have := rank_lt_iff.mp (ih (b := isRed a.weight) (d := d + 1))
      simp only [rank_lt_iff, overweight_node, redPairs_node, burden_node, reds_node]
      omega

end Rank

/-! ### Sequences of calls -/

section Calls

variable [LinearOrder K] (cfg : Cfg K V) (keys : ℕ → K)

/-- The tree after a call of `updateRebalancingStep`. -/
def afterCall (key : K) (root : Ptr K V) : Ptr K V :=
  match updateRebalancingStep cfg key root with
  | .ok root' => root'
  | .error _ => root

/-- The tree after the first calls of a sequence. -/
def afterCalls (root : Ptr K V) : ℕ → Ptr K V
  | 0 => root
  | n + 1 => afterCall cfg (keys n) (afterCalls root n)

variable {cfg keys} {s : Item K V} {T : Tree K V}

/-- A call leaves the tree as it is, or decreases its rank. -/
theorem afterCall_holding (hT : Valid cfg T) (key : K) :
    (updateRebalancingStep cfg key (holding cfg s T) = .error .finish ∧ NoViolation key T ∧
      afterCall cfg key (holding cfg s T) = holding cfg s T) ∨
    ∃ T', afterCall cfg key (holding cfg s T) = holding cfg s T' ∧ Valid cfg T' ∧
      rank false 0 T' < rank false 0 T := by
  rcases updateRebalancingStep_spec (s := s) hT key with ⟨he, hn⟩ | ⟨T', he, hs⟩
  · exact .inl ⟨he, hn, by rw [afterCall, he]⟩
  · exact .inr ⟨T', by rw [afterCall, he], hs.valid hT, hs.rank_lt⟩

/-- The trees of a sequence of calls: each is the one before, or has a smaller rank. -/
theorem exists_trees (hT : Valid cfg T) (keys : ℕ → K) : ∃ Ts : ℕ → Tree K V,
    ∀ n, afterCalls cfg keys (holding cfg s T) n = holding cfg s (Ts n) ∧
      (updateRebalancingStep cfg (keys n) (holding cfg s (Ts n)) = .error .finish ∧
          NoViolation (keys n) (Ts n) ∧ Ts (n + 1) = Ts n ∨
        rank false 0 (Ts (n + 1)) < rank false 0 (Ts n)) := by
  have hex : ∀ n, ∃ T', afterCalls cfg keys (holding cfg s T) n = holding cfg s T' ∧
      Valid cfg T' := by
    intro n
    induction n with
    | zero => exact ⟨T, rfl, hT⟩
    | succ n ih =>
        obtain ⟨T', he, hT'⟩ := ih
        rw [afterCalls, he]
        rcases afterCall_holding hT' (keys n) with ⟨-, -, hs⟩ | ⟨T'', hs, hT'', -⟩
        · exact ⟨T', hs, hT'⟩
        · exact ⟨T'', hs, hT''⟩
  choose Ts hTs hvalid using hex
  refine ⟨Ts, fun n => ⟨hTs n, ?_⟩⟩
  have hnext : afterCall cfg (keys n) (holding cfg s (Ts n)) = holding cfg s (Ts (n + 1)) := by
    rw [← hTs n, ← hTs (n + 1), afterCalls]
  rcases afterCall_holding (s := s) (hvalid n) (keys n) with ⟨hf, hn, hs⟩ | ⟨T', hs, -, hlt⟩
  · exact .inl ⟨hf, hn, (holding_injective (hnext.symm.trans hs)).2⟩
  · rw [(holding_injective (hnext.symm.trans hs)).2]
    exact .inr hlt

/-- From some call on, all calls report that there is no violation. -/
theorem eventually_finish (hT : Valid cfg T) (keys : ℕ → K) : ∃ N, ∀ n ≥ N, ∃ T',
    afterCalls cfg keys (holding cfg s T) n = holding cfg s T' ∧
      updateRebalancingStep cfg (keys n) (holding cfg s T') = .error .finish ∧
      NoViolation (keys n) T' := by
  obtain ⟨Ts, hTs⟩ := exists_trees (s := s) hT keys
  have hanti : Antitone fun n => rank false 0 (Ts n) := by
    refine antitone_nat_of_succ_le fun n => ?_
    rcases (hTs n).2 with ⟨-, -, he⟩ | hlt
    · rw [he]
    · exact hlt.le
  obtain ⟨N, hN⟩ := WellFoundedLT.antitone_chain_condition hanti
  refine ⟨N, fun n hn => ⟨Ts n, (hTs n).1, ?_⟩⟩
  rcases (hTs n).2 with ⟨hf, hnv, -⟩ | hlt
  · exact ⟨hf, hnv⟩
  · exact absurd ((hN n hn).symm.trans (hN (n + 1) (by omega))) hlt.ne'

/-- **Rebalancing ends**: of a sequence of calls on a valid tree, with arbitrary keys, only finitely
many do a step; and repeated calls for one key end with a call that finds nothing to do, when there
is no violation on its path. -/
theorem rebalancing_terminates (hT : Valid cfg T) :
    (∀ keys : ℕ → K, {n | ∃ root', updateRebalancingStep cfg (keys n)
      (afterCalls cfg keys (holding cfg s T) n) = .ok root'}.Finite) ∧
    ∀ key, ∃ n T', afterCalls cfg (fun _ => key) (holding cfg s T) n = holding cfg s T' ∧
      updateRebalancingStep cfg key (holding cfg s T') = .error .finish ∧ NoViolation key T' := by
  constructor
  · intro keys
    obtain ⟨N, hN⟩ := eventually_finish (s := s) hT keys
    refine (Set.finite_lt_nat N).subset ?_
    rintro n ⟨root', hr⟩
    by_contra hn
    obtain ⟨T', he, hf, -⟩ := hN n (not_lt.mp hn)
    rw [he, hf] at hr
    cases hr
  · intro key
    obtain ⟨N, hN⟩ := eventually_finish (s := s) hT fun _ => key
    exact ⟨N, hN N le_rfl⟩

theorem redChain_terminates : ∃ n T', afterCalls plain (fun _ => 40)
      (holding plain (sentinel plain) redChain) n = holding plain (sentinel plain) T' ∧
    updateRebalancingStep plain 40 (holding plain (sentinel plain) T') = .error .finish ∧
    NoViolation 40 T' :=
  (rebalancing_terminates redChain_valid).2 40

end Calls

end Cbat.Chromatic
