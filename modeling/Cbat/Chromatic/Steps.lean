/-
**A rebalancing step of a valid tree.**

On a tree that satisfies the weight invariant, `updateRebalancingStep` either reports that there is
no violation on the path of its search, or it replaces one subtree on this path by a rule.  It
never fails, and it never follows a null pointer.

Main definitions:

* `Cbat.Chromatic.Clean` — there is no violation on the path of a search;
* `Cbat.Chromatic.Follows` — a search takes the given turns;
* `Cbat.Chromatic.StepAt` — **one rule is applied on the path of a search**.

Main results:

* `Cbat.Chromatic.rebalanceAlong_spec` — what a call does.
-/

import Cbat.Chromatic.Rules

set_option relaxedAutoImplicit false
set_option autoImplicit false

namespace Cbat.Chromatic

variable {K V : Type}

/-! ### Paths without a violation, and steps on a path -/

section Paths

variable (g : Item K V → Bool)

/-- No node on the path is overweight, and no two consecutive ones are red; `pw` is the weight of
the node above. -/
def Clean : ℤ → Tree K V → Prop
  | pw, .leaf a => a.weight ≤ 1 ∧ (a.weight ≠ 0 ∨ pw ≠ 0)
  | pw, .node a l r => (a.weight ≤ 1 ∧ (a.weight ≠ 0 ∨ pw ≠ 0)) ∧
      if g a then Clean a.weight l else Clean a.weight r

/-- A search takes the given turns. -/
def Follows : List Bool → Tree K V → Prop
  | [], _ => True
  | _ :: _, .leaf _ => False
  | d :: ds, .node a l r => g a = d ∧ Follows ds (if d then l else r)

/-- **One rule is applied on the path of a search**, and there is no violation above the replaced
subtree.  `pw` is the weight of the node above. -/
inductive StepAt : Bool → ℤ → Tree K V → Tree K V → Prop
  | here {top : Bool} {pw : ℤ} {way : List Bool} {t t' : Tree K V} (hp : wt t ≠ 0 ∨ pw ≠ 0)
      (hw : Follows g way t) (h : Rewrites top way t t') : StepAt top pw t t'
  | left {top : Bool} {pw : ℤ} {a : Item K V} {l l' r : Tree K V} (hg : g a = true)
      (ha : a.weight ≤ 1) (hp : a.weight ≠ 0 ∨ pw ≠ 0) (h : StepAt false a.weight l l') :
      StepAt top pw (.node a l r) (.node a l' r)
  | right {top : Bool} {pw : ℤ} {a : Item K V} {l r r' : Tree K V} (hg : g a = false)
      (ha : a.weight ≤ 1) (hp : a.weight ≠ 0 ∨ pw ≠ 0) (h : StepAt false a.weight r r') :
      StepAt top pw (.node a l r) (.node a l r')

end Paths

variable {g : Item K V → Bool}

theorem Follows.branch {e : Bool} {a : Item K V} {t c : Tree K V} (hg : g a = e)
    {ds : List Bool} (h : Follows g ds t) : Follows g (e :: ds) (branch e a t c) := by
  cases e <;> exact ⟨hg, h⟩

theorem StepAt.branch {top e : Bool} {pw : ℤ} {a : Item K V} {t t' c : Tree K V} (hg : g a = e)
    (ha : a.weight ≤ 1) (hp : a.weight ≠ 0 ∨ pw ≠ 0) (h : StepAt g false a.weight t t') :
    StepAt g top pw (Cbat.Chromatic.branch e a t c) (Cbat.Chromatic.branch e a t' c) := by
  cases e with
  | true => exact .left hg ha hp h
  | false => exact .right hg ha hp h

/-! ### The search and what follows it -/

@[simp] theorem label_branch (e : Bool) (a : Item K V) (t c : Tree K V) :
    (branch e a t c).label = a := by
  cases e <;> rfl

theorem clean_branch {e : Bool} {a : Item K V} {t c : Tree K V} {pw : ℤ} (hg : g a = e) :
    Clean g pw (branch e a t c) ↔
      (a.weight ≤ 1 ∧ (a.weight ≠ 0 ∨ pw ≠ 0)) ∧ Clean g a.weight t := by
  cases e <;> simp only [branch_true, branch_false, Clean, hg, if_true, Bool.false_eq_true,
    if_false]

theorem mem_labels_branch {e : Bool} {a x : Item K V} {t c : Tree K V} :
    x ∈ (branch e a t c).labels ↔ x = a ∨ x ∈ t.labels ∨ x ∈ c.labels := by
  cases e <;> simp [or_comm]

theorem link_set_branch (e : Bool) (a : Item K V) (t c t' : Tree K V) :
    (⟨e, load (branch e a t c)⟩ : Link K V).set t'.ptr = (branch e a t' c).ptr := by
  cases e <;> rfl

section Search

variable [DecidableEq K] {noKey : K} {gp ggp : Link K V} {rest : List (Link K V)} {e : Bool}
  {a g₀ : Item K V} {s c c₀ : Tree K V} {h h₀ pw : ℤ}

/-- **The step at a violation.** -/
theorem rebalanceAt_violation (hf : Fits h (branch e a s c)) (hg : g a = e) (ha : a.weight ≤ 1)
    (hp : a.weight ≠ 0 ∨ pw ≠ 0)
    (hX : a.weight = 0 → gp.node = load (branch gp.left g₀ (branch e a s c) c₀) ∧ g₀.weight = 1 ∧
      Fits h₀ (branch gp.left g₀ (branch e a s c) c₀))
    (hv : 1 < wt s ∨ wt s = 0 ∧ a.weight = 0) :
    (∃ t', rebalanceAt noKey ⟨gp :: ggp :: rest, ⟨e, load (branch e a s c)⟩, load s⟩ =
        .ok (plug (gp :: ggp :: rest) t'.ptr) ∧
      StepAt g (isSentinel noKey a gp.node.toItem) pw (branch e a s c) t') ∨
    (a.weight = 0 ∧ ∃ t', rebalanceAt noKey
        ⟨gp :: ggp :: rest, ⟨e, load (branch e a s c)⟩, load s⟩ = .ok (plug (ggp :: rest) t'.ptr) ∧
      Rewrites (isSentinel noKey g₀ ggp.node.toItem) [gp.left, e]
        (branch gp.left g₀ (branch e a s c) c₀) t') := by
  have hw : ¬ (load s).weight = 1 := by
    rw [load_toItem]
    show ¬ wt s = 1
    omega
  have hfol : Follows g [e] (branch e a s c) := .branch hg trivial
  simp only [rebalanceAt, if_neg hw]
  by_cases hc : 1 < wt s ∧ (a.weight ≠ 0 ∨ wt c ≠ 0)
  · obtain ⟨t', he, ht'⟩ : ∃ t', rebalance noKey ggp.node gp.node (load (branch e a s c)) gp.left
        (load s) e = .ok (.uX, t'.ptr) ∧
        Rewrites (isSentinel noKey a gp.node.toItem) [e] (branch e a s c) t' :=
      rebalance_over hf ha hc.1 hc.2
    refine .inl ⟨t', ?_, .here ?_ hfol ht'⟩
    · rw [he]
      rfl
    · cases e <;> exact hp
  · have h0 : a.weight = 0 := by tauto
    obtain ⟨hgp, hg₀, hf₀⟩ := hX h0
    obtain ⟨t', he, ht'⟩ : ∃ t', rebalance noKey ggp.node
        (load (branch gp.left g₀ (branch e a s c) c₀)) (load (branch e a s c)) gp.left (load s) e =
          .ok (.u, t'.ptr) ∧ Rewrites (isSentinel noKey g₀ ggp.node.toItem) [gp.left, e]
            (branch gp.left g₀ (branch e a s c) c₀) t' :=
      rebalance_red hf₀ hg₀ h0 (by tauto)
    refine .inr ⟨h0, t', ?_, ht'⟩
    rw [hgp, he]
    rfl

/-- What a call comes to from the node `s` on the path of its search on: it reports that there is no
violation; or a rule is applied at the parent of `s` or below; or, if the parent is red, at the
grandparent. -/
def Outcome (noKey : K) (g : Item K V → Bool) (gp ggp : Link K V) (rest : List (Link K V))
    (e : Bool)
    (a : Item K V) (s c : Tree K V) (g₀ : Item K V) (c₀ : Tree K V) (pw : ℤ)
    (res : Except Stop (Ptr K V)) : Prop :=
  (res = .error .finish ∧ Clean g a.weight s) ∨
  (∃ t', res = .ok (plug (gp :: ggp :: rest) t'.ptr) ∧
    StepAt g (isSentinel noKey a gp.node.toItem) pw (branch e a s c) t') ∨
  (a.weight = 0 ∧ ∃ t', res = .ok (plug (ggp :: rest) t'.ptr) ∧
    Rewrites (isSentinel noKey g₀ ggp.node.toItem) [gp.left, e]
      (branch gp.left g₀ (branch e a s c) c₀) t')

/-- The outcome at a node, from the outcome at its child on the path. -/
theorem Outcome.up {b : Item K V} {v w : Tree K V} {d : Bool} {res : Except Stop (Ptr K V)}
    (hga : g a = e) (ha : a.weight ≤ 1) (hpa : a.weight ≠ 0 ∨ pw ≠ 0) (hgb : g b = d)
    (hb : b.weight ≤ 1) (hpb : b.weight ≠ 0 ∨ a.weight ≠ 0)
    (hreal : isSentinel noKey b a = false)
    (hres : Outcome noKey g ⟨e, load (branch e a (branch d b v w) c)⟩ gp (ggp :: rest) d b v w a c
      a.weight res) :
    Outcome noKey g gp ggp rest e a (branch d b v w) c g₀ c₀ pw res := by
  have hlab : (load (branch e a (branch d b v w) c)).toItem = a := by
    rw [load_toItem, label_branch]
  rcases hres with ⟨hr, hc⟩ | ⟨t', hr, ht'⟩ | ⟨-, t', hr, ht'⟩
  · exact .inl ⟨hr, (clean_branch hgb).mpr ⟨⟨hb, hpb⟩, hc⟩⟩
  · rw [hlab, hreal] at ht'
    refine .inr (.inl ⟨branch e a t' c, ?_, .branch hga ha hpa ht'⟩)
    rw [hr, plug, link_set_branch]
  · have hfol : Follows g [d] (branch d b v w) := .branch hgb trivial
    refine .inr (.inl ⟨t', hr, .here ?_ (.branch hga hfol) ht'⟩)
    rw [wt, label_branch]
    exact hpa

/-- **From a node on the path of the search on.** -/
theorem search_spec (real : ∀ b ∈ (branch e a s c).labels, b.key ≠ noKey)
    (hf : Fits h (branch e a s c)) (hg : g a = e) (ha : a.weight ≤ 1)
    (hp : a.weight ≠ 0 ∨ pw ≠ 0)
    (hX : a.weight = 0 → gp.node = load (branch gp.left g₀ (branch e a s c) c₀) ∧ g₀.weight = 1 ∧
      Fits h₀ (branch gp.left g₀ (branch e a s c) c₀)) :
    Outcome noKey g gp ggp rest e a s c g₀ c₀ pw (searchLoop noViolation (fun _ => g)
      (gp :: ggp :: rest) ⟨e, load (branch e a s c)⟩ s.ptr >>= rebalanceAt noKey) := by
  induction s generalizing gp ggp rest e a c g₀ c₀ h h₀ pw with
  | leaf b =>
      have hb : 1 ≤ b.weight := by cases e; exacts [hf.2.2.1, hf.2.1.1]
      by_cases h1 : b.weight = 1
      · refine .inl ⟨?_, h1.le, .inl (by omega)⟩
        simp [searchLoop, isNull, ok_bind, rebalanceAt, h1]
        rfl
      · refine .inr (rebalanceAt_violation hf hg ha hp hX (.inl ?_))
        show 1 < b.weight
        omega
  | node b l r ihl ihr =>
      have hlab : (load (branch e a (.node b l r) c)).toItem = a := by
        rw [load_toItem, label_branch]
      have hfb : Fits (h - a.weight) (.node b l r) := by cases e; exacts [hf.2.2, hf.2.1]
      have ha0 : 0 ≤ a.weight := by cases e; exacts [hf.1, hf.1]
      have hra : a.key ≠ noKey := real a (mem_labels_branch.mpr (.inl rfl))
      have hrs : ∀ i ∈ (LTree.node b l r).labels, i.key ≠ noKey := fun i hi =>
        real i (mem_labels_branch.mpr (.inr (.inl hi)))
      by_cases hn : noViolation a b = true
      · -- the search goes on
        have hn' := hn
        simp only [noViolation, Bool.and_eq_true, Bool.or_eq_true, decide_eq_true_eq] at hn'
        have hsent : isSentinel noKey b a = false := by
          simp [isSentinel, hra, hrs b (by simp)]
        have hX' : b.weight = 0 → a.weight = 1 := by omega
        -- the outcome below, for a turn to either side
        have below : ∀ {d : Bool} {v w : Tree K V}, LTree.node b l r = branch d b v w → g b = d →
            Outcome noKey g ⟨e, load (branch e a (branch d b v w) c)⟩ gp (ggp :: rest) d b v w a c
              a.weight (searchLoop noViolation (fun _ => g) (gp :: ggp :: rest)
                ⟨e, load (branch e a (.node b l r) c)⟩ (LTree.node b l r).ptr >>=
                  rebalanceAt noKey) := by
          intro d v w hd hgb
          have hloop : searchLoop noViolation (fun _ => g) (gp :: ggp :: rest)
              ⟨e, load (branch e a (.node b l r) c)⟩ (LTree.node b l r).ptr =
              searchLoop noViolation (fun _ => g)
                (⟨e, load (branch e a (branch d b v w) c)⟩ :: gp :: ggp :: rest)
                ⟨d, load (branch d b v w)⟩ v.ptr := by
            rw [← hd, LTree.ptr_node, searchLoop, isNull_ptr, hlab, hn]
            cases d with
            | true =>
                obtain ⟨-, rfl, rfl⟩ := LTree.node.inj hd
                simp [hgb]
            | false =>
                obtain ⟨-, rfl, rfl⟩ := LTree.node.inj hd
                simp [hgb]
          rw [hloop]
          have hX'' : b.weight = 0 → (⟨e, load (branch e a (branch d b v w) c)⟩ : Link K V).node =
              load (branch e a (branch d b v w) c) ∧ a.weight = 1 ∧
              Fits h (branch e a (branch d b v w) c) := fun h0 => ⟨rfl, hX' h0, hd ▸ hf⟩
          rw [hd] at hrs hfb
          cases d with
          | true =>
              obtain ⟨-, rfl, rfl⟩ := LTree.node.inj hd
              exact ihl hrs hfb hgb hn'.1 hn'.2 hX''
          | false =>
              obtain ⟨-, rfl, rfl⟩ := LTree.node.inj hd
              exact ihr hrs hfb hgb hn'.1 hn'.2 hX''
        have hbr : LTree.node b l r =
            branch (g b) b (if g b then l else r) (if g b then r else l) := by
          cases g b <;> rfl
        have hup : Outcome noKey g gp ggp rest e a
            (branch (g b) b (if g b then l else r) (if g b then r else l)) c g₀ c₀ pw _ :=
          Outcome.up hg ha hp rfl hn'.1 hn'.2 hsent (below hbr rfl)
        rwa [← hbr] at hup
      · -- the search stops at a violation
        have hv : 1 < b.weight ∨ b.weight = 0 ∧ a.weight = 0 := by
          simp only [noViolation, Bool.and_eq_true, Bool.or_eq_true, decide_eq_true_eq] at hn
          have := hfb.1
          omega
        simp only [LTree.ptr_node, searchLoop, isNull_ptr, hlab, hn]
        exact .inr (rebalanceAt_violation hf hg ha hp hX hv)

end Search

/-! ### The path of a key -/

/-- There is no violation on the path of the key: no node is overweight, and no two consecutive
nodes are red. -/
def NoViolation [LinearOrder K] (key : K) (T : Tree K V) : Prop :=
  (∀ a ∈ T.path Item.key key, a.weight ≤ 1) ∧
    (T.path Item.key key).IsChain fun a b => ¬ (a.weight = 0 ∧ b.weight = 0)

theorem clean_iff_path [LinearOrder K] {key : K} {pw : ℤ} {t : Tree K V} :
    Clean (byKey key 0) pw t ↔ (∀ a ∈ t.path Item.key key, a.weight ≤ 1) ∧
      (t.path Item.key key).IsChain (fun a b => ¬ (a.weight = 0 ∧ b.weight = 0)) ∧
      (wt t ≠ 0 ∨ pw ≠ 0) := by
  induction t generalizing pw with
  | leaf a => simp [Clean, LTree.path]
  | node a l r ihl ihr =>
      obtain ⟨xs, hxs⟩ : ∃ xs, l.path Item.key key = l.label :: xs := by
        cases l <;> simp [LTree.path]
      obtain ⟨ys, hys⟩ : ∃ ys, r.path Item.key key = r.label :: ys := by
        cases r <;> simp [LTree.path]
      by_cases hlt : key < a.key
      · simp only [Clean, byKey, hlt, decide_true, if_true, LTree.path_node, ihl, hxs]
        simp only [List.mem_cons, forall_eq_or_imp, List.isChain_cons_cons, wt_node]
        tauto
      · simp only [Clean, byKey, hlt, decide_false, Bool.false_eq_true, if_false,
          LTree.path_node, ihr, hys]
        simp only [List.mem_cons, forall_eq_or_imp, List.isChain_cons_cons, wt_node]
        tauto

/-! ### The call -/

theorem Valid.fits {cfg : Cfg K V} {T : Tree K V} (hT : Valid cfg T) : ∃ h, Fits h T := by
  obtain ⟨h, hb⟩ := hT.balanced
  exact ⟨h, fits_iff.mpr ⟨hT.nonneg, hT.leaf_pos, hb⟩⟩

theorem Valid.of_fits {cfg : Cfg K V} {T : Tree K V} {h : ℤ}
    (hreal : ∀ a ∈ T.labels, a.key ≠ cfg.noKey) (htop : wt T = 1) (hf : Fits h T) :
    Valid cfg T := by
  obtain ⟨hn, hl, hb⟩ := fits_iff.mp hf
  exact ⟨hreal, hn, hl, htop, h, hb⟩

theorem exists_branch (d : Bool) (b : Item K V) (l r : Tree K V) :
    ∃ v w, LTree.node b l r = branch d b v w := by
  cases d with
  | true => exact ⟨l, r, rfl⟩
  | false => exact ⟨r, l, rfl⟩

/-- **A call of `updateRebalancingStep` on a valid tree** reports that there is no violation on the
path, or applies one rule. -/
theorem rebalanceAlong_spec [DecidableEq K] {cfg : Cfg K V} {s : Item K V} {T : Tree K V}
    (hT : Valid cfg T) :
    (rebalanceAlong cfg.noKey (fun _ => g) (holding cfg s T) = .error .finish ∧ Clean g 1 T) ∨
    ∃ T', rebalanceAlong cfg.noKey (fun _ => g) (holding cfg s T) = .ok (holding cfg s T') ∧
      StepAt g true 1 T T' := by
  obtain ⟨h, hf⟩ := hT.fits
  rw [rebalanceAlong_holding]
  have htop := hT.top_weight
  cases T with
  | leaf b =>
      have hb : b.weight = 1 := htop
      refine .inl ⟨?_, hb.le, .inl (by omega)⟩
      simp [searchLoop, isNull, ok_bind, rebalanceAt, hb]
      rfl
  | node b l r =>
      have hb : b.weight = 1 := htop
      obtain ⟨v, w, hbr⟩ := exists_branch (g b) b l r
      have hloop : searchLoop noViolation (fun _ => g) [rootLink cfg s (.node b l r)]
          (entryLink cfg s (.node b l r)) (LTree.node b l r).ptr =
          searchLoop noViolation (fun _ => g)
            [entryLink cfg s (.node b l r), rootLink cfg s (.node b l r)]
            ⟨g b, load (branch (g b) b v w)⟩ v.ptr := by
        rw [← hbr, LTree.ptr_node, searchLoop, isNull_ptr]
        cases hgb : g b <;> rw [hgb] at hbr <;> obtain ⟨-, rfl, rfl⟩ := LTree.node.inj hbr <;>
          simp [noViolation, hb]
      have hreal := hT.real
      rw [hbr] at hf hreal
      have hout : Outcome cfg.noKey g (entryLink cfg s (.node b l r))
          (rootLink cfg s (.node b l r)) [] (g b) b v w b w 1 _ :=
        search_spec hreal hf rfl hb.le (.inr one_ne_zero) fun h0 =>
          (absurd (hb.symm.trans h0) one_ne_zero : _ ∧ _ ∧ Fits h _)
      have hsent : isSentinel cfg.noKey b (entryLink cfg s (.node b l r)).node.toItem = true := by
        simp [isSentinel, entryLink, sentinel]
      rw [hloop]
      rcases hout with ⟨hr, hc⟩ | ⟨t', hr, ht'⟩ | ⟨h0, -⟩
      · refine .inl ⟨hr, ?_⟩
        rw [hbr]
        exact (clean_branch rfl).mpr ⟨⟨hb.le, .inl (by omega)⟩, hc⟩
      · refine .inr ⟨t', hr, ?_⟩
        rw [hsent, ← hbr] at ht'
        exact ht'
      · omega

end Cbat.Chromatic
