/-
**What the replacement of a patch does to the tree.**

`Cbat.Plans` shows what each rebalancing step puts in place of what.  This module gives all updates
one specification, in terms of the trees the patches stand for: the order is kept, every search
leaves the old and the new patch through the same subtree — or ends in a leaf of the old one — and
the binding of the key of the update is the only one that changes.

Main definitions:

* `Cbat.stored` — the value bound to a key in a tree;
* `Cbat.Effect` — what an update does to the binding of its key;
* `Cbat.Plan` — **the specification of a replacement**;
* `Cbat.RealShape`, `Cbat.TopShape` — what the replacement keeps of the shape of the tree.

Main results:

* `Cbat.Rearranges.plan` — rebalancing steps meet the specification;
* `Cbat.plan_replace`, `Cbat.plan_insert_left`, `Cbat.plan_erase_left` — so do the updates, and
  their mirror images.
-/

import Cbat.Plans

set_option relaxedAutoImplicit false
set_option autoImplicit false

namespace Cbat

variable {K V : Type} [LinearOrder K] {cfg : Cfg K V} {m : Mem K V}

/-! ### The specification -/

/-- The value bound to a key in a tree. -/
def stored (cfg : Cfg K V) (t : LTree (Cell K V)) (q : K) : Option V :=
  let c := t.leafAt (ckey cfg) (q : WithTop K)
  if c.key = q then some c.value else none

/-- What an update does to the binding of its key. -/
inductive Effect (V : Type) where
  | keep : Effect V
  | put (v : V) : Effect V
  | drop : Effect V

/-- The binding after the update. -/
def Effect.apply : Effect V → Option V → Option V
  | keep, o => o
  | put v, _ => some v
  | drop, _ => none

/-- The key lies between the bounds. -/
def Between (lo : WithBot (WithTop K)) (hi : WithTop (WithTop K)) (q : K) : Prop :=
  lo ≤ ((q : WithTop K) : WithBot (WithTop K)) ∧ ((q : WithTop K) : WithTop (WithTop K)) < hi

/-- Where a search leaves the old and the new patch: through the same subtree; in a leaf of each;
or, when a leaf with the key `k` is deleted, in this leaf and through any subtree. -/
inductive Exits (k : K) (e : Effect V) : ℕ ⊕ Cell K V → ℕ ⊕ Cell K V → Prop
  | sub (i : ℕ) : Exits k e (.inl i) (.inl i)
  | leaf (c a : Cell K V) : Exits k e (.inr c) (.inr a)
  | graft (c : Cell K V) (i : ℕ) (hc : c.key = k) (he : e = .drop) : Exits k e (.inr c) (.inl i)

/-- Leaves start with a version, of sum one when the key is real; internal nodes start with none,
or with one whose sum is that of two new leaves below. -/
def VersOk (cfg : Cfg K V) : NewTree K V → Prop
  | .sub _ => True
  | .leaf a => ∃ s, a.sum = some s ∧ (a.key ≠ cfg.noKey → s = 1)
  | .node a l r => VersOk cfg l ∧ VersOk cfg r ∧ (a.sum = none ∨
      ∃ x y s s', l = .leaf x ∧ r = .leaf y ∧ x.sum = some s ∧ y.sum = some s' ∧
        a.sum = some (s + s'))

/-- **The specification of a replacement** by an update with the key `k` and the effect `e`. -/
structure Plan (cfg : Cfg K V) (k : K) (e : Effect V) (old : Patch (Cell K V) ℕ)
    (new : NewTree K V) : Prop where
  subs : new.subs = old.subs
  within : ∀ b F lo hi, (old.plug F).Within (ckey cfg) lo hi →
    (e ≠ .keep → Between lo hi k) → ((inst b new).plug F).Within (ckey cfg) lo hi
  exits : ∀ b F lo hi, (old.plug F).Within (ckey cfg) lo hi → ∀ q : K, Between lo hi q →
    Exits k e (old.route (ckey cfg) (q : WithTop K)) ((inst b new).route (ckey cfg) (q : WithTop K))
  stored : ∀ b F lo hi, (old.plug F).Within (ckey cfg) lo hi → ∀ q : K, q ≠ cfg.noKey →
    Between lo hi q → stored cfg ((inst b new).plug F) q =
      if q = k then e.apply (stored cfg (old.plug F) q) else stored cfg (old.plug F) q
  vers : VersOk cfg new

/-- The replacement stays in the real part of the tree, below a node with the key `uKey`. -/
structure RealShape (cfg : Cfg K V) (uKey : K) (old : Patch (Cell K V) ℕ) (new : NewTree K V) :
    Prop where
  real : ∀ a ∈ new.labels, a.key ≠ cfg.noKey
  nonneg : ∀ a ∈ new.labels, 0 ≤ a.weight
  leaf_pos : ∀ a ∈ newLeaves new, 1 ≤ a.weight
  top_weight : uKey = cfg.noKey → topWeight new = 1
  bal : ∃ d, (uKey ≠ cfg.noKey → d = 0) ∧
    ∀ b F h, (old.plug F).Bal Cell.weight h → ((inst b new).plug F).Bal Cell.weight (h + d)

/-- The replacement makes the tree nonempty or empty.  The version of the sentinel leaf counts no
key in a nonempty tree, and one in a tree that has become empty. -/
inductive TopShape (cfg : Cfg K V) : NewTree K V → Prop
  | fill (a b s : NewNode K V) (ha : a.key = cfg.noKey) (hw : a.weight = 1)
      (hb : b.key ≠ cfg.noKey) (hbw : b.weight = 1) (hs : s.key = cfg.noKey)
      (hsum : s.sum = some 0) : TopShape cfg (.node a (.leaf b) (.leaf s))
  | clear (s : NewNode K V) (hs : s.key = cfg.noKey) (hsum : s.sum = some 1) :
      TopShape cfg (.leaf s)

/-! ### The new nodes as a patch of the tree -/

theorem trace_inst (b : ℕ) (w : ℤ) (lo : WithBot (WithTop K)) (hi : WithTop (WithTop K))
    (new : NewTree K V) : oldTrace cfg w lo hi (inst b new) = newTrace cfg w lo hi new := by
  induction new generalizing w lo hi with
  | sub i => rfl
  | leaf a => rfl
  | node a l r ihl ihr =>
      simp only [oldTrace, newTrace, inst, Patch.map, Patch.trace] at ihl ihr ⊢
      rw [ihl, ihr]
      rfl

omit [LinearOrder K] in
/-- The exits of a patch determine its references. -/
theorem subs_eq_trace {α : Type} (key : α → WithTop K) (wt : α → ℤ) (val : α → K × V) (w : ℤ)
    (lo : WithBot (WithTop K)) (hi : WithTop (WithTop K)) (p : Patch α ℕ) :
    p.subs = (p.trace key wt val w lo hi).flatMap
      fun s => Sum.elim (fun i => [i]) (fun _ => []) s.exit := by
  induction p generalizing w lo hi with
  | sub i => rfl
  | leaf a => rfl
  | node a l r ihl ihr =>
      rw [Patch.subs, Patch.trace, List.flatMap_append, ← ihl, ← ihr]

theorem stored_plug (F : ℕ → LTree (Cell K V)) (p : Patch (Cell K V) ℕ) (q : K) :
    stored cfg (p.plug F) q = match p.route (ckey cfg) (q : WithTop K) with
      | .inl i => stored cfg (F i) q
      | .inr c => if c.key = q then some c.value else none := by
  unfold stored
  simp only [Patch.leafAt_plug]
  cases p.route (ckey cfg) (q : WithTop K) <;> rfl

/-- The key of the contents of a leaf. -/
def kof (cfg : Cfg K V) (b : K × V) : WithTop K := ord cfg b.1

section Trace

variable {old : Patch (Cell K V) ℕ} {new : NewTree K V} {d : ℤ}

/-- **Patches with equal exits stand for trees that are alike for every search.** -/
theorem within_of_trace {lo : WithBot (WithTop K)} {hi : WithTop (WithTop K)} (b : ℕ)
    (F : ℕ → LTree (Cell K V)) (htr : newTrace cfg 0 lo hi new = oldTrace cfg d lo hi old)
    (h : (old.plug F).Within (ckey cfg) lo hi) : ((inst b new).plug F).Within (ckey cfg) lo hi := by
  have hk : ∀ c : Cell K V, kof cfg (cval c) = ckey cfg c := fun _ => rfl
  rw [Patch.within_plug_iff Cell.weight hk F _ d] at h
  rw [Patch.within_plug_iff Cell.weight hk F _ 0]
  have : oldTrace cfg 0 lo hi (inst b new) = newTrace cfg 0 lo hi new := trace_inst b 0 lo hi new
  rw [oldTrace] at this
  rwa [this, htr]

theorem route_of_trace {lo : WithBot (WithTop K)} {hi : WithTop (WithTop K)} (b : ℕ)
    {F : ℕ → LTree (Cell K V)} (htr : newTrace cfg 0 lo hi new = oldTrace cfg d lo hi old)
    (h : (old.plug F).Within (ckey cfg) lo hi) {q : K} (hq : Between lo hi q) :
    ((inst b new).route (ckey cfg) (q : WithTop K)).map id cval =
      (old.route (ckey cfg) (q : WithTop K)).map id cval :=
  Patch.route_eq_of_trace_eq ((trace_inst b 0 lo hi new).trans htr) h hq.1 hq.2

theorem bal_of_trace {lo : WithBot (WithTop K)} {hi : WithTop (WithTop K)} (b : ℕ)
    (F : ℕ → LTree (Cell K V)) (htr : newTrace cfg 0 lo hi new = oldTrace cfg d lo hi old) {h : ℤ}
    (hb : (old.plug F).Bal Cell.weight h) : ((inst b new).plug F).Bal Cell.weight (h + d) := by
  rw [Patch.bal_plug_iff (ckey cfg) cval F _ d h lo hi] at hb
  rw [Patch.bal_plug_iff (ckey cfg) cval F _ 0 (h + d) lo hi]
  have : oldTrace cfg 0 lo hi (inst b new) = newTrace cfg 0 lo hi new := trace_inst b 0 lo hi new
  rw [oldTrace] at this
  rw [this, htr]
  simpa using hb

/-- Equal exits: equal bindings. -/
theorem stored_of_route {b : ℕ} {F : ℕ → LTree (Cell K V)} {q : K}
    (h : ((inst b new).route (ckey cfg) (q : WithTop K)).map id cval =
      (old.route (ckey cfg) (q : WithTop K)).map id cval) :
    stored cfg ((inst b new).plug F) q = stored cfg (old.plug F) q := by
  rw [stored_plug, stored_plug]
  revert h
  rcases (inst b new).route (ckey cfg) (q : WithTop K) with i | a <;>
    rcases old.route (ckey cfg) (q : WithTop K) with j | c <;> simp [cval]
  · rintro rfl; rfl
  · intro hk hv; rw [hk, hv]

theorem exits_of_route {b : ℕ} {q : K} {k : K} {e : Effect V}
    (h : ((inst b new).route (ckey cfg) (q : WithTop K)).map id cval =
      (old.route (ckey cfg) (q : WithTop K)).map id cval) :
    Exits k e (old.route (ckey cfg) (q : WithTop K))
      ((inst b new).route (ckey cfg) (q : WithTop K)) := by
  revert h
  rcases (inst b new).route (ckey cfg) (q : WithTop K) with i | a <;>
    rcases old.route (ckey cfg) (q : WithTop K) with j | c <;> simp
  · rintro rfl; exact .sub i
  · exact fun _ => .leaf c a

theorem subs_of_trace
    (htr : ∀ lo hi, newTrace cfg 0 lo hi new = oldTrace cfg d lo hi old) : new.subs = old.subs := by
  rw [subs_eq_trace (nkey cfg) NewNode.weight nval 0 ⊥ ⊤ new,
    subs_eq_trace (ckey cfg) Cell.weight cval d ⊥ ⊤ old]
  exact congrArg _ (htr ⊥ ⊤)

end Trace

/-! ### Rebalancing steps -/

omit [LinearOrder K] in
theorem Plain.versOk {new : NewTree K V} (h : Plain new) : VersOk cfg new := by
  induction new with
  | sub i => trivial
  | leaf a => exact ⟨1, h, fun _ => rfl⟩
  | node a l r ihl ihr => exact ⟨ihl h.2.1, ihr h.2.2, .inl h.1⟩

/-- **A rebalancing step changes no binding.** -/
theorem Rearranges.plan {uKey k : K} {old : Patch (Cell K V) ℕ} {new : NewTree K V}
    (h : Rearranges cfg uKey old new) : Plan cfg k .keep old new := by
  obtain ⟨d, -, htr⟩ := h.trace
  refine ⟨subs_of_trace htr, fun b F lo hi hw _ => within_of_trace b F (htr lo hi) hw,
    fun b F lo hi hw q hq => exits_of_route (route_of_trace b (htr lo hi) hw hq),
    fun b F lo hi hw q _ hq => ?_, h.plain.versOk⟩
  rw [stored_of_route (route_of_trace b (htr lo hi) hw hq)]
  exact (ite_self _).symm

theorem Rearranges.realShape {uKey : K} {old : Patch (Cell K V) ℕ} {new : NewTree K V}
    (h : Rearranges cfg uKey old new) (hreal : ∀ c ∈ old.labels, c.key ≠ cfg.noKey) :
    RealShape cfg uKey old new := by
  obtain ⟨d, hd, htr⟩ := h.trace
  refine ⟨fun a ha => ?_, h.nonneg, h.leaf_pos, h.top_weight, d, hd,
    fun b F n hb => bal_of_trace b F (htr ⊥ ⊤) hb⟩
  obtain ⟨c, hc, he⟩ := h.keys a ha
  exact he ▸ hreal c hc

/-! ### Deletion -/

theorem stored_eq_none {lo : WithBot (WithTop K)} {hi : WithTop (WithTop K)}
    {t : LTree (Cell K V)} (h : t.Within (ckey cfg) lo hi) {q : K} (hk : q ≠ cfg.noKey)
    (hq : ¬ Between lo hi q) : stored cfg t q = none := by
  unfold stored
  refine if_neg fun he => hq ?_
  have := h.mem_leaves (LTree.leafAt_mem_leaves (ckey cfg) (q : WithTop K) t)
  rwa [ckey, he, ord_of_ne hk] at this

section Erase

variable {p l : Cell K V} {S : Patch (Cell K V) ℕ} {new : NewTree K V} {d : ℤ} {k : K}

/-- **A deletion of the left child `l` leaves its sibling in the place of their parent.** -/
theorem plan_erase_left (htr : ∀ lo hi, newTrace cfg 0 lo hi new = oldTrace cfg d lo hi S)
    (hl : l.key = k) (hv : VersOk cfg new) : Plan cfg k .drop (.node p (.leaf l) S) new := by
  have wide : ∀ {F lo hi}, ((Patch.node p (.leaf l) S).plug F).Within (ckey cfg) lo hi →
      (S.plug F).Within (ckey cfg) lo hi := fun {F lo hi} hw =>
    hw.2.mono (LTree.Within.key_between hw).1 le_rfl
  refine ⟨(subs_of_trace htr).trans rfl,
    fun b F lo hi hw _ => within_of_trace b F (htr lo hi) (wide hw),
    fun b F lo hi hw q hq => ?_, fun b F lo hi hw q hk hq => ?_, hv⟩
  · have hr := route_of_trace b (htr lo hi) (wide hw) hq
    simp only [Patch.route]
    split_ifs
    · rcases hn : (inst b new).route (ckey cfg) (q : WithTop K) with i | a
      · exact .graft l i hl rfl
      · exact .leaf l a
    · exact exits_of_route hr
  · rw [stored_of_route (route_of_trace b (htr lo hi) (wide hw) hq)]
    by_cases hlt : (q : WithTop K) < ckey cfg p
    · -- the keys of the sibling are not below `p`
      rw [stored_eq_none hw.2 hk fun hb => not_lt.mpr (WithBot.coe_le_coe.mp hb.1) hlt]
      split_ifs with hqk
      · rfl
      · simp [stored_plug, Patch.route, hlt, hl, Ne.symm hqk]
    · have hqk : q ≠ k := by
        rintro rfl
        refine hlt (WithTop.coe_lt_coe.mp ?_)
        rw [← ord_of_ne hk, ← hl]
        exact hw.1.2
      rw [if_neg hqk, stored_plug F (.node p (.leaf l) S), stored_plug F S]
      simp [Patch.route, hlt]

theorem plan_erase_right (htr : ∀ lo hi, newTrace cfg 0 lo hi new = oldTrace cfg d lo hi S)
    (hl : l.key = k) (hv : VersOk cfg new) : Plan cfg k .drop (.node p S (.leaf l)) new := by
  have wide : ∀ {F lo hi}, ((Patch.node p S (.leaf l)).plug F).Within (ckey cfg) lo hi →
      (S.plug F).Within (ckey cfg) lo hi := fun {F lo hi} hw =>
    hw.1.mono le_rfl (LTree.Within.key_between hw).2.le
  refine ⟨(subs_of_trace htr).trans (by simp [Patch.subs]),
    fun b F lo hi hw _ => within_of_trace b F (htr lo hi) (wide hw),
    fun b F lo hi hw q hq => ?_, fun b F lo hi hw q hk hq => ?_, hv⟩
  · have hr := route_of_trace b (htr lo hi) (wide hw) hq
    simp only [Patch.route]
    split_ifs
    · exact exits_of_route hr
    · rcases hn : (inst b new).route (ckey cfg) (q : WithTop K) with i | a
      · exact .graft l i hl rfl
      · exact .leaf l a
  · rw [stored_of_route (route_of_trace b (htr lo hi) (wide hw) hq)]
    by_cases hlt : (q : WithTop K) < ckey cfg p
    · have hqk : q ≠ k := by
        rintro rfl
        have hkl : ckey cfg l = (q : WithTop K) := by rw [ckey, hl, ord_of_ne hk]
        exact not_lt.mpr (hkl ▸ WithBot.coe_le_coe.mp hw.2.1) hlt
      rw [if_neg hqk, stored_plug F (.node p S (.leaf l)), stored_plug F S]
      simp [Patch.route, hlt]
    · rw [stored_eq_none hw.1 hk fun hb => hlt (WithTop.coe_lt_coe.mp hb.2)]
      split_ifs with hqk
      · rfl
      · simp [stored_plug, Patch.route, hlt, hl, Ne.symm hqk]

end Erase

/-! ### Insertion -/

/-- **An insertion of a key that is there replaces its leaf.** -/
theorem plan_replace {c : Cell K V} {k : K} {v : V} {w : ℤ} (hc : c.key = k) :
    Plan cfg k (.put v) (.leaf c) (.leaf ⟨0, k, v, w, some 1⟩) := by
  refine ⟨rfl, fun b F lo hi hw _ => ?_, fun b F lo hi _ q _ => .leaf ..,
    fun b F lo hi _ q _ _ => ?_, ⟨1, rfl, fun _ => rfl⟩⟩
  · subst hc; exact hw
  · simp only [stored_plug, inst, Patch.map, Patch.route, Effect.apply]
    by_cases hq : q = k
    · simp [hq]
    · simp [hq, hc, Ne.symm hq]

section Insert

variable {c : Cell K V} {k : K} {v : V} {a x y : NewNode K V} {s : ℤ}

/-- **An insertion left of a leaf.**  `x` is the new leaf, `y` the copy of the old one. -/
theorem plan_insert_left (hk : k ≠ cfg.noKey) (hlt : (k : WithTop K) < ckey cfg c)
    (ha : a.key = c.key) (hx : nval x = (k, v)) (hy : nval y = cval c) (hxs : x.sum = some 1)
    (hys : y.sum = some s) (hs : c.key ≠ cfg.noKey → s = 1) (has : a.sum = some (1 + s)) :
    Plan cfg k (.put v) (.leaf c) (.node a (.leaf x) (.leaf y)) := by
  obtain ⟨hxk, hxv⟩ := Prod.mk.inj hx
  obtain ⟨hyk, hyv⟩ := Prod.mk.inj hy
  have hx' : ord cfg x.key = (k : WithTop K) := by rw [hxk, ord_of_ne hk]
  refine ⟨rfl, fun b F lo hi hw hb => ?_, fun b F lo hi _ q _ => ?_,
    fun b F lo hi _ q hq _ => ?_, ⟨1, hxs, fun _ => rfl⟩, ⟨s, hys, fun h => hs (hyk ▸ h)⟩,
    .inr ⟨x, y, 1, s, rfl, rfl, hxs, hys, has⟩⟩
  · have hkb := hb nofun
    refine ⟨⟨?_, ?_⟩, ?_, ?_⟩ <;> simp only [ckey, ha, hyk]
    · rw [hx']; exact hkb.1
    · rw [hx']; exact WithTop.coe_lt_coe.mpr hlt
    · exact le_rfl
    · exact hw.2
  · simp only [inst, Patch.map, Patch.route]
    split_ifs <;> exact .leaf ..
  · simp only [stored_plug, inst, Patch.map, Patch.route, ckey, ha, Effect.apply]
    by_cases hqc : (q : WithTop K) < ord cfg c.key
    · have hne : c.key ≠ q := by
        rintro rfl
        rw [ord_of_ne hq] at hqc
        exact lt_irrefl _ hqc
      by_cases hqk : q = k
      · subst hqk
        simp [hqc, hxk, hxv]
      · simp [hqc, hqk, hxk, hne, Ne.symm hqk]
    · have hqk : q ≠ k := by rintro rfl; exact hqc hlt
      simp [hqc, hqk, hyk, hyv]

/-- **An insertion right of a leaf.** -/
theorem plan_insert_right (hk : k ≠ cfg.noKey) (hlt : ckey cfg c < (k : WithTop K))
    (ha : a.key = k) (hx : nval x = (k, v)) (hy : nval y = cval c) (hxs : x.sum = some 1)
    (hys : y.sum = some s) (hs : c.key ≠ cfg.noKey → s = 1) (has : a.sum = some (s + 1)) :
    Plan cfg k (.put v) (.leaf c) (.node a (.leaf y) (.leaf x)) := by
  obtain ⟨hxk, hxv⟩ := Prod.mk.inj hx
  obtain ⟨hyk, hyv⟩ := Prod.mk.inj hy
  have hak : ord cfg a.key = (k : WithTop K) := by rw [ha, ord_of_ne hk]
  have hx' : ord cfg x.key = (k : WithTop K) := by rw [hxk, ord_of_ne hk]
  refine ⟨rfl, fun b F lo hi hw hb => ?_, fun b F lo hi _ q _ => ?_,
    fun b F lo hi _ q hq _ => ?_, ⟨s, hys, fun h => hs (hyk ▸ h)⟩, ⟨1, hxs, fun _ => rfl⟩,
    .inr ⟨y, x, s, 1, rfl, rfl, hys, hxs, has⟩⟩
  · have hkb := hb nofun
    refine ⟨⟨?_, ?_⟩, ?_, ?_⟩ <;> simp only [ckey, hak, hyk, hx']
    · exact hw.1
    · exact WithTop.coe_lt_coe.mpr hlt
    · exact le_rfl
    · exact hkb.2
  · simp only [inst, Patch.map, Patch.route]
    split_ifs <;> exact .leaf ..
  · simp only [stored_plug, inst, Patch.map, Patch.route, ckey, hak, Effect.apply]
    by_cases hqk : (q : WithTop K) < k
    · have hne : q ≠ k := by rintro rfl; exact lt_irrefl _ hqk
      simp [hqk, hne, hyk, hyv]
    · have hne : c.key ≠ q := by
        rintro rfl
        exact hqk (by rwa [ckey, ord_of_ne hq] at hlt)
      by_cases hqe : q = k
      · simp [hqe, hxk, hxv]
      · simp [hqk, hqe, hxk, hne, Ne.symm hqe]

end Insert

end Cbat
