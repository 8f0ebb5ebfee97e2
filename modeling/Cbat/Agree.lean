/-
**`find` and `contains` side by side.**

`find` walks the nodes and `contains` the versions.  The second step of an SCX adds a key to the
nodes; the version of the root shows it only when the `propagate` of the insertion has come there.
Between the two, `find` sees the key and a later `contains` does not.  This is the only way in which
they disagree: some insertion that has added the key has not returned.

Main definitions:

* `Cbat.Erasing`, `Cbat.Adding` — a thread in an `erase` of the key, and a thread that has added the
  key and not returned;
* `Cbat.Seen` — what a `find` knows of the node that it has come to;
* `Cbat.Tracked` — the versions show the key, or some thread is on its way to see to that.

Main results:

* `Cbat.Reachable.tracked` — **a change of the tree that is not shown has a thread behind it**;
* `Cbat.find_then_contains` — **`contains` finds what `find` has found** if no insertion of the key
  is under way when it loads the version of the root;
* `Cbat.find_not_contains` — a run in which it does not.
-/

import Cbat.Errors
import Cbat.Visible

set_option relaxedAutoImplicit false
set_option autoImplicit false

namespace Cbat

variable {K V : Type} [LinearOrder K] {cfg : Cfg K V} {k : K} {m : Mem K V}

/-! ### Membership across a commit -/

section Commits

variable {rec : ScxRecord K V} {old : Patch (Cell K V) ℕ} {q : K} {e : Effect V}
  {t : LTree (Cell K V)}

/-- The keys after an SCX. -/
theorem Commit.inTree_iff (h : Commit cfg m rec old k e) (hT : TreeInv cfg m t)
    (hq : q ≠ cfg.noKey) :
    InTree (m.swing rec) q ↔
      (if q = k then e.apply (stored cfg t q) else stored cfg t q) ≠ none := by
  obtain ⟨-, t', hT', hs⟩ := h.swing hT
  rw [hT'.inTree_iff_stored hq, hs.stored q hq]

/-- Only a deletion of the key removes it. -/
theorem Commit.inTree_mono (h : Commit cfg m rec old k e) (hT : TreeInv cfg m t)
    (hq : q ≠ cfg.noKey) (he : q = k → e ≠ .drop) (hin : InTree m q) : InTree (m.swing rec) q := by
  rw [h.inTree_iff hT hq]
  rw [hT.inTree_iff_stored hq] at hin
  split_ifs with hqk
  · cases e with
    | keep => exact hin
    | put v => exact nofun
    | drop => exact absurd rfl (he hqk)
  · exact hin

/-- **A commit that changes whether the key is there** is a deletion of the key, or an insertion of
it when it is not there. -/
theorem Commit.inTree_changed (h : Commit cfg m rec old k e) (hT : TreeInv cfg m t)
    (hq : q ≠ cfg.noKey) (hne : ¬ (InTree (m.swing rec) q ↔ InTree m q)) :
    q = k ∧ (e = .drop ∨ ((∃ v, e = .put v) ∧ ¬ InTree m q)) := by
  rw [h.inTree_iff hT hq] at hne
  split_ifs at hne with hqk
  · refine ⟨hqk, ?_⟩
    cases e with
    | keep => exact absurd (hT.inTree_iff_stored hq).symm hne
    | put v => exact .inr ⟨⟨v, rfl⟩, fun hin => hne ⟨fun _ => hin, fun _ => nofun⟩⟩
    | drop => exact .inl rfl
  · exact absurd (hT.inTree_iff_stored hq).symm hne

/-- A search after the commit: it comes to a node of the tree, or it goes as before. -/
theorem Route.swing_cases (h : Commit cfg m rec old k e) (hT : TreeInv cfg m t) (hc : Closed m)
    {x y : ℕ} (hx : x < m.next) (hxy : Route cfg (m.swing rec) q x y) :
    Live (m.swing rec) y ∨ (y < m.next ∧ Route cfg m q x y) := by
  obtain ⟨hu, t', hT', hs⟩ := h.swing hT
  induction hxy using Relation.ReflTransGen.head_induction_on with
  | refl => exact .inr ⟨hx, .refl⟩
  | @head a b hab hby ih =>
      by_cases hau : a = rec.nth 0
      · subst hau
        have hlive : Live (m.swing rec) (rec.nth 0) :=
          (hs.live_iff hT hT').mpr (.inl ⟨h.live, hu⟩)
        exact .inl (hlive.trans (Route.reach (.head hab hby)))
      · rw [KEdge.congr (.rfl' (Mem.swing_of_ne hx hau))] at hab
        exact (ih (hc.kedge_lt hx hab)).imp_right fun hr => ⟨hr.1, .head hab hr.2⟩

end Commits

/-! ### `find` -/

/-- If the search of the key from `x` comes to a leaf with the key, then the key is in the tree. -/
def Seen (cfg : Cfg K V) (m : Mem K V) (k : K) (x : ℕ) : Prop :=
  ∀ y, Route cfg m k x y → (m.node y).left = 0 → (m.node y).key = k → InTree m k

theorem seen_root : Seen cfg m k root :=
  fun y hy hl hk => ⟨y, OnPath.live hy, hl, hk⟩

theorem Seen.kedge {x y : ℕ} (h : Seen cfg m k x) (hxy : KEdge cfg m k x y) : Seen cfg m k y :=
  fun z hz => h z (.head hxy hz)

/-- What a step leaves of the keys, unless it removes the key. -/
theorem Seen.step {s : State K V} {i x : ℕ} {m' : Mem K V} {pc' : PC K V} (h : Seen cfg s.mem k x)
    (hI : Inv cfg s) (hK : ExecKind cfg s.mem (s.pc i) m' pc') (hx : x < s.mem.next)
    (hin : InTree s.mem k → InTree m' k) : Seen cfg m' k x := by
  have hsame : SameNodes s.mem m' → Seen cfg m' k x := fun hs y hy hl hk => by
    rw [hs.route_iff] at hy
    rw [(hs.same y).left] at hl
    rw [(hs.same y).key] at hk
    exact hin (h y hy hl hk)
  cases hK with
  | still => exact hsame (Quiet.refl _).toSameNodes
  | prop hp => exact hsame hp.quiet.toSameNodes
  | freeze => exact hsame (freeze_sameNodes ..)
  | swing hpc =>
      obtain ⟨t, hB⟩ := hI.base
      obtain ⟨old, hc⟩ := hI.commit hpc
      have hl := Later.swing hc hB.tree hB.closed
      intro y hy hleaf hk
      rcases hy.swing_cases hc hB.tree hB.closed hx with hlive | ⟨hlt, hy⟩
      · exact ⟨y, hlive, hleaf, hk⟩
      · rw [hl.leaf y hlt] at hleaf
        rw [hl.key y hlt] at hk
        exact hin (h y hy hleaf hk)

/-- A node that a `find` of the key has come to. -/
structure Reached (cfg : Cfg K V) (m : Mem K V) (k : K) (x : ℕ) : Prop where
  lt : x < m.next
  ne_root : x ≠ root
  seen : Seen cfg m k x

/-- **A `find` of the key**: the keys of the nodes tell the sentinels from the real nodes. -/
def FindAt (cfg : Cfg K V) (m : Mem K V) (k : K) : PC K V → Prop
  | .findRoot q => q = k
  | .findTop q p => q = k ∧ Reached cfg m k p ∧ (m.node p).key = cfg.noKey
  | .findLoop q l => q = k ∧ Reached cfg m k l ∧ (m.node l).key ≠ cfg.noKey
  | .findNext q p => q = k ∧ Reached cfg m k p ∧ (m.node p).key ≠ cfg.noKey ∧ (m.node p).left ≠ 0
  | .findRet _ found => found = true → InTree m k
  | _ => False

theorem Reached.next {t : LTree (Cell K V)} {x : ℕ} (h : Reached cfg m k x) (hB : Base cfg m t)
    (hl : (m.node x).left ≠ 0) : Reached cfg m k (child cfg m k x) := by
  have h0 : child cfg m k x ≠ 0 := by
    unfold child
    split_ifs
    · exact hl
    · exact hB.closed.full x h.lt h.ne_root hl
  have hedge : KEdge cfg m k x (child cfg m k x) := ⟨hl, rfl, h0⟩
  exact ⟨hB.closed.kedge_lt h.lt hedge, (hB.acyclic x h.lt _ hedge.edge).1, h.seen.kedge hedge⟩

/-- **One step of a `find`.** -/
theorem FindAt.exec {t : LTree (Cell K V)} (hB : Base cfg m t) {pc : PC K V}
    (h : FindAt cfg m k pc) : (exec cfg m pc).1 = m ∧ FindAt cfg m k (exec cfg m pc).2 := by
  cases pc with
  | findRoot q =>
      obtain rfl : q = k := h
      have hT := hB.tree
      have hl : (m.node root).left ≠ 0 := hT.root_left ▸ fun h => hT.zero_notMem
        (h ▸ label_id_mem_ids t)
      have hedge : Edge m root (m.node root).left := ⟨hl, .inl rfl⟩
      have hkedge : KEdge cfg m q root (m.node root).left :=
        ⟨hl, by simp [child, goesLeft, hT.root_key], hl⟩
      refine ⟨rfl, rfl, ⟨hT.live_lt (.single hedge), hT.edge_ne_root .refl hedge,
        seen_root.kedge hkedge⟩, ?_⟩
      cases hT.edgeKind .refl hedge with
      | root _ hy => exact hy
      | top hx => exact absurd rfl hx
      | sentinel hx => exact absurd rfl hx
      | real hx => exact absurd rfl hx
  | findTop q p =>
      obtain ⟨rfl, hp, hk⟩ := h
      simp only [Cbat.exec, execQuery]
      split_ifs with hl
      · exact ⟨rfl, by intro h; cases h⟩
      · have hc := hp.next hB hl
        have he : child cfg m q p = (m.node p).left := by simp [child, goesLeft, hk]
        exact ⟨rfl, rfl, he ▸ hc, (hB.keyed p hp.lt hp.ne_root hl).1⟩
  | findLoop q l =>
      obtain ⟨rfl, hl, hk⟩ := h
      simp only [Cbat.exec, execQuery]
      split_ifs with h0 hq
      · exact ⟨rfl, rfl, hl, hk, h0⟩
      · exact ⟨rfl, fun _ => hl.seen l .refl (not_not.mp h0) hq.symm⟩
      · exact ⟨rfl, by intro h; cases h⟩
      · exact ⟨rfl, by intro h; cases h⟩
  | findNext q p =>
      obtain ⟨rfl, hp, hk, hl⟩ := h
      have hc := hp.next hB hl
      have he : child cfg m q p =
          if q < (m.node p).key then (m.node p).left else (m.node p).right := by
        simp [child, goesLeft, hk]
      obtain ⟨hkl, hkr⟩ := hB.keyed p hp.lt hp.ne_root hl
      refine ⟨rfl, rfl, he ▸ hc, ?_⟩
      split_ifs
      · exact hkl
      · exact hkr hk
  | findRet v found => exact ⟨rfl, h⟩
  | _ => exact h.elim

theorem Reached.step {s : State K V} {i x : ℕ} {m' : Mem K V} {pc' : PC K V}
    (h : Reached cfg s.mem k x) (hI : Inv cfg s) (hK : ExecKind cfg s.mem (s.pc i) m' pc')
    (hin : InTree s.mem k → InTree m' k) : Reached cfg m' k x :=
  ⟨h.lt.trans_le (hI.later hK).next, h.ne_root, h.seen.step hI hK h.lt hin⟩

/-- **The steps of the other threads.** -/
theorem FindAt.step {s : State K V} {i : ℕ} {m' : Mem K V} {pc pc' : PC K V}
    (h : FindAt cfg s.mem k pc) (hI : Inv cfg s) (hK : ExecKind cfg s.mem (s.pc i) m' pc')
    (hin : InTree s.mem k → InTree m' k) : FindAt cfg m' k pc := by
  have hl := hI.later hK
  cases pc with
  | findRoot q => exact h
  | findTop q p => exact ⟨h.1, h.2.1.step hI hK hin, (hl.key p h.2.1.lt).trans h.2.2⟩
  | findLoop q l => exact ⟨h.1, h.2.1.step hI hK hin, (hl.key l h.2.1.lt).trans_ne h.2.2⟩
  | findNext q p =>
      exact ⟨h.1, h.2.1.step hI hK hin, (hl.key p h.2.1.lt).trans_ne h.2.2.1,
        fun h0 => h.2.2.2 ((hl.leaf p h.2.1.lt).mp h0)⟩
  | findRet v found => exact fun hf => hin (h hf)
  | _ => exact h.elim

/-! ### Insertions that replace a value -/

/-- The record of an insertion replaces a leaf with its key, or the call has written `NO_VALUE` to
its output. -/
def Announced (cfg : Cfg K V) (m : Mem K V) : PC K V → Prop
  | .swing c .update rec => c.kind = .erase ∨ c.result = cfg.noValue ∨
      (rec.nth 1 < m.next ∧ (m.node (rec.nth 1)).left = 0 ∧ (m.node (rec.nth 1)).key = c.key)
  | _ => True

omit [LinearOrder K] in
theorem announced_of_not {pc : PC K V} (h : pc.committing = false) : Announced cfg m pc := by
  cases pc <;> trivial

theorem Announced.later {m' : Mem K V} {pc : PC K V} (h : Announced cfg m pc)
    (hl : Later cfg m m') : Announced cfg m' pc := by
  cases pc with
  | swing c md rec =>
      cases md with
      | rebalance => trivial
      | update =>
          refine h.imp_right (Or.imp_right fun ⟨hlt, hleaf, hk⟩ => ?_)
          exact ⟨hlt.trans_le hl.next, (hl.leaf _ hlt).mpr hleaf, (hl.key _ hlt).trans hk⟩
  | _ => trivial

/-- The nodes of the SCX of an insertion are those of its search. -/
theorem insertScx_nth {c : Call K V} {cur : Cursor} {rec : ScxRecord K V}
    (h : insertScx cfg m c cur = .ok rec) : rec.nth 1 = cur.l := by
  unfold insertScx at h
  obtain ⟨-, h⟩ := llx_bind.mp h
  obtain ⟨-, h⟩ := checkChild_bind.mp h
  split_ifs at h <;> obtain rfl := Except.ok.inj h <;> rfl

theorem attempt_announced {c c' : Call K V} {md : Mode} {cur : Cursor} {rec : ScxRecord K V}
    (hE : EndOk cfg m c.key md cur) (h : attempt cfg m c md cur = (c', .ok rec)) :
    Announced cfg m (.swing c' md rec) := by
  have hs := attempt_same cfg m c md cur
  rw [h] at hs
  cases md with
  | rebalance => trivial
  | update =>
      -- both insertions write the output and read the nodes in the same way
      have hins : ∀ rec', c.kind ≠ .erase → insertScx cfg m c cur = .ok rec' →
          (outputs cfg m c cur, Except.ok rec') = (c', (.ok rec : Except Stop _)) →
          Announced cfg m (.swing c' .update rec) := by
        intro rec' hk hscx he
        obtain ⟨rfl, hr⟩ := Prod.mk.inj he
        obtain rfl := Except.ok.inj hr
        refine .inr ?_
        rw [insertScx_nth hscx, hs.key]
        by_cases hkl : c.key = (m.node cur.l).key
        · exact .inr ⟨hE.l.lt, hE.leaf rfl, hkl.symm⟩
        · refine .inl ?_
          cases hkind : c.kind <;> simp_all [outputs]
      unfold attempt at h
      cases hkind : c.kind with
      | erase => exact .inl (hs.kind.trans hkind)
      | insert =>
          simp only [hkind] at h
          cases hscx : insertScx cfg m c cur with
          | error e => simp [hscx] at h
          | ok rec' =>
              simp only [hscx] at h
              exact hins rec' (by simp [hkind]) hscx h
      | insertIfAbsent =>
          simp only [hkind] at h
          split_ifs at h with hkl
          · exact nomatch (Prod.mk.inj h).2
          · cases hscx : insertScx cfg m c cur with
            | error e => simp [hscx] at h
            | ok rec' =>
                simp only [hscx] at h
                exact hins rec' (by simp [hkind]) hscx h

theorem Reachable.announced {s : State K V} (h : Reachable cfg s) (i : ℕ) :
    Announced cfg s.mem (s.pc i) := by
  induction h generalizing i with
  | refl => trivial
  | @tail s s' hr hs ih =>
      have hI := Reachable.inv hr
      obtain ⟨j, hs⟩ := hs
      obtain ⟨m', pc', rfl, hK⟩ := hs.kind
      refine forall_set (P := fun _ pc => Announced cfg m' pc) ?_ (fun l _ => ?_) i
      · cases hK with
        | still h h' => exact announced_of_not (PC.early_not_committing h')
        | prop h => exact announced_of_not h.committing.2
        | @freeze c md cur c' rec hpc ha =>
            have hE := hI.pcs j
            rw [hpc] at hE
            exact (attempt_announced hE.2 ha).later (hI.later (.freeze hpc ha))
        | swing hpc => exact announced_of_not (by simp)
      · exact (ih l).later (hI.later hK)

/-! ### Who has still to show the key -/

omit [LinearOrder K] in
/-- The call of a thread that is in an update. -/
def PC.running (pc : PC K V) : Option (Call K V) :=
  match pc.before with
  | some (c, _) => some c
  | none => if pc.propagating then pc.propCall else none

omit [LinearOrder K] in
/-- The thread is in an `erase` of the key. -/
def Erasing (k : K) (pc : PC K V) : Prop :=
  ∃ c, pc.running = some c ∧ c.kind = .erase ∧ c.key = k

omit [LinearOrder K] in
/-- **The thread has added the key and has not returned**: its attempts are over, and the output
says that the key was not there. -/
def Adding (cfg : Cfg K V) (k : K) (pc : PC K V) : Prop :=
  ¬ pc.Resting ∧ ∃ c, pc.reported = some c ∧ c.key = k ∧ c.kind ≠ .erase ∧ c.result = cfg.noValue

omit [LinearOrder K] in
/-- The thread may have changed whether the key is there, and has not returned. -/
def Owing (cfg : Cfg K V) (k : K) (pc : PC K V) : Prop :=
  ¬ pc.Resting ∧ ∃ c, pc.reported = some c ∧ c.key = k ∧
    (c.kind = .erase ∨ c.result = cfg.noValue)

omit [LinearOrder K] in
theorem PC.running_of_reported {pc : PC K V} {c : Call K V} (h : pc.reported = some c)
    (hr : ¬ pc.Resting) : pc.running = some c := by
  unfold PC.reported at h
  unfold PC.running
  cases hb : pc.before with
  | some a =>
      obtain ⟨c', md⟩ := a
      rw [hb] at h
      cases md with
      | update => exact nomatch h
      | rebalance => exact h
  | none =>
      rw [hb] at h
      cases pc <;> first | exact h | exact absurd trivial hr

omit [LinearOrder K] in
theorem Owing.cases {pc : PC K V} (h : Owing cfg k pc) : Erasing k pc ∨ Adding cfg k pc := by
  obtain ⟨hr, c, hc, hk, ho⟩ := h
  by_cases he : c.kind = .erase
  · exact .inl ⟨c, PC.running_of_reported hc hr, he, hk⟩
  · exact .inr ⟨hr, c, hc, hk, he, ho.resolve_left he⟩

/-- **The versions show whether the key is in the tree, or a thread that has changed that is on its
way.** -/
def Tracked (cfg : Cfg K V) (k : K) (s : State K V) : Prop :=
  SettledFrom cfg k (InTree s.mem k) s root ∨
    ∃ i, Owing cfg k (s.pc i) ∧
      ((s.pc i).before ≠ none ∨ ∃ G, ServeInv cfg k (InTree s.mem k) i G s)

theorem tracked_init (hk : k ≠ cfg.noKey) : Tracked cfg k (State.init cfg) := by
  have hnot : ¬ InTree (State.init cfg).mem k := by
    rintro ⟨x, -, -, hx⟩
    simp only [State.init, Mem.init] at hx
    split_ifs at hx <;> exact hk hx.symm
  refine .inl fun y _ => ⟨fun _ => ?_, ?_⟩
  · refine iff_of_false ?_ hnot
    simp only [State.init, Mem.init]
    split_ifs <;> simp [Ver.leafKeys, hk]
  · rintro g ⟨i, hg⟩
    cases hg

omit [LinearOrder K] in
theorem kind_of_effect_drop {c : Call K V} {md : Mode} (h : c.effect md = .drop) :
    c.kind = .erase := by
  cases md with
  | rebalance => exact nomatch h
  | update => cases hk : c.kind <;> simp [Call.effect, hk] at h ⊢

section Track

variable {s s' : State K V} {i j : ℕ}

/-- A step of a thread that has still to show the key. -/
theorem Owing.step (h : Owing cfg k (s.pc i)) (hr : Reachable cfg s) (hs : Step cfg s i s')
    (hn : ¬ (s'.pc i).Resting) : Owing cfg k (s'.pc i) := by
  obtain ⟨hrest, c, hc, hk, ho⟩ := h
  have hstep := hs.callStep (PC.inUpdate_of_reported hc hrest)
  rcases hstep.reported hc with hcr | ⟨c', hc', hsame⟩
  · exact absurd hcr ((hr.step hs).ne_crash i)
  · exact ⟨hn, c', hc', hsame.key.trans hk, ho.imp hsame.kind.trans hsame.result.trans⟩

/-- **A commit that changes whether the key is there.** -/
theorem Tracked.of_changed (hr : Reachable cfg s) (hk : k ≠ cfg.noKey) (hs : Step cfg s i s')
    (hne : ¬ (InTree s'.mem k ↔ InTree s.mem k)) : Tracked cfg k s' := by
  have hI := hr.inv
  obtain ⟨t, hB⟩ := hI.base
  obtain ⟨m', pc', rfl, hK⟩ := hs.kind
  cases hK with
  | still => exact absurd Iff.rfl hne
  | prop hp => exact absurd hp.quiet.toSameNodes.inTree_iff hne
  | freeze => exact absurd (freeze_sameNodes ..).inTree_iff hne
  | @swing c md rec hpc =>
      obtain ⟨old, hc⟩ := hI.commit hpc
      obtain ⟨rfl, he⟩ := hc.inTree_changed hB.tree hk hne
      have hann := hr.announced i
      rw [hpc] at hann
      have howes : c.kind = .erase ∨ c.result = cfg.noValue := by
        rcases he with he | ⟨⟨v, he⟩, hnot⟩
        · exact .inl (kind_of_effect_drop he)
        · cases md with
          | rebalance => exact nomatch he
          | update =>
              refine hann.imp_right fun h => h.resolve_right fun ⟨_, hleaf, hkey⟩ => ?_
              exact hnot ⟨_, hc.live_top, hleaf, hkey⟩
      have hrep : (finished c md).reported = some c := finished_reported c md
      refine .inr ⟨i, ?_, ?_⟩ <;> rw [State.set_pc_self]
      · refine ⟨fun hrest => ?_, c, hrep, rfl, howes⟩
        rcases finished_cases c md with h | h
        · exact absurd hrest (PC.inUpdate.not_resting (.inl (by rw [h]; exact nofun)))
        · rw [h] at hrest
          exact hrest
      · rcases finished_cases c md with h | h
        · exact .inl (by rw [h]; exact nofun)
        · exact .inr ⟨∅, .start (by rw [State.set_pc_self]; exact h) rfl⟩

/-- **A step of a thread that has still to show the key** and that does not change the tree. -/
theorem Owing.tracked (hv : cfg.variant = .bat) (hO : Owing cfg k (s.pc j)) (hr : Reachable cfg s)
    {m' : Mem K V} {pc' : PC K V} (hs : Step cfg s j (s.set m' j pc'))
    (hstep : KeyStep cfg k (InTree s.mem k) s j m' pc')
    (hb : (s.pc j).before ≠ none ∨ ∃ G, ServeInv cfg k (InTree s.mem k) j G s) :
    Tracked cfg k (s.set m' j pc') := by
  have hu := PC.inUpdate_of_reported hO.2.choose_spec.1 hO.1
  have hcall := hs.callStep hu
  have hO' : ¬ pc'.Resting → Owing cfg k pc' := fun h => by
    have := hO.step hr hs (by rwa [State.set_pc_self])
    rwa [State.set_pc_self] at this
  unfold Tracked
  rw [State.set_mem, State.set_pc_self] at hcall
  rw [State.set_mem, propext hstep.stored]
  rcases hb with hb | ⟨G, hS⟩
  · obtain ⟨⟨c, md⟩, hb⟩ := Option.ne_none_iff_exists'.mp hb
    refine .inr ⟨j, ?_⟩
    rw [State.set_pc_self]
    cases hcall.continues hb with
    | before h =>
        have hne : pc'.before ≠ none := by rw [h]; exact nofun
        exact ⟨hO' (PC.inUpdate.not_resting (.inl hne)), .inl hne⟩
    | propagate h kind key =>
        subst h
        obtain ⟨-, c', hc', hk', -⟩ := hO' id
        obtain rfl := Option.some.inj hc'
        exact ⟨hO' id, .inr ⟨∅, .start (State.set_pc_self ..) hk'⟩⟩
    | crash h =>
        have := (hr.step hs).ne_crash j
        rw [State.set_pc_self] at this
        exact absurd h this
  · obtain ⟨G', hS'⟩ := hS.step hstep (fun _ => hO.1) fun he => by rw [hv] at he; exact nomatch he
    rcases hcall.inUpdate hu with hu' | ⟨c, rfl⟩
    · refine .inr ⟨j, ?_, .inr ⟨G', hS'⟩⟩
      rw [State.set_pc_self]
      exact hO' hu'.not_resting
    · have hserve := hS'.serve j (.inl rfl)
      rw [State.set_pc_self] at hserve
      exact .inl hserve

/-- **Every step keeps track of the key.** -/
theorem Tracked.step (hv : cfg.variant = .bat) (h : Tracked cfg k s) (hr : Reachable cfg s)
    (hk : k ≠ cfg.noKey) (hs : Step cfg s j s') : Tracked cfg k s' := by
  by_cases hin : InTree s'.mem k ↔ InTree s.mem k
  · obtain ⟨m', pc', rfl, hK⟩ := hs.kind
    rw [State.set_mem] at hin
    have hstep : KeyStep cfg k (InTree s.mem k) s j m' pc' :=
      ⟨hr.inv, hr.vInv, hr.status, hk, hK, hin⟩
    rcases h with hset | ⟨i, hO, hb⟩
    · refine .inl ?_
      rw [State.set_mem, propext hin]
      exact hstep.settledFrom hr.inv.base.choose_spec.tree.root_lt (fun _ => hset) onPath_root
    · by_cases hji : j = i
      · subst hji
        exact hO.tracked hv hr hs hstep hb
      · refine .inr ⟨i, ?_⟩
        rw [State.set_pc_of_ne _ _ _ (Ne.symm hji), State.set_mem, propext hin]
        refine ⟨hO, hb.imp_right fun ⟨G, hS⟩ => ?_⟩
        exact hS.step hstep (fun he => absurd he hji) fun he => by rw [hv] at he; exact nomatch he
  · exact .of_changed hr hk hs hin

/-- **A change of the tree that the versions do not show has a thread behind it** that has not
returned. -/
theorem Reachable.tracked (h : Reachable cfg s) (hv : cfg.variant = .bat) (hk : k ≠ cfg.noKey) :
    Tracked cfg k s := by
  induction h with
  | refl => exact tracked_init hk
  | tail hr hs ih =>
      obtain ⟨j, hs⟩ := hs
      exact ih.step hv hr hk hs

end Track

/-! ### `find` and then `contains` -/

section Agree

variable {s s' s₀ s₁ s₂ s₃ : State K V} {i j : ℕ}

omit [LinearOrder K] in
/-- The step neither starts an `erase` of the key nor is a step of one. -/
def NoErase (k : K) (_ : State K V) (j : ℕ) (s' : State K V) : Prop := ¬ Erasing k (s'.pc j)

omit [LinearOrder K] in
/-- A `contains` of the key loads the version of the root only when no thread that has added the key
is still running. -/
def NotAdding (cfg : Cfg K V) (k : K) (s : State K V) (j : ℕ) (_ : State K V) : Prop :=
  s.pc j = .containsRoot k → ∀ l, ¬ Adding cfg k (s.pc l)

theorem Step.not_erasing (hs : Step cfg s j s') (hE : ∀ l, ¬ Erasing k (s.pc l))
    (hn : NoErase k s j s') (l : ℕ) : ¬ Erasing k (s'.pc l) := by
  by_cases hl : l = j
  · subst hl
    exact hn
  · rw [hs.pc_of_ne hl]
    exact hE l

/-- Without an `erase` of the key the key stays in the tree. -/
theorem Step.inTree_mono (hs : Step cfg s j s') (hr : Reachable cfg s) (hk : k ≠ cfg.noKey)
    (hE : ∀ l, ¬ Erasing k (s.pc l)) (hin : InTree s.mem k) : InTree s'.mem k := by
  obtain ⟨m', pc', rfl, hK⟩ := hs.kind
  cases hK with
  | still => exact hin
  | prop hp => exact hp.quiet.toSameNodes.inTree_iff.mpr hin
  | freeze => exact (freeze_sameNodes ..).inTree_iff.mpr hin
  | @swing c md rec hpc =>
      obtain ⟨t, hB⟩ := hr.inv.base
      obtain ⟨old, hc⟩ := hr.inv.commit hpc
      refine hc.inTree_mono hB.tree hk (fun hkc he => hE j ?_) hin
      rw [hpc]
      exact ⟨c, rfl, kind_of_effect_drop he, hkc.symm⟩

/-- **A `find` that returns `true` leaves the key in the tree.** -/
theorem CallRun.found (hk : k ≠ cfg.noKey) (h₀ : Reachable cfg s₀)
    (hE : ∀ l, ¬ Erasing k (s₀.pc l)) (hfind : FindAt cfg s₀.mem k (s₀.pc i))
    (h : CallRun cfg i (NoErase k) s₀ s) :
    (∀ l, ¬ Erasing k (s.pc l)) ∧ FindAt cfg s.mem k (s.pc i) := by
  induction h with
  | start => exact ⟨hE, hfind⟩
  | @step s s' l h hrun hs hq ih =>
      obtain ⟨hE, hat⟩ := ih
      have hr := h.reachable h₀
      refine ⟨hs.not_erasing hE hq, ?_⟩
      obtain ⟨t, hB⟩ := hr.inv.base
      by_cases hl : l = i
      · subst hl
        have hex := hat.exec hB
        cases hs with
        | invoke op hrest => exact absurd hrest hrun
        | abort hpc => rw [hpc] at hat; exact hat.elim
        | exec =>
            rw [State.set_mem, State.set_pc_self, hex.1]
            exact hex.2
      · have hmono := hs.inTree_mono hr hk hE
        rw [hs.pc_of_ne (Ne.symm hl)]
        obtain ⟨m', pc', rfl, hK⟩ := hs.kind
        exact hat.step hr.inv hK hmono

/-- **A `contains` of a key that is in the tree** and that nobody removes. -/
theorem CallRun.contained (hv : cfg.variant = .bat) (hk : k ≠ cfg.noKey) (h₀ : Reachable cfg s₀)
    (hE : ∀ l, ¬ Erasing k (s₀.pc l)) (hin : InTree s₀.mem k) (hpc : s₀.pc j = .containsRoot k)
    (h : CallRun cfg j (fun s l s' => NoErase k s l s' ∧ NotAdding cfg k s l s') s₀ s) :
    ((∀ l, ¬ Erasing k (s.pc l)) ∧ InTree s.mem k) ∧
      (s.pc j = .containsRoot k ∨ s.pc j = .containsRet true) := by
  induction h with
  | start => exact ⟨⟨hE, hin⟩, .inl hpc⟩
  | @step s s' l h hrun hs hq ih =>
      obtain ⟨⟨hE, hin⟩, hat⟩ := ih
      have hr := h.reachable h₀
      refine ⟨⟨hs.not_erasing hE hq.1, hs.inTree_mono hr hk hE hin⟩, ?_⟩
      by_cases hl : l = j
      · subst hl
        have hat := hat.resolve_right fun hat => hrun (by rw [hat]; trivial)
        have hshow : containsLoop cfg.noKey k (s.mem.node root).version = true := by
          rw [hr.containsLoop_iff hk]
          rcases hr.tracked hv hk with hset | ⟨a, hO, -⟩
          · exact (hset.shows hr).mpr hin
          · exact absurd hO fun hO => hO.cases.elim (hE a) (hq.2 hat a)
        cases hs with
        | invoke op hrest => exact absurd hrest hrun
        | abort hpc => rw [hpc] at hat; exact nomatch hat
        | exec =>
            rw [State.set_pc_self, hat]
            exact .inr (congrArg PC.containsRet hshow)
      · rw [hs.pc_of_ne (Ne.symm hl)]
        exact hat

/-- **What `find` has found, a later `contains` finds too**, if no `erase` of the key is running or
starts from the beginning of the `find` to the end of the `contains`, and if no insertion that has
added the key is still running when `contains` loads the version of the root. -/
theorem find_then_contains (hv : cfg.variant = .bat) (hk : k ≠ cfg.noKey) {v : V} {found : Bool}
    (h₀ : Reachable cfg s₀) (hi : (s₀.pc i).Resting) (hE : ∀ l, ¬ Erasing k (s₀.pc l))
    (hfind : CallRun cfg i (NoErase k) (s₀.set s₀.mem i ((Op.find k).start cfg)) s₁)
    (hfound : s₁.pc i = .findRet v true)
    (hgap : Relation.ReflTransGen (fun s s' => ∃ l, Step cfg s l s' ∧ NoErase k s l s') s₁ s₂)
    (hj : (s₂.pc j).Resting)
    (hcontains : CallRun cfg j (fun s l s' => NoErase k s l s' ∧ NotAdding cfg k s l s')
      (s₂.set s₂.mem j ((Op.contains k).start cfg)) s₃)
    (hret : s₃.pc j = .containsRet found) : found = true := by
  have hs₀ : Step cfg s₀ i (s₀.set s₀.mem i ((Op.find k).start cfg)) := .invoke (.find k) hi hk
  have hE₀ := hs₀.not_erasing hE (by
    rw [NoErase, State.set_pc_self]
    rintro ⟨c, hc, -⟩
    exact nomatch hc)
  have h₁ := hfind.reachable (h₀.step hs₀)
  obtain ⟨hE₁, hat⟩ := hfind.found hk (h₀.step hs₀) hE₀ (by rw [State.set_pc_self]; rfl)
  rw [hfound] at hat
  have hgap' : (Reachable cfg s₂ ∧ ∀ l, ¬ Erasing k (s₂.pc l)) ∧ InTree s₂.mem k := by
    clear hcontains hj
    induction hgap with
    | refl => exact ⟨⟨h₁, hE₁⟩, hat rfl⟩
    | tail _ hs ih =>
        obtain ⟨l, hs, hq⟩ := hs
        obtain ⟨⟨hr, hE⟩, hin⟩ := ih
        exact ⟨⟨hr.step hs, hs.not_erasing hE hq⟩, hs.inTree_mono hr hk hE hin⟩
  obtain ⟨⟨h₂, hE₂⟩, hin⟩ := hgap'
  have hs₂ : Step cfg s₂ j (s₂.set s₂.mem j ((Op.contains k).start cfg)) :=
    .invoke (.contains k) hj hk
  have hE₂' := hs₂.not_erasing hE₂ (by
    rw [NoErase, State.set_pc_self]
    rintro ⟨c, hc, -⟩
    exact nomatch hc)
  rcases (hcontains.contained hv hk (h₂.step hs₂) hE₂' hin (State.set_pc_self ..)).2 with h | h
  · rw [h] at hret
    exact nomatch hret
  · rw [h] at hret
    exact (PC.containsRet.inj hret).symm

/-! ### Two runs -/

omit [LinearOrder K] in
/-- The thread is in a `find` or a `contains`. -/
def PC.querying : PC K V → Bool
  | .findRoot _ | .findTop _ _ | .findLoop _ _ | .findNext _ _ | .containsRoot _ => true
  | _ => false

/-- The step of a query is no step of an `erase`. -/
theorem Step.noErase (hs : Step cfg s j s') (hq : (s.pc j).querying = true) :
    NoErase k s j s' := by
  have hrun : (s'.pc j).running = none := by
    cases hs with
    | invoke op hrest =>
        generalize s.pc j = pc at hq hrest
        cases pc <;> first | cases hq; done | exact hrest.elim
    | abort hpc => rw [hpc] at hq; cases hq
    | exec =>
        rw [State.set_pc_self]
        generalize s.pc j = pc at hq
        cases pc with
        | findTop key p => simp only [Cbat.exec, execQuery]; split_ifs <;> rfl
        | findLoop key l => simp only [Cbat.exec, execQuery]; split_ifs <;> rfl
        | findRoot | findNext | containsRoot => rfl
        | _ => cases hq
  rintro ⟨c, hc, -⟩
  cases hrun.symm.trans hc

end Agree

/-- An `insertIfAbsent` that has committed its SCX and is about to start its `propagate`. -/
def committedInsert : State ℕ ℕ :=
  (State.init (natCfg .bat)).run (natCfg .bat) [.call 0 (.insertIfAbsent 10 1), .steps 0 4]

/-- The `find` of another thread. -/
def findCall (s : State ℕ ℕ) : State ℕ ℕ := s.set s.mem 1 ((Op.find 10).start (natCfg .bat))

/-- The `find` has returned. -/
def findDone (s : State ℕ ℕ) : State ℕ ℕ := (findCall s).run (natCfg .bat) [.steps 1 3]

/-- The `contains` of a third thread. -/
def containsCall (s : State ℕ ℕ) : State ℕ ℕ :=
  (findDone s).set (findDone s).mem 2 ((Op.contains 10).start (natCfg .bat))

/-- The `contains` has returned. -/
def containsDone (s : State ℕ ℕ) : State ℕ ℕ := (containsCall s).run (natCfg .bat) [.steps 2 1]

/-- **A key that `find` finds and a later `contains` does not**, without any `erase`. -/
theorem find_not_contains : ∃ (s₀ s₁ s₂ s₃ : State ℕ ℕ) (i j k v : ℕ),
    Reachable (natCfg .bat) s₀ ∧ (s₀.pc i).Resting ∧ k ≠ 0 ∧ (∀ l, ¬ Erasing k (s₀.pc l)) ∧
      CallRun (natCfg .bat) i (NoErase k)
        (s₀.set s₀.mem i ((Op.find k).start (natCfg .bat))) s₁ ∧ s₁.pc i = .findRet v true ∧
      Relation.ReflTransGen
        (fun s s' => ∃ l, Step (natCfg .bat) s l s' ∧ NoErase k s l s') s₁ s₂ ∧
      (s₂.pc j).Resting ∧
      CallRun (natCfg .bat) j (NoErase k)
        (s₂.set s₂.mem j ((Op.contains k).start (natCfg .bat))) s₃ ∧
      s₃.pc j = .containsRet false := by
  refine ⟨committedInsert, findDone committedInsert, findDone committedInsert,
    containsDone committedInsert, 1, 2, 10, 1, Reachable.run .refl _, by decide +kernel, by decide,
    fun l => ?_, ?_, rfl, .refl, by decide +kernel, ?_, rfl⟩
  · rintro ⟨c, hc, hkind, -⟩
    by_cases hl : l = 0
    · subst hl
      have hrun : (committedInsert.pc 0).running.map Call.kind = some .insertIfAbsent := by
        decide +kernel
      rw [hc, Option.map_some, hkind] at hrun
      exact nomatch hrun
    · have hidle : committedInsert.pc l = .idle := State.run_pc_of_ne _ (by simpa [Label.thread])
      rw [hidle] at hc
      exact nomatch hc
  · exact CallRun.run (fun s j => (s.pc j).querying) .start (fun _ _ _ => Step.noErase)
      (by decide +kernel)
  · exact CallRun.run (fun s j => (s.pc j).querying) .start (fun _ _ _ => Step.noErase)
      (by decide +kernel)

/-- The same calls when the insertion has returned. -/
def returnedInsert : State ℕ ℕ :=
  (State.init (natCfg .bat)).run (natCfg .bat) [.call 0 (.insertIfAbsent 10 1), .steps 0 31]

/-- Only the first thread has made a call, and it has returned. -/
theorem returnedInsert_resting (l : ℕ) : (returnedInsert.pc l).Resting := by
  by_cases hl : l = 0
  · subst hl
    decide +kernel
  · have hidle : returnedInsert.pc l = .idle := State.run_pc_of_ne _ (by simpa [Label.thread])
    rw [hidle]
    trivial

theorem find_then_contains_returned :
    containsLoop 0 10 ((findDone returnedInsert).mem.node root).version = true := by
  have hrest := returnedInsert_resting
  have hother : ∀ l, l ≠ 1 → l ≠ 2 → (containsCall returnedInsert).pc l = returnedInsert.pc l := by
    intro l h₁ h₂
    rw [containsCall, State.set_pc_of_ne _ _ _ h₂, findDone,
      State.run_pc_of_ne _ (by simpa [Label.thread]), findCall, State.set_pc_of_ne _ _ _ h₁]
  have hadd : ∀ l, ¬ Adding (natCfg .bat) 10 ((containsCall returnedInsert).pc l) := by
    rintro l ⟨hl, c, hc, -⟩
    by_cases h₂ : l = 2
    · subst h₂
      exact nomatch hc
    by_cases h₁ : l = 1
    · subst h₁
      exact hl (by decide +kernel)
    · rw [hother l h₁ h₂] at hl
      exact hl (hrest l)
  have hs : Step (natCfg .bat) (containsCall returnedInsert) 2 (containsDone returnedInsert) :=
    .exec
  have hE : ∀ l, ¬ Erasing 10 (returnedInsert.pc l) := by
    rintro l ⟨c, hc, -⟩
    have := hrest l
    generalize returnedInsert.pc l = pc at hc this
    cases pc <;> first | cases hc; done | exact this
  have hfind : CallRun (natCfg .bat) 1 (NoErase 10) (findCall returnedInsert)
      (findDone returnedInsert) :=
    CallRun.run (fun s j => (s.pc j).querying) .start (fun _ _ _ => Step.noErase)
      (by decide +kernel)
  have hcontains : CallRun (natCfg .bat) 2
      (fun s l s' => NoErase 10 s l s' ∧ NotAdding (natCfg .bat) 10 s l s')
      (containsCall returnedInsert) (containsDone returnedInsert) :=
    .step .start (fun h => h) hs ⟨hs.noErase rfl, fun _ => hadd⟩
  exact find_then_contains rfl (by decide) (Reachable.run .refl _) (hrest 1) hE hfind rfl .refl
    (by decide +kernel) hcontains rfl

end Cbat
