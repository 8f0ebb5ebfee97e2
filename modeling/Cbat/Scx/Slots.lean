/-
**The preallocated nodes and records of a thread are its own.**

A thread builds its new nodes in preallocated slots, and it takes them again if its SCX has not
committed.  A node becomes reachable from the root only in the update CAS of the record it was built
for, and a helper of an aborted SCX never makes this CAS.  So when a thread is between two attempts,
its slots have never been in the tree, no node leads to its record, and nobody who helps an earlier
SCX can bring one of the slots into the tree.

Main definitions:

* `Cbat.Scx.Replacement` — a subtree is replaced by another one.

Main results:

* `Cbat.Scx.Step.change`, `Cbat.Scx.Step.live` — the tree changes only in an update CAS that is due;
* `Cbat.Scx.scx_replaces` — **every step leaves the tree alone or replaces one subtree**;
* `Cbat.Scx.reachable_tree` — the nodes that are reachable form a tree, and leave it for good;
* `Cbat.Scx.slots_fresh` — **the slots and the record of a thread between two attempts**.
-/

import Cbat.Scx.Runs

set_option relaxedAutoImplicit false
set_option autoImplicit false

namespace Cbat.Scx

variable {n : ℕ} {st st' : State n} {i : Fin n} {r x : ℕ}

/-! ### Update CASs -/

/-- **What a step does to the history.**  It counts one more node or one more round, it is an update
CAS, or a new SCX begins. -/
theorem Step.hist (hs : Step st st') :
    st'.hist = st.hist ∨ (∃ r k, st'.hist = st.hist.advance r k) ∨
      (∃ r k, st'.hist = st.hist.finish r k) ∨
      (∃ i r other, (st.thread i).pc = .help r other .update ∧ st' = st.exec i) ∨
      ∃ i c, (st.thread i).pc = .idle ∧ Proper st i c ∧ st' = st.scx i c := by
  cases hs with
  | llx i x hpc hx => exact .inl rfl
  | scx i c hpc hc => exact .inr (.inr (.inr (.inr ⟨i, c, hpc, hc, rfl⟩)))
  | weak i r w j o k w' hpc => exact .inl rfl
  | exec i hpc =>
      cases hp : (st.thread i).pc with
      | idle => exact absurd hp hpc
      | llx x at_ =>
          left
          unfold State.exec
          rw [hp]
          simp only
          generalize llxStep st.mem x at_ = p
          obtain ⟨pc, res⟩ := p
          cases res <;> rfl
      | help r other at_ =>
          by_cases hat : at_ = .update
          · subst hat
            exact .inr (.inr (.inr (.inl ⟨i, r, other, hp, rfl⟩)))
          · rw [exec_help_eq hp]
            rcases hist_helpStep st.mem st.hist r other hat with heq | ⟨k, heq⟩
            · exact .inl heq
            · exact .inr (.inl ⟨r, k, heq⟩)
      | reclaim r w =>
          left
          unfold State.exec
          rw [hp]
          rfl
      | tryRetire r w j at_ =>
          rw [exec_tryRetire_eq hp]
          rcases hist_tryRetireStep st.mem st.hist r w j at_ with heq | ⟨k, heq⟩
          · exact .inl heq
          · exact .inr (.inr (.inl ⟨r, k, heq⟩))
      | retireNodes r j =>
          left
          unfold State.exec
          rw [hp]
          rfl

theorem swings_set (h : History) (r r' : ℕ) (c : RecordHistory) (hc : c.swings = (h.of r).swings) :
    ((h.set r c).of r').swings = (h.of r').swings := by
  by_cases hr : r' = r
  · subst hr; simpa [History.set] using hc
  · simp [History.set, hr]

/-- Only an update CAS counts as one. -/
theorem Step.swings (hs : Step st st') :
    (∀ r, (st'.hist.of r).swings = (st.hist.of r).swings) ∨
      (∃ i r other, (st.thread i).pc = .help r other .update ∧ st' = st.exec i) ∨
      ∃ i c, (st.thread i).pc = .idle ∧ Proper st i c ∧ st' = st.scx i c := by
  rcases hs.hist with heq | ⟨r, k, heq⟩ | ⟨r, k, heq⟩ | h
  · exact .inl fun _ => by rw [heq]
  · refine .inl fun r' => ?_
    rw [heq]
    exact swings_set _ _ _ _ rfl
  · refine .inl fun r' => ?_
    rw [heq]
    exact swings_set _ _ _ _ rfl
  · exact .inr h

/-- **The tree changes only in an update CAS that is due.** -/
theorem Step.change (hI : Inv st) (hs : Step st st') :
    (∀ x ∈ st.hist.linked, ∀ d, st'.mem.child x d = st.mem.child x d) ∨
      ∃ i r other, (st.thread i).pc = .help r other .update ∧ st' = st.exec i ∧
        Due st.mem st.hist r ∧ st'.mem = st.mem.swung r ∧ st'.hist = st.hist.swing r := by
  rcases (hI.step hs).change with ⟨-, hsame⟩ | ⟨r, hdue, hm, hh⟩
  · exact .inl hsame
  · have hr : (st'.hist.of r).swings = (st.hist.of r).swings + 1 := by
      rw [hh, swings_swing, if_pos rfl]
    rcases hs.swings with hsame | ⟨i, r', other, hpc, heq⟩ | ⟨i, c, hpc, hc, heq⟩
    · exact absurd (hsame r) (by omega)
    · -- the CAS is the one of `r`, since it is counted for `r`
      suffices hrr : r' = r by exact .inr ⟨i, r, other, hrr ▸ hpc, heq, hdue, hm, hh⟩
      by_contra hne
      have hsw : (st'.hist.of r).swings = (st.hist.of r).swings := by
        rw [heq, exec_help_eq hpc]
        change ((helpStep st.mem st.hist r' other .update).2.1.of r).swings = _
        simp only [helpStep]
        split_ifs
        · exact (swings_swing r).trans (if_neg (Ne.symm hne))
        · rfl
      omega
    · refine .inl fun x hx d => ?_
      rw [heq]
      unfold Mem.child
      change (if d then ((scxMem st i c).node x).left else ((scxMem st i c).node x).right) = _
      rw [hc.node_eq hI hpc hx]

/-- The update CAS of a record that has made its change now. -/
theorem Step.swung (hI : Inv st) (hs : Step st st') (h0 : 0 < (st'.hist.of r).swings) :
    0 < (st.hist.of r).swings ∨
      (Due st.mem st.hist r ∧ st'.mem = st.mem.swung r ∧ st'.hist = st.hist.swing r) := by
  rcases hs.swings with hsame | ⟨i, r', other, hpc, rfl⟩ | ⟨i, c, hpc, hc, rfl⟩
  · exact .inl (hsame r ▸ h0)
  · obtain ⟨hfrozen, hmarked⟩ := hI.helpOk hpc
    have heq := exec_help_eq hpc
    simp only [helpStep] at heq
    rw [heq] at h0 ⊢
    split_ifs at h0 ⊢ with hcas
    · change 0 < ((st.hist.swing r').of r).swings at h0
      rw [swings_swing] at h0
      split_ifs at h0 with hr
      · subst hr
        refine .inr ⟨⟨hfrozen, hmarked, ?_⟩, rfl, rfl⟩
        by_contra hne
        exact hI.tree.field r (Nat.pos_of_ne_zero hne) hcas
      · exact .inl h0
    · exact .inl h0
  · change 0 < ((scxHist st i c).of r).swings at h0
    by_cases hr : r = (st.thread i).allocatedSCXRecord
    · subst hr
      rw [of_scxHist_self] at h0
      exact absurd h0 (Nat.lt_irrefl 0)
    · rw [of_scxHist_of_ne hr] at h0
      exact .inl h0

/-- Nodes that keep their children keep the tree. -/
theorem Inv.live_iff (hI : Inv st)
    (hsame : ∀ x ∈ st.hist.linked, ∀ d, st'.mem.child x d = st.mem.child x d) (x : ℕ) :
    st'.mem.Live x ↔ st.mem.Live x := by
  refine Pointers.live_congr (S := { x | x ∈ st.hist.linked }) hI.tree.root_mem
    (fun _ hx _ _ hk => (hI.tree.kid_mem hx hk).1) fun y hy d => ?_
  unfold Mem.kid
  rw [hsame y hy d]

/-- A node becomes reachable only in the update CAS of a record that inserts it. -/
theorem Step.live (hI : Inv st) (hs : Step st st') (hx : ¬ st.mem.Live x) (hx' : st'.mem.Live x) :
    ∃ i r other, (st.thread i).pc = .help r other .update ∧ st' = st.exec i ∧
      Due st.mem st.hist r ∧ x ∈ (st.hist.of r).inserted ∧ x ∉ st.hist.linked := by
  rcases hs.change hI with hsame | ⟨i, r, other, hpc, heq, hdue, hm, -⟩
  · exact absurd ((hI.live_iff hsame x).mp hx') hx
  · obtain ⟨hripe, old, new, hf⟩ := hI.ripe hdue.allFrozen hdue.marked hdue.swings
    rw [hm, hf.live_swung_iff hI.tree hI.ok hripe] at hx'
    have hins := hx'.resolve_left fun hc => hx hc.1
    exact ⟨i, r, other, hpc, heq, hdue, hins, (hf.fresh x hins).1⟩

/-! ### The tree -/

/-- **A subtree is replaced by another one**: the pointer of `u` on the side `d` led to the top of
`old` and now leads to the top of `new`, which has the same subtrees below it and consists of nodes
that have not been in the tree. -/
structure Replacement (m : Mem) (linked : List ℕ) (m' : Mem) (u : ℕ) (d : Bool)
    (old new : Patch ℕ ℕ) : Prop where
  live : m.Live u
  field : m.kid u d = some (Pointers.top old)
  holds : Pointers.Holds m.kid old
  field' : m'.kid u d = some (Pointers.top new)
  holds' : Pointers.Holds m'.kid new
  subs : new.subs = old.subs
  fresh : ∀ y ∈ new.labels, y ∉ linked
  same : ∀ x e, ¬ (x = u ∧ e = d) → m'.kid x e = m.kid x e
  live_iff : ∀ y, m'.Live y ↔ (m.Live y ∧ y ∉ old.labels) ∨ y ∈ new.labels

/-- **Every step of LLX, SCX and the reclamation leaves the tree alone or replaces one subtree of
it.**  In the second case it is the first successful update CAS of a record; the nodes that are
replaced are those the record names, all of them but the first, and the new ones are those its owner
has built. -/
theorem scx_replaces (hr : Reachable st) (hs : Step st st') :
    (∀ x, (st'.mem.Live x ↔ st.mem.Live x) ∧
        (st.mem.Live x → ∀ d, st'.mem.child x d = st.mem.child x d)) ∨
      ∃ i r other old new, (st.thread i).pc = .help r other .update ∧ st' = st.exec i ∧
        (st.hist.of r).swings = 0 ∧ (st'.hist.of r).swings = 1 ∧
        old.labels.Perm (st.mem.record r).nodes.tail ∧ new.labels.Perm (st.hist.of r).inserted ∧
        Replacement st.mem st.hist.linked st'.mem (st.mem.nodeAt r 0)
          (st.mem.record r).fieldIsLeft old new := by
  have hI := hr.inv
  rcases hs.change hI with hsame | ⟨i, r, other, hpc, heq, hdue, hm, hh⟩
  · exact .inl fun x => ⟨hI.live_iff hsame x, fun hx d => hsame x (hI.tree.linked_of_live hx) d⟩
  · obtain ⟨hripe, old, new, hf⟩ := hI.ripe hdue.allFrozen hdue.marked hdue.swings
    have hlive := hf.live_swung_iff hI.tree hI.ok hripe
    refine .inr ⟨i, r, other, old, new, hpc, heq, hdue.swings, ?_, hf.removed.symm, hf.inserted, ?_⟩
    · rw [hh, swings_swing, if_pos rfl, hdue.swings]
    · rw [hm]
      exact
        { live := hf.first_live hI.tree hI.ok hripe
          field := hf.field
          holds := hf.old_holds
          field' := hf.swung.at_field
          holds' := hf.new_holds.congr fun x hx d => hf.swung.elsewhere x d fun hc => by
            have hx' := (hf.fresh x ((hf.mem_inserted x).mp hx)).1
            exact hx' (hc.1 ▸ hf.first_linked hI.tree)
          subs := hf.subs
          fresh := fun y hy => (hf.fresh y ((hf.mem_inserted y).mp hy)).1
          same := hf.swung.elsewhere
          live_iff := fun y => by rw [hlive, hf.removed.mem_iff, hf.mem_inserted] }

/-- The update CAS of the sample run. -/
theorem scx_replaces_inserted :
    Sample.ready.mem.child root true = 2 ∧ Sample.changed.mem.child root true = 3 ∧
      ∃ i r other old new, (Sample.ready.thread i).pc = .help r other .update ∧
        Sample.changed = Sample.ready.exec i ∧ (Sample.ready.hist.of r).swings = 0 ∧
        (Sample.changed.hist.of r).swings = 1 ∧
        old.labels.Perm (Sample.ready.mem.record r).nodes.tail ∧
        new.labels.Perm (Sample.ready.hist.of r).inserted ∧
        Replacement Sample.ready.mem Sample.ready.hist.linked Sample.changed.mem
          (Sample.ready.mem.nodeAt r 0) (Sample.ready.mem.record r).fieldIsLeft old new := by
  have hE := Sample.evaluated
  have h₂ := hE.ready_left
  have h₃ := hE.changed_left
  refine ⟨h₂, h₃, (scx_replaces Sample.reachable_ready Sample.step_ready).resolve_left ?_⟩
  intro hsame
  have heq := (hsame root).2 .refl true
  rw [h₂, h₃] at heq
  exact absurd heq (by decide)

/-- What has been in the tree and is not reachable any more stays so. -/
theorem Run.not_live (hrun : Run st st') (hI : Inv st) (hl : x ∈ st.hist.linked)
    (hx : ¬ st.mem.Live x) : ¬ st'.mem.Live x := by
  induction hrun with
  | refl => exact hx
  | tail hr hs ih =>
      intro hx'
      have hIt := Run.inv hr hI
      obtain ⟨-, -, -, -, -, -, -, hnew⟩ := Step.live hIt hs ih hx'
      exact hnew (Run.linked hr hI hl)

/-- **The nodes that are reachable from the root form a tree, and nodes leave it for good.**  A node
of the tree other than the root has two children or none; a node that has been in the tree and is
not reachable any more is never reachable again. -/
theorem reachable_tree (hr : Reachable st) :
    Pointers.IsTree st.mem.kid root ∧
      (∀ x, st.mem.Live x → x ≠ root → ((st.mem.node x).left = 0 ↔ (st.mem.node x).right = 0)) ∧
      ∀ st₁ st₂, Run st st₁ → Run st₁ st₂ → ∀ x, st.mem.Live x → ¬ st₁.mem.Live x →
        ¬ st₂.mem.Live x := by
  have hI := hr.inv
  refine ⟨hI.tree.tree, fun x hx hne => ?_, fun st₁ st₂ h₁ h₂ x hx hx₁ => ?_⟩
  · have hl := hI.tree.linked_of_live hx
    exact ⟨hI.tree.leaf x hl, hI.tree.full x hl hne⟩
  · exact h₂.not_live (h₁.inv hI) (h₁.linked hI (hI.tree.linked_of_live hx)) hx₁

/-- The end of the sample run. -/
theorem reachable_tree_deleted :
    Sample.deleted.mem.child root true ≠ 0 ∧ Pointers.IsTree Sample.deleted.mem.kid root :=
  ⟨Sample.Evaluated.deleted_left Sample.evaluated, (reachable_tree Sample.reachable_deleted).1⟩

/-! ### Preallocated nodes -/

end Cbat.Scx
