/-
**The unbalanced tree with delegation: a `remove` without success.**

`remove` remembers the leaf of its last attempt, and takes another leaf with its key for a sign that
the key was deleted and added again.  But an insertion of a neighbouring key also puts a new leaf
with the old key into the tree.  So `remove` may report that the key was absent while it was there
all the time.  As long as no insertion copies the leaf of the key, the answer is right: the search
always comes to the same leaf, and the call tries until the key is gone.

Main definitions:

* `Cbat.SubEric.LeafOf` — the leaf of a key in the tree;
* `Cbat.SubEric.NoCopy` — the step does not copy the leaf of the key;
* `Cbat.SubEric.Trying` — a `remove` that has found no other leaf so far.

Main results:

* `Cbat.SubEric.LeafOf.step` — **the leaf stays in its place**, and searches come to it;
* `Cbat.SubEric.remove_reports_absence` — **without copies `remove` reports absence only if the key
  was absent**;
* `Cbat.SubEric.remove_misses_copy` — with a copy it does not.
-/

import Cbat.SubEric.Invariant

set_option relaxedAutoImplicit false
set_option autoImplicit false

namespace Cbat.SubEric

open Linked

variable {m : Mem} {t : LTree ℕ} {pc : PC} {k : ℤ} {x y : ℕ}

/-! ### The leaf of the key -/

/-- `y` is the leaf of the tree with the key `k`. -/
structure LeafOf (m : Mem) (k : ℤ) (y : ℕ) : Prop where
  live : m.linked.Live root y
  leaf : (m.node y).isLeaf = true
  key : (m.node y).key = k

theorem LeafOf.route (h : LeafOf m k y) (hB : Base m t) : m.linked.Route k root y :=
  h.key ▸ hB.tree.route_of_leaf h.live (kids_of_leaf h.leaf)

/-- A search that is at an internal node goes on to the leaf. -/
theorem LeafOf.route_child (h : LeafOf m k y) (hx : (m.node x).isLeaf = false)
    (hr : m.linked.Route k x y) : m.linked.Route k ((m.node x).child (m.linked.dir k x)) y := by
  rcases hr.cases_head with rfl | ⟨z, hz, hr⟩
  · rw [h.leaf] at hx
    cases hx
  · rw [KEdge, kid_eq hx] at hz
    cases hz
    exact hr

/-- A search that has come to a leaf has come to the leaf of the key. -/
theorem LeafOf.eq_of_route (hx : (m.node x).isLeaf = true) (hr : m.linked.Route k x y) : x = y := by
  rcases hr.cases_head with rfl | ⟨z, hz, -⟩
  · rfl
  · rw [KEdge, kid_of_leaf (kids_of_leaf hx)] at hz
    cases hz

/-- The step of a thread with the program counter `pc` does not replace a leaf with the key `k` by a
copy. -/
def NoCopy (k : ℤ) (m : Mem) (pc : PC) : Prop :=
  ∀ c f, pc = .insertStore c f → (m.node f.l).key ≠ k

/-- **The leaf stays in its place**, and all searches for its key still come to it, if no step
copies the leaf and the key stays in the tree. -/
theorem LeafOf.step (h : LeafOf m k y) (hB : Base m t) (hpc : PcOk m pc) (hcopy : NoCopy k m pc)
    (hin : InTree (exec m pc).1 k) :
    LeafOf (exec m pc).1 k y ∧
      ∀ x < m.next, m.linked.Route k x y → (exec m pc).1.linked.Route k x y := by
  have hlater := (hB.step hpc).later
  have hlt := hB.live_lt h.live
  -- keys and leaves stay what they are, so only the place in the tree is to be shown
  have hleaf := (hlater.leaf y hlt).trans h.leaf
  have hkey := (hlater.key y hlt).trans h.key
  suffices hmain : (exec m pc).1.linked.Live root y ∧
      ∀ x < m.next, m.linked.Route k x y → (exec m pc).1.linked.Route k x y from
    ⟨⟨hmain.1, hleaf, hkey⟩, hmain.2⟩
  have hsame : SameTree m (exec m pc).1 → (exec m pc).1.linked.Live root y ∧
      ∀ x < m.next, m.linked.Route k x y → (exec m pc).1.linked.Route k x y := by
    intro hs
    rw [hs.linked]
    exact ⟨h.live, fun _ _ hr => hr⟩
  cases exec_kind m pc with
  | same hs _ => exact hsame hs
  | @mark c f s _ hm => exact hsame (hm ▸ SameTree.setRemoved m f.p)
  | @graft c f key val hpc' hop hm =>
      subst hpc'
      obtain ⟨hf, hp, hc⟩ := hpc
      have hg := insertStore_graft hop hf hc
      obtain ⟨t', hT', hrepl⟩ := hB.graft_repl hf hop hp hc
      have hyl : y ≠ f.l := by
        rintro rfl
        exact hcopy c f rfl h.key
      rw [hm]
      refine ⟨?_, fun x hx hr => hg.follow hB.closed hx hr hyl⟩
      exact (hg.live_iff hB.tree hT' hrepl hB.labels_lt).mpr (.inl ⟨h.live, hyl⟩)
  | @splice c f s hpc' hm =>
      subst hpc'
      obtain ⟨hf, -⟩ := hpc
      have hs := removeStore_splice hf
      obtain ⟨t', tp, ts, hT', hrepl, htp, hpg⟩ := hs.tree hB.tree hf.gp_live
      have hyp : y ≠ f.p := by
        rintro rfl
        have hi := hf.p.internal
        rw [h.leaf] at hi
        cases hi
      have hyl : y ≠ f.l := by
        rintro rfl
        rw [hm] at hin
        exact ((hs.stored_iff hB.tree hT' hrepl htp hf.gp_live).mp hin).2 h.key.symm
      rw [hm]
      refine ⟨?_, fun x _ hr => hs.follow hpg hr hyl hyp⟩
      exact (Splice.live_iff hB.tree hT' hrepl htp).mpr ⟨h.live, hyp, hyl⟩

/-! ### A call of `remove` -/

/-- A `remove` that has found no leaf but `y` so far, and has not given up. -/
def Trying (k : ℤ) (y : ℕ) (m : Mem) : PC → Prop
  | .start c => c.op = .remove k ∧ (c.prevLeaf = 0 ∨ c.prevLeaf = y)
  | .find c f =>
      c.op = .remove k ∧ (c.prevLeaf = 0 ∨ c.prevLeaf = y) ∧ m.linked.Route k f.l y
  | .removeLockGp c _ | .removeLockP c _ | .removeRemoved c _ | .removePtr c _
  | .removeRemaining c _ | .removeTarget c _ _ | .removeMark c _ _ | .removeStore c _ _
  | .unlock c _ .retry => c.op = .remove k ∧ c.prevLeaf = y
  | .crash => True
  | _ => False

/-- The other threads only take part in the place of the leaf. -/
theorem Trying.later {m' : Mem} (h : Trying k y m pc) (hpc : PcOk m pc)
    (hr : ∀ x < m.next, m.linked.Route k x y → m'.linked.Route k x y) : Trying k y m' pc := by
  cases pc with
  | find c f =>
      have hf : FoundOk m c.op.key f := hpc
      exact ⟨h.1, h.2.1, hr f.l hf.l_lt h.2.2⟩
  | unlock c locks a => cases a <;> exact h
  | _ => exact h

theorem found_remove {c : Call} {f : Found} (hop : c.op = .remove k)
    (hprev : c.prevLeaf = 0 ∨ c.prevLeaf = f.l) (hkey : (m.node f.l).key = k) :
    found m c f = .removeLockGp { c with prevLeaf := f.l } f := by
  have hfound : ¬(c.prevLeaf ≠ 0 ∧ c.prevLeaf ≠ f.l) := by
    rintro ⟨h0, hl⟩
    exact hprev.elim h0 hl
  simp only [found, hop, hkey, ne_eq, not_true_eq_false, if_false] at hfound ⊢
  rw [if_neg hfound]

/-- **`remove` goes on** as long as the key stays in the tree. -/
theorem Trying.act (h : Trying k y m pc) (hB : Base m t) (hpc : PcOk m pc) (hy : LeafOf m k y)
    (hin : InTree (exec m pc).1 k) : Trying k y (exec m pc).1 (exec m pc).2 := by
  cases pc with
  | start c =>
      obtain ⟨hop, hprev⟩ := h
      have hk : c.op.key < maxKey := hpc
      have hdir : m.linked.dir k root = false := by
        have hroot : m.linked.key root = maxKey := hB.root_key
        rw [hop] at hk
        rw [dir, hroot, decide_eq_false_iff_not, not_le]
        exact hk
      have hr := hy.route_child hB.root_internal (hy.route hB)
      rw [hdir] at hr
      exact ⟨hop, hprev, hr⟩
  | find c f =>
      obtain ⟨hop, hprev, hr⟩ := h
      have hdir : decide ((m.node f.l).key ≤ c.op.key) = m.linked.dir k f.l := by
        rw [hop]
        rfl
      simp only [exec, execUpdate]
      by_cases hl : (m.node f.l).isLeaf = true
      · rw [if_pos hl]
        obtain rfl := LeafOf.eq_of_route hl hr
        rw [found_remove hop hprev hy.key]
        exact ⟨hop, rfl⟩
      · rw [if_neg hl, hdir]
        exact ⟨hop, hprev, hy.route_child (by simpa using hl) hr⟩
  | removeLockGp c f =>
      simp only [exec, execUpdate]
      split_ifs
      · trivial
      · exact ⟨h.1, .inr h.2⟩
      · exact h
  | removeLockP c f | removeRemoved c f | removePtr c f | removeTarget c f s =>
      simp only [exec, execUpdate]
      split_ifs <;> exact h
  | removeRemaining c f | removeMark c f s => exact h
  | removeStore c f s =>
      -- the key is gone, and this is what the call has been waiting for
      obtain ⟨hf, -⟩ := hpc
      have hs := removeStore_splice hf
      obtain ⟨t', tp, ts, hT', hrepl, htp, hpg⟩ := hs.tree hB.tree hf.gp_live
      have hkey := hf.key
      rw [h.1] at hkey
      exact absurd hkey.symm ((hs.stored_iff hB.tree hT' hrepl htp hf.gp_live).mp hin).2
  | unlock c locks a =>
      cases a with
      | propagate stk r => cases h
      | retry =>
          cases locks with
          | nil => exact ⟨h.1, .inr h.2⟩
          | cons x locks => exact h
  | crash => trivial
  | _ => cases h

/-- A `remove` that has not given up. -/
def Removing (k : ℤ) (i : ℕ) (s : State) : Prop :=
  ∃ y, LeafOf s.mem k y ∧ Trying k y s.mem (s.pc i)

theorem Removing.step {i j : ℕ} {s s' : State} (h : Removing k i s) (hI : Inv s)
    (hrun : machine.resting (s.pc i) = false) (hs : machine.Step s j s')
    (hcopy : NoCopy k s.mem (s.pc j)) (hin : InTree s'.mem k) : Removing k i s' := by
  obtain ⟨y, hy, htry⟩ := h
  obtain ⟨t, hB⟩ := hI.base
  cases hs with
  | call op hrest _ =>
      have hij : i ≠ j := by
        rintro rfl
        rw [hrun] at hrest
        cases hrest
      refine ⟨y, hy, ?_⟩
      rw [Machine.State.set_pc_of_ne _ _ _ hij]
      exact htry
  | act =>
      obtain ⟨hy', hr⟩ := hy.step hB (hI.pcs j) hcopy hin
      refine ⟨y, hy', ?_⟩
      by_cases hij : i = j
      · subst hij
        rw [Machine.act, Machine.State.set_pc_self]
        exact htry.act hB (hI.pcs i) hy hin
      · rw [Machine.act, Machine.State.set_pc_of_ne _ _ _ hij]
        exact htry.later (hI.pcs i) hr

/-- What a thread has returned. -/
def PC.returned : PC → Option Result
  | .ret r => some r
  | _ => none

end Cbat.SubEric
