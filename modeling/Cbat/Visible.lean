/-
**When an update returns, the versions show it.**

An update of a key returns after its `propagate`.  If no other thread has changed in the meantime
whether the tree contains the key, then at the moment of the return the version tree at the root
contains the key exactly if the node tree does.  This is so in BAT and in BAT-Del for every
interleaving.  In BAT-EagerDel it may fail: a thread takes the mark of a node for a sign that the
node has left the tree, but an SCX marks the nodes before it unlinks them.

Main definitions:

* `Cbat.Undisturbed` — no other thread changes whether the tree contains the key.

Main results:

* `Cbat.bat_update_visible`, `Cbat.del_update_visible` — **updates are visible when they return**;
* `Cbat.eagerDel_update_invisible` — a run in which an insertion is not;
* `Cbat.eagerDel_update_visible` — **updates are visible if marks are only seen on unlinked nodes**.
-/

import Cbat.Calls
import Cbat.Runs
import Cbat.Serve

set_option relaxedAutoImplicit false
set_option autoImplicit false

namespace Cbat

variable {K V : Type} [LinearOrder K] {cfg : Cfg K V} {k : K} {s s₀ s' : State K V} {i j : ℕ}

/-- A step of another thread does not change whether the tree contains the key. -/
def Undisturbed (k : K) (i : ℕ) (s : State K V) (j : ℕ) (s' : State K V) : Prop :=
  j ≠ i → (InTree s'.mem k ↔ InTree s.mem k)

/-- A thread that looks at the mark of a node finds it set only if the node is not in the tree. -/
def MarksUnlinked (s : State K V) (j : ℕ) (_ : State K V) : Prop :=
  ∀ cl r curps, s.pc j = .propMark cl r curps → (s.mem.node r).marked = true → ¬ Live s.mem r

/-- The step of thread `j` is not the second step of an SCX of another thread, and its program
counter satisfies `ok`. -/
def State.calm (i : ℕ) (ok : PC K V → Bool) (s : State K V) (j : ℕ) : Bool :=
  (decide (j = i) || !(s.pc j).committing) && ok (s.pc j)

/-- Only the second step of an SCX changes which keys are in the tree. -/
theorem Step.inTree_iff (h : Step cfg s j s') (hc : (s.pc j).committing = false) :
    InTree s'.mem k ↔ InTree s.mem k := by
  obtain ⟨m', pc', rfl, hK⟩ := h.kind
  cases hK with
  | still => exact Iff.rfl
  | prop h => exact h.quiet.toSameNodes.inTree_iff
  | freeze => exact (freeze_sameNodes ..).inTree_iff
  | swing hpc => rw [hpc] at hc; exact nomatch hc

theorem Step.undisturbed {ok : PC K V → Bool} (hs : Step cfg s j s') (h : s.calm i ok j = true) :
    Undisturbed k i s j s' := fun hji => by
  simp only [State.calm, Bool.and_eq_true, Bool.or_eq_true, decide_eq_true_eq,
    Bool.not_eq_true'] at h
  exact hs.inTree_iff (h.1.resolve_left hji)

/-! ### From the call to the start of `propagate` -/

/-- The thread is in an update of the key, before its `propagate`. -/
def Updating (k : K) (pc : PC K V) : Prop :=
  (∃ c md, pc.before = some (c, md) ∧ c.key = k) ∨ pc = .crash

omit [LinearOrder K] in
theorem Updating.inUpdate {pc : PC K V} (h : Updating k pc) : pc.inUpdate := by
  rcases h with ⟨c, md, h, -⟩ | h
  · exact .inl (by rw [h]; exact nofun)
  · exact .inr (.inr h)

/-- **A step of an update before its `propagate`.** -/
theorem Step.updating (h : Step cfg s i s') (hu : Updating k (s.pc i)) :
    Updating k (s'.pc i) ∨ ∃ c, s'.pc i = .propStart c ∧ c.key = k := by
  have hstep := h.callStep hu.inUpdate
  rcases hu with ⟨c, md, hb, hk⟩ | hpc
  · cases hstep.continues hb with
    | before h kind key mode => exact .inl (.inl ⟨_, _, h, key.trans hk⟩)
    | propagate h kind key => exact .inr ⟨_, h, key.trans hk⟩
    | crash h => exact .inl (.inr h)
  · rw [hpc] at hstep
    exact .inl (.inr hstep.of_crash)

/-! ### From there to the return -/

/-- Nothing is settled yet when `propagate` starts, and nothing has to be. -/
theorem ServeInv.start {P : Prop} {c : Call K V} (hpc : s.pc i = .propStart c) (hk : c.key = k) :
    ServeInv cfg k P i ∅ s := by
  refine ⟨⟨nofun, nofun, nofun, nofun⟩, nofun, fun j hj => ?_⟩
  obtain rfl := hj.resolve_right fun ⟨_, _, h⟩ => h
  rw [hpc]
  exact hk

/-- The thread updates the key, or it brings it to the root. -/
def InCall (cfg : Cfg K V) (k : K) (i : ℕ) (s : State K V) : Prop :=
  Updating k (s.pc i) ∨ ∃ G, ServeInv cfg k (InTree s.mem k) i G s

/-- A thread in `propagate` does not change the tree. -/
theorem ServeInv.inTree_iff {P : Prop} {G : Set ℕ} (hS : ServeInv cfg k P i G s)
    (hr : ¬ (s.pc i).Resting) {m' : Mem K V} {pc' : PC K V}
    (hk : ExecKind cfg s.mem (s.pc i) m' pc') : InTree m' k ↔ InTree s.mem k :=
  (hk.propStep ((hS.serve i (.inl rfl)).propagating hr)).quiet.toSameNodes.inTree_iff

theorem InCall.step (h : InCall cfg k i s) (hr : Reachable cfg s) (hk : k ≠ cfg.noKey)
    (hrun : ¬ (s.pc i).Resting) (hs : Step cfg s j s') (hq : Undisturbed k i s j s')
    (hm : cfg.variant = .eagerDel → MarksUnlinked s j s') : InCall cfg k i s' := by
  by_cases hji : j = i
  · subst hji
    rcases h with hu | ⟨G, hS⟩
    · rcases hs.updating hu with hu | ⟨c, hpc, hck⟩
      · exact .inl hu
      · exact .inr ⟨∅, .start hpc hck⟩
    · obtain ⟨m', pc', rfl, hK⟩ := hs.kind
      have hin := hS.inTree_iff hrun hK
      obtain ⟨G', hS'⟩ := hS.step ⟨hr.inv, hr.vInv, hr.status, hk, hK, hin⟩ (fun _ => hrun) hm
      rw [← propext hin] at hS'
      exact .inr ⟨G', hS'⟩
  · obtain ⟨m', pc', rfl, hK⟩ := hs.kind
    have hin := hq hji
    rcases h with hu | ⟨G, hS⟩
    · refine .inl ?_
      rwa [State.set_pc_of_ne _ _ _ (Ne.symm hji)]
    · obtain ⟨G', hS'⟩ := hS.step ⟨hr.inv, hr.vInv, hr.status, hk, hK, hin⟩
        (fun h => absurd h hji) hm
      rw [← propext hin] at hS'
      exact .inr ⟨G', hS'⟩

/-- What is settled from the root on is shown by the version of the root. -/
theorem SettledFrom.shows {P : Prop} (h : SettledFrom cfg k P s root) (hr : Reachable cfg s) :
    Shows k P (s.mem.node root).version := by
  obtain ⟨a, sum, l, ps, hv, -⟩ := hr.vInv.mem.top
  refine (h root .refl).version ?_
  rw [hv]
  exact nofun

omit [LinearOrder K] in
theorem Op.IsUpdate.updating {op : Op K V} (h : op.IsUpdate) (cfg : Cfg K V) :
    Updating op.key (op.start cfg) :=
  .inl ((h.before cfg).imp fun _ hc => ⟨_, hc⟩)

/-- **A call that returns is visible**, if nothing disturbs it and the delegating variant that is
eager sees marks on unlinked nodes only. -/
theorem CallRun.visible {op : Op K V} {c : Call K V} {Q : State K V → ℕ → State K V → Prop}
    (hrun : CallRun cfg i Q (s₀.set s₀.mem i (op.start cfg)) s) (h₀ : Reachable cfg s₀)
    (hrest : (s₀.pc i).Resting) (hop : op.IsUpdate) (hkey : op.key ≠ cfg.noKey)
    (hQ : ∀ s j s', Q s j s' → Undisturbed op.key i s j s')
    (hm : cfg.variant = .eagerDel → ∀ s j s', Q s j s' → MarksUnlinked s j s')
    (hret : s.pc i = .ret c) :
    op.key ∈ (s.mem.node root).version.leafKeys ↔ InTree s.mem op.key := by
  have h₁ : Reachable cfg (s₀.set s₀.mem i (op.start cfg)) := h₀.step (.invoke op hrest hkey)
  have hcall : InCall cfg op.key i s := by
    clear hret
    induction hrun with
    | start => exact .inl (by rw [State.set_pc_self]; exact hop.updating cfg)
    | step h hrun hs hq ih =>
        exact ih.step (h.reachable h₁) hkey hrun hs (hQ _ _ _ hq) fun hv => hm hv _ _ _ hq
  rcases hcall with hu | ⟨G, hS⟩
  · rw [hret] at hu
    exact absurd trivial hu.inUpdate.not_resting
  · have hs := hS.serve i (.inl rfl)
    rw [hret] at hs
    exact SettledFrom.shows hs (hrun.reachable h₁)

/-! ### The three variants -/

/-- The first insertion into the empty tree. -/
def firstCall (var : Variant) : State ℕ ℕ :=
  (State.init (natCfg var)).set (State.init (natCfg var)).mem 0
    ((Op.insert 10 1).start (natCfg var))

/-- **BAT: when an update returns, the version tree contains its key exactly if the node tree
does**, unless another thread changes that during the call. -/
theorem bat_update_visible (hv : cfg.variant = .bat) {op : Op K V} {c : Call K V}
    (h₀ : Reachable cfg s₀) (hrest : (s₀.pc i).Resting) (hop : op.IsUpdate)
    (hkey : op.key ≠ cfg.noKey)
    (hrun : CallRun cfg i (Undisturbed op.key i) (s₀.set s₀.mem i (op.start cfg)) s)
    (hret : s.pc i = .ret c) :
    op.key ∈ (s.mem.node root).version.leafKeys ↔ InTree s.mem op.key :=
  hrun.visible h₀ hrest hop hkey (fun _ _ _ h => h) (fun he => by rw [hv] at he; exact nomatch he)
    hret

theorem bat_update_visible_first :
    10 ∈ (((firstCall .bat).run (natCfg .bat) [.steps 0 31]).mem.node root).version.leafKeys ↔
      InTree ((firstCall .bat).run (natCfg .bat) [.steps 0 31]).mem 10 := by
  obtain ⟨c, hret⟩ : ∃ c, ((firstCall .bat).run (natCfg .bat) [.steps 0 31]).pc 0 = .ret c :=
    PC.returned_isSome (by decide +kernel)
  have hrun : CallRun (natCfg .bat) 0 (Undisturbed (Op.insert 10 1 : Op ℕ ℕ).key 0)
      ((State.init (natCfg .bat)).set (State.init (natCfg .bat)).mem 0
        ((Op.insert 10 1).start (natCfg .bat)))
      ((firstCall .bat).run (natCfg .bat) [.steps 0 31]) :=
    CallRun.run (State.calm 0 fun _ => true) .start (fun _ _ _ hs hc => hs.undisturbed hc)
      (by decide +kernel)
  have hop : (Op.insert 10 1 : Op ℕ ℕ).IsUpdate := trivial
  exact bat_update_visible rfl .refl trivial hop (by decide) hrun hret

/-- **BAT-Del: a thread always has somebody to wait for, and when an update returns, the version
tree contains its key exactly if the node tree does**, unless another thread changes that during the
call. -/
theorem del_update_visible (hv : cfg.variant = .del) :
    (∀ (s : State K V) (i : ℕ) (cl : Climb K V) (r curps : ℕ), Reachable cfg s →
      s.pc i = .propMark cl r curps → curps ≠ 0) ∧
    ∀ (s₀ s : State K V) (i : ℕ) (op : Op K V) (c : Call K V), Reachable cfg s₀ →
      (s₀.pc i).Resting → op.IsUpdate → op.key ≠ cfg.noKey →
      CallRun cfg i (Undisturbed op.key i) (s₀.set s₀.mem i (op.start cfg)) s → s.pc i = .ret c →
      (op.key ∈ (s.mem.node root).version.leafKeys ↔ InTree s.mem op.key) := by
  refine ⟨fun s i cl r curps h hpc => delegatee_ne_null h hpc, ?_⟩
  intro s₀ s i op c h₀ hrest hop hkey hrun hret
  exact hrun.visible h₀ hrest hop hkey (fun _ _ _ h => h)
    (fun he => by rw [hv] at he; exact nomatch he) hret

theorem del_update_visible_first :
    10 ∈ (((firstCall .del).run (natCfg .del) [.steps 0 35]).mem.node root).version.leafKeys ↔
      InTree ((firstCall .del).run (natCfg .del) [.steps 0 35]).mem 10 := by
  obtain ⟨c, hret⟩ : ∃ c, ((firstCall .del).run (natCfg .del) [.steps 0 35]).pc 0 = .ret c :=
    PC.returned_isSome (by decide +kernel)
  have hcfg : (natCfg .del).variant = .del := rfl
  refine (del_update_visible hcfg).2 _ _ 0 (.insert 10 1) c .refl trivial trivial
    (by decide) ?_ hret
  exact CallRun.run (State.calm 0 fun _ => true) .start (fun _ _ _ hs hc => hs.undisturbed hc)
      (by decide +kernel)

/-- Two keys are stored, and an `insertIfAbsent` of one of them has read the versions of the
children of a node that it refreshes. -/
def staleRefresh : State ℕ ℕ :=
  (State.init (natCfg .eagerDel)).run (natCfg .eagerDel)
    [.call 0 (.insert 10 1), .steps 0 60, .call 0 (.insert 20 1), .steps 0 90,
      .call 1 (.insertIfAbsent 10 7), .steps 1 23]

/-- The steps of an insertion of `5`: its commit; the CAS of the refresh, which makes that of the
insertion fail; an `erase` that has marked the refreshed node and not yet unlinked it; and the
insertion again, which takes the mark for a sign that the node is gone. -/
def overtaken : List (Label ℕ ℕ) :=
  [.steps 2 48, .steps 1 1, .call 3 (.erase 20), .steps 3 7, .steps 2 47]

/-- The start of the insertion. -/
def overtakenCall : State ℕ ℕ :=
  staleRefresh.set staleRefresh.mem 2 ((Op.insert 5 9).start (natCfg .eagerDel))

/-- **BAT-EagerDel: an insertion that has returned and that no version shows.**  No other thread has
changed whether the tree contains the key. -/
theorem eagerDel_update_invisible : ∃ (s₀ s : State ℕ ℕ) (i : ℕ) (op : Op ℕ ℕ) (c : Call ℕ ℕ),
    Reachable (natCfg .eagerDel) s₀ ∧ (s₀.pc i).Resting ∧ op.IsUpdate ∧ op.key ≠ 0 ∧
      CallRun (natCfg .eagerDel) i (Undisturbed op.key i)
        (s₀.set s₀.mem i (op.start (natCfg .eagerDel))) s ∧ s.pc i = .ret c ∧
      InTree s.mem op.key ∧ op.key ∉ (s.mem.node root).version.leafKeys := by
  obtain ⟨c, hret⟩ : ∃ c, (overtakenCall.run (natCfg .eagerDel) overtaken).pc 2 = .ret c :=
    PC.returned_isSome (by decide +kernel)
  refine ⟨staleRefresh, overtakenCall.run (natCfg .eagerDel) overtaken, 2, .insert 5 9, c,
    Reachable.run .refl _, by decide +kernel, trivial, by decide, ?_, hret, ⟨9, ?_, ?_, ?_⟩, ?_⟩
  · exact CallRun.run (State.calm 2 fun _ => true) .start (fun _ _ _ hs hc => hs.undisturbed hc)
      (by decide +kernel)
  · have h₁ : Edge (overtakenCall.run (natCfg .eagerDel) overtaken).mem root 5 := by
      unfold Edge; decide +kernel
    have h₂ : Edge (overtakenCall.run (natCfg .eagerDel) overtaken).mem 5 8 := by
      unfold Edge; decide +kernel
    have h₃ : Edge (overtakenCall.run (natCfg .eagerDel) overtaken).mem 8 11 := by
      unfold Edge; decide +kernel
    have h₄ : Edge (overtakenCall.run (natCfg .eagerDel) overtaken).mem 11 9 := by
      unfold Edge; decide +kernel
    exact (((Relation.ReflTransGen.single h₁).tail h₂).tail h₃).tail h₄
  · decide +kernel
  · decide +kernel
  · decide +kernel

/-- **BAT-EagerDel: when an update returns, the version tree contains its key exactly if the node
tree does**, unless another thread changes that during the call, or a thread sees the mark of a node
that is still in the tree. -/
theorem eagerDel_update_visible {op : Op K V} {c : Call K V} (h₀ : Reachable cfg s₀)
    (hrest : (s₀.pc i).Resting) (hop : op.IsUpdate) (hkey : op.key ≠ cfg.noKey)
    (hrun : CallRun cfg i (fun s j s' => Undisturbed op.key i s j s' ∧ MarksUnlinked s j s')
      (s₀.set s₀.mem i (op.start cfg)) s) (hret : s.pc i = .ret c) :
    op.key ∈ (s.mem.node root).version.leafKeys ↔ InTree s.mem op.key :=
  hrun.visible h₀ hrest hop hkey (fun _ _ _ h => h.1) (fun _ _ _ _ h => h.2) hret

omit [LinearOrder K] in
/-- The thread is not about to look at a mark. -/
def PC.unmarking : PC K V → Bool
  | .propMark _ _ _ => false
  | _ => true

theorem eagerDel_update_visible_first :
    10 ∈ (((firstCall .eagerDel).run (natCfg .eagerDel) [.steps 0 51]).mem.node
      root).version.leafKeys ↔
      InTree ((firstCall .eagerDel).run (natCfg .eagerDel) [.steps 0 51]).mem 10 := by
  obtain ⟨c, hret⟩ :
      ∃ c, ((firstCall .eagerDel).run (natCfg .eagerDel) [.steps 0 51]).pc 0 = .ret c :=
    PC.returned_isSome (by decide +kernel)
  have hQ : ∀ s j s', Step (natCfg .eagerDel) s j s' → s.calm 0 PC.unmarking j = true →
      Undisturbed (Op.insert 10 1 : Op ℕ ℕ).key 0 s j s' ∧ MarksUnlinked s j s' := by
    refine fun s j s' hs hc => ⟨hs.undisturbed hc, fun cl r curps hpc => ?_⟩
    simp only [State.calm, hpc, PC.unmarking, Bool.and_false] at hc
    exact nomatch hc
  have hrun : CallRun (natCfg .eagerDel) 0 _ ((State.init (natCfg .eagerDel)).set
      (State.init (natCfg .eagerDel)).mem 0 ((Op.insert 10 1).start (natCfg .eagerDel)))
      ((firstCall .eagerDel).run (natCfg .eagerDel) [.steps 0 51]) :=
    CallRun.run (State.calm 0 PC.unmarking) .start hQ (by decide +kernel)
  have hop : (Op.insert 10 1 : Op ℕ ℕ).IsUpdate := trivial
  exact eagerDel_update_visible .refl trivial hop (by decide) hrun hret

end Cbat
