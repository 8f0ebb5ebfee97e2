/-
**The runs of the tree around one node.**

The system of `Cbat.Refresh.Model` leaves everything but the refreshes of one node open.  Here the
whole machine is seen from an internal node `x`: the threads in a refresh are those of the system,
and all other steps are changes of the rest of the memory.  A child pointer of `x` only ever comes
to point to a new node, so it does not return to an earlier child.

Main definitions:

* `Cbat.Refresh.Stands`, `Cbat.Refresh.Projects` — a state of the system that stands for one of the
  machine.

Main results:

* `Cbat.Refresh.Projects.step` — a step of the machine is a step of the system;
* `Cbat.Refresh.projection` — **every run of BAT and BAT-EagerDel is a run of the system around each
  of its internal nodes**;
* `Cbat.Refresh.bat_failed_twice` — two failed refreshes of BAT in a run of the whole tree.
-/

import Cbat.Refresh.Failures
import Cbat.Refresh.Eager
import Cbat.Status

set_option relaxedAutoImplicit false
set_option autoImplicit false

namespace Cbat.Refresh

variable {K V : Type}

/-- The thread of the system that stands for a thread of the machine: there is one during a
refresh. -/
def Stands (pc : PC K V) (o : Option (Task K)) : Prop :=
  match pc with
  | .refresh cl _ again f cs =>
      ∃ t, o = some t ∧ t.ps = cl.ps ∧ t.again = again ∧ t.f = f ∧ t.callers = cs
  | _ => o = none

/-- **The state of the system stands for the state of the machine.** -/
structure Projects (x : ℕ) (s : Cbat.State K V) (σ : State K V) : Prop where
  mem : σ.mem = s.mem
  task : ∀ i, Stands (s.pc i) (σ.task i)
  past : ∀ u ≤ σ.time, ((σ.hist u).node x).left < s.mem.next ∧
    ((σ.hist u).node x).right < s.mem.next

/-- The thread is not in a refresh. -/
def Outer (pc : PC K V) : Prop := ∀ cl r again f cs, pc ≠ .refresh cl r again f cs

theorem Stands.outer {pc : PC K V} {o : Option (Task K)} (hpc : Outer pc) :
    Stands pc o ↔ o = none := by
  cases pc with
  | refresh cl r again f cs => exact absurd rfl (hpc cl r again f cs)
  | _ => exact Iff.rfl

section Step

variable [LinearOrder K] {cfg : Cfg K V} {s s' : Cbat.State K V} {σ : State K V} {x i : ℕ}
  {m' : Mem K V} {pc' : PC K V} {cl : Climb K V} {r : ℕ} {t : Task K} {vs : List (Ver K)}
  {res : FrameResult K}

/-- The past after a step: all earlier children of `x` are old nodes. -/
theorem Projects.past_next (hP : Projects x s σ) (hl : Later cfg s.mem m')
    (hx : x < s.mem.next) (hc : Closed m') {task : ℕ → Option (Task K)} {last : Option Install} :
    ∀ u ≤ (σ.next m' task last).time, (((σ.next m' task last).hist u).node x).left < m'.next ∧
      (((σ.next m' task last).hist u).node x).right < m'.next := by
  intro u hu
  have hx' : x < m'.next := hx.trans_le hl.next
  rcases next_hist_cases (m := m') hu with ⟨hu', he⟩ | ⟨-, he⟩
  · rw [he]
    obtain ⟨h₁, h₂⟩ := hP.past u hu'
    exact ⟨h₁.trans_le hl.next, h₂.trans_le hl.next⟩
  · rw [he]
    exact ⟨hc.left_lt x hx', hc.right_lt x hx'⟩

omit [LinearOrder K] in
/-- Only one thread changes. -/
theorem Projects.task_next (hP : Projects x s σ) {o : Option (Task K)} (ho : Stands pc' o) (j : ℕ) :
    Stands ((s.set m' i pc').pc j) (Function.update σ.task i o j) := by
  by_cases hj : j = i
  · rw [hj, State.set_pc_self, Function.update_self]
    exact ho
  · rw [State.set_pc_of_ne _ _ _ hj, Function.update_of_ne hj]
    exact hP.task j

/-- How the child pointers of `x` change. -/
structure Children (x : ℕ) (m m' : Mem K V) : Prop where
  left : (m'.node x).left = (m.node x).left ∨ m.next ≤ (m'.node x).left
  right : (m'.node x).right = (m.node x).right ∨ m.next ≤ (m'.node x).right

omit [LinearOrder K] in
theorem Projects.steady (hP : Projects x s σ) (hx0 : (m'.node x).left ≠ 0)
    (hc : Children x s.mem m') : Steady x σ m' := by
  refine ⟨hx0, ?_, ?_⟩
  · rw [hP.mem]
    refine hc.left.imp_right fun h u hu => ?_
    have := (hP.past u hu).1
    omega
  · rw [hP.mem]
    refine hc.right.imp_right fun h u hu => ?_
    have := (hP.past u hu).2
    omega

/-- **A step of the machine outside the refreshes.** -/
theorem Projects.outside (hP : Projects x s σ) (hx : x < s.mem.next)
    (hx0 : (s.mem.node x).left ≠ 0) (hl : Later cfg s.mem m') (hcl : Closed m')
    (hv : (m'.node x).version = (s.mem.node x).version) (hc : Children x s.mem m')
    (hpc : Outer (s.pc i)) (hpc' : Outer pc') :
    ∃ σ', Step cfg.variant x (Steady x) σ σ' ∧ Projects x (s.set m' i pc') σ' := by
  have hx0' : (m'.node x).left ≠ 0 := fun h => hx0 ((hl.leaf x hx).mp h)
  have hnone := (Stands.outer hpc).mp (hP.task i)
  have htask : σ.task = Function.update σ.task i none := by
    rw [← hnone, Function.update_eq_self]
  refine ⟨_, .env (m := m') ⟨?_, ?_⟩ (hP.steady hx0' hc), next_mem, ?_, ?_⟩
  · rw [hP.mem, hv]
  · rw [hP.mem]
    exact hl.nextVer
  · rw [next_task, htask]
    exact hP.task_next ((Stands.outer hpc').mpr rfl)
  · exact hP.past_next hl hx hcl

omit [LinearOrder K] in
theorem outer_inserted (cl : Climb K V) (r : ℕ) : Outer (inserted cfg cl r) := by
  intro cl' r' again f cs
  unfold inserted
  simp only
  split_ifs <;> exact nofun

omit [LinearOrder K] in
theorem outer_early (h : pc'.early = true) : Outer pc' := by
  rintro cl r again f cs rfl
  exact nomatch h

/-- The thread after an access of a refresh. -/
theorem stands_after (hF : PcFit cfg s.mem (.refresh cl r t.again t.f t.callers))
    (hS : PcStatus cfg s.mem (.refresh cl r t.again t.f t.callers)) (hdel : cfg.variant ≠ .del)
    (hps : t.ps = cl.ps) (hstep : FrameStep cfg.variant s.mem cl.ps t.f t.callers m' vs res)
    (now : ℕ) :
    Stands (match res with
      | .run f' cs' => .refresh { cl with toRetire := cl.toRetire ++ vs } r t.again f' cs'
      | .ret ok curps =>
          refreshed cfg { cl with toRetire := cl.toRetire ++ vs } r t.again ok curps)
      (t.after cfg.variant now res) := by
  cases res with
  | run f' cs' => exact ⟨_, rfl, hps, rfl, rfl, rfl⟩
  | ret ok curps =>
      obtain ⟨-, hm, -⟩ := hstep.returns hF
      have hx : t.f.x = r := (hS.2 t.f (by simp)).x hm
      simp only [Task.after, refreshed]
      cases hvar : cfg.variant with
      | del => exact absurd hvar hdel
      | eagerDel =>
          simp only [reduceCtorEq, false_and, if_false]
          split_ifs
          · exact (Stands.outer (outer_inserted _ _)).mpr rfl
          · exact rfl
      | bat =>
          simp only [true_and, hm]
          by_cases hc : ok = false ∧ t.again = false
          · rw [if_neg (by simp [hc]), if_pos hc]
            exact ⟨_, rfl, hps, rfl, by rw [hx], rfl⟩
          · rw [if_neg hc, if_pos (by
              cases ok
              · simpa using hc
              · rfl)]
            exact (Stands.outer (outer_inserted _ _)).mpr rfl

/-- **A refresh makes an access.** -/
theorem Projects.access (hP : Projects x s σ) (hI : Cbat.Inv cfg s) (hV : VInv cfg s)
    (hS : StatusInv cfg s) (hdel : cfg.variant ≠ .del) (hx : x < s.mem.next) {again : Bool}
    {f : Frame K} {cs : List (Frame K)} (hpc : s.pc i = .refresh cl r again f cs)
    (hk : ExecKind cfg s.mem (s.pc i) (exec cfg s.mem (s.pc i)).1 (exec cfg s.mem (s.pc i)).2)
    (hcl : Closed (exec cfg s.mem (s.pc i)).1) :
    ∃ σ', Step cfg.variant x (Steady x) σ σ' ∧
      Projects x (s.set (exec cfg s.mem (s.pc i)).1 i (exec cfg s.mem (s.pc i)).2) σ' := by
  have hl := hI.later hk
  have hfit := hV.pcs i
  have hstat := hS.pcs i
  have htask := hP.task i
  rw [hpc] at htask hfit hstat hcl hl ⊢
  obtain ⟨t, ht, hps, rfl, rfl, rfl⟩ := htask
  have hstep := frameStep cfg.variant s.mem cl.ps t.f t.callers
  have hexec : exec cfg s.mem (.refresh cl r t.again t.f t.callers) =
      ((stepFrame cfg.variant s.mem cl.ps t.f t.callers).1,
        match (stepFrame cfg.variant s.mem cl.ps t.f t.callers).2.2 with
        | .run f' cs' => .refresh { cl with toRetire := cl.toRetire ++
            (stepFrame cfg.variant s.mem cl.ps t.f t.callers).2.1 } r t.again f' cs'
        | .ret ok curps => refreshed cfg { cl with toRetire := cl.toRetire ++
            (stepFrame cfg.variant s.mem cl.ps t.f t.callers).2.1 } r t.again ok curps) := by
    simp only [exec, execPropagate]
    rcases stepFrame cfg.variant s.mem cl.ps t.f t.callers
      with ⟨m', vs, ⟨f', cs'⟩ | ⟨ok, c⟩⟩ <;> rfl
  rw [hexec] at hl hcl ⊢
  refine ⟨_, .run ht, ?_, ?_, ?_⟩
  · simp only [State.exec, next_mem, hP.mem, hps, State.set_mem]
  · simp only [State.exec, next_task, hP.mem, hps]
    exact hP.task_next (stands_after hfit hstat hdel hps hstep _)
  · simp only [State.exec, hP.mem, hps, State.set_mem]
    exact hP.past_next hl hx hcl

/-- `propagate` outside a refresh changes no node; it may call a refresh. -/
theorem propStep_outer {m : Mem K V} {pc : PC K V} (hp : PropStep cfg m pc m' pc')
    (hpc : Outer pc) : m'.node = m.node ∧ Outer pc' ∨ ∃ cl c r st, pc = .propTest cl c ∧ m' = m ∧
      pc' = .refresh { cl with stack := st } r false (.start cfg.variant r true) [] := by
  cases hp with
  | run | returned => exact absurd rfl (hpc _ _ _ _ _)
  | pop => exact .inr ⟨_, _, _, _, rfl, rfl, rfl⟩
  | marked => exact .inl ⟨rfl, outer_inserted _ _⟩
  | delegate =>
      refine .inl ⟨rfl, ?_⟩
      split_ifs <;> exact fun _ _ _ _ _ h => nomatch h
  | _ => exact .inl ⟨rfl, fun _ _ _ _ _ h => nomatch h⟩

/-- **A step of the machine is a step of the system.** -/
theorem Projects.step (hP : Projects x s σ) (hI : Cbat.Inv cfg s) (hV : VInv cfg s)
    (hS : StatusInv cfg s) (hdel : cfg.variant ≠ .del) (hx : x < s.mem.next)
    (hx0 : (s.mem.node x).left ≠ 0) (h : Cbat.Step cfg s i s') (hI' : Cbat.Inv cfg s') :
    ∃ σ', Step cfg.variant x (Steady x) σ σ' ∧ Projects x s' σ' := by
  obtain ⟨_, hB'⟩ := hI'.base
  by_cases hpc : Outer (s.pc i)
  · obtain ⟨m', pc', rfl, hk⟩ := h.kind
    have hl := hI.later hk
    have hcl : Closed m' := hB'.closed
    have hsame : Children x s.mem s.mem := ⟨.inl rfl, .inl rfl⟩
    cases hk with
    | still h h' => exact hP.outside hx hx0 hl hcl rfl hsame hpc (outer_early h')
    | @freeze _ _ _ _ rec ha =>
        have hs := (freeze_sameNodes s.mem rec).same x
        exact hP.outside hx hx0 hl hcl (freeze_version ..) ⟨.inl hs.left, .inl hs.right⟩ hpc nofun
    | swing hsw =>
        obtain ⟨old, hc⟩ := hI.commit hsw
        obtain ⟨h₁, h₂⟩ := hc.swing_children hx
        exact hP.outside hx hx0 hl hcl (hc.swing_version hx) ⟨h₁, h₂⟩ hpc
          (outer_early (finished_early ..))
    | prop hp =>
        rcases propStep_outer hp hpc with ⟨hn, hpc'⟩ | ⟨cl, c, r, st, hq, rfl, rfl⟩
        · exact hP.outside hx hx0 hl hcl (by rw [hn]) ⟨.inl (by rw [hn]), .inl (by rw [hn])⟩
            hpc hpc'
        · -- `propagate` calls the refresh
          have hps : cfg.variant ≠ .bat → cl.ps ≠ 0 := fun hb =>
            (hS.bound hb i cl (by rw [hq]; rfl)).1
          refine ⟨_, .call ((Stands.outer hpc).mp (hP.task i)) r true hps, ?_, ?_, ?_⟩
          · rw [next_mem, hP.mem]
            rfl
          · exact hP.task_next ⟨_, rfl, rfl, rfl, rfl, rfl⟩
          · rw [hP.mem]
            exact hP.past_next hl hx hcl
  · unfold Outer at hpc
    push Not at hpc
    obtain ⟨cl, r, again, f, cs, hpc⟩ := hpc
    cases h with
    | invoke op hrest => rw [hpc] at hrest; exact hrest.elim
    | abort hpc' => rw [hpc] at hpc'; exact nomatch hpc'
    | exec => exact hP.access hI hV hS hdel hx hpc (exec_kind ..) hB'.closed

/-- The system at the moment when the machine has created `x`. -/
def startAt (s : Cbat.State K V) : State K V where
  hist := fun _ => s.mem
  time := 0
  task := fun i =>
    match s.pc i with
    | .refresh cl _ again f cs => some ⟨cl.ps, 0, again, f, cs, fun _ => ⟨0, 0, 0, 0, 0⟩⟩
    | _ => none
  last := none

omit [LinearOrder K] in
theorem stands_startAt (s : Cbat.State K V) (i : ℕ) : Stands (s.pc i) ((startAt s).task i) := by
  unfold startAt
  simp only
  cases s.pc i with
  | refresh cl r again f cs => exact ⟨_, rfl, rfl, rfl, rfl, rfl⟩
  | _ => exact rfl

/-- No call on a node that was just created has begun. -/
theorem startAt_init (hI : Cbat.Inv cfg s) (hx : x < s.mem.next)
    (haway : ∀ i, ∀ g ∈ (s.pc i).frames, g.x ≠ x) :
    Init x (startAt s) ∧ Projects x s (startAt s) := by
  obtain ⟨_, hB⟩ := hI.base
  refine ⟨⟨rfl, rfl, hI.addr x hx, fun i t ht => ?_⟩, rfl, stands_startAt s, fun _ _ =>
    ⟨hB.closed.left_lt x hx, hB.closed.right_lt x hx⟩⟩
  have hg := haway i
  unfold startAt at ht
  simp only at ht
  cases hpc : s.pc i with
  | refresh cl r again f cs =>
      rw [hpc] at ht hg
      obtain rfl := Option.some.inj ht
      exact ⟨rfl, hg⟩
  | _ => rw [hpc] at ht; exact nomatch ht

/-- Nodes are created by a step that leaves no refresh, so no refresh is at a new node. -/
theorem away_new (hI : Cbat.Inv cfg s) (h : Cbat.Step cfg s i s') (hold : ¬ x < s.mem.next)
    (hx : x < s'.mem.next) (j : ℕ) : ∀ g ∈ (s'.pc j).frames, g.x ≠ x := by
  obtain ⟨m', pc', rfl, hk⟩ := h.kind
  intro g hg
  by_cases hj : j = i
  · rw [hj, State.set_pc_self] at hg
    cases hk with
    | still | freeze => exact absurd hx hold
    | prop hp => exact absurd (hp.quiet.next ▸ hx) hold
    | @swing c md rec hpc =>
        cases hq : finished c md with
        | refresh cl r again f cs => exact absurd hq (outer_early (finished_early c md) _ _ _ _ _)
        | _ => rw [hq] at hg; exact nomatch hg
  · rw [State.set_pc_of_ne _ _ _ hj] at hg
    have := ((hI.pcs j).frameOk hg).x
    omega

/-- **Every run of BAT and BAT-EagerDel is a run of the system around each of its internal nodes.**
-/
theorem projection (h : Reachable cfg s) (hdel : cfg.variant ≠ .del) (hx : x < s.mem.next)
    (hx0 : (s.mem.node x).left ≠ 0) : ∃ σ₀ σ, Init x σ₀ ∧ (σ₀.mem.node x).left ≠ 0 ∧
      Run cfg.variant x (Steady x) σ₀ σ ∧ Projects x s σ := by
  induction h with
  | refl =>
      obtain ⟨hi, hp⟩ := startAt_init (Reachable.inv .refl) hx fun i g hg => nomatch hg
      exact ⟨_, _, hi, hx0, .refl, hp⟩
  | @tail s s' hr hs ih =>
      have hI := Reachable.inv hr
      have hI' := Reachable.inv (hr.tail hs)
      obtain ⟨i, hs⟩ := hs
      by_cases hold : x < s.mem.next
      · have hx0' : (s.mem.node x).left ≠ 0 := by
          obtain ⟨m', pc', rfl, hk⟩ := hs.kind
          exact fun h => hx0 (((hI.later hk).leaf x hold).mpr h)
        obtain ⟨σ₀, σ, hi, hl, hrun, hP⟩ := ih hold hx0'
        obtain ⟨σ', hstep, hP'⟩ := hP.step hI (Reachable.vInv hr) (Reachable.status hr) hdel hold
          hx0' hs hI'
        exact ⟨σ₀, σ', hi, hl, hrun.tail hstep, hP'⟩
      · obtain ⟨hi, hp⟩ := startAt_init hI' hx (away_new hI hs hold hx)
        exact ⟨_, _, hi, hx0, .refl, hp⟩

/-- **Two failed refreshes of BAT in a run of the whole tree**: around the node, the version was
installed by a call that has made all its loads since the first refresh began. -/
theorem bat_failed_twice (h : Reachable cfg s) (hbat : cfg.variant = .bat) {f : Frame K}
    {cs : List (Frame K)} (hpc : s.pc i = .refresh cl r true f cs) {c : ℕ}
    (hret : (stepFrame .bat s.mem cl.ps f cs).2.2 = .ret false c) :
    ∃ σ t a, Projects r s σ ∧ σ.task i = some t ∧ σ.last = some a ∧ Installed r σ a ∧
      ∀ u ∈ a.stamp.all, t.began ≤ u := by
  have hF := h.vInv.pcs i
  have hS := h.status.pcs i
  have hok := h.inv.pcs i
  rw [hpc] at hF hS hok
  have hstep := frameStep .bat s.mem cl.ps f cs
  rw [hret] at hstep
  rw [← hbat] at hstep
  obtain ⟨-, hm, -⟩ := hstep.returns hF
  have hx : f.x = r := (hS.2 f (by simp)).x hm
  obtain ⟨σ₀, σ, hi, -, hrun, hP⟩ := projection h (by rw [hbat]; decide)
    (hok.1.stack.lt r (by simp)) (hx ▸ (hF.each f (by simp)).internal)
  have htask := hP.task i
  rw [hpc] at htask
  obtain ⟨t, ht, hps, hagain, rfl, rfl⟩ := htask
  rw [hbat] at hrun
  obtain ⟨hI, hA⟩ := run_bat hi hrun
  obtain ⟨a, ha, hinst, hload⟩ := hA.failed hI ht hagain hx (by rw [hP.mem, hps]; exact hret)
  exact ⟨σ, t, a, hP, ht, ha, hinst, hload⟩

end Step

end Cbat.Refresh
