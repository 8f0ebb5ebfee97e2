/-
**SCX records are retired once, and only when the tree does not lead to them.**

A thread whose SCX has replaced a record at one of its nodes accounts for it: a committed record is
retired right away, since only its first node is still in the tree, and of an aborted record the
flag of the node is cleared, and whoever clears the last one retires it.  Several threads may be at
it for the same record at once.

Main definitions:

* `Cbat.Scx.Gone` — everyone who had to account for the record has done so;
* `Cbat.Scx.Pc.retiring` — the record that a thread is about to retire;
* `Cbat.Scx.RetireInv` — the invariant of the records that have been retired.

Main results:

* `Cbat.Scx.Gone.keeps`, `Cbat.Scx.Gone.ptr_ne` — a record that is gone stays gone, and **no node of
  the tree leads to it**;
* `Cbat.Scx.RetireInv.step` — every step keeps the invariant;
* `Cbat.Scx.records_retired_once` — **no record is retired twice, or while the tree leads to it**.
-/

import Cbat.Scx.Atomic

set_option relaxedAutoImplicit false
set_option autoImplicit false

namespace Cbat.Scx

variable {m m' : Mem} {h h' : History} {n : ℕ} {st st' : State n} {i : Fin n} {r x s j o : ℕ}
  {w : Word}

/-! ### Records that are gone -/

/-- Everyone who had to account for the record has done so: the record is aborted and has no flag,
or it is committed and has been replaced at its first node. -/
structure Gone (m : Mem) (h : History) (o : ℕ) : Prop where
  begun : 0 < (h.of o).front
  cases : ((m.state o).Aborted ∧ ∀ j < 24, (m.state o).flag j = false) ∨
    (m.state o = stateCommitted ∧
      ∃ r j x, Frz m r j x o ∧ j < (h.of r).front ∧ j < (h.of r).done)

theorem Gone.ne_dummy (hg : Gone m h o) (ho : (view m h).Ok dummy) : o ≠ dummy := by
  rintro rfl
  have hpos : 0 < (view m h).front dummy := hg.begun
  rcases hg.cases with ⟨hab, -⟩ | ⟨hc, -⟩
  · obtain ⟨-, x, s, hp, -⟩ := ho.aborted hpos (status_of_aborted hab)
    exact ho.dummy_plan hp
  · exact ho.dummy_status.2 (status_eq_committed_iff.mpr hc)

/-- **A record that is gone stays gone.** -/
theorem Gone.keeps {a : Freezing.Act ℕ} (hg : Gone m h o) (hk : Keeps m h a m' h') :
    Gone m' h' o := by
  have hw := hk.ne_write (.inr hg.begun)
  refine ⟨hk.begun hg.begun, ?_⟩
  rcases hg.cases with ⟨hab, hflag⟩ | ⟨hc, r, j, x, hp, hj, hd⟩
  · refine .inl ⟨hk.aborted hw hab, fun j hj => ?_⟩
    by_contra hne
    have hf := hk.ok.flag_later hk.move hw (status_of_aborted hab) (eq_true_of_ne_false hne)
    exact absurd (hflag j hj) (ne_false_of_eq_true hf)
  · have hw' := hk.ne_write (.inr (Nat.zero_lt_of_lt hj))
    refine .inr ⟨?_, r, j, x, hk.frz hw' ▸ hp, hj.trans_le (hk.front_le hw'),
      hd.trans_le (hk.move.done_le hw')⟩
    have hne : m.state o ≠ stateInProgress := by rw [hc]; decide
    rw [← status_eq_committed_iff, hk.status_eq hw hne, status_eq_committed_iff]
    exact hc

/-- The flags of an aborted record tell which of its nodes lead to it. -/
theorem flag_of_ptr (ho : (view m h).Ok dummy) (hab : (m.state o).Aborted) (hne : o ≠ dummy)
    (hp : m.ptr x = o) : ∃ j s, Frz m o j x s ∧ (m.state o).flag j = true := by
  obtain ⟨j, s, hj, -⟩ := ho.ptr_frozen (x := x) (hp.trans_ne hne)
  have hp' : (view m h).ptr x = o := hp
  rw [hp'] at hj
  exact ⟨j, s, hj, ho.flag_ptr (status_of_aborted hab) hp' hj⟩

theorem Frz.lt_24 (hj : Frz m o j x s) : j < 24 := hj.1.trans (m.record o).type.numToFreeze_lt

/-- **No node of the tree leads to a record that is gone.** -/
theorem Gone.ptr_ne (hg : Gone m h o) (ho : (view m h).Ok dummy) (hT : TreeOk m h)
    (hx : m.Live x) : m.ptr x ≠ o := by
  intro hp
  have hne := hg.ne_dummy ho
  rcases hg.cases with ⟨hab, hflag⟩ | ⟨hc, r, j, y, hy, hjf, -⟩
  · obtain ⟨j, s, hj, hf⟩ := flag_of_ptr ho hab hne hp
    rw [hflag j hj.lt_24] at hf
    cases hf
  · have hcom : (view m h).status o = .committed := status_eq_committed_iff.mpr hc
    obtain ⟨k, s, hk, -⟩ := ho.ptr_frozen (x := x) (hp.trans_ne hne)
    have hp' : (view m h).ptr x = o := hp
    rw [hp'] at hk
    by_cases hk0 : k = 0
    · -- the first node has been taken by another record
      subst hk0
      obtain ⟨l, s', hl, -⟩ := (ho.seen_published hy).resolve_left hne
      obtain rfl := ho.seen_kept hy hcom hl
      obtain ⟨rfl, -⟩ := ho.plan_fun hk hl
      exact ho.behind_ne hy (ho.front_behind hy hjf) hp
    · -- the others have been removed
      exact hT.removed o (ho.committed hcom) x (hT.frz_mem_tail hk hk0) hx

/-! ### Records -/

/-- The record that a thread is about to retire. -/
def Pc.retiring : Pc → Option ℕ
  | .tryRetire _ _ _ (.retire o) => some o
  | _ => none

/-- **The invariant of the records that have been retired.** -/
structure RetireInv (st : State n) : Prop where
  nodup : st.mem.retired.Nodup
  gone : ∀ o ∈ st.mem.retired, Gone st.mem st.hist o
  about : ∀ i o, (st.thread i).pc.retiring = some o →
    Gone st.mem st.hist o ∧ o ∉ st.mem.retired
  one : ∀ i k o, (st.thread i).pc.retiring = some o → (st.thread k).pc.retiring = some o → i = k

/-- A thread goes on: **it is about to retire a record only if the record is gone just now**. -/
theorem RetireInv.set {t' : Thread} {a : Freezing.Act ℕ} (hR : RetireInv st)
    (hk : Keeps st.mem st.hist a m' h') (hret : m'.retired = st.mem.retired)
    (hpc : ∀ o, t'.pc.retiring = some o → Gone m' h' o ∧ ¬ Gone st.mem st.hist o) :
    RetireInv (st.set m' h' i t') := by
  have cases_thread (k : Fin n) {o : ℕ}
      (hr : ((st.set m' h' i t').thread k).pc.retiring = some o) :
      (k = i ∧ t'.pc.retiring = some o) ∨ (k ≠ i ∧ (st.thread k).pc.retiring = some o) := by
    by_cases hki : k = i
    · subst hki
      exact .inl ⟨rfl, by simpa [State.set] using hr⟩
    · exact .inr ⟨hki, by simpa [State.set, hki] using hr⟩
  refine ⟨?_, ?_, ?_, ?_⟩
  · change m'.retired.Nodup
    rw [hret]
    exact hR.nodup
  · intro o ho
    change o ∈ m'.retired at ho
    rw [hret] at ho
    exact (hR.gone o ho).keeps hk
  · intro k o hr
    change Gone m' h' o ∧ o ∉ m'.retired
    rw [hret]
    rcases cases_thread k hr with ⟨-, hr⟩ | ⟨-, hr⟩
    · exact ⟨(hpc o hr).1, fun ho => (hpc o hr).2 (hR.gone o ho)⟩
    · exact ⟨(hR.about k o hr).1.keeps hk, (hR.about k o hr).2⟩
  · intro k l o hr hr'
    rcases cases_thread k hr with ⟨hki, hk⟩ | ⟨-, hk⟩
    · rcases cases_thread l hr' with ⟨hli, -⟩ | ⟨-, hl⟩
      · exact hki.trans hli.symm
      · exact absurd (hR.about l o hl).1 (hpc o hk).2
    · rcases cases_thread l hr' with ⟨-, hl⟩ | ⟨-, hl⟩
      · exact absurd (hR.about k o hk).1 (hpc o hl).2
      · exact hR.one k l o hk hl

/-- The same for a step that does not get a thread to retire a record. -/
theorem RetireInv.quiet {t' : Thread} (hR : RetireInv st) (hk : Kept st (st.set m' h' i t'))
    (hret : m'.retired = st.mem.retired) (hpc : t'.pc.retiring = none) :
    RetireInv (st.set m' h' i t') := by
  obtain ⟨a, hk, -⟩ := hk.keeps
  exact hR.set hk hret fun o ho => absurd (hpc.symm.trans ho) nofun

/-- **A committed record is replaced at its first node once.** -/
theorem not_gone_of_committed (ho : (view m h).Ok dummy) (hr : Replaced m h r j o)
    (hd : (h.of r).done = j) (hc : m.state o = stateCommitted) : ¬ Gone m h o := by
  rintro ⟨-, ⟨hab, -⟩ | ⟨-, r', j', y, hy, hj', hd'⟩⟩
  · rw [hc] at hab
    exact not_aborted_committed hab
  · obtain ⟨hne, hj, hp⟩ := hr
    have hcom : (view m h).status o = .committed := status_eq_committed_iff.mpr hc
    obtain ⟨k, s, hk, -⟩ := (ho.seen_published hp).resolve_left hne
    obtain ⟨k', s', hk', -⟩ := (ho.seen_published hy).resolve_left hne
    obtain rfl := ho.seen_kept hp hcom hk
    obtain rfl := ho.seen_kept hy hcom hk'
    obtain ⟨hxy, -⟩ := ho.plan_fun hk hk'
    rw [← hxy] at hy
    obtain rfl := ho.replaced_once hp hj hy hj'
    obtain rfl := ho.plan_inj hp hy
    omega

/-- A record with a flag is not gone. -/
theorem not_gone_of_due {k : ℕ} (ho : (view m h).Ok dummy) (hr : Replaced m h r j o)
    (hd : (h.of r).done = j) (hab : (m.state o).Aborted) (hs : Frz m o k (m.nodeAt r j) s) :
    ¬ Gone m h o := by
  rintro ⟨-, ⟨-, hflag⟩ | ⟨hc, -⟩⟩
  · obtain ⟨-, hj, hp⟩ := hr
    have hf : (m.state o).flag k = true :=
      ho.flag_due hp hj (Nat.le_of_eq hd) (status_of_aborted hab) hs
    rw [hflag k hs.lt_24] at hf
    cases hf
  · rw [hc] at hab
    exact not_aborted_committed hab

theorem Replaced.begun (hr : Replaced m h r j o) (ho : (view m h).Ok dummy) :
    0 < (h.of o).front := by
  obtain ⟨i, s, -, hi⟩ := (ho.seen_published hr.2.2).resolve_left hr.1
  exact Nat.zero_lt_of_lt hi

theorem retiring_llxStep (m : Mem) (x : ℕ) (at_ : LlxAt) :
    (llxStep m x at_).1.retiring = none := by
  cases at_ with
  | marked s w =>
      simp only [llxStep]
      split_ifs <;> rfl
  | right s l =>
      simp only [llxStep]
      split_ifs <;> rfl
  | scx2 s l r =>
      simp only [llxStep]
      split_ifs <;> rfl
  | _ => rfl

theorem retired_helpStep (m : Mem) (h : History) (r : ℕ) (other : Bool) (at_ : HelpAt) :
    (helpStep m h r other at_).1.retired = m.retired ∧
      (helpStep m h r other at_).1.retiredNodes = m.retiredNodes := by
  cases at_ with
  | freeze i flags =>
      simp only [helpStep]
      by_cases hi : i < m.nFreeze r
      · rw [if_pos hi]
        cases m.seenAt r i with
        | none => exact ⟨rfl, rfl⟩
        | some s =>
            simp only
            split_ifs <;> exact ⟨rfl, rfl⟩
      · rw [if_neg hi]
        exact ⟨rfl, rfl⟩
  | mark i =>
      simp only [helpStep]
      by_cases hi : i < m.nFreeze r
      · rw [if_pos hi]
        cases m.seenAt r i <;> exact ⟨rfl, rfl⟩
      · rw [if_neg hi]
        exact ⟨rfl, rfl⟩
  | _ =>
      simp only [helpStep]
      try split_ifs
      all_goals exact ⟨rfl, rfl⟩

theorem retiring_helpStep (m : Mem) (h : History) (r : ℕ) (other : Bool) (at_ : HelpAt) :
    (helpStep m h r other at_).2.2.retiring = none := by
  have hret (w : Word) : (helpReturn r other w).retiring = none := by
    unfold helpReturn
    split_ifs <;> rfl
  rcases helpStep_pc m h r other at_ with ⟨w, -, hpc⟩ | ⟨-, at', hpc⟩
  · rw [hpc]
    exact hret w
  · rw [hpc]
    rfl

theorem retired_scxMem (st : State n) (i : Fin n) (c : Call) :
    (scxMem st i c).retired = st.mem.retired ∧
      (scxMem st i c).retiredNodes = st.mem.retiredNodes := by
  unfold scxMem Mem.setRecord
  rw [initNodes_eq]
  exact ⟨rfl, rfl⟩

/-- The accesses of `tryRetireSCXRecord`. -/
theorem RetireInv.exec_tryRetire {at_ : RetireAt} (hR : RetireInv st) (hI : Inv st)
    (hpc : (st.thread i).pc = .tryRetire r w j at_) : RetireInv (st.exec i) := by
  have hkept := hI.exec_tryRetire hpc
  obtain ⟨a, hk, -⟩ := hkept.keeps
  have hok := hI.pc i
  unfold PcOk at hok
  rw [hpc] at hok
  rw [exec_tryRetire_eq hpc] at hkept hk ⊢
  cases at_ with
  | loop =>
      refine hR.quiet hkept ?_ ?_
      · simp only [tryRetireStep]
        split_ifs
        · cases st.mem.seenAt r j with
          | none => rfl
          | some o =>
              simp only
              split_ifs <;> rfl
        · rfl
        · rfl
      · simp only [tryRetireStep]
        split_ifs
        · cases st.mem.seenAt r j with
          | none => rfl
          | some o =>
              simp only
              split_ifs <;> rfl
        · rfl
        · rfl
  | state o =>
      obtain ⟨-, hd, ho⟩ := hok
      simp only [tryRetireStep] at hkept hk ⊢
      by_cases hc : st.mem.state o = stateCommitted
      · rw [if_pos hc] at hk ⊢
        refine hR.set hk rfl ?_
        rintro _ ⟨⟩
        have ho' : Replaced st.mem (st.hist.finish r (j + 1)) r j o := ho.keeps hk
        refine ⟨⟨ho'.begun hk.ok', .inr ⟨hc, r, j, _, ho'.2.2, ho'.2.1, ?_⟩⟩,
          not_gone_of_committed hI.ok ho hd hc⟩
        exact (Nat.lt_succ_self j).trans_eq (done_finish _).symm
      · rw [if_neg hc] at hkept ⊢
        cases hidx : indexOf st.mem o (st.mem.nodeAt r j) with
        | none =>
            rw [hidx] at hkept
            exact hR.quiet hkept rfl rfl
        | some k =>
            rw [hidx] at hkept
            exact hR.quiet hkept rfl rfl
  | load o k => exact hR.quiet hkept rfl rfl
  | cas o k stateOld =>
      obtain ⟨-, hd, ho, hab, s, hs⟩ := hok
      simp only [tryRetireStep] at hkept hk ⊢
      by_cases hold : st.mem.state o = stateOld
      · rw [if_pos hold] at hk ⊢
        refine hR.set hk rfl ?_
        intro o' ho'
        by_cases hz : stateGetFlags (stateGetWithFlagOff stateOld k) = 0
        · -- the last flag has been cleared
          rw [if_pos hz] at ho'
          obtain rfl : o = o' := Option.some.inj ho'
          refine ⟨⟨(ho.keeps hk).begun hk.ok', .inl ⟨hk.aborted (ho.ne_write hk) hab, ?_⟩⟩,
            not_gone_of_due hI.ok ho hd hab hs⟩
          rw [state_setState]
          exact stateGetFlags_eq_zero_iff.mp hz
        · rw [if_neg hz] at ho'
          cases ho'
      · rw [if_neg hold] at hkept ⊢
        exact hR.quiet hkept rfl rfl
  | retire o =>
      have hself : (st.thread i).pc.retiring = some o := by rw [hpc]; rfl
      obtain ⟨hg, hnew⟩ := hR.about i o hself
      simp only [tryRetireStep] at hk ⊢
      have other {k : Fin n} {o' : ℕ} (hr : ((st.go { st.mem with retired := o :: st.mem.retired }
          st.hist i (.tryRetire r w (j + 1) .loop)).thread k).pc.retiring = some o') :
          k ≠ i ∧ (st.thread k).pc.retiring = some o' := by
        by_cases hki : k = i
        · subst hki
          simp [State.go, State.set, Pc.retiring] at hr
        · exact ⟨hki, by simpa [State.go, State.set, hki] using hr⟩
      refine ⟨List.nodup_cons.mpr ⟨hnew, hR.nodup⟩, ?_, ?_, ?_⟩
      · intro o' ho'
        rcases List.mem_cons.mp ho' with rfl | ho'
        · exact hg.keeps hk
        · exact (hR.gone o' ho').keeps hk
      · intro k o' hr
        obtain ⟨hki, hrk⟩ := other hr
        obtain ⟨hg', hnew'⟩ := hR.about k o' hrk
        refine ⟨hg'.keeps hk, fun hmem => ?_⟩
        rcases List.mem_cons.mp hmem with heq | hmem
        · exact hki (hR.one k i o' hrk (heq ▸ hself))
        · exact hnew' hmem
      · intro k l o' hr hr'
        exact hR.one k l o' (other hr).2 (other hr').2

/-- **Every step keeps the invariant of the records that have been retired.** -/
theorem RetireInv.step (hR : RetireInv st) (hI : Inv st) (hs : Step st st') : RetireInv st' := by
  have hkept := hI.step hs
  cases hs with
  | llx i x hpc hx => exact hR.quiet hkept rfl rfl
  | scx i c hpc hc => exact hR.quiet hkept (retired_scxMem st i c).1 rfl
  | weak i r w j o k stateOld hpc => exact hR.quiet hkept rfl rfl
  | exec i hpc =>
      cases hp : (st.thread i).pc with
      | idle => exact absurd hp hpc
      | tryRetire r w j at_ => exact hR.exec_tryRetire hI hp
      | help r other at_ =>
          rw [exec_help_eq hp] at hkept ⊢
          exact hR.quiet hkept (retired_helpStep ..).1 (retiring_helpStep ..)
      | llx x at_ =>
          have hpc' := retiring_llxStep st.mem x at_
          unfold State.exec at hkept ⊢
          rw [hp] at hkept ⊢
          simp only at hkept ⊢
          generalize llxStep st.mem x at_ = p at hpc' hkept
          obtain ⟨pc, res⟩ := p
          cases res with
          | none => exact hR.quiet hkept rfl hpc'
          | some res => exact hR.quiet hkept rfl hpc'
      | reclaim r w =>
          unfold State.exec at hkept ⊢
          rw [hp] at hkept ⊢
          simp only [reclaimStep] at hkept ⊢
          split_ifs at hkept ⊢ <;> exact hR.quiet hkept rfl rfl
      | retireNodes r j =>
          unfold State.exec at hkept ⊢
          rw [hp] at hkept ⊢
          simp only [retireNodesStep] at hkept ⊢
          split_ifs at hkept ⊢ <;> exact hR.quiet hkept rfl rfl

theorem Reachable.retireInv (hr : Reachable st) : RetireInv st := by
  refine hr.induct ⟨List.nodup_nil, ?_, ?_, ?_⟩ fun s s' hs hR hst => hR.step hs.inv hst
  · intro o ho
    cases ho
  · intro i o ho
    cases ho
  · intro i k o ho
    cases ho

/-- **SCX records are retired at most once, never the dummy, and never while the tree leads to
them.**  At all times the flags of an aborted record tell which of the nodes in its list still lead
to it. -/
theorem records_retired_once (hr : Reachable st) :
    st.mem.retired.Nodup ∧ dummy ∉ st.mem.retired ∧
      (∀ o ∈ st.mem.retired, ∀ x, st.mem.Live x → st.mem.ptr x ≠ o) ∧
      ∀ o, o ≠ dummy → (st.mem.state o).Aborted →
        ∀ (j : ℕ) (hj : j < (st.mem.record o).nodes.length),
        st.mem.ptr (st.mem.record o).nodes[j] = o → (st.mem.state o).flag j = true := by
  have hI := hr.inv
  have hR := hr.retireInv
  refine ⟨hR.nodup, fun hd => ?_, fun o ho x hx => ?_, fun o hne hab j hj hp => ?_⟩
  · exact (hR.gone dummy hd).ne_dummy hI.ok rfl
  · exact (hR.gone o ho).ptr_ne hI.ok hI.tree hx
  · obtain ⟨k, s, hk, hf⟩ := flag_of_ptr hI.ok hab hne hp
    have hlt := hI.tree.frz_lt o k _ s hk
    have hnode : (st.mem.record o).nodes[k] = (st.mem.record o).nodes[j] := by
      rw [← hk.2.2, Mem.nodeAt, List.getD_eq_getElem _ _ hlt]
    obtain rfl : k = j := (hI.tree.nodes_nodup o).getElem_inj_iff.mp hnode
    exact hf

/-- The deletion of the sample run retires the record of the insertion. -/
theorem records_retired_once_deleted :
    Sample.deleted.mem.retired = [1] ∧
      ∀ x, Sample.deleted.mem.Live x → Sample.deleted.mem.ptr x ≠ 1 := by
  have hret := Sample.Evaluated.deleted_retired Sample.evaluated
  obtain ⟨-, -, hptr, -⟩ := records_retired_once Sample.reachable_deleted
  exact ⟨hret, hptr 1 (hret ▸ List.mem_singleton_self 1)⟩

end Cbat.Scx
