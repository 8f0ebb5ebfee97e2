/-
**The reclamation keeps the invariant.**

When `help` has returned, the owner of the record replaces what it cannot use again: the record if
it has been in the tree, and the new nodes if they have.  Then it goes through the records that its
own one has replaced and clears their flags; a record that is committed, or has no flag left, is
retired.

Main results:

* `Cbat.Scx.Reclaims.highest_eq` — the loop goes as far as the record has been installed;
* `Cbat.Scx.Inv.exec_tryRetire`, `Cbat.Scx.Inv.exec_reclaim` — **the accesses of
  `reclaimMemoryAfterSCX` and `tryRetireSCXRecord` keep the invariant**.
-/

import Cbat.Scx.Steps

set_option relaxedAutoImplicit false
set_option autoImplicit false

namespace Cbat.Scx

variable {m m' : Mem} {h h' : History} {r x s j o : ℕ} {w : Word} {n : ℕ}

/-! ### Facts about finished records -/

/-- The loop over `scxRecordsSeen` goes as far as the record has been installed. -/
theorem highestIndexReached_eq (ho : (view m h).Ok dummy) (hw : w ≠ stateInProgress)
    (hst : status (m.state r) = status w) (h0 : 0 < (h.of r).front) :
    highestIndexReached m r w = (h.of r).front := by
  unfold highestIndexReached
  split_ifs with hc
  · subst hc
    have hs := ho.committed (r := r) (hst.trans (status_eq_committed_iff.mpr rfl))
    exact (ho.frozen (ho.swung_frozen hs)).1.symm
  · have ha : w.Aborted := (w.cases.resolve_left hw).resolve_left hc
    exact (ho.aborted (r := r) h0 (hst.trans (status_of_aborted ha))).1.symm

theorem Reclaims.highest_eq {i : ℕ} (hr : Reclaims m h i r w j) (ho : (view m h).Ok dummy) :
    highestIndexReached m r w = (h.of r).front :=
  highestIndexReached_eq ho hr.ne_inProgress hr.state hr.begun

theorem WordOk.bit (hw : WordOk w) (ha : w.Aborted) : w.getLsbD 1 = true := by
  rcases hw with rfl | rfl | hw
  · exact absurd ha not_aborted_inProgress
  · exact absurd ha not_aborted_committed
  · exact hw

theorem indexOf_eq_some {k : ℕ} (hk : indexOf m o x = some k) :
    k < m.nFreeze o ∧ ∃ hlt : k < (m.record o).nodes.length, (m.record o).nodes[k] = x := by
  unfold indexOf at hk
  simp only at hk
  split_ifs at hk with hx
  obtain rfl := Option.some.inj hk
  have hlt := List.idxOf_lt_length_of_mem hx
  rw [List.length_take] at hlt
  refine ⟨by omega, by omega, ?_⟩
  have hget := List.getElem_idxOf (List.idxOf_lt_length_of_mem hx)
  rwa [List.getElem_take] at hget

/-- The index that `tryRetireSCXRecord` finds is that of a node where the record has been. -/
theorem Replaced.indexOf {k : ℕ} (hr : Replaced m h r j o) (ho : (view m h).Ok dummy)
    (hT : TreeOk m h) (hk : indexOf m o (m.nodeAt r j) = some k) :
    ∃ s, Frz m o k (m.nodeAt r j) s := by
  obtain ⟨hne, -, hp⟩ := hr
  obtain ⟨-, hlt, hget⟩ := indexOf_eq_some hk
  rcases ho.seen_published hp with hd | ⟨i, s, hi, -⟩
  · exact absurd hd hne
  · have hi' : Frz m o i (m.nodeAt r j) s := hi
    have hilt := hT.frz_lt o i _ s hi'
    have hinode : (m.record o).nodes[i] = m.nodeAt r j := by
      rw [← hi'.2.2, Mem.nodeAt, List.getD_eq_getElem _ _ hilt]
    obtain rfl : i = k := (hT.nodes_nodup o).getElem_inj_iff.mp (hinode.trans hget.symm)
    exact ⟨s, hi'⟩

/-- Clearing a flag changes nothing but the flag. -/
theorem view_clear (hb : (m.state o).getLsbD 1 = true) (k : ℕ) :
    view (m.setState o (stateGetWithFlagOff (m.state o) k)) h =
      { view m h with
        flag := Function.update (view m h).flag o fun k' => (view m h).flag o k' ∧ k' ≠ k } := by
  have hst : status (stateGetWithFlagOff (m.state o) k) = status (m.state o) := by
    rw [status_of_aborted (aborted_of_bit hb),
      status_of_aborted (aborted_of_bit (bit_stateGetWithFlagOff hb k)),
      highest_stateGetWithFlagOff]
  have hflag : (fun k' => (stateGetWithFlagOff (m.state o) k).flag k' = true) =
      fun k' => (view m h).flag o k' ∧ k' ≠ k := by
    funext k'
    rw [flag_stateGetWithFlagOff]
    simp [view]
  have hself : Function.update (view m h).status o (status (m.state o)) = (view m h).status :=
    Function.update_eq_self o _
  rw [view_setState, hst, hflag, hself]

/-! ### The loop over the records that were replaced -/

variable {st : State n} {i : Fin n} {a : Freezing.Act ℕ}

theorem exec_tryRetire_eq {at_ : RetireAt} (hpc : (st.thread i).pc = .tryRetire r w j at_) :
    st.exec i = st.go (tryRetireStep st.mem st.hist r w j at_).1
      (tryRetireStep st.mem st.hist r w j at_).2.1 i
      (tryRetireStep st.mem st.hist r w j at_).2.2 := by
  unfold State.exec
  rw [hpc]

/-- The accesses of `tryRetireSCXRecord` leave the history alone, or count one more round. -/
theorem hist_tryRetireStep (m : Mem) (h : History) (r : ℕ) (w : Word) (j : ℕ) (at_ : RetireAt) :
    (tryRetireStep m h r w j at_).2.1 = h ∨
      ∃ k, (tryRetireStep m h r w j at_).2.1 = h.finish r k := by
  cases at_ with
  | loop =>
      simp only [tryRetireStep]
      split_ifs
      · cases m.seenAt r j with
        | none => exact .inr ⟨_, rfl⟩
        | some o =>
            simp only
            split_ifs
            · exact .inr ⟨_, rfl⟩
            · exact .inl rfl
      · exact .inl rfl
      · exact .inl rfl
  | state o =>
      simp only [tryRetireStep]
      split_ifs
      · exact .inr ⟨_, rfl⟩
      · cases indexOf m o (m.nodeAt r j) with
        | none => exact .inr ⟨_, rfl⟩
        | some k => exact .inl rfl
  | load o k => exact .inl rfl
  | cas o k w' =>
      simp only [tryRetireStep]
      split_ifs
      · exact .inr ⟨_, rfl⟩
      · exact .inr ⟨_, rfl⟩
      · exact .inl rfl
  | retire o => exact .inl rfl

/-- A thread outside of its own SCX goes on. -/
theorem Inv.retire_go (hI : Inv st) {at_ : RetireAt} {pc : Pc}
    (hpc : (st.thread i).pc = .tryRetire r w j at_) (hc : Calm st.mem st.hist m' h')
    (hm : (view st.mem st.hist).Move dummy a (view m' h')) (ha : a = .none ∨ a = .account r)
    (hword : ∀ r, WordOk (m'.state r)) (hpc' : PcOk m' h' i { st.thread i with pc := pc }) :
    Kept st (st.go m' h' i pc) := by
  have hok := hI.pc i
  unfold PcOk at hok
  rw [hpc] at hok
  refine hI.go hc hm ?_ ?_ ?_ hword ?_ hpc'
  · rcases ha with rfl | rfl <;> nofun
  · rcases ha with rfl | rfl <;> nofun
  · intro r' hr'
    rcases ha with rfl | rfl
    · cases hr'
    · injection hr' with hrr
      exact hrr ▸ hok.1.owner
  · rw [hpc]
    rintro (⟨at', heq⟩ | ⟨w', heq⟩) <;> cases heq

@[simp] theorem done_finish (k : ℕ) : ((h.finish r k).of r).done = k := by
  simp [History.finish, History.set]

/-- Nothing else is to be done for this record. -/
theorem Inv.retire_account (hI : Inv st) {at_ : RetireAt} {pc : Pc}
    (hpc : (st.thread i).pc = .tryRetire r w j at_) (hd : (st.hist.of r).done = j)
    (hpc' : Keeps st.mem st.hist (.account r) st.mem (st.hist.finish r (j + 1)) →
      PcOk st.mem (st.hist.finish r (j + 1)) i { st.thread i with pc := pc }) :
    Kept st (st.go st.mem (st.hist.finish r (j + 1)) i pc) := by
  have hm : (view st.mem st.hist).Move dummy (.account r)
      (view st.mem (st.hist.finish r (j + 1))) := by
    rw [view_finish]
    exact .account r j hd
  have hc := (Calm.refl st.mem st.hist).finish r (j + 1)
  exact hI.retire_go hpc hc hm (.inr rfl) hI.word (hpc' (hc.keeps hI.ok hm))

theorem Reclaims.succ {k : ℕ} (hr : Reclaims m h k r w j) (hj : j < (h.of r).front) :
    Reclaims m h k r w (j + 1) := { hr with le := hj }

section TryRetire

variable (hI : Inv st)

include hI

/-- The head of the loop. -/
theorem Inv.retire_loop (hpc : (st.thread i).pc = .tryRetire r w j .loop) :
    Kept st (st.exec i) := by
  obtain ⟨hr, hd⟩ : Reclaims st.mem st.hist i r w j ∧ (st.hist.of r).done = j := by
    have hok := hI.pc i
    unfold PcOk at hok
    rwa [hpc] at hok
  rw [exec_tryRetire_eq hpc]
  simp only [tryRetireStep, hr.highest_eq hI.ok]
  by_cases hj : j < (st.hist.of r).front
  · have skip : Kept st
        (st.go st.mem (st.hist.finish r (j + 1)) i (.tryRetire r w (j + 1) .loop)) :=
      hI.retire_account hpc hd fun hk => ⟨(hr.succ hj).keeps hk, done_finish _⟩
    rw [if_pos hj]
    cases hseen : st.mem.seenAt r j with
    | none => exact skip
    | some o =>
        simp only
        split_ifs with ho
        · exact skip
        · have hle : (st.hist.of r).front ≤ st.mem.nFreeze r := hI.ok.front_le r
          exact hI.retire_go hpc (.refl _ _) .stay (.inl rfl) hI.word
            ⟨hr, hd, ho, hj, hj.trans_le hle, hseen, rfl⟩
  · rw [if_neg hj]
    split_ifs
    · exact hI.retire_go hpc (.refl _ _) .stay (.inl rfl) hI.word trivial
    · exact hI.retire_go hpc (.refl _ _) .stay (.inl rfl) hI.word trivial

/-- The load of the state of a record that was replaced. -/
theorem Inv.retire_state (hpc : (st.thread i).pc = .tryRetire r w j (.state o)) :
    Kept st (st.exec i) := by
  obtain ⟨hr, hd, ho⟩ : Reclaims st.mem st.hist i r w j ∧ (st.hist.of r).done = j ∧
      Replaced st.mem st.hist r j o := by
    have hok := hI.pc i
    unfold PcOk at hok
    rwa [hpc] at hok
  rw [exec_tryRetire_eq hpc]
  simp only [tryRetireStep]
  split_ifs with hc
  · exact hI.retire_account hpc hd fun hk => ⟨hr.keeps hk, done_finish _, ho.keeps hk⟩
  · have hab : (st.mem.state o).Aborted := by
      refine ((st.mem.state o).cases.resolve_left fun hp => ?_).resolve_left hc
      exact hI.ok.seen_finished ho.2.2 (status_eq_inProgress_iff.mpr hp)
    cases hk : indexOf st.mem o (st.mem.nodeAt r j) with
    | none =>
        exact hI.retire_account hpc hd fun hk => ⟨(hr.succ ho.2.1).keeps hk, done_finish _⟩
    | some k =>
        exact hI.retire_go hpc (.refl _ _) .stay (.inl rfl) hI.word
          ⟨hr, hd, ho, hab, ho.indexOf hI.ok hI.tree hk⟩

/-- The CAS that clears a flag. -/
theorem Inv.retire_cas {k : ℕ} {stateOld : Word}
    (hpc : (st.thread i).pc = .tryRetire r w j (.cas o k stateOld)) : Kept st (st.exec i) := by
  obtain ⟨hr, hd, ho, hab, s, hs⟩ : Reclaims st.mem st.hist i r w j ∧ (st.hist.of r).done = j ∧
      Replaced st.mem st.hist r j o ∧ (st.mem.state o).Aborted ∧
      ∃ s, Frz st.mem o k (st.mem.nodeAt r j) s := by
    have hok := hI.pc i
    unfold PcOk at hok
    rwa [hpc] at hok
  rw [exec_tryRetire_eq hpc]
  simp only [tryRetireStep]
  by_cases hold : st.mem.state o = stateOld
  · subst hold
    have hb := (hI.word o).bit hab
    have hm : (view st.mem st.hist).Move dummy (.account r)
        (view (st.mem.setState o (stateGetWithFlagOff (st.mem.state o) k))
          (st.hist.finish r (j + 1))) := by
      rw [view_clear hb, view_finish]
      exact .clear r j _ o k s hd ho.2.2 ho.2.1 hs
    have hc := ((Calm.refl st.mem st.hist).setState o
      (stateGetWithFlagOff (st.mem.state o) k)).finish r (j + 1)
    have hk := hc.keeps hI.ok hm
    rw [if_pos rfl]
    refine hI.retire_go hpc hc hm (.inr rfl)
      (wordOk_setState hI.word (.inr (.inr (bit_stateGetWithFlagOff hb k))) o) ?_
    simp only
    split_ifs
    · exact ⟨hr.keeps hk, done_finish _, ho.keeps hk⟩
    · exact ⟨(hr.succ ho.2.1).keeps hk, done_finish _⟩
  · rw [if_neg hold]
    exact hI.retire_go hpc (.refl _ _) .stay (.inl rfl) hI.word ⟨hr, hd, ho, hab, s, hs⟩

/-- The call of `retire`. -/
theorem Inv.retire_retire (hpc : (st.thread i).pc = .tryRetire r w j (.retire o)) :
    Kept st (st.exec i) := by
  obtain ⟨hr, hd, ho⟩ : Reclaims st.mem st.hist i r w j ∧ (st.hist.of r).done = j + 1 ∧
      Replaced st.mem st.hist r j o := by
    have hok := hI.pc i
    unfold PcOk at hok
    rwa [hpc] at hok
  rw [exec_tryRetire_eq hpc]
  simp only [tryRetireStep]
  have hc : Calm st.mem st.hist { st.mem with retired := o :: st.mem.retired } st.hist :=
    .of_eq rfl rfl rfl rfl
  have hm : (view st.mem st.hist).Move dummy .none
      (view { st.mem with retired := o :: st.mem.retired } st.hist) := by
    rw [view_congr st.mem st.hist rfl rfl]
    exact .stay
  exact hI.retire_go hpc hc hm (.inl rfl) hI.word
    ⟨(hr.succ ho.2.1).keeps (hc.keeps hI.ok hm), hd⟩

/-- **The accesses of `tryRetireSCXRecord` keep the invariant.** -/
theorem Inv.exec_tryRetire {at_ : RetireAt} (hpc : (st.thread i).pc = .tryRetire r w j at_) :
    Kept st (st.exec i) := by
  cases at_ with
  | loop => exact hI.retire_loop hpc
  | state o => exact hI.retire_state hpc
  | load o k =>
      rw [exec_tryRetire_eq hpc]
      have hok := hI.pc i
      unfold PcOk at hok
      rw [hpc] at hok
      exact hI.retire_go hpc (.refl _ _) .stay (.inl rfl) hI.word hok
  | cas o k stateOld => exact hI.retire_cas hpc
  | retire o => exact hI.retire_retire hpc

/-- The loop over the removed nodes. -/
theorem Inv.exec_retireNodes (hpc : (st.thread i).pc = .retireNodes r j) : Kept st (st.exec i) := by
  have hown (pc : Pc) : (st.thread i).pc.Own (st.thread i).allocatedSCXRecord →
      pc.Own (st.thread i).allocatedSCXRecord := by
    rw [hpc]
    rintro (⟨at', heq⟩ | ⟨w, heq⟩) <;> cases heq
  unfold State.exec
  rw [hpc]
  simp only [retireNodesStep]
  split_ifs
  · refine hI.go (a := .none) (.of_eq rfl rfl rfl rfl) ?_ nofun nofun nofun hI.word (hown _) trivial
    rw [view_congr st.mem st.hist rfl rfl]
    exact .stay
  · exact hI.load (hown _) trivial

end TryRetire

/-! ### The start of the reclamation -/

section Reclaim

theorem foreign_none (k : ℕ) (t : Thread) : Foreign h .none k t := ⟨nofun, nofun, nofun⟩

variable {t' : Thread} (hI : Inv st)

include hI

/-- After the reclamation has begun, the thread has a record that no node leads to, and nodes that
have not been in the tree. -/
theorem Inv.reclaim_threads (hpc : (st.thread i).pc = .reclaim r w)
    (hnode : m'.node = st.mem.node) (hrecord : m'.record = st.mem.record)
    (hnext : st.mem.next ≤ m'.next) (hnextRecord : st.mem.nextRecord ≤ m'.nextRecord)
    (hrec : (t'.allocatedSCXRecord = (st.thread i).allocatedSCXRecord ∧
        (st.hist.of (st.thread i).allocatedSCXRecord).front = 0) ∨
      (t'.allocatedSCXRecord = st.mem.nextRecord ∧ st.mem.nextRecord < m'.nextRecord))
    (hslots : ∀ k < numSlots, (t'.allocatedNodes k = (st.thread i).allocatedNodes k ∧
        (st.thread i).allocatedNodes k ∉ st.hist.linked) ∨
      (t'.allocatedNodes k = st.mem.next + k ∧ st.mem.next + k < m'.next)) :
    ThreadsOk (st.set m' st.hist i t') := by
  have hT := hI.threads
  have hself : (st.set m' st.hist i t').thread i = t' := by simp [State.set]
  have hother {k : Fin n} (hk : k ≠ i) : (st.set m' st.hist i t').thread k = st.thread k := by
    simp [State.set, hk]
  -- the record
  have record_new {k : Fin n} (hk : k ≠ i) :
      (st.thread k).allocatedSCXRecord ≠ t'.allocatedSCXRecord := by
    intro heq
    rcases hrec with ⟨hr, -⟩ | ⟨hr, -⟩
    · exact hk (hT.record_inj k i (heq.trans hr))
    · exact absurd (hT.record_lt k) (by omega)
  have record_front : (st.hist.of t'.allocatedSCXRecord).front = 0 := by
    rcases hrec with ⟨hr, h0⟩ | ⟨hr, -⟩
    · rw [hr, h0]
    · exact hT.unused _ (Nat.le_of_eq hr.symm)
  -- the nodes
  have slot_bounds (k : ℕ) (hk : k < numSlots) : 0 < t'.allocatedNodes k ∧
      t'.allocatedNodes k < m'.next ∧ t'.allocatedNodes k ∉ st.hist.linked := by
    have hold := hT.slot_pos i k hk
    rcases hslots k hk with ⟨hs, hl⟩ | ⟨hs, hlt⟩
    · rw [hs]
      exact ⟨hold.1, hold.2.trans_le hnext, hl⟩
    · rw [hs]
      refine ⟨by omega, hlt, fun hl => ?_⟩
      have := (hI.tree.pos _ hl).2
      omega
  have slot_new {k : Fin n} (hk : k ≠ i) (p q : ℕ) (hp : p < numSlots) (hq : q < numSlots) :
      (st.thread k).allocatedNodes p ≠ t'.allocatedNodes q := by
    intro heq
    rcases hslots q hq with ⟨hs, -⟩ | ⟨hs, -⟩
    · exact hk (hT.slot_inj k i p hp q hq (heq.trans hs)).1
    · have := (hT.slot_pos k p hp).2
      omega
  constructor
  · intro k l heq
    by_cases hk : k = i <;> by_cases hl : l = i
    · rw [hk, hl]
    · rw [hk, hself, hother hl] at heq
      exact absurd heq.symm (record_new hl)
    · rw [hl, hself, hother hk] at heq
      exact absurd heq (record_new hk)
    · rw [hother hk, hother hl] at heq
      exact hT.record_inj k l heq
  · intro k
    refine State.set_cases k (·.allocatedSCXRecord ≠ dummy) (fun _ => ?_) fun _ => hT.record_ne k
    rcases hrec with ⟨hr, -⟩ | ⟨hr, -⟩
    · rw [hr]
      exact hT.record_ne i
    · rw [hr]
      exact Nat.ne_of_gt (Nat.zero_lt_of_lt (hT.record_lt i))
  · intro k
    refine State.set_cases k (·.allocatedSCXRecord < m'.nextRecord) (fun _ => ?_)
      fun _ => (hT.record_lt k).trans_le hnextRecord
    rcases hrec with ⟨hr, -⟩ | ⟨hr, hlt⟩
    · rw [hr]
      exact (hT.record_lt i).trans_le hnextRecord
    · rw [hr]
      exact hlt
  · exact fun r hr => hT.unused r (hnextRecord.trans hr)
  · intro k
    exact State.set_cases k (fun t => (st.hist.of t.allocatedSCXRecord).front = 0 ∨
      t.pc.Own t.allocatedSCXRecord) (fun _ => .inl record_front) fun _ => hT.unpublished k
  · intro k p hp
    exact State.set_cases k (fun t => 0 < t.allocatedNodes p ∧ t.allocatedNodes p < m'.next)
      (fun _ => ⟨(slot_bounds p hp).1, (slot_bounds p hp).2.1⟩)
      fun _ => ⟨(hT.slot_pos k p hp).1, (hT.slot_pos k p hp).2.trans_le hnext⟩
  · intro k l p hp q hq heq
    by_cases hk : k = i <;> by_cases hl : l = i
    · rw [hk, hl, hself] at heq
      refine ⟨hk.trans hl.symm, ?_⟩
      have hps := hT.slot_pos i p hp
      have hqs := hT.slot_pos i q hq
      rcases hslots p hp with ⟨h1, -⟩ | ⟨h1, -⟩ <;> rcases hslots q hq with ⟨h2, -⟩ | ⟨h2, -⟩
      · exact (hT.slot_inj i i p hp q hq (h1.symm.trans (heq.trans h2))).2
      · omega
      · omega
      · omega
    · rw [hk, hself, hother hl] at heq
      exact absurd heq.symm (slot_new hl q p hq hp)
    · rw [hl, hself, hother hk] at heq
      exact absurd heq (slot_new hk p q hp hq)
    · rw [hother hk, hother hl] at heq
      exact hT.slot_inj k l p hp q hq heq
  · intro k p hp hl
    by_cases hk : k = i
    · subst hk
      rw [hself] at hl
      exact absurd hl (slot_bounds p hp).2.2
    · rw [hother hk] at hl ⊢
      change _ ∧ _ ∧ p < (m'.record (st.thread k).allocatedSCXRecord).type.numInserted
      rw [hrecord]
      exact hT.slot_linked k p hp hl
  · intro r' hr h0 hd
    have hr' : st.mem.state r' = stateInProgress := by
      have : m'.state r' = stateInProgress := hr
      rwa [Mem.state, hrecord] at this
    have hd' : ¬ (view st.mem st.hist).Doomed r' := by
      rw [← view_congr st.mem st.hist hnode hrecord]
      exact hd
    obtain ⟨k, at_, hk, hpc', hins⟩ := hT.working r' hr' h0 hd'
    have hki : k ≠ i := by
      rintro rfl
      rw [hpc] at hpc'
      cases hpc'
    refine ⟨k, at_, by rw [hother hki]; exact hk, by rw [hother hki]; exact hpc', ?_⟩
    rw [hother hki]
    change _ = (List.range (m'.record r').type.numInserted).map _
    rw [hrecord]
    exact hins

/-- The record is replaced, and perhaps some of the nodes. -/
theorem Inv.replaced (hpc : (st.thread i).pc = .reclaim r w)
    (hr : Reclaims st.mem st.hist i r w 0) (hd : (st.hist.of r).done = 0)
    (hnode : m'.node = st.mem.node) (hrecord : m'.record = st.mem.record)
    (hnext : st.mem.next ≤ m'.next) (hnextRecord : m'.nextRecord = st.mem.nextRecord + 1)
    (ht : t'.allocatedSCXRecord = st.mem.nextRecord ∧ t'.pc = .tryRetire r w 0 .loop)
    (hslots : ∀ k < numSlots, (t'.allocatedNodes k = (st.thread i).allocatedNodes k ∧
        (st.thread i).allocatedNodes k ∉ st.hist.linked) ∨
      (t'.allocatedNodes k = st.mem.next + k ∧ st.mem.next + k < m'.next))
    (hres : ∀ p ∈ t'.llxResults, p ∈ (st.thread i).llxResults) :
    Kept st (st.set m' st.hist i t') := by
  have hv := view_congr st.mem st.hist hnode hrecord
  have hs : SameTree st.mem st.hist m' st.hist := .of_eq hnode hrecord hnext
  have hk : Keeps st.mem st.hist .none m' st.hist := hs.keeps hI.ok (hv ▸ .stay) fun _ => rfl
  have hstate (r' : ℕ) : m'.state r' = st.mem.state r' := by rw [Mem.state, hrecord]; rfl
  refine hI.set hk (fun k _ => foreign_none k _) hs.change (by intro _ h; cases h) (Nat.le_refl _)
    (fun r' => hstate r' ▸ hI.word r') hI.time_le
    (hI.tree.same hs (fun r' h' => (hstate r').symm.trans h') fun r' hd => hv ▸ hd) ?_ ?_
    fun p hp => (hI.res i p (hres p hp)).keeps hk
  · exact hI.reclaim_threads hpc hnode hrecord hnext (by omega) (.inr ⟨ht.1, by omega⟩) hslots
  · unfold PcOk
    rw [ht.2]
    exact ⟨hr.keeps hk, hd⟩

/-- **The start of `reclaimMemoryAfterSCX` keeps the invariant.** -/
theorem Inv.exec_reclaim (hpc : (st.thread i).pc = .reclaim r w) : Kept st (st.exec i) := by
  obtain ⟨hown, hout⟩ : Owned st.hist i (st.thread i).allocatedSCXRecord r ∧
      Outcome st.mem st.hist r w := by
    have hok := hI.pc i
    unfold PcOk at hok
    rwa [hpc] at hok
  have hT := hI.threads
  unfold State.exec
  rw [hpc]
  simp only [reclaimStep]
  rcases hout with ⟨hne, hst, h0⟩ | ⟨rfl, h0, -⟩
  · have hreclaims : Reclaims st.mem st.hist i r w 0 :=
      ⟨hown.owner, hne, hst, Nat.zero_le _, h0⟩
    rw [hreclaims.highest_eq hI.ok, if_neg (Nat.ne_of_gt h0)]
    split_ifs with hc
    · refine hI.replaced hpc hreclaims hown.done rfl rfl (Nat.le_add_right _ _) rfl ⟨rfl, rfl⟩ ?_
        fun p hp => hp
      intro k hk
      by_cases hlt : k < (st.mem.record r).type.numInserted
      · exact .inr ⟨if_pos hlt, Nat.add_lt_add_left hlt _⟩
      · refine .inl ⟨if_neg hlt, fun hl => hlt ?_⟩
        exact hown.record ▸ (hT.slot_linked i k hk hl).2.2
    · refine hI.replaced hpc hreclaims hown.done rfl rfl (Nat.le_refl _) rfl ⟨rfl, rfl⟩ ?_
        fun p hp => hp
      refine fun k hk => .inl ⟨rfl, fun hl => ?_⟩
      -- the change of an aborted record has not been made
      have hs := (hT.slot_linked i k hk hl).2.1
      rw [← hown.record] at hs
      have hab : w.Aborted := (w.cases.resolve_left hne).resolve_left hc
      exact hI.ok.not_aborted (hI.ok.swung_frozen (r := r) hs) (hst.trans (status_of_aborted hab))
  · have hhigh : highestIndexReached st.mem r (abortStateInit 0 0) = 0 := by
      unfold highestIndexReached
      rw [if_neg (by decide)]
      decide
    rw [if_pos hhigh]
    have h0' := hown.record ▸ h0
    have hk : Keeps st.mem st.hist .none st.mem st.hist := (Calm.refl _ _).keeps hI.ok .stay
    refine hI.set hk (fun k _ => foreign_none k _) (Calm.refl _ _).toSameTree.change nofun
      (Nat.le_refl _) hI.word hI.time_le hI.tree ?_ trivial fun p hp => hI.res i p hp
    refine hI.reclaim_threads hpc rfl rfl (Nat.le_refl _) (Nat.le_refl _) (.inl ⟨rfl, h0'⟩) ?_
    refine fun k hk => .inl ⟨rfl, fun hl => ?_⟩
    have hs := (hT.slot_linked i k hk hl).2.1
    exact Nat.ne_of_gt (hI.ok.frozen (hI.ok.swung_frozen hs)).2 h0'

end Reclaim

end Cbat.Scx
