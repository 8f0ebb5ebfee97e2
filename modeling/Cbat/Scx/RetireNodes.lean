/-
**Nodes are retired once, when they have left the tree, and none is forgotten.**

After a commit the owner of the record retires the nodes that its SCX has removed.  A node is
removed by one SCX only, since it has to be in the tree for that, and the owner is the only one who
retires it.  So the list of retired nodes has no duplicates, and once all SCXs are over it consists
of the nodes that have been in the tree and are not any more.

Main definitions:

* `Cbat.Scx.Pc.Works` — the thread is in its own SCX and has not begun to retire nodes;
* `Cbat.Scx.Mem.removed` — the nodes that a record removes;
* `Cbat.Scx.NodesInv` — **the invariant of the nodes that have been retired**.

Main results:

* `Cbat.Scx.Step.write`, `Cbat.Scx.Reachable.length_eq` — only a new SCX writes a record, and it has
  as many nodes as the table says;
* `Cbat.Scx.NodesInv.step` — every step keeps the invariant;
* `Cbat.Scx.nodes_retired_once` — **no node is retired twice or while it is in the tree**, and all
  nodes that have left it are retired in the end.
-/

import Cbat.Scx.Retire
import Cbat.Scx.Slots

set_option relaxedAutoImplicit false
set_option autoImplicit false

namespace Cbat.Scx

variable {m m' : Mem} {h h' : History} {n : ℕ} {st st' : State n} {i : Fin n} {r x s j : ℕ}
  {w : Word}

/-! ### What is removed -/

/-- Only a new SCX writes a record. -/
theorem Step.write (hI : Inv st) (hs : Step st st') :
    (∃ a, Keeps st.mem st.hist a st'.mem st'.hist ∧ ∀ r, a ≠ .write r) ∨
      ∃ i c, (st.thread i).pc = .idle ∧ Proper st i c ∧ st' = st.scx i c := by
  have hkept := hI.step hs
  obtain ⟨a, hk, hwrite⟩ := hkept.keeps
  suffices hclock : st'.hist.clock = st.hist.clock ∨
      ∃ i c, (st.thread i).pc = .idle ∧ Proper st i c ∧ st' = st.scx i c by
    refine hclock.imp_left fun heq => ⟨a, hk, fun r hr => ?_⟩
    have hlt := hwrite r hr
    have hle := hkept.inv.time_le r
    omega
  rcases hs.hist with heq | ⟨r, k, heq⟩ | ⟨r, k, heq⟩ | ⟨i, r, other, hpc, heq⟩ | hscx
  · exact .inl (by rw [heq])
  · exact .inl (by rw [heq]; rfl)
  · exact .inl (by rw [heq]; rfl)
  · left
    rw [heq, exec_help_eq hpc]
    change (helpStep st.mem st.hist r other .update).2.1.clock = _
    simp only [helpStep]
    split_ifs <;> rfl
  · exact .inr hscx

/-- An SCX has as many nodes as the table says. -/
theorem Reachable.length_eq (hr : Reachable st) :
    ∀ r, 0 < (st.hist.of r).time →
      (st.mem.record r).nodes.length = (st.mem.record r).type.numOfNodes := by
  refine hr.induct (P := fun s => ∀ r, 0 < (s.hist.of r).time →
    (s.mem.record r).nodes.length = (s.mem.record r).type.numOfNodes)
    (fun r h0 => absurd h0 (Nat.lt_irrefl 0)) fun s s' hs ih hst r h0 => ?_
  rcases hst.write hs.inv with ⟨a, hk, hw⟩ | ⟨i, c, hpc, hc, rfl⟩
  · have htime : (s'.hist.of r).time = (s.hist.of r).time := (hk.later (hw r)).time
    rw [hk.nodes r (hw r), hk.type r (hw r)]
    exact ih r (htime ▸ h0)
  · change ((scxMem s i c).record r).nodes.length = ((scxMem s i c).record r).type.numOfNodes
    change 0 < ((scxHist s i c).of r).time at h0
    by_cases hri : r = (s.thread i).allocatedSCXRecord
    · subst hri
      rw [record_scxMem_self]
      exact hc.length_eq
    · rw [record_scxMem_of_ne hri]
      rw [of_scxHist_of_ne hri] at h0
      exact ih r h0

/-! ### The invariant -/

/-- The thread is in its SCX with the record, and has not begun to retire the nodes. -/
def Pc.Works (pc : Pc) (r : ℕ) : Prop :=
  pc.Own r ∨ ∃ w j at_, pc = .tryRetire r w j at_

theorem Inv.owner_of_works (hI : Inv st) (hw : (st.thread i).pc.Works r) :
    (st.hist.of r).owner = i := by
  have hok := hI.pc i
  unfold PcOk at hok
  rcases hw with (⟨at_, hpc⟩ | ⟨w, hpc⟩) | ⟨w, j, at_, hpc⟩
  · rw [hpc] at hok
    exact hok.1.owner
  · rw [hpc] at hok
    exact hok.1.owner
  · rw [hpc] at hok
    exact hok.1.owner

/-- The nodes that a record removes. -/
def Mem.removed (m : Mem) (r : ℕ) : List ℕ := (m.record r).nodes.tail

/-- **The invariant of the nodes that have been retired.** -/
structure NodesInv (st : State n) : Prop where
  removed_once : ∀ r r' x, 0 < (st.hist.of r).swings → 0 < (st.hist.of r').swings →
    x ∈ st.mem.removed r → x ∈ st.mem.removed r' → r = r'
  gone : ∀ x ∈ st.hist.linked, ¬ st.mem.Live x →
    ∃ r, 0 < (st.hist.of r).swings ∧ x ∈ st.mem.removed r
  nodup : st.mem.retiredNodes.Nodup
  removed : ∀ x ∈ st.mem.retiredNodes, ∃ r, 0 < (st.hist.of r).swings ∧ x ∈ st.mem.removed r
  early : ∀ i r, (st.thread i).pc.Works r → 0 < (st.hist.of r).swings →
    ∀ x ∈ st.mem.removed r, x ∉ st.mem.retiredNodes
  late : ∀ (i : Fin n) (r j : ℕ), (st.thread i).pc = .retireNodes r j →
    (st.hist.of r).owner = i ∧ 0 < (st.hist.of r).swings ∧ 0 < j ∧
      ∀ k x, (st.mem.record r).nodes[k]? = some x → 0 < k →
        (x ∈ st.mem.retiredNodes ↔ k < j)
  complete : ∀ r, 0 < (st.hist.of r).swings → (∃ i, (st.thread i).pc.Works r) ∨
    (∃ i j, (st.thread i).pc = .retireNodes r j) ∨
    ∀ x ∈ st.mem.removed r, x ∈ st.mem.retiredNodes

theorem mem_removed_iff : x ∈ m.removed r ↔ ∃ k, 0 < k ∧ (m.record r).nodes[k]? = some x := by
  unfold Mem.removed
  rw [List.mem_iff_getElem?]
  constructor
  · rintro ⟨k, hk⟩
    exact ⟨k + 1, Nat.succ_pos k, by rwa [List.getElem?_tail] at hk⟩
  · rintro ⟨k, h0, hk⟩
    obtain ⟨l, rfl⟩ := Nat.exists_eq_succ_of_ne_zero h0.ne'
    exact ⟨l, by rwa [List.getElem?_tail]⟩

/-- What is removed is no longer in the tree. -/
theorem Inv.not_live_of_removed (hI : Inv st) (hs : 0 < (st.hist.of r).swings)
    (hx : x ∈ st.mem.removed r) : ¬ st.mem.Live x := hI.tree.removed r hs x hx

/-- The record has the type, the nodes and the owner that it had. -/
structure SameRecord (st st' : State n) (r : ℕ) : Prop where
  type : (st'.mem.record r).type = (st.mem.record r).type
  nodes : (st'.mem.record r).nodes = (st.mem.record r).nodes
  owner : (st'.hist.of r).owner = (st.hist.of r).owner

theorem SameRecord.removed (hs : SameRecord st st' r) : st'.mem.removed r = st.mem.removed r := by
  unfold Mem.removed
  rw [hs.nodes]

/-- A record that has made its change is never written again. -/
theorem Kept.still (hk : Kept st st') (hI : Inv st) (h0 : 0 < (st.hist.of r).swings) :
    0 < (st'.hist.of r).swings ∧ SameRecord st st' r := by
  obtain ⟨a, hk, -⟩ := hk.keeps
  have hw := hk.ne_write (.inr (hI.ok.frozen (hI.ok.swung_frozen (r := r) h0)).2)
  exact ⟨(hk.later hw).swung h0, hk.type r hw, hk.nodes r hw, hk.owner r hw⟩

theorem Due.removed_live (hd : Due st.mem st.hist r) (hI : Inv st) (hx : x ∈ st.mem.removed r) :
    st.mem.Live x := by
  obtain ⟨hripe, old, new, hf⟩ := hI.ripe hd.allFrozen hd.marked hd.swings
  have hu := hf.first_live hI.tree hI.ok hripe
  exact (hf.replaces hI.tree hI.ok hripe).removed_live hu (hf.removed.mem_iff.mp hx)

theorem Due.time_pos (hd : Due st.mem st.hist r) (hI : Inv st) : 0 < (st.hist.of r).time := by
  obtain ⟨hripe, -⟩ := hI.ripe hd.allFrozen hd.marked hd.swings
  obtain ⟨s, hs⟩ := hripe.first
  exact Nat.zero_lt_of_lt (hI.ok.time_lt hs)

section Swung

variable (hI : Inv st) (hs : Step st st') (h0 : 0 < (st'.hist.of r).swings)

include hI hs h0

theorem Step.sameRecord : SameRecord st st' r := by
  rcases hs.swung hI h0 with h0 | ⟨-, hm, hh⟩
  · exact ((hI.step hs).still hI h0).2
  · refine ⟨by rw [hm]; rfl, by rw [hm]; rfl, ?_⟩
    rw [hh]
    exact owner_swing r

/-- What a record removes has not been retired before. -/
theorem NodesInv.notMem_of_due (hN : NodesInv st) (hold : ¬ 0 < (st.hist.of r).swings)
    (hx : x ∈ st.mem.removed r) : x ∉ st.mem.retiredNodes := by
  intro hret
  obtain ⟨hdue, -⟩ := (hs.swung hI h0).resolve_left hold
  obtain ⟨r', h0', hx'⟩ := hN.removed x hret
  exact hI.not_live_of_removed h0' hx' (hdue.removed_live hI hx)

end Swung

/-- Two records do not remove the same node. -/
theorem NodesInv.removed_once_step (hN : NodesInv st) (hI : Inv st) (hs : Step st st') {r' : ℕ}
    (h0 : 0 < (st'.hist.of r).swings) (h0' : 0 < (st'.hist.of r').swings)
    (hx : x ∈ st.mem.removed r) (hx' : x ∈ st.mem.removed r') : r = r' := by
  rcases hs.swung hI h0 with hold | ⟨hdue, -, hh⟩
  · rcases hs.swung hI h0' with hold' | ⟨hdue', -⟩
    · exact hN.removed_once r r' x hold hold' hx hx'
    · exact absurd (hdue'.removed_live hI hx') (hI.not_live_of_removed hold hx)
  · by_contra hne
    rw [hh, swings_swing, if_neg (Ne.symm hne)] at h0'
    exact hI.not_live_of_removed h0' hx' (hdue.removed_live hI hx)

/-- What has left the tree was removed by some record. -/
theorem NodesInv.gone_step (hN : NodesInv st) (hI : Inv st) (hs : Step st st')
    (hx : x ∈ st'.hist.linked) (hl : ¬ st'.mem.Live x) :
    ∃ r, 0 < (st'.hist.of r).swings ∧ x ∈ st'.mem.removed r := by
  have hk := hI.step hs
  have old (hx : x ∈ st.hist.linked) (hl : ¬ st.mem.Live x) :
      ∃ r, 0 < (st'.hist.of r).swings ∧ x ∈ st'.mem.removed r := by
    obtain ⟨r, h0, hr⟩ := hN.gone x hx hl
    obtain ⟨h0', hsame⟩ := hk.still hI h0
    exact ⟨r, h0', hsame.removed ▸ hr⟩
  rcases hk.change with ⟨hlinked, hsame⟩ | ⟨r, hdue, hm, hh⟩
  · exact old (hlinked ▸ hx) fun hc => hl ((hI.live_iff hsame x).mpr hc)
  · obtain ⟨hripe, old', new, hf⟩ := hI.ripe hdue.allFrozen hdue.marked hdue.swings
    rw [hm, hf.live_swung_iff hI.tree hI.ok hripe, not_or] at hl
    rw [hh] at hx
    have hx' := (List.mem_append.mp hx).resolve_left hl.2
    by_cases hrem : x ∈ (st.mem.record r).nodes.tail
    · refine ⟨r, ?_, by rw [hm]; exact hrem⟩
      rw [hh, swings_swing, if_pos rfl]
      exact Nat.succ_pos _
    · exact old hx' fun hc => hl.1 ⟨hc, hrem⟩

/-- **A thread goes on, without retiring a node.** -/
theorem NodesInv.set {t' : Thread} (hN : NodesInv st) (hI : Inv st)
    (hs : Step st (st.set m' h' i t')) (hret : m'.retiredNodes = st.mem.retiredNodes)
    (hnot : ∀ r j, (st.thread i).pc ≠ .retireNodes r j)
    (hworks : ∀ r, 0 < (h'.of r).swings → t'.pc.Works r → (st.thread i).pc.Works r)
    (hleave : ∀ r, 0 < (h'.of r).swings → (st.thread i).pc.Works r →
      t'.pc.Works r ∨ t'.pc = .retireNodes r 1)
    (hlate : ∀ r j, t'.pc = .retireNodes r j →
      j = 1 ∧ (st.thread i).pc.Works r ∧ 0 < (h'.of r).swings) :
    NodesInv (st.set m' h' i t') := by
  have hk := hI.step hs
  have hself : (st.set m' h' i t').thread i = t' := by simp [State.set]
  have hother {k : Fin n} (hki : k ≠ i) : (st.set m' h' i t').thread k = st.thread k := by
    simp [State.set, hki]
  have unretired {k : Fin n} {r : ℕ} (hw : (st.thread k).pc.Works r) (h0 : 0 < (h'.of r).swings)
      {x : ℕ} (hx : x ∈ st.mem.removed r) : x ∉ st.mem.retiredNodes := by
    by_cases hold : 0 < (st.hist.of r).swings
    · exact hN.early k r hw hold x hx
    · exact hN.notMem_of_due hI hs h0 hold hx
  have same {r : ℕ} (h0 : 0 < (h'.of r).swings) : SameRecord st (st.set m' h' i t') r :=
    hs.sameRecord hI h0
  refine ⟨?_, fun x => hN.gone_step hI hs, ?_, ?_, ?_, ?_, ?_⟩
  · intro r r' x h0 h0' hx hx'
    rw [(same h0).removed] at hx
    rw [(same h0').removed] at hx'
    exact hN.removed_once_step hI hs h0 h0' hx hx'
  · change m'.retiredNodes.Nodup
    rw [hret]
    exact hN.nodup
  · intro x hx
    change x ∈ m'.retiredNodes at hx
    rw [hret] at hx
    obtain ⟨r, h0, hr⟩ := hN.removed x hx
    obtain ⟨h0', hsame⟩ := hk.still hI h0
    exact ⟨r, h0', hsame.removed ▸ hr⟩
  · intro k r hw h0 x hx
    change x ∉ m'.retiredNodes
    rw [hret]
    rw [(same h0).removed] at hx
    by_cases hki : k = i
    · subst hki
      rw [hself] at hw
      exact unretired (hworks r h0 hw) h0 hx
    · rw [hother hki] at hw
      exact unretired hw h0 hx
  · intro k r j hpc
    change (h'.of r).owner = k ∧ 0 < (h'.of r).swings ∧ 0 < j ∧
      ∀ l x, (m'.record r).nodes[l]? = some x → 0 < l → (x ∈ m'.retiredNodes ↔ l < j)
    rw [hret]
    by_cases hki : k = i
    · subst hki
      rw [hself] at hpc
      obtain ⟨rfl, hw, h0⟩ := hlate r j hpc
      refine ⟨(same h0).owner.trans (hI.owner_of_works hw), h0, Nat.one_pos, fun l x hl hpos => ?_⟩
      have hn : (m'.record r).nodes = (st.mem.record r).nodes := (same h0).nodes
      rw [hn] at hl
      exact iff_of_false (unretired hw h0 (mem_removed_iff.mpr ⟨l, hpos, hl⟩)) (by omega)
    · rw [hother hki] at hpc
      obtain ⟨howner, h0, hj, hiff⟩ := hN.late k r j hpc
      obtain ⟨h0', hsame⟩ := hk.still hI h0
      have hn : (m'.record r).nodes = (st.mem.record r).nodes := hsame.nodes
      rw [hn]
      exact ⟨hsame.owner.trans howner, h0', hj, hiff⟩
  · intro r h0
    have moved {k : Fin n} (hw : (st.thread k).pc.Works r) :
        (∃ i_1, ((st.set m' h' i t').thread i_1).pc.Works r) ∨
          ∃ i_1 j, ((st.set m' h' i t').thread i_1).pc = .retireNodes r j := by
      by_cases hki : k = i
      · subst hki
        rcases hleave r h0 hw with hw' | hw'
        · exact .inl ⟨k, by rwa [hself]⟩
        · exact .inr ⟨k, 1, by rwa [hself]⟩
      · exact .inl ⟨k, by rwa [hother hki]⟩
    rcases hs.swung hI h0 with hold | ⟨hdue, -⟩
    · rcases hN.complete r hold with ⟨k, hw⟩ | ⟨k, j, hpc⟩ | hall
      · exact (moved hw).imp_right .inl
      · refine .inr (.inl ⟨k, j, ?_⟩)
        rw [hother fun hki => hnot r j (hki ▸ hpc)]
        exact hpc
      · refine .inr (.inr fun x hx => ?_)
        change x ∈ m'.retiredNodes
        rw [hret]
        exact hall x ((same h0).removed ▸ hx)
    · -- the owner is still in its SCX
      obtain ⟨hst, hd⟩ := hI.not_doomed hdue.allFrozen hdue.swings
      obtain ⟨k, at_, -, hpc, -⟩ := hI.threads.working r hst hdue.swings hd
      exact (moved (.inl (.inl ⟨at_, hpc⟩))).imp_right .inl

/-- A step that ends outside of an SCX of the thread's own, and began there. -/
theorem NodesInv.outside {t' : Thread} (hN : NodesInv st) (hI : Inv st)
    (hs : Step st (st.set m' h' i t')) (hret : m'.retiredNodes = st.mem.retiredNodes)
    (hnot : ∀ r j, (st.thread i).pc ≠ .retireNodes r j)
    (hbefore : ∀ r, 0 < (h'.of r).swings → ¬ (st.thread i).pc.Works r)
    (hafter : ∀ r, 0 < (h'.of r).swings → ¬ t'.pc.Works r)
    (hlate : ∀ r j, t'.pc ≠ .retireNodes r j) : NodesInv (st.set m' h' i t') :=
  hN.set hI hs hret hnot (fun r h0 hw => absurd hw (hafter r h0))
    (fun r h0 hw => absurd hw (hbefore r h0)) fun r j hpc => absurd hpc (hlate r j)

/-- A step inside of an SCX. -/
theorem NodesInv.inside {t' : Thread} (hN : NodesInv st) (hI : Inv st)
    (hs : Step st (st.set m' h' i t')) (hret : m'.retiredNodes = st.mem.retiredNodes)
    (hbefore : (st.thread i).pc.Works r) (hafter : t'.pc.Works r) :
    NodesInv (st.set m' h' i t') := by
  have unique {pc : Pc} {r' : ℕ} (hw : pc.Works r) (hw' : pc.Works r') : r' = r := by
    rcases hw with (⟨at_, rfl⟩ | ⟨w, rfl⟩) | ⟨w, j, at_, rfl⟩
    all_goals
      rcases hw' with (⟨at', heq⟩ | ⟨w', heq⟩) | ⟨w', j', at', heq⟩ <;> cases heq
      rfl
  have not_late {pc : Pc} (hw : pc.Works r) (r' j : ℕ) : pc ≠ .retireNodes r' j := by
    rintro rfl
    rcases hw with (⟨at_, heq⟩ | ⟨w, heq⟩) | ⟨w, j, at_, heq⟩ <;> cases heq
  refine hN.set hI hs hret (not_late hbefore) (fun r' _ hw => ?_) (fun r' _ hw => ?_) ?_
  · rwa [unique hafter hw]
  · left
    rwa [unique hbefore hw]
  · exact fun r' j hpc => absurd hpc (not_late hafter r' j)

theorem not_works_llx (y : ℕ) (at_ : LlxAt) (r : ℕ) : ¬ (Pc.llx y at_).Works r := by
  rintro ((⟨at', heq⟩ | ⟨w, heq⟩) | ⟨w, j, at', heq⟩) <;> cases heq

theorem not_works_idle (r : ℕ) : ¬ Pc.idle.Works r := by
  rintro ((⟨at', heq⟩ | ⟨w, heq⟩) | ⟨w, j, at', heq⟩) <;> cases heq

theorem not_works_help (y : ℕ) (at_ : HelpAt) (r : ℕ) : ¬ (Pc.help y true at_).Works r := by
  rintro ((⟨at', heq⟩ | ⟨w, heq⟩) | ⟨w, j, at', heq⟩) <;> cases heq

/-! ### Every step -/

/-- After a step of `llx` the thread is in `llx`, outside, or helps another thread. -/
theorem llxStep_pc (m : Mem) (x : ℕ) (at_ : LlxAt) :
    (∃ at', (llxStep m x at_).1 = .llx x at') ∨ (llxStep m x at_).1 = .idle ∨
      ∃ r, (llxStep m x at_).1 = .help r true .state := by
  cases at_ with
  | scx1 => exact .inl ⟨_, rfl⟩
  | state s => exact .inl ⟨_, rfl⟩
  | marked s w =>
      simp only [llxStep]
      split_ifs
      · exact .inl ⟨_, rfl⟩
      · exact .inr (.inr ⟨_, rfl⟩)
      · exact .inl ⟨_, rfl⟩
  | left s => exact .inl ⟨_, rfl⟩
  | right s l =>
      simp only [llxStep]
      split_ifs
      · exact .inr (.inl rfl)
      · exact .inl ⟨_, rfl⟩
  | scx2 s l r =>
      simp only [llxStep]
      split_ifs
      · exact .inr (.inl rfl)
      · exact .inr (.inr ⟨_, rfl⟩)
  | scx3 => exact .inr (.inr ⟨_, rfl⟩)

theorem NodesInv.exec_llx {at_ : LlxAt} (hN : NodesInv st) (hI : Inv st)
    (hpc : (st.thread i).pc = .llx x at_) : NodesInv (st.exec i) := by
  have hs : Step st (st.exec i) := .exec i (by rw [hpc]; nofun)
  have hout := llxStep_pc st.mem x at_
  have hafter {pc : Pc}
      (hp : (∃ at', pc = .llx x at') ∨ pc = .idle ∨ ∃ r, pc = .help r true .state) :
      (∀ r, ¬ pc.Works r) ∧ ∀ r j, pc ≠ .retireNodes r j := by
    rcases hp with ⟨at', rfl⟩ | rfl | ⟨r, rfl⟩
    · exact ⟨not_works_llx x at', nofun⟩
    · exact ⟨not_works_idle, nofun⟩
    · exact ⟨not_works_help r _, nofun⟩
  have hbefore (r : ℕ) : ¬ (st.thread i).pc.Works r := hpc ▸ not_works_llx x at_ r
  have hnot (r j : ℕ) : (st.thread i).pc ≠ .retireNodes r j := by rw [hpc]; nofun
  unfold State.exec at hs ⊢
  rw [hpc] at hs ⊢
  simp only at hs ⊢
  generalize llxStep st.mem x at_ = p at hs hout
  obtain ⟨pc, res⟩ := p
  obtain ⟨hw, hl⟩ := hafter hout
  cases res with
  | none => exact hN.outside hI hs rfl hnot (fun r _ => hbefore r) (fun r _ => hw r) hl
  | some res => exact hN.outside hI hs rfl hnot (fun r _ => hbefore r) (fun r _ => hw r) hl

theorem NodesInv.exec_help {other : Bool} {at_ : HelpAt} (hN : NodesInv st) (hI : Inv st)
    (hpc : (st.thread i).pc = .help r other at_) : NodesInv (st.exec i) := by
  have hs : Step st (st.exec i) := .exec i (by rw [hpc]; nofun)
  have hret := (retired_helpStep st.mem st.hist r other at_).2
  have hout := helpStep_pc st.mem st.hist r other at_
  rw [exec_help_eq hpc] at hs ⊢
  cases other with
  | false =>
      refine hN.inside (r := r) hI hs hret (.inl (.inl ⟨at_, hpc⟩)) ?_
      rcases hout with ⟨w, -, hpc'⟩ | ⟨-, at', hpc'⟩
      · exact .inl (.inr ⟨w, hpc'⟩)
      · exact .inl (.inl ⟨at', hpc'⟩)
  | true =>
      have hpc' : (helpStep st.mem st.hist r true at_).2.2 = .idle ∨
          ∃ at', (helpStep st.mem st.hist r true at_).2.2 = .help r true at' :=
        hout.imp (fun ⟨_, _, hpc'⟩ => hpc') And.right
      have hnot (r' j : ℕ) : (st.thread i).pc ≠ .retireNodes r' j := by rw [hpc]; nofun
      refine hN.outside hI hs hret hnot (fun r' _ => hpc ▸ not_works_help r at_ r') (fun r' _ => ?_)
        fun r' j => ?_
      · rcases hpc' with heq | ⟨at', heq⟩
        · exact fun hw => not_works_idle r' (heq ▸ hw)
        · exact fun hw => not_works_help r at' r' (heq ▸ hw)
      · rcases hpc' with heq | ⟨at', heq⟩
        · exact fun hw => nomatch heq.symm.trans hw
        · exact fun hw => nomatch heq.symm.trans hw

/-- A record that has made its change is not kept. -/
theorem NodesInv.exec_reclaim (hN : NodesInv st) (hI : Inv st)
    (hpc : (st.thread i).pc = .reclaim r w) : NodesInv (st.exec i) := by
  have hs : Step st (st.exec i) := .exec i (by rw [hpc]; intro h; cases h)
  have hbefore : (st.thread i).pc.Works r := .inl (.inr ⟨w, hpc⟩)
  obtain ⟨-, hout⟩ : Owned st.hist i (st.thread i).allocatedSCXRecord r ∧
      Outcome st.mem st.hist r w := by
    have hok := hI.pc i
    unfold PcOk at hok
    rwa [hpc] at hok
  have hzero (h0 : highestIndexReached st.mem r w = 0) : ¬ 0 < (st.hist.of r).swings := by
    intro hsw
    have hfront := (hI.ok.frozen (hI.ok.swung_frozen (r := r) hsw)).2
    rcases hout with ⟨hne, hst, hpos⟩ | ⟨-, hf, -⟩
    · rw [highestIndexReached_eq hI.ok hne hst hpos] at h0
      exact Nat.ne_of_gt hpos h0
    · exact Nat.ne_of_gt hfront hf
  unfold State.exec at hs ⊢
  rw [hpc] at hs ⊢
  simp only [reclaimStep] at hs ⊢
  split_ifs at hs ⊢ with h0 hc
  · refine hN.outside hI hs rfl (by rw [hpc]; intro _ _ h; cases h) (fun r' h0' hw => ?_)
      (fun r' _ => not_works_idle r') (by intro _ _ h; cases h)
    rw [hpc] at hw
    obtain rfl : r' = r := by
      rcases hw with (⟨at', heq⟩ | ⟨w', heq⟩) | ⟨w', j', at', heq⟩ <;> cases heq
      rfl
    exact hzero h0 h0'
  · exact hN.inside hI hs rfl hbefore (.inr ⟨_, _, _, rfl⟩)
  · exact hN.inside hI hs rfl hbefore (.inr ⟨_, _, _, rfl⟩)

/-- The loop over the records that were replaced ends: after a commit the nodes are retired. -/
theorem NodesInv.exec_tryRetire {at_ : RetireAt} (hN : NodesInv st) (hI : Inv st)
    (hpc : (st.thread i).pc = .tryRetire r w j at_) : NodesInv (st.exec i) := by
  have hs : Step st (st.exec i) := .exec i (by rw [hpc]; intro h; cases h)
  have hbefore : (st.thread i).pc.Works r := .inr ⟨w, j, at_, hpc⟩
  rw [exec_tryRetire_eq hpc] at hs ⊢
  have inside (hret : (tryRetireStep st.mem st.hist r w j at_).1.retiredNodes = st.mem.retiredNodes)
      (hat : ∃ k at', (tryRetireStep st.mem st.hist r w j at_).2.2 = .tryRetire r w k at') :
      NodesInv (st.go (tryRetireStep st.mem st.hist r w j at_).1
        (tryRetireStep st.mem st.hist r w j at_).2.1 i
        (tryRetireStep st.mem st.hist r w j at_).2.2) := by
    obtain ⟨k, at', hat⟩ := hat
    exact hN.inside hI hs hret hbefore (.inr ⟨w, k, at', hat⟩)
  cases at_ with
  | loop =>
      by_cases hj : j < highestIndexReached st.mem r w
      · refine inside ?_ ?_
        · simp only [tryRetireStep, if_pos hj]
          cases st.mem.seenAt r j with
          | none => rfl
          | some o =>
              simp only
              split_ifs <;> rfl
        · simp only [tryRetireStep, if_pos hj]
          cases st.mem.seenAt r j with
          | none => exact ⟨_, _, rfl⟩
          | some o =>
              simp only
              split_ifs <;> exact ⟨_, _, rfl⟩
      · obtain ⟨hr, -⟩ : Reclaims st.mem st.hist i r w j ∧ (st.hist.of r).done = j := by
          have hok := hI.pc i
          unfold PcOk at hok
          rwa [hpc] at hok
        have only {r' : ℕ} (hw : (st.thread i).pc.Works r') : r' = r := by
          rw [hpc] at hw
          rcases hw with (⟨at', heq⟩ | ⟨w', heq⟩) | ⟨w', j', at', heq⟩ <;> cases heq
          rfl
        simp only [tryRetireStep, if_neg hj] at hs ⊢
        by_cases hc : w = stateCommitted
        · -- the record is committed
          have h0 : 0 < (st.hist.of r).swings := by
            refine hI.ok.committed (r := r) (hr.state.trans ?_)
            rw [hc]
            exact status_eq_committed_iff.mpr rfl
          rw [if_pos hc] at hs ⊢
          refine hN.set hI hs rfl (by rw [hpc]; intro _ _ h; cases h) (fun r' _ hw => ?_)
            (fun r' _ hw => ?_) ?_
          · rcases hw with (⟨at', heq⟩ | ⟨w', heq⟩) | ⟨w', j', at', heq⟩ <;> cases heq
          · exact .inr (by rw [only hw])
          · rintro r' k ⟨⟩
            exact ⟨rfl, hbefore, h0⟩
        · -- the record is aborted
          rw [if_neg hc] at hs ⊢
          refine hN.outside hI hs rfl (by rw [hpc]; intro _ _ h; cases h) (fun r' h0 hw => ?_)
            (fun r' _ => not_works_idle r') (by intro _ _ h; cases h)
          rw [only hw] at h0
          have hab : w.Aborted := (w.cases.resolve_left hr.ne_inProgress).resolve_left hc
          exact hI.ok.not_aborted (hI.ok.swung_frozen (r := r) h0)
            (hr.state.trans (status_of_aborted hab))
  | state o =>
      refine inside ?_ ?_
      · simp only [tryRetireStep]
        split_ifs
        · rfl
        · cases indexOf st.mem o (st.mem.nodeAt r j) <;> rfl
      · simp only [tryRetireStep]
        split_ifs
        · exact ⟨_, _, rfl⟩
        · cases indexOf st.mem o (st.mem.nodeAt r j) <;> exact ⟨_, _, rfl⟩
  | load o k => exact inside rfl ⟨_, _, rfl⟩
  | cas o k w' =>
      refine inside ?_ ?_
      · simp only [tryRetireStep]
        split_ifs <;> rfl
      · simp only [tryRetireStep]
        split_ifs <;> exact ⟨_, _, rfl⟩
  | retire o => exact inside rfl ⟨_, _, rfl⟩

/-- A record that has made its change has as many nodes as the table says. -/
theorem Reachable.length_removed (hr : Reachable st) : ∀ r, 0 < (st.hist.of r).swings →
    (st.mem.record r).nodes.length = (st.mem.record r).type.numOfNodes := by
  refine hr.induct (P := fun s => ∀ r, 0 < (s.hist.of r).swings →
    (s.mem.record r).nodes.length = (s.mem.record r).type.numOfNodes)
    (fun r h0 => absurd h0 (Nat.lt_irrefl 0)) fun s s' hs ih hst r h0 => ?_
  have hsame := hst.sameRecord hs.inv h0
  rw [hsame.nodes, hsame.type]
  rcases hst.swung hs.inv h0 with hold | ⟨hdue, -⟩
  · exact ih r hold
  · exact hs.length_eq r (hdue.time_pos hs.inv)

/-- A node is retired. -/
theorem NodesInv.retire (hN : NodesInv st) (hI : Inv st)
    (hpc : (st.thread i).pc = .retireNodes r j) (hx : (st.mem.record r).nodes[j]? = some x) :
    NodesInv (st.go { st.mem with retiredNodes := x :: st.mem.retiredNodes } st.hist i
      (.retireNodes r (j + 1))) := by
  obtain ⟨howner, h0, hj, hiff⟩ := hN.late i r j hpc
  have hself : ((st.go { st.mem with retiredNodes := x :: st.mem.retiredNodes } st.hist i
      (.retireNodes r (j + 1))).thread i).pc = .retireNodes r (j + 1) := by
    simp [State.go, State.set]
  have hother {k : Fin n} (hki : k ≠ i) :
      (st.go { st.mem with retiredNodes := x :: st.mem.retiredNodes } st.hist i
        (.retireNodes r (j + 1))).thread k = st.thread k := by simp [State.go, State.set, hki]
  have hxr : x ∈ st.mem.removed r := mem_removed_iff.mpr ⟨j, hj, hx⟩
  -- another record does not remove the node
  have other_record {r' y : ℕ} (h0' : 0 < (st.hist.of r').swings) (hne : r' ≠ r)
      (hy : y ∈ st.mem.removed r') : y ≠ x := by
    rintro rfl
    exact hne (hN.removed_once r' r y h0' h0 hy hxr)
  have not_works {k : Fin n} (hw : (st.thread k).pc.Works r) : False := by
    obtain rfl : k = i := Fin.ext ((hI.owner_of_works hw).symm.trans howner)
    rw [hpc] at hw
    rcases hw with (⟨at_, heq⟩ | ⟨w, heq⟩) | ⟨w, j, at_, heq⟩ <;> cases heq
  refine ⟨hN.removed_once, hN.gone, ?_, ?_, ?_, ?_, ?_⟩
  · exact List.nodup_cons.mpr ⟨fun hmem => Nat.lt_irrefl j ((hiff j x hx hj).mp hmem), hN.nodup⟩
  · intro y hy
    rcases List.mem_cons.mp hy with rfl | hy
    · exact ⟨r, h0, hxr⟩
    · exact hN.removed y hy
  · intro k r' hw h0' y hy hmem
    by_cases hki : k = i
    · subst hki
      rw [hself] at hw
      rcases hw with (⟨at_, heq⟩ | ⟨w, heq⟩) | ⟨w, j, at_, heq⟩ <;> cases heq
    · rw [hother hki] at hw
      have hne : r' ≠ r := by
        rintro rfl
        exact not_works hw
      rcases List.mem_cons.mp hmem with hyx | hmem
      · exact other_record h0' hne hy hyx
      · exact hN.early k r' hw h0' y hy hmem
  · intro k r' j' hpc'
    by_cases hki : k = i
    · subst hki
      rw [hself] at hpc'
      obtain ⟨rfl, rfl⟩ : r = r' ∧ j + 1 = j' := by
        injection hpc' with h₁ h₂
        exact ⟨h₁, h₂⟩
      refine ⟨howner, h0, Nat.succ_pos j, fun k y hy hk => ?_⟩
      change y ∈ x :: st.mem.retiredNodes ↔ k < j + 1
      rw [List.mem_cons, hiff k y hy hk, Nat.lt_succ_iff_lt_or_eq, or_comm]
      refine or_congr_right ⟨?_, ?_⟩
      · rintro rfl
        obtain ⟨hlt, -⟩ := List.getElem?_eq_some_iff.mp hy
        exact (List.getElem?_inj hlt (hI.tree.nodes_nodup r)).mp (hy.trans hx.symm)
      · rintro rfl
        exact Option.some.inj (hy.symm.trans hx)
    · rw [hother hki] at hpc'
      obtain ⟨howner', h0', hj', hiff'⟩ := hN.late k r' j' hpc'
      have hne : r' ≠ r := by
        rintro rfl
        exact hki (Fin.ext (howner'.symm.trans howner))
      refine ⟨howner', h0', hj', fun l y hy hl => ?_⟩
      have hyx := other_record h0' hne (mem_removed_iff.mpr ⟨l, hl, hy⟩)
      change y ∈ x :: st.mem.retiredNodes ↔ l < j'
      rw [List.mem_cons, or_iff_right hyx]
      exact hiff' l y hy hl
  · intro r' h0'
    rcases hN.complete r' h0' with ⟨k, hw⟩ | ⟨k, j', hpc'⟩ | hall
    · by_cases hki : k = i
      · subst hki
        rw [hpc] at hw
        rcases hw with (⟨at_, heq⟩ | ⟨w, heq⟩) | ⟨w, j, at_, heq⟩ <;> cases heq
      · exact .inl ⟨k, by rwa [hother hki]⟩
    · refine .inr (.inl ?_)
      by_cases hki : k = i
      · subst hki
        obtain ⟨rfl, -⟩ : r = r' ∧ j = j' := by
          injection hpc.symm.trans hpc' with h₁ h₂
          exact ⟨h₁, h₂⟩
        exact ⟨k, j + 1, hself⟩
      · exact ⟨k, j', by rwa [hother hki]⟩
    · exact .inr (.inr fun y hy => List.mem_cons_of_mem x (hall y hy))

/-- All nodes have been retired. -/
theorem NodesInv.leave (hN : NodesInv st) (hpc : (st.thread i).pc = .retireNodes r j)
    (hj : (st.mem.record r).nodes.length ≤ j) : NodesInv (st.go st.mem st.hist i .idle) := by
  obtain ⟨-, h0, -, hiff⟩ := hN.late i r j hpc
  have hself : ((st.go st.mem st.hist i .idle).thread i).pc = .idle := by simp [State.go, State.set]
  have hother {k : Fin n} (hki : k ≠ i) :
      (st.go st.mem st.hist i .idle).thread k = st.thread k := by simp [State.go, State.set, hki]
  refine ⟨hN.removed_once, hN.gone, hN.nodup, hN.removed, ?_, ?_, ?_⟩
  · intro k r' hw
    by_cases hki : k = i
    · subst hki
      rw [hself] at hw
      exact absurd hw (not_works_idle r')
    · rw [hother hki] at hw
      exact hN.early k r' hw
  · intro k r' j' hpc'
    by_cases hki : k = i
    · subst hki
      rw [hself] at hpc'
      cases hpc'
    · rw [hother hki] at hpc'
      exact hN.late k r' j' hpc'
  · intro r' h0'
    rcases hN.complete r' h0' with ⟨k, hw⟩ | ⟨k, j', hpc'⟩ | hall
    · by_cases hki : k = i
      · subst hki
        rw [hpc] at hw
        rcases hw with (⟨at_, heq⟩ | ⟨w, heq⟩) | ⟨w, j, at_, heq⟩ <;> cases heq
      · exact .inl ⟨k, by rwa [hother hki]⟩
    · by_cases hki : k = i
      · subst hki
        obtain ⟨rfl, -⟩ : r = r' ∧ j = j' := by
          injection hpc.symm.trans hpc' with h₁ h₂
          exact ⟨h₁, h₂⟩
        refine .inr (.inr fun y hy => ?_)
        obtain ⟨l, hl, hy⟩ := mem_removed_iff.mp hy
        obtain ⟨hlt, -⟩ := List.getElem?_eq_some_iff.mp hy
        exact (hiff l y hy hl).mpr (hlt.trans_le hj)
      · exact .inr (.inl ⟨k, j', by rwa [hother hki]⟩)
    · exact .inr (.inr hall)

/-- **Every step keeps the invariant of the nodes that have been retired.** -/
theorem NodesInv.step (hN : NodesInv st) (hr : Reachable st) (hs : Step st st') :
    NodesInv st' := by
  have hI := hr.inv
  cases hs with
  | llx i x hpc hx =>
      exact hN.outside hI (.llx i x hpc hx) rfl (by rw [hpc]; nofun)
        (fun r _ => hpc ▸ not_works_idle r) (fun r _ => not_works_llx x _ r) nofun
  | scx i c hpc hc =>
      refine hN.outside hI (.scx i c hpc hc) (retired_scxMem st i c).2 (by rw [hpc]; nofun)
        (fun r _ => hpc ▸ not_works_idle r) (fun r h0 hw => ?_) nofun
      obtain rfl : r = (st.thread i).allocatedSCXRecord := by
        rcases hw with (⟨at', heq⟩ | ⟨w', heq⟩) | ⟨w', j', at', heq⟩ <;> cases heq
        rfl
      change 0 < ((scxHist st i c).of (st.thread i).allocatedSCXRecord).swings at h0
      rw [of_scxHist_self] at h0
      exact absurd h0 (Nat.lt_irrefl 0)
  | weak i r w j o k stateOld hpc =>
      exact hN.inside hI (.weak i r w j o k stateOld hpc) rfl (.inr ⟨_, _, _, hpc⟩)
        (.inr ⟨_, _, _, rfl⟩)
  | exec i hpc =>
      cases hp : (st.thread i).pc with
      | idle => exact absurd hp hpc
      | llx x at_ => exact hN.exec_llx hI hp
      | help r other at_ => exact hN.exec_help hI hp
      | reclaim r w => exact hN.exec_reclaim hI hp
      | tryRetire r w j at_ => exact hN.exec_tryRetire hI hp
      | retireNodes r j =>
          have hlen := hr.length_removed r (hN.late i r j hp).2.1
          unfold State.exec
          rw [hp]
          simp only [retireNodesStep]
          rw [← hlen]
          by_cases hj : j < (st.mem.record r).nodes.length
          · rw [if_pos hj]
            refine hN.retire hI hp ?_
            unfold Mem.nodeAt
            rw [List.getD_eq_getElem _ _ hj]
            exact List.getElem?_eq_getElem hj
          · rw [if_neg hj]
            exact hN.leave hp (Nat.le_of_not_lt hj)

theorem Reachable.nodesInv (hr : Reachable st) : NodesInv st := by
  refine hr.induct ⟨?_, ?_, List.nodup_nil, ?_, ?_, ?_, ?_⟩ fun s s' hs hN hst => hN.step hs hst
  · exact fun r r' x h0 => absurd h0 (Nat.lt_irrefl 0)
  · intro x hx hl
    have hlinked : (State.init n).hist.linked = [root, 2] := rfl
    rw [hlinked] at hx
    refine absurd ?_ hl
    rcases List.mem_cons.mp hx with rfl | hx
    · exact .refl
    · obtain rfl := List.mem_singleton.mp hx
      exact .single ⟨true, rfl⟩
  · intro x hx
    cases hx
  · exact fun i r _ h0 => absurd h0 (Nat.lt_irrefl 0)
  · intro i r j hpc
    cases hpc
  · exact fun r h0 => absurd h0 (Nat.lt_irrefl 0)

/-- The nodes that have been in the tree, in terms of the run. -/
theorem Reachable.linked_iff (hr : Reachable st) (x : ℕ) :
    x ∈ st.hist.linked ↔ ∃ st₀, Reachable st₀ ∧ Run st₀ st ∧ st₀.mem.Live x := by
  constructor
  · revert x
    refine hr.induct (P := fun s => ∀ x, x ∈ s.hist.linked →
      ∃ st₀, Reachable st₀ ∧ Run st₀ s ∧ st₀.mem.Live x) ?_ ?_
    · intro x hx
      refine ⟨State.init n, .refl, .refl, ?_⟩
      by_contra hl
      obtain ⟨r, h0, -⟩ := (Reachable.nodesInv (n := n) .refl).gone x hx hl
      exact Nat.lt_irrefl 0 h0
    · intro s s' hs ih hst x hx
      rcases (hs.inv.step hst).change with ⟨hlinked, -⟩ | ⟨r, hdue, hm, hh⟩
      · obtain ⟨st₀, h₀, hrun, hl⟩ := ih x (hlinked ▸ hx)
        exact ⟨st₀, h₀, hrun.tail hst, hl⟩
      · rw [hh] at hx
        rcases List.mem_append.mp hx with hx | hx
        · obtain ⟨hripe, old, new, hf⟩ := hs.inv.ripe hdue.allFrozen hdue.marked hdue.swings
          refine ⟨s', hs.tail hst, .refl, ?_⟩
          rw [hm, hf.live_swung_iff hs.inv.tree hs.inv.ok hripe]
          exact .inr hx
        · obtain ⟨st₀, h₀, hrun, hl⟩ := ih x hx
          exact ⟨st₀, h₀, hrun.tail hst, hl⟩
  · rintro ⟨st₀, h₀, hrun, hl⟩
    exact hrun.linked h₀.inv (h₀.inv.tree.linked_of_live hl)

/-- **No node is retired twice or while it is in the tree, and none is forgotten.**  A retired node
has been in the tree, and is not reachable now or at any later time; and when no thread is inside of
an operation, every node that has been in the tree and is not reachable any more is retired. -/
theorem nodes_retired_once (hr : Reachable st) :
    st.mem.retiredNodes.Nodup ∧
      (∀ x ∈ st.mem.retiredNodes, (∃ st₀, Reachable st₀ ∧ Run st₀ st ∧ st₀.mem.Live x) ∧
        ∀ st', Run st st' → ¬ st'.mem.Live x) ∧
      ((∀ i, (st.thread i).pc = .idle) → ∀ st₀ x, Reachable st₀ → Run st₀ st → st₀.mem.Live x →
        ¬ st.mem.Live x → x ∈ st.mem.retiredNodes) := by
  have hI := hr.inv
  have hN := hr.nodesInv
  refine ⟨hN.nodup, fun x hx => ?_, fun hidle st₀ x h₀ hrun hx hl => ?_⟩
  · obtain ⟨r, h0, hxr⟩ := hN.removed x hx
    have hlinked := hI.tree.nodes_mem r x (List.mem_of_mem_tail hxr)
    refine ⟨(hr.linked_iff x).mp hlinked, fun st' hrun => ?_⟩
    exact hrun.not_live hI hlinked (hI.not_live_of_removed h0 hxr)
  · have hlinked := (hr.linked_iff x).mpr ⟨st₀, h₀, hrun, hx⟩
    obtain ⟨r, h0, hxr⟩ := hN.gone x hlinked hl
    rcases hN.complete r h0 with ⟨k, hw⟩ | ⟨k, j, hpc⟩ | hall
    · rw [hidle k] at hw
      exact absurd hw (not_works_idle r)
    · rw [hidle k] at hpc
      cases hpc
    · exact hall x hxr

/-- The insertion of the sample run retires one node, and the deletion three. -/
theorem nodes_retired_once_deleted :
    Sample.deleted.mem.retiredNodes = [5, 4, 3, 2] ∧
      ∀ x ∈ [5, 4, 3, 2], ∀ st', Run Sample.deleted st' → ¬ st'.mem.Live x := by
  have hret := Sample.Evaluated.deleted_nodes Sample.evaluated
  obtain ⟨-, hgone, -⟩ := nodes_retired_once Sample.reachable_deleted
  exact ⟨hret, fun x hx => (hgone x (hret ▸ hx)).2⟩

end Cbat.Scx
