/-
**Delegation never deadlocks.**

A `propagate` of the delegating variants that gives up waits for the one whose version it has found
in its place, and follows the delegatees from there.  Addresses of versions are handed out in the
order in which the versions are installed, so every running `propagate` has a rank: the address
after the last version that it has installed, or 0 before its first one.  A thread waits only for a
record of a larger rank, and it installs nothing while it waits.  So there is no cycle, however the
tree changes while the threads climb, and the last record of a chain belongs to a thread that does
not wait.

Main definitions:

* `Cbat.Delegates` — one `propagate` has delegated to another one;
* `Cbat.Ranked` — **the ranks rise along the delegatees**;
* `Cbat.Pursues` — the thread still has to complete the record.

Main results:

* `Cbat.Ranked.step`, `Cbat.Reachable.ranked` — there are such ranks in every reachable state;
* `Cbat.Reachable.pursued` — a record is done, or a thread is still to complete it;
* `Cbat.delegation_never_deadlocks` — **no cycle, and every chain ends at a thread that does not
  wait**.
-/

import Cbat.Status

set_option relaxedAutoImplicit false
set_option autoImplicit false

namespace Cbat

variable {K V : Type}

/-- The address of a version. -/
def Ver.addr : Ver K → ℕ
  | .nil => 0
  | .mk a _ _ _ _ _ => a

/-- The call of `propagate` with the record `p` has delegated to that with the record `q`. -/
def Delegates (m : Mem K V) (p q : ℕ) : Prop := (m.status p).delegatee = q ∧ q ≠ 0

/-! ### Ranks -/

section Ranks

variable [LinearOrder K]

/-- What the rank of a thread is compared with: a main call that finds another version than the one
it expects finds one that was installed after all versions of its own thread. -/
def PcRank (rank : ℕ → ℕ) (m : Mem K V) : PC K V → Prop
  | .refresh cl r _ f cs => ∀ g ∈ f :: cs, g.main = true → g.pos.loaded = true →
      (m.node r).version ≠ g.oldVer → rank cl.ps ≤ (m.node r).version.addr
  | .propMark cl _ curps => rank cl.ps < rank curps
  | _ => True

/-- **The ranks of the status records**: above the addresses of the versions that carry them, and
rising along the delegatees. -/
structure Ranked (s : State K V) (rank : ℕ → ℕ) : Prop where
  le : ∀ p, rank p ≤ s.mem.nextVer
  new : ∀ p, s.mem.nextStatus ≤ p → rank p = 0
  stored : ∀ x < s.mem.next, (s.mem.node x).version.status ≠ 0 →
    (s.mem.node x).version.addr < rank (s.mem.node x).version.status
  edge : ∀ p q, Delegates s.mem p q → rank p < rank q
  pcs : ∀ j, PcRank rank s.mem (s.pc j)

/-- The ranks after a step from `pc`: a thread that installs a version of its own rises above all
others. -/
def rankAfter (rank : ℕ → ℕ) (m : Mem K V) : PC K V → ℕ → ℕ
  | .refresh cl _ _ f _ =>
      if f.main = true ∧ f.pos = .cas ∧ (m.node f.x).version = f.oldVer then
        Function.update rank cl.ps (m.nextVer + 1)
      else rank
  | _ => rank

variable {cfg : Cfg K V} {m m' : Mem K V} {pc pc' : PC K V} {rank : ℕ → ℕ}

/-- Only the rank of a climbing thread changes. -/
theorem rankAfter_cases (rank : ℕ → ℕ) (m : Mem K V) (pc : PC K V) :
    rankAfter rank m pc = rank ∨ ∃ cl, pc.climb = some cl ∧ pc.climbing = true ∧
      rankAfter rank m pc = Function.update rank cl.ps (m.nextVer + 1) := by
  cases pc with
  | refresh cl r again f cs =>
      by_cases h : f.main = true ∧ f.pos = .cas ∧ (m.node f.x).version = f.oldVer
      · exact .inr ⟨cl, rfl, rfl, if_pos h⟩
      · exact .inl (if_neg h)
  | _ => exact .inl rfl

theorem le_rankAfter (hle : ∀ p, rank p ≤ m.nextVer) (pc : PC K V) (p : ℕ) :
    rank p ≤ rankAfter rank m pc p := by
  rcases rankAfter_cases rank m pc with h | ⟨cl, -, -, h⟩
  · rw [h]
  · rw [h]
    by_cases hp : p = cl.ps
    · have := hle p
      rw [hp] at this ⊢
      rw [Function.update_self]
      omega
    · rw [Function.update_of_ne hp]

theorem rankAfter_of_ne {p : ℕ} (h : ∀ cl, pc.climb = some cl → cl.ps ≠ p) :
    rankAfter rank m pc p = rank p := by
  rcases rankAfter_cases rank m pc with he | ⟨cl, hcl, -, he⟩
  · rw [he]
  · rw [he, Function.update_of_ne (h cl hcl).symm]

/-- A call that does not install a version of its thread leaves the ranks as they are. -/
theorem rankAfter_refresh {cl : Climb K V} {r : ℕ} {again : Bool} {f : Frame K}
    {cs : List (Frame K)} (h : f.main = true → f.pos = .cas → (m.node f.x).version ≠ f.oldVer) :
    rankAfter rank m (.refresh cl r again f cs) = rank :=
  if_neg fun hc => h hc.1 hc.2.1 hc.2.2

omit [LinearOrder K] in
theorem inserted_rank (cl : Climb K V) (r : ℕ) : PcRank rank m (inserted cfg cl r) := by
  unfold inserted
  simp only
  split_ifs <;> trivial

omit [LinearOrder K] in
theorem PcRank.start (cl : Climb K V) (r : ℕ) (again : Bool) (var : Variant) :
    PcRank rank m (.refresh cl r again (.start var r true) []) := by
  intro g hg _ hl
  rw [List.mem_singleton.mp hg] at hl
  simp only [Frame.start] at hl
  split_ifs at hl <;> cases hl

omit [LinearOrder K] in
/-- A thread that will delegate has a record of a larger rank to delegate to. -/
theorem refreshed_rank {cl : Climb K V} {r : ℕ} {again ok : Bool} {curps : ℕ}
    (hS : PcStatus cfg m (refreshed cfg cl r again ok curps))
    (h : curps ≠ 0 → curps ≠ cl.ps → rank cl.ps < rank curps) :
    PcRank rank m (refreshed cfg cl r again ok curps) := by
  unfold refreshed at hS ⊢
  cases hvar : cfg.variant with
  | bat =>
      simp only
      split_ifs
      · exact inserted_rank ..
      · exact .start _ _ _ _
  | eagerDel =>
      rw [hvar] at hS
      simp only at hS ⊢
      split_ifs at hS ⊢ with hc
      · exact inserted_rank ..
      · exact h hS hc
  | del =>
      rw [hvar] at hS
      simp only at hS ⊢
      split_ifs at hS ⊢ with hc ha
      · exact inserted_rank ..
      · exact h hS hc
      · exact .start _ _ _ _

/-! ### The thread that makes the step -/

/-- **The calls of a refresh after one access.** -/
theorem PcRank.run {cl : Climb K V} {r : ℕ} {again : Bool} {f f' : Frame K}
    {cs cs' : List (Frame K)} {vs : List (Ver K)}
    (h : FrameStep cfg.variant m cl.ps f cs m' vs (.run f' cs')) (hF : FramesFit cfg m f cs)
    (hS : PcStatus cfg m (.refresh cl r again f cs)) (hle : rank cl.ps ≤ m.nextVer)
    (hR : PcRank rank m (.refresh cl r again f cs)) :
    PcRank (rankAfter rank m (.refresh cl r again f cs)) m'
      (.refresh { cl with toRetire := cl.toRetire ++ vs } r again f' cs') := by
  intro g hg hm hl hne
  have hx : f.main = true → f.x = r := (hS.2 f (by simp)).x
  cases h.next hF hg with
  | caller hc =>
      -- the active call is nested, what it installs is newer than all versions of the thread
      have hf := hF.nested.main_eq hc
      rw [rankAfter_refresh fun h => absurd h (by simp [hf])]
      rcases h.version (hF.each f (by simp)).internal r with he | ⟨_, _, _, he⟩
      · rw [he] at hne ⊢
        exact hR g (by simp [hc]) hm hl hne
      · rw [he]
        exact hle
  | call y => exact nomatch hm
  | goes hg' hr =>
      rw [hg'.oldVer] at hne
      rw [rankAfter_refresh fun hm' _ => hx hm' ▸ hne]
      exact hR f (by simp) (hg'.main.symm.trans hm) (hg'.loaded hl) hne
  | loaded hp hvar => exact absurd (by rw [hx hm]) hne
  | again hp he hvar hm' =>
      rw [← hx hm', install_version_self] at hne
      exact absurd rfl hne

/-- **A step of `propagate` keeps what its thread knows of the ranks.** -/
theorem PropStep.pcRank (h : PropStep cfg m pc m' pc') (hF : PcFit cfg m pc)
    (hS : PcStatus cfg m pc) (hS' : PcStatus cfg m' pc') (hle : ∀ p, rank p ≤ m.nextVer)
    (hst : ∀ f : Frame K, f ∈ pc.frames → (m.node f.x).version.status ≠ 0 →
      (m.node f.x).version.addr < rank (m.node f.x).version.status)
    (hR : PcRank rank m pc) : PcRank (rankAfter rank m pc) m' pc' := by
  cases h with
  | @run cl r again f cs m' vs f' cs' h => exact .run h hF hS (hle _) hR
  | @returned cl r again f cs m' vs ok curps h =>
      obtain ⟨rfl, hm, hret⟩ := h.returns hF
      refine refreshed_rank hS' fun h0 hne => ?_
      cases hret with
      | swapped | unchanged => exact absurd rfl hne
      | failed hp ho =>
          rw [rankAfter_refresh fun _ _ => ho]
          have hx := (hS.2 f (by simp)).x hm
          have hlt := hst f (by simp [PC.frames]) h0
          have hr := hR f (by simp) hm (by rw [hp]; rfl) (hx ▸ ho)
          rw [hx] at hlt ⊢
          exact Nat.lt_of_le_of_lt hr hlt
  | pop hst hc => exact .start _ _ _ _
  | marked h => exact inserted_rank ..
  | delegate h => split_ifs <;> trivial
  | _ => trivial

/-! ### All threads -/

section Runs

variable {s s' : State K V} {i j : ℕ}

/-- **The versions after a step**: those of old nodes stay or are replaced by a new one, which is
below the new rank of the record that it carries.  New nodes start without a record. -/
theorem ExecKind.versions (rank : ℕ → ℕ) (hk : ExecKind cfg s.mem (s.pc i) m' pc')
    (hI : Inv cfg s) (hV : VInv cfg s) {x : ℕ} (hx : x < m'.next) :
    x < s.mem.next ∧ ((m'.node x).version = (s.mem.node x).version ∨
      (m'.node x).version.addr = s.mem.nextVer ∧ ((m'.node x).version.status ≠ 0 →
        s.mem.nextVer < rankAfter rank s.mem (s.pc i) (m'.node x).version.status)) ∨
    s.mem.next ≤ x ∧ (m'.node x).version.status = 0 := by
  obtain ⟨t, hB⟩ := hI.base
  cases hk with
  | still => exact .inl ⟨hx, .inl rfl⟩
  | freeze => exact .inl ⟨hx, .inl (freeze_version ..)⟩
  | swing hpc =>
      obtain ⟨old, hc⟩ := hI.commit hpc
      rcases hc.lt_next_cases hx with hlt | ⟨j, hj, rfl⟩
      · exact .inl ⟨hlt, .inl (hc.swing_version hlt)⟩
      · refine .inr ⟨Nat.le_add_right .., ?_⟩
        cases hc.firstVersion hB.tree hj with
        | leaf a s hl hv | bare hl hv | pair a l r hl hr hl0 hr0 hll hrl hv => rw [hv]; rfl
  | prop h =>
      rw [h.quiet.next] at hx
      refine .inl ⟨hx, (h.version (hV.pcs i) x).imp_right ?_⟩
      rintro ⟨cl, r, again, f, cs, hpc, hp, rfl, ho, hv⟩
      rw [hv, hpc]
      refine ⟨rfl, fun hs => ?_⟩
      have hm : f.main = true := by
        by_contra hm
        exact hs (if_neg hm)
      have hps : (f.newVer s.mem cl.ps).status = cl.ps := if_pos hm
      rw [hps, rankAfter, if_pos ⟨hm, hp, ho⟩, Function.update_self]
      exact Nat.lt_succ_self _

/-- The threads that do not make the step keep what they know of the ranks. -/
theorem PcRank.other (hR : Ranked s rank) (hk : ExecKind cfg s.mem (s.pc i) m' pc')
    (hI : Inv cfg s) (hV : VInv cfg s) (hS : StatusInv cfg s) (hv : cfg.variant ≠ .bat)
    (hij : j ≠ i) : PcRank (rankAfter rank s.mem (s.pc i)) m' (s.pc j) := by
  have h := hR.pcs j
  have hok := hI.pcs j
  have hdis := fun cl cl' => hS.distinct hv i j cl cl' hij.symm
  generalize s.pc j = pc at h hok hdis
  cases pc with
  | refresh cl r again f cs =>
      intro g hg hm hl hne
      have hr := hok.1.stack.lt r (by simp)
      rw [rankAfter_of_ne fun cl' hcl' => hdis cl' cl hcl' rfl]
      obtain ⟨-, he | ⟨he, -⟩⟩ | ⟨hge, -⟩ :=
        hk.versions rank hI hV (hr.trans_le (hI.later hk).next)
      · rw [he] at hne ⊢
        exact h g hg hm hl hne
      · rw [he]
        exact hR.le _
      · omega
  | propMark cl r curps =>
      have := le_rankAfter hR.le (s.pc i) curps
      have hlt : rank cl.ps < rank curps := h
      rw [PcRank, rankAfter_of_ne fun cl' hcl' => hdis cl' cl hcl' rfl]
      omega
  | _ => trivial

/-- A delegatee is an old one, or the thread that makes the step has just chosen it. -/
theorem ExecKind.delegates {m : Mem K V} (hk : ExecKind cfg m pc m' pc') {p q : ℕ}
    (h : Delegates m' p q) : Delegates m p q ∨ ∃ cl r, pc = .propMark cl r q ∧ cl.ps = p := by
  obtain ⟨hd, hq⟩ := h
  cases hk with
  | still | freeze => exact .inl ⟨hd, hq⟩
  | swing => exact .inl ⟨by simpa using hd, hq⟩
  | prop h =>
      cases h with
      | start c hv =>
          by_cases hp : p = m.nextStatus
          · simp [hp] at hd
            exact absurd hd.symm hq
          · exact .inl ⟨by simpa [hp] using hd, hq⟩
      | @delegate cl r curps h =>
          by_cases hp : p = cl.ps
          · simp [hp] at hd
            exact .inr ⟨cl, r, by rw [hd], hp.symm⟩
          · exact .inl ⟨by simpa [hp] using hd, hq⟩
      | @setDone cl =>
          by_cases hp : p = cl.ps
          · simp [hp] at hd
            exact .inl ⟨hp ▸ hd, hq⟩
          · exact .inl ⟨by simpa [hp] using hd, hq⟩
      | run h | returned h => exact .inl ⟨by rwa [h.record.1] at hd, hq⟩
      | _ => exact .inl ⟨hd, hq⟩

omit [LinearOrder K] in
theorem FrameStep.nextVer_of_cas [DecidableEq K] {var : Variant} {ps : ℕ} {f : Frame K}
    {cs : List (Frame K)} {vs : List (Ver K)} {res : FrameResult K}
    (h : FrameStep var m ps f cs m' vs res) (hp : f.pos = .cas)
    (ho : (m.node f.x).version = f.oldVer) : m'.nextVer = m.nextVer + 1 := by
  cases h with
  | casOk | casAgain => rfl
  | casFail hp' hne => exact absurd ho hne
  | _ => simp_all

/-- The new ranks are below the new addresses. -/
theorem ExecKind.rankAfter_le {m : Mem K V} (hk : ExecKind cfg m pc m' pc')
    (hle : ∀ p, rank p ≤ m.nextVer) (hn : m.nextVer ≤ m'.nextVer) (p : ℕ) :
    rankAfter rank m pc p ≤ m'.nextVer := by
  have hold : rank p ≤ m'.nextVer := (hle p).trans hn
  cases pc with
  | refresh cl r again f cs =>
      by_cases hc : f.main = true ∧ f.pos = .cas ∧ (m.node f.x).version = f.oldVer
      · have hnew : m'.nextVer = m.nextVer + 1 := by
          cases hk.propStep rfl with
          | run h | returned h => exact h.nextVer_of_cas hc.2.1 hc.2.2
        rw [rankAfter, if_pos hc]
        by_cases hp : p = cl.ps
        · rw [hp, Function.update_self, hnew]
        · rw [Function.update_of_ne hp]
          exact hold
      · rw [rankAfter, if_neg hc]
        exact hold
  | _ => exact hold

/-- **Every step keeps the ranks**, once the thread that installs a version has risen. -/
theorem Ranked.step (hR : Ranked s rank) (hI : Inv cfg s) (hV : VInv cfg s) (hS : StatusInv cfg s)
    (hv : cfg.variant ≠ .bat) (h : Step cfg s i s') :
    Ranked s' (rankAfter rank s.mem (s.pc i)) := by
  have hS' := hS.step hI hV h
  obtain ⟨m', pc', rfl, hk⟩ := h.kind
  have hl := hI.later hk
  have hle := le_rankAfter hR.le (s.pc i)
  refine ⟨hk.rankAfter_le hR.le hl.nextVer, fun p hp => ?_, fun x hx h0 => ?_, fun p q hpq => ?_,
    forall_set ?_ fun j hj => .other hR hk hI hV hS hv hj⟩
  · have hp' : s.mem.nextStatus ≤ p := hk.record.nextStatus_le.trans hp
    rw [rankAfter_of_ne fun cl hcl => by have := hS.bound hv i cl hcl; omega]
    exact hR.new p hp'
  · rw [State.set_mem] at h0 ⊢
    rcases hk.versions rank hI hV hx with ⟨hlt, he | ⟨ha, hr⟩⟩ | ⟨-, he⟩
    · rw [he] at h0 ⊢
      exact (hR.stored x hlt h0).trans_le (hle _)
    · rw [ha]
      exact hr h0
    · exact absurd he h0
  · rcases hk.delegates hpq with hd | ⟨cl, r, hpc, rfl⟩
    · -- a climbing thread has not delegated, so the rank of `p` stays
      have hp : rankAfter rank s.mem (s.pc i) p = rank p := by
        rcases rankAfter_cases rank s.mem (s.pc i) with he | ⟨cl, hcl, hup, he⟩
        · rw [he]
        · rw [he, Function.update_of_ne]
          rintro rfl
          have := hS.clear hv i cl hup hcl
          rw [Delegates, this] at hd
          exact hd.2 hd.1.symm
      rw [hp]
      exact (hR.edge p q hd).trans_le (hle q)
    · have := hR.pcs i
      rw [hpc] at this ⊢
      exact this
  · have hR' := hR.pcs i
    have hpcs : PcStatus cfg m' pc' := by
      have := hS'.pcs i
      rwa [State.set_pc_self] at this
    have hnone : ∀ {pc : PC K V}, pc.early = true →
        PcRank (rankAfter rank s.mem (s.pc i)) m' pc := fun {pc} h => by cases pc <;> trivial
    cases hk with
    | still h h' => exact hnone h'
    | prop h =>
        refine h.pcRank (hV.pcs i) (hS.pcs i) hpcs hR.le (fun f hf => ?_) hR'
        exact hR.stored f.x ((hI.pcs i).frameOk hf).x
    | freeze => trivial
    | swing => exact hnone (finished_early ..)

omit [LinearOrder K] in
theorem ranked_init (cfg : Cfg K V) : Ranked (State.init cfg) fun _ => 0 where
  le := fun _ => Nat.zero_le _
  new := fun _ _ => rfl
  stored := fun x _ h => by
    simp only [State.init, Mem.init] at h
    split_ifs at h <;> exact absurd rfl h
  edge := fun p q h => absurd h.1.symm h.2
  pcs := fun _ => trivial

/-- **In every reachable state the records have ranks.** -/
theorem Reachable.ranked (h : Reachable cfg s) (hv : cfg.variant ≠ .bat) :
    ∃ rank, Ranked s rank := by
  induction h with
  | refl => exact ⟨_, ranked_init cfg⟩
  | tail hr hs ih =>
      obtain ⟨i, hs⟩ := hs
      obtain ⟨rank, hR⟩ := ih
      exact ⟨_, hR.step (Reachable.inv hr) (Reachable.vInv hr) (Reachable.status hr) hv hs⟩

end Runs

end Ranks

/-! ### Who completes a record -/

/-- The thread still has to complete the record: it is on its way up, it waits for its delegatee, or
it is about to set the record to done. -/
def Pursues (m : Mem K V) (p : ℕ) : PC K V → Prop
  | .propChild cl | .propTest cl _ | .refresh cl _ _ _ _ | .propMark cl _ _ | .setDone cl =>
      cl.ps = p
  | .waitDone cl _ | .waitPtr cl _ => cl.ps = p ∧ (m.status p).delegatee ≠ 0
  | _ => False

section Pursues

variable [LinearOrder K] {cfg : Cfg K V} {m m' : Mem K V} {pc pc' : PC K V} {p : ℕ}

omit [LinearOrder K] in
theorem Pursues.climb (h : Pursues m p pc) : ∃ cl, pc.climb = some cl ∧ cl.ps = p := by
  cases pc with
  | propChild | propTest | refresh | propMark | setDone => exact ⟨_, rfl, h⟩
  | waitDone | waitPtr => exact ⟨_, rfl, h.1⟩
  | _ => exact h.elim

omit [LinearOrder K] in
/-- A thread that has not delegated does not wait. -/
theorem Pursues.active (h : Pursues m p pc) (h0 : (m.status p).delegatee = 0) :
    ∃ cl, pc.climb = some cl ∧ cl.ps = p ∧ (pc.climbing = true ∨ pc = .setDone cl) := by
  cases pc with
  | propChild | propTest | refresh | propMark => exact ⟨_, rfl, h, .inl rfl⟩
  | setDone => exact ⟨_, rfl, h, .inr rfl⟩
  | waitDone | waitPtr => exact absurd h0 h.2
  | _ => exact h.elim

omit [LinearOrder K] in
theorem Pursues.congr (h : Pursues m p pc) (hs : m'.status p = m.status p) : Pursues m' p pc := by
  cases pc with
  | waitDone | waitPtr => exact ⟨h.1, hs ▸ h.2⟩
  | _ => exact h

omit [LinearOrder K] in
theorem inserted_pursues {cl : Climb K V} {r : ℕ} (hv : cfg.variant ≠ .bat) :
    Pursues m cl.ps (inserted cfg cl r) := by
  unfold inserted
  simp only
  split_ifs <;> exact rfl

omit [LinearOrder K] in
theorem refreshed_pursues {cl : Climb K V} {r : ℕ} {again ok : Bool} {curps : ℕ}
    (hv : cfg.variant ≠ .bat) : Pursues m cl.ps (refreshed cfg cl r again ok curps) := by
  unfold refreshed
  cases hvar : cfg.variant with
  | bat => exact absurd hvar hv
  | eagerDel | del =>
      simp only
      split_ifs <;> first | exact inserted_pursues hv | exact rfl

/-- **A step of `propagate` leaves its record done, or still to be completed by the thread.** -/
theorem PropStep.pursues (h : PropStep cfg m pc m' pc') (hok : PcOk cfg m pc)
    (hS : PcStatus cfg m pc) (hv : cfg.variant ≠ .bat) (hp : Pursues m p pc) :
    (m'.status p).done = true ∨ Pursues m' p pc' := by
  cases h with
  | startBat | start | retire | ret => exact hp.elim
  | emptyChild hst => exact absurd hst hok.stack.toTrail.ne_nil
  | emptyPop hst => exact absurd hst hok.1.stack.toTrail.ne_nil
  | child | push | pop | run => exact .inr hp
  | returned h => exact .inr (hp ▸ refreshed_pursues hv)
  | marked h => exact .inr (hp ▸ inserted_pursues hv)
  | @delegate cl r curps h =>
      obtain rfl : cl.ps = p := hp
      have h0 : curps ≠ 0 := hS
      rw [if_neg h0]
      exact .inr ⟨rfl, by simpa using h0⟩
  | seen h => exact .inr hp.1
  | wait h | follow => exact .inr hp
  | @setDone cl =>
      obtain rfl : cl.ps = p := hp
      exact .inl (by simp)

/-- A record that is done stays so. -/
theorem ExecKind.done (hk : ExecKind cfg m pc m' pc') (hp : p < m.nextStatus)
    (h : (m.status p).done = true) : (m'.status p).done = true := by
  cases hk with
  | still | freeze => exact h
  | swing => simpa using h
  | prop hs =>
      cases hs with
      | start => simpa [hp.ne] using h
      | @delegate cl | @setDone cl =>
          by_cases hc : p = cl.ps
          · subst hc
            simp [h]
          · simpa [hc] using h
      | run hf | returned hf => rwa [hf.record.1]
      | _ => exact h

/-- A new record is to be completed by the thread that has allocated it. -/
theorem ExecKind.pursues_new (hk : ExecKind cfg m pc m' pc') (hp : m.nextStatus ≤ p)
    (hp' : p < m'.nextStatus) : Pursues m' p pc' := by
  have hsame : m'.nextStatus = m.nextStatus → Pursues m' p pc' := fun h => by omega
  cases hk with
  | still | freeze => exact hsame rfl
  | swing => exact hsame (by simp)
  | prop hs =>
      cases hs with
      | start => exact Nat.le_antisymm hp (Nat.lt_succ_iff.mp hp')
      | run hf | returned hf => exact hsame hf.record.2
      | _ => exact hsame rfl

variable {s s' : State K V} {i : ℕ}

/-- **Every record is done, or a thread is still to complete it.** -/
def Pursued (s : State K V) : Prop :=
  ∀ p, 0 < p → p < s.mem.nextStatus →
    (s.mem.status p).done = true ∨ ∃ j, Pursues s.mem p (s.pc j)

theorem Pursued.step (hP : Pursued s) (hI : Inv cfg s) (hS : StatusInv cfg s)
    (hv : cfg.variant ≠ .bat) (h : Step cfg s i s') : Pursued s' := by
  obtain ⟨m', pc', rfl, hk⟩ := h.kind
  intro p hp hlt
  have hself : Pursues m' p pc' → ∃ j, Pursues m' p ((s.set m' i pc').pc j) := fun h =>
    ⟨i, by rwa [State.set_pc_self]⟩
  by_cases hold : p < s.mem.nextStatus
  · rcases hP p hp hold with hd | ⟨j, hj⟩
    · exact .inl (hk.done hold hd)
    · obtain ⟨cl, hcl, rfl⟩ := hj.climb
      by_cases hji : j = i
      · subst hji
        have hs := hk.propStep (PC.climb_propagating hcl)
        exact (hs.pursues (hI.pcs j) (hS.pcs j) hv hj).imp_right hself
      · refine .inr ⟨j, ?_⟩
        rw [State.set_pc_of_ne _ _ _ hji]
        exact hj.congr (hk.record.status_of_ne hold fun cl' hcl' =>
          hS.distinct hv i j cl' cl (Ne.symm hji) hcl' hcl)
  · exact .inr (hself (hk.pursues_new (Nat.le_of_not_lt hold) hlt))

theorem Reachable.pursued (h : Reachable cfg s) (hv : cfg.variant ≠ .bat) : Pursued s := by
  induction h with
  | refl =>
      intro p hp hlt
      have : p < 1 := hlt
      omega
  | tail hr hs ih =>
      obtain ⟨i, hs⟩ := hs
      exact ih.step (Reachable.inv hr) (Reachable.status hr) hv hs

/-! ### No deadlock -/

omit [LinearOrder K] in
/-- The ranks rise along a chain of delegatees. -/
theorem Ranked.chain {rank : ℕ → ℕ} (hR : Ranked s rank) {p q : ℕ}
    (h : Relation.TransGen (Delegates s.mem) p q) : rank p < rank q := by
  induction h with
  | single h => exact hR.edge _ _ h
  | tail _ h ih => exact ih.trans (hR.edge _ _ h)

omit [LinearOrder K] in
/-- **Every chain of delegatees ends**, since the ranks are bounded. -/
theorem Ranked.ends {rank : ℕ → ℕ} (hR : Ranked s rank) {p : ℕ} (hp : p < s.mem.nextStatus) :
    ∃ q, Relation.ReflTransGen (Delegates s.mem) p q ∧ (s.mem.status q).delegatee = 0 ∧
      q < s.mem.nextStatus ∧ (p ≠ 0 → q ≠ 0) := by
  induction hn : s.mem.nextVer - rank p using Nat.strong_induction_on generalizing p with
  | _ n ih =>
      by_cases h0 : (s.mem.status p).delegatee = 0
      · exact ⟨p, .refl, h0, hp, id⟩
      · have hd : Delegates s.mem p (s.mem.status p).delegatee := ⟨rfl, h0⟩
        have hlt := hR.edge _ _ hd
        have hle := hR.le (s.mem.status p).delegatee
        have hq : (s.mem.status p).delegatee < s.mem.nextStatus := by
          by_contra hge
          have := hR.new _ (Nat.le_of_not_lt hge)
          omega
        obtain ⟨q, hpq, hq0, hqn, hne⟩ := ih _ (by omega) hq rfl
        exact ⟨q, hpq.head hd, hq0, hqn, fun _ => hne h0⟩

/-- **Delegation never deadlocks.**  In every reachable state no call of `propagate` has delegated
to itself, directly or through others.  If one waits, the delegatees that follow from it end at a
call that has not delegated, and which is done, or whose thread is on its way up or has arrived and
is about to set it to done. -/
theorem delegation_never_deadlocks (h : Reachable cfg s) (hv : cfg.variant ≠ .bat) :
    (∀ p, ¬ Relation.TransGen (Delegates s.mem) p p) ∧
    (∀ p, ¬ Delegates s.mem p p) ∧
    ∀ i cl d, s.pc i = .waitDone cl d ∨ s.pc i = .waitPtr cl d →
      ∃ q, Relation.ReflTransGen (Delegates s.mem) cl.ps q ∧ (s.mem.status q).delegatee = 0 ∧
        ((s.mem.status q).done = true ∨ ∃ j cl', (s.pc j).climb = some cl' ∧ cl'.ps = q ∧
          ((s.pc j).climbing = true ∨ s.pc j = .setDone cl')) := by
  obtain ⟨rank, hR⟩ := h.ranked hv
  have hno : ∀ p, ¬ Relation.TransGen (Delegates s.mem) p p := fun p hp =>
    Nat.lt_irrefl _ (hR.chain hp)
  refine ⟨hno, fun p hp => hno p (.single hp), fun i cl d hpc => ?_⟩
  have hcl : (s.pc i).climb = some cl := by rcases hpc with hpc | hpc <;> rw [hpc] <;> rfl
  obtain ⟨hps, hlt⟩ := h.status.bound hv i cl hcl
  obtain ⟨q, hq, hq0, hqn, hne⟩ := hR.ends hlt
  refine ⟨q, hq, hq0, ?_⟩
  refine (h.pursued hv q (Nat.pos_of_ne_zero (hne hps)) hqn).imp_right ?_
  rintro ⟨j, hj⟩
  exact ⟨j, hj.active hq0⟩

end Pursues

/-- Thread 1 has lost the CAS at the root against thread 2 and waits for it. -/
def waitingPair : State ℕ ℕ :=
  (State.init (natCfg .eagerDel)).run (natCfg .eagerDel)
    [.call 1 (.insertIfAbsent 3 7), .steps 1 20, .call 2 (.insertIfAbsent 5 8), .steps 2 47,
      .steps 1 2]

theorem waitingPair_ends : ∃ cl, waitingPair.pc 1 = .waitDone cl 2 ∧
    ∃ q, Relation.ReflTransGen (Delegates waitingPair.mem) cl.ps q ∧
      (waitingPair.mem.status q).delegatee = 0 ∧
        ((waitingPair.mem.status q).done = true ∨ ∃ j cl', (waitingPair.pc j).climb = some cl' ∧
          cl'.ps = q ∧ ((waitingPair.pc j).climbing = true ∨ waitingPair.pc j = .setDone cl')) :=
  ⟨_, rfl, (delegation_never_deadlocks (Reachable.run .refl _) (by decide)).2.2 1 _ 2 (.inl rfl)⟩

end Cbat
