/-
**The status records of the delegating variants.**

A `propagate` of the delegating variants owns a status record, and the versions that its refreshes
install carry it.  A refresh whose CAS fails reads the record of the version that it finds.  The
invariant of this module says what this record can be: it is not that of the thread itself, so a
failed CAS is not taken for a successful one, and in the last attempt it is not null, so that there
is somebody to wait for.

Main definitions:

* `Cbat.PC.climb` — the local variables of a running `propagate`;
* `Cbat.FrameStatus` — what a refresh knows of the version that it compares with;
* `Cbat.StatusInv` — **the invariant of the status records**.

Main results:

* `Cbat.Reachable.status` — it holds in every reachable state;
* `Cbat.delegatee_ne_null` — **the record to wait for is never null**.
-/

import Cbat.Settled

set_option relaxedAutoImplicit false
set_option autoImplicit false

namespace Cbat

variable {K V : Type}

/-- The local variables of a running `propagate`. -/
def PC.climb : PC K V → Option (Climb K V)
  | .propChild cl | .propTest cl _ | .refresh cl _ _ _ _ | .propMark cl _ _ | .waitDone cl _
  | .waitPtr cl _ | .setDone cl | .retire cl _ => some cl
  | _ => none

/-- `propagate` is on its way up: it neither waits nor has it finished. -/
def PC.climbing : PC K V → Bool
  | .propChild _ | .propTest _ _ | .refresh _ _ _ _ _ | .propMark _ _ _ => true
  | _ => false

/-- **What a refresh of `r` knows of the version that its CAS expects.**  A nested call fills in a
version and expects none.  If the version of `r` is another one by now, then another thread has
installed it. -/
structure FrameStatus (var : Variant) (m : Mem K V) (ps r : ℕ) (again : Bool) (g : Frame K) :
    Prop where
  x : g.main = true → g.x = r
  first : g.pos.loaded = false → (g.pos = .loadOld ↔ ¬ (g.main = true ∧ var = .eagerDel))
  nested : var ≠ .bat → g.main = false → g.oldVer = .nil
  there : g.main = true → g.pos.loaded = true → var = .eagerDel ∨ again = true → g.oldVer ≠ .nil
  other : var ≠ .bat → g.main = true → g.pos.loaded = true → (m.node r).version ≠ g.oldVer →
    (m.node r).version.status ≠ ps ∧ (g.oldVer ≠ .nil → (m.node r).version.status ≠ 0)
  prev : ∀ l r, g.prev = some (l, r) →
    g.pos.loaded = true ∧ ∃ a k s st, g.oldVer = .mk a k s l r st

section Frames

variable {var : Variant} {m m' : Mem K V} {ps r : ℕ} {again : Bool} {f g : Frame K}
  {cs : List (Frame K)}

/-- The start of a call. -/
theorem FrameStatus.start (y : ℕ) (main : Bool) (hy : main = true → y = r) :
    FrameStatus var m ps r again (.start var y main) := by
  have hl : (Frame.start (K := K) var y main).pos.loaded = false := by
    simp only [Frame.start]
    split_ifs <;> rfl
  refine ⟨hy, fun _ => ?_, fun _ _ => rfl, fun _ h => ?_, fun _ _ h => ?_, by intro _ _ h; cases h⟩
  · simp only [Frame.start]
    split_ifs with h <;> simp [h]
  all_goals rw [hl] at h; cases h

/-- A call goes on. -/
theorem FrameStatus.goes (h : FrameStatus var m ps r again f) (hg : GoesOn f g) :
    FrameStatus var m ps r again g where
  x := fun hm => hg.x.trans (h.x (hg.main.symm.trans hm))
  first := fun hl => by
    obtain ⟨hf, hp⟩ := hg.reload hl
    have := h.first (by rw [hf]; rfl)
    rw [hg.main, ← this, hf, hp]
    exact iff_of_false nofun nofun
  nested := fun hv hm => hg.oldVer.trans (h.nested hv (hg.main.symm.trans hm))
  there := fun hm hl hv => by
    rw [hg.oldVer]
    exact h.there (hg.main.symm.trans hm) (hg.loaded hl) hv
  other := fun hv hm hl => by
    rw [hg.oldVer]
    exact h.other hv (hg.main.symm.trans hm) (hg.loaded hl)
  prev := fun l r' hp => by
    obtain ⟨hl, ho⟩ := h.prev l r' (hg.prev.symm.trans hp)
    refine ⟨?_, hg.oldVer ▸ ho⟩
    by_contra hl'
    rw [(hg.reload (Bool.eq_false_iff.mpr hl')).1] at hl
    exact nomatch hl

/-- **A version that another call installs carries another record.** -/
theorem FrameStatus.version (h : FrameStatus var m ps r again g)
    (hold : g.oldVer ≠ .nil → (m.node g.x).version ≠ .nil)
    (hv : (m'.node r).version = (m.node r).version ∨ (var ≠ .bat →
      (m'.node r).version.status ≠ ps ∧
        ((m'.node r).version.status = 0 → (m.node r).version = .nil))) :
    FrameStatus var m' ps r again g := by
  refine ⟨h.x, h.first, h.nested, h.there, fun hvar hm hl hne => ?_, h.prev⟩
  rcases hv with hv | hv
  · rw [hv] at hne ⊢
    exact h.other hvar hm hl hne
  · obtain ⟨hps, h0⟩ := hv hvar
    exact ⟨hps, fun ho hs => hold ho (h.x hm ▸ h0 hs)⟩

/-- **The calls of a refresh after one access.** -/
theorem NextFrame.status (h : NextFrame var m ps f cs m' g)
    (hcs : ∀ g ∈ cs, FrameStatus var m' ps r again g) (hf : FrameStatus var m ps r again f)
    (hh : HeadOk m f) (ha : again = true → (m.node r).version ≠ .nil) :
    FrameStatus var m' ps r again g := by
  cases h with
  | caller h => exact hcs g h
  | call y => exact .start y false nofun
  | goes h hr => exact hf.goes h
  | loaded hp hvar =>
      have hl : f.pos.loaded = false := by rcases hp with hp | hp <;> rw [hp] <;> rfl
      refine ⟨hf.x, nofun, fun hb hm => ?_, fun hm _ hv => ?_, fun _ hm _ hne => ?_,
        fun l r' hp => absurd (hf.prev l r' hp).1 (by simp [hl])⟩
      · refine hvar ((hf.first hl).mpr fun h => ?_) hb hm
        rw [show f.main = false from hm] at h
        exact nomatch h.1
      · rcases hp with hp | hp
        · exact hh.old hp
        · rcases hv with hv | hv
          · exact absurd ⟨hm, hv⟩ ((hf.first hl).mp hp)
          · exact hf.x hm ▸ ha hv
      · exact absurd (by rw [hf.x hm]) hne
  | again hp he hvar hm =>
      have hx := hf.x hm
      refine ⟨hf.x, nofun, fun _ hm' => ?_, fun _ _ _ => nofun, fun _ _ _ hne => ?_, ?_⟩
      · rw [show f.main = false from hm'] at hm
        exact nomatch hm
      · rw [← hx, install_version_self] at hne
        exact absurd rfl hne
      · intro l r' hlr
        obtain ⟨rfl, rfl⟩ := Prod.mk.inj (Option.some.inj hlr)
        exact ⟨rfl, _, _, _, _, rfl⟩

end Frames

/-! ### The threads -/

section Threads

variable [LinearOrder K] {cfg : Cfg K V} {m m' : Mem K V} {t : LTree (Cell K V)} {pc pc' : PC K V}

/-- What is known of the status records at each program counter. -/
def PcStatus (cfg : Cfg K V) (m : Mem K V) : PC K V → Prop
  | .refresh cl r again f cs => (again = true → (m.node r).version ≠ .nil) ∧
      ∀ g ∈ f :: cs, FrameStatus cfg.variant m cl.ps r again g
  | .propMark _ _ curps => curps ≠ 0
  | _ => True

/-- The version was installed by the thread: it carries its record, or none if it fills in the
version of a node that had none. -/
def Owns (cfg : Cfg K V) (m : Mem K V) (pc : PC K V) (v : Ver K) (x : ℕ) : Prop :=
  ∃ cl, pc.climb = some cl ∧ (v.status = cl.ps ∨ v.status = 0 ∧
    (cfg.variant ≠ .bat → (m.node x).version = .nil))

theorem PropStep.owns (h : PropStep cfg m pc m' pc') (hF : PcFit cfg m pc)
    (hS : PcStatus cfg m pc) (y : ℕ) :
    (m'.node y).version = (m.node y).version ∨ Owns cfg m pc (m'.node y).version y := by
  refine (h.version hF y).imp_right fun ⟨cl, r, again, f, cs, hpc, _, hx, ho, hv⟩ => ?_
  subst hpc
  refine ⟨cl, rfl, ?_⟩
  rw [hv]
  cases hm : f.main with
  | true => exact .inl (if_pos hm)
  | false =>
      refine .inr ⟨if_neg (by simp [hm]), fun hb => ho.trans ?_⟩
      exact (hS.2 f (by simp)).nested hb hm

omit [LinearOrder K] in
theorem inserted_status {cl : Climb K V} {r : ℕ} : PcStatus cfg m (inserted cfg cl r) := by
  unfold inserted
  simp only
  split_ifs <;> trivial

omit [LinearOrder K] in
/-- The active call is a nested one if there is a caller. -/
theorem Nested.main_eq {f g : Frame K} {cs : List (Frame K)} (h : Nested (f :: cs)) (hg : g ∈ cs) :
    f.main = false := by
  cases cs with
  | nil => exact absurd hg (by simp)
  | cons c cs => exact h.1

/-- **A step of `propagate` keeps what its thread knows of the status records.** -/
theorem PropStep.status (h : PropStep cfg m pc m' pc') (hok : PcOk cfg m pc)
    (hF : PcFit cfg m pc) (hS : PcStatus cfg m pc)
    (hps : cfg.variant ≠ .bat → ∀ cl, pc.climb = some cl → cl.ps ≠ 0) : PcStatus cfg m' pc' := by
  have hl : Later cfg m m' := h.quiet.later
  cases h with
  | @run cl r again f cs m' vs f' cs' h =>
      have hr := hok.1.stack.lt r (by simp)
      refine ⟨fun ha hn => hS.1 ha (hl.version r hr hn), fun g hg => ?_⟩
      refine (h.next hF hg).status (fun g hg => ?_) (hS.2 f (by simp)) hF.head hS.1
      refine (hS.2 g (by simp [hg])).version (hF.each g (by simp [hg])).old ?_
      -- a version that a nested call installs carries no record
      refine (h.version (hF.each f (by simp)).internal r).imp_right fun ⟨_, _, ho, hv⟩ hb => ?_
      have hm := hF.nested.main_eq hg
      have h0 : (m'.node r).version.status = 0 := by
        rw [hv]
        exact if_neg (by simp [hm])
      rw [h0]
      exact ⟨fun h => hps hb cl rfl h.symm, fun _ => ho.trans ((hS.2 f (by simp)).nested hb hm)⟩
  | @returned cl r again f cs m' vs ok curps h =>
      obtain ⟨rfl, hm, hret⟩ := h.returns hF
      have hf := hS.2 f (by simp)
      have hfit := hF.each f (by simp)
      have hx := hf.x hm
      -- the version that made the CAS fail
      have hthere : (m.node f.x).version ≠ f.oldVer → (m.node f.x).version ≠ .nil := fun hne hn =>
        hfit.old (fun ho => hne (hn.trans ho.symm)) hn
      have hstart : ∀ var, var = cfg.variant → (m'.node r).version ≠ .nil →
          PcStatus cfg m' (.refresh { cl with toRetire := cl.toRetire ++ vs } r true
            (.start var r true) []) := fun var he hn => by
        subst he
        refine ⟨fun _ => hn, fun g hg => ?_⟩
        rw [List.mem_singleton.mp hg]
        exact .start r true fun _ => rfl
      unfold refreshed
      cases hvar : cfg.variant with
      | bat =>
          simp only
          split_ifs with hc
          · exact inserted_status
          · cases hret with
            | failed hp hne => exact hstart _ hvar.symm (hx ▸ hthere hne)
            | _ => simp at hc
      | eagerDel =>
          simp only
          split_ifs with hc
          · exact inserted_status
          · cases hret with
            | failed hp hne =>
                have hl : f.pos.loaded = true := by rw [hp]; rfl
                rw [hx] at hne ⊢
                exact (hf.other (by rw [hvar]; decide) hm hl hne).2
                  (hf.there hm hl (.inl hvar))
            | _ => exact absurd rfl hc
      | del =>
          simp only
          split_ifs with hc ha
          · exact inserted_status
          · cases hret with
            | failed hp hne =>
                have hl : f.pos.loaded = true := by rw [hp]; rfl
                rw [hx] at hne ⊢
                exact (hf.other (by rw [hvar]; decide) hm hl hne).2
                  (hf.there hm hl (.inr ha))
            | _ => exact absurd rfl hc
          · cases hret with
            | failed hp hne => exact hstart _ hvar.symm (hx ▸ hthere hne)
            | _ => exact absurd rfl hc
  | @pop cl c r st hst hc =>
      refine ⟨nofun, fun g hg => ?_⟩
      rw [List.mem_singleton.mp hg]
      exact .start r true fun _ => rfl
  | marked h => exact inserted_status
  | delegate h => split_ifs <;> trivial
  | _ => trivial

/-- **What a step of `propagate` does to the status records**: nothing, it writes its own when it
stops climbing, or it allocates one. -/
inductive RecordStep (cfg : Cfg K V) (m : Mem K V) (pc : PC K V) (m' : Mem K V) (pc' : PC K V) :
    Prop
  | keep (hs : m'.status = m.status) (hn : m'.nextStatus = m.nextStatus)
      (hcl : ∀ cl', pc'.climb = some cl' → ∃ cl, pc.climb = some cl ∧ cl.ps = cl'.ps)
      (hup : pc'.climbing = true → pc.climbing = true) : RecordStep cfg m pc m' pc'
  | write {cl : Climb K V} {st : PropagateStatus} (hpc : pc.climb = some cl)
      (hs : m'.status = Function.update m.status cl.ps st) (hn : m'.nextStatus = m.nextStatus)
      (hcl : pc'.climb = some cl) (hup : pc'.climbing = false) : RecordStep cfg m pc m' pc'
  | bat (hv : cfg.variant = .bat) (hs : m'.status = m.status) (hn : m'.nextStatus = m.nextStatus) :
      RecordStep cfg m pc m' pc'
  | start (hs : m'.status = Function.update m.status m.nextStatus ⟨0, false⟩)
      (hn : m'.nextStatus = m.nextStatus + 1)
      (hcl : ∀ cl', pc'.climb = some cl' → cl'.ps = m.nextStatus) : RecordStep cfg m pc m' pc'

omit [LinearOrder K] in
theorem FrameStep.record [DecidableEq K] {var : Variant} {ps : ℕ} {f : Frame K}
    {cs : List (Frame K)} {vs : List (Ver K)} {res : FrameResult K}
    (h : FrameStep var m ps f cs m' vs res) :
    m'.status = m.status ∧ m'.nextStatus = m.nextStatus := by
  cases h <;> exact ⟨rfl, rfl⟩

omit [LinearOrder K] in
theorem inserted_climb {cl cl' : Climb K V} {r : ℕ} (h : (inserted cfg cl r).climb = some cl') :
    cl'.ps = cl.ps := by
  unfold inserted at h
  simp only at h
  split_ifs at h <;> cases h <;> rfl

omit [LinearOrder K] in
theorem refreshed_climb {cl cl' : Climb K V} {r : ℕ} {again ok : Bool} {curps : ℕ}
    (h : (refreshed cfg cl r again ok curps).climb = some cl') : cl'.ps = cl.ps := by
  unfold refreshed at h
  cases hv : cfg.variant <;> rw [hv] at h <;> simp only at h <;> split_ifs at h <;>
    first | exact inserted_climb h | (cases h; rfl)

omit [LinearOrder K] in
theorem RecordStep.nextStatus_le (h : RecordStep cfg m pc m' pc') :
    m.nextStatus ≤ m'.nextStatus := by
  cases h <;> omega

omit [LinearOrder K] in
/-- The record of the thread after the step is the one it had, or a new one. -/
theorem RecordStep.ps_cases (h : RecordStep cfg m pc m' pc') (hv : cfg.variant ≠ .bat)
    {cl' : Climb K V} (hcl : pc'.climb = some cl') :
    (∃ cl, pc.climb = some cl ∧ cl.ps = cl'.ps) ∨
      cl'.ps = m.nextStatus ∧ m.nextStatus < m'.nextStatus := by
  cases h with
  | keep hs hn h hup => exact .inl (h cl' hcl)
  | write hpc hs hn h hup =>
      obtain rfl := Option.some.inj (h.symm.trans hcl)
      exact .inl ⟨_, hpc, rfl⟩
  | bat hb => exact absurd hb hv
  | start hs hn h => exact .inr ⟨h cl' hcl, by omega⟩

omit [LinearOrder K] in
/-- The records of the other threads stay. -/
theorem RecordStep.status_of_ne (h : RecordStep cfg m pc m' pc') {a : ℕ} (ha : a < m.nextStatus)
    (hne : ∀ cl, pc.climb = some cl → cl.ps ≠ a) : m'.status a = m.status a := by
  cases h with
  | keep hs | bat hv hs => rw [hs]
  | write hpc hs => rw [hs, Function.update_of_ne (hne _ hpc).symm]
  | start hs => rw [hs, Function.update_of_ne ha.ne]

omit [LinearOrder K] in
/-- The record of a climbing thread is clear. -/
theorem RecordStep.status_clear (h : RecordStep cfg m pc m' pc') (hv : cfg.variant ≠ .bat)
    (hc : ∀ cl, pc.climbing = true → pc.climb = some cl → m.status cl.ps = ⟨0, false⟩)
    {cl' : Climb K V} (hup : pc'.climbing = true) (hcl : pc'.climb = some cl') :
    m'.status cl'.ps = ⟨0, false⟩ := by
  cases h with
  | keep hs hn h hup' =>
      obtain ⟨cl, hpc, he⟩ := h cl' hcl
      rw [hs, ← he, hc cl (hup' hup) hpc]
  | write hpc hs hn h hup' => exact absurd hup (by simp [hup'])
  | bat hb => exact absurd hb hv
  | start hs hn h => rw [hs, h cl' hcl, Function.update_self]

theorem PropStep.record (h : PropStep cfg m pc m' pc') : RecordStep cfg m pc m' pc' := by
  have same : ∀ {cl cl' : Climb K V} {pc : PC K V}, pc.climb = some cl → cl'.ps = cl.ps →
      ∃ cl, pc.climb = some cl ∧ cl.ps = cl'.ps := fun h h' => ⟨_, h, h'.symm⟩
  cases h with
  | startBat c hv => exact .bat hv rfl rfl
  | start c hv => exact .start rfl rfl fun cl' h => by cases h; rfl
  | emptyChild | emptyPop => exact .keep rfl rfl nofun nofun
  | child | push | pop | seen | wait | follow | retire =>
      exact .keep rfl rfl (fun cl' h => by cases h; exact same rfl rfl)
        (by first | exact fun _ => rfl | nofun)
  | run h =>
      exact .keep h.record.1 h.record.2 (fun cl' h => by cases h; exact same rfl rfl) id
  | returned h =>
      exact .keep h.record.1 h.record.2 (fun cl' h => by
        have := refreshed_climb h
        exact same rfl this) fun _ => rfl
  | marked h => exact .keep rfl rfl (fun cl' h => same rfl (inserted_climb h)) fun _ => rfl
  | delegate h => exact .write rfl rfl rfl (by split_ifs <;> rfl) (by split_ifs <;> rfl)
  | setDone => exact .write rfl rfl rfl rfl rfl
  | ret => exact .keep rfl rfl nofun nofun

end Threads

/-! ### All reachable states -/

section Runs

variable [LinearOrder K] {cfg : Cfg K V} {s s' : State K V} {i j : ℕ} {m' : Mem K V} {pc' : PC K V}

/-- **The invariant of the status records**: running calls of `propagate` own different records,
and a record is clear until its owner has stopped climbing. -/
structure StatusInv (cfg : Cfg K V) (s : State K V) : Prop where
  pos : 0 < s.mem.nextStatus
  bound : cfg.variant ≠ .bat → ∀ j cl, (s.pc j).climb = some cl →
    cl.ps ≠ 0 ∧ cl.ps < s.mem.nextStatus
  distinct : cfg.variant ≠ .bat → ∀ i j cl cl', i ≠ j → (s.pc i).climb = some cl →
    (s.pc j).climb = some cl' → cl.ps ≠ cl'.ps
  clear : cfg.variant ≠ .bat → ∀ j cl, (s.pc j).climbing = true → (s.pc j).climb = some cl →
    s.mem.status cl.ps = ⟨0, false⟩
  pcs : ∀ j, PcStatus cfg s.mem (s.pc j)

omit [LinearOrder K] in
theorem PC.early_climb {pc : PC K V} (h : pc.early = true) : pc.climb = none := by
  cases pc <;> first | rfl | cases h

omit [LinearOrder K] in
theorem PC.climbing_climb {pc : PC K V} (h : pc.climb = none) : pc.climbing = false := by
  cases pc <;> first | rfl | cases h

omit [LinearOrder K] in
theorem PC.climb_propagating {pc : PC K V} {cl : Climb K V} (h : pc.climb = some cl) :
    pc.propagating = true := by
  cases pc <;> first | rfl | cases h

/-- A thread in `propagate` makes a step of `propagate`. -/
theorem ExecKind.propStep {m : Mem K V} {pc : PC K V} (h : ExecKind cfg m pc m' pc')
    (hp : pc.propagating = true) : PropStep cfg m pc m' pc' := by
  cases h with
  | still h => rw [h.1] at hp; exact nomatch hp
  | prop h => exact h
  | freeze hpc | swing hpc => rw [hpc] at hp; exact nomatch hp

/-- The status records over all kinds of steps. -/
theorem ExecKind.record {m : Mem K V} {pc : PC K V} (h : ExecKind cfg m pc m' pc') :
    RecordStep cfg m pc m' pc' := by
  have hnone : ∀ {pc' : PC K V}, pc'.early = true → m'.status = m.status →
      m'.nextStatus = m.nextStatus → RecordStep cfg m pc m' pc' := fun he hs hn =>
    .keep hs hn (fun cl' hc => by rw [PC.early_climb he] at hc; exact nomatch hc) fun hu => by
      rw [PC.climbing_climb (PC.early_climb he)] at hu
      exact nomatch hu
  cases h with
  | still h h' => exact hnone h' rfl rfl
  | prop h => exact h.record
  | freeze hpc ha => exact .keep rfl rfl nofun nofun
  | swing hpc => exact hnone (finished_early ..) (by simp) (by simp)

/-- The version of an old node after a step: it stays, or the thread that makes the step has
installed it. -/
theorem ExecKind.owns (h : ExecKind cfg s.mem (s.pc i) m' pc') (hI : Inv cfg s) (hV : VInv cfg s)
    (hS : StatusInv cfg s) {x : ℕ} (hx : x < s.mem.next) :
    (m'.node x).version = (s.mem.node x).version ∨
      Owns cfg s.mem (s.pc i) (m'.node x).version x := by
  cases h with
  | still => exact .inl rfl
  | prop h => exact h.owns (hV.pcs i) (hS.pcs i) x
  | freeze => exact .inl (freeze_version ..)
  | swing hpc =>
      obtain ⟨old, hc⟩ := hI.commit hpc
      exact .inl (hc.swing_version hx)

/-- The threads that do not make the step keep what they know of the status records. -/
theorem PcStatus.other (h : PcStatus cfg s.mem (s.pc j)) (hk : ExecKind cfg s.mem (s.pc i) m' pc')
    (hI : Inv cfg s) (hV : VInv cfg s) (hS : StatusInv cfg s) (hij : j ≠ i) :
    PcStatus cfg m' (s.pc j) := by
  have hl := hI.later hk
  have hok := hI.pcs j
  have hfit := hV.pcs j
  have hdis := fun hv cl cl' => hS.distinct hv j i cl cl' hij
  have hpos := fun hv => hS.bound hv j
  generalize s.pc j = pc at h hok hfit hdis hpos
  cases pc with
  | refresh cl r again f cs =>
      have hr := hok.1.stack.lt r (by simp)
      refine ⟨fun ha hn => h.1 ha (hl.version r hr hn), fun g hg => ?_⟩
      refine (h.2 g hg).version (hfit.each g hg).old ((hk.owns hI hV hS hr).imp_right ?_)
      rintro ⟨cl', hcl', he | ⟨he, hn⟩⟩ hb
      · refine ⟨fun h => hdis hb cl cl' rfl hcl' (h.symm.trans he), fun h0 => ?_⟩
        exact absurd (he.symm.trans h0) (hS.bound hb i cl' hcl').1
      · exact ⟨fun h => (hpos hb cl rfl).1 (h.symm.trans he), fun _ => hn hb⟩
  | propMark => exact h
  | _ => trivial

/-- **Every step keeps the invariant of the status records.** -/
theorem StatusInv.step (hS : StatusInv cfg s) (hI : Inv cfg s) (hV : VInv cfg s)
    (h : Step cfg s i s') : StatusInv cfg s' := by
  obtain ⟨m', pc', rfl, hk⟩ := h.kind
  have hrec := hk.record
  have hle := hrec.nextStatus_le
  refine ⟨hS.pos.trans_le hle, fun hv => forall_set (P := fun _ pc => ∀ cl,
      pc.climb = some cl → cl.ps ≠ 0 ∧ cl.ps < m'.nextStatus) (fun cl' hcl => ?_)
      fun j _ cl' hcl => ?_,
    fun hv => ?_, fun hv => forall_set (P := fun _ pc => ∀ cl, pc.climbing = true →
      pc.climb = some cl → m'.status cl.ps = ⟨0, false⟩) (fun cl' hup hcl => ?_)
      fun j hj cl' hup hcl => ?_,
    forall_set ?_ fun j hj => (hS.pcs j).other hk hI hV hS hj⟩
  · rcases hrec.ps_cases hv hcl with ⟨cl, hpc, he⟩ | ⟨he, hlt⟩
    · have := hS.bound hv i cl hpc
      omega
    · have := hS.pos
      omega
  · have := hS.bound hv j cl' hcl
    omega
  · -- two threads: the one that makes the step and another one
    have hone : ∀ j, j ≠ i → ∀ cl cl', pc'.climb = some cl → (s.pc j).climb = some cl' →
        cl.ps ≠ cl'.ps := fun j hj cl cl' hcl hcl' => by
      rcases hrec.ps_cases hv hcl with ⟨cl₀, hpc, he⟩ | ⟨he, -⟩
      · exact he ▸ hS.distinct hv i j cl₀ cl' hj.symm hpc hcl'
      · have := hS.bound hv j cl' hcl'
        omega
    intro a b cl cl' hab ha hb
    by_cases hai : a = i
    · subst hai
      rw [State.set_pc_self] at ha
      rw [State.set_pc_of_ne _ _ _ hab.symm] at hb
      exact hone b hab.symm cl cl' ha hb
    · rw [State.set_pc_of_ne _ _ _ hai] at ha
      by_cases hbi : b = i
      · subst hbi
        rw [State.set_pc_self] at hb
        exact (hone a hai cl' cl hb ha).symm
      · rw [State.set_pc_of_ne _ _ _ hbi] at hb
        exact hS.distinct hv a b cl cl' hab ha hb
  · exact hrec.status_clear hv (hS.clear hv i) hup hcl
  · rw [hrec.status_of_ne (hS.bound hv j cl' hcl).2 fun cl hpc =>
      hS.distinct hv i j cl cl' hj.symm hpc hcl]
    exact hS.clear hv j cl' hup hcl
  · have hnone : ∀ {pc : PC K V}, pc.early = true → PcStatus cfg m' pc := fun {pc} h => by
      cases pc <;> trivial
    cases hk with
    | still h h' => exact hnone h'
    | prop h =>
        exact h.status (hI.pcs i) (hV.pcs i) (hS.pcs i) fun hv cl hcl => (hS.bound hv i cl hcl).1
    | freeze => trivial
    | swing => exact hnone (finished_early ..)

omit [LinearOrder K] in
theorem statusInv_init (cfg : Cfg K V) : StatusInv cfg (State.init cfg) :=
  ⟨Nat.one_pos, fun _ _ _ h => (nomatch h), fun _ _ _ _ _ _ h => (nomatch h),
    fun _ _ _ h => (nomatch h), fun _ => trivial⟩

theorem Reachable.status (h : Reachable cfg s) : StatusInv cfg s := by
  induction h with
  | refl => exact statusInv_init cfg
  | tail hr hs ih =>
      obtain ⟨i, hs⟩ := hs
      exact ih.step (Reachable.inv hr) (Reachable.vInv hr) hs

/-- **After its last failed CAS a thread has somebody to wait for.** -/
theorem delegatee_ne_null (h : Reachable cfg s) {cl : Climb K V} {r curps : ℕ}
    (hpc : s.pc i = .propMark cl r curps) : curps ≠ 0 := by
  have := h.status.pcs i
  rwa [hpc] at this

end Runs

end Cbat
