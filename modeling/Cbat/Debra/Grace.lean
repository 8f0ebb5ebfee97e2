/-
**The grace period.**

An object is retired while the epoch is `e`.  A thread that was not quiescent then has announced an
epoch that is at most `e`, and it stops the threads that have read a later epoch from advancing it
further, until it ends its operation or announces the epoch for another one.  So the epoch reaches
`e + 4` only after all these threads have moved on.  On the other hand an object is handed on by the
sixth rotation of its bags, and every rotation but the first is made for an epoch that is later than
the one before.

Main definitions:

* `Cbat.Debra.MovedOn` — the thread has ended its operation or started another one;
* `Cbat.Debra.HandsOn` — a rotation hands the object to the pool;
* `Cbat.Debra.Grace`, `Cbat.Debra.Bagged` — the two invariants of the time after a retirement.

Main results:

* `Cbat.Debra.Grace.acts` — the epoch waits for the threads that were not quiescent;
* `Cbat.Debra.Bagged.acts` — rotations are made for later and later epochs;
* `Cbat.Debra.grace_period` — **an object is handed on after the grace period**.
-/

import Cbat.Debra.StartOp

set_option relaxedAutoImplicit false
set_option autoImplicit false

namespace Cbat.Debra

variable {ρ α : Type} {M : Manager ρ} {s s₀ s' : Shared ρ α M.numProcesses}
  {i : Fin M.numProcesses} {l : List (Fin M.numProcesses × Action ρ α)} {a : Action ρ α}

/-! ### The epoch waits -/

/-- **The thread has moved on**: it has ended its operation, or it has started another one and
announced the epoch for it. -/
def MovedOn {n : ℕ} (q : Fin n) (l : List (Fin n × Action ρ α)) : Prop :=
  (q, .endOp) ∈ l ∨ List.Sublist [(q, .startOp), (q, .announce)] l

theorem MovedOn.append {n : ℕ} {q : Fin n} {l : List (Fin n × Action ρ α)} (h : MovedOn q l)
    (l' : List (Fin n × Action ρ α)) : MovedOn q (l ++ l') :=
  h.imp (List.mem_append_left l') fun hs => hs.trans (List.sublist_append_left l l')

/-- What is known of thread `q` since the state `s₀`. -/
structure GraceThread (s₀ : Shared ρ α M.numProcesses)
    (l : List (Fin M.numProcesses × Action ρ α)) (q : Fin M.numProcesses) (t : Thread ρ α) :
    Prop where
  held : s₀.isQuiescent q = false →
    MovedOn q l ∨ quiescent t.announced = false ∧ t.announced ≤ s₀.epoch
  started : t.pc ≠ .idle → (q, .startOp) ∈ l ∨ t.localvar ≤ s₀.epoch
  checked : s₀.epoch < t.localvar →
    ∀ q', q'.val < t.checked → s₀.isQuiescent q' = false → MovedOn q' l

/-- **The epoch waits for the threads that were not quiescent** in the state `s₀`. -/
structure Grace (s₀ : Shared ρ α M.numProcesses) (l : List (Fin M.numProcesses × Action ρ α))
    (s : Shared ρ α M.numProcesses) : Prop where
  sane : Sane M s
  epoch : s₀.epoch ≤ s.epoch
  thread : ∀ q, GraceThread s₀ l q (s.threadData q)
  advanced : s₀.epoch + 4 ≤ s.epoch → ∀ q, s₀.isQuiescent q = false → MovedOn q l

theorem GraceThread.append {q : Fin M.numProcesses} {t : Thread ρ α} (h : GraceThread s₀ l q t)
    (l' : List (Fin M.numProcesses × Action ρ α)) : GraceThread s₀ (l ++ l') q t where
  held hq := (h.held hq).imp_left fun hm => hm.append l'
  started hpc := (h.started hpc).imp_left (List.mem_append_left l')
  checked hlt q' hq' hn := (h.checked hlt q' hq' hn).append l'

theorem grace_refl (h : Sane M s) : Grace s [] s := by
  refine ⟨h, le_rfl, fun q => ⟨fun hq => .inr ⟨hq, ?_⟩, fun hpc => ?_, fun hlt q' hq' => ?_⟩,
    fun hle => absurd hle (by omega)⟩
  · have hodd : ¬(s.threadData q).announced % 2 = 1 := by
      simpa [Shared.isQuiescent, quiescent] using hq
    exact (h.thread q).announced.resolve_left hodd
  · exact .inr ((h.thread q).even hpc).2
  · -- a copy that is later than the epoch has not been read
    rcases (h.thread q).localvar with hl | hl
    · exact absurd hlt (not_lt.mpr hl.2)
    · rw [hl.2.2] at hq'
      exact absurd hq' (Nat.not_lt_zero _)

theorem bitsEpoch_of_not_quiescent {ann : ℕ} (h : quiescent ann = false) : bitsEpoch ann = ann := by
  have hodd : ¬ann % 2 = 1 := by simpa [quiescent] using h
  unfold bitsEpoch
  omega

theorem quiescent_of_even {ann : ℕ} (h : ann % 2 = 0) : quiescent ann = false := by
  simp [quiescent, h]

/-- A thread that has read a later epoch finds that a thread has announced it, or is quiescent, only
after that thread has moved on. -/
theorem GraceThread.movedOn {q : Fin M.numProcesses} {t : Thread ρ α} {e : ℕ}
    (h : GraceThread s₀ l q t) (he : s₀.epoch < e) (hq : s₀.isQuiescent q = false)
    (hscan : bitsEpoch t.announced = e ∨ quiescent t.announced = true) : MovedOn q l := by
  rcases h.held hq with hm | ⟨hn, hle⟩
  · exact hm
  · rw [bitsEpoch_of_not_quiescent hn, hn] at hscan
    rcases hscan with rfl | hscan
    · exact absurd he (not_lt.mpr hle)
    · cases hscan

theorem GraceThread.scan {q : Fin M.numProcesses} {t : Thread ρ α} (h : GraceThread s₀ l q t)
    (hlt : t.checked < M.numProcesses) {other : Thread ρ α}
    (ho : GraceThread s₀ l ⟨t.checked, hlt⟩ other) (hpc : t.pc = .scanning) :
    GraceThread s₀ l q (t.scan M.numProcesses other.announced) := by
  have hstarted := h.started (by rw [hpc]; exact nofun)
  unfold Thread.scan
  by_cases hscan : bitsEpoch other.announced = t.localvar ∨ quiescent other.announced = true
  · rw [if_pos hscan]
    refine ⟨h.held, fun _ => hstarted, fun he q' hq' hquiet => ?_⟩
    rcases Nat.lt_succ_iff_lt_or_eq.mp hq' with hq' | hq'
    · exact h.checked he q' hq' hquiet
    · obtain rfl : q' = ⟨t.checked, hlt⟩ := Fin.ext hq'
      exact ho.movedOn he hquiet hscan
  · rw [if_neg hscan]
    exact ⟨h.held, nofun, h.checked⟩

theorem GraceThread.start {q : Fin M.numProcesses} {t : Thread ρ α} (h : GraceThread s₀ l q t)
    (e : ℕ) : GraceThread s₀ (l ++ [(q, .startOp)]) q (t.start M e) := by
  have h' := h.append [(q, .startOp)]
  have hmem : (q, Action.startOp) ∈ l ++ [(q, .startOp)] := by simp
  unfold Thread.start
  split_ifs with hne
  · exact ⟨h'.held, fun _ => .inl hmem, fun _ q' hq' => absurd hq' (Nat.not_lt_zero _)⟩
  · have hl : t.localvar = e := (not_not.mp hne).symm
    exact ⟨h'.held, fun _ => .inl hmem, by rw [← hl]; exact h'.checked⟩

/-- An announcement is made for an operation that was started since, or the epoch is old. -/
theorem GraceThread.announce {q : Fin M.numProcesses} {t : Thread ρ α} (h : GraceThread s₀ l q t)
    (hpc : t.pc = .announcing) (heven : t.localvar % 2 = 0) :
    GraceThread s₀ (l ++ [(q, .announce)]) q
      { t with pc := .scanning, announced := t.localvar } := by
  have h' := h.append [(q, .announce)]
  have hstarted := h.started (by rw [hpc]; exact nofun)
  refine ⟨fun hq => ?_, fun _ => hstarted.imp_left (List.mem_append_left _), h'.checked⟩
  rcases hstarted with hmem | hle
  · left
    have hsub : List.Sublist ([(q, .startOp)] ++ [(q, .announce)]) (l ++ [(q, .announce)]) :=
      (List.singleton_sublist.mpr hmem).append (List.Sublist.refl _)
    exact .inr hsub
  · exact .inr ⟨quiescent_of_even heven, hle⟩

variable [DecidableEq ρ]

theorem Grace.acts (h : Grace s₀ l s) (ha : Acts M s i a s') : Grace s₀ (l ++ [(i, a)]) s' := by
  have hsane := h.sane.acts ha
  have hall : ∀ q, GraceThread s₀ (l ++ [(i, a)]) q (s.threadData q) :=
    fun q => (h.thread q).append _
  have hadv : s₀.epoch + 4 ≤ s.epoch →
      ∀ q, s₀.isQuiescent q = false → MovedOn q (l ++ [(i, a)]) :=
    fun hle q hq => (h.advanced hle q hq).append _
  have hi := hall i
  cases ha with
  | startOp hpc => exact ⟨hsane, h.epoch, Shared.forall_set hall ((h.thread i).start _), hadv⟩
  | rotate hpc hw =>
      have hstarted := hi.started (by rw [hpc]; exact nofun)
      exact ⟨hsane, h.epoch, Shared.forall_set hall ⟨hi.held, fun _ => hstarted, hi.checked⟩, hadv⟩
  | freeOne hpc hw =>
      have hstarted := hi.started (by rw [hpc]; exact nofun)
      exact ⟨hsane, h.epoch, Shared.forall_set hall ⟨hi.held, fun _ => hstarted, hi.checked⟩, hadv⟩
  | announce hpc =>
      have heven := ((h.sane.thread i).even (by rw [hpc]; exact nofun)).1
      exact ⟨hsane, h.epoch, Shared.forall_set hall ((h.thread i).announce hpc heven), hadv⟩
  | scan hpc hlt => exact ⟨hsane, h.epoch, Shared.forall_set hall (hi.scan hlt (hall _) hpc), hadv⟩
  | skip hpc =>
      exact ⟨hsane, h.epoch, Shared.forall_set hall ⟨hi.held, nofun, hi.checked⟩, hadv⟩
  | endOp hpc =>
      have hmem : (i, Action.endOp) ∈ l ++ [(i, .endOp)] := by simp
      exact ⟨hsane, h.epoch,
        Shared.forall_set hall ⟨fun _ => .inl (.inl hmem), hi.started, hi.checked⟩, hadv⟩
  | retire hpc hw =>
      exact ⟨hsane, h.epoch, Shared.forall_set hall ⟨hi.held, hi.started, hi.checked⟩, hadv⟩
  | advance hpc =>
      have hle := h.epoch.trans (le_advancedEpoch s.epoch (s.threadData i).localvar)
      refine ⟨hsane, hle, Shared.forall_set hall ⟨hi.held, nofun, hi.checked⟩, fun hfour q hq => ?_⟩
      by_cases he : s.epoch = (s.threadData i).localvar
      · -- the thread has checked all others since the epoch was advanced the first time
        have hlater : s₀.epoch < (s.threadData i).localvar := by
          simp only [advancedEpoch, if_pos he, epochIncrement] at hfour
          omega
        exact hi.checked hlater q (q.isLt.trans_le ((h.sane.thread i).advancing hpc)) hq
      · simp only [advancedEpoch, if_neg he] at hfour
        exact hadv hfour q hq

/-! ### Rotations are made for later epochs -/

/-- The rotations of the bags of `ty` that the current `startOp` has still to make. -/
def Pc.pending (pc : Pc ρ) (ty : ρ) : ℕ := if ty ∈ pc.todo then 1 else 0

/-- The rotation from `w` to `w'` **hands the object on**: to the pool, or to the objects that
`startOp` frees one by one. -/
def HandsOn (w w' : World α) (x : α) : Prop :=
  (∃ freed, w'.freed = w.freed ++ freed ∧ x ∈ freed) ∨
    ∃ freelist freelist', w.data.deamortizedFreeables = some freelist ∧
      w'.data.deamortizedFreeables = some freelist' ∧ x ∉ freelist.items ∧ x ∈ freelist'.items

omit [DecidableEq ρ] in
/-- What a rotation hands on was in the oldest bag. -/
theorem HandsOn.kept {cfg : Cfg} {w w' : World α} {x : α} (h : HandsOn w w' x)
    (hs : step cfg w .rotate = some w') : Kept w (w.data.index + 4) x := by
  simp only [step, Option.map_eq_some_iff] at hs
  obtain ⟨⟨d, versions, freed⟩, hr, rfl⟩ := hs
  simp only [ThreadData.rotateEpochBags, oldest_eq, Option.bind_eq_bind,
    Option.bind_eq_some_iff] at hr
  obtain ⟨b, hb, hr⟩ := hr
  refine ⟨b, hb, ?_⟩
  by_cases ho : cfg.originalFree = true
  · rw [if_pos ho] at hr
    cases hr
    rcases h with ⟨freed, hfreed, hx⟩ | ⟨f, f', hf, hf', hx, hx'⟩
    · rw [← List.append_cancel_left hfreed] at hx
      exact Pool.mem_of_mem_addMoveFullBlocks hx
    · rw [hf] at hf'
      cases hf'
      exact absurd hx' hx
  · rw [if_neg ho, Option.bind_eq_some_iff] at hr
    obtain ⟨freelist, hf₀, hr⟩ := hr
    cases hr
    rcases h with ⟨freed, hfreed, hx⟩ | ⟨f, f', hf, hf', hx, hx'⟩
    · rw [← List.append_cancel_left hfreed] at hx
      cases hx
    · rw [hf₀] at hf
      cases hf
      cases hf'
      exact (BlockBag.mem_of_mem_appendMoveFullBlocks hx').resolve_left hx

omit [DecidableEq ρ] in
theorem Current.eq {w : World α} (h : Current 0 w) : w.data.currentBag = w.data.index := by
  rcases h with h | ⟨hi, hc⟩
  · exact h
  · rw [hi, hc]

/-- The state of the bags of type `ty` after `r` rotations since the object `x` was retired in the
epoch `e`.  **Rotations are made for later and later epochs.** -/
structure Bagged (e : ℕ) (ty : ρ) (x : α) (r : ℕ) (t : Thread ρ α) : Prop where
  /-- the first rotation may be made for an older epoch, and the second one for the epoch `e` -/
  later : 2 ≤ r + t.pc.pending ty →
    t.localvar % 2 = 0 ∧ e + 2 * (r + t.pc.pending ty) ≤ t.localvar + 4
  kept : ∀ j, Kept (t.bags ty) j x → 6 ≤ due (t.bags ty).data.index j + r

variable {e r : ℕ} {ty : ρ} {x : α} {t : Thread ρ α}

theorem Pc.pending_le (pc : Pc ρ) (ty : ρ) : pc.pending ty ≤ 1 := by
  unfold Pc.pending
  split_ifs <;> omega

/-- Changes that leave the bags of the type and its rotations alone. -/
theorem Bagged.congr {t' : Thread ρ α} (h : Bagged e ty x r t)
    (hpc : t'.pc.pending ty = t.pc.pending ty) (hlocal : t'.localvar = t.localvar)
    (hbags : t'.bags ty = t.bags ty) : Bagged e ty x r t' where
  later := by
    rw [hpc, hlocal]
    exact h.later
  kept := by
    rw [hbags]
    exact h.kept

theorem Bagged.start {n epoch : ℕ} (h : Bagged e ty x r t) (ht : SaneThread n epoch t)
    (hpc : t.pc = .idle) (he : e ≤ epoch) (heven : epoch % 2 = 0) :
    Bagged e ty x r (t.start M epoch) := by
  have hp : t.pc.pending ty = 0 := by rw [hpc]; rfl
  have hlater := h.later
  rw [hp] at hlater
  unfold Thread.start
  split_ifs with hne
  · refine ⟨fun htwo => ⟨heven, ?_⟩, h.kept⟩
    have hle := Pc.pending_le (.rotating (M.first :: M.rest)) ty
    change 2 ≤ r + (Pc.rotating (M.first :: M.rest)).pending ty at htwo
    show e + 2 * (r + (Pc.rotating (M.first :: M.rest)).pending ty) ≤ epoch + 4
    by_cases hr : 2 ≤ r
    · -- the epoch that is read now is later than the one of the rotation before
      have hl := hlater hr
      have hlocal := ht.localvar
      omega
    · omega
  · have hl : t.localvar = epoch := (not_not.mp hne).symm
    exact h.congr (by rw [hp]; rfl) hl.symm rfl

theorem Pc.pending_cons {ty' : ρ} {todo : List ρ} (h : ty' ≠ ty) :
    (Pc.rotating (ty' :: todo)).pending ty = (Pc.rotating todo).pending ty := by
  unfold Pc.pending
  exact if_congr (by simp [Pc.todo, Ne.symm h]) rfl rfl

theorem Bagged.rotate {cfg : Cfg} {todo : List ρ} {w : World α} (h : Bagged e ty x r t)
    (htodo : t.pc.todo.Nodup) (hpc : t.pc = .rotating (ty :: todo))
    (hw : step cfg (t.bags ty) .rotate = some w) :
    Bagged e ty x (r + 1)
      { t with pc := .rotating todo, bags := Function.update t.bags ty w } := by
  have hr := rotate_spec hw
  have hlater := h.later
  rw [hpc] at htodo hlater
  have hty : ty ∉ todo := (List.nodup_cons.mp htodo).1
  have hp : (Pc.rotating (ty :: todo)).pending ty = 1 := by simp [Pc.pending, Pc.todo]
  have hp' : (Pc.rotating todo).pending ty = 0 := by simp [Pc.pending, Pc.todo, hty]
  refine ⟨?_, fun j hj => ?_⟩
  · show 2 ≤ r + 1 + (Pc.rotating todo).pending ty → _
    rw [hp']
    rw [hp] at hlater
    exact hlater
  · simp only [Function.update_self] at hj ⊢
    rw [hr.index]
    by_cases hjo : j = (t.bags ty).data.index + 4
    · rw [hjo, due_handed]
      omega
    · have hkept := h.kept j (hr.kept hj)
      rw [due_of_ne hjo] at hkept
      omega

theorem Bagged.freeOne {cfg : Cfg} {pc : Pc ρ} {ty' : ρ} {w : World α} (h : Bagged e ty x r t)
    (hpc : t.pc.todo = []) (hpc' : pc.todo = [])
    (hw : step cfg (t.bags ty') .freeOne = some w) :
    Bagged e ty x r { t with pc := pc, bags := Function.update t.bags ty' w } := by
  have hp : pc.pending ty = t.pc.pending ty := by rw [Pc.pending, Pc.pending, hpc, hpc']
  by_cases hty : ty = ty'
  · subst hty
    have hr := freeOne_spec hw
    refine ⟨?_, fun j hj => ?_⟩
    · show 2 ≤ r + pc.pending ty → _
      rw [hp]
      exact h.later
    · simp only [Function.update_self] at hj ⊢
      rw [hr.index]
      exact h.kept j (hj.of_eq (by rw [hr.bags]))
  · exact h.congr hp rfl (Function.update_of_ne hty ..)

theorem Bagged.retire {cfg : Cfg} {ty' : ρ} {y : α} {w : World α} (h : Bagged e ty x r t)
    (hc : Current 0 (t.bags ty')) (hw : step cfg (t.bags ty') (.retire y) = some w) :
    Bagged e ty x r { t with bags := Function.update t.bags ty' w } := by
  by_cases hty : ty = ty'
  · subst hty
    have hr := retire_spec hw
    refine ⟨h.later, fun j hj => ?_⟩
    simp only [Function.update_self] at hj ⊢
    rw [hr.index]
    rcases hr.kept hj with hj | ⟨-, rfl⟩
    · exact h.kept j hj
    · rw [hc.eq, due_self]
      omega
  · exact h.congr rfl rfl (Function.update_of_ne hty ..)

theorem Bagged.acts (h : Bagged e ty x r (s.threadData i)) (hs : Sane M s) (he : e ≤ s.epoch)
    {j : Fin M.numProcesses} (ha : Acts M s j a s') : ∃ r', Bagged e ty x r' (s'.threadData i) := by
  by_cases hij : i = j
  · subst hij
    have ht := hs.thread i
    cases ha with
    | startOp hpc =>
        refine ⟨r, ?_⟩
        rw [Shared.set_self]
        exact h.start ht hpc he hs.epoch
    | @rotate ty' todo w hpc hw =>
        rw [Shared.set_self]
        by_cases hty : ty' = ty
        · subst hty
          exact ⟨r + 1, h.rotate ht.todo hpc hw⟩
        · refine ⟨r, h.congr ?_ rfl (Function.update_of_ne (Ne.symm hty) ..)⟩
          rw [hpc]
          exact (Pc.pending_cons hty).symm
    | freeOne hpc hw =>
        refine ⟨r, ?_⟩
        rw [Shared.set_self]
        exact h.freeOne (by rw [hpc]; rfl) rfl hw
    | announce hpc =>
        refine ⟨r, ?_⟩
        rw [Shared.set_self]
        exact h.congr (by rw [hpc]; rfl) rfl rfl
    | scan hpc hlt =>
        refine ⟨r, ?_⟩
        rw [Shared.set_self]
        unfold Thread.scan
        split_ifs <;> exact h.congr (by rw [hpc]; rfl) rfl rfl
    | skip hpc =>
        refine ⟨r, ?_⟩
        rw [Shared.set_self]
        exact h.congr (by rw [hpc]; rfl) rfl rfl
    | advance hpc =>
        refine ⟨r, ?_⟩
        show Bagged e ty x r ((s.set i _).threadData i)
        rw [Shared.set_self]
        exact h.congr (by rw [hpc]; rfl) rfl rfl
    | endOp hpc =>
        refine ⟨r, ?_⟩
        rw [Shared.set_self]
        exact h.congr rfl rfl rfl
    | retire hpc hw =>
        refine ⟨r, ?_⟩
        rw [Shared.set_self]
        exact h.retire (ht.bags _) hw
  · refine ⟨r, ?_⟩
    rw [ha.of_ne hij]
    exact h

/-- After the retirement the object is in the current bag only. -/
theorem bagged_of_retire (hs : Sane M s) (hnew : ∀ j, ¬Kept ((s.threadData i).bags ty) j x)
    (ha : Acts M s i (.retire ty x) s') : Bagged e ty x 0 (s'.threadData i) := by
  cases ha with
  | retire hpc hw =>
      have hle := Pc.pending_le (s.threadData i).pc ty
      have hbefore : Bagged e ty x 0 (s.threadData i) :=
        ⟨fun htwo => absurd htwo (by omega), fun j hj => absurd hj (hnew j)⟩
      rw [Shared.set_self]
      exact hbefore.retire ((hs.thread i).bags ty) hw

theorem Acts.isQuiescent_retire (ha : Acts M s i (.retire ty x) s') (q : Fin M.numProcesses) :
    s'.isQuiescent q = s.isQuiescent q := by
  cases ha with
  | retire hpc hw =>
      by_cases hq : q = i
      · subst hq
        rw [Shared.isQuiescent, Shared.set_self, Shared.isQuiescent]
      · rw [Shared.isQuiescent, Shared.set_of_ne _ hq, Shared.isQuiescent]

/-! ### The grace period -/

/-- **An object is handed on after the grace period.**  Thread `i` retires the object `x`, which is
in none of its bags, and after that the threads make the steps `after`.  If a rotation hands `x` on
then, every thread that was not quiescent when `x` was retired has moved on. -/
theorem grace_period (M : Manager ρ) (before after : List (Fin M.numProcesses × Action ρ α))
    (s₀ s₁ s₂ s₃ : Shared ρ α M.numProcesses) (i : Fin M.numProcesses) (ty : ρ) (x : α)
    (h₀ : exec M before M.init = some s₀) (hnew : ∀ j, ¬Kept ((s₀.threadData i).bags ty) j x)
    (h₁ : act M s₀ i (.retire ty x) = some s₁) (h₂ : exec M after s₁ = some s₂)
    (h₃ : act M s₂ i (.rotate ty) = some s₃)
    (hx : HandsOn ((s₂.threadData i).bags ty) ((s₃.threadData i).bags ty) x)
    (q : Fin M.numProcesses) (hq : s₀.isQuiescent q = false) : MovedOn q after := by
  have hsane := sane_init.exec h₀
  have hretire := acts_of_act h₁
  have hsane₁ := hsane.acts hretire
  have hq₁ : s₁.isQuiescent q = false := by rwa [hretire.isQuiescent_retire]
  have hbagged : Bagged s₁.epoch ty x 0 (s₁.threadData i) := bagged_of_retire hsane hnew hretire
  obtain ⟨hgrace, r, hr⟩ := exec_induct
    (P := fun l s => Grace s₁ l s ∧ ∃ r, Bagged s₁.epoch ty x r (s.threadData i))
    ⟨grace_refl hsane₁, 0, hbagged⟩
    (fun l s j a s' hs ha => ⟨hs.1.acts ha, hs.2.elim fun r hr => hr.acts hs.1.sane hs.1.epoch ha⟩)
    h₂
  cases acts_of_act h₃ with
  | rotate hpc hw =>
      simp only [Shared.set_self, Function.update_self] at hx
      -- the object is in the oldest bag, so this is at least the sixth rotation
      have hdue := hr.kept _ (hx.kept hw)
      rw [due_oldest] at hdue
      have hp : (s₂.threadData i).pc.pending ty = 1 := by rw [hpc]; simp [Pc.pending, Pc.todo]
      have hlater := hr.later (by omega)
      have hpast := ((hgrace.sane.thread i).even (by rw [hpc]; exact nofun)).2
      exact hgrace.advanced (by omega) q hq₁

/-- One record type, and a single thread that scans in every operation. -/
abbrev aloneManager : Manager Unit := ⟨⟨true, .none⟩, 1, 1, (), [], by decide⟩

/-- One call of `startOp`. -/
def aloneStart : List (Fin 1 × Action Unit ℕ) :=
  [(0, .startOp), (0, .rotate ()), (0, .freeOne), (0, .announce), (0, .scan), (0, .advance)]

/-- The thread ends its operation, makes five more, and starts another one. -/
def aloneAfter : List (Fin 1 × Action Unit ℕ) :=
  [(0, .endOp)] ++ (List.replicate 5 (aloneStart ++ [(0, .endOp)])).flatten ++ [(0, .startOp)]

/-- What the thread has freed. -/
def aloneFreed (s : Shared Unit ℕ 1) : List ℕ := ((s.threadData 0).bags ()).freed

theorem grace_period_alone : ∃ s₀ s₁ s₂ s₃ : Shared Unit ℕ 1,
    exec aloneManager aloneStart aloneManager.init = some s₀ ∧ s₀.isQuiescent 0 = false ∧
      act aloneManager s₀ 0 (.retire () 7) = some s₁ ∧ exec aloneManager aloneAfter s₁ = some s₂ ∧
      act aloneManager s₂ 0 (.rotate ()) = some s₃ ∧ aloneFreed s₃ = [7] ∧
      MovedOn 0 aloneAfter := by
  have hstart : ((exec aloneManager aloneStart aloneManager.init).map fun s =>
      (s.isQuiescent 0, (List.finRange 9).map fun j =>
        (((s.threadData 0).bags ()).data.epochbags j).map BlockBag.items)) =
      some (false, List.replicate 9 (some [])) := by decide
  have hafter : (exec aloneManager (aloneStart ++ ([(0, .retire () 7)] ++ aloneAfter))
      aloneManager.init).map aloneFreed = some [] := by decide
  have hend : (exec aloneManager (aloneStart ++ ([(0, .retire () 7)] ++
      (aloneAfter ++ [(0, .rotate ())]))) aloneManager.init).map aloneFreed = some [7] := by decide
  obtain ⟨s₃, hexec, hfreed₃⟩ := Option.map_eq_some_iff.mp hend
  obtain ⟨s₀, h₀, hexec⟩ := exec_append.mp hexec
  obtain ⟨s₁, h₁, hexec⟩ := exec_append.mp hexec
  obtain ⟨s₂, h₂, h₃⟩ := exec_append.mp hexec
  rw [exec_singleton] at h₁ h₃
  rw [h₀] at hstart
  obtain ⟨hquiet, hitems⟩ := Prod.mk.inj (Option.some.inj hstart)
  rw [exec_append.mpr ⟨s₀, h₀, exec_append.mpr ⟨s₁, exec_singleton.mpr h₁, h₂⟩⟩] at hafter
  have hfreed₂ : aloneFreed s₂ = [] := Option.some.inj hafter
  refine ⟨s₀, s₁, s₂, s₃, h₀, hquiet, h₁, h₂, h₃, hfreed₃, ?_⟩
  refine grace_period aloneManager aloneStart aloneAfter s₀ s₁ s₂ s₃ 0 () 7 h₀ ?_ h₁ h₂ h₃
    (.inl ⟨[7], ?_, List.mem_singleton_self 7⟩) 0 hquiet
  · rintro j ⟨b, hb, hx⟩
    have hj := List.mem_map_of_mem (List.mem_finRange j)
      (f := fun j => (((s₀.threadData 0).bags ()).data.epochbags j).map BlockBag.items)
    rw [hitems, hb] at hj
    rw [Option.some.inj (List.eq_of_mem_replicate hj)] at hx
    cases hx
  · exact hfreed₃.trans (by rw [show ((s₂.threadData 0).bags ()).freed = [] from hfreed₂]; rfl)

end Cbat.Debra
