/-
**The epochs of the record manager.**

All threads share an epoch.  A thread that starts an operation reads it, rotates its bags if the
epoch has changed since its last operation, announces the epoch that it has read, and looks at the
announcement of one other thread.  Once it has seen that all threads have announced the epoch or are
quiescent, it advances the epoch.  Each read and write of the shared memory is a step of its own,
and the steps of the threads interleave in any order.

Main definitions:

* `Cbat.Debra.Manager` — the record types and the settings;
* `Cbat.Debra.Thread`, `Cbat.Debra.Shared` — the data of a thread and of all threads;
* `Cbat.Debra.act` — **one atomic step** of a thread;
* `Cbat.Debra.exec` — a sequence of steps.

Main results:

* `Cbat.Debra.acts_of_act` — **what a step does**;
* `Cbat.Debra.Sane.exec` — announcements and local copies are epochs of the past.
-/

import Cbat.Debra.Rotation

set_option relaxedAutoImplicit false
set_option autoImplicit false

namespace Cbat.Debra

variable {ρ α : Type}

/-! ### Announcements -/

/-- `EPOCH_INCREMENT` -/
abbrev epochIncrement : ℕ := 2

/-- `BITS_EPOCH`: the announcement without the bit for quiescence. -/
def bitsEpoch (ann : ℕ) : ℕ := ann / 2 * 2

/-- `QUIESCENT` -/
def quiescent (ann : ℕ) : Bool := ann % 2 == 1

/-- `GET_WITH_QUIESCENT` -/
def getWithQuiescent (ann : ℕ) : ℕ := ann / 2 * 2 + 1

/-- The epoch after the compare-and-swap at the end of a scan. -/
def advancedEpoch (epoch readEpoch : ℕ) : ℕ :=
  if epoch = readEpoch then readEpoch + epochIncrement else epoch

theorem le_advancedEpoch (e r : ℕ) : e ≤ advancedEpoch e r := by
  unfold advancedEpoch epochIncrement
  split_ifs <;> omega

theorem lt_advancedEpoch {e r : ℕ} (h : r ≤ e) : r < advancedEpoch e r := by
  unfold advancedEpoch epochIncrement
  split_ifs <;> omega

theorem advancedEpoch_even {e : ℕ} (r : ℕ) (h : e % 2 = 0) : advancedEpoch e r % 2 = 0 := by
  unfold advancedEpoch epochIncrement
  split_ifs <;> omega

/-! ### Threads -/

/-- A record manager.  The epoch is that of the reclaimer of the first record type. -/
structure Manager (ρ : Type) where
  /-- how objects are freed -/
  cfg : Cfg
  /-- `NUM_PROCESSES` -/
  numProcesses : ℕ
  /-- `MIN_OPS_BEFORE_READ` -/
  minOpsBeforeRead : ℕ
  /-- `First` -/
  first : ρ
  /-- `Rest...` -/
  rest : List ρ
  /-- `check_duplicates` -/
  nodup : (first :: rest).Nodup

/-- Where a thread is in `startOp`. -/
inductive Pc (ρ : Type) where
  /-- the thread is not in `startOp` -/
  | idle
  /-- the bags of these types are still to be rotated -/
  | rotating (todo : List ρ)
  /-- the announcement is to be stored -/
  | announcing
  /-- the announcement of another thread is to be read -/
  | scanning
  /-- the epoch is to be advanced -/
  | advancing

/-- The record types whose bags are still to be rotated. -/
def Pc.todo : Pc ρ → List ρ
  | .rotating todo => todo
  | _ => []

/-- The data of a thread.  What `startOp` keeps in `readEpoch` is in `localvar` from the moment it
is read to the end of the call. -/
structure Thread (ρ α : Type) where
  /-- where the thread is -/
  pc : Pc ρ
  /-- `localvar_announcedEpoch` -/
  localvar : ℕ
  /-- `announcedEpoch` -/
  announced : ℕ
  /-- `checked` -/
  checked : ℕ
  /-- `opsSinceRead` -/
  opsSinceRead : ℕ
  /-- the bags of each record type -/
  bags : ρ → World α

/-- The epoch and the data of all threads. -/
structure Shared (ρ α : Type) (n : ℕ) where
  /-- `epoch` -/
  epoch : ℕ
  /-- `threadData` -/
  threadData : Fin n → Thread ρ α

/-- The data of one thread changes. -/
def Shared.set {n : ℕ} (s : Shared ρ α n) (i : Fin n) (t : Thread ρ α) : Shared ρ α n :=
  { s with threadData := Function.update s.threadData i t }

section

variable {n : ℕ} {s : Shared ρ α n} {i : Fin n}

@[simp] theorem Shared.set_epoch (t : Thread ρ α) : (s.set i t).epoch = s.epoch := rfl

@[simp] theorem Shared.set_self (t : Thread ρ α) : (s.set i t).threadData i = t :=
  Function.update_self ..

theorem Shared.set_of_ne {j : Fin n} (t : Thread ρ α) (h : j ≠ i) :
    (s.set i t).threadData j = s.threadData j := Function.update_of_ne h ..

/-- A property of all threads is kept if the thread that changes has it. -/
theorem Shared.forall_set {P : Fin n → Thread ρ α → Prop} {t : Thread ρ α}
    (h : ∀ j, P j (s.threadData j)) (ht : P i t) (j : Fin n) :
    P j ((s.set i t).threadData j) := by
  by_cases hj : j = i
  · subst hj
    rwa [Shared.set_self]
  · rw [Shared.set_of_ne t hj]
    exact h j

end

/-- `isQuiescent` -/
def Shared.isQuiescent {n : ℕ} (s : Shared ρ α n) (i : Fin n) : Bool :=
  quiescent (s.threadData i).announced

/-- The constructor of `reclaimer_debra`, and `initThread` for all threads. -/
def Manager.init (M : Manager ρ) : Shared ρ α M.numProcesses where
  epoch := 0
  threadData _ := ⟨.idle, getWithQuiescent 0, getWithQuiescent 0, 0, 0, fun _ => initialised M.cfg⟩

/-! ### Steps -/

/-- The steps of a thread.  From `startOp` to `advance` they are those of one call of `startOp`. -/
inductive Action (ρ α : Type) where
  /-- `startOp` is called and reads the epoch -/
  | startOp
  /-- the bags of one record type are rotated -/
  | rotate (ty : ρ)
  /-- with deamortised calls to free, one object is freed -/
  | freeOne
  /-- the epoch that was read is announced -/
  | announce
  /-- the announcement of another thread is read, if it is time to -/
  | scan
  /-- the epoch is advanced, unless another thread did it before -/
  | advance
  /-- `endOp` -/
  | endOp
  /-- `retire` -/
  | retire (ty : ρ) (x : α)

/-- A thread can retire objects: between operations and in the course of one, and, with
`DEBRA_NODE_RETIRE`, the versions of the nodes that it hands on while it rotates its bags. -/
def Pc.retires : Pc ρ → Bool
  | .idle | .rotating _ => true
  | _ => false

/-- `startOp` up to the rotation: the epoch is read. -/
def Thread.start (M : Manager ρ) (t : Thread ρ α) (epoch : ℕ) : Thread ρ α :=
  if epoch ≠ t.localvar then
    { t with pc := .rotating (M.first :: M.rest), localvar := epoch, checked := 0 }
  else { t with pc := .rotating [], localvar := epoch }

/-- The incremental scan: `other` is the announcement of the thread that is to be checked next. -/
def Thread.scan (n : ℕ) (t : Thread ρ α) (other : ℕ) : Thread ρ α :=
  if bitsEpoch other = t.localvar ∨ quiescent other = true then
    { t with
      pc := if n ≤ t.checked + 1 then .advancing else .idle
      checked := t.checked + 1
      opsSinceRead := 0 }
  else { t with pc := .idle, opsSinceRead := 0 }

variable [DecidableEq ρ]

/-- **One step** of thread `i`; `none` if the thread cannot make it. -/
def act (M : Manager ρ) (s : Shared ρ α M.numProcesses) (i : Fin M.numProcesses) :
    Action ρ α → Option (Shared ρ α M.numProcesses)
  | .startOp =>
      let t := s.threadData i
      match t.pc with
      | .idle => some (s.set i (t.start M s.epoch))
      | _ => none
  | .rotate ty =>
      let t := s.threadData i
      match t.pc with
      | .rotating (ty' :: todo) =>
          if ty' = ty then
            (step M.cfg (t.bags ty) .rotate).map fun w =>
              s.set i { t with pc := .rotating todo, bags := Function.update t.bags ty w }
          else none
      | _ => none
  | .freeOne =>
      let t := s.threadData i
      match t.pc with
      | .rotating [] => (step M.cfg (t.bags M.first) .freeOne).map fun w =>
          s.set i { t with pc := .announcing, bags := Function.update t.bags M.first w }
      | _ => none
  | .announce =>
      let t := s.threadData i
      match t.pc with
      | .announcing => some (s.set i { t with pc := .scanning, announced := t.localvar })
      | _ => none
  | .scan =>
      let t := s.threadData i
      match t.pc with
      | .scanning =>
          if t.opsSinceRead + 1 = M.minOpsBeforeRead then
            if h : t.checked < M.numProcesses then
              some (s.set i (t.scan M.numProcesses (s.threadData ⟨t.checked, h⟩).announced))
            else none
          else some (s.set i { t with pc := .idle, opsSinceRead := t.opsSinceRead + 1 })
      | _ => none
  | .advance =>
      let t := s.threadData i
      match t.pc with
      | .advancing =>
          some { s.set i { t with pc := .idle } with
            epoch := advancedEpoch s.epoch t.localvar }
      | _ => none
  | .endOp =>
      let t := s.threadData i
      match t.pc with
      | .idle => some (s.set i { t with announced := getWithQuiescent t.localvar })
      | _ => none
  | .retire ty x =>
      let t := s.threadData i
      if t.pc.retires then
        (step M.cfg (t.bags ty) (.retire x)).map fun w =>
          s.set i { t with bags := Function.update t.bags ty w }
      else none

/-- A sequence of steps. -/
def exec (M : Manager ρ) : List (Fin M.numProcesses × Action ρ α) → Shared ρ α M.numProcesses →
    Option (Shared ρ α M.numProcesses)
  | [], s => some s
  | (i, a) :: l, s => (act M s i a).bind (exec M l)

/-! ### What a step does -/

section Steps

variable {M : Manager ρ} {s s' : Shared ρ α M.numProcesses} {i : Fin M.numProcesses}
  {l : List (Fin M.numProcesses × Action ρ α)} {a : Action ρ α}

/-- **What a step does.** -/
inductive Acts (M : Manager ρ) (s : Shared ρ α M.numProcesses) (i : Fin M.numProcesses) :
    Action ρ α → Shared ρ α M.numProcesses → Prop
  | startOp (hpc : (s.threadData i).pc = .idle) :
      Acts M s i .startOp (s.set i ((s.threadData i).start M s.epoch))
  | rotate {ty : ρ} {todo : List ρ} {w : World α}
      (hpc : (s.threadData i).pc = .rotating (ty :: todo))
      (hw : step M.cfg ((s.threadData i).bags ty) .rotate = some w) :
      Acts M s i (.rotate ty) (s.set i { s.threadData i with
        pc := .rotating todo, bags := Function.update (s.threadData i).bags ty w })
  | freeOne {w : World α} (hpc : (s.threadData i).pc = .rotating [])
      (hw : step M.cfg ((s.threadData i).bags M.first) .freeOne = some w) :
      Acts M s i .freeOne (s.set i { s.threadData i with
        pc := .announcing, bags := Function.update (s.threadData i).bags M.first w })
  | announce (hpc : (s.threadData i).pc = .announcing) :
      Acts M s i .announce (s.set i { s.threadData i with
        pc := .scanning, announced := (s.threadData i).localvar })
  | scan (hpc : (s.threadData i).pc = .scanning)
      (hlt : (s.threadData i).checked < M.numProcesses) :
      Acts M s i .scan (s.set i ((s.threadData i).scan M.numProcesses
        (s.threadData ⟨(s.threadData i).checked, hlt⟩).announced))
  | skip (hpc : (s.threadData i).pc = .scanning) :
      Acts M s i .scan (s.set i { s.threadData i with
        pc := .idle, opsSinceRead := (s.threadData i).opsSinceRead + 1 })
  | advance (hpc : (s.threadData i).pc = .advancing) :
      Acts M s i .advance { s.set i { s.threadData i with pc := .idle } with
        epoch := advancedEpoch s.epoch (s.threadData i).localvar }
  | endOp (hpc : (s.threadData i).pc = .idle) :
      Acts M s i .endOp (s.set i { s.threadData i with
        announced := getWithQuiescent (s.threadData i).localvar })
  | retire {ty : ρ} {x : α} {w : World α} (hpc : (s.threadData i).pc.retires = true)
      (hw : step M.cfg ((s.threadData i).bags ty) (.retire x) = some w) :
      Acts M s i (.retire ty x) (s.set i { s.threadData i with
        bags := Function.update (s.threadData i).bags ty w })

theorem acts_of_act (h : act M s i a = some s') : Acts M s i a s' := by
  cases a with
  | startOp =>
      simp only [act] at h
      split at h
      · next hpc =>
          cases h
          exact .startOp hpc
      · cases h
  | rotate ty =>
      simp only [act] at h
      split at h
      · next ty' todo hpc =>
          split_ifs at h with hty
          obtain ⟨w, hw, rfl⟩ := Option.map_eq_some_iff.mp h
          subst hty
          exact .rotate hpc hw
      · cases h
  | freeOne =>
      simp only [act] at h
      split at h
      · next hpc =>
          obtain ⟨w, hw, rfl⟩ := Option.map_eq_some_iff.mp h
          exact .freeOne hpc hw
      · cases h
  | announce =>
      simp only [act] at h
      split at h
      · next hpc =>
          cases h
          exact .announce hpc
      · cases h
  | scan =>
      simp only [act] at h
      split at h
      · next hpc =>
          split_ifs at h with hops hlt
          · cases h
            exact .scan hpc hlt
          · cases h
            exact .skip hpc
      · cases h
  | advance =>
      simp only [act] at h
      split at h
      · next hpc =>
          cases h
          exact .advance hpc
      · cases h
  | endOp =>
      simp only [act] at h
      split at h
      · next hpc =>
          cases h
          exact .endOp hpc
      · cases h
  | retire ty x =>
      simp only [act] at h
      split_ifs at h with hpc
      obtain ⟨w, hw, rfl⟩ := Option.map_eq_some_iff.mp h
      exact .retire hpc hw

theorem Acts.of_ne {j : Fin M.numProcesses} (h : Acts M s i a s') (hj : j ≠ i) :
    s'.threadData j = s.threadData j := by
  cases h <;> exact Shared.set_of_ne _ hj

theorem exec_append {l' : List (Fin M.numProcesses × Action ρ α)}
    {s₁ s₂ : Shared ρ α M.numProcesses} :
    exec M (l ++ l') s₁ = some s₂ ↔ ∃ s, exec M l s₁ = some s ∧ exec M l' s = some s₂ := by
  induction l generalizing s₁ with
  | nil => simp [exec]
  | cons b l ih =>
      obtain ⟨j, b⟩ := b
      simp only [List.cons_append, exec, Option.bind_eq_some_iff, ih]
      constructor
      · rintro ⟨s', h', s, h, hl'⟩
        exact ⟨s, ⟨s', h', h⟩, hl'⟩
      · rintro ⟨s, ⟨s', h', h⟩, hl'⟩
        exact ⟨s', h', s, h, hl'⟩

theorem exec_singleton : exec M [(i, a)] s = some s' ↔ act M s i a = some s' := by
  rw [exec, Option.bind_eq_some_iff]
  constructor
  · rintro ⟨s'', h, hs⟩
    cases hs
    exact h
  · exact fun h => ⟨s', h, rfl⟩

/-- **The rule of invariants**: what holds before the first step, and what every step keeps, holds
after any sequence of steps.  The property may speak of the steps made so far. -/
theorem exec_induct {P : List (Fin M.numProcesses × Action ρ α) → Shared ρ α M.numProcesses → Prop}
    {s₀ : Shared ρ α M.numProcesses} (h₀ : P [] s₀)
    (hstep : ∀ l s i a s', P l s → Acts M s i a s' → P (l ++ [(i, a)]) s')
    (hexec : exec M l s₀ = some s) : P l s := by
  induction l using List.reverseRecOn generalizing s with
  | nil =>
      cases hexec
      exact h₀
  | append_singleton l ia ih =>
      obtain ⟨i, a⟩ := ia
      obtain ⟨s', hexec, hact⟩ := exec_append.mp hexec
      exact hstep l s' i a s (ih hexec) (acts_of_act (exec_singleton.mp hact))

/-! ### Epochs of the past -/

/-- What holds of the data of a thread at all times. -/
structure SaneThread (n epoch : ℕ) (t : Thread ρ α) : Prop where
  /-- the epoch that was read last, or the thread has not read any -/
  localvar : t.localvar % 2 = 0 ∧ t.localvar ≤ epoch ∨
    t.localvar = 1 ∧ t.pc = .idle ∧ t.checked = 0
  announced : t.announced % 2 = 1 ∨ t.announced ≤ epoch
  advancing : t.pc = .advancing → n ≤ t.checked
  /-- all threads are checked only once the epoch has been advanced -/
  checked : t.pc ≠ .advancing → t.checked < n ∨ t.pc = .idle ∧ t.localvar < epoch
  todo : t.pc.todo.Nodup
  bags : ∀ ty, Current 0 (t.bags ty)

/-- **Announcements and local copies are epochs of the past.** -/
structure Sane (M : Manager ρ) (s : Shared ρ α M.numProcesses) : Prop where
  epoch : s.epoch % 2 = 0
  thread : ∀ i, SaneThread M.numProcesses s.epoch (s.threadData i)

section

omit [DecidableEq ρ]

theorem SaneThread.mono {n e e' : ℕ} {t : Thread ρ α} (h : SaneThread n e t) (he : e ≤ e') :
    SaneThread n e' t where
  localvar := h.localvar.imp_left fun hl => ⟨hl.1, hl.2.trans he⟩
  announced := h.announced.imp_right fun ha => ha.trans he
  advancing := h.advancing
  checked hpc := (h.checked hpc).imp_right fun hl => ⟨hl.1, hl.2.trans_le he⟩
  todo := h.todo
  bags := h.bags

theorem SaneThread.start {e : ℕ} {t : Thread ρ α} (h : SaneThread M.numProcesses e t)
    (hpos : 0 < M.numProcesses) (hpc : t.pc = .idle) (he : e % 2 = 0) :
    SaneThread M.numProcesses e (t.start M e) := by
  unfold Thread.start
  split_ifs with hne
  · exact ⟨.inl ⟨he, le_rfl⟩, h.announced, nofun, fun _ => .inl hpos, M.nodup, h.bags⟩
  · have hl : t.localvar = e := (not_not.mp hne).symm
    refine ⟨.inl ⟨he, le_rfl⟩, h.announced, nofun, fun _ => .inl ?_, List.nodup_nil, h.bags⟩
    rcases h.checked (by rw [hpc]; exact nofun) with hlt | ⟨-, hlt⟩
    · exact hlt
    · exact absurd hlt (by rw [hl]; exact lt_irrefl e)

/-- A thread in `startOp` has read an epoch. -/
theorem SaneThread.even {n e : ℕ} {t : Thread ρ α} (h : SaneThread n e t) (hpc : t.pc ≠ .idle) :
    t.localvar % 2 = 0 ∧ t.localvar ≤ e :=
  h.localvar.resolve_right fun hl => hpc hl.2.1

/-- **A scan reads the announcement of a thread that exists.** -/
theorem SaneThread.checked_lt {n e : ℕ} {t : Thread ρ α} (h : SaneThread n e t)
    (hpc : t.pc = .scanning) : t.checked < n := by
  rcases h.checked (by rw [hpc]; exact nofun) with hlt | ⟨hidle, -⟩
  · exact hlt
  · rw [hpc] at hidle
    cases hidle

theorem SaneThread.scan {n e : ℕ} {t : Thread ρ α} (h : SaneThread n e t) (hpc : t.pc = .scanning)
    (other : ℕ) : SaneThread n e (t.scan n other) := by
  have heven := h.even (by rw [hpc]; exact nofun)
  unfold Thread.scan
  split_ifs with hother hn
  · exact ⟨.inl heven, h.announced, fun _ => hn, fun hadv => absurd rfl hadv,
      List.nodup_nil, h.bags⟩
  · exact ⟨.inl heven, h.announced, nofun, fun _ => .inl (not_le.mp hn), List.nodup_nil,
      h.bags⟩
  · exact ⟨.inl heven, h.announced, nofun, fun _ => .inl (h.checked_lt hpc),
      List.nodup_nil, h.bags⟩

end

theorem current_update {bags : ρ → World α} {ty : ρ} {w : World α} {cfg : Cfg} {op : Op α}
    (h : ∀ ty, Current 0 (bags ty)) (hop : op.inner = true) (hw : step cfg (bags ty) op = some w)
    (ty' : ρ) : Current 0 (Function.update bags ty w ty') := by
  by_cases hty : ty' = ty
  · subst hty
    rw [Function.update_self]
    exact (h ty').step hop hw
  · rw [Function.update_of_ne hty]
    exact h ty'

theorem Sane.acts (h : Sane M s) (ha : Acts M s i a s') : Sane M s' := by
  have ht := h.thread i
  have hpos : 0 < M.numProcesses := Nat.zero_lt_of_lt i.isLt
  cases ha with
  | startOp hpc => exact ⟨h.epoch, Shared.forall_set h.thread (ht.start hpos hpc h.epoch)⟩
  | rotate hpc hw =>
      have heven := ht.even (by rw [hpc]; exact nofun)
      have hlt := (ht.checked (by rw [hpc]; exact nofun)).resolve_right (by rw [hpc]; exact nofun)
      have htodo := ht.todo
      rw [hpc] at htodo
      exact ⟨h.epoch, Shared.forall_set h.thread ⟨.inl heven, ht.announced, nofun,
        fun _ => .inl hlt, (List.nodup_cons.mp htodo).2, current_update ht.bags rfl hw⟩⟩
  | freeOne hpc hw =>
      have heven := ht.even (by rw [hpc]; exact nofun)
      have hlt := (ht.checked (by rw [hpc]; exact nofun)).resolve_right (by rw [hpc]; exact nofun)
      exact ⟨h.epoch, Shared.forall_set h.thread ⟨.inl heven, ht.announced, nofun,
        fun _ => .inl hlt, List.nodup_nil, current_update ht.bags rfl hw⟩⟩
  | announce hpc =>
      have heven := ht.even (by rw [hpc]; exact nofun)
      have hlt := (ht.checked (by rw [hpc]; exact nofun)).resolve_right (by rw [hpc]; exact nofun)
      exact ⟨h.epoch, Shared.forall_set h.thread
        ⟨.inl heven, .inr heven.2, nofun, fun _ => .inl hlt, List.nodup_nil, ht.bags⟩⟩
  | scan hpc hlt => exact ⟨h.epoch, Shared.forall_set h.thread (ht.scan hpc _)⟩
  | skip hpc =>
      have heven := ht.even (by rw [hpc]; exact nofun)
      exact ⟨h.epoch, Shared.forall_set h.thread
        ⟨.inl heven, ht.announced, nofun, fun _ => .inl (ht.checked_lt hpc), List.nodup_nil,
          ht.bags⟩⟩
  | endOp hpc =>
      refine ⟨h.epoch, Shared.forall_set h.thread
        ⟨ht.localvar, .inl ?_, ht.advancing, ht.checked, ht.todo, ht.bags⟩⟩
      show (_ / 2 * 2 + 1) % 2 = 1
      omega
  | retire hpc hw =>
      exact ⟨h.epoch, Shared.forall_set h.thread ⟨ht.localvar, ht.announced, ht.advancing,
        ht.checked, ht.todo, current_update ht.bags rfl hw⟩⟩
  | advance hpc =>
      have heven := ht.even (by rw [hpc]; exact nofun)
      have hle := le_advancedEpoch s.epoch (s.threadData i).localvar
      refine ⟨advancedEpoch_even _ h.epoch, Shared.forall_set (fun j => (h.thread j).mono hle) ?_⟩
      exact ⟨.inl ⟨heven.1, heven.2.trans hle⟩, ht.announced.imp_right fun ha => ha.trans hle,
        nofun, fun _ => .inr ⟨rfl, lt_advancedEpoch heven.2⟩, List.nodup_nil, ht.bags⟩

omit [DecidableEq ρ] in
theorem sane_init : Sane M (M.init : Shared ρ α M.numProcesses) :=
  ⟨rfl, fun i => ⟨.inr ⟨rfl, rfl, rfl⟩, .inl rfl, nofun,
    fun _ => .inl (Nat.zero_lt_of_lt i.isLt), List.nodup_nil, fun _ => .inl rfl⟩⟩

theorem Sane.exec {s₀ : Shared ρ α M.numProcesses} (h : Sane M s₀)
    (hexec : exec M l s₀ = some s) : Sane M s :=
  exec_induct (P := fun _ s => Sane M s) h (fun _ _ _ _ _ hs ha => hs.acts ha) hexec

end Steps

end Cbat.Debra
