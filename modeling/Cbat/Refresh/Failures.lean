/-
**Two failed refreshes are as good as one that succeeds.**

`propagate` of BAT refreshes a node at most twice.  If the first CAS on `x` fails, the version of
`x` was installed after the first call had read the old one.  If the second CAS fails as well, the
version that it finds replaces one that was there when the second call began or is younger, so the
call that has installed it has read `x` and its children after the first call began.

Main definitions:

* `Cbat.Refresh.anything` — the rest of the memory changes in any way;
* `Cbat.Refresh.Again` — what is known of the version of `x` during a second call.

Main results:

* `Cbat.Refresh.againInv_step` — every step keeps it;
* `Cbat.Refresh.failed_twice` — **after two failures the version of `x` is made of loads that were
  made since the first call began**.
-/

import Cbat.Refresh.Model

set_option relaxedAutoImplicit false
set_option autoImplicit false

namespace Cbat.Refresh

variable {K V : Type}

/-- The rest of the memory may change in any way. -/
def anything : State K V → Mem K V → Prop := fun _ _ => True

/-- **The version of `x` during a second call on `x`** (the call at depth 0): it was installed after
the first call began, and once the second one has read it, every other version replaces one that was
installed after the first call began. -/
def Again (x : ℕ) (s : State K V) (began d : ℕ) (g : Frame K) (_ : Stamp) : Prop :=
  d = 0 → g.x = x → began < s.since ∧ (1 ≤ g.pos.stage →
    (s.mem.node x).version = g.oldVer ∨ ∃ a, s.last = some a ∧ began < a.before)

/-- All second calls. -/
def AgainInv (x : ℕ) (s : State K V) : Prop :=
  ∀ i t, s.task i = some t → t.again = true →
    Stack (Again x s t.began) t.stamps (t.f :: t.callers)

section Steps

variable {x : ℕ} {s s' : State K V} {m : Mem K V} {task : ℕ → Option (Task K)} {began d : ℕ}
  {g : Frame K} {st : Stamp}

theorem Again.keep (h : Again x s began d g st) (ho : Outside x s.mem m) :
    Again x (s.next m task s.last) began d g st := by
  intro hd hx
  obtain ⟨hs, hv⟩ := h hd hx
  refine ⟨hs, fun hp => ?_⟩
  rw [next_mem, ho.version]
  exact hv hp

/-- A new version replaces one that was installed after the first call began. -/
theorem Again.install (h : Again x s began d g st) (hb : began ≤ s.time) {a : Install}
    (ht : a.time = s.time + 1) (hbef : a.before = s.since) :
    Again x (s.next m task (some a)) began d g st := by
  intro hd hx
  have hs : (s.next m task (some a)).since = s.time + 1 := ht
  refine ⟨by omega, fun _ => .inr ⟨a, rfl, ?_⟩⟩
  rw [hbef]
  exact (h hd hx).1

/-- The version that a call of BAT expects is the one that it has read at first. -/
theorem Goes.oldVer_bat {m' : Mem K V} {ps : ℕ} {f : Frame K} (h : Goes .bat m ps f m' g)
    (hg : 1 ≤ g.pos.stage) :
    f.pos ≠ .cas ∧ g.oldVer = (m.node f.x).version ∨ 1 ≤ f.pos.stage ∧ g.oldVer = f.oldVer := by
  cases h with
  | getOld hp => simp [Pos.stage] at hg
  | old hp hvar => exact .inl ⟨by rcases hp with hp | hp <;> rw [hp] <;> decide, rfl⟩
  | again hp he hvar => cases hvar
  | leftVer hp | rightVer hp =>
      refine .inr ⟨?_, rfl⟩
      rcases hp with hp | hp <;> rw [hp] <;> decide
  | _ hp => exact .inr ⟨by rw [hp]; decide, rfl⟩

/-- A call of BAT that fails has found a version that was installed after its first load. -/
theorem Inv.began_lt_since (h : Inv x s) {i : ℕ} {t : Task K} (ht : s.task i = some t)
    (hx : t.f.x = x) {m' : Mem K V} {vs : List (Ver K)} {c : ℕ}
    (hs : FrameStep .bat s.mem t.ps t.f t.callers m' vs (.ret false c)) : t.began < s.since := by
  obtain ⟨-, hp, hne⟩ := failed_of_ret hs
  obtain ⟨hb, hle, ho⟩ := ((h.tasks i t ht).2.1 hx).old (by rw [hp]; decide)
  have hlt : ¬ s.since ≤ (t.stamps t.callers.length).old := fun hs => by
    rw [h.since_le_iff hle, ← ho] at hs
    exact hne (by rw [hx, hs])
  omega

/-- The thread that makes an access. -/
theorem Inv.again_own (hI : Inv x s) {i : ℕ} {t t' : Task K} (ht : s.task i = some t)
    {m' : Mem K V} {vs : List (Ver K)} {res : FrameResult K}
    (hf : FrameStep .bat s.mem t.ps t.f t.callers m' vs res)
    (ht' : t.after .bat s.time res = some t') (ha : t'.again = true)
    (hA : t.again = true → Stack (Again x s' t.began) t.stamps (t.f :: t.callers))
    (hsince : t.began < s.since → t.began < s'.since)
    (hv : t.f.pos ≠ .cas → (s'.mem.node x).version = (s.mem.node x).version) :
    Stack (Again x s' t'.began) t'.stamps (t'.f :: t'.callers) := by
  cases res with
  | run f' cs' =>
      obtain rfl := Option.some.inj ht'
      obtain ⟨hf', hcs⟩ := hA ha
      refine hcs.step hf (fun y st hd => nomatch hd) fun g hg hd hgx => ?_
      have hx : t.f.x = x := hg.x.symm.trans hgx
      refine ⟨(hf' hd hx).1, fun hstage => ?_⟩
      rcases hg.oldVer_bat hstage with ⟨hp, ho⟩ | ⟨hst, ho⟩
      · exact .inl (by rw [hv hp, ho, hx])
      · rw [ho]
        exact (hf' hd hx).2 hst
  | ret ok c =>
      rw [Task.after] at ht'
      split_ifs at ht' with hc
      obtain rfl := Option.some.inj ht'
      obtain ⟨-, -, rfl, -⟩ := hc
      refine ⟨fun _ hx => ⟨hsince (hI.began_lt_since ht hx hf), fun hs => ?_⟩, trivial⟩
      simp [Frame.start, Pos.stage] at hs

variable [DecidableEq K] {may : State K V → Mem K V → Prop}

/-- **Every step keeps what is known during a second call.** -/
theorem againInv_step (h : AgainInv x s) (hI : Inv x s) (hs : Step .bat x may s s') :
    AgainInv x s' := by
  cases hs with
  | env ho hm => exact fun i t ht ha => (h i t ht ha).imp fun d g st hg => hg.keep ho
  | @call i hi r main ps hps =>
      intro j t ht ha
      by_cases hj : j = i
      · rw [next_task, hj, Function.update_self] at ht
        obtain rfl := Option.some.inj ht
        exact nomatch ha
      · rw [next_task, Function.update_of_ne hj] at ht
        exact (h j t ht ha).imp fun d g st hg => hg.keep ⟨rfl, le_rfl⟩
  | @run i t ht =>
      have hbat : Variant.bat = .eagerDel → (s.mem.node x).left ≠ 0 := nofun
      obtain ⟨m', vs, res, hf, hcases⟩ := hI.exec_cases hbat i t
      rcases hcases with ⟨ho, he⟩ | ⟨hx, hp, hv, hm, he⟩
      · rw [he]
        intro j t' ht' ha
        by_cases hj : j = i
        · rw [next_task, hj, Function.update_self] at ht'
          refine hI.again_own ht hf ht' ha (fun ha => (h i t ht ha).imp fun d g st hg => hg.keep ho)
            id fun _ => ?_
          rw [next_mem, ho.version]
        · rw [next_task, Function.update_of_ne hj] at ht'
          exact (h j t' ht' ha).imp fun d g st hg => hg.keep ho
      · rw [he]
        intro j t' ht' ha
        by_cases hj : j = i
        · rw [next_task, hj, Function.update_self] at ht'
          have hb := (hI.tasks i t ht).1
          refine hI.again_own ht hf ht' ha (fun ha => (h i t ht ha).imp fun d g st hg =>
            hg.install hb rfl rfl) (fun _ => Nat.lt_succ_of_le hb) fun hne => absurd hp hne
        · rw [next_task, Function.update_of_ne hj] at ht'
          exact (h j t' ht' ha).imp fun d g st hg => hg.install (hI.tasks j t' ht').1 rfl rfl

end Steps

section Runs

variable [DecidableEq K] {x : ℕ} {s₀ s : State K V}

/-- What is known in every state of a run of BAT. -/
theorem run_bat {may : State K V → Mem K V → Prop} (h0 : Init x s₀) (h : Run .bat x may s₀ s) :
    Inv x s ∧ AgainInv x s := by
  induction h with
  | refl =>
      refine ⟨h0.inv, fun i t ht _ => .of_forall fun g hg d st _ hx => ?_⟩
      exact absurd hx ((h0.away i t ht).2 g hg)
  | tail _ hs ih => exact ⟨ih.1.step hs nofun, againInv_step ih.2 ih.1 hs⟩

/-- A second call that fails: the version that it has read is gone, and so the version of `x`
replaces one that was installed after the first call began. -/
theorem AgainInv.failed (hA : AgainInv x s) (hI : Inv x s) {i : ℕ} {t : Task K}
    (ht : s.task i = some t) (hagain : t.again = true) (hx : t.f.x = x) {c : ℕ}
    (hret : (stepFrame .bat s.mem t.ps t.f t.callers).2.2 = .ret false c) :
    ∃ a, s.last = some a ∧ Installed x s a ∧ ∀ u ∈ a.stamp.all, t.began ≤ u := by
  have hf := frameStep .bat s.mem t.ps t.f t.callers
  rw [hret] at hf
  obtain ⟨hcs, hp, hne⟩ := failed_of_ret hf
  have hagain' := (hA i t ht hagain).1 (by rw [hcs]; rfl) hx
  rw [hx] at hne
  obtain ⟨a, ha, hlt⟩ := (hagain'.2 (by rw [hp]; decide)).resolve_left hne
  have hi := hI.last a ha
  refine ⟨a, ha, hi, fun u hu => ?_⟩
  have := hi.loads hu
  omega

/-- **Two failed refreshes are as good as one that succeeds.**  When the second call of a thread
fails, the version of `x` was installed by a call that has read the version of `x`, both child
pointers and both versions of the children since the first call of the thread began. -/
theorem failed_twice (h0 : Init x s₀) (h : Run .bat x anything s₀ s) {i : ℕ} {t : Task K}
    (ht : s.task i = some t) (hagain : t.again = true) (hx : t.f.x = x) {c : ℕ}
    (hret : (stepFrame .bat s.mem t.ps t.f t.callers).2.2 = .ret false c) :
    ∃ a, s.last = some a ∧ Installed x s a ∧ t.began ≤ a.stamp.old ∧ t.began ≤ a.stamp.left ∧
      t.began ≤ a.stamp.right ∧ t.began ≤ a.stamp.leftver ∧ t.began ≤ a.stamp.rightver := by
  obtain ⟨hI, hA⟩ := run_bat h0 h
  obtain ⟨a, ha, hi, hload⟩ := hA.failed hI ht hagain hx hret
  simp only [Stamp.all, List.forall_mem_cons] at hload
  exact ⟨a, ha, hi, hload.1, hload.2.1, hload.2.2.2.1, hload.2.2.1, hload.2.2.2.2.1⟩

end Runs

/-- Thread 0 refreshes the root twice; both times thread 1 is faster. -/
def overtaken : State ℕ ℕ :=
  (List.replicate 8 0 ++ List.replicate 9 1 ++ List.replicate 8 0 ++ List.replicate 9 1).foldl
    (State.turn .bat root) fresh

theorem overtaken_covered : ∃ t, overtaken.task 0 = some t ∧ t.began = 1 ∧
    ∃ a, overtaken.last = some a ∧ Installed root overtaken a ∧ t.began ≤ a.stamp.old ∧
      t.began ≤ a.stamp.left ∧ t.began ≤ a.stamp.right ∧ t.began ≤ a.stamp.leftver ∧
        t.began ≤ a.stamp.rightver :=
  ⟨_, rfl, rfl, failed_twice (i := 0) (c := 2) fresh_init (run_turns fresh _) rfl rfl rfl rfl⟩

end Cbat.Refresh
