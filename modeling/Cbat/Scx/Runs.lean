/-
**Every run of LLX, SCX and the reclamation keeps the invariant.**

The parts are put together: the initial state has the invariant, and every step of the machine keeps
it.  Along a run nothing is forgotten: a record stays what it is until its owner writes it again,
which happens only if it was never in the tree, and what has been in the tree stays recorded.

Main definitions:

* `Cbat.Scx.Run` — a run from one state to another;
* `Cbat.Scx.Old` — the record has not been written since;
* `Cbat.Scx.Sample.looked` … `Cbat.Scx.Sample.deleted` — an insertion, which a second thread helps,
  and a deletion.

Main results:

* `Cbat.Scx.Reachable.inv` — **the invariant holds in every reachable state**;
* `Cbat.Scx.Inv.step` — **every step keeps the invariant, and everything that lasts**;
* `Cbat.Scx.Run.lasts`, `Cbat.Scx.Run.lasts_of_time` — what every step keeps, a run keeps;
* `Cbat.Scx.Run.old` — a record that has not been written since is what it was.
-/

import Cbat.Scx.Reclaim
import Cbat.Scx.Start

set_option relaxedAutoImplicit false
set_option autoImplicit false

namespace Cbat.Scx

variable {n : ℕ} {st st' : State n} {i : Fin n} {r x s j : ℕ}

/-! ### The initial state -/

theorem not_frz_init (r j x s : ℕ) : ¬ Frz (Mem.init n) r j x s := by
  rintro ⟨-, hs, -⟩
  simp [Mem.init, Mem.seenAt] at hs

theorem ptr_init (x : ℕ) : (Mem.init n).ptr x = dummy := by
  unfold Mem.ptr Mem.init
  simp only
  split_ifs <;> rfl

theorem marked_init (x : ℕ) : ((Mem.init n).node x).marked = false := by
  unfold Mem.init
  simp only
  split_ifs <;> rfl

theorem status_init (r : ℕ) : status ((Mem.init n).state r) = .aborted 0 := by
  change status stateAborted = .aborted 0
  decide

theorem ok_init : (view (State.init n).mem (State.init n).hist).Ok dummy := by
  have hf {r j x s : ℕ} (hp : (view (State.init n).mem (State.init n).hist).plan r j x s) : False :=
    not_frz_init r j x s hp
  have hs (r : ℕ) : (view (State.init n).mem (State.init n).hist).status r = .aborted 0 :=
    status_init r
  constructor
  · exact fun hp => (hf hp).elim
  · exact fun hp => (hf hp).elim
  · exact fun hp => (hf hp).elim
  · exact fun hp => (hf hp).elim
  · exact fun hp => hf hp
  · rw [hs]
    exact ⟨(by intro h; cases h), (by intro h; cases h)⟩
  · exact fun hp => (hf hp).elim
  · exact fun hp => (hf hp).elim
  · exact fun hp => (hf hp).elim
  · exact fun hp => (hf hp).elim
  · exact fun hp => (hf hp).elim
  · exact fun r => Nat.zero_le _
  · exact fun hp => (hf hp).elim
  · exact fun _ hp => (hf hp).elim
  · exact fun hx => absurd (ptr_init _) hx
  · exact fun hp => (hf hp).elim
  · exact fun h0 => absurd h0 (Nat.lt_irrefl 0)
  · intro r ha
    simp [view, State.init, Mem.init] at ha
  · intro r hc
    rw [hs] at hc
    cases hc
  · exact fun h0 => absurd h0 (Nat.lt_irrefl 0)
  · exact fun _ hp => (hf hp).elim
  · intro x hm
    exact absurd ((marked_init x).symm.trans hm) (by intro h; cases h)
  · exact fun _ _ hp => (hf hp).elim
  · exact fun hp => (hf hp).elim

theorem kid_init {y : ℕ} {d : Bool} (hk : (Mem.init n).kid x d = some y) :
    x = root ∧ d = true ∧ y = 2 := by
  obtain ⟨hne, rfl⟩ := kid_eq_some_iff.mp hk
  unfold Mem.child Mem.init at hne ⊢
  simp only at hne ⊢
  by_cases hx : x = root
  · cases d with
    | true => simp [hx]
    | false => simp [hx] at hne
  · cases d <;> simp [hx] at hne

theorem tree_init : TreeOk (State.init n).mem (State.init n).hist := by
  have hl : (State.init n).hist.linked = [root, 2] := rfl
  have mem_iff {x : ℕ} : x ∈ (State.init n).hist.linked ↔ x = root ∨ x = 2 := by simp [hl]
  constructor
  · exact mem_iff.mpr (.inl rfl)
  · intro x hx
    have hnext : (State.init n).mem.next = 3 + numSlots * n := rfl
    rcases mem_iff.mp hx with rfl | rfl
    · exact ⟨by decide, by rw [hnext, root]; omega⟩
    · exact ⟨by decide, by rw [hnext]; omega⟩
  · intro x _ d hd
    obtain ⟨rfl, rfl, hy⟩ := kid_init (kid_eq_some_iff.mpr ⟨hd, rfl⟩)
    change (Mem.init n).child root true ∈ _ ∧ (Mem.init n).child root true ≠ root
    rw [hy]
    exact ⟨mem_iff.mpr (.inr rfl), by decide⟩
  · intro x hx h0
    rcases mem_iff.mp hx with rfl | rfl <;> rfl
  · intro x hx hne _
    rcases mem_iff.mp hx with rfl | rfl
    · exact absurd rfl hne
    · rfl
  · constructor
    · intro x y z d e _ _ hkx hky
      obtain ⟨rfl, rfl, -⟩ := kid_init hkx
      obtain ⟨rfl, rfl, -⟩ := kid_init hky
      exact ⟨rfl, rfl⟩
    · intro x d _ hk
      obtain ⟨-, -, h2⟩ := kid_init hk
      exact absurd h2 (by decide)
  · intro r x hx
    cases hx
  · exact fun r => List.nodup_nil
  · exact fun r j x s hj => absurd hj (not_frz_init r j x s)
  · exact fun r j x s hj => absurd hj (not_frz_init r j x s)
  · intro r x hx
    cases hx
  · intro x hx hne _
    rcases mem_iff.mp hx with rfl | rfl
    · exact .refl
    · exact absurd rfl hne
  · exact fun r hs => absurd hs (Nat.lt_irrefl 0)
  · exact fun r hs => absurd hs (Nat.lt_irrefl 0)
  · exact fun r => Nat.zero_le 1
  · intro r hs
    exact absurd hs (by decide : stateAborted ≠ stateInProgress)

theorem threads_init : ThreadsOk (State.init n) := by
  have hlinked {x : ℕ} (hx : x ∈ (State.init n).hist.linked) : x < 3 := by
    have hl : (State.init n).hist.linked = [root, 2] := rfl
    rw [hl, root] at hx
    simp at hx
    omega
  constructor
  · intro i k heq
    exact Fin.ext (Nat.succ.inj heq)
  · exact fun i => Nat.succ_ne_zero _
  · exact fun i => Nat.succ_lt_succ i.isLt
  · exact fun r _ => rfl
  · exact fun i => .inl rfl
  · intro i k hk
    have hi := i.isLt
    have hslot : ((State.init n).thread i).allocatedNodes k = 3 + numSlots * i + k := rfl
    have hnext : (State.init n).mem.next = 3 + numSlots * n := rfl
    rw [hslot, hnext]
    unfold numSlots at *
    omega
  · intro i k a ha b hb heq
    have heq' : 3 + numSlots * (i : ℕ) + a = 3 + numSlots * (k : ℕ) + b := heq
    unfold numSlots at *
    exact ⟨Fin.ext (by omega), by omega⟩
  · intro i k hk hl
    have hlt := hlinked hl
    have hslot : ((State.init n).thread i).allocatedNodes k = 3 + numSlots * i + k := rfl
    omega
  · intro r hs
    exact absurd hs (by decide : stateAborted ≠ stateInProgress)

theorem inv_init : Inv (State.init n) where
  ok := ok_init
  word := fun r => .inr (.inr (by decide : stateAborted.getLsbD 1 = true))
  time_le := fun r => Nat.le_refl 0
  tree := tree_init
  threads := threads_init
  pc := fun i => trivial
  res := fun i p hp => by cases hp

/-! ### Every step -/

/-- **Every step keeps the invariant, and everything that lasts.** -/
theorem Inv.step (hI : Inv st) (hs : Step st st') : Kept st st' := by
  cases hs with
  | llx i x hpc hx =>
      refine hI.load ?_ ⟨hx, trivial⟩
      rw [hpc]
      rintro (⟨at_, heq⟩ | ⟨w, heq⟩) <;> cases heq
  | scx i c hpc hc => exact hI.scx hpc hc
  | exec i hpc =>
      cases hp : (st.thread i).pc with
      | idle => exact absurd hp hpc
      | llx x at_ => exact hI.exec_llx hp
      | help r other at_ => exact hI.exec_help hp
      | reclaim r w => exact hI.exec_reclaim hp
      | tryRetire r w j at_ => exact hI.exec_tryRetire hp
      | retireNodes r j => exact hI.exec_retireNodes hp
  | weak i r w j o k stateOld hpc =>
      have hok := hI.pc i
      unfold PcOk at hok
      rw [hpc] at hok
      exact hI.retire_go hpc (.refl _ _) .stay (.inl rfl) hI.word hok

/-- **The invariant holds in every reachable state.** -/
theorem Reachable.inv (hr : Reachable st) : Inv st :=
  hr.induct inv_init fun _ _ _ hI hs => (hI.step hs).inv

/-! ### Runs -/

/-- A run from one state to another. -/
def Run (st st' : State n) : Prop := Relation.ReflTransGen Step st st'

theorem Reachable.run (hr : Reachable st) (hrun : Run st st') : Reachable st' := hr.trans hrun

theorem Run.inv (hrun : Run st st') (hI : Inv st) : Inv st' := by
  induction hrun with
  | refl => exact hI
  | tail _ hs ih => exact (ih.step hs).inv

/-- **The rule of what lasts**: what every step keeps, a run keeps. -/
theorem Run.lasts {P : State n → Prop} (hrun : Run st st') (hI : Inv st) (h0 : P st)
    (hstep : ∀ s s', Inv s → Kept s s' → P s → P s') : P st' := by
  induction hrun with
  | refl => exact h0
  | tail hr hs ih =>
      have hI' := Run.inv hr hI
      exact hstep _ _ hI' (hI'.step hs) ih

theorem Run.clock_le (hrun : Run st st') (hI : Inv st) : st.hist.clock ≤ st'.hist.clock :=
  hrun.lasts (P := fun s => st.hist.clock ≤ s.hist.clock) hI (Nat.le_refl _)
    fun _ _ _ hk h => h.trans hk.clock

/-- What has been in the tree stays recorded. -/
theorem Run.linked (hrun : Run st st') (hI : Inv st) (hx : x ∈ st.hist.linked) :
    x ∈ st'.hist.linked :=
  hrun.lasts (P := fun s => x ∈ s.hist.linked) hI hx fun _ _ _ hk h => by
    obtain ⟨a, ha, -⟩ := hk.keeps
    exact ha.linked x h

/-- The result of an LLX stays worth what it is. -/
theorem Run.resOk (hrun : Run st st') (hI : Inv st) {res : LlxResult}
    (hx : ResOk st.mem st.hist x res) : ResOk st'.mem st'.hist x res :=
  hrun.lasts (P := fun s => ResOk s.mem s.hist x res) hI hx fun _ _ _ hk h => by
    obtain ⟨a, ha, -⟩ := hk.keeps
    exact h.keeps ha

/-- A marked node stays marked. -/
theorem Run.marked (hrun : Run st st') (hI : Inv st) (hx : (st.mem.node x).marked = true) :
    (st'.mem.node x).marked = true :=
  hrun.lasts (P := fun s => (s.mem.node x).marked = true) hI hx fun _ _ _ hk h => by
    obtain ⟨a, ha, -⟩ := hk.keeps
    exact ha.marked h

/-- The record is still the one that it was: it has not been written since. -/
structure Old (st st' : State n) (r : ℕ) : Prop where
  later : Freezing.Later (view st.mem st.hist) (view st'.mem st'.hist) r
  type : (st'.mem.record r).type = (st.mem.record r).type
  nodes : (st'.mem.record r).nodes = (st.mem.record r).nodes
  owner : (st'.hist.of r).owner = (st.hist.of r).owner
  inserted : (st'.hist.of r).inserted = (st.hist.of r).inserted
  res : (st'.hist.of r).res = (st.hist.of r).res
  doomed : (view st.mem st.hist).Doomed r → (view st'.mem st'.hist).Doomed r

theorem Old.refl (st : State n) (r : ℕ) : Old st st r :=
  ⟨.refl _ r, rfl, rfl, rfl, rfl, rfl, id⟩

theorem Old.step {st₁ st₂ : State n} {a : Freezing.Act ℕ} (ho : Old st st₁ r)
    (hk : Keeps st₁.mem st₁.hist a st₂.mem st₂.hist) (hw : a ≠ .write r) : Old st st₂ r where
  later := ho.later.trans (hk.later hw)
  type := (hk.type r hw).trans ho.type
  nodes := (hk.nodes r hw).trans ho.nodes
  owner := (hk.owner r hw).trans ho.owner
  inserted := (hk.inserted r hw).trans ho.inserted
  res := (hk.res r hw).trans ho.res
  doomed := fun hd => hk.ok.doomed_later hk.move hw (ho.doomed hd)

/-- A record that can still make its change could make it all along. -/
theorem Old.able (ho : Old st st' r) (hs : st'.mem.state r = stateInProgress)
    (h0 : (st'.hist.of r).swings = 0) (hd : ¬ (view st'.mem st'.hist).Doomed r) :
    st.mem.state r = stateInProgress ∧ (st.hist.of r).swings = 0 ∧
      ¬ (view st.mem st.hist).Doomed r := by
  refine ⟨?_, ?_, fun hc => hd (ho.doomed hc)⟩
  · by_contra hne
    exact ne_inProgress_of_status (ho.later.status (mt status_eq_inProgress_iff.mp hne)) hne hs
  · by_contra hne
    exact Nat.ne_of_gt (ho.later.swung (Nat.pos_of_ne_zero hne)) h0

/-- **The rule of what lasts about a record**: a record whose time lies before a state has not been
written since. -/
theorem Run.lasts_of_time {P : State n → Prop} (hrun : Run st st') (hI : Inv st)
    (ht : (st'.hist.of r).time ≤ st.hist.clock) (h0 : P st)
    (hstep : ∀ s s' a, Keeps s.mem s.hist a s'.mem s'.hist → a ≠ .write r → P s → P s') :
    P st' := by
  induction hrun with
  | refl => exact h0
  | @tail s s' hr hs ih =>
      obtain ⟨a, hk, hwrite⟩ := ((Run.inv hr hI).step hs).keeps
      have hw : a ≠ .write r := by
        intro heq
        have hlt := hwrite r heq
        have hle := Run.clock_le hr hI
        omega
      have htime : (s'.hist.of r).time = (s.hist.of r).time := (hk.later hw).time
      exact hstep s s' a hk hw (ih (htime ▸ ht))

/-- A record whose time lies before a state is still what it was then. -/
theorem Run.old (hrun : Run st st') (hI : Inv st) (ht : (st'.hist.of r).time ≤ st.hist.clock) :
    Old st st' r :=
  hrun.lasts_of_time (P := fun s => Old st s r) hI ht (.refl st r)
    fun _ _ _ hk hw ho => ho.step hk hw

/-! ### A sample run -/

/-- The threads of the list make their next accesses. -/
def State.play (st : State n) (l : List (Fin n)) : State n := l.foldl State.exec st

/-- None of them is outside when it is its turn. -/
def State.busy : State n → List (Fin n) → Bool
  | _, [] => true
  | st, i :: l => decide ((st.thread i).pc ≠ .idle) && (st.exec i).busy l

/-- The thread calls `llx`. -/
def State.llx (st : State n) (i : Fin n) (x : ℕ) : State n := st.go st.mem st.hist i (.llx x .scx1)

theorem Run.play {l : List (Fin n)} (hb : st.busy l = true) : Run st (st.play l) := by
  induction l generalizing st with
  | nil => exact .refl
  | cons i l ih =>
      simp only [State.busy, Bool.and_eq_true, decide_eq_true_eq] at hb
      exact .head (.exec i hb.1) (ih hb.2)

theorem Run.trans {st₁ st₂ st₃ : State n} (h₁ : Run st₁ st₂) (h₂ : Run st₂ st₃) : Run st₁ st₃ :=
  Relation.ReflTransGen.trans h₁ h₂

theorem Run.llx (hpc : (st.thread i).pc = .idle) {x : ℕ} (hx : x ∈ st.hist.linked) :
    Run st (st.llx i x) := .single (.llx i x hpc hx)

/-- The thread may call `llx` for the node, and then none of the threads of the list is outside when
it is its turn. -/
def State.looks (st : State n) (i : Fin n) (x : ℕ) (l : List (Fin n)) : Bool :=
  decide ((st.thread i).pc = .idle) && decide (x ∈ st.hist.linked) && (st.llx i x).busy l

theorem Run.look {x : ℕ} {l : List (Fin n)} (h : st.looks i x l = true) :
    Run st ((st.llx i x).play l) := by
  simp only [State.looks, Bool.and_eq_true, decide_eq_true_eq] at h
  obtain ⟨⟨hpc, hx⟩, hb⟩ := h
  exact .trans (.llx hpc hx) (.play hb)

namespace Sample

/-- Of two threads, the first one has called `llx` for the root. -/
def looked : State 2 := ((State.init 2).llx 0 root).play (List.replicate 6 0)

/-- An insertion at the only leaf. -/
def insertion : Call where
  type := .ins
  nodes := [root, 2]
  res := fun x => if x = root then .inner dummy 2 0 else .leaf
  fieldIsLeft := true
  new := .node 0 (.leaf 1) (.leaf 2)

/-- It begins. -/
def begun : State 2 := looked.scx 0 insertion

/-- The root is frozen, the second thread has come across the record and is about to help, and the
first thread is about to make the change. -/
def ready : State 2 := (((begun.play [0, 0]).llx 1 root).play [1, 1, 1]).play [0, 0, 0]

/-- The change has been made. -/
def changed : State 2 := ready.exec 0

/-- The first thread has committed and reclaimed, the second one has returned from `help`. -/
def inserted : State 2 := changed.play [0, 1, 0, 0, 0, 0, 0]

/-- The second thread has called `llx` for what it wants to delete. -/
def looked' : State 2 :=
  let st := (inserted.llx 1 root).play (List.replicate 6 1)
  let st := (st.llx 1 3).play (List.replicate 6 1)
  (st.llx 1 4).play (List.replicate 5 1)

/-- The deletion of one of the leaves. -/
def deletion : Call where
  type := .del
  nodes := [root, 3, 4, 5]
  res := fun x => if x = root then .inner 1 3 0 else if x = 3 then .inner dummy 4 5 else .leaf
  fieldIsLeft := true
  new := .leaf 0

/-- The nodes are frozen and marked. -/
def marked : State 2 := (looked'.scx 1 deletion).play (List.replicate 8 1)

/-- The deletion is over. -/
def deleted : State 2 := marked.play (List.replicate 14 1)

/-- What the evaluation of the run gives, state by state. -/
structure Evaluated : Prop where
  looks : (State.init 2).looks 0 root (List.replicate 6 0) = true
  looked_idle : (looked.thread 0).pc = .idle
  looked_record : (looked.thread 0).allocatedSCXRecord = 1
  looked_results : (looked.thread 0).llxResults = [(root, .inner dummy 2 0)]
  looked_leaf : (looked.mem.node 2).left = 0
  begun_state : begun.mem.state 1 = stateInProgress
  begun_busy : begun.busy [0, 0] = true
  begun_looks : (begun.play [0, 0]).looks 1 root [1, 1, 1] = true
  helped_busy : (((begun.play [0, 0]).llx 1 root).play [1, 1, 1]).busy [0, 0, 0] = true
  ready_pc : (ready.thread 0).pc = .help 1 false .update
  ready_time : (ready.hist.of 1).time = looked.hist.clock + 1
  ready_field : ready.mem.child (ready.mem.nodeAt 1 0) (ready.mem.record 1).fieldIsLeft =
    ready.mem.nodeAt 1 1
  ready_left : ready.mem.child root true = 2
  changed_left : changed.mem.child root true = 3
  changed_busy : changed.busy [0, 1, 0, 0, 0, 0, 0] = true
  changed_pc : (changed.thread 0).pc = .help 1 false .commit
  committed_pc : ((changed.exec 0).thread 1).pc = .help 1 true .state
  committed_state : (changed.exec 0).mem.state 1 = stateCommitted
  committed_time : ((changed.exec 0).hist.of 1).time = (changed.hist.of 1).time
  inserted_state : inserted.mem.state 1 = stateCommitted
  inserted_time : (inserted.hist.of 1).time = (begun.hist.of 1).time
  inserted_looks : inserted.looks 1 root (List.replicate 6 1) = true
  found_looks : ((inserted.llx 1 root).play (List.replicate 6 1)).looks 1 3
    (List.replicate 6 1) = true
  found_looks' : ((((inserted.llx 1 root).play (List.replicate 6 1)).llx 1 3).play
    (List.replicate 6 1)).looks 1 4 (List.replicate 5 1) = true
  looked'_idle : (looked'.thread 1).pc = .idle
  looked'_results : (looked'.thread 1).llxResults =
    [(4, .leaf), (3, .inner dummy 4 5), (root, .inner 1 3 0)]
  looked'_leaf : (looked'.mem.node 5).left = 0
  deletion_busy : (looked'.scx 1 deletion).busy (List.replicate 8 1) = true
  marked_marked : (marked.mem.node 3).marked = true
  marked_child : marked.mem.child 3 true = 4
  marked_ptr : marked.mem.ptr 3 = 2
  marked_busy : marked.busy (List.replicate 14 1) = true
  deleted_left : deleted.mem.child root true ≠ 0
  deleted_retired : deleted.mem.retired = [1]
  deleted_nodes : deleted.mem.retiredNodes = [5, 4, 3, 2]

theorem evaluated : Evaluated := by
  constructor <;> decide +kernel

theorem reachable_looked : Reachable looked :=
  Reachable.run .refl (.look (Evaluated.looks evaluated))

theorem proper_insertion : Proper looked 0 insertion where
  nodup := by decide
  length_eq := rfl
  llx := by
    rw [Evaluated.looked_results evaluated]
    decide
  leaf := by
    intro x hx
    obtain rfl : x = 2 := List.mem_singleton.mp hx
    exact ⟨rfl, by decide, Evaluated.looked_leaf evaluated⟩
  slots_lt := by decide
  slots_nodup := by decide
  patch := ⟨root, .leaf 2, dummy, 2, 0, rfl, rfl, rfl, rfl, .refl _, rfl, .inl ⟨rfl, .refl _⟩⟩

theorem reachable_begun : Reachable begun :=
  .tail reachable_looked (.scx 0 insertion (Evaluated.looked_idle evaluated) proper_insertion)

theorem run_begun : Run begun ready :=
  .trans (.trans (.play (Evaluated.begun_busy evaluated))
    (.look (Evaluated.begun_looks evaluated))) (.play (Evaluated.helped_busy evaluated))

theorem step_ready : Step ready changed := .exec 0 (by rw [Evaluated.ready_pc evaluated]; nofun)

theorem run_changed : Run changed inserted := .play (Evaluated.changed_busy evaluated)

theorem run_inserted : Run inserted looked' :=
  .trans (.trans (.look (Evaluated.inserted_looks evaluated))
    (.look (Evaluated.found_looks evaluated))) (.look (Evaluated.found_looks' evaluated))

theorem proper_deletion : Proper looked' 1 deletion where
  nodup := by decide
  length_eq := rfl
  llx := by
    rw [Evaluated.looked'_results evaluated]
    decide
  leaf := by
    intro x hx
    obtain rfl : x = 5 := List.mem_singleton.mp hx
    exact ⟨rfl, by decide, Evaluated.looked'_leaf evaluated⟩
  slots_lt := by decide
  slots_nodup := by decide
  patch := ⟨root, .node 3 (.leaf 4) (.leaf 5), 1, 3, 0, rfl, rfl, rfl, rfl, .refl _,
    ⟨⟨dummy, rfl⟩, rfl, rfl⟩, .inl ⟨rfl, .refl _⟩⟩

theorem run_looked' : Run looked' marked :=
  .head (.scx 1 deletion (Evaluated.looked'_idle evaluated) proper_deletion)
    (Run.play (Evaluated.deletion_busy evaluated))

theorem run_marked : Run marked deleted := .play (Evaluated.marked_busy evaluated)

theorem reachable_ready : Reachable ready := reachable_begun.run run_begun

theorem reachable_changed : Reachable changed := .tail reachable_ready step_ready

theorem reachable_marked : Reachable marked :=
  reachable_changed.run (run_changed.trans (run_inserted.trans run_looked'))

theorem reachable_deleted : Reachable deleted := reachable_marked.run run_marked

end Sample
end Cbat.Scx
