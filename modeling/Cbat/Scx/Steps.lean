/-
**LLX and help keep the invariant.**

Almost all accesses leave the tree alone: they load, they freeze or mark a node, they change a state
word.  Each of them is one move of the freezing protocol, and the thread knows afterwards what its
new program counter says.  Only the update CAS changes the tree; it finds the nodes of its record
frozen and marked, so the record fits.

Main definitions:

* `Cbat.Scx.Calm` — an access that leaves the tree alone.

Main results:

* `Cbat.Scx.Inv.calm` — **an access that leaves the tree alone keeps the invariant** if it is a move
  of the protocol and the thread knows what it has to;
* `Cbat.Scx.Inv.exec_llx`, `Cbat.Scx.Inv.exec_help` — the accesses of `llx` and `help`.
-/

import Cbat.Scx.Invariant

set_option relaxedAutoImplicit false
set_option autoImplicit false

namespace Cbat.Scx

variable {m m' : Mem} {h h' : History} {r x s : ℕ} {n : ℕ}

/-! ### Accesses that leave the tree alone -/

/-- The parts of the memory that neither the tree nor the protocol depends on. -/
theorem SameTree.of_eq (hn : m'.node = m.node) (hr : m'.record = m.record)
    (hx : m.next ≤ m'.next) : SameTree m h m' h := by
  constructor <;> simp [hn, hr, hx]

/-- An access that leaves the tree and the preallocated objects alone. -/
structure Calm (m : Mem) (h : History) (m' : Mem) (h' : History) : Prop
    extends SameTree m h m' h' where
  owner : ∀ r, (h'.of r).owner = (h.of r).owner
  clock : h'.clock = h.clock
  next_eq : m'.next = m.next
  nextRecord : m'.nextRecord = m.nextRecord

theorem SameTree.keeps {a : Freezing.Act ℕ} (hs : SameTree m h m' h') (ho : (view m h).Ok dummy)
    (hm : (view m h).Move dummy a (view m' h')) (hown : ∀ r, (h'.of r).owner = (h.of r).owner) :
    Keeps m h a m' h' where
  ok := ho
  move := hm
  linked := fun x hx => hs.linked ▸ hx
  leaf := fun x _ => by rw [hs.left]
  kids := fun x _ _ => ⟨hs.left x, hs.right x⟩
  type := fun r _ => hs.type r
  nodes := fun r _ => hs.nodes r
  owner := fun r _ => hown r
  inserted := fun r _ => hs.inserted r
  res := fun r _ => hs.res r

theorem SameTree.change (hs : SameTree m h m' h') : Change m h m' h' :=
  .inl ⟨hs.linked, fun x _ => hs.child x⟩

theorem History.set_same {β : Type} (f : RecordHistory → β) {c : RecordHistory}
    (hf : f c = f (h.of r)) (r' : ℕ) : f ((h.set r c).of r') = f (h.of r') := by
  unfold History.set
  by_cases hr : r' = r
  · subst hr; simpa using hf
  · simp [hr]

theorem Mem.setNode_same {β : Type} (f : Node → β) {c : Node} (hf : f c = f (m.node x)) (y : ℕ) :
    f ((m.setNode x c).node y) = f (m.node y) := by
  unfold Mem.setNode
  by_cases hy : y = x
  · subst hy; simpa using hf
  · simp [hy]

namespace Calm

theorem of_eq (hn : m'.node = m.node) (hr : m'.record = m.record) (hx : m'.next = m.next)
    (hxr : m'.nextRecord = m.nextRecord) : Calm m h m' h :=
  { SameTree.of_eq hn hr (Nat.le_of_eq hx.symm) with
    owner := fun _ => rfl
    clock := rfl
    next_eq := hx
    nextRecord := hxr }

theorem refl (m : Mem) (h : History) : Calm m h m h := of_eq rfl rfl rfl rfl

variable (hc : Calm m h m' h')

include hc

/-- Writing the history of a record, except for what the tree's invariant speaks of. -/
theorem setHist {r : ℕ} {c : RecordHistory} (hs : c.swings = (h'.of r).swings)
    (hr : c.res = (h'.of r).res) (hi : c.inserted = (h'.of r).inserted)
    (ho : c.owner = (h'.of r).owner) : Calm m h m' (h'.set r c) :=
  { hc with
    swings := fun r' => (History.set_same _ hs r').trans (hc.swings r')
    res := fun r' => (History.set_same _ hr r').trans (hc.res r')
    inserted := fun r' => (History.set_same _ hi r').trans (hc.inserted r')
    owner := fun r' => (History.set_same _ ho r').trans (hc.owner r') }

theorem advance (r k : ℕ) : Calm m h m' (h'.advance r k) := hc.setHist rfl rfl rfl rfl

theorem finish (r k : ℕ) : Calm m h m' (h'.finish r k) := hc.setHist rfl rfl rfl rfl

/-- Writing a node, except for its children, where it may only become marked. -/
theorem setNode {x : ℕ} {c : Node} (hl : c.left = (m'.node x).left)
    (hr : c.right = (m'.node x).right) (hm : (m'.node x).marked = true → c.marked = true) :
    Calm m h (m'.setNode x c) h' :=
  { hc with
    left := fun y => (Mem.setNode_same _ hl y).trans (hc.left y)
    right := fun y => (Mem.setNode_same _ hr y).trans (hc.right y)
    marked := fun y hy => by
      unfold Mem.setNode
      by_cases hyx : y = x
      · subst hyx
        simpa using hm (hc.marked y hy)
      · simpa [hyx] using hc.marked y hy }

theorem setPtr (x r : ℕ) : Calm m h (m'.setPtr x r) h' := hc.setNode rfl rfl id

theorem setMarked (x : ℕ) : Calm m h (m'.setMarked x) h' := hc.setNode rfl rfl fun _ => rfl

theorem setState (r : ℕ) (w : Word) : Calm m h (m'.setState r w) h' :=
  { hc with
    type := fun r' => by rw [record_setState]; exact hc.type r'
    nodes := fun r' => by rw [record_setState]; exact hc.nodes r'
    seen := fun r' => by rw [record_setState]; exact hc.seen r'
    newNode := fun r' => by rw [record_setState]; exact hc.newNode r'
    fieldIsLeft := fun r' => by rw [record_setState]; exact hc.fieldIsLeft r' }

theorem setAllFrozen (r : ℕ) : Calm m h (m'.setAllFrozen r) h' :=
  { hc with
    type := fun r' => by rw [record_setAllFrozen]; exact hc.type r'
    nodes := fun r' => by rw [record_setAllFrozen]; exact hc.nodes r'
    seen := fun r' => by rw [record_setAllFrozen]; exact hc.seen r'
    newNode := fun r' => by rw [record_setAllFrozen]; exact hc.newNode r'
    fieldIsLeft := fun r' => by rw [record_setAllFrozen]; exact hc.fieldIsLeft r' }

theorem keeps {a : Freezing.Act ℕ} (ho : (view m h).Ok dummy)
    (hm : (view m h).Move dummy a (view m' h')) : Keeps m h a m' h' :=
  hc.toSameTree.keeps ho hm hc.owner

end Calm

variable {st : State n} {i : Fin n} {a : Freezing.Act ℕ} {t' : Thread}

/-- **An access that leaves the tree alone keeps the invariant** if it is a move of the protocol and
the thread knows what it has to. -/
theorem Inv.calm (hI : Inv st) (hc : Calm st.mem st.hist m' h')
    (hm : (view st.mem st.hist).Move dummy a (view m' h')) (hno : ∀ r, a ≠ .write r)
    (hhelp : ∀ r, a = .help r → 0 < (st.hist.of r).front ∨
      (r = (st.thread i).allocatedSCXRecord ∧ (st.thread i).pc.Own r))
    (hacc : ∀ r, a = .account r → (st.hist.of r).owner = i) (hword : ∀ r, WordOk (m'.state r))
    (hrec : t'.allocatedSCXRecord = (st.thread i).allocatedSCXRecord)
    (hslots : t'.allocatedNodes = (st.thread i).allocatedNodes)
    (hown : (st.thread i).pc.Own t'.allocatedSCXRecord → t'.pc.Own t'.allocatedSCXRecord)
    (hpc : PcOk m' h' i t')
    (hres : ∀ p ∈ t'.llxResults, p ∈ (st.thread i).llxResults ∨ ResOk m' h' p.1 p.2) :
    Kept st (st.set m' h' i t') := by
  have hk := hc.keeps hI.ok hm
  refine Acts.kept (a := a) hI
    { keeps := hk
      change := hc.toSameTree.change
      no_write := hno
      help := hhelp
      account := hacc
      word := hword
      clock := hc.clock
      next := hc.next_eq
      nextRecord := hc.nextRecord
      tree := ?_
      record_eq := hrec
      slots_eq := hslots
      own := hown
      linked := fun x hx => .inl (hc.linked ▸ hx)
      pc := hpc
      res := fun p hp => (hres p hp).elim (fun hp => (hI.res i p hp).keeps hk) id }
  exact hI.tree.same hc.toSameTree (fun r => hk.inProgress (hno r))
    fun r => hI.ok.doomed_later hm (hno r)

/-- The program counter of a thread that changes nothing else. -/
theorem Inv.go (hI : Inv st) {pc : Pc} (hc : Calm st.mem st.hist m' h')
    (hm : (view st.mem st.hist).Move dummy a (view m' h')) (hno : ∀ r, a ≠ .write r)
    (hhelp : ∀ r, a = .help r → 0 < (st.hist.of r).front ∨
      (r = (st.thread i).allocatedSCXRecord ∧ (st.thread i).pc.Own r))
    (hacc : ∀ r, a = .account r → (st.hist.of r).owner = i) (hword : ∀ r, WordOk (m'.state r))
    (hown : (st.thread i).pc.Own (st.thread i).allocatedSCXRecord →
      pc.Own (st.thread i).allocatedSCXRecord)
    (hpc : PcOk m' h' i { st.thread i with pc := pc }) : Kept st (st.go m' h' i pc) :=
  hI.calm hc hm hno hhelp hacc hword rfl rfl hown hpc fun _ hp => .inl hp

/-- An access that changes nothing but the program counter. -/
theorem Inv.load (hI : Inv st) {pc : Pc}
    (hown : (st.thread i).pc.Own (st.thread i).allocatedSCXRecord →
      pc.Own (st.thread i).allocatedSCXRecord)
    (hpc : PcOk st.mem st.hist i { st.thread i with pc := pc }) :
    Kept st (st.go st.mem st.hist i pc) :=
  hI.go (.refl _ _) .stay nofun nofun nofun hI.word hown hpc

/-! ### LLX -/

theorem SeenOk.of_ptr (ho : (view m h).Ok dummy) (x : ℕ) : SeenOk m h x (m.ptr x) := by
  refine ⟨?_, .inl rfl⟩
  by_cases hx : m.ptr x = dummy
  · exact .inl hx
  · obtain ⟨j, s, hj, hlt⟩ := ho.ptr_frozen hx
    exact .inr ⟨j, s, hj, hlt⟩

/-- A record that has been the record of a node may be helped. -/
theorem SeenOk.help (hs : SeenOk m h x s) (k : ℕ) (t : Thread) :
    PcOk m h k { t with pc := .help s true .state } := by
  refine ⟨?_, trivial⟩
  rcases hs.published with hd | ⟨i, -, -, hi⟩
  · exact .inl ⟨hd, rfl⟩
  · exact .inr (Nat.zero_lt_of_lt hi)

/-- A record that was found finished, at a node that it has not marked. -/
theorem SeenOk.settled {w : Word} (hs : SeenOk m h x s) (ho : (view m h).Ok dummy)
    (hw : status (m.state s) = status w)
    (hcond : (w = stateCommitted ∧ (m.node x).marked = false) ∨ w.Aborted) : Settled m h x s := by
  have hne : w ≠ stateInProgress := by
    rintro rfl
    rcases hcond with ⟨hc, -⟩ | hc
    · exact absurd hc (by decide)
    · exact not_aborted_inProgress hc
  refine ⟨hs, ne_inProgress_of_status hw hne, ?_⟩
  intro hc k s' hk
  have hwc : w = stateCommitted := by rw [← status_eq_committed_iff, ← hw, hc]; rfl
  have hmarked : (m.node x).marked = false := by
    rcases hcond with ⟨-, hm⟩ | ha
    · exact hm
    · exact absurd (hwc ▸ ha) not_aborted_committed
  by_contra h0
  have hm : (m.node x).marked = true :=
    ho.swung_marked (ho.committed (status_eq_committed_iff.mpr hc)) hk h0
  simp [hmarked] at hm

/-- **One access of `llx`**: the thread knows what it has to, and a result is worth something. -/
theorem LlxOk.step {at_ : LlxAt} (hl : LlxOk m h x at_) (ho : (view m h).Ok dummy)
    (hT : TreeOk m h) (hx : x ∈ h.linked) (k : ℕ) (t : Thread) :
    PcOk m h k { t with pc := (llxStep m x at_).1 } ∧
      ∀ res, (llxStep m x at_).2 = some res → ResOk m h x res := by
  cases at_ with
  | scx1 => exact ⟨⟨hx, SeenOk.of_ptr ho x⟩, nofun⟩
  | state s => exact ⟨⟨hx, hl, fun _ => rfl⟩, nofun⟩
  | marked s w =>
      obtain ⟨hs, hw⟩ := hl
      simp only [llxStep]
      split_ifs with hcond hprog
      · refine ⟨⟨hx, hs.settled ho (hw ?_) hcond⟩, nofun⟩
        rintro rfl
        rcases hcond with ⟨hc, -⟩ | hc
        · exact absurd hc (by decide)
        · exact not_aborted_inProgress hc
      · exact ⟨hs.help k t, nofun⟩
      · exact ⟨⟨hx, trivial⟩, nofun⟩
  | left s =>
      refine ⟨⟨hx, hl, Iff.rfl, fun h0 => ?_, fun _ => rfl⟩, nofun⟩
      exact hT.child_mem x hx true h0
  | right s l =>
      obtain ⟨hs, hiff, hc, hsame⟩ := hl
      simp only [llxStep]
      split_ifs with h0
      · refine ⟨trivial, ?_⟩
        rintro _ ⟨⟩
        exact ⟨hx, hiff.mpr h0⟩
      · refine ⟨⟨hx, ?_⟩, nofun⟩
        exact
          { hs with
            inner := mt hiff.mp h0
            left_ne := h0
            left := hc h0
            right_ne := fun hroot hr => mt hiff.mp h0 (hT.full x hx hroot hr)
            right := fun hr => hT.child_mem x hx false hr
            same := fun hp => ⟨hsame hp, rfl⟩ }
  | scx2 s l r =>
      simp only [llxStep]
      split_ifs with hp
      · refine ⟨trivial, ?_⟩
        rintro _ ⟨⟩
        exact ⟨hx, hl⟩
      · exact ⟨(SeenOk.of_ptr ho x).help k t, nofun⟩
  | scx3 => exact ⟨(SeenOk.of_ptr ho x).help k t, nofun⟩

theorem Inv.exec_llx {at_ : LlxAt} (hI : Inv st) (hpc : (st.thread i).pc = .llx x at_) :
    Kept st (st.exec i) := by
  have hown (pc : Pc) : (st.thread i).pc.Own (st.thread i).allocatedSCXRecord →
      pc.Own (st.thread i).allocatedSCXRecord := by
    rw [hpc]
    rintro (⟨at', h'⟩ | ⟨w, h'⟩) <;> cases h'
  have hok := hI.pc i
  unfold PcOk at hok
  rw [hpc] at hok
  obtain ⟨hpc', hres⟩ := hok.2.step hI.ok hI.tree hok.1 i (st.thread i)
  unfold State.exec
  rw [hpc]
  simp only
  generalize llxStep st.mem x at_ = p at hpc' hres
  obtain ⟨pc, res⟩ := p
  cases res with
  | none => exact hI.load (hown pc) hpc'
  | some res =>
      refine hI.calm (.refl _ _) .stay nofun nofun nofun hI.word rfl rfl (hown pc) hpc' ?_
      intro p hp
      rcases List.mem_cons.mp hp with rfl | hp
      · exact .inr (hres res rfl)
      · exact .inl hp

/-! ### Help -/

theorem exec_help_eq {other : Bool} {at_ : HelpAt} (hpc : (st.thread i).pc = .help r other at_) :
    st.exec i = st.go (helpStep st.mem st.hist r other at_).1
      (helpStep st.mem st.hist r other at_).2.1 i (helpStep st.mem st.hist r other at_).2.2 := by
  unfold State.exec
  rw [hpc]

@[simp] theorem front_advance (k : ℕ) :
    ((h.advance r k).of r).front = max (h.of r).front k := by
  simp [History.advance, History.set]

theorem FlagsOk.succ {i : ℕ} {flags : Word} (hf : FlagsOk m r i flags) (hi : i < m.nFreeze r) :
    FlagsOk m r (i + 1) (flags ||| (1#32 <<< i)) := by
  intro j x s hj hlt
  have h32 : i < 32 := by
    have := (m.record r).type.numToFreeze_lt
    unfold Mem.nFreeze at hi
    omega
  rw [BitVec.getLsbD_or]
  rcases Nat.lt_succ_iff_lt_or_eq.mp hlt with hlt | rfl
  · rw [hf j x s hj hlt, Bool.true_or]
  · have hbit : (1#32 <<< j).getLsbD j = true := by
      rw [BitVec.getLsbD_shiftLeft]
      simp [h32]
    rw [hbit, Bool.or_true]

section Help

variable {other : Bool} {at_ : HelpAt}

/-- The thread runs `help(r, helpingOther)`, past the first load if it is not the owner. -/
structure Helping (st : State n) (i : Fin n) (r : ℕ) (other : Bool) : Prop where
  pc : ∃ at_, (st.thread i).pc = .help r other at_
  begun : other = true → 0 < (st.hist.of r).front
  own : other = false → Owned st.hist i (st.thread i).allocatedSCXRecord r

theorem Inv.helping (hI : Inv st) (hpc : (st.thread i).pc = .help r other at_)
    (hat : at_ = .state → st.mem.state r = stateInProgress) : Helping st i r other := by
  have hok := hI.pc i
  unfold PcOk at hok
  rw [hpc] at hok
  cases other with
  | true =>
      refine ⟨⟨at_, hpc⟩, fun _ => ?_, nofun⟩
      rcases hok.1 with ⟨rfl, hs⟩ | h0
      · exact absurd (status_eq_inProgress_iff.mpr (hat hs)) hI.ok.dummy_status.1
      · exact h0
  | false => exact ⟨⟨at_, hpc⟩, nofun, fun _ => hok.1⟩

theorem Inv.helpOk (hI : Inv st) (hpc : (st.thread i).pc = .help r other at_) :
    HelpOk st.mem st.hist r at_ := by
  have hok := hI.pc i
  unfold PcOk at hok
  rw [hpc] at hok
  cases other with
  | true => exact hok.2
  | false => exact hok.2.2

namespace Helping

variable (hI : Inv st) (hh : Helping st i r other) (hc : Calm st.mem st.hist m' h')
  (hm : (view st.mem st.hist).Move dummy a (view m' h')) (ha : a = .none ∨ a = .help r)
  (hword : ∀ r, WordOk (m'.state r))

include hh

theorem may_help (ha : a = .none ∨ a = .help r) (r' : ℕ) (hr : a = .help r') :
    0 < (st.hist.of r').front ∨
      (r' = (st.thread i).allocatedSCXRecord ∧ (st.thread i).pc.Own r') := by
  rcases ha with rfl | rfl
  · cases hr
  · obtain rfl : r = r' := by injection hr
    cases hoth : other with
    | true => exact .inl (hh.begun hoth)
    | false =>
        obtain ⟨at_, hpc⟩ := hh.pc
        exact .inr ⟨(hh.own hoth).record, .inl ⟨at_, hoth ▸ hpc⟩⟩

/-- Only the owner is in its own SCX. -/
theorem own_of (ho : (st.thread i).pc.Own (st.thread i).allocatedSCXRecord) : other = false := by
  obtain ⟨at_, hpc⟩ := hh.pc
  rw [hpc] at ho
  rcases ho with ⟨at', heq⟩ | ⟨w, heq⟩
  · injection heq
  · cases heq

include hI hc hm ha hword

/-- `help` goes on. -/
theorem go {at' : HelpAt} (hne : at' ≠ .state) (hok : HelpOk m' h' r at') :
    Kept st (st.go m' h' i (.help r other at')) := by
  have hno : ∀ r', a ≠ .write r' := by rcases ha with rfl | rfl <;> nofun
  have hna : a ≠ .account r := by rcases ha with rfl | rfl <;> nofun
  have hacc : ∀ r', a = .account r' → (st.hist.of r').owner = i := by
    rcases ha with rfl | rfl <;> nofun
  have hk := hc.keeps hI.ok hm
  refine hI.go hc hm hno (hh.may_help ha) hacc hword ?_ ?_
  · intro ho
    obtain rfl := hh.own_of ho
    exact .inl ⟨at', by rw [(hh.own rfl).record]⟩
  · cases other with
    | true => exact ⟨.inr (hk.begun (hh.begun rfl)), hok⟩
    | false => exact ⟨(hh.own rfl).keeps hk (hno r) hna, fun hs => absurd hs hne, hok⟩

/-- `help` returns. -/
theorem ret {w : Word} (hout : other = false → Outcome m' h' r w) :
    Kept st (st.go m' h' i (helpReturn r other w)) := by
  have hno : ∀ r', a ≠ .write r' := by rcases ha with rfl | rfl <;> nofun
  have hna : a ≠ .account r := by rcases ha with rfl | rfl <;> nofun
  have hacc : ∀ r', a = .account r' → (st.hist.of r').owner = i := by
    rcases ha with rfl | rfl <;> nofun
  refine hI.go hc hm hno (hh.may_help ha) hacc hword ?_ ?_
  · intro ho
    obtain rfl := hh.own_of ho
    exact .inr ⟨w, by rw [← (hh.own rfl).record]; rfl⟩
  · cases other with
    | true => trivial
    | false => exact ⟨(hh.own rfl).keeps (hc.keeps hI.ok hm) (hno r) hna, hout rfl⟩

end Helping

/-- A record in progress that nobody else knows has its first node to freeze. -/
theorem Inv.fresh_first (hI : Inv st) (hf : Fresh st.mem st.hist r) :
    ∃ s, Frz st.mem r 0 (st.mem.nodeAt r 0) s := by
  have hs : (st.hist.of r).swings = 0 := by
    by_contra hne
    have hpos := (hI.ok.frozen (hI.ok.swung_frozen (r := r) (Nat.pos_of_ne_zero hne))).2
    exact Nat.ne_of_gt hpos hf.2
  rcases hI.tree.fits r hf.1 hs with ⟨j, -, x, s, hp, -⟩ | ⟨old, new, hfits⟩
  · obtain ⟨x, s, hx⟩ := hI.ok.plan_zero hp
    have hx' : Frz st.mem r 0 x s := hx
    exact ⟨s, hx'.1, hx'.2.1, rfl⟩
  · exact hfits.first

variable (hI : Inv st)

include hI

/-- The first load of the state. -/
theorem Inv.help_state (hpc : (st.thread i).pc = .help r other .state) : Kept st (st.exec i) := by
  have hok := hI.pc i
  unfold PcOk at hok
  rw [hpc] at hok
  rw [exec_help_eq hpc]
  simp only [helpStep]
  by_cases hs : st.mem.state r = stateInProgress
  · have hh := hI.helping hpc fun _ => hs
    rw [if_neg (not_not.mpr hs)]
    refine hh.go hI (.refl _ _) .stay (.inl rfl) hI.word nofun ?_
    cases other with
    | true =>
        refine ⟨nofun, hh.begun rfl, fun j x s _ hj => ?_⟩
        obtain rfl : j = 0 := Nat.lt_one_iff.mp hj
        decide
    | false => exact ⟨fun _ => hok.2.1 rfl, Nat.zero_le _, fun j x s _ hj => absurd hj (by simp)⟩
  · rw [if_pos hs]
    cases other with
    | true =>
        refine hI.load (fun ho => ?_) trivial
        rw [hpc] at ho
        rcases ho with ⟨at', heq⟩ | ⟨w, heq⟩ <;> cases heq
    | false => exact absurd (hok.2.1 rfl).1 hs

/-- The loop that freezes the nodes. -/
theorem Inv.help_freeze {k : ℕ} {flags : Word}
    (hpc : (st.thread i).pc = .help r other (.freeze k flags)) : Kept st (st.exec i) := by
  have hh := hI.helping hpc nofun
  obtain ⟨hfresh, hk, hflags⟩ : (k = 0 → Fresh st.mem st.hist r) ∧ k ≤ (st.hist.of r).front ∧
      FlagsOk st.mem r k flags := hI.helpOk hpc
  have hle : (st.hist.of r).front ≤ st.mem.nFreeze r := hI.ok.front_le r
  rw [exec_help_eq hpc]
  simp only [helpStep]
  by_cases hlt : k < st.mem.nFreeze r
  · rw [if_pos hlt]
    cases hseen : st.mem.seenAt r k with
    | none =>
        have hnone (x s) : ¬ Frz st.mem r k x s := by
          rintro ⟨-, hs, -⟩
          simp [hseen] at hs
        have h0 : 0 < (st.hist.of r).front := by
          by_contra h0
          obtain rfl : k = 0 := by omega
          obtain ⟨s, hs⟩ := hI.fresh_first (hfresh rfl)
          exact hnone _ s hs
        have hm : (view st.mem st.hist).Move dummy (.help r)
            (view st.mem (st.hist.advance r (k + 1))) := by
          rw [view_advance]
          exact .pass r k hlt hk h0 fun _ => hnone
        refine hh.go hI ((Calm.refl _ _).advance r _) hm (.inr rfl) hI.word nofun ⟨nofun, ?_, ?_⟩
        · rw [front_advance]
          exact Nat.le_max_right ..
        · intro j x s hj hjk
          rcases Nat.lt_succ_iff_lt_or_eq.mp hjk with hjk | rfl
          · exact hflags j x s hj hjk
          · exact absurd hj (hnone x s)
    | some exp =>
        have hp : Frz st.mem r k (st.mem.nodeAt r k) exp := ⟨hlt, hseen, rfl⟩
        simp only
        split_ifs with hx hx'
        · -- the freezing CAS succeeds
          have h0 : 0 < (st.hist.of r).front ∨ status (st.mem.state r) = .inProgress := by
            rcases Nat.eq_zero_or_pos k with hk0 | hk0
            · exact .inr (status_eq_inProgress_iff.mpr (hfresh hk0).1)
            · exact .inl (hk0.trans_le hk)
          have hm : (view st.mem st.hist).Move dummy (.help r)
              (view (st.mem.setPtr (st.mem.nodeAt r k) r) (st.hist.advance r (k + 1))) := by
            rw [view_setPtr, view_advance]
            exact .freeze r k _ exp hp hk hx h0
          refine hh.go hI (((Calm.refl _ _).setPtr _ r).advance r _) hm (.inr rfl) hI.word nofun
            ⟨nofun, ?_, hflags.succ hlt⟩
          rw [front_advance]
          exact Nat.le_max_right ..
        · -- another helper has frozen the node
          have hr : (view st.mem st.hist).ptr (st.mem.nodeAt r k) ≠ dummy := by
            intro hd
            obtain rfl : r = dummy := hx'.symm.trans hd
            exact hI.ok.dummy_plan hp
          have hkf : k < (st.hist.of r).front := by
            obtain ⟨j, s, hj, hjf⟩ := hI.ok.ptr_frozen hr
            have hx'' : (view st.mem st.hist).ptr (st.mem.nodeAt r k) = r := hx'
            rw [hx''] at hj hjf
            exact hI.ok.plan_inj hp hj ▸ hjf
          have hm : (view st.mem st.hist).Move dummy (.help r)
              (view st.mem (st.hist.advance r (k + 1))) := by
            rw [view_advance]
            exact .pass r k hlt hk (Nat.zero_lt_of_lt hkf) fun heq => absurd heq (Nat.ne_of_lt hkf)
          refine hh.go hI ((Calm.refl _ _).advance r _) hm (.inr rfl) hI.word nofun
            ⟨nofun, ?_, hflags.succ hlt⟩
          rw [front_advance]
          exact Nat.le_max_right ..
        · -- another record has come in between
          refine hh.go hI (.refl _ _) .stay (.inl rfl) hI.word nofun
            ⟨hfresh, hk, hflags, ⟨_, _, hp⟩, ?_⟩
          by_cases hkf : (st.hist.of r).front ≤ k
          · refine .inl ⟨⟨_, exp, hp, hx', ?_⟩, hkf⟩
            exact (hI.ok.seen_behind hp).resolve_left hx
          · refine .inr fun hs => hx' ?_
            exact hI.ok.busy (status_eq_inProgress_iff.mpr hs) hp (Nat.lt_of_not_le hkf)
  · rw [if_neg hlt]
    have hpos : 0 < st.mem.nFreeze r := (st.mem.record r).type.numToFreeze_pos
    exact hh.go hI (.refl _ _) .stay (.inl rfl) hI.word nofun ⟨by omega, by omega⟩

omit hI in
/-- A finished record with all nodes frozen is committed. -/
theorem committed_of_frozen (ho : (view m h).Ok dummy) (ha : (m.record r).allFrozen = true)
    (hs : m.state r ≠ stateInProgress) : m.state r = stateCommitted := by
  rcases (m.state r).cases with hc | hc | hc
  · exact absurd hc hs
  · exact hc
  · exact absurd (status_of_aborted hc) (ho.not_aborted (r := r) ha)

omit hI in
/-- A finished record whose nodes are not all frozen is aborted. -/
theorem aborted_of_not_frozen (ho : (view m h).Ok dummy) (ha : (m.record r).allFrozen ≠ true)
    (hs : m.state r ≠ stateInProgress) : (m.state r).Aborted := by
  rcases (m.state r).cases with hc | hc | hc
  · exact absurd hc hs
  · exact absurd (ho.swung_frozen (ho.committed (r := r) (status_eq_committed_iff.mpr hc))) ha
  · exact hc

/-- The load of `allFrozen` after a freezing CAS has failed. -/
theorem Inv.help_check {k : ℕ} {flags : Word}
    (hpc : (st.thread i).pc = .help r other (.check k flags)) : Kept st (st.exec i) := by
  have hh := hI.helping hpc nofun
  obtain ⟨hfresh, hk, hflags, ⟨x, s, hp⟩, hm⟩ : (k = 0 → Fresh st.mem st.hist r) ∧
      k ≤ (st.hist.of r).front ∧ FlagsOk st.mem r k flags ∧ (∃ x s, Frz st.mem r k x s) ∧
      (Missed st.mem st.hist r k ∨ st.mem.state r ≠ stateInProgress) := hI.helpOk hpc
  rw [exec_help_eq hpc]
  simp only [helpStep]
  split_ifs with ha hk0
  · refine hh.ret hI (.refl _ _) .stay (.inl rfl) hI.word fun _ => .inl ⟨by decide, ?_, ?_⟩
    · have hfin : st.mem.state r ≠ stateInProgress := by
        refine hm.resolve_left fun hmiss => ?_
        have hsize : (st.hist.of r).front = st.mem.nFreeze r := (hI.ok.frozen (r := r) ha).1
        exact absurd hmiss.2 (Nat.not_le_of_lt (hsize ▸ hp.1))
      rw [committed_of_frozen hI.ok ha hfin]
    · exact (hI.ok.frozen (r := r) ha).2
  · -- the record was never in the tree
    subst hk0
    have hf := hfresh rfl
    have hmiss := hm.resolve_right (not_not.mpr hf.1)
    exact hh.ret hI (.refl _ _) .stay (.inl rfl) hI.word fun _ =>
      .inr ⟨rfl, hf.2, 0, hmiss.2, hmiss.1⟩
  · exact hh.go hI (.refl _ _) .stay (.inl rfl) hI.word nofun
      ⟨Nat.pos_of_ne_zero hk0, hk, hflags, hm.imp_right (aborted_of_not_frozen hI.ok ha)⟩

omit hI in
theorem wordOk_setState (hw : ∀ r, WordOk (m.state r)) {w : Word} (hw' : WordOk w) (r r' : ℕ) :
    WordOk ((m.setState r w).state r') := by
  unfold Mem.state
  rw [record_setState]
  by_cases hr : r' = r
  · simpa [hr] using hw'
  · simp only [if_neg hr]
    exact hw r'

omit hI in
theorem state_setState (w : Word) : (m.setState r w).state r = w := by
  unfold Mem.state
  rw [record_setState]
  simp

/-- The CAS that aborts. -/
theorem Inv.help_abort {k : ℕ} {flags : Word}
    (hpc : (st.thread i).pc = .help r other (.abort k flags)) : Kept st (st.exec i) := by
  have hh := hI.helping hpc nofun
  obtain ⟨hk0, hk, hflags, hm⟩ : 0 < k ∧ k ≤ (st.hist.of r).front ∧ FlagsOk st.mem r k flags ∧
      (Missed st.mem st.hist r k ∨ (st.mem.state r).Aborted) := hI.helpOk hpc
  have hle : (st.hist.of r).front ≤ st.mem.nFreeze r := hI.ok.front_le r
  have h24 : st.mem.nFreeze r < 24 := (st.mem.record r).type.numToFreeze_lt
  have hlt : (BitVec.ofNat 32 k).toNat = k := by
    rw [BitVec.toNat_ofNat]
    exact Nat.mod_eq_of_lt (by omega)
  have hk32 : (BitVec.ofNat 32 k).toNat < 32 := by omega
  rw [exec_help_eq hpc]
  simp only [helpStep]
  generalize hw : abortStateInit (BitVec.ofNat 32 k) flags = w
  have hbit : w.getLsbD 1 = true := hw ▸ bit_abortStateInit _ _
  have hst : status w = .aborted k := by
    rw [status_of_aborted (aborted_of_bit hbit), ← hw, highest_abortStateInit hk32, hlt]
  split_ifs with hs
  · have hmiss : Missed st.mem st.hist r k := by
      refine hm.resolve_right fun hab => ?_
      rw [hs] at hab
      exact not_aborted_inProgress hab
    have hmove : (view st.mem st.hist).Move dummy (.help r)
        (view (st.mem.setState r w) st.hist) := by
      rw [view_setState, hst]
      refine .abort r k _ (status_eq_inProgress_iff.mpr hs) (Nat.le_antisymm hmiss.2 hk) hk0
        hmiss.1 fun j x s hj hjk => ?_
      rw [← hw, flag_abortStateInit hk32 (by omega)]
      exact hflags j x s hj hjk
    refine hh.ret hI ((Calm.refl _ _).setState r w) hmove (.inr rfl)
      (wordOk_setState hI.word (.inr (.inr hbit)) r) fun _ => .inl ⟨?_, ?_, hk0.trans_le hk⟩
    · rw [← status_eq_inProgress_iff.ne, hst]
      nofun
    · rw [state_setState]
  · exact hh.ret hI (.refl _ _) .stay (.inl rfl) hI.word fun _ => .inl ⟨hs, rfl, hk0.trans_le hk⟩

/-- The store to `allFrozen`. -/
theorem Inv.help_allFrozen (hpc : (st.thread i).pc = .help r other .allFrozen) :
    Kept st (st.exec i) := by
  have hh := hI.helping hpc nofun
  obtain ⟨hfront, h0⟩ : (st.hist.of r).front = st.mem.nFreeze r ∧ 0 < (st.hist.of r).front :=
    hI.helpOk hpc
  rw [exec_help_eq hpc]
  simp only [helpStep]
  have hm : (view st.mem st.hist).Move dummy (.help r) (view (st.mem.setAllFrozen r) st.hist) := by
    rw [view_setAllFrozen]
    exact .setFrozen r hfront h0
  refine hh.go hI ((Calm.refl _ _).setAllFrozen r) hm (.inr rfl) ?_ nofun ⟨?_, Nat.one_pos, ?_⟩
  · intro r'
    unfold Mem.state
    rw [record_setAllFrozen]
    exact hI.word r'
  · rw [record_setAllFrozen]
    simp
  · intro j x s _ hj0 hj
    omega

/-- The loop that marks the nodes. -/
theorem Inv.help_mark {k : ℕ} (hpc : (st.thread i).pc = .help r other (.mark k)) :
    Kept st (st.exec i) := by
  have hh := hI.helping hpc nofun
  obtain ⟨ha, hk0, hmarked⟩ : (st.mem.record r).allFrozen = true ∧ 0 < k ∧
      MarkedTo st.mem r k := hI.helpOk hpc
  rw [exec_help_eq hpc]
  simp only [helpStep]
  by_cases hlt : k < st.mem.nFreeze r
  · rw [if_pos hlt]
    cases hseen : st.mem.seenAt r k with
    | none =>
        refine hh.go hI (.refl _ _) .stay (.inl rfl) hI.word nofun ⟨ha, Nat.succ_pos k, ?_⟩
        intro j x s hj hj0 hjk
        rcases Nat.lt_succ_iff_lt_or_eq.mp hjk with hjk | rfl
        · exact hmarked j x s hj hj0 hjk
        · have hs := hj.2.1
          simp [hseen] at hs
    | some exp =>
        have hp : Frz st.mem r k (st.mem.nodeAt r k) exp := ⟨hlt, hseen, rfl⟩
        have hm : (view st.mem st.hist).Move dummy (.help r)
            (view (st.mem.setMarked (st.mem.nodeAt r k)) st.hist) := by
          rw [view_setMarked]
          exact .mark r k _ exp hp (Nat.ne_of_gt hk0) ha
        have hc := (Calm.refl st.mem st.hist).setMarked (st.mem.nodeAt r k)
        refine hh.go hI hc hm (.inr rfl) hI.word nofun ⟨ha, Nat.succ_pos k, ?_⟩
        intro j x s hj hj0 hjk
        rcases Nat.lt_succ_iff_lt_or_eq.mp hjk with hjk | rfl
        · exact hc.marked x (hmarked j x s hj hj0 hjk)
        · obtain rfl : st.mem.nodeAt r j = x := hj.2.2
          simp [Mem.setMarked, Mem.setNode]
  · rw [if_neg hlt]
    refine hh.go hI (.refl _ _) .stay (.inl rfl) hI.word nofun ⟨ha, ?_⟩
    intro j x s hj hj0 hjk
    exact hmarked j x s hj hj0 (by omega)

/-- A record whose nodes are frozen and whose change has not been made can be changed. -/
theorem Inv.not_doomed (ha : (st.mem.record r).allFrozen = true) (hs : (st.hist.of r).swings = 0) :
    st.mem.state r = stateInProgress ∧ ¬ (view st.mem st.hist).Doomed r := by
  refine ⟨?_, ?_⟩
  · by_contra hne
    have hc := committed_of_frozen hI.ok ha hne
    exact Nat.ne_of_gt (hI.ok.committed (r := r) (status_eq_committed_iff.mpr hc)) hs
  · rintro ⟨j, hj, x, s, hp, -⟩
    have hlt := hI.ok.plan_lt hp
    have hsize := (hI.ok.frozen (r := r) ha).1
    omega

theorem Inv.ripe (ha : (st.mem.record r).allFrozen = true)
    (hmarked : MarkedTo st.mem r (st.mem.nFreeze r)) (hs : (st.hist.of r).swings = 0) :
    Ripe st.mem st.hist r ∧ Fits st.mem st.hist r := by
  obtain ⟨hst, hd⟩ := hI.not_doomed ha hs
  have hf := (hI.tree.fits r hst hs).resolve_left hd
  refine ⟨⟨hst, hs, ?_, ?_, ?_⟩, hf⟩
  · obtain ⟨old, new, hf⟩ := hf
    exact hf.first
  · intro j x s hj
    have hsize : (st.hist.of r).front = st.mem.nFreeze r := (hI.ok.frozen (r := r) ha).1
    exact hI.ok.busy (status_eq_inProgress_iff.mpr hst) hj (hsize ▸ hj.1 : j < (st.hist.of r).front)
  · exact fun j x s hj hj0 => hmarked j x s hj hj0 hj.1

/-- Different records have different owners, whose new nodes are different. -/
theorem Inv.apart (hst : st.mem.state r = stateInProgress) (hs : (st.hist.of r).swings = 0)
    (hd : ¬ (view st.mem st.hist).Doomed r) : Apart st.mem st.hist r := by
  intro r' hne hst' hs' hd' y hy hy'
  obtain ⟨k, at_, rfl, -, hins⟩ := hI.threads.working r hst hs hd
  obtain ⟨k', at', rfl, -, hins'⟩ := hI.threads.working r' hst' hs' hd'
  rw [hins] at hy'
  rw [hins'] at hy
  obtain ⟨p, hp, rfl⟩ := List.mem_map.mp hy'
  obtain ⟨q, hq, heq⟩ := List.mem_map.mp hy
  have hp' := (List.mem_range.mp hp).trans_le (numInserted_le_numSlots _)
  have hq' := (List.mem_range.mp hq).trans_le (numInserted_le_numSlots _)
  obtain ⟨rfl, -⟩ := hI.threads.slot_inj k' k q hq' p hp' heq
  exact hne rfl

/-- What the update CAS keeps. -/
theorem Inv.keeps_swung (ha : (st.mem.record r).allFrozen = true)
    (hmarked : MarkedTo st.mem r (st.mem.nFreeze r)) (hs : (st.hist.of r).swings = 0) :
    Keeps st.mem st.hist (.help r) (st.mem.swung r) (st.hist.swing r) := by
  obtain ⟨hripe, old, new, hf⟩ := hI.ripe ha hmarked hs
  constructor
  · exact hI.ok
  · rw [view_swung]
    exact .swing r ha fun j x s hj hj0 => hmarked j x s hj hj0 hj.1
  · exact fun x hx => List.mem_append_right _ hx
  · exact fun x _ => hf.left_swung_iff hI.tree hripe x
  · intro x _ hne
    have hx : x ≠ st.mem.nodeAt r 0 := by
      rintro rfl
      obtain ⟨s, hs⟩ := hripe.first
      rw [hripe.ptr 0 _ s hs] at hne
      exact hne hripe.inProgress
    rw [node_swung_of_ne hx]
    exact ⟨rfl, rfl⟩
  · exact fun _ _ => rfl
  · exact fun _ _ => rfl
  · exact fun r' _ => owner_swing r'
  · exact fun r' _ => inserted_swing r'
  · exact fun r' _ => res_swing r'

/-- The update CAS. -/
theorem Inv.help_update (hpc : (st.thread i).pc = .help r other .update) : Kept st (st.exec i) := by
  have hh := hI.helping hpc nofun
  obtain ⟨ha, hmarked⟩ : (st.mem.record r).allFrozen = true ∧
      MarkedTo st.mem r (st.mem.nFreeze r) := hI.helpOk hpc
  rw [exec_help_eq hpc]
  simp only [helpStep]
  split_ifs with hchild
  · have hs : (st.hist.of r).swings = 0 := by
      by_contra hne
      exact hI.tree.field r (Nat.pos_of_ne_zero hne) hchild
    obtain ⟨hst, hd⟩ := hI.not_doomed ha hs
    obtain ⟨hripe, hf⟩ := hI.ripe ha hmarked hs
    have hk := hI.keeps_swung ha hmarked hs
    have hs' : 0 < ((st.hist.swing r).of r).swings := by
      rw [swings_swing, if_pos rfl]
      exact Nat.succ_pos _
    change Kept st (st.set (st.mem.swung r) (st.hist.swing r) i _)
    refine Acts.kept (a := .help r) hI
      { keeps := hk
        change := .inr ⟨r, ⟨ha, hmarked, hs⟩, rfl, rfl⟩
        no_write := nofun
        help := hh.may_help (.inr rfl)
        account := nofun
        word := hI.word
        clock := rfl
        next := rfl
        nextRecord := rfl
        tree := hI.tree.swing hI.ok hripe hf (hI.apart hst hs hd)
        record_eq := rfl
        slots_eq := rfl
        own := ?_
        linked := ?_
        pc := ?_
        res := fun p hp => (hI.res i p hp).keeps hk }
    · intro ho
      obtain rfl := hh.own_of ho
      exact .inl ⟨.commit, by rw [(hh.own rfl).record]⟩
    · intro x hx
      rcases List.mem_append.mp hx with hx | hx
      · obtain ⟨k, at_, hk, hpc', hins⟩ := hI.threads.working r hst hs hd
        exact .inr ⟨k, r, at_, hk, hpc', hs', hins ▸ hx⟩
      · exact .inl hx
    · cases other with
      | true => exact ⟨.inr (hk.begun (hh.begun rfl)), hs'⟩
      | false => exact ⟨(hh.own rfl).keeps hk nofun nofun, nofun, hs'⟩
  · refine hh.go hI (.refl _ _) .stay (.inl rfl) hI.word nofun ?_
    change 0 < (st.hist.of r).swings
    by_contra hs
    have hs0 := Nat.eq_zero_of_not_pos hs
    obtain ⟨-, old, new, hf⟩ := hI.ripe ha hmarked hs0
    exact hchild ((kid_eq_some_iff.mp hf.field).2.trans hf.old_top.symm)

/-- The store that commits. -/
theorem Inv.help_commit (hpc : (st.thread i).pc = .help r other .commit) : Kept st (st.exec i) := by
  have hh := hI.helping hpc nofun
  have hs : 0 < (st.hist.of r).swings := hI.helpOk hpc
  rw [exec_help_eq hpc]
  simp only [helpStep]
  have hst : status stateCommitted = .committed := status_eq_committed_iff.mpr rfl
  have hm : (view st.mem st.hist).Move dummy (.help r)
      (view (st.mem.setState r stateCommitted) st.hist) := by
    rw [view_setState, hst]
    exact .commit r _ hs
  refine hh.ret hI ((Calm.refl _ _).setState r _) hm (.inr rfl)
    (wordOk_setState hI.word (.inr (.inl rfl)) r) fun _ => .inl ⟨by decide, ?_, ?_⟩
  · rw [state_setState]
  · exact (hI.ok.frozen (hI.ok.swung_frozen (r := r) hs)).2

/-- **The accesses of `help` keep the invariant.** -/
theorem Inv.exec_help (hpc : (st.thread i).pc = .help r other at_) : Kept st (st.exec i) := by
  cases at_ with
  | state => exact hI.help_state hpc
  | freeze k flags => exact hI.help_freeze hpc
  | check k flags => exact hI.help_check hpc
  | abort k flags => exact hI.help_abort hpc
  | allFrozen => exact hI.help_allFrozen hpc
  | mark k => exact hI.help_mark hpc
  | update => exact hI.help_update hpc
  | commit => exact hI.help_commit hpc

omit hI in
/-- All accesses of `help` but the update CAS leave the history alone, or count one more node. -/
theorem hist_helpStep (m : Mem) (h : History) (r : ℕ) (other : Bool) {at_ : HelpAt}
    (hat : at_ ≠ .update) : (helpStep m h r other at_).2.1 = h ∨
      ∃ k, (helpStep m h r other at_).2.1 = h.advance r k := by
  cases at_ with
  | freeze i flags =>
      simp only [helpStep]
      by_cases hi : i < m.nFreeze r
      · rw [if_pos hi]
        cases m.seenAt r i with
        | none => exact .inr ⟨_, rfl⟩
        | some s =>
            simp only
            split_ifs
            · exact .inr ⟨_, rfl⟩
            · exact .inr ⟨_, rfl⟩
            · exact .inl rfl
      · rw [if_neg hi]
        exact .inl rfl
  | mark i =>
      simp only [helpStep]
      by_cases hi : i < m.nFreeze r
      · rw [if_pos hi]
        cases m.seenAt r i <;> exact .inl rfl
      · rw [if_neg hi]
        exact .inl rfl
  | update => exact absurd rfl hat
  | _ =>
      refine .inl ?_
      simp only [helpStep]
      try split_ifs <;> rfl

end Help

end Cbat.Scx
