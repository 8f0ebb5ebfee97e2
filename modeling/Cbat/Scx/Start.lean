/-
**A call of `scx` keeps the invariant.**

The caller has built the new nodes in slots that have not been in the tree, and `scx` writes the
record, which no node leads to.  If one of the nodes has been frozen by someone else since its LLX,
the record has lost it already; otherwise all LLX results are up to date, so what the caller has
built above the exits of the old nodes fits.

Main results:

* `Cbat.Scx.holds_initNodes` — the new nodes are there;
* `Cbat.Scx.Proper.startable` — the record may be written;
* `Cbat.Scx.Proper.fits` — **the record has missed a node or it fits**;
* `Cbat.Scx.Inv.scx` — a call of `scx` keeps the invariant.
-/

import Cbat.Scx.Steps

set_option relaxedAutoImplicit false
set_option autoImplicit false

namespace Cbat.Scx

variable {m : Mem} {h : History} {slot : ℕ → ℕ} {p : Patch ℕ ℕ} {x : ℕ} {n : ℕ}

/-! ### The new nodes -/

/-- Initializing nodes changes nothing but nodes. -/
theorem initNodes_eq (m : Mem) (slot : ℕ → ℕ) (p : Patch ℕ ℕ) :
    m.initNodes slot p = { m with node := (m.initNodes slot p).node } := by
  induction p generalizing m with
  | sub q => rfl
  | leaf k => rfl
  | node k l r ihl ihr =>
      simp only [Mem.initNodes, Mem.setNode]
      rw [ihr, ihl]

theorem record_initNodes : (m.initNodes slot p).record = m.record := by
  rw [initNodes_eq]

theorem node_initNodes_of_notMem (hx : x ∉ p.labels.map slot) :
    (m.initNodes slot p).node x = m.node x := by
  induction p generalizing m with
  | sub q => rfl
  | leaf k =>
      have hne : x ≠ slot k := by simpa [Patch.labels] using hx
      simp [Mem.initNodes, Mem.setNode, hne]
  | node k l r ihl ihr =>
      simp only [Patch.labels, List.map_cons, List.map_append, List.mem_cons, List.mem_append,
        not_or] at hx
      obtain ⟨hne, hl, hr⟩ := hx
      simp only [Mem.initNodes, Mem.setNode, Function.update_of_ne hne]
      rw [ihr hr, ihl hl]

/-- A new node is not marked, and leads to the dummy record. -/
theorem node_initNodes_of_mem (hx : x ∈ p.labels.map slot) :
    ((m.initNodes slot p).node x).marked = false ∧ (m.initNodes slot p).ptr x = dummy := by
  induction p generalizing m with
  | sub q => simp [Patch.labels] at hx
  | leaf k =>
      obtain rfl : x = slot k := by simpa [Patch.labels] using hx
      simp [Mem.initNodes, Mem.setNode, Mem.ptr]
  | node k l r ihl ihr =>
      simp only [Patch.labels, List.map_cons, List.map_append, List.mem_cons, List.mem_append] at hx
      by_cases hk : x = slot k
      · subst hk
        simp [Mem.initNodes, Mem.setNode, Mem.ptr]
      · simp only [Mem.initNodes, Mem.setNode, Mem.ptr, Function.update_of_ne hk]
        by_cases hr : x ∈ r.labels.map slot
        · exact ihr hr
        · rw [node_initNodes_of_notMem hr]
          exact ihl ((hx.resolve_left hk).resolve_right hr)

theorem newPtr_eq (slot : ℕ → ℕ) (p : Patch ℕ ℕ) : newPtr slot p = Pointers.top (p.map slot) := by
  cases p <;> rfl

theorem newPtr_ne (hsubs : ∀ y ∈ p.subs, y ≠ 0) (hslots : ∀ k ∈ p.labels, slot k ≠ 0) :
    newPtr slot p ≠ 0 := by
  cases p with
  | sub q => exact hsubs q List.mem_cons_self
  | leaf k => exact hslots k List.mem_cons_self
  | node k l r => exact hslots k List.mem_cons_self

/-- **The new nodes are there.** -/
theorem holds_initNodes (hnd : (p.labels.map slot).Nodup) (hsubs : ∀ y ∈ p.subs, y ≠ 0)
    (hslots : ∀ k ∈ p.labels, slot k ≠ 0) :
    Pointers.Holds (m.initNodes slot p).kid (p.map slot) := by
  induction p generalizing m with
  | sub q => trivial
  | leaf k =>
      intro d
      cases d <;> simp [Mem.kid, Mem.child, Mem.initNodes, Mem.setNode]
  | node k l r ihl ihr =>
      simp only [Patch.labels, List.map_cons, List.map_append, List.nodup_cons, List.nodup_append,
        List.mem_append, not_or] at hnd
      obtain ⟨⟨hkl, hkr⟩, hndl, hndr, hdis⟩ := hnd
      simp only [Patch.labels, Patch.subs, List.mem_cons, List.mem_append] at hsubs hslots
      have hsl : ∀ y ∈ l.subs, y ≠ 0 := fun y hy => hsubs y (.inl hy)
      have hsr : ∀ y ∈ r.subs, y ≠ 0 := fun y hy => hsubs y (.inr hy)
      have hll : ∀ y ∈ l.labels, slot y ≠ 0 := fun y hy => hslots y (.inr (.inl hy))
      have hlr : ∀ y ∈ r.labels, slot y ≠ 0 := fun y hy => hslots y (.inr (.inr hy))
      -- writing the top leaves the nodes below it alone
      have below {q : Patch ℕ ℕ} {m₁ : Mem} (c : Node) (hk : slot k ∉ q.labels.map slot)
          (hq : Pointers.Holds m₁.kid (q.map slot)) :
          Pointers.Holds (m₁.setNode (slot k) c).kid (q.map slot) := by
        refine hq.congr fun x hx d => ?_
        have hne : x ≠ slot k := by
          rintro rfl
          exact hk (Patch.labels_map slot q ▸ hx)
        exact kid_congr (Function.update_of_ne hne ..) d
      refine ⟨?_, ?_, below _ hkl ?_, below _ hkr (ihr hndr hsr hlr)⟩
      · rw [kid_eq_some_iff, ← newPtr_eq]
        simpa [Mem.child, Mem.initNodes, Mem.setNode] using newPtr_ne hsl hll
      · rw [kid_eq_some_iff, ← newPtr_eq]
        simpa [Mem.child, Mem.initNodes, Mem.setNode] using newPtr_ne hsr hlr
      · refine (ihl (m := m) hndl hsl hll).congr fun x hx d => ?_
        rw [Patch.labels_map] at hx
        have hxr : x ∉ r.labels.map slot := fun hxr => hdis x hx x hxr rfl
        exact kid_congr (node_initNodes_of_notMem hxr) d

/-- Nodes that nobody has frozen or marked can be initialized unnoticed. -/
theorem view_initNodes
    (hx : ∀ x ∈ p.labels.map slot, (m.node x).marked = false ∧ m.ptr x = dummy) :
    view (m.initNodes slot p) h = view m h := by
  have hn (x : ℕ) : ((m.initNodes slot p).node x).marked = (m.node x).marked ∧
      (m.initNodes slot p).ptr x = m.ptr x := by
    by_cases hm : x ∈ p.labels.map slot
    · rw [(hx x hm).1, (hx x hm).2]
      exact node_initNodes_of_mem hm
    · unfold Mem.ptr
      rw [node_initNodes_of_notMem hm]
      exact ⟨rfl, rfl⟩
  unfold view
  congr 1
  · unfold Frz Mem.nFreeze Mem.seenAt Mem.nodeAt
    rw [record_initNodes]
  · unfold Mem.nFreeze
    rw [record_initNodes]
  · funext x
    exact (hn x).2
  · funext x
    rw [(hn x).1]
  · unfold Mem.state
    rw [record_initNodes]
  · rw [record_initNodes]
  · unfold Mem.state
    rw [record_initNodes]

/-! ### What the LLXs have shown -/

variable {st : State n} {i : Fin n} {c : Call} {r s j : ℕ}

/-- What is known of a node that a call names: its LLX result is worth something. -/
def NodeOk (m : Mem) (h : History) (res : ℕ → LlxResult) (x : ℕ) : Prop :=
  ResOk m h x (res x) ∨ (res x = .leaf ∧ 0 < x ∧ (m.node x).left = 0)

theorem NodeOk.shown {res : ℕ → LlxResult} {l rt : ℕ} (hx : NodeOk m h res x)
    (hr : res x = .inner s l rt) : x ∈ h.linked ∧ Shown m h x s l rt := by
  rcases hx with hx | ⟨hl, -⟩
  · rw [hr] at hx
    exact hx
  · rw [hr] at hl
    cases hl

theorem NodeOk.left {res : ℕ → LlxResult} (hx : NodeOk m h res x) (hr : res x = .leaf) :
    (m.node x).left = 0 := by
  rcases hx with hx | ⟨-, -, hl⟩
  · rw [hr] at hx
    exact hx.2
  · exact hl

/-- **The nodes of the patch that the LLXs have shown have been in the tree**, and so have its
exits. -/
theorem Shows.wasChild {res : ℕ → LlxResult} {old : Patch ℕ ℕ} (hs : Shows res old)
    (hok : ∀ x ∈ old.labels, NodeOk m h res x) (ht : WasChild h (Pointers.top old)) :
    (∀ x ∈ old.labels, WasChild h x) ∧ ∀ y ∈ old.subs, WasChild h y := by
  induction old with
  | sub q => exact ⟨by simp [Patch.labels], by simpa [Patch.subs] using ht⟩
  | leaf a => exact ⟨by simpa [Patch.labels] using ht, by simp [Patch.subs]⟩
  | node a l rt ihl ihr =>
      obtain ⟨⟨scx, hres⟩, hsl, hsr⟩ := hs
      simp only [Patch.labels, List.mem_cons, List.mem_append] at hok
      obtain ⟨-, hshown⟩ := (hok a (.inl rfl)).shown hres
      obtain ⟨hll, hls⟩ := ihl hsl (fun x hx => hok x (.inr (.inl hx))) hshown.left
      obtain ⟨hrl, hrs⟩ := ihr hsr (fun x hx => hok x (.inr (.inr hx)))
        (hshown.right (hshown.right_ne ht.2))
      simp only [Patch.labels, Patch.subs, List.mem_cons, List.mem_append]
      refine ⟨?_, fun y hy => hy.elim (hls y) (hrs y)⟩
      rintro x (rfl | hx | hx)
      · exact ht
      · exact hll x hx
      · exact hrl x hx

/-- **As long as no node has another record, the patch is there.** -/
theorem Shows.holds {res : ℕ → LlxResult} {old : Patch ℕ ℕ} (hs : Shows res old) (hT : TreeOk m h)
    (hok : ∀ x ∈ old.labels, NodeOk m h res x) (ht : WasChild h (Pointers.top old))
    (hptr : ∀ x ∈ old.labels, ∀ scx l rt, res x = .inner scx l rt → m.ptr x = scx) :
    Pointers.Holds m.kid old := by
  induction old with
  | sub q => trivial
  | leaf a =>
      have hl := (hok a List.mem_cons_self).left hs
      intro d
      unfold Mem.kid
      rw [if_pos]
      cases d with
      | true => exact hl
      | false => exact hT.leaf a ht.1 hl
  | node a l rt ihl ihr =>
      obtain ⟨⟨scx, hres⟩, hsl, hsr⟩ := hs
      simp only [Patch.labels, List.mem_cons, List.mem_append] at hok hptr
      obtain ⟨-, hshown⟩ := (hok a (.inl rfl)).shown hres
      obtain ⟨hleft, hright⟩ := hshown.same (hptr a (.inl rfl) _ _ _ hres)
      have hr0 := hshown.right_ne ht.2
      refine ⟨kid_eq_some_iff.mpr ⟨?_, hleft⟩, kid_eq_some_iff.mpr ⟨?_, hright⟩, ?_, ?_⟩
      · exact fun h0 => hshown.left_ne (hleft.symm.trans h0)
      · exact fun h0 => hr0 (hright.symm.trans h0)
      · exact ihl hsl (fun x hx => hok x (.inr (.inl hx))) hshown.left
          fun x hx => hptr x (.inr (.inl hx))
      · exact ihr hsr (fun x hx => hok x (.inr (.inr hx))) (hshown.right hr0)
          fun x hx => hptr x (.inr (.inr hx))

namespace Proper

variable (hc : Proper st i c) (hI : Inv st)

include hc hI

theorem nodeOk : ∀ x ∈ c.nodes, NodeOk st.mem st.hist c.res x := by
  intro x hx
  rw [← List.take_append_drop c.type.numToFreeze c.nodes, List.mem_append] at hx
  rcases hx with hx | hx
  · exact .inl (hI.res i _ (hc.llx x hx))
  · exact .inr (hc.leaf x hx)

/-- The first node, and the patch that is to be removed. -/
theorem parts : ∃ u old scx l rt, c.nodes = u :: c.nodes.tail ∧ c.res u = .inner scx l rt ∧
    (u ∈ st.hist.linked ∧ Shown st.mem st.hist u scx l rt) ∧
    Pointers.top old = (if c.fieldIsLeft then l else rt) ∧
    c.nodes.tail.head? = some (Pointers.top old) ∧ c.nodes.tail.Perm old.labels ∧
    Shows c.res old ∧ WasChild st.hist (Pointers.top old) ∧
    ((c.new.subs = old.subs ∧ c.new.labels.Perm (List.range c.type.numInserted)) ∨
      Stale st.mem c) := by
  obtain ⟨u, old, scx, l, rt, hu, hres, htop, hhead, hperm, hshows, hnew⟩ := hc.patch
  have hnodes : c.nodes = u :: c.nodes.tail := by
    cases hn : c.nodes with
    | nil => simp [hn] at hu
    | cons a t => simpa [hn] using hu
  have hshown := (hc.nodeOk hI u (hnodes ▸ List.mem_cons_self)).shown hres
  refine ⟨u, old, scx, l, rt, hnodes, hres, hshown, htop, hhead, hperm, hshows, ?_, hnew⟩
  cases hd : c.fieldIsLeft with
  | true =>
      rw [htop, hd]
      exact hshown.2.left
  | false =>
      rw [htop, hd]
      refine hshown.2.right fun h0 => ?_
      -- the null pointer is no node
      have hmem : Pointers.top old ∈ c.nodes := List.mem_of_mem_tail (List.mem_of_head? hhead)
      have htop0 : Pointers.top old = 0 := by simpa [hd, h0] using htop
      rw [htop0] at hmem
      rcases hc.nodeOk hI 0 hmem with hr | ⟨-, hpos, -⟩
      · have hl : (0 : ℕ) ∈ st.hist.linked := by
          cases hr0 : c.res 0 with
          | leaf => rw [hr0] at hr; exact hr.1
          | inner a b d => rw [hr0] at hr; exact hr.1
        exact absurd (hI.tree.pos 0 hl).1 (Nat.lt_irrefl 0)
      · exact absurd hpos (Nat.lt_irrefl 0)

theorem nodes_linked : ∀ x ∈ c.nodes, x ∈ st.hist.linked := by
  obtain ⟨u, old, scx, l, rt, hnodes, -, hshown, -, -, hperm, hshows, ht, -⟩ := hc.parts hI
  have hok : ∀ x ∈ old.labels, NodeOk st.mem st.hist c.res x := fun x hx =>
    hc.nodeOk hI x (List.mem_of_mem_tail (hperm.mem_iff.mpr hx))
  intro x hx
  rw [hnodes, List.mem_cons] at hx
  rcases hx with rfl | hx
  · exact hshown.1
  · exact ((hshows.wasChild hok ht).1 x (hperm.mem_iff.mp hx)).1

end Proper

/-! ### The memory after the call -/

/-- The memory after the new nodes and the record have been initialized. -/
def scxMem (st : State n) (i : Fin n) (c : Call) : Mem :=
  (st.mem.initNodes (st.thread i).allocatedNodes c.new).setRecord
    (st.thread i).allocatedSCXRecord (c.record (st.thread i).allocatedNodes)

/-- The past of the new record. -/
def Call.history (c : Call) (st : State n) (i : Fin n) : RecordHistory where
  time := st.hist.clock + 1
  front := 0
  swings := 0
  done := 0
  owner := i
  res := c.res
  inserted := (List.range c.type.numInserted).map (st.thread i).allocatedNodes

/-- The history after the call. -/
def scxHist (st : State n) (i : Fin n) (c : Call) : History :=
  { st.hist.set (st.thread i).allocatedSCXRecord (c.history st i) with clock := st.hist.clock + 1 }

theorem scx_eq (st : State n) (i : Fin n) (c : Call) :
    st.scx i c = st.go (scxMem st i c) (scxHist st i c) i
      (.help (st.thread i).allocatedSCXRecord false .state) := rfl

theorem record_scxMem_self : (scxMem st i c).record (st.thread i).allocatedSCXRecord =
    c.record (st.thread i).allocatedNodes := by
  simp [scxMem, Mem.setRecord]

theorem record_scxMem_of_ne (hr : r ≠ (st.thread i).allocatedSCXRecord) :
    (scxMem st i c).record r = st.mem.record r := by
  simp [scxMem, Mem.setRecord, hr, record_initNodes]

theorem of_scxHist_self :
    (scxHist st i c).of (st.thread i).allocatedSCXRecord = c.history st i := by
  simp [scxHist, History.set]

theorem of_scxHist_of_ne (hr : r ≠ (st.thread i).allocatedSCXRecord) :
    (scxHist st i c).of r = st.hist.of r := by
  simp [scxHist, History.set, hr]

theorem node_scxMem (hx : x ∉ c.new.labels.map (st.thread i).allocatedNodes) :
    (scxMem st i c).node x = st.mem.node x := node_initNodes_of_notMem hx

theorem scxMem_next : (scxMem st i c).next = st.mem.next ∧
    (scxMem st i c).nextRecord = st.mem.nextRecord := by
  unfold scxMem Mem.setRecord
  rw [initNodes_eq]
  exact ⟨rfl, rfl⟩

namespace Proper

variable (hc : Proper st i c) (hI : Inv st) (hpc : (st.thread i).pc = .idle)

include hc in
/-- The nodes that the new record is to freeze. -/
theorem frz_iff (x s j : ℕ) : Frz (scxMem st i c) (st.thread i).allocatedSCXRecord j x s ↔
    j < c.type.numToFreeze ∧ c.nodes[j]? = some x ∧ ∃ l rt, c.res x = .inner s l rt := by
  unfold Frz Mem.nFreeze Mem.seenAt Mem.nodeAt
  rw [record_scxMem_self]
  simp only [Call.record, Call.seen]
  refine and_congr_right fun hj => ?_
  have hlt : j < c.nodes.length := by
    rw [hc.length_eq]
    exact hj.trans_le c.type.numToFreeze_le
  have hlt' : j < ((c.nodes.take c.type.numToFreeze).map fun x => (c.res x).scx?).length := by
    rw [List.length_map, List.length_take]
    omega
  rw [List.getD_eq_getElem _ _ hlt, List.getD_eq_getElem _ _ hlt', List.getElem_map,
    List.getElem_take, List.getElem?_eq_getElem hlt, Option.some_inj]
  rw [and_comm]
  refine and_congr_right fun hx => ?_
  rw [hx]
  cases hres : c.res x with
  | leaf => simp [LlxResult.scx?]
  | inner a l rt => simp [LlxResult.scx?]

include hc in
theorem mem_take_of_frz (hj : Frz (scxMem st i c) (st.thread i).allocatedSCXRecord j x s) :
    x ∈ c.nodes.take c.type.numToFreeze := by
  obtain ⟨hlt, hx, -⟩ := (hc.frz_iff x s j).mp hj
  rw [List.mem_iff_getElem?]
  exact ⟨j, by rw [List.getElem?_take, if_pos hlt, hx]⟩

include hc hI in
theorem shown_of_frz (hj : Frz (scxMem st i c) (st.thread i).allocatedSCXRecord j x s) :
    ∃ l rt, c.res x = .inner s l rt ∧ x ∈ st.hist.linked ∧ Shown st.mem st.hist x s l rt := by
  obtain ⟨-, -, l, rt, hres⟩ := (hc.frz_iff x s j).mp hj
  have hx := List.mem_of_mem_take (hc.mem_take_of_frz hj)
  exact ⟨l, rt, hres, (hc.nodeOk hI x hx).shown hres⟩

include hI hpc

omit hc in
theorem front_eq : (st.hist.of (st.thread i).allocatedSCXRecord).front = 0 := by
  refine (hI.threads.unpublished i).resolve_right ?_
  rw [hpc]
  rintro (⟨at_, heq⟩ | ⟨w, heq⟩) <;> cases heq

omit hc in
theorem slot_notMem (k : ℕ) (hk : k < numSlots) :
    (st.thread i).allocatedNodes k ∉ st.hist.linked := by
  intro hl
  obtain ⟨ho, -⟩ := hI.threads.slot_linked i k hk hl
  rw [hpc] at ho
  rcases ho with ⟨at_, heq⟩ | ⟨w, heq⟩ <;> cases heq

include hc

theorem new_notMem {y : ℕ} (hy : y ∈ c.new.labels.map (st.thread i).allocatedNodes) :
    y ∉ st.hist.linked ∧ 0 < y ∧ y < st.mem.next := by
  obtain ⟨k, hk, rfl⟩ := List.mem_map.mp hy
  have hlt := hc.slots_lt k hk
  exact ⟨slot_notMem hI hpc k hlt, hI.threads.slot_pos i k hlt⟩

theorem node_eq (hx : x ∈ st.hist.linked) : (scxMem st i c).node x = st.mem.node x :=
  node_scxMem fun hn => (hc.new_notMem hI hpc hn).1 hx

theorem view_eq : view (scxMem st i c) (scxHist st i c) =
    { view st.mem st.hist with
      plan := Function.update (view st.mem st.hist).plan (st.thread i).allocatedSCXRecord
        (Frz (scxMem st i c) (st.thread i).allocatedSCXRecord)
      size := Function.update (view st.mem st.hist).size (st.thread i).allocatedSCXRecord
        c.type.numToFreeze
      status := Function.update (view st.mem st.hist).status (st.thread i).allocatedSCXRecord
        .inProgress
      allFrozen := Function.update (view st.mem st.hist).allFrozen
        (st.thread i).allocatedSCXRecord False
      flag := Function.update (view st.mem st.hist).flag (st.thread i).allocatedSCXRecord
        fun j => stateInProgress.flag j = true
      front := Function.update (view st.mem st.hist).front (st.thread i).allocatedSCXRecord 0
      swung := Function.update (view st.mem st.hist).swung (st.thread i).allocatedSCXRecord False
      done := Function.update (view st.mem st.hist).done (st.thread i).allocatedSCXRecord 0
      time := Function.update (view st.mem st.hist).time (st.thread i).allocatedSCXRecord
        (st.hist.clock + 1) } := by
  have hfresh : ∀ x ∈ c.new.labels.map (st.thread i).allocatedNodes,
      (st.mem.node x).marked = false ∧ st.mem.ptr x = dummy := by
    intro x hx
    have hl := (hc.new_notMem hI hpc hx).1
    constructor
    · by_contra hm
      obtain ⟨j, s, hj, -⟩ := hI.ok.marked_plan (x := x) (by simpa [view] using hm)
      exact hl (hI.tree.nodes_mem _ x (hI.tree.frz_mem hj))
    · by_contra hne
      obtain ⟨j, s, hj, -⟩ := hI.ok.ptr_frozen hne
      exact hl (hI.tree.nodes_mem _ x (hI.tree.frz_mem hj))
  unfold scxMem scxHist
  rw [view_setRecord, view_initNodes hfresh]
  have hst : status stateInProgress = .inProgress := status_eq_inProgress_iff.mpr rfl
  simp only [Call.record, Call.history, hst, Bool.false_eq_true, Nat.lt_irrefl]

/-- **The record may be written.** -/
theorem startable : (view st.mem st.hist).Startable dummy (st.thread i).allocatedSCXRecord
    (Frz (scxMem st i c) (st.thread i).allocatedSCXRecord) c.type.numToFreeze
    (st.hist.clock + 1) where
  ne_dummy := hI.threads.record_ne i
  unpublished := front_eq hI hpc
  time_lt := fun r => Nat.lt_succ_of_le (hI.time_le r)
  plan_lt := fun hj => ((hc.frz_iff _ _ _).mp hj).1
  plan_fun := by
    intro j x s x' s' hj hj'
    obtain ⟨-, hx, l, rt, hres⟩ := (hc.frz_iff _ _ _).mp hj
    obtain ⟨-, hx', l', rt', hres'⟩ := (hc.frz_iff _ _ _).mp hj'
    obtain rfl : x = x' := Option.some.inj (hx.symm.trans hx')
    rw [hres] at hres'
    injection hres' with hs
    exact ⟨rfl, hs⟩
  plan_inj := by
    intro j j' x s s' hj hj'
    obtain ⟨-, hx, -⟩ := (hc.frz_iff _ _ _).mp hj
    obtain ⟨-, hx', -⟩ := (hc.frz_iff _ _ _).mp hj'
    obtain ⟨hlt, hget⟩ := List.getElem?_eq_some_iff.mp hx
    obtain ⟨hlt', hget'⟩ := List.getElem?_eq_some_iff.mp hx'
    exact hc.nodup.getElem_inj_iff.mp (hget.trans hget'.symm)
  plan_zero := by
    intro _ _ _ _
    obtain ⟨u, old, scx, l, rt, hnodes, hres, -⟩ := hc.parts hI
    refine ⟨u, scx, (hc.frz_iff _ _ _).mpr ⟨c.type.numToFreeze_pos, ?_, l, rt, hres⟩⟩
    rw [hnodes]
    rfl
  published := fun hj => by
    obtain ⟨l, rt, -, -, hs⟩ := hc.shown_of_frz hI hj
    exact hs.published
  finished := fun hj => by
    obtain ⟨l, rt, -, -, hs⟩ := hc.shown_of_frz hI hj
    exact mt status_eq_inProgress_iff.mp hs.finished
  kept := fun hj hst hi => by
    obtain ⟨l, rt, -, -, hs⟩ := hc.shown_of_frz hI hj
    exact hs.kept (status_eq_committed_iff.mp hst) _ _ hi
  behind := fun hj => by
    obtain ⟨l, rt, -, -, hs⟩ := hc.shown_of_frz hI hj
    exact hs.behind

theorem move : (view st.mem st.hist).Move dummy (.write (st.thread i).allocatedSCXRecord)
    (view (scxMem st i c) (scxHist st i c)) := by
  rw [hc.view_eq hI hpc]
  exact .start _ _ _ _ _ (hc.startable hI hpc)

/-- What the call keeps. -/
theorem keeps : Keeps st.mem st.hist (.write (st.thread i).allocatedSCXRecord) (scxMem st i c)
    (scxHist st i c) := by
  have hne {r : ℕ} (hr : (Freezing.Act.write (st.thread i).allocatedSCXRecord) ≠ .write r) :
      r ≠ (st.thread i).allocatedSCXRecord := by
    rintro rfl
    exact hr rfl
  constructor
  · exact hI.ok
  · exact hc.move hI hpc
  · exact fun x hx => hx
  · intro x hx
    rw [hc.node_eq hI hpc hx]
  · intro x hx _
    rw [hc.node_eq hI hpc hx]
    exact ⟨rfl, rfl⟩
  · intro r hr
    rw [record_scxMem_of_ne (hne hr)]
  · intro r hr
    rw [record_scxMem_of_ne (hne hr)]
  · intro r hr
    rw [of_scxHist_of_ne (hne hr)]
  · intro r hr
    rw [of_scxHist_of_ne (hne hr)]
  · intro r hr
    rw [of_scxHist_of_ne (hne hr)]

/-- A node that someone else has frozen since its LLX is lost. -/
theorem doomed_of_stale (hs : Stale st.mem c) :
    (view (scxMem st i c) (scxHist st i c)).Doomed (st.thread i).allocatedSCXRecord := by
  obtain ⟨x, hx, scx, l, rt, hres, hptr⟩ := hs
  obtain ⟨j, hj⟩ := List.mem_iff_getElem?.mp hx
  rw [List.getElem?_take] at hj
  split_ifs at hj with hlt
  have hp : Frz (scxMem st i c) (st.thread i).allocatedSCXRecord j x scx :=
    (hc.frz_iff _ _ _).mpr ⟨hlt, hj, l, rt, hres⟩
  obtain ⟨_, _, _, _, hshown⟩ := hc.shown_of_frz hI hp
  have hne := hI.ok.ptr_ne_of_unpublished (hI.threads.record_ne i) (front_eq hI hpc)
  have hs : scx ≠ (st.thread i).allocatedSCXRecord := by
    rintro rfl
    rcases hshown.published with hd | ⟨k, s', -, hk⟩
    · exact hI.threads.record_ne i hd
    · rw [front_eq hI hpc] at hk
      exact Nat.not_lt_zero k hk
  have ht := hshown.behind.resolve_left hptr
  rw [hc.view_eq hI hpc]
  refine ⟨j, by simp, x, scx, by simpa using hp, hne x, ?_⟩
  simpa [hs, hne x] using ht

/-- **The record has missed a node or it fits.** -/
theorem fits : (view (scxMem st i c) (scxHist st i c)).Doomed (st.thread i).allocatedSCXRecord ∨
    Fits (scxMem st i c) (scxHist st i c) (st.thread i).allocatedSCXRecord := by
  by_cases hstale : Stale st.mem c
  · exact .inl (hc.doomed_of_stale hI hpc hstale)
  refine .inr ?_
  obtain ⟨u, old, scx, l, rt, hnodes, hres, ⟨hul, hushown⟩, htop, hhead, hperm, hshows, ht, hnew⟩ :=
    hc.parts hI
  obtain ⟨hsubs, hlabels⟩ := hnew.resolve_right hstale
  -- all LLX results are up to date
  have hptr {x scx l rt : ℕ} (hx : x ∈ c.nodes) (hr : c.res x = .inner scx l rt) :
      st.mem.ptr x = scx := by
    rw [← List.take_append_drop c.type.numToFreeze c.nodes, List.mem_append] at hx
    rcases hx with hx | hx
    · by_contra hne
      exact hstale ⟨x, hx, scx, l, rt, hr, hne⟩
    · rw [(hc.leaf x hx).1] at hr
      cases hr
  have old_mem {x : ℕ} (hx : x ∈ old.labels) : x ∈ c.nodes :=
    List.mem_of_mem_tail (hperm.mem_iff.mpr hx)
  have hok : ∀ x ∈ old.labels, NodeOk st.mem st.hist c.res x := fun x hx =>
    hc.nodeOk hI x (old_mem hx)
  have hexits := (hshows.wasChild hok ht).2
  have hfirst : (scxMem st i c).nodeAt (st.thread i).allocatedSCXRecord 0 = u := by
    rw [Mem.nodeAt, record_scxMem_self, Call.record, hnodes]
    rfl
  have hnd : (c.new.labels.map (st.thread i).allocatedNodes).Nodup :=
    hc.slots_nodup.map_on fun a ha b hb heq =>
      (hI.threads.slot_inj i i a (hc.slots_lt a ha) b (hc.slots_lt b hb) heq).2
  refine ⟨old, c.new.map (st.thread i).allocatedNodes, ?_⟩
  constructor
  · rw [hfirst]
    refine ⟨scx, (hc.frz_iff _ _ _).mpr ⟨c.type.numToFreeze_pos, ?_, l, rt, hres⟩⟩
    rw [hnodes]
    rfl
  · rw [Mem.nodeAt, record_scxMem_self, Call.record, hnodes]
    cases htail : c.nodes.tail with
    | nil => simp [htail] at hhead
    | cons a t => simpa [htail] using hhead
  · rw [record_scxMem_self]
    exact hperm
  · rw [hfirst, record_scxMem_self, kid_congr (hc.node_eq hI hpc hul), kid_eq_some_iff]
    have hne : Pointers.top old ≠ 0 := Nat.ne_of_gt (hI.tree.pos _ ht.1).1
    obtain ⟨hleft, hright⟩ := hushown.same (hptr (hnodes ▸ List.mem_cons_self) hres)
    have hchild : st.mem.child u (c.record (st.thread i).allocatedNodes).fieldIsLeft =
        Pointers.top old := by
      rw [htop]
      unfold Mem.child Call.record
      simp only [hleft, hright]
    exact ⟨hchild ▸ hne, hchild⟩
  · exact hperm.mem_iff.mp (List.mem_of_head? hhead)
  · refine (hshows.holds hI.tree hok ht fun x hx _ _ _ => hptr (old_mem hx)).congr fun x hx => ?_
    exact kid_congr (hc.node_eq hI hpc (hc.nodes_linked hI x (old_mem hx)))
  · rw [record_scxMem_self, ← newPtr_eq]
    rfl
  · rw [of_scxHist_self, Patch.labels_map]
    exact hlabels.map _
  · have hne : c.new.labels ≠ [] := by
      intro h0
      have hlen := hlabels.length_eq
      rw [h0, List.length_nil, List.length_range] at hlen
      exact Nat.ne_of_gt c.type.numInserted_pos hlen.symm
    cases hcn : c.new with
    | sub q => simp [hcn, Patch.labels] at hne
    | leaf k => exact List.mem_cons_self
    | node k a b => exact List.mem_cons_self
  · rw [Patch.labels_map]
    exact hnd
  · refine holds_initNodes hnd ?_ ?_
    · intro y hy
      rw [hsubs] at hy
      exact Nat.ne_of_gt (hI.tree.pos y (hexits y hy).1).1
    · intro k hk
      exact Nat.ne_of_gt (hI.threads.slot_pos i k (hc.slots_lt k hk)).1
  · rw [Patch.subs_map]
    exact hsubs
  · intro j x s hj
    obtain ⟨l', rt', hr, hxl, hshown⟩ := hc.shown_of_frz hI hj
    obtain ⟨hleft, hright⟩ :=
      hshown.same (hptr (List.mem_of_mem_take (hc.mem_take_of_frz hj)) hr)
    rw [of_scxHist_self, hc.node_eq hI hpc hxl, hleft, hright]
    exact hr
  · intro y hy
    rw [of_scxHist_self] at hy
    obtain ⟨k, hk, rfl⟩ := List.mem_map.mp hy
    have hlt := (List.mem_range.mp hk).trans_le (numInserted_le_numSlots _)
    refine ⟨slot_notMem hI hpc k hlt, (hI.threads.slot_pos i k hlt).1, ?_⟩
    rw [scxMem_next.1]
    exact (hI.threads.slot_pos i k hlt).2

theorem live_iff (x : ℕ) : (scxMem st i c).Live x ↔ st.mem.Live x :=
  Pointers.live_congr (S := { x | x ∈ st.hist.linked }) hI.tree.root_mem
    (fun _ hx _ _ hk => (hI.tree.kid_mem hx hk).1)
    fun _ hx => kid_congr (hc.node_eq hI hpc hx)

/-- The other records still fit: their new nodes belong to other threads. -/
theorem fits_other (hr : r ≠ (st.thread i).allocatedSCXRecord)
    (hst : st.mem.state r = stateInProgress) (hs : (st.hist.of r).swings = 0)
    (hd : ¬ (view st.mem st.hist).Doomed r) : Fits (scxMem st i c) (scxHist st i c) r := by
  have hf := (hI.tree.fits r hst hs).resolve_left hd
  have hfresh : ∀ y ∈ (st.hist.of r).inserted, y ∉ st.hist.linked := by
    obtain ⟨old, new, hf⟩ := hf
    exact fun y hy => (hf.fresh y hy).1
  obtain ⟨k, at_, -, hpc', hins⟩ := hI.threads.working r hst hs hd
  refine hf.congr hI.tree (record_scxMem_of_ne hr) (by rw [of_scxHist_of_ne hr])
    (by rw [of_scxHist_of_ne hr]) (fun x hx => hc.node_eq hI hpc (hI.tree.nodes_mem r x hx)) ?_
    (Nat.le_of_eq scxMem_next.1.symm)
  intro y hy
  refine ⟨node_scxMem fun hn => ?_, hfresh y hy⟩
  rw [hins] at hy
  obtain ⟨p, hp, rfl⟩ := List.mem_map.mp hy
  obtain ⟨q, hq, heq⟩ := List.mem_map.mp hn
  have hp' := (List.mem_range.mp hp).trans_le (numInserted_le_numSlots _)
  obtain ⟨rfl, -⟩ := hI.threads.slot_inj i k q (hc.slots_lt q hq) p hp' heq
  rw [hpc] at hpc'
  cases hpc'

theorem tree : TreeOk (scxMem st i c) (scxHist st i c) := by
  have hT := hI.tree
  have node_eq {x : ℕ} (hx : x ∈ st.hist.linked) := hc.node_eq hI hpc hx
  have child_eq {x : ℕ} (hx : x ∈ st.hist.linked) (d : Bool) :
      (scxMem st i c).child x d = st.mem.child x d := by
    unfold Mem.child
    rw [node_eq hx]
  have frz_eq {r : ℕ} (hr : r ≠ (st.thread i).allocatedSCXRecord) :
      Frz (scxMem st i c) r = Frz st.mem r := by
    refine frz_congr ?_ ?_ ?_ <;> rw [record_scxMem_of_ne hr]
  have written {r : ℕ} (hs : 0 < ((scxHist st i c).of r).swings) :
      r ≠ (st.thread i).allocatedSCXRecord ∧ 0 < (st.hist.of r).swings := by
    have hr : r ≠ (st.thread i).allocatedSCXRecord := by
      rintro rfl
      rw [of_scxHist_self] at hs
      exact Nat.lt_irrefl 0 hs
    exact ⟨hr, of_scxHist_of_ne hr ▸ hs⟩
  constructor
  · exact hT.root_mem
  · intro x hx
    rw [scxMem_next.1]
    exact hT.pos x hx
  · intro x hx d hd
    rw [child_eq hx] at hd ⊢
    exact hT.child_mem x hx d hd
  · intro x hx
    rw [node_eq hx]
    exact hT.leaf x hx
  · intro x hx
    rw [node_eq hx]
    exact hT.full x hx
  · exact hT.tree.congr (S := { x | x ∈ st.hist.linked }) hT.root_mem
      (fun _ hx _ _ hk => (hT.kid_mem hx hk).1) fun _ hx => kid_congr (node_eq hx)
  · intro r x hx
    by_cases hr : r = (st.thread i).allocatedSCXRecord
    · subst hr
      rw [record_scxMem_self] at hx
      exact hc.nodes_linked hI x hx
    · rw [record_scxMem_of_ne hr] at hx
      exact hT.nodes_mem r x hx
  · intro r
    by_cases hr : r = (st.thread i).allocatedSCXRecord
    · subst hr
      rw [record_scxMem_self]
      exact hc.nodup
    · rw [record_scxMem_of_ne hr]
      exact hT.nodes_nodup r
  · intro r j x s hj
    by_cases hr : r = (st.thread i).allocatedSCXRecord
    · subst hr
      rw [record_scxMem_self]
      obtain ⟨-, hx, -⟩ := (hc.frz_iff _ _ _).mp hj
      exact (List.getElem?_eq_some_iff.mp hx).1
    · rw [record_scxMem_of_ne hr]
      rw [frz_eq hr] at hj
      exact hT.frz_lt r j x s hj
  · intro r j x s hj
    by_cases hr : r = (st.thread i).allocatedSCXRecord
    · subst hr
      obtain ⟨l, rt, -, hx, hshown⟩ := hc.shown_of_frz hI hj
      rw [node_eq hx]
      exact hshown.inner
    · rw [frz_eq hr] at hj
      rw [node_eq (hT.nodes_mem r x (hT.frz_mem hj))]
      exact hT.inner r j x s hj
  · intro r x hx hn
    by_cases hr : r = (st.thread i).allocatedSCXRecord
    · subst hr
      rw [record_scxMem_self] at hx
      have hx' : x ∈ c.nodes := hx
      rw [node_eq (hc.nodes_linked hI x hx')]
      refine (hc.nodeOk hI x hx').left ?_
      cases hres : c.res x with
      | leaf => rfl
      | inner s l rt =>
          -- a node that is not to be frozen is a leaf
          exfalso
          obtain ⟨j, hj⟩ := List.mem_iff_getElem?.mp hx'
          by_cases hlt : j < c.type.numToFreeze
          · exact hn j s ((hc.frz_iff _ _ _).mpr ⟨hlt, hj, l, rt, hres⟩)
          · have hdrop : x ∈ c.nodes.drop c.type.numToFreeze := by
              rw [List.mem_iff_getElem?]
              exact ⟨j - c.type.numToFreeze, by rw [List.getElem?_drop, ← hj]; congr 1; omega⟩
            rw [(hc.leaf x hdrop).1] at hres
            cases hres
    · rw [record_scxMem_of_ne hr] at hx
      rw [node_eq (hT.nodes_mem r x hx)]
      exact hT.outer r x hx fun j s hj => hn j s (frz_eq hr ▸ hj)
  · intro x hx hl hm
    rw [node_eq hx] at hl hm
    rw [hc.live_iff hI hpc]
    exact hT.present x hx hl hm
  · intro r hs x hx
    obtain ⟨hr, hs⟩ := written hs
    rw [record_scxMem_of_ne hr] at hx
    rw [hc.live_iff hI hpc]
    exact hT.removed r hs x hx
  · intro r hs
    obtain ⟨hr, hs⟩ := written hs
    have hat (j : ℕ) : (scxMem st i c).nodeAt r j = st.mem.nodeAt r j := by
      unfold Mem.nodeAt
      rw [record_scxMem_of_ne hr]
    have hnode : (scxMem st i c).node (st.mem.nodeAt r 0) = st.mem.node (st.mem.nodeAt r 0) := by
      refine node_scxMem fun hn => ?_
      obtain ⟨hl, hpos, -⟩ := hc.new_notMem hI hpc hn
      rcases hT.nodeAt_linked r 0 with hl' | h0
      · exact hl hl'
      · exact Nat.ne_of_gt hpos h0
    rw [hat, hat, record_scxMem_of_ne hr]
    unfold Mem.child
    rw [hnode]
    exact hT.field r hs
  · intro r
    by_cases hr : r = (st.thread i).allocatedSCXRecord
    · subst hr
      rw [of_scxHist_self]
      exact Nat.zero_le 1
    · rw [of_scxHist_of_ne hr]
      exact hT.swings_le r
  · intro r hst hs
    by_cases hr : r = (st.thread i).allocatedSCXRecord
    · subst hr
      exact hc.fits hI hpc
    · rw [of_scxHist_of_ne hr] at hs
      rw [Mem.state, record_scxMem_of_ne hr] at hst
      by_cases hd : (view st.mem st.hist).Doomed r
      · refine .inl (hI.ok.doomed_later (hc.move hI hpc) (fun heq => hr ?_) hd)
        injection heq with heq
        exact heq.symm
      · exact .inr (hc.fits_other hI hpc hr hst hs hd)

theorem threads : ThreadsOk (st.scx i c) := by
  have hT := hI.threads
  have hself : (st.scx i c).thread i = { st.thread i with
      pc := .help (st.thread i).allocatedSCXRecord false .state } := by
    simp [scx_eq, State.go, State.set]
  have hother {k : Fin n} (hk : k ≠ i) : (st.scx i c).thread k = st.thread k := by
    simp [scx_eq, State.go, State.set, hk]
  have hrec (k : Fin n) : ((st.scx i c).thread k).allocatedSCXRecord =
      (st.thread k).allocatedSCXRecord := by
    by_cases hk : k = i
    · rw [hk, hself]
    · rw [hother hk]
  have hslots (k : Fin n) : ((st.scx i c).thread k).allocatedNodes =
      (st.thread k).allocatedNodes := by
    by_cases hk : k = i
    · rw [hk, hself]
    · rw [hother hk]
  have hne {k : Fin n} (hk : k ≠ i) :
      (st.thread k).allocatedSCXRecord ≠ (st.thread i).allocatedSCXRecord :=
    fun heq => hk (hT.record_inj k i heq)
  have hown : ((st.scx i c).thread i).pc.Own (st.thread i).allocatedSCXRecord := by
    rw [hself]
    exact .inl ⟨.state, rfl⟩
  constructor
  · intro k l heq
    rw [hrec, hrec] at heq
    exact hT.record_inj k l heq
  · intro k
    rw [hrec]
    exact hT.record_ne k
  · intro k
    rw [hrec]
    exact (hT.record_lt k).trans_eq scxMem_next.2.symm
  · intro r hr
    have hr' : st.mem.nextRecord ≤ r := (Nat.le_of_eq scxMem_next.2.symm).trans hr
    have hri : r ≠ (st.thread i).allocatedSCXRecord := by
      rintro rfl
      exact absurd (hT.record_lt i) (Nat.not_lt_of_le hr')
    exact (congrArg RecordHistory.front (of_scxHist_of_ne hri)).trans (hT.unused r hr')
  · intro k
    rw [hrec]
    by_cases hk : k = i
    · subst hk
      exact .inr hown
    · rw [hother hk]
      refine (hT.unpublished k).imp_left fun h0 => ?_
      exact (congrArg RecordHistory.front (of_scxHist_of_ne (hne hk))).trans h0
  · intro k p hp
    rw [hslots]
    exact ⟨(hT.slot_pos k p hp).1, (hT.slot_pos k p hp).2.trans_eq scxMem_next.1.symm⟩
  · intro k l p hp q hq heq
    rw [hslots, hslots] at heq
    exact hT.slot_inj k l p hp q hq heq
  · intro k p hp hl
    rw [hslots] at hl
    have hl' : (st.thread k).allocatedNodes p ∈ st.hist.linked := hl
    by_cases hk : k = i
    · subst hk
      exact absurd hl' (slot_notMem hI hpc p hp)
    · obtain ⟨ho, hs, hlt⟩ := hT.slot_linked k p hp hl'
      rw [hother hk]
      refine ⟨ho, ?_, ?_⟩
      · change 0 < ((scxHist st i c).of _).swings
        rwa [of_scxHist_of_ne (hne hk)]
      · change p < ((scxMem st i c).record _).type.numInserted
        rwa [record_scxMem_of_ne (hne hk)]
  · intro r hst hs hd
    by_cases hr : r = (st.thread i).allocatedSCXRecord
    · subst hr
      refine ⟨i, .state, hrec i, by rw [hself], ?_⟩
      rw [hslots]
      change ((scxHist st i c).of _).inserted =
        (List.range ((scxMem st i c).record _).type.numInserted).map _
      rw [of_scxHist_self, record_scxMem_self]
      rfl
    · have hst' : st.mem.state r = stateInProgress := by
        have : (scxMem st i c).state r = stateInProgress := hst
        rwa [Mem.state, record_scxMem_of_ne hr] at this
      have hs' : (st.hist.of r).swings = 0 :=
        (congrArg RecordHistory.swings (of_scxHist_of_ne hr)).symm.trans hs
      have hd' : ¬ (view st.mem st.hist).Doomed r := fun hd' =>
        hd (hI.ok.doomed_later (hc.move hI hpc) (fun heq => hr (by injection heq with heq; exact
          heq.symm)) hd')
      obtain ⟨k, at_, hk, hpc', hins⟩ := hT.working r hst' hs' hd'
      have hki : k ≠ i := by
        rintro rfl
        rw [hpc] at hpc'
        cases hpc'
      refine ⟨k, at_, (hrec k).trans hk, by rw [hother hki]; exact hpc', ?_⟩
      rw [hslots]
      change ((scxHist st i c).of _).inserted =
        (List.range ((scxMem st i c).record _).type.numInserted).map _
      rw [of_scxHist_of_ne hr, record_scxMem_of_ne hr]
      exact hins

end Proper

/-- **A call of `scx` keeps the invariant.** -/
theorem Inv.scx (hI : Inv st) (hpc : (st.thread i).pc = .idle) (hc : Proper st i c) :
    Kept st (st.scx i c) := by
  have hk := hc.keeps hI hpc
  change Kept st (st.set (scxMem st i c) (scxHist st i c) i _)
  refine hI.set hk ?_ (.inl ⟨rfl, ?_⟩) ?_ (Nat.le_succ _) ?_ ?_ (hc.tree hI hpc)
    (hc.threads hI hpc) ?_ fun p hp => (hI.res i p hp).keeps hk
  · intro k hki
    refine ⟨fun heq => hki ?_, nofun, nofun⟩
    injection heq with heq
    exact (hI.threads.record_inj i k heq).symm
  · intro x hx d
    unfold Mem.child
    rw [hc.node_eq hI hpc hx]
  · intro r heq
    injection heq with heq
    rw [← heq]
    rw [of_scxHist_self]
    exact Nat.lt_succ_self _
  · intro r
    unfold Mem.state
    by_cases hr : r = (st.thread i).allocatedSCXRecord
    · subst hr
      exact .inl (congrArg SCXRecord.state record_scxMem_self)
    · rw [record_scxMem_of_ne hr]
      exact hI.word r
  · intro r
    change ((scxHist st i c).of r).time ≤ st.hist.clock + 1
    by_cases hr : r = (st.thread i).allocatedSCXRecord
    · subst hr
      rw [of_scxHist_self]
      exact Nat.le_refl _
    · rw [of_scxHist_of_ne hr]
      exact (hI.time_le r).trans (Nat.le_succ _)
  · have hh : (scxHist st i c).of (st.thread i).allocatedSCXRecord = c.history st i :=
      of_scxHist_self
    refine ⟨⟨rfl, ?_, ?_⟩, fun _ => ⟨?_, ?_⟩, trivial⟩
    · exact congrArg RecordHistory.owner hh
    · exact congrArg RecordHistory.done hh
    · have hrec : (scxMem st i c).record (st.thread i).allocatedSCXRecord =
          c.record (st.thread i).allocatedNodes := record_scxMem_self
      exact congrArg SCXRecord.state hrec
    · exact congrArg RecordHistory.front hh

end Cbat.Scx
