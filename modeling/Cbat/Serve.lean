/-
**Threads that bring a key to the root.**

Fix a key whose presence in the node tree does not change for a while, and a thread that propagates
an update of it.  What the thread has climbed past is settled: the nodes of its set, all nodes below
the one that it refreshes, and the nodes where the path of the key has left that of the thread's own
key.  A thread that stops climbing waits for one that has replaced the version it wanted to replace,
and which therefore has read the settled nodes; so the same is true of that thread, and in this way
all threads that are waited for bring the key to the root.

Main definitions:

* `Cbat.SettledFrom`, `Cbat.SettledBelow` — settled parts of the path of the key;
* `Cbat.ServeOk` — **what is settled at each program counter of a thread that serves the key**;
* `Cbat.ServeInv` — all threads that serve the key, and the status records of those waited for.

Main results:

* `Cbat.ServeOk.other`, `Cbat.ServeOk.move` — the steps of the other threads and of the thread
  itself;
* `Cbat.ServeInv.step` — **every step keeps the key on its way to the root**.
-/

import Cbat.Status

set_option relaxedAutoImplicit false
set_option autoImplicit false

namespace Cbat

variable {K V : Type} [LinearOrder K] {cfg : Cfg K V} {k : K} {P : Prop} {s : State K V}
  {m' : Mem K V} {i : ℕ} {pc' : PC K V} {x y : ℕ}

/-! ### Settled parts of a path -/

section Regions

variable (cfg) (k : K) (P : Prop) (s : State K V) (x : ℕ)

/-- The node and all nodes below it on the path of the key are settled. -/
def SettledFrom : Prop := ∀ y, Route cfg s.mem k x y → Settled cfg k P s y

/-- All nodes below the node on the path of the key are settled. -/
def SettledBelow : Prop := ∀ y, Route cfg s.mem k x y → y ≠ x → Settled cfg k P s y

end Regions

/-- A step of thread `i` after which the tree contains the key exactly if `P` holds. -/
structure KeyStep (cfg : Cfg K V) (k : K) (P : Prop) (s : State K V) (i : ℕ) (m' : Mem K V)
    (pc' : PC K V) : Prop where
  inv : Inv cfg s
  ver : VInv cfg s
  status : StatusInv cfg s
  key : k ≠ cfg.noKey
  kind : ExecKind cfg s.mem (s.pc i) m' pc'
  stored : InTree m' k ↔ P

section KeyStep

variable (h : KeyStep cfg k P s i m' pc')
include h

theorem KeyStep.later : Later cfg s.mem m' := h.inv.later h.kind

/-- **The nodes from `x` on stay settled.** -/
theorem KeyStep.settledFrom (hx : x < s.mem.next)
    (hs : OnPath cfg s.mem k x → SettledFrom cfg k P s x) (hx' : OnPath cfg m' k x) :
    SettledFrom cfg k P (s.set m' i pc') x := by
  intro y hxy
  have hy' := hx'.route hxy
  by_cases ho : OnPath cfg s.mem k x
  · refine Settled.step (D := Route cfg s.mem k x) h.inv h.ver h.key h.kind h.stored
      (fun y hy => ⟨ho.route hy, hs ho y hy⟩) (fun y c hy hc => hy.tail hc) hy' fun hlt hy => ?_
    exact h.later.route_back k x y hx hlt ho.good hy.good hxy
  · have hn := (h.kind.newly h.inv h.key hx ho hx').2 y hxy
    exact Settled.step (D := fun _ => False) h.inv h.ver h.key h.kind h.stored
      (fun _ hy => hy.elim) (fun _ _ hy _ => hy) hy' fun hlt hy => hn hlt hy

/-- **The nodes below `x` stay settled.** -/
theorem KeyStep.settledBelow (hx : x < s.mem.next)
    (hs : OnPath cfg s.mem k x → SettledBelow cfg k P s x) (hx' : OnPath cfg m' k x) :
    SettledBelow cfg k P (s.set m' i pc') x := by
  intro y hxy hne
  have hy' := hx'.route hxy
  by_cases ho : OnPath cfg s.mem k x
  · obtain ⟨t, hB⟩ := h.inv.base
    refine Settled.step (D := fun y => Route cfg s.mem k x y ∧ y ≠ x) h.inv h.ver h.key h.kind
      h.stored (fun y hy => ⟨ho.route hy.1, hs ho y hy.1 hy.2⟩) (fun y c hy hc => ?_) hy'
      fun hlt hy => ⟨?_, hne⟩
    · refine ⟨hy.1.tail hc, ?_⟩
      rintro rfl
      exact hB.tree.not_reach_of_edge (ho.route hy.1).live hc.edge hy.1.reach
    · exact h.later.route_back k x y hx hlt ho.good hy.good hxy
  · have hn := (h.kind.newly h.inv h.key hx ho hx').2 y hxy
    exact Settled.step (D := fun _ => False) h.inv h.ver h.key h.kind h.stored
      (fun _ hy => hy.elim) (fun _ _ hy _ => hy) hy' fun hlt hy => hn hlt hy

/-- **The nodes where the path of the key has left that of another key stay settled.** -/
theorem KeyStep.settledOff {q : K}
    (hs : ∀ y, OnPath cfg s.mem k y → ¬ OnPath cfg s.mem q y → Settled cfg k P s y)
    (hy : OnPath cfg m' k y) (hq : ¬ OnPath cfg m' q y) : Settled cfg k P (s.set m' i pc') y := by
  obtain ⟨t, hB⟩ := h.inv.base
  refine Settled.step (D := fun y => OnPath cfg s.mem k y ∧ ¬ OnPath cfg s.mem q y) h.inv h.ver
    h.key h.kind h.stored (fun y hy => ⟨hy.1, hs y hy.1 hy.2⟩) (fun y c hy hc => ?_) hy
    fun _ ho => ⟨ho, fun hoq => hq (h.later.onPath q y hoq hy.live)⟩
  exact ⟨hy.1.step hc, fun hoq => hy.2 (hB.tree.coherent hy.1 (.single hc) hoq).1⟩

/-- A node that was not on the path before the step. -/
theorem KeyStep.settled_newly (hx : x < s.mem.next) (hn : ¬ OnPath cfg s.mem k x)
    (hx' : OnPath cfg m' k x) : ¬ P ∧ Live s.mem x ∧ Settled cfg k P s x := by
  have hP : ¬ P := fun hp => (h.kind.newly h.inv h.key hx hn hx').1 (h.stored.mpr hp)
  have hl := h.later.live x hx hx'.live
  exact ⟨hP, hl, settled_off h.inv h.ver h.key hl hn hP⟩

/-- **What a refresh has read still shows the key** after the steps of other threads. -/
theorem KeyStep.frameShows {g : Frame K} (hok : FrameOk s.mem g) (hfit : FrameFit cfg s.mem g)
    (hs : OnPath cfg s.mem k g.x → FrameShows cfg k P s.mem g) (hx' : OnPath cfg m' k g.x) :
    FrameShows cfg k P m' g := by
  obtain ⟨t, hB⟩ := h.inv.base
  have hbefore : FrameShows cfg k P s.mem g := by
    by_cases ho : OnPath cfg s.mem k g.x
    · exact hs ho
    · obtain ⟨hP, hl, -⟩ := h.settled_newly hok.x ho hx'
      exact frameShows_off hB hfit h.key hl ho hP
  have hsame : SameNodes s.mem m' → FrameShows cfg k P m' g := fun hs =>
    (FrameShows.congr (hs.same g.x)).mpr hbefore
  have hkey := h.later.key g.x hok.x
  cases h.kind with
  | still => exact hsame (Quiet.refl _).toSameNodes
  | prop hp => exact hsame hp.quiet.toSameNodes
  | freeze => exact hsame (freeze_sameNodes ..)
  | swing hpc =>
      obtain ⟨old, hc⟩ := h.inv.commit hpc
      exact hbefore.swing hc hok hkey

theorem SettledBelow.childShows (hs : SettledBelow cfg k P s x) (ho : OnPath cfg s.mem k x) :
    ChildShows cfg k P s.mem x := fun c hc => by
  obtain ⟨t, hB⟩ := h.inv.base
  refine (hs c (.single hc) ?_).version
  rintro rfl
  exact hB.tree.not_reach_of_edge ho.live hc.edge .refl

/-- **The refreshes of `x` stay settled**, and they are settled after a new version. -/
theorem KeyStep.frameSettled (hx : x < s.mem.next)
    (hb : OnPath cfg s.mem k x → SettledBelow cfg k P s x)
    (hs : OnPath cfg s.mem k x → (m'.node x).version = (s.mem.node x).version →
      FrameSettled cfg k P s x)
    (hx' : OnPath cfg m' k x) : FrameSettled cfg k P (s.set m' i pc') x := by
  have hsame : SameNodes s.mem m' → (m'.node x).version = (s.mem.node x).version →
      pc'.frames = [] → FrameSettled cfg k P (s.set m' i pc') x := fun hn hv hf =>
    (hs (hn.onPath_iff.mp hx') hv).of_same hn hv hf
  cases h.kind with
  | still hpc hpc' => exact hsame (Quiet.refl _).toSameNodes rfl (PC.early_frames hpc')
  | prop hp =>
      have ho := hp.quiet.toSameNodes.onPath_iff.mp hx'
      exact .prop (hs ho) h.inv h.ver hp ((hb ho).childShows h ho)
  | freeze => exact hsame (freeze_sameNodes ..) (freeze_version ..) rfl
  | swing hpc =>
      obtain ⟨old, hc⟩ := h.inv.commit hpc
      refine FrameSettled.swing ?_ h.inv hc hx
      by_cases ho : OnPath cfg s.mem k x
      · exact hs ho (hc.swing_version hx)
      · exact (h.settled_newly hx ho hx').2.2.frames

/-- **A version that replaces another one shows the key** if the refreshes are settled. -/
theorem KeyStep.version_shows (hx : x < s.mem.next)
    (hs : OnPath cfg s.mem k x → FrameSettled cfg k P s x ∧
      ((m'.node x).version = (s.mem.node x).version → Shows k P (s.mem.node x).version))
    (hn : (m'.node x).version ≠ .nil) (hx' : OnPath cfg m' k x) :
    Shows k P (m'.node x).version := by
  by_cases ho : OnPath cfg s.mem k x
  · obtain ⟨hf, hv⟩ := hs ho
    by_cases he : (m'.node x).version = (s.mem.node x).version
    · rw [he]
      exact hv he
    · cases h.kind with
      | still => exact absurd rfl he
      | prop hp =>
          rcases hp.version (h.ver.pcs i) x with
            hv | ⟨cl, r, again, f, cs, hpc, hpos, rfl, hold, hv⟩
          · exact absurd hv he
          · have hmem : f ∈ (s.pc i).frames := by simp [hpc, PC.frames]
            rw [hv]
            exact newVer_shows h.key ((h.ver.pcs i).frameFit hmem) hpos ho.live
              (hf f ⟨i, hmem⟩ rfl hold.symm)
      | freeze => exact absurd (freeze_version ..) he
      | swing hpc =>
          obtain ⟨old, hc⟩ := h.inv.commit hpc
          exact absurd (hc.swing_version hx) he
  · obtain ⟨-, -, hset⟩ := h.settled_newly hx ho hx'
    -- only an SCX brings a node to the path, and it changes no version
    have hsame : SameNodes s.mem m' → Shows k P (m'.node x).version := fun hs =>
      absurd (hs.onPath_iff.mp hx') ho
    cases h.kind with
    | still => exact hsame (Quiet.refl _).toSameNodes
    | prop hp => exact hsame hp.quiet.toSameNodes
    | freeze => exact hsame (freeze_sameNodes ..)
    | swing hpc =>
        obtain ⟨old, hc⟩ := h.inv.commit hpc
        rw [hc.swing_version hx] at hn ⊢
        exact hset.version hn

end KeyStep

/-! ### What is settled at each program counter -/

section Serve

variable (cfg) (k : K) (P : Prop) (G : Set ℕ) (s : State K V)

/-- **What a thread that looks for `q` has climbed past**: the nodes of its set, and what is not on
its own path. -/
structure Climbed (q : K) (set : List ℕ) : Prop where
  set : ∀ c ∈ set, OnPath cfg s.mem k c → SettledFrom cfg k P s c
  off : ∀ y, OnPath cfg s.mem k y → ¬ OnPath cfg s.mem q y → Settled cfg k P s y

/-- A failed CAS of this refresh makes the thread wait for another one. -/
def Delegating (var : Variant) (again : Bool) : Prop :=
  var = .eagerDel ∨ var = .del ∧ again = true

/-- **The refresh of `r` that `propagate` has called.**  If the version is no longer the expected
one, then it was replaced after all nodes below `r` were settled, so the refreshes that may replace
it now are settled as well; in the second attempt, the version itself is one of theirs.  Those who
replace a version that a delegating refresh expects are in `G`. -/
structure MainOk (r : ℕ) (again : Bool) (g : Frame K) : Prop where
  shows : OnPath cfg s.mem k r → FrameShows cfg k P s.mem g
  first : OnPath cfg s.mem k r → g.pos.loaded = true → (s.mem.node r).version ≠ g.oldVer →
    FrameSettled cfg k P s r
  second : again = true ∨ g.prev ≠ none → OnPath cfg s.mem k r → FrameSettled cfg k P s r ∧
    (g.pos.loaded = true → (s.mem.node r).version ≠ g.oldVer → Shows k P (s.mem.node r).version)
  deleg : Delegating cfg.variant again → Live s.mem r → g.pos.loaded = true →
    (s.mem.node r).version ≠ g.oldVer → (s.mem.node r).version.status ∈ G

/-- **What is settled at each program counter of a thread that serves the key.** -/
def ServeOk : PC K V → Prop
  | .propStart c => c.key = k
  | .propChild cl => Climbed cfg k P s cl.call.key cl.set
  | .propTest cl c => Climbed cfg k P s cl.call.key cl.set ∧
      ((s.mem.node c).left = 0 ∨ c ∈ cl.set → ∀ r ∈ cl.stack.head?, OnPath cfg s.mem k r →
        SettledBelow cfg k P s r)
  | .refresh cl r again f cs => Climbed cfg k P s cl.call.key cl.set ∧
      (OnPath cfg s.mem k r → SettledBelow cfg k P s r) ∧
      ∀ g ∈ f :: cs, g.main = true → MainOk cfg k P G s r again g
  | .propMark cl r curps => Climbed cfg k P s cl.call.key cl.set ∧
      (OnPath cfg s.mem k r → SettledBelow cfg k P s r) ∧
      (cfg.variant ≠ .eagerDel → OnPath cfg s.mem k r → Settled cfg k P s r) ∧
      (Live s.mem r → curps ∈ G)
  | .waitDone _ d | .waitPtr _ d => d ∈ G
  | .setDone _ | .retire _ _ | .ret _ => SettledFrom cfg k P s root
  | _ => False

end Serve

/-! ### The steps of other threads -/

section Other

variable {G G' : Set ℕ} (h : KeyStep cfg k P s i m' pc')
include h

theorem Climbed.step {q : K} {set : List ℕ} (hc : Climbed cfg k P s q set)
    (hlt : ∀ c ∈ set, c < s.mem.next) : Climbed cfg k P (s.set m' i pc') q set :=
  ⟨fun c hcs ho => h.settledFrom (hlt c hcs) (hc.set c hcs) ho,
    fun _ hy hq => h.settledOff hc.off hy hq⟩

omit h in
/-- A version other than the expected one is not nil. -/
theorem FrameFit.version_ne_nil {m : Mem K V} {g : Frame K} (hfit : FrameFit cfg m g)
    (hne : (m.node g.x).version ≠ g.oldVer) : (m.node g.x).version ≠ .nil := fun hn =>
  hfit.old (fun ho => hne (hn.trans ho.symm)) hn

/-- **A refresh of a serving thread over the steps of others.** -/
theorem MainOk.step {r : ℕ} {again : Bool} {g : Frame K} (hm : MainOk cfg k P G s r again g)
    (hG : G ⊆ G') (hgx : g.x = r) (hok : FrameOk s.mem g) (hfit : FrameFit cfg s.mem g)
    (hb : OnPath cfg s.mem k r → SettledBelow cfg k P s r)
    (hadd : Delegating cfg.variant again → Live s.mem r → g.pos.loaded = true →
      (m'.node r).version ≠ (s.mem.node r).version → (m'.node r).version.status ∈ G') :
    MainOk cfg k P G' (s.set m' i pc') r again g := by
  subst hgx
  have hfs : ∀ (_ : OnPath cfg s.mem k g.x → (m'.node g.x).version = (s.mem.node g.x).version →
      FrameSettled cfg k P s g.x) (_ : OnPath cfg m' k g.x),
      FrameSettled cfg k P (s.set m' i pc') g.x := fun h₁ h₂ => h.frameSettled hok.x hb h₁ h₂
  refine ⟨fun ho => h.frameShows hok hfit hm.shows ho, fun ho hl hne => ?_, fun h2 ho => ?_,
    fun hd hx hl hne => ?_⟩
  · exact hfs (fun ho' he => hm.first ho' hl (he ▸ hne)) ho
  · refine ⟨hfs (fun ho' _ => (hm.second h2 ho').1) ho, fun hl hne => ?_⟩
    rw [State.set_mem] at hne ⊢
    refine h.version_shows hok.x (fun ho' => ?_) ((hfit.later hok h.later).version_ne_nil hne) ho
    obtain ⟨hf, hv⟩ := hm.second h2 ho'
    exact ⟨hf, fun he => hv hl (he ▸ hne)⟩
  · rw [State.set_mem] at hx hne ⊢
    have hx' := h.later.live g.x hok.x hx
    by_cases he : (m'.node g.x).version = (s.mem.node g.x).version
    · rw [he] at hne ⊢
      exact hG (hm.deleg hd hx' hl hne)
    · exact hadd hd hx' hl he

/-- **What is settled for a thread stays so over the steps of the other threads.** -/
theorem ServeOk.other {pc : PC K V} (hs : ServeOk cfg k P G s pc) (hG : G ⊆ G')
    (hok : PcOk cfg s.mem pc) (hfit : PcFit cfg s.mem pc) (hst : PcStatus cfg s.mem pc)
    (hadd : ∀ cl r again f cs, pc = .refresh cl r again f cs → Delegating cfg.variant again →
      Live s.mem r → (∃ g ∈ f :: cs, g.main = true ∧ g.pos.loaded = true) →
      (m'.node r).version ≠ (s.mem.node r).version → (m'.node r).version.status ∈ G') :
    ServeOk cfg k P G' (s.set m' i pc') pc := by
  obtain ⟨t, hB⟩ := h.inv.base
  have hroot := hB.tree.root_lt
  cases pc with
  | propStart c => exact hs
  | propChild cl => exact hs.step h hok.set_lt
  | propTest cl c =>
      refine ⟨hs.1.step h hok.1.set_lt, fun hc r hr ho => ?_⟩
      refine h.settledBelow (hok.1.stack.lt r (List.mem_of_head? hr)) (fun ho' => ?_) ho
      exact hs.2 (hc.imp_left (h.later.leaf c (hok.2.trail.lt c (by simp))).mp) r hr ho'
  | refresh cl r again f cs =>
      have hr := hok.1.stack.lt r (by simp)
      refine ⟨hs.1.step h hok.1.set_lt, fun ho => h.settledBelow hr hs.2.1 ho, fun g hg hm => ?_⟩
      exact (hs.2.2 g hg hm).step h hG ((hst.2 g hg).x hm) (hok.2 g hg) (hfit.each g hg) hs.2.1
        fun hd hx hl hv => hadd cl r again f cs rfl hd hx ⟨g, hg, hm, hl⟩ hv
  | propMark cl r curps =>
      have hr := hok.stack.lt r (by simp)
      obtain ⟨hc, hb, hd, hl⟩ := hs
      refine ⟨hc.step h hok.set_lt, fun ho => h.settledBelow hr hb ho, fun hv ho => ?_,
        fun hx => hG (hl (h.later.live r hr hx))⟩
      -- `r` and what is below it
      refine h.settledFrom hr (fun ho' y hy => ?_) ho r .refl
      by_cases hyr : y = r
      · exact hyr ▸ hd hv ho'
      · exact hb ho' y hy hyr
  | waitDone cl d | waitPtr cl d => exact hG hs
  | setDone cl | retire cl vs | ret c => exact h.settledFrom hroot (fun _ => hs) onPath_root
  | _ => exact hs.elim

end Other

/-! ### The steps of a serving thread -/

/-- Two keys whose paths both go through a child of a node agree on the child. -/
theorem TreeInv.child_eq {m : Mem K V} {t : LTree (Cell K V)} (hT : TreeInv cfg m t) {k q : K}
    {x c : ℕ} (hx : OnPath cfg m k x) (hc : KEdge cfg m k x c) (hq : OnPath cfg m q c) :
    child cfg m q x = c := by
  obtain ⟨-, hr⟩ := hT.coherent hx (.single hc) hq
  rcases route_cases.mp hr with rfl | ⟨d, hd, hdc⟩
  · exact absurd .refl (hT.not_reach_of_edge hx.live hc.edge)
  · rcases Relation.ReflTransGen.cases_tail hdc with rfl | ⟨z, hz, hzc⟩
    · exact hd.2.1
    · -- another node above `c` would be `x`, below its own child `d`
      have hzl : Live m z := (hx.live.edge hd.edge).reach (Route.reach hz)
      obtain rfl := hT.parent_unique hzl hx.live hzc.edge hc.edge
      exact absurd (Route.reach hz) (hT.not_reach_of_edge hx.live hd.edge)

/-- An unmarked node of a stack is in the tree. -/
theorem StackOk.live {m : Mem K V} {t : LTree (Cell K V)} {q : K} {xs : List ℕ}
    (hst : StackOk cfg m q xs) (hB : Base cfg m t) (hx : x ∈ xs)
    (hm : (m.node x).marked = false) : Live m x := by
  by_contra hn
  have := hB.marked x (hst.lt x hx) (hst.ne_zero x hx) (hst.internal x hx) hn
  rw [hm] at this
  exact nomatch this

section Move

variable {G G' : Set ℕ} {cl : Climb K V} {r : ℕ} {again : Bool}

/-- **All nodes below `x` are settled** once `propagate` has found its child to be a leaf or in its
set: the path of the key goes there, or it leaves the path of the thread at `x`. -/
theorem Climbed.settledBelow {q : K} {set : List ℕ} (hc : Climbed cfg k P s q set)
    (hI : Inv cfg s) (hV : VInv cfg s) (hk : k ≠ cfg.noKey) (hP : InTree s.mem k ↔ P)
    (hd : (s.mem.node (child cfg s.mem q x)).left = 0 ∨ child cfg s.mem q x ∈ set)
    (hx : OnPath cfg s.mem k x) : SettledBelow cfg k P s x := by
  obtain ⟨t, hB⟩ := hI.base
  intro y hxy hne
  rcases route_cases.mp hxy with rfl | ⟨c, hxc, hcy⟩
  · exact absurd rfl hne
  · have hoc := hx.step hxc
    by_cases hq : OnPath cfg s.mem q c
    · rw [hB.tree.child_eq hx hxc hq] at hd
      rcases hd with hl | hset
      · rcases route_cases.mp hcy with rfl | ⟨d, hd, -⟩
        · exact settled_leaf hI hV hk hP hoc hl
        · exact absurd hl hd.1
      · exact hc.set c hset hoc y hcy
    · exact hc.off y (hoc.route hcy) fun hqy => hq (hB.tree.coherent hoc hcy hqy).1

/-- `set.insert(r)`. -/
theorem ServeOk.inserted (hc : Climbed cfg k P s cl.call.key cl.set)
    (hr : OnPath cfg s.mem k r → SettledFrom cfg k P s r) :
    ServeOk cfg k P G s (inserted cfg cl r) := by
  have hc' : Climbed cfg k P s cl.call.key (r :: cl.set) :=
    ⟨List.forall_mem_cons.mpr ⟨hr, hc.set⟩, hc.off⟩
  unfold Cbat.inserted
  simp only
  split_ifs with hroot hv
  · exact hc'.set root hroot onPath_root
  · exact hc'.set root hroot onPath_root
  · exact hc'

theorem MainOk.start (h : again = true → OnPath cfg s.mem k r → FrameSettled cfg k P s r)
    (var : Variant) : MainOk cfg k P G s r again (.start var r true) := by
  have hl : (Frame.start (K := K) var r true).pos.loaded = false := by
    simp only [Frame.start]
    split_ifs <;> rfl
  have hb : (Frame.start (K := K) var r true).pos.blank = true := by
    simp only [Frame.start]
    split_ifs <;> rfl
  refine ⟨fun _ => .of_blank hb, fun _ h => ?_, fun h2 ho => ⟨h (h2.resolve_right (· rfl)) ho,
    fun h => ?_⟩, fun _ _ h => ?_⟩
  all_goals rw [hl] at h; cases h

/-- The nodes from `r` on, from `r` itself and those below it. -/
theorem SettledBelow.from (hb : SettledBelow cfg k P s x) (hx : Settled cfg k P s x) :
    SettledFrom cfg k P s x := fun y hy => by
  by_cases he : y = x
  · exact he ▸ hx
  · exact hb y hy he

/-- What a refresh that returns leaves behind. -/
structure Leaves (cfg : Cfg K V) (k : K) (P : Prop) (G : Set ℕ) (s : State K V) (ps r : ℕ)
    (again ok : Bool) (curps : ℕ) : Prop where
  frames : OnPath cfg s.mem k r → FrameSettled cfg k P s r
  settled : ok = true ∨ again = true → OnPath cfg s.mem k r → Settled cfg k P s r
  own : cfg.variant ≠ .bat → (curps = ps ↔ ok = true)
  deleg : ok = false → Delegating cfg.variant again → Live s.mem r → curps ∈ G

/-- **A refresh has returned.** -/
theorem ServeOk.refreshed {ok : Bool} {curps : ℕ} (hl : Leaves cfg k P G s cl.ps r again ok curps)
    (hc : Climbed cfg k P s cl.call.key cl.set)
    (hb : OnPath cfg s.mem k r → SettledBelow cfg k P s r) :
    ServeOk cfg k P G s (refreshed cfg cl r again ok curps) := by
  have hins : ok = true ∨ again = true → ServeOk cfg k P G s (Cbat.inserted cfg cl r) := fun h =>
    .inserted hc fun ho => (hb ho).from (hl.settled h ho)
  have hagain : ∀ var, ServeOk cfg k P G s (.refresh cl r true (.start var r true) []) := fun var =>
    ⟨hc, hb, fun g hg _ => by
      rw [List.mem_singleton.mp hg]
      exact .start (fun _ => hl.frames) var⟩
  have hfail : cfg.variant ≠ .bat → curps ≠ cl.ps → ok = false := fun hv hne =>
    Bool.eq_false_iff.mpr fun h => hne ((hl.own hv).mpr h)
  unfold Cbat.refreshed
  cases hv : cfg.variant with
  | bat =>
      simp only
      split_ifs with h
      · exact hins (by simpa using h)
      · exact hagain .bat
  | eagerDel =>
      simp only
      have hb' : cfg.variant ≠ .bat := by rw [hv]; decide
      split_ifs with h
      · exact hins (.inl ((hl.own hb').mp h))
      · exact ⟨hc, hb, fun h => absurd hv h,
          hl.deleg (hfail hb' h) (.inl hv)⟩
  | del =>
      simp only
      have hb' : cfg.variant ≠ .bat := by rw [hv]; decide
      split_ifs with h ha
      · exact hins (.inl ((hl.own hb').mp h))
      · exact ⟨hc, hb, fun _ => hl.settled (.inr ha), hl.deleg (hfail hb' h) (.inr ⟨hv, ha⟩)⟩
      · exact hagain .del

omit [LinearOrder K] in
/-- A new version is not the one that was expected. -/
theorem Frame.newVer_ne {m : Mem K V} {f : Frame K} (hok : FrameOk m f) (ps : ℕ) :
    f.newVer m ps ≠ f.oldVer := fun he => f.newVer_not_below m ps (he ▸ hok.oldVer)

/-- A refresh returns after its CAS. -/
theorem Leaves.swapped {f : Frame K} {ps : ℕ}
    (h : KeyStep cfg k P s i (s.mem.install f.x (f.newVer s.mem ps)) pc') (hp : f.pos = .cas)
    (hv : (s.mem.node f.x).version = f.oldVer) (hx : f.x = r)
    (hs : OnPath cfg s.mem k r → FrameShows cfg k P s.mem f) (hok : FrameOk s.mem f)
    (hfit : FrameFit cfg s.mem f) (hb : OnPath cfg s.mem k r → SettledBelow cfg k P s r)
    (hq : SameNodes s.mem (s.mem.install f.x (f.newVer s.mem ps))) :
    Leaves cfg k P G (s.set (s.mem.install f.x (f.newVer s.mem ps)) i pc') ps r again true ps := by
  subst hx
  have hfr : OnPath cfg _ k f.x → FrameSettled cfg k P _ f.x :=
    h.frameSettled hok.x hb fun _ he => by
      rw [install_version_self, hv] at he
      exact absurd he (Frame.newVer_ne hok ps)
  refine ⟨hfr, fun _ ho => ⟨fun _ => ?_, hfr ho⟩, fun _ => iff_of_true rfl rfl, nofun⟩
  have ho' := hq.onPath_iff.mp ho
  rw [State.set_mem, install_version_self]
  exact newVer_shows h.key hfit hp ho'.live (hs ho')

/-- **How a refresh of a serving thread returns.** -/
theorem Returns.leaves {f : Frame K} {ok : Bool} {ps curps : ℕ}
    (hret : Returns s.mem ps f m' ok curps)
    (h : KeyStep cfg k P s i m' pc') (hm : MainOk cfg k P G s r again f) (hG : G ⊆ G')
    (hmain : f.main = true)
    (hst : FrameStatus cfg.variant s.mem ps r again f) (hok : FrameOk s.mem f)
    (hfit : FrameFit cfg s.mem f) (hb : OnPath cfg s.mem k r → SettledBelow cfg k P s r)
    (hq : SameNodes s.mem m') : Leaves cfg k P G' (s.set m' i pc') ps r again ok curps := by
  have hx := hst.x hmain
  have hr : r < s.mem.next := hx ▸ hok.x
  cases hret with
  | swapped hp hv => exact .swapped h hp hv hx hm.shows hok hfit hb hq
  | failed hp hv =>
      rw [hx] at hv
      have hl : f.pos.loaded = true := by rw [hp]; rfl
      have hfr : OnPath cfg s.mem k r → FrameSettled cfg k P (s.set s.mem i pc') r :=
        h.frameSettled hr hb fun ho _ => hm.first ho hl hv
      refine ⟨hfr, fun ha ho => ⟨fun _ => ?_, hfr ho⟩, fun hb => ?_, fun _ hd hx' => ?_⟩
      · exact (hm.second (.inl (ha.resolve_left nofun)) ho).2 hl hv
      · refine iff_of_false (fun he => ?_) nofun
        rw [hx] at he
        exact (hst.other hb hmain hl hv).1 he
      · rw [hx]
        exact hG (hm.deleg hd hx' hl hv)
  | unchanged hp he hprev =>
      obtain ⟨hl, a, key, sum, st, hold⟩ := hst.prev _ _ hprev
      have h2 : again = true ∨ f.prev ≠ none := .inr (by rw [hprev]; exact nofun)
      have hfr : OnPath cfg s.mem k r → FrameSettled cfg k P (s.set s.mem i pc') r :=
        h.frameSettled hr hb fun ho _ => (hm.second h2 ho).1
      refine ⟨hfr, fun _ ho => ⟨fun _ => ?_, hfr ho⟩, fun _ => iff_of_true rfl rfl, nofun⟩
      rw [State.set_mem]
      by_cases hv : (s.mem.node r).version = f.oldVer
      · -- the version has the children that were just read again
        obtain ⟨t, hB⟩ := h.inv.base
        have hlive : Live s.mem f.x := hx ▸ ho.live
        have hs := hm.shows ho
        have hfl := hfit.left
        have hfr := hfit.right
        simp only [LeftFit, RightFit, FrameShows, hp] at hs hfl hfr
        rw [hv, hold]
        refine shows_mk h.key (hfl hlive) ?_ hs.1 (fun hle => hs.2 hle he) ..
        rcases hfr with ⟨-, h0⟩ | ⟨h0, hf⟩
        · exact .inl h0
        · exact .inr (fitsRight_of_child hB.tree hlive (he ▸ h0)
            (he ▸ hf (hlive.edge ⟨h0, .inr he.symm⟩)))
      · exact (hm.second h2 ho).2 hl hv

/-- An eager refresh goes on after its CAS. -/
theorem MainOk.swapped {f : Frame K} {ps : ℕ}
    (h : KeyStep cfg k P s i (s.mem.install f.x (f.newVer s.mem ps)) pc')
    (hv : (s.mem.node f.x).version = f.oldVer) (hx : f.x = r) (hok : FrameOk s.mem f)
    (hb : OnPath cfg s.mem k r → SettledBelow cfg k P s r) :
    MainOk cfg k P G (s.set (s.mem.install f.x (f.newVer s.mem ps)) i pc') r again
      { f with oldVer := f.newVer s.mem ps, prev := some (f.leftver, f.rightver),
               pos := .loadLeft } := by
  subst hx
  have hnew := install_version_self s.mem f.x (f.newVer s.mem ps)
  refine ⟨fun _ => .of_blank rfl, fun _ _ hne => absurd hnew hne,
    fun _ ho => ⟨?_, fun _ hne => absurd hnew hne⟩, fun _ _ _ hne => absurd hnew hne⟩
  refine h.frameSettled hok.x hb (fun _ hsame => ?_) ho
  rw [hnew, hv] at hsame
  exact absurd hsame (Frame.newVer_ne hok ps)

/-- The calls of a refresh after one access of a serving thread. -/
theorem MainOk.next {f g : Frame K} {cs : List (Frame K)} {ps : ℕ}
    (hn : NextFrame cfg.variant s.mem ps f cs m' g) (hgm : g.main = true)
    (h : KeyStep cfg k P s i m' pc') (hG : G ⊆ G')
    (hm : ∀ g ∈ f :: cs, g.main = true → MainOk cfg k P G s r again g)
    (hok : ∀ g ∈ f :: cs, FrameOk s.mem g) (hF : FramesFit cfg s.mem f cs)
    (hst : ∀ g ∈ f :: cs, FrameStatus cfg.variant s.mem ps r again g)
    (hb : OnPath cfg s.mem k r → SettledBelow cfg k P s r)
    (hver : (m'.node r).version = (s.mem.node r).version ∨
      (f.main = false → cfg.variant ≠ .bat → (s.mem.node r).version = .nil)) :
    MainOk cfg k P G' (s.set m' i pc') r again g := by
  obtain ⟨t, hB⟩ := h.inv.base
  -- a refresh that waits for a nested call, or that goes on
  have hstay : ∀ g ∈ f :: cs, g.main = true →
      ((m'.node r).version ≠ (s.mem.node r).version → f.main = false) →
      MainOk cfg k P G' (s.set m' i pc') r again g := fun g hg hgm hv => by
    refine (hm g hg hgm).step h hG ((hst g hg).x hgm) (hok g hg) (hF.each g hg) hb
      fun hd _ hl hne => ?_
    -- a nested call fills in a version, but there was one to compare with
    have hvar : cfg.variant ≠ .bat := by rcases hd with hd | hd <;> simp [hd]
    have hold := (hst g hg).there hgm hl (hd.imp_right And.right)
    refine absurd (hver.resolve_left hne (hv hne) hvar) ?_
    exact (hst g hg).x hgm ▸ (hF.each g hg).old hold
  cases hn with
  | caller hg => exact hstay g (by simp [hg]) hgm fun _ => hF.nested.main_eq hg
  | call y => exact nomatch hgm
  | goes hgo hr =>
      have hfm := hgo.main.symm.trans hgm
      have hf := hstay f (by simp) hfm fun hne => absurd rfl hne
      have hx := (hst f (by simp)).x hfm
      refine ⟨fun ho => ?_, fun ho hl hne => ?_, fun h2 ho => ?_, fun hd hx hl hne => ?_⟩
      · refine hr.shows hgo hB (hok f (by simp)) (hF.each f (by simp)) ?_ (hf.shows ho)
        exact hx.symm ▸ (hb ho).childShows h ho
      · exact hf.first ho (hgo.loaded hl) (hgo.oldVer ▸ hne)
      · rw [hgo.prev] at h2
        exact ⟨(hf.second h2 ho).1, fun hl hne =>
          (hf.second h2 ho).2 (hgo.loaded hl) (hgo.oldVer ▸ hne)⟩
      · exact hf.deleg hd hx (hgo.loaded hl) (hgo.oldVer ▸ hne)
  | loaded hp hvar =>
      have hx := (hst f (by simp)).x hgm
      have hno : ∀ {C : Prop}, (s.mem.node r).version ≠ (s.mem.node f.x).version → C :=
        fun hne => absurd (by rw [hx]) hne
      refine ⟨fun _ => .of_blank rfl, fun _ _ => hno, fun h2 ho => ⟨?_, fun _ => hno⟩,
        fun _ _ _ => hno⟩
      refine h.frameSettled (hx ▸ (hok f (by simp)).x) hb (fun ho' _ => ?_) ho
      exact ((hm f (by simp) hgm).second h2 ho').1
  | again hp he hvar hfm =>
      exact .swapped h he ((hst f (by simp)).x hfm) (hok f (by simp)) hb

/-- The status records of the threads that are waited for: those that are done have brought the key
to the root, and the others wait for one another only. -/
structure Records (cfg : Cfg K V) (k : K) (P : Prop) (G : Set ℕ) (s : State K V) : Prop where
  zero : 0 ∉ G
  lt : ∀ g ∈ G, g < s.mem.nextStatus
  done : ∀ g ∈ G, (s.mem.status g).done = true → SettledFrom cfg k P s root
  next : ∀ g ∈ G, (s.mem.status g).delegatee ≠ 0 → (s.mem.status g).delegatee ∈ G

/-- **A serving thread that makes a step still serves the key.**  In the eager variant a mark counts
only if the node is no longer in the tree. -/
theorem ServeOk.move (hp : PropStep cfg s.mem (s.pc i) m' pc') (h : KeyStep cfg k P s i m' pc')
    (hs : ServeOk cfg k P G s (s.pc i)) (hG : G ⊆ G') (hrec : Records cfg k P G s)
    (hmark : cfg.variant = .eagerDel → ∀ cl r curps, s.pc i = .propMark cl r curps →
      (s.mem.node r).marked = true → ¬ Live s.mem r) :
    ServeOk cfg k P G' (s.set m' i pc') pc' := by
  obtain ⟨t, hB⟩ := h.inv.base
  have hok := h.inv.pcs i
  have hfit := h.ver.pcs i
  have hps := h.status.pcs i
  have hq := hp.quiet.toSameNodes
  have hroot : SettledFrom cfg k P s root → SettledFrom cfg k P (s.set m' i pc') root := fun hs =>
    h.settledFrom hB.tree.root_lt (fun _ => hs) onPath_root
  generalize s.pc i = pc at hp hs hok hfit hps hmark
  cases hp with
  | startBat c hv | start c hv =>
      exact ⟨nofun, fun y hy hn => absurd (show OnPath cfg _ c.key y from hs ▸ hy) hn⟩
  | emptyChild hst => exact absurd hst hok.stack.ne_nil
  | emptyPop hst => exact absurd hst hok.1.stack.ne_nil
  | @child cl r st hst =>
      refine ⟨Climbed.step h hs hok.set_lt, fun hd r' hr' ho => ?_⟩
      obtain rfl : r = r' := by simpa [hst] using hr'
      refine h.settledBelow (hok.stack.lt r (by simp [hst])) (fun ho' => ?_) ho
      exact Climbed.settledBelow hs h.inv h.ver h.key h.stored hd ho'
  | push h0 hl hc => exact hs.1.step h hok.1.set_lt
  | @pop cl c r st hst hc =>
      refine ⟨hs.1.step h hok.1.set_lt, fun ho => ?_, fun g hg _ => ?_⟩
      · refine h.settledBelow (hok.1.stack.lt r (by simp [hst])) (fun ho' => ?_) ho
        exact hs.2 (hc.resolve_left hok.2.ne_zero) r (by simp [hst]) ho'
      · rw [List.mem_singleton.mp hg]
        exact .start (fun h => absurd h (by decide)) _
  | @run cl r again f cs m' vs f' cs' hf =>
      have hr := hok.1.stack.lt r (by simp)
      refine ⟨hs.1.step h hok.1.set_lt, fun ho => h.settledBelow hr hs.2.1 ho, fun g hg hgm => ?_⟩
      refine MainOk.next (hf.next hfit hg) hgm h hG hs.2.2 hok.2 hfit hps.2 hs.2.1 ?_
      refine (hf.version (hfit.each f (by simp)).internal r).imp_right fun ⟨_, _, ho, _⟩ hm hv => ?_
      exact ho.trans ((hps.2 f (by simp)).nested hv hm)
  | @returned cl r again f cs m' vs ok curps hf =>
      obtain ⟨rfl, hm, hret⟩ := hf.returns hfit
      have hr := hok.1.stack.lt r (by simp)
      have hl := hret.leaves h (hs.2.2 f (by simp) hm) hG hm (hps.2 f (by simp)) (hok.2 f (by simp))
        (hfit.each f (by simp)) hs.2.1 hq
      refine .refreshed ?_ ?_ ?_
      · exact hl
      · exact hs.1.step h hok.1.set_lt
      · exact fun ho => h.settledBelow hr hs.2.1 ho
  | @marked cl r curps hmk =>
      have hr := hok.stack.lt r (by simp)
      obtain ⟨hc, hb, hd, -⟩ := hs
      refine .inserted (hc.step h hok.set_lt) fun ho => h.settledFrom hr (fun ho' => ?_) ho
      by_cases hv : cfg.variant = .eagerDel
      · exact absurd ho'.live (hmark hv cl r curps rfl hmk)
      · exact (hb ho').from (hd hv ho')
  | @delegate cl r curps hmk =>
      rw [if_neg hps]
      exact hG (hs.2.2.2 (hok.stack.live hB (by simp) hmk))
  | seen hd => exact hroot (hrec.done _ hs hd)
  | wait hd => exact hG hs
  | @follow cl d =>
      simp only [ServeOk]
      split_ifs with hn
      · exact hG (hrec.next d hs hn)
      · exact hG hs
  | setDone | retire | ret => exact hroot hs

end Move

/-! ### Threads that others wait for -/

section Join

variable {G G' : Set ℕ} {cl clT : Climb K V} {r : ℕ}

/-- **The thread that replaces a version of `r` has climbed past the same nodes** as one that wants
to replace it: what is in its set is below `r`, and the paths of the two agree above `r`. -/
theorem Climbed.join (hI : Inv cfg s) (hT : Climbed cfg k P s clT.call.key clT.set)
    (hb : OnPath cfg s.mem k r → SettledBelow cfg k P s r) (hr : Live s.mem r)
    (hokT : ClimbOk cfg s.mem clT (r :: clT.stack)) (hok : ClimbOk cfg s.mem cl (r :: cl.stack)) :
    Climbed cfg k P s cl.call.key cl.set := by
  obtain ⟨t, hB⟩ := hI.base
  have hqT : OnPath cfg s.mem clT.call.key r := (hokT.stack.good (by simp)).onPath hr
  have hq : OnPath cfg s.mem cl.call.key r := (hok.stack.good (by simp)).onPath hr
  refine ⟨fun c hc ho y hcy => ?_, fun y hy hn => ?_⟩
  · obtain ⟨hor, hrc⟩ := hB.tree.coherent hq (hok.above r (by simp) c hc ho.live) ho
    refine hb hor y (hrc.trans hcy) ?_
    rintro rfl
    -- `c` is not `r`, and it cannot be above and below `r`
    rcases route_cases.mp hrc with rfl | ⟨d, hd, hdc⟩
    · exact hok.notMem _ (by simp) hc
    · exact hB.tree.not_reach_of_edge hr hd.edge (Route.reach (hdc.trans hcy))
  · by_cases hyT : OnPath cfg s.mem clT.call.key y
    · rcases Route.linear hqT hyT with hry | hyr
      · obtain ⟨hor, hry'⟩ := hB.tree.coherent hqT hry hy
        refine hb hor y hry' ?_
        rintro rfl
        exact hn hq
      · exact absurd (hB.tree.coherent hyT hyr hq).1 hn
    · exact hT.off y hy hyT

/-- **The thread that replaces a version which a serving thread wants to replace serves the key.**
-/
theorem ServeOk.join {againT again : Bool} {fT f : Frame K} {csT cs : List (Frame K)}
    (h : KeyStep cfg k P s i m' pc') (hp : PropStep cfg s.mem (.refresh cl r again f cs) m' pc')
    (hT : ServeOk cfg k P G s (.refresh clT r againT fT csT))
    (hokT : ClimbOk cfg s.mem clT (r :: clT.stack)) (hmT : ∃ g ∈ fT :: csT, g.main = true)
    (hd : Delegating cfg.variant againT) (hr : Live s.mem r)
    (hok : PcOk cfg s.mem (.refresh cl r again f cs))
    (hfit : PcFit cfg s.mem (.refresh cl r again f cs)) (hfm : f.main = true) (hx : f.x = r)
    (hpos : f.pos = .cas) (hv : (s.mem.node r).version = f.oldVer) (hmem : InPlay s f) :
    ServeOk cfg k P G' (s.set m' i pc') pc' := by
  have hq := hp.quiet.toSameNodes
  have hlt := hok.1.stack.lt r (by simp)
  have hok' := hok.2 f (by simp)
  have hfit' := hfit.each f (by simp)
  have hc : Climbed cfg k P (s.set m' i pc') cl.call.key cl.set :=
    (hT.1.join h.inv hT.2.1 hr hokT hok.1).step h hok.1.set_lt
  have hb : OnPath cfg m' k r → SettledBelow cfg k P (s.set m' i pc') r := fun ho =>
    h.settledBelow hlt hT.2.1 ho
  have hcs : cs = [] := by
    cases cs with
    | nil => rfl
    | cons g gs =>
        have := hfit.nested.1
        rw [hfm] at this
        exact nomatch this
  subst hcs
  have hv' : (s.mem.node f.x).version = f.oldVer := hx ▸ hv
  cases hp with
  | run hf =>
      obtain ⟨rfl, hres⟩ := hf.swaps hpos hv'
      split_ifs at hres with he
      · obtain ⟨rfl, rfl⟩ := FrameResult.run.inj hres
        refine ⟨hc, hb, fun g hg _ => ?_⟩
        rw [List.mem_singleton.mp hg]
        exact .swapped h hv' hx hok' hT.2.1
      · exact nomatch hres
  | @returned cl r again f cs m' vs ok curps hf =>
      obtain ⟨rfl, hres⟩ := hf.swaps hpos hv'
      split_ifs at hres with he
      obtain ⟨rfl, rfl⟩ := FrameResult.ret.inj hres
      -- only the second attempt of the other delegating variant gets here
      have ha : againT = true := by
        rcases hd with hd | hd
        · exact absurd ⟨hd, hfm⟩ he
        · exact hd.2
      obtain ⟨g, hg, hgm⟩ := hmT
      have hs : OnPath cfg s.mem k r → FrameShows cfg k P s.mem f := fun ho =>
        ((hT.2.2 g hg hgm).second (.inl ha) ho).1 f hmem hx hv.symm
      refine .refreshed ?_ ?_ ?_
      · exact .swapped h hpos hv' hx hs hok' hfit' hT.2.1 hq
      · exact hc
      · exact hb

end Join

/-! ### All serving threads -/

section Inv

variable {G : Set ℕ} {i₀ j : ℕ}

omit [LinearOrder K] in
/-- The thread serves the key: it is the given one, or its status record is one to wait for. -/
def Serving (i₀ : ℕ) (G : Set ℕ) (s : State K V) (j : ℕ) : Prop :=
  j = i₀ ∨ ∃ cl, (s.pc j).climb = some cl ∧ cl.ps ∈ G

/-- **All threads that serve the key bring it to the root.** -/
structure ServeInv (cfg : Cfg K V) (k : K) (P : Prop) (i₀ : ℕ) (G : Set ℕ) (s : State K V) :
    Prop where
  records : Records cfg k P G s
  delegating : ∀ g ∈ G, cfg.variant ≠ .bat
  serve : ∀ j, Serving i₀ G s j → ServeOk cfg k P G s (s.pc j)

/-- A serving thread that has not returned is in `propagate`. -/
theorem ServeOk.propagating {pc : PC K V} (h : ServeOk cfg k P G s pc) (hr : ¬ pc.Resting) :
    pc.propagating = true := by
  cases pc <;> first | rfl | exact h.elim | exact absurd trivial hr

/-- The records of the threads waited for, if none of them is written. -/
theorem Records.of_status (hr : Records cfg k P G s) (h : KeyStep cfg k P s i m' pc')
    (hs : ∀ g ∈ G, m'.status g = s.mem.status g) : Records cfg k P G (s.set m' i pc') := by
  obtain ⟨t, hB⟩ := h.inv.base
  refine ⟨hr.zero, fun g hg => (hr.lt g hg).trans_le h.kind.record.nextStatus_le, fun g hg hd => ?_,
    fun g hg hn => ?_⟩
  · rw [State.set_mem, hs g hg] at hd
    exact h.settledFrom hB.tree.root_lt (fun _ => hr.done g hg hd) onPath_root
  · rw [State.set_mem, hs g hg] at hn ⊢
    exact hr.next g hg hn

/-- The records of the threads waited for, if one of them may be written. -/
theorem Records.write (hr : Records cfg k P G s) (h : KeyStep cfg k P s i m' pc') {a : ℕ}
    {st : PropagateStatus} (hs : m'.status = Function.update s.mem.status a st)
    (hdone : a ∈ G → st.done = true → SettledFrom cfg k P s root)
    (hnext : a ∈ G → st.delegatee ≠ 0 → st.delegatee ∈ G) :
    Records cfg k P G (s.set m' i pc') := by
  obtain ⟨t, hB⟩ := h.inv.base
  refine ⟨hr.zero, fun g hg => (hr.lt g hg).trans_le h.kind.record.nextStatus_le, fun g hg hd => ?_,
    fun g hg hn => ?_⟩
  · refine h.settledFrom hB.tree.root_lt (fun _ => ?_) onPath_root
    rw [State.set_mem, hs] at hd
    by_cases hga : g = a
    · subst hga
      rw [Function.update_self] at hd
      exact hdone hg hd
    · rw [Function.update_of_ne hga] at hd
      exact hr.done g hg hd
  · rw [State.set_mem, hs] at hn ⊢
    by_cases hga : g = a
    · subst hga
      rw [Function.update_self] at hn ⊢
      exact hnext hg hn
    · rw [Function.update_of_ne hga] at hn ⊢
      exact hr.next g hg hn

/-- **The records of the threads waited for** after a step: a serving thread that writes its own
record has brought the key to the root or waits for a serving thread. -/
theorem Records.step (hr : Records cfg k P G s) (h : KeyStep cfg k P s i m' pc')
    (hs : (∃ cl, (s.pc i).climb = some cl ∧ cl.ps ∈ G) → ServeOk cfg k P G s (s.pc i)) :
    Records cfg k P G (s.set m' i pc') := by
  obtain ⟨t, hB⟩ := h.inv.base
  by_cases hp : (s.pc i).propagating = true
  · have hstep := h.kind.propStep hp
    have hok := h.inv.pcs i
    generalize s.pc i = pc at hstep hs hok
    cases hstep with
    | start c hv =>
        exact hr.write h rfl (fun hg => absurd (hr.lt _ hg) (lt_irrefl _))
          fun hg => absurd (hr.lt _ hg) (lt_irrefl _)
    | run hf | returned hf => exact hr.of_status h fun g _ => by rw [hf.record.1]
    | @delegate cl r curps hmk =>
        refine hr.write h rfl (fun hg => hr.done _ hg) fun hg _ => ?_
        exact (hs ⟨cl, rfl, hg⟩).2.2.2 (hok.stack.live hB (by simp) hmk)
    | @setDone cl => exact hr.write h rfl (fun hg _ => hs ⟨cl, rfl, hg⟩) fun hg => hr.next _ hg
    | _ => exact hr.of_status h fun g _ => rfl
  · refine hr.of_status h fun g _ => ?_
    cases h.kind with
    | still | freeze => rfl
    | prop h =>
        generalize s.pc i = pc at h hp
        exact absurd (by cases h <;> rfl) hp
    | swing => simp

/-- Some other serving thread wants to replace the version of `r` that thread `j` replaces. -/
def Wanted (cfg : Cfg K V) (i₀ : ℕ) (G : Set ℕ) (s : State K V) (j : ℕ) (m' : Mem K V) (l : ℕ)
    (cl : Climb K V) (r : ℕ) (again : Bool) (f : Frame K) (cs : List (Frame K)) : Prop :=
  l ≠ j ∧ Serving i₀ G s l ∧ s.pc l = .refresh cl r again f cs ∧ Delegating cfg.variant again ∧
    Live s.mem r ∧ (∃ g ∈ f :: cs, g.main = true ∧ g.pos.loaded = true) ∧
    (m'.node r).version ≠ (s.mem.node r).version

/-- A serving thread that makes a step served the key before, unless it has just come to do so. -/
theorem ServeInv.serving (hS : ServeInv cfg k P i₀ G s) (h : KeyStep cfg k P s j m' pc')
    (hj : Serving i₀ G (s.set m' j pc') j) : Serving i₀ G s j := by
  refine hj.imp_right fun ⟨cl', hcl, hps⟩ => ?_
  rw [State.set_pc_self] at hcl
  rcases h.kind.record.ps_cases (hS.delegating _ hps) hcl with ⟨cl, hpc, he⟩ | ⟨he, -⟩
  · exact ⟨cl, hpc, he ▸ hps⟩
  · exact absurd (hS.records.lt _ hps) (by omega)

/-- The thread that makes a step, if it served the key before. -/
theorem ServeInv.move {G' : Set ℕ} (hS : ServeInv cfg k P i₀ G s) (h : KeyStep cfg k P s j m' pc')
    (hG : G ⊆ G') (hnr : j = i₀ → ¬ (s.pc j).Resting) (hj : Serving i₀ G s j)
    (hmark : cfg.variant = .eagerDel → ∀ cl r curps, s.pc j = .propMark cl r curps →
      (s.mem.node r).marked = true → ¬ Live s.mem r) :
    ServeOk cfg k P G' (s.set m' j pc') pc' := by
  have hs := hS.serve j hj
  have hp : (s.pc j).propagating = true := by
    rcases hj with rfl | ⟨cl, hcl, -⟩
    · exact hs.propagating (hnr rfl)
    · exact PC.climb_propagating hcl
  exact hs.move (h.kind.propStep hp) h hG hS.records hmark

/-- **Every step keeps the key on its way to the root**, as long as nothing changes whether the
tree contains it. -/
theorem ServeInv.step (hS : ServeInv cfg k P i₀ G s) (h : KeyStep cfg k P s j m' pc')
    (hnr : j = i₀ → ¬ (s.pc j).Resting)
    (hmark : cfg.variant = .eagerDel → ∀ cl r curps, s.pc j = .propMark cl r curps →
      (s.mem.node r).marked = true → ¬ Live s.mem r) :
    ∃ G', ServeInv cfg k P i₀ G' (s.set m' j pc') := by
  have hrec := hS.records.step h fun hcl => hS.serve j (.inr hcl)
  -- the threads that do not make the step
  have hother : ∀ {G' : Set ℕ}, G ⊆ G' → ∀ l, l ≠ j → Serving i₀ G s l →
      (∀ cl r again f cs, Wanted cfg i₀ G s j m' l cl r again f cs →
        (m'.node r).version.status ∈ G') →
      ServeOk cfg k P G' (s.set m' j pc') (s.pc l) := fun hG l hl hsl hadd =>
    (hS.serve l hsl).other h hG (h.inv.pcs l) (h.ver.pcs l) (h.status.pcs l)
      fun cl r again f cs hpc hd hx hg hv => hadd cl r again f cs ⟨hl, hsl, hpc, hd, hx, hg, hv⟩
  by_cases hw : ∃ l cl r again f cs, Wanted cfg i₀ G s j m' l cl r again f cs
  · obtain ⟨l, clT, r, againT, fT, csT, hlj, hsl, hpcl, hd, hr, ⟨gT, hgT, hmT, hlT⟩, hv⟩ := hw
    have hvar : cfg.variant ≠ .bat := by rcases hd with hd | hd <;> simp [hd]
    have hT := hS.serve l hsl
    have hokT := h.inv.pcs l
    have hfitT := h.ver.pcs l
    have hstT := h.status.pcs l
    rw [hpcl] at hT hokT hfitT hstT
    -- a CAS of thread `j` has replaced the version
    have hp : PropStep cfg s.mem (s.pc j) m' pc' := by
      cases h.kind with
      | still => exact absurd rfl hv
      | prop hp => exact hp
      | freeze => exact absurd (freeze_version ..) hv
      | swing hpc =>
          have hpd := h.inv.pending j
          rw [hpc] at hpd
          obtain ⟨old, hc⟩ := hpd.commit
          exact absurd (hc.swing_version (hokT.1.stack.lt r (by simp))) hv
    have hver := hp.version (h.ver.pcs j)
    obtain ⟨cl, rE, again, f, cs, hpc, hpos, hx, hold, hnew⟩ := (hver r).resolve_left hv
    have hok := h.inv.pcs j
    have hfit := h.ver.pcs j
    have hst := h.status.pcs j
    rw [hpc] at hok hfit hst hp
    -- not a nested one: there was a version
    have hfm : f.main = true := by
      by_contra hm
      have hn := hold.trans ((hst.2 f (by simp)).nested hvar (Bool.eq_false_iff.mpr hm))
      have ho := (hstT.2 gT hgT).there hmT hlT (hd.imp_right And.right)
      exact (hfitT.each gT hgT).old ho (by rw [(hstT.2 gT hgT).x hmT, hn])
    obtain rfl : r = rE := hx.symm.trans ((hst.2 f (by simp)).x hfm)
    have hcl : (s.pc j).climb = some cl := by rw [hpc]; rfl
    have hb := h.status.bound hvar j cl hcl
    refine ⟨insert cl.ps G, ⟨?_, ?_, ?_, ?_⟩, fun _ _ => hvar, fun a ha => ?_⟩
    · exact fun h0 => h0.elim (fun h0 => hb.1 h0.symm) hS.records.zero
    · rintro g (rfl | hg)
      · exact hb.2.trans_le h.kind.record.nextStatus_le
      · exact hrec.lt g hg
    all_goals have hclear := h.status.clear hvar j cl (by rw [hpc]; rfl) hcl
    all_goals have hsame : m'.status cl.ps = s.mem.status cl.ps := by
                cases hp with
                | run hf | returned hf => rw [hf.record.1]
    · rintro g (rfl | hg) hdone
      · rw [State.set_mem, hsame, hclear] at hdone
        cases hdone
      · exact hrec.done g hg hdone
    · rintro g (rfl | hg) hn
      · rw [State.set_mem, hsame, hclear] at hn
        exact absurd rfl hn
      · exact .inr (hrec.next g hg hn)
    · by_cases haj : a = j
      · subst haj
        rw [State.set_pc_self]
        have hmem : InPlay s f := ⟨a, by rw [hpc]; simp [PC.frames]⟩
        exact .join h hp hT hokT.1 ⟨gT, hgT, hmT⟩ hd hr hok hfit hfm hx hpos hold hmem
      · rw [State.set_pc_of_ne _ _ _ haj]
        refine hother (Set.subset_insert _ _) a haj ?_ fun cl' r' again' f' cs' hw' => ?_
        · refine ha.imp_right ?_
          rintro ⟨cla, hcla, hps⟩
          rw [State.set_pc_of_ne _ _ _ haj] at hcla
          exact ⟨cla, hcla, hps.resolve_left (h.status.distinct hvar a j cla cl haj hcla hcl)⟩
        · -- it is the same CAS
          obtain ⟨-, -, -, -, -, -, hv'⟩ := hw'
          obtain ⟨cl₁, r₁, again₁, f₁, cs₁, hpc₁, -, -, -, hnew₁⟩ := (hver r').resolve_left hv'
          rw [hpc] at hpc₁
          obtain ⟨rfl, rfl, rfl, rfl, rfl⟩ := PC.refresh.inj hpc₁
          rw [hnew₁]
          exact .inl (if_pos hfm)
  · push Not at hw
    refine ⟨G, hrec, hS.delegating, fun a ha => ?_⟩
    by_cases haj : a = j
    · subst haj
      rw [State.set_pc_self]
      exact hS.move h subset_rfl hnr (hS.serving h ha) hmark
    · rw [State.set_pc_of_ne _ _ _ haj]
      refine hother subset_rfl a haj ?_ fun cl r again f cs hw' => absurd hw' (hw _ _ _ _ _ _)
      refine ha.imp_right ?_
      rintro ⟨cl, hcl, hps⟩
      refine ⟨cl, ?_, hps⟩
      rwa [State.set_pc_of_ne _ _ _ haj] at hcl

end Inv

end Cbat
