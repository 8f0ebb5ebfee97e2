/-
**Nil versions are never dereferenced.**

New internal nodes start without a version, and a refresh that meets one fills it in first, by a
call for that node that may meet further ones.  It does not try again if its CAS is lost; but then
another thread has put a version there, and versions are replaced by versions only.  So what a
refresh has read is never nil when it adds up the sums, whether or not the node is still in the
tree.

Main definitions:

* `Cbat.Held` — what a call of a refresh has read is not nil;
* `Cbat.NilInv` — **the invariant**: it holds of all calls, and the versions in memory have no or
  two children.

Main results:

* `Cbat.FrameStep.held` — the accesses of a refresh keep it;
* `Cbat.nil_never_dereferenced` — **the pointers that a refresh follows are not nil**, in every
  reachable state.
-/

import Cbat.Versions

set_option relaxedAutoImplicit false
set_option autoImplicit false

namespace Cbat

variable {K V : Type} [LinearOrder K] {cfg : Cfg K V} {m m' : Mem K V} {t : LTree (Cell K V)}

/-! ### What a refresh has read -/

/-- The version of the left child has been read. -/
def Pos.leftRead : Pos → Bool
  | .testLeft | .loadRight | .loadRightVer | .reloadRightVer | .testRight | .cas => true
  | _ => false

/-- The version of the right child has been read. -/
def Pos.rightRead : Pos → Bool
  | .testRight | .cas => true
  | _ => false

/-- **What a call of a refresh has read is not nil**, apart from the right child of the root. -/
structure Held (f : Frame K) : Prop where
  left : f.pos.leftRead = true → f.leftver ≠ .nil
  right : f.pos.rightRead = true → f.right1 ≠ 0 → f.rightver ≠ .nil
  cas : f.pos = .cas → f.x ≠ root → f.right1 ≠ 0

/-- An internal version has two children. -/
def Ver.Full : Ver K → Prop
  | .nil => True
  | .mk _ _ _ l r _ => l ≠ .nil → r ≠ .nil

section Frames

variable {var : Variant} {ps : ℕ} {f f' g : Frame K} {cs cs' : List (Frame K)} {vs : List (Ver K)}
  {res : FrameResult K}

omit [LinearOrder K] in
theorem held_start (var : Variant) (x : ℕ) (main : Bool) : Held (.start var x main : Frame K) := by
  unfold Frame.start
  constructor <;> intro hp <;> simp only at hp <;> split_ifs at hp <;> cases hp

/-- **The accesses of a refresh keep what it has read.** -/
theorem FrameStep.held (h : FrameStep var m ps f cs m' vs res) (hB : Base cfg m t)
    (hok : FrameOk m f) (hF : FramesFit cfg m f cs) (hh : ∀ g ∈ f :: cs, Held g)
    (hres : res = .run f' cs') : ∀ g ∈ f' :: cs', Held g := by
  have hf := hh f List.mem_cons_self
  have hcs : ∀ g ∈ cs, Held g := fun g hg => hh g (List.mem_cons_of_mem _ hg)
  have hpop : ∀ {ok : Bool} {curps : ℕ}, FrameResult.pop cs ok curps = .run f' cs' →
      ∀ g ∈ f' :: cs', Held g := fun he => by
    obtain rfl := pop_run he
    exact hcs
  have hinternal := (hF.each f List.mem_cons_self).internal
  cases h with
  | callOld hp hn | callLeft hp hn =>
      obtain ⟨rfl, rfl⟩ := FrameResult.run.inj hres
      refine List.forall_mem_cons.mpr ⟨held_start .., List.forall_mem_cons.mpr ⟨?_, hcs⟩⟩
      exact ⟨nofun, nofun, nofun⟩
  | callRight hp hn =>
      obtain ⟨rfl, rfl⟩ := FrameResult.run.inj hres
      refine List.forall_mem_cons.mpr ⟨held_start .., List.forall_mem_cons.mpr ⟨?_, hcs⟩⟩
      exact ⟨fun _ => hf.left (by rw [hp]; rfl), nofun, nofun⟩
  | oldThere | old | inner | left | leftThere | leftMoved | casAgain =>
      obtain ⟨rfl, rfl⟩ := FrameResult.run.inj hres
      exact List.forall_mem_cons.mpr ⟨⟨nofun, nofun, nofun⟩, hcs⟩
  | skip | leafWrite | leaf | unchanged | casOk | casFail => exact hpop hres
  | leftVer hp =>
      obtain ⟨rfl, rfl⟩ := FrameResult.run.inj hres
      refine List.forall_mem_cons.mpr ⟨⟨fun _ => ?_, nofun, nofun⟩, hcs⟩
      rcases hp with ⟨-, -, hn⟩ | hp
      · exact hn
      · exact hF.head.left hp
  | leftSame hp | right hp | rightThere hp | rightMoved hp =>
      obtain ⟨rfl, rfl⟩ := FrameResult.run.inj hres
      exact List.forall_mem_cons.mpr
        ⟨⟨fun _ => hf.left (by rw [hp]; rfl), nofun, nofun⟩, hcs⟩
  | noRight hp h0 =>
      obtain ⟨rfl, rfl⟩ := FrameResult.run.inj hres
      exact List.forall_mem_cons.mpr
        ⟨⟨fun _ => hf.left (by rw [hp]; rfl), fun _ h => absurd rfl h, nofun⟩, hcs⟩
  | rightVer hp =>
      obtain ⟨rfl, rfl⟩ := FrameResult.run.inj hres
      have hread : f.leftver ≠ .nil ∧ (m.node f.right1).version ≠ .nil := by
        rcases hp with ⟨hp, -, hn⟩ | hp
        · exact ⟨hf.left (by rw [hp]; rfl), hn⟩
        · exact ⟨hf.left (by rw [hp]; rfl), hF.head.right hp⟩
      exact List.forall_mem_cons.mpr ⟨⟨fun _ => hread.1, fun _ _ => hread.2, nofun⟩, hcs⟩
  | rightSame hp he hprev =>
      obtain ⟨rfl, rfl⟩ := FrameResult.run.inj hres
      refine List.forall_mem_cons.mpr ⟨⟨fun _ => hf.left (by rw [hp]; rfl),
        fun _ => hf.right (by rw [hp]; rfl), fun _ hroot => ?_⟩, hcs⟩
      -- internal nodes other than the root have two children
      show f.right1 ≠ 0
      rw [he]
      exact hB.closed.full _ hok.x hroot hinternal

omit [LinearOrder K] in
/-- A refresh installs versions with two children, except at the root. -/
theorem FrameStep.full (h : FrameStep var m ps f cs m' vs res) (hh : Held f) {x : ℕ} (hx : x ≠ root)
    (hfull : (m.node x).version.Full) : (m'.node x).version.Full := by
  have hinstall : ∀ v : Ver K, (f.x ≠ root → v.Full) →
      ((m.install f.x v).node x).version.Full := by
    intro v hv
    by_cases hxf : x = f.x
    · subst hxf
      rw [install_version_self]
      exact hv hx
    · rw [install_version_of_ne _ _ _ hxf]
      exact hfull
  cases h with
  | casOk hp | casAgain hp =>
      exact hinstall _ fun hroot _ => hh.right (by rw [hp]; rfl) (hh.cas hp hroot)
  | leafWrite => exact hinstall _ fun _ h => absurd rfl h
  | _ => exact hfull

end Frames

/-! ### All runs -/

/-- What the calls of a thread have read is not nil. -/
def PcHeld : PC K V → Prop
  | .refresh _ _ _ f cs => ∀ g ∈ f :: cs, Held g
  | _ => True

/-- **The invariant.** -/
structure NilInv (s : State K V) : Prop where
  full : ∀ x < s.mem.next, x ≠ root → (s.mem.node x).version.Full
  pcs : ∀ i, PcHeld (s.pc i)

variable {s s' : State K V} {i : ℕ} {pc pc' : PC K V}

omit [LinearOrder K] in
theorem inserted_held {cl : Climb K V} {r : ℕ} : PcHeld (inserted cfg cl r) := by
  unfold inserted
  simp only
  split_ifs <;> trivial

omit [LinearOrder K] in
theorem refreshed_held {cl : Climb K V} {r : ℕ} {again ok : Bool} {curps : ℕ} :
    PcHeld (refreshed cfg cl r again ok curps) := by
  have hstart : ∀ g ∈ [(.start cfg.variant r true : Frame K)], Held g :=
    List.forall_mem_singleton.mpr (held_start ..)
  unfold refreshed
  cases hv : cfg.variant <;> rw [hv] at hstart <;> simp only <;> split_ifs <;>
    first | exact inserted_held | exact hstart | trivial

/-- A step of `propagate`. -/
theorem PropStep.held (h : PropStep cfg m pc m' pc') (hB : Base cfg m t) (hok : PcOk cfg m pc)
    (hF : PcFit cfg m pc) (hh : PcHeld pc) : PcHeld pc' := by
  cases h with
  | run h => exact h.held hB (hok.2 _ List.mem_cons_self) hF hh rfl
  | returned h => exact refreshed_held
  | pop hst hc => exact List.forall_mem_singleton.mpr (held_start ..)
  | marked h => exact inserted_held
  | delegate h => split_ifs <;> trivial
  | _ => trivial

theorem PropStep.full (h : PropStep cfg m pc m' pc') (hh : PcHeld pc) {x : ℕ} (hx : x ≠ root)
    (hfull : (m.node x).version.Full) : (m'.node x).version.Full := by
  cases h with
  | run h | returned h => exact h.full (hh _ List.mem_cons_self) hx hfull
  | _ => exact hfull

/-- The second step of an SCX: new nodes have a version over two leaves, or none. -/
theorem Commit.full {rec : ScxRecord K V} {old : Patch (Cell K V) ℕ} {k : K} {e : Effect V}
    (h : Commit cfg m rec old k e) (hB : Base cfg m t) (hC : Closed (m.swing rec))
    (hV : VerInv cfg (m.swing rec)) (hfull : ∀ x < m.next, x ≠ root → (m.node x).version.Full)
    {x : ℕ} (hx : x < (m.swing rec).next) (hroot : x ≠ root) :
    ((m.swing rec).node x).version.Full := by
  rcases h.lt_next_cases hx with hlt | ⟨j, hj, rfl⟩
  · rw [h.swing_version hlt]
    exact hfull x hlt hroot
  · cases h.firstVersion hB.tree hj with
    | leaf a s hl hv =>
        rw [hv]
        exact fun h => absurd rfl h
    | bare hl hv =>
        rw [hv]
        trivial
    | pair a l r hl hr hl0 hr0 hll hrl hv =>
        rw [hv]
        intro _ hnil
        have hlt : r < (m.swing rec).next := hr ▸ hC.right_lt _ hx
        exact hV.internal hlt hnil hrl

theorem NilInv.step (hN : NilInv s) (hI : Inv cfg s) (hV : VInv cfg s) (h : Step cfg s i s') :
    NilInv s' := by
  obtain ⟨t, hB⟩ := hI.base
  have hV' := hV.step hI h
  obtain ⟨t', hB'⟩ := (hI.step h).base
  obtain ⟨m', pc', rfl, hk⟩ := h.kind
  have hearly : ∀ {pc : PC K V}, pc.early = true → PcHeld pc := by
    intro pc h
    cases pc <;> trivial
  suffices hs : (∀ x < m'.next, x ≠ root → (m'.node x).version.Full) ∧ PcHeld pc' from
    ⟨hs.1, forall_set (P := fun _ => PcHeld) hs.2 fun j _ => hN.pcs j⟩
  cases hk with
  | still h h' => exact ⟨hN.full, hearly h'⟩
  | prop h =>
      refine ⟨fun x hx hroot => ?_, h.held hB (hI.pcs i) (hV.pcs i) (hN.pcs i)⟩
      rw [h.quiet.next] at hx
      exact h.full (hN.pcs i) hroot (hN.full x hx hroot)
  | @freeze c md cur c' rec hpc ha =>
      refine ⟨fun x hx hroot => ?_, trivial⟩
      rw [freeze_version]
      exact hN.full x hx hroot
  | swing hpc =>
      obtain ⟨old, hc⟩ := hI.commit hpc
      exact ⟨fun x hx hroot => hc.full hB hB'.closed hV'.mem hN.full hx hroot,
        hearly (finished_early ..)⟩

theorem Reachable.nilInv (h : Reachable cfg s) : NilInv s := by
  induction h with
  | refl =>
      refine ⟨fun x _ hroot => ?_, fun _ => trivial⟩
      have hv : ((State.init cfg).mem.node x).version = .mk 1 cfg.noKey 0 .nil .nil 0 := by
        simp [State.init, Mem.init, hroot]
      rw [hv]
      exact fun h => absurd rfl h
  | tail hr hs ih =>
      obtain ⟨i, hs⟩ := hs
      exact ih.step (Reachable.inv hr) (Reachable.vInv hr) hs

/-- **A version that is there stays there**: it is replaced by versions only. -/
theorem version_stays (h : Reachable cfg s)
    (hrun : Relation.ReflTransGen (fun a b => ∃ i, Step cfg a i b) s s') {x : ℕ}
    (hx : x < s.mem.next) (hv : (s.mem.node x).version ≠ .nil) :
    (s'.mem.node x).version ≠ .nil := by
  suffices hs : Reachable cfg s' ∧ x < s'.mem.next ∧ (s'.mem.node x).version ≠ .nil from hs.2.2
  induction hrun with
  | refl => exact ⟨h, hx, hv⟩
  | tail _ hs ih =>
      obtain ⟨hr, hlt, hv⟩ := ih
      obtain ⟨i, hs⟩ := hs
      obtain ⟨m', pc', rfl, hk⟩ := hs.kind
      have hl := hr.inv.later hk
      exact ⟨hr.step hs, hlt.trans_le hl.next, fun hn => hv (hl.version x hlt hn)⟩

/-- **The pointers that a refresh follows are not nil.**  In every reachable state:

* leaves and the root have versions;
* when a refresh adds up the sums of the versions that it has read, these are not nil, except for
  the right one at a node without a right child;
* no node but the root has a version with a left and without a right child;
* a node that has a version has one ever after. -/
theorem nil_never_dereferenced (cfg : Cfg K V) (s : State K V) (h : Reachable cfg s) :
    (∀ x < s.mem.next, (s.mem.node x).left = 0 → (s.mem.node x).version ≠ .nil) ∧
    (s.mem.node root).version ≠ .nil ∧
    (∀ i cl r again f cs, s.pc i = .refresh cl r again f cs → f.pos = .cas →
      f.leftver ≠ .nil ∧ (f.right1 ≠ 0 → f.rightver ≠ .nil)) ∧
    (∀ x < s.mem.next, x ≠ root → (s.mem.node x).version.Full) ∧
    ∀ s', Relation.ReflTransGen (fun a b => ∃ i, Step cfg a i b) s s' → ∀ x < s.mem.next,
      (s.mem.node x).version ≠ .nil → (s'.mem.node x).version ≠ .nil := by
  have hV := h.vInv
  have hN := h.nilInv
  refine ⟨fun x hx hl hn => hV.mem.internal hx hn hl, ?_, fun i cl r again f cs hpc hp => ?_,
    hN.full, fun s' hrun x hx hv => version_stays h hrun hx hv⟩
  · obtain ⟨a, sum, l, ps, hv, -⟩ := hV.mem.top
    rw [hv]
    exact nofun
  · have hpcs := hN.pcs i
    rw [hpc] at hpcs
    have hf := hpcs f List.mem_cons_self
    exact ⟨hf.left (by rw [hp]; rfl), hf.right (by rw [hp]; rfl)⟩

/-- Two insertions at once, the first of which is in the middle of its refreshes. -/
def twoInsertions : State ℕ ℕ :=
  (State.init (natCfg .bat)).run (natCfg .bat)
    [.call 0 (.insert 10 1), .steps 0 20, .call 1 (.insert 20 1), .steps 1 60]

theorem twoInsertions_reachable : Reachable (natCfg .bat) twoInsertions := Reachable.run .refl _

attribute [irreducible] twoInsertions

theorem nil_never_dereferenced_interleaved : Reachable (natCfg .bat) twoInsertions ∧
    (twoInsertions.mem.node root).version ≠ .nil ∧
    ∀ x < twoInsertions.mem.next, x ≠ root → (twoInsertions.mem.node x).version.Full := by
  obtain ⟨-, hroot, -, hfull, -⟩ := nil_never_dereferenced (natCfg .bat) _ twoInsertions_reachable
  exact ⟨twoInsertions_reachable, hroot, hfull⟩

end Cbat
