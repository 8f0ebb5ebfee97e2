/-
**Versions that show whether a key is in the tree.**

Fix a key whose presence in the node tree does not change for a while.  The version of a node on
the path of the key shows the key if it contains it exactly when the tree does.  A node is settled
if its version shows the key and every refresh that may still replace the version will install one
that does.  Once all nodes below a node on the path are settled they stay so, whatever the other
threads do, and so does everything that comes to the path later.

Main definitions:

* `Cbat.Shows`, `Cbat.FrameShows` — the version, or what a refresh has read, shows the key;
* `Cbat.Settled` — **a node that keeps showing the key**.

Main results:

* `Cbat.Settled.prop`, `Cbat.Settled.swing` — settled nodes stay settled;
* `Cbat.settled_leaf`, `Cbat.settled_fresh` — leaves and new nodes are settled.
-/

import Cbat.Versions

set_option relaxedAutoImplicit false
set_option autoImplicit false

namespace Cbat

variable {K V : Type}

/-! ### What becomes of the calls of a refresh -/

/-- The call has read the version that its CAS expects. -/
def Pos.loaded : Pos → Bool
  | .getOld | .reloadOld | .loadOld => false
  | _ => true

/-- The call has not yet read a version of a child that it may use. -/
def Pos.blank : Pos → Bool
  | .getOld | .reloadOld | .loadOld | .leafTest | .loadLeft | .loadLeftVer | .reloadLeftVer => true
  | _ => false

/-- The calls in progress of a thread, the active one first. -/
def PC.frames : PC K V → List (Frame K)
  | .refresh _ _ _ f cs => f :: cs
  | _ => []

/-- The call `g` goes on from `f` without a new version to compare with. -/
structure GoesOn (f g : Frame K) : Prop where
  x : g.x = f.x
  main : g.main = f.main
  prev : g.prev = f.prev
  oldVer : g.oldVer = f.oldVer
  loaded : g.pos.loaded = true → f.pos.loaded = true
  reload : g.pos.loaded = false → f.pos = .getOld ∧ g.pos = .reloadOld

/-- What the active call has read after it went on from `f` to `g`: nothing that it may use yet, a
version, or that a child is still there. -/
inductive Reads (m : Mem K V) (f : Frame K) : Frame K → Prop
  | blank {g : Frame K} (hpos : g.pos.blank = true) : Reads m f g
  | leftVer (hp : f.pos = .loadLeftVer ∨ f.pos = .reloadLeftVer)
      (hn : (m.node f.left1).version ≠ .nil) :
      Reads m f { f with leftver := (m.node f.left1).version, pos := .testLeft }
  | leftSame (hp : f.pos = .testLeft) (h : f.left1 = (m.node f.x).left) :
      Reads m f { f with pos := .loadRight }
  | right {g : Frame K} (hp : f.pos = .loadRight ∨ f.pos = .loadRightVer ∨ f.pos = .testRight)
      (hg : g.pos = .loadRight ∨ g.pos = .loadRightVer ∨ g.pos = .reloadRightVer)
      (hleft : g.leftver = f.leftver) : Reads m f g
  | noRight (hp : f.pos = .loadRight) (h : (m.node f.x).right = 0) :
      Reads m f { f with right1 := 0, rightver := .nil, pos := .testRight }
  | rightVer (hp : f.pos = .loadRightVer ∨ f.pos = .reloadRightVer)
      (hn : (m.node f.right1).version ≠ .nil) :
      Reads m f { f with rightver := (m.node f.right1).version, pos := .testRight }
  | rightSame (hp : f.pos = .testRight) (h : f.right1 = (m.node f.x).right) :
      Reads m f { f with pos := .cas }

/-- **The calls after one access**: callers, nested calls, and the active call, which goes on, has
read the version to compare with, or has replaced it. -/
inductive NextFrame (var : Variant) (m : Mem K V) (ps : ℕ) (f : Frame K) (cs : List (Frame K)) :
    Mem K V → Frame K → Prop
  | caller {m' : Mem K V} {g : Frame K} (h : g ∈ cs) : NextFrame var m ps f cs m' g
  | call (y : ℕ) : NextFrame var m ps f cs m (.start var y false)
  | goes {g : Frame K} (h : GoesOn f g) (hr : Reads m f g) : NextFrame var m ps f cs m g
  | loaded (hp : f.pos = .reloadOld ∨ f.pos = .loadOld)
      (hvar : f.pos = .loadOld → var ≠ .bat → f.main = false → (m.node f.x).version = .nil) :
      NextFrame var m ps f cs m { f with oldVer := (m.node f.x).version, pos := .leafTest }
  | again (hp : f.pos = .cas) (h : (m.node f.x).version = f.oldVer) (hvar : var = .eagerDel)
      (hm : f.main = true) : NextFrame var m ps f cs (m.install f.x (f.newVer m ps))
        { f with oldVer := f.newVer m ps, prev := some (f.leftver, f.rightver), pos := .loadLeft }

/-- **How the outermost call of a refresh returns.** -/
inductive Returns (m : Mem K V) (ps : ℕ) (f : Frame K) : Mem K V → Bool → ℕ → Prop
  | swapped (hp : f.pos = .cas) (h : (m.node f.x).version = f.oldVer) :
      Returns m ps f (m.install f.x (f.newVer m ps)) true ps
  | failed (hp : f.pos = .cas) (h : (m.node f.x).version ≠ f.oldVer) :
      Returns m ps f m false (m.node f.x).version.status
  | unchanged (hp : f.pos = .testRight) (h : f.right1 = (m.node f.x).right)
      (hprev : f.prev = some (f.leftver, f.rightver)) : Returns m ps f m true ps

variable [LinearOrder K] {cfg : Cfg K V} {m m' : Mem K V} {t : LTree (Cell K V)}

section Frames

variable {var : Variant} {ps : ℕ} {f f' g : Frame K} {cs cs' : List (Frame K)} {vs : List (Ver K)}

theorem FrameStep.next (h : FrameStep var m ps f cs m' vs (.run f' cs')) (hF : FramesFit cfg m f cs)
    (hg : g ∈ f' :: cs') : NextFrame var m ps f cs m' g := by
  have hpop : ∀ {ok : Bool} {curps : ℕ}, FrameResult.pop cs ok curps = .run f' cs' → g ∈ cs :=
    fun he => (pop_run he).symm ▸ hg
  generalize hres : FrameResult.run f' cs' = res at h
  -- the callers stay, and the head is one of the cases
  have hgo : ∀ {f₁ : Frame K}, FrameResult.run f' cs' = .run f₁ cs →
      NextFrame var m ps f cs m' f₁ → NextFrame var m ps f cs m' g := fun he hn => by
    obtain ⟨rfl, rfl⟩ := FrameResult.run.inj he
    rcases List.mem_cons.mp hg with rfl | hg
    · exact hn
    · exact .caller hg
  have hcall : ∀ {f₁ f₂ : Frame K}, FrameResult.run f' cs' = .run f₁ (f₂ :: cs) →
      NextFrame var m ps f cs m' f₁ → NextFrame var m ps f cs m' f₂ →
        NextFrame var m ps f cs m' g :=
    fun he hn hn' => by
      obtain ⟨rfl, rfl⟩ := FrameResult.run.inj he
      rcases List.mem_cons.mp hg with rfl | hg
      · exact hn
      · rcases List.mem_cons.mp hg with rfl | hg
        · exact hn'
        · exact .caller hg
  -- the active call goes on to `g`
  have hon : ∀ {p : Pos} {g : Frame K}, f.pos = p → p.loaded = true → g.pos.loaded = true →
      g.x = f.x → g.main = f.main → g.prev = f.prev → g.oldVer = f.oldVer → GoesOn f g :=
    fun hp hl hl' hx hm hprev ho => ⟨hx, hm, hprev, ho, fun _ => hp ▸ hl, fun h => by
      rw [hl'] at h; exact nomatch h⟩
  cases h with
  | callOld hp =>
      exact hcall hres (.call _)
        (.goes ⟨rfl, rfl, rfl, rfl, nofun, fun _ => ⟨hp, rfl⟩⟩ (.blank rfl))
  | oldThere hp =>
      exact hgo hres (.goes ⟨rfl, rfl, rfl, rfl, nofun, fun _ => ⟨hp, rfl⟩⟩ (.blank rfl))
  | old hp hvar => exact hgo hres (.loaded hp hvar)
  | skip | leafWrite | leaf | unchanged | casOk | casFail => exact .caller (hpop hres.symm)
  | inner hp | left hp | leftThere hp | leftMoved hp =>
      exact hgo hres (.goes (hon hp rfl rfl rfl rfl rfl rfl) (.blank rfl))
  | callLeft hp =>
      exact hcall hres (.call _) (.goes (hon hp rfl rfl rfl rfl rfl rfl) (.blank rfl))
  | leftVer hp =>
      rcases hp with hp | hp
      · exact hgo hres (.goes (hon hp.1 rfl rfl rfl rfl rfl rfl) (.leftVer (.inl hp.1) hp.2.2))
      · exact hgo hres
          (.goes (hon hp rfl rfl rfl rfl rfl rfl) (.leftVer (.inr hp) (hF.head.left hp)))
  | leftSame hp he => exact hgo hres (.goes (hon hp rfl rfl rfl rfl rfl rfl) (.leftSame hp he))
  | noRight hp h0 => exact hgo hres (.goes (hon hp rfl rfl rfl rfl rfl rfl) (.noRight hp h0))
  | right hp h0 =>
      exact hgo hres
        (.goes (hon hp rfl rfl rfl rfl rfl rfl) (.right (.inl hp) (.inr (.inl rfl)) rfl))
  | callRight hp =>
      exact hcall hres (.call _) (.goes (hon hp rfl rfl rfl rfl rfl rfl)
        (.right (.inr (.inl hp)) (.inr (.inr rfl)) rfl))
  | rightThere hp =>
      exact hgo hres (.goes (hon hp rfl rfl rfl rfl rfl rfl)
        (.right (.inr (.inl hp)) (.inr (.inr rfl)) rfl))
  | rightVer hp =>
      rcases hp with hp | hp
      · exact hgo hres (.goes (hon hp.1 rfl rfl rfl rfl rfl rfl) (.rightVer (.inl hp.1) hp.2.2))
      · exact hgo hres (.goes (hon hp rfl rfl rfl rfl rfl rfl)
          (.rightVer (.inr hp) (hF.head.right hp)))
  | rightSame hp he => exact hgo hres (.goes (hon hp rfl rfl rfl rfl rfl rfl) (.rightSame hp he))
  | rightMoved hp he =>
      exact hgo hres
        (.goes (hon hp rfl rfl rfl rfl rfl rfl) (.right (.inr (.inr hp)) (.inl rfl) rfl))
  | casAgain hp he hvar hm => exact hgo hres (.again hp he hvar hm)

omit [LinearOrder K] in
theorem pop_ret {ok ok' : Bool} {curps curps' : ℕ}
    (h : FrameResult.pop cs ok curps = .ret ok' curps') : cs = [] ∧ ok = ok' ∧ curps = curps' := by
  cases cs with
  | nil => exact ⟨rfl, FrameResult.ret.inj h⟩
  | cons g gs => exact nomatch h

theorem FrameStep.returns {ok : Bool} {curps : ℕ}
    (h : FrameStep var m ps f cs m' vs (.ret ok curps)) (hF : FramesFit cfg m f cs) :
    cs = [] ∧ f.main = true ∧ Returns m ps f m' ok curps := by
  have hf := hF.each f (by simp)
  generalize hres : FrameResult.ret ok curps = res at h
  have hmain : cs = [] → f.main = true := fun hcs => by
    have := hF.nested
    rwa [hcs] at this
  cases h with
  | skip hp hvar hm hn =>
      exact absurd (hmain (pop_ret hres.symm).1) (by simp [hm])
  | leafWrite hp hl | leaf hp hl => exact absurd hl hf.internal
  | unchanged hp he hprev =>
      obtain ⟨rfl, rfl, rfl⟩ := pop_ret hres.symm
      exact ⟨rfl, hmain rfl, .unchanged hp he hprev⟩
  | casOk hp he hvar =>
      obtain ⟨rfl, rfl, rfl⟩ := pop_ret hres.symm
      rw [if_pos (hmain rfl)]
      exact ⟨rfl, hmain rfl, .swapped hp he⟩
  | casFail hp he =>
      obtain ⟨rfl, rfl, rfl⟩ := pop_ret hres.symm
      exact ⟨rfl, hmain rfl, .failed hp he⟩
  | _ => exact nomatch hres

end Frames

/-! ### Versions that show a key -/

section Shows

variable (cfg) (k : K) (P : Prop)

/-- The version contains the key exactly if `P` holds. -/
def Shows (v : Ver K) : Prop := k ∈ v.leafKeys ↔ P

/-- What the refresh has read on the side of the key shows it.  A version that has just been read
counts only if the child that it belongs to is still there. -/
def FrameShows (m : Mem K V) (f : Frame K) : Prop :=
  match f.pos with
  | .testLeft => (k : WithTop K) < ord cfg (m.node f.x).key → f.left1 = (m.node f.x).left →
      Shows k P f.leftver
  | .loadRight | .loadRightVer | .reloadRightVer =>
      (k : WithTop K) < ord cfg (m.node f.x).key → Shows k P f.leftver
  | .testRight => ((k : WithTop K) < ord cfg (m.node f.x).key → Shows k P f.leftver) ∧
      (ord cfg (m.node f.x).key ≤ (k : WithTop K) → f.right1 = (m.node f.x).right →
        Shows k P f.rightver)
  | .cas => ((k : WithTop K) < ord cfg (m.node f.x).key → Shows k P f.leftver) ∧
      (ord cfg (m.node f.x).key ≤ (k : WithTop K) → Shows k P f.rightver)
  | _ => True

/-- The version of the child of `x` on the path of the key shows it. -/
def ChildShows (m : Mem K V) (x : ℕ) : Prop :=
  ∀ c, KEdge cfg m k x c → (m.node c).version ≠ .nil → Shows k P (m.node c).version

variable {cfg k P}

theorem FrameShows.of_blank {f : Frame K} (h : f.pos.blank = true) : FrameShows cfg k P m f := by
  unfold FrameShows
  cases hp : f.pos <;> rw [hp] at h <;> trivial

theorem FrameShows.congr {f : Frame K} (hs : m.Same m' f.x) :
    FrameShows cfg k P m' f ↔ FrameShows cfg k P m f := by
  unfold FrameShows
  rw [hs.key, hs.left, hs.right]

variable {var : Variant} {ps : ℕ} {f g : Frame K} {cs : List (Frame K)}

/-- **What a refresh reads shows the key** if the version of the child does. -/
theorem Reads.shows (h : Reads m f g) (hgo : GoesOn f g) (hB : Base cfg m t) (hok : FrameOk m f)
    (hf : FrameFit cfg m f) (hc : ChildShows cfg k P m f.x) (hs : FrameShows cfg k P m f) :
    FrameShows cfg k P m g := by
  cases h with
  | blank hpos => exact .of_blank hpos
  | leftVer hp hn =>
      intro hlt he
      refine hc f.left1 ⟨hf.internal, (child_eq_left hlt).trans he.symm, ?_⟩ hn
      exact he ▸ hf.internal
  | leftSame hp he =>
      simp only [FrameShows, hp] at hs
      exact fun hlt => hs hlt he
  | right hp hg hleft =>
      have hs' : (k : WithTop K) < ord cfg (m.node f.x).key → Shows k P f.leftver := by
        unfold FrameShows at hs
        rcases hp with hp | hp | hp <;> rw [hp] at hs <;> first | exact hs | exact hs.1
      unfold FrameShows
      rcases hg with hg | hg | hg <;> rw [hg, hgo.x, hleft] <;> exact hs'
  | noRight hp h0 =>
      simp only [FrameShows, hp] at hs
      refine ⟨hs, fun hle => absurd hle (not_le.mpr ?_)⟩
      -- only the root has no right child
      have hr : f.x = root := by
        by_contra hr
        exact hB.closed.full _ hok.x hr hf.internal h0
      simp only [hr, hB.tree.root_key, ord_noKey]
      exact WithTop.coe_lt_top k
  | rightVer hp hn =>
      have hr := hf.right
      have h0 : f.right1 ≠ 0 := by
        unfold RightFit at hr
        rcases hp with hp | hp <;> rw [hp] at hr <;> exact hr.1
      refine ⟨?_, fun hle he => hc f.right1 ⟨hf.internal,
        (child_eq_right (not_lt.mpr hle)).trans he.symm, h0⟩ hn⟩
      unfold FrameShows at hs
      rcases hp with hp | hp <;> rw [hp] at hs <;> exact hs
  | rightSame hp he =>
      simp only [FrameShows, hp] at hs
      exact ⟨hs.1, fun hle => hs.2 hle he⟩

/-- A version built from children that show the key on its side. -/
theorem shows_mk {x : ℕ} {l r : Ver K} (hk : k ≠ cfg.noKey) (hl : FitsLeft cfg m x l)
    (hr : r = .nil ∨ FitsRight cfg m x r)
    (hsl : (k : WithTop K) < ord cfg (m.node x).key → Shows k P l)
    (hsr : ord cfg (m.node x).key ≤ (k : WithTop K) → Shows k P r) (a : ℕ) (key : K) (sum : ℤ)
    (st : ℕ) : Shows k P (.mk a key sum l r st) := by
  unfold Shows
  rw [Ver.leafKeys_mk hl.wf.ne_nil, List.mem_append]
  rcases lt_or_ge (k : WithTop K) (ord cfg (m.node x).key) with hlt | hle
  · have hn : k ∉ r.leafKeys := fun hkr => by
      rcases hr with rfl | hr
      · simp [Ver.leafKeys] at hkr
      · exact absurd (hr.le k hkr hk) (not_le.mpr hlt)
    rw [or_iff_left hn]
    exact hsl hlt
  · have hn : k ∉ l.leafKeys := fun hkl => absurd (hl.lt k hkl hk) (not_lt.mpr hle)
    rw [or_iff_right hn]
    exact hsr hle

/-- **A refresh of a live node whose reads show the key installs a version that does.** -/
theorem newVer_shows (hk : k ≠ cfg.noKey) (hf : FrameFit cfg m f) (hp : f.pos = .cas)
    (hx : Live m f.x) (hs : FrameShows cfg k P m f) : Shows k P (f.newVer m ps) := by
  have hl := hf.left
  have hr := hf.right
  simp only [LeftFit, RightFit, FrameShows, hp] at hl hr hs
  exact shows_mk hk (hl hx) ((hr hx).imp (·.2) (·.2)) hs.1 hs.2 ..

end Shows

/-! ### Settled nodes -/

section Settled

variable (cfg) (k : K) (P : Prop) (s : State K V)

omit [LinearOrder K] in
/-- The call is in progress in some thread. -/
def InPlay (g : Frame K) : Prop := ∃ i, g ∈ (s.pc i).frames

/-- The refreshes of `x` whose CAS can still succeed have read what shows the key. -/
def FrameSettled (x : ℕ) : Prop :=
  ∀ g, InPlay s g → g.x = x → g.oldVer = (s.mem.node x).version → FrameShows cfg k P s.mem g

/-- **The version of `x` shows the key, and so will every version that replaces it.** -/
structure Settled (x : ℕ) : Prop where
  version : (s.mem.node x).version ≠ .nil → Shows k P (s.mem.node x).version
  frames : FrameSettled cfg k P s x

variable {cfg k P s} {i : ℕ} {x y : ℕ} {pc pc' : PC K V}

/-- The calls in progress after a step of `propagate`. -/
theorem PropStep.next_frames (h : PropStep cfg m pc m' pc') (hF : PcFit cfg m pc) {g : Frame K}
    (hg : g ∈ pc'.frames) :
    (∃ ps f cs, pc.frames = f :: cs ∧ NextFrame cfg.variant m ps f cs m' g) ∨
      g.pos.blank = true := by
  have hins : ∀ {cl : Climb K V} {r : ℕ}, g ∉ (inserted cfg cl r).frames := fun {cl r} hg => by
    unfold inserted at hg
    simp only at hg
    split_ifs at hg <;> simp [PC.frames] at hg
  have hstart : ∀ {r : ℕ}, g ∈ [Frame.start cfg.variant r true] → g.pos.blank = true := fun hg => by
    rw [List.mem_singleton.mp hg]
    simp only [Frame.start]
    split_ifs <;> rfl
  cases h with
  | @run cl r again f cs m' vs f' cs' h => exact .inl ⟨cl.ps, f, cs, rfl, h.next hF hg⟩
  | pop => exact .inr (hstart hg)
  | returned h =>
      refine .inr ?_
      unfold refreshed at hg
      cases hv : cfg.variant <;> rw [hv] at hg hstart <;> simp only at hg <;> split_ifs at hg <;>
        first | exact absurd hg hins | exact hstart hg | simp [PC.frames] at hg
  | marked h => exact absurd hg hins
  | delegate h =>
      split_ifs at hg <;> simp [PC.frames] at hg
  | _ => simp [PC.frames] at hg

omit [LinearOrder K] in
theorem FrameStep.version {var : Variant} {ps : ℕ} {f : Frame K} {cs : List (Frame K)}
    {vs : List (Ver K)} {res : FrameResult K} [DecidableEq K]
    (h : FrameStep var m ps f cs m' vs res) (hl : (m.node f.x).left ≠ 0) (y : ℕ) :
    (m'.node y).version = (m.node y).version ∨ (f.pos = .cas ∧ f.x = y ∧
      (m.node y).version = f.oldVer ∧ (m'.node y).version = f.newVer m ps) := by
  have hinst : f.pos = .cas → (m.node f.x).version = f.oldVer →
      ((m.install f.x (f.newVer m ps)).node y).version = (m.node y).version ∨
        (f.pos = .cas ∧ f.x = y ∧ (m.node y).version = f.oldVer ∧
          ((m.install f.x (f.newVer m ps)).node y).version = f.newVer m ps) := fun hp he => by
    by_cases hy : y = f.x
    · subst hy
      exact .inr ⟨hp, rfl, he, install_version_self ..⟩
    · exact .inl (install_version_of_ne _ _ _ hy)
  cases h with
  | casOk hp he | casAgain hp he => exact hinst hp he
  | leafWrite hp h0 => exact absurd h0 hl
  | _ => exact .inl rfl

/-- What a step of `propagate` does to the version of a node. -/
theorem PropStep.version (h : PropStep cfg m pc m' pc') (hF : PcFit cfg m pc) (y : ℕ) :
    (m'.node y).version = (m.node y).version ∨ ∃ cl r again f cs, pc = .refresh cl r again f cs ∧
      f.pos = .cas ∧ f.x = y ∧ (m.node y).version = f.oldVer ∧
        (m'.node y).version = f.newVer m cl.ps := by
  cases h with
  | @run cl r again f cs m' vs f' cs' h =>
      exact (h.version (hF.each f (by simp)).internal y).imp_right fun h =>
        ⟨cl, r, again, f, cs, rfl, h⟩
  | @returned cl r again f cs m' vs ok curps h =>
      exact (h.version (hF.each f (by simp)).internal y).imp_right fun h =>
        ⟨cl, r, again, f, cs, rfl, h⟩
  | _ => exact .inl rfl

theorem PcOk.frameOk (h : PcOk cfg m pc) {g : Frame K} (hg : g ∈ pc.frames) : FrameOk m g := by
  cases pc with
  | refresh cl r again f cs => exact h.2 g hg
  | _ => simp [PC.frames] at hg

theorem PcFit.frameFit (h : PcFit cfg m pc) {g : Frame K} (hg : g ∈ pc.frames) :
    FrameFit cfg m g := by
  cases pc with
  | refresh cl r again f cs => exact h.each g hg
  | _ => simp [PC.frames] at hg

omit [LinearOrder K] in
theorem inPlay_set {g : Frame K} (h : InPlay (s.set m' i pc') g) : g ∈ pc'.frames ∨ InPlay s g := by
  obtain ⟨j, hj⟩ := h
  by_cases hji : j = i
  · subst hji
    rw [State.set_pc_self] at hj
    exact .inl hj
  · rw [State.set_pc_of_ne _ _ _ hji] at hj
    exact .inr ⟨j, hj⟩

omit [LinearOrder K] in
theorem Frame.newVer_not_below (f : Frame K) (m : Mem K V) (ps : ℕ) :
    ¬ (f.newVer m ps).Below m.nextVer := Nat.lt_irrefl m.nextVer

/-- **A step of `propagate` leaves the refreshes of a node settled** if the version of the child on
the path shows the key.  If it installs a version, then nobody expects that yet. -/
theorem FrameSettled.prop
    (h : (m'.node x).version = (s.mem.node x).version → FrameSettled cfg k P s x) (hI : Inv cfg s)
    (hV : VInv cfg s) (hp : PropStep cfg s.mem (s.pc i) m' pc')
    (hc : ChildShows cfg k P s.mem x) : FrameSettled cfg k P (s.set m' i pc') x := by
  obtain ⟨t, hB⟩ := hI.base
  have hq := hp.quiet
  -- a call that expected the version before the step
  have hshows : ∀ g, InPlay s g → g.x = x → g.oldVer = (m'.node x).version →
      FrameShows cfg k P s.mem g := fun g hg hx ho => by
    rcases hp.version (hV.pcs i) x with hv | ⟨cl, r, again, f, cs, -, -, -, -, hv⟩
    · exact h hv g hg hx (ho.trans hv)
    · obtain ⟨j, hj⟩ := hg
      have := ((hI.pcs j).frameOk hj).oldVer
      rw [ho, hv] at this
      exact absurd this (f.newVer_not_below _ _)
  have hold : ∀ g, InPlay s g → g.x = x → g.oldVer = (m'.node x).version →
      FrameShows cfg k P m' g := fun g hg hx ho =>
    (FrameShows.congr (hq.same g.x)).mpr (hshows g hg hx ho)
  intro g hg hx ho
  rw [State.set_mem] at ho ⊢
  rcases inPlay_set hg with hg | hg
  · rcases hp.next_frames (hV.pcs i) hg with ⟨ps, f, cs, hf, hn⟩ | hb
    · have hmem : f ∈ (s.pc i).frames := by simp [hf]
      cases hn with
      | caller hcs => exact hold g ⟨i, by simp [hf, hcs]⟩ hx ho
      | call y => exact .of_blank (by simp [Frame.start, Pos.blank])
      | goes hgo hr =>
          have hfx : f.x = x := hgo.x.symm.trans hx
          exact hr.shows hgo hB ((hI.pcs i).frameOk hmem) ((hV.pcs i).frameFit hmem) (hfx ▸ hc)
            (hshows f ⟨i, hmem⟩ hfx (hgo.oldVer.symm.trans ho))
      | loaded | again => exact .of_blank rfl
    · exact .of_blank hb
  · exact hold g hg hx ho

/-- **A step of `propagate` leaves a live node settled** if the version of the child on the path
shows the key. -/
theorem Settled.prop (h : Settled cfg k P s x) (hI : Inv cfg s) (hV : VInv cfg s)
    (hk : k ≠ cfg.noKey) (hx : Live s.mem x) (hp : PropStep cfg s.mem (s.pc i) m' pc')
    (hc : ChildShows cfg k P s.mem x) : Settled cfg k P (s.set m' i pc') x := by
  refine ⟨fun hn => ?_, .prop (fun _ => h.frames) hI hV hp hc⟩
  rw [State.set_mem] at hn ⊢
  rcases hp.version (hV.pcs i) x with hv | ⟨cl, r, again, f, cs, hpc, hpos, rfl, ho, hv⟩
  · rw [hv] at hn ⊢
    exact h.version hn
  · have hf : f ∈ (s.pc i).frames := by simp [hpc, PC.frames]
    rw [hv]
    exact newVer_shows hk ((hV.pcs i).frameFit hf) hpos hx (h.frames f ⟨i, hf⟩ rfl ho.symm)

/-- A leaf on the path of the key is settled. -/
theorem settled_leaf (hI : Inv cfg s) (hV : VInv cfg s) (hk : k ≠ cfg.noKey)
    (hP : InTree s.mem k ↔ P) (hx : OnPath cfg s.mem k x) (hl : (s.mem.node x).left = 0) :
    Settled cfg k P s x := by
  obtain ⟨t, hB⟩ := hI.base
  refine ⟨fun _ => ?_, fun g ⟨j, hg⟩ hgx _ => absurd (hgx ▸ hl) ((hV.pcs j).frameFit hg).internal⟩
  obtain ⟨a, sum, ps, hv⟩ := hV.mem.leaf x (hB.tree.live_lt hx.live) hl
  rw [hv, Shows, ← hP, hB.tree.inTree_iff_leaf hk hx hl]
  simp [Ver.leafKeys, eq_comm]

end Settled

/-! ### Settled nodes and the second step of an SCX -/

section Swing

variable {k q : K} {P : Prop} {s : State K V} {i : ℕ} {x y : ℕ} {rec : ScxRecord K V}
  {old : Patch (Cell K V) ℕ} {e : Effect V} {c : Call K V} {md : Mode} {f g : Frame K}

/-- The new value of the child pointer is a new node. -/
theorem Commit.newPtr_ge (h : Commit cfg m rec old q e) : m.next ≤ newPtr m.next rec.newNode := by
  cases hn : rec.newNode with
  | sub p =>
      have := h.removes.slots_perm.length_eq
      rw [hn, slots_sub, List.length_nil, List.length_range] at this
      exact absurd this (by cases rec.type <;> decide)
  | leaf a => exact Nat.le_add_right ..
  | node a l r => exact Nat.le_add_right ..

/-- A child pointer of an old node stays or comes to point to a new node. -/
theorem Commit.swing_children (h : Commit cfg m rec old q e) (hx : x < m.next) :
    (((m.swing rec).node x).left = (m.node x).left ∨ m.next ≤ ((m.swing rec).node x).left) ∧
      (((m.swing rec).node x).right = (m.node x).right ∨
        m.next ≤ ((m.swing rec).node x).right) := by
  by_cases hxu : x = rec.nth 0
  · subst hxu
    rw [Mem.swing_self h.side]
    split_ifs
    · exact ⟨.inr h.newPtr_ge, .inl rfl⟩
    · exact ⟨.inl rfl, .inr h.newPtr_ge⟩
  · rw [Mem.swing_of_ne hx hxu]
    exact ⟨.inl rfl, .inl rfl⟩

/-- What a refresh has read still shows the key after an SCX: a child that is still there was there
before. -/
theorem FrameShows.swing (h : FrameShows cfg k P m f) (hc : Commit cfg m rec old q e)
    (hok : FrameOk m f) (hkey : ((m.swing rec).node f.x).key = (m.node f.x).key) :
    FrameShows cfg k P (m.swing rec) f := by
  obtain ⟨hl, hr⟩ := hc.swing_children hok.x
  have hl' : f.left1 = ((m.swing rec).node f.x).left → f.left1 = (m.node f.x).left := fun he => by
    rcases hl with hl | hl
    · exact he.trans hl
    · exact absurd hok.left1 (by omega)
  have hr' : f.right1 = ((m.swing rec).node f.x).right → f.right1 = (m.node f.x).right :=
    fun he => by
      rcases hr with hr | hr
      · exact he.trans hr
      · exact absurd hok.right1 (by omega)
  unfold FrameShows at h ⊢
  rw [hkey]
  cases hp : f.pos <;> rw [hp] at h <;> simp only at h ⊢ <;> first | trivial | exact h | skip
  · exact fun hlt he => h hlt (hl' he)
  · exact ⟨h.1, fun hle he => h.2 hle (hr' he)⟩

/-- A refresh of a live node off the path of the key has not read the key. -/
theorem frameShows_off (hB : Base cfg m t) (hf : FrameFit cfg m f) (hk : k ≠ cfg.noKey)
    (hx : Live m f.x) (hn : ¬ OnPath cfg m k f.x) (hP : ¬ P) : FrameShows cfg k P m f := by
  have hoff : ∀ {v : Ver K}, Fits cfg m f.x v → Shows k P v := fun hv =>
    iff_of_false (fun hkv => hn (hv.onPath k hkv hk)) hP
  have hchild : ∀ {y : ℕ} {v : Ver K}, Edge m f.x y → Fits cfg m y v → Shows k P v := fun he hv =>
    iff_of_false (fun hkv => hn (hB.tree.onPath_of_edge hx he (hv.onPath k hkv hk)).1) hP
  have hnil : Shows k P (.nil : Ver K) := iff_of_false (by simp [Ver.leafKeys]) hP
  have hl := hf.left
  have hr := hf.right
  unfold FrameShows
  unfold LeftFit at hl
  unfold RightFit at hr
  cases hp : f.pos <;> rw [hp] at hl hr <;> simp only at hl hr ⊢ <;>
    first | trivial | exact fun _ => hoff (hl hx).toFits | skip
  · intro _ he
    have hedge : Edge m f.x f.left1 := ⟨he ▸ hf.internal, .inl he.symm⟩
    exact hchild hedge (hl (hx.edge hedge))
  · refine ⟨fun _ => hoff (hl hx).toFits, fun _ he => ?_⟩
    rcases hr with ⟨-, hr⟩ | ⟨h0, hr⟩
    · rw [hr]
      exact hnil
    · have hedge : Edge m f.x f.right1 := ⟨h0, .inr he.symm⟩
      exact hchild hedge (hr (hx.edge hedge))
  · refine ⟨fun _ => hoff (hl hx).toFits, fun _ => ?_⟩
    rcases hr hx with ⟨-, hr⟩ | ⟨-, hr⟩
    · rw [hr]
      exact hnil
    · exact hoff hr.toFits

omit [LinearOrder K] in
theorem PC.early_frames {pc : PC K V} (h : pc.early = true) : pc.frames = [] := by
  cases pc <;> first | rfl | cases h

/-- The refreshes of a node that stays in the tree. -/
theorem FrameSettled.swing (h : FrameSettled cfg k P s x) (hI : Inv cfg s)
    (hc : Commit cfg s.mem rec old q e) (hx : x < s.mem.next) :
    FrameSettled cfg k P (s.set (s.mem.swing rec) i (finished c md)) x := by
  obtain ⟨t, hB⟩ := hI.base
  have hl := Later.swing hc hB.tree hB.closed
  intro g hg hgx ho
  rw [State.set_mem] at ho ⊢
  rcases inPlay_set hg with hg | ⟨j, hg⟩
  · simp [PC.early_frames (finished_early c md)] at hg
  · exact (h g ⟨j, hg⟩ hgx (ho.trans (hc.swing_version hx))).swing hc ((hI.pcs j).frameOk hg)
      (hl.key _ (hgx ▸ hx))

theorem Settled.swing (h : Settled cfg k P s x) (hI : Inv cfg s)
    (hc : Commit cfg s.mem rec old q e) (hx : x < s.mem.next) :
    Settled cfg k P (s.set (s.mem.swing rec) i (finished c md)) x := by
  refine ⟨fun hn => ?_, h.frames.swing hI hc hx⟩
  rw [State.set_mem, hc.swing_version hx] at hn ⊢
  exact h.version hn

/-- **A live node off the path of a key that is not stored is settled.** -/
theorem settled_off (hI : Inv cfg s) (hV : VInv cfg s) (hk : k ≠ cfg.noKey) (hx : Live s.mem x)
    (hn : ¬ OnPath cfg s.mem k x) (hP : ¬ P) : Settled cfg k P s x := by
  obtain ⟨t, hB⟩ := hI.base
  refine ⟨fun hv => ?_, fun g ⟨j, hg⟩ hgx _ => ?_⟩
  · have hr : x ≠ root := by rintro rfl; exact hn onPath_root
    exact iff_of_false (fun hkv => hn ((hV.mem.live x hx hr hv).onPath k hkv hk)) hP
  · exact frameShows_off hB ((hV.pcs j).frameFit hg) hk (hgx ▸ hx) (hgx ▸ hn) hP

/-- **A new node is settled.** -/
theorem settled_fresh (hI : Inv cfg s) (hV : VInv cfg s) (hk : k ≠ cfg.noKey)
    (hc : Commit cfg s.mem rec old q e) (hP : InTree (s.mem.swing rec) k ↔ P)
    (hx : OnPath cfg (s.mem.swing rec) k x) (hge : s.mem.next ≤ x) :
    Settled cfg k P (s.set (s.mem.swing rec) i (finished c md)) x := by
  obtain ⟨t, hB⟩ := hI.base
  obtain ⟨-, t', hT', -⟩ := hc.swing hB.tree
  have hV' := hV.mem.swing hB hc
  obtain ⟨j, hj, rfl⟩ := (hc.lt_next_cases (hT'.live_lt hx.live)).resolve_left (by omega)
  -- the version of a leaf on the path shows the key
  have hleaf : ∀ y, OnPath cfg (s.mem.swing rec) k y → ((s.mem.swing rec).node y).left = 0 →
      Shows k P ((s.mem.swing rec).node y).version := fun y hy hl => by
    obtain ⟨a, sum, ps, hv⟩ := hV'.leaf y (hT'.live_lt hy.live) hl
    rw [hv, Shows, ← hP, hT'.inTree_iff_leaf hk hy hl]
    simp [Ver.leafKeys, eq_comm]
  have hfit : ∀ y, Live (s.mem.swing rec) y → ((s.mem.swing rec).node y).left = 0 →
      Fits cfg (s.mem.swing rec) y ((s.mem.swing rec).node y).version := fun y hy hl => by
    obtain ⟨a, sum, ps, hv⟩ := hV'.leaf y (hT'.live_lt hy) hl
    exact fits_leaf hT' hy hl hv
  refine ⟨fun hn => ?_, fun g hg hgx _ => ?_⟩
  · rw [State.set_mem] at hn ⊢
    cases hc.firstVersion hB.tree hj with
    | leaf a sum hl hv => exact hleaf _ hx hl
    | bare hl hv => exact absurd hv hn
    | pair a l r hl hr hl0 hr0 hll hrl hv =>
        subst hl hr
        have hxl := hx.live
        rw [hv]
        refine shows_mk hk (fitsLeft_of_child hT' hxl hl0 (hfit _ (hxl.edge ⟨hl0, .inl rfl⟩) hll))
          (.inr (fitsRight_of_child hT' hxl hr0 (hfit _ (hxl.edge ⟨hr0, .inr rfl⟩) hrl)))
          (fun hlt => hleaf _ (hx.step ⟨hl0, child_eq_left hlt, hl0⟩) hll)
          (fun hle => hleaf _ (hx.step ⟨hl0, child_eq_right (not_lt.mpr hle), hr0⟩) hrl) ..
  · rcases inPlay_set hg with hg | ⟨b, hg⟩
    · simp [PC.early_frames (finished_early c md)] at hg
    · exact absurd ((hI.pcs b).frameOk hg).x (by omega)

end Swing

/-! ### All steps -/

section Step

variable {k : K} {P : Prop} {s : State K V} {i : ℕ} {x y : ℕ} {pc' : PC K V}

/-- Steps that change no child pointer, no version and no refresh. -/
theorem FrameSettled.of_same (h : FrameSettled cfg k P s x) (hs : SameNodes s.mem m')
    (hv : (m'.node x).version = (s.mem.node x).version) (hfr : pc'.frames = []) :
    FrameSettled cfg k P (s.set m' i pc') x := by
  intro g hg hgx ho
  rw [State.set_mem] at ho ⊢
  rw [FrameShows.congr (hs.same g.x)]
  rcases inPlay_set hg with hg | hg
  · simp [hfr] at hg
  · exact h g hg hgx (ho.trans hv)

theorem Settled.of_same (h : Settled cfg k P s x) (hs : SameNodes s.mem m')
    (hv : (m'.node x).version = (s.mem.node x).version) (hfr : pc'.frames = []) :
    Settled cfg k P (s.set m' i pc') x := by
  refine ⟨fun hn => ?_, h.frames.of_same hs hv hfr⟩
  rw [State.set_mem, hv] at hn ⊢
  exact h.version hn

/-- The new commits of another thread that come to a path. -/
theorem ExecKind.newly (hK : ExecKind cfg s.mem (s.pc i) m' pc') (hI : Inv cfg s)
    (hk : k ≠ cfg.noKey) (hx : x < s.mem.next) (hn : ¬ OnPath cfg s.mem k x)
    (hx' : OnPath cfg m' k x) : ¬ InTree m' k ∧ ∀ y, Route cfg m' k x y → y < s.mem.next →
      ¬ OnPath cfg s.mem k y := by
  obtain ⟨t, hB⟩ := hI.base
  have hsame : SameNodes s.mem m' → ¬ InTree m' k ∧ ∀ y, Route cfg m' k x y → y < s.mem.next →
      ¬ OnPath cfg s.mem k y := fun hs => absurd (hs.onPath_iff.mp hx') hn
  cases hK with
  | still => exact hsame (Quiet.refl _).toSameNodes
  | prop h => exact hsame h.quiet.toSameNodes
  | freeze => exact hsame (freeze_sameNodes ..)
  | @swing c md rec hpc =>
      obtain ⟨old, hc⟩ := hI.commit hpc
      obtain ⟨hu, t', hT', hs⟩ := hc.swing hB.tree
      have hxl : Live s.mem x := (Later.swing hc hB.tree hB.closed).live x hx hx'.live
      have key := fun y hxy => hs.newly_route hB.tree hT' hxl hn hx' (y := y) hxy
      refine ⟨fun hin => ?_, fun y hxy _ => (key y hxy).1.2⟩
      rw [hT'.inTree_iff_stored hk] at hin
      exact hin ((key x .refl).2 hk)

/-- **Settled nodes stay settled.**  Let `D` be a part of the path of the key that is closed
downwards and settled.  After any step the nodes of `D` on the path are settled, and so are those
that are new there. -/
theorem Settled.step {D : ℕ → Prop} (hI : Inv cfg s) (hV : VInv cfg s) (hk : k ≠ cfg.noKey)
    (hK : ExecKind cfg s.mem (s.pc i) m' pc') (hP : InTree m' k ↔ P)
    (hD : ∀ y, D y → OnPath cfg s.mem k y ∧ Settled cfg k P s y)
    (hcl : ∀ y c, D y → KEdge cfg s.mem k y c → D c) (hx : OnPath cfg m' k x)
    (hxD : x < s.mem.next → OnPath cfg s.mem k x → D x) :
    Settled cfg k P (s.set m' i pc') x := by
  obtain ⟨t, hB⟩ := hI.base
  have hsame : SameNodes s.mem m' → D x := fun hs => by
    have ho := hs.onPath_iff.mp hx
    exact hxD (hB.tree.live_lt ho.live) ho
  cases hK with
  | still h h' =>
      exact (hD x (hsame (Quiet.refl _).toSameNodes)).2.of_same (Quiet.refl _).toSameNodes
        rfl (PC.early_frames h')
  | prop h =>
      have hdx := hsame h.quiet.toSameNodes
      exact (hD x hdx).2.prop hI hV hk (hD x hdx).1.live h fun c hc =>
        (hD c (hcl x c hdx hc)).2.version
  | @freeze c md cur c' rec hpc ha =>
      exact (hD x (hsame (freeze_sameNodes ..))).2.of_same (freeze_sameNodes ..)
        (freeze_version _ _ _) rfl
  | @swing c md rec hpc =>
      obtain ⟨old, hc⟩ := hI.commit hpc
      by_cases hlt : x < s.mem.next
      · by_cases ho : OnPath cfg s.mem k x
        · exact (hD x (hxD hlt ho)).2.swing hI hc hlt
        · have hxl := (Later.swing hc hB.tree hB.closed).live x hlt hx.live
          refine (settled_off hI hV hk hxl ho fun hp => ?_).swing hI hc hlt
          exact (ExecKind.newly (.swing hpc) hI hk hlt ho hx).1 (hP.mpr hp)
      · exact settled_fresh hI hV hk hc hP hx (not_lt.mp hlt)

end Step

end Cbat
