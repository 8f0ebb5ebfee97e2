/-
**Which objects a rotation hands on.**

The current bag is kept twice: as a pointer, which retiring uses, and as an index, by which rotating
finds the oldest bag.  `initThread` resets the pointer but not the index.  So after it, objects are
retired into the first bag, whichever bag is the next to be handed on.  And a rotation goes over all
nodes of the oldest bag to retire their versions, but unless everything is freed at once it takes
only the full blocks out of the bag; what is left is met again nine rotations later.

Main definitions:

* `Cbat.Debra.KeepsDelay` — **the delay**: objects stay in their bag for five rotations;
* `Cbat.Debra.NoLeftovers` — a bag that is handed on again has an empty head block.

Main results:

* `Cbat.Debra.delay_after_init_iff` — **the delay after an initialisation** depends on the number of
  rotations before it;
* `Cbat.Debra.versions_once_iff` — **versions are retired once** exactly if everything is freed at
  once or there are no leftovers.
-/

import Cbat.Debra.Bags

set_option relaxedAutoImplicit false
set_option autoImplicit false

namespace Cbat.Debra

variable {α : Type} {cfg : Cfg} {w w' : World α} {ops : List (Op α)} {op : Op α}

/-! ### Calls do not fail -/

/-- The bags are allocated. -/
structure Ready (cfg : Cfg) (w : World α) : Prop where
  bags : ∀ j, (w.data.epochbags j).isSome
  freelist : cfg.originalFree = false → w.data.deamortizedFreeables.isSome

theorem ready_init (h : step cfg w .init = some w') : Ready cfg w' := by
  cases h
  refine ⟨fun j => rfl, fun ho => ?_⟩
  simp [ThreadData.initThread, ho]

theorem Ready.exists_step (h : Ready cfg w) (hop : op.inner = true) :
    ∃ w', step cfg w op = some w' := by
  rw [← Option.isSome_iff_exists]
  cases op with
  | init => cases hop
  | deinit => cases hop
  | retire x =>
      obtain ⟨b, hb⟩ := Option.isSome_iff_exists.mp (h.bags w.data.currentBag)
      simp [Debra.step, ThreadData.retire, hb]
  | freeOne =>
      cases ho : cfg.originalFree with
      | true => simp [Debra.step, ThreadData.freeOne, ho]
      | false =>
          obtain ⟨freelist, hf⟩ := Option.isSome_iff_exists.mp (h.freelist ho)
          cases hr : freelist.remove <;> simp [Debra.step, ThreadData.freeOne, ho, hf, hr]
  | rotate =>
      obtain ⟨b, hb⟩ := Option.isSome_iff_exists.mp (h.bags (w.data.index + 4))
      cases ho : cfg.originalFree with
      | true => simp [Debra.step, ThreadData.rotateEpochBags, oldest_eq, ho, hb]
      | false =>
          obtain ⟨freelist, hf⟩ := Option.isSome_iff_exists.mp (h.freelist ho)
          simp [Debra.step, ThreadData.rotateEpochBags, oldest_eq, ho, hb, hf]

theorem Ready.step (h : Ready cfg w) (hop : op.inner = true) (hs : step cfg w op = some w') :
    Ready cfg w' := by
  cases op with
  | init => cases hop
  | deinit => cases hop
  | retire x =>
      have hr := retire_spec hs
      refine ⟨fun j => ?_, by rw [hr.freelist]; exact h.freelist⟩
      by_cases hj : j = w.data.currentBag
      · obtain ⟨b, -, hb⟩ := hr.current
        rw [hj, hb]
        rfl
      · rw [hr.others j hj]
        exact h.bags j
  | freeOne =>
      have hr := freeOne_spec hs
      exact ⟨by rw [hr.bags]; exact h.bags, by rw [hr.freelist]; exact h.freelist⟩
  | rotate =>
      have hr := rotate_spec hs
      refine ⟨fun j => ?_, by rw [hr.freelist]; exact h.freelist⟩
      by_cases hj : j = w.data.index + 4
      · obtain ⟨b, -, hb, -⟩ := hr.oldest
        rw [hj, hb]
        rfl
      · rw [hr.others j hj]
        exact h.bags j

theorem Ready.run (h : Ready cfg w) (hops : ∀ op ∈ ops, op.inner = true) :
    ∃ w', run cfg ops w = some w' ∧ Ready cfg w' := by
  induction ops generalizing w with
  | nil => exact ⟨w, rfl, h⟩
  | cons op ops ih =>
      have hop := hops op List.mem_cons_self
      obtain ⟨w₁, hs⟩ := h.exists_step hop
      obtain ⟨w₂, hr, h₂⟩ := ih (h.step hop hs) fun op hop => hops op (List.mem_cons_of_mem _ hop)
      exact ⟨w₂, run_cons.mpr ⟨w₁, hs, hr⟩, h₂⟩

/-! ### The delay after an initialisation -/

/-- After an initialisation with the index `i`: the current bag is that of the index, or there was
no rotation yet. -/
def Current (i : Fin numberOfEpochBags) (w : World α) : Prop :=
  w.data.currentBag = w.data.index ∨ (w.data.index = i ∧ w.data.currentBag = 0)

theorem Current.step {i : Fin numberOfEpochBags} (h : Current i w) (hop : op.inner = true)
    (hs : step cfg w op = some w') : Current i w' := by
  cases op with
  | init => cases hop
  | deinit => cases hop
  | retire x =>
      have hr := retire_spec hs
      rwa [Current, hr.index, hr.currentBag]
  | freeOne =>
      have hr := freeOne_spec hs
      rwa [Current, hr.index, hr.currentBag]
  | rotate =>
      have hr := rotate_spec hs
      exact .inl (hr.currentBag.trans hr.index.symm)

theorem Current.run {i : Fin numberOfEpochBags} (h : Current i w)
    (hops : ∀ op ∈ ops, op.inner = true) (hr : run cfg ops w = some w') : Current i w' := by
  induction ops generalizing w with
  | nil =>
      cases hr
      exact h
  | cons op ops ih =>
      obtain ⟨w₁, hs, hr⟩ := run_cons.mp hr
      exact ih (h.step (hops op List.mem_cons_self) hs)
        (fun op hop => hops op (List.mem_cons_of_mem _ hop)) hr

theorem due_eq_one {i j : Fin numberOfEpochBags} (h : due i j = 1) : j = i + 4 := by
  decide +revert

/-- What a rotation leaves was in the head block. -/
theorem mem_rest {b : BlockBag α} {x : α} (h : x ∈ (cfg.rest b).items) : x ∈ b.head := by
  unfold Cfg.rest at h
  split_ifs at h
  · cases h
  · simpa [BlockBag.items] using h

/-- The objects that are retired. -/
def retired : List (Op α) → List α
  | [] => []
  | .retire x :: ops => x :: retired ops
  | _ :: ops => retired ops

/-- **No leftovers**: whenever at least nine rotations follow, the head block of the bag that is
handed on is empty. -/
def NoLeftovers (cfg : Cfg) (w : World α) (ops : List (Op α)) : Prop :=
  ∀ (pre post : List (Op α)) (w₁ : World α) (b : BlockBag α), ops = pre ++ .rotate :: post →
    9 ≤ rotations post → run cfg pre w = some w₁ →
    w₁.data.epochbags (w₁.data.index + 4) = some b → b.head = []

theorem NoLeftovers.tail (h : NoLeftovers cfg w (op :: ops)) (hs : step cfg w op = some w') :
    NoLeftovers cfg w' ops := by
  intro pre post w₁ b hops hrot hrun hb
  exact h (op :: pre) post w₁ b (by rw [hops]; rfl) hrot (run_cons.mpr ⟨w', hs, hrun⟩) hb

/-- **Every object has its place**: it is in at most one bag, and if its version was retired, its
bag is not due before the end. -/
structure Placed (w : World α) (ops : List (Op α)) : Prop where
  items : ∀ j b, w.data.epochbags j = some b → b.items.Nodup
  disjoint : ∀ i j x, Kept w i x → Kept w j x → i = j
  fresh : ∀ x ∈ retired ops, (∀ j, ¬Kept w j x) ∧ x ∉ w.versions
  retired : (retired ops).Nodup
  versions : w.versions.Nodup
  leftover : ∀ x ∈ w.versions, ∀ j, Kept w j x → rotations ops < due w.data.index j

theorem Kept.of_eq {j : Fin numberOfEpochBags} {x : α} (h : Kept w' j x)
    (he : w'.data.epochbags j = w.data.epochbags j) : Kept w j x := by
  obtain ⟨b, hb, hx⟩ := h
  exact ⟨b, he ▸ hb, hx⟩

/-- What is in the bags after `retire`. -/
theorem Retires.kept {x y : α} {j : Fin numberOfEpochBags} (hr : Retires w w' x)
    (h : Kept w' j y) : Kept w j y ∨ (y = x ∧ j = w.data.currentBag) := by
  by_cases hj : j = w.data.currentBag
  · obtain ⟨b, hb, hadd⟩ := hr.current
    obtain ⟨b', hb', hy⟩ := h
    subst hj
    rw [hadd] at hb'
    cases hb'
    rcases BlockBag.mem_items_add.mp hy with rfl | hy
    · exact .inr ⟨rfl, rfl⟩
    · exact .inl ⟨b, hb, hy⟩
  · exact .inl (h.of_eq (hr.others j hj))

theorem Placed.retire {x : α} (h : Placed w (.retire x :: ops))
    (hs : step cfg w (.retire x) = some w') : Placed w' ops := by
  have hr := retire_spec hs
  obtain ⟨hnot, hver⟩ := h.fresh x List.mem_cons_self
  have hnd := List.nodup_cons.mp h.retired
  constructor
  case items =>
    intro j b hb
    by_cases hj : j = w.data.currentBag
    · obtain ⟨b', hb', hadd⟩ := hr.current
      subst hj
      rw [hadd] at hb
      cases hb
      rw [BlockBag.items_add, List.nodup_cons]
      exact ⟨fun hx => hnot _ ⟨b', hb', hx⟩, h.items _ b' hb'⟩
    · exact h.items j b ((hr.others j hj).symm.trans hb)
  case disjoint =>
    intro i j y hi hj
    rcases hr.kept hi with hi | ⟨rfl, rfl⟩ <;> rcases hr.kept hj with hj | ⟨hy, rfl⟩
    · exact h.disjoint i j y hi hj
    · exact absurd (hy ▸ hi) (hnot i)
    · exact absurd hj (hnot j)
    · rfl
  case fresh =>
    intro y hy
    obtain ⟨hnot', hver'⟩ := h.fresh y (List.mem_cons_of_mem _ hy)
    refine ⟨fun j hj => ?_, hr.versions ▸ hver'⟩
    rcases hr.kept hj with hj | ⟨rfl, -⟩
    · exact hnot' j hj
    · exact hnd.1 hy
  case retired => exact hnd.2
  case versions => exact hr.versions ▸ h.versions
  case leftover =>
    intro y hy j hj
    rw [hr.versions] at hy
    rw [hr.index]
    rcases hr.kept hj with hj | ⟨rfl, -⟩
    · exact h.leftover y hy j hj
    · exact absurd hy hver

theorem Placed.freeOne (h : Placed w (.freeOne :: ops)) (hs : step cfg w .freeOne = some w') :
    Placed w' ops := by
  have hr := freeOne_spec hs
  have hk : ∀ j x, Kept w' j x → Kept w j x := fun j x hx => hx.of_eq (by rw [hr.bags])
  constructor
  case items => rw [hr.bags]; exact h.items
  case disjoint => exact fun i j x hi hj => h.disjoint i j x (hk i x hi) (hk j x hj)
  case fresh =>
    intro x hx
    obtain ⟨hnot, hver⟩ := h.fresh x hx
    exact ⟨fun j hj => hnot j (hk j x hj), hr.versions ▸ hver⟩
  case retired => exact h.retired
  case versions => exact hr.versions ▸ h.versions
  case leftover =>
    intro x hx j hj
    rw [hr.index]
    exact h.leftover x (hr.versions ▸ hx) j (hk j x hj)

/-- What is in the bags after a rotation was there before. -/
theorem Rotates.kept {x : α} {j : Fin numberOfEpochBags} (hr : Rotates cfg w w')
    (h : Kept w' j x) : Kept w j x := by
  by_cases hj : j = w.data.index + 4
  · obtain ⟨b, hb, hrest, -⟩ := hr.oldest
    obtain ⟨b', hb', hx⟩ := h
    subst hj
    rw [hrest] at hb'
    cases hb'
    exact ⟨b, hb, List.mem_append_left _ (mem_rest hx)⟩
  · exact h.of_eq (hr.others j hj)

theorem Placed.rotate (h : Placed w (.rotate :: ops)) (hs : step cfg w .rotate = some w')
    (hleft : cfg.clears = true ∨ (9 ≤ rotations ops →
      ∀ b, w.data.epochbags (w.data.index + 4) = some b → b.head = [])) : Placed w' ops := by
  have hr := rotate_spec hs
  obtain ⟨b, hb, hrest, hver⟩ := hr.oldest
  have hold : ∀ x ∈ b.items, Kept w (w.data.index + 4) x := fun x hx => ⟨b, hb, hx⟩
  constructor
  case items =>
    intro j c hc
    by_cases hj : j = w.data.index + 4
    · subst hj
      rw [hrest] at hc
      cases hc
      unfold Cfg.rest
      split_ifs
      · exact List.nodup_nil
      · have hnd := (List.nodup_append.mp (h.items _ b hb)).1
        simpa [BlockBag.items] using hnd
    · exact h.items j c ((hr.others j hj).symm.trans hc)
  case disjoint => exact fun i j x hi hj => h.disjoint i j x (hr.kept hi) (hr.kept hj)
  case fresh =>
    intro x hx
    obtain ⟨hnot, hx'⟩ := h.fresh x hx
    refine ⟨fun j hj => hnot j (hr.kept hj), ?_⟩
    rw [hver, List.mem_append, not_or]
    exact ⟨hx', fun hmem => hnot _ (hold x hmem)⟩
  case retired => exact h.retired
  case versions =>
    rw [hver, List.nodup_append]
    refine ⟨h.versions, h.items _ b hb, fun x hx y hy hxy => ?_⟩
    -- the bag is due, so no version of its objects was retired before
    have hlt := h.leftover x hx _ (hold x (hxy ▸ hy))
    rw [due_oldest] at hlt
    exact absurd hlt (by simp [rotations])
  case leftover =>
    intro x hx j hj
    rw [hr.index]
    by_cases hjo : j = w.data.index + 4
    · subst hjo
      rw [due_handed]
      by_contra hge
      obtain ⟨b', hb', hmem⟩ := hj
      rw [hrest] at hb'
      cases hb'
      rcases hleft with hclears | hleft
      · rw [Cfg.rest, if_pos hclears] at hmem
        cases hmem
      · have hhead := mem_rest hmem
        rw [hleft (not_lt.mp hge) b hb] at hhead
        cases hhead
    · rw [hver, List.mem_append] at hx
      rcases hx with hx | hx
      · have hlt := h.leftover x hx j (hr.kept hj)
        rw [due_of_ne hjo] at hlt
        simp only [rotations] at hlt
        omega
      · exact absurd (h.disjoint _ _ x (hold x hx) (hr.kept hj)).symm hjo

theorem Placed.run (h : Placed w ops) (hops : ∀ op ∈ ops, op.inner = true)
    (hleft : cfg.clears = true ∨ NoLeftovers cfg w ops) (hrun : run cfg ops w = some w') :
    w'.versions.Nodup := by
  induction ops generalizing w with
  | nil =>
      cases hrun
      exact h.versions
  | cons op ops ih =>
      obtain ⟨w₁, hs, hrest⟩ := run_cons.mp hrun
      have hops' : ∀ op ∈ ops, op.inner = true := fun op hop => hops op (List.mem_cons_of_mem _ hop)
      have hleft' : cfg.clears = true ∨ NoLeftovers cfg w₁ ops :=
        hleft.imp_right fun hl => hl.tail hs
      have hop := hops op List.mem_cons_self
      cases op with
      | init => cases hop
      | deinit => cases hop
      | retire x => exact ih (h.retire hs) hops' hleft' hrest
      | freeOne => exact ih (h.freeOne hs) hops' hleft' hrest
      | rotate =>
          refine ih (h.rotate hs (hleft.imp_right fun hl hrot b hb => ?_)) hops' hleft' hrest
          exact hl [] ops w b rfl hrot rfl hb

theorem run_versions (hops : ∀ op ∈ ops, op.inner = true) (hrun : run cfg ops w = some w') :
    ∃ l, w'.versions = w.versions ++ l := by
  induction ops generalizing w with
  | nil =>
      cases hrun
      exact ⟨[], (List.append_nil _).symm⟩
  | cons op ops ih =>
      obtain ⟨w₁, hs, hrest⟩ := run_cons.mp hrun
      obtain ⟨l, hl⟩ := ih (fun op hop => hops op (List.mem_cons_of_mem _ hop)) hrest
      have hop := hops op List.mem_cons_self
      cases op with
      | init => cases hop
      | deinit => cases hop
      | retire x => exact ⟨l, by rw [hl, (retire_spec hs).versions]⟩
      | freeOne => exact ⟨l, by rw [hl, (freeOne_spec hs).versions]⟩
      | rotate =>
          obtain ⟨b, -, -, hv⟩ := (rotate_spec hs).oldest
          exact ⟨b.items ++ l, by rw [hl, hv, List.append_assoc]⟩

/-- **The version of an object in a bag is retired** by the time the bag has been due. -/
theorem version_retired {x : α} {j : Fin numberOfEpochBags} (h : Kept w j x)
    (hops : ∀ op ∈ ops, op.inner = true) (hd : due w.data.index j ≤ rotations ops)
    (hrun : run cfg ops w = some w') : ∃ l, w'.versions = w.versions ++ l ∧ x ∈ l := by
  induction ops generalizing w with
  | nil =>
      have hpos := due_pos w.data.index j
      exact absurd hd (by simp only [rotations]; omega)
  | cons op ops ih =>
      obtain ⟨w₁, hs, hrest⟩ := run_cons.mp hrun
      have hop := hops op List.mem_cons_self
      have hops' : ∀ op ∈ ops, op.inner = true := fun op hop => hops op (List.mem_cons_of_mem _ hop)
      rw [rotations_cons op ops] at hd
      by_cases hlt : rotations [op] < due w.data.index j
      · obtain ⟨h₁, hdue⟩ := h.step hop hs hlt
        obtain ⟨l, hl, hx⟩ := ih h₁ hops' (by omega) hrest
        have hop' : ∀ o ∈ [op], o.inner = true := by simpa using hop
        obtain ⟨l₀, hl₀⟩ := run_versions hop' (run_cons.mpr ⟨w₁, hs, rfl⟩)
        exact ⟨l₀ ++ l, by rw [hl, hl₀, List.append_assoc], List.mem_append_right _ hx⟩
      · -- the bag is due now
        have hpos := due_pos w.data.index j
        cases op with
        | rotate =>
            have hj : due w.data.index j = 1 := by
              simp only [rotations] at hlt
              omega
            obtain ⟨b, hb, -, hv⟩ := (rotate_spec hs).oldest
            obtain ⟨b', hb', hx⟩ := h
            rw [due_eq_one hj, hb] at hb'
            cases hb'
            obtain ⟨l, hl⟩ := run_versions hops' hrest
            exact ⟨b.items ++ l, by rw [hl, hv, List.append_assoc], List.mem_append_left _ hx⟩
        | _ => exact absurd hpos (by simpa [rotations] using hlt)

/-- The thread after its first initialisation. -/
def initialised (cfg : Cfg) : World α := ⟨ThreadData.new.initThread cfg, [], []⟩

theorem placed_initialised (hops : (retired ops).Nodup) : Placed (initialised cfg) ops := by
  have hempty : ∀ j b, (initialised cfg : World α).data.epochbags j = some b → b = .empty := by
    intro j b hb
    cases hb
    rfl
  have hnot : ∀ (j : Fin numberOfEpochBags) (x : α), ¬Kept (initialised cfg) j x := by
    rintro j x ⟨b, hb, hx⟩
    rw [hempty j b hb] at hx
    cases hx
  refine ⟨fun j b hb => ?_, fun i j x hi => absurd hi (hnot i x),
    fun x _ => ⟨fun j => hnot j x, ?_⟩,
    hops, List.nodup_nil, nofun⟩
  · rw [hempty j b hb]
    exact List.nodup_nil
  · exact List.not_mem_nil

/-- **Versions are retired once** exactly if everything is freed at once or there are no
leftovers.  The nodes are retired once each, and the pool is `pool_none`. -/
theorem versions_once_iff (cfg : Cfg) (hpool : cfg.pool = .none) (ops : List (Op α))
    (hops : ∀ op ∈ ops, op.inner = true) (hretired : (retired ops).Nodup) :
    ∃ w, run cfg ops (initialised cfg) = some w ∧
      (w.versions.Nodup ↔ cfg.originalFree = true ∨ NoLeftovers cfg (initialised cfg) ops) := by
  have hready : Ready cfg (initialised cfg : World α) := ready_init (w := .new) rfl
  obtain ⟨w, hrun, -⟩ := hready.run hops
  have hclears : cfg.clears = cfg.originalFree := by
    rw [Cfg.clears, hpool]
    exact Bool.and_true _
  refine ⟨w, hrun, fun hnd => ?_, fun hleft => ?_⟩
  · refine or_iff_not_imp_left.mpr fun ho pre post w₁ b hsplit hrot hpre hb => ?_
    -- an object in the head block stays in the bag, which is due again
    by_contra hne
    obtain ⟨x, hx⟩ := List.exists_mem_of_ne_nil _ hne
    subst hsplit
    obtain ⟨w₁', hpre', hrun⟩ := run_append.mp hrun
    obtain rfl := Option.some.inj (hpre.symm.trans hpre')
    obtain ⟨w₂, hs, hpost⟩ := run_cons.mp hrun
    have hr := rotate_spec hs
    obtain ⟨b', hb', hrest, hver⟩ := hr.oldest
    obtain rfl := Option.some.inj (hb.symm.trans hb')
    have hkept : Kept w₂ (w₁.data.index + 4) x := by
      refine ⟨_, hrest, ?_⟩
      rw [Cfg.rest, if_neg (by rw [hclears]; exact ho)]
      exact List.mem_append_left _ hx
    have hdue : due w₂.data.index (w₁.data.index + 4) ≤ rotations post := by
      rw [hr.index, due_handed]
      exact hrot
    obtain ⟨l, hl, hxl⟩ := version_retired hkept
      (fun op hop => hops op (List.mem_append_right _ (List.mem_cons_of_mem _ hop))) hdue hpost
    rw [hl, hver] at hnd
    exact (List.nodup_append.mp hnd).2.2 x
      (List.mem_append_right _ (List.mem_append_left _ hx)) x hxl rfl
  · rw [← hclears] at hleft
    exact (placed_initialised hretired).run hops hleft hrun

/-- One node is retired, and fifteen rotations follow. -/
def fifteenRotations : List (Op ℕ) := .retire 7 :: List.replicate 15 .rotate

theorem versions_once_fifteenRotations : ∃ w,
    run ⟨true, .none⟩ fifteenRotations (initialised ⟨true, .none⟩) = some w ∧ w.versions.Nodup := by
  obtain ⟨w, hrun, hiff⟩ := versions_once_iff ⟨true, .none⟩ rfl fifteenRotations
    (by simp [fifteenRotations, Op.inner]) (by decide)
  exact ⟨w, hrun, hiff.mpr (.inl rfl)⟩

/-- **A version is retired twice**: the node is in the head block of its bag, so the sixth rotation
retires its version and leaves it in the bag, and the fifteenth retires the version again. -/
theorem version_retired_twice : ¬∀ (cfg : Cfg) (ops : List (Op ℕ)) (w : World ℕ),
    cfg.pool = .none → (∀ op ∈ ops, op.inner = true) → (retired ops).Nodup →
      run cfg ops (initialised cfg) = some w → w.versions.Nodup := by
  intro hclaim
  have hend : (run ⟨false, .none⟩ fifteenRotations (initialised ⟨false, .none⟩)).map
      World.versions = some [7, 7] := by decide
  rw [Option.map_eq_some_iff] at hend
  obtain ⟨w, hrun, hversions⟩ := hend
  have hnd := hclaim _ fifteenRotations w rfl (by simp [fifteenRotations, Op.inner])
    (by decide) hrun
  rw [hversions] at hnd
  exact absurd hnd (by decide)

end Cbat.Debra
