import FlowTube.Proofs.Contractor.Parts
import FlowTube.Proofs.Contractor.Reach
import FlowTube.Proofs.TubeVector.Timed

/-! Contraction by a derivative keeps every function whose slopes the derivative encloses, over
finite, increasing breakpoints. Between two times of a slice the function advances by the time
between them times a slope, so that each gate, and each value inside the slice, is reached from
either end of the slice. The gates are narrowed before they are used again; the function passes
through the narrowed ones as well, which is what the sweeps need.

A slice that ends at an infinity has no width that is a number, and between equal breakpoints there
are no two times to give a slope. Where the product of width and slopes is empty for one of these
reasons, the slice is emptied, and every function is lost there. -/

namespace FlowTube

variable {ι : Type} [Enclosure ι] [Membership ℝ ι] {g : ℝ → ℝ} {v : ι}

/-! ### Slices -/

namespace Tube

variable [Enclosure.Sound ι] {x : Tube ι} {i : ℕ}

theorem Sliced.mem_width (h : x.Sliced) (hi : i < x.sliceCount) :
    x.instant (i + 1) - x.instant i ∈ (Enclosure.width (x.sliceDomain i) : ι) := by
  have hspan := h.isSpan_sliceDomain hi
  rw [h.sliceDomain_eq hi] at hspan ⊢
  exact hspan.mem_width

theorem Sliced.mem_elapsed (h : x.Sliced) (hi : i < x.sliceCount) {d : ℝ} (h0 : 0 ≤ d)
    (hd : d ≤ x.instant (i + 1) - x.instant i) :
    d ∈ (Enclosure.elapsed (x.sliceDomain i) : ι) :=
  Enclosure.Lawful.mem_fromZero (h.mem_width hi) h0 hd

end Tube

namespace Derivative

variable [Enclosure.Sound ι] {x : Tube ι} {i : ℕ}

open Enclosure.Lawful (mem_inter)
open Enclosure.Sound (mem_add mem_sub mem_mul)

/-- A contracted slice still has the function. -/
theorem encloses_contractSlice (hs : x.Sliced) (he : x.Encloses g) (hi : i < x.sliceCount)
    (hv : HasSlopes g v {t | t ∈ x.sliceDomain i}) : (contractSlice x i v).1.Encloses g := by
  have hlt := hs.instant_lt_instant (Nat.lt_succ_self i) hi
  have htime {t : ℝ} (hlow : x.instant i ≤ t) (hup : t ≤ x.instant (i + 1)) : t ∈ x.sliceDomain i :=
    (hs.mem_sliceDomain hi).2 ⟨hlow, hup⟩
  have hfirst := htime le_rfl hlt.le
  have hlast := htime hlt.le le_rfl
  have htimes := (hs.isSpan_sliceDomain hi).nontrivial
  have hdt := hs.mem_width hi
  -- each end is reached from the other one
  obtain ⟨r, hr, hgr⟩ := hv.exists_slope htimes hfirst hlast
  have hb : g (x.instant (i + 1)) ∈
      x.gate (i + 1) ∩ (x.gate i + Enclosure.width (x.sliceDomain i) * v) := by
    refine mem_inter (he.gate (i + 1) hi) ?_
    rw [hgr]
    exact mem_add (he.gate i hi.le) (mem_mul hdt hr)
  have ha : g (x.instant i) ∈ x.gate i ∩
      (x.gate (i + 1) ∩ (x.gate i + Enclosure.width (x.sliceDomain i) * v) -
        Enclosure.width (x.sliceDomain i) * v) := by
    refine mem_inter (he.gate i hi.le) ?_
    rw [show g (x.instant i) = g (x.instant (i + 1)) - (x.instant (i + 1) - x.instant i) * r by
      rw [hgr]; ring]
    exact mem_sub hb (mem_mul hdt hr)
  generalize hb' : x.gate (i + 1) ∩ (x.gate i + Enclosure.width (x.sliceDomain i) * v) = last
    at ha hb
  generalize ha' : x.gate i ∩ (last - Enclosure.width (x.sliceDomain i) * v) = first at ha
  -- each value inside is reached from both ends
  have hc : ∀ t, x.instant i ≤ t → t ≤ x.instant (i + 1) → g t ∈ x.codomain i ∩
      (first + Enclosure.elapsed (x.sliceDomain i) * v) ∩
        (last - Enclosure.elapsed (x.sliceDomain i) * v) := by
    intro t hlow hup
    obtain ⟨p, hp, hgp⟩ := hv.exists_slope htimes hfirst (htime hlow hup)
    obtain ⟨q, hq, hgq⟩ := hv.exists_slope htimes hlast (htime hlow hup)
    refine mem_inter (mem_inter (he.codomain i hi t hlow hup) ?_) ?_
    · rw [hgp]
      exact mem_add ha (mem_mul (hs.mem_elapsed hi (sub_nonneg.2 hlow) (by linarith)) hp)
    · rw [show g t = g (x.instant (i + 1)) - (x.instant (i + 1) - t) * q by rw [hgq]; ring]
      exact mem_sub hb (mem_mul (hs.mem_elapsed hi (sub_nonneg.2 hup) (by linarith)) hq)
  subst ha'
  subst hb'
  exact he.putSlice hc (mem_inter ha (hc _ le_rfl hlt.le)) (mem_inter hb (hc _ hlt.le le_rfl))

/-- In every slice of a tube, the slopes between any two times are in the codomain of a
derivative. -/
def SlopesIn (v x : Tube ι) (g : ℝ → ℝ) : Prop :=
  ∀ i < x.sliceCount, HasSlopes g (v.codomain i) {t | t ∈ x.sliceDomain i}

omit [Enclosure.Sound ι] in
theorem SlopesIn.of_sameShape {v x y : Tube ι} (h : SlopesIn v x g) (hshape : y.SameShape x) :
    SlopesIn v y g := by
  have hcount : y.sliceCount = x.sliceCount := hshape.codomains
  have hdomain : y.sliceDomain = x.sliceDomain := by
    funext i
    rw [Tube.sliceDomain, Tube.sliceDomain, Tube.time, Tube.time, Tube.time, Tube.time,
      hshape.times]
  unfold SlopesIn
  rw [hcount, hdomain]
  exact h

omit [Membership ℝ ι] [Enclosure.Sound ι] in
/-- What a sweep makes of a tube, without its report. -/
theorem sweep_fst (v : Tube ι) (slices : List ℕ) (x : Tube ι) :
    (sweep v slices x).1 = slices.foldl (fun x i => (contractSlice x i (v.codomain i)).1) x := by
  unfold sweep
  generalize false = changed
  induction slices generalizing x changed with
  | nil => rfl
  | cons i slices ih => exact ih _ _

theorem encloses_sweep {v : Tube ι} (hs : x.Sliced) (he : x.Encloses g) (hv : SlopesIn v x g)
    {slices : List ℕ} (hslices : ∀ i ∈ slices, i < x.sliceCount) :
    (sweep v slices x).1.Encloses g := by
  rw [sweep_fst]
  induction slices generalizing x with
  | nil => exact he
  | cons i slices ih =>
    have hi := hslices i List.mem_cons_self
    have hshape : (contractSlice x i (v.codomain i)).1.SameShape x := Tube.sameShape_putSlice ..
    refine ih (hshape.sliced hs) (encloses_contractSlice hs he hi (hv i hi))
      (hv.of_sameShape hshape) fun k hk => ?_
    rw [show Tube.sliceCount _ = x.sliceCount from hshape.codomains]
    exact hslices k (List.mem_cons_of_mem i hk)

theorem encloses_contractTube (direction : Direction) {v : Tube ι} (hs : x.Sliced)
    (he : x.Encloses g) (hv : SlopesIn v x g) : (contractTube direction v x).1.Encloses g := by
  have hforward : ∀ i ∈ List.range x.sliceCount, i < x.sliceCount := fun i => List.mem_range.1
  have hbackward : ∀ i ∈ (List.range x.sliceCount).reverse, i < x.sliceCount := fun i hi =>
    List.mem_range.1 (List.mem_reverse.1 hi)
  cases direction with
  | forward => exact encloses_sweep hs he hv hforward
  | backward => exact encloses_sweep hs he hv hbackward
  | both =>
    have hshape := sameShape_sweep v (List.range x.sliceCount) x
    refine encloses_sweep (hshape.sliced hs) (encloses_sweep hs he hv hforward)
      (hv.of_sameShape hshape) fun i hi => ?_
    rw [show Tube.sliceCount _ = x.sliceCount from hshape.codomains]
    exact hbackward i hi

omit [Membership ℝ ι] [Enclosure.Sound ι] in
/-- A derivative with the dimension and the slices of a vector is accepted. -/
theorem contract_eq_ok (direction : Direction) {v x : TubeVector ι} (hsome : x.components ≠ [])
    (hdim : v.dimension = x.dimension) (hslices : ∀ c ∈ v.components, c.sliceCount = x.sliceCount) :
    contract direction v x =
      .ok (⟨List.zipWith (fun c v => (contractTube direction v c).1) x.components v.components⟩,
        (List.zipWith (contractTube direction) v.components x.components).any (·.2)) := by
  have hv : v.components ≠ [] := by
    refine List.ne_nil_of_length_pos ?_
    change 0 < v.dimension
    rw [hdim]
    exact List.length_pos_of_ne_nil hsome
  have hcount : v.sliceCount = x.sliceCount := hslices _ (TubeVector.first_mem_of_ne_nil hv)
  have hlong : (v.components.any fun c => decide (c.sliceCount < x.sliceCount)) = false := by
    refine List.any_eq_false.2 fun c hc => ?_
    rw [hslices c hc]
    simp
  unfold contract
  rw [hdim, hcount, if_neg (by simp), if_neg (by simp), if_neg (by simp [hlong])]
  dsimp only
  rw [List.map_zipWith, List.zipWith_comm]

/-! ### Slices without a width or without slopes -/

section Emptied

open Enclosure (isEmpty width)
open Enclosure.Inclusive (isEmpty_inter)
open Enclosure.Strict (isEmpty_add isEmpty_sub)

variable {v : Tube ι}

omit [Membership ℝ ι] [Enclosure.Sound ι]

variable [Enclosure.Strict ι]

theorem isEmpty_narrowSlice {t : Interval} {w c a b : ι} (h : isEmpty (width t * w) = true) :
    isEmpty (narrowSlice t w c a b).1 = true := by
  have hlast : isEmpty (b ∩ (a + width t * w)) = true := isEmpty_inter (.inr (isEmpty_add (.inr h)))
  exact isEmpty_inter (.inr (isEmpty_sub (.inl hlast)))

theorem isEmpty_codomain_contractSlice (hi : i < x.sliceCount) {w : ι}
    (h : isEmpty (width (x.sliceDomain i) * w) = true) :
    isEmpty ((contractSlice x i w).1.codomain i) = true := by
  have hcodomain : (contractSlice x i w).1.codomain i = (narrowSlice (x.sliceDomain i) w
      (x.codomain i) (x.gate i) (x.gate (i + 1))).1 :=
    (Tube.codomain_putCodomain hi).trans (if_pos rfl)
  rw [hcodomain]
  exact isEmpty_narrowSlice h

/-- What the slice loses on its turn, the slices after it cannot give back. -/
theorem isEmpty_codomain_sweep (hi : i < x.sliceCount)
    (h : isEmpty (width (x.sliceDomain i) * v.codomain i) = true) {slices : List ℕ}
    (hmem : i ∈ slices) : isEmpty ((sweep v slices x).1.codomain i) = true := by
  rw [sweep_fst]
  induction slices generalizing x with
  | nil => contradiction
  | cons k slices ih =>
    rw [List.foldl_cons]
    by_cases hik : i = k
    · subst hik
      rw [← sweep_fst]
      exact related_sweep (sliceRelation_isEmpty_codomain i) v slices _
        (isEmpty_codomain_contractSlice hi h)
    · have hshape : (contractSlice x k (v.codomain k)).1.SameShape x := Tube.sameShape_putSlice ..
      exact ih (hi.trans_eq hshape.codomains.symm) h ((List.mem_cons.1 hmem).resolve_left hik)

theorem isEmpty_codomain_contractTube (hi : i < x.sliceCount)
    (h : isEmpty (width (x.sliceDomain i) * v.codomain i) = true) (direction : Direction) :
    isEmpty ((contractTube direction v x).1.codomain i) = true := by
  have hforward : i ∈ List.range x.sliceCount := List.mem_range.2 hi
  cases direction with
  | forward => exact isEmpty_codomain_sweep hi h hforward
  | backward => exact isEmpty_codomain_sweep hi h (List.mem_reverse.2 hforward)
  | both =>
    exact related_sweep (sliceRelation_isEmpty_codomain i) v _ _
      (isEmpty_codomain_sweep hi h hforward)

end Emptied

end Derivative

/-- A trajectory in a vector, and a vector over the same slices with its slopes. -/
structure Derivative.Setting (v x : TubeVector ι) (X : ℝ → ℕ → ℝ) : Prop where
  holdsAt : ∀ t, x.HoldsAt X t
  dimension : v.dimension = x.dimension
  slices : ∀ c ∈ v.components, c.sliceCount = x.sliceCount
  slopes : ∀ j < x.dimension, SlopesIn (v.component j) (x.component j) fun t => X t j

/-- Contraction by a derivative loses no trajectory over finite, strictly increasing breakpoints: if
the slopes of a trajectory of the tube lie, over every slice and for every component, in the codomain
of the derivative there, then the contracted tube has the trajectory, for any operators that contain
the exact results. -/
theorem Derivative.contract_keeps_trajectory {o : Operators} (ho : o.Sound) (direction : Direction)
    {v x : TubeVector (Rounded o)} {X : ℝ → ℕ → ℝ} (hx : x.Sliced) (h : Setting v x X) :
    ∃ y changed, contract direction v x = .ok (y, changed) ∧ y.SameShape x ∧
      ∀ t, y.HoldsAt X t := by
  have := Rounded.sound ho
  have hok := contract_eq_ok direction hx.someComponent h.dimension h.slices
  have hshape := sameShape_contract hok
  refine ⟨_, _, hok, hshape, ?_⟩
  rw [← (hshape.keepsForm.compatible hx).sliced.encloses_iff]
  intro j d hd
  obtain ⟨c, w, hc, hw, rfl⟩ := List.getElem?_zipWith_eq_some.1 hd
  have hslopes := h.slopes j (List.getElem?_eq_some_iff.1 hc).1
  rw [TubeVector.component_of_getElem? hc, TubeVector.component_of_getElem? hw] at hslopes
  exact encloses_contractTube direction (hx.components c (List.mem_of_getElem? hc))
    (hx.encloses_iff.2 h.holdsAt j c hc) hslopes

/-! ### The trajectory of slope one -/

namespace Derivative

/-- Values from zero to one, over the unit span. -/
def unitTube (o : Operators) : TubeVector (Rounded o) :=
  TubeVector.unitSlice Interval.unit Interval.whole

/-- The slope one, over the unit span. -/
def unitSlope (o : Operators) : TubeVector (Rounded o) :=
  TubeVector.unitSlice (Interval.point 1.0) (Interval.point 1.0)

theorem encloses_unitTube (o : Operators) : (unitTube o).Encloses fun t _ => t := by
  exact TubeVector.encloses_unitSlice (fun t h0 h1 => Interval.mem_unit.2 ⟨h0, h1⟩)
    Interval.mem_whole Interval.mem_whole

theorem setting_identity (o : Operators) :
    Setting (unitSlope o) (unitTube o) fun t _ => t where
  holdsAt := TubeVector.sliced_unitSlice.encloses_iff.1 (encloses_unitTube o)
  dimension := rfl
  slices := List.forall_mem_singleton.2 rfl
  slopes := by
    intro j hj i hi s _ t _ hst
    obtain rfl : j = 0 := Nat.lt_one_iff.1 hj
    obtain rfl : i = 0 := Nat.lt_one_iff.1 hi
    exact Interval.mem_point_one.2 (div_self (sub_ne_zero.2 hst.ne'))

theorem contract_keeps_identity :
    (unitTube .cautious).Sliced ∧
      Setting (unitSlope .cautious) (unitTube .cautious) (fun t _ => t) ∧
      ∃ y changed, contract .both (unitSlope .cautious) (unitTube .cautious) = .ok (y, changed) ∧
        y.SameShape (unitTube .cautious) ∧ ∀ t, y.HoldsAt (fun t _ => t) t :=
  ⟨TubeVector.sliced_unitSlice, setting_identity _, contract_keeps_trajectory
    Operators.sound_cautious .both TubeVector.sliced_unitSlice (setting_identity _)⟩

/-! ### A trajectory lost -/

open Enclosure (isEmpty width) in
/-- A slice without a width, or without slopes in one component, loses every trajectory at each of
its times, whatever the direction. -/
theorem contract_loses_of_isEmpty [Enclosure.Lawful ι] [Enclosure.Strict ι] {v x : TubeVector ι}
    {X : ℝ → ℕ → ℝ} (hx : x.Timed) (h : Setting v x X) {i j : ℕ} (hi : i < x.sliceCount)
    (hj : j < x.dimension)
    (hempty : isEmpty (width (x.sliceDomain i) * (v.component j).codomain i) = true)
    (direction : Direction) {t : ℝ} (ht : t ∈ x.sliceDomain i) :
    ∃ y changed, contract direction v x = .ok (y, changed) ∧ ¬y.HoldsAt X t := by
  have hok := contract_eq_ok direction hx.someComponent h.dimension h.slices
  have hmem := TubeVector.component_mem hj
  have hdomain : (x.component j).sliceDomain i = x.sliceDomain i := by
    rw [TubeVector.sliceDomain, Tube.sliceDomain, Tube.sliceDomain, Tube.time, Tube.time,
      hx.shared _ hmem]
    rfl
  rw [← hdomain] at hempty
  refine ⟨_, _, hok, (sameShape_contract hok).not_holdsAt hx hi (List.getElem?_zipWith_eq_some.2
    ⟨_, _, TubeVector.getElem?_component hj,
      TubeVector.getElem?_component (hj.trans_eq h.dimension.symm), rfl⟩) ?_ ht⟩
  exact isEmpty_codomain_contractTube (hi.trans_eq (hx.sliceCount_eq hmem).symm) hempty direction

/-- The slope zero, and no slope between equal breakpoints. -/
def restingSlope (o : Operators) : TubeVector (Rounded o) :=
  TubeVector.single (TubeVector.repeating Interval.zero).times
    #[Interval.empty, Interval.zero, Interval.zero] Interval.zero

theorem setting_endless (o : Operators) :
    Setting (TubeVector.endless Interval.zero : TubeVector (Rounded o))
      (TubeVector.endless Interval.unit) fun _ _ => 0 where
  holdsAt := TubeVector.holdsAt_endless fun _ => Interval.zero_mem_unit
  dimension := rfl
  slices := List.forall_mem_singleton.2 rfl
  slopes := by
    intro j hj i hi
    obtain rfl : j = 0 := Nat.lt_one_iff.1 hj
    change i < 2 at hi
    interval_cases i <;> exact hasSlopes_const Interval.zero_mem_zero 0 _

theorem setting_repeating (o : Operators) :
    Setting (restingSlope o) (TubeVector.repeating Interval.unit) fun _ _ => 0 where
  holdsAt := TubeVector.holdsAt_repeating fun _ => Interval.zero_mem_unit
  dimension := rfl
  slices := List.forall_mem_singleton.2 rfl
  slopes := by
    intro j hj i hi
    obtain rfl : j = 0 := Nat.lt_one_iff.1 hj
    change i < 3 at hi
    interval_cases i
    · exact hasSlopes_of_subsingleton
        (Interval.subsingleton_of_isDegenerate (TubeVector.isDegenerate_repeating _))
    · exact hasSlopes_const Interval.zero_mem_zero 0 _
    · exact hasSlopes_const Interval.zero_mem_zero 0 _

/-- The zero function is lost in tubes from zero to one with the slope zero, where there is an
infinite breakpoint, or two equal ones as a partition in small steps makes them. -/
theorem contract_loses_zero :
    let X : ℝ → ℕ → ℝ := fun _ _ => 0
    let x : TubeVector (Rounded .cautious) := .endless Interval.unit
    let v : TubeVector (Rounded .cautious) := .endless Interval.zero
    let x' : TubeVector (Rounded .cautious) := .repeating Interval.unit
    let v' := restingSlope .cautious
    Operators.cautious.Sound ∧
      (x.Timed ∧ Setting v x X ∧ ∀ direction, ∃ y changed,
        contract direction v x = .ok (y, changed) ∧ ¬y.HoldsAt X 1) ∧
      TubeVector.uniform ⟨9007199254740992.0, 9007199254740996.0⟩ 1.0 [Interval.unit] = .ok x' ∧
      x'.Timed ∧ Setting v' x' X ∧ ∀ direction, ∃ y changed,
        contract direction v' x' = .ok (y, changed) ∧
          ¬y.HoldsAt X (Binary64.real 9007199254740992.0) := by
  have hlawful := (Rounded.sound Operators.sound_cautious).toLawful
  have hstrict := Rounded.strict Operators.strict_cautious
  have hwidth : Enclosure.isEmpty (Enclosure.width (Interval.mk 1.0 Binary64.inf) :
      Rounded .cautious) = true := hstrict.isEmpty_sub (.inl (by decide +kernel))
  intro X x v x' v'
  refine ⟨Operators.sound_cautious, ⟨TubeVector.timed_endless _, setting_endless _,
    fun direction => ?_⟩, TubeVector.uniform_eq_repeating _, TubeVector.timed_repeating _,
    setting_repeating _, fun direction => ?_⟩
  · exact contract_loses_of_isEmpty (TubeVector.timed_endless _) (setting_endless _)
      (i := 1) (j := 0) (Nat.lt_succ_self 1) Nat.one_pos (hstrict.isEmpty_mul (.inl hwidth))
      direction (TubeVector.one_mem_endless _)
  · exact contract_loses_of_isEmpty (TubeVector.timed_repeating _) (setting_repeating _)
      (i := 0) (j := 0) (Nat.succ_pos 2) Nat.one_pos (hstrict.isEmpty_mul (.inr rfl))
      direction (TubeVector.start_mem_repeating _)

end Derivative

end FlowTube
