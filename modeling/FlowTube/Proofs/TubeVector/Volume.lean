import FlowTube.Proofs.Binary64.Monotone
import FlowTube.Proofs.Contractor.Narrowing
import FlowTube.Proofs.Enclosure.Isotone
import FlowTube.Proofs.Search.Idle

/-! Volumes. A width rounded up grows with the interval, and so do its product with the time of a
slice and the sum over the slices, whichever slices are left out as empty or end the sum as
unbounded. So a tube has no more volume than one that it lies in over the same breakpoints. A
contraction that adds no breakpoint leads to such a tube: once a slice is cut, the count of slices
tells. -/

namespace FlowTube

open Binary64

/-! ### Widths -/

namespace Interval

variable {a b : Interval}

theorem diam_of_isEmpty (h : a.isEmpty = true) : a.diam = 0.0 := by
  rw [diam, if_pos h]

theorem diam_of_isUnbounded (h : a.isUnbounded = true) : a.diam = inf := by
  have hne : a.isEmpty = false := by
    rw [isUnbounded, Bool.and_eq_true, Bool.not_eq_true'] at h
    exact h.1
  rw [diam, if_neg (Bool.eq_false_iff.1 hne), if_pos h]

/-- The width between bounds of which one is not a number is infinite. -/
theorem diam_of_not_numeric (h : a.lb.isNaN = true ∨ a.ub.isNaN = true) : a.diam = inf := by
  have hne : a.isEmpty = false := by
    refine decide_eq_false fun hgt => ?_
    obtain ⟨hub, hlb, -⟩ := lt_iff.1 hgt
    exact h.elim (Bool.eq_false_iff.1 hlb) (Bool.eq_false_iff.1 hub)
  have hsum : (a.ub + -a.lb).isNaN = true := by
    rcases h with hlb | hub
    · exact (isNaN_operation (by rwa [isNaN_neg_eq]) a.ub).1.2
    · exact (isNaN_operation hub (-a.lb)).1.1
  rw [diam, if_neg (Bool.eq_false_iff.1 hne)]
  split_ifs
  · rfl
  · rw [addUp]
    simp only [hsum, if_true]

theorem size_diam (a : Interval) : size a.diam = value a.diam := size_eq_value (isNaN_diam a)

/-- A diameter is zero, infinite or that of two finite bounds. -/
theorem diam_shape (a : Interval) : a.isEmpty = true ∨ a.diam = inf ∨
    a.lb ≤ a.ub ∧ a.lb.isFinite = true ∧ a.ub.isFinite = true := by
  by_cases hempty : a.isEmpty = true
  · exact Or.inl hempty
  right
  by_cases hunbounded : a.isUnbounded = true
  · exact Or.inl (diam_of_isUnbounded hunbounded)
  by_cases hnan : a.lb.isNaN = true ∨ a.ub.isNaN = true
  · exact Or.inl (diam_of_not_numeric hnan)
  right
  rw [not_or, Bool.not_eq_true, Bool.not_eq_true] at hnan
  rw [Bool.not_eq_true] at hempty hunbounded
  have hbounded : a.isBounded = true := by
    rw [isBounded, hempty, hunbounded]
    rfl
  exact ⟨le_of_not_lt hnan.2 hnan.1 (of_decide_eq_false hempty),
    isFinite_bounds hnan.1 hnan.2 hbounded⟩

theorem size_diam_nonneg (a : Interval) : 0 ≤ size a.diam := by
  rw [size_diam]
  rcases diam_shape a with hempty | hinf | ⟨hle, hlb, hub⟩
  · rw [diam_of_isEmpty hempty]
    exact le_rfl
  · rw [hinf]
    exact le_top
  · refine le_trans ?_ (width_le_diam hlb hub hle)
    rw [EReal.coe_nonneg, sub_nonneg]
    exact (le_iff_real hlb hub).1 hle

/-- The width rounded up is the least number that is not below the width, so it grows with the
interval. -/
theorem size_diam_mono (h : a.isSubset b = true) : size a.diam ≤ size b.diam := by
  by_cases ha : a.isEmpty = true
  · rw [diam_of_isEmpty ha]
    exact size_diam_nonneg b
  rcases diam_shape b with hb | hb | ⟨hle, fbl, fbu⟩
  · exact absurd (isEmpty_of_isSubset h hb) ha
  · rw [hb]
    exact le_top
  rw [Bool.not_eq_true] at ha
  obtain ⟨hlb, hub⟩ := (isSubset_iff.1 h).resolve_left (of_decide_eq_false ha)
  have hale := le_of_not_lt (le_iff.1 hub).1 (le_iff.1 hlb).2.1 (of_decide_eq_false ha)
  have fal := isFinite_of_between fbl fbu hlb (Binary64.le_trans hale hub)
  have fau := isFinite_of_between fbl fbu (Binary64.le_trans hlb hale) hub
  have hwidth := width_le_diam fbl fbu hle
  rw [size_diam, size_diam]
  rcases isFinite_or_eq_inf (isNaN_diam b) with fd | hinf | hneg
  · rw [value_of_isFinite fd, EReal.coe_le_coe_iff] at hwidth
    rw [diam, ha, isUnbounded_of_isFinite fal fau]
    rw [le_iff_real fbl fal] at hlb
    rw [le_iff_real fau fbu] at hub
    rw [le_iff_real fal fau] at hale
    refine addUp_le fau (by rwa [isFinite_neg_eq]) fd ?_ ?_ <;> rw [real_neg] <;> linarith
  · rw [hinf]
    exact le_top
  · rw [hneg] at hwidth
    exact absurd hwidth (not_le.2 (EReal.bot_lt_coe _))

end Interval

/-! ### Tubes -/

namespace Tube

variable {c d : Tube Interval} {i n : ℕ} {u v : Float}

/-- The same increasing breakpoints, and every codomain a part. -/
structure Inside (c d : Tube Interval) : Prop where
  ordered : d.Ordered
  times : c.times = d.times
  sliceCount : c.sliceCount = d.sliceCount
  codomain : ∀ i < d.sliceCount, (c.codomain i).isSubset (d.codomain i) = true

/-- What a slice adds to the volume. -/
def sliceVolume (c : Tube Interval) (i : ℕ) : Float :=
  (c.time (i + 1) - c.time i) * (c.codomain i).diam

theorem addVolume_of_isEmpty (h : (c.codomain i).isEmpty = true) :
    c.addVolume (n + 1) i v = c.addVolume n (i + 1) v :=
  if_pos h

theorem addVolume_of_isUnbounded (h : (c.codomain i).isUnbounded = true) :
    c.addVolume (n + 1) i v = maxFinite := by
  have hne : ¬(c.codomain i).isEmpty = true := by
    rw [Interval.isUnbounded, Bool.and_eq_true, Bool.not_eq_true'] at h
    exact Bool.eq_false_iff.1 h.1
  exact (if_neg hne).trans (if_pos h)

theorem addVolume_of_isBounded (h : (c.codomain i).isBounded = true) :
    c.addVolume (n + 1) i v = c.addVolume n (i + 1) (v + c.sliceVolume i) := by
  rw [Interval.isBounded, Bool.and_eq_true, Bool.not_eq_true', Bool.not_eq_true'] at h
  exact (if_neg (Bool.eq_false_iff.1 h.1)).trans (if_neg (Bool.eq_false_iff.1 h.2))

/-- A slice is empty, unbounded or bounded. -/
theorem codomain_cases (c : Tube Interval) (i : ℕ) : (c.codomain i).isEmpty = true ∨
    (c.codomain i).isUnbounded = true ∨ (c.codomain i).isBounded = true := by
  cases hempty : (c.codomain i).isEmpty with
  | true => exact Or.inl rfl
  | false =>
    cases hunbounded : (c.codomain i).isUnbounded with
    | true => exact Or.inr (Or.inl rfl)
    | false =>
      refine Or.inr (Or.inr ?_)
      rw [Interval.isBounded, hempty, hunbounded]
      rfl

theorem size_addVolume_le (c : Tube Interval) (n i : ℕ) (v : Float) :
    size (c.addVolume n i v) ≤ value maxFinite := by
  induction n generalizing i v with
  | zero =>
    rw [addVolume, size_min_maxFinite]
    exact min_le_right ..
  | succ n ih =>
    rcases c.codomain_cases i with h | h | h
    · rw [addVolume_of_isEmpty h]
      exact ih _ _
    · rw [addVolume_of_isUnbounded h, size_eq_value rfl]
    · rw [addVolume_of_isBounded h]
      exact ih _ _

theorem size_sliceVolume_nonneg (h : c.time i < c.time (i + 1)) : 0 ≤ size (c.sliceVolume i) := by
  unfold sliceVolume
  exact size_mul_nonneg (zero_lt_sub_of_lt h) (Interval.size_diam_nonneg _)

theorem Inside.time_eq (h : c.Inside d) (k : ℕ) : c.time k = d.time k := by
  rw [time, time, h.times]

theorem Inside.time_lt (h : c.Inside d) (hi : i < d.sliceCount) : c.time i < c.time (i + 1) := by
  rw [h.time_eq, h.time_eq]
  exact h.ordered.time_lt_time (Nat.lt_succ_self i) hi

theorem Inside.size_sliceVolume_le (h : c.Inside d) (hi : i < d.sliceCount) :
    size (c.sliceVolume i) ≤ size (d.sliceVolume i) := by
  have hlt := h.time_lt hi
  unfold sliceVolume
  rw [← h.time_eq, ← h.time_eq]
  exact size_mul_mono (zero_lt_sub_of_lt hlt) (Interval.size_diam_nonneg _)
    (Interval.size_diam_mono (h.codomain i hi))

/-- A sum from a greater size over wider slices is not less, whichever of them are left out or end
it. -/
theorem Inside.size_addVolume_mono (h : c.Inside d) (hn : i + n ≤ d.sliceCount) (hu : 0 ≤ size u)
    (huv : size u ≤ size v) : size (c.addVolume n i u) ≤ size (d.addVolume n i v) := by
  induction n generalizing i u v with
  | zero =>
    rw [addVolume, addVolume, size_min_maxFinite, size_min_maxFinite]
    exact min_le_min_right _ huv
  | succ n ih =>
    have hi : i < d.sliceCount := by omega
    have hnext : i + 1 + n ≤ d.sliceCount := by omega
    have hsub := h.codomain i hi
    have hc0 := size_sliceVolume_nonneg (h.time_lt hi)
    have hd0 := hc0.trans (h.size_sliceVolume_le hi)
    rcases d.codomain_cases i with hd | hd | hd
    · rw [addVolume_of_isEmpty hd, addVolume_of_isEmpty (Interval.isEmpty_of_isSubset hsub hd)]
      exact ih hnext hu huv
    · rw [addVolume_of_isUnbounded hd, size_eq_value (x := maxFinite) rfl]
      exact c.size_addVolume_le ..
    rw [addVolume_of_isBounded hd]
    cases hc : (c.codomain i).isEmpty with
    | true =>
      rw [addVolume_of_isEmpty hc]
      exact ih hnext hu (huv.trans (le_size_add (hu.trans huv) hd0))
    | false =>
      rw [addVolume_of_isBounded (Interval.isBounded_of_isSubset hsub hc hd)]
      exact ih hnext (hu.trans (le_size_add hu hc0))
        (size_add_mono hu huv hc0 (h.size_sliceVolume_le hi))

theorem isNaN_volume (c : Tube Interval) : c.volume.isNaN = false := by
  by_contra hnan
  have hle : size c.volume ≤ value maxFinite := c.size_addVolume_le ..
  rw [size_of_isNaN (by simpa using hnan)] at hle
  exact EReal.coe_ne_top _ (top_le_iff.1 hle)

theorem Inside.size_volume_mono (h : c.Inside d) : size c.volume ≤ size d.volume := by
  rw [volume, volume, h.sliceCount]
  exact h.size_addVolume_mono (Nat.zero_add _).le size_zero.ge le_rfl

theorem Inside.size_addVolume_nonneg (h : c.Inside d) (hn : i + n ≤ d.sliceCount)
    (hu : 0 ≤ size u) : 0 ≤ size (c.addVolume n i u) := by
  have hmax : 0 ≤ value maxFinite := by
    rw [value_of_isFinite isFinite_maxFinite, real_maxFinite, EReal.coe_nonneg]
    linarith [topPlace_pos]
  induction n generalizing i u with
  | zero =>
    rw [addVolume, size_min_maxFinite]
    exact le_min hu hmax
  | succ n ih =>
    have hi : i < d.sliceCount := by omega
    have hnext : i + 1 + n ≤ d.sliceCount := by omega
    rcases c.codomain_cases i with hc | hc | hc
    · rw [addVolume_of_isEmpty hc]
      exact ih hnext hu
    · rw [addVolume_of_isUnbounded hc, size_eq_value rfl]
      exact hmax
    · rw [addVolume_of_isBounded hc]
      exact ih hnext (hu.trans (le_size_add hu (size_sliceVolume_nonneg (h.time_lt hi))))

theorem Inside.size_volume_nonneg (h : c.Inside d) : 0 ≤ size c.volume := by
  rw [volume, h.sliceCount]
  exact h.size_addVolume_nonneg (Nat.zero_add _).le size_zero.ge

end Tube

/-! ### Vectors -/

namespace TubeVector

variable {a b x y : TubeVector Interval} {cs ds : List (Tube Interval)} {u v : Float}

/-- Component by component inside, over the same breakpoints. -/
def Inside (a b : TubeVector Interval) : Prop :=
  List.Forall₂ Tube.Inside a.components b.components

theorem size_addVolume_le (v : Float) (cs : List (Tube Interval)) :
    size (addVolume v cs) ≤ value maxFinite := by
  induction cs generalizing v with
  | nil =>
    rw [addVolume, size_min_maxFinite]
    exact min_le_right ..
  | cons c cs ih =>
    rw [addVolume]
    split_ifs
    · rw [size_eq_value rfl]
    · exact ih _

theorem size_addVolume_mono (h : List.Forall₂ Tube.Inside cs ds) (hu : 0 ≤ size u)
    (huv : size u ≤ size v) : size (addVolume u cs) ≤ size (addVolume v ds) := by
  induction h generalizing u v with
  | nil =>
    rw [addVolume, addVolume, size_min_maxFinite, size_min_maxFinite]
    exact min_le_min_right _ huv
  | @cons c d cs ds hcd _ ih =>
    have hvolume := hcd.size_volume_mono
    have hc0 := hcd.size_volume_nonneg
    rw [addVolume, addVolume]
    split_ifs with hc hd hd
    · exact le_rfl
    · -- at the largest number both sums have ended
      refine absurd (le_iff.2 ⟨rfl, d.isNaN_volume, (le_iff.1 hc).2.2.trans ?_⟩) hd
      rwa [size_eq_value c.isNaN_volume, size_eq_value d.isNaN_volume] at hvolume
    · rw [size_eq_value (x := maxFinite) rfl]
      exact size_addVolume_le ..
    · exact ih (hu.trans (le_size_add hu hc0)) (size_add_mono hu huv hc0 hvolume)

theorem size_volume (x : TubeVector Interval) : size x.volume = value x.volume :=
  size_eq_value x.isNaN_volume

theorem volume_le_maxFinite (x : TubeVector Interval) : x.volume ≤ maxFinite := by
  refine le_iff.2 ⟨x.isNaN_volume, rfl, ?_⟩
  rw [← size_volume]
  exact size_addVolume_le ..

theorem Inside.volume_le (h : a.Inside b) : a.volume ≤ b.volume := by
  refine le_iff.2 ⟨a.isNaN_volume, b.isNaN_volume, ?_⟩
  rw [← size_volume, ← size_volume]
  exact size_addVolume_mono h size_zero.ge le_rfl

end TubeVector

/-! ### Contractions -/

namespace Tube

variable {x y z : Tube Interval}

/-- Breakpoints may have been added; if none was, every part is a part of the one before. -/
structure NarrowsOrCuts (y x : Tube Interval) : Prop where
  measured : y.Measured
  sliceCount : x.sliceCount ≤ y.sliceCount
  kept : y.sliceCount = x.sliceCount → y.Narrows x ∧ y.times = x.times

theorem NarrowsOrCuts.trans (hzy : z.NarrowsOrCuts y) (hyx : y.NarrowsOrCuts x) :
    z.NarrowsOrCuts x where
  measured := hzy.measured
  sliceCount := hyx.sliceCount.trans hzy.sliceCount
  kept h := by
    have hy : y.sliceCount = x.sliceCount :=
      le_antisymm (hzy.sliceCount.trans_eq h) hyx.sliceCount
    obtain ⟨hnarrows, htimes⟩ := hzy.kept (h.trans hy.symm)
    obtain ⟨hnarrows', htimes'⟩ := hyx.kept hy
    exact ⟨hnarrows.trans hnarrows', htimes.trans htimes'⟩

theorem Measured.narrowsOrCuts (h : x.Measured) (hn : y.Narrows x) (hs : y.SameShape x) :
    y.NarrowsOrCuts x :=
  ⟨(h.tightens_of_narrows hn hs).measured, hs.codomains.ge, fun _ => ⟨hn, hs.times⟩⟩

/-- A further breakpoint cuts a slice in two. -/
theorem Measured.narrowsOrCuts_sample (h : x.Measured) (t : Float) :
    (x.sample t).1.NarrowsOrCuts x := by
  have hmeasured := h.sample t
  rcases sample_eq h.toOrdered t with ⟨heq, -⟩ | ⟨i, hi, -, -, -, heq⟩
  · rw [heq]
    exact h.narrowsOrCuts h.numeric.narrows (.refl x)
  · rw [heq] at hmeasured ⊢
    have hcount : (x.splitSlice i t (x.codomain i)).sliceCount = x.sliceCount + 1 :=
      sliceCount_splitSlice hi
    exact ⟨hmeasured, by omega, fun hkept => by omega⟩

theorem sliceRelation_narrowsOrCuts :
    SliceRelation fun y x : Tube Interval => x.Measured → y.NarrowsOrCuts x where
  refl x hx := hx.narrowsOrCuts hx.numeric.narrows (.refl x)
  trans hzy hyx hx := (hzy (hyx hx).measured).trans (hyx hx)
  derivative x i v hx := hx.narrowsOrCuts (hx.numeric.reports_derivative i v).narrows
    (sliceRelation_sameShape.derivative x i v)
  integration forward i x codomain exit hx := hx.narrowsOrCuts
    (hx.numeric.reports_integration forward i codomain exit).narrows
    (sliceRelation_sameShape.integration forward i x codomain exit)
  picard forward i x codomain exit hx := hx.narrowsOrCuts
    (hx.numeric.narrows_picard forward i codomain exit)
    (sliceRelation_sameShape.picard forward i x codomain exit)

/-- Over the same breakpoints nothing was cut. -/
theorem NarrowsOrCuts.inside (h : y.NarrowsOrCuts x) (hx : x.Ordered)
    (htimes : y.times = x.times) : y.Inside x := by
  have hcount : y.sliceCount = x.sliceCount := by
    have hy : y.times.size = y.sliceCount + 1 := h.measured.times
    have hx : x.times.size = x.sliceCount + 1 := hx.times
    rw [htimes] at hy
    omega
  exact ⟨hx, htimes, hcount, fun i _ => ((h.kept hcount).1.codomain i).isSubset⟩

end Tube

namespace TubeVector

variable {x y : TubeVector Interval}

open SliceRelation (Holds)

theorem inside_of_parts (h : y.dimension = x.dimension)
    (hpart : ∀ j < x.dimension, (y.component j).Inside (x.component j)) : y.Inside x := by
  refine List.forall₂_iff_get.2 ⟨h, fun j hj hj' => ?_⟩
  have hinside := hpart j hj'
  rwa [component, component, List.getD_eq_getElem _ _ hj, List.getD_eq_getElem _ _ hj'] at hinside

/-- Contractions that keep the breakpoints lead inside. -/
theorem inside_of_holds (hx : x.Ordered) (hnumeric : x.Numeric)
    (h : Holds (fun y x : Tube Interval => x.Measured → y.NarrowsOrCuts x) y x)
    (htimes : y.SameTimes x) : y.Inside x := by
  refine inside_of_parts h.length_eq fun j hj => ?_
  have hordered := hx.components _ (component_mem hj)
  have hmeasured : (x.component j).Measured := ⟨hordered, hnumeric _ (component_mem hj)⟩
  exact Tube.NarrowsOrCuts.inside (component_of_forall₂ h hj hmeasured) hordered (htimes j hj)

/-- A vector has no more volume than one in whose codomains its own lie, over the same breakpoints,
and no volume is above the largest number. So a contraction that keeps the breakpoints does not
make the volume greater; only a Picard step that need not keep the slices may add some. -/
theorem volume_mono :
    (∀ a b : TubeVector Interval, a.Ordered → b.Ordered → a.dimension = b.dimension →
      a.times = b.times →
      (∀ j < b.dimension, ∀ i < b.sliceCount,
        ((a.component j).codomain i).isSubset ((b.component j).codomain i) = true) →
      a.volume ≤ b.volume ∧ b.volume ≤ maxFinite) ∧
    ∀ x : TubeVector Interval, x.Ordered → x.Numeric → ∀ f : Dynamics Interval,
      (∀ (c : OdeContractor) t0 incremental peeling y,
        c.contract f t0 incremental peeling x = .ok y → y.volume ≤ x.volume) ∧
      ∀ (p : Picard) fuel t0 incremental peeling y,
        OdeContractor.boundThenDerive p fuel f t0 incremental peeling x = .ok y →
        y.SameTimes x → y.volume ≤ x.volume := by
  constructor
  · intro a b ha hb hdim htimes hsub
    refine ⟨Inside.volume_le (inside_of_parts hdim fun j hj => ?_), b.volume_le_maxFinite⟩
    have hac := component_mem (hdim ▸ hj : j < a.dimension)
    have hbc := component_mem hj
    have hshared : (a.component j).times = (b.component j).times :=
      (ha.shared _ hac).trans (htimes.trans (hb.shared _ hbc).symm)
    refine ⟨hb.components _ hbc, hshared, ?_, fun i hi => hsub j hj i ?_⟩
    · exact Tube.sliceCount_eq_of_times (ha.components _ hac).toFits (hb.components _ hbc).toFits
        hshared
    · rwa [hb.sliceCount_eq hbc] at hi
  · intro x hx hnumeric f
    have hwrites := Tube.sliceRelation_narrowsOrCuts
    constructor
    · intro c t0 incremental peeling y h
      exact Inside.volume_le (inside_of_holds hx hnumeric (OdeContractor.holds_contract hwrites h)
        (SameShape.sameTimes (OdeContractor.holds_contract sliceRelation_sameShape h)))
    · intro p fuel t0 incremental peeling y h htimes
      exact Inside.volume_le (inside_of_holds hx hnumeric
        (OdeContractor.holds_boundThenDerive hwrites
          (Or.inr fun c t hc => hc.narrowsOrCuts_sample t) h) htimes)

/-- The slope zero everywhere. -/
def still : Dynamics Interval := .ofFunction ⟨[[.const .zero]], []⟩

theorem exists_contract_still : ∃ y, OdeContractor.picardDerivative.contract still 0.0 false false
    (unitSlice Interval.unit .zero) = .ok y := by
  have hrun : (OdeContractor.picardDerivative.contract still 0.0 false false
      (unitSlice Interval.unit .zero)).toOption.isSome = true := by
    decide +kernel
  cases h : OdeContractor.picardDerivative.contract still 0.0 false false
      (unitSlice Interval.unit .zero) with
  | error e =>
    rw [h] at hrun
    contradiction
  | ok y => exact ⟨y, rfl⟩

/-- Half a slice, and a slice that the slope zero takes down to a point. -/
theorem volume_mono_unitSlice :
    ((unitSlice (⟨0.0, 0.5⟩ : Interval) ⟨0.0, 0.5⟩).volume ≤
        (unitSlice Interval.unit .zero).volume ∧
      (unitSlice Interval.unit .zero).volume ≤ maxFinite) ∧
    ∃ y, OdeContractor.picardDerivative.contract still 0.0 false false
        (unitSlice Interval.unit .zero) = .ok y ∧
      y.volume ≤ (unitSlice Interval.unit .zero).volume := by
  have hhalf : (unitSlice (⟨0.0, 0.5⟩ : Interval) ⟨0.0, 0.5⟩).Ordered :=
    (wellFormed_unitSlice (by decide)).ordered
  have hx : (unitSlice Interval.unit .zero).WellFormed := wellFormed_unitSlice (by decide)
  have hnumeric : (unitSlice Interval.unit .zero).Numeric := by
    refine List.forall_mem_singleton.2 ((hx.components _ List.mem_cons_self).measured ?_).numeric
    intro i
    match i with
    | 0 => exact ⟨rfl, rfl⟩
    | i + 1 =>
      rw [Tube.codomain_of_le (Nat.le_add_left 1 i)]
      exact Interval.numeric_empty
  obtain ⟨hvolume, hcontract⟩ := volume_mono
  have hdim (c e : Interval) : (unitSlice c e).dimension = 1 := rfl
  have htimes (c e : Interval) : (unitSlice c e).times = #[0.0, 1.0] := rfl
  refine ⟨hvolume _ _ hhalf hx.ordered (by rw [hdim, hdim]) (by rw [htimes, htimes]) ?_, ?_⟩
  · intro j hj i hi
    obtain rfl : j = 0 := Nat.lt_one_iff.1 hj
    obtain rfl : i = 0 := Nat.lt_one_iff.1 hi
    decide
  · obtain ⟨y, hy⟩ := exists_contract_still
    exact ⟨y, hy, (hcontract _ hx.ordered hnumeric still).1 _ _ _ _ _ hy⟩

end TubeVector

end FlowTube
