import FlowTube.Proofs.Interval.Halves
import FlowTube.Proofs.TubeVector.Operations
import Mathlib.Algebra.BigOperators.Intervals
import Mathlib.Algebra.Order.BigOperators.Ring.Finset

/-! A Picard step ends. It cuts a slice at the midpoint if no box is found and the slice is wider
than a thousandth of the time domain. If the midpoint lies inside, both parts have a twelfth of
the slice, so they are a fraction of the domain that does not depend on the tube; there is room
for so many of them only, beside the slices that are still as they were. Between neighbouring
numbers the midpoint is an end. Nothing is cut there, and the step is at the same slice again. -/

namespace FlowTube

open Binary64 (real value leastPlace lt_iff le_iff lt_iff_real le_iff_real)
open TubeVector (openSlice wellFormed_openSlice)

variable {ι : Type}

namespace Picard

variable {p : Picard} {x y : TubeVector ι} {t : Interval} {i : ℕ}

/-! ### Parts of slices -/

/-- An interval of time may be cut, if it is wide enough. -/
def Cuts (p : Picard) (x : TubeVector ι) (t : Interval) : Prop :=
  p.preserveSlicing = false ∧ t.diam > x.domain.diam * minSliceFraction

/-- The slices, and what becomes of them by cuts at midpoints. -/
inductive Part (p : Picard) (x : TubeVector ι) : Interval → Prop
  | slice {i : ℕ} (hi : i < x.sliceCount) : Part p x (x.sliceDomain i)
  | early {t : Interval} (h : Part p x t) (hcut : p.Cuts x t) : Part p x ⟨t.lb, t.mid⟩
  | late {t : Interval} (h : Part p x t) (hcut : p.Cuts x t) : Part p x ⟨t.mid, t.ub⟩

/-- Whatever may be cut has its midpoint inside. -/
def CutsInTwo (p : Picard) (x : TubeVector ι) : Prop :=
  ∀ t, p.Part x t → p.Cuts x t → t.lb < t.mid ∧ t.mid < t.ub

/-- An interval of the time domain with an inside. -/
def Inside (x : TubeVector ι) (t : Interval) : Prop :=
  t.lb < t.ub ∧ x.domain.lb ≤ t.lb ∧ t.ub ≤ x.domain.ub

theorem Part.inside_of (h : p.Part x t) (hx : x.Ordered)
    (hp : ∀ t, p.Part x t → p.Cuts x t → Inside x t → t.lb < t.mid ∧ t.mid < t.ub) :
    Inside x t := by
  induction h with
  | @slice i hi =>
    have hfirst := hx.first
    change Inside x (x.first.sliceDomain i)
    rw [hfirst.sliceDomain_eq hi]
    refine ⟨hfirst.time_lt_time (Nat.lt_succ_self i) hi, ?_, ?_⟩
    · change x.first.domain.lb ≤ x.first.time i
      rw [hfirst.domain_eq]
      exact le_iff.2 ⟨hfirst.isNaN_time (Nat.zero_le _), hfirst.isNaN_time hi.le,
        hfirst.moment_le_moment (Nat.zero_le i) hi.le⟩
    · change x.first.time (i + 1) ≤ x.first.domain.ub
      rw [hfirst.domain_eq]
      exact le_iff.2 ⟨hfirst.isNaN_time hi, hfirst.isNaN_time le_rfl,
        hfirst.moment_le_moment hi le_rfl⟩
  | early h hcut ih =>
    obtain ⟨hlow, hup⟩ := hp _ h hcut ih
    exact ⟨hlow, ih.2.1, Binary64.le_trans (Binary64.le_of_lt hup) ih.2.2⟩
  | late h hcut ih =>
    obtain ⟨hlow, hup⟩ := hp _ h hcut ih
    exact ⟨hup, Binary64.le_trans ih.2.1 (Binary64.le_of_lt hlow), ih.2.2⟩

theorem Part.inside (h : p.Part x t) (hx : x.Ordered) (hp : p.CutsInTwo x) : Inside x t :=
  h.inside_of hx fun t h hcut _ => hp t h hcut

/-- Over a domain where midpoints are inside, whatever may be cut is cut in two. -/
theorem Divides.cutsInTwo (hdivides : p.Divides x.domain) (hx : x.Ordered) : p.CutsInTwo x := by
  have hmid : ∀ t, p.Part x t → p.Cuts x t → Inside x t → t.lb < t.mid ∧ t.mid < t.ub := by
    rintro t - ⟨hkeep, hwide⟩ ⟨hlt, hlow, hup⟩
    have hstart : x.domain.contains t.lb = true :=
      Interval.contains_iff.2 ⟨hlow, Binary64.le_trans (Binary64.le_of_lt hlt) hup⟩
    have hstop : x.domain.contains t.ub = true :=
      Interval.contains_iff.2 ⟨Binary64.le_trans hlow (Binary64.le_of_lt hlt), hup⟩
    have hinside := hdivides.resolve_left (Bool.eq_false_iff.1 hkeep) t.lb t.ub hstart hstop hlt
    rw [Interval.ofBounds_of_lt hlt] at hinside
    exact hinside hwide
  exact fun t h hcut => hmid t h hcut (h.inside_of hx hmid)

/-- How many parts of cut slices there may be. -/
def partLimit : ℕ := 13 * 1024

/-- An interval between finite numbers that takes its share of a finite time domain. -/
structure Wide (x : TubeVector ι) (t : Interval) : Prop where
  start : x.domain.lb.isFinite = true
  stop : x.domain.ub.isFinite = true
  share : real x.domain.ub - real x.domain.lb ≤ partLimit * (real t.ub - real t.lb)

theorem real_minSliceFraction : minSliceFraction.isFinite = true ∧
    1 / 1024 * (1 + 1 / 64) ≤ real minSliceFraction ∧ real minSliceFraction ≤ 1 := by
  have hlow : Float.ofBits 0x3f50400000000000 ≤ minSliceFraction := by decide
  have hup : minSliceFraction ≤ 1.0 := by decide
  have hreal : real (Float.ofBits 0x3f50400000000000) = 1 / 1024 * (1 + 1 / 64) := by
    change (((2 ^ 52 + 2 ^ 46 : ℕ) : ℤ) : ℝ) * 2 ^ (-62 : ℤ) = _
    norm_num
  have hfinite : minSliceFraction.isFinite = true := Binary64.isFinite_of_between rfl rfl hlow hup
  rw [le_iff_real rfl hfinite, hreal] at hlow
  rw [le_iff_real hfinite rfl, Binary64.real_one] at hup
  exact ⟨hfinite, hlow, hup⟩

/-- What may be cut is in a finite domain, and wider than a thousandth of it. -/
theorem Part.width_gt (h : p.Part x t) (hcut : p.Cuts x t) (hx : x.Ordered)
    (hp : p.CutsInTwo x) :
    (x.domain.lb.isFinite = true ∧ x.domain.ub.isFinite = true) ∧
      (t.lb.isFinite = true ∧ t.ub.isFinite = true) ∧
        (real x.domain.ub - real x.domain.lb) / 1024 < real t.ub - real t.lb + leastPlace := by
  obtain ⟨hlt, hlow, hup⟩ := h.inside hx hp
  have hdomain := hx.domain_lt
  rcases Interval.diam_cases hdomain with ⟨hlb, hub, hfinite, hle⟩ | hinf
  · obtain ⟨hfraction, hc, hc1⟩ := real_minSliceFraction
    have hpos := (lt_iff_real hlb hub).1 hdomain
    have hwidth : (x.domain.diam * minSliceFraction).isFinite = true := by
      have hmax := (abs_le.1 (Binary64.abs_real_le_maxFinite x.domain.diam)).2
      rw [(Binary64.roundsTo_mul hfinite hfraction).isFinite_iff, abs_of_nonneg
        (mul_nonneg (by linarith) (by linarith))]
      have := mul_le_of_le_one_right (by linarith) hc1 (a := real x.domain.diam)
      linarith [Binary64.topPlace_pos]
    have hshare := Binary64.fraction_mul_le hfinite hfraction hwidth (by linarith) (by norm_num) hc
    have hstart := Binary64.isFinite_of_between hlb hub hlow
      (Binary64.le_trans (Binary64.le_of_lt hlt) hup)
    have hstop := Binary64.isFinite_of_between hlb hub
      (Binary64.le_trans hlow (Binary64.le_of_lt hlt)) hup
    have hgt := Interval.width_gt_of_diam_gt hstart hstop hlt hwidth hcut.2
    exact ⟨⟨hlb, hub⟩, ⟨hstart, hstop⟩, by linarith⟩
  · have hnone := hcut.2
    rw [hinf] at hnone
    exact absurd (lt_iff.1 hnone).2.2 (not_lt.2 le_top)

/-- Both parts of what is cut take their share of the domain. -/
theorem Part.wide (h : p.Part x t) (hcut : p.Cuts x t) (hx : x.Ordered) (hp : p.CutsInTwo x) :
    Wide x ⟨t.lb, t.mid⟩ ∧ Wide x ⟨t.mid, t.ub⟩ := by
  obtain ⟨⟨hlb, hub⟩, ⟨hstart, hstop⟩, hwidth⟩ := h.width_gt hcut hx hp
  obtain ⟨hleft, hright⟩ := hp t h hcut
  obtain ⟨hmid, hearly, hlate⟩ := Interval.mid_apart hstart hstop hleft hright
  have hplace := Binary64.leastPlace_le_sub ((lt_iff_real hstart hmid).1 hleft)
  have hplace' := Binary64.leastPlace_le_sub ((lt_iff_real hmid hstop).1 hright)
  have hlimit : (partLimit : ℝ) = 13 * 1024 := by norm_num [partLimit]
  constructor
  · refine ⟨hlb, hub, ?_⟩
    rw [hlimit]
    linarith
  · refine ⟨hlb, hub, ?_⟩
    rw [hlimit]
    linarith

/-- A part is a slice still, or it takes its share. -/
theorem Part.slice_or_wide (h : p.Part x t) (hx : x.Ordered) (hp : p.CutsInTwo x) :
    (∃ k < x.sliceCount, t = x.sliceDomain k) ∨ Wide x t := by
  cases h with
  | slice hi => exact Or.inl ⟨_, hi, rfl⟩
  | early h hcut => exact Or.inr (h.wide hcut hx hp).1
  | late h hcut => exact Or.inr (h.wide hcut hx hp).2

/-! ### How many parts there are -/

/-- The slices of a vector are parts of the slices of another one. -/
structure Parted (p : Picard) (x y : TubeVector ι) : Prop where
  ordered : y.Ordered
  parts : ∀ i < y.sliceCount, p.Part x (y.sliceDomain i)

theorem Parted.of_sameShape {z : TubeVector ι} (h : p.Parted x y) (hz : z.SameShape y) :
    p.Parted x z ∧ z.sliceCount = y.sliceCount := by
  obtain ⟨hordered, htimes⟩ := h.ordered.of_sameShape hz
  have hcount : z.sliceCount = y.sliceCount :=
    Tube.sliceCount_eq_of_times hordered.first.toFits h.ordered.first.toFits htimes
  refine ⟨⟨hordered, fun i hi => ?_⟩, hcount⟩
  have hsame : z.sliceDomain i = y.sliceDomain i := by
    change z.first.times = y.first.times at htimes
    simp only [TubeVector.sliceDomain, Tube.sliceDomain, Tube.time, htimes]
  rw [hsame]
  exact h.parts i (hcount ▸ hi)

theorem Parted.between (h : p.Parted x y) (hx : x.Ordered) (hp : p.CutsInTwo x) {k : ℕ}
    (hk : k ≤ y.sliceCount) :
    x.domain.lb ≤ y.first.time k ∧ y.first.time k ≤ x.domain.ub := by
  have hy := h.ordered.first
  have hslice {i : ℕ} (hi : i < y.sliceCount) :=
    h.ordered.sliceDomain_eq hi ▸ (h.parts i hi).inside hx hp
  rcases Nat.eq_or_lt_of_le hk with rfl | hlt
  · have hpos : 0 < y.sliceCount := hy.sliceCount_pos
    obtain ⟨hlt, hlow, hup⟩ := hslice (Nat.sub_lt hpos Nat.one_pos)
    rw [Nat.sub_add_cancel hpos] at hlt hup
    exact ⟨Binary64.le_trans hlow (Binary64.le_of_lt hlt), hup⟩
  · obtain ⟨hlt', hlow, hup⟩ := hslice hlt
    exact ⟨hlow, Binary64.le_trans (Binary64.le_of_lt hlt') hup⟩

/-- The slices that take their share are not more than there are shares. -/
theorem Parted.card_wide_le (h : p.Parted x y) (hx : x.Ordered) (hp : p.CutsInTwo x)
    {wide : Finset ℕ} (hsub : wide ⊆ Finset.range y.sliceCount)
    (hwide : ∀ i ∈ wide, Wide x (y.sliceDomain i)) : wide.card ≤ partLimit := by
  rcases wide.eq_empty_or_nonempty with rfl | ⟨i, hi⟩
  · exact Nat.zero_le _
  have hy := h.ordered.first
  obtain ⟨hlb, hub, -⟩ := hwide i hi
  have hpos : 0 < real x.domain.ub - real x.domain.lb :=
    sub_pos.2 ((lt_iff_real hlb hub).1 hx.domain_lt)
  have hfinite {k : ℕ} (hk : k ≤ y.sliceCount) : (y.first.time k).isFinite = true :=
    Binary64.isFinite_of_between hlb hub (h.between hx hp hk).1 (h.between hx hp hk).2
  have hstep {k : ℕ} (hk : k < y.sliceCount) :
      0 ≤ real (y.first.time (k + 1)) - real (y.first.time k) :=
    sub_nonneg.2 ((lt_iff_real (hfinite hk.le) (hfinite hk)).1
      (hy.time_lt_time (Nat.lt_succ_self k) hk)).le
  have hshare : ∀ k ∈ wide, real x.domain.ub - real x.domain.lb ≤
      partLimit * (real (y.first.time (k + 1)) - real (y.first.time k)) := by
    intro k hk
    have := (hwide k hk).share
    rwa [h.ordered.sliceDomain_eq (Finset.mem_range.1 (hsub hk))] at this
  have hends : real (y.first.time y.sliceCount) - real (y.first.time 0) ≤
      real x.domain.ub - real x.domain.lb := by
    have hlast := (le_iff_real (hfinite le_rfl) hub).1 (h.between hx hp le_rfl).2
    have hfirst := (le_iff_real hlb (hfinite (Nat.zero_le _))).1 (h.between hx hp (Nat.zero_le _)).1
    linarith
  have hsum : wide.card * (real x.domain.ub - real x.domain.lb) ≤
      partLimit * (real x.domain.ub - real x.domain.lb) := by
    calc wide.card * (real x.domain.ub - real x.domain.lb)
        = ∑ _k ∈ wide, (real x.domain.ub - real x.domain.lb) := by
          rw [Finset.sum_const, nsmul_eq_mul]
      _ ≤ ∑ k ∈ wide, partLimit * (real (y.first.time (k + 1)) - real (y.first.time k)) :=
          Finset.sum_le_sum hshare
      _ ≤ ∑ k ∈ Finset.range y.sliceCount,
            partLimit * (real (y.first.time (k + 1)) - real (y.first.time k)) := by
          refine Finset.sum_le_sum_of_subset_of_nonneg hsub fun k hk _ => ?_
          exact mul_nonneg (Nat.cast_nonneg _) (hstep (Finset.mem_range.1 hk))
      _ = partLimit * (real (y.first.time y.sliceCount) - real (y.first.time 0)) := by
          rw [← Finset.mul_sum, Finset.sum_range_sub fun k => real (y.first.time k)]
      _ ≤ partLimit * (real x.domain.ub - real x.domain.lb) :=
          mul_le_mul_of_nonneg_left hends (Nat.cast_nonneg _)
  exact_mod_cast le_of_mul_le_mul_right hsum hpos

/-- Slices that are the same as before are not more than before. -/
theorem Parted.card_kept_le (h : p.Parted x y) {kept : Finset ℕ}
    (hsub : kept ⊆ Finset.range y.sliceCount)
    (hkept : ∀ i ∈ kept, ∃ k < x.sliceCount, y.sliceDomain i = x.sliceDomain k) :
    kept.card ≤ x.sliceCount := by
  classical
  have hy := h.ordered.first
  have hinj : Set.InjOn y.sliceDomain kept := by
    intro i hi j hj heq
    have hi' := Finset.mem_range.1 (hsub hi)
    have hj' := Finset.mem_range.1 (hsub hj)
    rw [h.ordered.sliceDomain_eq hi', h.ordered.sliceDomain_eq hj'] at heq
    obtain ⟨htime, -⟩ := Interval.mk.inj heq
    have hmoment : y.first.moment i = y.first.moment j := by
      rw [Tube.moment, Tube.moment, htime]
    rcases lt_trichotomy i j with hij | hij | hij
    · exact absurd hmoment (hy.moment_lt_moment hij hj'.le).ne
    · exact hij
    · exact absurd hmoment (hy.moment_lt_moment hij hi'.le).ne'
  have himage : kept.image y.sliceDomain ⊆ (Finset.range x.sliceCount).image x.sliceDomain := by
    intro a ha
    obtain ⟨i, hi, rfl⟩ := Finset.mem_image.1 ha
    obtain ⟨k, hk, heq⟩ := hkept i hi
    exact Finset.mem_image.2 ⟨k, Finset.mem_range.2 hk, heq.symm⟩
  calc kept.card = (kept.image y.sliceDomain).card := (Finset.card_image_of_injOn hinj).symm
    _ ≤ ((Finset.range x.sliceCount).image x.sliceDomain).card := Finset.card_le_card himage
    _ ≤ (Finset.range x.sliceCount).card := Finset.card_image_le
    _ = x.sliceCount := Finset.card_range _

/-- There is room for so many parts only, however the slices are cut. -/
theorem Parted.sliceCount_le (h : p.Parted x y) (hx : x.Ordered) (hp : p.CutsInTwo x) :
    y.sliceCount ≤ x.sliceCount + partLimit := by
  classical
  let same (i : ℕ) : Prop := ∃ k < x.sliceCount, y.sliceDomain i = x.sliceDomain k
  have hkept := h.card_kept_le (Finset.filter_subset same _) fun i hi => (Finset.mem_filter.1 hi).2
  have hwide := h.card_wide_le hx hp (Finset.filter_subset (¬same ·) _) fun i hi => by
    obtain ⟨hi, hcut⟩ := Finset.mem_filter.1 hi
    exact ((h.parts i (Finset.mem_range.1 hi)).slice_or_wide hx hp).resolve_left hcut
  have hall := Finset.card_filter_add_card_filter_not (s := Finset.range y.sliceCount) same
  rw [Finset.card_range] at hall
  omega

/-! ### Termination -/

section Termination

variable [Enclosure ι] {f : Dynamics ι}

/-- A slice with its midpoint inside makes room for its two parts. -/
theorem Parted.sample (h : p.Parted x y) (hi : i < y.sliceCount)
    (hcut : p.Cuts x (y.sliceDomain i)) (hp : p.CutsInTwo x) :
    p.Parted x (y.sample (y.sliceDomain i).mid).1 ∧
      (y.sample (y.sliceDomain i).mid).1.sliceCount = y.sliceCount + 1 := by
  have hy := h.ordered.first
  have hpart := h.parts i hi
  obtain ⟨hlow, hup⟩ := hp _ hpart hcut
  have hearly := hpart.early hcut
  have hlate := hpart.late hcut
  have hordered := h.ordered.sample (y.sliceDomain i).mid
  generalize hm : (y.sliceDomain i).mid = m at *
  rw [h.ordered.sliceDomain_eq hi] at hlow hup hearly hlate
  have hsplit : (y.sample m).1.first = y.first.splitSlice i m (y.first.codomain i) := by
    rw [TubeVector.first_sample h.ordered.someComponent]
    exact hy.sample_eq_splitSlice hi (lt_iff.1 hlow).2.1 (lt_iff.1 hlow).2.2 (lt_iff.1 hup).2.2
  have hcount : (y.sample m).1.sliceCount = y.sliceCount + 1 := by
    rw [TubeVector.sliceCount, hsplit]
    exact Tube.sliceCount_splitSlice hi
  refine ⟨⟨hordered, fun k hk => ?_⟩, hcount⟩
  rw [hordered.sliceDomain_eq hk, hsplit, Tube.time_splitSlice hy.toFits hi,
    Tube.time_splitSlice hy.toFits hi]
  rw [hcount] at hk
  have hpart {j : ℕ} (hj : j < y.sliceCount) :
      p.Part x ⟨y.first.time j, y.first.time (j + 1)⟩ :=
    h.ordered.sliceDomain_eq hj ▸ h.parts j hj
  rcases Nat.lt_trichotomy k i with hki | rfl | hki
  · rw [if_pos (by omega), if_pos (by omega)]
    exact hpart (by omega)
  · rw [if_pos (by omega), if_neg (by omega), if_pos rfl]
    exact hearly
  · rw [if_neg (by omega : ¬k < i + 1), if_neg (by omega : ¬k + 1 < i + 1),
      if_neg (by omega : ¬k + 1 = i + 1), Nat.add_sub_cancel]
    split_ifs with hk'
    · rw [hk']
      exact hlate
    · have hsucc : k - 1 + 1 = k := by omega
      exact hsucc ▸ hpart (j := k - 1) (by omega)

/-- Visits keep the slices parts of the slices of the first vector, so they stay few. -/
theorem visiting_parted (hx : x.Ordered) (hp : p.CutsInTwo x) (hf : f.Answers x.dimension) :
    p.Visiting f (x.domain.diam * minSliceFraction) (x.sliceCount + partLimit)
      (fun y => y.dimension = x.dimension ∧ p.Parted x y) False where
  capped h := h.2.sliceCount_le hx hp
  visit {y i} h _ forward := by
    refine (yields_contractSlice sliceRelation_sameShape p h.1 i forward).mono (fun r hr => ?_)
      fun _ hno => hno hf
    obtain ⟨hparted, hcount⟩ := h.2.of_sameShape hr
    exact ⟨⟨hr.length_eq.trans h.1, hparted⟩, hcount⟩
  cut {y i} h hi hsplit := by
    unfold splittable at hsplit
    rw [Bool.and_eq_true, Bool.not_eq_true', decide_eq_true_iff] at hsplit
    obtain ⟨hparted, hcount⟩ := h.2.sample hi hsplit hp
    exact ⟨⟨(TubeVector.dimension_sample y _).trans h.1, hparted⟩, Or.inr hcount⟩

/-- A Picard step ends, in each direction after as many visits as there are slices and a number
that does not depend on the tube, if whatever may be cut has its midpoint inside. -/
theorem contract_ends (hx : x.WellFormed) (hf : f.Answers x.dimension) (hp : p.CutsInTwo x)
    (direction : Direction) {fuel : ℕ} (hfuel : x.sliceCount + 2 * partLimit ≤ fuel) :
    ∃ y found, p.contract fuel f direction x = .ok (y, found) := by
  have hordered := hx.ordered
  have hrun := (visiting_parted hordered hp hf).contract
    ⟨rfl, hordered, fun i hi => .slice hi⟩ fuel direction
  cases hcontract : p.contract fuel f direction x with
  | ok r => exact ⟨r.1, r.2, rfl⟩
  | error e =>
    rw [hcontract] at hrun
    rcases hrun with hno | hlt
    · exact hno.elim
    · omega

theorem contract_ends_openSlice :
    let x := openSlice 0.0 1.0
    x.WellFormed ∧ Dynamics.unknown.Answers x.dimension ∧ ({} : Picard).CutsInTwo x ∧
      ∃ y found, ({} : Picard).contract 30000 .unknown .both x = .ok (y, found) := by
  intro x
  have hx : x.WellFormed := wellFormed_openSlice (by decide)
  have hdomain : x.domain = ⟨0.0, 1.0⟩ := hx.ordered.first.domain_eq
  have hp : ({} : Picard).CutsInTwo x :=
    Divides.cutsInTwo (hdomain ▸ divides_unit {}) hx.ordered
  exact ⟨hx, Dynamics.answers_unknown, hp,
    contract_ends hx Dynamics.answers_unknown hp .both (by decide)⟩

/-! ### A slice that is never passed -/

/-- Forward a slice is visited for ever, if it should be cut and has its midpoint at an end. -/
theorem forwardLoop_of_uncut {minWidth : Float} {k : ℕ} (hx : x.Ordered) (hi : i < x.sliceCount)
    (hslice : p.contractSlice f x i true = .ok (x, .failed))
    (hsplit : p.splittable x i minWidth = true) (hk : k ≤ x.sliceCount)
    (hmid : x.first.moment k = value (x.sliceDomain i).mid) (fuel : ℕ) (found : Bool) :
    p.forwardLoop f minWidth fuel i found x = .error .unfinished := by
  induction fuel with
  | zero => rw [forwardLoop, if_pos hi]
  | succ fuel ih =>
    rw [forwardLoop, if_pos hi, hslice]
    change (if p.splittable x i minWidth then _ else _) = _
    rw [hsplit, if_pos rfl, hx.sample_of_moment hk hmid]
    exact ih

/-- Between neighbouring numbers the midpoint is a breakpoint, so no number of visits is enough. -/
theorem contract_endless_between_neighbours :
    let x := openSlice 1.0 (Binary64.nextUp 1.0)
    x.WellFormed ∧ Dynamics.unknown.Answers x.dimension ∧
      ∀ fuel, ({} : Picard).contract fuel .unknown .forward x = .error .unfinished := by
  intro x
  have hslice : ({} : Picard).contractSlice .unknown x 0 true = .ok (x, .failed) := by
    have hcodomain : Box.isBounded (x.codomain 0) = false := by decide +kernel
    have hentry : Box.isBounded (x.gate (TubeVector.entryExit true 0).1) = true := by
      decide +kernel
    have hnone : ({} : Picard).enclosure .unknown x (x.sliceDomain 0)
        (x.gate (TubeVector.entryExit true 0).1) true = .ok none :=
      enclosure_eq_none rfl (by decide +kernel)
    rw [contractSlice_eq]
    dsimp only
    rw [hcodomain, hentry, hnone]
    rfl
  have hx : x.WellFormed := wellFormed_openSlice (by decide)
  have hmid : (x.sliceDomain 0).mid = x.first.time 0 := by decide +kernel
  refine ⟨hx, Dynamics.answers_unknown, fun fuel => ?_⟩
  have hloop : ({} : Picard).forwardLoop .unknown (x.domain.diam * minSliceFraction) fuel 0 false x =
      .error .unfinished :=
    forwardLoop_of_uncut hx.ordered Nat.one_pos hslice (by decide +kernel) (Nat.zero_le _)
      (congrArg value hmid.symm) fuel false
  rw [contract_eq]
  change ({} : Picard).forwardLoop .unknown _ fuel 0 false x >>= (fun r => .ok r) = _
  rw [hloop]
  rfl

end Termination

end Picard

end FlowTube
