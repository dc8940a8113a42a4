import FlowTube.Proofs.Binary64.TotalOrder
import FlowTube.Proofs.Enclosure.Exact
import FlowTube.Proofs.SliceTree.Euler
import Mathlib.MeasureTheory.Integral.IntervalIntegral.Basic

/-! Integrals of step functions from the bounds of a primitive. A slice of the primitive has the
running sum at its start, so the sum of a slice less the sum of another one is the integral from
start to start. This is all that the bounds of the primitive enclose: a query at a time inside a
slice sees the sum at the start of that slice, and the part of the slice up to the time is in no
sum. It also needs the sums to be bounded, since a sum without bounds has no ends to subtract. -/

namespace FlowTube

namespace Interval

open Binary64 (real)

variable {a b : Interval} {r : ℝ}

theorem meets_of_mem (ha : r ∈ a) (hb : r ∈ b) : a.meets b = true := by
  simp only [meets, isEmpty_of_mem ha, isEmpty_of_mem hb, Bool.not_false, Bool.true_and,
    Bool.and_eq_true, decide_eq_true_eq]
  exact ⟨ha.1.le_isUpper hb.2, hb.1.le_isUpper ha.2⟩

theorem isEmpty_of_meets (h : a.meets b = true) : b.isEmpty = false := by
  simp only [meets, Bool.and_eq_true, Bool.not_eq_true'] at h
  exact h.1.1.2

/-- A bounded interval with a real has its bounds. -/
theorem real_bounds_mem (hr : r ∈ a) (h : a.isBounded = true) :
    real a.lb ∈ a ∧ real a.ub ∈ a ∧ real a.lb ∈ a.ends.1 ∧ real a.ub ∈ a.ends.2 := by
  obtain ⟨hlb, hub⟩ := isFinite_bounds hr.1.1 hr.2.1 h
  have hle := (Binary64.le_iff_real hlb hub).1 (lb_le_ub hr)
  have hmem {q : ℝ} : q ∈ a ↔ real a.lb ≤ q ∧ q ≤ real a.ub := mem_iff_of_isFinite hlb hub
  rw [ends, if_neg (by simp [isEmpty_of_mem hr])]
  exact ⟨hmem.2 ⟨le_rfl, hle⟩, hmem.2 ⟨hle, le_rfl⟩, mem_point hlb, mem_point hub⟩

end Interval

namespace SliceTree

open Binary64 (real)

variable {ι : Type} {slices : List Interval} {w : ℕ → ℝ} {f : ℝ → ℝ} {d : ℝ} {i k : ℕ}
  {s r : Interval}

/-! ### Step functions -/

/-- Consecutive slices between finite times, each exactly `d` wide. -/
structure Even (slices : List Interval) (d : ℝ) : Prop extends Consecutive slices where
  finite : ∀ s ∈ slices, s.lb.isFinite = true ∧ s.ub.isFinite = true
  width : ∀ s ∈ slices, real s.ub - real s.lb = d

/-- The function has the value `w i` inside slice `i`. -/
def StepsOn (slices : List Interval) (w : ℕ → ℝ) (f : ℝ → ℝ) : Prop :=
  ∀ i s, slices[i]? = some s → ∀ t, real s.lb < t → t < real s.ub → f t = w i

theorem integral_of_constant {a b c : ℝ} (hab : a ≤ b) (h : ∀ t, a < t → t < b → f t = c) :
    IntervalIntegrable f MeasureTheory.volume a b ∧ ∫ t in a..b, f t = c * (b - a) := by
  have hf : Set.EqOn (fun _ => c) f (Set.Ioo a b) := fun t ht => (h t ht.1 ht.2).symm
  refine ⟨intervalIntegrable_const.congr_uIoo ((Set.uIoo_of_le hab).symm ▸ hf), ?_⟩
  rw [← intervalIntegral.integral_congr_Ioo_of_le hab hf, intervalIntegral.integral_const,
    smul_eq_mul, mul_comm]

theorem Even.real_lb_le (h : Even slices d) (hs : s ∈ slices) : real s.lb ≤ real s.ub := by
  obtain ⟨t, ht⟩ := h.nonempty s hs
  obtain ⟨hlb, hub⟩ := h.finite s hs
  exact (Binary64.le_iff_real hlb hub).1 (Interval.lb_le_ub ht)

theorem Even.real_ub_eq (h : Even slices d) (hs : slices[k]? = some s)
    (hr : slices[k + 1]? = some r) : real s.ub = real r.lb := by
  obtain ⟨hk, rfl⟩ := List.getElem?_eq_some_iff.1 hr
  obtain ⟨hk', rfl⟩ := List.getElem?_eq_some_iff.1 hs
  have htouch := List.isChain_iff_getElem.1 h.touching k hk
  exact (Binary64.beq_iff_real (h.finite _ (List.getElem_mem hk')).2
    (h.finite _ (List.getElem_mem hk)).1).1 htouch

theorem Even.time_mem (h : Even slices d) (hs : slices[i]? = some s) {t : Float}
    (ht : s.contains t = true) : t.isFinite = true ∧ real t ∈ s := by
  obtain ⟨hlb, hub⟩ := h.finite s (List.mem_of_getElem? hs)
  obtain ⟨hlow, hup⟩ : s.lb ≤ t ∧ t ≤ s.ub := Interval.contains_iff.1 ht
  have hfin := Binary64.isFinite_of_between hlb hub hlow hup
  refine ⟨hfin, (Interval.mem_iff_of_isFinite hlb hub).2 ⟨?_, ?_⟩⟩
  · exact (Binary64.le_iff_real hlb hfin).1 hlow
  · exact (Binary64.le_iff_real hfin hub).1 hup

/-- A part of one slice from its start on. -/
theorem StepsOn.integral_from_start (hf : StepsOn slices w f)
    (hs : slices[i]? = some s) {t : ℝ} (hlow : real s.lb ≤ t) (hup : t ≤ real s.ub) :
    IntervalIntegrable f MeasureTheory.volume (real s.lb) t ∧
      ∫ u in real s.lb..t, f u = w i * (t - real s.lb) :=
  integral_of_constant hlow fun u hlt hgt => hf i s hs u hlt (hgt.trans_le hup)

/-- From the start of one slice to that of another. -/
theorem Even.integral_starts (h : Even slices d) (hf : StepsOn slices w f)
    (hs : slices[i]? = some s) (hr : slices[k]? = some r) (hik : i ≤ k) :
    IntervalIntegrable f MeasureTheory.volume (real s.lb) (real r.lb) ∧
      ∫ u in real s.lb..real r.lb, f u = (∑ j ∈ Finset.Ico i k, w j) * d := by
  induction k, hik using Nat.le_induction generalizing r with
  | base =>
    obtain rfl : s = r := Option.some.inj (hs.symm.trans hr)
    simp
  | succ k hik ih =>
    obtain ⟨hk, -⟩ := List.getElem?_eq_some_iff.1 hr
    have hq : slices[k]? = some slices[k] := List.getElem?_eq_getElem (by omega)
    have hmem := List.mem_of_getElem? hq
    obtain ⟨hleft, hsum⟩ := ih hq
    obtain ⟨hlast, hpart⟩ := hf.integral_from_start hq (h.real_lb_le hmem) le_rfl
    rw [h.width _ hmem, h.real_ub_eq hq hr] at hpart
    rw [h.real_ub_eq hq hr] at hlast
    refine ⟨hleft.trans hlast, ?_⟩
    rw [← intervalIntegral.integral_add_adjacent_intervals hleft hlast, hsum, hpart,
      Finset.sum_Ico_succ_top hik, add_mul]

/-- From a time in one slice to a time in another: the part of the first slice before it is missing,
and a part of the last one is there. -/
theorem Even.integral_between (h : Even slices d) (hf : StepsOn slices w f)
    (hs : slices[i]? = some s) (hr : slices[k]? = some r) (hik : i ≤ k) {t u : ℝ} (ht : t ∈ s)
    (hu : u ∈ r) : (∫ v in t..u, f v) + w i * (t - real s.lb) - w k * (u - real r.lb) =
      (∑ j ∈ Finset.Ico i k, w j) * d := by
  obtain ⟨hslb, hsub⟩ := h.finite s (List.mem_of_getElem? hs)
  obtain ⟨hrlb, hrub⟩ := h.finite r (List.mem_of_getElem? hr)
  obtain ⟨htlow, htup⟩ := (Interval.mem_iff_of_isFinite hslb hsub).1 ht
  obtain ⟨hulow, huup⟩ := (Interval.mem_iff_of_isFinite hrlb hrub).1 hu
  obtain ⟨hfirst, hbefore⟩ := hf.integral_from_start hs htlow htup
  obtain ⟨hlast, hafter⟩ := hf.integral_from_start hr hulow huup
  obtain ⟨hstarts, hsum⟩ := h.integral_starts hf hs hr hik
  rw [← intervalIntegral.integral_interval_sub_left (hstarts.trans hlast) hfirst,
    ← intervalIntegral.integral_add_adjacent_intervals hstarts hlast, hbefore, hafter, hsum]
  ring

/-! ### Running sums -/

section Sums

variable [Enclosure ι] {dt c : ι} {vs : List ι} {b : ι}

theorem getElem?_runningSums_succ (h : (runningSums dt c vs)[k + 1]? = some b) :
    ∃ a v, (runningSums dt c vs)[k]? = some a ∧ vs[k]? = some v ∧ b = a + v * dt := by
  induction vs generalizing c k with
  | nil => cases h
  | cons v vs ih =>
    cases k with
    | zero =>
      cases vs with
      | nil => cases h
      | cons v' vs => exact ⟨c, v, rfl, rfl, (Option.some.inj h).symm⟩
    | succ k => exact ih h

theorem getElem?_runningSums_zero {v : ι} (h : (runningSums dt c vs)[i]? = some v) :
    (runningSums dt c vs)[0]? = some c := by
  cases vs with
  | nil => cases h
  | cons => rfl

variable [Membership ℝ ι] [Enclosure.Sound ι] {a : ι} {q : ℝ}

theorem mem_runningSums (hd : d ∈ dt) (hw : Box.Holds vs w) (hik : i ≤ k)
    (ha : (runningSums dt c vs)[i]? = some a) (hb : (runningSums dt c vs)[k]? = some b)
    (hq : q ∈ a) : q + (∑ j ∈ Finset.Ico i k, w j) * d ∈ b := by
  induction k, hik using Nat.le_induction generalizing b with
  | base =>
    obtain rfl : a = b := Option.some.inj (ha.symm.trans hb)
    simpa using hq
  | succ k hik ih =>
    obtain ⟨b', v, hb', hv, rfl⟩ := getElem?_runningSums_succ hb
    rw [Finset.sum_Ico_succ_top hik, add_mul, ← add_assoc]
    exact Enclosure.Sound.mem_add (ih hb') (Enclosure.Sound.mem_mul (hw k v hv) hd)

end Sums

/-! ### Bounds over an interval of time -/

section Bounds

variable [Enclosure ι] [Membership ℝ ι] [Enclosure.Lawful ι] {x : SliceTree ι} {tdom : Interval}
  {slice : Interval × ι} {p q : ℝ}

/-- Both are in the bounds. -/
def Within (p q : ℝ) (bounds : ι × ι) : Prop := p ∈ bounds.1 ∧ q ∈ bounds.2

theorem within_bounds (hc : x.Coherent) (hslice : slice ∈ x.flat)
    (h : Within p q (Enclosure.ends slice.2)) : Within p q x.bounds := by
  induction x with
  | leaf l =>
    obtain rfl := List.mem_singleton.1 hslice
    change Within p q l.bounds
    rw [show l.bounds = Enclosure.ends l.value from hc]
    exact h
  | node l past future hp hf =>
    obtain ⟨hpast, hfuture, -, hbounds⟩ := hc
    change Within p q l.bounds
    rw [hbounds]
    rw [flat_node, List.mem_append] at hslice
    rcases hslice with hslice | hslice
    · exact ⟨Enclosure.Lawful.mem_union_left (hp hpast hslice).1,
        Enclosure.Lawful.mem_union_left (hp hpast hslice).2⟩
    · exact ⟨Enclosure.Lawful.mem_union_right (hf hfuture hslice).1,
        Enclosure.Lawful.mem_union_right (hf hfuture hslice).2⟩

/-- The bounds over an interval of time have those of every slice that meets it. -/
theorem within_boundsOver (hs : x.Spans) (hc : x.Coherent) (hslice : slice ∈ x.flat)
    (hmeets : slice.1.meets tdom = true) (h : Within p q (Enclosure.ends slice.2)) :
    Within p q (boundsOver tdom x) := by
  have hall := within_bounds hc hslice h
  have hdomain := hs.meets_of_mem hslice hmeets
  have hne := Interval.isEmpty_of_meets hmeets
  induction x with
  | leaf l =>
    have hl : l.domain.meets tdom = true := hdomain
    have hq : boundsOver tdom (leaf l) = l.bounds := by simp [boundsOver, hl, hne]
    rwa [hq]
  | node l past future hp hf =>
    have hl : l.domain.meets tdom = true := hdomain
    by_cases hjoin : (tdom == Interval.whole) = false ∧ l.domain.isSubset tdom = false
    · have hq : boundsOver tdom (node l past future) =
          joinBounds (boundsOver tdom past) (boundsOver tdom future) := by
        simp [boundsOver, hjoin.1, hjoin.2, hl, hne]
      rw [hq]
      rw [flat_node, List.mem_append] at hslice
      rcases hslice with hslice | hslice
      · have hpart := hp hs.1 hc.1 hslice (within_bounds hc.1 hslice h)
          (hs.1.meets_of_mem hslice hmeets)
        exact ⟨Enclosure.Lawful.mem_union_left hpart.1, Enclosure.Lawful.mem_union_left hpart.2⟩
      · have hpart := hf hs.2.1 hc.2.1 hslice (within_bounds hc.2.1 hslice h)
          (hs.2.1.meets_of_mem hslice hmeets)
        exact ⟨Enclosure.Lawful.mem_union_right hpart.1, Enclosure.Lawful.mem_union_right hpart.2⟩
    · have hq : boundsOver tdom (node l past future) = l.bounds := by
        simp only [boundsOver, hl, hne]
        simp_all
      rwa [hq]

end Bounds

/-! ### Integrals -/

section Primitive

variable [Enclosure ι] {x : SliceTree ι} {value initial : ι}

theorem values_primitive : (x.primitive initial).values =
    runningSums (Enclosure.point x.dt) initial x.values := by
  refine values_withValues ?_
  rw [runningSums_eq, List.length_dropLast, List.length_scanl, Nat.add_sub_cancel]

/-- A slice of a tree over given slices, with its value. -/
theorem mem_flat_of_frame (hslices : Consecutive slices) (hne : slices ≠ [])
    (hframe : x.frame = (build slices value).frame) {a : ι} (hs : slices[i]? = some s)
    (ha : x.values[i]? = some a) : (s, a) ∈ x.flat := by
  have hdomains : x.flat.map (·.1) = slices := by
    rw [← flat_frame, hframe, flat_frame, (build_spec value hslices hne).2.1, map_fst_constant]
  rw [values_eq_flat] at ha
  rw [← hdomains] at hs
  rw [List.getElem?_map, Option.map_eq_some_iff] at hs ha
  obtain ⟨slice, hslice, rfl⟩ := hs
  obtain ⟨slice', hslice', rfl⟩ := ha
  obtain rfl : slice = slice' := Option.some.inj (hslice.symm.trans hslice')
  exact List.mem_of_getElem? hslice

end Primitive

section Enclosed

variable {o : Operators} {t1 t2 : Float}

/-- Differences of bounds of two slices are enclosed, and all between them. -/
theorem mem_integral (ho : o.Sound) {p : SliceTree (Rounded o)} {a b : Rounded o} {q u v : ℝ}
    (hspans : p.Spans) (hcoherent : p.Coherent) (hs : (s, a) ∈ p.flat) (hr : (r, b) ∈ p.flat)
    (ht1 : real t1 ∈ s) (hfin1 : t1.isFinite = true) (ht2 : real t2 ∈ r)
    (hfin2 : t2.isFinite = true) (hu : u ∈ a) (hv : v ∈ b) (hab : Interval.isBounded a = true)
    (hbb : Interval.isBounded b = true) (hlow : real (Interval.lb b) - real (Interval.lb a) ≤ q)
    (hup : q ≤ real (Interval.ub b) - real (Interval.ub a)) :
    q ∈ integral p (.point t1) (.point t2) := by
  have := Rounded.sound ho
  obtain ⟨-, -, halb, haub⟩ := Interval.real_bounds_mem hu hab
  obtain ⟨-, -, hblb, hbub⟩ := Interval.real_bounds_mem hv hbb
  have hfirst : Within (real (Interval.lb a)) (real (Interval.ub a)) (Enclosure.ends a) :=
    ⟨halb, haub⟩
  have hlast : Within (real (Interval.lb b)) (real (Interval.ub b)) (Enclosure.ends b) :=
    ⟨hblb, hbub⟩
  obtain ⟨hstart, hstart'⟩ := within_boundsOver hspans hcoherent hs
    (Interval.meets_of_mem ht1 (Interval.mem_point hfin1)) hfirst
  obtain ⟨hstop, hstop'⟩ := within_boundsOver hspans hcoherent hr
    (Interval.meets_of_mem ht2 (Interval.mem_point hfin2)) hlast
  have hlower := ho.sub hstop hstart
  have hupper := ho.sub hstop' hstart'
  refine Interval.mem_ofBounds.2 ⟨⟨hlower.1.1, ?_⟩, hupper.2.mono hup⟩
  exact hlower.1.2.trans (EReal.coe_le_coe_iff.2 hlow)

/-- What the bounds of a primitive enclose is the integral from the start of a slice with the first
time to the start of a slice with the second one. -/
theorem integral_encloses_starts (ho : o.Sound) {x : SliceTree (Rounded o)}
    {value initial : Rounded o} {c : ℝ} (hslices : Even slices (real x.dt))
    (hne : slices ≠ []) (hframe : x.frame = (build slices value).frame)
    (hdt : x.dt.isFinite = true) (hw : Box.Holds x.values w) (hf : StepsOn slices w f)
    (hinitial : c ∈ initial) (hs : slices[i]? = some s) (hr : slices[k]? = some r) (hik : i ≤ k)
    (ht1 : s.contains t1 = true) (ht2 : r.contains t2 = true) {a b : Rounded o}
    (ha : (x.primitive initial).values[i]? = some a) (hab : Enclosure.isBounded a = true)
    (hb : (x.primitive initial).values[k]? = some b) (hbb : Enclosure.isBounded b = true) :
    (∫ t in real t1..real t2, f t) + w i * (real t1 - real s.lb) - w k * (real t2 - real r.lb) ∈
      integral (x.primitive initial) (.point t1) (.point t2) := by
  have := Rounded.sound ho
  have hpframe : (x.primitive initial).frame = (build slices value).frame :=
    (frame_withValues x _).trans hframe
  have hspans : (x.primitive initial).Spans := by
    rw [← spans_frame, hpframe, spans_frame]
    exact (build_spec value hslices.toConsecutive hne).1
  have hcoherent : (x.primitive initial).Coherent := coherent_update _
  have hsa := mem_flat_of_frame hslices.toConsecutive hne hpframe hs ha
  have hrb := mem_flat_of_frame hslices.toConsecutive hne hpframe hr hb
  obtain ⟨hfin1, hs1⟩ := hslices.time_mem hs ht1
  obtain ⟨hfin2, hr2⟩ := hslices.time_mem hr ht2
  rw [values_primitive] at ha hb
  have hd : real x.dt ∈ (Enclosure.point x.dt : Rounded o) := Enclosure.Lawful.mem_point hdt
  have hu := mem_runningSums hd hw (Nat.zero_le i) (getElem?_runningSums_zero ha) ha hinitial
  have hv := mem_runningSums hd hw hik ha hb hu
  obtain ⟨halb, haub, -⟩ := Interval.real_bounds_mem hu hab
  have hlow := mem_runningSums hd hw hik ha hb halb
  have hup := mem_runningSums hd hw hik ha hb haub
  rw [hslices.integral_between hf hs hr hik hs1 hr2]
  obtain ⟨hblb, hbub⟩ := Interval.isFinite_bounds hv.1.1 hv.2.1 hbb
  refine mem_integral ho hspans hcoherent hsa hrb hs1 hfin1 hr2 hfin2 hu hv hab hbb ?_ ?_
  · have := ((Interval.mem_iff_of_isFinite hblb hbub).1 hlow).1
    linarith
  · have := ((Interval.mem_iff_of_isFinite hblb hbub).1 hup).2
    linarith

end Enclosed

/-! ### Two slices -/

section Two

open FlowTube.Interval (point)

variable [Enclosure ι] {x : SliceTree ι} {value a : ι} {t : Float}

theorem build_two : build [s, r] value =
    node (labelOf [s, r] value) (leaf (labelOf [s] value)) (leaf (labelOf [r] value)) := by
  have hone (q : Interval) : build [q] value = leaf (labelOf [q] value) := by
    rw [build, dif_pos (by simp)]
  have hhalf : half [s, r].length = 1 := by simp [half]
  rw [build, dif_neg (by simp), hhalf, List.take_succ_cons, List.take_zero, List.drop_succ_cons,
    List.drop_zero, hone, hone]

theorem exists_two (h : x.frame = (build [s, r] value).frame) : ∃ l m n,
    x = node l (leaf m) (leaf n) ∧ l.domain = .ofBounds s.lb r.ub ∧ m.domain = .ofBounds s.lb s.ub ∧
      n.domain = .ofBounds r.lb r.ub := by
  rw [build_two] at h
  cases x with
  | leaf l => cases h
  | node l past future =>
    cases past with
    | node => simp [frame] at h
    | leaf m =>
      cases future with
      | node => simp [frame] at h
      | leaf n =>
        simp only [frame, SliceLabel.frame, labelOf, node.injEq, leaf.injEq,
          SliceLabel.mk.injEq] at h
        exact ⟨l, m, n, rfl, h.1.1, h.2.1.1, h.2.2.1⟩

/-- Over a time in the first slice only. -/
theorem boundsOver_first (h : x.frame = (build [s, r] value).frame) (hc : x.Coherent)
    (ha : x.values[0]? = some a) (hwhole : (point t == Interval.whole) = false)
    (hpart : (Interval.ofBounds s.lb r.ub).isSubset (point t) = false)
    (hmeets : (Interval.ofBounds s.lb r.ub).meets (point t) = true ∧
      (Interval.ofBounds s.lb s.ub).meets (point t) = true)
    (hlast : (Interval.ofBounds r.lb r.ub).meets (point t) = false) :
    boundsOver (point t) x = joinBounds (Enclosure.ends a) (Enclosure.empty, Enclosure.empty) := by
  obtain ⟨l, m, n, rfl, hl, hm, hn⟩ := exists_two h
  obtain rfl : m.value = a := by simpa [values, leaves] using ha
  have hbounds : m.bounds = Enclosure.ends m.value := hc.1
  obtain ⟨hmeets, hfirst⟩ := hmeets
  have hne := Interval.isEmpty_of_meets hmeets
  rw [← hbounds]
  simp [boundsOver, hl, hm, hn, hne, hwhole, hmeets, hpart, hfirst, hlast]

end Two

open FlowTube.Interval (point unit mem_unit mem_point_zero mem_point_one)

theorem even_units : Even [unit, ⟨1.0, 2.0⟩] 1 where
  toConsecutive := Change.consecutive_two_slices
  finite := by
    rw [List.forall_mem_cons, List.forall_mem_singleton]
    decide +kernel
  width := by
    rw [List.forall_mem_cons, List.forall_mem_singleton]
    norm_num [unit, Binary64.real_zero, Binary64.real_one, Binary64.real_two]

/-- The integral of one half over the first unit of time. -/
theorem integral_encloses_starts_units :
    (1 / 2 : ℝ) ∈ integral (units.primitive (Enclosure.point 0.0)) (point 0.0) (point 1.0) := by
  have hdt : units.dt = 1.0 := dt_pair
  have hunits : units.values = [unit, unit] := values_pair
  have hslices : Even [unit, ⟨1.0, 2.0⟩] (real units.dt) := by
    rw [hdt, Binary64.real_one]
    exact even_units
  have hgrowth : Operators.cautious.mul unit (point 1.0) = unit :=
    Operators.cautious_mul_one (Interval.eq_of_bounds (by decide +kernel) (by decide +kernel))
  have hvalues : (units.primitive (Enclosure.point 0.0)).values = [Enclosure.point 0.0,
      Operators.cautious.add (point 0.0) (Operators.cautious.mul unit (point 1.0))] := by
    rw [values_primitive, hunits, hdt]
    rfl
  rw [hgrowth, Operators.cautious_zero_add rfl] at hvalues
  have hfirst : (units.primitive (Enclosure.point 0.0)).values[0]? = some (Enclosure.point 0.0) :=
    hvalues ▸ rfl
  have hsecond : (units.primitive (Enclosure.point 0.0)).values[1]? = some unit := hvalues ▸ rfl
  have hhalf : (1 / 2 : ℝ) ∈ unit := mem_unit.2 (by norm_num)
  have hzero : (0 : ℝ) ∈ (Enclosure.point 0.0 : Rounded .cautious) := mem_point_zero.2 rfl
  have hstart : unit.contains 0.0 = true := by decide +kernel
  have hstop : Interval.contains ⟨1.0, 2.0⟩ 1.0 = true := by decide +kernel
  have henclosed := integral_encloses_starts (w := fun _ => 1 / 2) (f := fun _ => 1 / 2)
    Operators.sound_cautious hslices (List.cons_ne_nil _ _) frame_pair (by rw [hdt]; rfl)
    (holds_pair hhalf hhalf) (fun _ _ _ _ _ _ => rfl) hzero rfl rfl (Nat.zero_le 1) hstart hstop
    hfirst (by decide +kernel) hsecond (by decide +kernel)
  simpa [unit, Binary64.real_zero, Binary64.real_one] using henclosed

/-- The value one throughout. -/
noncomputable def steady : SliceTree (Rounded .cautious) := pair (point 1.0) (point 1.0)

/-- The integral of one over the first half unit of time: all of it lies inside the first slice. -/
theorem integral_misses_rest : Even [unit, ⟨1.0, 2.0⟩] (real steady.dt) ∧
    Box.Holds steady.values (fun _ => 1) ∧
    StepsOn [unit, ⟨1.0, 2.0⟩] (fun _ => 1) (fun _ => 1) ∧
    ∫ _ in real 0.0..real 0.5, (1 : ℝ) ∉
      integral (steady.primitive (Enclosure.point 0.0)) (point 0.0) (point 0.5) := by
  have hframe : (steady.primitive (Enclosure.point 0.0)).frame = _ :=
    (frame_withValues _ _).trans frame_pair
  have hdt : steady.dt = 1.0 := dt_pair
  have hones : steady.values = [point 1.0, point 1.0] := values_pair
  have hvalue :
      (steady.primitive (Enclosure.point 0.0)).values[0]? = some (Enclosure.point 0.0) := by
    rw [values_primitive, hones]
    rfl
  have hstart := boundsOver_first hframe (coherent_update _) hvalue (t := 0.0)
    (by decide +kernel) (by decide +kernel) (by decide +kernel) (by decide +kernel)
  have hstop := boundsOver_first hframe (coherent_update _) hvalue (t := 0.5)
    (by decide +kernel) (by decide +kernel) (by decide +kernel) (by decide +kernel)
  have hnothing : Operators.cautious.sub (point 0.0) (point 0.0) = point 0.0 :=
    Operators.cautious_sub_zero rfl
  have hslices : Even [unit, ⟨1.0, 2.0⟩] (real steady.dt) := by
    rw [hdt, Binary64.real_one]
    exact even_units
  refine ⟨hslices, holds_pair (mem_point_one.2 rfl) (mem_point_one.2 rfl),
    fun _ _ _ _ _ _ => rfl, ?_⟩
  rw [integral, partialIntegral, hstart, hstop]
  change ¬(_ ∈ Interval.ofBounds (Operators.cautious.sub (point 0.0) (point 0.0)).lb
    (Operators.cautious.sub (point 0.0) (point 0.0)).ub)
  rw [hnothing]
  intro h
  have := mem_point_zero.1 h
  rw [intervalIntegral.integral_const, Binary64.real_half, Binary64.real_zero] at this
  norm_num at this

end SliceTree

end FlowTube
