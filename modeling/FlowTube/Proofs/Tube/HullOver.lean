import FlowTube.Proofs.Tube.EvalOver
import FlowTube.Proofs.TubeVector.Setting

/-! The value of a tube over an interval of time, read as a hull. Where the interval and the time
domain have more than one time in common, the value is the hull of the gates at the common
breakpoints and of the codomains of the slices with more than one time in common. Every part that
the loop over the slices adds is one of these, and each of these is in some part: a slice that the
interval only touches adds the gate between the two. Times are compared as numbers there, while the
value at a time asks for its gate by the total order. So a zero that is a breakpoint with the other
sign may have a value outside the hull, and no other time does. -/

namespace FlowTube

namespace Interval

open Binary64

variable {a b : Interval} {t : Float}

/-- The same bounds, or both empty. -/
def Same (a b : Interval) : Prop := (a == b) = true ∨ a.isEmpty = true ∧ b.isEmpty = true

theorem Same.isSubset (h : a.Same b) : b.isSubset a = true := by
  rcases h with heq | ⟨-, hb⟩
  · exact isSubset_of_beq heq
  · exact isSubset_iff.2 (Or.inl (of_decide_eq_true hb))

theorem same_of_isSubset (hab : a.isSubset b = true) (hba : b.isSubset a = true) : a.Same b := by
  cases ha : a.isEmpty with
  | true => exact Or.inr ⟨ha, isEmpty_of_isSubset hba ha⟩
  | false => exact Or.inl (beq_of_isSubset ha hab hba)

/-- Intervals have more than one number in common if each of them starts before both end. -/
theorem isDegenerate_inter (ha : a.lb < a.ub) (hb : b.lb < b.ub) (hab : a.lb < b.ub)
    (hba : b.lb < a.ub) : (a ∩ b).isDegenerate = false := by
  have hlt : Binary64.max a.lb b.lb < Binary64.min a.ub b.ub := by
    rcases max_eq_or a.lb b.lb with h | h <;> rcases min_eq_or a.ub b.ub with h' | h' <;>
      rw [h, h'] <;> assumption
  rw [inter_eq_ofBounds, ofBounds_of_lt hlt]
  exact (isDegenerate_of_lt (a := ⟨Binary64.max a.lb b.lb, Binary64.min a.ub b.ub⟩) hlt).2

/-- The intersection of intervals starts where one of them does. -/
theorem lb_inter (h : (a ∩ b).isEmpty = false) : (a ∩ b).lb = a.lb ∨ (a ∩ b).lb = b.lb := by
  rcases inter_cases a b with hempty | ⟨-, heq⟩
  · rw [hempty] at h
    contradiction
  · rw [heq]
    exact max_eq_or a.lb b.lb

theorem isDegenerate_of_beq (h : (a == ⟨t, t⟩) = true) :
    a.isEmpty = false ∧ a.isDegenerate = true := by
  obtain ⟨hlow, hup⟩ := beq_iff_bounds.1 h
  have hempty : a.isEmpty = false :=
    decide_eq_false (not_lt_of_le (le_trans (le_of_beq hlow).1 (le_of_beq hup).2))
  refine ⟨hempty, ?_⟩
  obtain ⟨hl, -, hlow⟩ := beq_iff.1 hlow
  obtain ⟨hu, -, hup⟩ := beq_iff.1 hup
  rw [isDegenerate, hempty, Bool.false_or, beq_iff]
  exact ⟨hl, hu, hlow.trans hup.symm⟩

theorem beq_of_isDegenerate (h : a.isDegenerate = true) (ht : a.contains t = true) :
    (a == ⟨t, t⟩) = true := by
  obtain ⟨hlow, hup⟩ := contains_iff.1 ht
  have hempty : a.isEmpty = false := decide_eq_false (not_lt_of_le (le_trans hlow hup))
  rw [isDegenerate, hempty, Bool.false_or, beq_iff] at h
  obtain ⟨hl, htn, hlow⟩ := le_iff.1 hlow
  obtain ⟨-, hu, hup⟩ := le_iff.1 hup
  rw [beq_iff_bounds, beq_iff, beq_iff]
  exact ⟨⟨hl, htn, le_antisymm hlow (h.2.2 ▸ hup)⟩, hu, htn, le_antisymm (h.2.2 ▸ hlow) hup⟩

end Interval

namespace Tube

open Binary64 (value)

variable {x : Tube Interval} {tdom a b : Interval} {s t : Float} {i k : ℕ}

/-! ### Equal times -/

section EqualTimes

variable {ι : Type} {x : Tube ι}

/-- Equal numbers are times of the same slice. -/
theorem sliceIndex?_congr (h : (s == t) = true) : x.sliceIndex? s = x.sliceIndex? t := by
  obtain ⟨hs, ht, hvalue⟩ := Binary64.beq_iff.1 h
  have hbefore : (fun u : Float => decide (u ≤ s)) = fun u => decide (u ≤ t) := by
    funext u
    rw [decide_eq_decide, Binary64.le_iff, Binary64.le_iff, hs, ht, hvalue]
  have hdomain : x.domain.contains s = x.domain.contains t := by
    rw [Bool.eq_iff_iff, Interval.contains_iff, Interval.contains_iff, Binary64.le_iff,
      Binary64.le_iff, Binary64.le_iff, Binary64.le_iff, hs, ht, hvalue]
  rw [sliceIndex?, sliceIndex?, hdomain, hbefore]

/-- A tube without `-0` among its breakpoints has no other zero for a time that is not `-0`. -/
theorem not_otherZero (hzeros : ∀ s ∈ x.times, s ≠ -0.0) (ht : t ≠ -0.0) : ¬x.OtherZero t := by
  rintro ⟨s, hs, heq, hne⟩
  obtain ⟨hsn, htn, hvalue⟩ := Binary64.beq_iff.1 heq
  exact hne (Binary64.eq_of_value_eq hsn htn (hzeros s hs) ht hvalue)

/-- Equal numbers have equal values, unless one of them is the other zero of a breakpoint. -/
theorem eval_congr [Enclosure ι] (h : (s == t) = true) (hs : ¬x.OtherZero s)
    (ht : ¬x.OtherZero t) : x.eval s = x.eval t := by
  by_cases hst : s = t
  · rw [hst]
  · have hnone {u : Float} (hu : u ∉ x.times) : x.gateIndex? u = none := by
      rw [Option.eq_none_iff_forall_ne_some]
      intro k hk
      obtain ⟨hsize, rfl⟩ := time_of_gateIndex? hk
      exact hu (time_mem hsize)
    obtain ⟨hsn, htn, hvalue⟩ := Binary64.beq_iff.1 h
    rw [eval, eval, hnone fun hmem => ht ⟨s, hmem, h, hst⟩,
      hnone fun hmem => hs ⟨t, hmem, Binary64.beq_iff.2 ⟨htn, hsn, hvalue.symm⟩, Ne.symm hst⟩,
      sliceIndex?_congr h]

end EqualTimes

/-! ### Gates and codomains over an interval -/

/-- The gates at the breakpoints in `s`, and the codomains of the slices with more than one time
in `s`. -/
def piecesOver (x : Tube Interval) (s : Interval) : List Interval :=
  ((List.range (x.sliceCount + 1)).filter fun k => s.contains (x.time k)).map x.gate ++
    ((List.range x.sliceCount).filter fun i => !(x.sliceDomain i ∩ s).isDegenerate).map x.codomain

theorem mem_piecesOver : b ∈ x.piecesOver a ↔
    (∃ k ≤ x.sliceCount, a.contains (x.time k) = true ∧ x.gate k = b) ∨
      ∃ i < x.sliceCount, (x.sliceDomain i ∩ a).isDegenerate = false ∧ x.codomain i = b := by
  simp [piecesOver, and_assoc]

/-- Over an interval of more than one time, the value at each of them is a gate or a codomain. -/
theorem Ordered.eval_mem_piecesOver (h : x.Ordered) (ha : a.lb < a.ub)
    (ht : a.contains t = true) (hdomain : x.domain.contains t = true) (hzero : ¬x.OtherZero t) :
    x.eval t ∈ x.piecesOver a := by
  rw [mem_piecesOver]
  cases hk : x.gateIndex? t with
  | some k =>
    obtain ⟨hle, rfl⟩ := h.gateIndex?_eq_some_iff.1 hk
    exact Or.inl ⟨k, hle, ht, (eval_time h hle).symm⟩
  | none =>
    obtain ⟨i, hi⟩ : ∃ i, x.sliceIndex? t = some i := ⟨_, if_pos hdomain⟩
    obtain ⟨hlt, htn, hlow, hup, -⟩ := h.sliceIndex?_spec hi
    -- a breakpoint of the same value would be the time itself, and would have been found
    have hne (k : ℕ) (hk' : k ≤ x.sliceCount) : x.moment k ≠ value t := by
      intro heq
      refine hzero ⟨x.time k, time_mem (by have := h.size_times; omega),
        Binary64.beq_iff.2 ⟨h.isNaN_time hk', htn, heq⟩, ?_⟩
      rintro rfl
      rw [h.gateIndex?_time hk'] at hk
      contradiction
    have hstart : x.time i < t := Binary64.lt_iff.2
      ⟨h.isNaN_time hlt.le, htn, lt_of_le_of_ne hlow (hne i hlt.le)⟩
    have hend : t < x.time (i + 1) := Binary64.lt_iff.2
      ⟨htn, h.isNaN_time hlt, lt_of_le_of_ne hup (hne (i + 1) hlt).symm⟩
    obtain ⟨hlb, hub⟩ := Interval.contains_iff.1 ht
    refine Or.inr ⟨i, hlt, ?_, ?_⟩
    · rw [h.sliceDomain_eq hlt]
      exact Interval.isDegenerate_inter (h.time_lt_time (Nat.lt_succ_self i) hlt) ha
        (Binary64.lt_of_lt_of_le hstart hub) (Binary64.lt_of_le_of_lt hlb hend)
    · rw [eval, hk, hi]

/-! ### The hull -/

/-- Only the part of an interval in the time domain counts. -/
theorem evalOver_inter_domain (x : Tube Interval) (tdom : Interval) :
    x.evalOver (tdom ∩ x.domain) = x.evalOver tdom := by
  rw [evalOver, evalOver, Interval.inter_inter_self]

namespace Regular

theorem numeric_piecesOver (h : x.Regular) (a : Interval) : ∀ b ∈ x.piecesOver a, b.Numeric := by
  intro b hb
  rcases mem_piecesOver.1 hb with ⟨k, -, -, rfl⟩ | ⟨i, -, -, rfl⟩
  · exact h.numeric_gate k
  · exact h.numeric i

/-- The part of a slice is a gate or a codomain over the interval, or empty. -/
theorem part_isSubset_hull (h : x.Regular) (ha : a.lb < a.ub) (ha0 : a.lb ≠ -0.0)
    (hi : i < x.sliceCount) :
    (x.part a i).isSubset (Interval.hullAll (x.piecesOver a)) = true := by
  have hpieces := h.numeric_piecesOver a
  unfold part
  split_ifs with hempty hdegenerate
  · rfl
  · -- the only common time is a start, so it is not `-0`
    have hnonempty := Bool.eq_false_iff.2 hempty
    have hlb := (Interval.numeric_inter (x.sliceDomain i) a).contains_lb hnonempty
    have hin : a.contains (x.sliceDomain i ∩ a).lb = true := Interval.contains_of_isSubset
      (Interval.inter_isSubset_of_right (Interval.Numeric.isSubset_self
        ⟨(Binary64.lt_iff.1 ha).1, (Binary64.lt_iff.1 ha).2.1⟩)) hlb
    have hslice : (x.sliceDomain i).contains (x.sliceDomain i ∩ a).lb = true :=
      Interval.contains_of_isSubset (Interval.inter_isSubset_of_left
        (Interval.numeric_ofBounds ..).isSubset_self) hlb
    have hne : (x.sliceDomain i ∩ a).lb ≠ -0.0 := by
      rcases Interval.lb_inter hnonempty with heq | heq <;> rw [heq]
      · exact (h.sliceDomain_lt hi).2
      · exact ha0
    obtain ⟨hn, hlow, hup⟩ := (h.ordered.contains_sliceDomain_iff hi).1 hslice
    have hdomain := h.ordered.contains_domain_iff.2 ⟨hn,
      (h.ordered.moment_le_moment (Nat.zero_le i) hi.le).trans hlow,
      hup.trans (h.ordered.moment_le_moment hi le_rfl)⟩
    exact Interval.isSubset_hullAll hpieces (h.ordered.eval_mem_piecesOver ha hin hdomain
      (not_otherZero h.zeros hne))
  · exact Interval.isSubset_hullAll hpieces
      (mem_piecesOver.2 (Or.inr ⟨i, hi, Bool.eq_false_iff.2 hdegenerate, rfl⟩))

/-- Over an interval of more than one time of the domain, the value is the hull of the gates and
codomains there. -/
theorem evalOver_same_hull (h : x.Regular) (hdomain : a ∩ x.domain = a) (ha : a.lb < a.ub)
    (ha0 : a.lb ≠ -0.0) : (x.evalOver a).Same (Interval.hullAll (x.piecesOver a)) := by
  have ho := h.ordered
  obtain ⟨hempty, hdegenerate⟩ := Interval.isDegenerate_of_lt ha
  have hsub : a.isSubset x.domain = true := by
    rw [← hdomain]
    exact Interval.inter_isSubset_of_right (Interval.numeric_ofBounds ..).isSubset_self
  have hlb : x.domain.contains a.lb = true := Interval.contains_of_isSubset hsub
    (Interval.contains_iff.2 ⟨Binary64.le_self (Binary64.lt_iff.1 ha).1, Binary64.le_of_lt ha⟩)
  obtain ⟨j, hj⟩ : ∃ j, x.sliceIndex? a.lb = some j := ⟨_, if_pos hlb⟩
  obtain ⟨hjlt, hlbn, hstart, -, -⟩ := ho.sliceIndex?_spec hj
  have hparts (b : Interval) : (x.evalOver a).isSubset b = true ↔
      ∀ i, j ≤ i → i < x.sliceCount → (x.part a i).isSubset b = true := by
    have := h.evalOver_isSubset_iff (b := b) (by rwa [hdomain]) (by rwa [hdomain])
      (by rwa [hdomain])
    rwa [hdomain] at this
  refine Interval.same_of_isSubset ((hparts _).2 fun i _ hi => h.part_isSubset_hull ha ha0 hi)
    ((Interval.hullAll_isSubset_iff (h.numeric_piecesOver a)).2 fun b hb => ?_)
  rcases mem_piecesOver.1 hb with ⟨k, hk, hcontains, rfl⟩ | ⟨i, hi, hwide, rfl⟩
  · rw [← eval_time ho hk]
    exact h.eval_isSubset_evalOver ha ha0 (h.time_ne_negZero hk) hcontains (contains_time ho hk)
  · have hpart : x.part a i = x.codomain i := by
      have hnonempty : (x.sliceDomain i ∩ a).isEmpty = false := (Bool.or_eq_false_iff.1 hwide).1
      rw [part, hnonempty, hwide, if_neg Bool.false_ne_true, if_neg Bool.false_ne_true]
    -- the slice ends after the first time, so the loop does not start behind it
    have hji : j < i + 1 := by
      have hnumeric := Interval.numeric_inter (x.sliceDomain i) a
      have hleft : (x.sliceDomain i ∩ a).isSubset (x.sliceDomain i) = true :=
        Interval.inter_isSubset_of_left (Interval.numeric_ofBounds ..).isSubset_self
      have hright : (x.sliceDomain i ∩ a).isSubset a = true := Interval.inter_isSubset_of_right
        (Interval.Numeric.isSubset_self ⟨hlbn, (Binary64.lt_iff.1 ha).2.1⟩)
      have hlt := hnumeric.lt_of_isDegenerate hwide
      have hnot := Binary64.not_lt_of_le (Binary64.le_of_lt hlt)
      have hlow := ((Interval.isSubset_iff.1 hright).resolve_left hnot).1
      have hup := ((Interval.isSubset_iff.1 hleft).resolve_left hnot).2
      have hbefore := Binary64.lt_of_le_of_lt hlow (Binary64.lt_of_lt_of_le hlt hup)
      rw [ho.sliceDomain_eq hi] at hbefore
      exact ho.lt_of_moment_lt hjlt.le (hstart.trans_lt (Binary64.lt_iff.1 hbefore).2.2)
    rw [← hpart]
    exact (hparts _).1 (h.numeric_evalOver a).isSubset_self i (Nat.lt_succ_iff.1 hji) hi

theorem lb_inter_domain_ne (h : x.Regular) (htdom : tdom.lb ≠ -0.0)
    (hempty : (tdom ∩ x.domain).isEmpty = false) : (tdom ∩ x.domain).lb ≠ -0.0 := by
  rcases Interval.lb_inter hempty with heq | heq <;> rw [heq]
  · exact htdom
  · rw [h.ordered.domain_eq]
    exact h.time_ne_negZero (Nat.zero_le _)

/-- A single time has its value. -/
theorem evalOver_eq_eval (h : x.Regular) (htdom : tdom.lb ≠ -0.0)
    (hs : (tdom ∩ x.domain == ⟨s, s⟩) = true) (hzero : ¬x.OtherZero s) :
    x.evalOver tdom = x.eval s := by
  obtain ⟨hempty, hdegenerate⟩ := Interval.isDegenerate_of_beq hs
  have hover : x.evalOver tdom = x.eval (tdom ∩ x.domain).lb := by
    simp [evalOver, hempty, hdegenerate]
  rw [hover]
  exact eval_congr (Interval.beq_iff_bounds.1 hs).1
    (not_otherZero h.zeros (h.lb_inter_domain_ne htdom hempty)) hzero

theorem evalOver_same_hull_inter (h : x.Regular) (htdom : tdom.lb ≠ -0.0)
    (hwide : (tdom ∩ x.domain).isDegenerate = false) :
    (x.evalOver tdom).Same (Interval.hullAll (x.piecesOver (tdom ∩ x.domain))) := by
  rw [← evalOver_inter_domain]
  exact h.evalOver_same_hull (Interval.inter_inter_self tdom x.domain)
    ((Interval.numeric_inter ..).lt_of_isDegenerate hwide)
    (h.lb_inter_domain_ne htdom (Bool.or_eq_false_iff.1 hwide).1)

theorem eval_isSubset_evalOver_inter (h : x.Regular) (htdom : tdom.lb ≠ -0.0)
    (ht : (tdom ∩ x.domain).contains t = true) (hzero : ¬x.OtherZero t) :
    (x.eval t).isSubset (x.evalOver tdom) = true := by
  cases hdegenerate : (tdom ∩ x.domain).isDegenerate with
  | true =>
    rw [h.evalOver_eq_eval htdom (Interval.beq_of_isDegenerate hdegenerate ht) hzero]
    exact (h.numeric_eval t).isSubset_self
  | false =>
    have hdomain : x.domain.contains t = true := Interval.contains_of_isSubset
      (Interval.inter_isSubset_of_right (Interval.numeric_ofBounds ..).isSubset_self) ht
    have hmem := h.ordered.eval_mem_piecesOver
      ((Interval.numeric_inter ..).lt_of_isDegenerate hdegenerate) ht hdomain hzero
    exact Interval.isSubset_trans (Interval.isSubset_hullAll (h.numeric_piecesOver _) hmem)
      (h.evalOver_same_hull_inter htdom hdegenerate).isSubset

end Regular

/-- What the value over an interval is, where `common` is the part in the time domain: nothing, the
value at the only time, or the hull of the gates and codomains there. The value at any time is
included, unless the time is a zero that is a breakpoint with the other sign. -/
structure IsHullOver (x : Tube Interval) (common y : Interval) : Prop where
  nothing : common.isEmpty = true → y = Interval.empty
  single : ∀ s, (common == ⟨s, s⟩) = true → ¬x.OtherZero s → y = x.eval s
  several : common.isDegenerate = false → y.Same (Interval.hullAll (x.piecesOver common))
  value : ∀ t, common.contains t = true → ¬x.OtherZero t → (x.eval t).isSubset y = true

/-- The value over an interval of time is the hull of the values there. -/
theorem evalOver_isHullOver (hx : x.WellFormed) (hcodomain : ∀ i, (x.codomain i).Numeric)
    (hzeros : ∀ s ∈ x.times, s ≠ -0.0) (htdom : tdom.lb ≠ -0.0) :
    x.IsHullOver (tdom ∩ x.domain) (x.evalOver tdom) := by
  have h : x.Regular := ⟨hx, hcodomain, hzeros⟩
  exact ⟨fun hempty => if_pos hempty, fun s hs hzero => h.evalOver_eq_eval htdom hs hzero,
    fun hwide => h.evalOver_same_hull_inter htdom hwide,
    fun t ht hzero => h.eval_isSubset_evalOver_inter htdom ht hzero⟩

/-- From before the tube to its breakpoint at one, only the first slice has more than one time. -/
theorem evalOver_isHullOver_early :
    (early.evalOver ⟨-1.0, 1.0⟩).Same
        (Interval.hullAll [early.gate 0, early.gate 1, early.codomain 0]) ∧
      (early.eval 1.0).isSubset (early.evalOver ⟨-1.0, 1.0⟩) = true := by
  have hhull : early.IsHullOver (⟨-1.0, 1.0⟩ ∩ early.domain) (early.evalOver ⟨-1.0, 1.0⟩) :=
    evalOver_isHullOver wellFormed_early numeric_early (by decide) (by decide)
  have hgates : ((List.range 3).filter fun k =>
      (⟨-1.0, 1.0⟩ ∩ early.domain).contains (early.time k)) = [0, 1] := by decide +kernel
  have hslices : ((List.range 2).filter fun i =>
      !(early.sliceDomain i ∩ (⟨-1.0, 1.0⟩ ∩ early.domain)).isDegenerate) = [0] := by
    decide +kernel
  have hpieces : early.piecesOver (⟨-1.0, 1.0⟩ ∩ early.domain) =
      [early.gate 0, early.gate 1, early.codomain 0] := by
    rw [piecesOver, show early.sliceCount = 2 from rfl, hgates, hslices]
    rfl
  refine ⟨hpieces ▸ hhull.several (by decide +kernel), hhull.value 1.0 (by decide +kernel) ?_⟩
  decide

/-- A jump at zero. -/
def rising : Tube Interval where
  times := #[-1.0, 0.0, 1.0]
  codomains := #[⟨0.0, 1.0⟩, ⟨1.0, 6.0⟩]
  gates := #[⟨0.0, 1.0⟩, ⟨1.0, 1.0⟩, ⟨1.0, 6.0⟩]

theorem wellFormed_rising : rising.WellFormed where
  someSlice := by decide
  times := by decide
  gates := by decide
  increasing := by decide
  insideLeft := by decide +kernel
  insideRight := by decide +kernel

/-- At `-0` the tube has the codomain of the slice from zero on, which is not in its value up to
zero. -/
theorem evalOver_misses_negZero :
    rising.WellFormed ∧ (∀ s ∈ rising.times, s ≠ -0.0) ∧
      (⟨-1.0, 0.0⟩ ∩ rising.domain).contains (-0.0) = true ∧
      (rising.evalOver ⟨-1.0, 0.0⟩ == ⟨0.0, 1.0⟩) = true ∧
      (rising.eval (-0.0) == ⟨1.0, 6.0⟩) = true ∧
      (rising.eval (-0.0)).isSubset (rising.evalOver ⟨-1.0, 0.0⟩) = false :=
  ⟨wellFormed_rising, by decide, by decide +kernel, by decide +kernel, by decide +kernel,
    by decide +kernel⟩

end Tube

end FlowTube
