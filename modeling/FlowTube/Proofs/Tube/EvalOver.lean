import FlowTube.Proofs.Interval.Hull
import FlowTube.Proofs.Tube.Regular

/-! The value of a tube over an interval of time. It is the least interval that includes a part for
each slice in reach: the codomain, if the slice has more than one time in common with the interval,
and otherwise the value at the only common time. So it includes the value at every time of the
interval, also at its ends, where the interval only touches a slice and the gate there need not be
in any part by its codomain. Over the domain of a slice it is the codomain again: of the slice after
it only the shared gate is added, which the codomain includes. -/

namespace FlowTube

namespace Interval

open Binary64

variable {a b : Interval} {t : Float}

/-! ### Common times -/

theorem isDegenerate_of_lt (h : a.lb < a.ub) : a.isEmpty = false ∧ a.isDegenerate = false := by
  have hempty : a.isEmpty = false := decide_eq_false (not_lt_of_le (le_of_lt h))
  refine ⟨hempty, ?_⟩
  rw [isDegenerate, hempty, Bool.false_or]
  exact Bool.eq_false_iff.2 fun heq => (lt_iff.1 h).2.2.ne (beq_iff.1 heq).2.2

/-- A time in an interval of a single time is that time. -/
theorem eq_lb_of_isDegenerate (h : a.isDegenerate = true) (hempty : a.isEmpty = false)
    (ht : a.contains t = true) (ht0 : t ≠ -0.0) (hlb : a.lb ≠ -0.0) : t = a.lb := by
  obtain ⟨hlow, hup⟩ := contains_iff.1 ht
  rw [isDegenerate, hempty, Bool.false_or] at h
  have hle := le_trans hup (le_of_beq h).2
  exact eq_of_value_eq (le_iff.1 hlow).2.1 (le_iff.1 hlow).1 ht0 hlb
    (le_antisymm (le_iff.1 hle).2.2 (le_iff.1 hlow).2.2)

/-- Intervals of more than one time, neither from `-0` on, have a common time in their
intersection, which is not from `-0` on either. -/
theorem inter_of_contains (ha : a.lb < a.ub) (hb : b.lb < b.ub) (ha0 : a.lb ≠ -0.0)
    (hb0 : b.lb ≠ -0.0) (hat : a.contains t = true) (hbt : b.contains t = true) :
    (a ∩ b).isEmpty = false ∧ (a ∩ b).contains t = true ∧ (a ∩ b).lb ≠ -0.0 := by
  obtain ⟨halb, haub⟩ := contains_iff.1 hat
  obtain ⟨hblb, hbub⟩ := contains_iff.1 hbt
  have hlb : Binary64.max a.lb b.lb ≤ t := max_le halb hblb
  have hub : t ≤ Binary64.min a.ub b.ub := le_min haub hbub
  have heq : a ∩ b = ⟨Binary64.max a.lb b.lb, Binary64.min a.ub b.ub⟩ := by
    refine ofBounds_of_le (le_trans hlb hub) ?_ ?_
    · rcases max_eq_or a.lb b.lb with h | h <;> rw [h]
      · exact (lt_iff.1 ha).2.2.trans_le le_top
      · exact (lt_iff.1 hb).2.2.trans_le le_top
    · rcases min_eq_or a.ub b.ub with h | h <;> rw [h]
      · exact bot_le.trans_lt (lt_iff.1 ha).2.2
      · exact bot_le.trans_lt (lt_iff.1 hb).2.2
  rw [heq]
  refine ⟨decide_eq_false (not_lt_of_le (le_trans hlb hub)), contains_iff.2 ⟨hlb, hub⟩, ?_⟩
  rcases max_eq_or a.lb b.lb with h | h <;> simp only [h]
  · exact ha0
  · exact hb0

end Interval

namespace Tube

open Binary64 (value)

variable {x : Tube Interval} {tdom a : Interval} {t : Float} {i j n : ℕ}

/-! ### Parts -/

/-- What slice `i` adds to the value over `tdom`. -/
def part (x : Tube Interval) (tdom : Interval) (i : ℕ) : Interval :=
  if (x.sliceDomain i ∩ tdom).isEmpty then Interval.empty
  else if (x.sliceDomain i ∩ tdom).isDegenerate then x.eval (x.sliceDomain i ∩ tdom).lb
  else x.codomain i

theorem part_of_isEmpty (h : (x.sliceDomain i ∩ tdom).isEmpty = true) :
    x.part tdom i = Interval.empty :=
  if_pos h

theorem evalFrom_succ (x : Tube Interval) (tdom : Interval) (n i : ℕ) (a : Interval) :
    x.evalFrom tdom (n + 1) i a =
      if x.time i > tdom.ub then a
      else if (x.sliceDomain i ∩ tdom).isEmpty then x.evalFrom tdom n (i + 1) a
      else x.evalFrom tdom n (i + 1) (a ∪ x.part tdom i) := by
  rw [evalFrom, part]
  dsimp only
  split_ifs <;> rfl

/-- A slice that starts after the interval has no time in common with it, nor do later ones. -/
theorem Ordered.part_of_lt (h : x.Ordered) (hi : tdom.ub < x.time i) (hij : i ≤ j)
    (hj : j < x.sliceCount) : x.part tdom j = Interval.empty := by
  obtain ⟨hub, hi, hlt⟩ := Binary64.lt_iff.1 hi
  have hj' : tdom.ub < x.time j := Binary64.lt_iff.2
    ⟨hub, h.isNaN_time hj.le, hlt.trans_le (h.moment_le_moment hij hj.le)⟩
  refine part_of_isEmpty ?_
  rw [h.sliceDomain_eq hj, Interval.inter_eq_ofBounds, Interval.ofBounds_of_crossed]
  · rfl
  · exact Binary64.lt_of_le_of_lt (Binary64.min_le_right hub)
      (Binary64.lt_of_lt_of_le hj' (Binary64.le_max_left (h.isNaN_time hj.le)))

/-! ### What holds of all parts

A property of the codomains and gates that hulls keep is one of every value. -/

section Holds

variable {P : Interval → Prop}

theorem eval_holds (hempty : P Interval.empty) (hcodomain : ∀ i, P (x.codomain i))
    (hgate : ∀ k, P (x.gate k)) (t : Float) : P (x.eval t) := by
  unfold eval
  split
  · exact hgate _
  · split
    · exact hcodomain _
    · exact hempty

theorem part_holds (hempty : P Interval.empty) (hcodomain : ∀ i, P (x.codomain i))
    (hgate : ∀ k, P (x.gate k)) (tdom : Interval) (i : ℕ) : P (x.part tdom i) := by
  unfold part
  split_ifs
  · exact hempty
  · exact eval_holds hempty hcodomain hgate _
  · exact hcodomain i

theorem evalFrom_holds (hunion : ∀ a b, P a → P b → P (a ∪ b)) (hpart : ∀ i, P (x.part tdom i))
    (n i : ℕ) {a : Interval} (ha : P a) : P (x.evalFrom tdom n i a) := by
  induction n generalizing i a with
  | zero => exact ha
  | succ n ih =>
    rw [evalFrom_succ]
    split_ifs
    · exact ha
    · exact ih (i + 1) ha
    · exact ih (i + 1) (hunion _ _ ha (hpart i))

theorem evalOver_holds (hempty : P Interval.empty) (hunion : ∀ a b, P a → P b → P (a ∪ b))
    (hcodomain : ∀ i, P (x.codomain i)) (hgate : ∀ k, P (x.gate k)) (tdom : Interval) :
    P (x.evalOver tdom) := by
  unfold evalOver
  dsimp only
  split_ifs
  · exact hempty
  · exact eval_holds hempty hcodomain hgate _
  · exact evalFrom_holds hunion (part_holds hempty hcodomain hgate _) _ _ hempty

end Holds

namespace Regular

theorem numeric_eval (h : x.Regular) (t : Float) : (x.eval t).Numeric :=
  eval_holds Interval.numeric_empty h.numeric h.numeric_gate t

theorem numeric_part (h : x.Regular) (tdom : Interval) (i : ℕ) : (x.part tdom i).Numeric :=
  part_holds Interval.numeric_empty h.numeric h.numeric_gate tdom i

theorem numeric_evalOver (h : x.Regular) (tdom : Interval) : (x.evalOver tdom).Numeric :=
  evalOver_holds Interval.numeric_empty (fun _ _ => Interval.Numeric.union) h.numeric
    h.numeric_gate tdom

/-! ### The least interval that includes the parts -/

/-- The hull that the loop over the slices gathers is the least interval that includes the parts,
together with what it starts from. -/
theorem evalFrom_isSubset_iff (h : x.Regular) {b : Interval} (ha : a.Numeric)
    (hn : i + n ≤ x.sliceCount) : (x.evalFrom tdom n i a).isSubset b = true ↔
      a.isSubset b = true ∧ ∀ j, i ≤ j → j < i + n → (x.part tdom j).isSubset b = true := by
  induction n generalizing i a with
  | zero => exact (and_iff_left fun j hij hji => absurd hji (not_lt.2 hij)).symm
  | succ n ih =>
    have hparts : (∀ j, i ≤ j → j < i + (n + 1) → (x.part tdom j).isSubset b = true) ↔
        (x.part tdom i).isSubset b = true ∧
          ∀ j, i + 1 ≤ j → j < i + 1 + n → (x.part tdom j).isSubset b = true := by
      constructor
      · intro hall
        exact ⟨hall i le_rfl (by omega), fun j hij hj => hall j (by omega) (by omega)⟩
      · rintro ⟨hfirst, hrest⟩ j hij hj
        rcases Nat.eq_or_lt_of_le hij with rfl | hlt
        · exact hfirst
        · exact hrest j hlt (by omega)
    rw [evalFrom_succ]
    split_ifs with hafter hempty
    · refine (and_iff_left fun j hij hj => ?_).symm
      rw [h.ordered.part_of_lt hafter hij (by omega)]
      rfl
    · rw [ih ha (by omega), hparts, part_of_isEmpty hempty]
      exact and_congr_right fun _ => (and_iff_right rfl).symm
    · have hpart := h.numeric_part tdom i
      rw [ih (ha.union hpart) (by omega), hparts, Interval.union_isSubset_iff ha hpart, and_assoc]

theorem evalOver_isSubset_iff (h : x.Regular) {b : Interval}
    (hempty : (tdom ∩ x.domain).isEmpty = false)
    (hdegenerate : (tdom ∩ x.domain).isDegenerate = false)
    (hi : x.sliceIndex? (tdom ∩ x.domain).lb = some i) :
    (x.evalOver tdom).isSubset b = true ↔
      ∀ j, i ≤ j → j < x.sliceCount → (x.part (tdom ∩ x.domain) j).isSubset b = true := by
  have hlt := (h.ordered.sliceIndex?_spec hi).1
  have hover : x.evalOver tdom =
      x.evalFrom (tdom ∩ x.domain) (x.sliceCount - i) i Interval.empty := by
    unfold evalOver
    simp [hempty, hdegenerate, hi, Enclosure.empty]
  rw [hover, h.evalFrom_isSubset_iff Interval.numeric_empty (by omega),
    show i + (x.sliceCount - i) = x.sliceCount by omega]
  exact and_iff_right rfl

/-! ### Values and parts -/

theorem sliceDomain_lt (h : x.Regular) (hi : i < x.sliceCount) :
    (x.sliceDomain i).lb < (x.sliceDomain i).ub ∧ (x.sliceDomain i).lb ≠ -0.0 := by
  rw [h.ordered.sliceDomain_eq hi]
  exact ⟨h.ordered.time_lt_time (Nat.lt_succ_self i) hi, h.time_ne_negZero hi.le⟩

/-- The part of a slice includes the value at every common time. -/
theorem eval_isSubset_part (h : x.Regular) (hi : i < x.sliceCount) (htdom : tdom.lb < tdom.ub)
    (hlb : tdom.lb ≠ -0.0) (ht0 : t ≠ -0.0) (hslice : (x.sliceDomain i).contains t = true)
    (ht : tdom.contains t = true) : (x.eval t).isSubset (x.part tdom i) = true := by
  obtain ⟨hlt, hstart⟩ := h.sliceDomain_lt hi
  obtain ⟨hempty, hcontains, hfirst⟩ := Interval.inter_of_contains hlt htdom hstart hlb hslice ht
  rw [part, hempty, if_neg Bool.false_ne_true]
  split_ifs with hdegenerate
  · rw [← Interval.eq_lb_of_isDegenerate hdegenerate hempty hcontains ht0 hfirst]
    exact (h.numeric_eval t).isSubset_self
  · obtain ⟨htn, hlow, hup⟩ := (h.ordered.contains_sliceDomain_iff hi).1 hslice
    exact h.eval_isSubset hi htn ht0 hlow hup

/-- The value at a time is included in the value over an interval around it. -/
theorem eval_isSubset_evalOver (h : x.Regular) (htdom : tdom.lb < tdom.ub) (hlb : tdom.lb ≠ -0.0)
    (ht0 : t ≠ -0.0) (ht : tdom.contains t = true) (hdomain : x.domain.contains t = true) :
    (x.eval t).isSubset (x.evalOver tdom) = true := by
  have ho := h.ordered
  have hwide : x.domain.lb < x.domain.ub ∧ x.domain.lb ≠ -0.0 := by
    rw [ho.domain_eq]
    exact ⟨ho.time_lt_time ho.sliceCount_pos le_rfl, h.time_ne_negZero (Nat.zero_le _)⟩
  obtain ⟨hempty, hcontains, hfirst⟩ :=
    Interval.inter_of_contains htdom hwide.1 hlb hwide.2 ht hdomain
  cases hdegenerate : (tdom ∩ x.domain).isDegenerate with
  | true =>
    have hover : x.evalOver tdom = x.eval (tdom ∩ x.domain).lb := by
      simp [evalOver, hempty, hdegenerate]
    rw [hover, ← Interval.eq_lb_of_isDegenerate hdegenerate hempty hcontains ht0 hfirst]
    exact (h.numeric_eval t).isSubset_self
  | false =>
    have hnumeric := Interval.numeric_inter tdom x.domain
    have hfirst' : x.domain.contains (tdom ∩ x.domain).lb = true := by
      refine Interval.contains_of_isSubset ?_ (hnumeric.contains_lb hempty)
      exact Interval.inter_isSubset_of_right (Interval.numeric_ofBounds ..).isSubset_self
    obtain ⟨i, hi⟩ : ∃ i, x.sliceIndex? t = some i := ⟨_, if_pos hdomain⟩
    obtain ⟨s, hs⟩ : ∃ s, x.sliceIndex? (tdom ∩ x.domain).lb = some s := ⟨_, if_pos hfirst'⟩
    obtain ⟨hilt, htn, hstart, hend, hside⟩ := ho.sliceIndex?_spec hi
    obtain ⟨hslt, -, hstart', -, -⟩ := ho.sliceIndex?_spec hs
    -- the loop starts at the slice of the first time, so not after the slice of `t`
    have hle := (Binary64.le_iff.1 (Interval.contains_iff.1 hcontains).1).2.2
    have hsi : s ≤ i := by
      rcases hside with hlt | hlast
      · exact Nat.lt_succ_iff.1 (ho.lt_of_moment_lt hslt.le ((hstart'.trans hle).trans_lt hlt))
      · omega
    have hslice := (h.ordered.contains_sliceDomain_iff hilt).2 ⟨htn, hstart, hend⟩
    have hpart := (h.evalOver_isSubset_iff hempty hdegenerate hs).1
      (h.numeric_evalOver tdom).isSubset_self i hsi hilt
    exact Interval.isSubset_trans (h.eval_isSubset_part hilt
      (hnumeric.lt_of_isDegenerate hdegenerate) hfirst ht0 hslice hcontains) hpart

/-! ### The domain of a slice -/

theorem sliceDomain_inter_domain (h : x.Regular) (hi : i < x.sliceCount) :
    x.sliceDomain i ∩ x.domain = x.sliceDomain i := by
  have ho := h.ordered
  refine Interval.inter_eq_left (h.sliceDomain_lt hi).1 ?_ ?_ <;>
    rw [ho.sliceDomain_eq hi, ho.domain_eq]
  · exact Binary64.le_iff.2 ⟨ho.isNaN_time (Nat.zero_le _), ho.isNaN_time hi.le,
      ho.moment_le_moment (Nat.zero_le i) hi.le⟩
  · exact Binary64.le_iff.2 ⟨ho.isNaN_time hi, ho.isNaN_time le_rfl, ho.moment_le_moment hi le_rfl⟩

/-- Over the domain of a slice, parts are included in the codomain there. -/
theorem part_sliceDomain_isSubset (h : x.Regular) (hi : i < x.sliceCount) (hij : i ≤ j)
    (hj : j < x.sliceCount) :
    (x.part (x.sliceDomain i) j).isSubset (x.codomain i) = true := by
  obtain ⟨hilt, hi0⟩ := h.sliceDomain_lt hi
  obtain ⟨hjlt, hj0⟩ := h.sliceDomain_lt hj
  have hnumeric := Interval.numeric_inter (x.sliceDomain j) (x.sliceDomain i)
  have hleft : (x.sliceDomain j ∩ x.sliceDomain i).isSubset (x.sliceDomain j) = true :=
    Interval.inter_isSubset_of_left (Interval.numeric_ofBounds ..).isSubset_self
  have hright : (x.sliceDomain j ∩ x.sliceDomain i).isSubset (x.sliceDomain i) = true :=
    Interval.inter_isSubset_of_right (Interval.numeric_ofBounds ..).isSubset_self
  unfold part
  split_ifs with hempty hdegenerate
  · rfl
  · -- a single common time, at which the slices touch
    have hlb := hnumeric.contains_lb (Bool.eq_false_iff.2 hempty)
    have hini := Interval.contains_of_isSubset hright hlb
    have hinj := Interval.contains_of_isSubset hleft hlb
    have h0 := (Interval.inter_of_contains hjlt hilt hj0 hi0 hinj hini).2.2
    obtain ⟨hn, hlow, hup⟩ := (h.ordered.contains_sliceDomain_iff hi).1 hini
    exact h.eval_isSubset hi hn h0 hlow hup
  · rcases Nat.eq_or_lt_of_le hij with rfl | hlt
    · exact (h.numeric i).isSubset_self
    · -- a later slice has no two times in common with slice `i`
      have hwide := hnumeric.lt_of_isDegenerate (Bool.eq_false_iff.2 hdegenerate)
      have hnot := of_decide_eq_false (Bool.eq_false_iff.2 hempty)
      have hlow := ((Interval.isSubset_iff.1 hleft).resolve_left hnot).1
      have hup := ((Interval.isSubset_iff.1 hright).resolve_left hnot).2
      have hends : (x.sliceDomain i).ub ≤ (x.sliceDomain j).lb := by
        rw [h.ordered.sliceDomain_eq hi, h.ordered.sliceDomain_eq hj]
        exact Binary64.le_iff.2 ⟨h.ordered.isNaN_time hi, h.ordered.isNaN_time hj.le,
          h.ordered.moment_le_moment (Nat.succ_le_of_lt hlt) hj.le⟩
      exact absurd hwide
        (Binary64.not_lt_of_le (Binary64.le_trans hup (Binary64.le_trans hends hlow)))

/-- Over the domain of a slice, a tube has the codomain of the slice. -/
theorem evalOver_sliceDomain (h : x.Regular) (hi : i < x.sliceCount) :
    (x.evalOver (x.sliceDomain i)).isSubset (x.codomain i) = true ∧
      (x.codomain i).isSubset (x.evalOver (x.sliceDomain i)) = true := by
  have ho := h.ordered
  have hinter := h.sliceDomain_inter_domain hi
  obtain ⟨hlt, -⟩ := h.sliceDomain_lt hi
  obtain ⟨hempty, hdegenerate⟩ := Interval.isDegenerate_of_lt hlt
  have hstart : x.sliceIndex? (x.sliceDomain i).lb = some i := by
    rw [ho.sliceDomain_eq hi]
    exact ho.sliceIndex?_eq hi (ho.isNaN_time hi.le) le_rfl
      (ho.moment_lt_moment (Nat.lt_succ_self i) hi)
  have hparts (b : Interval) : (x.evalOver (x.sliceDomain i)).isSubset b = true ↔
      ∀ j, i ≤ j → j < x.sliceCount → (x.part (x.sliceDomain i) j).isSubset b = true := by
    have := h.evalOver_isSubset_iff (b := b) (by rwa [hinter]) (by rwa [hinter]) (by rwa [hinter])
    rwa [hinter] at this
  have hpart : x.part (x.sliceDomain i) i = x.codomain i := by
    have hself : x.sliceDomain i ∩ x.sliceDomain i = x.sliceDomain i :=
      Interval.inter_eq_left hlt (Binary64.le_self (Binary64.lt_iff.1 hlt).1)
        (Binary64.le_self (Binary64.lt_iff.1 hlt).2.1)
    simp [part, hself, hempty, hdegenerate]
  constructor
  · exact (hparts _).2 fun j hij hj => h.part_sliceDomain_isSubset hi hij hj
  · rw [← hpart]
    exact (hparts _).1 (h.numeric_evalOver _).isSubset_self i le_rfl hi

end Regular

end Tube

end FlowTube
