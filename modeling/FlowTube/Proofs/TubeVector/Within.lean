import FlowTube.Proofs.TubeVector.Probes

/-! Vectors within another one: between the same ends, and with every value in the value there. The
breakpoints may differ. In-place changes to parts of the gates and codomains lead to such a vector,
and so do the halves of a split and hulls of two vectors within. A further breakpoint changes no
value at all: its gate is the codomain of the slice that it splits, which both parts keep. -/

namespace FlowTube

namespace Tube

open Binary64 (value)

/-! ### Further breakpoints -/

section Sample

variable {ι : Type} [Enclosure ι] {x : Tube ι} {c : ι} {i m : ℕ} {s t : Float}

/-- A time of one part of a split slice is a time of the slice. -/
theorem Ordered.exists_slice_splitSlice (h : x.Ordered) (hi : i < x.sliceCount)
    (hs : (x.splitSlice i t (x.codomain i)).Ordered)
    (hlow : x.moment i < value t) (hup : value t < x.moment (i + 1))
    (hm : (x.splitSlice i t (x.codomain i)).sliceIndex? s = some m) :
    ∃ j, x.sliceIndex? s = some j ∧
      x.codomain j = (x.splitSlice i t (x.codomain i)).codomain m := by
  have hcount : (x.splitSlice i t (x.codomain i)).sliceCount = x.sliceCount + 1 :=
    sliceCount_splitSlice hi
  obtain ⟨hmlt, hnumber, hstart, hend, hside⟩ := hs.sliceIndex?_spec hm
  rw [hcount] at hmlt hside
  rw [moment_splitSlice h.toFits hi] at hstart
  rw [moment_splitSlice h.toFits hi] at hend hside
  rw [codomain_splitSlice hi]
  rcases Nat.lt_trichotomy m i with hmi | rfl | hmi
  · simp only [show m < i + 1 by omega, show m + 1 < i + 1 by omega, if_true] at hstart hend hside ⊢
    have hlt : value s < x.moment (m + 1) := hside.resolve_right (by omega)
    exact ⟨m, h.sliceIndex?_eq (by omega) hnumber hstart hlt, rfl⟩
  · -- the part before the new breakpoint
    simp only [Nat.lt_succ_self, Nat.lt_irrefl, if_true, if_false] at hstart hend ⊢
    exact ⟨m, h.sliceIndex?_eq hi hnumber hstart (hend.trans_lt hup), rfl⟩
  · simp only [show ¬m < i + 1 by omega, show ¬m + 1 < i + 1 by omega,
      show ¬m + 1 = i + 1 by omega, Nat.add_sub_cancel, if_false] at hstart hend hside ⊢
    by_cases hmi' : m = i + 1
    · -- the part after it
      subst hmi'
      simp only [if_true] at hstart ⊢
      exact ⟨i, h.sliceIndex?_of_side hi hnumber (hlow.le.trans hstart) hend
        (hside.imp_right (by omega)), rfl⟩
    · simp only [hmi', if_false] at hstart ⊢
      have hsucc : m - 1 + 1 = m := by omega
      exact ⟨m - 1, h.sliceIndex?_of_side (by omega) hnumber hstart (by rwa [hsucc])
        (by rw [hsucc]; exact hside.imp_right (by omega)), rfl⟩

omit [Enclosure ι] in
/-- A breakpoint stays one when a slice is split. -/
theorem Ordered.gateIndex?_of_splitSlice (h : x.Ordered) (hi : i < x.sliceCount)
    (hs : (x.splitSlice i t c).Ordered) (hs' : (x.splitSlice i t c).gateIndex? s = none) :
    x.gateIndex? s = none := by
  rw [h.gateIndex?_eq_none_iff]
  rintro m hm rfl
  refine hs.gateIndex?_eq_none_iff.1 hs' (if m < i + 1 then m else m + 1) ?_ ?_
  · rw [sliceCount_splitSlice hi]
    split_ifs <;> omega
  · rw [time_splitSlice h.toFits hi]
    split_ifs <;> first | rfl | omega

/-- A further breakpoint changes no value. -/
theorem Ordered.eval_sample (h : x.Ordered) (t s : Float) :
    (x.sample t).1.eval s = x.eval s := by
  rcases sample_eq h t with ⟨heq, -⟩ | ⟨i, hi, hnumber, hlow, hup, heq⟩
  · rw [heq]
  have hs := h.sample t
  rw [heq] at hs ⊢
  have hcount : (x.splitSlice i t (x.codomain i)).sliceCount = x.sliceCount + 1 :=
    sliceCount_splitSlice hi
  have htime := time_splitSlice (t := t) (c := x.codomain i) h.toFits hi
  cases hk : (x.splitSlice i t (x.codomain i)).gateIndex? s with
  | some k =>
    obtain ⟨hle, rfl⟩ := hs.gateIndex?_eq_some_iff.1 hk
    rw [hcount] at hle
    rw [eval_time hs (by omega), gate_splitSlice h.toFits hi, htime]
    split_ifs
    · exact (eval_time h (by omega)).symm
    · -- the new breakpoint was none before, and its gate is the codomain of its slice
      rw [eval_of_gateIndex?_eq_none (h.gateIndex?_of_inside hi hlow hup), codomainAt,
        h.sliceIndex?_eq hi hnumber hlow.le hup]
    · exact (eval_time h (by omega)).symm
  | none =>
    have hnone := h.gateIndex?_of_splitSlice hi hs hk
    rw [eval_of_gateIndex?_eq_none hk, eval_of_gateIndex?_eq_none hnone, codomainAt, codomainAt]
    cases hm : (x.splitSlice i t (x.codomain i)).sliceIndex? s with
    | some m =>
      obtain ⟨j, hj, hcodomain⟩ := h.exists_slice_splitSlice hi hs hlow hup hm
      rw [hj]
      exact hcodomain.symm
    | none =>
      have hends := h.sameEnds_sample t
      rw [heq] at hends
      have hdomain : x.domain.contains s = (x.splitSlice i t (x.codomain i)).domain.contains s := by
        rw [Bool.eq_iff_iff, h.contains_domain_iff, hs.contains_domain_iff, hends.1, hends.2]
      rw [sliceIndex?_eq_none_iff.2 (hdomain.trans (sliceIndex?_eq_none_iff.1 hm))]

/-- A further breakpoint leaves the ends of time as they are. -/
theorem Ordered.domain_sample (h : x.Ordered) (t : Float) : (x.sample t).1.domain = x.domain := by
  rcases sample_eq h t with ⟨heq, -⟩ | ⟨i, hi, -, -, -, heq⟩
  · rw [heq]
  · have hs := h.sample t
    rw [heq] at hs ⊢
    rw [hs.domain_eq, h.domain_eq, sliceCount_splitSlice hi, time_splitSlice h.toFits hi,
      time_splitSlice h.toFits hi]
    simp [show ¬x.sliceCount + 1 < i + 1 by omega, show x.sliceCount ≠ i by omega]

/-- Breakpoints stay when another one comes in. -/
theorem Ordered.mem_times_sample (h : x.Ordered) (t : Float) (hs : s ∈ x.times) :
    s ∈ (x.sample t).1.times := by
  rcases sample_eq h t with ⟨heq, -⟩ | ⟨i, hi, -, -, -, heq⟩
  · rwa [heq]
  · have hle : i + 1 ≤ x.times.size := by
      have := h.size_times
      omega
    have htimes : (x.splitSlice i t (x.codomain i)).times =
        x.times.insertIdxIfInBounds (i + 1) t := rfl
    rw [heq, htimes, Array.insertIdxIfInBounds, dif_pos hle, Array.mem_insertIdx]
    exact Or.inr hs

end Sample

variable {x y : Tube Interval} {t : Float}

/-- Parts of the gates and codomains make for parts of the values. -/
theorem eval_isSubset_of_parts (hy : y.Fits) (hx : x.Fits) (htimes : y.times = x.times)
    (hcodomain : ∀ i, (y.codomain i).isSubset (x.codomain i) = true)
    (hgate : ∀ k, (y.gate k).isSubset (x.gate k) = true) (t : Float) :
    (y.eval t).isSubset (x.eval t) = true := by
  obtain ⟨hgates, hslices⟩ := indices_of_times hy hx htimes
  rw [Tube.eval, Tube.eval, hgates, hslices]
  cases x.gateIndex? t with
  | some k => exact hgate k
  | none =>
    cases x.sliceIndex? t with
    | some i => exact hcodomain i
    | none => exact Interval.numeric_empty.isSubset_self

theorem Shrinks.eval (h : y.Shrinks x) (hx : x.Regular) (t : Float) :
    (y.eval t).isSubset (x.eval t) = true :=
  eval_isSubset_of_parts h.regular.toFits hx.toFits h.times h.codomain h.gate t

end Tube

namespace TubeVector

variable {x y z a b : TubeVector Interval} {t : Float} {j : ℕ}

/-! ### Vectors within another one -/

/-- A regular vector with the dimension and the ends of another one, and with its values inside. -/
structure Within (y x : TubeVector Interval) : Prop extends y.Continues x where
  eval : ∀ j < x.dimension, ∀ t,
    ((y.component j).eval t).isSubset ((x.component j).eval t) = true

theorem Regular.within (h : x.Regular) : x.Within x where
  toContinues := h.continues
  eval _ hj t := (h.numeric_read hj (.value t)).isSubset_self

theorem Within.trans (hzy : z.Within y) (hyx : y.Within x) : z.Within x where
  toContinues := hzy.toContinues.trans hyx.toContinues
  eval j hj t := Interval.isSubset_trans (hzy.eval j (hyx.dimension ▸ hj) t) (hyx.eval j hj t)

/-- Components related one by one, read at one place. -/
theorem component_of_forall₂ {Q : Tube Interval → Tube Interval → Prop}
    (h : List.Forall₂ Q y.components x.components) (hj : j < x.dimension) :
    Q (y.component j) (x.component j) := by
  have hj' : j < y.components.length := h.length_eq.trans_gt hj
  rw [TubeVector.component, TubeVector.component, List.getD_eq_getElem _ _ hj,
    List.getD_eq_getElem _ _ hj']
  exact (List.forall₂_iff_get.1 h).2 j hj' hj

theorem Shrinks.component (h : y.Shrinks x) (hj : j < x.dimension) :
    (y.component j).Shrinks (x.component j) :=
  component_of_forall₂ h hj

theorem Regular.within_of_shrinks (h : x.Regular) (hy : y.Shrinks x) : y.Within x where
  toContinues := (h.amends_of_shrinks hy).toContinues
  eval _ hj t := (hy.component hj).eval (h.components _ (component_mem hj)) t

theorem Regular.within_sample (h : x.Regular) (ht : t ≠ -0.0) : (x.sample t).1.Within x where
  toContinues := h.sample ht
  eval j hj s := by
    have hcomponent : (x.sample t).1.component j = ((x.component j).sample t).1 := by
      refine component_of_getElem? ?_
      rw [components_sample, List.getElem?_map, getElem?_component hj]
      rfl
    rw [hcomponent, (h.components _ (component_mem hj)).ordered.eval_sample t]
    exact (h.numeric_read hj (.value s)).isSubset_self

/-- Both halves of a split are within the vector. -/
theorem Regular.within_of_bisectAt (h : x.Regular) (ht : t ≠ -0.0) {k : ℕ} {ratio : Float}
    (hab : x.bisectAt t k ratio = .ok (a, b)) : a.Within x ∧ b.Within x := by
  have hsettles := h.bisectAt ht k ratio
  rw [hab] at hsettles
  have hs := h.within_sample ht
  exact ⟨(hs.regular.within_of_shrinks hsettles.1).trans hs,
    (hs.regular.within_of_shrinks hsettles.2).trans hs⟩

/-- The hull of two vectors within is within. -/
theorem Within.hull (ha : a.Within x) (hb : b.Within x) (h : a.hull b = .ok z) : z.Within x := by
  obtain ⟨w, hw, hcontinues, hjoins⟩ := ha.toContinues.exists_combine
    Interval.keepsInclusion_union Interval.union_empty hb.toContinues
  obtain rfl : w = z := Except.ok.inj (hw.symm.trans h)
  refine ⟨hcontinues, fun j hj t => ?_⟩
  have hread : (w.component j).eval t = (a.component j).eval t ∪ (b.component j).eval t :=
    hjoins.read j (hcontinues.dimension ▸ hj) (.value t)
  rw [hread]
  exact Interval.union_isSubset (ha.eval j hj t) (hb.eval j hj t)

end TubeVector

end FlowTube
