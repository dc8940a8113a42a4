import FlowTube.Proofs.Enclosure.Laws
import FlowTube.Proofs.Tube.Breakpoints

/-! Tubes over finite breakpoints. Each breakpoint is then an instant on the real axis, and what
is known of a time among increasing breakpoints is read off its real. -/

namespace FlowTube

namespace Tube

variable {ι : Type}

/-! ### Breakpoints -/

/-- Finite, strictly increasing breakpoints with a gate each, and a codomain between any two. -/
structure Sliced (x : Tube ι) : Prop extends x.Fits where
  increasing : x.times.toList.Pairwise (· < ·)
  finite : ∀ t ∈ x.times, t.isFinite = true

/-- Breakpoint `k` on the real axis. -/
noncomputable def instant (x : Tube ι) (k : ℕ) : ℝ := Binary64.real (x.time k)

variable {x : Tube ι} {i j k : ℕ} {t : Float}

namespace Sliced

theorem ordered (h : x.Sliced) : x.Ordered := ⟨h.toFits, h.increasing⟩

theorem size_times (h : x.Sliced) : x.times.size = x.sliceCount + 1 := h.times

theorem size_gates (h : x.Sliced) : x.gates.size = x.sliceCount + 1 := h.gates

theorem isFinite_time (h : x.Sliced) (hk : k ≤ x.sliceCount) : (x.time k).isFinite = true :=
  h.finite _ (time_mem (by have := h.size_times; omega))

theorem moment_eq (h : x.Sliced) (hk : k ≤ x.sliceCount) : x.moment k = x.instant k :=
  Binary64.value_of_isFinite (h.isFinite_time hk)

theorem instant_lt_instant (h : x.Sliced) (hij : i < j) (hj : j ≤ x.sliceCount) :
    x.instant i < x.instant j := by
  have hlt := h.ordered.moment_lt_moment hij hj
  rwa [h.moment_eq (hij.le.trans hj), h.moment_eq hj, EReal.coe_lt_coe_iff] at hlt

theorem instant_le_instant (h : x.Sliced) (hij : i ≤ j) (hj : j ≤ x.sliceCount) :
    x.instant i ≤ x.instant j := by
  rcases Nat.eq_or_lt_of_le hij with rfl | hlt
  · exact le_rfl
  · exact (h.instant_lt_instant hlt hj).le

theorem sliceDomain_eq (h : x.Sliced) (hi : i < x.sliceCount) :
    x.sliceDomain i = ⟨x.time i, x.time (i + 1)⟩ := h.ordered.sliceDomain_eq hi

/-! ### The slice of a time -/

/-- What lies between two instants is finite. -/
theorem isFinite_of_between (h : x.Sliced) (hi : i ≤ x.sliceCount) (hj : j ≤ x.sliceCount)
    (ht : t.isNaN = false) (hlow : x.moment i ≤ Binary64.value t)
    (hup : Binary64.value t ≤ x.moment j) : t.isFinite = true :=
  Binary64.isFinite_of_between (h.isFinite_time hi) (h.isFinite_time hj)
    (Binary64.le_iff.2 ⟨h.ordered.isNaN_time hi, ht, hlow⟩)
    (Binary64.le_iff.2 ⟨ht, h.ordered.isNaN_time hj, hup⟩)

/-- The slice that is found starts at the time or before it and ends after it; only the last
slice may end at it. -/
theorem sliceIndex?_spec (h : x.Sliced) (hi : x.sliceIndex? t = some i) :
    i < x.sliceCount ∧ t.isFinite = true ∧ x.instant i ≤ Binary64.real t ∧
      Binary64.real t ≤ x.instant (i + 1) ∧
      (Binary64.real t < x.instant (i + 1) ∨ i + 1 = x.sliceCount) := by
  obtain ⟨hlt, ht, hstart, hend, hside⟩ := h.ordered.sliceIndex?_spec hi
  have hfinite := h.isFinite_of_between hlt.le hlt ht hstart hend
  rw [h.moment_eq hlt.le, Binary64.value_of_isFinite hfinite, EReal.coe_le_coe_iff] at hstart
  rw [h.moment_eq hlt, Binary64.value_of_isFinite hfinite] at hend hside
  rw [EReal.coe_le_coe_iff] at hend
  rw [EReal.coe_lt_coe_iff] at hside
  exact ⟨hlt, hfinite, hstart, hend, hside⟩

theorem exists_sliceIndex? (h : x.Sliced) (ht : t.isFinite = true)
    (hlow : x.instant 0 ≤ Binary64.real t) (hup : Binary64.real t ≤ x.instant x.sliceCount) :
    ∃ i, x.sliceIndex? t = some i := by
  refine h.ordered.exists_sliceIndex? (Binary64.isNaN_of_isFinite ht) ?_ ?_
  · rwa [h.moment_eq (Nat.zero_le _), Binary64.value_of_isFinite ht, EReal.coe_le_coe_iff]
  · rwa [h.moment_eq le_rfl, Binary64.value_of_isFinite ht, EReal.coe_le_coe_iff]

/-! ### Shape -/

/-- Another tube with the breakpoints and sizes of a sliced one is sliced. -/
theorem of_shape {κ : Type} {y : Tube κ} (h : x.Sliced) (htimes : y.times = x.times)
    (hcodomains : y.codomains.size = x.codomains.size) (hgates : y.gates.size = x.gates.size) :
    y.Sliced where
  someSlice := hcodomains ▸ h.someSlice
  times := by rw [htimes, hcodomains, h.times]
  gates := by rw [hgates, hcodomains, h.gates]
  increasing := htimes ▸ h.increasing
  finite := htimes ▸ h.finite

end Sliced

/-! ### A new breakpoint -/

section SplitSlice

variable {c : ι}

theorem Sliced.of_splitSlice (h : x.Sliced) (hi : i < x.sliceCount) (ht : t.isFinite = true)
    (hs : (x.splitSlice i t c).Ordered) : (x.splitSlice i t c).Sliced := by
  refine ⟨hs.toFits, hs.increasing, fun s hs' => ?_⟩
  obtain ⟨k, hk, rfl⟩ := exists_time_eq hs'
  rw [hs.size_times, sliceCount_splitSlice hi] at hk
  rw [time_splitSlice h.toFits hi]
  split_ifs
  · exact h.isFinite_time (by omega)
  · exact ht
  · exact h.isFinite_time (by omega)

end SplitSlice

/-- A sample leaves a tube as it is or splits the slice around the time by its codomain. -/
theorem sample_cases [Enclosure ι] (h : x.Sliced) (t : Float) :
    (x.sample t).1 = x ∨ ∃ i < x.sliceCount, t.isFinite = true ∧ x.instant i < Binary64.real t ∧
      Binary64.real t < x.instant (i + 1) ∧ (x.sample t).1 = x.splitSlice i t (x.codomain i) := by
  rcases sample_eq h.ordered t with ⟨heq, -⟩ | ⟨i, hi, ht, hlow, hup, heq⟩
  · exact Or.inl heq
  · have hfinite := h.isFinite_of_between hi.le hi ht hlow.le hup.le
    rw [h.moment_eq hi.le, Binary64.value_of_isFinite hfinite, EReal.coe_lt_coe_iff] at hlow
    rw [h.moment_eq hi, Binary64.value_of_isFinite hfinite, EReal.coe_lt_coe_iff] at hup
    exact Or.inr ⟨i, hi, hfinite, hlow, hup, heq⟩

theorem Sliced.sample [Enclosure ι] (h : x.Sliced) (t : Float) : (x.sample t).1.Sliced := by
  have hs := h.ordered.sample t
  rcases sample_cases h t with heq | ⟨i, hi, ht, -, -, heq⟩
  · rw [heq]
    exact h
  · rw [heq] at hs ⊢
    exact h.of_splitSlice hi ht hs

/-! ### The span of time -/

/-- The same first and last instant. -/
def SameSpan (x y : Tube ι) : Prop :=
  x.instant 0 = y.instant 0 ∧ x.instant x.sliceCount = y.instant y.sliceCount

theorem SameSpan.trans {y z : Tube ι} (hxy : x.SameSpan y) (hyz : y.SameSpan z) : x.SameSpan z :=
  ⟨hxy.1.trans hyz.1, hxy.2.trans hyz.2⟩

theorem Sliced.sameEnds_iff {y : Tube ι} (hx : x.Sliced) (hy : y.Sliced) :
    x.SameEnds y ↔ x.SameSpan y := by
  rw [SameEnds, hx.moment_eq (Nat.zero_le _), hx.moment_eq le_rfl, hy.moment_eq (Nat.zero_le _),
    hy.moment_eq le_rfl, EReal.coe_eq_coe_iff, EReal.coe_eq_coe_iff]
  rfl

theorem sameSpan_of_times {y : Tube ι} (hx : x.Sliced) (hy : y.Sliced) (h : x.times = y.times) :
    x.SameSpan y :=
  (hx.sameEnds_iff hy).1 (sameEnds_of_times hx.toFits hy.toFits h)

theorem domain_beq_iff {y : Tube ι} (hx : x.Sliced) (hy : y.Sliced) :
    (x.domain == y.domain) = true ↔ x.SameSpan y :=
  (hx.ordered.domain_beq_iff hy.ordered).trans (hx.sameEnds_iff hy)

theorem sameSpan_sample [Enclosure ι] (h : x.Sliced) (t : Float) : (x.sample t).1.SameSpan x :=
  ((h.sample t).sameEnds_iff h).1 (h.ordered.sameEnds_sample t)

end Tube

end FlowTube
