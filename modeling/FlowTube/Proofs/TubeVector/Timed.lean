import FlowTube.Proofs.Interval.Inclusion
import FlowTube.Proofs.TubeVector.Encloses

/-! Breakpoints in order. Two of them may be equal, and the first and the last one may be infinite:
a partition in steps too small for its times repeats a breakpoint, and a tube that comes from a tree
of slices may reach to an infinity. Such tubes have values at the real times all the same, but a
slice of theirs may have no width, or none that is a real. -/

namespace FlowTube

open Binary64 (value real)

variable {ι : Type}

/-! ### Moments -/

namespace Tube

/-- Breakpoints in order with a gate each, and a codomain between any two neighbours. -/
structure Timed (x : Tube ι) : Prop extends x.Fits where
  ordered : x.times.toList.Pairwise (· ≤ ·)

variable {x : Tube ι} {i j k : ℕ} {t : ℝ}

theorem Ordered.timed (h : x.Ordered) : x.Timed :=
  ⟨h.toFits, h.increasing.imp Binary64.le_of_lt⟩

namespace Timed

theorem size_times (h : x.Timed) : x.times.size = x.sliceCount + 1 := h.times

theorem time_le_time (h : x.Timed) (hij : i < j) (hj : j ≤ x.sliceCount) :
    x.time i ≤ x.time j := by
  have hsize := h.size_times
  have hle := List.pairwise_iff_getElem.1 h.ordered i j (by simp; omega) (by simp; omega) hij
  rw [time_eq_getElem (by omega), time_eq_getElem (by omega)]
  simpa using hle

/-- A breakpoint has another one on at least one side, so it is a number. -/
theorem isNaN_time (h : x.Timed) (hk : k ≤ x.sliceCount) : (x.time k).isNaN = false := by
  rcases Nat.eq_or_lt_of_le hk with rfl | hlt
  · exact (Binary64.le_iff.1 (h.time_le_time h.someSlice le_rfl)).2.1
  · exact (Binary64.le_iff.1 (h.time_le_time (Nat.lt_succ_self k) hlt)).1

theorem moment_le_moment (h : x.Timed) (hij : i ≤ j) (hj : j ≤ x.sliceCount) :
    x.moment i ≤ x.moment j := by
  rcases Nat.eq_or_lt_of_le hij with rfl | hlt
  · exact le_rfl
  · exact (Binary64.le_iff.1 (h.time_le_time hlt hj)).2.2

theorem mem_domain (h : x.Timed) (hlow : x.moment 0 ≤ t) (hup : t ≤ x.moment x.sliceCount) :
    t ∈ x.domain := by
  rw [domain, h.size_times, Nat.add_sub_cancel]
  exact Interval.mem_ofBounds.2
    ⟨⟨h.isNaN_time (Nat.zero_le _), hlow⟩, h.isNaN_time le_rfl, hup⟩

theorem mem_sliceDomain_iff (h : x.Timed) (hi : i < x.sliceCount) :
    t ∈ x.sliceDomain i ↔ x.moment i ≤ t ∧ t ≤ x.moment (i + 1) := by
  constructor
  · intro ht
    obtain ⟨hlow, hup⟩ := Interval.mem_ofBounds.1 ht
    exact ⟨hlow.2, hup.2⟩
  · rintro ⟨hlow, hup⟩
    exact Interval.mem_ofBounds.2 ⟨⟨h.isNaN_time hi.le, hlow⟩, h.isNaN_time hi, hup⟩

theorem mem_point_iff (h : x.Timed) (hk : k ≤ x.sliceCount) :
    t ∈ Interval.point (x.time k) ↔ x.moment k = t := by
  constructor
  · intro ht
    obtain ⟨hlow, hup⟩ := Interval.mem_ofBounds.1 ht
    exact le_antisymm hlow.2 hup.2
  · intro ht
    exact Interval.mem_ofBounds.2 ⟨⟨h.isNaN_time hk, ht.le⟩, h.isNaN_time hk, ht.ge⟩

/-- Between bounded ends every breakpoint is a real. -/
theorem moment_eq_real (h : x.Timed) (hdomain : x.domain.isBounded = true)
    (hk : k ≤ x.sliceCount) : x.moment k = real (x.time k) := by
  have heq : x.domain = ⟨x.time 0, x.time x.sliceCount⟩ := by
    have hcases := Interval.ofBounds_cases (x.time 0) (x.time x.sliceCount)
    rw [domain, h.size_times, Nat.add_sub_cancel] at hdomain ⊢
    rcases hcases with hempty | ⟨hle, htop, hbot⟩
    · rw [hempty] at hdomain
      exact absurd hdomain (by decide)
    · exact Interval.ofBounds_of_le hle htop hbot
  have hfirst := h.isNaN_time (Nat.zero_le x.sliceCount)
  have hlast := h.isNaN_time (Nat.le_refl x.sliceCount)
  have hnumber := h.isNaN_time hk
  rw [heq] at hdomain
  obtain ⟨hlb, hub⟩ := Interval.isFinite_bounds (a := ⟨x.time 0, x.time x.sliceCount⟩) hfirst
    hlast hdomain
  apply Binary64.value_of_isFinite
  apply Binary64.isFinite_of_between hlb hub
  · exact Binary64.le_iff.2 ⟨hfirst, hnumber, h.moment_le_moment (Nat.zero_le k) hk⟩
  · exact Binary64.le_iff.2 ⟨hnumber, hlast, h.moment_le_moment hk le_rfl⟩

end Timed

end Tube

namespace TubeVector

/-- Components with one list of breakpoints in order. -/
structure Timed (x : TubeVector ι) : Prop where
  someComponent : x.components ≠ []
  components : ∀ c ∈ x.components, c.Timed
  shared : ∀ c ∈ x.components, c.times = x.times

variable {x : TubeVector ι}

theorem Sliced.timed (h : x.Sliced) : x.Timed :=
  ⟨h.someComponent, fun c hc => (h.components c hc).ordered.timed, h.shared⟩

theorem WellFormed.timed [Enclosure ι] (h : x.WellFormed) : x.Timed :=
  ⟨h.someComponent, fun c hc => (h.ordered.components c hc).timed, h.shared⟩

theorem Timed.first (h : x.Timed) : x.first.Timed :=
  h.components _ (first_mem_of_ne_nil h.someComponent)

theorem Timed.sliceCount_eq (h : x.Timed) {c : Tube ι} (hc : c ∈ x.components) :
    c.sliceCount = x.sliceCount :=
  Tube.sliceCount_eq_of_times (h.components c hc).toFits h.first.toFits (h.shared c hc)

theorem Timed.moment_eq (h : x.Timed) {c : Tube ι} (hc : c ∈ x.components) (k : ℕ) :
    c.moment k = x.first.moment k := by
  have hshared : c.times = x.first.times := h.shared c hc
  rw [Tube.moment, Tube.moment, Tube.time, Tube.time, hshared]

/-! ### One component -/

section Single

variable {times : Array Float} {codomains : Array ι} {e : ι}

/-- One component with the given codomains, and one gate at all its breakpoints. -/
def single (times : Array Float) (codomains : Array ι) (e : ι) : TubeVector ι :=
  ⟨[{ times, codomains, gates := Array.replicate times.size e }]⟩

theorem eq_of_getElem?_single {j : ℕ} {c : Tube ι}
    (h : (single times codomains e).components[j]? = some c) :
    j = 0 ∧ c = ⟨times, codomains, Array.replicate times.size e⟩ := by
  obtain ⟨hj, rfl⟩ := List.getElem?_eq_some_iff.1 h
  obtain rfl : j = 0 := Nat.lt_one_iff.1 hj
  exact ⟨rfl, rfl⟩

theorem timed_single (hsome : 0 < codomains.size) (hsize : times.size = codomains.size + 1)
    (hordered : times.toList.Pairwise (· ≤ ·)) : (single times codomains e).Timed := by
  refine ⟨List.cons_ne_nil _ _, fun c hc => ?_, fun c hc => ?_⟩
  · obtain rfl := List.mem_singleton.1 hc
    exact ⟨⟨hsome, hsize, Array.size_replicate.trans hsize⟩, hordered⟩
  · obtain rfl := List.mem_singleton.1 hc
    rfl

theorem holdsAt_single [Enclosure ι] [Membership ℝ ι] {X : ℝ → ℕ → ℝ}
    (hsize : times.size = codomains.size + 1) (hc : ∀ c ∈ codomains, ∀ t, X t 0 ∈ c)
    (he : ∀ t, X t 0 ∈ e) (t : ℝ) : (single times codomains e).HoldsAt X t := by
  intro j c hj
  obtain ⟨rfl, rfl⟩ := eq_of_getElem?_single hj
  constructor
  · intro k hk _
    have hgate : k < (Array.replicate times.size e).size := by
      rw [Array.size_replicate, hsize]
      exact Nat.lt_succ_of_le hk
    rw [Tube.gate_eq_getElem hgate, Array.getElem_replicate]
    exact he t
  · intro i hi _ _
    rw [Tube.codomain_eq_getElem hi]
    exact hc _ (Array.getElem_mem hi) t

/-- One interval throughout, over two slices of which the second one has no end. -/
def endless (a : ι) : TubeVector ι := single #[0.0, 1.0, Binary64.inf] #[a, a] a

theorem timed_endless (a : ι) : (endless a).Timed :=
  timed_single (Nat.succ_pos _) rfl (by decide +kernel)

/-- The last slice has all the times from one on. -/
theorem one_mem_endless (a : ι) : (1 : ℝ) ∈ (endless a).sliceDomain 1 := by
  have hone : value 1.0 = (1 : ℝ) := (Binary64.value_of_isFinite rfl).trans
    (congrArg _ Binary64.real_one)
  have hend : (endless a).first.moment 2 = ⊤ := Binary64.value_inf
  exact ((timed_endless a).first.mem_sliceDomain_iff (Nat.lt_succ_self 1)).2
    ⟨hone.le, hend ▸ le_top⟩

theorem holdsAt_endless [Enclosure ι] [Membership ℝ ι] {X : ℝ → ℕ → ℝ} {a : ι}
    (h : ∀ t, X t 0 ∈ a) (t : ℝ) : (endless a).HoldsAt X t :=
  holdsAt_single rfl (by simpa using h) h t

/-- One interval throughout, over the partition in steps of one from `2 ^ 53` to `2 ^ 53 + 4`, which
repeats its start. -/
def repeating (a : ι) : TubeVector ι :=
  single #[9007199254740992.0, 9007199254740992.0, 9007199254740994.0, 9007199254740996.0]
    #[a, a, a] a

theorem uniform_eq_repeating (a : ι) :
    uniform ⟨9007199254740992.0, 9007199254740996.0⟩ 1.0 [a] = .ok (repeating a) := by
  have htimes : Tube.partition ⟨9007199254740992.0, 9007199254740996.0⟩ 1.0 =
      [9007199254740992.0, 9007199254740992.0, 9007199254740994.0, 9007199254740996.0] := by
    decide +kernel
  have hdomain : (!(⟨9007199254740992.0, 9007199254740996.0⟩ : Interval).isDegenerate &&
      !(⟨9007199254740992.0, 9007199254740996.0⟩ : Interval).isUnbounded) = true := by
    decide +kernel
  have htube : Tube.uniform ⟨9007199254740992.0, 9007199254740996.0⟩ 1.0 a =
      .ok ((repeating a).component 0) := by
    rw [Tube.uniform, if_pos hdomain, htimes]
    rfl
  change [a].mapM _ >>= _ = _
  rw [List.mapM_cons, htube]
  rfl

theorem timed_repeating (a : ι) : (repeating a).Timed :=
  timed_single (Nat.succ_pos _) rfl (by decide +kernel)

/-- The first slice has one time only. -/
theorem isDegenerate_repeating (a : ι) : ((repeating a).sliceDomain 0).isDegenerate = true := by
  change (Interval.ofBounds 9007199254740992.0 9007199254740992.0).isDegenerate = true
  decide +kernel

theorem start_mem_repeating (a : ι) :
    real 9007199254740992.0 ∈ (repeating a).sliceDomain 0 := by
  have hstart : value 9007199254740992.0 = real 9007199254740992.0 :=
    Binary64.value_of_isFinite (by decide +kernel)
  exact ((timed_repeating a).first.mem_sliceDomain_iff (Nat.succ_pos 2)).2 ⟨hstart.le, hstart.ge⟩

theorem holdsAt_repeating [Enclosure ι] [Membership ℝ ι] {X : ℝ → ℕ → ℝ} {a : ι}
    (h : ∀ t, X t 0 ∈ a) (t : ℝ) : (repeating a).HoldsAt X t :=
  holdsAt_single rfl (by simpa using h) h t

end Single

end TubeVector

end FlowTube
