import FlowTube.TubeVector.Basic

/-! Well-formed tubes: one more breakpoint and gate than slices, at least one slice,
strictly increasing breakpoints, and gates inside the codomains on both sides. The
components of a well-formed vector also share their breakpoints. -/

namespace FlowTube

variable {ι : Type} [Enclosure ι]

/-- The numbers of breakpoints, codomains and gates fit together. -/
structure Tube.Fits (x : Tube ι) : Prop where
  someSlice : 0 < x.codomains.size
  times : x.times.size = x.codomains.size + 1
  gates : x.gates.size = x.codomains.size + 1

/-- A tube as every operation expects it. -/
structure Tube.WellFormed (x : Tube ι) : Prop extends x.Fits where
  increasing : x.times.toList.Pairwise (· < ·)
  insideLeft : ∀ i < x.sliceCount, Enclosure.isSubset (x.gate i) (x.codomain i)
  insideRight : ∀ i < x.sliceCount, Enclosure.isSubset (x.gate (i + 1)) (x.codomain i)

/-- A vector of well-formed tubes over one partition. -/
structure TubeVector.WellFormed (x : TubeVector ι) : Prop where
  someComponent : x.components ≠ []
  components : ∀ c ∈ x.components, c.WellFormed
  shared : ∀ c ∈ x.components, c.times = x.times

namespace Tube

theorem fits_setGate {x : Tube ι} (h : x.Fits) (k : Nat) (y : ι) : (x.setGate k y).Fits := by
  obtain ⟨h1, h2, h3⟩ := h
  constructor <;> simpa only [setGate, Array.size_setIfInBounds]

theorem fits_enforceGates {x : Tube ι} (h : x.Fits) : x.enforceGates.Fits := by
  obtain ⟨h1, h2, h3⟩ := h
  constructor <;> simpa only [enforceGates, Array.size_mapIdx]

theorem size_insertIdxIfInBounds {α : Type} {xs : Array α} {i : Nat} {a : α} (h : i ≤ xs.size) :
    (xs.insertIdxIfInBounds i a).size = xs.size + 1 := by
  simp [Array.insertIdxIfInBounds, h]

end Tube

end FlowTube
