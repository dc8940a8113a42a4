import FlowTube.Proofs.Tube.Sliced

/-! Functions of time in a tube. A tube encloses a function if each gate has its value at the
breakpoint and each codomain its values over the slice. A tube that encloses a function is not
empty, its values contain those of the function, and it keeps the function when it is sampled,
when parts of it are replaced by others that hold the function, and in one of the halves of a
split. One may also ask time by time whether the value is inside. That makes sense for breakpoints
at an infinity too, which are no real times; where all are finite it comes to the same. -/

namespace FlowTube.Tube

open Binary64 (real value)

variable {ι : Type} [Enclosure ι] [Membership ℝ ι]

/-- The function passes through every gate and stays in every codomain. -/
structure Encloses (x : Tube ι) (g : ℝ → ℝ) : Prop where
  gate : ∀ k ≤ x.sliceCount, g (x.instant k) ∈ x.gate k
  codomain : ∀ i < x.sliceCount, ∀ t, x.instant i ≤ t → t ≤ x.instant (i + 1) → g t ∈ x.codomain i

/-- The value at `t` is in the gate at `t`, if there is one, and in the codomain of every slice
with `t`. -/
def HoldsAt (x : Tube ι) (g : ℝ → ℝ) (t : ℝ) : Prop :=
  (∀ k ≤ x.sliceCount, x.moment k = t → g t ∈ x.gate k) ∧
    ∀ i < x.sliceCount, x.moment i ≤ t → t ≤ x.moment (i + 1) → g t ∈ x.codomain i

variable {x y : Tube ι} {g : ℝ → ℝ} {i k : ℕ} {t : Float}

/-- Between finite breakpoints a function is enclosed if it is held at every time. -/
theorem Sliced.encloses_iff (h : x.Sliced) : x.Encloses g ↔ ∀ τ, x.HoldsAt g τ := by
  constructor
  · intro hg τ
    constructor
    · intro k hk hτ
      rw [h.moment_eq hk, EReal.coe_eq_coe_iff] at hτ
      subst hτ
      exact hg.gate k hk
    · intro i hi hlow hup
      rw [h.moment_eq hi.le, EReal.coe_le_coe_iff] at hlow
      rw [h.moment_eq hi, EReal.coe_le_coe_iff] at hup
      exact hg.codomain i hi τ hlow hup
  · intro hg
    constructor
    · intro k hk
      exact (hg (x.instant k)).1 k hk (h.moment_eq hk)
    · intro i hi τ hlow hup
      apply (hg τ).2 i hi
      · rwa [h.moment_eq hi.le, EReal.coe_le_coe_iff]
      · rwa [h.moment_eq hi, EReal.coe_le_coe_iff]

/-! ### Values -/

section Values

variable [Enclosure.Lawful ι]

theorem Encloses.isEmpty (h : x.Encloses g) (hs : x.Sliced) : x.isEmpty = false := by
  have hcod : x.codomains.any Enclosure.isEmpty = false := by
    refine Array.any_eq_false.2 fun i hi hempty => ?_
    have hmem := h.codomain i hi (x.instant i) le_rfl (hs.instant_le_instant (Nat.le_succ i) hi)
    rw [codomain_eq_getElem hi] at hmem
    rw [Enclosure.Lawful.isEmpty_of_mem hmem] at hempty
    contradiction
  have hgate : x.gates.any Enclosure.isEmpty = false := by
    refine Array.any_eq_false.2 fun k hk hempty => ?_
    have hmem := h.gate k (by have := hs.size_gates; omega)
    rw [gate_eq_getElem hk] at hmem
    rw [Enclosure.Lawful.isEmpty_of_mem hmem] at hempty
    contradiction
  rw [Tube.isEmpty, hcod, hgate]
  rfl

end Values

theorem Encloses.mem_eval (h : x.Encloses g) (hs : x.Sliced) (ht : t.isFinite = true)
    (hlow : x.instant 0 ≤ real t) (hup : real t ≤ x.instant x.sliceCount) :
    g (real t) ∈ x.eval t := by
  unfold eval
  cases hgate : x.gateIndex? t with
  | some k =>
    obtain ⟨hk, rfl⟩ := time_of_gateIndex? hgate
    exact h.gate k (by have := hs.size_times; omega)
  | none =>
    obtain ⟨i, hi⟩ := hs.exists_sliceIndex? ht hlow hup
    obtain ⟨hlt, -, hstart, hend, -⟩ := hs.sliceIndex?_spec hi
    rw [hi]
    exact h.codomain i hlt _ hstart hend

/-! ### Changes -/

theorem HoldsAt.splitSlice {τ : ℝ} (h : x.HoldsAt g τ) (hx : x.Ordered) (hi : i < x.sliceCount)
    (hlow : x.moment i < value t) (hup : value t < x.moment (i + 1)) :
    (x.splitSlice i t (x.codomain i)).HoldsAt g τ := by
  obtain ⟨hgate, hcodomain⟩ := h
  have hcount : (x.splitSlice i t (x.codomain i)).sliceCount = x.sliceCount + 1 :=
    sliceCount_splitSlice hi
  constructor
  · intro k hk
    rw [moment_splitSlice hx.toFits hi, gate_splitSlice hx.toFits hi]
    split_ifs
    · exact hgate k (by omega)
    · exact fun hτ => hcodomain i hi (hτ ▸ hlow.le) (hτ ▸ hup.le)
    · exact hgate (k - 1) (by omega)
  · intro k hk
    rw [moment_splitSlice hx.toFits hi, moment_splitSlice hx.toFits hi, codomain_splitSlice hi]
    rcases Nat.lt_trichotomy k i with hki | rfl | hki
    · rw [if_pos (by omega), if_pos (by omega), if_pos (by omega)]
      exact hcodomain k (by omega)
    · rw [if_pos (Nat.lt_succ_self k), if_neg (Nat.lt_irrefl _), if_pos rfl,
        if_pos (Nat.lt_succ_self k)]
      exact fun hstart hend => hcodomain k hi hstart (hend.trans hup.le)
    · simp only [show ¬k < i + 1 by omega, show ¬k + 1 < i + 1 by omega,
        show ¬k + 1 = i + 1 by omega, if_false, Nat.add_sub_cancel]
      split_ifs with hk'
      · rw [hk']
        exact fun hstart hend => hcodomain i hi (hlow.le.trans hstart) hend
      · have hprev := hcodomain (k - 1) (by omega)
        rwa [Nat.sub_add_cancel (by omega)] at hprev

theorem HoldsAt.sample {τ : ℝ} (h : x.HoldsAt g τ) (hx : x.Ordered) (t : Float) :
    (x.sample t).1.HoldsAt g τ := by
  rcases sample_eq hx t with ⟨heq, -⟩ | ⟨i, hi, -, hlow, hup, heq⟩
  · rwa [heq]
  · rw [heq]
    exact h.splitSlice hx hi hlow hup

theorem Encloses.sample (h : x.Encloses g) (hs : x.Sliced) (t : Float) :
    (x.sample t).1.Encloses g :=
  (hs.sample t).encloses_iff.2 fun τ => (hs.encloses_iff.1 h τ).sample hs.ordered t

/-- Gate `k` may be replaced by what has the value there. -/
theorem Encloses.putGate (h : x.Encloses g) {y : ι} (hy : g (x.instant k) ∈ y) :
    ({ x with gates := x.gates.setIfInBounds k y } : Tube ι).Encloses g := by
  refine ⟨fun m hm => ?_, h.codomain⟩
  have hgate := h.gate m hm
  simp only [Tube.gate, Array.getD_eq_getD_getElem?, Array.getElem?_setIfInBounds] at hgate ⊢
  split_ifs with heq hlt
  · subst heq
    exact hy
  · rw [Array.getElem?_eq_none (by omega)] at hgate
    exact hgate
  · exact hgate

/-- The codomain of slice `i` may be replaced by what has the values there. -/
theorem Encloses.putCodomain (h : x.Encloses g) {y : ι}
    (hy : ∀ t, x.instant i ≤ t → t ≤ x.instant (i + 1) → g t ∈ y) :
    ({ x with codomains := x.codomains.setIfInBounds i y } : Tube ι).Encloses g := by
  have hcount : ({ x with codomains := x.codomains.setIfInBounds i y } : Tube ι).sliceCount =
      x.sliceCount := Array.size_setIfInBounds
  refine ⟨fun k hk => h.gate k (hcount ▸ hk), fun m hm t hlow hup => ?_⟩
  rw [hcount] at hm
  have hcod := h.codomain m hm t hlow hup
  simp only [Tube.codomain, Array.getD_eq_getD_getElem?, Array.getElem?_setIfInBounds] at hcod ⊢
  split_ifs with heq hlt
  · subst heq
    exact hy t hlow hup
  · exact absurd (heq ▸ hm) hlt
  · exact hcod

/-- A slice may be replaced by one that holds the function. -/
theorem Encloses.putSlice (h : x.Encloses g) {c a b : ι}
    (hc : ∀ t, x.instant i ≤ t → t ≤ x.instant (i + 1) → g t ∈ c) (ha : g (x.instant i) ∈ a)
    (hb : g (x.instant (i + 1)) ∈ b) : (x.putSlice i c a b).Encloses g :=
  ((h.putCodomain hc).putGate ha).putGate hb

/-- The value at a breakpoint is in the codomains on both sides. -/
theorem Encloses.mem_insideNeighbours [Enclosure.Lawful ι] (h : x.Encloses g) (hs : x.Sliced)
    (hk : k ≤ x.sliceCount) {y : ι} (hy : g (x.instant k) ∈ y) :
    g (x.instant k) ∈ x.insideNeighbours k y := by
  have hleft : g (x.instant k) ∈ if 0 < k then y ∩ x.codomain (k - 1) else y := by
    split_ifs with hpos
    · refine Enclosure.Lawful.mem_inter hy (h.codomain (k - 1) (by omega) _ ?_ ?_)
      · exact hs.instant_le_instant (Nat.sub_le k 1) hk
      · rw [Nat.sub_add_cancel hpos]
    · exact hy
  unfold insideNeighbours
  by_cases hlast : k < x.sliceCount
  · rw [if_pos hlast]
    exact Enclosure.Lawful.mem_inter hleft
      (h.codomain k hlast _ le_rfl (hs.instant_le_instant (Nat.le_succ k) hlast))
  · rw [if_neg hlast]
    exact hleft

omit [Membership ℝ ι] in
theorem gate_enforceGates (hk : k < x.gates.size) :
    x.enforceGates.gate k = x.insideNeighbours k (x.gate k) := by
  rw [gate_eq_getElem (show k < x.enforceGates.gates.size by simpa [Tube.enforceGates] using hk),
    gate_eq_getElem hk]
  simp [Tube.enforceGates]

theorem Encloses.enforceGates [Enclosure.Lawful ι] (h : x.Encloses g) (hs : x.Sliced) :
    x.enforceGates.Encloses g := by
  refine ⟨fun k hk => ?_, h.codomain⟩
  have hk' : k < x.gates.size := by
    have := hs.size_gates
    change k ≤ x.sliceCount at hk
    omega
  rw [gate_enforceGates hk']
  exact h.mem_insideNeighbours hs hk (h.gate k hk)

end FlowTube.Tube
