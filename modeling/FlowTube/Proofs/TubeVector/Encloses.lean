import FlowTube.Proofs.Computations
import FlowTube.Proofs.Tube.Merge

/-! Trajectories in tube vectors. A trajectory is a state for each time; a vector encloses it
if each component encloses its component. The components of a vector are sliced tubes; as a
rule they share their breakpoints, but each may be changed alone. Samples, hulls and splits
are taken component by component and keep both properties; a hull restores the second. -/

namespace FlowTube

namespace TubeVector

variable {ι : Type}

/-- At least one component, and each is a sliced tube. -/
structure Partitioned (x : TubeVector ι) : Prop where
  someComponent : x.components ≠ []
  components : ∀ c ∈ x.components, c.Sliced

/-- Sliced tubes over one partition. -/
structure Sliced (x : TubeVector ι) : Prop extends x.Partitioned where
  shared : ∀ c ∈ x.components, c.times = x.times

/-- The times of the slices are within the same first and last instant. -/
def SameSpan (x y : TubeVector ι) : Prop := x.first.SameSpan y.first

variable {x y z : TubeVector ι} {t : Float} {j k : ℕ}

theorem component_of_getElem? {c : Tube ι} (h : x.components[j]? = some c) : x.component j = c := by
  rw [component, List.getD_eq_getElem?_getD, h, Option.getD_some]

theorem getElem?_component (hj : j < x.dimension) : x.components[j]? = some (x.component j) := by
  rw [component, List.getD_eq_getElem _ _ hj, List.getElem?_eq_getElem hj]

theorem component_mem (hj : j < x.dimension) : x.component j ∈ x.components :=
  List.mem_of_getElem? (getElem?_component hj)

theorem first_mem_of_ne_nil (h : x.components ≠ []) : x.first ∈ x.components := by
  obtain ⟨c, cs, hc⟩ := List.exists_cons_of_ne_nil h
  rw [first, component, hc]
  exact List.mem_cons_self

namespace Partitioned

theorem first_mem (h : x.Partitioned) : x.first ∈ x.components :=
  first_mem_of_ne_nil h.someComponent

theorem first (h : x.Partitioned) : x.first.Sliced := h.components _ h.first_mem

end Partitioned

namespace Sliced

theorem sliceCount_eq (h : x.Sliced) {c : Tube ι} (hc : c ∈ x.components) :
    c.sliceCount = x.sliceCount := by
  have h1 := (h.components c hc).size_times
  have h2 := h.first.size_times
  rw [h.shared c hc] at h1
  change x.times.size = x.sliceCount + 1 at h2
  omega

theorem instant_eq (h : x.Sliced) {c : Tube ι} (hc : c ∈ x.components) :
    c.instant = x.first.instant := by
  funext k
  rw [Tube.instant, Tube.time, h.shared c hc]
  rfl

/-- A vector whose components are sliced over one list of breakpoints is sliced. -/
theorem of_components (ts : Array Float) (hsome : x.components ≠ [])
    (hsliced : ∀ c ∈ x.components, c.Sliced) (htimes : ∀ c ∈ x.components, c.times = ts) :
    x.Sliced where
  toPartitioned := ⟨hsome, hsliced⟩
  shared := fun d hd => (htimes d hd).trans (htimes _ (Partitioned.first_mem ⟨hsome, hsliced⟩)).symm

end Sliced

theorem domain_beq_iff (hx : x.Partitioned) (hy : y.Partitioned) :
    (x.domain == y.domain) = true ↔ x.SameSpan y :=
  Tube.domain_beq_iff hx.first hy.first

/-- Any two components tell the spans of their vectors. -/
theorem sameSpan_of_component (hx : x.Sliced) (hy : y.Sliced) {c d : Tube ι}
    (hc : c ∈ x.components) (hd : d ∈ y.components) (h : c.SameSpan d) : x.SameSpan y := by
  obtain ⟨h0, hn⟩ := h
  rw [hx.instant_eq hc, hy.instant_eq hd] at h0 hn
  rw [hx.sliceCount_eq hc, hy.sliceCount_eq hd] at hn
  exact ⟨h0, hn⟩

/-- A sliced vector with the dimension and the span of another one; the partitions may
differ. -/
structure CompatibleWith (y x : TubeVector ι) : Prop where
  sliced : y.Sliced
  dimension : y.dimension = x.dimension
  span : y.SameSpan x

theorem Sliced.compatible (h : x.Sliced) : x.CompatibleWith x := ⟨h, rfl, rfl, rfl⟩

theorem CompatibleWith.trans (hzy : z.CompatibleWith y) (hyx : y.CompatibleWith x) :
    z.CompatibleWith x :=
  ⟨hzy.sliced, hzy.dimension.trans hyx.dimension, Tube.SameSpan.trans hzy.span hyx.span⟩

/-- What a step keeps of the form of a vector. -/
structure KeepsForm (x y : TubeVector ι) : Prop where
  partitioned : x.Partitioned → y.Partitioned
  compatible : x.Sliced → y.CompatibleWith x

/-! ### Increasing breakpoints -/

/-- Tubes over the same increasing breakpoints. -/
structure Ordered (x : TubeVector ι) : Prop where
  someComponent : x.components ≠ []
  components : ∀ c ∈ x.components, c.Ordered
  shared : ∀ c ∈ x.components, c.times = x.times

theorem Ordered.first (h : x.Ordered) : x.first.Ordered :=
  h.components _ (first_mem_of_ne_nil h.someComponent)

theorem Ordered.sliceCount_eq (h : x.Ordered) {c : Tube ι} (hc : c ∈ x.components) :
    c.sliceCount = x.sliceCount :=
  Tube.sliceCount_eq_of_times (h.components c hc).toFits h.first.toFits (h.shared c hc)

theorem Sliced.ordered (h : x.Sliced) : x.Ordered :=
  ⟨h.someComponent, fun c hc => (h.components c hc).ordered, h.shared⟩

theorem WellFormed.ordered [Enclosure ι] (h : x.WellFormed) : x.Ordered :=
  ⟨h.someComponent, fun c hc => ⟨(h.components c hc).toFits, (h.components c hc).increasing⟩,
    h.shared⟩

theorem Ordered.sliceDomain_eq (h : x.Ordered) {i : ℕ} (hi : i < x.sliceCount) :
    x.sliceDomain i = ⟨x.first.time i, x.first.time (i + 1)⟩ :=
  h.first.sliceDomain_eq hi

theorem Ordered.domain_lt (h : x.Ordered) : x.domain.lb < x.domain.ub := by
  change x.first.domain.lb < x.first.domain.ub
  rw [h.first.domain_eq]
  exact h.first.time_lt_time h.first.sliceCount_pos le_rfl

/-! ### Samples -/

section Samples

theorem components_sample (x : TubeVector ι) (t : Float) :
    (x.sample t).1.components = x.components.map fun c => (c.sample t).1 := by
  simp [TubeVector.sample]

theorem first_sample (h : x.components ≠ []) (t : Float) :
    (x.sample t).1.first = (x.first.sample t).1 := by
  obtain ⟨c, cs, hc⟩ := List.exists_cons_of_ne_nil h
  simp [first, component, components_sample, hc]

theorem dimension_sample (x : TubeVector ι) (t : Float) :
    (x.sample t).1.dimension = x.dimension := by
  rw [dimension, components_sample, List.length_map, dimension]

variable [Enclosure ι]

theorem Partitioned.sample (h : x.Partitioned) (t : Float) : (x.sample t).1.Partitioned := by
  constructor <;> rw [components_sample]
  · simpa using h.someComponent
  · intro c hc
    obtain ⟨d, hd, rfl⟩ := List.mem_map.1 hc
    exact (h.components d hd).sample t

theorem Ordered.sample (h : x.Ordered) (t : Float) : (x.sample t).1.Ordered where
  someComponent := by
    rw [components_sample]
    simpa using h.someComponent
  components := by
    rw [components_sample, List.forall_mem_map]
    exact fun c hc => (h.components c hc).sample t
  shared := by
    rw [times, first_sample h.someComponent, components_sample, List.forall_mem_map]
    exact fun c hc => (h.components c hc).times_sample_eq h.first (h.shared c hc) t

/-- A sample at a breakpoint adds nothing. -/
theorem Ordered.sample_of_moment (h : x.Ordered) {t : Float} {k : ℕ} (hk : k ≤ x.sliceCount)
    (ht : x.first.moment k = Binary64.value t) : (x.sample t).1 = x := by
  have hsame : ∀ c ∈ x.components, (c.sample t).1 = c := by
    intro c hc
    have hcount : c.sliceCount = x.first.sliceCount := h.sliceCount_eq hc
    have htimes : c.times = x.first.times := h.shared c hc
    have hmoment : c.moment k = x.first.moment k := by
      simp only [Tube.moment, Tube.time, htimes]
    exact (h.components c hc).sample_of_moment (hcount ▸ hk) (hmoment.trans ht)
  have hcomponents : (x.sample t).1.components = x.components := by
    rw [components_sample, List.map_congr_left hsame, List.map_id']
  exact congrArg TubeVector.mk hcomponents

theorem Sliced.sample (h : x.Sliced) (t : Float) : (x.sample t).1.Sliced :=
  ⟨h.toPartitioned.sample t, (h.ordered.sample t).shared⟩

theorem keepsForm_sample (x : TubeVector ι) (t : Float) : x.KeepsForm (x.sample t).1 := by
  refine ⟨fun h => h.sample t, fun h => ?_⟩
  have hmem : (x.first.sample t).1 ∈ (x.sample t).1.components := by
    rw [components_sample]
    exact List.mem_map.2 ⟨x.first, h.first_mem, rfl⟩
  exact ⟨h.sample t, dimension_sample x t,
    sameSpan_of_component (h.sample t) h hmem h.first_mem (Tube.sameSpan_sample h.first t)⟩

end Samples

/-! ### Hulls -/

section Hulls

variable [Enclosure ι]

/-- Each component of a combination comes from those at its place, over the joint breakpoints of
the first ones. -/
theorem components_of_combine {op : Tube ι → Tube ι → Except Error (Tube ι)}
    (h : combine op x y = .ok z) : z.dimension = x.dimension ∧ z.dimension = y.dimension ∧
      ∀ (j : ℕ) (c : Tube ι), z.components[j]? = some c → ∃ a b, x.components[j]? = some a ∧
        y.components[j]? = some b ∧ op (a.refine (Tube.jointTimes x.first y.first))
          (b.refine (Tube.jointTimes x.first y.first)) = .ok c := by
  unfold combine at h
  split_ifs at h with hdim hdomain
  have hdim' : x.components.length = y.components.length := by simpa [dimension] using hdim
  obtain ⟨cs, hcs, h⟩ := bind_eq_ok.1 h
  obtain rfl := Except.ok.inj h
  obtain ⟨hlen, hget⟩ := getElem?_of_mapM hcs
  rw [List.length_zip, hdim', min_self] at hlen
  refine ⟨hlen.trans hdim'.symm, hlen, fun j c hc => ?_⟩
  obtain ⟨⟨a, b⟩, hab, hop⟩ := hget j c hc
  rw [List.getElem?_zip_eq_some] at hab
  exact ⟨a, b, hab.1, hab.2, hop⟩

theorem combine_eq_ok {op : Tube ι → Tube ι → Except Error (Tube ι)} (hx : x.Partitioned)
    (hy : y.Partitioned) (h : combine op x y = .ok z) :
    x.SameSpan y ∧ z.dimension = x.dimension ∧ z.dimension = y.dimension ∧
      ∀ (j : ℕ) (c : Tube ι), z.components[j]? = some c → ∃ a b, x.components[j]? = some a ∧
        y.components[j]? = some b ∧ op (a.refine (Tube.jointTimes x.first y.first))
          (b.refine (Tube.jointTimes x.first y.first)) = .ok c := by
  refine ⟨?_, components_of_combine h⟩
  unfold combine at h
  split_ifs at h with hdim hdomain
  exact (domain_beq_iff hx hy).1 (by simpa [bne] using hdomain)

/-- A hull is over the merged breakpoints of the first components. -/
theorem Partitioned.hull (hx : x.Partitioned) (hy : y.Partitioned) (h : x.hull y = .ok z) :
    z.Sliced ∧ z.times = Tube.jointTimes x.first y.first := by
  obtain ⟨hspan, hdim, -, hget⟩ := combine_eq_ok hx hy h
  obtain ⟨hrx, -⟩ := hx.first.refinedBy_jointTimes hy.first hspan
  have hpart : ∀ c ∈ z.components, c.Sliced ∧ c.times = Tube.jointTimes x.first y.first := by
    intro c hc
    obtain ⟨j, hj⟩ := List.mem_iff_getElem?.1 hc
    obtain ⟨a, b, -, -, hop⟩ := hget j c hj
    obtain ⟨hsliced, -, htimes⟩ := (hrx.sliced_refine_other hx.first a).combine
      (hrx.sliced_refine_other hx.first b) hop
    refine ⟨hsliced, ?_⟩
    rw [htimes, Tube.jointTimes, Tube.refine, Tube.refine, Tube.mergeTimes_self]
  have hz : z.Sliced := by
    refine Sliced.of_components (Tube.jointTimes x.first y.first) ?_ (fun c hc => (hpart c hc).1)
      fun c hc => (hpart c hc).2
    refine List.ne_nil_of_length_pos ?_
    change 0 < z.dimension
    rw [hdim]
    exact List.length_pos_of_ne_nil hx.someComponent
  exact ⟨hz, (hpart _ hz.first_mem).2⟩

/-- A hull has the dimension and the span of both vectors. -/
theorem Partitioned.compatible_hull (hx : x.Partitioned) (hy : y.Partitioned)
    (h : x.hull y = .ok z) : z.CompatibleWith x ∧ z.CompatibleWith y := by
  obtain ⟨hspan, hdim, hdim', -⟩ := combine_eq_ok hx hy h
  obtain ⟨hz, htimes⟩ := hx.hull hy h
  obtain ⟨hrx, hry⟩ := hx.first.refinedBy_jointTimes hy.first hspan
  have hzx := Tube.sameSpan_of_times hz.first (hrx.sliced_refine hx.first) htimes
  have hzy := Tube.sameSpan_of_times hz.first (hry.sliced_refine hy.first) htimes
  exact ⟨⟨hz, hdim, hzx.trans (hrx.sameSpan_refine hx.first)⟩,
    ⟨hz, hdim', hzy.trans (hry.sameSpan_refine hy.first)⟩⟩

end Hulls

/-! ### Enclosed trajectories -/

section Encloses

variable [Enclosure ι] [Membership ℝ ι]

/-- Each component encloses its component of the trajectory. -/
def Encloses (x : TubeVector ι) (X : ℝ → ℕ → ℝ) : Prop :=
  ∀ (j : ℕ) (c : Tube ι), x.components[j]? = some c → c.Encloses fun t => X t j

/-- Every component has its value at `t` inside. -/
def HoldsAt (x : TubeVector ι) (X : ℝ → ℕ → ℝ) (t : ℝ) : Prop :=
  ∀ (j : ℕ) (c : Tube ι), x.components[j]? = some c → c.HoldsAt (fun s => X s j) t

variable {X : ℝ → ℕ → ℝ}

theorem Partitioned.encloses_iff (hx : x.Partitioned) : x.Encloses X ↔ ∀ t, x.HoldsAt X t := by
  have hpart {j : ℕ} {c : Tube ι} (hc : x.components[j]? = some c) :=
    (hx.components c (List.mem_of_getElem? hc)).encloses_iff (g := fun s => X s j)
  constructor
  · intro hX t j c hc
    exact (hpart hc).1 (hX j c hc) t
  · intro hX j c hc
    exact (hpart hc).2 fun t => hX t j c hc

theorem Encloses.isEmpty [Enclosure.Lawful ι] (h : x.Encloses X) (hx : x.Partitioned) :
    x.isEmpty = false := by
  refine Bool.eq_false_iff.2 fun hempty => ?_
  obtain ⟨c, hc, hce⟩ := List.any_eq_true.1 hempty
  obtain ⟨j, hj⟩ := List.mem_iff_getElem?.1 hc
  rw [(h j c hj).isEmpty (hx.components c hc)] at hce
  contradiction

theorem Encloses.sample (h : x.Encloses X) (hx : x.Partitioned) (t : Float) :
    (x.sample t).1.Encloses X := by
  intro j c hc
  rw [components_sample, List.getElem?_map, Option.map_eq_some_iff] at hc
  obtain ⟨d, hd, rfl⟩ := hc
  exact (h j d hd).sample (hx.components d (List.mem_of_getElem? hd)) t

theorem Encloses.enforceGates [Enclosure.Lawful ι] (h : x.Encloses X) (hx : x.Partitioned) :
    x.enforceGates.Encloses X := by
  intro j c hc
  rw [TubeVector.enforceGates, List.getElem?_map, Option.map_eq_some_iff] at hc
  obtain ⟨d, hd, rfl⟩ := hc
  exact (h j d hd).enforceGates (hx.components d (List.mem_of_getElem? hd))

/-- A hull has the trajectories of either vector, if its components share their breakpoints. -/
theorem Encloses.hull [Enclosure.Lawful ι] (hx : x.Partitioned) (hy : y.Partitioned)
    (h : x.hull y = .ok z) (hX : x.Sliced ∧ x.Encloses X ∨ y.Sliced ∧ y.Encloses X) :
    z.Encloses X := by
  intro j c hc
  obtain ⟨hspan, -, -, hget⟩ := combine_eq_ok hx hy h
  obtain ⟨a, b, ha, hb, hop⟩ := hget j c hc
  obtain ⟨hrx, hry⟩ := hx.first.refinedBy_jointTimes hy.first hspan
  have ha' := List.mem_of_getElem? ha
  have hb' := List.mem_of_getElem? hb
  refine Tube.Encloses.hull (hrx.sliced_refine_other hx.first a)
    (hrx.sliced_refine_other hx.first b) hop ?_
  rcases hX with ⟨hs, hX⟩ | ⟨hs, hX⟩
  · exact Or.inl ((hX j a ha).refine (hx.components a ha')
      (hrx.of_times hx.first.toFits (hx.components a ha').toFits (hs.shared a ha')))
  · exact Or.inr ((hX j b hb).refine (hy.components b hb')
      (hry.of_times hy.first.toFits (hy.components b hb').toFits (hs.shared b hb')))

end Encloses

/-! ### Splits -/

section Splits

variable {x a b : TubeVector Interval} {ratio : Float} {X : ℝ → ℕ → ℝ}

/-- The halves of a tube differ from the sampled tube in one gate only, and one of them has the
function. -/
theorem bisect_tube {c lo hi : Tube Interval} (hc : c.Sliced)
    (h : c.bisect t ratio = .ok (lo, hi)) :
    (lo.Sliced ∧ lo.times = (c.sample t).1.times) ∧ (hi.Sliced ∧ hi.times = (c.sample t).1.times) ∧
      ∀ g, c.Encloses g → lo.Encloses g ∨ hi.Encloses g := by
  have hs := hc.sample t
  unfold Tube.bisect at h
  obtain ⟨-, -, h⟩ := bind_eq_ok.1 h
  dsimp only at h
  cases hk : (c.sample t).1.gateIndex? t with
  | none => rw [hk] at h; contradiction
  | some k =>
    rw [hk] at h
    dsimp only at h
    obtain ⟨hlt, -⟩ := Tube.time_of_gateIndex? hk
    cases hsplit : ((c.sample t).1.gate k).bisect? ratio with
    | none => rw [hsplit] at h; contradiction
    | some halves =>
      rw [hsplit] at h
      obtain ⟨rfl, rfl⟩ := Prod.mk.inj (Except.ok.inj h)
      refine ⟨⟨hs.of_shape rfl rfl Array.size_setIfInBounds, rfl⟩,
        ⟨hs.of_shape rfl rfl Array.size_setIfInBounds, rfl⟩, fun g hg => ?_⟩
      have hbase := hg.sample hc t
      have hmem := hbase.gate k (by have := hs.size_times; omega)
      exact (Interval.mem_or_mem_of_bisect? hsplit hmem).imp hbase.putGate hbase.putGate

theorem Partitioned.set (hx : x.Partitioned) {c : Tube Interval} (hc : c.Sliced) (k : ℕ) :
    (⟨x.components.set k c⟩ : TubeVector Interval).Partitioned := by
  refine ⟨fun hnil => hx.someComponent ((List.set_eq_nil_iff _ _).1 hnil), fun d hd => ?_⟩
  rcases List.mem_or_eq_of_mem_set hd with hd | rfl
  · exact hx.components d hd
  · exact hc

/-- A component may be replaced by a sliced tube over the same breakpoints. -/
theorem Sliced.set (hx : x.Sliced) {c : Tube Interval} (hc : c.Sliced) (htimes : c.times = x.times)
    (k : ℕ) : (⟨x.components.set k c⟩ : TubeVector Interval).Sliced := by
  obtain ⟨hsome, hsliced⟩ := hx.toPartitioned.set hc k
  refine Sliced.of_components x.times hsome hsliced fun d hd => ?_
  rcases List.mem_or_eq_of_mem_set hd with hd | rfl
  · exact hx.shared d hd
  · exact htimes

theorem Encloses.set (hX : x.Encloses X) {c : Tube Interval} (hc : c.Encloses fun t => X t k) :
    (⟨x.components.set k c⟩ : TubeVector Interval).Encloses X := by
  intro j d hd
  rw [List.getElem?_set] at hd
  split_ifs at hd with hjk hlt
  · obtain rfl := hjk
    obtain rfl := Option.some.inj hd
    exact hc
  · exact hX j d hd

/-- What the halves of a component split keep, if the time is a breakpoint of every component. -/
theorem bisectComponent_spec (h : x.bisectComponent t k ratio = .ok (a, b)) :
    (x.Partitioned → a.Partitioned ∧ b.Partitioned) ∧
      (x.Sliced → (∀ c ∈ x.components, (c.sample t).1 = c) →
        a.CompatibleWith x ∧ b.CompatibleWith x) ∧
      ∀ X, x.Partitioned → x.Encloses X → a.Encloses X ∨ b.Encloses X := by
  unfold bisectComponent at h
  cases hc : x.components[k]? with
  | none => rw [hc] at h; contradiction
  | some c =>
    rw [hc] at h
    obtain ⟨⟨lo, hi⟩, hsplit, h⟩ := bind_eq_ok.1 h
    obtain ⟨rfl, rfl⟩ := Prod.mk.inj (Except.ok.inj h)
    have hmem := List.mem_of_getElem? hc
    refine ⟨fun hx => ?_, fun hx hsampled => ?_, fun X hx hX => ?_⟩
    · obtain ⟨⟨hlo, -⟩, ⟨hhi, -⟩, -⟩ := bisect_tube (hx.components c hmem) hsplit
      exact ⟨hx.set hlo k, hx.set hhi k⟩
    · obtain ⟨⟨hlo, hlo'⟩, ⟨hhi, hhi'⟩, -⟩ := bisect_tube (hx.components c hmem) hsplit
      rw [hsampled c hmem, hx.shared c hmem] at hlo' hhi'
      have half {d : Tube Interval} (hd : d.Sliced) (hd' : d.times = x.times) :
          (⟨x.components.set k d⟩ : TubeVector Interval).CompatibleWith x := by
        have hset := hx.set hd hd' k
        have hdmem : d ∈ x.components.set k d := List.mem_set (List.getElem?_eq_some_iff.1 hc).1 d
        exact ⟨hset, List.length_set, sameSpan_of_component hset hx hdmem hx.first_mem
          (Tube.sameSpan_of_times hd hx.first hd')⟩
      exact ⟨half hlo hlo', half hhi hhi'⟩
    · obtain ⟨-, -, hcover⟩ := bisect_tube (hx.components c hmem) hsplit
      exact (hcover _ (hX k c hc)).imp hX.set hX.set

/-- The halves of a split keep the form of the vector, and one of them has the trajectory. -/
structure SplitInto (x a b : TubeVector Interval) : Prop where
  low : x.KeepsForm a
  high : x.KeepsForm b
  cover : ∀ X, x.Partitioned → x.Encloses X → a.Encloses X ∨ b.Encloses X

theorem splitInto_of_sampled (h : (x.sample t).1.bisectComponent t k ratio = .ok (a, b)) :
    x.SplitInto a b := by
  obtain ⟨hpart, hform, hcover⟩ := bisectComponent_spec h
  have hsampled (hx : x.Sliced) : ∀ c ∈ (x.sample t).1.components, (c.sample t).1 = c := by
    intro c hc
    rw [components_sample] at hc
    obtain ⟨d, hd, rfl⟩ := List.mem_map.1 hc
    exact (hx.components d hd).ordered.sample_sample t
  have hsample := keepsForm_sample x t
  constructor
  · exact ⟨fun hx => (hpart (hx.sample t)).1, fun hx =>
      (hform (hx.sample t) (hsampled hx)).1.trans (hsample.compatible hx)⟩
  · exact ⟨fun hx => (hpart (hx.sample t)).2, fun hx =>
      (hform (hx.sample t) (hsampled hx)).2.trans (hsample.compatible hx)⟩
  · exact fun X hx hX => hcover X (hx.sample t) (hX.sample hx t)

theorem splitInto_of_bisectAt (h : x.bisectAt t k ratio = .ok (a, b)) : x.SplitInto a b := by
  obtain ⟨-, -, h⟩ := bind_eq_ok.1 h
  exact splitInto_of_sampled h

end Splits

/-! ### One slice over the unit span -/

section UnitSlice

variable {c e : ι}

/-- One component with one slice from zero to one. -/
def unitSlice (codomain gate : ι) : TubeVector ι :=
  ⟨[{ times := #[0.0, 1.0], codomains := #[codomain], gates := #[gate, gate] }]⟩

theorem sliced_unitSlice : (unitSlice c e).Sliced := by
  refine Sliced.of_components #[0.0, 1.0] (List.cons_ne_nil _ _) ?_ ?_
  · intro d hd
    obtain rfl := List.mem_singleton.1 hd
    have hlt : [(0.0 : Float), 1.0].Pairwise (· < ·) := by decide
    have hfinite : ∀ t ∈ #[(0.0 : Float), 1.0], t.isFinite = true := by decide
    exact ⟨⟨Nat.one_pos, rfl, rfl⟩, hlt, hfinite⟩
  · intro d hd
    rw [List.mem_singleton.1 hd]

theorem wellFormed_unitSlice [Enclosure ι] (h : Enclosure.isSubset e c = true) :
    (unitSlice c e).WellFormed := by
  refine ⟨List.cons_ne_nil _ _, List.forall_mem_singleton.2 ?_, List.forall_mem_singleton.2 rfl⟩
  have hlt : [(0.0 : Float), 1.0].Pairwise (· < ·) := by decide
  refine ⟨⟨Nat.one_pos, rfl, rfl⟩, hlt, fun i hi => ?_, fun i hi => ?_⟩
  all_goals
    obtain rfl := Nat.lt_one_iff.1 hi
    exact h

theorem encloses_unitSlice [Enclosure ι] [Membership ℝ ι] {X : ℝ → ℕ → ℝ}
    (hc : ∀ t, 0 ≤ t → t ≤ 1 → X t 0 ∈ c) (h0 : X 0 0 ∈ e) (h1 : X 1 0 ∈ e) :
    (unitSlice c e).Encloses X := by
  intro j d hd
  obtain ⟨hj, rfl⟩ := List.getElem?_eq_some_iff.1 hd
  obtain rfl : j = 0 := Nat.lt_one_iff.1 hj
  constructor
  · intro k hk
    change k ≤ 1 at hk
    interval_cases k
    · change X (Binary64.real 0.0) 0 ∈ e
      rwa [Binary64.real_zero]
    · change X (Binary64.real 1.0) 0 ∈ e
      rwa [Binary64.real_one]
  · intro i hi t hlow hup
    obtain rfl : i = 0 := Nat.lt_one_iff.1 hi
    change Binary64.real 0.0 ≤ t at hlow
    change t ≤ Binary64.real 1.0 at hup
    rw [Binary64.real_zero] at hlow
    rw [Binary64.real_one] at hup
    exact hc t hlow hup

end UnitSlice

end TubeVector

end FlowTube
