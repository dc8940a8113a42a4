import FlowTube.Proofs.TubeVector.Encloses

/-! Hulls and intersections, time by time. A tube that is brought to further breakpoints keeps its
value at every time: a new breakpoint takes the value there for its gate, and between neighbouring
breakpoints all times lie in one slice of the tube. Tubes over the same breakpoints are combined
value by value. Breakpoints are found by the total order and slices by the numeric one; the two
agree on all breakpoints but `-0`, so there must be none. A time may be `-0` all the same: it is
no breakpoint then, and has the codomain of its slice. -/

namespace FlowTube

namespace Tube

open Binary64 (value)

variable {ι : Type} {x y : Tube ι} {ts : Array Float} {t : Float} {i j k : ℕ}

/-! ### Where a time is found -/

/-- Increasing breakpoints, none of them `-0`. -/
structure Plain (x : Tube ι) : Prop extends x.Ordered where
  zeros : ∀ t ∈ x.times, t ≠ -0.0

theorem Plain.ordered (h : x.Plain) : x.Ordered := h.toOrdered

/-- The slice of a time is the one that it starts or lies in, and the last one at the end. -/
theorem Ordered.sliceIndex?_of_side (h : x.Ordered) (hi : i < x.sliceCount) (ht : t.isNaN = false)
    (hlow : x.moment i ≤ value t) (hup : value t ≤ x.moment (i + 1))
    (hside : value t < x.moment (i + 1) ∨ i + 1 = x.sliceCount) : x.sliceIndex? t = some i := by
  rcases hside with hlt | hlast
  · exact h.sliceIndex?_eq hi ht hlow hlt
  · obtain ⟨m, hm⟩ := h.exists_sliceIndex? ht
      ((h.moment_le_moment (Nat.zero_le i) hi.le).trans hlow) (hlast ▸ hup)
    obtain ⟨hmlt, -, -, -, hmside⟩ := h.sliceIndex?_spec hm
    have him : i < m + 1 := by
      rcases hmside with hend | hmlast
      · exact h.lt_of_moment_lt hi.le (hlow.trans_lt hend)
      · omega
    rw [hm, show m = i by omega]

theorem sliceIndex?_eq_none_iff : x.sliceIndex? t = none ↔ x.domain.contains t = false := by
  unfold sliceIndex?
  split_ifs with h
  · simp [h]
  · simp [h]

/-- Breakpoints alone decide where a time is found. -/
theorem indices_of_times (hx : x.Fits) (hy : y.Fits) (h : x.times = y.times) :
    x.gateIndex? = y.gateIndex? ∧ x.sliceIndex? = y.sliceIndex? := by
  have hcount := sliceCount_eq_of_times hx hy h
  have htime : x.time = y.time := by
    funext k
    rw [time, time, h]
  constructor <;> funext t
  · rw [gateIndex?, gateIndex?, h]
  · rw [sliceIndex?, sliceIndex?, domain, domain, htime, h, hcount]

/-- The codomain of the slice that a time starts or lies in; nothing outside the time domain. -/
def codomainAt [Enclosure ι] (x : Tube ι) (t : Float) : ι :=
  match x.sliceIndex? t with
  | some i => x.codomain i
  | none => Enclosure.empty

/-- A time that is no breakpoint has the codomain of its slice. -/
theorem eval_of_gateIndex?_eq_none [Enclosure ι] (h : x.gateIndex? t = none) :
    x.eval t = x.codomainAt t := by
  rw [eval, h]
  rfl

/-! ### Further breakpoints -/

section Refine

variable [Enclosure ι]

namespace RefinedBy

theorem plain_refine (h : x.RefinedBy ts) (hx : x.Ordered) (hts : ∀ t ∈ ts, t ≠ -0.0) :
    (x.refine ts).Plain :=
  ⟨h.ordered_refine hx, hts⟩

/-- The breakpoints of the tube are among the times as they are, and not only by value. -/
theorem mem_of_mem (h : x.RefinedBy ts) (hx : x.Plain) (hts : ∀ t ∈ ts, t ≠ -0.0)
    (ht : t ∈ x.times) : t ∈ ts := by
  obtain ⟨k, hk, rfl⟩ := exists_time_eq ht
  have hk' : k ≤ x.sliceCount := by
    have := hx.ordered.size_times
    omega
  obtain ⟨s, hs, hvalue⟩ := h.breakpoints k hk'
  have hnumber : s.isNaN = false := (h.ordered_refine hx.ordered).isNaN_of_mem hs
  rwa [← Binary64.eq_of_value_eq hnumber (hx.ordered.isNaN_time hk') (hts s hs)
    (hx.zeros _ ht) hvalue]

/-- A time that is none of the breakpoints to come is no breakpoint yet. -/
theorem gateIndex?_eq_none (h : x.RefinedBy ts) (hx : x.Plain) (hts : ∀ t ∈ ts, t ≠ -0.0)
    (ht : (x.refine ts).gateIndex? t = none) : x.gateIndex? t = none := by
  have hr := h.ordered_refine hx.ordered
  rw [hr.gateIndex?_eq_none_iff] at ht
  rw [hx.ordered.gateIndex?_eq_none_iff]
  rintro k hk rfl
  have hsize : k < x.times.size := by
    rw [hx.ordered.size_times]
    omega
  obtain ⟨m, hm, htime⟩ := exists_time_eq
    (show x.time k ∈ (x.refine ts).times from h.mem_of_mem hx hts (time_mem hsize))
  rw [hr.size_times, Nat.lt_succ_iff] at hm
  exact ht m hm htime

/-- A time of a slice between further breakpoints lies in the slice of the tube around it. -/
theorem sliceIndex?_of_refine (h : x.RefinedBy ts) (hx : x.Ordered)
    (hi : (x.refine ts).sliceIndex? t = some i) :
    ∃ j, x.sliceIndex? t = some j ∧ (x.refine ts).codomain i = x.codomain j := by
  have hr := h.ordered_refine hx
  obtain ⟨hilt, ht, hlow, hup, hside⟩ := hr.sliceIndex?_spec hi
  obtain ⟨j, hj, hcodomain⟩ := h.exists_slice hx hilt
  obtain ⟨hjlt, -, hstart, -, -⟩ := hx.sliceIndex?_spec hj
  have hend := h.end_le hx hilt hj
  refine ⟨j, ?_, hcodomain⟩
  refine hx.sliceIndex?_of_side hjlt ht (hstart.trans hlow) (hup.trans hend) ?_
  rcases hside with hlt | hlast
  · exact Or.inl (hlt.trans_le hend)
  · -- the last of the further slices ends with the tube, so it lies in its last slice
    rw [hlast, (h.sameEnds_refine hx).2] at hend
    right
    by_contra hne
    exact absurd (hx.moment_lt_moment (show j + 1 < x.sliceCount by omega) le_rfl) (not_lt.2 hend)

/-- A tube keeps its codomains over further breakpoints. -/
theorem codomainAt_refine (h : x.RefinedBy ts) (hx : x.Ordered) (t : Float) :
    (x.refine ts).codomainAt t = x.codomainAt t := by
  unfold codomainAt
  cases hi : (x.refine ts).sliceIndex? t with
  | some i =>
    obtain ⟨j, hj, hcodomain⟩ := h.sliceIndex?_of_refine hx hi
    rw [hj]
    exact hcodomain
  | none =>
    have hout := sliceIndex?_eq_none_iff.1 hi
    have hends := h.sameEnds_refine hx
    have hdomain : x.domain.contains t = (x.refine ts).domain.contains t := by
      rw [Bool.eq_iff_iff, hx.contains_domain_iff, (h.ordered_refine hx).contains_domain_iff,
        hends.1, hends.2]
    rw [sliceIndex?_eq_none_iff.2 (hdomain.trans hout)]

/-- A tube keeps its values over further breakpoints. -/
theorem eval_refine (h : x.RefinedBy ts) (hx : x.Plain) (hts : ∀ t ∈ ts, t ≠ -0.0) (t : Float) :
    (x.refine ts).eval t = x.eval t := by
  have hr := h.ordered_refine hx.ordered
  cases hk : (x.refine ts).gateIndex? t with
  | some k =>
    obtain ⟨hle, rfl⟩ := hr.gateIndex?_eq_some_iff.1 hk
    rw [eval, hk]
    exact h.gate_refine hx.ordered hle
  | none =>
    rw [eval_of_gateIndex?_eq_none hk, h.codomainAt_refine hx.ordered,
      eval_of_gateIndex?_eq_none (h.gateIndex?_eq_none hx hts hk)]

end RefinedBy

end Refine

/-! ### Two tubes -/

section Combine

variable [Enclosure ι] {op : ι → ι → ι} {z : Tube ι}

/-- Tubes over the same breakpoints are combined slice by slice. -/
theorem codomainAt_zip (hop : op Enclosure.empty Enclosure.empty = Enclosure.empty)
    (hx : x.Ordered) (hy : y.Ordered) (h : x.times = y.times) (t : Float) :
    (x.zip op y).codomainAt t = op (x.codomainAt t) (y.codomainAt t) := by
  obtain ⟨hz, hcount, hsame⟩ := fits_zip op hx.toFits hy.toFits h
  unfold codomainAt
  rw [(indices_of_times hz hx.toFits rfl).2, (indices_of_times hy.toFits hx.toFits h.symm).2]
  cases hi : x.sliceIndex? t with
  | some i =>
    have hi' := (hx.sliceIndex?_spec hi).1
    exact codomain_zip hi' (show i < y.sliceCount by omega)
  | none => exact hop.symm

/-- Tubes over the same breakpoints are combined at every time. -/
theorem eval_zip (hop : op Enclosure.empty Enclosure.empty = Enclosure.empty) (hx : x.Ordered)
    (hy : y.Ordered) (h : x.times = y.times) (t : Float) :
    (x.zip op y).eval t = op (x.eval t) (y.eval t) := by
  obtain ⟨hz, hcount, hsame⟩ := fits_zip op hx.toFits hy.toFits h
  have hgate := congrFun (indices_of_times hz hx.toFits rfl).1 t
  have hgate' := congrFun (indices_of_times hy.toFits hx.toFits h.symm).1 t
  cases hk : x.gateIndex? t with
  | some k =>
    have hk' := (hx.gateIndex?_eq_some_iff.1 hk).1
    rw [eval, eval, eval, hgate, hgate', hk]
    exact gate_zip (by rw [hx.size_gates]; omega) (by rw [hy.size_gates]; omega)
  | none =>
    rw [hk] at hgate hgate'
    rw [eval_of_gateIndex?_eq_none hk, eval_of_gateIndex?_eq_none hgate,
      eval_of_gateIndex?_eq_none hgate', codomainAt_zip hop hx hy h]

/-- What the operation makes of both values at every time, over the breakpoints of both tubes in
order and once each. -/
structure Combines (op : ι → ι → ι) (x y z : Tube ι) : Prop where
  eval : ∀ t, z.eval t = op (x.eval t) (y.eval t)
  increasing : z.times.toList.Pairwise (· < ·)
  mem_times : ∀ t, t ∈ z.times ↔ t ∈ x.times ∨ t ∈ y.times

/-- Tubes between the same ends are combined at every time. -/
theorem exists_combine (hop : op Enclosure.empty Enclosure.empty = Enclosure.empty) (hx : x.Plain)
    (hy : y.Plain) (hends : x.SameEnds y) : ∃ z, combine op x y = .ok z ∧ Combines op x y z := by
  obtain ⟨hrx, hry⟩ := hx.ordered.refinedBy_jointTimes hy.ordered hends
  have hts : ∀ t ∈ jointTimes x y, t ≠ -0.0 := fun t ht =>
    (mem_or_mem_of_mem_jointTimes ht).elim (hx.zeros t) (hy.zeros t)
  refine ⟨(x.refine (jointTimes x y)).zip op (y.refine (jointTimes x y)), ?_, fun t => ?_,
    hrx.increasing, fun t => ⟨mem_or_mem_of_mem_jointTimes, ?_⟩⟩
  · unfold combine
    rw [if_pos ((hx.ordered.domain_beq_iff hy.ordered).2 hends)]
    rfl
  · rw [eval_zip hop (hrx.ordered_refine hx.ordered) (hry.ordered_refine hy.ordered) rfl,
      hrx.eval_refine hx hts, hry.eval_refine hy hts]
  · exact fun ht => ht.elim (hrx.mem_of_mem hx hts) (hry.mem_of_mem hy hts)

end Combine

end Tube

/-! ### Two vectors -/

namespace TubeVector

variable {ι : Type} {x y z : TubeVector ι}

/-- Components over one list of increasing breakpoints, none of them `-0`. -/
structure Plain (x : TubeVector ι) : Prop where
  someComponent : x.components ≠ []
  components : ∀ c ∈ x.components, c.Plain
  shared : ∀ c ∈ x.components, c.times = x.times

theorem Plain.first (h : x.Plain) : x.first.Plain :=
  h.components _ (first_mem_of_ne_nil h.someComponent)

variable [Enclosure ι] {op : ι → ι → ι}

/-- As many components, each combined from those at its place. -/
structure Combines (op : ι → ι → ι) (x y z : TubeVector ι) : Prop where
  dimension : z.dimension = x.dimension
  components : ∀ (j : ℕ) a b c, x.components[j]? = some a → y.components[j]? = some b →
    z.components[j]? = some c → Tube.Combines op a b c

/-- Components are brought to the breakpoints of both vectors and combined there. -/
theorem exists_combine_refine (hop : op Enclosure.empty Enclosure.empty = Enclosure.empty)
    (hx : x.Plain) (hy : y.Plain) (hends : x.first.SameEnds y.first) {a b : Tube ι}
    (ha : a ∈ x.components) (hb : b ∈ y.components) :
    ∃ c, Tube.combine op (a.refine (Tube.jointTimes x.first y.first))
      (b.refine (Tube.jointTimes x.first y.first)) = .ok c ∧ Tube.Combines op a b c := by
  obtain ⟨hrx, hry⟩ := hx.first.ordered.refinedBy_jointTimes hy.first.ordered hends
  have hts : ∀ t ∈ Tube.jointTimes x.first y.first, t ≠ -0.0 := fun t ht =>
    (Tube.mem_or_mem_of_mem_jointTimes ht).elim (hx.first.zeros t) (hy.first.zeros t)
  have hra := hrx.of_times hx.first.toFits (hx.components a ha).toFits (hx.shared a ha)
  have hrb := hry.of_times hy.first.toFits (hy.components b hb).toFits (hy.shared b hb)
  have hmem (t : Float) :
      t ∈ Tube.jointTimes x.first y.first ↔ t ∈ a.times ∨ t ∈ b.times := by
    rw [hx.shared a ha, hy.shared b hb]
    exact ⟨Tube.mem_or_mem_of_mem_jointTimes, fun ht =>
      ht.elim (hrx.mem_of_mem hx.first hts) (hry.mem_of_mem hy.first hts)⟩
  have hpa := hra.plain_refine (hx.components a ha).ordered hts
  have hpb := hrb.plain_refine (hy.components b hb).ordered hts
  obtain ⟨c, hc, hcombines⟩ := Tube.exists_combine hop hpa hpb
    (Tube.sameEnds_of_times hpa.toFits hpb.toFits rfl)
  refine ⟨c, hc, fun t => ?_, hcombines.increasing, fun t => ?_⟩
  · rw [hcombines.eval, hra.eval_refine (hx.components a ha) hts,
      hrb.eval_refine (hy.components b hb) hts]
  · rw [hcombines.mem_times, ← hmem]
    exact or_self_iff

/-- Vectors of one dimension between the same ends are combined at every time. -/
theorem exists_combine (hop : op Enclosure.empty Enclosure.empty = Enclosure.empty) (hx : x.Plain)
    (hy : y.Plain) (hdim : x.dimension = y.dimension) (hends : x.first.SameEnds y.first) :
    ∃ z, combine (Tube.combine op) x y = .ok z ∧ Combines op x y z := by
  have hdim' : (x.dimension != y.dimension) = false := by simp [hdim]
  have hdomain : (x.domain != y.domain) = false := by
    rw [bne, Bool.not_eq_false']
    exact (hx.first.ordered.domain_beq_iff hy.first.ordered).2 hends
  have hall : ∀ p ∈ x.components.zip y.components,
      ∃ c, Tube.combine op (p.1.refine (Tube.jointTimes x.first y.first))
        (p.2.refine (Tube.jointTimes x.first y.first)) = .ok c := by
    intro p hp
    obtain ⟨ha, hb⟩ := List.of_mem_zip hp
    obtain ⟨c, hc, -⟩ := exists_combine_refine hop hx hy hends ha hb
    exact ⟨c, hc⟩
  obtain ⟨cs, hcs⟩ := exists_mapM_eq_ok hall
  obtain ⟨hlen, hget⟩ := getElem?_of_mapM hcs
  refine ⟨⟨cs⟩, ?_, ?_, fun j a b c ha hb hc => ?_⟩
  · unfold combine
    rw [hdim', hdomain]
    simp only [Bool.false_eq_true, if_false]
    rw [hcs]
    rfl
  · change cs.length = x.components.length
    rw [hlen, List.length_zip]
    exact min_eq_left (le_of_eq hdim)
  · obtain ⟨p, hp, hpc⟩ := hget j c hc
    obtain ⟨ha', hb'⟩ := List.getElem?_zip_eq_some.1 hp
    obtain rfl := Option.some.inj (ha'.symm.trans ha)
    obtain rfl := Option.some.inj (hb'.symm.trans hb)
    obtain ⟨d, hd, hcombines⟩ := exists_combine_refine hop hx hy hends (List.mem_of_getElem? ha)
      (List.mem_of_getElem? hb)
    obtain rfl := Except.ok.inj (hd.symm.trans hpc)
    exact hcombines

end TubeVector

/-! ### Intervals -/

theorem Interval.union_empty : Interval.empty ∪ Interval.empty = Interval.empty := rfl

theorem Interval.inter_empty : Interval.empty ∩ Interval.empty = Interval.empty := rfl

theorem Tube.WellFormed.plain {x : Tube Interval} (h : x.WellFormed)
    (hzero : ∀ t ∈ x.times, t ≠ -0.0) : x.Plain :=
  ⟨⟨h.toFits, h.increasing⟩, hzero⟩

theorem TubeVector.WellFormed.plain {x : TubeVector Interval} (h : x.WellFormed)
    (hzero : ∀ t ∈ x.times, t ≠ -0.0) : x.Plain where
  someComponent := h.someComponent
  components c hc := (h.components c hc).plain fun t ht => hzero t (h.shared c hc ▸ ht)
  shared := h.shared

/-- A tube is a vector of one component. -/
theorem TubeVector.wellFormed_singleton {c : Tube Interval} (h : c.WellFormed) :
    (⟨[c]⟩ : TubeVector Interval).WellFormed where
  someComponent := List.cons_ne_nil c []
  components := List.forall_mem_singleton.2 h
  shared := List.forall_mem_singleton.2 rfl

/-- Slices from zero to one and from one to three. -/
def Tube.early : Tube Interval where
  times := #[0.0, 1.0, 3.0]
  codomains := #[⟨0.0, 2.0⟩, ⟨1.0, 4.0⟩]
  gates := #[⟨0.0, 0.0⟩, ⟨1.0, 2.0⟩, ⟨3.0, 4.0⟩]

/-- Slices from zero to two and from two to three. -/
def Tube.late : Tube Interval where
  times := #[0.0, 2.0, 3.0]
  codomains := #[⟨1.0, 3.0⟩, ⟨2.0, 5.0⟩]
  gates := #[⟨1.0, 1.0⟩, ⟨2.0, 2.0⟩, ⟨4.0, 5.0⟩]

theorem Tube.wellFormed_early : early.WellFormed where
  someSlice := by decide
  times := by decide
  gates := by decide
  increasing := by decide
  insideLeft := by decide +kernel
  insideRight := by decide +kernel

theorem Tube.wellFormed_late : late.WellFormed where
  someSlice := by decide
  times := by decide
  gates := by decide
  increasing := by decide
  insideLeft := by decide +kernel
  insideRight := by decide +kernel

/-- Hulls and intersections of well-formed tubes are taken at every time, over the breakpoints of
both, and those of vectors component by component. -/
theorem TubeVector.hull_inter_pointwise :
    (∀ x y : Tube Interval, x.WellFormed → y.WellFormed → (∀ t ∈ x.times, t ≠ -0.0) →
      (∀ t ∈ y.times, t ≠ -0.0) → (x.domain == y.domain) = true →
      (∃ z, x.hull y = .ok z ∧ Tube.Combines (· ∪ ·) x y z) ∧
        ∃ z, x.inter y = .ok z ∧ Tube.Combines (· ∩ ·) x y z) ∧
    ∀ x y : TubeVector Interval, x.WellFormed → y.WellFormed → (∀ t ∈ x.times, t ≠ -0.0) →
      (∀ t ∈ y.times, t ≠ -0.0) → x.dimension = y.dimension → (x.domain == y.domain) = true →
      (∃ z, x.hull y = .ok z ∧ Combines (· ∪ ·) x y z) ∧
        ∃ z, x.inter y = .ok z ∧ Combines (· ∩ ·) x y z := by
  constructor
  · intro x y hx hy hx0 hy0 hdomain
    have hpx := hx.plain hx0
    have hpy := hy.plain hy0
    have hends := (hpx.ordered.domain_beq_iff hpy.ordered).1 hdomain
    exact ⟨Tube.exists_combine Interval.union_empty hpx hpy hends,
      Tube.exists_combine Interval.inter_empty hpx hpy hends⟩
  · intro x y hx hy hx0 hy0 hdim hdomain
    have hpx := hx.plain hx0
    have hpy := hy.plain hy0
    have hends := (hpx.first.ordered.domain_beq_iff hpy.first.ordered).1 hdomain
    exact ⟨exists_combine Interval.union_empty hpx hpy hdim hends,
      exists_combine Interval.inter_empty hpx hpy hdim hends⟩

/-- At the breakpoint of one tube the other one has the codomain of its slice. -/
theorem TubeVector.hull_inter_pointwise_early_late :
    Tube.early.WellFormed ∧ Tube.late.WellFormed ∧
      (∃ z, Tube.early.hull Tube.late = .ok z ∧
        z.eval 1.0 = Tube.early.gate 1 ∪ Tube.late.codomain 0 ∧ 1.0 ∈ z.times ∧ 2.0 ∈ z.times) ∧
      ∃ z, inter ⟨[Tube.early]⟩ ⟨[Tube.late]⟩ = .ok z ∧ z.dimension = 1 ∧
        ∀ c, z.components[0]? = some c → c.eval 2.0 = Tube.early.codomain 1 ∩ Tube.late.gate 1 := by
  have hearly := Tube.wellFormed_early
  have hlate := Tube.wellFormed_late
  have hx0 : ∀ t ∈ Tube.early.times, t ≠ -0.0 := by decide
  have hy0 : ∀ t ∈ Tube.late.times, t ≠ -0.0 := by decide
  have hdomain : (Tube.early.domain == Tube.late.domain) = true := by decide +kernel
  obtain ⟨htubes, hvectors⟩ := hull_inter_pointwise
  obtain ⟨⟨z, hz, hcombines⟩, -⟩ := htubes _ _ hearly hlate hx0 hy0 hdomain
  obtain ⟨-, w, hw, hparts⟩ := hvectors _ _ (wellFormed_singleton hearly)
    (wellFormed_singleton hlate) hx0 hy0 (by decide) hdomain
  have hgate : Tube.early.gateIndex? 1.0 = some 1 ∧ Tube.late.gateIndex? 2.0 = some 1 := by
    decide +kernel
  have hnone : Tube.early.gateIndex? 2.0 = none ∧ Tube.late.gateIndex? 1.0 = none := by
    decide +kernel
  have hslice : Tube.early.sliceIndex? 2.0 = some 1 ∧ Tube.late.sliceIndex? 1.0 = some 0 := by
    decide +kernel
  refine ⟨hearly, hlate, ⟨z, hz, ?_, ?_, ?_⟩, w, hw, hparts.dimension, fun c hc => ?_⟩
  · rw [hcombines.eval, Tube.eval, Tube.eval, hgate.1, hnone.2, hslice.2]
  · exact (hcombines.mem_times _).2 (Or.inl (Tube.time_mem (show 1 < _ by decide)))
  · exact (hcombines.mem_times _).2 (Or.inr (Tube.time_mem (show 1 < _ by decide)))
  · rw [(hparts.components 0 _ _ c rfl rfl hc).eval, Tube.eval, Tube.eval, hnone.1, hslice.1,
      hgate.2]

end FlowTube
