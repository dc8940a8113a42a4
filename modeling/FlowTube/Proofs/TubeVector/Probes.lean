import FlowTube.Clustering
import FlowTube.Proofs.Interval.Hull
import FlowTube.Proofs.TubeVector.Pointwise
import FlowTube.Proofs.TubeVector.Regular

/-! Tubes as functions of probes. At each time a tube can be asked for its value there, and for the
codomain from there on. Together the answers tell all gates and all codomains, also that of a slice
between neighbouring numbers, in which there is no time to ask for the value; and hulls and
intersections are taken probe by probe, whatever the breakpoints are. So whether two tubes overlap
and whether two tubes are equal are questions on their answers. -/

namespace FlowTube

namespace Tube

open Binary64 (value)

variable {ι : Type} [Enclosure ι] {x y z : Tube ι} {op : ι → ι → ι} {t : Float} {i k : ℕ}

/-- A question to a tube: the value at a time, or the codomain of the slice that the time starts
or lies in. -/
inductive Probe
  | value (t : Float)
  | codomain (t : Float)

def Probe.time : Probe → Float
  | value t => t
  | codomain t => t

/-- The answer of a tube. -/
def read (x : Tube ι) : Probe → ι
  | .value t => x.eval t
  | .codomain t => x.codomainAt t

theorem codomainAt_time (h : x.Ordered) (hi : i < x.sliceCount) :
    x.codomainAt (x.time i) = x.codomain i := by
  have hindex := h.sliceIndex?_eq hi (h.isNaN_time hi.le) (show x.moment i ≤ x.moment i from le_rfl)
    (h.moment_lt_moment (Nat.lt_succ_self i) hi)
  rw [codomainAt, hindex]

theorem eval_time (h : x.Ordered) (hk : k ≤ x.sliceCount) : x.eval (x.time k) = x.gate k := by
  rw [eval, h.gateIndex?_time hk]

omit [Enclosure ι] in
theorem contains_time (h : x.Ordered) (hk : k ≤ x.sliceCount) :
    x.domain.contains (x.time k) = true :=
  h.contains_domain_iff.2 ⟨h.isNaN_time hk, h.moment_le_moment (Nat.zero_le k) hk,
    h.moment_le_moment hk le_rfl⟩

/-- Every answer is a codomain, a gate or nothing, the last only outside the time domain. -/
theorem read_cases (h : x.Ordered) (p : Probe) :
    (∃ i < x.sliceCount, x.read p = x.codomain i) ∨ (∃ k ≤ x.sliceCount, x.read p = x.gate k) ∨
      x.read p = Enclosure.empty ∧ x.domain.contains p.time = false := by
  have hcodomain (t : Float) : (∃ i < x.sliceCount, x.codomainAt t = x.codomain i) ∨
      x.codomainAt t = Enclosure.empty ∧ x.domain.contains t = false := by
    unfold codomainAt
    cases hi : x.sliceIndex? t with
    | some i => exact Or.inl ⟨i, (h.sliceIndex?_spec hi).1, rfl⟩
    | none => exact Or.inr ⟨rfl, sliceIndex?_eq_none_iff.1 hi⟩
  cases p with
  | codomain t => exact (hcodomain t).imp_right Or.inr
  | value t =>
    cases hk : x.gateIndex? t with
    | none =>
      rw [read, eval_of_gateIndex?_eq_none hk]
      exact (hcodomain t).imp_right Or.inr
    | some k =>
      refine Or.inr (Or.inl ⟨k, (h.gateIndex?_eq_some_iff.1 hk).1, ?_⟩)
      rw [read, eval, hk]

/-- What all answers over the time domain have, all codomains and gates have, and conversely. -/
theorem forall_read_iff (h : x.Ordered) {P : ι → Prop} :
    (∀ p : Probe, x.domain.contains p.time = true → P (x.read p)) ↔
      (∀ i < x.sliceCount, P (x.codomain i)) ∧ ∀ k ≤ x.sliceCount, P (x.gate k) := by
  constructor
  · refine fun hread => ⟨fun i hi => ?_, fun k hk => ?_⟩
    · rw [← codomainAt_time h hi]
      exact hread (.codomain (x.time i)) (contains_time h hi.le)
    · rw [← eval_time h hk]
      exact hread (.value (x.time k)) (contains_time h hk)
  · rintro ⟨hcodomain, hgate⟩ p hp
    rcases read_cases h p with ⟨i, hi, heq⟩ | ⟨k, hk, heq⟩ | ⟨-, hout⟩
    · rw [heq]
      exact hcodomain i hi
    · rw [heq]
      exact hgate k hk
    · rw [hp] at hout
      contradiction

/-! ### Further breakpoints and two tubes -/

theorem RefinedBy.read_refine {ts : Array Float} (h : x.RefinedBy ts) (hx : x.Plain)
    (hts : ∀ t ∈ ts, t ≠ -0.0) (p : Probe) : (x.refine ts).read p = x.read p := by
  cases p with
  | value t => exact h.eval_refine hx hts t
  | codomain t => exact h.codomainAt_refine hx.ordered t

theorem read_zip (hop : op Enclosure.empty Enclosure.empty = Enclosure.empty) (hx : x.Ordered)
    (hy : y.Ordered) (h : x.times = y.times) (p : Probe) :
    (x.zip op y).read p = op (x.read p) (y.read p) := by
  cases p with
  | value t => exact eval_zip hop hx hy h t
  | codomain t => exact codomainAt_zip hop hx hy h t

/-- Tubes between the same ends are combined probe by probe. -/
theorem read_combine (hop : op Enclosure.empty Enclosure.empty = Enclosure.empty) (hx : x.Plain)
    (hy : y.Plain) (hends : x.SameEnds y) (h : combine op x y = .ok z) (p : Probe) :
    z.read p = op (x.read p) (y.read p) := by
  obtain ⟨hrx, hry⟩ := hx.ordered.refinedBy_jointTimes hy.ordered hends
  have hts : ∀ t ∈ jointTimes x y, t ≠ -0.0 := fun t ht =>
    (mem_or_mem_of_mem_jointTimes ht).elim (hx.zeros t) (hy.zeros t)
  unfold combine at h
  rw [if_pos ((hx.ordered.domain_beq_iff hy.ordered).2 hends)] at h
  obtain rfl : (x.refine (jointTimes x y)).zip op (y.refine (jointTimes x y)) = z :=
    Except.ok.inj h
  rw [read_zip hop (hrx.ordered_refine hx.ordered) (hry.ordered_refine hy.ordered) rfl,
    hrx.read_refine hx hts, hry.read_refine hy hts]

/-! ### Intervals -/

section Interval

variable {x y : Tube Interval}

theorem isEmpty_eq_false_iff (h : x.Ordered) : x.isEmpty = false ↔
    ∀ p : Probe, x.domain.contains p.time = true → (x.read p).isEmpty = false := by
  rw [forall_read_iff (P := fun a => a.isEmpty = false) h, isEmpty, Bool.or_eq_false_iff,
    Array.any_eq_false, Array.any_eq_false]
  refine and_congr (forall₂_congr fun i hi => ?_) ⟨fun hall k hk => ?_, fun hall k hk => ?_⟩
  · rw [codomain_eq_getElem hi]
    exact Bool.not_eq_true _ ▸ Iff.rfl
  · have hk' : k < x.gates.size := by
      rw [h.size_gates]
      omega
    rw [gate_eq_getElem hk']
    exact Bool.eq_false_iff.2 (hall k hk')
  · rw [← gate_eq_getElem hk]
    rw [h.size_gates] at hk
    exact Bool.eq_false_iff.1 (hall k (by omega))

theorem Regular.numeric_read (h : x.Regular) (p : Probe) : (x.read p).Numeric := by
  rcases read_cases h.ordered p with ⟨i, -, heq⟩ | ⟨k, -, heq⟩ | ⟨heq, -⟩
  · rw [heq]
    exact h.numeric i
  · rw [heq]
    exact h.numeric_gate k
  · rw [heq]
    exact Interval.numeric_empty

theorem numeric_early : ∀ i, (early.codomain i).Numeric
  | 0 => ⟨rfl, rfl⟩
  | 1 => ⟨rfl, rfl⟩
  | _ + 2 => Interval.numeric_empty

/-- Breakpoints and answers make up a tube. -/
theorem beq_of_read (hx : x.Ordered) (hy : y.Ordered) (htimes : x.times = y.times)
    (hread : ∀ p : Probe, x.domain.contains p.time = true → (x.read p == y.read p) = true) :
    (x == y) = true := by
  have hcount := sliceCount_eq_of_times hx.toFits hy.toFits htimes
  have htime : y.time = x.time := by
    funext k
    rw [time, time, htimes]
  have hgates := hx.size_gates
  have hgates' := hy.size_gates
  refine (Bool.and_eq_true _ _).mpr ⟨(Bool.and_eq_true _ _).mpr ⟨?_, ?_⟩, ?_⟩
  · rw [← htimes]
    exact hx.times_beq_self
  · refine Array.isEqv_iff_rel.2 ⟨hcount, fun i hi => ?_⟩
    have hi' : i < y.sliceCount := hcount ▸ hi
    have heq := hread (.codomain (x.time i)) (contains_time hx (Nat.le_of_lt hi))
    rw [read, codomainAt_time hx hi, read, ← htime, codomainAt_time hy hi'] at heq
    rwa [codomain_eq_getElem hi, codomain_eq_getElem hi'] at heq
  · refine Array.isEqv_iff_rel.2 ⟨by omega, fun k hk => ?_⟩
    have hk' : k < y.gates.size := by omega
    have heq := hread (.value (x.time k)) (contains_time hx (by omega))
    rw [read, eval_time hx (by omega), read, ← htime, eval_time hy (by omega)] at heq
    rwa [gate_eq_getElem hk, gate_eq_getElem hk'] at heq

end Interval

end Tube

namespace TubeVector

open Tube (Probe)

variable {r x y z : TubeVector Interval} {op : Interval → Interval → Interval} {t : Float} {j : ℕ}

/-- The answer of component `j`. -/
def read (x : TubeVector Interval) (j : ℕ) (p : Probe) : Interval := (x.component j).read p

theorem exists_component_eq {c : Tube Interval} (hc : c ∈ x.components) :
    ∃ j < x.dimension, x.component j = c := by
  obtain ⟨j, hj, rfl⟩ := List.mem_iff_getElem.1 hc
  exact ⟨j, hj, List.getD_eq_getElem _ _ hj⟩

theorem Regular.plain (h : x.Regular) : x.Plain where
  someComponent := h.someComponent
  components c hc := ⟨(h.components c hc).ordered, (h.components c hc).zeros⟩
  shared := h.shared

theorem Regular.numeric_read (h : x.Regular) (hj : j < x.dimension) (p : Probe) :
    (x.read j p).Numeric :=
  (h.components _ (component_mem hj)).numeric_read p

/-! ### Vectors between the same ends

The vectors that are compared or combined have the dimension and the ends of one of them. -/

/-- A condition on all components and on all probes over the time domain. -/
def Throughout (r : TubeVector Interval) (P : ℕ → Probe → Prop) : Prop :=
  ∀ j < r.dimension, ∀ p : Probe, r.domain.contains p.time = true → P j p

theorem Continues.contains_component (hx : x.Continues r) (hr : r.Regular) (hj : j < x.dimension) :
    (x.component j).domain.contains t = r.domain.contains t := by
  have hmem := component_mem hj
  obtain ⟨hfirst, hlast⟩ := (hx.regular.sameEnds hmem).trans hx.ends
  rw [Bool.eq_iff_iff, domain, (hx.regular.components _ hmem).ordered.contains_domain_iff,
    hr.first.ordered.contains_domain_iff, hfirst, hlast]

theorem Continues.isEmpty_eq_false_iff (hx : x.Continues r) (hr : r.Regular) :
    x.isEmpty = false ↔ r.Throughout fun j p => (x.read j p).isEmpty = false := by
  rw [isEmpty, List.any_eq_false]
  constructor
  · intro hall j hj p hp
    rw [← hx.dimension] at hj
    have hmem := component_mem hj
    have hempty := Bool.eq_false_iff.2 (hall _ hmem)
    rw [← hx.contains_component hr hj] at hp
    exact (Tube.isEmpty_eq_false_iff (hx.regular.components _ hmem).ordered).1 hempty p hp
  · intro hall c hc
    obtain ⟨j, hj, rfl⟩ := exists_component_eq hc
    refine Bool.eq_false_iff.1 ((Tube.isEmpty_eq_false_iff
      (hx.regular.components _ hc).ordered).2 fun p hp => ?_)
    rw [hx.contains_component hr hj] at hp
    exact hall j (hx.dimension ▸ hj) p hp

theorem beq_of_forall₂ {α : Type} [BEq α] {as bs : List α}
    (h : List.Forall₂ (fun a b => (a == b) = true) as bs) : (as == bs) = true := by
  induction h with
  | nil => rfl
  | cons hab _ ih => exact (Bool.and_eq_true _ _).mpr ⟨hab, ih⟩

/-- Breakpoints and answers make up a vector. -/
theorem Continues.beq_of_read (hx : x.Continues r) (hy : y.Continues r) (hr : r.Regular)
    (htimes : x.times = y.times)
    (hread : r.Throughout fun j p => (x.read j p == y.read j p) = true) : (x == y) = true := by
  have hdim : x.dimension = y.dimension := hx.dimension.trans hy.dimension.symm
  refine beq_of_forall₂ (List.forall₂_iff_get.2 ⟨hdim, fun j hjx hjy => ?_⟩)
  have hcx : x.component j = x.components[j] := List.getD_eq_getElem _ _ hjx
  have hcy : y.component j = y.components[j] := List.getD_eq_getElem _ _ hjy
  have hmemx := component_mem hjx
  have hmemy := component_mem hjy
  rw [List.get_eq_getElem, List.get_eq_getElem, ← hcx, ← hcy]
  refine Tube.beq_of_read (hx.regular.components _ hmemx).ordered
    (hy.regular.components _ hmemy).ordered ?_ fun p hp => ?_
  · rw [hx.regular.shared _ hmemx, hy.regular.shared _ hmemy, htimes]
  · rw [hx.contains_component hr hjx] at hp
    exact hread j (hx.dimension ▸ hjx) p hp

/-- One vector has the answers that the operation makes of those of two, over the breakpoints of
both. -/
structure Joins (op : Interval → Interval → Interval) (x y z : TubeVector Interval) : Prop where
  read : ∀ j < z.dimension, ∀ p, z.read j p = op (x.read j p) (y.read j p)
  mem_times : ∀ t, t ∈ z.times ↔ t ∈ x.times ∨ t ∈ y.times

/-- Components are combined over the joint breakpoints, where they keep their answers. -/
theorem Plain.read_combine (hempty : op Interval.empty Interval.empty = Interval.empty)
    (hx : x.Plain) (hy : y.Plain) (hends : x.first.SameEnds y.first)
    (h : combine (Tube.combine op) x y = .ok z) (hj : j < z.dimension) (p : Probe) :
    z.read j p = op (x.read j p) (y.read j p) := by
  obtain ⟨-, -, hparts⟩ := components_of_combine h
  obtain ⟨a, b, ha, hb, hab⟩ := hparts j (z.component j) (getElem?_component hj)
  obtain ⟨hrx, hry⟩ := hx.first.ordered.refinedBy_jointTimes hy.first.ordered hends
  have hts : ∀ t ∈ Tube.jointTimes x.first y.first, t ≠ -0.0 := fun t ht =>
    (Tube.mem_or_mem_of_mem_jointTimes ht).elim (hx.first.zeros t) (hy.first.zeros t)
  have hamem := List.mem_of_getElem? ha
  have hbmem := List.mem_of_getElem? hb
  have hra := hrx.of_times hx.first.toFits (hx.components a hamem).toFits (hx.shared a hamem)
  have hrb := hry.of_times hy.first.toFits (hy.components b hbmem).toFits (hy.shared b hbmem)
  have hpa := hra.plain_refine (hx.components a hamem).ordered hts
  have hpb := hrb.plain_refine (hy.components b hbmem).ordered hts
  rw [read, read, read, component_of_getElem? ha, component_of_getElem? hb,
    Tube.read_combine hempty hpa hpb (Tube.sameEnds_of_times hpa.toFits hpb.toFits rfl) hab,
    hra.read_refine (hx.components a hamem) hts, hrb.read_refine (hy.components b hbmem) hts]

theorem Continues.exists_combine (hop : Interval.KeepsInclusion op)
    (hempty : op Interval.empty Interval.empty = Interval.empty) (hx : x.Continues r)
    (hy : y.Continues r) : ∃ z, combine (Tube.combine op) x y = .ok z ∧ z.Continues r ∧
      Joins op x y z := by
  have hends := hy.ends.trans hx.ends.symm
  have hdim := hy.dimension.trans hx.dimension.symm
  have hxp := hx.regular.plain
  have hyp := hy.regular.plain
  obtain ⟨z, hz, hcombines⟩ := TubeVector.exists_combine hempty hxp hyp hdim.symm hends.symm
  have hsettles := hx.regular.combine hop hy.regular hdim hends
  rw [hz] at hsettles
  have hcontinues : z.Continues x := hsettles
  obtain ⟨hdx, hdy, -⟩ := components_of_combine hz
  have hzero : 0 < z.dimension := List.length_pos_of_ne_nil hcontinues.regular.someComponent
  refine ⟨z, hz, hcontinues.trans hx, fun j hj p => hxp.read_combine hempty hyp hends.symm hz hj p,
    (hcombines.components 0 _ _ _ (getElem?_component (hdx ▸ hzero))
      (getElem?_component (hdy ▸ hzero)) (getElem?_component hzero)).mem_times⟩

/-! ### Overlaps -/

/-- The answers have a common part at all components and probes. -/
def Overlap (r x y : TubeVector Interval) : Prop :=
  r.Throughout fun j p => (x.read j p ∩ y.read j p).isEmpty = false

theorem Overlap.symm (h : r.Overlap x y) : r.Overlap y x :=
  fun j hj p hp => Interval.isEmpty_inter_swap (h j hj p hp)

/-- Vectors between the same ends overlap or do not. -/
theorem Continues.overlaps (hx : x.Continues r) (hy : y.Continues r) (hr : r.Regular) :
    ∃ b, Clustering.overlaps x y = .ok b ∧ (b = true ↔ r.Overlap x y) := by
  obtain ⟨z, hz, hcontinues, hjoins⟩ :=
    hx.exists_combine Interval.keepsInclusion_inter Interval.inter_empty hy
  refine ⟨!z.isEmpty, ?_, ?_⟩
  · have hinter : x.inter y = .ok z := hz
    rw [Clustering.overlaps, hinter]
    rfl
  · rw [Bool.not_eq_true', hcontinues.isEmpty_eq_false_iff hr]
    refine forall₂_congr fun j hj => forall₂_congr fun p _ => ?_
    dsimp only
    rw [hjoins.read j (hcontinues.dimension ▸ hj) p]

end TubeVector

end FlowTube
