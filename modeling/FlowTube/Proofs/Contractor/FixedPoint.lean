import FlowTube.Proofs.Contractor.Derivative
import FlowTube.Proofs.Enclosure.Exact
import FlowTube.Proofs.Tube.Regular

/-! Contraction by a derivative, without rounding. On one slice a contraction leaves in either gate
the values that are joined to the other gate by a slope, and in the codomain the values between the
two; so a second contraction of the same slice finds nothing. In a row of slices the gates are
shared. After the slices were visited in order of time, every value of a gate is reached from the
gate before it. Then, on the way back, no slice takes anything from the gate at its end, and so none
undoes what was found for the slice after it: every slice is left as a contraction leaves it. All
this goes on in an empty tube as well, where there is no value to be joined. -/

namespace FlowTube

variable {ι : Type} [Enclosure ι]

namespace Tube

variable {x : Tube ι} {i k : ℕ} {c a b : ι}

/-! ### A slice replaced -/

theorem gate_putSlice (h : x.Fits) (hi : i < x.sliceCount) (k : ℕ) :
    (x.putSlice i c a b).gate k = if k = i + 1 then b else if k = i then a else x.gate k := by
  have hsize : x.gates.size = x.sliceCount + 1 := h.gates
  have hput : (x.putGate i a).gates.size = x.gates.size := Array.size_setIfInBounds
  have hgate : (x.putSlice i c a b).gate k = ((x.putGate i a).putGate (i + 1) b).gate k := rfl
  rw [hgate, gate_putGate (by omega), gate_putGate (by omega)]

theorem codomain_putSlice (hk : k < x.sliceCount) :
    (x.putSlice i c a b).codomain k = if k = i then c else x.codomain k :=
  codomain_putCodomain hk

/-- A slice replaced by itself. -/
theorem putSlice_self (x : Tube ι) (i : ℕ) :
    x.putSlice i (x.codomain i) (x.gate i) (x.gate (i + 1)) = x := by
  change ((x.putGate i (x.gate i)).putGate (i + 1) (x.gate (i + 1))).putCodomain i
    (x.codomain i) = x
  rw [putGate_self, putGate_self, putCodomain_self]

end Tube

namespace Derivative

open Enclosure (width elapsed)
open Enclosure.Exact (mem_add mem_sub mem_mul mem_inter inter_ext mem_point mem_fromZero)

variable [Membership ℝ ι]

/-! ### Values joined by a slope -/

/-- From `p` to `q` in a time of `d`, with a slope in `v`. -/
def Reaches (d v : ι) (p q : ℝ) : Prop := ∃ s ∈ d, ∃ w ∈ v, p + s * w = q

variable [Enclosure.Exact ι] {t : Interval} {v c a b d : ι} {p q r : ℝ}

theorem mem_add_mul : q ∈ a + d * v ↔ ∃ p ∈ a, Reaches d v p q := by
  simp only [mem_add, mem_mul, Reaches]
  constructor
  · rintro ⟨p, hp, _, ⟨s, hs, w, hw, rfl⟩, rfl⟩
    exact ⟨p, hp, s, hs, w, hw, rfl⟩
  · rintro ⟨p, hp, s, hs, w, hw, rfl⟩
    exact ⟨p, hp, s * w, ⟨s, hs, w, hw, rfl⟩, rfl⟩

theorem mem_sub_mul : p ∈ b - d * v ↔ ∃ q ∈ b, Reaches d v p q := by
  simp only [mem_sub, mem_mul, Reaches]
  constructor
  · rintro ⟨q, hq, _, ⟨s, hs, w, hw, rfl⟩, rfl⟩
    exact ⟨q, hq, s, hs, w, hw, sub_add_cancel _ _⟩
  · rintro ⟨q, hq, s, hs, w, hw, rfl⟩
    exact ⟨p + s * w, hq, s * w, ⟨s, hs, w, hw, rfl⟩, add_sub_cancel_right _ _⟩

/-- Over the whole width of a slice, both ends are between each other. -/
theorem Reaches.between (ht : ∀ s ∈ (width t : ι), 0 ≤ s) (h : Reaches (width t) v p q) :
    Reaches (elapsed t) v p p ∧ Reaches (elapsed t) v p q ∧ Reaches (elapsed t) v q q := by
  obtain ⟨s, hs, w, hw, rfl⟩ := h
  have h0 := ht s hs
  have hstart : (0 : ℝ) ∈ (elapsed t : ι) := mem_fromZero.2 ⟨le_rfl, s, hs, h0⟩
  have hend : s ∈ (elapsed t : ι) := mem_fromZero.2 ⟨h0, s, hs, le_rfl⟩
  exact ⟨⟨0, hstart, w, hw, by ring⟩, ⟨s, hend, w, hw, rfl⟩, ⟨0, hstart, w, hw, by ring⟩⟩

/-! ### One slice -/

/-- What a contraction leaves of a slice with gates `a` and `b` and codomain `c`: the gates that are
joined by a slope, and the values between them. -/
structure Joined (t : Interval) (v c a b : ι) (s : ι × ι × ι) : Prop where
  first : ∀ p : ℝ, p ∈ s.2.1 ↔ p ∈ a ∧ ∃ q ∈ b, Reaches (width t) v p q
  last : ∀ q : ℝ, q ∈ s.2.2 ↔ q ∈ b ∧ ∃ p ∈ a, Reaches (width t) v p q
  codomain : ∀ r : ℝ, r ∈ s.1 ↔ r ∈ c ∧ (∃ p ∈ s.2.1, Reaches (elapsed t) v p r) ∧
    ∃ q ∈ s.2.2, Reaches (elapsed t) v r q

/-- A contracted slice consists of intersections, which their reals determine. -/
theorem narrowSlice_ext {c' a' b' : ι}
    (hcodomain : ∀ r : ℝ, r ∈ (narrowSlice t v c' a' b').1 ↔ r ∈ (narrowSlice t v c a b).1)
    (hfirst : ∀ r : ℝ, r ∈ (narrowSlice t v c' a' b').2.1 ↔ r ∈ (narrowSlice t v c a b).2.1)
    (hlast : ∀ r : ℝ, r ∈ (narrowSlice t v c' a' b').2.2 ↔ r ∈ (narrowSlice t v c a b).2.2) :
    narrowSlice t v c' a' b' = narrowSlice t v c a b :=
  Prod.ext (inter_ext hcodomain) (Prod.ext (inter_ext hfirst) (inter_ext hlast))

section Slice

variable (ht : ∀ s ∈ (width t : ι), 0 ≤ s) (ha : ∀ r : ℝ, r ∈ a → r ∈ c)
  (hb : ∀ r : ℝ, r ∈ b → r ∈ c)

include ht ha hb

theorem joined_narrowSlice : Joined t v c a b (narrowSlice t v c a b) := by
  unfold narrowSlice
  dsimp only
  have hlast (q : ℝ) : q ∈ b ∩ (a + width t * v) ↔ q ∈ b ∧ ∃ p ∈ a, Reaches (width t) v p q :=
    mem_inter.trans (and_congr_right fun _ => mem_add_mul)
  generalize b ∩ (a + width t * v) = last at hlast
  have hfirst (p : ℝ) : p ∈ a ∩ (last - width t * v) ↔
      p ∈ a ∧ ∃ q ∈ b, Reaches (width t) v p q := by
    rw [mem_inter, mem_sub_mul]
    refine and_congr_right fun hp => ⟨?_, ?_⟩
    · rintro ⟨q, hq, hpq⟩
      exact ⟨q, ((hlast q).1 hq).1, hpq⟩
    · rintro ⟨q, hq, hpq⟩
      exact ⟨q, (hlast q).2 ⟨hq, p, hp, hpq⟩, hpq⟩
  generalize a ∩ (last - width t * v) = first at hfirst
  have hcodomain (r : ℝ) : r ∈ c ∩ (first + elapsed t * v) ∩ (last - elapsed t * v) ↔
      r ∈ c ∧ (∃ p ∈ first, Reaches (elapsed t) v p r) ∧
        ∃ q ∈ last, Reaches (elapsed t) v r q := by
    rw [mem_inter, mem_inter, mem_add_mul, mem_sub_mul, and_assoc]
  generalize c ∩ (first + elapsed t * v) ∩ (last - elapsed t * v) = codomain at hcodomain
  -- the gates that are left are between themselves, so the codomain takes nothing from them
  have hin {p q : ℝ} (hp : p ∈ a) (hq : q ∈ b) (hpq : Reaches (width t) v p q) :
      p ∈ codomain ∧ q ∈ codomain := by
    have hp' := (hfirst p).2 ⟨hp, q, hq, hpq⟩
    have hq' := (hlast q).2 ⟨hq, p, hp, hpq⟩
    obtain ⟨hpp, hbetween, hqq⟩ := hpq.between ht
    exact ⟨(hcodomain p).2 ⟨ha p hp, ⟨p, hp', hpp⟩, q, hq', hbetween⟩,
      (hcodomain q).2 ⟨hb q hq, ⟨p, hp', hbetween⟩, q, hq', hqq⟩⟩
  have hfirst' (p : ℝ) : p ∈ first ∩ codomain ↔ p ∈ first := by
    rw [mem_inter, and_iff_left_iff_imp]
    intro hp
    obtain ⟨hpa, q, hq, hpq⟩ := (hfirst p).1 hp
    exact (hin hpa hq hpq).1
  have hlast' (q : ℝ) : q ∈ last ∩ codomain ↔ q ∈ last := by
    rw [mem_inter, and_iff_left_iff_imp]
    intro hq
    obtain ⟨hqb, p, hp, hpq⟩ := (hlast q).1 hq
    exact (hin hp hqb hpq).2
  exact ⟨fun p => (hfirst' p).trans (hfirst p), fun q => (hlast' q).trans (hlast q), fun r => by
    simp only [hfirst', hlast', hcodomain]⟩

/-- A second contraction of a slice changes nothing. -/
theorem narrowSlice_narrowSlice :
    narrowSlice t v (narrowSlice t v c a b).1 (narrowSlice t v c a b).2.1
      (narrowSlice t v c a b).2.2 = narrowSlice t v c a b := by
  have hfirst := joined_narrowSlice (v := v) ht ha hb
  have hsecond := joined_narrowSlice (v := v) ht (a := (narrowSlice t v c a b).2.1)
    (c := (narrowSlice t v c a b).1) (b := (narrowSlice t v c a b).2.2)
    (fun r hr => (mem_inter.1 hr).2) (fun r hr => (mem_inter.1 hr).2)
  have hstart (p : ℝ) : p ∈ (narrowSlice t v (narrowSlice t v c a b).1 (narrowSlice t v c a b).2.1
      (narrowSlice t v c a b).2.2).2.1 ↔ p ∈ (narrowSlice t v c a b).2.1 := by
    rw [hsecond.first, and_iff_left_iff_imp]
    intro hp
    obtain ⟨hpa, q, hq, hpq⟩ := (hfirst.first p).1 hp
    exact ⟨q, (hfirst.last q).2 ⟨hq, p, hpa, hpq⟩, hpq⟩
  have hend (q : ℝ) : q ∈ (narrowSlice t v (narrowSlice t v c a b).1 (narrowSlice t v c a b).2.1
      (narrowSlice t v c a b).2.2).2.2 ↔ q ∈ (narrowSlice t v c a b).2.2 := by
    rw [hsecond.last, and_iff_left_iff_imp]
    intro hq
    obtain ⟨hqb, p, hp, hpq⟩ := (hfirst.last q).1 hq
    exact ⟨p, (hfirst.first p).2 ⟨hp, q, hqb, hpq⟩, hpq⟩
  refine narrowSlice_ext (fun r => ?_) hstart hend
  rw [hsecond.codomain, and_iff_left_iff_imp]
  intro hr
  obtain ⟨-, ⟨p, hp, hpr⟩, q, hq, hrq⟩ := (hfirst.codomain r).1 hr
  exact ⟨⟨p, (hstart p).2 hp, hpr⟩, q, (hend q).2 hq, hrq⟩

/-- A last gate all of whose values are reached from the first one stays as it is. -/
theorem last_narrowSlice (hreached : ∀ q : ℝ, q ∈ b → ∃ p ∈ a, Reaches (width t) v p q)
    (hinter : ∃ b₁ b₂ : ι, b = b₁ ∩ b₂) : (narrowSlice t v c a b).2.2 = b := by
  obtain ⟨b₁, b₂, rfl⟩ := hinter
  refine inter_ext fun q => ((joined_narrowSlice ht ha hb).last q).trans ?_
  exact and_iff_left_of_imp (hreached q)

end Slice

end Derivative

/-! ### Tubes -/

namespace Tube

open Enclosure (width)

variable [Membership ℝ ι] {x : Tube ι} {i : ℕ}

/-- Increasing breakpoints, and gates with no value outside the codomains beside them. -/
structure Nested (x : Tube ι) : Prop extends x.Ordered where
  first : ∀ i < x.sliceCount, ∀ r : ℝ, r ∈ x.gate i → r ∈ x.codomain i
  last : ∀ i < x.sliceCount, ∀ r : ℝ, r ∈ x.gate (i + 1) → r ∈ x.codomain i

variable [Enclosure.Exact ι]

theorem WellFormed.nested (h : x.WellFormed) : x.Nested where
  toFits := h.toFits
  increasing := h.increasing
  first i hi _ := Enclosure.Exact.mem_of_isSubset (h.insideLeft i hi)
  last i hi _ := Enclosure.Exact.mem_of_isSubset (h.insideRight i hi)

/-- No slice goes back in time. -/
theorem Ordered.nonneg_of_mem_width (h : x.Ordered) (hi : i < x.sliceCount) {s : ℝ}
    (hs : s ∈ (width (x.sliceDomain i) : ι)) : 0 ≤ s := by
  have hlt := h.time_lt_time (Nat.lt_succ_self i) hi
  rw [h.sliceDomain_eq hi] at hs
  obtain ⟨p, hp, q, hq, rfl⟩ := Enclosure.Exact.mem_sub.1 hs
  obtain ⟨hup, rfl⟩ := Enclosure.Exact.mem_point.1 hp
  obtain ⟨hlow, rfl⟩ := Enclosure.Exact.mem_point.1 hq
  exact sub_nonneg.2 ((Binary64.lt_iff_real hlow hup).1 hlt).le

end Tube

namespace Derivative

open Enclosure (width)

variable [Membership ℝ ι] {v x : Tube ι} {i j k : ℕ} {w : ι}

/-- What a contraction makes of slice `i`. -/
def narrowed (x : Tube ι) (i : ℕ) (w : ι) : ι × ι × ι :=
  narrowSlice (x.sliceDomain i) w (x.codomain i) (x.gate i) (x.gate (i + 1))

omit [Membership ℝ ι] in
theorem gate_contractSlice (h : x.Fits) (hi : i < x.sliceCount) (w : ι) (k : ℕ) :
    (contractSlice x i w).1.gate k = if k = i + 1 then (narrowed x i w).2.2
      else if k = i then (narrowed x i w).2.1 else x.gate k :=
  Tube.gate_putSlice h hi k

omit [Membership ℝ ι] in
theorem codomain_contractSlice (hk : k < x.sliceCount) (w : ι) :
    (contractSlice x i w).1.codomain k =
      if k = i then (narrowed x i w).1 else x.codomain k :=
  Tube.codomain_putSlice hk

omit [Membership ℝ ι] in
theorem sameShape_contractSlice (x : Tube ι) (i : ℕ) (w : ι) :
    (contractSlice x i w).1.SameShape x :=
  Tube.sameShape_putSlice ..

/-- Slice `i` is as a contraction leaves it. -/
def Settled (v x : Tube ι) (i : ℕ) : Prop :=
  narrowed x i (v.codomain i) = (x.codomain i, x.gate i, x.gate (i + 1))

/-- Every value of the gate at the end of slice `i` is reached from the gate at its start, and the
gate was narrowed before. -/
def Fed (v x : Tube ι) (i : ℕ) : Prop :=
  (∃ b₁ b₂ : ι, x.gate (i + 1) = b₁ ∩ b₂) ∧ ∀ q : ℝ, q ∈ x.gate (i + 1) →
    ∃ p ∈ x.gate i, Reaches (width (x.sliceDomain i)) (v.codomain i) p q

/-! ### One slice of a tube contracted -/

section Step

variable [Enclosure.Exact ι] (h : x.Nested) (hi : i < x.sliceCount)

include h hi

theorem joined_narrowed (w : ι) : Joined (x.sliceDomain i) w (x.codomain i) (x.gate i)
    (x.gate (i + 1)) (narrowed x i w) :=
  joined_narrowSlice (fun _ => h.nonneg_of_mem_width hi) (h.first i hi) (h.last i hi)

/-- Gates lose values only. -/
theorem mem_of_mem_gate_contractSlice {r : ℝ} (hr : r ∈ (contractSlice x i w).1.gate k) :
    r ∈ x.gate k := by
  have hjoined := joined_narrowed h hi w
  rw [gate_contractSlice h.toFits hi] at hr
  split_ifs at hr with hlast hfirst
  · exact hlast ▸ ((hjoined.last r).1 hr).1
  · exact hfirst ▸ ((hjoined.first r).1 hr).1
  · exact hr

theorem nested_contractSlice (w : ι) : (contractSlice x i w).1.Nested := by
  have hshape := sameShape_contractSlice x i w
  have hcount : (contractSlice x i w).1.sliceCount = x.sliceCount := hshape.codomains
  refine ⟨hshape.ordered h.toOrdered, fun m hm r hr => ?_, fun m hm r hr => ?_⟩
  · rw [hcount] at hm
    rw [codomain_contractSlice hm]
    split_ifs with hmi
    · subst hmi
      rw [gate_contractSlice h.toFits hi, if_neg (Nat.succ_ne_self m).symm, if_pos rfl] at hr
      exact (Enclosure.Exact.mem_inter.1 hr).2
    · exact h.first m hm r (mem_of_mem_gate_contractSlice h hi hr)
  · rw [hcount] at hm
    rw [codomain_contractSlice hm]
    split_ifs with hmi
    · subst hmi
      rw [gate_contractSlice h.toFits hi, if_pos rfl] at hr
      exact (Enclosure.Exact.mem_inter.1 hr).2
    · exact h.last m hm r (mem_of_mem_gate_contractSlice h hi hr)

/-- A contracted slice is settled. -/
theorem settled_contractSlice : Settled v (contractSlice x i (v.codomain i)).1 i := by
  have hdomain : (contractSlice x i (v.codomain i)).1.sliceDomain i = x.sliceDomain i := rfl
  rw [Settled, narrowed, hdomain, codomain_contractSlice hi, if_pos rfl,
    gate_contractSlice h.toFits hi, gate_contractSlice h.toFits hi,
    if_neg (Nat.succ_ne_self i).symm, if_pos rfl, if_pos rfl]
  exact narrowSlice_narrowSlice (fun _ => h.nonneg_of_mem_width hi) (h.first i hi) (h.last i hi)

/-- It is fed as well. -/
theorem fed_contractSlice : Fed v (contractSlice x i (v.codomain i)).1 i := by
  have hjoined := joined_narrowed h hi (v.codomain i)
  have hdomain : (contractSlice x i (v.codomain i)).1.sliceDomain i = x.sliceDomain i := rfl
  rw [Fed, hdomain, gate_contractSlice h.toFits hi, gate_contractSlice h.toFits hi,
    if_neg (Nat.succ_ne_self i).symm, if_pos rfl, if_pos rfl]
  refine ⟨⟨_, _, rfl⟩, fun q hq => ?_⟩
  obtain ⟨hqb, p, hp, hpq⟩ := (hjoined.last q).1 hq
  exact ⟨p, (hjoined.first p).2 ⟨hp, q, hqb, hpq⟩, hpq⟩

/-- A slice stays fed when a later one is contracted. -/
theorem Fed.contractSlice (hfed : Fed v x j) (hj : j < i) (w : ι) :
    Fed v (contractSlice x i w).1 j := by
  have hdomain : (Derivative.contractSlice x i w).1.sliceDomain j = x.sliceDomain j := rfl
  have hstart : (Derivative.contractSlice x i w).1.gate j = x.gate j := by
    rw [gate_contractSlice h.toFits hi, if_neg (by omega), if_neg (by omega)]
  refine ⟨?_, fun q hq => ?_⟩
  · rw [gate_contractSlice h.toFits hi, if_neg (by omega)]
    split_ifs
    · exact ⟨_, _, rfl⟩
    · exact hfed.1
  · rw [hdomain, hstart]
    exact hfed.2 q (mem_of_mem_gate_contractSlice h hi hq)

/-- A slice that is fed keeps its last gate, so the slices after it stay settled. -/
theorem Settled.contractSlice (hsettled : Settled v x j) (hj : j < x.sliceCount) (hij : i < j)
    (hfed : Fed v x i) : Settled v (contractSlice x i (v.codomain i)).1 j := by
  have hlast : (narrowed x i (v.codomain i)).2.2 = x.gate (i + 1) :=
    last_narrowSlice (fun _ => h.nonneg_of_mem_width hi) (h.first i hi) (h.last i hi) hfed.2 hfed.1
  have hdomain : (Derivative.contractSlice x i (v.codomain i)).1.sliceDomain j =
      x.sliceDomain j := rfl
  have hgate (k : ℕ) (hk : i < k) :
      (Derivative.contractSlice x i (v.codomain i)).1.gate k = x.gate k := by
    rw [gate_contractSlice h.toFits hi, hlast, if_neg (show k ≠ i by omega)]
    exact ite_eq_right_iff.2 fun hki => hki ▸ rfl
  rw [Settled, narrowed, hdomain, codomain_contractSlice hj, if_neg hij.ne', hgate j hij,
    hgate (j + 1) (by omega)]
  exact hsettled

end Step

/-! ### Sweeps -/

/-- In order of time, each slice is fed when it was visited, and stays so. -/
theorem fed_forward [Enclosure.Exact ι] (h : x.Nested) (hk : k ≤ x.sliceCount) :
    (sweep v (List.range k) x).1.Nested ∧
      ∀ i < k, Fed v (sweep v (List.range k) x).1 i := by
  induction k with
  | zero => exact ⟨h, fun i hi => absurd hi (Nat.not_lt_zero i)⟩
  | succ k ih =>
    obtain ⟨hnested, hfed⟩ := ih (by omega)
    have hcount : (sweep v (List.range k) x).1.sliceCount = x.sliceCount :=
      (sameShape_sweep v (List.range k) x).codomains
    have hlast : (sweep v (List.range (k + 1)) x).1 =
        (contractSlice (sweep v (List.range k) x).1 k (v.codomain k)).1 := by
      rw [sweep_fst, sweep_fst, List.range_succ, List.foldl_append]
      rfl
    rw [hlast]
    refine ⟨nested_contractSlice hnested (by omega) _, fun i hi => ?_⟩
    rcases Nat.eq_or_lt_of_le (Nat.le_of_lt_succ hi) with rfl | hik
    · exact fed_contractSlice hnested (by omega)
    · exact (hfed i hik).contractSlice hnested (by omega) hik _

/-- Against the order of time, each slice is settled when it was visited. The slices before it are
fed, so it stays settled when they are visited. -/
theorem settled_backward [Enclosure.Exact ι] (h : x.Nested) (hk : k ≤ x.sliceCount)
    (hfed : ∀ i < k, Fed v x i) (hsettled : ∀ i, k ≤ i → i < x.sliceCount → Settled v x i) :
    ∀ i < x.sliceCount, Settled v (sweep v (List.range k).reverse x).1 i := by
  induction k generalizing x with
  | zero => exact fun i hi => hsettled i (Nat.zero_le i) hi
  | succ k ih =>
    have hfirst : (sweep v (List.range (k + 1)).reverse x).1 =
        (sweep v (List.range k).reverse (contractSlice x k (v.codomain k)).1).1 := by
      rw [sweep_fst, sweep_fst, List.range_succ, List.reverse_append]
      rfl
    have hcount : (contractSlice x k (v.codomain k)).1.sliceCount = x.sliceCount :=
      (sameShape_contractSlice x k _).codomains
    rw [hfirst, ← hcount]
    refine ih (nested_contractSlice h hk _) (by omega) (fun i hi => ?_) fun i hki hi => ?_
    · exact (hfed i (by omega)).contractSlice h hk hi _
    · rcases Nat.eq_or_lt_of_le hki with rfl | hlt
      · exact settled_contractSlice h hk
      · exact (hsettled i hlt (hcount ▸ hi)).contractSlice h hk (hcount ▸ hi) hlt
          (hfed k (Nat.lt_succ_self k))

theorem settled_contractTube [Enclosure.Exact ι] (h : x.Nested) :
    ∀ i < x.sliceCount, Settled v (contractTube .both v x).1 i := by
  obtain ⟨hnested, hfed⟩ := fed_forward (v := v) h le_rfl
  have hcount : (sweep v (List.range x.sliceCount) x).1.sliceCount = x.sliceCount :=
    (sameShape_sweep v _ x).codomains
  have hboth : (contractTube .both v x).1 =
      (sweep v (List.range x.sliceCount).reverse (sweep v (List.range x.sliceCount) x).1).1 := rfl
  rw [hboth]
  have := settled_backward hnested hcount.ge hfed fun i hi hlt => absurd hi (by omega)
  rwa [hcount] at this

/-- A settled slice is not changed, and no change is reported. -/
theorem contractSlice_of_settled [Enclosure.Exact ι] (h : Settled v x i) :
    contractSlice x i (v.codomain i) = (x, false) := by
  have hself (a : ι) : (a != a) = false := by
    rw [bne, Enclosure.Exact.beq_self]
    rfl
  rw [Settled, narrowed] at h
  rw [contractSlice, h]
  simp only [hself, Bool.or_self, Tube.putSlice_self]

theorem sweep_of_settled [Enclosure.Exact ι] {slices : List ℕ}
    (h : ∀ i ∈ slices, Settled v x i) : sweep v slices x = (x, false) := by
  unfold sweep
  induction slices with
  | nil => rfl
  | cons i slices ih =>
    rw [List.foldl_cons]
    dsimp only
    rw [contractSlice_of_settled (h i List.mem_cons_self)]
    exact ih fun m hm => h m (List.mem_cons_of_mem i hm)

theorem contractTube_of_settled [Enclosure.Exact ι] (direction : Direction)
    (h : ∀ i < x.sliceCount, Settled v x i) : contractTube direction v x = (x, false) := by
  have hforward : sweep v (List.range x.sliceCount) x = (x, false) :=
    sweep_of_settled fun i hi => h i (List.mem_range.1 hi)
  have hbackward : sweep v (List.range x.sliceCount).reverse x = (x, false) :=
    sweep_of_settled fun i hi => h i (List.mem_range.1 (List.mem_reverse.1 hi))
  cases direction <;> simp [contractTube, Direction.goesForward, Direction.goesBackward, hforward,
    hbackward]

theorem contractTube_contractTube [Enclosure.Exact ι] (h : x.Nested) (direction : Direction) :
    contractTube direction v (contractTube .both v x).1 = ((contractTube .both v x).1, false) := by
  have hcount : (contractTube .both v x).1.sliceCount = x.sliceCount :=
    (related_contractTube sliceRelation_sameShape .both v x).codomains
  exact contractTube_of_settled direction fun i hi => settled_contractTube h i (hcount ▸ hi)

/-! ### Vectors -/

/-- Tubes that were contracted with a derivative each are neither changed by a second contraction
nor reported. -/
theorem zipWith_contractTube [Enclosure.Exact ι] (direction : Direction) {xs : List (Tube ι)}
    (h : ∀ c ∈ xs, c.Nested) (vs : List (Tube ι)) :
    List.zipWith (contractTube direction) vs
        (List.zipWith (fun c w => (contractTube .both w c).1) xs vs) =
      (List.zipWith (fun c w => (contractTube .both w c).1) xs vs).map (·, false) := by
  induction xs generalizing vs with
  | nil => simp
  | cons c xs ih =>
    cases vs with
    | nil => rfl
    | cons w vs =>
      rw [List.zipWith_cons_cons, List.zipWith_cons_cons, List.map_cons,
        contractTube_contractTube (h c List.mem_cons_self),
        ih (fun d hd => h d (List.mem_cons_of_mem c hd))]

/-- Without rounding, a contraction over the slices in order of time and back again leaves nothing
for a second one to change, in whichever order. -/
theorem contract_contract [Enclosure.Exact ι] {v x : TubeVector ι} (hx : x.WellFormed)
    (hdim : v.dimension = x.dimension) (hslices : ∀ c ∈ v.components, c.sliceCount = x.sliceCount) :
    ∃ y changed, contract .both v x = .ok (y, changed) ∧
      ∀ direction, contract direction v y = .ok (y, false) := by
  have hok := contract_eq_ok .both hx.someComponent hdim hslices
  have hshape := sameShape_contract hok
  refine ⟨_, _, hok, fun direction => ?_⟩
  generalize hy : (⟨List.zipWith (fun c w => (contractTube .both w c).1) x.components
    v.components⟩ : TubeVector ι) = y at hshape
  obtain ⟨hyo, htimes⟩ := hx.ordered.of_sameShape hshape
  have hcount : y.sliceCount = x.sliceCount :=
    Tube.sliceCount_eq_of_times hyo.first.toFits hx.ordered.first.toFits htimes
  have hdim' : y.dimension = x.dimension := hshape.length_eq
  rw [contract_eq_ok direction hyo.someComponent (hdim.trans hdim'.symm)
    fun c hc => (hslices c hc).trans hcount.symm]
  have hagain := zipWith_contractTube direction
    (fun c hc => (hx.components c hc).nested) v.components
  have hys : List.zipWith (fun c w => (contractTube .both w c).1) x.components v.components =
      y.components := congrArg TubeVector.components hy
  rw [hys] at hagain
  have hcomponents : List.zipWith (fun c w => (contractTube direction w c).1) y.components
      v.components = y.components := by
    rw [List.zipWith_comm, ← List.map_zipWith, hagain, List.map_map]
    exact List.map_id _
  rw [hcomponents, hagain]
  simp

open TubeVector (unitSlice wellFormed_unitSlice) in
/-- Values from zero to one, with slope one over the unit span. -/
theorem contract_contract_unitSlice :
    ∃ y changed,
      contract .both (unitSlice (RealInterval.ofInterval (.point 1.0)) (.ofInterval (.point 1.0)))
        (unitSlice (.ofInterval .unit) (.ofInterval .unit)) = .ok (y, changed) ∧
      ∀ direction, contract direction
        (unitSlice (RealInterval.ofInterval (.point 1.0)) (.ofInterval (.point 1.0))) y =
          .ok (y, false) := by
  have hx : (unitSlice (RealInterval.ofInterval .unit) (.ofInterval .unit)).WellFormed :=
    wellFormed_unitSlice (RealInterval.isSubset_iff.2 fun _ => id)
  refine contract_contract hx rfl ?_
  intro c hc
  rw [List.mem_singleton.1 hc]
  rfl

end Derivative

end FlowTube
