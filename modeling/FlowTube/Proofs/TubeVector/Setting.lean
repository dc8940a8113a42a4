import FlowTube.Proofs.TubeVector.Within

/-! The value set at a time. The time becomes a breakpoint, or is one already, and its gate takes the
value, restricted to the codomains of the slices around it; no other gate and no codomain changes.
Whether a time is a breakpoint is a question of its value when it is sampled, but its gate is found
by the total order. The two part where a time is a zero and the breakpoint is the other one: nothing
is sampled, no gate is found, and the value is lost. -/

namespace FlowTube

theorem Binary64.max_max_self (x y : Float) : max (max x y) y = max x y := by
  unfold max
  split_ifs <;> rfl

theorem Binary64.min_min_self (x y : Float) : min (min x y) y = min x y := by
  unfold min
  split_ifs <;> rfl

/-- A second restriction to the same interval changes nothing, not even the sign of a zero. -/
theorem Interval.inter_inter_self (a b : Interval) : (a ∩ b) ∩ b = a ∩ b := by
  rcases inter_cases a b with hempty | ⟨-, heq⟩
  · rw [hempty]
    exact inter_of_isEmpty_left (by decide)
  · rw [inter_eq_ofBounds (a ∩ b), heq]
    dsimp only
    rw [Binary64.max_max_self, Binary64.min_min_self, ← inter_eq_ofBounds, heq]

namespace Tube

open Binary64 (value)

variable {x : Tube Interval} {v : Interval} {s t : Float} {i k : ℕ}

/-! ### Slices around a time -/

section Around

variable {ι : Type} {x : Tube ι}

/-- Another zero than `t` is a breakpoint: equal as a number, and not found by the total order. -/
def OtherZero (x : Tube ι) (t : Float) : Prop := ∃ s ∈ x.times, (s == t) = true ∧ s ≠ t

instance (x : Tube ι) (t : Float) : Decidable (x.OtherZero t) :=
  inferInstanceAs (Decidable (∃ s ∈ x.times, (s == t) = true ∧ s ≠ t))

/-- The slices that a time belongs to: at most two, and two only at the breakpoint between them. -/
def around (x : Tube ι) (t : Float) : List ℕ :=
  (List.range x.sliceCount).filter fun i => (x.sliceDomain i).contains t

/-- `v` restricted to the codomains of all slices around `t`. -/
def insideAround [Enclosure ι] (x : Tube ι) (t : Float) (v : ι) : ι :=
  (x.around t).foldl (fun a i => a ∩ x.codomain i) v

/-- A list of slices in their order is the list of those around `t` if it has the same entries. -/
theorem Ordered.around_eq (h : x.Ordered) (ht : t.isNaN = false) {is : List ℕ}
    (hincreasing : is.Pairwise (· < ·)) (hmem : ∀ i, i ∈ is ↔
      i < x.sliceCount ∧ x.moment i ≤ value t ∧ value t ≤ x.moment (i + 1)) : x.around t = is := by
  refine List.Pairwise.eq_of_mem_iff (List.pairwise_lt_range.filter _) hincreasing fun i => ?_
  rw [around, List.mem_filter, List.mem_range, hmem]
  exact and_congr_right fun hi => (h.contains_sliceDomain_iff hi).trans (and_iff_right ht)

/-- A time inside a slice belongs to no other one. -/
theorem Ordered.around_of_inside (h : x.Ordered) (hi : i < x.sliceCount) (ht : t.isNaN = false)
    (hlow : x.moment i < value t) (hup : value t < x.moment (i + 1)) : x.around t = [i] := by
  refine h.around_eq ht (List.pairwise_singleton _ _) fun j => ?_
  rw [List.mem_singleton]
  constructor
  · rintro rfl
    exact ⟨hi, hlow.le, hup.le⟩
  · rintro ⟨hj, hlow', hup'⟩
    have hij := h.lt_of_moment_lt hi.le (hlow.trans_le hup')
    have hji := h.lt_of_moment_lt hj.le (hlow'.trans_lt hup)
    omega

/-- A breakpoint belongs to the slices on both sides. -/
theorem Ordered.around_of_moment (h : x.Ordered) (hk : k ≤ x.sliceCount) (ht : t.isNaN = false)
    (heq : x.moment k = value t) : x.around t =
      (if 0 < k then [k - 1] else []) ++ (if k < x.sliceCount then [k] else []) := by
  refine h.around_eq ht ?_ fun i => ?_
  · split_ifs <;> simp
    omega
  · have hiff : i < x.sliceCount ∧ x.moment i ≤ value t ∧ value t ≤ x.moment (i + 1) ↔
        i < x.sliceCount ∧ i ≤ k ∧ k ≤ i + 1 := by
      refine and_congr_right fun hi => ?_
      rw [← heq]
      exact and_congr ⟨fun hle => not_lt.1 fun hlt => not_lt.2 hle (h.moment_lt_moment hlt hi.le),
          fun hle => h.moment_le_moment hle hk⟩
        ⟨fun hle => not_lt.1 fun hlt => not_lt.2 hle (h.moment_lt_moment hlt hk),
          fun hle => h.moment_le_moment hle hi⟩
    rw [hiff, List.mem_append]
    split_ifs <;> simp <;> omega

/-- The codomains on both sides of a gate are those around its time. -/
theorem Ordered.insideAround_of_moment [Enclosure ι] (h : x.Ordered) (hk : k ≤ x.sliceCount)
    (ht : t.isNaN = false) (heq : x.moment k = value t) (v : ι) :
    x.insideAround t v = x.insideNeighbours k v := by
  rw [insideAround, h.around_of_moment hk ht heq, insideNeighbours]
  split_ifs <;> rfl

end Around

/-! ### One gate replaced -/

/-- A gate that is set is the value at its time and at no other one. -/
theorem Ordered.eval_setGate (h : x.Ordered) (hk : k ≤ x.sliceCount) (v : Interval) (s : Float) :
    (x.setGate k v).eval s = if s = x.time k then x.insideNeighbours k v else x.eval s := by
  have hindices := indices_of_times (fits_setGate h.toFits k v) h.toFits rfl
  have hgate (m : ℕ) : (x.setGate k v).gate m =
      if m = k then x.insideNeighbours k v else x.gate m :=
    gate_putGate (by have := h.size_gates; omega) m
  rw [Tube.eval, Tube.eval, hindices.1, hindices.2]
  cases hm : x.gateIndex? s with
  | some m =>
    obtain ⟨-, rfl⟩ := time_of_gateIndex? hm
    have hindex : x.time m = x.time k ↔ m = k := by
      refine ⟨fun heq => ?_, fun heq => heq ▸ rfl⟩
      rw [heq, h.gateIndex?_time hk] at hm
      exact (Option.some.inj hm).symm
    dsimp only
    rw [hgate]
    exact if_congr hindex.symm rfl rfl
  | none =>
    rw [if_neg (h.gateIndex?_eq_none_iff.1 hm k hk).symm]
    rfl

/-- Once it was sampled, a time of the domain is a breakpoint, unless the other zero is, and the
codomains on both sides of its gate restrict as those of the slices it was in. -/
theorem Ordered.exists_gate_around (h : x.Ordered) (ht : x.domain.contains t = true)
    (hzero : ¬x.OtherZero t) : ∃ k ≤ (x.sample t).1.sliceCount, (x.sample t).1.time k = t ∧
      ∀ v, (x.sample t).1.insideNeighbours k v = x.insideAround t v := by
  have htn := (h.contains_domain_iff.1 ht).1
  rcases sample_eq h t with ⟨heq, hout | ⟨k, hk, hmoment⟩⟩ | ⟨i, hi, -, hlow, hup, heq⟩
  · rw [ht] at hout
    contradiction
  · rw [heq]
    refine ⟨k, hk, ?_, fun v => (h.insideAround_of_moment hk htn hmoment v).symm⟩
    by_contra hne
    exact hzero ⟨x.time k, time_mem (by have := h.size_times; omega),
      Binary64.beq_iff.2 ⟨h.isNaN_time hk, htn, hmoment⟩, hne⟩
  · rw [heq]
    have hcount : (x.splitSlice i t (x.codomain i)).sliceCount = x.sliceCount + 1 :=
      sliceCount_splitSlice hi
    refine ⟨i + 1, by omega, ?_, fun v => ?_⟩
    · rw [time_splitSlice h.toFits hi, if_neg (Nat.lt_irrefl _), if_pos rfl]
    · -- both parts have the codomain of the slice that was split
      have hleft : (x.splitSlice i t (x.codomain i)).codomain i = x.codomain i := by
        rw [codomain_splitSlice hi, if_pos (Nat.lt_succ_self i)]
      have hright : (x.splitSlice i t (x.codomain i)).codomain (i + 1) = x.codomain i := by
        rw [codomain_splitSlice hi, if_neg (Nat.lt_irrefl _), if_pos rfl]
      rw [insideNeighbours, if_pos (Nat.succ_pos i), hcount, if_pos (Nat.succ_lt_succ hi),
        Nat.add_sub_cancel, hleft, hright, Interval.inter_inter_self, insideAround,
        h.around_of_inside hi htn hlow hup]
      rfl

/-! ### The value set -/

/-- The value set at a time, and no value changed elsewhere. At a zero that is a breakpoint with the
other sign nothing happens. -/
structure SetsAt (y x : Tube Interval) (v : Interval) (t : Float) : Prop where
  atTime : ¬x.OtherZero t → y.eval t = x.insideAround t v
  elsewhere : ∀ s, s ≠ t → y.eval s = x.eval s
  dropped : x.OtherZero t → y = x

theorem Ordered.set_of_otherZero (h : x.Ordered) (hzero : x.OtherZero t) (v : Interval) :
    x.set v t = x := by
  obtain ⟨s, hs, hst, hne⟩ := hzero
  obtain ⟨k, hk, rfl⟩ := exists_time_eq hs
  rw [h.size_times, Nat.lt_succ_iff] at hk
  have hmoment : x.moment k = value t := (Binary64.beq_iff.1 hst).2.2
  have hnone : x.gateIndex? t = none := by
    rw [h.gateIndex?_eq_none_iff]
    rintro m hm rfl
    refine hne ?_
    rcases Nat.lt_trichotomy k m with hlt | rfl | hlt
    · exact absurd hmoment (h.moment_lt_moment hlt hm).ne
    · rfl
    · exact absurd hmoment (h.moment_lt_moment hlt hk).ne'
  unfold set
  rw [h.sample_of_moment hk hmoment]
  dsimp only
  rw [hnone]

theorem Ordered.setsAt_set (h : x.Ordered) (ht : x.domain.contains t = true) (v : Interval) :
    (x.set v t).SetsAt x v t := by
  by_cases hzero : x.OtherZero t
  · have hset := h.set_of_otherZero hzero v
    exact ⟨fun hnot => absurd hzero hnot, fun s _ => by rw [hset], fun _ => hset⟩
  · obtain ⟨k, hk, htime, hinside⟩ := h.exists_gate_around ht hzero
    have hs := h.sample t
    have hindex := hs.gateIndex?_time hk
    rw [htime] at hindex
    have hset : x.set v t = (x.sample t).1.setGate k v := by
      unfold set
      dsimp only
      rw [hindex]
    have heval (s : Float) :
        (x.set v t).eval s = if s = t then x.insideAround t v else x.eval s := by
      rw [hset, hs.eval_setGate hk, htime, hinside, h.eval_sample]
    refine ⟨fun _ => ?_, fun s hs => ?_, fun hother => absurd hother hzero⟩
    · rw [heval, if_pos rfl]
    · rw [heval, if_neg hs]

end Tube

namespace TubeVector

open Tube (SetsAt)

variable {x : TubeVector Interval} {t : Float}

/-- A vector is set component by component. -/
theorem WellFormed.exists_set (h : x.WellFormed) (ht : x.domain.contains t = true)
    {vs : Box Interval} (hlength : vs.length = x.dimension) :
    ∃ y, x.set vs t = .ok y ∧ y.dimension = x.dimension ∧
      ∀ j < x.dimension, (y.component j).SetsAt (x.component j) (vs.getD j Interval.empty) t := by
  have hset : x.set vs t = .ok ⟨List.zipWith (fun c v => c.set v t) x.components vs⟩ :=
    if_pos (beq_iff_eq.2 hlength)
  refine ⟨_, hset, ?_, fun j hj => ?_⟩
  · change (List.zipWith _ x.components vs).length = x.dimension
    rw [List.length_zipWith, hlength]
    exact min_self _
  · have hj' : j < vs.length := hlength ▸ hj
    have hcomponent : (⟨List.zipWith (fun c v => c.set v t) x.components vs⟩ :
        TubeVector Interval).component j = (x.component j).set (vs.getD j Interval.empty) t := by
      refine component_of_getElem? ?_
      rw [List.getElem?_zipWith, getElem?_component hj, List.getD_eq_getElem _ _ hj',
        List.getElem?_eq_getElem hj']
    rw [hcomponent]
    have hc := h.components _ (component_mem hj)
    refine hc.ordered.setsAt_set ?_ _
    have hdomain : (x.component j).domain = x.domain := by
      have htimes := h.shared _ (component_mem hj)
      have htime : (x.component j).time = x.first.time := by
        funext k
        rw [Tube.time, Tube.time, htimes]
        rfl
      rw [domain, Tube.domain, Tube.domain, htime, htimes]
      rfl
    rwa [hdomain]

/-- A value set at a time of the domain is the value there, restricted to the codomains of the
slices around, and no other value changes; for vectors the same holds of every component. -/
theorem set_takes_effect (t : Float) :
    (∀ x : Tube Interval, x.WellFormed → x.domain.contains t = true → ∀ v, (x.set v t).SetsAt x v t) ∧
    (∀ x : TubeVector Interval, x.WellFormed → x.domain.contains t = true →
      ∀ vs : Box Interval, vs.length = x.dimension →
        ∃ y, x.set vs t = .ok y ∧ y.dimension = x.dimension ∧ ∀ j < x.dimension,
          (y.component j).SetsAt (x.component j) (vs.getD j Interval.empty) t) :=
  ⟨fun _ hx ht v => hx.ordered.setsAt_set ht v, fun _ hx ht _ hlength => hx.exists_set ht hlength⟩

/-- At the breakpoint between two slices a value is restricted to what they share. -/
theorem set_takes_effect_early :
    ((Tube.early.set ⟨0.0, 3.0⟩ 1.0).eval 1.0 == ⟨1.0, 2.0⟩) = true ∧
      (∀ s, s ≠ 1.0 → (Tube.early.set ⟨0.0, 3.0⟩ 1.0).eval s = Tube.early.eval s) ∧
      ∃ y, set ⟨[Tube.early]⟩ [⟨0.0, 3.0⟩] 1.0 = .ok y ∧
        ((y.component 0).eval 1.0 == ⟨1.0, 2.0⟩) = true := by
  have hzero : ¬Tube.early.OtherZero 1.0 := by decide
  have hinside : (Tube.early.insideAround 1.0 ⟨0.0, 3.0⟩ == ⟨1.0, 2.0⟩) = true := by decide +kernel
  obtain ⟨htubes, hvectors⟩ := set_takes_effect 1.0
  have htube := htubes Tube.early Tube.wellFormed_early (by decide) ⟨0.0, 3.0⟩
  obtain ⟨y, hy, -, hcomponents⟩ := hvectors _ (wellFormed_singleton Tube.wellFormed_early)
    (by decide) [⟨0.0, 3.0⟩] rfl
  refine ⟨?_, htube.elsewhere, y, hy, ?_⟩
  · rw [htube.atTime hzero]
    exact hinside
  · rw [(hcomponents 0 Nat.one_pos).atTime hzero]
    exact hinside

/-- A value set at `-0` where the first breakpoint is `0` is lost. -/
theorem set_dropped_at_negZero :
    Tube.early.WellFormed ∧ Tube.early.domain.contains (-0.0) = true ∧
      (Tube.early.insideAround (-0.0) ⟨1.0, 1.0⟩ == ⟨1.0, 1.0⟩) = true ∧
      ((Tube.early.set ⟨1.0, 1.0⟩ (-0.0)).eval (-0.0) == ⟨0.0, 2.0⟩) = true :=
  ⟨Tube.wellFormed_early, by decide, by decide +kernel, by decide +kernel⟩

end TubeVector

end FlowTube
