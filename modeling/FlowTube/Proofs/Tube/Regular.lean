import FlowTube.Proofs.Computations
import FlowTube.Proofs.Interval.Inclusion
import FlowTube.Proofs.Tube.Merge

/-! Gates inside the codomains on both sides. Of a well-formed tube a gate may be replaced by
what both its neighbours include, and a codomain by what includes both its gates; every change
of a tube in place is made up of such replacements. New breakpoints repeat a codomain. When a
tube is brought to further breakpoints, the value at each of them is a gate, or the codomain of
the only slice around it: that these agree rests on finding every gate, and so on there being no
`-0` among the breakpoints. -/

namespace FlowTube

namespace Tube

open Binary64 (value)

/-! ### Single parts replaced -/

section Parts

variable {ι : Type} [Enclosure ι] {x : Tube ι} {i k : ℕ} {y : ι}

/-- Gate `k` replaced. -/
def putGate (x : Tube ι) (k : ℕ) (y : ι) : Tube ι :=
  { x with gates := x.gates.setIfInBounds k y }

/-- The codomain of slice `i` replaced. -/
def putCodomain (x : Tube ι) (i : ℕ) (y : ι) : Tube ι :=
  { x with codomains := x.codomains.setIfInBounds i y }

omit [Enclosure ι] in
theorem fits_putGate (h : x.Fits) (k : ℕ) (y : ι) : (x.putGate k y).Fits :=
  ⟨h.someSlice, h.times, Array.size_setIfInBounds.trans h.gates⟩

omit [Enclosure ι] in
theorem fits_putCodomain (h : x.Fits) (i : ℕ) (y : ι) : (x.putCodomain i y).Fits := by
  have hsize : (x.putCodomain i y).codomains.size = x.codomains.size := Array.size_setIfInBounds
  exact ⟨hsize ▸ h.someSlice, hsize ▸ h.times, hsize ▸ h.gates⟩

theorem gate_putGate (hk : k < x.gates.size) (m : ℕ) :
    (x.putGate k y).gate m = if m = k then y else x.gate m := by
  simp only [gate, putGate, Array.getD_eq_getD_getElem?, Array.getElem?_setIfInBounds]
  by_cases hm : k = m
  · subst hm
    simp [hk]
  · simp [hm, Ne.symm hm]

theorem codomain_putCodomain {m : ℕ} (hm : m < x.sliceCount) :
    (x.putCodomain i y).codomain m = if m = i then y else x.codomain m := by
  simp only [codomain, putCodomain, Array.getD_eq_getD_getElem?, Array.getElem?_setIfInBounds]
  by_cases hi : i = m
  · subst hi
    simp [show i < x.codomains.size from hm]
  · simp [hi, Ne.symm hi]

omit [Enclosure ι] in
/-- There is nothing to replace beyond the last gate. -/
theorem putGate_of_le (h : x.gates.size ≤ k) (y : ι) : x.putGate k y = x := by
  rw [putGate, Array.setIfInBounds_eq_of_size_le h]

theorem gate_of_le (h : x.gates.size ≤ k) : x.gate k = Enclosure.empty := by
  rw [gate, Array.getD_eq_getD_getElem?, Array.getElem?_eq_none h, Option.getD_none]

theorem codomain_of_le (h : x.sliceCount ≤ i) : x.codomain i = Enclosure.empty := by
  rw [codomain, Array.getD_eq_getD_getElem?, Array.getElem?_eq_none h, Option.getD_none]

omit [Enclosure ι] in
theorem setIfInBounds_getD (as : Array ι) (m : ℕ) (a : ι) :
    as.setIfInBounds m (as.getD m a) = as := by
  refine Array.ext Array.size_setIfInBounds fun k hk hk' => ?_
  rw [Array.getElem_setIfInBounds]
  split_ifs with hmk
  · subst hmk
    simp [hk']
  · rfl

theorem putGate_self (x : Tube ι) (k : ℕ) : x.putGate k (x.gate k) = x := by
  rw [putGate, gate, setIfInBounds_getD]

theorem putCodomain_self (x : Tube ι) (i : ℕ) : x.putCodomain i (x.codomain i) = x := by
  rw [putCodomain, codomain, setIfInBounds_getD]

end Parts

variable {x y : Tube Interval} {i k : ℕ} {t : Float}

/-! ### Inclusion of gates -/

/-- The codomains on both sides of gate `k` include `y`. -/
def Admits (x : Tube Interval) (k : ℕ) (y : Interval) : Prop :=
  ∀ i < x.sliceCount, k = i ∨ k = i + 1 → y.isSubset (x.codomain i) = true

theorem Admits.of_isSubset {a b : Interval} (h : x.Admits k b) (hab : a.isSubset b = true) :
    x.Admits k a :=
  fun i hi hik => Interval.isSubset_trans hab (h i hi hik)

theorem WellFormed.ordered (h : x.WellFormed) : x.Ordered := ⟨h.toFits, h.increasing⟩

theorem WellFormed.admits (h : x.WellFormed) (k : ℕ) : x.Admits k (x.gate k) := by
  rintro i hi (rfl | rfl)
  · exact h.insideLeft k hi
  · exact h.insideRight i hi

theorem WellFormed.of_admits (h : x.Ordered) (hgate : ∀ k, x.Admits k (x.gate k)) :
    x.WellFormed where
  toFits := h.toFits
  increasing := h.increasing
  insideLeft i hi := hgate i i hi (Or.inl rfl)
  insideRight i hi := hgate (i + 1) i hi (Or.inr rfl)

/-- A gate lies in a codomain beside it, so its bounds are numbers. -/
theorem WellFormed.numeric_gate (h : x.WellFormed) (k : ℕ) : (x.gate k).Numeric := by
  have hpos := h.ordered.sliceCount_pos
  have hsize := h.ordered.size_gates
  rcases Nat.lt_or_ge x.sliceCount k with hk | hk
  · rw [gate_of_le (by omega)]
    exact Interval.numeric_empty
  · rcases Nat.eq_or_lt_of_le hk with rfl | hk
    · exact Interval.numeric_of_isSubset (h.admits _ (x.sliceCount - 1) (by omega) (by omega))
    · exact Interval.numeric_of_isSubset (h.admits k k hk (Or.inl rfl))

/-- After a gate was replaced, a gate is included where it was before, or the new one is. -/
theorem isSubset_putGate {m : ℕ} {y c : Interval} (hold : m ≠ k → (x.gate m).isSubset c = true)
    (hnew : m = k → y.isSubset c = true) : ((x.putGate k y).gate m).isSubset c = true := by
  rcases Nat.lt_or_ge k x.gates.size with hk | hk
  · rw [gate_putGate hk]
    split_ifs with hmk
    · exact hnew hmk
    · exact hold hmk
  · rw [putGate_of_le hk]
    by_cases hmk : m = k
    · rw [hmk, gate_of_le hk]
      rfl
    · exact hold hmk

/-- A well-formed tube with numbers as bounds of its codomains and without `-0` among its
breakpoints. -/
structure Regular (x : Tube Interval) : Prop extends x.WellFormed where
  numeric : ∀ i, (x.codomain i).Numeric
  zeros : ∀ t ∈ x.times, t ≠ -0.0

namespace Regular

theorem time_ne_negZero (h : x.Regular) (hk : k ≤ x.sliceCount) : x.time k ≠ -0.0 :=
  h.zeros _ (time_mem (by have := h.ordered.size_times; omega))

theorem numeric_gate (h : x.Regular) (k : ℕ) : (x.gate k).Numeric :=
  h.toWellFormed.numeric_gate k

theorem admits_insideNeighbours (h : x.Regular) (k : ℕ) (y : Interval) :
    x.Admits k (x.insideNeighbours k y) := by
  intro i hi hik
  unfold insideNeighbours
  rcases hik with rfl | rfl
  · simp only [hi, if_true]
    exact Interval.inter_isSubset_of_right (h.numeric k).isSubset_self
  · have hleft : (y ∩ x.codomain i).isSubset (x.codomain i) = true :=
      Interval.inter_isSubset_of_right (h.numeric i).isSubset_self
    simp only [Nat.succ_pos, if_true, Nat.add_sub_cancel]
    split_ifs
    · exact Interval.inter_isSubset_of_left hleft
    · exact hleft

theorem putGate (h : x.Regular) {y : Interval} (hy : x.Admits k y) : (x.putGate k y).Regular := by
  refine ⟨WellFormed.of_admits ⟨fits_putGate h.toFits k y, h.increasing⟩ fun m i hi him => ?_,
    h.numeric, h.zeros⟩
  exact isSubset_putGate (fun _ => h.admits m i hi him) fun hmk => hy i hi (hmk ▸ him)

theorem putCodomain (h : x.Regular) {y : Interval} (hy : y.Numeric)
    (hleft : (x.gate i).isSubset y = true) (hright : (x.gate (i + 1)).isSubset y = true) :
    (x.putCodomain i y).Regular := by
  have hcount : (x.putCodomain i y).sliceCount = x.sliceCount := Array.size_setIfInBounds
  refine ⟨WellFormed.of_admits ⟨fits_putCodomain h.toFits i y, h.increasing⟩
    fun k m hm hkm => ?_, fun m => ?_, h.zeros⟩
  · rw [hcount] at hm
    rw [codomain_putCodomain hm]
    split_ifs with hmi
    · rcases hkm with rfl | rfl
      · exact hmi ▸ hleft
      · exact hmi ▸ hright
    · exact h.admits k m hm hkm
  · rcases Nat.lt_or_ge m x.sliceCount with hm | hm
    · rw [codomain_putCodomain hm]
      split_ifs
      · exact hy
      · exact h.numeric m
    · rw [codomain_of_le (hcount ▸ hm)]
      exact Interval.numeric_empty

/-- A slice may be replaced by a codomain and parts of its gates that the codomain includes. -/
theorem putSlice (h : x.Regular) {c a b : Interval} (hc : c.Numeric)
    (ha : a.isSubset (x.gate i) = true) (hac : a.isSubset c = true)
    (hb : b.isSubset (x.gate (i + 1)) = true) (hbc : b.isSubset c = true) :
    (x.putSlice i c a b).Regular := by
  have hgates : ((x.putGate i a).putGate (i + 1) b).Regular :=
    (h.putGate ((h.admits i).of_isSubset ha)).putGate ((h.admits (i + 1)).of_isSubset hb)
  refine hgates.putCodomain hc ?_ ?_
  · exact isSubset_putGate (fun _ => isSubset_putGate (absurd rfl) fun _ => hac)
      fun hii => absurd hii (Nat.succ_ne_self i).symm
  · exact isSubset_putGate (absurd rfl) fun _ => hbc

end Regular

/-- A regular tube over the same breakpoints, every codomain and every gate of which is included in
the one before. -/
structure Shrinks (y x : Tube Interval) : Prop where
  regular : y.Regular
  times : y.times = x.times
  codomain : ∀ i, (y.codomain i).isSubset (x.codomain i) = true
  gate : ∀ k, (y.gate k).isSubset (x.gate k) = true

theorem Regular.shrinks (h : x.Regular) : x.Shrinks x :=
  ⟨h, rfl, fun i => (h.numeric i).isSubset_self, fun k => (h.numeric_gate k).isSubset_self⟩

theorem Shrinks.trans {y z : Tube Interval} (hzy : z.Shrinks y) (hyx : y.Shrinks x) :
    z.Shrinks x where
  regular := hzy.regular
  times := hzy.times.trans hyx.times
  codomain i := Interval.isSubset_trans (hzy.codomain i) (hyx.codomain i)
  gate k := Interval.isSubset_trans (hzy.gate k) (hyx.gate k)

namespace Regular

/-- A gate may be replaced by a part of it. -/
theorem shrinks_putGate (h : x.Regular) {y : Interval} (hy : y.isSubset (x.gate k) = true) :
    (x.putGate k y).Shrinks x where
  regular := h.putGate ((h.admits k).of_isSubset hy)
  times := rfl
  codomain i := (h.numeric i).isSubset_self
  gate m := isSubset_putGate (fun _ => (h.numeric_gate m).isSubset_self) fun hmk => hmk ▸ hy

/-- A slice may be replaced by parts of its codomain and of its gates. -/
theorem shrinks_putSlice (h : x.Regular) {c a b : Interval}
    (hc : c.isSubset (x.codomain i) = true)
    (ha : a.isSubset (x.gate i) = true) (hac : a.isSubset c = true)
    (hb : b.isSubset (x.gate (i + 1)) = true) (hbc : b.isSubset c = true) :
    (x.putSlice i c a b).Shrinks x := by
  have hput := h.putSlice (Interval.numeric_of_isSubset hc) ha hac hb hbc
  refine ⟨hput, rfl, fun m => ?_, fun m => ?_⟩
  · rcases Nat.lt_or_ge m x.sliceCount with hm | hm
    · have heq : (x.putSlice i c a b).codomain m = if m = i then c else x.codomain m :=
        codomain_putCodomain hm
      rw [heq]
      split_ifs with hmi
      · rw [hmi]
        exact hc
      · exact (h.numeric m).isSubset_self
    · have hcount : (x.putSlice i c a b).sliceCount = x.sliceCount := Array.size_setIfInBounds
      rw [codomain_of_le (hcount.trans_le hm)]
      rfl
  · have hself := (h.numeric_gate m).isSubset_self
    refine isSubset_putGate (x := x.putGate i a) (fun _ => ?_) fun hmi => hmi ▸ hb
    exact isSubset_putGate (fun _ => hself) fun hmi => hmi ▸ ha

theorem setCodomain (h : x.Regular) {y : Interval} (hy : y.Numeric) (i : ℕ) :
    (x.setCodomain i y).Regular :=
  h.putSlice hy (Interval.inter_isSubset_of_left (h.numeric_gate i).isSubset_self)
    (Interval.inter_isSubset_of_right hy.isSubset_self)
    (Interval.inter_isSubset_of_left (h.numeric_gate (i + 1)).isSubset_self)
    (Interval.inter_isSubset_of_right hy.isSubset_self)

theorem setGate (h : x.Regular) (k : ℕ) (y : Interval) : (x.setGate k y).Regular :=
  h.putGate (h.admits_insideNeighbours k y)

theorem shrinks_setCodomain (h : x.Regular) {y : Interval}
    (hy : y.isSubset (x.codomain i) = true) : (x.setCodomain i y).Shrinks x := by
  have hself := (Interval.numeric_of_isSubset hy).isSubset_self
  exact h.shrinks_putSlice hy (Interval.inter_isSubset_of_left (h.numeric_gate i).isSubset_self)
    (Interval.inter_isSubset_of_right hself)
    (Interval.inter_isSubset_of_left (h.numeric_gate (i + 1)).isSubset_self)
    (Interval.inter_isSubset_of_right hself)

theorem shrinks_setGate (h : x.Regular) {y : Interval} (hy : y.isSubset (x.gate k) = true) :
    (x.setGate k y).Shrinks x := by
  refine h.shrinks_putGate ?_
  unfold insideNeighbours
  dsimp only
  split_ifs
  · exact Interval.inter_isSubset_of_left (Interval.inter_isSubset_of_left hy)
  · exact Interval.inter_isSubset_of_left hy
  · exact Interval.inter_isSubset_of_left hy
  · exact hy

theorem enforceGates (h : x.Regular) : x.enforceGates.Regular := by
  have hsize := h.ordered.size_gates
  refine ⟨WellFormed.of_admits ⟨fits_enforceGates h.toFits, h.increasing⟩ fun k => ?_, h.numeric,
    h.zeros⟩
  intro i hi hik
  change i < x.sliceCount at hi
  have hk : k < x.gates.size := by omega
  rw [gate_enforceGates hk]
  exact h.admits_insideNeighbours k _ i hi hik

/-! ### New breakpoints -/

theorem splitSlice (h : x.Regular) (hi : i < x.sliceCount) (ht : t.isNaN = false)
    (ht0 : t ≠ -0.0) (hlow : x.moment i < value t) (hup : value t < x.moment (i + 1)) :
    (x.splitSlice i t (x.codomain i)).Regular := by
  have hs : (x.splitSlice i t (x.codomain i)).Ordered := h.ordered.splitSlice hi ht hlow hup
  have hcount : (x.splitSlice i t (x.codomain i)).sliceCount = x.sliceCount + 1 :=
    sliceCount_splitSlice hi
  refine ⟨WellFormed.of_admits hs fun k m hm hkm => ?_, fun m => ?_, fun s hs' => ?_⟩
  · rw [hcount] at hm
    rw [gate_splitSlice h.toFits hi, codomain_splitSlice hi]
    rcases Nat.lt_trichotomy k (i + 1) with hk | rfl | hk
    · rw [if_pos hk, if_pos (by omega)]
      exact h.admits k m (by omega) hkm
    · rw [if_neg (Nat.lt_irrefl _), if_pos rfl]
      have hself := (h.numeric i).isSubset_self
      rcases hkm with rfl | hkm
      · rwa [if_neg (Nat.lt_irrefl _), if_pos rfl]
      · rwa [if_pos (by omega), show m = i by omega]
    · rw [if_neg (by omega), if_neg (by omega)]
      split_ifs with hlt heq
      · omega
      · exact h.admits (k - 1) i hi (by omega)
      · exact h.admits (k - 1) (m - 1) (by omega) (by omega)
  · rw [codomain_splitSlice hi]
    split_ifs
    · exact h.numeric m
    · exact h.numeric i
    · exact h.numeric (m - 1)
  · rcases mem_times_of_splitSlice hs' with rfl | hs'
    · exact ht0
    · exact h.zeros s hs'

theorem sample (h : x.Regular) (ht : t ≠ -0.0) : (x.sample t).1.Regular := by
  rcases sample_eq h.ordered t with ⟨heq, -⟩ | ⟨i, hi, hnumber, hlow, hup, heq⟩
  · rw [heq]
    exact h
  · rw [heq]
    exact h.splitSlice hi hnumber ht hlow hup

theorem set (h : x.Regular) (ht : t ≠ -0.0) (y : Interval) : (x.set y t).Regular := by
  have hs := h.sample ht
  unfold Tube.set
  dsimp only
  cases hk : (x.sample t).1.gateIndex? t with
  | none => exact hs
  | some k => exact hs.setGate k y

/-! ### Further breakpoints -/

/-- The value at a time is in the codomain of every slice that the time belongs to. -/
theorem eval_isSubset (h : x.Regular) (hi : i < x.sliceCount) (ht : t.isNaN = false)
    (ht0 : t ≠ -0.0) (hlow : x.moment i ≤ value t) (hup : value t ≤ x.moment (i + 1)) :
    (x.eval t).isSubset (x.codomain i) = true := by
  have ho := h.ordered
  unfold eval
  cases hk : x.gateIndex? t with
  | some k =>
    obtain ⟨hk', rfl⟩ := ho.gateIndex?_eq_some_iff.1 hk
    have hik : i ≤ k := not_lt.1 fun hlt => not_lt.2 hlow (ho.moment_lt_moment hlt hi.le)
    have hki : k ≤ i + 1 := not_lt.1 fun hlt => not_lt.2 hup (ho.moment_lt_moment hlt hk')
    exact h.admits k i hi (by omega)
  | none =>
    -- the gate at a breakpoint would have been found
    have hne : value t ≠ x.moment (i + 1) := by
      intro heq
      have hsame := Binary64.eq_of_value_eq ht (ho.isNaN_time hi) ht0 (h.time_ne_negZero hi) heq
      rw [hsame, ho.gateIndex?_time hi] at hk
      contradiction
    rw [ho.sliceIndex?_eq hi ht hlow (lt_of_le_of_ne hup hne)]
    exact (h.numeric i).isSubset_self

theorem refine (h : x.Regular) {ts : Array Float} (hts : x.RefinedBy ts)
    (h0 : ∀ t ∈ ts, t ≠ -0.0) : (x.refine ts).Regular := by
  have ho := h.ordered
  have hr := hts.ordered_refine ho
  refine ⟨WellFormed.of_admits hr fun k j hj hkj => ?_, fun m => ?_, h0⟩
  · have hk : k ≤ (x.refine ts).sliceCount := by omega
    obtain ⟨i, hi, hcod⟩ := hts.exists_slice ho hj
    obtain ⟨hilt, -, hstart, hend, -⟩ := ho.sliceIndex?_spec hi
    have ht0 : (x.refine ts).time k ≠ -0.0 :=
      h0 _ (time_mem (show k < (x.refine ts).times.size by
        have := hr.size_times
        omega))
    rw [hts.gate_refine ho hk, hcod]
    rcases hkj with rfl | rfl
    · exact h.eval_isSubset hilt (hr.isNaN_time hk) ht0 hstart hend
    · exact h.eval_isSubset hilt (hr.isNaN_time hk) ht0
        (hstart.trans (hr.moment_le_moment (Nat.le_succ j) hk)) (hts.end_le ho hj hi)
  · rcases Nat.lt_or_ge m (x.refine ts).sliceCount with hm | hm
    · obtain ⟨i, -, hcod⟩ := hts.exists_slice ho hm
      rw [hcod]
      exact h.numeric i
    · rw [codomain_of_le hm]
      exact Interval.numeric_empty

/-- Tubes over one partition may be combined value by value. -/
theorem zip {op : Interval → Interval → Interval} (hop : Interval.KeepsInclusion op)
    (hx : x.Regular) (hy : y.Regular) (h : x.times = y.times) : (x.zip op y).Regular := by
  obtain ⟨hfits, hcount, hsame⟩ := fits_zip op hx.toFits hy.toFits h
  have hgates := hx.ordered.size_gates
  have hgates' := hy.ordered.size_gates
  refine ⟨WellFormed.of_admits ⟨hfits, hx.increasing⟩ fun k i hi hik => ?_, fun i => ?_, hx.zeros⟩
  · rw [hcount] at hi
    rw [gate_zip (by omega) (by omega), codomain_zip hi (show i < y.sliceCount by omega)]
    exact hop.mono (hx.numeric i) (hy.numeric i) (hx.admits k i hi hik)
      (hy.admits k i (by omega) hik)
  · rcases Nat.lt_or_ge i (x.zip op y).sliceCount with hi | hi
    · rw [hcount] at hi
      rw [codomain_zip hi (show i < y.sliceCount by omega)]
      exact hop.numeric (hx.numeric i) (hy.numeric i)
    · rw [codomain_of_le hi]
      exact Interval.numeric_empty

theorem jointTimes_ne_negZero (hx : x.Regular) (hy : y.Regular) :
    ∀ t ∈ jointTimes x y, t ≠ -0.0 := fun t ht =>
  (mem_or_mem_of_mem_jointTimes ht).elim (hx.zeros t) (hy.zeros t)

/-- Tubes between the same ends are combined over the breakpoints of both. -/
theorem combine {op : Interval → Interval → Interval} (hop : Interval.KeepsInclusion op)
    (hx : x.Regular) (hy : y.Regular) (hends : x.SameEnds y) :
    ∃ z, Tube.combine op x y = .ok z ∧ z.Regular ∧ z.times = jointTimes x y := by
  obtain ⟨hrx, hry⟩ := hx.ordered.refinedBy_jointTimes hy.ordered hends
  have h0 := hx.jointTimes_ne_negZero hy
  refine ⟨(x.refine (jointTimes x y)).zip op (y.refine (jointTimes x y)), ?_,
    (hx.refine hrx h0).zip hop (hy.refine hry h0) rfl, rfl⟩
  unfold Tube.combine
  rw [if_pos ((hx.ordered.domain_beq_iff hy.ordered).2 hends)]
  rfl

/-! ### Splits -/

/-- The halves of a tube are inside the sampled tube. A split fails only outside the domain and
where the value has no part. -/
theorem bisect (h : x.Regular) (ht0 : t ≠ -0.0) (ratio : Float) :
    Settles (x.bisect t ratio)
      (fun halves => halves.1.Shrinks (x.sample t).1 ∧ halves.2.Shrinks (x.sample t).1)
      (fun _ => x.domain.contains t = false ∨
        ((x.sample t).1.eval t).bisect? ratio = none) := by
  have hs : (x.sample t).1.Regular := h.sample ht0
  unfold Tube.bisect checkTime
  by_cases ht : x.domain.contains t = true
  · obtain ⟨k, hk, -, hgate, heval⟩ := h.ordered.exists_gate_sample h.zeros ht0 ht
    rw [if_pos ht]
    dsimp only [bind, Except.bind]
    rw [hgate]
    dsimp only
    rw [heval]
    cases hsplit : ((x.sample t).1.eval t).bisect? ratio with
    | none => exact Or.inr rfl
    | some halves =>
      obtain ⟨hlo, hhi⟩ := Interval.isSubset_of_bisect? hsplit
      rw [← heval] at hlo hhi
      exact ⟨hs.shrinks_putGate hlo, hs.shrinks_putGate hhi⟩
  · rw [if_neg ht]
    exact Or.inl (Bool.eq_false_iff.2 ht)

end Regular

end Tube

end FlowTube
