import FlowTube.Proofs.Tube.Encloses

/-! Hulls of tubes over different breakpoints. The merged breakpoints of two tubes over one
span are increasing and refine both partitions: no breakpoint of either tube lies strictly
between two neighbours. So a tube that is brought to them keeps the functions that it
encloses, and the hull has those of both tubes. -/

namespace FlowTube.Tube

open Binary64 (real value)

/-! ### Merged breakpoints -/

variable {xs ys ts : List Float} {t : Float}

theorem mergeTimes_self (ts : List Float) : mergeTimes ts ts = ts := by
  induction ts with
  | nil => simp [mergeTimes]
  | cons t ts ih =>
    have hirrefl : ¬t < t := fun h => lt_irrefl _ (Binary64.lt_iff.1 h).2.2
    rw [mergeTimes, if_neg hirrefl, if_neg hirrefl, ih]

theorem mem_or_mem_of_mem_mergeTimes (h : t ∈ mergeTimes xs ys) : t ∈ xs ∨ t ∈ ys := by
  fun_induction mergeTimes xs ys with
  | case1 x xs y ys hlt ih =>
    rcases List.mem_cons.1 h with rfl | h
    · exact Or.inl List.mem_cons_self
    · exact (ih h).imp_left (List.mem_cons_of_mem x)
  | case2 x xs y ys hxy hlt ih =>
    rcases List.mem_cons.1 h with rfl | h
    · exact Or.inr List.mem_cons_self
    · exact (ih h).imp_right (List.mem_cons_of_mem y)
  | case3 x xs y ys hxy hyx ih =>
    rcases List.mem_cons.1 h with rfl | h
    · exact Or.inl List.mem_cons_self
    · exact (ih h).imp (List.mem_cons_of_mem x) (List.mem_cons_of_mem y)
  | case4 xs => exact Or.inl h
  | case5 ys => exact Or.inr h

theorem value_eq_of_not_lt {x y : Float} (hx : x.isNaN = false) (hy : y.isNaN = false)
    (hxy : ¬x < y) (hyx : ¬y < x) : value x = value y :=
  le_antisymm (Binary64.le_iff.1 (Binary64.le_of_not_lt hy hx hyx)).2.2
    (Binary64.le_iff.1 (Binary64.le_of_not_lt hx hy hxy)).2.2

/-- Every breakpoint of either list is merged, up to the sign of a zero. -/
theorem exists_mem_mergeTimes {s : Float} (hx : ∀ t ∈ xs, t.isNaN = false)
    (hy : ∀ t ∈ ys, t.isNaN = false) (hs : s ∈ xs ∨ s ∈ ys) :
    ∃ t ∈ mergeTimes xs ys, value t = value s := by
  fun_induction mergeTimes xs ys with
  | case1 x xs y ys hlt ih =>
    have hrest := ih (fun t ht => hx t (List.mem_cons_of_mem x ht)) hy
    rw [List.exists_mem_cons_iff]
    rcases hs with hs | hs
    · rcases List.mem_cons.1 hs with rfl | hs
      · exact Or.inl rfl
      · exact Or.inr (hrest (Or.inl hs))
    · exact Or.inr (hrest (Or.inr hs))
  | case2 x xs y ys hxy hlt ih =>
    have hrest := ih hx (fun t ht => hy t (List.mem_cons_of_mem y ht))
    rw [List.exists_mem_cons_iff]
    rcases hs with hs | hs
    · exact Or.inr (hrest (Or.inl hs))
    · rcases List.mem_cons.1 hs with rfl | hs
      · exact Or.inl rfl
      · exact Or.inr (hrest (Or.inr hs))
  | case3 x xs y ys hxy hyx ih =>
    have hrest := ih (fun t ht => hx t (List.mem_cons_of_mem x ht))
      (fun t ht => hy t (List.mem_cons_of_mem y ht))
    have heq := value_eq_of_not_lt (hx x List.mem_cons_self) (hy y List.mem_cons_self) hxy hyx
    rw [List.exists_mem_cons_iff]
    rcases hs with hs | hs
    · rcases List.mem_cons.1 hs with rfl | hs
      · exact Or.inl rfl
      · exact Or.inr (hrest (Or.inl hs))
    · rcases List.mem_cons.1 hs with rfl | hs
      · exact Or.inl heq
      · exact Or.inr (hrest (Or.inr hs))
  | case4 xs => exact ⟨s, hs.resolve_right List.not_mem_nil, rfl⟩
  | case5 ys => exact ⟨s, hs.resolve_left List.not_mem_nil, rfl⟩

theorem pairwise_mergeTimes (fx : ∀ t ∈ xs, t.isNaN = false) (fy : ∀ t ∈ ys, t.isNaN = false)
    (hx : xs.Pairwise (· < ·)) (hy : ys.Pairwise (· < ·)) :
    (mergeTimes xs ys).Pairwise (· < ·) := by
  fun_induction mergeTimes xs ys with
  | case1 x xs y ys hlt ih =>
    obtain ⟨hxs, hx⟩ := List.pairwise_cons.1 hx
    have hys := (List.pairwise_cons.1 hy).1
    refine List.pairwise_cons.2
      ⟨fun t ht => ?_, ih (fun t ht => fx t (List.mem_cons_of_mem x ht)) fy hx hy⟩
    rcases mem_or_mem_of_mem_mergeTimes ht with ht | ht
    · exact hxs t ht
    · rcases List.mem_cons.1 ht with rfl | ht
      · exact hlt
      · exact Binary64.lt_trans hlt (hys t ht)
  | case2 x xs y ys hxy hlt ih =>
    obtain ⟨hys, hy⟩ := List.pairwise_cons.1 hy
    have hxs := (List.pairwise_cons.1 hx).1
    refine List.pairwise_cons.2
      ⟨fun t ht => ?_, ih fx (fun t ht => fy t (List.mem_cons_of_mem y ht)) hx hy⟩
    rcases mem_or_mem_of_mem_mergeTimes ht with ht | ht
    · rcases List.mem_cons.1 ht with rfl | ht
      · exact hlt
      · exact Binary64.lt_trans hlt (hxs t ht)
    · exact hys t ht
  | case3 x xs y ys hxy hyx ih =>
    obtain ⟨hxs, hx⟩ := List.pairwise_cons.1 hx
    obtain ⟨hys, hy⟩ := List.pairwise_cons.1 hy
    have heq := value_eq_of_not_lt (fx x List.mem_cons_self) (fy y List.mem_cons_self) hxy hyx
    refine List.pairwise_cons.2 ⟨fun t ht => ?_, ih (fun t ht => fx t (List.mem_cons_of_mem x ht))
      (fun t ht => fy t (List.mem_cons_of_mem y ht)) hx hy⟩
    rcases mem_or_mem_of_mem_mergeTimes ht with ht | ht
    · exact hxs t ht
    · obtain ⟨-, ht', hlt⟩ := Binary64.lt_iff.1 (hys t ht)
      exact Binary64.lt_iff.2 ⟨fx x List.mem_cons_self, ht', heq.trans_lt hlt⟩
  | case4 xs => exact hx
  | case5 ys => exact hy

/-! ### Refined tubes -/

variable {ι : Type} {x y : Tube ι} {ts : Array Float} {g : ℝ → ℝ}

/-- Increasing times between the ends of a tube, with all its breakpoints. -/
structure RefinedBy (x : Tube ι) (ts : Array Float) : Prop where
  increasing : ts.toList.Pairwise (· < ·)
  within : ∀ t ∈ ts, x.moment 0 ≤ value t ∧ value t ≤ x.moment x.sliceCount
  breakpoints : ∀ k ≤ x.sliceCount, ∃ t ∈ ts, value t = x.moment k

/-- Only the breakpoints matter. -/
theorem RefinedBy.of_times (h : x.RefinedBy ts) (hx : x.Fits) (hy : y.Fits)
    (htimes : y.times = x.times) : y.RefinedBy ts := by
  have hcount := sliceCount_eq_of_times hy hx htimes
  have hmoment : y.moment = x.moment := by
    funext k
    rw [moment, moment, time, time, htimes]
  refine ⟨h.increasing, ?_, ?_⟩
  · rw [hmoment, hcount]
    exact h.within
  · rw [hmoment, hcount]
    exact h.breakpoints

theorem Ordered.within (h : x.Ordered) {t : Float} (ht : t ∈ x.times) :
    x.moment 0 ≤ value t ∧ value t ≤ x.moment x.sliceCount := by
  obtain ⟨k, hk, rfl⟩ := exists_time_eq ht
  have hk' : k ≤ x.sliceCount := by
    have := h.size_times
    omega
  exact ⟨h.moment_le_moment (Nat.zero_le k) hk', h.moment_le_moment hk' le_rfl⟩

theorem mem_or_mem_of_mem_jointTimes [Enclosure ι] {t : Float} (h : t ∈ jointTimes x y) :
    t ∈ x.times ∨ t ∈ y.times :=
  (mem_or_mem_of_mem_mergeTimes (List.mem_toArray.1 h)).imp Array.mem_toList_iff.1
    Array.mem_toList_iff.1

theorem Ordered.refinedBy_jointTimes [Enclosure ι] (hx : x.Ordered) (hy : y.Ordered)
    (hends : x.SameEnds y) :
    x.RefinedBy (jointTimes x y) ∧ y.RefinedBy (jointTimes x y) := by
  have fx : ∀ t ∈ x.times.toList, t.isNaN = false := fun t ht =>
    hx.isNaN_of_mem (Array.mem_toList_iff.1 ht)
  have fy : ∀ t ∈ y.times.toList, t.isNaN = false := fun t ht =>
    hy.isNaN_of_mem (Array.mem_toList_iff.1 ht)
  have hincreasing : (jointTimes x y).toList.Pairwise (· < ·) :=
    pairwise_mergeTimes fx fy hx.increasing hy.increasing
  have hwithin : ∀ t ∈ jointTimes x y, x.moment 0 ≤ value t ∧ value t ≤ x.moment x.sliceCount := by
    intro t ht
    rcases mem_or_mem_of_mem_jointTimes ht with ht | ht
    · exact hx.within ht
    · rw [hends.1, hends.2]
      exact hy.within ht
  have hkeep : ∀ s, s ∈ x.times ∨ s ∈ y.times → ∃ t ∈ jointTimes x y, value t = value s := by
    intro s hs
    obtain ⟨t, ht, heq⟩ := exists_mem_mergeTimes fx fy
      (hs.imp Array.mem_toList_iff.2 Array.mem_toList_iff.2)
    exact ⟨t, List.mem_toArray.2 ht, heq⟩
  refine ⟨⟨hincreasing, hwithin, fun k hk => hkeep _ (Or.inl (time_mem ?_))⟩,
    ⟨hincreasing, fun t ht => ?_, fun k hk => hkeep _ (Or.inr (time_mem ?_))⟩⟩
  · have := hx.size_times
    omega
  · rw [← hends.1, ← hends.2]
    exact hwithin t ht
  · have := hy.size_times
    omega

theorem Sliced.refinedBy_jointTimes [Enclosure ι] (hx : x.Sliced) (hy : y.Sliced)
    (hspan : x.SameSpan y) :
    x.RefinedBy (jointTimes x y) ∧ y.RefinedBy (jointTimes x y) :=
  hx.ordered.refinedBy_jointTimes hy.ordered ((hx.sameEnds_iff hy).2 hspan)

section Refine

variable [Enclosure ι]

theorem sliceCount_refine : (x.refine ts).sliceCount = ts.size - 1 := by
  simp [sliceCount, refine]

namespace RefinedBy

theorem ordered_refine (h : x.RefinedBy ts) (hx : x.Ordered) : (x.refine ts).Ordered := by
  have hsize : 2 ≤ ts.size := by
    obtain ⟨s, hs, hs'⟩ := h.breakpoints 0 (Nat.zero_le _)
    obtain ⟨t, ht, ht'⟩ := h.breakpoints x.sliceCount le_rfl
    have hlt := hx.moment_lt_moment hx.sliceCount_pos le_rfl
    rw [← hs', ← ht'] at hlt
    obtain ⟨i, hi, rfl⟩ := Array.mem_iff_getElem.1 hs
    obtain ⟨j, hj, rfl⟩ := Array.mem_iff_getElem.1 ht
    have hij : i ≠ j := fun hij => by simp [hij] at hlt
    omega
  have hcodomains : (x.refine ts).codomains.size = ts.size - 1 := sliceCount_refine
  have htimes : (x.refine ts).times.size = ts.size := rfl
  have hgates : (x.refine ts).gates.size = ts.size := Array.size_map ..
  exact ⟨⟨by omega, by omega, by omega⟩, h.increasing⟩

theorem sliced_refine (h : x.RefinedBy ts) (hx : x.Sliced) : (x.refine ts).Sliced := by
  have hr := h.ordered_refine hx.ordered
  refine ⟨hr.toFits, hr.increasing, fun t ht => ?_⟩
  obtain ⟨hlow, hup⟩ := h.within t ht
  exact hx.isFinite_of_between (Nat.zero_le _) le_rfl (hr.isNaN_of_mem ht) hlow hup

/-- Any tube takes the shape of the times that it is brought to. -/
theorem sliced_refine_other (h : x.RefinedBy ts) (hx : x.Sliced) (y : Tube ι) :
    (y.refine ts).Sliced :=
  (h.sliced_refine hx).of_shape rfl (by simp [refine]) (by simp [refine])

theorem within_refine (h : x.RefinedBy ts) (hx : x.Ordered) {k : ℕ}
    (hk : k ≤ (x.refine ts).sliceCount) :
    x.moment 0 ≤ (x.refine ts).moment k ∧ (x.refine ts).moment k ≤ x.moment x.sliceCount :=
  h.within _ (time_mem (show k < (x.refine ts).times.size by
    have := (h.ordered_refine hx).size_times
    omega))

/-- A breakpoint keeps a place among the times. -/
theorem exists_moment_refine (h : x.RefinedBy ts) (hx : x.Ordered) {k : ℕ} (hk : k ≤ x.sliceCount) :
    ∃ m ≤ (x.refine ts).sliceCount, (x.refine ts).moment m = x.moment k := by
  obtain ⟨s, hs, heq⟩ := h.breakpoints k hk
  obtain ⟨m, hm, rfl⟩ := exists_time_eq (show s ∈ (x.refine ts).times from hs)
  exact ⟨m, by have := (h.ordered_refine hx).size_times; omega, heq⟩

/-- No breakpoint lies between neighbouring times: they stay in the slice that the first is
found in. -/
theorem end_le (h : x.RefinedBy ts) (hx : x.Ordered) {i j : ℕ}
    (hi : i < (x.refine ts).sliceCount) (hj : x.sliceIndex? ((x.refine ts).time i) = some j) :
    (x.refine ts).moment (i + 1) ≤ x.moment (j + 1) := by
  have hr := h.ordered_refine hx
  obtain ⟨hjlt, -, -, hend, hside⟩ := hx.sliceIndex?_spec hj
  refine not_lt.1 fun hlt => ?_
  -- the end of the slice is a time itself, and it can only be the time that was looked up
  obtain ⟨m, hm, heq⟩ := h.exists_moment_refine hx hjlt
  rw [← heq] at hlt
  have hmi : m ≤ i := Nat.lt_succ_iff.1 (hr.lt_of_moment_lt hm hlt)
  have hsame : x.moment (j + 1) ≤ (x.refine ts).moment i := by
    rw [← heq]
    exact hr.moment_le_moment hmi hi.le
  rcases hside with hbefore | hlast
  · exact absurd hbefore (not_lt.2 hsame)
  · have hin := (h.within_refine hx hi).2
    rw [← hlast, ← heq] at hin
    exact absurd hlt (not_lt.2 hin)

theorem sameEnds_refine (h : x.RefinedBy ts) (hx : x.Ordered) : (x.refine ts).SameEnds x := by
  have hr := h.ordered_refine hx
  obtain ⟨i, hi, hfirst⟩ := h.exists_moment_refine hx (Nat.zero_le _)
  obtain ⟨j, hj, hlast⟩ := h.exists_moment_refine hx le_rfl
  constructor
  · refine le_antisymm ?_ (h.within_refine hx (Nat.zero_le _)).1
    rw [← hfirst]
    exact hr.moment_le_moment (Nat.zero_le i) hi
  · refine le_antisymm (h.within_refine hx le_rfl).2 ?_
    rw [← hlast]
    exact hr.moment_le_moment hj le_rfl

theorem sameSpan_refine (h : x.RefinedBy ts) (hx : x.Sliced) : (x.refine ts).SameSpan x :=
  ((h.sliced_refine hx).sameEnds_iff hx).1 (h.sameEnds_refine hx.ordered)

theorem gate_refine (h : x.RefinedBy ts) (hx : x.Ordered) {k : ℕ}
    (hk : k ≤ (x.refine ts).sliceCount) :
    (x.refine ts).gate k = x.eval ((x.refine ts).time k) := by
  have hr := h.ordered_refine hx
  have htimes := hr.size_times
  have hgates := hr.size_gates
  rw [gate_eq_getElem (by omega), time_eq_getElem (by omega)]
  simp only [Tube.refine, Array.getElem_map]

/-- A time keeps the codomain of the slice that it lies in. -/
theorem exists_slice (h : x.RefinedBy ts) (hx : x.Ordered) {i : ℕ}
    (hi : i < (x.refine ts).sliceCount) :
    ∃ j, x.sliceIndex? ((x.refine ts).time i) = some j ∧
      (x.refine ts).codomain i = x.codomain j := by
  have hr := h.ordered_refine hx
  have hi' : i < (x.refine ts).times.size := by
    have := hr.size_times
    omega
  obtain ⟨hlow, hup⟩ := h.within_refine hx hi.le
  obtain ⟨j, hj⟩ := hx.exists_sliceIndex? (hr.isNaN_time hi.le) hlow hup
  refine ⟨j, hj, ?_⟩
  rw [time_eq_getElem hi'] at hj
  rw [codomain_eq_getElem hi]
  simp only [Tube.refine, Array.getElem_map, Array.getElem_pop]
  rw [show x.sliceIndex? ts[i] = some j from hj, Option.getD_some]

end RefinedBy

variable [Membership ℝ ι]

theorem Encloses.refine (he : x.Encloses g) (hx : x.Sliced) (h : x.RefinedBy ts) :
    (x.refine ts).Encloses g := by
  have hr := h.sliced_refine hx
  constructor
  · intro k hk
    obtain ⟨hlow, hup⟩ := h.within_refine hx.ordered hk
    rw [hr.moment_eq hk, hx.moment_eq (Nat.zero_le _), EReal.coe_le_coe_iff] at hlow
    rw [hr.moment_eq hk, hx.moment_eq le_rfl, EReal.coe_le_coe_iff] at hup
    rw [h.gate_refine hx.ordered hk]
    exact he.mem_eval hx (hr.isFinite_time hk) hlow hup
  · intro i hi t hlow hup
    obtain ⟨j, hj, hcod⟩ := h.exists_slice hx.ordered hi
    obtain ⟨hjlt, -, hstart, -, -⟩ := hx.sliceIndex?_spec hj
    have hend := h.end_le hx.ordered hi hj
    rw [hr.moment_eq hi, hx.moment_eq hjlt, EReal.coe_le_coe_iff] at hend
    rw [hcod]
    exact he.codomain j hjlt t (hstart.trans hlow) (hup.trans hend)

end Refine

/-! ### Hulls -/

section Hull

variable [Enclosure ι]

/-- Two tubes over the same times, combined value by value. -/
def zip (op : ι → ι → ι) (x y : Tube ι) : Tube ι where
  times := x.times
  codomains := Array.zipWith op x.codomains y.codomains
  gates := Array.zipWith op x.gates y.gates

omit [Enclosure ι] in
theorem fits_zip (op : ι → ι → ι) (hx : x.Fits) (hy : y.Fits) (h : x.times = y.times) :
    (x.zip op y).Fits ∧ (x.zip op y).sliceCount = x.sliceCount ∧ y.sliceCount = x.sliceCount := by
  have hcount := sliceCount_eq_of_times hy hx h.symm
  have hcodomains : (x.zip op y).codomains.size = x.codomains.size := by
    change (Array.zipWith op x.codomains y.codomains).size = x.codomains.size
    rw [Array.size_zipWith]
    exact min_eq_left hcount.ge
  have hgates : (x.zip op y).gates.size = x.gates.size := by
    change (Array.zipWith op x.gates y.gates).size = x.gates.size
    rw [Array.size_zipWith, hy.gates]
    exact min_eq_left (by rw [hx.gates]; exact Nat.succ_le_succ hcount.ge)
  refine ⟨⟨hcodomains ▸ hx.someSlice, ?_, ?_⟩, hcodomains, hcount⟩
  · rw [hcodomains]
    exact hx.times
  · rw [hcodomains, hgates]
    exact hx.gates

omit [Enclosure ι] in
theorem Sliced.zip (op : ι → ι → ι) (hx : x.Sliced) (hy : y.Sliced) (h : x.times = y.times) :
    (x.zip op y).Sliced ∧ (x.zip op y).sliceCount = x.sliceCount ∧ y.sliceCount = x.sliceCount := by
  obtain ⟨hfits, hcounts⟩ := fits_zip op hx.toFits hy.toFits h
  exact ⟨⟨hfits, hx.increasing, hx.finite⟩, hcounts⟩

theorem codomain_zip {op : ι → ι → ι} {i : ℕ} (hx : i < x.codomains.size)
    (hy : i < y.codomains.size) : (x.zip op y).codomain i = op (x.codomain i) (y.codomain i) := by
  have hi : i < (x.zip op y).codomains.size := by
    change i < (Array.zipWith op x.codomains y.codomains).size
    rw [Array.size_zipWith]
    exact lt_min hx hy
  rw [codomain_eq_getElem hi, codomain_eq_getElem hx, codomain_eq_getElem hy]
  exact Array.getElem_zipWith _

theorem gate_zip {op : ι → ι → ι} {k : ℕ} (hx : k < x.gates.size) (hy : k < y.gates.size) :
    (x.zip op y).gate k = op (x.gate k) (y.gate k) := by
  have hk : k < (x.zip op y).gates.size := by
    change k < (Array.zipWith op x.gates y.gates).size
    rw [Array.size_zipWith]
    exact lt_min hx hy
  rw [gate_eq_getElem hk, gate_eq_getElem hx, gate_eq_getElem hy]
  exact Array.getElem_zipWith _

variable {z : Tube ι}

theorem combine_eq_ok {op : ι → ι → ι} (hx : x.Sliced) (hy : y.Sliced)
    (h : combine op x y = .ok z) :
    x.SameSpan y ∧ z = (x.refine (jointTimes x y)).zip op (y.refine (jointTimes x y)) := by
  unfold combine at h
  split_ifs at h with hdomain
  exact ⟨(domain_beq_iff hx hy).1 hdomain, (Except.ok.inj h).symm⟩

theorem Sliced.combine {op : ι → ι → ι} (hx : x.Sliced) (hy : y.Sliced)
    (h : Tube.combine op x y = .ok z) : z.Sliced ∧ z.SameSpan x ∧ z.times = jointTimes x y := by
  obtain ⟨hspan, rfl⟩ := combine_eq_ok hx hy h
  obtain ⟨hrx, hry⟩ := hx.refinedBy_jointTimes hy hspan
  obtain ⟨hz, hcount, -⟩ := (hrx.sliced_refine hx).zip op (hry.sliced_refine hy) rfl
  have hsame : ((x.refine (jointTimes x y)).zip op (y.refine (jointTimes x y))).SameSpan
      (x.refine (jointTimes x y)) := by
    refine ⟨rfl, ?_⟩
    rw [hcount]
    rfl
  exact ⟨hz, hsame.trans (hrx.sameSpan_refine hx), rfl⟩

variable [Membership ℝ ι] [Enclosure.Lawful ι]

theorem Encloses.zip_union (hx : x.Sliced) (hy : y.Sliced) (h : x.times = y.times)
    (hg : x.Encloses g ∨ y.Encloses g) : (x.zip (· ∪ ·) y).Encloses g := by
  obtain ⟨hz, hcount, hsame⟩ := hx.zip (· ∪ ·) hy h
  have hinstant : (x.zip (· ∪ ·) y).instant = x.instant := rfl
  have hinstant' : y.instant = x.instant := by
    funext k
    rw [instant, instant, time, time, h]
  constructor
  · intro k hk
    rw [hcount] at hk
    rw [hinstant, gate_zip (by rw [hx.size_gates]; omega) (by rw [hy.size_gates]; omega)]
    rcases hg with hg | hg
    · exact Enclosure.Lawful.mem_union_left (hg.gate k hk)
    · rw [← hinstant']
      exact Enclosure.Lawful.mem_union_right (hg.gate k (by omega))
  · intro i hi t hlow hup
    rw [hcount] at hi
    have hi' : i < y.sliceCount := by omega
    rw [codomain_zip hi hi']
    rcases hg with hg | hg
    · exact Enclosure.Lawful.mem_union_left (hg.codomain i hi t hlow hup)
    · rw [hinstant, ← hinstant'] at hlow hup
      exact Enclosure.Lawful.mem_union_right (hg.codomain i hi' t hlow hup)

/-- A hull has the functions of both tubes. -/
theorem Encloses.hull (hx : x.Sliced) (hy : y.Sliced) (h : x.hull y = .ok z)
    (hg : x.Encloses g ∨ y.Encloses g) : z.Encloses g := by
  obtain ⟨hspan, rfl⟩ := combine_eq_ok hx hy h
  obtain ⟨hrx, hry⟩ := hx.refinedBy_jointTimes hy hspan
  exact Encloses.zip_union (hrx.sliced_refine hx) (hry.sliced_refine hy) rfl
    (hg.imp (fun hg => hg.refine hx hrx) (fun hg => hg.refine hy hry))

end Hull

end FlowTube.Tube
