import FlowTube.Proofs.Binary64.TotalOrder
import FlowTube.Tube.WellFormed

/-! Increasing breakpoints, and where a time lies among them. The search for the slice of a
time halves a window of breakpoints; its invariant is that the breakpoints up to the window's
first do not exceed the time, and those beyond the window do. The search for the gate at a time
goes by the total order, in which breakpoints are increasing too. All is said in values, so that
the first and the last breakpoint may be infinite. -/

namespace FlowTube

namespace BinarySearch

/-! ### Binary search -/

variable {α : Type}

/-- The last place at which `rightward` holds is found, if it holds nowhere after a place where
it fails. -/
theorem descend_spec {rightward : ℕ → Bool} {n : ℕ}
    (hdown : ∀ i j, i ≤ j → j < n → rightward j = true → rightward i = true) {base size : ℕ}
    (hsize : 0 < size) (hfit : base + size ≤ n) (hbase : base = 0 ∨ rightward base = true)
    (hbeyond : ∀ i, base + size ≤ i → i < n → rightward i = false) :
    descend rightward base size < n ∧
      (descend rightward base size = 0 ∨ rightward (descend rightward base size) = true) ∧
      ∀ i, descend rightward base size < i → i < n → rightward i = false := by
  fun_induction descend rightward base size with
  | case1 base size hone =>
    refine ⟨by omega, hbase, fun i hi hin => hbeyond i (by omega) hin⟩
  | case2 base size hone ih =>
    by_cases hmid : rightward (base + size / 2) = true
    · simp only [hmid, dite_true, if_true] at ih ⊢
      exact ih (by omega) (by omega) (Or.inr trivial) fun i hi hin => hbeyond i (by omega) hin
    · simp only [hmid, Bool.false_eq_true, dite_false, if_false] at ih ⊢
      refine ih (by omega) (by omega) hbase fun i hi hin => ?_
      refine Bool.eq_false_iff.2 fun hright => hmid (hdown _ i (by omega) hin hright)

/-- A count of the leading entries with `p`, if no entry after one without `p` has it. -/
theorem partitionPoint_spec {p : α → Bool} {xs : Array α} (hsome : 0 < xs.size)
    (hdown : ∀ i j, i ≤ j → j < xs.size → xs[j]?.any p = true → xs[i]?.any p = true) :
    partitionPoint p xs ≤ xs.size ∧
      (∀ i, i < partitionPoint p xs → xs[i]?.any p = true) ∧
      ∀ i, partitionPoint p xs ≤ i → i < xs.size → xs[i]?.any p = false := by
  obtain ⟨hlt, hat, hafter⟩ := descend_spec hdown hsome (by omega) (Or.inl rfl)
    fun i hi hin => absurd hin (by omega)
  unfold partitionPoint
  dsimp only
  generalize descend (fun i => xs[i]?.any p) 0 xs.size = m at *
  split_ifs with hm
  · exact ⟨hlt, fun i hi => hdown i m (by omega) hlt hm, fun i hi hin => hafter i hi hin⟩
  · have hzero : m = 0 := hat.resolve_right hm
    refine ⟨hlt.le, fun i hi => absurd hi (by omega), fun i hi hin => ?_⟩
    rcases Nat.eq_or_lt_of_le hi with rfl | hi
    · exact Bool.eq_false_iff.2 hm
    · exact hafter i hi hin

/-- An entry that compares equal is found, if those before it do not compare greater and those
after it do. -/
theorem find?_eq_some {cmp : α → Ordering} {xs : Array α} {k : ℕ} (hk : k < xs.size)
    (heq : (xs[k]?.any fun a => cmp a == .eq) = true)
    (hbefore : ∀ i < k, (xs[i]?.any fun a => cmp a != .gt) = true)
    (hafter : ∀ i, k < i → i < xs.size → (xs[i]?.any fun a => cmp a != .gt) = false) :
    find? cmp xs = some k := by
  have hat : (xs[k]?.any fun a => cmp a != .gt) = true := by
    obtain ⟨a, ha, hcmp⟩ := (Option.any_eq_true _ _).1 heq
    refine (Option.any_eq_true _ _).2 ⟨a, ha, ?_⟩
    rw [beq_iff_eq.1 hcmp]
    rfl
  have hdown : ∀ i j, i ≤ j → j < xs.size → (xs[j]?.any fun a => cmp a != .gt) = true →
      (xs[i]?.any fun a => cmp a != .gt) = true := by
    intro i j hij hj hright
    have hjk : j ≤ k := by
      refine not_lt.1 fun hlt => ?_
      rw [hafter j hlt hj] at hright
      contradiction
    rcases Nat.eq_or_lt_of_le (hij.trans hjk) with rfl | hik
    · exact hat
    · exact hbefore i hik
  obtain ⟨hlt, hfound, hbeyond⟩ := descend_spec hdown (show 0 < xs.size by omega) (by omega)
    (Or.inl rfl) fun i hi hin => absurd hin (by omega)
  unfold find?
  dsimp only
  generalize descend (fun j => xs[j]?.any fun a => cmp a != .gt) 0 xs.size = m at *
  have hkm : k ≤ m := by
    refine not_lt.1 fun hmk => ?_
    rw [hbeyond k hmk hk] at hat
    contradiction
  have hmk : m ≤ k := by
    refine not_lt.1 fun hkm => ?_
    rcases hfound with rfl | hright
    · omega
    · rw [hafter m hkm hlt] at hright
      contradiction
  rw [le_antisymm hmk hkm, if_pos heq]

end BinarySearch

namespace Tube

open Binary64 (value)

variable {ι : Type} {x y : Tube ι} {i j k : ℕ} {t : Float}

/-! ### Breakpoints -/

/-- Strictly increasing breakpoints with a gate each, and a codomain between any two. -/
structure Ordered (x : Tube ι) : Prop extends x.Fits where
  increasing : x.times.toList.Pairwise (· < ·)

/-- The value of breakpoint `k`. -/
noncomputable def moment (x : Tube ι) (k : ℕ) : EReal := value (x.time k)

theorem time_eq_getElem (h : k < x.times.size) : x.time k = x.times[k] := by
  rw [time, Array.getD_eq_getD_getElem?, Array.getElem?_eq_getElem h, Option.getD_some]

theorem codomain_eq_getElem [Enclosure ι] (h : i < x.codomains.size) :
    x.codomain i = x.codomains[i] := by
  rw [codomain, Array.getD_eq_getD_getElem?, Array.getElem?_eq_getElem h, Option.getD_some]

theorem gate_eq_getElem [Enclosure ι] (h : k < x.gates.size) : x.gate k = x.gates[k] := by
  rw [gate, Array.getD_eq_getD_getElem?, Array.getElem?_eq_getElem h, Option.getD_some]

theorem time_mem (h : k < x.times.size) : x.time k ∈ x.times := by
  rw [time_eq_getElem h]
  exact Array.getElem_mem h

theorem exists_time_eq (h : t ∈ x.times) : ∃ k < x.times.size, x.time k = t := by
  obtain ⟨k, hk, rfl⟩ := Array.mem_iff_getElem.1 h
  exact ⟨k, hk, time_eq_getElem hk⟩

namespace Ordered

theorem size_times (h : x.Ordered) : x.times.size = x.sliceCount + 1 := h.times

theorem size_gates (h : x.Ordered) : x.gates.size = x.sliceCount + 1 := h.gates

theorem sliceCount_pos (h : x.Ordered) : 0 < x.sliceCount := h.someSlice

theorem time_lt_time (h : x.Ordered) (hij : i < j) (hj : j ≤ x.sliceCount) :
    x.time i < x.time j := by
  have hsize := h.size_times
  have hlt := List.pairwise_iff_getElem.1 h.increasing i j (by simp; omega) (by simp; omega) hij
  rw [time_eq_getElem (by omega), time_eq_getElem (by omega)]
  simpa using hlt

/-- A breakpoint has another one on at least one side, so it is a number. -/
theorem isNaN_time (h : x.Ordered) (hk : k ≤ x.sliceCount) : (x.time k).isNaN = false := by
  rcases Nat.eq_or_lt_of_le hk with rfl | hlt
  · exact (Binary64.lt_iff.1 (h.time_lt_time h.sliceCount_pos le_rfl)).2.1
  · exact (Binary64.lt_iff.1 (h.time_lt_time (Nat.lt_succ_self k) hlt)).1

theorem isNaN_of_mem (h : x.Ordered) (ht : t ∈ x.times) : t.isNaN = false := by
  obtain ⟨k, hk, rfl⟩ := exists_time_eq ht
  exact h.isNaN_time (by have := h.size_times; omega)

/-- Numbers equal themselves, so the breakpoints do. -/
theorem times_beq_self (h : x.Ordered) : (x.times == x.times) = true := by
  refine Array.isEqv_iff_rel.2 ⟨rfl, fun i hi => ?_⟩
  have hnumber := h.isNaN_of_mem (Array.getElem_mem hi)
  exact Binary64.beq_iff.2 ⟨hnumber, hnumber, rfl⟩

theorem moment_lt_moment (h : x.Ordered) (hij : i < j) (hj : j ≤ x.sliceCount) :
    x.moment i < x.moment j :=
  (Binary64.lt_iff.1 (h.time_lt_time hij hj)).2.2

theorem moment_le_moment (h : x.Ordered) (hij : i ≤ j) (hj : j ≤ x.sliceCount) :
    x.moment i ≤ x.moment j := by
  rcases Nat.eq_or_lt_of_le hij with rfl | hlt
  · exact le_rfl
  · exact (h.moment_lt_moment hlt hj).le

/-- Breakpoints are ordered as their indices. -/
theorem lt_of_moment_lt (h : x.Ordered) (hi : i ≤ x.sliceCount) (hlt : x.moment i < x.moment j) :
    i < j :=
  not_le.1 fun hji => not_lt.2 (h.moment_le_moment hji hi) hlt

theorem sliceDomain_eq (h : x.Ordered) (hi : i < x.sliceCount) :
    x.sliceDomain i = ⟨x.time i, x.time (i + 1)⟩ := by
  exact Interval.ofBounds_of_lt (h.time_lt_time (Nat.lt_succ_self i) hi)

theorem domain_eq (h : x.Ordered) : x.domain = ⟨x.time 0, x.time x.sliceCount⟩ := by
  rw [domain, h.size_times, Nat.add_sub_cancel]
  exact Interval.ofBounds_of_lt (h.time_lt_time h.sliceCount_pos le_rfl)

theorem contains_domain_iff (h : x.Ordered) :
    x.domain.contains t = true ↔
      t.isNaN = false ∧ x.moment 0 ≤ value t ∧ value t ≤ x.moment x.sliceCount := by
  rw [h.domain_eq]
  exact Interval.contains_iff_value (h.isNaN_time (Nat.zero_le _)) (h.isNaN_time le_rfl)

theorem contains_sliceDomain_iff (h : x.Ordered) (hi : i < x.sliceCount) :
    (x.sliceDomain i).contains t = true ↔
      t.isNaN = false ∧ x.moment i ≤ value t ∧ value t ≤ x.moment (i + 1) := by
  rw [h.sliceDomain_eq hi]
  exact Interval.contains_iff_value (h.isNaN_time hi.le) (h.isNaN_time hi)

/-! ### The slice of a time -/

theorem any_time (h : x.Ordered) (hk : k ≤ x.sliceCount) (ht : t.isNaN = false) :
    (x.times[k]?.any fun s => s ≤ t) = true ↔ x.moment k ≤ value t := by
  have hsize : k < x.times.size := by
    rw [h.size_times]
    omega
  rw [Array.getElem?_eq_getElem hsize, Option.any_some, decide_eq_true_iff, ← time_eq_getElem hsize,
    Binary64.le_iff]
  exact ⟨fun hle => hle.2.2, fun hle => ⟨h.isNaN_time hk, ht, hle⟩⟩

/-- The slice that is found starts at the time or before it and ends after it; only the last
slice may end at it. -/
theorem sliceIndex?_spec (h : x.Ordered) (hi : x.sliceIndex? t = some i) :
    i < x.sliceCount ∧ t.isNaN = false ∧ x.moment i ≤ value t ∧ value t ≤ x.moment (i + 1) ∧
      (value t < x.moment (i + 1) ∨ i + 1 = x.sliceCount) := by
  unfold sliceIndex? at hi
  split_ifs at hi with hdom
  obtain ⟨ht, hlow, hup⟩ := h.contains_domain_iff.1 hdom
  have hn := h.sliceCount_pos
  have hsize := h.size_times
  obtain ⟨hle, hbefore, hafter⟩ := BinarySearch.partitionPoint_spec (by omega)
    fun a b hab hb hany => (h.any_time (by omega) ht).2
      ((h.moment_le_moment hab (by omega)).trans ((h.any_time (by omega) ht).1 hany))
  generalize BinarySearch.partitionPoint (fun s => decide (s ≤ t)) x.times = m
    at hi hle hbefore hafter
  have hm : 0 < m := by
    refine Nat.pos_of_ne_zero fun hzero => ?_
    have hfalse := hafter 0 (by omega) (by omega)
    rw [(h.any_time (Nat.zero_le _) ht).2 hlow] at hfalse
    contradiction
  simp only [Option.some.injEq] at hi
  have hstart : x.moment i ≤ value t := (h.any_time (by omega) ht).1 (hbefore i (by omega))
  rcases Nat.lt_or_ge (i + 1) m with hlt | hge
  · have hlast : i + 1 = x.sliceCount := by omega
    exact ⟨by omega, ht, hstart, hlast ▸ hup, Or.inr hlast⟩
  · have hend : value t < x.moment (i + 1) := by
      refine not_le.1 fun hle => ?_
      have hfalse := hafter (i + 1) (by omega) (by omega)
      rw [(h.any_time (by omega) ht).2 hle] at hfalse
      contradiction
    exact ⟨by omega, ht, hstart, hend.le, Or.inl hend⟩

theorem exists_sliceIndex? (h : x.Ordered) (ht : t.isNaN = false) (hlow : x.moment 0 ≤ value t)
    (hup : value t ≤ x.moment x.sliceCount) : ∃ i, x.sliceIndex? t = some i :=
  ⟨_, if_pos (h.contains_domain_iff.2 ⟨ht, hlow, hup⟩)⟩

/-- A time from the start of a slice on and before its end is found there. -/
theorem sliceIndex?_eq (h : x.Ordered) (hi : i < x.sliceCount) (ht : t.isNaN = false)
    (hlow : x.moment i ≤ value t) (hup : value t < x.moment (i + 1)) :
    x.sliceIndex? t = some i := by
  obtain ⟨m, hm⟩ := h.exists_sliceIndex? ht ((h.moment_le_moment (Nat.zero_le i) hi.le).trans hlow)
    (hup.le.trans (h.moment_le_moment hi le_rfl))
  obtain ⟨hmlt, -, hstart, -, hside⟩ := h.sliceIndex?_spec hm
  have hmi : m < i + 1 := h.lt_of_moment_lt hmlt.le (hstart.trans_lt hup)
  have him : i < m + 1 := by
    rcases hside with hend | hlast
    · exact h.lt_of_moment_lt hi.le (hlow.trans_lt hend)
    · omega
  rw [hm, show m = i by omega]

/-! ### The gate at a time -/

theorem gateIndex?_time (h : x.Ordered) (hk : k ≤ x.sliceCount) :
    x.gateIndex? (x.time k) = some k := by
  have hsize := h.size_times
  have hget (m : ℕ) (hm : m ≤ x.sliceCount) : x.times[m]? = some (x.time m) := by
    rw [time_eq_getElem (by omega), Array.getElem?_eq_getElem]
  refine BinarySearch.find?_eq_some (by omega) ?_ (fun m hm => ?_) (fun m hm hmsize => ?_)
  · rw [hget k hk, Option.any_some, Binary64.totalCompare_self]
    rfl
  · rw [hget m (by omega), Option.any_some,
      Binary64.totalCompare_of_lt (h.time_lt_time hm hk)]
    rfl
  · rw [hget m (by omega), Option.any_some,
      Binary64.totalCompare_of_gt (h.time_lt_time hm (by omega))]
    rfl

end Ordered

/-- A gate that is found at a time belongs to that time. -/
theorem time_of_gateIndex? (hk : x.gateIndex? t = some k) : k < x.times.size ∧ x.time k = t := by
  unfold gateIndex? BinarySearch.find? at hk
  dsimp only at hk
  split_ifs at hk with hany
  rw [Option.some.injEq] at hk
  rw [hk] at hany
  obtain ⟨s, hs, heq⟩ := (Option.any_eq_true _ _).1 hany
  obtain ⟨hlt, rfl⟩ := Array.getElem?_eq_some_iff.1 hs
  rw [time_eq_getElem hlt]
  exact ⟨hlt, Binary64.eq_of_totalCompare (by simpa using heq)⟩

namespace Ordered

/-- A gate is found at the breakpoints and at no other time. -/
theorem gateIndex?_eq_some_iff (h : x.Ordered) :
    x.gateIndex? t = some k ↔ k ≤ x.sliceCount ∧ x.time k = t := by
  constructor
  · intro hk
    obtain ⟨hsize, htime⟩ := time_of_gateIndex? hk
    rw [h.size_times, Nat.lt_succ_iff] at hsize
    exact ⟨hsize, htime⟩
  · rintro ⟨hk, rfl⟩
    exact h.gateIndex?_time hk

theorem gateIndex?_eq_none_iff (h : x.Ordered) :
    x.gateIndex? t = none ↔ ∀ k ≤ x.sliceCount, x.time k ≠ t := by
  simp only [Option.eq_none_iff_forall_ne_some, ne_eq, h.gateIndex?_eq_some_iff, not_and]

theorem gateIndex?_of_inside (h : x.Ordered) (hi : i < x.sliceCount) (hlow : x.moment i < value t)
    (hup : value t < x.moment (i + 1)) : x.gateIndex? t = none := by
  rw [h.gateIndex?_eq_none_iff]
  rintro k hk rfl
  have hik := h.lt_of_moment_lt hi.le hlow
  have hki := h.lt_of_moment_lt hk hup
  omega

end Ordered

/-! ### A new breakpoint -/

theorem getD_insertIdxIfInBounds {α : Type} {xs : Array α} {a d : α} (hi : i ≤ xs.size) :
    (xs.insertIdxIfInBounds i a).getD k d =
      if k < i then xs.getD k d else if k = i then a else xs.getD (k - 1) d := by
  simp only [Array.insertIdxIfInBounds, hi, dite_true, Array.getD_eq_getD_getElem?,
    Array.getElem?_insertIdx]
  split_ifs <;> first | rfl | omega

/-- Slice `i` split at `t`, with `c` for the new gate and the second part. -/
def splitSlice (x : Tube ι) (i : ℕ) (t : Float) (c : ι) : Tube ι where
  times := x.times.insertIdxIfInBounds (i + 1) t
  codomains := x.codomains.insertIdxIfInBounds (i + 1) c
  gates := x.gates.insertIdxIfInBounds (i + 1) c

section SplitSlice

variable {c : ι}

theorem sliceCount_splitSlice (hi : i < x.sliceCount) :
    (x.splitSlice i t c).sliceCount = x.sliceCount + 1 :=
  size_insertIdxIfInBounds hi

theorem time_splitSlice (h : x.Fits) (hi : i < x.sliceCount) (k : ℕ) :
    (x.splitSlice i t c).time k =
      if k < i + 1 then x.time k else if k = i + 1 then t else x.time (k - 1) :=
  getD_insertIdxIfInBounds (by rw [h.times]; exact Nat.succ_le_succ hi.le)

theorem codomain_splitSlice [Enclosure ι] (hi : i < x.sliceCount) (k : ℕ) :
    (x.splitSlice i t c).codomain k =
      if k < i + 1 then x.codomain k else if k = i + 1 then c else x.codomain (k - 1) :=
  getD_insertIdxIfInBounds hi

theorem gate_splitSlice [Enclosure ι] (h : x.Fits) (hi : i < x.sliceCount) (k : ℕ) :
    (x.splitSlice i t c).gate k =
      if k < i + 1 then x.gate k else if k = i + 1 then c else x.gate (k - 1) :=
  getD_insertIdxIfInBounds (by rw [h.gates]; exact Nat.succ_le_succ hi.le)


theorem moment_splitSlice (h : x.Fits) (hi : i < x.sliceCount) (k : ℕ) :
    (x.splitSlice i t c).moment k =
      if k < i + 1 then x.moment k else if k = i + 1 then value t else x.moment (k - 1) := by
  rw [moment, time_splitSlice h hi]
  split_ifs <;> rfl

theorem mem_times_of_splitSlice {s : Float} (hs : s ∈ (x.splitSlice i t c).times) :
    s = t ∨ s ∈ x.times := by
  change s ∈ x.times.insertIdxIfInBounds (i + 1) t at hs
  unfold Array.insertIdxIfInBounds at hs
  split_ifs at hs
  · exact Array.mem_insertIdx.1 hs
  · exact Or.inr hs

/-- Neighbouring breakpoints are enough to compare. -/
theorem Ordered.of_adjacent (hfits : x.Fits)
    (hnumber : ∀ k ≤ x.sliceCount, (x.time k).isNaN = false)
    (hlt : ∀ k < x.sliceCount, x.moment k < x.moment (k + 1)) : x.Ordered where
  toFits := hfits
  increasing := by
    have hsize : x.times.size = x.sliceCount + 1 := hfits.times
    have hmono : ∀ i j, i < j → j ≤ x.sliceCount → x.moment i < x.moment j := by
      intro i j hij
      induction j, hij using Nat.le_induction with
      | base => exact fun hj => hlt i hj
      | succ j _ ih => exact fun hj => (ih (by omega)).trans (hlt j hj)
    refine List.pairwise_iff_getElem.2 fun i j hi hj hij => ?_
    rw [Array.length_toList] at hi hj
    rw [Array.getElem_toList, Array.getElem_toList, ← time_eq_getElem hi, ← time_eq_getElem hj]
    exact Binary64.lt_iff.2 ⟨hnumber i (by omega), hnumber j (by omega), hmono i j hij (by omega)⟩

theorem fits_splitSlice (h : x.Fits) (hi : i < x.sliceCount) : (x.splitSlice i t c).Fits := by
  have htimes : x.times.size = x.sliceCount + 1 := h.times
  have hgates : x.gates.size = x.sliceCount + 1 := h.gates
  have hcodomains' : (x.splitSlice i t c).codomains.size = x.sliceCount + 1 :=
    sliceCount_splitSlice hi
  have htimes' : (x.splitSlice i t c).times.size = x.times.size + 1 :=
    size_insertIdxIfInBounds (by omega)
  have hgates' : (x.splitSlice i t c).gates.size = x.gates.size + 1 :=
    size_insertIdxIfInBounds (by omega)
  exact ⟨by omega, by omega, by omega⟩

theorem Ordered.splitSlice (h : x.Ordered) (hi : i < x.sliceCount) (ht : t.isNaN = false)
    (hlow : x.moment i < value t) (hup : value t < x.moment (i + 1)) :
    (x.splitSlice i t c).Ordered := by
  have hcount : (x.splitSlice i t c).sliceCount = x.sliceCount + 1 := sliceCount_splitSlice hi
  refine Ordered.of_adjacent (fits_splitSlice h.toFits hi) (fun k hk => ?_) (fun k hk => ?_)
  · rw [time_splitSlice h.toFits hi]
    split_ifs
    · exact h.isNaN_time (by omega)
    · exact ht
    · exact h.isNaN_time (by omega)
  · rw [moment_splitSlice h.toFits hi, moment_splitSlice h.toFits hi]
    rcases Nat.lt_trichotomy k i with hki | rfl | hki
    · rw [if_pos (by omega), if_pos (by omega)]
      exact h.moment_lt_moment (Nat.lt_succ_self k) (by omega)
    · rw [if_pos (by omega), if_neg (by omega), if_pos rfl]
      exact hlow
    · rw [if_neg (show ¬k < i + 1 by omega), if_neg (show ¬k + 1 < i + 1 by omega),
        if_neg (show ¬k + 1 = i + 1 by omega), Nat.add_sub_cancel]
      split_ifs with hk'
      · rw [hk']
        exact hup
      · exact h.moment_lt_moment (by omega) (by omega)

end SplitSlice

/-- A sample splits the slice around the time by its codomain, or leaves a tube as it is if the
time is a breakpoint or outside. -/
theorem sample_eq [Enclosure ι] (h : x.Ordered) (t : Float) :
    ((x.sample t).1 = x ∧
      (x.domain.contains t = false ∨ ∃ k ≤ x.sliceCount, x.moment k = value t)) ∨
    ∃ i < x.sliceCount, t.isNaN = false ∧ x.moment i < value t ∧ value t < x.moment (i + 1) ∧
      (x.sample t).1 = x.splitSlice i t (x.codomain i) := by
  unfold sample
  cases hi : x.sliceIndex? t with
  | none =>
    unfold sliceIndex? at hi
    split_ifs at hi with hdom
    exact Or.inl ⟨rfl, Or.inl (Bool.eq_false_iff.2 hdom)⟩
  | some i =>
    obtain ⟨hlt, ht, hstart, hend, -⟩ := h.sliceIndex?_spec hi
    dsimp only
    rw [Array.getElem?_eq_getElem hlt]
    dsimp only
    split_ifs with hout
    · rw [Bool.or_eq_true, decide_eq_true_iff, decide_eq_true_iff, ge_iff_le] at hout
      refine Or.inl ⟨rfl, Or.inr ?_⟩
      rcases hout with hle | hle
      · exact ⟨i, hlt.le, le_antisymm hstart (Binary64.le_iff.1 hle).2.2⟩
      · exact ⟨i + 1, hlt, le_antisymm (Binary64.le_iff.1 hle).2.2 hend⟩
    · rw [Bool.or_eq_true, decide_eq_true_iff, decide_eq_true_iff, not_or, ge_iff_le,
        Binary64.le_iff, Binary64.le_iff] at hout
      refine Or.inr ⟨i, hlt, ht, not_le.1 fun hle => ?_, not_le.1 fun hle => ?_, ?_⟩
      · exact hout.1 ⟨ht, h.isNaN_time hlt.le, hle⟩
      · exact hout.2 ⟨h.isNaN_time hlt, ht, hle⟩
      · rw [codomain_eq_getElem hlt]
        rfl

theorem Ordered.sample [Enclosure ι] (h : x.Ordered) (t : Float) : (x.sample t).1.Ordered := by
  rcases sample_eq h t with ⟨heq, -⟩ | ⟨i, hi, ht, hlow, hup, heq⟩
  · rw [heq]
    exact h
  · rw [heq]
    exact h.splitSlice hi ht hlow hup

/-- A time of the domain is a breakpoint once it was sampled. -/
theorem Ordered.exists_moment_sample [Enclosure ι] (h : x.Ordered)
    (ht : x.domain.contains t = true) :
    ∃ k ≤ (x.sample t).1.sliceCount, (x.sample t).1.moment k = value t := by
  rcases sample_eq h t with ⟨heq, hout⟩ | ⟨i, hi, -, -, -, heq⟩
  · rw [heq]
    exact hout.resolve_left (Bool.not_eq_false _ ▸ ht)
  · refine ⟨i + 1, ?_, ?_⟩
    · rw [heq, sliceCount_splitSlice hi]
      omega
    · rw [heq, moment_splitSlice h.toFits hi, if_neg (Nat.lt_irrefl _), if_pos rfl]

/-- A sample at a time that is not `-0` brings no `-0` among the breakpoints. -/
theorem Ordered.ne_negZero_sample [Enclosure ι] (h : x.Ordered)
    (hzeros : ∀ s ∈ x.times, s ≠ -0.0) (ht0 : t ≠ -0.0) :
    ∀ s ∈ (x.sample t).1.times, s ≠ -0.0 := by
  rcases sample_eq h t with ⟨heq, -⟩ | ⟨i, -, -, -, -, heq⟩
  · rwa [heq]
  · rw [heq]
    intro s hs
    rcases mem_times_of_splitSlice hs with rfl | hs
    · exact ht0
    · exact hzeros s hs

/-- A time of the domain is a breakpoint after a sample, and its gate is the value there. -/
theorem Ordered.exists_gate_sample [Enclosure ι] (h : x.Ordered)
    (hzeros : ∀ s ∈ x.times, s ≠ -0.0) (ht0 : t ≠ -0.0) (ht : x.domain.contains t = true) :
    ∃ k ≤ (x.sample t).1.sliceCount, (x.sample t).1.time k = t ∧
      (x.sample t).1.gateIndex? t = some k ∧ (x.sample t).1.gate k = (x.sample t).1.eval t := by
  have hs := h.sample t
  obtain ⟨k, hk, hmoment⟩ := h.exists_moment_sample ht
  have htime := Binary64.eq_of_value_eq (hs.isNaN_time hk) (h.contains_domain_iff.1 ht).1
    (h.ne_negZero_sample hzeros ht0 _ (time_mem (by have := hs.size_times; omega))) ht0 hmoment
  have hgate := hs.gateIndex?_time hk
  rw [htime] at hgate
  refine ⟨k, hk, htime, hgate, ?_⟩
  rw [eval, hgate]

/-- A sample at a breakpoint adds nothing: it would lie strictly between two neighbours. -/
theorem Ordered.sample_of_moment [Enclosure ι] (h : x.Ordered) (hk : k ≤ x.sliceCount)
    (ht : x.moment k = value t) : (x.sample t).1 = x := by
  rcases sample_eq h t with ⟨heq, -⟩ | ⟨i, hi, -, hlow, hup, -⟩
  · exact heq
  · rw [← ht] at hlow hup
    have hik := h.lt_of_moment_lt hi.le hlow
    have hki := h.lt_of_moment_lt hk hup
    omega

/-- A time that was sampled is a breakpoint or outside, so a second sample adds nothing. -/
theorem Ordered.sample_sample [Enclosure ι] (h : x.Ordered) (t : Float) :
    ((x.sample t).1.sample t).1 = (x.sample t).1 := by
  rcases sample_eq h t with ⟨heq, -⟩ | ⟨i, hi, -, -, -, heq⟩
  · rw [heq, heq]
  · refine (h.sample t).sample_of_moment (k := i + 1) ?_ ?_
    · rw [heq, sliceCount_splitSlice hi]
      omega
    · rw [heq, moment_splitSlice h.toFits hi, if_neg (Nat.lt_irrefl _), if_pos rfl]

/-- A sample inside a slice cuts it. -/
theorem Ordered.sample_eq_splitSlice [Enclosure ι] (h : x.Ordered) (hi : i < x.sliceCount)
    (ht : t.isNaN = false) (hlow : x.moment i < value t) (hup : value t < x.moment (i + 1)) :
    (x.sample t).1 = x.splitSlice i t (x.codomain i) := by
  rcases sample_eq h t with ⟨-, hout | ⟨k, hk, heq⟩⟩ | ⟨m, hm, -, hlow', hup', heq⟩
  · have hin := h.contains_domain_iff.2 ⟨ht,
      (h.moment_le_moment (Nat.zero_le i) hi.le).trans hlow.le,
      hup.le.trans (h.moment_le_moment hi le_rfl)⟩
    rw [hin] at hout
    contradiction
  · rw [← heq] at hlow hup
    have hik := h.lt_of_moment_lt hi.le hlow
    have hki := h.lt_of_moment_lt hk hup
    omega
  · have him := h.lt_of_moment_lt hi.le (hlow.trans hup')
    have hmi := h.lt_of_moment_lt hm.le (hlow'.trans hup)
    rw [heq, show m = i by omega]

theorem Ordered.sliceCount_sample [Enclosure ι] (h : x.Ordered) (hi : i < x.sliceCount)
    (ht : t.isNaN = false) (hlow : x.moment i < value t) (hup : value t < x.moment (i + 1)) :
    (x.sample t).1.sliceCount = x.sliceCount + 1 := by
  rw [h.sample_eq_splitSlice hi ht hlow hup]
  exact sliceCount_splitSlice hi

/-- There are no more breakpoints than numbers. -/
theorem Ordered.sliceCount_lt (h : x.Ordered) : x.sliceCount < 2 ^ 64 := by
  have hlength := Binary64.length_le_of_increasing h.increasing
  rwa [Array.length_toList, h.size_times] at hlength

theorem sliceCount_eq_of_times (hx : x.Fits) (hy : y.Fits) (h : x.times = y.times) :
    x.sliceCount = y.sliceCount := by
  have hx' : x.times.size = x.sliceCount + 1 := hx.times
  have hy' : y.times.size = y.sliceCount + 1 := hy.times
  rw [h] at hx'
  omega

/-- Tubes with the same breakpoints are sampled at the same place. -/
theorem Ordered.times_sample_eq (hx : x.Ordered) (hy : y.Ordered) (h : x.times = y.times)
    (t : Float) : (x.sample t).1.times = (y.sample t).1.times := by
  have htime : x.time = y.time := by
    funext k
    rw [time, time, h]
  have hcount := sliceCount_eq_of_times hx.toFits hy.toFits h
  have hindex : x.sliceIndex? t = y.sliceIndex? t := by
    rw [sliceIndex?, sliceIndex?, domain, domain, htime, h, hcount]
  unfold Tube.sample
  rw [hindex]
  cases hi : y.sliceIndex? t with
  | none => exact h
  | some i =>
    have hlt := (hy.sliceIndex?_spec hi).1
    have hlt' : i < x.sliceCount := hcount ▸ hlt
    dsimp only
    rw [Array.getElem?_eq_getElem hlt, Array.getElem?_eq_getElem hlt', htime]
    dsimp only
    split_ifs
    · exact h
    · rw [h]

/-! ### The ends of time -/

/-- The same first and last value of a breakpoint. -/
def SameEnds (x y : Tube ι) : Prop :=
  x.moment 0 = y.moment 0 ∧ x.moment x.sliceCount = y.moment y.sliceCount

theorem SameEnds.trans {z : Tube ι} (hxy : x.SameEnds y) (hyz : y.SameEnds z) : x.SameEnds z :=
  ⟨hxy.1.trans hyz.1, hxy.2.trans hyz.2⟩

theorem SameEnds.symm (h : x.SameEnds y) : y.SameEnds x := ⟨h.1.symm, h.2.symm⟩

theorem sameEnds_of_times (hx : x.Fits) (hy : y.Fits) (h : x.times = y.times) : x.SameEnds y := by
  have hcount := sliceCount_eq_of_times hx hy h
  constructor <;> simp only [moment, time, h, hcount]

theorem Ordered.domain_beq_iff (hx : x.Ordered) (hy : y.Ordered) :
    (x.domain == y.domain) = true ↔ x.SameEnds y := by
  rw [hx.domain_eq, hy.domain_eq]
  change (x.time 0 == y.time 0 && x.time x.sliceCount == y.time y.sliceCount) = true ↔ _
  rw [Bool.and_eq_true, Binary64.beq_iff, Binary64.beq_iff]
  constructor
  · rintro ⟨⟨-, -, hfirst⟩, -, -, hlast⟩
    exact ⟨hfirst, hlast⟩
  · rintro ⟨hfirst, hlast⟩
    exact ⟨⟨hx.isNaN_time (Nat.zero_le _), hy.isNaN_time (Nat.zero_le _), hfirst⟩,
      hx.isNaN_time le_rfl, hy.isNaN_time le_rfl, hlast⟩

theorem Ordered.sameEnds_sample [Enclosure ι] (h : x.Ordered) (t : Float) :
    (x.sample t).1.SameEnds x := by
  rcases sample_eq h t with ⟨heq, -⟩ | ⟨i, hi, -, -, -, heq⟩
  · rw [heq]
    exact ⟨rfl, rfl⟩
  · rw [heq]
    refine ⟨?_, ?_⟩
    · rw [moment_splitSlice h.toFits hi, if_pos (Nat.succ_pos i)]
    · rw [sliceCount_splitSlice hi, moment_splitSlice h.toFits hi, if_neg (by omega),
        if_neg (by omega), Nat.add_sub_cancel]

end Tube

end FlowTube
