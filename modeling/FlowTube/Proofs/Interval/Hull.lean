import FlowTube.Proofs.Interval.Inclusion

/-! The hull of several intervals. Of equal bounds a hull keeps the first one, so it does not
depend on how the intervals are grouped, not even in the sign of a zero bound: a hull that is put
together from the hulls of consecutive parts is the hull of the whole list. -/

namespace FlowTube

namespace Binary64

variable {x y z : Float}

theorem min_eq_ite (hx : x.isNaN = false) (hy : y.isNaN = false) :
    min x y = if value y < value x then y else x := by
  rw [min, if_neg (Bool.eq_false_iff.1 hx)]
  simp only [lt_iff, hx, hy, true_and]

theorem max_eq_ite (hx : x.isNaN = false) (hy : y.isNaN = false) :
    max x y = if value x < value y then y else x := by
  rw [max, if_neg (Bool.eq_false_iff.1 hx)]
  simp only [lt_iff, hx, hy, true_and]

theorem min_assoc (hx : x.isNaN = false) (hy : y.isNaN = false) (hz : z.isNaN = false) :
    min (min x y) z = min x (min y z) := by
  rw [min_eq_ite (isNaN_min hx hy) hz, min_eq_ite hx (isNaN_min hy hz), min_eq_ite hx hy,
    min_eq_ite hy hz]
  split_ifs <;> first | rfl | order

theorem max_assoc (hx : x.isNaN = false) (hy : y.isNaN = false) (hz : z.isNaN = false) :
    max (max x y) z = max x (max y z) := by
  rw [max_eq_ite (isNaN_max hx hy) hz, max_eq_ite hx (isNaN_max hy hz), max_eq_ite hx hy,
    max_eq_ite hy hz]
  split_ifs <;> first | rfl | order

end Binary64

namespace Interval

open Binary64

variable {a b c : Interval} {as bs : List Interval}

theorem union_of_isEmpty_left (h : a.isEmpty = true) : a ∪ b = b := if_pos h

theorem union_of_isEmpty_right (ha : a.isEmpty = false) (hb : b.isEmpty = true) : a ∪ b = a :=
  (if_neg (Bool.eq_false_iff.1 ha)).trans (if_pos hb)

theorem union_of_nonempty (ha : a.isEmpty = false) (hb : b.isEmpty = false) :
    a ∪ b = ⟨Binary64.min a.lb b.lb, Binary64.max a.ub b.ub⟩ :=
  (if_neg (Bool.eq_false_iff.1 ha)).trans (if_neg (Bool.eq_false_iff.1 hb))

theorem Numeric.isEmpty_union (ha : a.Numeric) (hane : a.isEmpty = false)
    (hbne : b.isEmpty = false) : (a ∪ b).isEmpty = false := by
  have hle : a.lb ≤ a.ub := le_of_not_lt ha.ub ha.lb (of_decide_eq_false hane)
  rw [union_of_nonempty hane hbne]
  exact decide_eq_false
    (not_lt_of_le (le_trans (min_le_left ha.lb) (le_trans hle (le_max_left ha.ub))))

theorem Numeric.union_assoc (ha : a.Numeric) (hb : b.Numeric) (hc : c.Numeric) :
    (a ∪ b) ∪ c = a ∪ (b ∪ c) := by
  cases hane : a.isEmpty with
  | true => rw [union_of_isEmpty_left hane, union_of_isEmpty_left hane]
  | false =>
    cases hbne : b.isEmpty with
    | true => rw [union_of_isEmpty_right hane hbne, union_of_isEmpty_left hbne]
    | false =>
      cases hcne : c.isEmpty with
      | true =>
        rw [union_of_isEmpty_right (ha.isEmpty_union hane hbne) hcne,
          union_of_isEmpty_right hbne hcne]
      | false =>
        rw [union_of_nonempty (ha.isEmpty_union hane hbne) hcne,
          union_of_nonempty hane (hb.isEmpty_union hbne hcne), union_of_nonempty hane hbne,
          union_of_nonempty hbne hcne, min_assoc ha.lb hb.lb hc.lb, max_assoc ha.ub hb.ub hc.ub]

/-- The smallest interval that holds every listed one. -/
def hullAll (as : List Interval) : Interval := as.foldl (· ∪ ·) empty

theorem hullAll_cons (a : Interval) (as : List Interval) :
    hullAll (a :: as) = as.foldl (· ∪ ·) a := by
  rw [hullAll, List.foldl_cons, union_of_isEmpty_left rfl]

theorem hullAll_singleton (a : Interval) : hullAll [a] = a := hullAll_cons a []

theorem foldl_union (ha : a.Numeric) (hb : b.Numeric) (has : ∀ c ∈ as, c.Numeric) :
    as.foldl (· ∪ ·) (a ∪ b) = a ∪ as.foldl (· ∪ ·) b := by
  induction as generalizing b with
  | nil => rfl
  | cons c as ih =>
    have hc := has c List.mem_cons_self
    rw [List.foldl_cons, List.foldl_cons, ha.union_assoc hb hc,
      ih (hb.union hc) fun d hd => has d (List.mem_cons_of_mem c hd)]

theorem numeric_foldl_union (ha : a.Numeric) (has : ∀ c ∈ as, c.Numeric) :
    (as.foldl (· ∪ ·) a).Numeric := by
  induction as generalizing a with
  | nil => exact ha
  | cons c as ih =>
    exact ih (ha.union (has c List.mem_cons_self)) fun d hd => has d (List.mem_cons_of_mem c hd)

/-- The hulls of two parts make up the hull of the list. -/
theorem hullAll_append (has : ∀ a ∈ as, a.Numeric) (hbs : ∀ b ∈ bs, b.Numeric) (hne : bs ≠ []) :
    hullAll (as ++ bs) = hullAll as ∪ hullAll bs := by
  obtain ⟨b, bs, rfl⟩ := List.exists_cons_of_ne_nil hne
  have hb := hbs b List.mem_cons_self
  rw [hullAll, List.foldl_append, List.foldl_cons, hullAll_cons]
  exact foldl_union (numeric_foldl_union numeric_empty has) hb
    fun d hd => hbs d (List.mem_cons_of_mem b hd)

theorem foldl_union_isSubset_iff (ha : a.Numeric) (has : ∀ c ∈ as, c.Numeric) :
    (as.foldl (· ∪ ·) a).isSubset b = true ↔
      a.isSubset b = true ∧ ∀ c ∈ as, c.isSubset b = true := by
  induction as generalizing a with
  | nil => simp
  | cons c as ih =>
    have hc := has c List.mem_cons_self
    rw [List.foldl_cons, ih (ha.union hc) fun d hd => has d (List.mem_cons_of_mem c hd),
      List.forall_mem_cons, ← and_assoc, union_isSubset_iff ha hc]

/-- What includes the hull is what includes every interval of the list. -/
theorem hullAll_isSubset_iff (has : ∀ a ∈ as, a.Numeric) :
    (hullAll as).isSubset b = true ↔ ∀ a ∈ as, a.isSubset b = true := by
  rw [hullAll, foldl_union_isSubset_iff numeric_empty has]
  exact and_iff_right rfl

theorem numeric_hullAll (has : ∀ a ∈ as, a.Numeric) : (hullAll as).Numeric :=
  numeric_foldl_union numeric_empty has

theorem isSubset_hullAll (has : ∀ c ∈ as, c.Numeric) (ha : a ∈ as) :
    a.isSubset (hullAll as) = true :=
  (hullAll_isSubset_iff has).1 (numeric_hullAll has).isSubset_self a ha

theorem hullAll_mono (hbs : ∀ b ∈ bs, b.Numeric) (h : as ⊆ bs) :
    (hullAll as).isSubset (hullAll bs) = true :=
  (hullAll_isSubset_iff fun a ha => hbs a (h ha)).2 fun _ ha => isSubset_hullAll hbs (h ha)

/-- A hull is empty only together with all its parts. -/
theorem isEmpty_hullAll (has : ∀ c ∈ as, c.Numeric) (ha : a ∈ as) (hne : a.isEmpty = false) :
    (hullAll as).isEmpty = false :=
  Bool.eq_false_iff.2 fun h =>
    Bool.eq_false_iff.1 hne (isEmpty_of_isSubset (isSubset_hullAll has ha) h)

end Interval

end FlowTube
