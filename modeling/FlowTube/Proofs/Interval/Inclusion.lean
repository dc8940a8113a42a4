import FlowTube.Proofs.Interval.Membership

/-! Inclusion of intervals, as it is tested on the bounds. An empty interval is included in
every other one, whatever its bounds are. Intersections and hulls are monotone, and an
intersection is included in what either operand is included in; a bound that is NaN gives way
in it to the other one. Only that an interval is included in itself asks for bounds that are
numbers. -/

namespace FlowTube

namespace Binary64

variable {x y z : Float}

theorem le_trans (hxy : x ≤ y) (hyz : y ≤ z) : x ≤ z := by
  obtain ⟨hx, -, h1⟩ := le_iff.1 hxy
  obtain ⟨-, hz, h2⟩ := le_iff.1 hyz
  exact le_iff.2 ⟨hx, hz, h1.trans h2⟩

theorem lt_of_le_of_lt (hxy : x ≤ y) (hyz : y < z) : x < z := by
  obtain ⟨hx, -, h1⟩ := le_iff.1 hxy
  obtain ⟨-, hz, h2⟩ := lt_iff.1 hyz
  exact lt_iff.2 ⟨hx, hz, h1.trans_lt h2⟩

theorem lt_of_lt_of_le (hxy : x < y) (hyz : y ≤ z) : x < z := by
  obtain ⟨hx, -, h1⟩ := lt_iff.1 hxy
  obtain ⟨-, hz, h2⟩ := le_iff.1 hyz
  exact lt_iff.2 ⟨hx, hz, h1.trans_le h2⟩

theorem le_of_beq (h : (x == y) = true) : x ≤ y ∧ y ≤ x := by
  obtain ⟨hx, hy, heq⟩ := beq_iff.1 h
  exact ⟨le_iff.2 ⟨hx, hy, heq.le⟩, le_iff.2 ⟨hy, hx, heq.ge⟩⟩

theorem isNaN_min (hx : x.isNaN = false) (hy : y.isNaN = false) : (min x y).isNaN = false := by
  rcases min_eq_or x y with h | h <;> rw [h] <;> assumption

theorem isNaN_max (hx : x.isNaN = false) (hy : y.isNaN = false) : (max x y).isNaN = false := by
  rcases max_eq_or x y with h | h <;> rw [h] <;> assumption

/-- The larger of two numbers is below what both are below. -/
theorem max_le (hxz : x ≤ z) (hyz : y ≤ z) : max x y ≤ z := by
  rcases max_eq_or x y with h | h <;> rw [h] <;> assumption

/-- The smaller of two numbers is above what both are above. -/
theorem le_min (hzx : z ≤ x) (hzy : z ≤ y) : z ≤ min x y := by
  rcases min_eq_or x y with h | h <;> rw [h] <;> assumption

/-- In either order the larger one of two has the same value. -/
theorem max_comm_le (h : (max x y).isNaN = false) : max y x ≤ max x y := by
  simp only [max, lt_iff] at h ⊢
  cases hx : x.isNaN <;> cases hy : y.isNaN <;> simp_all [le_iff]
  split_ifs <;> simp_all
  order

/-- In either order the smaller one of two has the same value. -/
theorem le_min_comm (h : (min x y).isNaN = false) : min x y ≤ min y x := by
  simp only [min, lt_iff] at h ⊢
  cases hx : x.isNaN <;> cases hy : y.isNaN <;> simp_all [le_iff]
  split_ifs <;> simp_all
  order

end Binary64

namespace Interval

open Binary64

/-! ### Bounds that are numbers -/

/-- Neither bound is NaN. -/
structure Numeric (a : Interval) : Prop where
  lb : a.lb.isNaN = false
  ub : a.ub.isNaN = false

variable {a b c d : Interval} {lb ub : Float}

theorem numeric_empty : empty.Numeric := ⟨rfl, rfl⟩

theorem numeric_ofBounds (lb ub : Float) : (ofBounds lb ub).Numeric := by
  unfold ofBounds
  split_ifs with h
  · exact numeric_empty
  · simp only [Bool.or_eq_true, not_or] at h
    exact ⟨Bool.eq_false_iff.2 h.1.1.1.1, Bool.eq_false_iff.2 h.1.1.1.2⟩

theorem numeric_inter (a b : Interval) : (a ∩ b).Numeric := numeric_ofBounds ..

theorem Numeric.union (ha : a.Numeric) (hb : b.Numeric) : (a ∪ b).Numeric := by
  change (hull a b).Numeric
  unfold hull
  split_ifs
  · exact hb
  · exact ha
  · exact ⟨isNaN_min ha.lb hb.lb, isNaN_max ha.ub hb.ub⟩

/-! ### Inclusion -/

theorem isSubset_iff :
    a.isSubset b = true ↔ a.ub < a.lb ∨ b.lb ≤ a.lb ∧ a.ub ≤ b.ub := by
  simp [isSubset, isEmpty]

theorem Numeric.isSubset_self (h : a.Numeric) : a.isSubset a = true :=
  isSubset_iff.2 (Or.inr ⟨le_self h.lb, le_self h.ub⟩)

theorem Numeric.beq_self (h : a.Numeric) : (a == a) = true :=
  (Bool.and_eq_true _ _).mpr ⟨beq_iff.2 ⟨h.lb, h.lb, rfl⟩, beq_iff.2 ⟨h.ub, h.ub, rfl⟩⟩

/-- What is included somewhere has numbers as bounds. -/
theorem numeric_of_isSubset (h : a.isSubset b = true) : a.Numeric := by
  rcases isSubset_iff.1 h with hempty | ⟨hlb, hub⟩
  · exact ⟨(lt_iff.1 hempty).2.1, (lt_iff.1 hempty).1⟩
  · exact ⟨(le_iff.1 hlb).2.1, (le_iff.1 hub).1⟩

theorem isSubset_trans (hab : a.isSubset b = true) (hbc : b.isSubset c = true) :
    a.isSubset c = true := by
  rw [isSubset_iff] at hab hbc ⊢
  rcases hab with hempty | ⟨hlb, hub⟩
  · exact Or.inl hempty
  · rcases hbc with hempty | ⟨hlb', hub'⟩
    · exact Or.inl (lt_of_le_of_lt hub (lt_of_lt_of_le hempty hlb))
    · exact Or.inr ⟨le_trans hlb' hlb, le_trans hub hub'⟩

/-- There is nothing in a part of what is empty. -/
theorem isEmpty_of_isSubset (h : a.isSubset b = true) (hb : b.isEmpty = true) :
    a.isEmpty = true := by
  rcases isSubset_iff.1 h with hempty | ⟨hlb, hub⟩
  · exact decide_eq_true hempty
  · exact decide_eq_true (lt_of_le_of_lt hub (lt_of_lt_of_le (of_decide_eq_true hb) hlb))

/-- Intervals that include each other have the same bounds, unless they are empty. -/
theorem beq_of_isSubset (ha : a.isEmpty = false) (hab : a.isSubset b = true)
    (hba : b.isSubset a = true) : (a == b) = true := by
  have hb : b.isEmpty = false := Bool.eq_false_iff.2 fun hb =>
    Bool.eq_false_iff.1 ha (isEmpty_of_isSubset hab hb)
  obtain ⟨hlb, hub⟩ := (isSubset_iff.1 hab).resolve_left (of_decide_eq_false ha)
  obtain ⟨hlb', hub'⟩ := (isSubset_iff.1 hba).resolve_left (of_decide_eq_false hb)
  obtain ⟨hl', hl, hle⟩ := le_iff.1 hlb
  obtain ⟨hu, hu', hle'⟩ := le_iff.1 hub
  refine (Bool.and_eq_true _ _).mpr ⟨beq_iff.2 ⟨hl, hl', ?_⟩, beq_iff.2 ⟨hu, hu', ?_⟩⟩
  · exact le_antisymm (le_iff.1 hlb').2.2 hle
  · exact le_antisymm hle' (le_iff.1 hub').2.2

theorem beq_iff_bounds : (a == b) = true ↔ (a.lb == b.lb) = true ∧ (a.ub == b.ub) = true :=
  Bool.and_eq_true_iff

/-- Intervals with equal bounds include each other. -/
theorem isSubset_of_beq (h : (a == b) = true) : b.isSubset a = true := by
  obtain ⟨hlb, hub⟩ := beq_iff_bounds.1 h
  exact isSubset_iff.2 (Or.inr ⟨(le_of_beq hlb).1, (le_of_beq hub).2⟩)

theorem beq_trans (hab : (a == b) = true) (hbc : (b == c) = true) : (a == c) = true := by
  simp only [beq_iff_bounds, beq_iff] at hab hbc ⊢
  exact ⟨⟨hab.1.1, hbc.1.2.1, hab.1.2.2.trans hbc.1.2.2⟩,
    hab.2.1, hbc.2.2.1, hab.2.2.2.trans hbc.2.2.2⟩

theorem ofBounds_of_crossed (h : ub < lb) : ofBounds lb ub = empty := by
  unfold ofBounds
  simp [h]

theorem ofBounds_isSubset (hlb : b.lb ≤ lb) (hub : ub ≤ b.ub) :
    (ofBounds lb ub).isSubset b = true := by
  unfold ofBounds
  split_ifs
  · rfl
  · exact isSubset_iff.2 (Or.inr ⟨hlb, hub⟩)

theorem ofBounds_cases (lb ub : Float) :
    ofBounds lb ub = empty ∨ lb ≤ ub ∧ value lb < ⊤ ∧ ⊥ < value ub := by
  unfold ofBounds
  split_ifs with h
  · exact Or.inl rfl
  · simp only [Bool.or_eq_true, not_or, decide_eq_true_iff] at h
    obtain ⟨⟨⟨⟨hl, hu⟩, hlt⟩, hinf⟩, hneg⟩ := h
    rw [Bool.not_eq_true] at hl hu
    refine Or.inr ⟨le_of_not_lt hu hl hlt, lt_top_iff_ne_top.2 fun htop => hinf ?_,
      bot_lt_iff_ne_bot.2 fun hbot => hneg ?_⟩
    · exact beq_iff.2 ⟨hl, rfl, htop⟩
    · exact beq_iff.2 ⟨hu, rfl, hbot⟩

/-- Bounds of an interval still make one up when they move outward. -/
theorem ofBounds_isSubset_ofBounds {lb' ub' : Float} (hlb : lb' ≤ lb) (hub : ub ≤ ub') :
    (ofBounds lb ub).isSubset (ofBounds lb' ub') = true := by
  rcases ofBounds_cases lb ub with hempty | ⟨hle, htop, hbot⟩
  · rw [hempty]
    rfl
  · rw [ofBounds_of_le (le_trans hlb (le_trans hle hub)) ((le_iff.1 hlb).2.2.trans_lt htop)
      (hbot.trans_le (le_iff.1 hub).2.2)]
    exact ofBounds_isSubset hlb hub

theorem Numeric.lt_of_isDegenerate (ha : a.Numeric) (h : a.isDegenerate = false) :
    a.lb < a.ub := by
  rw [isDegenerate, Bool.or_eq_false_iff] at h
  have hle := le_of_not_lt ha.ub ha.lb (of_decide_eq_false h.1)
  refine lt_iff.2 ⟨ha.lb, ha.ub, lt_of_le_of_ne (le_iff.1 hle).2.2 fun heq => ?_⟩
  exact Bool.eq_false_iff.1 h.2 (beq_iff.2 ⟨ha.lb, ha.ub, heq⟩)

theorem contains_of_isSubset {t : Float} (h : a.isSubset b = true) (ht : a.contains t = true) :
    b.contains t = true := by
  obtain ⟨hlow, hup⟩ := contains_iff.1 ht
  obtain ⟨hlb, hub⟩ := (isSubset_iff.1 h).resolve_left (not_lt_of_le (le_trans hlow hup))
  exact contains_iff.2 ⟨le_trans hlb hlow, le_trans hup hub⟩

theorem Numeric.contains_lb (ha : a.Numeric) (h : a.isEmpty = false) : a.contains a.lb = true :=
  contains_iff.2 ⟨le_self ha.lb, le_of_not_lt ha.ub ha.lb (of_decide_eq_false h)⟩

/-! ### Intersections and hulls -/

theorem inter_of_isEmpty_left (h : a.ub < a.lb) : a ∩ b = empty := by
  obtain ⟨hub, hlb, -⟩ := lt_iff.1 h
  exact ofBounds_of_crossed (lt_of_le_of_lt (min_le_left hub) (lt_of_lt_of_le h (le_max_left hlb)))

theorem inter_of_isEmpty_right (h : b.ub < b.lb) : a ∩ b = empty := by
  obtain ⟨hub, hlb, -⟩ := lt_iff.1 h
  exact ofBounds_of_crossed
    (lt_of_le_of_lt (min_le_right hub) (lt_of_lt_of_le h (le_max_right hlb)))

theorem inter_isSubset_of_left (h : a.isSubset c = true) : (a ∩ b).isSubset c = true := by
  rcases isSubset_iff.1 h with hempty | ⟨hlb, hub⟩
  · rw [inter_of_isEmpty_left hempty]
    rfl
  · exact ofBounds_isSubset (le_trans hlb (le_max_left (le_iff.1 hlb).2.1))
      (le_trans (min_le_left (le_iff.1 hub).1) hub)

theorem inter_isSubset_of_right (h : b.isSubset c = true) : (a ∩ b).isSubset c = true := by
  rcases isSubset_iff.1 h with hempty | ⟨hlb, hub⟩
  · rw [inter_of_isEmpty_right hempty]
    rfl
  · exact ofBounds_isSubset (le_trans hlb (le_max_right (le_iff.1 hlb).2.1))
      (le_trans (min_le_right (le_iff.1 hub).1) hub)

theorem inter_isSubset_inter (hac : a.isSubset c = true) (hbd : b.isSubset d = true) :
    (a ∩ b).isSubset (c ∩ d) = true := by
  rcases isSubset_iff.1 hac with hempty | ⟨hlb, hub⟩
  · rw [inter_of_isEmpty_left hempty]
    rfl
  · rcases isSubset_iff.1 hbd with hempty | ⟨hlb', hub'⟩
    · rw [inter_of_isEmpty_right hempty]
      rfl
    · refine ofBounds_isSubset_ofBounds (max_le ?_ ?_) (le_min ?_ ?_)
      · exact le_trans hlb (le_max_left (le_iff.1 hlb).2.1)
      · exact le_trans hlb' (le_max_right (le_iff.1 hlb').2.1)
      · exact le_trans (min_le_left (le_iff.1 hub).1) hub
      · exact le_trans (min_le_right (le_iff.1 hub').1) hub'

theorem inter_eq_ofBounds (a b : Interval) :
    a ∩ b = ofBounds (Binary64.max a.lb b.lb) (Binary64.min a.ub b.ub) := rfl

/-- An intersection is empty, or runs from the greater start to the smaller end. -/
theorem inter_cases (a b : Interval) : a ∩ b = empty ∨
    Binary64.max a.lb b.lb ≤ Binary64.min a.ub b.ub ∧
      a ∩ b = ⟨Binary64.max a.lb b.lb, Binary64.min a.ub b.ub⟩ := by
  refine (ofBounds_cases (Binary64.max a.lb b.lb) (Binary64.min a.ub b.ub)).imp_right ?_
  rintro ⟨hle, htop, hbot⟩
  exact ⟨hle, ofBounds_of_le hle htop hbot⟩

theorem inter_eq_left (hlt : a.lb < a.ub) (hlb : b.lb ≤ a.lb) (hub : a.ub ≤ b.ub) : a ∩ b = a := by
  have hmax : Binary64.max a.lb b.lb = a.lb := by
    rw [Binary64.max, if_neg (Bool.eq_false_iff.1 (lt_iff.1 hlt).1), if_neg (not_lt_of_le hlb)]
  have hmin : Binary64.min a.ub b.ub = a.ub := by
    rw [Binary64.min, if_neg (Bool.eq_false_iff.1 (lt_iff.1 hlt).2.1), if_neg (not_lt_of_le hub)]
  rw [inter_eq_ofBounds, hmax, hmin]
  exact ofBounds_of_lt hlt

/-- What one interval has in common with another, the other has in common with it. -/
theorem isEmpty_inter_swap (h : (a ∩ b).isEmpty = false) : (b ∩ a).isEmpty = false := by
  rcases ofBounds_cases (Binary64.max a.lb b.lb) (Binary64.min a.ub b.ub) with
    hempty | ⟨hle, htop, hbot⟩
  · rw [show a ∩ b = empty from hempty] at h
    contradiction
  · have hmax := max_comm_le (le_iff.1 hle).1
    have hmin := le_min_comm (le_iff.1 hle).2.1
    have hle' := le_trans hmax (le_trans hle hmin)
    change (ofBounds _ _).isEmpty = false
    rw [ofBounds_of_le hle' ((le_iff.1 hmax).2.2.trans_lt htop)
      (hbot.trans_le (le_iff.1 hmin).2.2)]
    exact decide_eq_false (not_lt_of_le hle')

theorem isEmpty_left_of_inter (h : (a ∩ b).isEmpty = false) : a.isEmpty = false := by
  refine Bool.eq_false_iff.2 fun ha => Bool.eq_false_iff.1 h ?_
  rw [inter_of_isEmpty_left (of_decide_eq_true ha)]
  rfl

theorem isSubset_union_left (ha : a.Numeric) : a.isSubset (a ∪ b) = true := by
  change a.isSubset (hull a b) = true
  unfold hull
  split_ifs with hempty
  · exact isSubset_iff.2 (Or.inl (of_decide_eq_true hempty))
  · exact ha.isSubset_self
  · exact isSubset_iff.2 (Or.inr ⟨min_le_left ha.lb, le_max_left ha.ub⟩)

theorem isSubset_union_right (hb : b.Numeric) : b.isSubset (a ∪ b) = true := by
  change b.isSubset (hull a b) = true
  unfold hull
  split_ifs with hempty hempty'
  · exact hb.isSubset_self
  · exact isSubset_iff.2 (Or.inl (of_decide_eq_true hempty'))
  · exact isSubset_iff.2 (Or.inr ⟨min_le_right hb.lb, le_max_right hb.ub⟩)

theorem union_isSubset (hac : a.isSubset c = true) (hbc : b.isSubset c = true) :
    (a ∪ b).isSubset c = true := by
  change (hull a b).isSubset c = true
  unfold hull
  split_ifs with hempty hempty'
  · exact hbc
  · exact hac
  · obtain ⟨hlb, hub⟩ := (isSubset_iff.1 hac).resolve_left fun h => hempty (decide_eq_true h)
    obtain ⟨hlb', hub'⟩ := (isSubset_iff.1 hbc).resolve_left fun h => hempty' (decide_eq_true h)
    exact isSubset_iff.2 (Or.inr ⟨le_min hlb hlb', max_le hub hub'⟩)

theorem union_isSubset_iff {c : Interval} (ha : a.Numeric) (hb : b.Numeric) :
    (a ∪ b).isSubset c = true ↔ a.isSubset c = true ∧ b.isSubset c = true := by
  constructor
  · intro h
    exact ⟨isSubset_trans (isSubset_union_left ha) h, isSubset_trans (isSubset_union_right hb) h⟩
  · rintro ⟨hac, hbc⟩
    exact union_isSubset hac hbc

/-- An operation that keeps numbers as bounds, and inclusions. -/
structure KeepsInclusion (op : Interval → Interval → Interval) : Prop where
  numeric {a b : Interval} : a.Numeric → b.Numeric → (op a b).Numeric
  mono {a b c d : Interval} : c.Numeric → d.Numeric → a.isSubset c = true → b.isSubset d = true →
    (op a b).isSubset (op c d) = true

theorem keepsInclusion_union : KeepsInclusion (· ∪ ·) where
  numeric := Numeric.union
  mono hc hd hac hbd := union_isSubset (isSubset_trans hac (isSubset_union_left hc))
    (isSubset_trans hbd (isSubset_union_right hd))

theorem keepsInclusion_inter : KeepsInclusion (· ∩ ·) where
  numeric _ _ := numeric_inter ..
  mono _ _ hac hbd := inter_isSubset_inter hac hbd

/-- The halves of a split are parts of the interval. -/
theorem isSubset_of_bisect? {ratio : Float} {lo hi : Interval}
    (h : a.bisect? ratio = some (lo, hi)) : lo.isSubset a = true ∧ hi.isSubset a = true := by
  unfold bisect? at h
  dsimp only at h
  -- as for the members, only that the split lies between the bounds matters
  generalize (if a.isUnbounded then a.mid else a.lb * (1.0 - ratio) + a.ub * ratio) = x at h
  split_ifs at h with hempty hx
  obtain ⟨rfl, rfl⟩ := Prod.mk.inj (Option.some.inj h)
  simp only [Bool.and_eq_true, decide_eq_true_eq] at hx
  obtain ⟨hlow, hup⟩ := hx
  exact ⟨isSubset_iff.2 (Or.inr ⟨le_self (lt_iff.1 hlow).1, le_of_lt hup⟩),
    isSubset_iff.2 (Or.inr ⟨le_of_lt hlow, le_self (lt_iff.1 hup).2.1⟩)⟩

end Interval

end FlowTube
