import FlowTube.Proofs.Enclosure.Exact
import FlowTube.Proofs.Interval.Inclusion
import FlowTube.Proofs.Interval.Midpoint

/-! Inclusion of intervals, and operations that respect it. The set operations of binary64 intervals
do so for all bounds, and sums, differences and products with the empty interval are empty. That
wider operands give wider results, and that an interval is cut in pieces of itself, are promises of
their own: rounding may break them, as where the width of an interval is out of range. Such
operators may be any, and without rounding there are the closed intervals of reals, whose results
are the least with all exact ones. -/

namespace FlowTube

namespace Enclosure

/-- The set operations respect inclusion. An interval may have bounds that are not numbers; then it
is included nowhere, not even in itself. -/
class Inclusive (ι : Type) [Enclosure ι] : Prop where
  isSubset_trans {a b c : ι} : isSubset a b = true → isSubset b c = true → isSubset a c = true
  isSubset_self {a b : ι} : isSubset a b = true → isSubset a a = true
  isSubset_of_isEmpty {a b : ι} : isEmpty a = true → isSubset a b = true
  isSubset_of_beq {a b : ι} : (a == b) = true → isSubset b a = true
  isEmpty_empty : isEmpty (empty : ι) = true
  isEmpty_of_isSubset {a b : ι} : isSubset a b = true → isEmpty b = true → isEmpty a = true
  isBounded_of_isSubset {a b : ι} : isSubset a b = true → isEmpty a = false →
    isBounded b = true → isBounded a = true
  inter_isSubset_left {a b c : ι} : isSubset a c = true → isSubset (a ∩ b) c = true
  inter_isSubset_right {a b c : ι} : isSubset b c = true → isSubset (a ∩ b) c = true
  inter_isSubset_inter {a b c d : ι} : isSubset a c = true → isSubset b d = true →
    isSubset (a ∩ b) (c ∩ d) = true
  union_isSubset {a b c : ι} : isSubset a c = true → isSubset b c = true →
    isSubset (a ∪ b) c = true
  point_isSubset_self (x : Float) : isSubset (point x : ι) (point x) = true
  fromZero_isSubset_self (a : ι) : isSubset (fromZero a) (fromZero a) = true

/-- The arithmetic respects inclusion, and the pieces of an interval are parts of it. -/
class Isotone (ι : Type) [Enclosure ι] : Prop extends Inclusive ι where
  add_isSubset_add {a b c d : ι} : isSubset a c = true → isSubset b d = true →
    isSubset (a + b) (c + d) = true
  sub_isSubset_sub {a b c d : ι} : isSubset a c = true → isSubset b d = true →
    isSubset (a - b) (c - d) = true
  mul_isSubset_mul {a b c d : ι} : isSubset a c = true → isSubset b d = true →
    isSubset (a * b) (c * d) = true
  isSubset_of_mem_subdivide {a piece : ι} {n : ℕ} : isSubset a a = true → isBounded a = true →
    piece ∈ subdivide a n → isSubset piece a = true

/-- Nothing comes of nothing. -/
class Strict (ι : Type) [Enclosure ι] : Prop extends Inclusive ι where
  isEmpty_add {a b : ι} : isEmpty a = true ∨ isEmpty b = true → isEmpty (a + b) = true
  isEmpty_sub {a b : ι} : isEmpty a = true ∨ isEmpty b = true → isEmpty (a - b) = true
  isEmpty_mul {a b : ι} : isEmpty a = true ∨ isEmpty b = true → isEmpty (a * b) = true

variable {ι : Type} [Enclosure ι]

theorem Inclusive.isEmpty_inter [Inclusive ι] {a b : ι} (h : isEmpty a = true ∨ isEmpty b = true) :
    isEmpty (a ∩ b) = true := by
  have hnone : isSubset (a ∩ b) empty = true := h.elim
    (fun ha => inter_isSubset_left (isSubset_of_isEmpty ha))
    (fun hb => inter_isSubset_right (isSubset_of_isEmpty hb))
  exact isEmpty_of_isSubset hnone isEmpty_empty

variable [Isotone ι]

theorem width_isSubset_self (t : Interval) : isSubset (width t : ι) (width t) = true :=
  Isotone.sub_isSubset_sub (Inclusive.point_isSubset_self t.ub) (Inclusive.point_isSubset_self t.lb)

theorem elapsed_isSubset_self (t : Interval) : isSubset (elapsed t : ι) (elapsed t) = true :=
  Inclusive.fromZero_isSubset_self (width t)

end Enclosure

/-! ### Binary64 intervals -/

namespace Interval

open Binary64 (isFinite_of_between)

variable {a b : Interval}

theorem isSubset_of_isEmpty (h : a.isEmpty = true) : a.isSubset b = true :=
  isSubset_iff.2 (Or.inl (of_decide_eq_true h))

/-- A part of a bounded interval is bounded, or it is empty. -/
theorem isBounded_of_isSubset (h : a.isSubset b = true) (ha : a.isEmpty = false)
    (hb : b.isBounded = true) : a.isBounded = true := by
  rcases isSubset_iff.1 h with hempty | ⟨hlb, hub⟩
  · rw [isEmpty, decide_eq_true hempty] at ha
    contradiction
  · obtain ⟨fl, fu⟩ := isFinite_bounds (Binary64.le_iff.1 hlb).1 (Binary64.le_iff.1 hub).2.1 hb
    have hle := Binary64.le_of_not_lt (Binary64.le_iff.1 hub).1 (Binary64.le_iff.1 hlb).2.1
      (of_decide_eq_false ha)
    rw [isBounded, ha, isUnbounded_of_isFinite
      (isFinite_of_between fl fu hlb (Binary64.le_trans hle hub))
      (isFinite_of_between fl fu (Binary64.le_trans hlb hle) hub)]
    rfl

instance : Enclosure.Inclusive Interval where
  isSubset_trans := isSubset_trans
  isSubset_self h := (numeric_of_isSubset h).isSubset_self
  isSubset_of_isEmpty := isSubset_of_isEmpty
  isSubset_of_beq := isSubset_of_beq
  isEmpty_empty := rfl
  isEmpty_of_isSubset := isEmpty_of_isSubset
  isBounded_of_isSubset := isBounded_of_isSubset
  inter_isSubset_left := inter_isSubset_of_left
  inter_isSubset_right := inter_isSubset_of_right
  inter_isSubset_inter := inter_isSubset_inter
  union_isSubset := union_isSubset
  point_isSubset_self _ := (numeric_ofBounds _ _).isSubset_self
  fromZero_isSubset_self _ := (numeric_ofBounds _ _).isSubset_self

end Interval

instance {o : Operators} : Enclosure.Inclusive (Rounded o) where
  __ := (inferInstance : Enclosure.Inclusive Interval)

/-- A result with an empty operand is empty. -/
structure Operators.Strict (o : Operators) : Prop where
  add {a b : Interval} : a.isEmpty = true ∨ b.isEmpty = true → (o.add a b).isEmpty = true
  sub {a b : Interval} : a.isEmpty = true ∨ b.isEmpty = true → (o.sub a b).isEmpty = true
  mul {a b : Interval} : a.isEmpty = true ∨ b.isEmpty = true → (o.mul a b).isEmpty = true

namespace Operators

variable {a b : Interval}

theorem strict_standard : standard.Strict := by
  have hadd {a b : Interval} (h : a.isEmpty = true ∨ b.isEmpty = true) :
      (Interval.add a b).isEmpty = true := by
    rw [Interval.add, if_pos (Bool.or_eq_true _ _ ▸ h)]
    rfl
  refine ⟨hadd, fun {a b} h => hadd (h.imp_right fun hb => ?_), fun {a b} h => ?_⟩
  · rw [Interval.neg, if_pos hb]
    exact hb
  · change (Interval.mul a b).isEmpty = true
    rw [Interval.mul, if_pos (Bool.or_eq_true _ _ ▸ h)]
    rfl

/-- There is no exact result that an empty one would miss. -/
theorem isEmpty_guarded {exact : ℝ → ℝ → ℝ} {op : Interval → Interval → Interval}
    (h : a.isEmpty = true ∨ b.isEmpty = true) (hop : (op a b).isEmpty = true) :
    (guarded exact op a b).isEmpty = true := by
  have heq : guarded exact op a b = op a b := by
    refine guarded_eq rfl fun r hr s hs => ?_
    rw [Interval.isEmpty_of_mem hr, Interval.isEmpty_of_mem hs] at h
    exact absurd h (by decide)
  rwa [heq]

theorem strict_cautious : cautious.Strict where
  add h := isEmpty_guarded h (strict_standard.add h)
  sub h := isEmpty_guarded h (strict_standard.sub h)
  mul h := isEmpty_guarded h (strict_standard.mul h)

end Operators

theorem Rounded.strict {o : Operators} (h : o.Strict) : Enclosure.Strict (Rounded o) where
  isEmpty_add := h.add
  isEmpty_sub := h.sub
  isEmpty_mul := h.mul

/-- Wider operands give wider results. -/
structure Operators.Isotone (o : Operators) : Prop where
  add {a b c d : Interval} : a.isSubset c = true → b.isSubset d = true →
    (o.add a b).isSubset (o.add c d) = true
  sub {a b c d : Interval} : a.isSubset c = true → b.isSubset d = true →
    (o.sub a b).isSubset (o.sub c d) = true
  mul {a b c d : Interval} : a.isSubset c = true → b.isSubset d = true →
    (o.mul a b).isSubset (o.mul c d) = true

/-- Intervals with other operators and another way to cut; all else stays. -/
def Divided (_ : Operators) (_ : Interval → ℕ → List Interval) : Type := Interval

namespace Divided

variable {o : Operators} {cut : Interval → ℕ → List Interval}

instance : Enclosure (Divided o cut) where
  __ := (inferInstance : Enclosure (Rounded o))
  subdivide := cut

theorem isotone (ho : o.Isotone) (hcut : ∀ (a : Interval) (n : ℕ), a.Numeric →
    a.isBounded = true → ∀ piece ∈ cut a n, piece.isSubset a = true) :
    Enclosure.Isotone (Divided o cut) where
  __ := (inferInstance : Enclosure.Inclusive Interval)
  add_isSubset_add := ho.add
  sub_isSubset_sub := ho.sub
  mul_isSubset_mul := ho.mul
  isSubset_of_mem_subdivide ha hb hpiece :=
    hcut _ _ (Interval.numeric_of_isSubset ha) hb _ hpiece

end Divided

/-! ### Closed intervals of reals -/

/-- A connected set of reals with all its limits. -/
structure ClosedInterval extends RealInterval where
  isClosed : IsClosed members

namespace ClosedInterval

variable {a b c d : ClosedInterval}

/-- The least closed interval around another one. -/
def around (a : RealInterval) : ClosedInterval where
  members := closure a.members
  connected := a.connected.isPreconnected.closure.ordConnected
  isClosed := isClosed_closure

theorem around_subset {a : RealInterval} (h : a.members ⊆ b.members) :
    (around a).members ⊆ b.members :=
  closure_minimal h b.isClosed

theorem around_mono {a b : RealInterval} (h : a.members ⊆ b.members) :
    (around a).members ⊆ (around b).members :=
  closure_mono h

/-- The `k`-th of the reals that cut `a` in `n` parts. -/
noncomputable def cut (a : ClosedInterval) (n k : ℕ) : ℝ :=
  sInf a.members + (sSup a.members - sInf a.members) * k / n

/-- The part between two reals. -/
def between (a : ClosedInterval) (l u : ℝ) : ClosedInterval where
  members := a.members ∩ Set.Icc l u
  connected := a.connected.inter Set.ordConnected_Icc
  isClosed := a.isClosed.inter isClosed_Icc

/-- Each operation gives the least closed interval with its results; pieces are equally wide. -/
noncomputable instance : Enclosure ClosedInterval where
  add a b := around (a.toRealInterval + b.toRealInterval)
  sub a b := around (a.toRealInterval - b.toRealInterval)
  mul a b := around (a.toRealInterval * b.toRealInterval)
  div a b := around (a.toRealInterval / b.toRealInterval)
  inter a b := ⟨a.toRealInterval ∩ b.toRealInterval, a.isClosed.inter b.isClosed⟩
  union a b := around (a.toRealInterval ∪ b.toRealInterval)
  beq a b := a.toRealInterval == b.toRealInterval
  empty := around Enclosure.empty
  whole := around Enclosure.whole
  ofInterval a := around (Enclosure.ofInterval a)
  fromZero a := around (Enclosure.fromZero a.toRealInterval)
  ends a := (around (Enclosure.ends a.toRealInterval).1, around (Enclosure.ends a.toRealInterval).2)
  span a b := around (Enclosure.span a.toRealInterval b.toRealInterval)
  isEmpty a := Enclosure.isEmpty a.toRealInterval
  isUnbounded a := Enclosure.isUnbounded a.toRealInterval
  isDegenerate a := Enclosure.isDegenerate a.toRealInterval
  isSubset a b := Enclosure.isSubset a.toRealInterval b.toRealInterval
  diam a := Enclosure.diam a.toRealInterval
  subdivide a n := (List.range n).map fun k => a.between (a.cut n k) (a.cut n (k + 1))
  grow delta a := around (Enclosure.grow delta a.toRealInterval)

open Classical in
theorem isSubset_iff : Enclosure.isSubset a b = true ↔ a.members ⊆ b.members := decide_eq_true_iff

open Classical in
theorem isEmpty_iff : Enclosure.isEmpty a = true ↔ a.members = ∅ := decide_eq_true_iff

theorem isSubset_self (a : ClosedInterval) : Enclosure.isSubset a a = true :=
  isSubset_iff.2 subset_rfl

/-- Bounded is what has members, a least and a greatest one. -/
theorem isBounded_iff : Enclosure.isBounded a = true ↔
    (∃ r, IsLeast a.members r) ∧ ∃ r, IsGreatest a.members r := by
  classical
  have hempty : Enclosure.isEmpty a = decide (a.members = ∅) := rfl
  have hunbounded : Enclosure.isUnbounded a = decide (a.members.Nonempty ∧
    ¬((∃ r, IsLeast a.members r) ∧ ∃ r, IsGreatest a.members r)) := rfl
  rw [Enclosure.isBounded, hempty, hunbounded, Bool.and_eq_true, Bool.not_eq_true',
    Bool.not_eq_true', decide_eq_false_iff_not, decide_eq_false_iff_not, not_and_not_right]
  constructor
  · rintro ⟨hne, h⟩
    exact h (Set.nonempty_iff_ne_empty.2 hne)
  · intro h
    obtain ⟨r, hr⟩ := h.1
    exact ⟨Set.nonempty_iff_ne_empty.1 ⟨r, hr.1⟩, fun _ => h⟩

/-- A part of a bounded interval has its infimum and its supremum. -/
theorem isBounded_of_isSubset (h : Enclosure.isSubset a b = true)
    (ha : Enclosure.isEmpty a = false) (hb : Enclosure.isBounded b = true) :
    Enclosure.isBounded a = true := by
  obtain ⟨⟨l, hl⟩, u, hu⟩ := isBounded_iff.1 hb
  have hsub := isSubset_iff.1 h
  have hne : a.members.Nonempty :=
    Set.nonempty_iff_ne_empty.2 fun he => Bool.eq_false_iff.1 ha (isEmpty_iff.2 he)
  exact isBounded_iff.2
    ⟨⟨_, a.isClosed.isLeast_csInf hne (BddBelow.mono hsub ⟨l, hl.2⟩)⟩,
      _, a.isClosed.isGreatest_csSup hne (BddAbove.mono hsub ⟨u, hu.2⟩)⟩

/-- The hull is in every closed interval with both operands. -/
theorem union_isSubset (hac : Enclosure.isSubset a c = true) (hbc : Enclosure.isSubset b c = true) :
    Enclosure.isSubset (a ∪ b) c = true :=
  isSubset_iff.2 (around_subset (convexHull_min
    (Set.union_subset (isSubset_iff.1 hac) (isSubset_iff.1 hbc)) c.connected.convex))

instance : Enclosure.Isotone ClosedInterval where
  isSubset_trans hab hbc := isSubset_iff.2 ((isSubset_iff.1 hab).trans (isSubset_iff.1 hbc))
  isSubset_self _ := isSubset_self _
  isSubset_of_isEmpty h := isSubset_iff.2 ((isEmpty_iff.1 h).subset.trans (Set.empty_subset _))
  isSubset_of_beq h := isSubset_iff.2 (congrArg RealInterval.members (RealInterval.beq_iff.1 h)).ge
  isEmpty_empty := by
    have hnone : (Enclosure.empty : RealInterval).members = ∅ :=
      Set.eq_empty_of_forall_notMem fun _ => Interval.not_mem_empty
    have hempty : (Enclosure.empty : ClosedInterval).members = ∅ := by
      change closure (Enclosure.empty : RealInterval).members = ∅
      rw [hnone, closure_empty]
    exact isEmpty_iff.2 hempty
  isEmpty_of_isSubset h hb := isEmpty_iff.2
    (Set.subset_empty_iff.1 ((isSubset_iff.1 h).trans (isEmpty_iff.1 hb).subset))
  isBounded_of_isSubset := isBounded_of_isSubset
  inter_isSubset_left h := isSubset_iff.2 (Set.inter_subset_left.trans (isSubset_iff.1 h))
  inter_isSubset_right h := isSubset_iff.2 (Set.inter_subset_right.trans (isSubset_iff.1 h))
  inter_isSubset_inter hac hbd :=
    isSubset_iff.2 (Set.inter_subset_inter (isSubset_iff.1 hac) (isSubset_iff.1 hbd))
  union_isSubset := union_isSubset
  point_isSubset_self _ := isSubset_self _
  fromZero_isSubset_self _ := isSubset_self _
  add_isSubset_add hac hbd :=
    isSubset_iff.2 (around_mono (Set.image2_subset (isSubset_iff.1 hac) (isSubset_iff.1 hbd)))
  sub_isSubset_sub hac hbd :=
    isSubset_iff.2 (around_mono (Set.image2_subset (isSubset_iff.1 hac) (isSubset_iff.1 hbd)))
  mul_isSubset_mul hac hbd :=
    isSubset_iff.2 (around_mono (Set.image2_subset (isSubset_iff.1 hac) (isSubset_iff.1 hbd)))
  isSubset_of_mem_subdivide _ _ h := by
    obtain ⟨k, -, rfl⟩ := List.mem_map.1 h
    exact isSubset_iff.2 Set.inter_subset_left

end ClosedInterval

end FlowTube
