import FlowTube.Proofs.Enclosure.Laws

/-! Interval types without rounding. Every operation gives exactly the reals that it stands for, and
an intersection is determined by its reals, so that one that removes nothing gives its operand back.
No type with binary64 bounds is exact, since the sum of two numbers need not be one. The connected
sets of reals are. -/

namespace FlowTube

namespace Enclosure

/-- The operations give exactly the reals that they stand for. Intervals may have several forms of
the same reals, as empty ones do; intersections have one. -/
class Exact (ι : Type) [Enclosure ι] [Membership ℝ ι] : Prop where
  mem_add {a b : ι} {r : ℝ} : r ∈ a + b ↔ ∃ p ∈ a, ∃ q ∈ b, p + q = r
  mem_sub {a b : ι} {r : ℝ} : r ∈ a - b ↔ ∃ p ∈ a, ∃ q ∈ b, p - q = r
  mem_mul {a b : ι} {r : ℝ} : r ∈ a * b ↔ ∃ p ∈ a, ∃ q ∈ b, p * q = r
  mem_inter {a b : ι} {r : ℝ} : r ∈ a ∩ b ↔ r ∈ a ∧ r ∈ b
  inter_ext {a b c d : ι} : (∀ r : ℝ, r ∈ a ∩ b ↔ r ∈ c ∩ d) → a ∩ b = c ∩ d
  mem_point {x : Float} {r : ℝ} : r ∈ (point x : ι) ↔ x.isFinite = true ∧ Binary64.real x = r
  mem_fromZero {a : ι} {r : ℝ} : r ∈ fromZero a ↔ 0 ≤ r ∧ ∃ s ∈ a, r ≤ s
  mem_of_isSubset {a b : ι} {r : ℝ} : isSubset a b = true → r ∈ a → r ∈ b
  beq_self (a : ι) : (a == a) = true

end Enclosure

/-- A single number is a real, or nothing if it is not finite. -/
theorem Interval.mem_point_iff {x : Float} {r : ℝ} :
    r ∈ point x ↔ x.isFinite = true ∧ Binary64.real x = r := by
  constructor
  · intro h
    obtain ⟨⟨hn, hlow⟩, -, hup⟩ := mem_ofBounds.1 h
    exact Binary64.real_of_value hn (le_antisymm hlow hup)
  · rintro ⟨hfinite, rfl⟩
    exact mem_point hfinite

/-! ### Connected sets of reals -/

/-- All reals between any two members are members; there may be a least one or not. -/
structure RealInterval where
  members : Set ℝ
  connected : members.OrdConnected

namespace RealInterval

instance : Membership ℝ RealInterval := ⟨fun a r => r ∈ a.members⟩

theorem ext {a b : RealInterval} (h : ∀ r : ℝ, r ∈ a ↔ r ∈ b) : a = b := by
  obtain ⟨s, hs⟩ := a
  obtain ⟨t, ht⟩ := b
  obtain rfl : s = t := Set.ext h
  rfl

/-- All results of a continuous operation on members. -/
def image (f : ℝ → ℝ → ℝ) (hf : Continuous fun p : ℝ × ℝ => f p.1 p.2) (a b : RealInterval) :
    RealInterval where
  members := Set.image2 f a.members b.members
  connected := by
    rw [← Set.image_prod, ← isPreconnected_iff_ordConnected]
    exact (a.connected.isPreconnected.prod b.connected.isPreconnected).image _ hf.continuousOn

/-- The least interval with the given reals. -/
def around (s : Set ℝ) : RealInterval where
  members := convexHull ℝ s
  connected := (convex_convexHull ℝ s).ordConnected

/-- The reals of an interval with binary64 bounds. -/
def ofInterval (a : Interval) : RealInterval where
  members := {r | r ∈ a}
  connected := ⟨fun _ hp _ hq _ hr => Interval.mem_of_between hp hq hr.1 hr.2⟩

/-- All reals from a member of the first to a member of the second. -/
def span (a b : RealInterval) : RealInterval where
  members := {r | (∃ p ∈ a, p ≤ r) ∧ ∃ q ∈ b, r ≤ q}
  connected := ⟨fun _ ⟨⟨p, hp, hpr⟩, _⟩ _ ⟨_, q, hq, hrq⟩ _ hr =>
    ⟨⟨p, hp, hpr.trans hr.1⟩, q, hq, hr.2.trans hrq⟩⟩

open Classical in
/-- The operations on sets. A width is given where it is a binary64 number, and a single piece
covers an interval. -/
noncomputable instance : Enclosure RealInterval where
  add := image (· + ·) continuous_add
  sub := image (· - ·) continuous_sub
  mul := image (· * ·) continuous_mul
  div a b := around {r | ∃ p ∈ a, ∃ q ∈ b, q ≠ 0 ∧ p / q = r}
  inter a b := ⟨a.members ∩ b.members, a.connected.inter b.connected⟩
  union a b := around (a.members ∪ b.members)
  beq a b := decide (a = b)
  empty := ofInterval Interval.empty
  whole := ofInterval Interval.whole
  ofInterval := ofInterval
  fromZero := span (ofInterval Interval.zero)
  ends a := (around {r | IsLeast a.members r}, around {r | IsGreatest a.members r})
  span := span
  isEmpty a := decide (a.members = ∅)
  isUnbounded a := decide (a.members.Nonempty ∧
    ¬((∃ r, IsLeast a.members r) ∧ ∃ r, IsGreatest a.members r))
  isDegenerate a := decide a.members.Subsingleton
  isSubset a b := decide (a.members ⊆ b.members)
  diam a :=
    if h : Bornology.IsBounded a.members ∧
        ∃ x : Float, x.isFinite = true ∧ Binary64.real x = Metric.diam a.members then h.2.choose
    else Binary64.inf
  subdivide a _ := [a]
  grow delta a :=
    -- Each member moves by up to the factor's excess over one, times half the width.
    around {r | ∃ p ∈ a, ∃ q ∈ a, ∃ s ∈ a, ∃ half, half + half = q - s ∧
      p + (Binary64.real delta - 1) * half = r}

open Classical in
theorem isSubset_iff {a b : RealInterval} :
    Enclosure.isSubset a b = true ↔ ∀ r : ℝ, r ∈ a → r ∈ b :=
  decide_eq_true_iff

open Classical in
theorem beq_iff {a b : RealInterval} : (a == b) = true ↔ a = b := decide_eq_true_iff

instance : Enclosure.Exact RealInterval where
  mem_add := Iff.rfl
  mem_sub := Iff.rfl
  mem_mul := Iff.rfl
  mem_inter := Iff.rfl
  inter_ext := ext
  mem_point := Interval.mem_point_iff
  mem_fromZero := and_congr_left fun _ =>
    ⟨fun ⟨_, hp, hpr⟩ => Interval.mem_point_zero.1 hp ▸ hpr,
      fun h => ⟨0, Interval.mem_point_zero.2 rfl, h⟩⟩
  mem_of_isSubset h hr := isSubset_iff.1 h _ hr
  beq_self _ := beq_iff.2 rfl

end RealInterval

end FlowTube
