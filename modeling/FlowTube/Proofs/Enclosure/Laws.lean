import FlowTube.Contractor.Picard
import FlowTube.Proofs.Interval.Subdivision

/-! What interval types promise about the reals in their intervals. The set operations keep
members for every rounding of the bounds (`Lawful`); that sums, differences and products of
members are members of the rounded results is a promise of its own (`Sound`), so that what
rests on it says so. A box holds a state if each of its sides has the component there. -/

namespace FlowTube

namespace Enclosure

/-- The set operations keep members. -/
class Lawful (ι : Type) [Enclosure ι] [Membership ℝ ι] : Prop where
  isEmpty_of_mem {a : ι} {r : ℝ} : r ∈ a → isEmpty a = false
  mem_inter {a b : ι} {r : ℝ} : r ∈ a → r ∈ b → r ∈ a ∩ b
  mem_of_mem_inter {a b c : ι} {r : ℝ} : isEmpty b = false → isSubset b c = true → r ∈ a ∩ b → r ∈ b
  mem_union_left {a b : ι} {r : ℝ} : r ∈ a → r ∈ a ∪ b
  mem_union_right {a b : ι} {r : ℝ} : r ∈ b → r ∈ a ∪ b
  mem_of_isSubset {a b : ι} {r : ℝ} : isSubset a b = true → r ∈ a → r ∈ b
  mem_point {x : Float} : x.isFinite = true → Binary64.real x ∈ (point x : ι)
  mem_fromZero {a : ι} {r s : ℝ} : r ∈ a → 0 ≤ s → s ≤ r → s ∈ fromZero a
  exists_mem_subdivide {a : ι} {r : ℝ} {n : ℕ} : 0 < n → Interval.CountsUpTo n →
    isBounded a = true → r ∈ a → ∃ piece ∈ subdivide a n, r ∈ piece
  isClosed_members (a : ι) : IsClosed {r : ℝ | r ∈ a}

/-- The arithmetic contains every exact result. -/
class Sound (ι : Type) [Enclosure ι] [Membership ℝ ι] : Prop extends Lawful ι where
  mem_add {a b : ι} {r s : ℝ} : r ∈ a → s ∈ b → r + s ∈ a + b
  mem_sub {a b : ι} {r s : ℝ} : r ∈ a → s ∈ b → r - s ∈ a - b
  mem_mul {a b : ι} {r s : ℝ} : r ∈ a → s ∈ b → r * s ∈ a * b

end Enclosure

instance : Enclosure.Lawful Interval where
  isEmpty_of_mem := Interval.isEmpty_of_mem
  mem_inter := Interval.mem_inter
  mem_of_mem_inter := Interval.mem_of_mem_inter
  mem_union_left := Interval.mem_union_left
  mem_union_right := Interval.mem_union_right
  mem_of_isSubset := Interval.mem_of_isSubset
  mem_point := Interval.mem_point
  mem_fromZero := Interval.mem_fromZero
  exists_mem_subdivide := Interval.exists_mem_subdivide
  isClosed_members := Interval.isClosed_members

/-! ### Arbitrary operators -/

/-- A sum, a difference and a product of intervals. -/
structure Operators where
  add : Interval → Interval → Interval
  sub : Interval → Interval → Interval
  mul : Interval → Interval → Interval

namespace Operators

/-- Every result contains the exact results of the members of its operands. -/
structure Sound (o : Operators) : Prop where
  add {a b : Interval} {r s : ℝ} : r ∈ a → s ∈ b → r + s ∈ o.add a b
  sub {a b : Interval} {r s : ℝ} : r ∈ a → s ∈ b → r - s ∈ o.sub a b
  mul {a b : Interval} {r s : ℝ} : r ∈ a → s ∈ b → r * s ∈ o.mul a b

/-- The operators of intervals. -/
def standard : Operators := ⟨(· + ·), (· - ·), (· * ·)⟩

open Classical in
/-- The operation where its result contains the exact ones, and the whole line elsewhere. -/
noncomputable def guarded (exact : ℝ → ℝ → ℝ) (op : Interval → Interval → Interval)
    (a b : Interval) : Interval :=
  if ∀ r ∈ a, ∀ s ∈ b, exact r s ∈ op a b then op a b else .whole

theorem mem_guarded {exact : ℝ → ℝ → ℝ} {op : Interval → Interval → Interval} {a b : Interval}
    {r s : ℝ} (hr : r ∈ a) (hs : s ∈ b) : exact r s ∈ guarded exact op a b := by
  unfold guarded
  split_ifs with h
  · exact h r hr s hs
  · exact Interval.mem_whole

/-- A result with all exact results is kept. -/
theorem guarded_eq {exact : ℝ → ℝ → ℝ} {op : Interval → Interval → Interval} {a b c : Interval}
    (hc : op a b = c) (h : ∀ r ∈ a, ∀ s ∈ b, exact r s ∈ c) : guarded exact op a b = c := by
  subst hc
  exact if_pos h

/-- The operators of intervals, with the whole line for a result that would miss a real. -/
noncomputable def cautious : Operators where
  add := guarded (· + ·) standard.add
  sub := guarded (· - ·) standard.sub
  mul := guarded (· * ·) standard.mul

theorem sound_cautious : cautious.Sound := ⟨mem_guarded, mem_guarded, mem_guarded⟩

section Units

open FlowTube.Interval (point mem_point_zero mem_point_one)

variable {a : Interval}

/-! Results with zero and one are exact. -/

theorem cautious_zero_add (h : standard.add (point 0.0) a = a) :
    cautious.add (point 0.0) a = a := by
  refine guarded_eq h fun r hr s hs => ?_
  rw [mem_point_zero.1 hr]
  exact (zero_add s).symm ▸ hs

theorem cautious_sub_zero (h : standard.sub a (point 0.0) = a) :
    cautious.sub a (point 0.0) = a := by
  refine guarded_eq h fun r hr s hs => ?_
  rw [mem_point_zero.1 hs]
  exact (sub_zero r).symm ▸ hr

theorem cautious_mul_one (h : standard.mul a (point 1.0) = a) : cautious.mul a (point 1.0) = a := by
  refine guarded_eq h fun r hr s hs => ?_
  rw [mem_point_one.1 hs]
  exact (mul_one r).symm ▸ hr

end Units

end Operators

/-- Intervals with other operators; all that is not a sum, a difference or a product stays. -/
def Rounded (_ : Operators) : Type := Interval

namespace Rounded

variable {o : Operators}

instance : Enclosure (Rounded o) where
  __ := (inferInstance : Enclosure Interval)
  add := o.add
  sub := o.sub
  mul := o.mul

instance : Membership ℝ (Rounded o) := inferInstanceAs (Membership ℝ Interval)

theorem sound (h : o.Sound) : Enclosure.Sound (Rounded o) where
  __ := (inferInstance : Enclosure.Lawful Interval)
  mem_add := h.add
  mem_sub := h.sub
  mem_mul := h.mul

end Rounded

/-! ### Boxes -/

namespace Box

variable {ι : Type} [Membership ℝ ι]

/-- Each side has its component of the state. -/
def Holds (x : Box ι) (p : ℕ → ℝ) : Prop := ∀ j a, x[j]? = some a → p j ∈ a

variable {p : ℕ → ℝ} {x y : Box ι}

theorem holds_zipWith {op : ι → ι → ι}
    (h : ∀ j a b, x[j]? = some a → y[j]? = some b → p j ∈ op a b) :
    Holds (List.zipWith op x y) p := by
  intro j c hc
  obtain ⟨a, b, ha, hb, rfl⟩ := List.getElem?_zipWith_eq_some.1 hc
  exact h j a b ha hb

variable [Enclosure ι] [Enclosure.Lawful ι]

theorem Holds.inter (hx : Holds x p) (hy : Holds y p) : Holds (Box.inter x y) p :=
  holds_zipWith fun j a b ha hb => Enclosure.Lawful.mem_inter (hx j a ha) (hy j b hb)

theorem Holds.isEmpty (h : Holds x p) : Box.isEmpty x = false := by
  refine Bool.eq_false_iff.2 fun he => ?_
  obtain ⟨a, ha, hae⟩ := List.any_eq_true.1 he
  obtain ⟨j, hj⟩ := List.mem_iff_getElem?.1 ha
  rw [Enclosure.Lawful.isEmpty_of_mem (h j a hj)] at hae
  contradiction

end Box

end FlowTube
