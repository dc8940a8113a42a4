import FlowTube.Proofs.Contractor.Shape
import FlowTube.Proofs.Enclosure.Isotone
import FlowTube.Proofs.Tube.Regular
import FlowTube.Proofs.TubeVector.Timed

/-! Boxes inside others, side by side, and tubes of one shape inside others, gate by gate and
codomain by codomain. The operations on boxes respect this wherever the intervals do, and so does a
write of a part of a slice. Whatever contractions write is an intersection with what was there: so
they lead from a tube to one that lies in it, and an empty codomain stays empty. -/

namespace FlowTube

variable {ι : Type} [Enclosure ι]

open Enclosure.Inclusive

/-! ### Boxes -/

/-- Side by side a part. -/
def Box.LiesIn (y x : Box ι) : Prop := List.Forall₂ (fun b a => Enclosure.isSubset b a = true) y x

namespace Box

variable {x y z a b : Box ι}

section Inclusive

variable [Enclosure.Inclusive ι]

theorem LiesIn.trans (hzy : z.LiesIn y) (hyx : y.LiesIn x) : z.LiesIn x :=
  forall₂_trans hzy hyx fun _ _ _ => isSubset_trans

theorem LiesIn.self (h : y.LiesIn x) : y.LiesIn y := by
  unfold LiesIn at h ⊢
  induction h with
  | nil => exact .nil
  | cons h _ ih => exact .cons (isSubset_self h) ih

theorem LiesIn.isEmpty (h : y.LiesIn x) (hx : Box.isEmpty x = true) : Box.isEmpty y = true := by
  unfold LiesIn at h
  induction h with
  | nil => exact hx
  | cons h _ ih =>
    rw [Box.isEmpty, List.any_cons, Bool.or_eq_true] at hx ⊢
    exact hx.imp (isEmpty_of_isSubset h) ih

theorem LiesIn.isBounded (h : y.LiesIn x) (hy : Box.isEmpty y = false)
    (hx : Box.isBounded x = true) : Box.isBounded y = true := by
  unfold LiesIn at h
  induction h with
  | nil => exact hx
  | cons h _ ih =>
    rw [Box.isEmpty, List.any_cons, Bool.or_eq_false_iff] at hy
    rw [Box.isBounded, List.all_cons, Bool.and_eq_true] at hx ⊢
    exact ⟨isBounded_of_isSubset h hy.1 hx.1, ih hy.2 hx.2⟩

theorem liesIn_of_beq (h : (y == x) = true) : x.LiesIn y := by
  unfold LiesIn
  induction y generalizing x with
  | nil =>
    cases x with
    | nil => exact .nil
    | cons a x => contradiction
  | cons b y ih =>
    cases x with
    | nil => contradiction
    | cons a x =>
      rw [List.cons_beq_cons, Bool.and_eq_true] at h
      exact .cons (isSubset_of_beq h.1) (ih h.2)

theorem LiesIn.inter (hyx : y.LiesIn x) (hba : b.LiesIn a) :
    (Box.inter y b).LiesIn (Box.inter x a) :=
  forall₂_zipWith (fun _ _ _ _ => inter_isSubset_inter) hyx hba

theorem LiesIn.inter_left (h : y.LiesIn x) (hlen : y.length ≤ b.length) :
    (Box.inter y b).LiesIn x := by
  unfold LiesIn at h
  induction h generalizing b with
  | nil => exact .nil
  | cons h _ ih =>
    cases b with
    | nil => contradiction
    | cons c b => exact .cons (inter_isSubset_left h) (ih (Nat.le_of_succ_le_succ hlen))

theorem LiesIn.hull (ha : a.LiesIn x) (hb : b.LiesIn x) : (Box.hull a b).LiesIn x := by
  unfold LiesIn at ha hb
  induction ha generalizing b with
  | nil => exact .nil
  | cons ha _ ih =>
    cases hb with
    | cons hb hrest => exact .cons (union_isSubset ha hb) (ih hrest)

/-- A side may be replaced by a part of it. -/
theorem LiesIn.set (h : y.LiesIn x) {k : ℕ} {piece : ι}
    (hpiece : Enclosure.isSubset piece (y.getD k Enclosure.empty) = true) :
    LiesIn (y.set k piece) x := by
  unfold LiesIn at h ⊢
  induction h generalizing k with
  | nil => exact .nil
  | cons h hrest ih =>
    cases k with
    | zero => exact .cons (isSubset_trans hpiece h) hrest
    | succ k => exact .cons h (ih hpiece)

/-- Nothing lies in every box. -/
theorem liesIn_nothing (hlen : y.length = x.length) :
    LiesIn (y.map fun _ => (Enclosure.empty : ι)) x := by
  refine List.forall₂_map_left_iff.2 (List.forall₂_iff_get.2 ⟨hlen, fun _ _ _ => ?_⟩)
  exact isSubset_of_isEmpty isEmpty_empty

end Inclusive

/-- Less is reached from a smaller box with fewer slopes. -/
theorem LiesIn.step [Enclosure.Isotone ι] (hyx : y.LiesIn x) (hba : b.LiesIn a) {h : ι}
    (hh : Enclosure.isSubset h h = true) (forward : Bool) :
    (Box.step forward y b h).LiesIn (Box.step forward x a h) := by
  refine forall₂_zipWith (fun e' e v' v he hv => ?_) hyx hba
  have hmul := Enclosure.Isotone.mul_isSubset_mul hh hv
  cases forward with
  | true => exact Enclosure.Isotone.add_isSubset_add he hmul
  | false => exact Enclosure.Isotone.sub_isSubset_sub he hmul

end Box

/-! ### Tubes -/

/-- The same breakpoints, and every codomain and every gate a part. -/
structure Tube.LiesIn (y x : Tube ι) : Prop extends y.SameShape x where
  codomain : ∀ i, Enclosure.isSubset (y.codomain i) (x.codomain i) = true
  gate : ∀ k, Enclosure.isSubset (y.gate k) (x.gate k) = true

namespace Tube

variable {x y z : Tube ι} {i k p q : ℕ} {a b c : ι}

theorem isEmpty_iff : x.isEmpty = true ↔
    (∃ i < x.sliceCount, Enclosure.isEmpty (x.codomain i) = true) ∨
      ∃ k < x.gates.size, Enclosure.isEmpty (x.gate k) = true := by
  rw [isEmpty, Bool.or_eq_true, Array.any_eq_true, Array.any_eq_true]
  refine or_congr ⟨?_, ?_⟩ ⟨?_, ?_⟩
  · rintro ⟨i, hi, h⟩
    exact ⟨i, hi, (codomain_eq_getElem hi).symm ▸ h⟩
  · rintro ⟨i, hi, h⟩
    exact ⟨i, hi, codomain_eq_getElem hi ▸ h⟩
  · rintro ⟨k, hk, h⟩
    exact ⟨k, hk, (gate_eq_getElem hk).symm ▸ h⟩
  · rintro ⟨k, hk, h⟩
    exact ⟨k, hk, gate_eq_getElem hk ▸ h⟩

variable [Enclosure.Inclusive ι]

theorem LiesIn.trans (hzy : z.LiesIn y) (hyx : y.LiesIn x) : z.LiesIn x :=
  ⟨hzy.toSameShape.trans hyx.toSameShape,
    fun i => isSubset_trans (hzy.codomain i) (hyx.codomain i),
    fun k => isSubset_trans (hzy.gate k) (hyx.gate k)⟩

theorem LiesIn.self (h : y.LiesIn x) : y.LiesIn y :=
  ⟨.refl y, fun i => isSubset_self (h.codomain i), fun k => isSubset_self (h.gate k)⟩

theorem LiesIn.isEmpty (h : y.LiesIn x) (hx : x.isEmpty = true) : y.isEmpty = true := by
  rw [isEmpty_iff] at hx ⊢
  refine hx.imp ?_ ?_
  · rintro ⟨i, hi, hempty⟩
    exact ⟨i, hi.trans_eq h.codomains.symm, isEmpty_of_isSubset (h.codomain i) hempty⟩
  · rintro ⟨k, hk, hempty⟩
    exact ⟨k, hk.trans_eq h.gates.symm, isEmpty_of_isSubset (h.gate k) hempty⟩

/-! ### Parts written -/

omit [Enclosure.Inclusive ι] in
theorem LiesIn.putGate (h : y.LiesIn x) (hba : Enclosure.isSubset b a = true) (k : ℕ) :
    (y.putGate k b).LiesIn (x.putGate k a) := by
  rcases Nat.lt_or_ge k x.gates.size with hk | hk
  · have hshape : (y.putGate k b).SameShape (x.putGate k a) :=
      ⟨h.times, h.codomains, Array.size_setIfInBounds.trans
        (h.gates.trans Array.size_setIfInBounds.symm)⟩
    refine ⟨hshape, h.codomain, fun m => ?_⟩
    rw [gate_putGate (h.gates ▸ hk), gate_putGate hk]
    split_ifs
    · exact hba
    · exact h.gate m
  · rwa [putGate_of_le hk, putGate_of_le (h.gates.trans_le hk)]

theorem LiesIn.putCodomain (h : y.LiesIn x) (hba : Enclosure.isSubset b a = true) (i : ℕ) :
    (y.putCodomain i b).LiesIn (x.putCodomain i a) := by
  have hshape : (y.putCodomain i b).SameShape (x.putCodomain i a) :=
    ⟨h.times, Array.size_setIfInBounds.trans (h.codomains.trans Array.size_setIfInBounds.symm),
      h.gates⟩
  refine ⟨hshape, fun m => ?_, h.gate⟩
  have hcount (z : Tube ι) (c : ι) : (z.putCodomain i c).sliceCount = z.sliceCount :=
    Array.size_setIfInBounds
  have hsize : y.sliceCount = x.sliceCount := h.codomains
  rcases Nat.lt_or_ge m x.sliceCount with hm | hm
  · rw [codomain_putCodomain (hsize ▸ hm), codomain_putCodomain hm]
    split_ifs
    · exact hba
    · exact h.codomain m
  · rw [codomain_of_le ((hcount y b).trans_le (hsize.trans_le hm))]
    exact isSubset_of_isEmpty isEmpty_empty

/-- A slice written with parts of what is in the other tube. -/
theorem LiesIn.write (h : y.LiesIn x) (ha : Enclosure.isSubset a (x.gate p) = true)
    (hb : Enclosure.isSubset b (x.gate q) = true)
    (hc : Enclosure.isSubset c (x.codomain i) = true) :
    (((y.putGate p a).putGate q b).putCodomain i c).LiesIn x := by
  have hput := ((h.putGate ha p).putGate hb q).putCodomain hc i
  rwa [putGate_self, putGate_self, putCodomain_self] at hput

end Tube

/-! ### Vectors -/

/-- Component by component inside. -/
def TubeVector.LiesIn (y x : TubeVector ι) : Prop :=
  List.Forall₂ Tube.LiesIn y.components x.components

namespace TubeVector

variable {x y z : TubeVector ι}

theorem LiesIn.dimension (h : y.LiesIn x) : y.dimension = x.dimension := h.length_eq

theorem LiesIn.sliceDomain (h : y.LiesIn x) (i : ℕ) : y.sliceDomain i = x.sliceDomain i := by
  obtain ⟨cs⟩ := x
  obtain ⟨ds⟩ := y
  cases h with
  | nil => rfl
  | cons hdc _ => exact congrArg (fun ts : Array Float =>
      Interval.ofBounds (ts.getD i 0.0) (ts.getD (i + 1) 0.0)) hdc.times

theorem LiesIn.codomain (h : y.LiesIn x) (i : ℕ) : (y.codomain i).LiesIn (x.codomain i) :=
  List.forall₂_map_left_iff.2 (List.forall₂_map_right_iff.2 (h.imp fun _ _ hdc => hdc.codomain i))

theorem LiesIn.gate (h : y.LiesIn x) (k : ℕ) : (y.gate k).LiesIn (x.gate k) :=
  List.forall₂_map_left_iff.2 (List.forall₂_map_right_iff.2 (h.imp fun _ _ hdc => hdc.gate k))

theorem Ordered.isEmpty_of_codomain (h : x.Ordered) {i : ℕ} (hi : i < x.sliceCount)
    (hempty : Box.isEmpty (x.codomain i) = true) : x.isEmpty = true := by
  obtain ⟨a, ha, hnone⟩ := List.any_eq_true.1 hempty
  obtain ⟨c, hc, rfl⟩ := List.mem_map.1 ha
  exact List.any_eq_true.2 ⟨c, hc,
    Tube.isEmpty_iff.2 (Or.inl ⟨i, hi.trans_eq (h.sliceCount_eq hc).symm, hnone⟩)⟩

theorem Ordered.isEmpty_of_gate (h : x.Ordered) {k : ℕ} (hk : k ≤ x.sliceCount)
    (hempty : Box.isEmpty (x.gate k) = true) : x.isEmpty = true := by
  obtain ⟨a, ha, hnone⟩ := List.any_eq_true.1 hempty
  obtain ⟨c, hc, rfl⟩ := List.mem_map.1 ha
  have hsize : c.gates.size = c.sliceCount + 1 := (h.components c hc).gates
  refine List.any_eq_true.2 ⟨c, hc, Tube.isEmpty_iff.2 (Or.inr ⟨k, ?_, hnone⟩)⟩
  rw [hsize, h.sliceCount_eq hc]
  exact Nat.lt_succ_of_le hk

variable [Enclosure.Inclusive ι]

theorem LiesIn.trans (hzy : z.LiesIn y) (hyx : y.LiesIn x) : z.LiesIn x :=
  forall₂_trans hzy hyx fun _ _ _ => Tube.LiesIn.trans

theorem LiesIn.self (h : y.LiesIn x) : y.LiesIn y := by
  refine List.forall₂_same.2 fun d hd => ?_
  obtain ⟨j, hj, rfl⟩ := List.mem_iff_getElem.1 hd
  exact ((List.forall₂_iff_get.1 h).2 j hj (hj.trans_eq h.length_eq)).self

theorem LiesIn.isEmpty (h : y.LiesIn x) (hx : x.isEmpty = true) : y.isEmpty = true := by
  obtain ⟨c, hc, hempty⟩ := List.any_eq_true.1 hx
  obtain ⟨j, hj, rfl⟩ := List.mem_iff_getElem.1 hc
  have hj' : j < y.components.length := hj.trans_eq h.length_eq.symm
  exact List.any_eq_true.2 ⟨y.components[j], List.getElem_mem hj',
    ((List.forall₂_iff_get.1 h).2 j hj' hj).isEmpty hempty⟩

/-- A well-formed vector lies in itself, if its codomains lie in themselves. -/
theorem WellFormed.liesIn_self (h : x.WellFormed)
    (hself : ∀ c ∈ x.components, ∀ i < c.sliceCount,
      Enclosure.isSubset (c.codomain i) (c.codomain i) = true) :
    x.LiesIn x := by
  refine List.forall₂_same.2 fun c hc => ⟨.refl c, fun i => ?_, fun k => ?_⟩
  · rcases Nat.lt_or_ge i c.sliceCount with hi | hi
    · exact hself c hc i hi
    · rw [Tube.codomain_of_le hi]
      exact isSubset_of_isEmpty isEmpty_empty
  · have hwell := h.components c hc
    have hsize : c.gates.size = c.sliceCount + 1 := hwell.gates
    rcases Nat.lt_or_ge k c.sliceCount with hk | hk
    · exact isSubset_self (hwell.insideLeft k hk)
    rcases Nat.eq_or_lt_of_le hk with rfl | hlt
    · have hpos : 0 < c.sliceCount := hwell.someSlice
      have hlast := hwell.insideRight (c.sliceCount - 1) (by omega)
      rw [Nat.sub_add_cancel hpos] at hlast
      exact isSubset_self hlast
    · rw [Tube.gate_of_le (by omega)]
      exact isSubset_of_isEmpty isEmpty_empty

end TubeVector

/-! ### What contractions write -/

/-- Contractions lead inside, from tubes that lie in themselves. -/
theorem sliceRelation_liesIn [Enclosure.Inclusive ι] :
    SliceRelation fun y x : Tube ι => x.LiesIn x → y.LiesIn x where
  refl _ h := h
  trans hzy hyx hx := (hzy (hyx hx).self).trans (hyx hx)
  derivative _ _ _ h := h.write (inter_isSubset_left (inter_isSubset_left (h.gate _)))
    (inter_isSubset_left (inter_isSubset_left (h.gate _)))
    (inter_isSubset_left (inter_isSubset_left (h.codomain _)))
  integration _ _ _ _ _ h := h.write (inter_isSubset_left (h.gate _))
    (inter_isSubset_left (inter_isSubset_left (h.gate _))) (inter_isSubset_left (h.codomain _))
  picard _ _ _ _ _ h := h.write (inter_isSubset_left (h.gate _))
    (inter_isSubset_left (h.gate _)) (inter_isSubset_left (h.codomain _))

theorem Tube.isEmpty_codomain_putCodomain [Enclosure.Inclusive ι] {x : Tube ι} {i k : ℕ} {c : ι}
    (hc : Enclosure.isEmpty (x.codomain k) = true → Enclosure.isEmpty c = true)
    (h : Enclosure.isEmpty (x.codomain i) = true) :
    Enclosure.isEmpty ((x.putCodomain k c).codomain i) = true := by
  rcases Nat.lt_or_ge i x.sliceCount with hi | hi
  · rw [codomain_putCodomain hi]
    split_ifs with hik
    · exact hc (hik ▸ h)
    · exact h
  · have hcount : (x.putCodomain k c).sliceCount = x.sliceCount := Array.size_setIfInBounds
    rw [codomain_of_le (hcount.trans_le hi)]
    exact isEmpty_empty

/-- An empty codomain stays empty. -/
theorem sliceRelation_isEmpty_codomain [Enclosure.Inclusive ι] (i : ℕ) :
    SliceRelation fun y x : Tube ι =>
      Enclosure.isEmpty (x.codomain i) = true → Enclosure.isEmpty (y.codomain i) = true where
  refl _ h := h
  trans hzy hyx h := hzy (hyx h)
  derivative _ _ _ := Tube.isEmpty_codomain_putCodomain fun h =>
    isEmpty_inter (.inl (isEmpty_inter (.inl h)))
  integration _ _ _ _ _ := Tube.isEmpty_codomain_putCodomain fun h => isEmpty_inter (.inl h)
  picard _ _ _ _ _ := Tube.isEmpty_codomain_putCodomain fun h => isEmpty_inter (.inl h)

/-- Where a codomain is empty there is no trajectory. -/
theorem TubeVector.SameShape.not_holdsAt [Membership ℝ ι] [Enclosure.Lawful ι]
    {x y : TubeVector ι} {X : ℝ → ℕ → ℝ} (hshape : y.SameShape x) (hx : x.Timed) {i j : ℕ}
    (hi : i < x.sliceCount) {c : Tube ι} (hc : y.components[j]? = some c)
    (hempty : Enclosure.isEmpty (c.codomain i) = true) {t : ℝ} (ht : t ∈ x.sliceDomain i) :
    ¬y.HoldsAt X t := by
  intro hy
  obtain ⟨d, hd, hcd⟩ := hshape.exists_partner c (List.mem_of_getElem? hc)
  have hcount : c.sliceCount = x.sliceCount := hcd.codomains.trans (hx.sliceCount_eq hd)
  have hmoment (k : ℕ) : c.moment k = x.first.moment k := by
    rw [← hx.moment_eq hd, Tube.moment, Tube.moment, Tube.time, Tube.time, hcd.times]
  obtain ⟨hlow, hup⟩ := (hx.first.mem_sliceDomain_iff hi).1 ht
  have hmem := (hy j c hc).2 i (hi.trans_eq hcount.symm) (by rwa [hmoment]) (by rwa [hmoment])
  rw [Enclosure.Lawful.isEmpty_of_mem hmem] at hempty
  contradiction

/-- A vector reached by contractions lies in every vector in which the first one lies. -/
theorem TubeVector.LiesIn.of_holds [Enclosure.Inclusive ι] {x y z : TubeVector ι}
    (hzy : SliceRelation.Holds (fun y x : Tube ι => x.LiesIn x → y.LiesIn x) z y)
    (hyx : y.LiesIn x) : z.LiesIn x :=
  LiesIn.trans (hzy.of_forall (List.forall₂_same.1 hyx.self)) hyx

end FlowTube
