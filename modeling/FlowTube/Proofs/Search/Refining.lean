import FlowTube.Proofs.Search.Solutions

/-! Refinements within a budget of slices. A sample reports whether it added a slice, so the count
that a loop keeps is never below the number of slices, and a loop that stops at the budget has not
passed it; the loops that count every sample as a slice stop no later. A further breakpoint changes
no value and takes no breakpoint away, and all components are sampled at the same place. This needs
nothing of the breakpoints but their order: an infinity or `-0` among them does no harm. -/

namespace FlowTube

open Binary64 (value)

/-! ### One tube -/

/-- A sample adds the one slice that it reports. -/
theorem Tube.Ordered.sliceCount_sample_eq {ι : Type} [Enclosure ι] {x : Tube ι} (h : x.Ordered)
    (t : Float) : (x.sample t).1.sliceCount = x.sliceCount + (x.sample t).2.toNat := by
  unfold Tube.sample
  cases hi : x.sliceIndex? t with
  | none => rfl
  | some i =>
    have hlt := (h.sliceIndex?_spec hi).1
    dsimp only
    rw [Array.getElem?_eq_getElem hlt]
    dsimp only
    split_ifs
    · rfl
    · exact sliceCount_splitSlice hlt

/-! ### Further breakpoints for a vector -/

namespace TubeVector

variable {ι : Type} [Enclosure ι] {x y z : TubeVector ι} {t : Float} {i : ℕ}

/-- A vector over further breakpoints, which its components share, with all its values unchanged. -/
structure Refines (y x : TubeVector ι) : Prop where
  ordered : y.Ordered
  dimension : y.dimension = x.dimension
  times : ∀ t ∈ x.times, t ∈ y.times
  sliceCount : x.sliceCount ≤ y.sliceCount
  eval : ∀ j t, (y.component j).eval t = (x.component j).eval t

theorem Ordered.refines (h : x.Ordered) : x.Refines x :=
  ⟨h, rfl, fun _ => id, le_rfl, fun _ _ => rfl⟩

theorem Refines.trans (hzy : z.Refines y) (hyx : y.Refines x) : z.Refines x where
  ordered := hzy.ordered
  dimension := hzy.dimension.trans hyx.dimension
  times t ht := hzy.times t (hyx.times t ht)
  sliceCount := hyx.sliceCount.trans hzy.sliceCount
  eval j t := (hzy.eval j t).trans (hyx.eval j t)

theorem sliceCount_sample_eq (h : x.Ordered) (t : Float) :
    (x.sample t).1.sliceCount = x.sliceCount + (x.first.sample t).2.toNat := by
  rw [sliceCount, first_sample h.someComponent, h.first.sliceCount_sample_eq]
  rfl

/-- A slice that was added was reported. -/
theorem Ordered.sliceCount_sample_le (h : x.Ordered) (t : Float) :
    (x.sample t).1.sliceCount ≤ x.sliceCount + (x.sample t).2.toNat := by
  rw [sliceCount_sample_eq h]
  refine Nat.add_le_add_left (Bool.toNat_le_toNat fun hadded => ?_) _
  exact List.any_eq_true.2
    ⟨x.first.sample t, List.mem_map.2 ⟨x.first, first_mem_of_ne_nil h.someComponent, rfl⟩, hadded⟩

theorem Ordered.refines_sample (h : x.Ordered) (t : Float) : (x.sample t).1.Refines x where
  ordered := h.sample t
  dimension := dimension_sample x t
  times s hs := by
    rw [times, first_sample h.someComponent]
    exact h.first.mem_times_sample t hs
  sliceCount := by
    rw [sliceCount_sample_eq h]
    exact Nat.le_add_right _ _
  eval j s := by
    rw [component, component, components_sample]
    rcases Nat.lt_or_ge j x.components.length with hj | hj
    · rw [List.getD_eq_getElem _ _ hj, List.getD_eq_getElem _ _ (by rwa [List.length_map]),
        List.getElem_map]
      exact (h.components _ (List.getElem_mem hj)).eval_sample t s
    · rw [List.getD_eq_default _ _ hj, List.getD_eq_default _ _ (by rwa [List.length_map])]

/-- A time inside a slice cuts it. -/
theorem Ordered.sliceCount_lt_sample (h : x.Ordered) (hi : i < x.sliceCount)
    (hlow : (x.sliceDomain i).lb < t) (hup : t < (x.sliceDomain i).ub) :
    x.sliceCount < (x.sample t).1.sliceCount := by
  rw [h.sliceDomain_eq hi] at hlow hup
  obtain ⟨-, ht, hlow⟩ := Binary64.lt_iff.1 hlow
  obtain ⟨-, -, hup⟩ := Binary64.lt_iff.1 hup
  rw [sliceCount, sliceCount, first_sample h.someComponent,
    h.first.sliceCount_sample hi ht hlow hup]
  exact Nat.lt_succ_self _

end TubeVector

/-! ### The loops -/

namespace Slicing

variable {x y : TubeVector Interval} {maxSlices used n : ℕ}

/-- Further breakpoints within the budget. -/
structure RefinesWithin (maxSlices : ℕ) (y x : TubeVector Interval) : Prop extends y.Refines x where
  budget : y.sliceCount ≤ maxSlices

theorem RefinesWithin.of_refines {z : TubeVector Interval} (h : RefinesWithin maxSlices z y)
    (hyx : y.Refines x) : RefinesWithin maxSlices z x :=
  ⟨h.toRefines.trans hyx, h.budget⟩

/-- A sample is counted if it added a slice. -/
theorem sampleWithin_cons (maxSlices used : ℕ) (t : Float) (ts : List Float)
    (x : TubeVector Interval) : sampleWithin maxSlices used (t :: ts) x =
      if maxSlices ≤ used then x
      else sampleWithin maxSlices (used + (x.sample t).2.toNat) ts (x.sample t).1 := by
  rw [sampleWithin]
  cases hadded : (x.sample t).2 <;> simp [hadded]

/-- The loop over given times stops before its count passes the budget. -/
theorem refinesWithin_sampleWithin (hx : x.Ordered) (hcount : x.sliceCount ≤ used)
    (hbudget : used ≤ maxSlices) (ts : List Float) :
    RefinesWithin maxSlices (sampleWithin maxSlices used ts x) x := by
  induction ts generalizing used x with
  | nil => exact ⟨hx.refines, hcount.trans hbudget⟩
  | cons t ts ih =>
    rw [sampleWithin_cons]
    split_ifs with hspent
    · exact ⟨hx.refines, hcount.trans hbudget⟩
    · have hsample := hx.refines_sample t
      have hle := hx.sliceCount_sample_le t
      have hone := Bool.toNat_le (x.sample t).2
      exact (ih hsample.ordered (by omega) (by omega)).of_refines hsample

theorem refinesWithin_cutAll (hx : x.Ordered) (hbudget : x.sliceCount ≤ maxSlices) :
    RefinesWithin maxSlices (cutAll maxSlices x) x :=
  refinesWithin_sampleWithin hx le_rfl hbudget _

theorem refinesWithin_cutSteep (threshold : List Float → Float) (hx : x.Ordered)
    (hbudget : x.sliceCount ≤ maxSlices) :
    RefinesWithin maxSlices (cutSteep threshold maxSlices x) x :=
  refinesWithin_sampleWithin hx le_rfl hbudget _

/-- The loop over the widest slices counts a slice for every sample, added or not. -/
theorem refinesWithin_cutWidest (hx : x.Ordered) (hcount : x.sliceCount ≤ used)
    (hbudget : used < maxSlices) (n : ℕ) :
    RefinesWithin maxSlices (cutWidest maxSlices n used x).1 x := by
  induction n generalizing used x with
  | zero => exact ⟨hx.refines, (hcount.trans_lt hbudget).le⟩
  | succ n ih =>
    have hsample := hx.refines_sample (sliceMid x x.widestSlice)
    have hle := (hx.sliceCount_sample_le (sliceMid x x.widestSlice)).trans
      (Nat.add_le_add_left (Bool.toNat_le _) _)
    unfold cutWidest
    dsimp only
    split_ifs with hspent
    · exact ⟨hsample, by dsimp only; omega⟩
    · exact (ih hsample.ordered (by omega) (by omega)).of_refines hsample

theorem refinesWithin_cutByThreshold (threshold : List Float → Float) (hx : x.Ordered)
    (hbudget : x.sliceCount < maxSlices) :
    RefinesWithin maxSlices (cutByThreshold threshold maxSlices x) x := by
  have hwidest := refinesWithin_cutWidest hx le_rfl hbudget (x.sliceCount / 10 + 1)
  unfold cutByThreshold
  dsimp only
  split_ifs
  · exact (refinesWithin_cutSteep threshold hwidest.ordered hwidest.budget).of_refines
      hwidest.toRefines
  · exact hwidest

/-! ### Growth -/

/-- Every slice has its midpoint strictly inside, which fails between neighbouring numbers. -/
def Halvable (x : TubeVector Interval) : Prop :=
  ∀ i < x.sliceCount, (x.sliceDomain i).lb < sliceMid x i ∧ sliceMid x i < (x.sliceDomain i).ub

namespace Halvable

theorem lt_sample (h : Halvable x) (hx : x.Ordered) {i : ℕ} (hi : i < x.sliceCount) :
    x.sliceCount < (x.sample (sliceMid x i)).1.sliceCount :=
  hx.sliceCount_lt_sample hi (h i hi).1 (h i hi).2

/-- The widest and the steepest slice are slices. -/
theorem lt_sample_argmax (h : Halvable x) (hx : x.Ordered) (size : ℕ → Float) :
    x.sliceCount < (x.sample (sliceMid x (Tube.argmax size x.sliceCount))).1.sliceCount :=
  h.lt_sample hx (Tube.argmax_lt size hx.first.sliceCount_pos)

theorem lt_cutAll (h : Halvable x) (hx : x.Ordered) (hbudget : x.sliceCount < maxSlices) :
    x.sliceCount < (cutAll maxSlices x).sliceCount := by
  have hfirst := h.lt_sample hx hx.first.sliceCount_pos
  have hle := hx.sliceCount_sample_le (sliceMid x 0)
  have hone := Bool.toNat_le (x.sample (sliceMid x 0)).2
  obtain ⟨m, hm⟩ := Nat.exists_eq_add_one_of_ne_zero hx.first.sliceCount_pos.ne'
  have hm : x.sliceCount = m + 1 := hm
  rw [cutAll, hm, List.range_succ_eq_map, List.map_cons, ← hm, sampleWithin_cons,
    if_neg hbudget.not_ge]
  exact hfirst.trans_le (refinesWithin_sampleWithin (hx.sample _) hle (by omega) _).sliceCount

theorem lt_cutByThreshold (h : Halvable x) (hx : x.Ordered) (hbudget : x.sliceCount < maxSlices)
    (threshold : List Float → Float) :
    x.sliceCount < (cutByThreshold threshold maxSlices x).sliceCount := by
  have hwidest : x.sliceCount <
      (cutWidest maxSlices (x.sliceCount / 10 + 1) x.sliceCount x).1.sliceCount := by
    have hfirst : x.sliceCount < (x.sample (sliceMid x x.widestSlice)).1.sliceCount :=
      h.lt_sample_argmax hx _
    have hle := (hx.sliceCount_sample_le (sliceMid x x.widestSlice)).trans
      (Nat.add_le_add_left (Bool.toNat_le _) _)
    rw [cutWidest]
    split_ifs with hspent
    · exact hfirst
    · exact hfirst.trans_le
        (refinesWithin_cutWidest (hx.sample _) hle (by omega) _).sliceCount
  have hrefines := refinesWithin_cutWidest hx le_rfl hbudget (x.sliceCount / 10 + 1)
  unfold cutByThreshold
  dsimp only
  split_ifs
  · exact hwidest.trans_le
      (refinesWithin_cutSteep threshold hrefines.ordered hrefines.budget).sliceCount
  · exact hwidest

end Halvable

/-! ### Every mode -/

/-- A refinement with a budget left brings further breakpoints. -/
theorem exists_refine? (hx : x.Ordered) (mode : RefiningMode) (hbudget : x.sliceCount < maxSlices) :
    ∃ y, refine? mode maxSlices x = some y ∧ RefinesWithin maxSlices y x ∧
      (Halvable x → x.sliceCount < y.sliceCount) := by
  have hall := refinesWithin_cutAll hx hbudget.le
  unfold refine?
  rw [if_neg hbudget.not_ge]
  cases mode with
  | allSlices => exact ⟨_, rfl, hall, fun h => h.lt_cutAll hx hbudget⟩
  | steepestSlice =>
    have hle := (hx.sliceCount_sample_le (sliceMid x x.steepestSlice)).trans
      (Nat.add_le_add_left (Bool.toNat_le _) _)
    exact ⟨_, rfl, ⟨hx.refines_sample _, by omega⟩, fun h => h.lt_sample_argmax hx _⟩
  | averageThreshold | medianThreshold =>
    refine ⟨_, rfl, ?_⟩
    split_ifs
    · exact ⟨hall, fun h => h.lt_cutAll hx hbudget⟩
    · exact ⟨refinesWithin_cutByThreshold _ hx hbudget, fun h => h.lt_cutByThreshold hx hbudget _⟩

/-- A refinement is refused exactly if the budget is spent. Otherwise it brings further breakpoints
within the budget, at least one if every slice has its midpoint inside, and changes no value. -/
theorem refinement_within_budget (hx : x.WellFormed) (mode : RefiningMode) (maxSlices : ℕ) :
    (refine? mode maxSlices x = none ↔ maxSlices ≤ x.sliceCount) ∧
      ∀ y, refine? mode maxSlices x = some y →
        RefinesWithin maxSlices y x ∧ (Halvable x → x.sliceCount < y.sliceCount) := by
  rcases Nat.lt_or_ge x.sliceCount maxSlices with hbudget | hspent
  · obtain ⟨y, hy, hrefines⟩ := exists_refine? hx.ordered mode hbudget
    rw [hy]
    refine ⟨iff_of_false (Option.some_ne_none y) hbudget.not_ge, fun z hz => ?_⟩
    obtain rfl := Option.some.inj hz
    exact hrefines
  · have hnone : refine? mode maxSlices x = none := if_pos hspent
    rw [hnone]
    exact ⟨iff_of_true rfl hspent, fun z hz => absurd hz (Option.some_ne_none z).symm⟩

/-- Of two slices only one can be cut within a budget of three. -/
theorem refinement_within_budget_early :
    ∃ y, refine? .allSlices 3 ⟨[Tube.early]⟩ = some y ∧ y.sliceCount = 3 ∧
      ∀ j t, (y.component j).eval t = ((⟨[Tube.early]⟩ : TubeVector Interval).component j).eval t := by
  have hx := TubeVector.wellFormed_singleton Tube.wellFormed_early
  obtain ⟨hnone, hsome⟩ := refinement_within_budget hx .allSlices 3
  have hleft : refine? .allSlices 3 ⟨[Tube.early]⟩ ≠ none :=
    mt hnone.1 (show ¬3 ≤ 2 by decide)
  obtain ⟨y, hy⟩ := Option.ne_none_iff_exists'.1 hleft
  obtain ⟨hrefines, hgrows⟩ := hsome y hy
  have hmore : 2 < y.sliceCount := hgrows (by unfold Halvable; decide +kernel)
  exact ⟨y, hy, le_antisymm hrefines.budget hmore, hrefines.eval⟩

end Slicing

end FlowTube
