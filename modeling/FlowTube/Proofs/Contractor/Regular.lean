import FlowTube.Proofs.Contractor.Visits
import FlowTube.Proofs.Interval.Midpoint
import FlowTube.Proofs.TubeVector.Regular

/-! Contractions of regular vectors. A slice is written as a whole: its codomain, and parts of
its gates inside the codomain. So the vector stays regular over the same breakpoints, whatever
the dynamics answer. A Picard step may also cut a slice at its midpoint, which lies inside and is
not `-0`; as there are fewer than `2 ^ 64` breakpoints, the cuts come to an end. -/

namespace FlowTube

/-! ### Slices -/

namespace Tube.Regular

variable {x : Tube Interval} {i : ℕ}

/-- A slice may be written from its entry to its exit. -/
theorem putOriented (h : x.Regular) (forward : Bool) {c a b : Interval}
    (hc : c.isSubset (x.codomain i) = true)
    (ha : a.isSubset (x.gate (TubeVector.entryExit forward i).1) = true)
    (hac : a.isSubset c = true)
    (hb : b.isSubset (x.gate (TubeVector.entryExit forward i).2) = true)
    (hbc : b.isSubset c = true) :
    Tube.Shrinks { x with
      codomains := x.codomains.setIfInBounds i c
      gates := (x.gates.setIfInBounds (TubeVector.entryExit forward i).1 a).setIfInBounds
        (TubeVector.entryExit forward i).2 b } x := by
  cases forward with
  | true => exact h.shrinks_putSlice hc ha hac hb hbc
  | false =>
    have hslice : (x.putSlice i c b a).Shrinks x := h.shrinks_putSlice hc hb hbc ha hac
    rwa [Tube.putSlice, Array.setIfInBounds_comm _ _ (Nat.succ_ne_self i).symm] at hslice

variable (h : x.Regular) (forward : Bool) (codomain exit : Interval)

include h

theorem restrictSlice_picard : (Picard.restrictSlice forward i x codomain exit).Shrinks x := by
  have hinner := Interval.numeric_inter (x.codomain i) codomain
  exact h.putOriented forward (Interval.inter_isSubset_of_left (h.numeric i).isSubset_self)
    (Interval.inter_isSubset_of_left (h.numeric_gate _).isSubset_self)
    (Interval.inter_isSubset_of_right hinner.isSubset_self)
    (Interval.inter_isSubset_of_left (h.numeric_gate _).isSubset_self)
    (Interval.inter_isSubset_of_right (Interval.inter_isSubset_of_right hinner.isSubset_self))

theorem restrictSlice_integration :
    (Integration.restrictSlice forward i x codomain exit).1.Shrinks x := by
  have hinner := Interval.numeric_inter (x.codomain i) codomain
  exact h.putOriented forward (Interval.inter_isSubset_of_left (h.numeric i).isSubset_self)
    (Interval.inter_isSubset_of_left (h.numeric_gate _).isSubset_self)
    (Interval.inter_isSubset_of_right hinner.isSubset_self)
    (Interval.inter_isSubset_of_left
      (Interval.inter_isSubset_of_left (h.numeric_gate _).isSubset_self))
    (Interval.inter_isSubset_of_right hinner.isSubset_self)

theorem contractSlice_derivative (v : Interval) :
    (Derivative.contractSlice x i v).1.Shrinks x := by
  have hcodomain := (h.numeric i).isSubset_self
  have hfirst := (h.numeric_gate i).isSubset_self
  have hlast := (h.numeric_gate (i + 1)).isSubset_self
  exact h.shrinks_putSlice
    (Interval.inter_isSubset_of_left (Interval.inter_isSubset_of_left hcodomain))
    (Interval.inter_isSubset_of_left (Interval.inter_isSubset_of_left hfirst))
    (Interval.inter_isSubset_of_right (Interval.numeric_inter _ _).isSubset_self)
    (Interval.inter_isSubset_of_left (Interval.inter_isSubset_of_left hlast))
    (Interval.inter_isSubset_of_right (Interval.numeric_inter _ _).isSubset_self)

end Tube.Regular

/-- Whatever contractions write into the slices of a regular tube, is inside. -/
theorem sliceRelation_shrinks :
    SliceRelation fun y x : Tube Interval => x.Regular → y.Shrinks x where
  refl _ := Tube.Regular.shrinks
  trans hzy hyx hx := (hzy (hyx hx).regular).trans (hyx hx)
  derivative _ _ v hx := hx.contractSlice_derivative v
  integration forward _ _ codomain exit hx := hx.restrictSlice_integration forward codomain exit
  picard forward _ _ codomain exit hx := hx.restrictSlice_picard forward codomain exit

variable {f : Dynamics Interval} {n : ℕ} {x y : TubeVector Interval}

/-- A vector reached by such writes is regular over the same breakpoints. -/
theorem TubeVector.Regular.amends_of_holds (hx : x.Regular)
    (h : SliceRelation.Holds (fun y x : Tube Interval => x.Regular → y.Shrinks x) y x) :
    y.Amends x :=
  hx.amends_of_shrinks (h.of_forall hx.components)

/-! ### Contraction by a derivative -/

namespace Derivative

/-- A derivative for every component over every slice. -/
structure Covers (v x : TubeVector Interval) : Prop where
  dimension : v.dimension = x.dimension
  sliceCount : v.sliceCount = x.sliceCount
  components : ∀ c ∈ v.components, x.sliceCount ≤ c.sliceCount

theorem amends_contract (direction : Direction) (v : TubeVector Interval) (hx : x.Regular) :
    Settles (contract direction v x) (·.1.Amends x) (fun _ => ¬Covers v x) := by
  unfold contract
  split_ifs with hdim hcount hshort
  · intro h
    simp [h.dimension] at hdim
  · intro h
    simp [h.sliceCount] at hcount
  · intro h
    obtain ⟨c, hc, hlt⟩ := List.any_eq_true.1 hshort
    exact absurd (of_decide_eq_true hlt) (not_lt.2 (h.components c hc))
  · have hlen : x.dimension ≤ v.components.length := by
      have hdim' : x.dimension = v.dimension := by simpa using hdim
      exact hdim'.le
    change TubeVector.Amends ⟨List.map _ (List.zipWith _ _ _)⟩ x
    rw [List.map_zipWith, List.zipWith_comm]
    refine hx.amends_zipWith (fun c d hc => ?_) hlen
    have hshrinks := related_contractTube sliceRelation_shrinks direction d c hc
    exact ⟨hshrinks.regular, hshrinks.times⟩

end Derivative

/-! ### Integration -/

namespace Integration

theorem amends_contract (m : Integration) (hx : x.Regular) (hn : x.dimension = n) (t0 : Float)
    (direction : Direction) : f.Yields n (m.contract f t0 direction x) (·.1.Amends x) :=
  (yields_contract sliceRelation_shrinks m hn t0 direction).mono (fun _ h => hx.amends_of_holds h)
    fun _ h => h

end Integration

/-! ### Picard steps -/

open Binary64 (real value value_of_isFinite isFinite_iff beq_iff lt_iff le_iff_real)

namespace Picard

theorem amends_contractSlice (p : Picard) (hx : x.Regular) (hn : x.dimension = n) (i : ℕ)
    (forward : Bool) : f.Yields n (p.contractSlice f x i forward) (·.1.Amends x) :=
  (yields_contractSlice sliceRelation_shrinks p hn i forward).mono
    (fun _ h => hx.amends_of_holds h) fun _ h => h

/-- Whatever may be cut has its midpoint inside. -/
def Divides (p : Picard) (domain : Interval) : Prop :=
  p.preserveSlicing = true ∨ ∀ a b : Float, domain.contains a = true → domain.contains b = true →
    a < b → (Interval.ofBounds a b).diam > domain.diam * minSliceFraction →
      a < (Interval.ofBounds a b).mid ∧ (Interval.ofBounds a b).mid < b

/-- Midpoints are inside, unless the whole domain is narrow against the size of its times. -/
theorem divides_of_wide (p : Picard) {domain : Interval} {k : ℤ} (hlb : domain.lb.isFinite)
    (hub : domain.ub.isFinite) (hlbk : |real domain.lb| ≤ 2 ^ k) (hubk : |real domain.ub| ≤ 2 ^ k)
    (hlow : -1020 ≤ k) (hup : k ≤ 1022)
    (hwide : ((2 ^ (k - 50) : ℝ) : EReal) ≤ value (domain.diam * minSliceFraction)) :
    p.Divides domain := by
  have hin {t : Float} (ht : domain.contains t = true) :
      t.isFinite = true ∧ |real t| ≤ 2 ^ k := by
    rw [Interval.contains_iff] at ht
    have hfinite := Binary64.isFinite_of_between hlb hub ht.1 ht.2
    have hle := (le_iff_real hlb hfinite).1 ht.1
    have hge := (le_iff_real hfinite hub).1 ht.2
    rw [abs_le] at hlbk hubk ⊢
    exact ⟨hfinite, by linarith, by linarith⟩
  right
  intro a b ha hb hab hdiam
  obtain ⟨hfa, hka⟩ := hin ha
  obtain ⟨hfb, hkb⟩ := hin hb
  rw [Interval.ofBounds_of_lt hab] at hdiam ⊢
  obtain ⟨hnumber, -, hlt⟩ := lt_iff.1 hdiam
  have hfinite : (domain.diam * minSliceFraction).isFinite = true :=
    isFinite_iff.2 ⟨hnumber, hlt.ne_top, ((EReal.bot_lt_coe _).trans_le hwide).ne'⟩
  rw [value_of_isFinite hfinite, EReal.coe_le_coe_iff] at hwide
  have hwidth := Interval.width_gt_of_diam_gt (a := ⟨a, b⟩) hfa hfb hab hfinite hdiam
  exact Interval.mid_between (a := ⟨a, b⟩) hfa hfb hka hkb hlow hup (hwide.trans_lt hwidth)

/-- From zero to one, midpoints are inside. -/
theorem divides_unit (p : Picard) : p.Divides ⟨0.0, 1.0⟩ := by
  have hplace : real (Float.ofBits 0x3cd0000000000000) = 2 ^ ((0 : ℤ) - 50) := by
    change (((2 ^ 52 : ℕ) : ℤ) : ℝ) * 2 ^ (-102 : ℤ) = 2 ^ ((0 : ℤ) - 50)
    norm_num
  refine p.divides_of_wide (k := 0) rfl rfl ?_ ?_ (by omega) (by omega) ?_
  · rw [Binary64.real_zero]
    norm_num
  · rw [Binary64.real_one]
    norm_num
  · rw [← hplace, ← value_of_isFinite rfl]
    exact (Binary64.le_iff.1 (by decide)).2.2

theorem mid_sliceDomain_ne_negZero (hx : x.Regular) {i : ℕ} (hi : i < x.sliceCount) :
    (x.sliceDomain i).mid ≠ -0.0 := by
  have hfirst := hx.first.ordered
  change (x.first.sliceDomain i).mid ≠ -0.0
  rw [hfirst.sliceDomain_eq hi]
  exact Interval.mid_ne_negZero (hfirst.time_lt_time (Nat.lt_succ_self i) hi)
    (hx.first.time_ne_negZero (Nat.le_of_lt hi)) (hx.first.time_ne_negZero hi)

/-- A cut adds a slice. -/
theorem sliceCount_sample_mid {p : Picard} (hdivides : p.Divides x.domain) (hy : y.Continues x)
    (hx : x.Regular) {i : ℕ} (hi : i < y.sliceCount)
    (hsplit : p.splittable y i (x.domain.diam * minSliceFraction) = true) :
    (y.sample (y.sliceDomain i).mid).1.sliceCount = y.sliceCount + 1 := by
  have hfirst := hy.regular.first.ordered
  unfold splittable at hsplit
  rw [Bool.and_eq_true, Bool.not_eq_true', decide_eq_true_iff] at hsplit
  have hin : ∀ k ≤ y.sliceCount, x.domain.contains (y.first.time k) = true := by
    intro k hk
    refine hx.first.ordered.contains_domain_iff.2 ⟨hfirst.isNaN_time hk, ?_, ?_⟩
    · rw [← hy.ends.1]
      exact hfirst.moment_le_moment (Nat.zero_le k) hk
    · rw [← hy.ends.2]
      exact hfirst.moment_le_moment hk le_rfl
  obtain ⟨hlow, hup⟩ := (hdivides.resolve_left (Bool.eq_false_iff.1 hsplit.1)) _ _
    (hin i hi.le) (hin (i + 1) hi) (hfirst.time_lt_time (Nat.lt_succ_self i) hi) hsplit.2
  rw [hy.regular.sliceCount_sample (mid_sliceDomain_ne_negZero hy.regular hi)]
  exact hfirst.sliceCount_sample hi (lt_iff.1 hlow).2.1 (lt_iff.1 hlow).2.2 (lt_iff.1 hup).2.2

/-- A step keeps a vector regular, and with it its slices few. -/
theorem visiting_continues {p : Picard} {cap : ℕ} (hx : x.Regular) (hn : x.dimension = n)
    (hcap : p.preserveSlicing = true ∨ 2 ^ 64 ≤ cap) :
    p.Visiting f (x.domain.diam * minSliceFraction) cap
      (fun y => y.Continues x ∧ y.sliceCount ≤ cap) (¬f.Answers n ∨ ¬p.Divides x.domain) where
  capped h := h.2
  visit {y i} h _ forward := by
    obtain ⟨hy, hcount⟩ := h
    refine (p.amends_contractSlice hy.regular (hy.dimension.trans hn) i forward).mono
      (fun r hr => ?_) fun _ => Or.inl
    have hsame := hr.sliceCount hy.regular
    exact ⟨⟨hr.toContinues.trans hy, hsame.trans_le hcount⟩, hsame⟩
  cut {y i} h hi hsplit := by
    have hcut := h.1.regular.sample (mid_sliceDomain_ne_negZero h.1.regular hi)
    refine ⟨⟨hcut.trans h.1, ?_⟩, ?_⟩
    · unfold splittable at hsplit
      rw [Bool.and_eq_true, Bool.not_eq_true'] at hsplit
      have hlarge := hcap.resolve_left (Bool.eq_false_iff.1 hsplit.1)
      exact hcut.regular.first.ordered.sliceCount_lt.le.trans hlarge
    · by_cases hdivides : p.Divides x.domain
      · exact Or.inr (sliceCount_sample_mid hdivides h.1 hx hi hsplit)
      · exact Or.inl (Or.inr hdivides)

/-- Visits that are enough in one direction: one for each slice, or twice as many as there are
numbers if slices are cut. -/
def visits (p : Picard) (x : TubeVector Interval) : ℕ :=
  if p.preserveSlicing then x.sliceCount else 2 ^ 65

theorem continues_contract (p : Picard) (fuel : ℕ) (hx : x.Regular) (hn : x.dimension = n)
    (direction : Direction) :
    Settles (p.contract fuel f direction x) (·.1.Continues x)
      (fun _ => ¬f.Answers n ∨ ¬p.Divides x.domain ∨ fuel < p.visits x) := by
  obtain ⟨cap, hcap, hcount, hfuel⟩ : ∃ cap, (p.preserveSlicing = true ∨ 2 ^ 64 ≤ cap) ∧
      x.sliceCount ≤ cap ∧ 2 * cap ≤ p.visits x + x.sliceCount := by
    unfold visits
    split_ifs with hkeep
    · exact ⟨x.sliceCount, Or.inl hkeep, le_rfl, by omega⟩
    · exact ⟨2 ^ 64, Or.inr le_rfl, hx.first.ordered.sliceCount_lt.le, by omega⟩
  refine ((visiting_continues hx hn hcap).contract ⟨hx.continues, hcount⟩ fuel direction).mono
    (fun _ h => h.1) fun _ h => ?_
  exact (or_assoc.1 h).imp_right (Or.imp_right fun _ => by omega)

/-! #### A slice that stays whole -/

theorem enclosure_eq_none {p : Picard} {t : Interval} {entry v : Box Interval} {forward : Bool}
    (hv : f.applyOnTube t entry x = .ok v)
    (hnext : Box.isBounded (Box.step forward entry v (Enclosure.elapsed t)) = false) :
    p.enclosure f x t entry forward = .ok none := by
  rw [enclosure, maxTries, search, hv]
  change (if !Box.isBounded (Box.step forward entry v (Enclosure.elapsed t)) then _ else _) = _
  rw [hnext]
  rfl

/-- If the last slice should be cut and stays whole, the step goes on to a slice after it. -/
theorem contract_of_uncut {p : Picard} {fuel k : ℕ} (hcount : x.sliceCount = k + 1)
    (hslice : p.contractSlice f x k false = .ok (y, .failed))
    (hsplit : p.splittable y k (x.domain.diam * minSliceFraction) = true)
    (hcut : (y.sample (y.sliceDomain k).mid).1.sliceCount = k + 1) :
    p.contract (fuel + 2) f .backward x = .error .indexOutOfRange := by
  rw [contract_eq]
  change p.backwardLoop f (x.domain.diam * minSliceFraction) (fuel + 2) x.sliceCount false x = _
  rw [hcount, backwardLoop, if_pos (by omega), hslice]
  change (if p.splittable y k (x.domain.diam * minSliceFraction) then _ else _) = _
  rw [hsplit, if_pos rfl, backwardLoop, if_neg (by omega)]

end Picard

/-! ### The contraction of a mode -/

theorem TubeVector.ofTubes_of_times {tubes : List (Tube Interval)} (hsome : tubes ≠ [])
    {ts : Array Float} (hts : (ts == ts) = true) (h : ∀ c ∈ tubes, c.times = ts) :
    ofTubes tubes = .ok ⟨tubes⟩ := by
  cases tubes with
  | nil => contradiction
  | cons c tubes =>
    refine if_pos (List.all_eq_true.2 fun d hd => ?_)
    rw [h d hd, h c List.mem_cons_self]
    exact hts

/-- Row `j` of all boxes, if they have one. -/
theorem length_filterMap_getElem? {boxes : List (Box Interval)} {j : ℕ}
    (h : ∀ box ∈ boxes, j < box.length) : (boxes.filterMap (·[j]?)).length = boxes.length :=
  List.filterMap_length_eq_length.2 fun box hbox => by simp [h box hbox]

theorem Dynamics.yields_derivative (hx : x.Regular) (hn : x.dimension = n) :
    f.Yields n (f.derivative x) (fun v => f.Answers n → Derivative.Covers v x) := by
  unfold derivative
  refine Settles.bind (Settles.mapM fun p _ => f.yields_apply
    (f.sized_of_length ((List.length_map _).trans hn)) hn _) fun gates _ => ?_
  refine Settles.bind (Settles.mapM fun i _ => f.yields_apply
    (f.sized_of_length ((List.length_map _).trans hn)) hn _) fun codomains hcodomains => ?_
  obtain ⟨hlen, hsized⟩ := hcodomains
  rw [List.length_range] at hlen
  have hpos : 0 < x.dimension := List.length_pos_of_ne_nil hx.someComponent
  generalize htubes : (List.range x.dimension).map _ = tubes
  have hdim : tubes.length = x.dimension := by
    rw [← htubes, List.length_map, List.length_range]
  have hsome : tubes ≠ [] := List.ne_nil_of_length_pos (hdim ▸ hpos)
  have htimes : ∀ c ∈ tubes, c.times = x.times := by
    intro c hc
    rw [← htubes] at hc
    obtain ⟨j, -, rfl⟩ := List.mem_map.1 hc
    rfl
  rw [TubeVector.ofTubes_of_times hsome hx.first.ordered.times_beq_self htimes]
  intro hanswers
  have hcount : ∀ c ∈ tubes, c.sliceCount = x.sliceCount := by
    intro c hc
    rw [← htubes] at hc
    obtain ⟨j, hj, rfl⟩ := List.mem_map.1 hc
    refine Eq.trans (length_filterMap_getElem? fun box hbox => ?_) hlen
    rw [hsized box hbox hanswers, ← hn]
    exact List.mem_range.1 hj
  exact ⟨hdim, hcount _ (TubeVector.first_mem_of_ne_nil hsome), fun c hc => (hcount c hc).ge⟩

/-- A contraction of a mode fails only if the dynamics do not answer. -/
theorem OdeContractor.continues_contract (c : OdeContractor) (hx : x.Regular)
    (hn : x.dimension = n) (t0 : Float) (incremental peeling : Bool) :
    f.Yields n (c.contract f t0 incremental peeling x) (·.Continues x) := by
  cases c with
  | disabled => exact hx.continues
  | integration scheme =>
    refine Settles.bind (Integration.amends_contract _ hx hn _ _) fun r hr => ?_
    refine Settles.bind (Integration.amends_contract _ hr.regular (hr.dimension.trans hn) _ _)
      fun s hs => ?_
    exact (hs.trans hr).toContinues
  | picardDerivative =>
    change f.Yields n (boundThenDerive _ _ f t0 incremental peeling x) (·.Continues x)
    rw [boundThenDerive_eq]
    refine Settles.bind (P := (·.Continues x)) ?_ fun y hy => ?_
    · split_ifs
      · refine Settles.map ((Picard.continues_contract _ _ hx hn _).mono (fun _ h => h)
          fun _ h => ?_)
        -- slices are kept, so there is a visit for each of them
        exact h.resolve_right (not_or.2 ⟨not_not.2 (Or.inl rfl), lt_irrefl _⟩)
      · exact hx.continues
    · refine Settles.bind (f.yields_derivative hy.regular (hy.dimension.trans hn)) fun v hv => ?_
      exact Settles.map ((Derivative.amends_contract _ v hy.regular).mono
        (fun _ h => h.toContinues.trans hy) fun _ h => fun hanswers => h (hv hanswers))

end FlowTube
