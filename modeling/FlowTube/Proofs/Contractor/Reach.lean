import FlowTube.Contractor.Picard
import FlowTube.Proofs.TubeVector.Encloses

/-! What a trajectory reaches within a span of time. Between two times a function advances by
the time between them times a slope; so a box of slopes, the time elapsed and a box for the
value at one end of the span give a box for the value at every other time. -/

namespace FlowTube

variable {ι : Type} [Enclosure ι] [Membership ℝ ι]

/-! ### Slopes -/

/-- The slopes of a function between any two of the times lie in an interval. -/
def HasSlopes (g : ℝ → ℝ) (v : ι) (times : Set ℝ) : Prop :=
  ∀ s ∈ times, ∀ t ∈ times, s < t → (g t - g s) / (t - s) ∈ v

omit [Enclosure ι] in
/-- From any of the times to any other one, the function advances by a slope. -/
theorem HasSlopes.exists_slope {g : ℝ → ℝ} {v : ι} {times : Set ℝ} (h : HasSlopes g v times)
    (htimes : times.Nontrivial) {s t : ℝ} (hs : s ∈ times) (ht : t ∈ times) :
    ∃ r ∈ v, g t = g s + (t - s) * r := by
  rcases lt_trichotomy s t with hst | rfl | hts
  · refine ⟨_, h s hs t ht hst, ?_⟩
    rw [mul_div_cancel₀ _ (sub_ne_zero.2 hst.ne')]
    ring
  · obtain ⟨a, ha, b, hb, hab⟩ := htimes.exists_lt
    exact ⟨_, h a ha b hb hab, by ring⟩
  · refine ⟨_, h t ht s hs hts, ?_⟩
    have hne : s - t ≠ 0 := sub_ne_zero.2 hts.ne'
    field_simp
    ring

omit [Enclosure ι] in
theorem hasSlopes_of_subsingleton {g : ℝ → ℝ} {v : ι} {times : Set ℝ} (h : times.Subsingleton) :
    HasSlopes g v times :=
  fun _ hs _ ht hst => absurd (h hs ht) hst.ne

omit [Enclosure ι] in
/-- A constant has the slope zero. -/
theorem hasSlopes_const {v : ι} (h : (0 : ℝ) ∈ v) (r : ℝ) (times : Set ℝ) :
    HasSlopes (fun _ => r) v times := by
  intro s _ t _ _
  simpa using h

/-! ### Spans of time -/

namespace Interval

theorem subsingleton_of_isDegenerate {t : Interval} (h : t.isDegenerate = true) :
    {r : ℝ | r ∈ t}.Subsingleton := by
  intro r hr s hs
  rw [isDegenerate, isEmpty_of_mem hr, Bool.false_or] at h
  have heq := (Binary64.beq_iff.1 h).2.2
  have hrs : (r : EReal) = s :=
    le_antisymm (hr.2.2.trans (heq.ge.trans hs.1.2)) (hs.2.2.trans (heq.ge.trans hr.1.2))
  exact EReal.coe_eq_coe_iff.1 hrs

/-- Two finite bounds, one after the other. -/
structure IsSpan (t : Interval) : Prop where
  isFinite_lb : t.lb.isFinite = true
  isFinite_ub : t.ub.isFinite = true
  lt : Binary64.real t.lb < Binary64.real t.ub

/-- The end from which a span is passed through. -/
noncomputable def origin (t : Interval) (forward : Bool) : ℝ :=
  Binary64.real (if forward then t.lb else t.ub)

/-- The end at which a span is left. -/
noncomputable def target (t : Interval) (forward : Bool) : ℝ :=
  Binary64.real (if forward then t.ub else t.lb)

/-- The time from `a` to `b`, forward or backward. -/
def passed (forward : Bool) (a b : ℝ) : ℝ := if forward then b - a else a - b

namespace IsSpan

variable {t : Interval} {r : ℝ}

theorem mem_iff (h : t.IsSpan) : r ∈ t ↔ r ∈ Set.Icc (Binary64.real t.lb) (Binary64.real t.ub) :=
  mem_iff_of_isFinite h.isFinite_lb h.isFinite_ub

theorem lb_mem (h : t.IsSpan) : Binary64.real t.lb ∈ t := h.mem_iff.2 ⟨le_rfl, h.lt.le⟩

theorem ub_mem (h : t.IsSpan) : Binary64.real t.ub ∈ t := h.mem_iff.2 ⟨h.lt.le, le_rfl⟩

theorem origin_mem (h : t.IsSpan) (forward : Bool) : t.origin forward ∈ t := by
  cases forward with
  | true => exact h.lb_mem
  | false => exact h.ub_mem

theorem target_mem (h : t.IsSpan) (forward : Bool) : t.target forward ∈ t := by
  cases forward with
  | true => exact h.ub_mem
  | false => exact h.lb_mem

theorem nontrivial (h : t.IsSpan) : {r : ℝ | r ∈ t}.Nontrivial :=
  Set.nontrivial_of_lt h.lb_mem h.ub_mem h.lt

/-- The width is enclosed. -/
theorem mem_width [Enclosure.Sound ι] (h : t.IsSpan) :
    Binary64.real t.ub - Binary64.real t.lb ∈ (Enclosure.width t : ι) :=
  Enclosure.Sound.mem_sub (Enclosure.Lawful.mem_point h.isFinite_ub)
    (Enclosure.Lawful.mem_point h.isFinite_lb)

/-- The time from one end to any time of the span is enclosed. -/
theorem mem_elapsed [Enclosure.Sound ι] (h : t.IsSpan) {d : ℝ} (h0 : 0 ≤ d)
    (hd : d ≤ Binary64.real t.ub - Binary64.real t.lb) : d ∈ (Enclosure.elapsed t : ι) :=
  Enclosure.Lawful.mem_fromZero h.mem_width h0 hd

theorem passed_mem_elapsed [Enclosure.Sound ι] (h : t.IsSpan) (forward : Bool) (hr : r ∈ t) :
    passed forward (t.origin forward) r ∈ (Enclosure.elapsed t : ι) := by
  obtain ⟨hlow, hup⟩ := h.mem_iff.1 hr
  cases forward with
  | true => exact h.mem_elapsed (sub_nonneg.2 hlow) (sub_le_sub_right hup _)
  | false => exact h.mem_elapsed (sub_nonneg.2 hup) (sub_le_sub_left hlow _)

theorem passed_mem_width [Enclosure.Sound ι] (h : t.IsSpan) (forward : Bool) :
    passed forward (t.origin forward) (t.target forward) ∈ (Enclosure.width t : ι) := by
  cases forward with
  | true => exact h.mem_width
  | false => exact h.mem_width

end IsSpan

end Interval

omit [Enclosure ι] [Membership ℝ ι] in
theorem Tube.Sliced.isSpan_sliceDomain {x : Tube ι} (h : x.Sliced) {i : ℕ}
    (hi : i < x.sliceCount) : (x.sliceDomain i).IsSpan := by
  rw [h.sliceDomain_eq hi]
  exact ⟨h.isFinite_time hi.le, h.isFinite_time hi, h.instant_lt_instant (Nat.lt_succ_self i) hi⟩

omit [Enclosure ι] [Membership ℝ ι] in
theorem Tube.Sliced.mem_sliceDomain {x : Tube ι} (h : x.Sliced) {i : ℕ} (hi : i < x.sliceCount)
    {r : ℝ} : r ∈ x.sliceDomain i ↔ x.instant i ≤ r ∧ r ≤ x.instant (i + 1) := by
  rw [h.sliceDomain_eq hi]
  exact Interval.mem_iff_of_isFinite (h.isFinite_time hi.le) (h.isFinite_time hi)

/-! ### Boxes -/

namespace Box

variable {X : ℝ → ℕ → ℝ} {p : ℕ → ℝ} {x y entry v : Box ι} {t : Interval} {forward : Bool}

/-- The box holds the trajectory at every time of an interval. -/
def HoldsOver (x : Box ι) (t : Interval) (X : ℝ → ℕ → ℝ) : Prop := ∀ r ∈ t, Holds x (X r)

theorem HoldsOver.inter [Enclosure.Lawful ι] (hx : HoldsOver x t X) (hy : HoldsOver y t X) :
    HoldsOver (Box.inter x y) t X := fun r hr => (hx r hr).inter (hy r hr)

omit [Membership ℝ ι] in
theorem length_inter (h : y.length = x.length) : (Box.inter x y).length = x.length := by
  rw [Box.inter, List.length_zipWith, h, min_self]

omit [Membership ℝ ι] in
theorem length_hull (h : y.length = x.length) : (Box.hull x y).length = x.length := by
  rw [Box.hull, List.length_zipWith, h, min_self]

omit [Membership ℝ ι] in
theorem length_step {h : ι} (hv : v.length = entry.length) :
    (Box.step forward entry v h).length = entry.length := by
  rw [Box.step, List.length_zipWith, hv, min_self]

/-- What is reached from a value with the slopes from there on. -/
theorem holds_step [Enclosure.Sound ι] {a b : ℝ} {h : ι} (hentry : Holds entry (X a))
    (hh : Interval.passed forward a b ∈ h)
    (hv : ∀ (j : ℕ) (w : ι), v[j]? = some w → ∃ r ∈ w, X b j = X a j + (b - a) * r) :
    Holds (Box.step forward entry v h) (X b) := by
  refine holds_zipWith fun j e w he hw => ?_
  obtain ⟨r, hr, hXb⟩ := hv j w hw
  cases forward with
  | true =>
    rw [if_pos rfl, hXb]
    exact Enclosure.Sound.mem_add (hentry j e he) (Enclosure.Sound.mem_mul hh hr)
  | false =>
    rw [if_neg Bool.false_ne_true, hXb, show (b - a) * r = -((a - b) * r) by ring,
      ← sub_eq_add_neg]
    exact Enclosure.Sound.mem_sub (hentry j e he) (Enclosure.Sound.mem_mul hh hr)

/-- What is reached within a span, and at its end, with the slopes over the span. -/
theorem holdsOver_step [Enclosure.Sound ι] (ht : t.IsSpan)
    (hentry : Holds entry (X (t.origin forward)))
    (hv : ∀ (j : ℕ) (w : ι), v[j]? = some w → HasSlopes (fun r => X r j) w {r | r ∈ t}) :
    HoldsOver (Box.step forward entry v (Enclosure.elapsed t)) t X ∧
      Holds (Box.step forward entry v (Enclosure.width t)) (X (t.target forward)) := by
  have hslope {b : ℝ} (hb : b ∈ t) (j : ℕ) (w : ι) (hw : v[j]? = some w) :
      ∃ r ∈ w, X b j = X (t.origin forward) j + (b - t.origin forward) * r :=
    (hv j w hw).exists_slope ht.nontrivial (ht.origin_mem forward) hb
  exact ⟨fun r hr => holds_step hentry (ht.passed_mem_elapsed forward hr) (hslope hr),
    holds_step hentry (ht.passed_mem_width forward) (hslope (ht.target_mem forward))⟩

end Box

/-! ### Slope one, and rest -/

/-- The system of slope one. -/
def Dynamics.steady (o : Operators) : Dynamics (Rounded o) where
  dimension := 1
  apply slots _ _ := .ok (List.replicate slots (Interval.point 1.0))
  applyOnTube _ _ _ := .ok [Interval.point 1.0]

/-- Its answers enclose every slope of the identity. -/
theorem Dynamics.holds_steady {o : Operators} {t : Interval} {box v : Box (Rounded o)}
    {x : TubeVector (Rounded o)} (hv : (steady o).applyOnTube t box x = .ok v) {r s : ℝ}
    (hrs : r < s) : v.Holds fun _ => (s - r) / (s - r) := by
  intro j w hw
  obtain rfl := Except.ok.inj hv
  obtain ⟨hj, rfl⟩ := List.getElem?_eq_some_iff.1 hw
  obtain rfl : j = 0 := Nat.lt_one_iff.1 hj
  exact Interval.mem_point_one.2 (div_self (sub_ne_zero.2 hrs.ne'))

/-- The slope zero, and no slope at a single time. -/
def Interval.slopeAtRest (t : Interval) : Interval := if t.isDegenerate then empty else zero

theorem Interval.hasSlopes_slopeAtRest (t : Interval) :
    HasSlopes (fun _ => 0) t.slopeAtRest {r | r ∈ t} := by
  unfold slopeAtRest
  split_ifs with h
  · exact hasSlopes_of_subsingleton (subsingleton_of_isDegenerate h)
  · exact hasSlopes_const zero_mem_zero 0 _

/-- The system of slope zero. -/
def Dynamics.resting (o : Operators) : Dynamics (Rounded o) where
  dimension := 1
  apply slots _ _ := .ok (List.replicate slots Interval.zero)
  applyOnTube t _ _ := .ok [t.slopeAtRest]

end FlowTube
