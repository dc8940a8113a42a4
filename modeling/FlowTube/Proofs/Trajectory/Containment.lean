import FlowTube.Trajectory
import FlowTube.Proofs.TubeVector.Timed

/-! What an answer of containment says of a function. The function is known by the enclosures of a
trajectory only. A place of a tube is a gate with its breakpoint or a codomain with its slice; if
the enclosure there is a part of the place, so are all values of the function, and if the two have
nothing in common, no value is inside. The answer is yes if the first is true of all places, and no
if the second is true of one of them.

Between finite breakpoints every place has a time, so an answer of no is about a value of the
function. A breakpoint at an infinity has none: the enclosure there is empty and misses every gate,
and the answer is no without a value that is outside. -/

namespace FlowTube

open Binary64 (value real)

variable {ι : Type}

namespace TubeVector

variable [Elementary ι] {truth : Trajectory ι} {x : TubeVector ι} {b y : Box ι} {v : Verdict}
  {places : List (Box ι × Interval)} {q : Box ι × Interval} {notices : List Notice}
  {tubes : List (TubeVector ι)} {t : ℝ} {i j k : ℕ}

/-! ### Places -/

theorem Timed.mem_places (hx : x.Timed) : q ∈ x.places ↔
    (∃ k ≤ x.sliceCount, q = (x.gate k, Interval.point (x.first.time k))) ∨
      ∃ i < x.sliceCount, q = (x.codomain i, x.sliceDomain i) := by
  have hsize : x.times.size = x.sliceCount + 1 := hx.first.size_times
  have htime (k : ℕ) (hk : k < x.times.size) : x.times[k] = x.first.time k :=
    (Tube.time_eq_getElem (x := x.first) hk).symm
  unfold places
  rw [List.mem_append, List.mem_map]
  apply or_congr
  · simp only [List.mem_iff_getElem, List.length_mapIdx, Array.length_toList, List.getElem_mapIdx,
      Array.getElem_toList, hsize, htime, Nat.lt_succ_iff, exists_prop, eq_comm]
  · simp only [List.mem_range, eq_comm]

theorem Timed.length_of_mem_places (hx : x.Timed) (hq : q ∈ x.places) :
    q.1.length = x.dimension := by
  rcases hx.mem_places.1 hq with ⟨k, -, rfl⟩ | ⟨i, -, rfl⟩ <;> simp [gate, codomain, dimension]

/-- Places lie in the time domain. -/
theorem Timed.mem_domain_of_mem_places (hx : x.Timed) (hq : q ∈ x.places)
    (ht : t ∈ q.2) : t ∈ x.domain := by
  rcases hx.mem_places.1 hq with ⟨k, hk, rfl⟩ | ⟨i, hi, rfl⟩
  · have heq := (hx.first.mem_point_iff hk).1 ht
    apply hx.first.mem_domain
    · exact heq ▸ hx.first.moment_le_moment (Nat.zero_le k) hk
    · exact heq ▸ hx.first.moment_le_moment hk le_rfl
  · obtain ⟨hlow, hup⟩ := (hx.first.mem_sliceDomain_iff hi).1 ht
    apply hx.first.mem_domain
    · exact (hx.first.moment_le_moment (Nat.zero_le i) (Nat.le_of_lt hi)).trans hlow
    · exact hup.trans (hx.first.moment_le_moment hi le_rfl)

/-- Between bounded ends every place has a time. -/
theorem Timed.exists_mem_of_mem_places (hx : x.Timed) (hdomain : x.domain.isBounded = true)
    (hq : q ∈ x.places) : ∃ t : ℝ, t ∈ q.2 := by
  rcases hx.mem_places.1 hq with ⟨k, hk, rfl⟩ | ⟨i, hi, rfl⟩
  · exact ⟨_, (hx.first.mem_point_iff hk).2 (hx.first.moment_eq_real hdomain hk)⟩
  · have heq := hx.first.moment_eq_real hdomain (Nat.le_of_lt hi)
    refine ⟨_, (hx.first.mem_sliceDomain_iff hi).2 ⟨heq.le, ?_⟩⟩
    exact heq.ge.trans (hx.first.moment_le_moment (Nat.le_succ i) hi)

/-! ### Answers -/

/-- The answer is yes only if it is yes at every place. -/
theorem judgeAll_yes (h : judgeAll truth v places = .ok .yes) :
    v = .yes ∧ ∀ q ∈ places, ∃ y, truth.eval q.2 = .ok y ∧ judge q.1 y = .yes := by
  induction places generalizing v with
  | nil => exact ⟨Except.ok.inj h, by simp⟩
  | cons q places ih =>
    rw [judgeAll] at h
    obtain ⟨y, hy, h⟩ := bind_eq_ok.1 h
    cases hjudge : judge q.1 y with
    | no =>
      rw [hjudge] at h
      cases h
    | maybe =>
      rw [hjudge] at h
      cases (ih h).1
    | yes =>
      rw [hjudge] at h
      obtain ⟨hv, hall⟩ := ih h
      exact ⟨hv, List.forall_mem_cons.2 ⟨⟨y, hy, hjudge⟩, hall⟩⟩

/-- The answer is no only if it is no at some place. -/
theorem judgeAll_no (h : judgeAll truth v places = .ok .no) :
    v = .no ∨ ∃ q ∈ places, ∃ y, truth.eval q.2 = .ok y ∧ judge q.1 y = .no := by
  induction places generalizing v with
  | nil => exact Or.inl (Except.ok.inj h)
  | cons q places ih =>
    rw [judgeAll] at h
    obtain ⟨y, hy, h⟩ := bind_eq_ok.1 h
    cases hjudge : judge q.1 y with
    | no => exact Or.inr ⟨q, List.mem_cons_self, y, hy, hjudge⟩
    | maybe =>
      rw [hjudge] at h
      obtain ⟨q', hq', hno⟩ := (ih h).resolve_left (by decide)
      exact Or.inr ⟨q', List.mem_cons_of_mem _ hq', hno⟩
    | yes =>
      rw [hjudge] at h
      apply (ih h).imp_right
      rintro ⟨q', hq', hno⟩
      exact ⟨q', List.mem_cons_of_mem _ hq', hno⟩

/-- An answer of yes or no is that of all places, in a domain that the trajectory covers. -/
theorem of_contains (h : x.contains truth = .ok ⟨v, notices⟩)
    (hv : v ≠ .maybe) :
    truth.dimension = x.dimension ∧ x.domain.isSubset truth.domain = true ∧
      judgeAll truth .yes x.places = .ok v := by
  unfold contains at h
  split_ifs at h with hdim hsub
  · cases h
    contradiction
  · obtain ⟨v', hall, h⟩ := bind_eq_ok.1 h
    cases h
    exact ⟨by simpa using hdim, by simpa using hsub, hall⟩

/-- The answer for a list is yes only if it is yes for one of its tubes. -/
theorem of_someContains_yes (h : (someContains truth tubes).value = .ok .yes) :
    ∃ x ∈ tubes, ∃ notices, x.contains truth = .ok ⟨.yes, notices⟩ := by
  have hgo : ∀ (tubes : List (TubeVector ι)) (v : Verdict) (notices : List Notice), v ≠ .yes →
      (someContains.go truth v notices tubes).value = .ok .yes →
      ∃ x ∈ tubes, ∃ notices, x.contains truth = .ok ⟨.yes, notices⟩ := by
    intro tubes
    induction tubes with
    | nil =>
      intro v notices hv h
      exact absurd (Except.ok.inj h) hv
    | cons x tubes ih =>
      intro v notices hv h
      rw [someContains.go] at h
      split at h
      case h_1 => cases h
      case h_2 more hx => exact ⟨x, List.mem_cons_self, more, hx⟩
      case h_3 =>
        obtain ⟨z, hz, hyes⟩ := ih _ _ (by decide) h
        exact ⟨z, List.mem_cons_of_mem _ hz, hyes⟩
      case h_4 =>
        obtain ⟨z, hz, hyes⟩ := ih _ _ hv h
        exact ⟨z, List.mem_cons_of_mem _ hz, hyes⟩
  exact hgo tubes .no [] (by decide) h

/-- The answer for a list is no only if it is no for all its tubes. -/
theorem of_someContains_no (h : (someContains truth tubes).value = .ok .no) :
    ∀ x ∈ tubes, ∃ notices, x.contains truth = .ok ⟨.no, notices⟩ := by
  have hgo : ∀ (tubes : List (TubeVector ι)) (v : Verdict) (notices : List Notice),
      (someContains.go truth v notices tubes).value = .ok .no →
      v = .no ∧ ∀ x ∈ tubes, ∃ notices, x.contains truth = .ok ⟨.no, notices⟩ := by
    intro tubes
    induction tubes with
    | nil =>
      intro v notices h
      exact ⟨Except.ok.inj h, by simp⟩
    | cons x tubes ih =>
      intro v notices h
      rw [someContains.go] at h
      split at h
      case h_1 => cases h
      case h_2 => cases h
      case h_3 => cases (ih _ _ h).1
      case h_4 more hx =>
        obtain ⟨hv, hall⟩ := ih _ _ h
        exact ⟨hv, List.forall_mem_cons.2 ⟨⟨more, hx⟩, hall⟩⟩
  exact (hgo tubes .no [] h).2

/-! ### Values of a function -/

variable [Membership ℝ ι] {X : ℝ → ℕ → ℝ} {p : ℕ → ℝ}

/-- A function is held at a time if every place with this time has its value. -/
theorem Timed.holdsAt_iff (hx : x.Timed) :
    x.HoldsAt X t ↔ ∀ q ∈ x.places, t ∈ q.2 → Box.Holds q.1 (X t) := by
  constructor
  · intro h q hq ht
    rcases hx.mem_places.1 hq with ⟨k, hk, rfl⟩ | ⟨i, hi, rfl⟩
    · intro j a ha
      rw [gate, List.getElem?_map, Option.map_eq_some_iff] at ha
      obtain ⟨c, hc, rfl⟩ := ha
      have hmem := List.mem_of_getElem? hc
      apply (h j c hc).1 k (by rwa [hx.sliceCount_eq hmem])
      rw [hx.moment_eq hmem]
      exact (hx.first.mem_point_iff hk).1 ht
    · intro j a ha
      rw [codomain, List.getElem?_map, Option.map_eq_some_iff] at ha
      obtain ⟨c, hc, rfl⟩ := ha
      have hmem := List.mem_of_getElem? hc
      obtain ⟨hlow, hup⟩ := (hx.first.mem_sliceDomain_iff hi).1 ht
      apply (h j c hc).2 i (by rwa [hx.sliceCount_eq hmem])
      · rwa [hx.moment_eq hmem]
      · rwa [hx.moment_eq hmem]
  · intro h j c hc
    have hmem := List.mem_of_getElem? hc
    constructor
    · intro k hk ht
      rw [hx.sliceCount_eq hmem] at hk
      rw [hx.moment_eq hmem] at ht
      apply h (x.gate k, Interval.point (x.first.time k))
      · exact hx.mem_places.2 (Or.inl ⟨k, hk, rfl⟩)
      · exact (hx.first.mem_point_iff hk).2 ht
      · simp [gate, hc]
    · intro i hi hlow hup
      rw [hx.sliceCount_eq hmem] at hi
      rw [hx.moment_eq hmem] at hlow hup
      apply h (x.codomain i, x.sliceDomain i)
      · exact hx.mem_places.2 (Or.inr ⟨i, hi, rfl⟩)
      · exact (hx.first.mem_sliceDomain_iff hi).2 ⟨hlow, hup⟩
      · simp [codomain, hc]

section Judge

variable [Enclosure.Lawful ι] (hy : ∀ j < b.length, ∃ a, y[j]? = some a ∧ p j ∈ a)

include hy

theorem holds_of_judge_yes (h : judge b y = .yes) : Box.Holds b p := by
  unfold judge at h
  split_ifs at h with hno hyes
  intro j a ha
  obtain ⟨a', ha', hp⟩ := hy j (List.getElem?_eq_some_iff.1 ha).1
  have hmem : Enclosure.isSubset a' a ∈ List.zipWith (fun a b => Enclosure.isSubset b a) b y :=
    List.mem_of_getElem? (List.getElem?_zipWith_eq_some.2 ⟨a, a', ha, ha', rfl⟩)
  exact Enclosure.Lawful.mem_of_isSubset (List.all_eq_true.1 hyes _ hmem) hp

theorem not_holds_of_judge_no (h : judge b y = .no) : ¬Box.Holds b p := by
  unfold judge at h
  split_ifs at h with hno
  intro hb
  obtain ⟨empty, hmem, hempty⟩ := List.any_eq_true.1 hno
  obtain ⟨j, hj⟩ := List.mem_iff_getElem?.1 hmem
  obtain ⟨a, a', ha, ha', rfl⟩ := List.getElem?_zipWith_eq_some.1 hj
  obtain ⟨a'', ha'', hp⟩ := hy j (List.getElem?_eq_some_iff.1 ha).1
  rw [ha', Option.some.injEq] at ha''
  subst ha''
  rw [id, Enclosure.Lawful.isEmpty_of_mem (Enclosure.Lawful.mem_inter (hb j a ha) hp)] at hempty
  contradiction

end Judge

end TubeVector

/-- Each enclosure of the trajectory has the values of a function at the times of its domain. -/
def Trajectory.Covers [Elementary ι] [Membership ℝ ι] (truth : Trajectory ι) (X : ℝ → ℕ → ℝ) :
    Prop :=
  ∀ (T : Interval) (box : Box ι), truth.eval T = .ok box → ∀ t : ℝ, t ∈ T → t ∈ truth.domain →
    ∀ j < truth.dimension, ∃ a, box[j]? = some a ∧ X t j ∈ a

namespace TubeVector

variable [Elementary ι] [Membership ℝ ι] [Enclosure.Lawful ι] {truth : Trajectory ι}
  {X : ℝ → ℕ → ℝ} {x : TubeVector ι} {notices : List Notice}

section Sound

variable (hX : truth.Covers X) (hx : x.Timed)

include hX hx

theorem holdsAt_of_contains_yes (h : x.contains truth = .ok ⟨.yes, notices⟩) (t : ℝ) :
    x.HoldsAt X t := by
  obtain ⟨hdim, hsub, hall⟩ := of_contains h (by decide)
  rw [hx.holdsAt_iff]
  intro q hq ht
  obtain ⟨y, hy, hjudge⟩ := (judgeAll_yes hall).2 q hq
  apply holds_of_judge_yes _ hjudge
  intro j hj
  rw [hx.length_of_mem_places hq, ← hdim] at hj
  exact hX q.2 y hy t ht (Interval.mem_of_isSubset hsub (hx.mem_domain_of_mem_places hq ht)) j hj

theorem exists_not_holdsAt_of_contains_no (h : x.contains truth = .ok ⟨.no, notices⟩)
    (hdomain : x.domain.isBounded = true) : ∃ t ∈ x.domain, ¬x.HoldsAt X t := by
  obtain ⟨hdim, hsub, hall⟩ := of_contains h (by decide)
  obtain ⟨q, hq, y, hy, hjudge⟩ := (judgeAll_no hall).resolve_left (by decide)
  obtain ⟨t, ht⟩ := hx.exists_mem_of_mem_places hdomain hq
  have hin := hx.mem_domain_of_mem_places hq ht
  refine ⟨t, hin, fun hholds => ?_⟩
  apply not_holds_of_judge_no _ hjudge (hx.holdsAt_iff.1 hholds q hq ht)
  intro j hj
  rw [hx.length_of_mem_places hq, ← hdim] at hj
  exact hX q.2 y hy t ht (Interval.mem_of_isSubset hsub hin) j hj

end Sound

/-- An answer of yes is true of every value of the function. So is an answer of no of one of
them, if the time domain is bounded; and the answers for lists are right of some and of all of
their tubes. -/
theorem containment_sound (truth : Trajectory ι) (X : ℝ → ℕ → ℝ) (hX : truth.Covers X) :
    (∀ x : TubeVector ι, x.Timed → ∀ verdict notices,
      x.contains truth = .ok ⟨verdict, notices⟩ →
      (verdict = .yes → ∀ t, x.HoldsAt X t) ∧
        (verdict = .no → x.domain.isBounded = true → ∃ t ∈ x.domain, ¬x.HoldsAt X t)) ∧
    ∀ tubes : List (TubeVector ι), (∀ x ∈ tubes, x.Timed) → ∀ verdict,
      (someContains truth tubes).value = .ok verdict →
      (verdict = .yes → ∃ x ∈ tubes, ∀ t, x.HoldsAt X t) ∧
        (verdict = .no → ∀ x ∈ tubes, x.domain.isBounded = true →
          ∃ t ∈ x.domain, ¬x.HoldsAt X t) := by
  constructor
  · intro x hx verdict notices h
    constructor
    · rintro rfl
      exact holdsAt_of_contains_yes hX hx h
    · rintro rfl hdomain
      exact exists_not_holdsAt_of_contains_no hX hx h hdomain
  · intro tubes htubes verdict h
    constructor
    · rintro rfl
      obtain ⟨x, hx, notices, hyes⟩ := of_someContains_yes h
      exact ⟨x, hx, holdsAt_of_contains_yes hX (htubes x hx) hyes⟩
    · rintro rfl x hx hdomain
      obtain ⟨notices, hno⟩ := of_someContains_no h x hx
      exact exists_not_holdsAt_of_contains_no hX (htubes x hx) hno hdomain

end TubeVector

/-! ### A constant function -/

/-- One component with one value. -/
def Trajectory.constant (domain a : Interval) (shift : Float) : Trajectory Interval :=
  ⟨domain, 1, .analytic ⟨[[.const a]], []⟩ shift⟩

theorem Trajectory.covers_constant (domain : Interval) (shift : Float) {a : Interval} {r : ℝ}
    (hr : r ∈ a) : (constant domain a shift).Covers fun _ _ => r := by
  intro T box hbox t hT hdomain j hj
  have hne : (T ∩ domain).isEmpty = false :=
    Interval.isEmpty_of_mem (Interval.mem_inter hT hdomain)
  have heval : (constant domain a shift).eval T = .ok [a] :=
    if_neg (Bool.eq_false_iff.1 hne)
  obtain rfl := Except.ok.inj (heval.symm.trans hbox)
  obtain rfl : j = 0 := Nat.lt_one_iff.1 hj
  exact ⟨a, rfl, hr⟩

namespace TubeVector

/-- The value a half. -/
def halfPoint : Interval := ⟨0.5, 0.5⟩

theorem half_mem_halfPoint : (1 / 2 : ℝ) ∈ halfPoint := by
  rw [halfPoint, Interval.mem_iff_of_isFinite rfl rfl, Binary64.real_half]
  norm_num

theorem half_mem_unit : (1 / 2 : ℝ) ∈ Interval.unit := by
  rw [Interval.mem_unit]
  norm_num

/-- A half is in a slice of values from zero to one, and not in one of values from two to three. -/
theorem containment_sound_half :
    (Trajectory.constant .unit halfPoint 0.0).Covers (fun _ _ => 1 / 2) ∧
      (unitSlice Interval.unit .unit).Timed ∧
      (unitSlice (⟨2.0, 3.0⟩ : Interval) ⟨2.0, 3.0⟩).Timed ∧
      (∀ t, (unitSlice Interval.unit .unit).HoldsAt (fun _ _ => 1 / 2) t) ∧
      (∃ t ∈ Interval.unit,
        ¬(unitSlice (⟨2.0, 3.0⟩ : Interval) ⟨2.0, 3.0⟩).HoldsAt (fun _ _ => 1 / 2) t) ∧
      ∃ x ∈ [unitSlice (⟨2.0, 3.0⟩ : Interval) ⟨2.0, 3.0⟩, unitSlice .unit .unit],
        ∀ t, x.HoldsAt (fun _ _ => 1 / 2) t := by
  have hX := Trajectory.covers_constant .unit 0.0 half_mem_halfPoint
  have hin : (unitSlice Interval.unit .unit).Timed := sliced_unitSlice.timed
  have hout : (unitSlice (⟨2.0, 3.0⟩ : Interval) ⟨2.0, 3.0⟩).Timed := sliced_unitSlice.timed
  obtain ⟨htube, hlist⟩ := containment_sound (Trajectory.constant .unit halfPoint 0.0) _ hX
  have hyes := (htube _ hin .yes [] rfl).1 rfl
  have hno := (htube _ hout .no [] rfl).2 rfl (by decide +kernel)
  have hsome := (hlist [_, _] (by simpa using ⟨hout, hin⟩) .yes rfl).1 rfl
  exact ⟨hX, hin, hout, hyes, hno, hsome⟩

/-- From the largest finite number on, with values from zero to one. -/
def lastSlice : TubeVector Interval :=
  ⟨[{ times := #[Binary64.maxFinite, Binary64.inf]
      codomains := #[.unit]
      gates := #[.unit, .unit] }]⟩

theorem wellFormed_lastSlice : lastSlice.WellFormed where
  someComponent := by decide
  components := by
    intro c hc
    obtain rfl := List.mem_singleton.1 hc
    exact ⟨⟨by decide, by decide, by decide⟩, by decide, by decide +kernel, by decide +kernel⟩
  shared := by simp [lastSlice, times, first, component]

theorem holdsAt_lastSlice {X : ℝ → ℕ → ℝ} (hX : ∀ t, X t 0 ∈ Interval.unit) (t : ℝ) :
    lastSlice.HoldsAt X t := by
  intro j c hc
  obtain ⟨hj, rfl⟩ := List.getElem?_eq_some_iff.1 hc
  obtain rfl : j = 0 := Nat.lt_one_iff.1 hj
  constructor
  · intro k hk _
    change k ≤ 1 at hk
    interval_cases k <;> exact hX t
  · intro i hi _ _
    obtain rfl : i = 0 := Nat.lt_one_iff.1 hi
    exact hX t

/-- At an infinite breakpoint there is no time, and the answer is no for a tube with the function
inside. -/
theorem contains_no_lastSlice :
    let truth := (Trajectory.constant ⟨0.0, Binary64.maxFinite⟩ halfPoint 0.0).shift
      (-Binary64.maxFinite)
    truth.Covers (fun _ _ => 1 / 2) ∧ lastSlice.WellFormed ∧ lastSlice.Timed ∧
      lastSlice.contains truth = .ok ⟨.no, []⟩ ∧
      (someContains truth [lastSlice]).value = .ok .no ∧
      ∀ t, lastSlice.HoldsAt (fun _ _ => 1 / 2) t := by
  have hX := Trajectory.covers_constant
    (⟨0.0, Binary64.maxFinite⟩ - Interval.point (-Binary64.maxFinite))
    (0.0 + -Binary64.maxFinite) half_mem_halfPoint
  exact ⟨hX, wellFormed_lastSlice, wellFormed_lastSlice.timed, rfl, rfl,
    holdsAt_lastSlice fun _ => half_mem_unit⟩

end TubeVector

end FlowTube
