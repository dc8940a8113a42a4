import FlowTube.Proofs.Contractor.Regular

/-! Operations on tube vectors, one after the other. Each takes a regular vector to a regular one
of the same dimension between the same ends, or refuses it for a reason that the vector itself
shows; so no sequence leads to a vector that is not well formed. A Picard step refuses a slice
that it should cut and that has its midpoint at an end: it then goes on as if there were two
slices. -/

namespace FlowTube

/-- An operation on a tube vector, with all it needs besides the vector. -/
inductive Operation
  | setCodomain (j i : ℕ) (y : Interval)
  | setGate (j k : ℕ) (y : Interval)
  | set (values : Box Interval) (t : Float)
  | sample (t : Float)
  | enforceGates
  | bisect (t ratio : Float) (upper : Bool)
  | bisectAt (t : Float) (k : ℕ) (ratio : Float) (upper : Bool)
  | hull (y : TubeVector Interval)
  | inter (y : TubeVector Interval)
  | derivative (direction : Direction) (v : TubeVector Interval)
  | picard (p : Picard) (fuel : ℕ) (f : Dynamics Interval) (direction : Direction)
  | integration (m : Integration) (f : Dynamics Interval) (t0 : Float) (direction : Direction)
  | ode (c : OdeContractor) (f : Dynamics Interval) (t0 : Float) (incremental peeling : Bool)

namespace Operation

/-- The half that is kept. -/
def half {α : Type} (upper : Bool) (halves : α × α) : α := if upper then halves.2 else halves.1

def run : Operation → TubeVector Interval → Except Error (TubeVector Interval)
  | setCodomain j i y, x => x.setCodomainAt j i y
  | setGate j k y, x => x.setGateAt j k y
  | set values t, x => x.set values t
  | sample t, x => .ok (x.sample t).1
  | enforceGates, x => .ok x.enforceGates
  | bisect t ratio upper, x => half upper <$> x.bisect t ratio
  | bisectAt t k ratio upper, x => half upper <$> x.bisectAt t k ratio
  | hull y, x => x.hull y
  | inter y, x => x.inter y
  | derivative direction v, x => (·.1) <$> Derivative.contract direction v x
  | picard p fuel f direction, x => (·.1) <$> p.contract fuel f direction x
  | integration m f t0 direction, x => (·.1) <$> m.contract f t0 direction x
  | ode c f t0 incremental peeling, x => c.contract f t0 incremental peeling x

/-- Runs the operations in order, up to the first failure. -/
def runAll : List Operation → TubeVector Interval → Except Error (TubeVector Interval)
  | [], x => .ok x
  | op :: ops, x => op.run x >>= runAll ops

theorem runAll_cons (op : Operation) (ops : List Operation) (x : TubeVector Interval) :
    runAll (op :: ops) x = op.run x >>= runAll ops := rfl

/-- What an operation needs besides the vector fits the vector: bounds are numbers and times are
not `-0`, another vector is regular with the same dimension and domain, and dynamics answer for
as many components. -/
def Suits (x : TubeVector Interval) : Operation → Prop
  | setCodomain _ _ y => y.Numeric
  | set values t => values.length = x.dimension ∧ t ≠ -0.0
  | sample t | bisect t _ _ | bisectAt t _ _ _ => t ≠ -0.0
  | hull y | inter y => y.Regular ∧ y.dimension = x.dimension ∧ (y.domain == x.domain) = true
  | picard _ _ f _ | integration _ f _ _ | ode _ f _ _ _ => f.Answers x.dimension
  | setGate _ _ _ | enforceGates | derivative _ _ => True

/-- Why an operation fails on a vector: an index is out of range, there is nothing to split, the
derivative has other slices, or a slice that should be cut has its midpoint at an end. The visits
of a Picard step must also be enough for the slices that there can be. -/
def Refuses (x : TubeVector Interval) : Operation → Prop
  | setCodomain j i _ => x.dimension ≤ j ∨ x.sliceCount ≤ i
  | setGate j k _ => x.dimension ≤ j ∨ x.sliceCount < k
  | bisect t ratio _ => x.domain.contains t = false ∨
      x.sideParts? t (Box.widest ((x.sample t).1.eval t)) ratio = none
  | bisectAt t k ratio _ => x.domain.contains t = false ∨ x.sideParts? t k ratio = none
  | derivative _ v => ¬Derivative.Covers v x
  | picard p fuel _ _ => ¬p.Divides x.domain ∨ fuel < p.visits x
  | set _ _ | sample _ | enforceGates | hull _ | inter _ | integration _ _ _ _
  | ode _ _ _ _ _ => False

variable {x y : TubeVector Interval} {op : Operation}

/-- One operation keeps a vector regular between the same ends, or refuses it. -/
theorem settles_run (hx : x.Regular) (hy : y.Continues x) (hop : op.Suits x) :
    Settles (op.run y) (·.Continues x) (fun _ => op.Refuses y) := by
  have hreg := hy.regular
  have hhalf (upper : Bool) {t : Float} (ht : t ≠ -0.0)
      {halves : TubeVector Interval × TubeVector Interval}
      (h : halves.1.Shrinks (y.sample t).1 ∧ halves.2.Shrinks (y.sample t).1) :
      (half upper halves).Continues x := by
    have hs := hreg.sample ht
    cases upper with
    | false => exact ((hs.regular.amends_of_shrinks h.1).toContinues.trans hs).trans hy
    | true => exact ((hs.regular.amends_of_shrinks h.2).toContinues.trans hs).trans hy
  -- another vector has the ends of the vector at hand, as that one still has those of the first
  have hother {z : TubeVector Interval} (hz : z.Regular) (hdomain : (z.domain == x.domain) = true) :
      z.first.SameEnds y.first :=
    ((hz.first.ordered.domain_beq_iff hx.first.ordered).1 hdomain).trans hy.ends.symm
  cases op with
  | setCodomain j i z =>
    exact (hreg.setCodomainAt j i hop).mono (fun _ h => h.trans hy) fun _ h => h
  | setGate j k z => exact (hreg.setGateAt j k z).mono (fun _ h => h.trans hy) fun _ h => h
  | set values t =>
    exact (hreg.set hop.2 (hop.1.trans hy.dimension.symm)).mono (fun _ h => h.trans hy) fun _ h => h
  | sample t => exact (hreg.sample hop).trans hy
  | enforceGates => exact hreg.enforceGates.trans hy
  | bisect t ratio upper =>
    exact Settles.map ((hreg.bisect hop ratio).mono (fun _ h => hhalf upper hop h) fun _ h => h)
  | bisectAt t k ratio upper =>
    exact Settles.map ((hreg.bisectAt hop k ratio).mono (fun _ h => hhalf upper hop h) fun _ h => h)
  | hull z =>
    exact (hreg.combine Interval.keepsInclusion_union hop.1 (hop.2.1.trans hy.dimension.symm)
      (hother hop.1 hop.2.2)).mono (fun _ h => h.trans hy) fun _ h => h
  | inter z =>
    exact (hreg.combine Interval.keepsInclusion_inter hop.1 (hop.2.1.trans hy.dimension.symm)
      (hother hop.1 hop.2.2)).mono (fun _ h => h.trans hy) fun _ h => h
  | derivative direction v =>
    exact Settles.map ((Derivative.amends_contract direction v hreg).mono
      (fun _ h => h.toContinues.trans hy) fun _ h => h)
  | picard p fuel f direction =>
    exact Settles.map ((p.continues_contract fuel hreg hy.dimension direction).mono
      (fun _ h => h.trans hy) fun _ h => h.resolve_left (not_not.2 hop))
  | integration m f t0 direction =>
    exact Settles.map ((m.amends_contract hreg hy.dimension t0 direction).mono
      (fun _ h => h.toContinues.trans hy) fun _ h => h hop)
  | ode c f t0 incremental peeling =>
    exact (c.continues_contract hreg hy.dimension t0 incremental peeling).mono
      (fun _ h => h.trans hy) fun _ h => h hop

/-- A sequence of operations keeps a vector regular between the same ends, unless one of them
refuses what the ones before it have made. -/
theorem settles_runAll (hx : x.Regular) {ops : List Operation} (hops : ∀ op ∈ ops, op.Suits x)
    (hy : y.Continues x) :
    Settles (runAll ops y) (·.Continues x) (fun _ => ∃ before op after z,
      ops = before ++ op :: after ∧ runAll before y = .ok z ∧ op.Refuses z) := by
  induction ops generalizing y with
  | nil => exact hy
  | cons op ops ih =>
    obtain ⟨hop, hops⟩ := List.forall_mem_cons.1 hops
    have hstep := settles_run hx hy hop
    rw [runAll_cons]
    cases hrun : op.run y with
    | error e =>
      rw [hrun] at hstep
      exact ⟨[], op, ops, y, rfl, rfl, hstep⟩
    | ok z =>
      rw [hrun] at hstep
      refine (ih hops hstep).mono (fun _ h => h) ?_
      rintro - ⟨before, op', after, w, rfl, hbefore, hrefuses⟩
      refine ⟨op :: before, op', after, w, rfl, ?_, hrefuses⟩
      rw [runAll_cons, hrun]
      exact hbefore

end Operation

/-! ### Well-formed vectors -/

theorem TubeVector.WellFormed.regular {x : TubeVector Interval} (h : x.WellFormed)
    (hnumeric : ∀ c ∈ x.components, ∀ i, (c.codomain i).Numeric) (hzero : ∀ t ∈ x.times, t ≠ -0.0) :
    x.Regular where
  someComponent := h.someComponent
  components c hc := ⟨h.components c hc, hnumeric c hc, fun t ht => hzero t (h.shared c hc ▸ ht)⟩
  shared := h.shared

theorem Tube.Ordered.times_getElem? {c : Tube Interval} (h : c.Ordered) {k : ℕ}
    (hk : k ≤ c.sliceCount) : c.times[k]? = some (c.time k) := by
  have hsize := h.size_times
  rw [Array.getElem?_eq_getElem (by omega), Tube.time_eq_getElem (by omega)]

/-- Ends other than `-0` with the same values are the same. -/
theorem TubeVector.Continues.times_ends {x y : TubeVector Interval} (h : y.Continues x)
    (hx : x.Regular) : y.times[0]? = x.times[0]? ∧ y.times.back? = x.times.back? := by
  have hy := h.regular
  have hsame {j k : ℕ} (hj : j ≤ y.first.sliceCount) (hk : k ≤ x.first.sliceCount)
      (hmoment : y.first.moment j = x.first.moment k) :
      y.first.times[j]? = x.first.times[k]? := by
    rw [hy.first.ordered.times_getElem? hj, hx.first.ordered.times_getElem? hk]
    exact congrArg some (Binary64.eq_of_value_eq (hy.first.ordered.isNaN_time hj)
      (hx.first.ordered.isNaN_time hk) (hy.first.time_ne_negZero hj)
      (hx.first.time_ne_negZero hk) hmoment)
  refine ⟨hsame (Nat.zero_le _) (Nat.zero_le _) h.ends.1, ?_⟩
  change y.first.times.back? = x.first.times.back?
  rw [Array.back?_eq_getElem?, Array.back?_eq_getElem?, hy.first.ordered.size_times,
    hx.first.ordered.size_times]
  exact hsame le_rfl le_rfl h.ends.2

/-! ### One open slice -/

/-- A slope of which nothing is known. -/
def Dynamics.unknown : Dynamics Interval where
  dimension := 1
  apply slots _ _ := .ok (List.replicate slots Interval.whole)
  applyOnTube _ _ _ := .ok [Interval.whole]

theorem Dynamics.answers_unknown : unknown.Answers 1 := fun _ _ _ _ _ => ⟨_, rfl, rfl⟩

namespace TubeVector

/-- One unbounded slice from `a` to `b`, between gates from minus one to one. -/
def openSlice (a b : Float) : TubeVector Interval :=
  ⟨[{ times := #[a, b], codomains := #[Interval.whole], gates := #[⟨-1.0, 1.0⟩, ⟨-1.0, 1.0⟩] }]⟩

theorem wellFormed_openSlice {a b : Float} (hab : a < b) : (openSlice a b).WellFormed := by
  have hinside : Interval.isSubset ⟨-1.0, 1.0⟩ Interval.whole = true := by decide
  refine ⟨List.cons_ne_nil _ _, fun c hc => ?_, fun c hc => ?_⟩
  · obtain rfl := List.mem_singleton.1 hc
    refine ⟨⟨Nat.one_pos, rfl, rfl⟩, List.pairwise_pair.2 hab, fun i hi => ?_, fun i hi => ?_⟩
    all_goals
      obtain rfl := Nat.lt_one_iff.1 hi
      exact hinside
  · rw [List.mem_singleton.1 hc]
    rfl

theorem numeric_openSlice (a b : Float) :
    ∀ c ∈ (openSlice a b).components, ∀ i, (c.codomain i).Numeric := by
  have hwhole : Interval.whole.Numeric := ⟨by decide, by decide⟩
  intro c hc i
  obtain rfl := List.mem_singleton.1 hc
  cases i with
  | zero => exact hwhole
  | succ i => exact Interval.numeric_empty

end TubeVector

open TubeVector (openSlice wellFormed_openSlice numeric_openSlice)

/-! ### Sequences of operations -/

/-- Any sequence of operations takes a well-formed vector to a well-formed one of the same
dimension with the same first and last time. It fails only where an operation refuses the vector
that the ones before it have made. -/
theorem Operation.runAll_keeps_wellFormed {x : TubeVector Interval} (hx : x.WellFormed)
    (hnumeric : ∀ c ∈ x.components, ∀ i, (c.codomain i).Numeric)
    (hzero : ∀ t ∈ x.times, t ≠ -0.0) {ops : List Operation} (hops : ∀ op ∈ ops, op.Suits x) :
    (∀ y, runAll ops x = .ok y → y.WellFormed ∧ y.dimension = x.dimension ∧
      y.times[0]? = x.times[0]? ∧ y.times.back? = x.times.back?) ∧
    ∀ e, runAll ops x = .error e → ∃ before op after y,
      ops = before ++ op :: after ∧ runAll before x = .ok y ∧ op.Refuses y := by
  have hreg := hx.regular hnumeric hzero
  have hrun := settles_runAll hreg hops hreg.continues
  constructor
  · intro y hy
    rw [hy] at hrun
    exact ⟨hrun.regular.wellFormed, hrun.dimension, hrun.times_ends hreg⟩
  · intro e he
    rwa [he] at hrun

/-- Nothing is known of the slope, so slices are cut as far as they may be; further operations
follow. -/
theorem Operation.runAll_keeps_wellFormed_openSlice :
    let x := openSlice 0.0 1.0
    let ops := [picard {} (2 ^ 65) .unknown .both, sample 0.3, set [Interval.unit] 0.7, hull x]
    x.WellFormed ∧ (∀ t ∈ x.times, t ≠ -0.0) ∧ (∀ op ∈ ops, op.Suits x) ∧
      ∃ y, runAll ops x = .ok y ∧ y.WellFormed ∧ y.dimension = x.dimension ∧
        y.times[0]? = x.times[0]? ∧ y.times.back? = x.times.back? := by
  intro x ops
  have hx : x.WellFormed := wellFormed_openSlice (by decide)
  have hzero : ∀ t ∈ x.times, t ≠ -0.0 := by decide
  have hops : ∀ op ∈ ops, op.Suits x := by
    simp only [ops, List.forall_mem_cons, List.not_mem_nil, false_imp_iff, implies_true, and_true]
    have hlate : (0.3 : Float) ≠ -0.0 ∧ (0.7 : Float) ≠ -0.0 := by decide
    exact ⟨Dynamics.answers_unknown, hlate.1, ⟨rfl, hlate.2⟩,
      hx.regular (numeric_openSlice _ _) hzero, rfl, by decide⟩
  obtain ⟨hok, herror⟩ := runAll_keeps_wellFormed hx (numeric_openSlice _ _) hzero hops
  refine ⟨hx, hzero, hops, ?_⟩
  cases hrun : runAll ops x with
  | ok y => exact ⟨y, rfl, hok y hrun⟩
  | error e =>
    obtain ⟨before, op, after, y, hsplit, hbefore, hrefuses⟩ := herror e hrun
    cases before with
    | nil =>
      obtain ⟨rfl, -⟩ := List.cons.inj hsplit
      obtain rfl := Except.ok.inj hbefore
      rcases hrefuses with hdivides | hfuel
      · have hdomain : x.domain = ⟨0.0, 1.0⟩ :=
          (hx.components _ List.mem_cons_self).ordered.domain_eq
        rw [hdomain] at hdivides
        exact absurd (Picard.divides_unit {}) hdivides
      · exact absurd hfuel (by decide)
    | cons _ before =>
      have hmem : op ∈ ops.tail := by
        rw [hsplit]
        simp
      simp [ops] at hmem
      rcases hmem with rfl | rfl | rfl <;> exact hrefuses.elim

/-- A Picard step that fails: between neighbouring numbers the midpoint is a breakpoint, so the
slice stays whole, and the step goes on to a second slice. -/
theorem Operation.picard_fails_between_neighbours :
    let x := openSlice 1.0 (Binary64.nextUp 1.0)
    x.WellFormed ∧ (∀ c ∈ x.components, ∀ i, (c.codomain i).Numeric) ∧
      (∀ t ∈ x.times, t ≠ -0.0) ∧
      ∀ fuel ≥ 2, (picard {} fuel .unknown .backward).Suits x ∧
        (picard {} fuel .unknown .backward).run x = .error .indexOutOfRange := by
  intro x
  have hslice : ({} : Picard).contractSlice .unknown x 0 false = .ok (x, .failed) := by
    have hcodomain : Box.isBounded (x.codomain 0) = false := by decide +kernel
    have hentry : Box.isBounded (x.gate (TubeVector.entryExit false 0).1) = true := by
      decide +kernel
    have hnone : ({} : Picard).enclosure .unknown x (x.sliceDomain 0)
        (x.gate (TubeVector.entryExit false 0).1) false = .ok none :=
      Picard.enclosure_eq_none rfl (by decide +kernel)
    rw [Picard.contractSlice_eq]
    dsimp only
    rw [hcodomain, hentry, hnone]
    rfl
  refine ⟨wellFormed_openSlice (by decide), numeric_openSlice _ _, by decide, fun fuel hfuel => ?_⟩
  obtain ⟨fuel, rfl⟩ := Nat.exists_eq_add_of_le' hfuel
  have hrun : ({} : Picard).contract (fuel + 2) .unknown .backward x = .error .indexOutOfRange :=
    Picard.contract_of_uncut rfl hslice (by decide +kernel) (by decide +kernel)
  refine ⟨Dynamics.answers_unknown, ?_⟩
  change (·.1) <$> ({} : Picard).contract (fuel + 2) .unknown .backward x = _
  rw [hrun]
  rfl

end FlowTube
