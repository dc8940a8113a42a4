import FlowTube.Proofs.Interval.Hull
import FlowTube.Proofs.Trajectory.Containment
import FlowTube.Proofs.TubeVector.Pointwise
import FlowTube.Proofs.TubeVector.Regular

/-! Bisections of tube vectors. A sample makes the time a breakpoint of every component, and the
gate there is found again in the component that is split. Its two parts have one number in common,
which lies strictly inside, so nothing is lost and nothing is kept twice: the hull of the halves is
the sampled vector as it is, and a trajectory in the vector is in one of the halves. A bisection
fails only outside the time domain, and where the place that the ratio asks for is not strictly
inside the gate. -/

namespace FlowTube

open Binary64 (value real lt_iff)

/-! ### Parts of an interval -/

namespace Interval

variable {a lo hi : Interval} {ratio s : Float} {r : ℝ}

/-- The place that a ratio asks for. -/
def splitPlace (a : Interval) (ratio : Float) : Float :=
  if a.isUnbounded then a.mid else a.lb * (1.0 - ratio) + a.ub * ratio

/-- The place that a ratio asks for is strictly inside. -/
structure SplitsBy (a : Interval) (ratio : Float) : Prop where
  nonempty : a.isEmpty = false
  above : a.lb < a.splitPlace ratio
  below : a.splitPlace ratio < a.ub

theorem SplitsBy.bisect? (h : a.SplitsBy ratio) :
    a.bisect? ratio = some (⟨a.lb, a.splitPlace ratio⟩, ⟨a.splitPlace ratio, a.ub⟩) := by
  rw [Interval.bisect?, if_neg (Bool.eq_false_iff.1 h.nonempty)]
  exact if_pos ((Bool.and_eq_true _ _).mpr ⟨decide_eq_true h.above, decide_eq_true h.below⟩)

theorem bisect?_eq_none (h : ¬a.SplitsBy ratio) : a.bisect? ratio = none := by
  cases hempty : a.isEmpty with
  | true => exact if_pos hempty
  | false =>
    rw [Interval.bisect?, if_neg (Bool.eq_false_iff.1 hempty)]
    refine if_neg fun hinside => h ?_
    obtain ⟨habove, hbelow⟩ := (Bool.and_eq_true _ _).mp hinside
    exact ⟨hempty, of_decide_eq_true habove, of_decide_eq_true hbelow⟩

/-- Two intervals that make up a third one and have one real in common, strictly inside it. -/
structure CutInto (a lo hi : Interval) : Prop where
  hull : lo ∪ hi = a
  common : ∃ s : Float, a.lb < s ∧ s < a.ub ∧ ∀ r : ℝ, r ∈ lo ∧ r ∈ hi ↔ r = real s

theorem CutInto.of_between (hlow : a.lb < s) (hup : s < a.ub) :
    a.CutInto ⟨a.lb, s⟩ ⟨s, a.ub⟩ := by
  obtain ⟨hlbn, hsn, hlb⟩ := lt_iff.1 hlow
  obtain ⟨-, hubn, hub⟩ := lt_iff.1 hup
  have hfinite : s.isFinite = true :=
    Binary64.isFinite_iff.2 ⟨hsn, (hub.trans_le le_top).ne, (bot_le.trans_lt hlb).ne'⟩
  constructor
  · have hlo : (⟨a.lb, s⟩ : Interval).isEmpty = false :=
      decide_eq_false (Binary64.not_lt_of_le (Binary64.le_of_lt hlow))
    have hhi : (⟨s, a.ub⟩ : Interval).isEmpty = false :=
      decide_eq_false (Binary64.not_lt_of_le (Binary64.le_of_lt hup))
    rw [union_of_nonempty hlo hhi, Binary64.min_eq_ite hlbn hsn, Binary64.max_eq_ite hsn hubn,
      if_neg hlb.le.not_gt, if_pos hub]
  · refine ⟨s, hlow, hup, fun r => ?_⟩
    have hlower := Binary64.isLower_iff_of_isFinite (r := r) hfinite
    have hupper := Binary64.isUpper_iff_of_isFinite (r := r) hfinite
    constructor
    · rintro ⟨hlo, hhi⟩
      exact le_antisymm (hupper.1 hlo.2) (hlower.1 hhi.1)
    · rintro rfl
      rw [Binary64.value_of_isFinite hfinite] at hlb hub
      exact ⟨⟨⟨hlbn, hlb.le⟩, hupper.2 le_rfl⟩, hlower.2 le_rfl, hubn, hub.le⟩

theorem union_self (a : Interval) : a ∪ a = a := by
  cases hempty : a.isEmpty with
  | true => exact union_of_isEmpty_left hempty
  | false =>
    rw [union_of_nonempty hempty hempty]
    refine eq_of_bounds ?_ ?_
    · exact (Binary64.min_eq_or a.lb a.lb).elim id id
    · exact (Binary64.max_eq_or a.ub a.ub).elim id id

end Interval

/-! ### The widest side -/

namespace Box

variable {x : Box Interval} {k : ℕ}

/-- The width of side `k`. -/
def width (x : Box Interval) (k : ℕ) : Float := (x.getD k Interval.empty).diam

/-- No side is wider than side `k`, and those before it are narrower. -/
def FirstWidest (x : Box Interval) (k : ℕ) : Prop :=
  k < x.length ∧ ∀ j < x.length, x.width j ≤ x.width k ∧ (j < k → x.width j < x.width k)

/-- The scan keeps the first of the widest sides that it has seen. -/
theorem firstWidest_widest (h : 0 < x.length) : x.FirstWidest (Box.widest x) := by
  have hscan : ∀ n, (∃ best, (List.range n).foldl
      (fun best k => if x.width k > x.width best then k else best) 0 = best ∧
        (best < n ∨ best = 0) ∧
        ∀ j < n, x.width j ≤ x.width best ∧ (j < best → x.width j < x.width best)) := by
    intro n
    induction n with
    | zero => exact ⟨0, rfl, Or.inr rfl, fun j hj => absurd hj (Nat.not_lt_zero j)⟩
    | succ n ih =>
      obtain ⟨best, hfold, hlt, hbest⟩ := ih
      have hnumber (j : ℕ) : (x.width j).isNaN = false := Interval.isNaN_diam _
      rw [List.range_succ, List.foldl_append, hfold, List.foldl_cons, List.foldl_nil]
      split_ifs with hwider
      · refine ⟨n, rfl, Or.inl (Nat.lt_succ_self n), fun j hj => ?_⟩
        rcases Nat.lt_succ_iff_lt_or_eq.1 hj with hj | rfl
        · have hnarrower := Binary64.lt_of_le_of_lt (hbest j hj).1 hwider
          exact ⟨Binary64.le_of_lt hnarrower, fun _ => hnarrower⟩
        · exact ⟨Binary64.le_self (hnumber j), fun hjj => absurd hjj (Nat.lt_irrefl j)⟩
      · refine ⟨best, rfl, by omega, fun j hj => ?_⟩
        rcases Nat.lt_succ_iff_lt_or_eq.1 hj with hj | rfl
        · exact hbest j hj
        · exact ⟨Binary64.le_of_not_lt (hnumber best) (hnumber j) hwider, fun hjb => by omega⟩
  obtain ⟨best, hfold, hlt, hbest⟩ := hscan x.length
  obtain rfl : Box.widest x = best := hfold
  exact ⟨by omega, hbest⟩

end Box

/-! ### One tube -/

namespace Tube

variable {x y : Tube Interval} {t ratio : Float} {lo hi : Interval} {g : ℝ → ℝ} {τ : ℝ} {k m : ℕ}

theorem Ordered.putGate (h : x.Ordered) (k : ℕ) (y : Interval) : (x.putGate k y).Ordered :=
  ⟨fits_putGate h.toFits k y, h.increasing⟩

/-- A tube is not changed by its own breakpoints. -/
theorem Ordered.refine_times (h : x.Ordered) : x.refine x.times = x := by
  have hsize := h.size_times
  have hcodomains : (x.times.pop.map fun t => x.codomain ((x.sliceIndex? t).getD 0)) =
      x.codomains := by
    refine Array.ext (by rw [Array.size_map, Array.size_pop]; exact Nat.sub_eq_of_eq_add hsize)
      fun i hi hi' => ?_
    have hi' : i < x.sliceCount := hi'
    have hindex := h.sliceIndex?_eq hi' (h.isNaN_time hi'.le) le_rfl
      (h.moment_lt_moment (Nat.lt_succ_self i) hi')
    rw [Array.getElem_map, Array.getElem_pop, ← time_eq_getElem (by omega), hindex,
      Option.getD_some]
    exact codomain_eq_getElem hi'
  have hgates : x.times.map x.eval = x.gates := by
    refine Array.ext (by rw [Array.size_map, hsize, h.size_gates]) fun k hk hk' => ?_
    rw [Array.size_map] at hk
    rw [Array.getElem_map, ← time_eq_getElem hk, eval, h.gateIndex?_time (by omega)]
    exact gate_eq_getElem hk'
  unfold refine
  rw [hcodomains, hgates]

theorem jointTimes_of_times (h : x.times = y.times) : jointTimes x y = x.times := by
  rw [jointTimes, ← h, mergeTimes_self]

/-- Tubes over the same breakpoints are combined as they are. -/
theorem Ordered.combine_of_times {op : Interval → Interval → Interval} (hx : x.Ordered)
    (hy : y.Ordered) (h : x.times = y.times) : Tube.combine op x y = .ok (x.zip op y) := by
  have hjoint : (x.refine (jointTimes x y)).zip op (y.refine (jointTimes x y)) = x.zip op y := by
    rw [jointTimes_of_times h, hx.refine_times, h, hy.refine_times]
  unfold Tube.combine
  rw [if_pos ((hx.domain_beq_iff hy).2 (sameEnds_of_times hx.toFits hy.toFits h))]
  exact congrArg Except.ok hjoint

theorem zip_union_self (x : Tube Interval) : x.zip (· ∪ ·) x = x := by
  simp [zip, Array.zipWith_self, Interval.union_self]

/-- Parts of a gate make up the tube again. -/
theorem zip_union_putGate (hm : m < x.gates.size) (h : lo ∪ hi = x.gate m) :
    (x.putGate m lo).zip (· ∪ ·) (x.putGate m hi) = x := by
  have hgates : Array.zipWith (· ∪ ·) (x.gates.setIfInBounds m lo) (x.gates.setIfInBounds m hi) =
      x.gates := by
    refine Array.ext (by simp) fun k hk hk' => ?_
    rw [Array.getElem_zipWith, Array.getElem_setIfInBounds, Array.getElem_setIfInBounds]
    split_ifs with hkm
    · subst hkm
      rw [h, gate_eq_getElem hm]
    · exact Interval.union_self _
  have hcodomains : Array.zipWith (· ∪ ·) x.codomains x.codomains = x.codomains := by
    simp [Array.zipWith_self, Interval.union_self]
  change (⟨x.times, Array.zipWith (· ∪ ·) x.codomains x.codomains, _⟩ : Tube Interval) = x
  rw [hcodomains]
  exact congrArg (Tube.mk x.times x.codomains) hgates

/-! ### Functions in a tube -/

theorem HoldsAt.putGate (h : x.HoldsAt g τ) (hm : m < x.gates.size)
    (hlo : x.moment m = τ → g τ ∈ lo) : (x.putGate m lo).HoldsAt g τ := by
  refine ⟨fun k hk hτ => ?_, h.2⟩
  rw [gate_putGate hm]
  split_ifs with hkm
  · subst hkm
    exact hlo hτ
  · exact h.1 k hk hτ

/-- Only the value at one time decides in which part of a gate a function is. -/
theorem holdsAt_putGate_or (h : ∀ τ, x.HoldsAt g τ) (hx : x.Ordered) (hm : m ≤ x.sliceCount)
    (hparts : ∀ r ∈ x.gate m, r ∈ lo ∨ r ∈ hi) :
    (∀ τ, (x.putGate m lo).HoldsAt g τ) ∨ ∀ τ, (x.putGate m hi).HoldsAt g τ := by
  have hm' : m < x.gates.size := by
    rw [hx.size_gates]
    omega
  have hput {y : Interval} (hy : ∀ τ : ℝ, x.moment m = τ → g τ ∈ y) (τ : ℝ) :
      (x.putGate m y).HoldsAt g τ := (h τ).putGate hm' (hy τ)
  by_cases hreal : ∃ τ : ℝ, x.moment m = τ
  · obtain ⟨τ, hτ⟩ := hreal
    have hsame (σ : ℝ) (hσ : x.moment m = σ) : σ = τ :=
      EReal.coe_eq_coe_iff.1 (hσ.symm.trans hτ)
    rcases hparts _ ((h τ).1 m hm hτ) with hlo | hhi
    · exact Or.inl (hput fun σ hσ => hsame σ hσ ▸ hlo)
    · exact Or.inr (hput fun σ hσ => hsame σ hσ ▸ hhi)
  · exact Or.inl (hput fun τ hτ => absurd ⟨τ, hτ⟩ hreal)

/-! ### The split -/

/-- The halves of a tube have the parts of the gate at the time, and nothing else is changed. The
split fails only outside the domain and where the gate cannot be split by the ratio. -/
theorem Plain.bisect (h : x.Plain) (ht0 : t ≠ -0.0) (ratio : Float) :
    Settles (x.bisect t ratio)
      (fun halves => ∃ m ≤ (x.sample t).1.sliceCount, (x.sample t).1.time m = t ∧
        ∃ lo hi, ((x.sample t).1.gate m).bisect? ratio = some (lo, hi) ∧
          ((x.sample t).1.gate m).CutInto lo hi ∧
          halves = ((x.sample t).1.putGate m lo, (x.sample t).1.putGate m hi))
      (fun _ => x.domain.contains t = false ∨ ¬((x.sample t).1.eval t).SplitsBy ratio) := by
  unfold Tube.bisect checkTime
  by_cases ht : x.domain.contains t = true
  · obtain ⟨m, hm, htime, hgate, heval⟩ := h.ordered.exists_gate_sample h.zeros ht0 ht
    rw [if_pos ht]
    dsimp only [bind, Except.bind]
    rw [hgate]
    dsimp only
    rw [← heval]
    by_cases hsplit : ((x.sample t).1.gate m).SplitsBy ratio
    · rw [hsplit.bisect?]
      exact ⟨m, hm, htime, _, _, hsplit.bisect?, .of_between hsplit.above hsplit.below, rfl⟩
    · rw [Interval.bisect?_eq_none hsplit]
      exact Or.inr hsplit
  · rw [if_neg ht]
    exact Or.inl (Bool.eq_false_iff.2 ht)

end Tube

/-! ### Vectors -/

namespace TubeVector

variable {x a b : TubeVector Interval} {t ratio : Float} {lo hi : Interval} {k m : ℕ}
  {X : ℝ → ℕ → ℝ}

/-- Both vectors are one vector but for the gate of component `k` at the time, which has been cut
in two by the ratio. -/
def HalvedInto (x : TubeVector Interval) (t : Float) (k : ℕ) (ratio : Float)
    (a b : TubeVector Interval) : Prop :=
  ∃ c m lo hi, x.components[k]? = some c ∧ m ≤ c.sliceCount ∧ c.time m = t ∧
    (c.gate m).bisect? ratio = some (lo, hi) ∧ (c.gate m).CutInto lo hi ∧
    a = ⟨x.components.set k (c.putGate m lo)⟩ ∧ b = ⟨x.components.set k (c.putGate m hi)⟩

theorem Plain.ordered (h : x.Plain) : x.Ordered :=
  ⟨h.someComponent, fun c hc => (h.components c hc).ordered, h.shared⟩

theorem Plain.sample (h : x.Plain) (ht0 : t ≠ -0.0) : (x.sample t).1.Plain where
  someComponent := (h.ordered.sample t).someComponent
  components := by
    rw [components_sample, List.forall_mem_map]
    intro c hc
    have hc := h.components c hc
    exact ⟨hc.ordered.sample t, hc.ordered.ne_negZero_sample hc.zeros ht0⟩
  shared := (h.ordered.sample t).shared

/-- Vectors over the same breakpoints are combined as they are. -/
theorem combine_of_times {op : Interval → Interval → Interval} {ts : Array Float}
    (hsome : a.components ≠ []) (hlen : a.dimension = b.dimension)
    (ha : ∀ c ∈ a.components, c.Ordered ∧ c.times = ts)
    (hb : ∀ c ∈ b.components, c.Ordered ∧ c.times = ts) :
    combine (Tube.combine op) a b = .ok ⟨List.zipWith (Tube.zip op) a.components b.components⟩ := by
  have hsome' : b.components ≠ [] := by
    have hlen : a.components.length = b.components.length := hlen
    rwa [← List.length_pos_iff, ← hlen, List.length_pos_iff]
  obtain ⟨hfirst, hfirsttimes⟩ := ha _ (first_mem_of_ne_nil hsome)
  obtain ⟨hfirst', hfirsttimes'⟩ := hb _ (first_mem_of_ne_nil hsome')
  have htimes := hfirsttimes.trans hfirsttimes'.symm
  have hdim : (a.dimension != b.dimension) = false := by simp [hlen]
  have hdomain : (a.domain != b.domain) = false := by
    rw [bne, Bool.not_eq_false']
    exact (hfirst.domain_beq_iff hfirst').2
      (Tube.sameEnds_of_times hfirst.toFits hfirst'.toFits htimes)
  have hpair : ∀ p ∈ a.components.zip b.components,
      Tube.combine op (p.1.refine (Tube.jointTimes a.first b.first))
        (p.2.refine (Tube.jointTimes a.first b.first)) = .ok (p.1.zip op p.2) := by
    intro p hp
    obtain ⟨hp1, hp2⟩ := List.of_mem_zip hp
    obtain ⟨hc, hctimes⟩ := ha _ hp1
    obtain ⟨hd, hdtimes⟩ := hb _ hp2
    rw [Tube.jointTimes_of_times htimes, hfirsttimes]
    have hc' : p.1.refine ts = p.1 := hctimes ▸ hc.refine_times
    have hd' : p.2.refine ts = p.2 := hdtimes ▸ hd.refine_times
    rw [hc', hd']
    exact hc.combine_of_times hd (hctimes.trans hdtimes.symm)
  unfold combine
  rw [hdim, hdomain]
  simp only [Bool.false_eq_true, if_false]
  rw [mapM_eq_ok hpair]
  exact congrArg (fun cs => Except.ok (TubeVector.mk cs)) List.map_zip_eq_zipWith

/-- The hull of the halves is the vector that was cut. -/
theorem HalvedInto.hull (h : x.HalvedInto t k ratio a b) (hx : x.Plain) :
    a.hull b = .ok x := by
  obtain ⟨c, m, lo, hi, hc, hm, -, -, hcut, rfl, rfl⟩ := h
  have hmem := List.mem_of_getElem? hc
  have hput (y : Interval) : ∀ d ∈ x.components.set k (c.putGate m y),
      d.Ordered ∧ d.times = x.times := by
    intro d hd
    rcases List.mem_or_eq_of_mem_set hd with hd | rfl
    · exact ⟨(hx.components d hd).ordered, hx.shared d hd⟩
    · exact ⟨(hx.components c hmem).ordered.putGate m y, hx.shared c hmem⟩
  refine (combine_of_times ?_ ?_ (hput lo) (hput hi)).trans
    (congrArg (fun cs => Except.ok (TubeVector.mk cs)) ?_)
  · simpa using hx.someComponent
  · simp [dimension]
  · refine List.ext_getElem (by simp) fun j hj hj' => ?_
    rw [List.getElem_zipWith, List.getElem_set, List.getElem_set]
    split_ifs with hkj
    · subst hkj
      obtain rfl : x.components[k] = c :=
        Option.some.inj ((List.getElem?_eq_getElem hj').symm.trans hc)
      refine Tube.zip_union_putGate ?_ hcut.hull
      rw [(hx.components _ hmem).ordered.size_gates]
      omega
    · exact Tube.zip_union_self _

/-- A trajectory in the vector is in one of the halves. -/
theorem HalvedInto.holdsAt_or (h : x.HalvedInto t k ratio a b) (hx : x.Plain)
    (hX : ∀ τ, x.HoldsAt X τ) : (∀ τ, a.HoldsAt X τ) ∨ ∀ τ, b.HoldsAt X τ := by
  obtain ⟨c, m, lo, hi, hc, hm, -, hsplit, -, rfl, rfl⟩ := h
  have hset {d : Tube Interval} (hd : ∀ τ, d.HoldsAt (fun s => X s k) τ) (τ : ℝ) :
      HoldsAt ⟨x.components.set k d⟩ X τ := by
    intro j e he
    rw [List.getElem?_set] at he
    split_ifs at he with hkj hlt
    · obtain rfl := hkj
      obtain rfl := Option.some.inj he
      exact hd τ
    · exact hX τ j e he
  have hgates := Tube.holdsAt_putGate_or (fun τ => hX τ k c hc)
    (hx.components c (List.mem_of_getElem? hc)).ordered hm
    fun r hr => Interval.mem_or_mem_of_bisect? hsplit hr
  exact hgates.imp hset hset

/-- A bisection at `t` by component `k` either halves the sampled vector, so that the hull of the
halves is that vector and every trajectory in the vector is in a half, or fails for a reason: the
time is outside, or the gate of the component cannot be split by the ratio. -/
def Bisects (x : TubeVector Interval) (t : Float) (k : ℕ) (ratio : Float)
    (result : Except Error (TubeVector Interval × TubeVector Interval)) : Prop :=
  Settles result
    (fun halves => (x.sample t).1.HalvedInto t k ratio halves.1 halves.2 ∧
      halves.1.hull halves.2 = .ok (x.sample t).1 ∧
      ∀ X : ℝ → ℕ → ℝ, (∀ τ, x.HoldsAt X τ) →
        (∀ τ, halves.1.HoldsAt X τ) ∨ ∀ τ, halves.2.HoldsAt X τ)
    (fun _ => x.domain.contains t = false ∨
      ∃ e, ((x.sample t).1.eval t)[k]? = some e ∧ ¬e.SplitsBy ratio)

theorem HoldsAt.sample {τ : ℝ} (hX : x.HoldsAt X τ) (h : x.Plain) (t : Float) :
    (x.sample t).1.HoldsAt X τ := by
  intro j c hc
  rw [components_sample, List.getElem?_map, Option.map_eq_some_iff] at hc
  obtain ⟨d, hd, rfl⟩ := hc
  exact (hX j d hd).sample (h.components d (List.mem_of_getElem? hd)).ordered t

theorem Plain.bisectComponent (h : x.Plain) (ht0 : t ≠ -0.0) (hk : k < x.dimension)
    (ratio : Float) : x.Bisects t k ratio ((x.sample t).1.bisectComponent t k ratio) := by
  have hs : (x.sample t).1.Plain := h.sample ht0
  obtain ⟨c, hc⟩ : ∃ c, x.components[k]? = some c := ⟨_, List.getElem?_eq_getElem hk⟩
  have hmem := List.mem_of_getElem? hc
  have hplain := h.components c hmem
  have hc' : (x.sample t).1.components[k]? = some (c.sample t).1 := by
    rw [components_sample, List.getElem?_map, hc, Option.map_some]
  have heval : ((x.sample t).1.eval t)[k]? = some ((c.sample t).1.eval t) := by
    rw [TubeVector.eval, List.getElem?_map, hc', Option.map_some]
  have hdomain : x.domain.contains t = (c.sample t).1.domain.contains t := by
    obtain ⟨hfirst, hlast⟩ := (hplain.ordered.sameEnds_sample t).trans
      (Tube.sameEnds_of_times hplain.toFits h.first.toFits (h.shared c hmem))
    rw [Bool.eq_iff_iff, (hplain.ordered.sample t).contains_domain_iff, hfirst, hlast]
    exact h.first.ordered.contains_domain_iff
  have hbisect := (hs.components _ (List.mem_of_getElem? hc')).bisect ht0 ratio
  rw [hplain.ordered.sample_sample] at hbisect
  unfold Bisects TubeVector.bisectComponent
  rw [hc']
  refine (hbisect.mono (fun _ h => h) fun _ hfail => ?_).bind fun halves hhalves => ?_
  · exact hfail.imp hdomain.trans fun hsplit => ⟨_, heval, hsplit⟩
  · obtain ⟨m, hm, htime, lo, hi, hsplit, hcut, rfl⟩ := hhalves
    have hhalved : (x.sample t).1.HalvedInto t k ratio
        ⟨(x.sample t).1.components.set k ((c.sample t).1.putGate m lo)⟩
        ⟨(x.sample t).1.components.set k ((c.sample t).1.putGate m hi)⟩ :=
      ⟨_, m, lo, hi, hc', hm, htime, hsplit, hcut, rfl, rfl⟩
    exact ⟨hhalved, hhalved.hull hs, fun X hX =>
      hhalved.holdsAt_or hs fun τ => (hX τ).sample h t⟩

theorem Plain.bisectAt (h : x.Plain) (ht0 : t ≠ -0.0) (hk : k < x.dimension) (ratio : Float) :
    x.Bisects t k ratio (x.bisectAt t k ratio) := by
  unfold TubeVector.bisectAt Tube.checkTime
  by_cases ht : x.first.domain.contains t = true
  · rw [if_pos ht]
    exact h.bisectComponent ht0 hk ratio
  · rw [if_neg ht]
    exact Or.inl (Bool.eq_false_iff.2 ht)

/-- A bisection of a well-formed vector by a component, or by the first of the widest components
there, covers the vector and separates its halves. -/
theorem bisection_covers (hx : x.WellFormed) (hzeros : ∀ s ∈ x.times, s ≠ -0.0) (ht0 : t ≠ -0.0)
    (ratio : Float) :
    (∀ k < x.dimension, x.Bisects t k ratio (x.bisectAt t k ratio)) ∧
      ∃ k, Box.FirstWidest ((x.sample t).1.eval t) k ∧ x.Bisects t k ratio (x.bisect t ratio) := by
  have hplain := hx.plain hzeros
  have hlen : ((x.sample t).1.eval t).length = x.dimension := by
    rw [TubeVector.eval, List.length_map]
    exact dimension_sample x t
  have hwidest : Box.FirstWidest ((x.sample t).1.eval t) _ := Box.firstWidest_widest
    (hlen ▸ List.length_pos_of_ne_nil hx.someComponent)
  refine ⟨fun k hk => hplain.bisectAt ht0 hk ratio, _, hwidest, ?_⟩
  exact hplain.bisectAt ht0 (hlen ▸ hwidest.1) ratio

/-- The unit slice is cut at a half. -/
theorem bisection_covers_unitSlice :
    ∃ a b, (unitSlice Interval.unit .unit).bisectAt 0.5 0 0.5 = .ok (a, b) ∧
      a.hull b = .ok ((unitSlice Interval.unit .unit).sample 0.5).1 := by
  have hx : (unitSlice Interval.unit .unit).WellFormed := wellFormed_unitSlice (by decide)
  have hat := (bisection_covers hx (by decide) (by decide : (0.5 : Float) ≠ -0.0) 0.5).1 0 (by decide)
  have hok : ((unitSlice Interval.unit .unit).bisectAt 0.5 0 0.5).toBool = true := by
    decide +kernel
  cases hresult : (unitSlice Interval.unit .unit).bisectAt 0.5 0 0.5 with
  | error e =>
    rw [hresult] at hok
    contradiction
  | ok halves =>
    rw [hresult] at hat
    exact ⟨halves.1, halves.2, rfl, hat.2.1⟩

end TubeVector

end FlowTube
