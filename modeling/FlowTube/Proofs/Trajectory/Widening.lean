import FlowTube.Proofs.Contractor.Parts
import FlowTube.Proofs.Expr.Compilation
import FlowTube.Proofs.Trajectory.Containment
import FlowTube.Proofs.Trajectory.Evaluation

/-! Containment in wider tubes. As long as a trajectory has values, the answer for a tube is the
least of the answers at its places, and the answer for a list is the greatest of those for its
members; leaving early changes neither. A wider place misses less of an enclosure and holds more of
it, so each answer grows with the tubes.

A trajectory made of samples may lose all of them to a restriction of its domain. What is asked of
it then depends on the breakpoints only, and the outcome, a failure at most places, is the same for
all tubes over one partition. -/

namespace FlowTube

/-! ### The order of verdicts -/

/-- The place of a verdict between no and yes. -/
def Verdict.rank : Verdict → ℕ
  | .no => 0
  | .maybe => 1
  | .yes => 2

theorem Verdict.rank_injective : Function.Injective Verdict.rank := by
  intro u v h
  cases u <;> cases v <;> first | rfl | contradiction

/-- No is least and yes is greatest. -/
instance : LinearOrder Verdict := LinearOrder.lift' Verdict.rank Verdict.rank_injective

namespace Verdict

variable {v : Verdict}

theorem no_le (v : Verdict) : .no ≤ v := Nat.zero_le v.rank

theorem le_yes (v : Verdict) : v ≤ .yes := by
  cases v <;> decide

theorem min_maybe (hv : v ≠ .no) : min v .maybe = .maybe := by
  cases v with
  | no => contradiction
  | maybe => rfl
  | yes => rfl

theorem max_maybe (hv : v ≠ .yes) : max v .maybe = .maybe := by
  cases v with
  | no => rfl
  | maybe => rfl
  | yes => contradiction

end Verdict

/-! ### What trajectories are made of -/

/-- All times have a value, if the expressions are about time only. -/
theorem VectorFunction.exists_eval_of_parse {ι : Type} [Elementary ι] {sources : List String}
    {f : VectorFunction ι} (h : parse [] [] sources = .ok f) (T : ι) :
    ∃ box, f.eval T [] = .ok box := by
  obtain ⟨programs, hprograms, hf⟩ := bind_eq_ok.1 h
  obtain rfl := Except.ok.inj hf
  refine exists_mapM_eq_ok fun p hp => ?_
  obtain ⟨j, hj⟩ := List.mem_iff_getElem?.1 hp
  obtain ⟨source, -, hsource⟩ := (getElem?_of_mapM hprograms).2 j p hj
  obtain ⟨e, -, he⟩ := bind_eq_ok.1 (mapError_eq_ok hsource)
  obtain ⟨v, hv⟩ : ∃ v, e.value? ⟨[], []⟩ ⟨T, [], []⟩ = some v :=
    (Expr.exists_compile_iff.1 ⟨p, he⟩).exists_value? le_rfl le_rfl
  have hexecute : Machine.execute ⟨[]⟩ p ⟨T, [], []⟩ = .ok (v, ⟨[]⟩) := by
    rw [Machine.execute, (Expr.runs_compile he hv []).run_eq]
    rfl
  exact ⟨v, map_eq_ok.2 ⟨_, hexecute, rfl⟩⟩

namespace Trajectory

/-- Made of expressions of time or of samples, with any changes of the domain. -/
inductive Made : Trajectory Interval → Prop
  | ofExprs {domain : Interval} {sources : List String} {x : Trajectory Interval} :
    ofExprs domain sources = .ok x → Made x
  | ofSamples {points : List (Float × List Float)} {x : Trajectory Interval} :
    ofSamples points = .ok x → Made x
  | change {x : Trajectory Interval} (c : Retiming) : Made x → Made (c.run x)

/-- Nothing is known of the values. -/
def Lost (x : Trajectory Interval) : Prop := x.definition = .sampled #[]

variable {x : Trajectory Interval} {T : Interval}

/-- Known by expressions that have a value at every time. -/
def Analytic (x : Trajectory Interval) : Prop :=
  ∃ f shift, x.definition = .analytic f shift ∧ ∀ T, ∃ box, f.eval T [] = .ok box

theorem of_ofExprs {domain : Interval} {sources : List String}
    (h : ofExprs domain sources = .ok x) : sources ≠ [] ∧
      ∃ f, VectorFunction.parse [] [] sources = .ok f ∧
        x = ⟨domain, sources.length, .analytic f 0.0⟩ := by
  unfold ofExprs at h
  dsimp only at h
  split at h
  · cases h
  · split at h
    case isTrue => cases h
    case isFalse hsources =>
      obtain ⟨f, hf, hx⟩ := bind_eq_ok.1 h
      exact ⟨by simpa using hsources, f, hf, (Except.ok.inj hx).symm⟩

theorem Made.analytic_or_sampled (h : x.Made) :
    0 < x.dimension ∧ (x.Analytic ∨ ∃ samples, Sampled x samples) := by
  induction h with
  | ofExprs h =>
    obtain ⟨hsome, f, hf, rfl⟩ := of_ofExprs h
    exact ⟨List.length_pos_iff.2 hsome,
      Or.inl ⟨f, 0.0, rfl, VectorFunction.exists_eval_of_parse hf⟩⟩
  | ofSamples h =>
    obtain ⟨-, n, hn, hpoints, rfl⟩ := ofSamples_eq_ok.1 h
    exact ⟨hn, Or.inr ⟨_, sampled_through hpoints⟩⟩
  | @change x c h ih =>
    obtain ⟨hpos, hsource⟩ := ih
    refine ⟨by cases c <;> exact hpos, ?_⟩
    rcases hsource with ⟨f, s, hf, heval⟩ | ⟨samples, hsamples⟩
    · left
      cases c with
      | truncate domain =>
        exact ⟨f, s, by simp only [Retiming.run, Trajectory.truncate, hf], heval⟩
      | shift amount =>
        exact ⟨f, s + amount, by simp only [Retiming.run, Trajectory.shift, hf], heval⟩
    · obtain ⟨left, hleft, -, -⟩ := Retiming.sampled_run hsamples c
      exact Or.inr ⟨left, hleft⟩

/-- Every question has an answer, unless all samples are lost. -/
theorem Made.exists_eval (h : x.Made) (hx : ¬x.Lost) (T : Interval) :
    ∃ box, x.eval T = .ok box := by
  rcases h.analytic_or_sampled.2 with ⟨f, s, hf, heval⟩ | ⟨samples, hsamples⟩
  · unfold eval
    dsimp only
    split_ifs
    · exact ⟨_, rfl⟩
    · rw [hf]
      exact heval _
  · have hsome : samples ≠ #[] := by
      rintro rfl
      exact hx hsamples.definition
    obtain ⟨box, hbox, -⟩ := hsamples.exists_eval (T := T) (Or.inl hsome)
    exact ⟨box, hbox⟩

/-- Without a sample there is nothing outside of the domain and a failure inside. -/
theorem Lost.eval (h : x.Lost) (T : Interval) :
    x.eval T = .ok (List.replicate x.dimension Interval.empty) ∨
      x.eval T = .error .indexOutOfRange := by
  unfold Trajectory.eval
  dsimp only
  split_ifs
  · exact Or.inl rfl
  · rw [h]
    exact Or.inr rfl

end Trajectory

/-! ### Answers at wider places -/

namespace Binary64

variable {x y z : Float}

theorem max_of_isNaN_right (hx : x.isNaN = false) (hz : z.isNaN = true) : max x z = x := by
  have hlt : ¬x < z := fun h => Bool.eq_false_iff.1 (lt_iff.1 h).2.1 hz
  rw [max, if_neg (Bool.eq_false_iff.1 hx), if_neg hlt]

theorem min_of_isNaN_right (hx : x.isNaN = false) (hz : z.isNaN = true) : min x z = x := by
  have hlt : ¬z < x := fun h => Bool.eq_false_iff.1 (lt_iff.1 h).1 hz
  rw [min, if_neg (Bool.eq_false_iff.1 hx), if_neg hlt]

/-- The larger of two bounds grows with the first one, even if the second one is not a number. -/
theorem max_le_max_left (h : x ≤ y) (z : Float) : max x z ≤ max y z := by
  obtain ⟨hx, hy, -⟩ := le_iff.1 h
  cases hz : z.isNaN with
  | true => rwa [max_of_isNaN_right hx hz, max_of_isNaN_right hy hz]
  | false => exact max_le (le_trans h (le_max_left hy)) (le_max_right hz)

theorem min_le_min_left (h : x ≤ y) (z : Float) : min x z ≤ min y z := by
  obtain ⟨hx, hy, -⟩ := le_iff.1 h
  cases hz : z.isNaN with
  | true => rwa [min_of_isNaN_right hx hz, min_of_isNaN_right hy hz]
  | false => exact le_min (le_trans (min_le_left hx) h) (min_le_right hz)

end Binary64

/-- What misses an interval misses its parts. -/
theorem Interval.isEmpty_inter_of_isSubset {a b c : Interval} (h : a.isSubset b = true)
    (hb : (b ∩ c).isEmpty = true) : (a ∩ c).isEmpty = true := by
  rcases isSubset_iff.1 h with hempty | ⟨hlb, hub⟩
  · rw [inter_of_isEmpty_left hempty]
    rfl
  · refine isEmpty_of_isSubset ?_ hb
    exact ofBounds_isSubset_ofBounds (Binary64.max_le_max_left hlb c.lb)
      (Binary64.min_le_min_left hub c.ub)

namespace TubeVector

variable {truth : Trajectory Interval} {box : Interval → Box Interval} {a b : TubeVector Interval}
  {u v : Verdict} {x y z : Box Interval} {qs qs' : List (Box Interval × Interval)}
  {tubes tubes' : List (TubeVector Interval)} {notices : List Notice}

theorem misses_of_liesIn (h : x.LiesIn y)
    (hy : (List.zipWith (fun a b => Enclosure.isEmpty (a ∩ b)) y z).any id = true) :
    (List.zipWith (fun a b => Enclosure.isEmpty (a ∩ b)) x z).any id = true := by
  unfold Box.LiesIn at h
  induction h generalizing z with
  | nil => exact hy
  | cons h _ ih =>
    cases z with
    | nil => exact hy
    | cons c z =>
      rw [List.zipWith_cons_cons, List.any_cons, Bool.or_eq_true] at hy ⊢
      exact hy.imp (Interval.isEmpty_inter_of_isSubset h) ih

theorem holds_of_liesIn (h : x.LiesIn y)
    (hx : (List.zipWith (fun a b => Enclosure.isSubset b a) x z).all id = true) :
    (List.zipWith (fun a b => Enclosure.isSubset b a) y z).all id = true := by
  unfold Box.LiesIn at h
  induction h generalizing z with
  | nil => exact hx
  | cons h _ ih =>
    cases z with
    | nil => rfl
    | cons c z =>
      rw [List.zipWith_cons_cons, List.all_cons, Bool.and_eq_true] at hx ⊢
      exact ⟨Interval.isSubset_trans hx.1 h, ih hx.2⟩

/-- A wider place misses no more of an enclosure, and holds no less of it. -/
theorem judge_mono (h : x.LiesIn y) (z : Box Interval) : judge x z ≤ judge y z := by
  unfold judge
  by_cases hno : (List.zipWith (fun a b => Enclosure.isEmpty (a ∩ b)) x z).any id = true
  · rw [if_pos hno]
    exact Verdict.no_le _
  · rw [if_neg hno, if_neg (fun hy => hno (misses_of_liesIn h hy))]
    split_ifs with hx hy hy
    · exact le_rfl
    · exact absurd (holds_of_liesIn h hx) hy
    · exact Verdict.le_yes _
    · exact le_rfl

/-! ### The least answer of the places -/

/-- The least verdict of several places. -/
def least (box : Interval → Box Interval) (v : Verdict) (qs : List (Box Interval × Interval)) :
    Verdict :=
  qs.foldl (fun v q => min v (judge q.1 (box q.2))) v

theorem least_no : least box .no qs = .no := by
  induction qs with
  | nil => rfl
  | cons q qs ih => rwa [least, List.foldl_cons, min_eq_left (Verdict.no_le _)]

/-- Stopping at a place that is missed leaves out nothing. -/
theorem judgeAll_eq (heval : ∀ T, truth.eval T = .ok (box T)) (hv : v ≠ .no) :
    judgeAll truth v qs = .ok (least box v qs) := by
  induction qs generalizing v with
  | nil => rfl
  | cons q qs ih =>
    rw [judgeAll, heval, least, List.foldl_cons, ← least]
    change (match judge q.1 (box q.2) with
      | .no => _
      | .maybe => _
      | .yes => _) = _
    cases judge q.1 (box q.2) with
    | no =>
      rw [min_eq_right (Verdict.no_le v), least_no]
      rfl
    | maybe =>
      rw [Verdict.min_maybe hv]
      exact ih (by decide)
    | yes =>
      rw [min_eq_left (Verdict.le_yes v)]
      exact ih hv

/-- Places at the same times, those of the first list inside of those of the second one. -/
def PlacesIn (qs qs' : List (Box Interval × Interval)) : Prop :=
  List.Forall₂ (fun q q' => q.1.LiesIn q'.1 ∧ q.2 = q'.2) qs qs'

theorem least_mono (h : PlacesIn qs qs') (huv : u ≤ v) :
    least box u qs ≤ least box v qs' := by
  unfold PlacesIn at h
  induction h generalizing u v with
  | nil => exact huv
  | @cons q q' qs qs' hq _ ih =>
    refine ih (min_le_min huv ?_)
    rw [hq.2]
    exact judge_mono hq.1 _

theorem LiesIn.times (h : a.LiesIn b) : a.times = b.times := by
  obtain ⟨cs⟩ := a
  obtain ⟨ds⟩ := b
  cases h with
  | nil => rfl
  | cons hcd _ => exact hcd.times

theorem LiesIn.sliceCount (h : a.LiesIn b) : a.sliceCount = b.sliceCount := by
  obtain ⟨cs⟩ := a
  obtain ⟨ds⟩ := b
  cases h with
  | nil => rfl
  | cons hcd _ => exact hcd.codomains

theorem LiesIn.domain (h : a.LiesIn b) : a.domain = b.domain := by
  have htimes : a.first.times = b.first.times := h.times
  rw [TubeVector.domain, Tube.domain, Tube.time, Tube.time, htimes]
  rfl

theorem LiesIn.placesIn (h : a.LiesIn b) : PlacesIn a.places b.places := by
  unfold PlacesIn TubeVector.places
  rw [h.times, h.sliceCount]
  refine List.rel_append (List.forall₂_iff_get.2 ⟨?_, fun k hk hk' => ?_⟩) ?_
  · rw [List.length_mapIdx, List.length_mapIdx]
  · simp only [List.get_eq_getElem, List.getElem_mapIdx, and_true]
    exact h.gate k
  · exact List.forall₂_map_left_iff.2 (List.forall₂_map_right_iff.2
      (List.forall₂_same.2 fun i _ => ⟨h.codomain i, h.sliceDomain i⟩))

/-! ### Answers for tubes and lists -/

/-- The answer if all values are known. -/
def verdict (truth : Trajectory Interval) (box : Interval → Box Interval)
    (a : TubeVector Interval) : Verdict :=
  if a.domain.isSubset truth.domain then least box .yes a.places else .maybe

theorem contains_eq (heval : ∀ T, truth.eval T = .ok (box T))
    (hdim : a.dimension = truth.dimension) :
    ∃ notices, a.contains truth = .ok ⟨verdict truth box a, notices⟩ := by
  unfold contains verdict
  rw [if_neg (by simp [hdim])]
  cases a.domain.isSubset truth.domain with
  | false => exact ⟨_, rfl⟩
  | true =>
    refine ⟨[], ?_⟩
    simp only [Bool.not_true, Bool.false_eq_true, if_false, if_true]
    rw [judgeAll_eq heval (by decide)]
    rfl

theorem verdict_mono (h : a.LiesIn b) : verdict truth box a ≤ verdict truth box b := by
  unfold verdict
  rw [h.domain]
  split_ifs
  · exact least_mono h.placesIn le_rfl
  · exact le_rfl

/-- The greatest verdict of several tubes. -/
def greatest (truth : Trajectory Interval) (box : Interval → Box Interval) (v : Verdict)
    (as : List (TubeVector Interval)) : Verdict :=
  as.foldl (fun v a => max v (verdict truth box a)) v

theorem greatest_yes : greatest truth box .yes tubes = .yes := by
  induction tubes with
  | nil => rfl
  | cons a tubes ih => rwa [greatest, List.foldl_cons, max_eq_left (Verdict.le_yes _)]

theorem go_eq (heval : ∀ T, truth.eval T = .ok (box T))
    (hdim : ∀ a ∈ tubes, a.dimension = truth.dimension) (hv : v ≠ .yes) :
    (someContains.go truth v notices tubes).value = .ok (greatest truth box v tubes) := by
  induction tubes generalizing v notices with
  | nil => rfl
  | cons a tubes ih =>
    obtain ⟨ha, htubes⟩ := List.forall_mem_cons.1 hdim
    obtain ⟨more, hmore⟩ := contains_eq heval ha
    rw [someContains.go, hmore, greatest, List.foldl_cons, ← greatest]
    cases verdict truth box a with
    | no =>
      rw [max_eq_left (Verdict.no_le v)]
      exact ih htubes hv
    | maybe =>
      rw [Verdict.max_maybe hv]
      exact ih htubes (by decide)
    | yes => rw [max_eq_right (Verdict.le_yes v), greatest_yes]

/-- Stopping at a tube with the trajectory leaves out nothing. -/
theorem someContains_eq (heval : ∀ T, truth.eval T = .ok (box T))
    (hdim : ∀ a ∈ tubes, a.dimension = truth.dimension) :
    (someContains truth tubes).value = .ok (greatest truth box .no tubes) :=
  go_eq heval hdim (by decide)

theorem greatest_mono (h : List.Forall₂ LiesIn tubes tubes') (huv : u ≤ v) :
    greatest truth box u tubes ≤ greatest truth box v tubes' := by
  induction h generalizing u v with
  | nil => exact huv
  | cons hab _ ih => exact ih (max_le_max huv (verdict_mono hab))

theorem dimension_of_liesIn {n : ℕ} (hdim : ∀ a ∈ tubes, a.dimension = n)
    (h : List.Forall₂ LiesIn tubes tubes') : ∀ b ∈ tubes', b.dimension = n := by
  induction h with
  | nil => exact fun _ hb => nomatch hb
  | cons hab _ ih =>
    obtain ⟨ha, htubes⟩ := List.forall_mem_cons.1 hdim
    exact List.forall_mem_cons.2 ⟨hab.dimension.symm.trans ha, ih htubes⟩

/-! ### Trajectories without a value -/

theorem length_of_mem_places {q : Box Interval × Interval} (hq : q ∈ a.places) :
    q.1.length = a.dimension := by
  rcases List.mem_append.1 hq with hgate | hslice
  · obtain ⟨k, hk, rfl⟩ := List.mem_mapIdx.1 hgate
    exact List.length_map ..
  · obtain ⟨i, -, rfl⟩ := List.mem_map.1 hslice
    exact List.length_map ..

/-- Nothing is outside of every place. -/
theorem judge_nothing {n : ℕ} (hn : 0 < n) (hx : x.length = n) :
    judge x (List.replicate n Interval.empty) = .no := by
  obtain ⟨n, rfl⟩ := Nat.exists_eq_add_one_of_ne_zero hn.ne'
  cases x with
  | nil => contradiction
  | cons c x =>
    have hmiss : Enclosure.isEmpty (c ∩ Interval.empty) = true := by
      rw [Interval.inter_of_isEmpty_right (by decide)]
      rfl
    rw [judge, List.replicate_succ, List.zipWith_cons_cons, List.any_cons, id, hmiss,
      Bool.true_or, if_pos rfl]

section Lost

variable (hlost : truth.Lost) (hpos : 0 < truth.dimension)

include hlost hpos

theorem judgeAll_eq_of_lost (h : PlacesIn qs qs') (hqs : ∀ q ∈ qs, q.1.length = truth.dimension) :
    judgeAll truth v qs = judgeAll truth v qs' := by
  cases h with
  | nil => rfl
  | @cons q q' qs qs' hq _ =>
    have hlen := hqs q List.mem_cons_self
    rw [judgeAll, judgeAll, ← hq.2]
    rcases hlost.eval q.2 with heval | heval
    · rw [heval]
      change (match judge q.1 _ with
        | .no => _
        | .maybe => _
        | .yes => _) = match judge q'.1 _ with
        | .no => _
        | .maybe => _
        | .yes => _
      rw [judge_nothing hpos hlen, judge_nothing hpos (hq.1.length_eq.symm.trans hlen)]
    · rw [heval]
      rfl

/-- Without values all tubes over the same breakpoints have the same answer. -/
theorem contains_eq_of_lost (hdim : a.dimension = truth.dimension) (h : a.LiesIn b) :
    a.contains truth = b.contains truth := by
  have hall := judgeAll_eq_of_lost (v := .yes) hlost hpos h.placesIn fun q hq =>
    (length_of_mem_places hq).trans hdim
  rw [contains, contains, h.dimension, h.domain, hall]

theorem someContains_eq_of_lost (hdim : ∀ a ∈ tubes, a.dimension = truth.dimension)
    (h : List.Forall₂ LiesIn tubes tubes') :
    someContains truth tubes = someContains truth tubes' := by
  have hgo : ∀ v notices, someContains.go truth v notices tubes =
      someContains.go truth v notices tubes' := by
    induction h with
    | nil => exact fun _ _ => rfl
    | cons hab _ ih =>
      obtain ⟨ha, htubes⟩ := List.forall_mem_cons.1 hdim
      intro v notices
      rw [someContains.go, someContains.go, contains_eq_of_lost hlost hpos ha hab]
      simp only [ih htubes]
  exact hgo .no []

end Lost

/-- Where every gate and codomain is a part of the one in another tube over the same breakpoints,
the answer for the other tube is not a lesser one; so it is for lists of such tubes. There is an
answer as long as the trajectory has expressions or samples. When it has lost all samples, the
outcomes are the same. -/
theorem containment_grows (truth : Trajectory Interval) (htruth : truth.Made) :
    (∀ a b : TubeVector Interval, a.dimension = truth.dimension → a.LiesIn b →
      (¬truth.Lost → ∃ u v, a.contains truth = .ok u ∧ b.contains truth = .ok v ∧
        u.value ≤ v.value) ∧
      (truth.Lost → a.contains truth = b.contains truth)) ∧
    ∀ as bs : List (TubeVector Interval), (∀ a ∈ as, a.dimension = truth.dimension) →
      List.Forall₂ LiesIn as bs →
      (¬truth.Lost → ∃ u v, (someContains truth as).value = .ok u ∧
        (someContains truth bs).value = .ok v ∧ u ≤ v) ∧
      (truth.Lost → someContains truth as = someContains truth bs) := by
  have hpos := htruth.analytic_or_sampled.1
  constructor
  · intro a b hdim h
    refine ⟨fun hsome => ?_, fun hlost => contains_eq_of_lost hlost hpos hdim h⟩
    choose box heval using htruth.exists_eval hsome
    obtain ⟨notices, ha⟩ := contains_eq heval hdim
    obtain ⟨notices', hb⟩ := contains_eq heval (h.dimension.symm.trans hdim)
    exact ⟨_, _, ha, hb, verdict_mono h⟩
  · intro as bs hdim h
    refine ⟨fun hsome => ?_, fun hlost => someContains_eq_of_lost hlost hpos hdim h⟩
    choose box heval using htruth.exists_eval hsome
    exact ⟨_, _, someContains_eq heval hdim, someContains_eq heval (dimension_of_liesIn hdim h),
      greatest_mono h le_rfl⟩

theorem liesIn_unitSlice {c c' e e' : Interval} (hc : c.isSubset c' = true)
    (he : e.isSubset e' = true) : (unitSlice c e).LiesIn (unitSlice c' e') := by
  refine .cons ⟨⟨rfl, rfl, rfl⟩, fun i => ?_, fun k => ?_⟩ .nil
  · match i with
    | 0 => exact hc
    | i + 1 =>
      rw [Tube.codomain_of_le (Nat.le_add_left 1 i)]
      rfl
  · match k with
    | 0 | 1 => exact he
    | k + 2 =>
      rw [Tube.gate_of_le (Nat.le_add_left 2 k)]
      rfl

/-- A line from zero to one, a slice of values up to a half, and one of values up to one. -/
theorem containment_grows_rising :
    ∃ u v, (unitSlice (⟨0.0, 0.5⟩ : Interval) ⟨0.0, 0.5⟩).contains .rising = .ok u ∧
      (unitSlice Interval.unit .unit).contains .rising = .ok v ∧ u.value ≤ v.value ∧
      ∃ us vs,
        (someContains .rising [unitSlice (⟨0.0, 0.5⟩ : Interval) ⟨0.0, 0.5⟩]).value = .ok us ∧
        (someContains .rising [unitSlice Interval.unit .unit]).value = .ok vs ∧ us ≤ vs := by
  obtain ⟨htube, hlist⟩ := containment_grows .rising (.ofSamples Trajectory.ofSamples_rising)
  have hsome : ¬Trajectory.rising.Lost := by
    intro h
    have hnone : Trajectory.inOrder [(0.0, [0.0]), (1.0, [1.0])] = [] := by
      simpa [Trajectory.Lost, Trajectory.rising, Trajectory.through] using h
    rw [Trajectory.inOrder_two] at hnone
    cases hnone
  have hwider : (unitSlice (⟨0.0, 0.5⟩ : Interval) ⟨0.0, 0.5⟩).LiesIn (unitSlice .unit .unit) :=
    liesIn_unitSlice (by decide) (by decide)
  obtain ⟨u, v, hu, hv, huv⟩ := (htube _ _ rfl hwider).1 hsome
  obtain ⟨us, vs, hus, hvs, hle⟩ := (hlist [_] [_] (List.forall_mem_singleton.2 rfl)
    (.cons hwider .nil)).1 hsome
  exact ⟨u, v, hu, hv, huv, us, vs, hus, hvs, hle⟩

end TubeVector

end FlowTube
