import FlowTube.Proofs.Clustering.Groups
import FlowTube.Proofs.Contractor.Regular
import FlowTube.Proofs.Search.Rules
import FlowTube.Proofs.Search.Steps

/-! What a search returns. Every step of it stays within the tube it starts from: contractions write
parts of slices, further breakpoints change no value, halves are parts, and what is joined again are
parts of one tube. So the tubes of the stack and the solutions are within the first tube. A split
takes one node and leaves two, so nodes and solutions together are at most one more than the
bisections; clustering joins solutions until none overlaps another one, and a hull of tubes within
the first one is within it. Breakpoints must not be `-0`, so all the times at which the search splits
are traced back to breakpoints, and those that it adds to midpoints of slices. -/

namespace FlowTube

/-! ### Times of splits -/

namespace Tube

theorem argmax_lt (size : ℕ → Float) {n : ℕ} (hn : 0 < n) : argmax size n < n := by
  unfold argmax
  dsimp only
  refine List.foldlRecOn (motive := fun best : ℕ × Float => best.1 < n) _ _ hn
    fun best hbest i hi => ?_
  split_ifs
  · exact List.mem_range.1 hi
  · exact hbest

theorem maxGateDiam_mem_times {x : Tube Interval} (h : x.Fits) : x.maxGateDiam.2 ∈ x.times := by
  have hfirst : x.time 0 ∈ x.times := time_mem (by have := h.times; omega)
  unfold maxGateDiam
  rw [← Array.foldl_toList]
  refine List.foldlRecOn (motive := fun best : Float × Float => best.2 ∈ x.times) _ _ hfirst
    fun best hbest p hp => ?_
  dsimp only
  split_ifs
  · rw [Array.toList_zip] at hp
    exact Array.mem_toList_iff.1 (List.of_mem_zip hp).2
  · exact hbest

end Tube

namespace TubeVector

variable {x y : TubeVector Interval} {t : Float} {i : ℕ}

theorem Regular.maxGateDiam_mem_times (h : x.Regular) : x.maxGateDiam.2 ∈ x.times := by
  have hmem {c : Tube Interval} (hc : c ∈ x.components) : c.maxGateDiam.2 ∈ x.times :=
    h.shared c hc ▸ Tube.maxGateDiam_mem_times (h.components c hc).toFits
  unfold maxGateDiam
  refine List.foldlRecOn (motive := fun best : Float × Float => best.2 ∈ x.times) _ _
    (hmem h.first_mem) fun best hbest c hc => ?_
  split_ifs
  · exact hmem (List.mem_of_mem_drop hc)
  · exact hbest

theorem Regular.ends_ne_negZero (h : x.Regular) : x.domain.lb ≠ -0.0 ∧ x.domain.ub ≠ -0.0 := by
  have hdomain : x.domain = ⟨x.first.time 0, x.first.time x.first.sliceCount⟩ :=
    h.first.ordered.domain_eq
  rw [hdomain]
  exact ⟨h.first.time_ne_negZero (Nat.zero_le _), h.first.time_ne_negZero le_rfl⟩

theorem Regular.finiteGateTime_ne_negZero (h : x.Regular) (ht : x.finiteGateTime = .ok t) :
    t ≠ -0.0 := by
  unfold finiteGateTime at ht
  dsimp only at ht
  split_ifs at ht
  · exact Except.ok.inj ht ▸ h.ends_ne_negZero.1
  · exact Except.ok.inj ht ▸ h.ends_ne_negZero.2
  · split at ht
    · rename_i s hs
      obtain rfl := Except.ok.inj ht
      obtain ⟨c, hc, hfind⟩ := List.exists_of_findSome?_eq_some hs
      obtain ⟨i, hi, rfl⟩ := Option.map_eq_some_iff.1 hfind
      have hi' := List.mem_range.1 (List.mem_of_find?_eq_some hi)
      have hreg := h.components c hc
      rw [hreg.ordered.sliceDomain_eq hi']
      exact hreg.time_ne_negZero hi'.le
    · contradiction

theorem Regular.splitTime_ne_negZero (h : x.Regular) (ht : Problem.SplitTime x t) : t ≠ -0.0 := by
  rcases ht with rfl | rfl | rfl | ht
  · exact h.ends_ne_negZero.1
  · exact h.ends_ne_negZero.2
  · exact h.first.zeros _ h.maxGateDiam_mem_times
  · exact h.finiteGateTime_ne_negZero ht

end TubeVector

/-! ### Further breakpoints -/

namespace Slicing

variable {x y : TubeVector Interval}

theorem within_sampleWithin (hx : x.Regular) (maxSlices used : ℕ) {ts : List Float}
    (hts : ∀ t ∈ ts, t ≠ -0.0) : (sampleWithin maxSlices used ts x).Within x := by
  induction ts generalizing used x with
  | nil => exact hx.within
  | cons t ts ih =>
    obtain ⟨ht, hts⟩ := List.forall_mem_cons.1 hts
    have hs := hx.within_sample ht
    unfold sampleWithin
    split_ifs
    · exact hx.within
    · exact (ih hs.regular _ hts).trans hs

theorem mids_ne_negZero (hx : x.Regular) {is : List ℕ} (his : ∀ i ∈ is, i < x.sliceCount) :
    ∀ t ∈ is.map (sliceMid x), t ≠ -0.0 :=
  List.forall_mem_map.2 fun i hi => Picard.mid_sliceDomain_ne_negZero hx (his i hi)

theorem within_cutAll (hx : x.Regular) (maxSlices : ℕ) : (cutAll maxSlices x).Within x :=
  within_sampleWithin hx maxSlices _ (mids_ne_negZero hx fun _ => List.mem_range.1)

theorem within_cutSteep (threshold : List Float → Float) (hx : x.Regular) (maxSlices : ℕ) :
    (cutSteep threshold maxSlices x).Within x :=
  within_sampleWithin hx maxSlices _
    (mids_ne_negZero hx fun _ hi => List.mem_range.1 (List.mem_of_mem_filter hi))

/-- The slice with the greatest size may be cut. -/
theorem within_cut_argmax (hx : x.Regular) (size : ℕ → Float) :
    (x.sample (sliceMid x (Tube.argmax size x.sliceCount))).1.Within x :=
  hx.within_sample (Picard.mid_sliceDomain_ne_negZero hx
    (Tube.argmax_lt size hx.first.ordered.sliceCount_pos))

theorem within_cutWidest (hx : x.Regular) (maxSlices n count : ℕ) :
    (cutWidest maxSlices n count x).1.Within x := by
  induction n generalizing count x with
  | zero => exact hx.within
  | succ n ih =>
    have hcut : (x.sample (sliceMid x x.widestSlice)).1.Within x := within_cut_argmax hx _
    unfold cutWidest
    dsimp only
    split_ifs
    · exact hcut
    · exact (ih hcut.regular _).trans hcut

theorem within_cutByThreshold (threshold : List Float → Float) (hx : x.Regular) (maxSlices : ℕ) :
    (cutByThreshold threshold maxSlices x).Within x := by
  have hwidest := within_cutWidest hx maxSlices (x.sliceCount / 10 + 1) x.sliceCount
  unfold cutByThreshold
  dsimp only
  split_ifs
  · exact (within_cutSteep threshold hwidest.regular maxSlices).trans hwidest
  · exact hwidest

theorem within_refine? (hx : x.Regular) {mode : RefiningMode} {maxSlices : ℕ}
    (h : refine? mode maxSlices x = some y) : y.Within x := by
  unfold refine? at h
  split at h
  · contradiction
  cases mode with
  | allSlices =>
    obtain rfl := Option.some.inj h
    exact within_cutAll hx maxSlices
  | steepestSlice =>
    obtain rfl := Option.some.inj h
    exact within_cut_argmax hx _
  | averageThreshold | medianThreshold =>
    obtain rfl := Option.some.inj h
    split_ifs
    · exact within_cutAll hx maxSlices
    · exact within_cutByThreshold _ hx maxSlices

end Slicing

/-! ### Steps within -/

variable {p : Problem} {x0 x y : TubeVector Interval}

/-- What a contraction by the dynamics writes is inside. -/
theorem OdeContractor.within_contract {c : OdeContractor} {f : Dynamics Interval} {t0 : Float}
    {incremental peeling : Bool} (hx : x.Regular)
    (h : c.contract f t0 incremental peeling x = .ok y) : y.Within x :=
  hx.within_of_shrinks ((holds_contract sliceRelation_shrinks h).of_forall hx.components)

namespace Problem

theorem respects_within (hconstraints : ∀ step, p.constraints = some step → step.StaysWithin x0) :
    p.Respects (·.Continues x0) (· ≠ -0.0) (fun x y => y.Within x)
      (fun x a b => a.Within x ∧ b.Within x) where
  refl hx := hx.regular.within
  trans hxy hyz := hyz.trans hxy
  keeps hx hxy := hxy.toContinues.trans hx
  constraints step hstep _ _ _ _ hx hy := hconstraints step hstep _ _ _ _ hx hy
  dynamics _ _ _ _ _ _ _ hx hy := OdeContractor.within_contract hx.regular hy
  refine hx hy := Slicing.within_refine? hx.regular hy
  times hx ht := hx.regular.splitTime_ne_negZero ht
  split hx ht hab := hx.regular.within_of_bisectAt ht hab
  parts hx hab := ⟨hab.1.toContinues.trans hx, hab.2.toContinues.trans hx⟩
  symm := And.symm
  drop hab _ _ hz := hz.trans hab.2
  join hab hy hz := hab.2.hull (hy.trans hab.1) hz

/-- Tubes within the first one, at most one more than there were bisections. The solutions are not
empty. -/
structure Tallied (x0 : TubeVector Interval) (stack solutions : List (TubeVector Interval))
    (bisections : ℕ) : Prop where
  waiting : ∀ x ∈ stack, x.Within x0
  found : ∀ x ∈ solutions, x.Within x0 ∧ x.isEmpty = false
  count : stack.length + solutions.length ≤ bisections + 1

theorem invariant_tallied :
    Invariant (·.Continues x0) (fun x y => y.Within x) (fun x a b => a.Within x ∧ b.Within x)
      (Tallied x0) where
  proper h := (h.waiting _ List.mem_cons_self).toContinues
  narrow h hxy := by
    obtain ⟨hx, hstack⟩ := List.forall_mem_cons.1 h.waiting
    exact ⟨List.forall_mem_cons.2 ⟨hxy.trans hx, hstack⟩, h.found, h.count⟩
  drop h _ := by
    have hcount := h.count
    rw [List.length_cons] at hcount
    exact ⟨(List.forall_mem_cons.1 h.waiting).2, h.found, by omega⟩
  accept h hempty := by
    obtain ⟨hx, hstack⟩ := List.forall_mem_cons.1 h.waiting
    have hcount := h.count
    rw [List.length_cons] at hcount
    refine ⟨hstack, List.forall_mem_cons.2 ⟨⟨hx, hempty⟩, h.found⟩, ?_⟩
    rw [List.length_cons]
    omega
  split h hab := by
    obtain ⟨hx, hstack⟩ := List.forall_mem_cons.1 h.waiting
    have hcount := h.count
    rw [List.length_cons] at hcount
    refine ⟨List.forall_mem_cons.2 ⟨hab.1.trans hx, List.forall_mem_cons.2
      ⟨hab.2.trans hx, hstack⟩⟩, h.found, ?_⟩
    rw [List.length_cons, List.length_cons]
    omega

end Problem

/-! ### Clusters within -/

namespace Clustering

variable {r c d : TubeVector Interval} {g : List (TubeVector Interval)}

/-- A hull of tubes within the first one is within it. -/
theorem Gathers.within (hc : Gathers id r g c) (hg : ∀ x ∈ g, x.Within r) :
    c.Within r where
  toContinues := hc.continues
  eval j hj t := by
    have hread : (c.component j).eval t = hullRead id g j (.value t) := hc.read j hj (.value t)
    rw [hread]
    refine (Interval.hullAll_isSubset_iff (numeric_reads hc.members hj _)).2 ?_
    exact List.forall_mem_map.2 fun x hx => (hg x hx).eval j hj t

theorem Gathers.isEmpty_eq_false (hr : r.Regular) (hc : Gathers id r g c)
    (hg : ∀ x ∈ g, x.isEmpty = false) : c.isEmpty = false := by
  obtain ⟨x, hx⟩ := List.exists_mem_of_ne_nil g hc.ne_nil
  refine (hc.continues.isEmpty_eq_false_iff hr).2 fun j hj q hq => ?_
  dsimp only
  rw [hc.read j hj]
  exact Interval.isEmpty_hullAll (numeric_reads hc.members hj q) (List.mem_map_of_mem hx)
    (((hc.members x hx).isEmpty_eq_false_iff hr).1 (hg x hx) j hj q hq)

theorem overlaps_swap (hr : r.Regular) (hc : c.Continues r) (hd : d.Continues r)
    (h : overlaps c d = .ok false) : overlaps d c = .ok false := by
  obtain ⟨b, hb, hiff⟩ := hc.overlaps hd hr
  obtain ⟨b', hb', hiff'⟩ := hd.overlaps hc hr
  obtain rfl : b = false := Except.ok.inj (hb.symm.trans h)
  have hnot : b' ≠ true := fun htrue => Bool.false_ne_true (hiff.2 (hiff'.1 htrue).symm)
  rwa [Bool.eq_false_iff.2 hnot] at hb'

/-- No more clusters than tubes. -/
theorem Grouping.length_le {α : Type} {f : α → TubeVector Interval} {as : List α}
    {gs : List (List α)} {cs : List (TubeVector Interval)} (h : Grouping f r as gs cs) :
    cs.length ≤ as.length := by
  rw [← h.length_eq, ← h.perm.length_eq, List.length_flatten, ← List.length_map List.length]
  refine List.length_le_sum_of_one_le _ (List.forall_mem_map.2 fun g hg => ?_)
  exact List.length_pos_of_ne_nil (h.linked g hg).ne_nil

/-- What is made of tubes within the first one and not empty is like them; the tubes are apart, and
no more than there were. -/
theorem cluster_within {xs out : List (TubeVector Interval)} (hr : r.Regular)
    (hxs : ∀ x ∈ xs, x.Within r ∧ x.isEmpty = false) (h : cluster xs = .ok out) :
    (∀ y ∈ out, y.Within r ∧ y.isEmpty = false) ∧
    out.Pairwise (fun y z => overlaps y z = .ok false ∧ overlaps z y = .ok false) ∧
    out.length ≤ xs.length := by
  obtain ⟨groups, clusters, hout, hgrouping, hsep⟩ :=
    exists_cluster (f := id) hr fun x hx => (hxs x hx).1.toContinues
  rw [List.map_id] at hout
  obtain rfl : clusters = out := Except.ok.inj ((hout _ le_rfl).symm.trans h)
  have hgathers : ∀ y ∈ clusters, ∃ g, Gathers id r g y ∧ ∀ x ∈ g, x ∈ xs := by
    intro y hy
    obtain ⟨k, hk, rfl⟩ := List.mem_iff_getElem.1 hy
    have hk' : k < groups.length := hgrouping.length_eq.trans_gt hk
    refine ⟨groups[k], hgrouping.gathers.get hk' hk, fun x hx => ?_⟩
    exact hgrouping.perm.mem_iff.1 (List.mem_flatten_of_mem (List.getElem_mem hk') hx)
  refine ⟨fun y hy => ?_, ?_, hgrouping.length_le⟩
  · obtain ⟨g, hg, hmem⟩ := hgathers y hy
    exact ⟨hg.within fun x hx => (hxs x (hmem x hx)).1,
      hg.isEmpty_eq_false hr fun x hx => (hxs x (hmem x hx)).2⟩
  · refine (pairwise_overlaps hr hgrouping.gathers hsep).imp_of_mem fun hy hz hzy => ?_
    obtain ⟨g, hg, -⟩ := hgathers _ hy
    obtain ⟨g', hg', -⟩ := hgathers _ hz
    exact ⟨overlaps_swap hr hg'.continues hg.continues hzy, hzy⟩

end Clustering

/-! ### Solutions -/

namespace Problem

/-- Whatever a search returns is within the tube that it starts from and not empty, and between the
same ends. No two of the tubes overlap, and there is at most one more of them than bisections. -/
theorem solve_within {fuel : ℕ} {findings : Findings} (hx0 : x0.Regular)
    (hconstraints : ∀ step, p.constraints = some step → step.StaysWithin x0)
    (h : p.solve fuel x0 = .ok findings) :
    (∀ y ∈ findings.solutions, y.dimension = x0.dimension ∧ (y.domain == x0.domain) = true ∧
      y.isEmpty = false ∧ ∀ j < x0.dimension, ∀ t,
        ((y.component j).eval t).isSubset ((x0.component j).eval t) = true) ∧
    findings.solutions.Pairwise (fun y z =>
      Clustering.overlaps y z = .ok false ∧ Clustering.overlaps z y = .ok false) ∧
    findings.solutions.length ≤ findings.journal.bisections + 1 := by
  obtain ⟨-, -, h⟩ := bind_eq_ok.1 h
  obtain ⟨⟨clusters, journal⟩, hrun, h⟩ := bind_eq_ok.1 h
  obtain rfl := Except.ok.inj h
  have hfirst : Tallied x0 [x0] [] 0 :=
    ⟨List.forall_mem_singleton.2 hx0.within, List.forall_mem_nil _, le_rfl⟩
  obtain ⟨solutions, htallied, hcluster⟩ :=
    (respects_within hconstraints).run_search invariant_tallied hfirst hrun
  obtain ⟨hwithin, hapart, hlength⟩ := Clustering.cluster_within hx0
    (fun x hx => htallied.found x (List.mem_reverse.1 hx)) hcluster
  refine ⟨fun y hy => ?_, hapart, ?_⟩
  · obtain ⟨hy, hempty⟩ := hwithin y hy
    exact ⟨hy.dimension, (hy.regular.first.ordered.domain_beq_iff hx0.first.ordered).2 hy.ends,
      hempty, hy.eval⟩
  · have hcount := htallied.count
    rw [List.length_reverse] at hlength
    exact hlength.trans ((Nat.le_add_left _ _).trans hcount)

/-- A constant with the square one. -/
def rootsOfOne : Problem where
  settings := { refiningRatio := -1.0, peelingRatio := -1.0, stopping := .diam,
                bisection := .alternate }
  thresholds := [0.6]
  dynamics := none
  constraints := some (Rule.step [.constantSquare 0 (Interval.point 1.0)])
  coins := fun _ => true

/-- The two constants are found by three bisections and stay apart. -/
theorem solve_within_rootsOfOne :
    (Clustering.band (-2.0) 2.0).Regular ∧
      (∀ step, rootsOfOne.constraints = some step →
        step.StaysWithin (Clustering.band (-2.0) 2.0)) ∧
      ∃ findings y z, rootsOfOne.solve 10 (Clustering.band (-2.0) 2.0) = .ok findings ∧
        findings.solutions = [y, z] ∧ findings.journal.bisections = 3 ∧
        Clustering.overlaps y z = .ok false ∧ y.isEmpty = false ∧ z.isEmpty = false ∧
        ∀ t, ((y.component 0).eval t).isSubset
          (((Clustering.band (-2.0) 2.0).component 0).eval t) = true := by
  have hregular : (Clustering.band (-2.0) 2.0).Regular := Clustering.regular_band (by decide)
  have hconstraints : ∀ step, rootsOfOne.constraints = some step →
      step.StaysWithin (Clustering.band (-2.0) 2.0) := by
    intro step hstep
    obtain rfl := Option.some.inj hstep
    refine Rule.staysWithin_step (fun rule hrule => ?_) _
    obtain rfl := List.mem_singleton.1 hrule
    trivial
  refine ⟨hregular, hconstraints, ?_⟩
  have hrun : (rootsOfOne.solve 10 (Clustering.band (-2.0) 2.0)).toOption.map
      (fun found => (found.solutions.length, found.journal.bisections)) = some (2, 3) := by
    decide +kernel
  cases h : rootsOfOne.solve 10 (Clustering.band (-2.0) 2.0) with
  | error e =>
    rw [h] at hrun
    contradiction
  | ok findings =>
    rw [h] at hrun
    obtain ⟨htwo, hthree⟩ := Prod.mk.inj (Option.some.inj hrun)
    obtain ⟨y, z, hyz⟩ := List.length_eq_two.1 htwo
    obtain ⟨hwithin, hapart, -⟩ := solve_within hregular hconstraints h
    rw [hyz] at hwithin hapart
    have hy := hwithin y List.mem_cons_self
    have hz := hwithin z (List.mem_cons_of_mem y (List.mem_singleton_self z))
    exact ⟨findings, y, z, rfl, hyz, hthree, (List.pairwise_pair.1 hapart).1, hy.2.2.1, hz.2.2.1,
      hy.2.2.2 0 Nat.one_pos⟩

end Problem

end FlowTube
