import FlowTube.Proofs.Tube.Regular
import FlowTube.Proofs.TubeVector.Encloses
import FlowTube.TubeVector.Checked

/-! Regular vectors: regular tubes over one partition. Each change of a vector gives a regular
vector of the same dimension between the same ends, and fails only for the reason that is
named. -/

namespace FlowTube

namespace TubeVector

/-- Regular tubes over one partition. -/
structure Regular (x : TubeVector Interval) : Prop where
  someComponent : x.components ≠ []
  components : ∀ c ∈ x.components, c.Regular
  shared : ∀ c ∈ x.components, c.times = x.times

variable {x y z : TubeVector Interval} {c : Tube Interval} {t : Float} {i j k : ℕ}

theorem Regular.first_mem (h : x.Regular) : x.first ∈ x.components :=
  first_mem_of_ne_nil h.someComponent

theorem Regular.first (h : x.Regular) : x.first.Regular := h.components _ h.first_mem

theorem Regular.wellFormed (h : x.Regular) : x.WellFormed :=
  ⟨h.someComponent, fun c hc => (h.components c hc).toWellFormed, h.shared⟩

theorem Regular.sliceCount_eq (h : x.Regular) (hc : c ∈ x.components) :
    c.sliceCount = x.sliceCount :=
  Tube.sliceCount_eq_of_times (h.components c hc).toFits h.first.toFits (h.shared c hc)

/-- A regular vector with the dimension and the ends of another one. -/
structure Continues (y x : TubeVector Interval) : Prop where
  regular : y.Regular
  dimension : y.dimension = x.dimension
  ends : y.first.SameEnds x.first

theorem Regular.continues (h : x.Regular) : x.Continues x := ⟨h, rfl, rfl, rfl⟩

theorem Continues.trans (hzy : z.Continues y) (hyx : y.Continues x) : z.Continues x :=
  ⟨hzy.regular, hzy.dimension.trans hyx.dimension, hzy.ends.trans hyx.ends⟩

/-- As many regular tubes over breakpoints with the same ends. -/
theorem Regular.continues_of_times (h : x.Regular) (hlen : y.dimension = x.dimension)
    {s : Array Float} (hy : ∀ c ∈ y.components, c.Regular ∧ c.times = s)
    (hends : ∀ c ∈ y.components, c.SameEnds x.first) : y.Continues x := by
  have hsome : y.components ≠ [] := by
    refine List.ne_nil_of_length_pos ?_
    change 0 < y.dimension
    rw [hlen]
    exact List.length_pos_of_ne_nil h.someComponent
  have hfirst := first_mem_of_ne_nil hsome
  exact ⟨⟨hsome, fun c hc => (hy c hc).1, fun c hc => (hy c hc).2.trans (hy _ hfirst).2.symm⟩, hlen,
    hends _ hfirst⟩

/-- A regular vector with the dimension and the breakpoints of another one. -/
structure Amends (y x : TubeVector Interval) : Prop extends y.Continues x where
  times : y.times = x.times

theorem Amends.trans (hzy : z.Amends y) (hyx : y.Amends x) : z.Amends x :=
  ⟨hzy.toContinues.trans hyx.toContinues, hzy.times.trans hyx.times⟩

theorem Amends.sliceCount (h : y.Amends x) (hx : x.Regular) : y.sliceCount = x.sliceCount :=
  Tube.sliceCount_eq_of_times h.regular.first.toFits hx.first.toFits h.times

/-- As many regular tubes over the same breakpoints. -/
theorem Regular.amends_of_shared (h : x.Regular) (hlen : y.dimension = x.dimension)
    (hy : ∀ c ∈ y.components, c.Regular ∧ c.times = x.times) : y.Amends x := by
  have hcontinues : y.Continues x := h.continues_of_times hlen hy fun c hc =>
    Tube.sameEnds_of_times (hy c hc).1.toFits h.first.toFits (hy c hc).2
  exact ⟨hcontinues, (hy _ hcontinues.regular.first_mem).2⟩

/-- As many components, each of them inside the one at its place. -/
def Shrinks (y x : TubeVector Interval) : Prop :=
  List.Forall₂ Tube.Shrinks y.components x.components

theorem Regular.amends_of_shrinks (h : x.Regular) (hy : y.Shrinks x) : y.Amends x := by
  refine h.amends_of_shared hy.length_eq fun c hc => ?_
  obtain ⟨j, hj, rfl⟩ := List.mem_iff_getElem.1 hc
  have hj' : j < x.components.length := hy.length_eq ▸ hj
  have hpart := (List.forall₂_iff_get.1 hy).2 j hj hj'
  exact ⟨hpart.regular, hpart.times.trans (h.shared _ (List.getElem_mem hj'))⟩

/-- Components changed one by one without their breakpoints, each with a partner at its
place. -/
theorem Regular.amends_zipWith {α : Type} {f : Tube Interval → α → Tube Interval} (h : x.Regular)
    (hf : ∀ c a, c.Regular → (f c a).Regular ∧ (f c a).times = c.times) {as : List α}
    (hlen : x.dimension ≤ as.length) :
    (⟨List.zipWith f x.components as⟩ : TubeVector Interval).Amends x := by
  refine h.amends_of_shared ?_ fun c hc => ?_
  · change (List.zipWith f x.components as).length = x.components.length
    rw [List.length_zipWith]
    exact min_eq_left hlen
  · obtain ⟨j, hj⟩ := List.mem_iff_getElem?.1 hc
    obtain ⟨d, a, hd, -, rfl⟩ := List.getElem?_zipWith_eq_some.1 hj
    have hmem := List.mem_of_getElem? hd
    have ⟨hreg, htimes⟩ := hf d a (h.components d hmem)
    exact ⟨hreg, htimes.trans (h.shared d hmem)⟩

/-! ### Values replaced -/

/-- One component may be replaced by a regular tube over the same breakpoints. -/
theorem Regular.set_component (h : x.Regular) (k : ℕ) (hc : c.Regular)
    (htimes : c.times = x.times) :
    (⟨x.components.set k c⟩ : TubeVector Interval).Continues x := by
  refine (h.amends_of_shared List.length_set fun d hd => ?_).toContinues
  rcases List.mem_or_eq_of_mem_set hd with hd | rfl
  · exact ⟨h.components d hd, h.shared d hd⟩
  · exact ⟨hc, htimes⟩

/-- One component may be replaced by what is inside it. -/
theorem Regular.shrinks_set (h : x.Regular) {d : Tube Interval} (hc : x.components[k]? = some c)
    (hd : d.Shrinks c) : (⟨x.components.set k d⟩ : TubeVector Interval).Shrinks x := by
  refine List.forall₂_iff_get.2 ⟨List.length_set, fun j hj hj' => ?_⟩
  rw [List.get_eq_getElem, List.get_eq_getElem, List.getElem_set]
  split_ifs with hkj
  · obtain rfl := hkj
    rw [List.getElem?_eq_getElem hj'] at hc
    rwa [Option.some.inj hc]
  · exact (h.components _ (List.getElem_mem hj')).shrinks

theorem modify_const (x : TubeVector Interval) (j : ℕ) (c : Tube Interval) :
    x.modify j (fun _ => c) = ⟨x.components.set j c⟩ := by
  rw [modify, List.modify_eq_set]

theorem settles_checkIndex (i n : ℕ) :
    Settles (checkIndex i n) (fun _ => i < n) (fun _ => n ≤ i) := by
  unfold checkIndex
  split_ifs with hi
  · exact hi
  · exact not_lt.1 hi

theorem settles_componentAt (x : TubeVector Interval) (j : ℕ) :
    Settles (x.componentAt j) (· ∈ x.components) (fun _ => x.dimension ≤ j) := by
  refine (settles_checkIndex j x.dimension).bind fun _ hj => ?_
  change x.component j ∈ x.components
  rw [component, List.getD_eq_getElem _ _ hj]
  exact List.getElem_mem hj

/-- One component may be replaced by what a computation makes of it. -/
theorem Regular.replaceAt (h : x.Regular) (j : ℕ)
    {f : Tube Interval → Except Error (Tube Interval)} {E : Prop}
    (hf : ∀ c ∈ x.components,
      Settles (f c) (fun d => d.Regular ∧ d.times = x.times) (fun _ => E)) :
    Settles (x.componentAt j >>= fun c => f c >>= fun d => pure (x.modify j fun _ => d))
      (·.Continues x) (fun _ => x.dimension ≤ j ∨ E) := by
  refine ((settles_componentAt x j).mono (fun _ hc => hc) fun _ => Or.inl).bind fun c hc => ?_
  refine ((hf c hc).mono (fun _ hd => hd) fun _ => Or.inr).bind fun d hd => ?_
  change (x.modify j fun _ => d).Continues x
  rw [modify_const]
  exact h.set_component j hd.1 hd.2

theorem Regular.setCodomainAt (h : x.Regular) (j i : ℕ) {y : Interval} (hy : y.Numeric) :
    Settles (x.setCodomainAt j i y) (·.Continues x)
      (fun _ => x.dimension ≤ j ∨ x.sliceCount ≤ i) := by
  refine h.replaceAt j fun c hc => ?_
  rw [← h.sliceCount_eq hc]
  exact (settles_checkIndex i c.sliceCount).bind fun _ _ =>
    ⟨(h.components c hc).setCodomain hy i, h.shared c hc⟩

theorem Regular.setGateAt (h : x.Regular) (j k : ℕ) (y : Interval) :
    Settles (x.setGateAt j k y) (·.Continues x)
      (fun _ => x.dimension ≤ j ∨ x.sliceCount < k) := by
  refine h.replaceAt j fun c hc => ?_
  rw [← h.sliceCount_eq hc, ← Nat.add_one_le_iff, ← (h.components c hc).ordered.size_gates]
  exact (settles_checkIndex k c.gates.size).bind fun _ _ =>
    ⟨(h.components c hc).setGate k y, h.shared c hc⟩

theorem Regular.enforceGates (h : x.Regular) : x.enforceGates.Continues x := by
  refine (h.amends_of_shared (List.length_map _) fun c hc => ?_).toContinues
  obtain ⟨d, hd, rfl⟩ := List.mem_map.1 hc
  exact ⟨(h.components d hd).enforceGates, h.shared d hd⟩

/-! ### New breakpoints -/

theorem Regular.times_sample (h : x.Regular) (hc : c ∈ x.components) (t : Float) :
    (c.sample t).1.times = (x.first.sample t).1.times :=
  (h.components c hc).ordered.times_sample_eq h.first.ordered (h.shared c hc) t

theorem Regular.sameEnds (h : x.Regular) (hc : c ∈ x.components) : c.SameEnds x.first :=
  Tube.sameEnds_of_times (h.components c hc).toFits h.first.toFits (h.shared c hc)

theorem Regular.sample (h : x.Regular) (ht : t ≠ -0.0) : (x.sample t).1.Continues x := by
  refine h.continues_of_times (dimension_sample x t) (s := (x.first.sample t).1.times)
    (fun c hc => ?_) (fun c hc => ?_)
  · rw [components_sample] at hc
    obtain ⟨d, hd, rfl⟩ := List.mem_map.1 hc
    exact ⟨(h.components d hd).sample ht, h.times_sample hd t⟩
  · rw [components_sample] at hc
    obtain ⟨d, hd, rfl⟩ := List.mem_map.1 hc
    exact ((h.components d hd).ordered.sameEnds_sample t).trans (h.sameEnds hd)

theorem Regular.sliceCount_sample (h : x.Regular) (ht : t ≠ -0.0) :
    (x.sample t).1.sliceCount = (x.first.sample t).1.sliceCount := by
  have hmem : (x.first.sample t).1 ∈ (x.sample t).1.components := by
    rw [components_sample]
    exact List.mem_map_of_mem h.first_mem
  exact ((h.sample ht).regular.sliceCount_eq hmem).symm

theorem times_set (c : Tube Interval) (y : Interval) (t : Float) :
    (c.set y t).times = (c.sample t).1.times := by
  unfold Tube.set
  dsimp only
  split <;> rfl

theorem Regular.set (h : x.Regular) (ht : t ≠ -0.0) {values : Box Interval}
    (hlen : values.length = x.dimension) :
    Settles (x.set values t) (·.Continues x) (fun _ => False) := by
  unfold TubeVector.set
  rw [hlen, if_pos (beq_self_eq_true _)]
  have hpart : ∀ c ∈ List.zipWith (fun c y => Tube.set c y t) x.components values,
      ∃ d ∈ x.components, ∃ y, c = d.set y t := by
    intro c hc
    obtain ⟨j, hj⟩ := List.mem_iff_getElem?.1 hc
    obtain ⟨d, y, hd, -, rfl⟩ := List.getElem?_zipWith_eq_some.1 hj
    exact ⟨d, List.mem_of_getElem? hd, y, rfl⟩
  refine h.continues_of_times (s := (x.first.sample t).1.times) ?_ (fun c hc => ?_)
    (fun c hc => ?_)
  · change (List.zipWith (fun c y => Tube.set c y t) x.components values).length = _
    rw [List.length_zipWith, hlen]
    exact min_self _
  · obtain ⟨d, hd, y, rfl⟩ := hpart c hc
    exact ⟨(h.components d hd).set ht y, (times_set d y t).trans (h.times_sample hd t)⟩
  · obtain ⟨d, hd, y, rfl⟩ := hpart c hc
    have hs := (h.components d hd).set ht y
    have hs' : (d.sample t).1.Regular := (h.components d hd).sample ht
    exact (Tube.sameEnds_of_times hs.toFits hs'.toFits (times_set d y t)).trans
      (((h.components d hd).ordered.sameEnds_sample t).trans (h.sameEnds hd))

/-! ### Two vectors -/

/-- Vectors of one dimension between the same ends are combined over the breakpoints of both. -/
theorem Regular.combine {op : Interval → Interval → Interval} (hop : Interval.KeepsInclusion op)
    (hx : x.Regular) (hy : y.Regular) (hdim : y.dimension = x.dimension)
    (hends : y.first.SameEnds x.first) :
    Settles (TubeVector.combine (Tube.combine op) x y) (·.Continues x) (fun _ => False) := by
  obtain ⟨hrx, hry⟩ := hx.first.ordered.refinedBy_jointTimes hy.first.ordered hends.symm
  have h0 := hx.first.jointTimes_ne_negZero hy.first
  have hdomain' : (x.domain != y.domain) = false := by
    rw [bne, Bool.not_eq_false']
    exact (hx.first.ordered.domain_beq_iff hy.first.ordered).2 hends.symm
  unfold TubeVector.combine
  rw [hdim, bne_self_eq_false, hdomain']
  simp only [Bool.false_eq_true, if_false]
  generalize Tube.jointTimes x.first y.first = ts at hrx hry h0
  -- each pair is first brought to the shared breakpoints, which do not change any more
  have hpair : ∀ p ∈ x.components.zip y.components,
      Settles (Tube.combine op (p.1.refine ts) (p.2.refine ts))
        (fun c => c.Regular ∧ c.times = ts) (fun _ => False) := by
    rintro ⟨a, b⟩ hab
    have ha := (List.of_mem_zip hab).1
    have hb := (List.of_mem_zip hab).2
    have ha' := (hx.components a ha).refine
      (hrx.of_times hx.first.toFits (hx.components a ha).toFits (hx.shared a ha)) h0
    have hb' := (hy.components b hb).refine
      (hry.of_times hy.first.toFits (hy.components b hb).toFits (hy.shared b hb)) h0
    obtain ⟨c, hc, hreg, htimes⟩ := ha'.combine hop hb'
      (Tube.sameEnds_of_times ha'.toFits hb'.toFits rfl)
    dsimp only
    rw [hc]
    refine ⟨hreg, ?_⟩
    rw [htimes, Tube.jointTimes, Tube.refine, Tube.refine, Tube.mergeTimes_self]
  refine (Settles.mapM hpair).bind fun cs hcs => ?_
  obtain ⟨hlen, hpart⟩ := hcs
  refine hx.continues_of_times ?_ hpart fun c hc => ?_
  · change cs.length = x.dimension
    rw [hlen, List.length_zip]
    change min x.dimension y.dimension = x.dimension
    rw [hdim, min_self]
  · have hr := hx.first.refine hrx h0
    exact (Tube.sameEnds_of_times (hpart c hc).1.toFits hr.toFits (hpart c hc).2).trans
      (hrx.sameEnds_refine hx.first.ordered)

/-! ### Splits -/

/-- The parts of side `k` of the value at `t`, if it has parts. -/
def sideParts? (x : TubeVector Interval) (t : Float) (k : ℕ) (ratio : Float) :
    Option (Interval × Interval) :=
  ((x.sample t).1.eval t)[k]?.bind (·.bisect? ratio)

/-- The halves of a vector at a sampled time are inside the sampled vector. A split fails only
where the side has no part. -/
theorem Regular.bisectComponent (h : x.Regular) (ht0 : t ≠ -0.0)
    (ht : x.domain.contains t = true) (k : ℕ) (ratio : Float) :
    Settles ((x.sample t).1.bisectComponent t k ratio)
      (fun halves => halves.1.Shrinks (x.sample t).1 ∧ halves.2.Shrinks (x.sample t).1)
      (fun _ => x.sideParts? t k ratio = none) := by
  have hs : (x.sample t).1.Continues x := h.sample ht0
  unfold TubeVector.bisectComponent sideParts? TubeVector.eval
  rw [List.getElem?_map]
  cases hc : (x.sample t).1.components[k]? with
  | none => rfl
  | some c =>
    have hmem := List.mem_of_getElem? hc
    have hreg := hs.regular.components c hmem
    have hsample : (c.sample t).1 = c := by
      rw [components_sample] at hmem
      obtain ⟨d, hd, rfl⟩ := List.mem_map.1 hmem
      exact (h.components d hd).ordered.sample_sample t
    have hin : c.domain.contains t = true := by
      obtain ⟨hfirst, hlast⟩ := (hs.regular.sameEnds hmem).trans hs.ends
      obtain ⟨hnumber, hlow, hup⟩ := h.first.ordered.contains_domain_iff.1 ht
      exact hreg.ordered.contains_domain_iff.2 ⟨hnumber, hfirst ▸ hlow, hlast ▸ hup⟩
    have hbisect := hreg.bisect ht0 ratio
    rw [hsample, hin] at hbisect
    refine (hbisect.mono (fun _ h => h) (fun _ h => ?_)).bind fun halves hhalves => ?_
    · exact h.resolve_left Bool.noConfusion
    · exact ⟨hs.regular.shrinks_set hc hhalves.1, hs.regular.shrinks_set hc hhalves.2⟩

theorem Regular.bisectAt (h : x.Regular) (ht0 : t ≠ -0.0) (k : ℕ) (ratio : Float) :
    Settles (x.bisectAt t k ratio)
      (fun halves => halves.1.Shrinks (x.sample t).1 ∧ halves.2.Shrinks (x.sample t).1)
      (fun _ => x.domain.contains t = false ∨ x.sideParts? t k ratio = none) := by
  unfold TubeVector.bisectAt Tube.checkTime
  by_cases ht : x.first.domain.contains t = true
  · rw [if_pos ht]
    exact (h.bisectComponent ht0 ht k ratio).mono (fun _ h => h) fun _ => Or.inr
  · rw [if_neg ht]
    exact Or.inl (Bool.eq_false_iff.2 ht)

theorem Regular.bisect (h : x.Regular) (ht0 : t ≠ -0.0) (ratio : Float) :
    Settles (x.bisect t ratio)
      (fun halves => halves.1.Shrinks (x.sample t).1 ∧ halves.2.Shrinks (x.sample t).1)
      (fun _ => x.domain.contains t = false ∨
        x.sideParts? t (Box.widest ((x.sample t).1.eval t)) ratio = none) :=
  h.bisectAt ht0 _ ratio

end TubeVector

end FlowTube
