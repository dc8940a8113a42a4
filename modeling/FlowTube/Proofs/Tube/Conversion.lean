import FlowTube.Proofs.SliceTree.Queries
import FlowTube.Proofs.SliceTree.Uniform
import FlowTube.Proofs.Tube.EvalOver
import FlowTube.Tube.Convert

/-! Slice trees as tubes and tubes as slice trees. The slices of the tree overlap those of the tube
in any way, so what relates the two are the values at single times: a slice of the tree has the
value of the tube over it, which includes the value at each of its times. At a time where two
slices of the tree meet, both include the value there, and so does their intersection, which is the
gate of the tube that is made from the tree. Slices of the tree that are those of the tube have the
codomains there again. All this rests on the laying of the slices: it must stop, and the first sum
must be a number. An infinite width from `-∞` on is not, and gives a tree without any time. -/

namespace FlowTube

namespace Interval

open Binary64

variable {a b c : Interval}

/-! ### Intervals as they are made -/

/-- The canonical empty interval, or one that holds a real. -/
def Proper (a : Interval) : Prop := a = empty ∨ ∃ r : ℝ, r ∈ a

theorem Proper.numeric (h : a.Proper) : a.Numeric := by
  rcases h with rfl | ⟨r, hr⟩
  · exact numeric_empty
  · exact ⟨hr.1.1, hr.2.1⟩

theorem Proper.canonical (h : a.Proper) : a.Canonical := by
  rcases h with rfl | ⟨r, hr⟩
  · exact fun _ => rfl
  · exact fun hempty => absurd hempty (by simp [isEmpty_of_mem hr])

theorem proper_of_le {lb ub : Float} (hlb : lb.isFinite) (hle : lb ≤ ub) : Proper ⟨lb, ub⟩ := by
  obtain ⟨hl, hu, hvalue⟩ := le_iff.1 hle
  refine Or.inr ⟨real lb, ⟨hl, (value_of_isFinite hlb).le⟩, hu, ?_⟩
  rwa [value_of_isFinite hlb] at hvalue

/-- Between bounds that are kept there is a real. -/
theorem proper_ofBounds (lb ub : Float) : (ofBounds lb ub).Proper := by
  rcases ofBounds_cases lb ub with hempty | ⟨hle, htop, hbot⟩
  · exact Or.inl hempty
  · rw [ofBounds_of_le hle htop hbot]
    obtain ⟨hlb, hub, hvalue⟩ := Binary64.le_iff.1 hle
    obtain ⟨r, hlow, hup⟩ : ∃ r : ℝ, value lb ≤ r ∧ (r : EReal) ≤ value ub := by
      induction hx : value lb with
      | bot =>
        induction hy : value ub with
        | bot => exact absurd hbot (by simp [hy])
        | top => exact ⟨0, bot_le, le_top⟩
        | coe r => exact ⟨r, bot_le, le_rfl⟩
      | top => exact absurd htop (by simp [hx])
      | coe r => exact ⟨r, le_rfl, hx ▸ hvalue⟩
    exact Or.inr ⟨r, ⟨hlb, hlow⟩, hub, hup⟩

theorem proper_inter (a b : Interval) : (a ∩ b).Proper := proper_ofBounds ..

theorem proper_sub (a b : Interval) : (a - b).Proper := by
  change (add a (neg b)).Proper
  unfold add
  split_ifs
  · exact Or.inl rfl
  · exact proper_ofBounds ..

theorem Proper.union (ha : a.Proper) (hb : b.Proper) : (a ∪ b).Proper := by
  rcases ha with rfl | ⟨r, hr⟩
  · rwa [union_of_isEmpty_left rfl]
  · exact Or.inr ⟨r, mem_union_left hr⟩

/-- What two intervals include is in their intersection. -/
theorem Proper.isSubset_inter (ha : a.Proper) (hb : a.isSubset b = true)
    (hc : a.isSubset c = true) : a.isSubset (b ∩ c) = true := by
  rcases ha with rfl | ⟨r, hr⟩
  · rfl
  · have hrb := mem_of_isSubset hb hr
    have hrc := mem_of_isSubset hc hr
    have hnot := of_decide_eq_false (isEmpty_of_mem hr)
    obtain ⟨hblb, hbub⟩ := (isSubset_iff.1 hb).resolve_left hnot
    obtain ⟨hclb, hcub⟩ := (isSubset_iff.1 hc).resolve_left hnot
    rw [inter_eq_ofBounds, ofBounds_eq (hrb.1.max hrc.1) (hrb.2.min hrc.2)]
    exact isSubset_iff.2 (Or.inr ⟨max_le hblb hclb, le_min hbub hcub⟩)

/-- Intervals that include each other are equal. -/
theorem Proper.beq_of_isSubset (ha : a.Proper) (hb : b.Proper) (hab : a.isSubset b = true)
    (hba : b.isSubset a = true) : (a == b) = true := by
  cases hempty : a.isEmpty with
  | true =>
    rw [ha.canonical hempty, hb.canonical (isEmpty_of_isSubset hba hempty)]
    exact numeric_empty.beq_self
  | false => exact Interval.beq_of_isSubset hempty hab hba

end Interval

namespace Tube

open SliceTree (Increasing)

/-! ### Gates between slices -/

section Meetings

variable {ι : Type} [Enclosure ι] {k : ℕ}

theorem length_meetings (cs : List ι) : (meetings cs).length = cs.length - 1 := by
  fun_induction meetings cs with
  | case1 a b rest ih => simp [ih]
  | case2 cs h =>
    cases cs with
    | nil => rfl
    | cons a cs =>
      cases cs with
      | nil => rfl
      | cons b cs => exact absurd rfl (h a b cs)

theorem getElem?_meetings (cs : List ι) (k : ℕ) :
    (meetings cs)[k]? = cs[k]?.bind fun a => cs[k + 1]?.map (a ∩ ·) := by
  fun_induction meetings cs generalizing k with
  | case1 a b rest ih =>
    cases k with
    | zero => rfl
    | succ k => simpa using ih k
  | case2 cs h =>
    cases cs with
    | nil => simp
    | cons a cs =>
      cases cs with
      | nil => simp
      | cons b cs => exact absurd rfl (h a b cs)

end Meetings

/-! ### The tube of a slice tree -/

section OfSliceTree

variable {y : SliceTree Interval} {a : Interval} {t : Float} {i k : ℕ}

theorem sliceCount_ofSliceTree (y : SliceTree Interval) :
    (ofSliceTree y).sliceCount = y.flat.length := by
  simp [ofSliceTree, sliceCount, SliceTree.values, SliceTree.flat]

theorem fits_ofSliceTree (y : SliceTree Interval) : (ofSliceTree y).Fits := by
  have hpos := List.length_pos_of_ne_nil y.flat_ne_nil
  have hcount : (ofSliceTree y).codomains.size = y.flat.length := sliceCount_ofSliceTree y
  have hlength : y.values.length = y.flat.length := by simp [SliceTree.values_eq_flat]
  refine ⟨by rwa [hcount], ?_, ?_⟩ <;> rw [hcount]
  · simp [ofSliceTree, SliceTree.flat]
  · simp [ofSliceTree, length_meetings, hlength,
      List.getLast?_eq_some_getLast y.values_ne_nil]
    omega

theorem codomain_ofSliceTree (hi : i < y.flat.length) :
    (ofSliceTree y).codomain i = y.flat[i].2 := by
  simp [codomain, ofSliceTree, SliceTree.values_eq_flat, hi]

theorem time_ofSliceTree (hi : i < y.flat.length) : (ofSliceTree y).time i = y.flat[i].1.lb := by
  have hi' : i < y.leaves.length := by simpa [SliceTree.flat] using hi
  simp [time, ofSliceTree, SliceTree.flat, List.getElem?_append_left, hi']

theorem time_succ_ofSliceTree (hs : y.Spans) (hslices : Increasing (y.flat.map (·.1)))
    (hi : i < y.flat.length) : (ofSliceTree y).time (i + 1) = y.flat[i].1.ub := by
  rcases Nat.lt_or_ge (i + 1) y.flat.length with hlt | hge
  · have hchain := List.isChain_iff_getElem.1 hslices.chain i (by simpa using hlt)
    rw [time_ofSliceTree hlt]
    simpa using hchain.symm
  · have hlast : (ofSliceTree y).time (i + 1) = y.domain.ub := by
      have hlength : y.leaves.length = i + 1 := by
        have : y.flat.length = y.leaves.length := List.length_map _
        omega
      simp [time, ofSliceTree, ← hlength]
    rw [hlast, hs.domain_eq]
    simp [List.getLastD_eq_getLast?, List.getLast?_eq_getElem?, hi,
      show y.flat.length - 1 = i by omega]

/-- A slice of the tube is a slice of the tree. -/
theorem exists_slice_ofSliceTree (hs : y.Spans) (hslices : Increasing (y.flat.map (·.1)))
    (hi : i < (ofSliceTree y).sliceCount) : ∃ s ∈ y.flat, (ofSliceTree y).time i = s.1.lb ∧
      (ofSliceTree y).time (i + 1) = s.1.ub ∧ (ofSliceTree y).codomain i = s.2 := by
  rw [sliceCount_ofSliceTree] at hi
  exact ⟨y.flat[i], List.getElem_mem hi, time_ofSliceTree hi, time_succ_ofSliceTree hs hslices hi,
    codomain_ofSliceTree hi⟩

theorem ordered_ofSliceTree (hs : y.Spans) (hslices : Increasing (y.flat.map (·.1))) :
    (ofSliceTree y).Ordered := by
  have hlt {i : ℕ} (hi : i < (ofSliceTree y).sliceCount) :
      (ofSliceTree y).time i < (ofSliceTree y).time (i + 1) := by
    obtain ⟨s, hmem, hstart, hend, -⟩ := exists_slice_ofSliceTree hs hslices hi
    rw [hstart, hend]
    exact hslices.lt s.1 (List.mem_map_of_mem hmem)
  have hfits := fits_ofSliceTree y
  refine Ordered.of_adjacent hfits (fun k hk => ?_) fun k hk => (Binary64.lt_iff.1 (hlt hk)).2.2
  rcases Nat.eq_or_lt_of_le hk with rfl | hk
  · have hpos : 0 < (ofSliceTree y).sliceCount := hfits.someSlice
    have := (Binary64.lt_iff.1 (hlt (Nat.sub_lt hpos Nat.one_pos))).2.1
    rwa [Nat.sub_add_cancel hpos] at this
  · exact (Binary64.lt_iff.1 (hlt hk)).1

theorem gate_zero_ofSliceTree (y : SliceTree Interval) :
    (ofSliceTree y).gate 0 = (ofSliceTree y).codomain 0 := by
  obtain ⟨v, vs, hv⟩ := List.exists_cons_of_ne_nil y.values_ne_nil
  simp [gate, codomain, ofSliceTree, hv]

theorem gate_succ_ofSliceTree (hk : k + 1 < (ofSliceTree y).sliceCount) :
    (ofSliceTree y).gate (k + 1) =
      (ofSliceTree y).codomain k ∩ (ofSliceTree y).codomain (k + 1) := by
  change k + 1 < y.values.length at hk
  have hmeetings : k < (meetings y.values).length := by
    rw [length_meetings]
    omega
  have hfirst : (y.values.take 1).length = 1 := by
    rw [List.length_take]
    omega
  have hentry : (y.values.take 1 ++ meetings y.values ++ y.values.getLast?.toList)[k + 1]? =
      (meetings y.values)[k]? := by
    rw [List.getElem?_append_left (by rw [List.length_append]; omega),
      List.getElem?_append_right (by omega), hfirst, Nat.add_sub_cancel]
  have hk' : k < y.values.length := by omega
  simp only [gate, codomain, ofSliceTree, Array.getD_eq_getD_getElem?, List.getElem?_toArray,
    hentry, getElem?_meetings]
  simp [hk, hk']

theorem gate_last_ofSliceTree (y : SliceTree Interval) :
    (ofSliceTree y).gate (ofSliceTree y).sliceCount =
      (ofSliceTree y).codomain ((ofSliceTree y).sliceCount - 1) := by
  have hpos : 0 < y.values.length := List.length_pos_of_ne_nil y.values_ne_nil
  have hlength : (y.values.take 1 ++ meetings y.values).length = y.values.length := by
    rw [List.length_append, List.length_take, length_meetings]
    omega
  have hlast := List.getLast?_eq_getElem? (l := y.values)
  have hentry : (y.values.take 1 ++ meetings y.values ++ y.values.getLast?.toList)[
      y.values.length]? = y.values[y.values.length - 1]? := by
    rw [List.getElem?_append_right hlength.le, hlength, Nat.sub_self,
      List.getLast?_eq_some_getLast y.values_ne_nil, ← hlast,
      List.getLast?_eq_some_getLast y.values_ne_nil]
    rfl
  change (ofSliceTree y).gate y.values.length = (ofSliceTree y).codomain (y.values.length - 1)
  simp only [gate, codomain, ofSliceTree, Array.getD_eq_getD_getElem?, List.getElem?_toArray,
    hentry]

/-- A gate of the tube is all that the slices on both sides have in common. -/
theorem isSubset_gate_ofSliceTree (ha : a.Proper) (hk : k ≤ (ofSliceTree y).sliceCount)
    (h : (ofSliceTree y).Admits k a) : a.isSubset ((ofSliceTree y).gate k) = true := by
  have hpos : 0 < (ofSliceTree y).sliceCount := (fits_ofSliceTree y).someSlice
  cases k with
  | zero =>
    rw [gate_zero_ofSliceTree]
    exact h 0 hpos (Or.inl rfl)
  | succ k =>
    rcases Nat.eq_or_lt_of_le hk with heq | hlt
    · rw [heq, gate_last_ofSliceTree]
      exact h _ (Nat.sub_lt hpos Nat.one_pos) (Or.inr (by omega))
    · rw [gate_succ_ofSliceTree hlt]
      exact ha.isSubset_inter (h k (by omega) (Or.inr rfl)) (h (k + 1) hlt (Or.inl rfl))

theorem domain_ofSliceTree (hs : y.Spans) (hslices : Increasing (y.flat.map (·.1))) :
    (ofSliceTree y).domain = y.domain := by
  have hpos := List.length_pos_of_ne_nil y.flat_ne_nil
  have hlength : y.leaves.length = y.flat.length := (List.length_map _).symm
  have hlast : (ofSliceTree y).time (ofSliceTree y).sliceCount = y.domain.ub := by
    rw [sliceCount_ofSliceTree, ← hlength]
    simp [time, ofSliceTree]
  rw [(ordered_ofSliceTree hs hslices).domain_eq, hlast, time_ofSliceTree hpos, hs.domain_eq]
  simp [List.headD_eq_head?_getD, List.head?_eq_getElem?, hpos]

/-- What the slices at a time include is included in the value of the tube there. -/
theorem isSubset_eval_ofSliceTree (hs : y.Spans) (hslices : Increasing (y.flat.map (·.1)))
    (ha : a.Proper) (ht : y.domain.contains t = true)
    (h : ∀ s ∈ y.flat, s.1.contains t = true → a.isSubset s.2 = true) :
    a.isSubset ((ofSliceTree y).eval t) = true := by
  have ho := ordered_ofSliceTree hs hslices
  rw [← domain_ofSliceTree hs hslices] at ht
  have hslice {i : ℕ} (hi : i < (ofSliceTree y).sliceCount)
      (hlow : (ofSliceTree y).time i ≤ t) (hup : t ≤ (ofSliceTree y).time (i + 1)) :
      a.isSubset ((ofSliceTree y).codomain i) = true := by
    obtain ⟨s, hmem, hstart, hend, hcodomain⟩ := exists_slice_ofSliceTree hs hslices hi
    rw [hstart] at hlow
    rw [hend] at hup
    rw [hcodomain]
    exact h s hmem (Interval.contains_iff.2 ⟨hlow, hup⟩)
  unfold eval
  cases hk : (ofSliceTree y).gateIndex? t with
  | some k =>
    obtain ⟨hk', rfl⟩ := ho.gateIndex?_eq_some_iff.1 hk
    refine isSubset_gate_ofSliceTree ha hk' fun i hi hik => ?_
    have hself := Binary64.le_self (ho.isNaN_time hk')
    have hle := Binary64.le_of_lt (ho.time_lt_time (Nat.lt_succ_self i) hi)
    rcases hik with rfl | rfl
    · exact hslice hi hself hle
    · exact hslice hi hle hself
  | none =>
    obtain ⟨i, hi⟩ : ∃ i, (ofSliceTree y).sliceIndex? t = some i := ⟨_, if_pos ht⟩
    obtain ⟨hilt, hn, hlow, hup, -⟩ := ho.sliceIndex?_spec hi
    rw [hi]
    exact hslice hilt (Binary64.le_iff.2 ⟨ho.isNaN_time hilt.le, hn, hlow⟩)
      (Binary64.le_iff.2 ⟨hn, ho.isNaN_time hilt, hup⟩)

end OfSliceTree

/-! ### The slice tree of a tube -/

section ToSliceTree

variable {x : Tube Interval} {slices : List Interval} {dt t : Float}

/-- The tree over the slices that are laid has the value of the tube over each of them. -/
theorem toSliceTree_spec (hlays : SliceTree.Lays dt x.domain.ub x.domain.lb slices)
    (hslices : Increasing slices) :
    (x.toSliceTree dt).Balanced ∧ (x.toSliceTree dt).Spans ∧
      (x.toSliceTree dt).flat = slices.map fun s => (s, x.evalOver s) := by
  obtain ⟨hbalanced, hspans, hflat⟩ :=
    SliceTree.uniform_spec (Enclosure.whole : Interval) hlays hslices
  generalize htree : SliceTree.uniform x.domain dt (Enclosure.whole : Interval) = tree at *
  have hslices' : tree.flat.map (·.1) = slices := by
    rw [hflat, SliceTree.map_fst_constant]
  have hleaves : (tree.leaves.map fun l => x.evalOver l.domain) = slices.map x.evalOver := by
    simp [← hslices', SliceTree.flat]
  have hlength : (slices.map x.evalOver).length = tree.values.length := by
    simp [← hslices', SliceTree.values_eq_flat]
  have heq : x.toSliceTree dt = tree.withValues (slices.map x.evalOver) := by
    rw [toSliceTree, htree]
    exact congrArg tree.withValues hleaves
  rw [heq]
  refine ⟨?_, ?_, ?_⟩
  · rwa [← SliceTree.balanced_frame, SliceTree.frame_withValues, SliceTree.balanced_frame]
  · rwa [← SliceTree.spans_frame, SliceTree.frame_withValues, SliceTree.spans_frame]
  · rw [SliceTree.flat_withValues _ hlength, hslices']
    simpa using List.zip_map' (f := id) (g := x.evalOver) (l := slices)

/-- Over the slices of the tube, the tree has its codomains. -/
theorem codomains_toSliceTree (hx : x.Regular) (hcodomains : ∀ i, (x.codomain i).Proper)
    (hgates : ∀ k, (x.gate k).Proper)
    (hflat : (x.toSliceTree dt).flat = slices.map fun s => (s, x.evalOver s))
    (hslices : slices = (List.range x.sliceCount).map x.sliceDomain) :
    ((ofSliceTree (x.toSliceTree dt)).codomains == x.codomains) = true := by
  have hvalues : (ofSliceTree (x.toSliceTree dt)).codomains =
      ((List.range x.sliceCount).map fun i => x.evalOver (x.sliceDomain i)).toArray := by
    simp [ofSliceTree, SliceTree.values_eq_flat, hflat, hslices]
  rw [hvalues]
  refine Array.isEqv_iff_rel.2 ⟨by simp [sliceCount], fun i hi => ?_⟩
  have hi' : i < x.sliceCount := by simpa using hi
  obtain ⟨hover, hunder⟩ := hx.evalOver_sliceDomain hi'
  have hproper : (x.evalOver (x.sliceDomain i)).Proper :=
    evalOver_holds (Or.inl rfl) (fun _ _ => Interval.Proper.union) hcodomains hgates _
  have hentry := hproper.beq_of_isSubset (hcodomains i) hover hunder
  rw [codomain_eq_getElem hi'] at hentry
  simp only [List.getElem_toArray, List.getElem_map, List.getElem_range]
  exact hentry

end ToSliceTree

/-! ### There and back -/

/-- Conversions between tubes and slice trees lose no value, where the laying of the slices stops
and its first sum is a number: at every time of the domain the tree has a value there, which
includes that of the tube, and the tube that is made from the tree has one that includes it as
well. If the slices of the tree are those of the tube, that tube has the codomains of the first. -/
theorem conversions_include {x : Tube Interval} {dt : Float} (hx : x.WellFormed)
    (hcodomains : ∀ i, (x.codomain i).Proper) (hgates : ∀ k, (x.gate k).Proper)
    (hzeros : ∀ s ∈ x.times, s ≠ -0.0) (hdt : 0.0 < dt)
    (hstops : ∃ slices, SliceTree.Lays dt x.domain.ub x.domain.lb slices)
    (hnumber : (x.domain.lb + dt).isNaN = false) :
    (∀ t, x.domain.contains t = true → t ≠ -0.0 →
      (∃ v, (x.toSliceTree dt).at? t = some v ∧ (x.eval t).isSubset v = true) ∧
        (x.eval t).isSubset ((ofSliceTree (x.toSliceTree dt)).eval t) = true) ∧
      ((x.toSliceTree dt).leaves.map (·.domain) = (List.range x.sliceCount).map x.sliceDomain →
        ((ofSliceTree (x.toSliceTree dt)).codomains == x.codomains) = true) := by
  have hregular : x.Regular := ⟨hx, fun i => (hcodomains i).numeric, hzeros⟩
  have ho := hregular.ordered
  obtain ⟨slices, hlays⟩ := hstops
  have hdomain : x.domain.lb < x.domain.ub ∧ x.domain.lb ≠ -0.0 := by
    rw [ho.domain_eq]
    exact ⟨ho.time_lt_time ho.sliceCount_pos le_rfl, hregular.time_ne_negZero (Nat.zero_le _)⟩
  obtain ⟨hslices, hhead, hlast⟩ := hlays.increasing hdomain.1 hdt hdomain.2 hnumber
  obtain ⟨hbalanced, hspans, hflat⟩ := toSliceTree_spec hlays hslices
  have hdomains : (x.toSliceTree dt).flat.map (·.1) = slices := by
    simp [hflat, Function.comp_def]
  refine ⟨fun t ht ht0 => ?_, fun hleaves => ?_⟩
  · have htree : (x.toSliceTree dt).domain.contains t = true := by
      obtain ⟨hlow, hup⟩ := Interval.contains_iff.1 ht
      rw [hspans.domain_eq, hdomains, hhead]
      exact Interval.contains_iff.2 ⟨hlow, Binary64.le_trans hup hlast⟩
    have hvalue : ∀ s ∈ (x.toSliceTree dt).flat, s.1.contains t = true →
        (x.eval t).isSubset s.2 = true := by
      rw [hflat]
      intro s hs hst
      obtain ⟨d, hd, rfl⟩ := List.mem_map.1 hs
      exact hregular.eval_isSubset_evalOver (hslices.lt d hd) (hslices.zeros d hd).1 ht0 hst ht
    constructor
    · obtain ⟨s, hs, hst, hat⟩ := hspans.exists_at? hbalanced htree
      exact ⟨s.2, hat, hvalue s hs hst⟩
    · have hproper : (x.eval t).Proper := eval_holds (Or.inl rfl) hcodomains hgates t
      exact isSubset_eval_ofSliceTree hspans (by rwa [hdomains]) hproper htree hvalue
  · refine codomains_toSliceTree hregular hcodomains hgates hflat ?_
    rw [← hdomains, ← hleaves, SliceTree.flat, List.map_map]
    rfl

/-- Slices from zero to one and from one to two. -/
def paired : Tube Interval where
  times := #[0.0, 1.0, 2.0]
  codomains := #[⟨0.0, 2.0⟩, ⟨1.0, 4.0⟩]
  gates := #[⟨0.0, 0.0⟩, ⟨1.0, 2.0⟩, ⟨3.0, 4.0⟩]

theorem wellFormed_paired : paired.WellFormed where
  someSlice := by decide
  times := by decide
  gates := by decide
  increasing := by decide
  insideLeft := by decide +kernel
  insideRight := by decide +kernel

theorem lays_paired : SliceTree.Lays 1.0 paired.domain.ub paired.domain.lb
    [⟨0.0, 1.0⟩, ⟨1.0, 2.0⟩] := by
  have hend : ¬(paired.domain.lb + 1.0 + 1.0 < paired.domain.ub ∧ 0.0 < (1.0 : Float)) := by
    decide +kernel
  have hmore : SliceTree.Lays 1.0 paired.domain.ub (paired.domain.lb + 1.0) [⟨1.0, 2.0⟩] :=
    .last hend
  exact .more (by decide +kernel) hmore

/-- Slices of width one are those of the tube, so its codomains come back. -/
theorem conversions_include_paired :
    (∃ v, (paired.toSliceTree 1.0).at? 1.0 = some v ∧ (paired.eval 1.0).isSubset v = true) ∧
      ((ofSliceTree (paired.toSliceTree 1.0)).codomains == paired.codomains) = true := by
  have hcodomains : ∀ i, (paired.codomain i).Proper
    | 0 => Interval.proper_of_le rfl (by decide)
    | 1 => Interval.proper_of_le rfl (by decide)
    | _ + 2 => Or.inl rfl
  have hgates : ∀ k, (paired.gate k).Proper
    | 0 => Interval.proper_of_le rfl (by decide)
    | 1 => Interval.proper_of_le rfl (by decide)
    | 2 => Interval.proper_of_le rfl (by decide)
    | _ + 3 => Or.inl rfl
  obtain ⟨hvalues, hback⟩ := conversions_include wellFormed_paired hcodomains hgates (by decide)
    (by decide) ⟨_, lays_paired⟩ (by decide +kernel)
  have hslices := lays_paired.increasing (by decide +kernel) (by decide) (by decide +kernel)
    (by decide +kernel)
  refine ⟨(hvalues 1.0 (by decide +kernel) (by decide)).1, hback ?_⟩
  have hflat := congrArg (List.map (·.1)) (toSliceTree_spec lays_paired hslices.1).2.2
  rw [SliceTree.flat, List.map_map] at hflat
  exact hflat

/-- A single slice from `-∞` to zero. -/
def halfLine : Tube Interval where
  times := #[Binary64.negInf, 0.0]
  codomains := #[Interval.whole]
  gates := #[Interval.whole, Interval.whole]

theorem wellFormed_halfLine : halfLine.WellFormed where
  someSlice := by decide
  times := by decide
  gates := by decide
  increasing := by decide +kernel
  insideLeft := by decide +kernel
  insideRight := by decide +kernel

/-- From `-∞` on, slices of infinite width are laid at once: the sum is NaN. -/
theorem lays_halfLine : SliceTree.Lays Binary64.inf halfLine.domain.ub halfLine.domain.lb
    [Interval.empty] := by
  have hend : ¬(halfLine.domain.lb + Binary64.inf < halfLine.domain.ub ∧
      0.0 < Binary64.inf) := by decide +kernel
  exact .last hend

theorem toSliceTree_halfLine : ∃ l : SliceLabel Interval,
    halfLine.toSliceTree Binary64.inf = .leaf l ∧ l.domain = Interval.empty ∧
      l.value = Interval.empty := by
  have huniform : SliceTree.uniform halfLine.domain Binary64.inf (Enclosure.whole : Interval) =
      (SliceTree.build [Interval.empty] Enclosure.whole).update :=
    congrArg (fun slices => (SliceTree.build slices Enclosure.whole).update)
      (lays_halfLine.uniformSlices_eq (by decide))
  have hleaf : SliceTree.build [Interval.empty] (Enclosure.whole : Interval) =
      .leaf (SliceTree.labelOf [Interval.empty] Enclosure.whole) := by
    rw [SliceTree.build, dif_pos (by decide)]
  unfold toSliceTree
  rw [huniform, hleaf]
  exact ⟨_, rfl, rfl, rfl⟩

/-- The tube of a tree without any time has the ends of the empty interval as breakpoints. -/
theorem back_halfLine : ofSliceTree (halfLine.toSliceTree Binary64.inf) =
    ⟨#[Binary64.inf, Binary64.negInf], #[Interval.empty], #[Interval.empty, Interval.empty]⟩ := by
  obtain ⟨l, htree, hdomain, hvalue⟩ := toSliceTree_halfLine
  rw [htree]
  simp [ofSliceTree, SliceTree.values, SliceTree.leaves, SliceTree.domain, SliceTree.label, hdomain,
    hvalue, meetings, Interval.empty]

/-- Without a first sum that is a number the tree has no value at any time, and the tube that is
made from it has no time. -/
theorem conversions_lose_halfLine :
    halfLine.WellFormed ∧ (∀ i, (halfLine.codomain i).Proper) ∧ (∀ k, (halfLine.gate k).Proper) ∧
      (∀ s ∈ halfLine.times, s ≠ -0.0) ∧ 0.0 < Binary64.inf ∧
      (∃ slices, SliceTree.Lays Binary64.inf halfLine.domain.ub halfLine.domain.lb slices) ∧
      halfLine.domain.contains (-1.0) = true ∧ -1.0 ≠ -0.0 ∧
      (halfLine.toSliceTree Binary64.inf).at? (-1.0) = none ∧
      (halfLine.eval (-1.0)).isSubset
        ((ofSliceTree (halfLine.toSliceTree Binary64.inf)).eval (-1.0)) = false := by
  have hwhole : Interval.whole.Proper := Or.inr ⟨0, Interval.mem_whole⟩
  have hcodomains : ∀ i, (halfLine.codomain i).Proper
    | 0 => hwhole
    | _ + 1 => Or.inl rfl
  have hgates : ∀ k, (halfLine.gate k).Proper
    | 0 => hwhole
    | 1 => hwhole
    | _ + 2 => Or.inl rfl
  refine ⟨wellFormed_halfLine, hcodomains, hgates, by decide, by decide, ⟨_, lays_halfLine⟩,
    by decide +kernel, by decide, ?_, ?_⟩
  · obtain ⟨l, htree, hdomain, -⟩ := toSliceTree_halfLine
    rw [htree]
    have hnone : l.domain.contains (-1.0) = false := by
      rw [hdomain]
      decide +kernel
    simp [SliceTree.at?, SliceTree.indexAt?, SliceTree.domain, SliceTree.label, hnone]
  · rw [back_halfLine]
    decide +kernel

end Tube

end FlowTube
