import FlowTube.Proofs.SliceTree.Refinement

/-! What the queries of a slice tree answer, in terms of the list of its slices. The descent by
index counts the slices to the left of the path. A query over an interval of time stops at a node
in two cases only: no slice below meets the interval, or all do, and then the caches of the node
answer for them. What it does otherwise is to join the answers of the halves, so it has the hull
over the slices that meet the interval, as a scan of the list would find it. -/

namespace FlowTube

namespace Interval

variable {a b c d : Interval} {as bs : List Interval}

/-- The same interval, or the canonical empty one in place of another empty one. -/
def SameOrEmpty (a b : Interval) : Prop := a = b ∨ a = empty ∧ b.isEmpty = true

theorem SameOrEmpty.trans (hab : a.SameOrEmpty b) (hbc : b.SameOrEmpty c) : a.SameOrEmpty c := by
  rcases hab with rfl | ⟨rfl, hb⟩
  · exact hbc
  · rcases hbc with rfl | ⟨-, hc⟩
    · exact Or.inr ⟨rfl, hb⟩
    · exact Or.inr ⟨rfl, hc⟩

theorem SameOrEmpty.union (hab : a.SameOrEmpty b) (hcd : c.SameOrEmpty d) :
    (a ∪ c).SameOrEmpty (b ∪ d) := by
  rcases hab with rfl | ⟨rfl, hb⟩
  · rcases hcd with rfl | ⟨rfl, hd⟩
    · exact Or.inl rfl
    · cases ha : a.isEmpty with
      | true =>
        rw [union_of_isEmpty_left ha, union_of_isEmpty_left ha]
        exact Or.inr ⟨rfl, hd⟩
      | false =>
        rw [union_of_isEmpty_right ha rfl, union_of_isEmpty_right ha hd]
        exact Or.inl rfl
  · rw [union_of_isEmpty_left rfl, union_of_isEmpty_left hb]
    exact hcd

/-- Hulls of consecutive parts make up the hull of the list, where a part without entries may turn
another empty interval into the canonical one. -/
theorem sameOrEmpty_hullAll_append (has : ∀ a ∈ as, a.Numeric) (hbs : ∀ b ∈ bs, b.Numeric) :
    (hullAll as ∪ hullAll bs).SameOrEmpty (hullAll (as ++ bs)) := by
  cases bs with
  | nil =>
    rw [List.append_nil]
    change (hullAll as ∪ empty).SameOrEmpty (hullAll as)
    cases hempty : (hullAll as).isEmpty with
    | true =>
      rw [union_of_isEmpty_left hempty]
      exact Or.inr ⟨rfl, hempty⟩
    | false =>
      rw [union_of_isEmpty_right hempty rfl]
      exact Or.inl rfl
  | cons b bs => exact Or.inl (hullAll_append has hbs (List.cons_ne_nil b bs)).symm

/-- Empty only as the canonical empty interval. -/
def Canonical (a : Interval) : Prop := a.isEmpty = true → a = empty

theorem SameOrEmpty.eq_of_canonical (h : a.SameOrEmpty b) (hb : b.Canonical) : a = b := by
  rcases h with rfl | ⟨rfl, hempty⟩
  · rfl
  · exact (hb hempty).symm

theorem canonical_ofBounds (lb ub : Float) : (ofBounds lb ub).Canonical := by
  intro hempty
  rcases ofBounds_cases lb ub with h | ⟨hle, htop, hbot⟩
  · exact h
  · rw [ofBounds_of_le hle htop hbot] at hempty
    exact absurd (of_decide_eq_true hempty) (Binary64.not_lt_of_le hle)

theorem canonical_ends (a : Interval) : a.ends.1.Canonical ∧ a.ends.2.Canonical := by
  unfold ends
  split_ifs
  · exact ⟨fun _ => rfl, fun _ => rfl⟩
  · exact ⟨canonical_ofBounds a.lb a.lb, canonical_ofBounds a.ub a.ub⟩

theorem Canonical.union (ha : a.Canonical) (hb : b.Canonical) (hn : a.Numeric) :
    (a ∪ b).Canonical := by
  cases hane : a.isEmpty with
  | true => rwa [union_of_isEmpty_left hane]
  | false =>
    cases hbne : b.isEmpty with
    | true => rwa [union_of_isEmpty_right hane hbne]
    | false => exact fun h => absurd h (by simp [hn.isEmpty_union hane hbne])

theorem canonical_hullAll (has : ∀ a ∈ as, a.Numeric ∧ a.Canonical) : (hullAll as).Canonical := by
  have hfold : ∀ a : Interval, a.Numeric → a.Canonical → (as.foldl (· ∪ ·) a).Canonical := by
    induction as with
    | nil => exact fun a _ ha => ha
    | cons b as ih =>
      intro a hn ha
      obtain ⟨⟨hbn, hb⟩, has⟩ := List.forall_mem_cons.1 has
      exact ih has (a ∪ b) (hn.union hbn) (ha.union hb hn)
  exact hfold empty numeric_empty fun _ => rfl

/-- A non-empty interval meets what includes it. -/
theorem meets_of_isSubset (hlb : a.lb ≤ a.ub) (h : a.isSubset b = true) : a.meets b = true := by
  obtain ⟨hl, hu⟩ := (isSubset_iff.1 h).resolve_left (Binary64.not_lt_of_le hlb)
  have hle := Binary64.le_trans hl (Binary64.le_trans hlb hu)
  simp only [meets, isEmpty, Bool.and_eq_true, Bool.not_eq_true', decide_eq_true_eq,
    decide_eq_false_iff_not]
  exact ⟨⟨⟨Binary64.not_lt_of_le hlb, Binary64.not_lt_of_le hle⟩, Binary64.le_trans hlb hu⟩,
    Binary64.le_trans hl hlb⟩

end Interval

namespace SliceTree

variable {x : SliceTree Interval} {tdom value : Interval} {slices : List Interval} {t : Float}
  {i : ℕ}

/-! ### Slices by index -/

theorem go_eq_leaves {ι : Type} {x : SliceTree ι} (hb : x.Balanced) (hi : i < x.size) :
    x.leaves[i]? = some (slice?.go i x) := by
  induction x generalizing i with
  | leaf l =>
    obtain rfl : i = 0 := by
      have hsize : l.size = 1 := hb
      change i < l.size at hi
      omega
    rfl
  | node l past future hp hf =>
    obtain ⟨hpast, hfuture, hsize, hhalf⟩ := hb
    change i < l.size at hi
    rw [leaves, slice?.go, ← hhalf]
    split_ifs with hlt
    · rw [List.getElem?_append_left (by rwa [length_leaves hpast])]
      exact hp hpast hlt
    · rw [List.getElem?_append_right (by rw [length_leaves hpast]; omega), length_leaves hpast]
      exact hf hfuture (by omega)

/-- The descent by index finds the entry of the list. -/
theorem slice?_eq_leaves {ι : Type} {x : SliceTree ι} (hb : x.Balanced) (i : ℕ) :
    x.slice? i = x.leaves[i]? := by
  unfold slice?
  split_ifs with hi
  · exact (go_eq_leaves hb hi).symm
  · rw [List.getElem?_eq_none (by rw [length_leaves hb]; omega)]

/-! ### Slices over an interval of time -/

/-- The slices that meet an interval, with their values. -/
def meeting (tdom : Interval) (x : SliceTree Interval) : List (Interval × Interval) :=
  x.flat.filter (·.1.meets tdom)

theorem meeting_node (l : SliceLabel Interval) (past future : SliceTree Interval) :
    (node l past future).meeting tdom = past.meeting tdom ++ future.meeting tdom := by
  rw [meeting, flat_node, List.filter_append, meeting, meeting]

/-- No slice of a tree meets what its domain misses. -/
theorem Spans.meeting_eq_nil (hs : x.Spans) (h : ¬x.domain.meets tdom = true) :
    x.meeting tdom = [] :=
  List.filter_eq_nil_iff.2 fun _ hmem hmeets => h (hs.meets_of_mem hmem hmeets)

/-- Every slice meets what includes the domain. -/
theorem Spans.meeting_eq_flat (hs : x.Spans) (h : x.domain.isSubset tdom = true) :
    x.meeting tdom = x.flat := by
  refine List.filter_eq_self.2 fun s hmem => ?_
  obtain ⟨hlb, hle, hub⟩ := hs.slice_within hmem
  exact Interval.meets_of_isSubset hle
    (Interval.isSubset_trans (Interval.isSubset_iff.2 (Or.inr ⟨hlb, hub⟩)) h)

theorem meeting_leaf {l : SliceLabel Interval} (h : l.domain.meets tdom = true) :
    (leaf l).meeting tdom = (leaf l).flat :=
  List.filter_eq_self.2 (List.forall_mem_singleton.2 h)

/-- The whole line includes every domain. -/
theorem Spans.isSubset_of_beq_whole (hs : x.Spans) (h : (tdom == Interval.whole) = true) :
    x.domain.isSubset tdom = true := by
  obtain ⟨hlb, hub⟩ : (tdom.lb == Binary64.negInf) = true ∧ (tdom.ub == Binary64.inf) = true :=
    (Bool.and_eq_true _ _).mp h
  obtain ⟨hlbn, -, hlbv⟩ := Binary64.beq_iff.1 hlb
  obtain ⟨hubn, -, hubv⟩ := Binary64.beq_iff.1 hub
  obtain ⟨hn, hn', -⟩ := Binary64.le_iff.1 hs.lb_le_ub
  refine Interval.isSubset_iff.2 (Or.inr ⟨Binary64.le_iff.2 ⟨hlbn, hn, ?_⟩,
    Binary64.le_iff.2 ⟨hn', hubn, ?_⟩⟩)
  · rw [hlbv, Binary64.value_negInf]
    exact bot_le
  · rw [hubv, Binary64.value_inf]
    exact le_top

theorem Spans.of_mem_subtrees {y : SliceTree Interval} (hs : x.Spans) (h : y ∈ x.subtrees) :
    y.Spans := by
  induction x with
  | leaf l => rwa [List.mem_singleton.1 h]
  | node l past future hp hf =>
    rcases List.mem_cons.1 h with rfl | h
    · exact hs
    · rcases List.mem_append.1 h with h | h
      · exact hp hs.1 h
      · exact hf hs.2.1 h

/-- What a query answers at a tree: nothing, because no slice meets the interval; the hull over
all slices, because all meet it; or what it answers at the halves, joined. -/
inductive Answers (tdom : Interval) (f : Interval × Interval → Interval)
    (query : SliceTree Interval → Interval) : SliceTree Interval → Prop
  | nothing {x : SliceTree Interval} (hmeeting : x.meeting tdom = [])
      (h : query x = Interval.empty) : Answers tdom f query x
  | all {x : SliceTree Interval} (hmeeting : x.meeting tdom = x.flat)
      (h : query x = Interval.hullAll (x.flat.map f)) : Answers tdom f query x
  | joined {l : SliceLabel Interval} {past future : SliceTree Interval}
      (h : query (node l past future) = query past ∪ query future) :
      Answers tdom f query (node l past future)

/-- Such a query answers with the hull over the slices that meet the interval. -/
theorem query_eq_scan {f : Interval × Interval → Interval} {query : SliceTree Interval → Interval}
    (hn : ∀ s ∈ x.flat, (f s).Numeric) (h : ∀ y ∈ x.subtrees, Answers tdom f query y) :
    (query x).SameOrEmpty (Interval.hullAll ((x.meeting tdom).map f)) := by
  have hnil {y : SliceTree Interval} (hy : y.meeting tdom = []) (hq : query y = Interval.empty) :
      (query y).SameOrEmpty (Interval.hullAll ((y.meeting tdom).map f)) := by
    rw [hy, hq]
    exact Or.inl rfl
  have hall {y : SliceTree Interval} (hy : y.meeting tdom = y.flat)
      (hq : query y = Interval.hullAll (y.flat.map f)) :
      (query y).SameOrEmpty (Interval.hullAll ((y.meeting tdom).map f)) := by
    rw [hy, hq]
    exact Or.inl rfl
  induction x with
  | leaf l =>
    cases h (leaf l) (List.mem_singleton_self _) with
    | nothing hmeeting hq => exact hnil hmeeting hq
    | all hmeeting hq => exact hall hmeeting hq
  | node l past future hp hf =>
    cases h (node l past future) List.mem_cons_self with
    | nothing hmeeting hq => exact hnil hmeeting hq
    | all hmeeting hq => exact hall hmeeting hq
    | joined hq =>
      rw [flat_node, List.forall_mem_append] at hn
      have hpast := hp hn.1 fun y hy => h y (List.mem_cons_of_mem _ (List.mem_append_left _ hy))
      have hfuture := hf hn.2 fun y hy => h y (List.mem_cons_of_mem _ (List.mem_append_right _ hy))
      have hpart {y : SliceTree Interval} (hy : ∀ s ∈ y.flat, (f s).Numeric) :
          ∀ a ∈ (y.meeting tdom).map f, a.Numeric :=
        List.forall_mem_map.2 fun s hs => hy s (List.mem_of_mem_filter hs)
      rw [hq, meeting_node, List.map_append]
      exact (hpast.union hfuture).trans
        (Interval.sameOrEmpty_hullAll_append (hpart hn.1) (hpart hn.2))

/-! ### The two queries -/

/-- A tree over consecutive slices with caches that agree and numbers as bounds. -/
structure Scanned (x : SliceTree Interval) : Prop where
  spans : x.Spans
  coherent : x.Coherent
  numeric : ∀ s ∈ x.flat, s.2.Numeric

theorem Scanned.of_mem_subtrees {y : SliceTree Interval} (hx : x.Scanned) (h : y ∈ x.subtrees) :
    y.Scanned where
  spans := hx.spans.of_mem_subtrees h
  coherent := hx.coherent.of_mem_subtrees h
  numeric s hs := hx.numeric s (flat_subset_of_mem_subtrees h hs)

theorem Scanned.summarized (hx : x.Scanned) : x.Summarized := hx.coherent.summarized hx.numeric

/-- Only over a half-line the query takes the cache of a node for the slices that meet it. -/
theorem Scanned.answers_valueOver (hx : x.Scanned)
    (htdom : tdom.isUnbounded = false ∨ (tdom == Interval.whole) = true) :
    Answers tdom (·.2) (valueOver tdom) x := by
  have hwhole : tdom.isUnbounded = true → x.domain.isSubset tdom = true := fun h =>
    hx.spans.isSubset_of_beq_whole (htdom.resolve_left (by simp [h]))
  have hvalue := hx.summarized.value
  by_cases hmeets : x.domain.meets tdom = true
  · cases x with
    | leaf l => exact .all (meeting_leaf hmeets) ((if_pos hmeets).trans hvalue)
    | node l past future =>
      change l.domain.meets tdom = true at hmeets
      by_cases hsubset : l.domain.isSubset tdom = true
      · refine .all (hx.spans.meeting_eq_flat hsubset) (Eq.trans ?_ hvalue)
        simp [valueOver, hmeets, hsubset, value, label]
      · have hbounded : ¬tdom.isUnbounded = true := fun h => hsubset (hwhole h)
        refine .joined ?_
        simp [valueOver, hmeets, hsubset, hbounded]
  · refine .nothing (hx.spans.meeting_eq_nil hmeets) ?_
    cases x <;> simp_all [valueOver, domain, label, Enclosure.empty]

/-- The bounds are hulls of the ends of the values, and the query takes them from a node only if
its domain lies in the interval. -/
theorem Scanned.answers_boundsOver (hx : x.Scanned) (tdom : Interval) :
    Answers tdom (·.2.ends.1) (fun y => (boundsOver tdom y).1) x ∧
      Answers tdom (·.2.ends.2) (fun y => (boundsOver tdom y).2) x := by
  have hall (hmeeting : x.meeting tdom = x.flat) (hq : boundsOver tdom x = x.bounds) :
      Answers tdom (·.2.ends.1) (fun y => (boundsOver tdom y).1) x ∧
        Answers tdom (·.2.ends.2) (fun y => (boundsOver tdom y).2) x :=
    ⟨.all hmeeting ((congrArg Prod.fst hq).trans hx.summarized.lower),
      .all hmeeting ((congrArg Prod.snd hq).trans hx.summarized.upper)⟩
  by_cases hwhole : (tdom == Interval.whole) = true
  · refine hall (hx.spans.meeting_eq_flat (hx.spans.isSubset_of_beq_whole hwhole)) ?_
    cases x <;> exact if_pos hwhole
  · by_cases hmeets : x.domain.meets tdom = true
    · -- an empty interval meets nothing, so the test for it adds nothing to that of the domain
      have hne : tdom.isEmpty = false := by
        simp only [Interval.meets, Bool.and_eq_true, Bool.not_eq_true'] at hmeets
        exact hmeets.1.1.2
      cases x with
      | leaf l =>
        refine hall (meeting_leaf hmeets) ?_
        change l.domain.meets tdom = true at hmeets
        simp [boundsOver, hwhole, hmeets, hne, bounds, label]
      | node l past future =>
        change l.domain.meets tdom = true at hmeets
        by_cases hsubset : l.domain.isSubset tdom = true
        · refine hall (hx.spans.meeting_eq_flat hsubset) ?_
          simp [boundsOver, hwhole, hmeets, hne, hsubset, bounds, label]
        · have hq : boundsOver tdom (node l past future) =
              joinBounds (boundsOver tdom past) (boundsOver tdom future) := by
            simp [boundsOver, hwhole, hmeets, hne, hsubset]
          exact ⟨.joined (congrArg Prod.fst hq), .joined (congrArg Prod.snd hq)⟩
    · have hq : boundsOver tdom x = (Interval.empty, Interval.empty) := by
        cases x <;> simp_all [boundsOver, domain, label, Enclosure.empty]
      have hnil := hx.spans.meeting_eq_nil hmeets
      exact ⟨.nothing hnil (congrArg Prod.fst hq), .nothing hnil (congrArg Prod.snd hq)⟩

/-! ### A scan of the list -/

/-- The descent by time finds the least index of a slice that contains the time. -/
theorem Spans.isLeast_indexAt? (hs : x.Spans) (hb : x.Balanced)
    (ht : x.domain.contains t = true) : ∃ i, x.indexAt? t = some i ∧
      IsLeast {i | ∃ s, (x.flat.map (·.1))[i]? = some s ∧ s.contains t = true} i := by
  have hi : x.indexAt? t = some (indexAt?.go t x) := if_pos ht
  have hfind := hi
  rw [indexAt?_eq_findIdx? hb hs, List.findIdx?_eq_some_iff_getElem] at hfind
  obtain ⟨hlt, hcontains, hbefore⟩ := hfind
  refine ⟨_, hi, ⟨_, by rw [List.getElem?_map, List.getElem?_eq_getElem hlt]; rfl, hcontains⟩, ?_⟩
  rintro j ⟨s, hj, hs⟩
  by_contra hji
  rw [List.getElem?_map, Option.map_eq_some_iff] at hj
  obtain ⟨r, hr, rfl⟩ := hj
  obtain ⟨hjlt, rfl⟩ := List.getElem?_eq_some_iff.1 hr
  exact hbefore j (not_le.1 hji) hs

/-- The value at a time is that of a slice that contains the time. -/
theorem Spans.exists_at? (hs : x.Spans) (hb : x.Balanced) (ht : x.domain.contains t = true) :
    ∃ s ∈ x.flat, s.1.contains t = true ∧ x.at? t = some s.2 := by
  obtain ⟨i, hi, ⟨d, hd, hcontains⟩, -⟩ := hs.isLeast_indexAt? hb ht
  obtain ⟨s, hentry, rfl⟩ := Option.map_eq_some_iff.1 (List.getElem?_map.symm.trans hd)
  refine ⟨s, List.mem_of_getElem? hentry, hcontains, ?_⟩
  obtain ⟨l, hl, rfl⟩ := Option.map_eq_some_iff.1 (List.getElem?_map.symm.trans hentry)
  simp [at?, hi, slice?_eq_leaves hb, hl]

/-- Every query of a tree over consecutive slices answers as a scan of the slices with their values
does: by index the slice at that place, by time the first slice that contains it, over an interval
that is empty, bounded or the whole line the hull of the values of the slices that meet it, and
over any interval the hulls of the least and of the greatest values there. -/
theorem queries_eq_scan (hslices : Consecutive slices) (hne : slices ≠ [])
    (hframe : x.frame = (build slices value).frame) (hcoherent : x.Coherent)
    (hnumeric : ∀ a ∈ x.values, a.Numeric) :
    x.size = slices.length ∧ x.flat = slices.zip x.values ∧
      (∀ (i : ℕ) (hi : i < slices.length), ∃ l, x.slice? i = some l ∧ l.domain = slices[i] ∧
        x.values[i]? = some l.value) ∧
      (∀ t, x.domain.contains t = true → ∃ i, x.indexAt? t = some i ∧
        IsLeast {i | ∃ s, slices[i]? = some s ∧ s.contains t = true} i) ∧
      (∀ t, x.domain.contains t = false → x.indexAt? t = none) ∧
      (∀ tdom : Interval,
        tdom.isEmpty = true ∨ tdom.isBounded = true ∨ (tdom == Interval.whole) = true →
          (valueOver tdom x).SameOrEmpty (Interval.hullAll ((x.meeting tdom).map (·.2)))) ∧
      ∀ tdom, boundsOver tdom x = (Interval.hullAll ((x.meeting tdom).map (·.2.ends.1)),
        Interval.hullAll ((x.meeting tdom).map (·.2.ends.2))) := by
  obtain ⟨hspans, hflat, -⟩ := build_spec value hslices hne
  obtain ⟨hbalanced, hsize⟩ := balanced_build slices value hne
  have hx : x.Scanned := ⟨by rwa [← spans_frame, hframe, spans_frame], hcoherent, fun s hs =>
    hnumeric _ (by rw [values_eq_flat]; exact List.mem_map_of_mem hs)⟩
  have hb : x.Balanced := by rwa [← balanced_frame, hframe, balanced_frame]
  have hdomains : x.flat.map (·.1) = slices := by
    rw [← flat_frame, hframe, flat_frame, hflat, map_fst_constant]
  have hcount : x.size = slices.length := by rw [← size_frame, hframe, size_frame, hsize]
  refine ⟨hcount, ?_, fun i hi => ?_, fun t ht => ?_, fun t ht => ?_, fun tdom htdom => ?_,
    fun tdom => ?_⟩
  · rw [values_eq_flat, ← hdomains, ← List.unzip_fst, ← List.unzip_snd, List.zip_unzip]
  · have hleaf : i < x.leaves.length := by rwa [length_leaves hb, hcount]
    refine ⟨x.leaves[i], ?_, ?_, ?_⟩
    · rw [slice?_eq_leaves hb, List.getElem?_eq_getElem hleaf]
    · simp only [← hdomains, flat, List.getElem_map]
    · simp only [values, List.getElem?_map, List.getElem?_eq_getElem hleaf, Option.map_some]
  · simpa only [hdomains] using hx.spans.isLeast_indexAt? hb ht
  · exact if_neg (Bool.eq_false_iff.1 ht)
  · have hshape : tdom.isUnbounded = false ∨ (tdom == Interval.whole) = true := by
      rcases htdom with hempty | hbounded | hwhole
      · exact Or.inl (by simp [Interval.isUnbounded, hempty])
      · exact Or.inl (by simpa using (Bool.and_eq_true _ _).mp hbounded |>.2)
      · exact Or.inr hwhole
    exact query_eq_scan hx.numeric fun y hy => (hx.of_mem_subtrees hy).answers_valueOver hshape
  · have hanswers y (hy : y ∈ x.subtrees) := (hx.of_mem_subtrees hy).answers_boundsOver tdom
    have hlower := query_eq_scan (fun s _ => (Interval.numeric_ends s.2).1)
      fun y hy => (hanswers y hy).1
    have hupper := query_eq_scan (fun s _ => (Interval.numeric_ends s.2).2)
      fun y hy => (hanswers y hy).2
    refine Prod.ext (hlower.eq_of_canonical ?_) (hupper.eq_of_canonical ?_)
    · exact Interval.canonical_hullAll (List.forall_mem_map.2 fun s _ =>
        ⟨(Interval.numeric_ends s.2).1, (Interval.canonical_ends s.2).1⟩)
    · exact Interval.canonical_hullAll (List.forall_mem_map.2 fun s _ =>
        ⟨(Interval.numeric_ends s.2).2, (Interval.canonical_ends s.2).2⟩)

/-- From 0 to 1 up to the time 1, from 0 to 2 after it. -/
def opening : SliceTree Interval :=
  (modify (fun _ => ((⟨0.0, 2.0⟩ : Interval), ())) 1
    (build [Interval.unit, ⟨1.0, 2.0⟩] Interval.unit).update).1

theorem frame_opening :
    opening.frame = (build [Interval.unit, ⟨1.0, 2.0⟩] Interval.unit).frame := by
  rw [opening, frame_modify, frame_update]

theorem flat_opening :
    opening.flat = [(Interval.unit, Interval.unit), (⟨1.0, 2.0⟩, ⟨0.0, 2.0⟩)] := by
  obtain ⟨hbalanced, hsize⟩ :=
    balanced_build [Interval.unit, ⟨1.0, 2.0⟩] Interval.unit (List.cons_ne_nil _ _)
  have hflat := (build_spec Interval.unit Change.consecutive_two_slices (List.cons_ne_nil _ _)).2.1
  rw [opening, flat_modify _ (balanced_update hbalanced) (by rw [size_update, hsize]; decide),
    flat_update, hflat]
  rfl

theorem queries_eq_scan_opening : opening.indexAt? 1.0 = some 0 ∧
    valueOver ⟨1.0, 1.0⟩ opening = ⟨0.0, 2.0⟩ ∧
      boundsOver ⟨1.5, Binary64.inf⟩ opening = (⟨0.0, 0.0⟩, ⟨2.0, 2.0⟩) := by
  have hdomain : opening.domain.contains 1.0 = true := by
    rw [← domain_frame, frame_opening, domain_frame,
      (build_spec _ Change.consecutive_two_slices (List.cons_ne_nil _ _)).2.2]
    decide +kernel
  have hnumeric : ∀ a ∈ opening.values, a.Numeric := by
    rw [values_eq_flat, flat_opening, List.map_cons, List.map_singleton, List.forall_mem_cons,
      List.forall_mem_singleton]
    exact ⟨⟨rfl, rfl⟩, rfl, rfl⟩
  obtain ⟨-, -, -, htime, -, hover, hbounds⟩ := queries_eq_scan Change.consecutive_two_slices
    (List.cons_ne_nil _ _) frame_opening (coherent_modify _ _ (coherent_update _)) hnumeric
  refine ⟨?_, ?_, ?_⟩
  · obtain ⟨i, hi, -, hleast⟩ := htime 1.0 hdomain
    rw [hi, Nat.le_zero.1 (hleast ⟨Interval.unit, rfl, by decide +kernel⟩)]
  · have h := hover ⟨1.0, 1.0⟩ (Or.inr (Or.inl (by decide +kernel)))
    rw [meeting, flat_opening] at h
    exact h.eq_of_canonical fun hempty => absurd hempty (by decide +kernel)
  · rw [hbounds, meeting, flat_opening]
    rfl

end SliceTree

end FlowTube
