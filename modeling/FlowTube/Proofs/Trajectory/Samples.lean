import FlowTube.Proofs.Binary64.TotalOrder
import FlowTube.Proofs.Trajectory.Evaluation

/-! Which samples are kept, and in which order. Sorting by the total order is stable, so of the
samples with one time the first comes first, and the pass over the sorted list drops the others. The
two zeros are one time with two places in the total order: a sample at `-0` goes before all samples
at `0`, and these are dropped even if they come first in the list. -/

namespace FlowTube

namespace Binary64

variable {x y : Float}

/-- Numbers in the total order increase, or are the same or the two zeros. -/
theorem real_cases (hx : x.isFinite = true) (hy : y.isFinite = true)
    (h : (totalKey x).toNat ≤ (totalKey y).toNat) :
    real x < real y ∨ x = y ∨ x = -0.0 ∧ y = 0.0 := by
  rcases Nat.eq_or_lt_of_le h with heq | hlt
  · exact Or.inr (Or.inl (eq_of_totalKey heq))
  · rcases value_lt_of_totalKey (isNaN_of_isFinite hx) (isNaN_of_isFinite hy) hlt with
      hvalue | hzeros
    · rw [value_of_isFinite hx, value_of_isFinite hy, EReal.coe_lt_coe_iff] at hvalue
      exact Or.inl hvalue
    · exact Or.inr (Or.inr hzeros)

theorem real_le_of_key (hx : x.isFinite = true) (hy : y.isFinite = true)
    (h : (totalKey x).toNat ≤ (totalKey y).toNat) : real x ≤ real y := by
  rcases real_cases hx hy h with hlt | rfl | ⟨rfl, rfl⟩
  · exact hlt.le
  · exact le_rfl
  · exact le_rfl

end Binary64

/-! ### First entries -/

section First

variable {α β : Type} {f : α → β} {l : List α} {a b : α}

/-- No entry before `a` has the image of `a`. -/
def FirstBy (f : α → β) (l : List α) (a : α) : Prop :=
  ∃ before after, l = before ++ a :: after ∧ ∀ b ∈ before, f b ≠ f a

theorem FirstBy.mem (h : FirstBy f l a) : a ∈ l := by
  obtain ⟨before, after, rfl, -⟩ := h
  simp

theorem firstBy_cons : FirstBy f (b :: l) a ↔ a = b ∨ f b ≠ f a ∧ FirstBy f l a := by
  constructor
  · rintro ⟨before, after, heq, hbefore⟩
    cases before with
    | nil => exact Or.inl (List.cons.inj heq).1.symm
    | cons c before =>
      obtain ⟨rfl, rfl⟩ := List.cons.inj heq
      obtain ⟨hb, hbefore⟩ := List.forall_mem_cons.1 hbefore
      exact Or.inr ⟨hb, before, after, rfl, hbefore⟩
  · rintro (rfl | ⟨hb, before, after, rfl, hbefore⟩)
    · exact ⟨[], l, rfl, fun _ h => nomatch h⟩
    · exact ⟨b :: before, after, rfl, List.forall_mem_cons.2 ⟨hb, hbefore⟩⟩

theorem exists_firstBy (h : b ∈ l) : ∃ a, FirstBy f l a ∧ f a = f b := by
  induction l with
  | nil => cases h
  | cons c l ih =>
    by_cases hc : f c = f b
    · exact ⟨c, firstBy_cons.2 (Or.inl rfl), hc⟩
    · have hmem : b ∈ l := (List.mem_cons.1 h).resolve_left fun heq => hc (heq ▸ rfl)
      obtain ⟨a, ha, hab⟩ := ih hmem
      exact ⟨a, firstBy_cons.2 (Or.inr ⟨fun hca => hc (hca.trans hab), ha⟩), hab⟩

/-- Sorting by a key is stable. -/
theorem find?_mergeSort (key : α → UInt64) (l : List α) (k : UInt64) :
    (l.mergeSort fun a b => key a ≤ key b).find? (key · == k) = l.find? (key · == k) := by
  have htrans (a b c : α) (hab : decide (key a ≤ key b) = true)
      (hbc : decide (key b ≤ key c) = true) : decide (key a ≤ key c) = true := by
    rw [decide_eq_true_eq, UInt64.le_iff_toNat_le] at *
    omega
  have htotal (a b : α) : (decide (key a ≤ key b) || decide (key b ≤ key a)) = true := by
    rw [Bool.or_eq_true, decide_eq_true_eq, decide_eq_true_eq, UInt64.le_iff_toNat_le,
      UInt64.le_iff_toNat_le]
    omega
  have hequal : (l.filter (key · == k)).Pairwise fun a b => decide (key a ≤ key b) = true := by
    refine List.pairwise_filter.2 (List.pairwise_of_forall fun a b ha hb => ?_)
    rw [beq_iff_eq] at ha hb
    rw [ha, hb, decide_eq_true_eq, UInt64.le_iff_toNat_le]
  -- the entries with the key are in the sorted list in their order, and there are no others
  have hsub := (List.sublist_mergeSort htrans htotal hequal List.filter_sublist).filter (key · == k)
  have hlen := ((List.mergeSort_perm l fun a b => key a ≤ key b).filter (key · == k)).length_eq
  rw [List.filter_filter] at hsub
  simp only [Bool.and_self] at hsub
  rw [← List.head?_filter, ← List.head?_filter, hsub.eq_of_length hlen.symm]

end First

namespace Trajectory

open Binary64 (real value totalKey)

variable {points : List (Float × List Float)} {p q : Float × List Float} {n : ℕ}

/-- The first sample with its time, where `-0` takes the place of `0`. -/
def Kept (points : List (Float × List Float)) (p : Float × List Float) : Prop :=
  FirstBy (·.1) points p ∧ ∀ q ∈ points, q.1 = -0.0 → p.1 ≠ 0.0

/-! ### Sorted samples -/

theorem firstBy_iff_find? : FirstBy (·.1) points p ↔
    points.find? (fun q => totalKey q.1 == totalKey p.1) = some p := by
  rw [List.find?_eq_some_iff_append]
  refine Iff.trans ?_ (and_iff_right (beq_self_eq_true _)).symm
  refine exists_congr fun before => exists_congr fun after => and_congr_right fun _ =>
    forall₂_congr fun q _ => ?_
  rw [Bool.not_eq_true', beq_eq_false_iff_ne]
  exact not_congr ⟨congrArg totalKey, fun h => Binary64.eq_of_totalKey (congrArg UInt64.toNat h)⟩

theorem firstBy_sort : FirstBy (·.1) (sort points) p ↔ FirstBy (·.1) points p := by
  rw [firstBy_iff_find?, firstBy_iff_find?]
  exact Eq.congr_left (find?_mergeSort (fun q => totalKey q.1) points (totalKey p.1))

/-- The times are in the total order, so they do not decrease. -/
structure Ascending (points : List (Float × List Float)) : Prop where
  finite : ∀ p ∈ points, p.1.isFinite = true
  sorted : points.Pairwise fun p q => (totalKey p.1).toNat ≤ (totalKey q.1).toNat

theorem ascending_sort (h : Acceptable n points) : Ascending (sort points) where
  finite p hp := (h p (mem_sort.1 hp)).1
  sorted := by
    have hsorted : (sort points).Pairwise fun a b =>
        decide (totalKey a.1 ≤ totalKey b.1) = true := by
      refine List.pairwise_mergeSort (fun a b c hab hbc => ?_) (fun a b => ?_) points
      · rw [decide_eq_true_eq, UInt64.le_iff_toNat_le] at *
        omega
      · rw [Bool.or_eq_true, decide_eq_true_eq, decide_eq_true_eq, UInt64.le_iff_toNat_le,
          UInt64.le_iff_toNat_le]
        omega
    exact hsorted.imp fun hab => UInt64.le_iff_toNat_le.1 (of_decide_eq_true hab)

namespace Ascending

variable {rest : List (Float × List Float)}

theorem sublist (h : Ascending points) (hrest : rest.Sublist points) : Ascending rest :=
  ⟨fun p hp => h.finite p (hrest.subset hp), h.sorted.sublist hrest⟩

theorem real_le (h : Ascending (p :: points)) (hq : q ∈ points) : real p.1 ≤ real q.1 :=
  Binary64.real_le_of_key (h.finite p List.mem_cons_self) (h.finite q (List.mem_cons_of_mem p hq))
    ((List.pairwise_cons.1 h.sorted).1 q hq)

end Ascending

/-- What is kept of a sorted list by its times is the first sample at each time. -/
theorem kept_iff_firstBy (h : Ascending points) :
    Kept points p ↔ FirstBy (fun q => real q.1) points p := by
  constructor
  · rintro ⟨⟨before, after, rfl, hbefore⟩, hzero⟩
    refine ⟨before, after, rfl, fun q hq heq => ?_⟩
    have hmem : q ∈ before ++ p :: after := List.mem_append_left _ hq
    have hkey := (List.pairwise_append.1 h.sorted).2.2 q hq p List.mem_cons_self
    rcases Binary64.real_cases (h.finite q hmem) (h.finite p (by simp)) hkey with
      hlt | hsame | ⟨hneg, hpos⟩
    · exact hlt.ne heq
    · exact hbefore q hq hsame
    · exact hzero q hmem hneg hpos
  · rintro ⟨before, after, rfl, hbefore⟩
    refine ⟨⟨before, after, rfl, fun q hq heq => hbefore q hq (congrArg real heq)⟩, ?_⟩
    intro q hq hneg hpos
    have heq : real q.1 = real p.1 := by
      rw [hneg, hpos]
      rfl
    rcases List.mem_append.1 hq with hq | hq
    · exact hbefore q hq heq
    · rcases List.mem_cons.1 hq with rfl | hq
      · rw [hneg] at hpos
        exact absurd (congrArg totalKey hpos) (by decide)
      · have hkey := (List.pairwise_cons.1 (List.pairwise_append.1 h.sorted).2.1).1 q hq
        rw [hneg, hpos] at hkey
        exact absurd hkey (by decide)

theorem kept_sort : Kept (sort points) p ↔ Kept points p :=
  and_congr firstBy_sort (forall_congr' fun _ => imp_congr_left mem_sort)

/-! ### One sample at each time -/

theorem mem_go_iff (h : Ascending (q :: points)) : p ∈ dropRepeated.go q.1 points ↔
    real q.1 ≠ real p.1 ∧ FirstBy (fun r => real r.1) points p := by
  induction points generalizing q with
  | nil => exact iff_of_false (fun h => nomatch h) fun hfirst => nomatch hfirst.2.mem
  | cons r rest ih =>
    have hq := h.finite q List.mem_cons_self
    have hr := h.finite r (List.mem_cons_of_mem q List.mem_cons_self)
    have htail := h.sublist (List.sublist_cons_self q _)
    rw [dropRepeated.go, firstBy_cons]
    split_ifs with heq
    · rw [Binary64.beq_iff_real hr hq] at heq
      rw [ih (h.sublist (.cons_cons q (List.sublist_cons_self r rest)))]
      constructor
      · rintro ⟨hne, hfirst⟩
        exact ⟨hne, Or.inr ⟨heq ▸ hne, hfirst⟩⟩
      · rintro ⟨hne, rfl | ⟨-, hfirst⟩⟩
        · exact absurd heq.symm hne
        · exact ⟨hne, hfirst⟩
    · rw [Binary64.beq_iff_real hr hq] at heq
      rw [List.mem_cons, ih htail]
      -- the samples that follow are at later times than `q`
      have hlt := lt_of_le_of_ne (h.real_le List.mem_cons_self) (Ne.symm heq)
      refine (and_iff_right_of_imp ?_).symm
      rintro (rfl | ⟨-, hfirst⟩)
      · exact hlt.ne
      · exact (hlt.trans_le (htail.real_le hfirst.mem)).ne

/-- Times that increase. -/
def Increasing (samples : List (Float × List Float)) : Prop :=
  samples.Pairwise fun p q => real p.1 < real q.1

theorem Increasing.lt {k l : ℕ} (h : Increasing points) (hkl : k < l) (hp : points[k]? = some p)
    (hq : points[l]? = some q) : real p.1 < real q.1 := by
  obtain ⟨hk, rfl⟩ := List.getElem?_eq_some_iff.1 hp
  obtain ⟨hl, rfl⟩ := List.getElem?_eq_some_iff.1 hq
  exact List.pairwise_iff_getElem.1 h k l hk hl hkl

theorem Increasing.le {k l : ℕ} (h : Increasing points) (hkl : k ≤ l) (hp : points[k]? = some p)
    (hq : points[l]? = some q) : real p.1 ≤ real q.1 := by
  rcases Nat.eq_or_lt_of_le hkl with rfl | hlt
  · have heq : p = q := Option.some.inj (hp.symm.trans hq)
    rw [heq]
  · exact (h.lt hlt hp hq).le

theorem mem_dropRepeated_iff (h : Ascending points) :
    p ∈ dropRepeated points ↔ FirstBy (fun q => real q.1) points p := by
  cases points with
  | nil => exact iff_of_false (fun h => nomatch h) fun hfirst => nomatch hfirst.mem
  | cons q rest => rw [dropRepeated, List.mem_cons, mem_go_iff h, firstBy_cons]

theorem increasing_go (h : Ascending (q :: points)) :
    Increasing (q :: dropRepeated.go q.1 points) := by
  induction points generalizing q with
  | nil => exact List.pairwise_singleton ..
  | cons r rest ih =>
    have hq := h.finite q List.mem_cons_self
    have hr := h.finite r (List.mem_cons_of_mem q List.mem_cons_self)
    have htail := h.sublist (List.sublist_cons_self q _)
    rw [dropRepeated.go]
    split_ifs with heq
    · exact ih (h.sublist (.cons_cons q (List.sublist_cons_self r rest)))
    · rw [Binary64.beq_iff_real hr hq] at heq
      have hlt := lt_of_le_of_ne (h.real_le List.mem_cons_self) (Ne.symm heq)
      have hrest : Increasing (r :: dropRepeated.go r.1 rest) := ih htail
      refine List.pairwise_cons.2 ⟨List.forall_mem_cons.2 ⟨hlt, fun p hp => ?_⟩, hrest⟩
      exact hlt.trans ((List.pairwise_cons.1 hrest).1 p hp)

section InOrder

variable (h : Acceptable n points)

include h

theorem mem_inOrder_iff : p ∈ inOrder points ↔ Kept points p := by
  have hsort := ascending_sort h
  rw [inOrder, mem_dropRepeated_iff hsort, ← kept_iff_firstBy hsort, kept_sort]

theorem increasing_inOrder : Increasing (inOrder points) := by
  have hsort := ascending_sort h
  unfold inOrder
  cases hpoints : sort points with
  | nil => exact .nil
  | cons p rest => exact increasing_go (hpoints ▸ hsort)

/-- Every time of a sample is the time of a sample that is kept. -/
theorem exists_mem_inOrder (hq : q ∈ points) : ∃ p ∈ inOrder points, real p.1 = real q.1 := by
  obtain ⟨p, hp, heq⟩ := exists_firstBy (f := fun r => real r.1) (mem_sort.2 hq)
  exact ⟨p, (mem_dropRepeated_iff (ascending_sort h)).2 hp, heq⟩

end InOrder

end Trajectory

end FlowTube
