import FlowTube.Proofs.Interval.Halves
import FlowTube.Proofs.SliceTree.NarrowOver
import FlowTube.Proofs.Tube.Conversion

/-! What the flags of narrowings tell. Every narrowing of a slice tree gives each slice a part of
its value and a flag for the whole call. The flag of one slice compares diameters: it is set if the
value becomes empty or less wide. A part is never wider than the whole, widths rounded up included,
so what two narrowings change is noticed at one of them, and the flags of slices, of sweeps and of
one sweep after another add up to the flag of the call: it is set exactly if some value ends up
empty or less wide. Such a value has lost a real. The converse fails, since a value may lose reals
and keep its diameter. -/

namespace FlowTube

namespace Interval

open Binary64

variable {a b c y : Interval}

/-! ### Widths of parts -/

/-- An interval includes another one that has reals if it has all of them. -/
theorem isSubset_of_forall_mem (hne : ∃ r : ℝ, r ∈ a) (h : ∀ r : ℝ, r ∈ a → r ∈ b) :
    a.isSubset b = true := by
  obtain ⟨r, hr⟩ := hne
  have hb := h r hr
  refine isSubset_iff.2 (Or.inr ⟨le_iff.2 ⟨hb.1.1, hr.1.1, ?_⟩, le_iff.2 ⟨hr.2.1, hb.2.1, ?_⟩⟩)
  · by_contra hlt
    obtain ⟨s, has, hsb⟩ := EReal.lt_iff_exists_real_btwn.1 (not_le.1 hlt)
    rcases le_total s r with hsr | hrs
    · exact (h s ⟨⟨hr.1.1, has.le⟩, hr.2.mono hsr⟩).1.2.not_gt hsb
    · exact (hb.1.2.trans (EReal.coe_le_coe_iff.2 hrs)).not_gt hsb
  · by_contra hlt
    obtain ⟨s, hbs, hsa⟩ := EReal.lt_iff_exists_real_btwn.1 (not_le.1 hlt)
    rcases le_total s r with hsr | hrs
    · exact ((EReal.coe_le_coe_iff.2 hsr).trans hb.2.2).not_gt hbs
    · have hrs' := EReal.coe_le_coe_iff.2 hrs
      exact (h s ⟨⟨hr.1.1, hr.1.2.trans hrs'⟩, hr.2.1, hsa.le⟩).2.2.not_gt hbs

/-- A diameter is zero, infinite, or the width of finite bounds rounded up. -/
theorem Numeric.diam_cases (hb : b.Numeric) : (b.isEmpty = true ∧ value b.diam = 0) ∨
    (b.isUnbounded = true ∧ value b.diam = ⊤) ∨
      b.lb.isFinite = true ∧ b.ub.isFinite = true ∧ b.lb ≤ b.ub := by
  cases hempty : b.isEmpty with
  | true =>
    rw [diam, if_pos hempty]
    exact Or.inl ⟨rfl, rfl⟩
  | false =>
    cases hunbounded : b.isUnbounded with
    | true =>
      rw [diam, if_neg (Bool.eq_false_iff.1 hempty), if_pos hunbounded]
      exact Or.inr (Or.inl ⟨rfl, rfl⟩)
    | false =>
      obtain ⟨hlb, hub⟩ := isFinite_bounds hb.lb hb.ub (by simp [isBounded, hempty, hunbounded])
      exact Or.inr (Or.inr ⟨hlb, hub, le_of_not_lt hb.ub hb.lb (of_decide_eq_false hempty)⟩)

theorem Numeric.diam_nonneg (hb : b.Numeric) : 0 ≤ value b.diam := by
  rcases hb.diam_cases with ⟨-, hzero⟩ | ⟨-, htop⟩ | ⟨hlb, hub, hle⟩
  · exact hzero.ge
  · exact htop ▸ le_top
  · have hwidth := (le_iff_real hlb hub).1 hle
    exact (EReal.coe_nonneg.2 (sub_nonneg.2 hwidth)).trans (width_le_diam hlb hub hle)

/-- A part is no wider than the whole. -/
theorem diam_le_of_isSubset (hb : b.Numeric) (h : a.isSubset b = true) :
    value a.diam ≤ value b.diam := by
  rcases isSubset_iff.1 h with hempty | ⟨hlb, hub⟩
  · have hzero : a.diam = 0.0 := if_pos (decide_eq_true hempty)
    exact hzero ▸ hb.diam_nonneg
  cases hempty : a.isEmpty with
  | true =>
    rw [diam, if_pos hempty]
    exact hb.diam_nonneg
  | false =>
    have hle := le_of_not_lt (le_iff.1 hub).1 (le_iff.1 hlb).2.1 (of_decide_eq_false hempty)
    rcases hb.diam_cases with ⟨hbe, -⟩ | ⟨-, htop⟩ | ⟨hbl, hbu, hble⟩
    · exact absurd (isEmpty_of_isSubset h hbe) (Bool.eq_false_iff.1 hempty)
    · exact htop ▸ le_top
    have fl := isFinite_of_between hbl hbu hlb (le_trans hle hub)
    have fu := isFinite_of_between hbl hbu (le_trans hlb hle) hub
    have hwidth := width_le_diam hbl hbu hble
    rcases isFinite_or_eq_inf (isNaN_diam b) with hfinite | hinf | hneg
    · rw [diam, hempty, isUnbounded_of_isFinite fl fu]
      refine addUp_le fu (by rwa [isFinite_neg_eq]) hfinite ?_ ?_
      · rw [real_neg]
        linarith [(le_iff_real fl fu).1 hle]
      · rw [value_of_isFinite hfinite, EReal.coe_le_coe_iff] at hwidth
        rw [real_neg]
        linarith [(le_iff_real hbl fl).1 hlb, (le_iff_real fu hbu).1 hub]
    · rw [hinf]
      exact le_top
    · rw [hneg] at hwidth
      exact absurd hwidth (not_le.2 (EReal.bot_lt_coe _))

/-! ### Narrowings that are noticed -/

/-- What replaces `a` is noticed to be another value: it is empty, or less wide. -/
def Noticed (a b : Interval) : Prop := a.isEmpty = false ∧ (b.isEmpty = true ∨ b.diam < a.diam)

theorem narrow_flag_iff :
    (Enclosure.narrow a y).2 = true ↔ a.Noticed (Enclosure.narrow a y).1 := by
  cases h : a.isEmpty with
  | true => simp [Noticed, h, narrow_of_isEmpty h]
  | false => simp [Noticed, h, narrow_of_nonempty h]

theorem narrow_isSubset (ha : a.Numeric) : (Enclosure.narrow a y).1.isSubset a = true := by
  unfold Enclosure.narrow
  split_ifs
  · exact ha.isSubset_self
  · exact inter_isSubset_of_left ha.isSubset_self

theorem not_noticed_self : ¬a.Noticed a := by
  rintro ⟨hne, hempty | hlt⟩
  · rw [hne] at hempty
    contradiction
  · exact lt_irrefl _ (lt_iff.1 hlt).2.2

/-- What two narrowings change is noticed at one of them. -/
theorem noticed_trans (ha : a.Numeric) (hcb : c.isSubset b = true) (hba : b.isSubset a = true) :
    a.Noticed c ↔ a.Noticed b ∨ b.Noticed c := by
  have hlt {u v : Interval} : u.diam < v.diam ↔ value u.diam < value v.diam :=
    lt_iff.trans ⟨fun h => h.2.2, fun h => ⟨isNaN_diam u, isNaN_diam v, h⟩⟩
  have hle := diam_le_of_isSubset (numeric_of_isSubset hba) hcb
  have hle' := diam_le_of_isSubset ha hba
  unfold Noticed
  rw [hlt, hlt, hlt]
  cases hae : a.isEmpty with
  | true => simp [isEmpty_of_isSubset hba hae]
  | false =>
    cases hb : b.isEmpty with
    | true => simp [isEmpty_of_isSubset hcb hb]
    | false =>
      cases hc : c.isEmpty with
      | true => simp
      | false =>
        simp only [true_and, Bool.false_eq_true, false_or]
        constructor
        · intro h
          rcases hle'.lt_or_eq with hlt | heq
          · exact Or.inl hlt
          · exact Or.inr (heq ▸ h)
        · rintro (h | h)
          · exact hle.trans_lt h
          · exact h.trans_le hle'

/-- A noticed narrowing has taken a real away. -/
theorem Noticed.exists_mem (ha : a.Proper) (hb : b.Numeric) (h : a.Noticed b) :
    ∃ r : ℝ, r ∈ a ∧ r ∉ b := by
  obtain ⟨hne, hchange⟩ := h
  by_contra hall
  push Not at hall
  rcases ha with rfl | hmem
  · contradiction
  · have hsub := isSubset_of_forall_mem hmem hall
    rcases hchange with hempty | hlt
    · rw [isEmpty_of_isSubset hsub hempty] at hne
      contradiction
    · exact (diam_le_of_isSubset hb hsub).not_gt (lt_iff.1 hlt).2.2

end Interval

namespace SliceTree

variable {as bs cs ds : List Interval} {b c : Bool} {x v : SliceTree Interval} {y : Interval}

/-! ### Lists of values -/

/-- Some value of the second list, in the place of one of the first, is noticed to be another. -/
def SomeNoticed (as bs : List Interval) : Prop := ∃ p ∈ as.zip bs, p.1.Noticed p.2

theorem someNoticed_cons {a a' : Interval} :
    SomeNoticed (a :: as) (a' :: bs) ↔ a.Noticed a' ∨ SomeNoticed as bs := by
  simp [SomeNoticed]

theorem someNoticed_append (h : as.length = bs.length) :
    SomeNoticed (as ++ cs) (bs ++ ds) ↔ SomeNoticed as bs ∨ SomeNoticed cs ds := by
  simp only [SomeNoticed, List.zip_append h, List.mem_append, or_and_right, exists_or]

theorem not_someNoticed_self : ¬SomeNoticed as as := by
  induction as with
  | nil => simp [SomeNoticed]
  | cons a as ih =>
    rw [someNoticed_cons]
    exact not_or.2 ⟨Interval.not_noticed_self, ih⟩

/-- Every value is a part of the one in its place. -/
def Narrowed (bs as : List Interval) : Prop := List.Forall₂ (fun b a => b.isSubset a = true) bs as

theorem Narrowed.numeric (h : Narrowed bs as) : ∀ b ∈ bs, b.Numeric :=
  ((List.forall₂_and_left bs as).1
    (h.imp fun _ _ hba => ⟨Interval.numeric_of_isSubset hba, hba⟩)).1

theorem Narrowed.trans (hcb : Narrowed cs bs) (hba : Narrowed bs as) : Narrowed cs as := by
  have isSubset (c b a : Interval) (hcb : c.isSubset b = true) (hba : b.isSubset a = true) :
      c.isSubset a = true := Interval.isSubset_trans hcb hba
  exact forall₂_trans hcb hba isSubset

/-- What two narrowings change is noticed at one of them. -/
theorem Narrowed.someNoticed_iff (hcb : Narrowed cs bs) (hba : Narrowed bs as)
    (ha : ∀ a ∈ as, a.Numeric) : SomeNoticed as cs ↔ SomeNoticed as bs ∨ SomeNoticed bs cs := by
  unfold Narrowed at hcb hba
  induction hba generalizing cs with
  | nil =>
    cases hcb
    simp [SomeNoticed]
  | cons hba _ ih =>
    cases hcb with
    | cons hcb hrest =>
      rw [List.forall_mem_cons] at ha
      rw [someNoticed_cons, someNoticed_cons, someNoticed_cons,
        Interval.noticed_trans ha.1 hcb hba, ih hrest ha.2, or_or_or_comm]

/-- Values that narrow others place by place, with a flag that is set exactly if the change of
some value is noticed. -/
structure Reports (bs as : List Interval) (flag : Bool) : Prop where
  narrowed : Narrowed bs as
  flag_iff : flag = true ↔ SomeNoticed as bs

theorem Reports.refl (h : ∀ a ∈ as, a.Numeric) : Reports as as false :=
  ⟨List.forall₂_same.2 fun a ha => (h a ha).isSubset_self,
    iff_of_false Bool.false_ne_true not_someNoticed_self⟩

theorem Reports.append (h : Reports bs as b) (h' : Reports ds cs c) :
    Reports (bs ++ ds) (as ++ cs) (b || c) := by
  refine ⟨List.rel_append h.narrowed h'.narrowed, ?_⟩
  rw [Bool.or_eq_true, h.flag_iff, h'.flag_iff,
    someNoticed_append (List.Forall₂.length_eq h.narrowed).symm]

theorem Reports.narrow_cons {a : Interval} (ha : a.Numeric) (h : Reports bs as b) :
    Reports ((Enclosure.narrow a y).1 :: bs) (a :: as) ((Enclosure.narrow a y).2 || b) := by
  refine ⟨.cons (Interval.narrow_isSubset ha) h.narrowed, ?_⟩
  rw [Bool.or_eq_true, Interval.narrow_flag_iff, h.flag_iff, someNoticed_cons]

theorem Reports.narrow_single {a : Interval} (ha : a.Numeric) :
    Reports [(Enclosure.narrow a y).1] [a] (Enclosure.narrow a y).2 := by
  have hnil : Reports [] [] false := .refl (List.forall_mem_nil _)
  have h := hnil.narrow_cons (y := y) ha
  rwa [Bool.or_false] at h

/-- One narrowing after another. -/
theorem Reports.trans (ha : ∀ a ∈ as, a.Numeric) (h : Reports bs as b) (h' : Reports cs bs c) :
    Reports cs as (b || c) := by
  refine ⟨h'.narrowed.trans h.narrowed, ?_⟩
  rw [Bool.or_eq_true, h.flag_iff, h'.flag_iff, h'.narrowed.someNoticed_iff h.narrowed ha]

/-! ### Trees -/

theorem reports_modify (i : ℕ) (hx : ∀ a ∈ x.values, a.Numeric) :
    Reports (modify (fun a => Enclosure.narrow a y) i x).1.values x.values
      (modify (fun a => Enclosure.narrow a y) i x).2 := by
  induction x generalizing i with
  | leaf l =>
    exact .narrow_single (hx l.value List.mem_cons_self)
  | node l past future hp hf =>
    rw [values_node, List.forall_mem_append] at hx
    rw [modify, values_node]
    split_ifs
    · have h := (hp i hx.1).append (Reports.refl hx.2)
      rwa [Bool.or_false, ← values_node l, ← values_sync] at h
    · have h := (Reports.refl hx.1).append (hf (i - half l.size) hx.2)
      rwa [Bool.false_or, ← values_node l, ← values_sync] at h

theorem reports_narrowOver (tdom y : Interval) (hx : ∀ a ∈ x.values, a.Numeric) :
    Reports (narrowOver tdom y x).1.values x.values (narrowOver tdom y x).2 := by
  induction x with
  | leaf l =>
    by_cases h : l.domain.meets tdom = true
    · have h' := Reports.narrow_single (y := y) (hx l.value List.mem_cons_self)
      rw [narrowOver_leaf h]
      dsimp only
      split_ifs <;> exact h'
    · rw [narrowOver_of_not_meets (x := leaf l) h]
      exact .refl hx
  | node l past future hp hf =>
    by_cases h : l.domain.meets tdom = true
    · rw [values_node, List.forall_mem_append] at hx
      have h' := (hp hx.1).append (hf hx.2)
      rw [narrowOver_node h]
      dsimp only
      rw [values_node]
      split_ifs
      · rwa [values_sync, values_node]
      · rwa [values_node]
    · rw [narrowOver_of_not_meets (x := node l past future) h]
      exact .refl hx

theorem reports_stepsForward (dt a w : Interval) (ws : List Interval)
    (has : ∀ a ∈ as, a.Numeric) :
    Reports (stepsForward dt a w as ws).1 as (stepsForward dt a w as ws).2 := by
  induction as generalizing a w ws with
  | nil => cases ws <;> exact .refl has
  | cons a' as ih =>
    cases ws with
    | nil => exact .refl has
    | cons w' ws =>
      rw [List.forall_mem_cons] at has
      exact (ih _ _ _ has.2).narrow_cons has.1

theorem reports_stepsBackward (dt : Interval) {a : Interval} (ws : List Interval) (ha : a.Numeric)
    (has : ∀ a ∈ as, a.Numeric) :
    Reports ((stepsBackward dt a as ws).1 :: (stepsBackward dt a as ws).2.1) (a :: as)
      (stepsBackward dt a as ws).2.2 := by
  induction as generalizing a ws with
  | nil => cases ws <;> exact .refl (List.forall_mem_cons.2 ⟨ha, has⟩)
  | cons a' as ih =>
    cases ws with
    | nil => exact .refl (List.forall_mem_cons.2 ⟨ha, has⟩)
    | cons w' ws =>
      rw [List.forall_mem_cons] at has
      exact (ih _ has.1 has.2).narrow_cons ha

theorem reports_eulerForward (v : SliceTree Interval) (hx : ∀ a ∈ x.values, a.Numeric) :
    Reports (eulerForward v x).1.values x.values (eulerForward v x).2 := by
  obtain ⟨a, as, has⟩ := List.exists_cons_of_ne_nil x.values_ne_nil
  obtain ⟨w, ws, hws⟩ := List.exists_cons_of_ne_nil v.values_ne_nil
  rw [has, List.forall_mem_cons] at hx
  have h := (Reports.refl (List.forall_mem_singleton.2 hx.1)).append
    (reports_stepsForward (Interval.point v.dt) a w ws hx.2)
  rw [eulerForward, has, hws]
  dsimp only
  rw [values_withValues (by rw [has]; exact List.Forall₂.length_eq h.narrowed)]
  exact h

theorem reports_eulerBackward (v : SliceTree Interval) (hx : ∀ a ∈ x.values, a.Numeric) :
    Reports (eulerBackward v x).1.values x.values (eulerBackward v x).2 := by
  obtain ⟨a, as, has⟩ := List.exists_cons_of_ne_nil x.values_ne_nil
  obtain ⟨w, ws, hws⟩ := List.exists_cons_of_ne_nil v.values_ne_nil
  rw [has, List.forall_mem_cons] at hx
  have h := reports_stepsBackward (Interval.point v.dt) ws hx.1 hx.2
  rw [eulerBackward, has, hws]
  dsimp only
  rw [values_withValues (by rw [has]; exact List.Forall₂.length_eq h.narrowed)]
  exact h

/-! ### The operations that narrow -/

/-- The operations that narrow the slices of a tree and tell whether they did. -/
inductive Narrowing
  | slice (i : ℕ) (y : Interval)
  | atTime (t : Float) (y : Interval)
  | overTime (tdom y : Interval)
  | forward (v : SliceTree Interval)
  | backward (v : SliceTree Interval)
  | both (v : SliceTree Interval)

def Narrowing.run : Narrowing → SliceTree Interval → SliceTree Interval × Bool
  | slice i y, x => x.narrow i y
  | atTime t y, x => x.narrowAt t y
  | overTime tdom y, x => x.narrowOver tdom y
  | forward v, x => eulerForward v x
  | backward v, x => eulerBackward v x
  | both v, x => euler v x

theorem Narrowing.reports (op : Narrowing) (hx : ∀ a ∈ x.values, a.Numeric) :
    Reports (op.run x).1.values x.values (op.run x).2 := by
  have hslice (i : ℕ) (y : Interval) :
      Reports (x.narrow i y).1.values x.values (x.narrow i y).2 := by
    unfold narrow
    split_ifs
    · exact reports_modify i hx
    · exact .refl hx
  cases op with
  | slice i y => exact hslice i y
  | atTime t y =>
    change Reports (x.narrowAt t y).1.values x.values (x.narrowAt t y).2
    unfold narrowAt
    cases x.indexAt? t with
    | none => exact .refl hx
    | some i => exact hslice i y
  | overTime tdom y => exact reports_narrowOver tdom y hx
  | forward v => exact reports_eulerForward v hx
  | backward v => exact reports_eulerBackward v hx
  | both v =>
    have h := reports_eulerForward v hx
    exact h.trans hx (reports_eulerBackward v h.narrowed.numeric)

/-- A narrowing gives every slice a part of its value. It tells so exactly if some value becomes
empty or less wide, and then that slice has lost a real. -/
theorem narrowing_flag_iff (op : Narrowing) (hx : ∀ a ∈ x.values, a.Proper) :
    Narrowed (op.run x).1.values x.values ∧
      ((op.run x).2 = true ↔ SomeNoticed x.values (op.run x).1.values) ∧
      ∀ p ∈ x.values.zip (op.run x).1.values, p.1.Noticed p.2 → ∃ r : ℝ, r ∈ p.1 ∧ r ∉ p.2 := by
  obtain ⟨hnarrowed, hflag⟩ := op.reports fun a ha => (hx a ha).numeric
  refine ⟨hnarrowed, hflag, fun p hp hnoticed => ?_⟩
  obtain ⟨ha, hb⟩ := List.of_mem_zip hp
  exact hnoticed.exists_mem (hx p.1 ha) (hnarrowed.numeric p.2 hb)

/-- One slice from zero to one. -/
def lone (value : Interval) : SliceTree Interval :=
  leaf { domain := Interval.unit, dt := 1.0, size := 1, value, bounds := Interval.ends value }

theorem ofSlices_unit (value : Interval) : ofSlices [Interval.unit] value = .ok (lone value) := by
  have hbuild : build [Interval.unit] value = leaf (labelOf [Interval.unit] value) := by
    rw [build, dif_pos (by decide)]
  rw [ofSlices, hbuild]
  rfl

theorem narrow_lone (a y : Interval) : narrow 0 y (lone a) =
    (lone (Enclosure.narrow a y).1, (Enclosure.narrow a y).2) := if_pos Nat.zero_lt_one

theorem values_lone (a : Interval) : (lone a).values = [a] := rfl

/-- Cut to the unit interval, the line gets less wide. -/
theorem narrowing_flag_lone :
    ((Narrowing.slice 0 Interval.unit).run (lone Interval.whole)).2 = true ∧
    ∃ r : ℝ, r ∈ Interval.whole ∧ r ∉ Interval.unit := by
  have hproper : ∀ a ∈ (lone Interval.whole).values, a.Proper := by
    rw [values_lone, List.forall_mem_singleton]
    exact Or.inr ⟨0, Interval.mem_whole⟩
  obtain ⟨-, hflag, hlost⟩ := narrowing_flag_iff (.slice 0 Interval.unit) hproper
  have hpart : (Enclosure.narrow Interval.whole Interval.unit).1 = Interval.unit :=
    Interval.eq_of_bounds (by decide +kernel) (by decide +kernel)
  have hmem : (Interval.whole, Interval.unit) ∈ (lone Interval.whole).values.zip
      ((Narrowing.slice 0 Interval.unit).run (lone Interval.whole)).1.values := by
    rw [Narrowing.run, narrow_lone, hpart, values_lone, values_lone]
    exact List.mem_singleton_self _
  have hnoticed : Interval.whole.Noticed Interval.unit :=
    ⟨by decide +kernel, Or.inr (by decide +kernel)⟩
  exact ⟨hflag.2 ⟨(Interval.whole, Interval.unit), hmem, hnoticed⟩,
    hlost (Interval.whole, Interval.unit) hmem hnoticed⟩

/-- Cut to the positive half line, the line loses the negative numbers, and nothing tells of it. -/
theorem narrowing_halfLine_untold :
    ofSlices [Interval.unit] Interval.whole = .ok (lone Interval.whole) ∧
      (Narrowing.slice 0 Interval.nonneg).run (lone Interval.whole) =
        (lone Interval.nonneg, false) ∧
      (-1 : ℝ) ∈ Interval.whole ∧ (-1 : ℝ) ∉ Interval.nonneg := by
  have hpart : (Enclosure.narrow Interval.whole Interval.nonneg).1 = Interval.nonneg :=
    Interval.eq_of_bounds (by decide +kernel) (by decide +kernel)
  have hflag : (Enclosure.narrow Interval.whole Interval.nonneg).2 = false := by decide +kernel
  refine ⟨ofSlices_unit _, ?_, Interval.mem_whole, fun h => ?_⟩
  · rw [Narrowing.run, narrow_lone, hpart, hflag]
  · have h0 : (0 : EReal) ≤ ((-1 : ℝ) : EReal) := h.1.2
    rw [EReal.coe_nonneg] at h0
    linarith

end SliceTree

end FlowTube
