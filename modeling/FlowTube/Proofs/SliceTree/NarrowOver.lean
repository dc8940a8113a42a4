import FlowTube.Proofs.SliceTree.Queries

/-! Narrowing the slices over an interval of time. The values of the slices become what a list of
them would hold. The caches on a path are refreshed only if a slice below tells of its narrowing,
and a slice tells of it only if its value becomes empty or has a smaller diameter. A part of a half
line may be another half line, and widths are rounded up, so a value may change while its diameter
stays; then the bounds noted at that slice still belong to the old value. The caches agree
afterwards if and only if no value changes in that way. -/

namespace FlowTube

namespace Interval

open Binary64 (value lt_iff isFinite_iff)

variable {a y : Interval} {s t : Float}

/-- The part of the value inside `y` is another one, but it is not empty and its diameter is not
smaller. -/
def ChangesUnnoticed (a y : Interval) : Prop :=
  a.isEmpty = false ∧ a ∩ y ≠ a ∧ (a ∩ y).isEmpty = false ∧ ¬(a ∩ y).diam < a.diam

theorem narrow_of_isEmpty (h : a.isEmpty = true) : Enclosure.narrow a y = (a, false) := if_pos h

theorem narrow_of_nonempty (h : a.isEmpty = false) :
    Enclosure.narrow a y = (a ∩ y, (a ∩ y).isEmpty || (a ∩ y).diam < a.diam) :=
  if_neg (Bool.eq_false_iff.1 h)

theorem changesUnnoticed_iff :
    a.ChangesUnnoticed y ↔ (Enclosure.narrow a y).1 ≠ a ∧ (Enclosure.narrow a y).2 = false := by
  cases h : a.isEmpty with
  | true => simp [ChangesUnnoticed, h, narrow_of_isEmpty h]
  | false => simp [ChangesUnnoticed, h, narrow_of_nonempty h]

theorem eq_of_point_eq (hs : s.isFinite) (h : point s = point t) : s = t := by
  obtain ⟨hn, htop, hbot⟩ := isFinite_iff.1 hs
  have hpoint : point s = ⟨s, s⟩ :=
    ofBounds_of_le (Binary64.le_self hn) (lt_top_iff_ne_top.2 htop) (bot_lt_iff_ne_bot.2 hbot)
  rw [hpoint] at h
  rcases ofBounds_cases t t with hempty | ⟨hle, htop', hbot'⟩
  · rw [point, hempty] at h
    obtain rfl : s = Binary64.inf := congrArg Interval.lb h
    exact absurd Binary64.value_inf htop
  · rw [point, ofBounds_of_le hle htop' hbot'] at h
    exact congrArg Interval.lb h

/-- A bound that moves inward shows in the bounds as single values. -/
theorem narrow_eq_of_ends_eq (ha : a.Numeric) (hflag : (Enclosure.narrow a y).2 = false)
    (h : ends (Enclosure.narrow a y).1 = ends a) : (Enclosure.narrow a y).1 = a := by
  cases hempty : a.isEmpty with
  | true => rw [narrow_of_isEmpty hempty]
  | false =>
    rw [narrow_of_nonempty hempty] at hflag h ⊢
    have hne : (a ∩ y).isEmpty = false := (Bool.or_eq_false_iff.1 hflag).1
    rcases ofBounds_cases (Binary64.max a.lb y.lb) (Binary64.min a.ub y.ub) with
      hnone | ⟨hle, htop, hbot⟩
    · rw [inter_eq_ofBounds, hnone] at hne
      contradiction
    · rw [ends, if_neg (Bool.eq_false_iff.1 hne), ends, if_neg (Bool.eq_false_iff.1 hempty),
        Prod.mk.injEq] at h
      rw [inter_eq_ofBounds, ofBounds_of_le hle htop hbot] at h ⊢
      obtain ⟨hlb, hub⟩ := h
      refine eq_of_bounds ?_ ?_
      · unfold Binary64.max at hlb htop ⊢
        rw [if_neg (Bool.eq_false_iff.1 ha.lb)] at hlb htop ⊢
        dsimp only at hlb ⊢
        split_ifs at hlb htop ⊢ with hlt
        · obtain ⟨-, hn, hvalue⟩ := lt_iff.1 hlt
          exact eq_of_point_eq (isFinite_iff.2 ⟨hn, htop.ne, (bot_le.trans_lt hvalue).ne'⟩) hlb
        · rfl
      · unfold Binary64.min at hub hbot ⊢
        rw [if_neg (Bool.eq_false_iff.1 ha.ub)] at hub hbot ⊢
        dsimp only at hub ⊢
        split_ifs at hub hbot ⊢ with hlt
        · obtain ⟨hn, -, hvalue⟩ := lt_iff.1 hlt
          exact eq_of_point_eq (isFinite_iff.2 ⟨hn, (hvalue.trans_le le_top).ne, hbot.ne'⟩) hub
        · rfl

end Interval

namespace SliceTree

section Narrowing

variable {ι : Type} [Enclosure ι] {tdom : Interval} {y : ι} {x past future : SliceTree ι}
  {l : SliceLabel ι}

/-! ### One step of the descent -/

theorem narrowOver_of_not_meets (h : ¬x.domain.meets tdom = true) :
    narrowOver tdom y x = (x, false) := by
  cases x <;> exact if_neg h

theorem narrowOver_leaf (h : l.domain.meets tdom = true) : narrowOver tdom y (leaf l) =
    (if (Enclosure.narrow l.value y).2 then
        sync (leaf { l with value := (Enclosure.narrow l.value y).1 })
      else leaf { l with value := (Enclosure.narrow l.value y).1 },
      (Enclosure.narrow l.value y).2) := if_pos h

theorem narrowOver_node (h : l.domain.meets tdom = true) : narrowOver tdom y (node l past future) =
    (if (narrowOver tdom y past).2 || (narrowOver tdom y future).2 then
        sync (node l (narrowOver tdom y past).1 (narrowOver tdom y future).1)
      else node l (narrowOver tdom y past).1 (narrowOver tdom y future).1,
      (narrowOver tdom y past).2 || (narrowOver tdom y future).2) := if_pos h

/-! ### Leaves -/

theorem frame_narrowOver (tdom : Interval) (y : ι) (x : SliceTree ι) :
    (narrowOver tdom y x).1.frame = x.frame := by
  induction x with
  | leaf l =>
    by_cases h : l.domain.meets tdom = true
    · rw [narrowOver_leaf h]
      dsimp only
      split_ifs <;> rfl
    · rw [narrowOver_of_not_meets (x := leaf l) h]
  | node l past future hp hf =>
    by_cases h : l.domain.meets tdom = true
    · rw [narrowOver_node h]
      dsimp only
      split_ifs <;> simp only [frame_sync, frame, hp, hf]
    · rw [narrowOver_of_not_meets (x := node l past future) h]

/-- The descent by an interval of time narrows the slices of the list that meet it. -/
theorem flat_narrowOver (tdom : Interval) (y : ι) (hs : x.Spans) : (narrowOver tdom y x).1.flat =
    x.flat.map fun s => if s.1.meets tdom then (s.1, (Enclosure.narrow s.2 y).1) else s := by
  induction x with
  | leaf l =>
    by_cases h : l.domain.meets tdom = true
    · rw [narrowOver_leaf h, flat_leaf, List.map_singleton, if_pos h]
      dsimp only
      split_ifs <;> rfl
    · rw [narrowOver_of_not_meets (x := leaf l) h, hs.map_of_not_meets h]
  | node l past future hp hf =>
    by_cases h : l.domain.meets tdom = true
    · rw [narrowOver_node h, flat_node, List.map_append, ← hp hs.1, ← hf hs.2.1]
      dsimp only
      split_ifs <;> simp only [flat_sync, flat_node]
    · rw [narrowOver_of_not_meets (x := node l past future) h, hs.map_of_not_meets h]

end Narrowing

/-! ### Caches -/

variable {tdom y value : Interval} {x : SliceTree Interval} {slices : List Interval}

/-- Without a notice and without an unnoticed change nothing has changed. -/
theorem narrowOver_eq_self (hflag : (narrowOver tdom y x).2 = false)
    (h : ∀ s ∈ x.flat, s.1.meets tdom = true → ¬s.2.ChangesUnnoticed y) :
    (narrowOver tdom y x).1 = x := by
  induction x with
  | leaf l =>
    by_cases hmeets : l.domain.meets tdom = true
    · rw [narrowOver_leaf hmeets] at hflag ⊢
      have hsame : (Enclosure.narrow l.value y).1 = l.value := by
        by_contra hne
        exact h (l.domain, l.value) (List.mem_singleton_self _) hmeets
          (Interval.changesUnnoticed_iff.2 ⟨hne, hflag⟩)
      dsimp only at hflag ⊢
      rw [if_neg (Bool.eq_false_iff.1 hflag), hsame]
    · rw [narrowOver_of_not_meets (x := leaf l) hmeets]
  | node l past future hp hf =>
    by_cases hmeets : l.domain.meets tdom = true
    · rw [narrowOver_node hmeets] at hflag ⊢
      dsimp only at hflag ⊢
      rw [flat_node, List.forall_mem_append] at h
      obtain ⟨hpast, hfuture⟩ := Bool.or_eq_false_iff.1 hflag
      rw [if_neg (Bool.eq_false_iff.1 hflag), hp hpast h.1, hf hfuture h.2]
    · rw [narrowOver_of_not_meets (x := node l past future) hmeets]

/-- At a slice without a notice the bounds as single values tell whether the value has changed. -/
theorem coherent_narrowOver_leaf {l : SliceLabel Interval} (hmeets : l.domain.meets tdom = true)
    (hl : (leaf l).Coherent) (hn : l.value.Numeric) :
    (narrowOver tdom y (leaf l)).1.Coherent ↔ ¬l.value.ChangesUnnoticed y := by
  rw [narrowOver_leaf hmeets]
  dsimp only
  split_ifs with hflag
  · exact iff_of_true rfl fun hchange => by
      simp [(Interval.changesUnnoticed_iff.1 hchange).2] at hflag
  · rw [Bool.not_eq_true] at hflag
    constructor
    · intro hcoherent hchange
      exact (Interval.changesUnnoticed_iff.1 hchange).1
        (Interval.narrow_eq_of_ends_eq hn hflag (hcoherent.symm.trans hl))
    · intro hsame
      have hsame : (Enclosure.narrow l.value y).1 = l.value := by
        by_contra hne
        exact hsame (Interval.changesUnnoticed_iff.2 ⟨hne, hflag⟩)
      rw [hsame]
      exact hl

/-- The caches agree after the narrowing if and only if it has changed no value unnoticed. -/
theorem coherent_narrowOver_iff (hs : x.Spans) (hx : x.Coherent)
    (hn : ∀ s ∈ x.flat, s.2.Numeric) : (narrowOver tdom y x).1.Coherent ↔
      ∀ s ∈ x.flat, s.1.meets tdom = true → ¬s.2.ChangesUnnoticed y := by
  induction x with
  | leaf l =>
    by_cases hmeets : l.domain.meets tdom = true
    · rw [flat_leaf] at hn ⊢
      rw [coherent_narrowOver_leaf hmeets hx (hn _ (List.mem_singleton_self _)),
        List.forall_mem_singleton]
      exact ⟨fun h _ => h, fun h => h hmeets⟩
    · rw [narrowOver_of_not_meets (x := leaf l) hmeets]
      exact iff_of_true hx fun s hmem h => absurd (hs.meets_of_mem hmem h) hmeets
  | node l past future hp hf =>
    by_cases hmeets : l.domain.meets tdom = true
    · rw [flat_node, List.forall_mem_append] at hn
      have hpast := hp hs.1 hx.1 hn.1
      have hfuture := hf hs.2.1 hx.2.1 hn.2
      constructor
      · intro h
        rw [narrowOver_node hmeets] at h
        rw [flat_node, List.forall_mem_append]
        dsimp only at h
        split_ifs at h with hflag
        · exact ⟨hpast.1 h.1, hfuture.1 h.2.1⟩
        · exact ⟨hpast.1 h.1, hfuture.1 h.2.1⟩
      · intro h
        cases hflag : (narrowOver tdom y (node l past future)).2 with
        | false => rwa [narrowOver_eq_self hflag h]
        | true =>
          rw [flat_node, List.forall_mem_append] at h
          rw [narrowOver_node hmeets] at hflag ⊢
          dsimp only at hflag ⊢
          rw [if_pos hflag]
          exact ⟨hpast.2 h.1, hfuture.2 h.2, rfl, rfl⟩
    · rw [narrowOver_of_not_meets (x := node l past future) hmeets]
      exact iff_of_true hx fun s hmem h => absurd (hs.meets_of_mem hmem h) hmeets

/-- Narrowing the slices over an interval of time keeps the frame, intersects the values of the
slices that meet the interval and leaves the other values. If the caches at every node are the hulls
of what is below it, they are so afterwards if and only if no value has changed unnoticed. -/
theorem narrowOver_summarized_iff (hslices : Consecutive slices) (hne : slices ≠ [])
    (hframe : x.frame = (build slices value).frame) (hcaches : ∀ z ∈ x.subtrees, z.Summarized)
    (hnumeric : ∀ a ∈ x.values, a.Numeric) (tdom y : Interval) :
    (narrowOver tdom y x).1.frame = x.frame ∧
      (narrowOver tdom y x).1.flat = x.flat.map (fun s =>
        if s.1.meets tdom then (s.1, if s.2.isEmpty then s.2 else s.2 ∩ y) else s) ∧
      ((∀ z ∈ (narrowOver tdom y x).1.subtrees, z.Summarized) ↔
        ∀ s ∈ x.flat, s.1.meets tdom = true → ¬s.2.ChangesUnnoticed y) := by
  have hspans : x.Spans := by
    rw [← spans_frame, hframe, spans_frame]
    exact (build_spec value hslices hne).1
  have hn : ∀ s ∈ x.flat, s.2.Numeric := fun s hs =>
    hnumeric _ (by rw [values_eq_flat]; exact List.mem_map_of_mem hs)
  have hnarrow (a : Interval) : (Enclosure.narrow a y).1 = if a.isEmpty then a else a ∩ y :=
    apply_ite Prod.fst ..
  have hflat := flat_narrowOver tdom y hspans
  have hn' : ∀ s ∈ (narrowOver tdom y x).1.flat, s.2.Numeric := by
    rw [hflat, List.forall_mem_map]
    intro s hs
    split_ifs
    · exact (hn s hs).narrow y
    · exact hn s hs
  refine ⟨frame_narrowOver tdom y x, ?_, ?_⟩
  · simpa only [hnarrow] using hflat
  · rw [← coherent_iff_summarized hn']
    exact coherent_narrowOver_iff hspans ((coherent_iff_summarized hn).2 hcaches) hn

theorem numeric_opening : ∀ s ∈ opening.flat, s.2.Numeric := by
  rw [flat_opening, List.forall_mem_cons, List.forall_mem_singleton]
  exact ⟨⟨rfl, rfl⟩, rfl, rfl⟩

theorem narrowOver_summarized_iff_opening :
    (narrowOver ⟨1.5, 2.0⟩ Interval.unit opening).1.flat =
        [(Interval.unit, Interval.unit), (⟨1.0, 2.0⟩, Interval.unit)] ∧
      ∀ z ∈ (narrowOver ⟨1.5, 2.0⟩ Interval.unit opening).1.subtrees, z.Summarized := by
  have hcaches : ∀ z ∈ opening.subtrees, z.Summarized :=
    (coherent_iff_summarized numeric_opening).1 (coherent_modify _ _ (coherent_update _))
  obtain ⟨-, hflat, hiff⟩ := narrowOver_summarized_iff Change.consecutive_two_slices
    (List.cons_ne_nil _ _) frame_opening hcaches
    (by rw [values_eq_flat]; exact List.forall_mem_map.2 numeric_opening) ⟨1.5, 2.0⟩ Interval.unit
  rw [flat_opening] at hflat hiff
  refine ⟨hflat.trans rfl, hiff.2 ?_⟩
  rw [List.forall_mem_cons, List.forall_mem_singleton]
  constructor
  · exact fun hmeets => absurd hmeets (by decide +kernel)
  · exact fun _ hchange => hchange.2.2.2 (by decide +kernel)

/-- The positive half line is no narrower than the whole line. -/
theorem whole_changesUnnoticed : Interval.whole.ChangesUnnoticed Interval.nonneg := by
  refine ⟨rfl, fun h => ?_, rfl, by decide +kernel⟩
  have hinf : Interval.nonneg.lb.isInf = Interval.whole.lb.isInf :=
    congrArg (fun a : Interval => a.lb.isInf) h
  exact Bool.false_ne_true hinf

/-- Cut to the positive half line, both slices change, and the caches still tell of the whole
line. -/
theorem narrowOver_halfLines_stale :
    (∀ z ∈ (build [Interval.unit, ⟨1.0, 2.0⟩] Interval.whole).update.subtrees, z.Summarized) ∧
      (narrowOver ⟨0.0, 2.0⟩ Interval.nonneg
          (build [Interval.unit, ⟨1.0, 2.0⟩] Interval.whole).update).1.flat =
        [(Interval.unit, Interval.nonneg), (⟨1.0, 2.0⟩, Interval.nonneg)] ∧
      ¬∀ z ∈ (narrowOver ⟨0.0, 2.0⟩ Interval.nonneg
          (build [Interval.unit, ⟨1.0, 2.0⟩] Interval.whole).update).1.subtrees, z.Summarized := by
  obtain ⟨hspans, hflat, -⟩ :=
    build_spec Interval.whole Change.consecutive_two_slices (List.cons_ne_nil _ _)
  rw [← spans_frame, ← frame_update, spans_frame] at hspans
  rw [← flat_update] at hflat
  have hn : ∀ s ∈ (build [Interval.unit, ⟨1.0, 2.0⟩] Interval.whole).update.flat,
      s.2.Numeric := by
    rw [hflat]
    have hwhole : Interval.whole.Numeric := ⟨rfl, rfl⟩
    exact List.forall_mem_map.2 fun _ _ => hwhole
  have hflat' := (flat_narrowOver ⟨0.0, 2.0⟩ Interval.nonneg hspans).trans (congrArg _ hflat)
  have hlist : List.map (fun s : Interval × Interval => if s.1.meets ⟨0.0, 2.0⟩
      then (s.1, (Enclosure.narrow s.2 Interval.nonneg).1) else s)
        ([Interval.unit, ⟨1.0, 2.0⟩].map (·, Interval.whole)) =
      [(Interval.unit, Interval.nonneg), (⟨1.0, 2.0⟩, Interval.nonneg)] := rfl
  rw [hlist] at hflat'
  refine ⟨(coherent_iff_summarized hn).1 (coherent_update _), hflat', ?_⟩
  rw [← coherent_iff_summarized, coherent_narrowOver_iff hspans (coherent_update _) hn, hflat]
  · intro h
    exact h _ List.mem_cons_self (by decide +kernel) whole_changesUnnoticed
  · rw [hflat', List.forall_mem_cons, List.forall_mem_singleton]
    exact ⟨⟨rfl, rfl⟩, rfl, rfl⟩

end SliceTree

end FlowTube
