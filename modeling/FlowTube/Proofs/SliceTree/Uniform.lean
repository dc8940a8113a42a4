import FlowTube.Proofs.Binary64.TotalOrder
import FlowTube.Proofs.SliceTree.Updates

/-! Slices of one width, laid from the start of a domain until one ends at its end or after it.
With rounded sums the laying need not stop: a small width is lost in the sum, and no width leads
away from `-∞`. Where it stops, every sum has moved on, for a sum that stays where it is would stay
there forever. So the ends increase, and there are not more of them than numbers: the bound on
the number of slices is never met. -/

namespace FlowTube

/-! ### Sums that move on -/

namespace Binary64

variable {x y : Float}

theorem isFinite_or_eq_inf_of_pos (h : 0.0 < y) : y.isFinite = true ∨ y = inf := by
  rcases isFinite_or_eq_inf (lt_iff.1 h).2.1 with hfinite | hinf | rfl
  · exact Or.inl hfinite
  · exact Or.inr hinf
  · exact absurd h (by decide +kernel)

/-- The sum with a positive number is not less, if it is a number. -/
theorem le_add_of_pos (hx : x.isNaN = false) (hy : 0.0 < y) (hsum : (x + y).isNaN = false) :
    x ≤ x + y := by
  refine le_iff.2 ⟨hx, hsum, ?_⟩
  rcases isFinite_or_eq_inf hx with hxf | rfl | rfl
  · rcases isFinite_or_eq_inf_of_pos hy with hyf | rfl
    · have hpos : 0 < real y := by
        have := (lt_iff_real (x := 0.0) rfl hyf).1 hy
        rwa [real_zero] at this
      cases roundsTo_add hxf hyf with
      | finite hz h =>
        rw [value_of_isFinite hxf, value_of_isFinite hz, EReal.coe_le_coe_iff]
        exact h.le_of_le (representable_real x) (by linarith)
      | above hz w h hw =>
        rw [hz]
        exact le_top
      | below hz w h hw =>
        -- the exact sum lies above a number, so its rounding does not fall below all of them
        have hle := h.le_of_le (representable_real x) (by linarith)
        have hmax := neg_le_of_abs_le (abs_real_le_maxFinite x)
        have hlt := real_maxFinite
        have htop := topPlace_pos
        linarith
    · rw [(infinite_sum hxf).1.1]
      exact le_top
  · rcases isFinite_or_eq_inf_of_pos hy with hyf | rfl
    · rw [(infinite_sum hyf).1.2.1]
    · exact le_rfl
  · exact bot_le

/-- The sum with a positive number is not `-0`. -/
theorem add_ne_negZero_of_pos (hx : x.isNaN = false) (hy : 0.0 < y) : x + y ≠ -0.0 := by
  rcases isFinite_or_eq_inf_of_pos hy with hyf | rfl
  · rcases isFinite_or_eq_inf hx with hxf | rfl | rfl
    · intro h
      rw [eq_negZero_of_add hxf hyf h] at hy
      exact absurd hy (by decide +kernel)
    · rw [(infinite_sum hyf).1.2.1]
      decide +kernel
    · rw [(infinite_sum hyf).2.2.1]
      decide +kernel
  · rcases isFinite_or_eq_inf hx with hxf | rfl | rfl
    · rw [(infinite_sum hxf).1.1]
      decide +kernel
    · decide +kernel
    · decide +kernel

end Binary64

namespace SliceTree

open Binary64

variable {ι : Type} {dt ub lb : Float} {slices : List Interval}

/-! ### Laying slices -/

/-- The slices of width `dt` that are laid from `lb` on, when the laying stops. -/
inductive Lays (dt ub : Float) : Float → List Interval → Prop
  | last {lb : Float} (h : ¬(lb + dt < ub ∧ 0.0 < dt)) :
      Lays dt ub lb [Interval.ofBounds lb (lb + dt)]
  | more {lb : Float} {slices : List Interval} (h : lb + dt < ub ∧ 0.0 < dt)
      (rest : Lays dt ub (lb + dt) slices) :
      Lays dt ub lb (Interval.ofBounds lb (lb + dt) :: slices)

/-- Enough fuel is as good as none at all. -/
theorem Lays.uniformSlices_eq (h : Lays dt ub lb slices) {fuel : ℕ}
    (hfuel : slices.length ≤ fuel) : uniformSlices dt ub fuel lb = slices := by
  induction h generalizing fuel with
  | last h =>
    cases fuel with
    | zero => simp at hfuel
    | succ fuel => simp [uniformSlices, h]
  | more h rest ih =>
    cases fuel with
    | zero => simp at hfuel
    | succ fuel => simp [uniformSlices, h, ih (Nat.le_of_succ_le_succ hfuel)]

theorem Lays.ne_nil (h : Lays dt ub lb slices) : slices ≠ [] := by
  cases h <;> simp

/-- A sum that stays where it is never reaches the end. -/
theorem not_lays_of_add_eq (hstay : lb + dt = lb) (hlt : lb < ub) (hdt : 0.0 < dt) :
    ¬Lays dt ub lb slices := by
  intro h
  induction h with
  | last h => exact h ⟨by rwa [hstay], hdt⟩
  | more h rest ih =>
    rw [hstay] at ih
    exact ih hstay hlt

/-- Slices that start before they end, one where the one before ends, without `-0` as an end. -/
structure Increasing (slices : List Interval) : Prop where
  lt : ∀ s ∈ slices, s.lb < s.ub
  zeros : ∀ s ∈ slices, s.lb ≠ -0.0 ∧ s.ub ≠ -0.0
  chain : slices.IsChain fun a b => a.ub = b.lb

theorem Increasing.singleton (hlt : lb < ub) (hlb : lb ≠ -0.0) (hub : ub ≠ -0.0) :
    Increasing [⟨lb, ub⟩] where
  lt := List.forall_mem_singleton.2 hlt
  zeros := List.forall_mem_singleton.2 ⟨hlb, hub⟩
  chain := List.isChain_singleton _

theorem Increasing.cons {mid : Float} (h : Increasing slices) (hlt : lb < mid) (hlb : lb ≠ -0.0)
    (hmid : mid ≠ -0.0) (hhead : (slices.headD Interval.empty).lb = mid) (hne : slices ≠ []) :
    Increasing (⟨lb, mid⟩ :: slices) where
  lt := List.forall_mem_cons.2 ⟨hlt, h.lt⟩
  zeros := List.forall_mem_cons.2 ⟨⟨hlb, hmid⟩, h.zeros⟩
  chain := by
    obtain ⟨s, rest, rfl⟩ := List.exists_cons_of_ne_nil hne
    exact List.isChain_cons_cons.2 ⟨hhead.symm, h.chain⟩

/-- Where the laying stops, the slices lead from the start to the end or beyond. -/
theorem Lays.increasing (h : Lays dt ub lb slices) (hlt : lb < ub) (hdt : 0.0 < dt)
    (hlb : lb ≠ -0.0) (hsum : (lb + dt).isNaN = false) :
    Increasing slices ∧ (slices.headD Interval.empty).lb = lb ∧
      ub ≤ (slices.getLastD Interval.empty).ub := by
  induction h with
  | @last lb h =>
    have hend : ub ≤ lb + dt := le_of_not_lt hsum (lt_iff.1 hlt).2.1 fun hlt => h ⟨hlt, hdt⟩
    have hmoved : lb < lb + dt := lt_of_lt_of_le hlt hend
    rw [Interval.ofBounds_of_lt hmoved]
    have hnext := add_ne_negZero_of_pos (lt_iff.1 hlt).1 hdt
    exact ⟨.singleton hmoved hlb hnext, rfl, hend⟩
  | @more lb slices h rest ih =>
    have hnumber := (lt_iff.1 hlt).1
    have hnext := add_ne_negZero_of_pos hnumber hdt
    have hmoved : lb < lb + dt := by
      by_contra hnot
      have hle := le_of_not_lt hnumber hsum hnot
      have hsame := le_antisymm (le_iff.1 hle).2.2 (le_iff.1 (le_add_of_pos hnumber hdt hsum)).2.2
      exact not_lays_of_add_eq (eq_of_value_eq hsum hnumber hnext hlb hsame) hlt hdt (.more h rest)
    have hfinite : (lb + dt).isFinite = true := isFinite_iff.2
      ⟨hsum, ((lt_iff.1 h.1).2.2.trans_le le_top).ne, (bot_le.trans_lt (lt_iff.1 hmoved).2.2).ne'⟩
    obtain ⟨hincreasing, hhead, hlast⟩ := ih h.1 hnext (isNaN_add hfinite (lt_iff.1 hdt).2.1)
    rw [Interval.ofBounds_of_lt hmoved]
    refine ⟨hincreasing.cons hmoved hlb hnext hhead rest.ne_nil, rfl, ?_⟩
    rwa [← List.singleton_append, getLastD_append rest.ne_nil]

/-! ### Increasing slices -/

theorem Increasing.consecutive (h : Increasing slices) : Consecutive slices where
  nonempty s hs := by
    obtain ⟨hl, hu, hlt⟩ := lt_iff.1 (h.lt s hs)
    obtain ⟨r, hlow, hup⟩ := EReal.lt_iff_exists_real_btwn.1 hlt
    exact ⟨r, ⟨hl, hlow.le⟩, hu, hup.le⟩
  touching := by
    refine h.chain.imp_of_mem_imp fun a b ha _ heq => ?_
    have := (lt_iff.1 (h.lt a ha)).2.1
    exact beq_iff.2 ⟨this, heq ▸ this, by rw [heq]⟩

theorem Increasing.pairwise_lb (h : Increasing slices) :
    (slices.map (·.lb)).Pairwise (· < ·) := by
  have : Trans (fun x y : Float => x < y) (· < ·) (· < ·) := ⟨lt_trans⟩
  rw [← List.isChain_iff_pairwise, List.isChain_map]
  exact h.chain.imp_of_mem_imp fun a b ha _ heq => by simpa [← heq] using h.lt a ha

/-! ### The tree -/

/-- The tree over slices of one width has the slices that are laid, if the laying stops. -/
theorem uniform_spec [Enclosure ι] {domain : Interval} (value : ι)
    (h : Lays dt domain.ub domain.lb slices) (hslices : Increasing slices) :
    (uniform domain dt value).Balanced ∧ (uniform domain dt value).Spans ∧
      (uniform domain dt value).flat = slices.map (·, value) := by
  have hlength : slices.length ≤ 2 ^ 64 := by
    simpa using length_le_of_increasing hslices.pairwise_lb
  have huniform : uniform domain dt value = (build slices value).update :=
    congrArg (fun slices => (build slices value).update) (h.uniformSlices_eq hlength)
  obtain ⟨hspans, hflat, -⟩ := build_spec value hslices.consecutive h.ne_nil
  rw [huniform]
  refine ⟨balanced_update (balanced_build slices value h.ne_nil).1, ?_, ?_⟩
  · rwa [← spans_frame, frame_update, spans_frame]
  · rw [flat_update, hflat]

end SliceTree

end FlowTube
