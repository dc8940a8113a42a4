import FlowTube.Proofs.Binary64.Numbers
import FlowTube.Proofs.Interval.Membership

/-! Pieces of a bounded interval. The cuts need not be in order: from a bound below a member
to a bound above it, some pair of consecutive cuts encloses the member, as long as every cut
is a number. -/

namespace FlowTube.Interval

open Binary64

variable {a : Interval} {r : ℝ}

/-- Between a first mark below and a last one above, two neighbours enclose. -/
theorem exists_consecutive {lower upper : ℕ → Prop} {n : ℕ} (hn : 0 < n) (hfirst : lower 0)
    (hlast : upper n) (htotal : ∀ k, 0 < k → k < n → lower k ∨ upper k) :
    ∃ k < n, lower k ∧ upper (k + 1) := by
  induction n with
  | zero => contradiction
  | succ n ih =>
    rcases Nat.eq_zero_or_pos n with rfl | hpos
    · exact ⟨0, Nat.zero_lt_one, hfirst, hlast⟩
    · rcases htotal n hpos (Nat.lt_succ_self n) with hlow | hup
      · exact ⟨n, Nat.lt_succ_self n, hlow, hlast⟩
      · obtain ⟨k, hk, h⟩ := ih hpos hup fun k h0 hk => htotal k h0 (hk.trans (Nat.lt_succ_self n))
        exact ⟨k, hk.trans (Nat.lt_succ_self n), h⟩

/-- The bounds of a bounded interval are finite, if they are numbers. -/
theorem isFinite_bounds (hl : a.lb.isNaN = false) (hu : a.ub.isNaN = false)
    (hb : a.isBounded = true) : a.lb.isFinite = true ∧ a.ub.isFinite = true := by
  simp only [isBounded, isUnbounded, Bool.and_eq_true, Bool.not_eq_true', Bool.and_eq_false_iff,
    Bool.not_eq_false', Bool.or_eq_false_iff] at hb
  obtain ⟨hempty, hfull⟩ := hb
  obtain ⟨hlow, hup⟩ := hfull.resolve_left (by simp [hempty])
  have hle := (le_iff.1 (le_of_not_lt hu hl (of_decide_eq_false hempty))).2.2
  have hlow' : value a.lb ≠ ⊥ := fun he =>
    Bool.eq_false_iff.1 hlow (beq_iff.2 ⟨hl, rfl, he⟩)
  have hup' : value a.ub ≠ ⊤ := fun he =>
    Bool.eq_false_iff.1 hup (beq_iff.2 ⟨hu, rfl, he⟩)
  exact ⟨isFinite_iff.2 ⟨hl, (hle.trans_lt hup'.lt_top).ne, hlow'⟩,
    isFinite_iff.2 ⟨hu, hup', (hlow'.bot_lt.trans_le hle).ne'⟩⟩

theorem isNaN_diam (a : Interval) : a.diam.isNaN = false := by
  unfold diam
  split_ifs
  · rfl
  · rfl
  · exact isNaN_addUp ..

/-- The counts from one to `n` stay proper numbers, so that one may divide by them. -/
def CountsUpTo (n : ℕ) : Prop :=
  ∀ k, 0 < k → k ≤ n → (Float.ofNat k).isFinite = true ∧ (Float.ofNat k == 0.0) = false

instance (n : ℕ) : Decidable (CountsUpTo n) :=
  decidable_of_iff
    (∀ k ≤ n, 0 < k → (Float.ofNat k).isFinite = true ∧ (Float.ofNat k == 0.0) = false)
    ⟨fun h k h0 hk => h k hk h0, fun h k hk h0 => h k h0 hk⟩

theorem isNaN_cut {n k : ℕ} (hn : CountsUpTo n) (hlow : a.lb.isFinite = true) (h0 : 0 < k)
    (hk : k < n) : (a.cut n k).isNaN = false := by
  rw [cut, if_neg h0.ne', if_neg hk.ne]
  obtain ⟨hkf, hkz⟩ := hn k h0 hk.le
  obtain ⟨hnf, hnz⟩ := hn n (h0.trans hk) le_rfl
  have hprod := (isNaN_mul_div (isNaN_diam a) hkf hkz).1
  exact isNaN_add hlow (isNaN_mul_div hprod hnf hnz).2

theorem cut_zero (n : ℕ) : a.cut n 0 = a.lb := if_pos rfl

theorem cut_self {n : ℕ} (hn : 0 < n) : a.cut n n = a.ub := by
  rw [cut, if_neg hn.ne', if_pos rfl]

theorem exists_mem_subdivide_of_cuts {n : ℕ} (hn : 0 < n)
    (hcut : ∀ k, 0 < k → k < n → (a.cut n k).isNaN = false) (h : r ∈ a) :
    ∃ piece ∈ a.subdivide n, r ∈ piece := by
  have hfirst : IsLower (a.cut n 0) r := by rw [cut_zero]; exact h.1
  have hlast : IsUpper (a.cut n n) r := by rw [cut_self hn]; exact h.2
  obtain ⟨k, hk, hlow, hup⟩ := exists_consecutive hn hfirst hlast
    fun k h0 hk => isLower_or_isUpper (hcut k h0 hk) r
  exact ⟨_, List.mem_map.2 ⟨k, List.mem_range.2 hk, rfl⟩, mem_ofBounds.2 ⟨hlow, hup⟩⟩

/-- Every member of a bounded interval lies in a piece. -/
theorem exists_mem_subdivide {n : ℕ} (hn : 0 < n) (hcount : CountsUpTo n) (hb : a.isBounded = true)
    (h : r ∈ a) : ∃ piece ∈ a.subdivide n, r ∈ piece :=
  exists_mem_subdivide_of_cuts hn
    (fun _ h0 hk => isNaN_cut hcount (isFinite_bounds h.1.1 h.2.1 hb).1 h0 hk) h

example : CountsUpTo 4 := by decide

end FlowTube.Interval
