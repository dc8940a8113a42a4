import FlowTube.Proofs.Binary64.Defs

/-! Rounding to the nearest, over the reals. A representable real has 53 binary places and no
place below the least exponent; there is no greatest exponent here, so that overflow is a
matter of the numbers and not of the rounding. A rounding is at least as near as any
representable real, and this alone gives what sums need: exact results where the operands
nearly cancel, an error of the sum that is representable itself, and with it the two-sum
identity, by which a sum and five further roundings recover the error exactly. -/

namespace FlowTube.Binary64

variable {d e : ℤ} {a b r s w z : ℝ}

/-! ### Grids -/

theorem mem_grid : r ∈ grid e ↔ ∃ n : ℤ, r = n * 2 ^ e := by
  simp [grid, AddSubgroup.mem_zmultiples_iff, eq_comm]

theorem mul_mem_grid (n e : ℤ) : (n : ℝ) * 2 ^ e ∈ grid e := mem_grid.2 ⟨n, rfl⟩

theorem zpow_mono (h : d ≤ e) : (2 : ℝ) ^ d ≤ 2 ^ e := zpow_le_zpow_right₀ one_le_two h

theorem zpow_succ (e : ℤ) : (2 : ℝ) ^ (e + 1) = 2 * 2 ^ e := by
  rw [zpow_add_one₀ two_ne_zero, mul_comm]

theorem zpow_mem_grid (h : d ≤ e) : (2 : ℝ) ^ e ∈ grid d := by
  refine mem_grid.2 ⟨2 ^ (e - d).toNat, ?_⟩
  have hexp : e = (e - d).toNat + d := by omega
  conv_lhs => rw [hexp, zpow_add₀ two_ne_zero, zpow_natCast]
  push_cast
  rfl

theorem grid_mono (h : d ≤ e) : grid e ≤ grid d := by
  rw [grid, AddSubgroup.zmultiples_le]
  exact zpow_mem_grid h

/-- Zero is the only member of a grid within its mesh. -/
theorem eq_zero_of_mem_grid (h : r ∈ grid e) (hlt : |r| < 2 ^ e) : r = 0 := by
  obtain ⟨n, rfl⟩ := mem_grid.1 h
  have hpos : (0 : ℝ) < 2 ^ e := by positivity
  rw [abs_mul, abs_of_pos hpos] at hlt
  have hn : |(n : ℝ)| < 1 := by
    by_contra hge
    exact absurd hlt (not_lt.2 (le_mul_of_one_le_left hpos.le (not_lt.1 hge)))
  have hn' : |n| < 1 := by exact_mod_cast hn
  rw [Int.abs_lt_one_iff.1 hn']
  simp

theorem zpow_le_abs_sub_of_mem_grid (hr : r ∈ grid e) (hs : s ∈ grid e) (hne : r ≠ s) :
    2 ^ e ≤ |r - s| :=
  not_lt.1 fun hlt => hne (sub_eq_zero.1 (eq_zero_of_mem_grid (sub_mem hr hs) hlt))

/-! ### Representable reals -/

theorem Representable.neg (h : Representable r) : Representable (-r) := by
  obtain ⟨e, he, hmem, hlt⟩ := h
  exact ⟨e, he, neg_mem hmem, by rwa [abs_neg]⟩

theorem representable_zero : Representable 0 :=
  ⟨-1074, le_rfl, zero_mem _, by rw [abs_zero]; positivity⟩

/-- The bound itself is representable too, one exponent further up. -/
theorem representable_of_le (he : -1074 ≤ e) (hmem : r ∈ grid e) (hle : |r| ≤ 2 ^ 53 * 2 ^ e) :
    Representable r := by
  rcases hle.lt_or_eq with hlt | heq
  · exact ⟨e, he, hmem, hlt⟩
  · have hpow : (2 : ℝ) ^ 53 * 2 ^ e = 2 ^ (53 + e) := by
      rw [zpow_add₀ two_ne_zero]
      norm_cast
    have hgrid : (2 : ℝ) ^ 53 * 2 ^ e ∈ grid (e + 1) := by
      rw [hpow]
      exact zpow_mem_grid (by omega)
    refine ⟨e + 1, by omega, ?_, ?_⟩
    · rcases abs_choice r with habs | habs
      · rw [← habs, heq]
        exact hgrid
      · rw [← neg_neg r, ← habs, heq]
        exact neg_mem hgrid
    · rw [heq, zpow_succ]
      have : (0 : ℝ) < 2 ^ e := by positivity
      linarith

/-- Sterbenz: a sum that exceeds neither of its summands is representable. -/
theorem Representable.add (ha : Representable a) (hb : Representable b) (hsa : |a + b| ≤ |a|)
    (hsb : |a + b| ≤ |b|) : Representable (a + b) := by
  obtain ⟨d, hd, ha, hda⟩ := ha
  obtain ⟨e, he, hb, heb⟩ := hb
  rcases le_total d e with h | h
  · exact ⟨d, hd, add_mem ha (grid_mono h hb), hsa.trans_lt hda⟩
  · exact ⟨e, he, add_mem (grid_mono h ha) hb, hsb.trans_lt heb⟩

/-! ### Roundings -/

/-- `z` is the rounding of `r` at the exponent that the magnitude of `r` asks for. -/
structure RoundsAt (e : ℤ) (r z : ℝ) : Prop where
  least : -1074 ≤ e
  below : |r| < 2 ^ 53 * 2 ^ e
  full : 2 ^ 52 * 2 ^ e ≤ |r| ∨ e = -1074
  mem : z ∈ grid e
  near : |r - z| ≤ 2 ^ e / 2
  /-- Halfway between two multiples, the even one is taken. -/
  tie : |r - z| = 2 ^ e / 2 → z ∈ grid (e + 1)

/-- `z` is the rounding of `r`. -/
def Rounds (r z : ℝ) : Prop := ∃ e, RoundsAt e r z

theorem Rounds.neg (h : Rounds r z) : Rounds (-r) (-z) := by
  obtain ⟨e, h⟩ := h
  have habs : |-r - -z| = |r - z| := by rw [← neg_sub', abs_neg]
  exact ⟨e, h.least, by rw [abs_neg]; exact h.below, by rw [abs_neg]; exact h.full, neg_mem h.mem,
    by rw [habs]; exact h.near, fun htie => neg_mem (h.tie (habs ▸ htie))⟩

/-- On its own grid, nothing is nearer than the rounding. -/
theorem RoundsAt.le_of_mem (h : RoundsAt e r z) (hw : w ∈ grid e) : |r - z| ≤ |r - w| := by
  by_cases heq : w = z
  · rw [heq]
  · have hmesh := zpow_le_abs_sub_of_mem_grid h.mem hw (Ne.symm heq)
    have htri : |z - w| ≤ |r - z| + |r - w| := by
      rw [abs_sub_comm r z]
      exact abs_sub_le z r w
    have hnear := h.near
    linarith

/-- Nothing representable is nearer than the rounding. -/
theorem Rounds.le (h : Rounds r z) (hw : Representable w) : |r - z| ≤ |r - w| := by
  obtain ⟨e, h⟩ := h
  obtain ⟨d, hd, hmem, hlt⟩ := hw
  rcases le_or_gt e d with hed | hde
  · exact h.le_of_mem (grid_mono hed hmem)
  -- a number with finer places is smaller than the power of two below `r`, which is on the grid
  · have hfull : 2 ^ 52 * 2 ^ e ≤ |r| := h.full.resolve_right (by omega)
    have hw : |w| ≤ 2 ^ 52 * 2 ^ e := by
      have hpow : (2 : ℝ) ^ (d + 1) ≤ 2 ^ e := zpow_mono (by omega)
      rw [zpow_succ] at hpow
      linarith
    have hc : (2 : ℝ) ^ 52 * 2 ^ e ∈ grid e := mem_grid.2 ⟨2 ^ 52, by norm_num⟩
    have htri : |r| - |w| ≤ |r - w| := abs_sub_abs_le_abs_sub r w
    rcases le_total 0 r with hr | hr
    · rw [abs_of_nonneg hr] at hfull htri
      calc |r - z| ≤ |r - 2 ^ 52 * 2 ^ e| := h.le_of_mem hc
        _ = r - 2 ^ 52 * 2 ^ e := abs_of_nonneg (by linarith)
        _ ≤ |r - w| := by linarith
    · rw [abs_of_nonpos hr] at hfull htri
      calc |r - z| ≤ |r - -(2 ^ 52 * 2 ^ e)| := h.le_of_mem (neg_mem hc)
        _ = -r - 2 ^ 52 * 2 ^ e := by rw [abs_of_nonpos (by linarith)]; ring
        _ ≤ |r - w| := by linarith

/-- What is representable is its own rounding, and no other real is. -/
theorem Rounds.eq (h : Rounds r z) (hr : Representable r) : z = r := by
  have hle := h.le hr
  rw [sub_self, abs_zero] at hle
  exact (sub_eq_zero.1 (abs_nonpos_iff.1 hle)).symm

theorem Rounds.representable (h : Rounds r z) : Representable z := by
  obtain ⟨e, h⟩ := h
  have hlt : |z| < 2 ^ 53 * 2 ^ e + 2 ^ e := by
    have htri : |z| ≤ |r| + |r - z| := by
      have := abs_sub_abs_le_abs_sub z r
      rw [abs_sub_comm z r] at this
      linarith
    have hbelow := h.below
    have hnear := h.near
    have : (0 : ℝ) < 2 ^ e := by positivity
    linarith
  refine representable_of_le h.least h.mem ?_
  obtain ⟨n, hn⟩ := mem_grid.1 h.mem
  have hpos : (0 : ℝ) < 2 ^ e := by positivity
  rw [hn, abs_mul, abs_of_pos hpos] at hlt ⊢
  have hn' : |(n : ℝ)| < 2 ^ 53 + 1 := lt_of_mul_lt_mul_right (by linarith) hpos.le
  have hle : |n| ≤ 2 ^ 53 := by
    have : |n| < 2 ^ 53 + 1 := by exact_mod_cast hn'
    omega
  gcongr
  exact_mod_cast hle

/-- Rounding does not pass a representable real. -/
theorem Rounds.le_of_le (h : Rounds r z) (hw : Representable w) (hwr : w ≤ r) : w ≤ z := by
  by_contra hlt
  have hle := h.le hw
  rw [abs_of_nonneg (by linarith), abs_of_nonneg (by linarith)] at hle
  linarith

theorem Rounds.ge_of_ge (h : Rounds r z) (hw : Representable w) (hrw : r ≤ w) : z ≤ w := by
  have := h.neg.le_of_le hw.neg (neg_le_neg hrw)
  linarith

/-- A rounding of lesser magnitude than a representable real comes from a lesser magnitude. -/
theorem Rounds.abs_lt_of_abs_lt (h : Rounds r z) (hw : Representable w) (hzw : |z| < |w|) :
    |r| < |w| := by
  have habs : Representable |w| := by
    rcases abs_choice w with heq | heq <;> rw [heq]
    · exact hw
    · exact hw.neg
  rw [abs_lt] at hzw ⊢
  constructor
  · by_contra hle
    have := h.ge_of_ge habs.neg (not_lt.1 hle)
    linarith
  · by_contra hle
    have := h.le_of_le habs (not_lt.1 hle)
    linarith

/-! ### Sums -/

/-- A sum of two numbers with places down to `2 ^ d`, rounded at an exponent within them, is
exact. -/
theorem RoundsAt.eq_of_le (h : RoundsAt e r z) (hr : r ∈ grid d) (hed : e ≤ d) : z = r :=
  Rounds.eq ⟨e, h⟩ ⟨e, h.least, grid_mono hed hr, h.below⟩

/-- The error of a sum is no larger than a summand. -/
theorem Rounds.error_le (h : Rounds (a + b) s) (hb : Representable b) : |a + b - s| ≤ |a| := by
  have := h.le hb
  rwa [add_sub_cancel_right] at this

/-- The error of a sum is representable. -/
theorem Rounds.representable_error (h : Rounds (a + b) s) (ha : Representable a)
    (hb : Representable b) : Representable (a + b - s) := by
  have aux : ∀ {a b : ℝ} {d e : ℤ}, Rounds (a + b) s → Representable b → -1074 ≤ d → a ∈ grid d →
      b ∈ grid e → |a| < 2 ^ 53 * 2 ^ d → d ≤ e → Representable (a + b - s) := by
    intro a b d e h hb hd ha hbe hlt hde
    have hsum : a + b ∈ grid d := add_mem ha (grid_mono hde hbe)
    have hle := h.error_le hb
    obtain ⟨k, h⟩ := h
    rcases le_or_gt k d with hkd | hdk
    · rw [h.eq_of_le hsum hkd, sub_self]
      exact representable_zero
    · exact ⟨d, hd, sub_mem hsum (grid_mono hdk.le h.mem), hle.trans_lt hlt⟩
  obtain ⟨d, hd, had, hlta⟩ := id ha
  obtain ⟨e, he, hbe, hltb⟩ := id hb
  rcases le_total d e with hde | hed
  · exact aux h hb hd had hbe hlta hde
  · rw [add_comm] at h ⊢
    exact aux h ha he hbe had hltb hed

/-- The rounded sum less its larger summand is representable. -/
theorem Rounds.representable_sub (h : Rounds (a + b) s) (ha : Representable a)
    (hb : Representable b) (hba : |b| ≤ |a|) : Representable (s - a) := by
  obtain ⟨d, hd, had, hlta⟩ := id ha
  obtain ⟨k, hkd, hk, hbk, hltb⟩ : ∃ k, k ≤ d ∧ -1074 ≤ k ∧ b ∈ grid k ∧ |b| < 2 ^ 53 * 2 ^ k := by
    obtain ⟨e, he, hbe, hltb⟩ := id hb
    rcases le_total e d with hed | hde
    · exact ⟨e, hed, he, hbe, hltb⟩
    · exact ⟨d, le_rfl, hd, grid_mono hde hbe, hba.trans_lt hlta⟩
  obtain ⟨e, h⟩ := h
  have hpos : (0 : ℝ) < 2 ^ e := by positivity
  have hsplit : |s - a| ≤ |b| + |a + b - s| := by
    calc |s - a| = |b - (a + b - s)| := by ring_nf
      _ ≤ |b| + |a + b - s| := abs_sub b (a + b - s)
  have hnear := h.near
  rcases le_or_gt e k with hek | hke
  -- the sum is exact
  · rw [h.eq_of_le (add_mem (grid_mono hkd had) hbk) hek, add_sub_cancel_left]
    exact hb
  · have hpow : (2 : ℝ) ^ (k + 1) ≤ 2 ^ e := zpow_mono (by omega)
    rw [zpow_succ] at hpow
    rcases le_or_gt e d with hed | hde
    -- the smaller summand lies below the places of the sum but for one bit
    · refine representable_of_le h.least (sub_mem h.mem (grid_mono hed had)) ?_
      linarith
    -- the sum carries into the place above the larger summand
    · have hcarry : e = d + 1 := by
        have hle : (2 : ℝ) ^ e < 2 ^ (d + 2) := by
          have hfull : 2 ^ 52 * 2 ^ e ≤ |a + b| := h.full.resolve_right (by omega)
          have htri : |a + b| ≤ |a| + |b| := abs_add_le a b
          rw [show d + 2 = d + 1 + 1 by ring, zpow_succ, zpow_succ]
          linarith
        have := (zpow_lt_zpow_iff_right₀ one_lt_two).1 hle
        omega
      have hpow' : (2 : ℝ) ^ e = 2 * 2 ^ d := by rw [hcarry, zpow_succ]
      refine representable_of_le hd (sub_mem (grid_mono hde.le h.mem) had) ?_
      have hstep : |a| ≤ 2 ^ 53 * 2 ^ d - 2 ^ d := by
        obtain ⟨n, rfl⟩ := mem_grid.1 had
        have hposd : (0 : ℝ) < 2 ^ d := by positivity
        rw [abs_mul, abs_of_pos hposd] at hlta ⊢
        have hn : |(n : ℝ)| < 2 ^ 53 := lt_of_mul_lt_mul_right hlta hposd.le
        have hn' : |n| ≤ 2 ^ 53 - 1 := by
          have : |n| < 2 ^ 53 := by exact_mod_cast hn
          omega
        have hn'' : |(n : ℝ)| ≤ 2 ^ 53 - 1 := by exact_mod_cast hn'
        nlinarith
      linarith

/-! ### The two-sum identity -/

/-- The roundings that recover the error of a sum: what the rounded sum adds to the first
summand, what is then left for the first, how far both fall short, and their sum. -/
structure TwoSum (a b s b' a' δa δb t : ℝ) : Prop where
  sum : Rounds (a + b) s
  second : Rounds (s - a) b'
  first : Rounds (s - b') a'
  errorFirst : Rounds (a - a') δa
  errorSecond : Rounds (b - b') δb
  total : Rounds (δa + δb) t

variable {b' a' δa δb t : ℝ}

/-- Where both shares and what they fall short by are exact, so is the total. -/
theorem TwoSum.total_eq (h : TwoSum a b s b' a' δa δb t) (ha : Representable a)
    (hb : Representable b) (ha' : a' = s - b') (hδa : Representable (a - a'))
    (hδb : Representable (b - b')) : t = a + b - s := by
  have herr : δa + δb = a + b - s := by
    rw [h.errorFirst.eq hδa, h.errorSecond.eq hδb, ha']
    ring
  have htotal := h.total
  rw [herr] at htotal
  exact htotal.eq (h.sum.representable_error ha hb)

/-- If the first summand is the larger one, the share of the second is exact, and nothing is
missing in the first. -/
theorem TwoSum.eq_of_le (h : TwoSum a b s b' a' δa δb t) (ha : Representable a)
    (hb : Representable b) (hba : |b| ≤ |a|) : t = a + b - s := by
  have hb' : b' = s - a := h.second.eq (h.sum.representable_sub ha hb hba)
  have ha' : a' = a := by
    have hfirst := h.first
    rw [hb', sub_sub_cancel] at hfirst
    exact hfirst.eq ha
  refine h.total_eq ha hb ?_ ?_ ?_
  · rw [ha', hb', sub_sub_cancel]
  · rw [ha', sub_self]
    exact representable_zero
  · rw [hb', show b - (s - a) = a + b - s by ring]
    exact h.sum.representable_error ha hb

/-- If the second summand is the larger one, its share is a sum of its own, taken from the larger
side. -/
theorem TwoSum.eq_of_lt (h : TwoSum a b s b' a' δa δb t) (ha : Representable a)
    (hb : Representable b) (hab : |a| < |b|) (has : |a| ≤ |s|) : t = a + b - s := by
  have hs := h.sum.representable
  have hsum : Rounds (s + -a) b' := by
    rw [← sub_eq_add_neg]
    exact h.second
  have hfirst : Representable (s - b') := by
    have := (hsum.representable_sub hs ha.neg (by rwa [abs_neg])).neg
    rwa [neg_sub] at this
  have ha' : a' = s - b' := h.first.eq hfirst
  refine h.total_eq ha hb ha' ?_ ?_
  · have := (hsum.representable_error hs ha.neg).neg
    rw [ha']
    rwa [show a - (s - b') = -(s + -a - b') by ring]
  · have hback : Rounds (b + (s - (a + b))) b' := by
      rw [show b + (s - (a + b)) = s - a by ring]
      exact h.second
    have hsmall : |s - (a + b)| ≤ |b| := by
      rw [abs_sub_comm]
      exact (h.sum.error_le hb).trans hab.le
    have herr : Representable (s - (a + b)) := by
      rw [← neg_sub]
      exact (h.sum.representable_error ha hb).neg
    have := (hback.representable_sub hb herr hsmall).neg
    rwa [neg_sub] at this

/-- If the summands cancel so far that their sum is the least of the three, it is exact. -/
theorem TwoSum.eq_of_cancel (h : TwoSum a b s b' a' δa δb t) (ha : Representable a)
    (hb : Representable b) (hab : |a| < |b|) (hsa : |s| < |a|) : t = a + b - s := by
  have hlt : |a + b| < |a| := h.sum.abs_lt_of_abs_lt ha hsa
  have hs : s = a + b := h.sum.eq (ha.add hb hlt.le (hlt.trans hab).le)
  have hb' : b' = b := by
    have hsecond := h.second
    rw [hs, add_sub_cancel_left] at hsecond
    exact hsecond.eq hb
  have ha' : a' = a := by
    have hfirst := h.first
    rw [hb', hs, add_sub_cancel_right] at hfirst
    exact hfirst.eq ha
  refine h.total_eq ha hb ?_ ?_ ?_
  · rw [ha', hb', hs, add_sub_cancel_right]
  · rw [ha', sub_self]
    exact representable_zero
  · rw [hb', sub_self]
    exact representable_zero

/-- The error of a sum is recovered exactly. -/
theorem TwoSum.eq (h : TwoSum a b s b' a' δa δb t) (ha : Representable a) (hb : Representable b) :
    t = a + b - s := by
  rcases le_or_gt |b| |a| with hba | hab
  · exact h.eq_of_le ha hb hba
  rcases le_or_gt |a| |s| with has | hsa
  · exact h.eq_of_lt ha hb hab has
  · exact h.eq_of_cancel ha hb hab hsa

end FlowTube.Binary64
