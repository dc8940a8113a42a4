import FlowTube.Proofs.Enclosure.Exact
import FlowTube.Proofs.Enclosure.Laws
import FlowTube.Proofs.Trajectory.Containment
import FlowTube.Proofs.Trajectory.Samples
import FlowTube.Proofs.Tube.Breakpoints

/-! Straight lines between samples, and their enclosure over an interval of time. The enclosure is
made of finitely many values: those at the two ends, and the samples between. It has all values all
the same. A time lies on a line between two neighbouring samples; where these are beyond the ends,
the ends take their place, and on the part of the line that is left a value lies between the values
at its two ends. -/

namespace FlowTube

/-- Quotients, and all reals between two members. -/
class Enclosure.Linear (ι : Type) [Enclosure ι] [Membership ℝ ι] : Prop extends Sound ι where
  mem_div {a b : ι} {r s : ℝ} : r ∈ a → s ∈ b → s ≠ 0 → r / s ∈ a / b
  mem_of_between {a : ι} {q r s : ℝ} : r ∈ a → s ∈ a → r ≤ q → q ≤ s → q ∈ a

/-- Intervals with other operators and another quotient; all else stays. -/
def WithQuotient (_ : Operators) (_ : Interval → Interval → Interval) : Type := Interval

namespace WithQuotient

variable {o : Operators} {div : Interval → Interval → Interval}

instance : Elementary (WithQuotient o div) where
  __ := (inferInstance : Elementary Interval)
  add := o.add
  sub := o.sub
  mul := o.mul
  div := div

instance : Membership ℝ (WithQuotient o div) := inferInstanceAs (Membership ℝ Interval)

theorem linear (ho : o.Sound)
    (hdiv : ∀ {a b : Interval} {r s : ℝ}, r ∈ a → s ∈ b → s ≠ 0 → r / s ∈ div a b) :
    Enclosure.Linear (WithQuotient o div) where
  __ := (inferInstance : Enclosure.Lawful Interval)
  mem_add := ho.add
  mem_sub := ho.sub
  mem_mul := ho.mul
  mem_div := hdiv
  mem_of_between := Interval.mem_of_between

end WithQuotient

namespace Trajectory

open Binary64 (real)

variable {ι : Type} {points samples : List (Float × List Float)} {p q : Float × List Float}
  {X : ℝ → ℕ → ℝ} {n j : ℕ} {t : ℝ}

/-! ### Lines -/

/-- The value at `t` on the line from `a` at `s` to `b` at `r`. -/
noncomputable def line (s r a b t : ℝ) : ℝ := a + (t - s) / (r - s) * (b - a)

theorem line_start (s r a b : ℝ) : line s r a b s = a := by simp [line]

theorem line_stop {s r : ℝ} (h : s < r) (a b : ℝ) : line s r a b r = b := by
  rw [line, div_self (sub_pos.2 h).ne']
  ring

/-- A value on a part of a line is between the values at the ends of the part. -/
theorem line_between {s r : ℝ} (h : s < r) (a b : ℝ) {t u v : ℝ} (hu : u ≤ t) (hv : t ≤ v) :
    (line s r a b u ≤ line s r a b t ∧ line s r a b t ≤ line s r a b v) ∨
      (line s r a b v ≤ line s r a b t ∧ line s r a b t ≤ line s r a b u) := by
  have hpos := sub_pos.2 h
  have hfirst : (u - s) / (r - s) ≤ (t - s) / (r - s) := by gcongr
  have hlast : (t - s) / (r - s) ≤ (v - s) / (r - s) := by gcongr
  unfold line
  rcases le_total a b with hab | hab
  · have hd := sub_nonneg.2 hab
    exact Or.inl ⟨by gcongr, by gcongr⟩
  · have hd := sub_nonpos.2 hab
    exact Or.inr ⟨by linarith [mul_le_mul_of_nonpos_right hlast hd],
      by linarith [mul_le_mul_of_nonpos_right hfirst hd]⟩

/-- The function has the values of the samples that are kept, and runs straight from each of them
to the next one. -/
structure Interpolates (points : List (Float × List Float)) (X : ℝ → ℕ → ℝ) : Prop where
  atSample : ∀ p, Kept points p → ∀ j v, p.2[j]? = some v → X (real p.1) j = real v
  between : ∀ p q, Kept points p → Kept points q → real p.1 < real q.1 →
    (∀ r ∈ points, real r.1 ≤ real p.1 ∨ real q.1 ≤ real r.1) →
    ∀ t, real p.1 ≤ t → t ≤ real q.1 → ∀ j u v, p.2[j]? = some u → q.2[j]? = some v →
      X t j = line (real p.1) (real q.1) (real u) (real v) t

/-! ### Samples in order -/

/-- The function runs through a list of samples from each one to the next. -/
structure Follows (samples : List (Float × List Float)) (X : ℝ → ℕ → ℝ) : Prop where
  atSample : ∀ p ∈ samples, ∀ j v, p.2[j]? = some v → X (real p.1) j = real v
  between : ∀ k p q, samples[k]? = some p → samples[k + 1]? = some q →
    ∀ t, real p.1 ≤ t → t ≤ real q.1 → ∀ j u v, p.2[j]? = some u → q.2[j]? = some v →
      X t j = line (real p.1) (real q.1) (real u) (real v) t

theorem interpolates_iff (h : Acceptable n points) :
    Interpolates points X ↔ Follows (inOrder points) X := by
  have hincreasing : Increasing (inOrder points) := increasing_inOrder h
  constructor
  · intro hX
    refine ⟨fun p hp => hX.atSample p ((mem_inOrder_iff h).1 hp), fun k p q hp hq => ?_⟩
    have hpmem := List.mem_of_getElem? hp
    have hqmem := List.mem_of_getElem? hq
    refine hX.between p q ((mem_inOrder_iff h).1 hpmem) ((mem_inOrder_iff h).1 hqmem)
      (hincreasing.lt (Nat.lt_succ_self k) hp hq) fun r hr => ?_
    -- a sample in between would have a time that is not one of those kept
    obtain ⟨r', hr', heq⟩ := exists_mem_inOrder h hr
    obtain ⟨l, hl⟩ := List.mem_iff_getElem?.1 hr'
    rw [← heq]
    rcases Nat.lt_or_ge k l with hkl | hlk
    · exact Or.inr (hincreasing.le hkl hq hl)
    · exact Or.inl (hincreasing.le hlk hl hp)
  · intro hX
    refine ⟨fun p hp => hX.atSample p ((mem_inOrder_iff h).2 hp), fun p q hp hq hlt hnone => ?_⟩
    obtain ⟨k, hk⟩ := List.mem_iff_getElem?.1 ((mem_inOrder_iff h).2 hp)
    obtain ⟨l, hl⟩ := List.mem_iff_getElem?.1 ((mem_inOrder_iff h).2 hq)
    have hkl : k < l := by
      by_contra hle
      exact (hincreasing.le (not_lt.1 hle) hl hk).not_gt hlt
    have hnext : l = k + 1 := by
      by_contra hne
      have hbetween : k + 1 < l := by omega
      obtain ⟨hlen, -⟩ := List.getElem?_eq_some_iff.1 hl
      have hr : (inOrder points)[k + 1]? = some (inOrder points)[k + 1] :=
        List.getElem?_eq_getElem (by omega)
      have hmem := mem_of_mem_inOrder (List.mem_of_getElem? hr)
      rcases hnone _ hmem with hle | hle
      · exact (hincreasing.lt (Nat.lt_succ_self k) hk hr).not_ge hle
      · exact (hincreasing.lt hbetween hr hl).not_ge hle
    subst hnext
    exact hX.between k p q hk hl

/-! ### The function through given samples -/

/-- The lines between neighbouring samples; the first one also before and the last one after. -/
noncomputable def polyline : List (Float × List Float) → ℝ → ℕ → ℝ
  | [], _, _ => 0
  | [p], _, j => real (p.2.getD j 0.0)
  | p :: q :: rest, t, j =>
    if t ≤ real q.1 then
      line (real p.1) (real q.1) (real (p.2.getD j 0.0)) (real (q.2.getD j 0.0)) t
    else polyline (q :: rest) t j

theorem polyline_head (h : Increasing (p :: samples)) :
    polyline (p :: samples) (real p.1) j = real (p.2.getD j 0.0) := by
  cases samples with
  | nil => rfl
  | cons q rest =>
    have hlt := (List.pairwise_cons.1 h).1 q List.mem_cons_self
    rw [polyline, if_pos hlt.le, line_start]

theorem polyline_tail (h : Increasing (p :: q :: samples)) (ht : real q.1 ≤ t) :
    polyline (p :: q :: samples) t j = polyline (q :: samples) t j := by
  obtain ⟨hp, htail⟩ := List.pairwise_cons.1 h
  rcases ht.eq_or_lt with rfl | hlt
  · rw [polyline, if_pos le_rfl, line_stop (hp q List.mem_cons_self), polyline_head htail]
  · rw [polyline, if_neg hlt.not_ge]

theorem follows_polyline (h : Increasing samples) : Follows samples (polyline samples) := by
  have hvalue {p : Float × List Float} {j : ℕ} {v : Float} (hv : p.2[j]? = some v) :
      p.2.getD j 0.0 = v := by
    rw [List.getD_eq_getElem?_getD, hv, Option.getD_some]
  induction samples with
  | nil => exact ⟨fun p hp => (nomatch hp), fun k p q hp => by simp at hp⟩
  | cons p samples ih =>
    obtain ⟨hp, htail⟩ := List.pairwise_cons.1 h
    obtain ⟨hsample, hline⟩ := ih htail
    constructor
    · intro s hs j v hv
      rcases List.mem_cons.1 hs with rfl | hs
      · rw [polyline_head h, hvalue hv]
      · cases samples with
        | nil => cases hs
        | cons q rest =>
          obtain ⟨k, hk⟩ := List.mem_iff_getElem?.1 hs
          have hle : real q.1 ≤ real s.1 := Increasing.le htail (Nat.zero_le k) rfl hk
          rw [polyline_tail h hle, hsample s hs j v hv]
    · intro k s r hs hr t hlow hup j u v hu hv
      cases samples with
      | nil => simp at hr
      | cons q rest =>
        cases k with
        | zero =>
          obtain rfl := Option.some.inj hs
          obtain rfl := Option.some.inj hr
          rw [polyline, if_pos hup, hvalue hu, hvalue hv]
        | succ k =>
          have hle : real q.1 ≤ real s.1 := Increasing.le htail (Nat.zero_le k) rfl hs
          rw [polyline_tail h (hle.trans hlow)]
          exact hline k s r hs hr t hlow hup j u v hu hv

/-! ### Values at one time -/

/-- Samples of one dimension with finite times and values, in order of time. -/
structure Spaced (n : ℕ) (samples : List (Float × List Float)) : Prop where
  acceptable : Acceptable n samples
  values : ∀ p ∈ samples, ∀ v ∈ p.2, v.isFinite = true
  increasing : Increasing samples

/-- The samples before a time are counted. -/
theorem Spaced.lt_partitionPoint_iff (h : Spaced n samples) {s : Float} (hs : s.isFinite = true)
    {k : ℕ} (hp : samples[k]? = some p) :
    k < BinarySearch.partitionPoint (fun r => r.1 < s) samples.toArray ↔ real p.1 < real s := by
  obtain ⟨hk, -⟩ := List.getElem?_eq_some_iff.1 hp
  have hany {l : ℕ} {r : Float × List Float} (hr : samples[l]? = some r) :
      samples.toArray[l]?.any (fun r => decide (r.1 < s)) = true ↔ real r.1 < real s := by
    rw [List.getElem?_toArray, hr, Option.any_some, decide_eq_true_eq,
      Binary64.lt_iff_real (h.acceptable r (List.mem_of_getElem? hr)).1 hs]
  have hdown : ∀ i j, i ≤ j → j < samples.toArray.size →
      samples.toArray[j]?.any (fun r => decide (r.1 < s)) = true →
      samples.toArray[i]?.any (fun r => decide (r.1 < s)) = true := by
    intro i j hij hj hlt
    rw [List.size_toArray] at hj
    have hi : samples[i]? = some samples[i] := List.getElem?_eq_getElem (by omega)
    have hj : samples[j]? = some samples[j] := List.getElem?_eq_getElem (by omega)
    exact (hany hi).2 ((h.increasing.le hij hi hj).trans_lt ((hany hj).1 hlt))
  obtain ⟨-, hbefore, hafter⟩ := BinarySearch.partitionPoint_spec
    (by rw [List.size_toArray]; omega) hdown
  constructor
  · intro hlt
    exact (hany hp).1 (hbefore k hlt)
  · intro hlt
    by_contra hge
    have hfalse := hafter k (not_lt.1 hge) (by simpa using hk)
    exact Bool.eq_false_iff.1 hfalse ((hany hp).2 hlt)

/-- At the time of a sample the interpolation is the sample. -/
theorem Spaced.interpolate_eq [Elementary ι] (h : Spaced n samples) {s : Float}
    (hs : s.isFinite = true) (hp : p ∈ samples) (hps : real p.1 = real s) :
    interpolate samples.toArray s = .ok (p.2.map (Enclosure.point : Float → ι)) := by
  obtain ⟨k, hk⟩ := List.mem_iff_getElem?.1 hp
  obtain ⟨first, hfirst⟩ : ∃ first, samples[0]? = some first :=
    ⟨_, List.getElem?_eq_getElem (List.length_pos_of_mem hp)⟩
  have hsame : (p.1 == s) = true := (Binary64.beq_iff_real (h.acceptable p hp).1 hs).2 hps
  have hcount : BinarySearch.partitionPoint (fun r => decide (r.1 < s)) samples.toArray = k := by
    refine le_antisymm (not_lt.1 fun hlt => ?_) (not_lt.1 fun hlt => ?_)
    · exact ((h.lt_partitionPoint_iff hs hk).1 hlt).ne hps
    · obtain ⟨hlen, -⟩ := List.getElem?_eq_some_iff.1 hk
      have hr := List.getElem?_eq_getElem (hlt.trans hlen)
      have hbefore := (h.increasing.lt hlt hr hk).trans_eq hps
      exact (lt_irrefl _) ((h.lt_partitionPoint_iff hs hr).2 hbefore)
  simp only [interpolate, hcount, List.getElem?_toArray, hfirst, hk, hsame, if_true]

section Enclosed

variable [Elementary ι] [Membership ℝ ι] [Enclosure.Linear ι] {s : Float} {box : Box ι} {P : ℕ → ℝ}

theorem holds_point {values : List Float} (hvalues : ∀ v ∈ values, v.isFinite = true)
    (hP : ∀ j v, values[j]? = some v → P j = real v) :
    Box.Holds (values.map Enclosure.point : Box ι) P := by
  intro j a ha
  rw [List.getElem?_map, Option.map_eq_some_iff] at ha
  obtain ⟨v, hv, rfl⟩ := ha
  rw [hP j v hv]
  exact Enclosure.Lawful.mem_point (hvalues v (List.mem_of_getElem? hv))

/-- A line is enclosed at a time between its ends. -/
theorem holds_onLine {x y : Float} {as bs : List Float} (hx : x.isFinite = true)
    (hy : y.isFinite = true) (hs : s.isFinite = true) (has : ∀ u ∈ as, u.isFinite = true)
    (hbs : ∀ v ∈ bs, v.isFinite = true) (hlow : real x < real s) (hup : real s < real y)
    (hP : ∀ j u v, as[j]? = some u → bs[j]? = some v →
      P j = line (real x) (real y) (real u) (real v) (real s)) :
    Box.Holds (onLine x y as bs s : Box ι) P := by
  intro j a ha
  obtain ⟨u, v, hu, hv, rfl⟩ := List.getElem?_zipWith_eq_some.1 ha
  have hmem {r : Float} (hr : r.isFinite = true) : real r ∈ (Enclosure.point r : ι) :=
    Enclosure.Lawful.mem_point hr
  have hru := hmem (has u (List.mem_of_getElem? hu))
  have hrv := hmem (hbs v (List.mem_of_getElem? hv))
  have hne : real y - real x ≠ 0 := (sub_pos.2 (hlow.trans hup)).ne'
  have hshare : real s - real x ∈ (Enclosure.point s - Enclosure.point x : ι) :=
    Enclosure.Sound.mem_sub (hmem hs) (hmem hx)
  have hwidth : real y - real x ∈ (Enclosure.point y - Enclosure.point x : ι) :=
    Enclosure.Sound.mem_sub (hmem hy) (hmem hx)
  have hratio := Enclosure.Linear.mem_div hshare hwidth hne
  have hsum := Enclosure.Sound.mem_add hru
    (Enclosure.Sound.mem_mul hratio (Enclosure.Sound.mem_sub hrv hru))
  rw [hP j u v hu hv]
  refine Enclosure.Lawful.mem_inter hsum ?_
  -- the hull of the two values has all values between them
  have hbetween := line_between (hlow.trans hup) (real u) (real v) hlow.le hup.le
  rw [line_start, line_stop (hlow.trans hup)] at hbetween
  rcases hbetween with ⟨hge, hle⟩ | ⟨hge, hle⟩
  · exact Enclosure.Linear.mem_of_between (Enclosure.Lawful.mem_union_left hru)
      (Enclosure.Lawful.mem_union_right hrv) hge hle
  · exact Enclosure.Linear.mem_of_between (Enclosure.Lawful.mem_union_right hrv)
      (Enclosure.Lawful.mem_union_left hru) hge hle

/-- The interpolation at a time that is not before all samples nor after all of them. -/
theorem holds_interpolate (h : Spaced n samples) (hX : Follows samples X) (hs : s.isFinite = true)
    (hlow : ∃ p ∈ samples, real p.1 ≤ real s) (hup : ∃ q ∈ samples, real s ≤ real q.1)
    (hbox : interpolate samples.toArray s = .ok box) : Box.Holds box (X (real s)) := by
  obtain ⟨p, hp, hps⟩ := hlow
  obtain ⟨q, hq, hsq⟩ := hup
  obtain ⟨k, hk⟩ := List.mem_iff_getElem?.1 hp
  obtain ⟨l, hl⟩ := List.mem_iff_getElem?.1 hq
  obtain ⟨first, hfirst⟩ : ∃ first, samples[0]? = some first :=
    ⟨_, List.getElem?_eq_getElem (List.length_pos_of_mem hp)⟩
  have hcount {i : ℕ} {r : Float × List Float} (hr : samples[i]? = some r) :=
    h.lt_partitionPoint_iff hs hr
  unfold interpolate at hbox
  dsimp only at hbox
  generalize BinarySearch.partitionPoint (fun r => r.1 < s) samples.toArray = m at hbox hcount
  have hml : m ≤ l := not_lt.1 fun hlt => ((hcount hl).1 hlt).not_ge hsq
  obtain ⟨after, hafter⟩ : ∃ after, samples[m]? = some after :=
    ⟨_, List.getElem?_eq_getElem (hml.trans_lt (List.getElem?_eq_some_iff.1 hl).1)⟩
  have hfin := (h.acceptable after (List.mem_of_getElem? hafter)).1
  have hge : real s ≤ real after.1 := not_lt.1 fun hlt => (lt_irrefl m) ((hcount hafter).2 hlt)
  rw [List.getElem?_toArray, hfirst, List.getElem?_toArray, List.getElem?_toArray, hafter] at hbox
  dsimp only at hbox
  split_ifs at hbox with hsame hm
  · rw [Binary64.beq_iff_real hfin hs] at hsame
    obtain rfl := Except.ok.inj hbox
    rw [← hsame]
    exact holds_point (h.values after (List.mem_of_getElem? hafter))
      (hX.atSample after (List.mem_of_getElem? hafter))
  all_goals
    rw [Binary64.beq_iff_real hfin hs] at hsame
    have hlt : real s < real after.1 := lt_of_le_of_ne hge (Ne.symm hsame)
    have hkm : k < m := not_le.1 fun hmk =>
      (h.increasing.le hmk hafter hk).not_gt (hps.trans_lt hlt)
  · omega
  · obtain ⟨j, rfl⟩ := Nat.exists_eq_succ_of_ne_zero hm
    obtain ⟨before, hbefore⟩ : ∃ before, samples[j]? = some before :=
      ⟨_, List.getElem?_eq_getElem ((Nat.lt_succ_self j).trans
        (List.getElem?_eq_some_iff.1 hafter).1)⟩
    have hbeforemem := List.mem_of_getElem? hbefore
    rw [Nat.succ_sub_one, hbefore] at hbox
    obtain rfl := Except.ok.inj hbox
    have hbs : real before.1 < real s := (hcount hbefore).1 (Nat.lt_succ_self j)
    exact holds_onLine (h.acceptable before hbeforemem).1 hfin hs (h.values before hbeforemem)
      (h.values after (List.mem_of_getElem? hafter)) hbs hlt
      (hX.between j before after hbefore hafter (real s) hbs.le hlt.le)

/-! ### Values over an interval of time -/

/-- A time between samples is the time of one or between two neighbours. -/
theorem exists_neighbours (h : Increasing samples) (hlow : ∃ p ∈ samples, real p.1 ≤ t)
    (hup : ∃ q ∈ samples, t ≤ real q.1) : (∃ p ∈ samples, real p.1 = t) ∨
      ∃ k p q, samples[k]? = some p ∧ samples[k + 1]? = some q ∧ real p.1 < t ∧ t < real q.1 := by
  induction samples with
  | nil =>
    obtain ⟨p, hp, -⟩ := hlow
    cases hp
  | cons p rest ih =>
    obtain ⟨hp, hrest⟩ := List.pairwise_cons.1 h
    obtain ⟨q, hq, hqt⟩ := hlow
    have hpt : real p.1 ≤ t := by
      rcases List.mem_cons.1 hq with rfl | hq
      · exact hqt
      · exact (hp q hq).le.trans hqt
    rcases hpt.eq_or_lt with heq | hlt
    · exact Or.inl ⟨p, List.mem_cons_self, heq⟩
    · have hup' : ∃ q ∈ rest, t ≤ real q.1 := by
        obtain ⟨q, hq, hle⟩ := hup
        rcases List.mem_cons.1 hq with rfl | hq
        · exact absurd hlt hle.not_gt
        · exact ⟨q, hq, hle⟩
      cases rest with
      | nil =>
        obtain ⟨q, hq, -⟩ := hup'
        cases hq
      | cons r rest =>
        rcases lt_or_ge t (real r.1) with htr | hrt
        · exact Or.inr ⟨0, p, r, rfl, rfl, hlt, htr⟩
        · rcases ih hrest ⟨r, List.mem_cons_self, hrt⟩ hup' with
            ⟨s, hs, heq⟩ | ⟨k, s, s', hs, hs', hlow, hup⟩
          · exact Or.inl ⟨s, List.mem_cons_of_mem p hs, heq⟩
          · exact Or.inr ⟨k + 1, s, s', hs, hs', hlow, hup⟩

theorem mem_takeWhile_of_pairwise {α : Type} {P : α → Bool} {l : List α} {a : α}
    (h : l.Pairwise fun a b => P b = true → P a = true) (ha : a ∈ l) (hP : P a = true) :
    a ∈ l.takeWhile P := by
  induction l with
  | nil => cases ha
  | cons b l ih =>
    obtain ⟨hb, hl⟩ := List.pairwise_cons.1 h
    rcases List.mem_cons.1 ha with rfl | ha
    · rw [List.takeWhile_cons_of_pos hP]
      exact List.mem_cons_self
    · rw [List.takeWhile_cons_of_pos (hb a ha hP)]
      exact List.mem_cons_of_mem b (ih hl ha)

theorem Spaced.mem_inside (h : Spaced n samples) {T : Interval} (hlb : T.lb.isFinite = true)
    (hub : T.ub.isFinite = true) (hp : p ∈ samples) (hlow : real T.lb ≤ real p.1)
    (hup : real p.1 ≤ real T.ub) : p ∈ inside samples.toArray T := by
  have hle {r : Float × List Float} (hr : r ∈ samples) :
      decide (r.1 ≤ T.ub) = true ↔ real r.1 ≤ real T.ub := by
    rw [decide_eq_true_eq, Binary64.le_iff_real (h.acceptable r hr).1 hub]
  obtain ⟨k, hk⟩ := List.mem_iff_getElem?.1 hp
  have hcount := not_lt.1 fun hlt => ((h.lt_partitionPoint_iff hlb hk).1 hlt).not_ge hlow
  unfold inside
  dsimp only
  refine mem_takeWhile_of_pairwise ?_ ?_ ((hle hp).2 hup)
  · refine (h.increasing.sublist (List.drop_sublist _ _)).imp_of_mem fun ha hb hab hbT => ?_
    refine (hle (List.mem_of_mem_drop ha)).2 (hab.le.trans ?_)
    exact (hle (List.mem_of_mem_drop hb)).1 hbT
  · obtain ⟨i, rfl⟩ := Nat.exists_eq_add_of_le hcount
    exact List.mem_of_getElem? (List.getElem?_drop.trans hk)

theorem holds_joinSamples_of_box (h : Box.Holds box P) :
    Box.Holds (joinSamples box points) P := by
  induction points generalizing box with
  | nil => exact h
  | cons p points ih =>
    rw [joinSamples_cons]
    refine ih fun j a ha => ?_
    obtain ⟨b, v, hb, -, rfl⟩ := List.getElem?_zipWith_eq_some.1 ha
    exact Enclosure.Lawful.mem_union_left (h j b hb)

theorem holds_joinSamples_of_mem (hp : p ∈ points) (hvalues : ∀ v ∈ p.2, v.isFinite = true)
    (hP : ∀ j v, p.2[j]? = some v → P j = real v) : Box.Holds (joinSamples box points) P := by
  induction points generalizing box with
  | nil => cases hp
  | cons q points ih =>
    rw [joinSamples_cons]
    rcases List.mem_cons.1 hp with rfl | hp
    · refine holds_joinSamples_of_box fun j a ha => ?_
      obtain ⟨b, v, -, hv, rfl⟩ := List.getElem?_zipWith_eq_some.1 ha
      rw [hP j v hv]
      exact Enclosure.Lawful.mem_union_right
        (Enclosure.Lawful.mem_point (hvalues v (List.mem_of_getElem? hv)))
    · exact ih hp

/-- A box with the values at two times between neighbours has those between the two. -/
theorem Follows.holds_between {k : ℕ} {a b : ℝ} (hX : Follows samples X) (h : Increasing samples)
    (hp : samples[k]? = some p) (hq : samples[k + 1]? = some q) (hplen : p.2.length = box.length)
    (hqlen : q.2.length = box.length) (hpa : real p.1 ≤ a) (hat : a ≤ t) (htb : t ≤ b)
    (hbq : b ≤ real q.1) (ha : Box.Holds box (X a)) (hb : Box.Holds box (X b)) :
    Box.Holds box (X t) := by
  intro j c hc
  obtain ⟨hj, -⟩ := List.getElem?_eq_some_iff.1 hc
  have hu : p.2[j]? = some p.2[j] := List.getElem?_eq_getElem (hplen ▸ hj)
  have hv : q.2[j]? = some q.2[j] := List.getElem?_eq_getElem (hqlen ▸ hj)
  have hline {r : ℝ} (hlow : real p.1 ≤ r) (hup : r ≤ real q.1) :=
    hX.between k p q hp hq r hlow hup j _ _ hu hv
  have hXa := ha j c hc
  have hXb := hb j c hc
  rw [hline hpa (hat.trans (htb.trans hbq))] at hXa
  rw [hline (hpa.trans (hat.trans htb)) hbq] at hXb
  rw [hline (hpa.trans hat) (htb.trans hbq)]
  have hlt := h.lt (Nat.lt_succ_self k) hp hq
  rcases line_between hlt (real p.2[j]) (real q.2[j]) hat htb with ⟨hge, hle⟩ | ⟨hge, hle⟩
  · exact Enclosure.Linear.mem_of_between hXa hXb hge hle
  · exact Enclosure.Linear.mem_of_between hXb hXa hge hle

/-- A box with the values at two times and at every sample between them has all values between. -/
theorem Spaced.holds_of_knots (h : Spaced n samples) (hX : Follows samples X)
    (hlen : box.length = n) {start stop : ℝ} (hstart : Box.Holds box (X start))
    (hstop : Box.Holds box (X stop))
    (hknots : ∀ p ∈ samples, start ≤ real p.1 → real p.1 ≤ stop → Box.Holds box (X (real p.1)))
    (hlow : ∃ p ∈ samples, real p.1 ≤ start) (hup : ∃ q ∈ samples, stop ≤ real q.1)
    (ht : start ≤ t ∧ t ≤ stop) : Box.Holds box (X t) := by
  rcases exists_neighbours h.increasing (hlow.imp fun p hp => ⟨hp.1, hp.2.trans ht.1⟩)
    (hup.imp fun q hq => ⟨hq.1, ht.2.trans hq.2⟩) with
    ⟨p, hp, rfl⟩ | ⟨k, p, q, hp, hq, hpt, htq⟩
  · exact hknots p hp ht.1 ht.2
  · have hpmem := List.mem_of_getElem? hp
    have hqmem := List.mem_of_getElem? hq
    -- where a neighbour is beyond an end, the end takes its place
    obtain ⟨a, hpa, hat, ha⟩ : ∃ a, real p.1 ≤ a ∧ a ≤ t ∧ Box.Holds box (X a) := by
      rcases le_total start (real p.1) with hin | hout
      · exact ⟨_, le_rfl, hpt.le, hknots p hpmem hin (hpt.le.trans ht.2)⟩
      · exact ⟨_, hout, ht.1, hstart⟩
    obtain ⟨b, hbq, htb, hb⟩ : ∃ b, b ≤ real q.1 ∧ t ≤ b ∧ Box.Holds box (X b) := by
      rcases le_total (real q.1) stop with hin | hout
      · exact ⟨_, le_rfl, htq.le, hknots q hqmem (ht.1.trans htq.le) hin⟩
      · exact ⟨_, hout, ht.2, hstop⟩
    have hpart {r : Float × List Float} (hr : r ∈ samples) : r.2.length = box.length :=
      (h.acceptable r hr).2.trans hlen.symm
    exact hX.holds_between h.increasing hp hq (hpart hpmem) (hpart hqmem) hpa hat htb hbq ha hb

/-- The enclosure over an interval that is not before all samples nor after all of them. -/
theorem holds_evalSamples (h : Spaced n samples) (hX : Follows samples X) {T : Interval}
    (hlb : T.lb.isFinite = true) (hub : T.ub.isFinite = true)
    (hlow : ∃ p ∈ samples, real p.1 ≤ real T.lb) (hup : ∃ q ∈ samples, real T.ub ≤ real q.1)
    (hbox : evalSamples samples.toArray T = .ok box) (hlen : box.length = n)
    (ht : real T.lb ≤ t ∧ t ≤ real T.ub) : Box.Holds box (X t) := by
  have hle := ht.1.trans ht.2
  have hsome : samples.toArray ≠ #[] := by
    obtain ⟨p, hp, -⟩ := hlow
    exact fun hempty => List.ne_nil_of_mem hp (by simpa using hempty)
  have hlengths : ∀ p ∈ samples.toArray, p.2.length = n := fun p hp =>
    (h.acceptable p (List.mem_toArray.1 hp)).2
  obtain ⟨left, hleft, -⟩ := exists_interpolate (ι := ι) (t := T.lb) hsome hlengths
  obtain ⟨right, hright, -⟩ := exists_interpolate (ι := ι) (t := T.ub) hsome hlengths
  have hstart : Box.Holds left (X (real T.lb)) := holds_interpolate h hX hlb hlow
    (hup.imp fun q hq => ⟨hq.1, hle.trans hq.2⟩) hleft
  have hstop : Box.Holds right (X (real T.ub)) := holds_interpolate h hX hub
    (hlow.imp fun p hp => ⟨hp.1, hp.2.trans hle⟩) hup hright
  rw [evalSamples_eq hleft hright] at hbox
  cases hdegenerate : T.isDegenerate with
  | true =>
    rw [if_pos hdegenerate] at hbox
    obtain rfl := Except.ok.inj hbox
    have hne : T.isEmpty = false :=
      decide_eq_false (Binary64.not_lt_of_le ((Binary64.le_iff_real hlb hub).2 hle))
    rw [Interval.isDegenerate, hne, Bool.false_or, Binary64.beq_iff_real hlb hub] at hdegenerate
    rwa [le_antisymm (ht.2.trans hdegenerate.ge) ht.1]
  | false =>
    rw [if_neg (Bool.eq_false_iff.1 hdegenerate)] at hbox
    obtain rfl := Except.ok.inj hbox
    refine h.holds_of_knots hX hlen ?_ ?_ (fun p hp hin hin' => ?_) hlow hup ht
    · exact holds_joinSamples_of_box (Box.holds_zipWith fun j a b ha hb =>
        Enclosure.Lawful.mem_union_left (hstart j a ha))
    · exact holds_joinSamples_of_box (Box.holds_zipWith fun j a b ha hb =>
        Enclosure.Lawful.mem_union_right (hstop j b hb))
    · exact holds_joinSamples_of_mem (h.mem_inside hlb hub hp hin hin') (h.values p hp)
        (hX.atSample p hp)

end Enclosed

/-! ### Trajectories through samples -/

theorem spaced_inOrder (h : Acceptable n points)
    (hvalues : ∀ p ∈ points, ∀ v ∈ p.2, v.isFinite = true) : Spaced n (inOrder points) :=
  ⟨fun p hp => h p (mem_of_mem_inOrder hp), fun p hp => hvalues p (mem_of_mem_inOrder hp),
    increasing_inOrder h⟩

/-- The domain goes from the first sample to the last one. -/
theorem exists_domain_through (h : Acceptable n points) (hne : points ≠ []) :
    ∃ first ∈ inOrder points, ∃ last ∈ inOrder points,
      (through n points : Trajectory ι).domain = ⟨first.1, last.1⟩ ∧
        ∀ p ∈ inOrder points, real first.1 ≤ real p.1 ∧ real p.1 ≤ real last.1 := by
  have hincreasing := increasing_inOrder h
  have hpos := List.length_pos_iff.2 (inOrder_ne_nil hne)
  have hfirst : (inOrder points)[0]? = some (inOrder points)[0] := List.getElem?_eq_getElem hpos
  have hlast : (inOrder points)[(inOrder points).length - 1]? =
      some (inOrder points)[(inOrder points).length - 1] := List.getElem?_eq_getElem (by omega)
  have hbounds : ∀ p ∈ inOrder points, real (inOrder points)[0].1 ≤ real p.1 ∧
      real p.1 ≤ real (inOrder points)[(inOrder points).length - 1].1 := by
    intro p hp
    obtain ⟨k, hk⟩ := List.mem_iff_getElem?.1 hp
    obtain ⟨hlt, -⟩ := List.getElem?_eq_some_iff.1 hk
    exact ⟨hincreasing.le (Nat.zero_le k) hfirst hk, hincreasing.le (by omega) hk hlast⟩
  have hfirstmem := List.mem_of_getElem? hfirst
  have hlastmem := List.mem_of_getElem? hlast
  have hfin := (h _ (mem_of_mem_inOrder hfirstmem)).1
  have hfin' := (h _ (mem_of_mem_inOrder hlastmem)).1
  refine ⟨_, hfirstmem, _, hlastmem, ?_, hbounds⟩
  rw [through, List.head?_eq_getElem?, List.getLast?_eq_getElem?, hfirst, hlast]
  exact Interval.ofBounds_eq ((Binary64.isLower_iff_of_isFinite hfin).2 le_rfl)
    ((Binary64.isUpper_iff_of_isFinite hfin').2 (hbounds _ hfirstmem).2)

/-- The times of the domain are those between samples. -/
theorem mem_domain_through (h : Acceptable n points) (hne : points ≠ []) :
    t ∈ (through n points : Trajectory ι).domain ↔
      (∃ p ∈ points, real p.1 ≤ t) ∧ ∃ q ∈ points, t ≤ real q.1 := by
  obtain ⟨first, hfirst, last, hlast, hdomain, hbounds⟩ := exists_domain_through (ι := ι) h hne
  have hfirstmem := mem_of_mem_inOrder hfirst
  have hlastmem := mem_of_mem_inOrder hlast
  rw [hdomain, Interval.mem_iff_of_isFinite (h first hfirstmem).1 (h last hlastmem).1]
  constructor
  · rintro ⟨hlow, hup⟩
    exact ⟨⟨first, hfirstmem, hlow⟩, last, hlastmem, hup⟩
  · rintro ⟨⟨p, hp, hpt⟩, q, hq, htq⟩
    obtain ⟨p', hp', heq⟩ := exists_mem_inOrder h hp
    obtain ⟨q', hq', heq'⟩ := exists_mem_inOrder h hq
    rw [← heq] at hpt
    rw [← heq'] at htq
    exact ⟨(hbounds p' hp').1.trans hpt, htq.trans (hbounds q' hq').2⟩

section Eval

variable {T : Interval}

/-- What is asked for in the domain has finite bounds between samples. -/
theorem exists_between_of_inter (h : Acceptable n points) (hne : points ≠ [])
    (hT : (T ∩ (through n points : Trajectory ι).domain).isEmpty = false) :
    ∃ T' : Interval, T ∩ (through n points : Trajectory ι).domain = T' ∧ T'.lb.isFinite = true ∧
      T'.ub.isFinite = true ∧ real T'.lb ≤ real T'.ub ∧
      (∃ p ∈ inOrder points, real p.1 ≤ real T'.lb) ∧
      ∃ q ∈ inOrder points, real T'.ub ≤ real q.1 := by
  obtain ⟨first, hfirst, last, hlast, hdomain, -⟩ := exists_domain_through (ι := ι) h hne
  have hfin := (h first (mem_of_mem_inOrder hfirst)).1
  have hfin' := (h last (mem_of_mem_inOrder hlast)).1
  rw [hdomain] at hT ⊢
  rcases Interval.inter_cases T ⟨first.1, last.1⟩ with hempty | ⟨hle, heq⟩
  · rw [hempty] at hT
    contradiction
  · have hlow := Binary64.le_max_right (x := T.lb) (Binary64.isNaN_of_isFinite hfin)
    have hup := Binary64.min_le_right (x := T.ub) (Binary64.isNaN_of_isFinite hfin')
    have hlb := Binary64.isFinite_of_between hfin hfin' hlow (Binary64.le_trans hle hup)
    have hub := Binary64.isFinite_of_between hfin hfin' (Binary64.le_trans hlow hle) hup
    refine ⟨_, heq, hlb, hub, (Binary64.le_iff_real hlb hub).1 hle, ⟨first, hfirst, ?_⟩,
      last, hlast, ?_⟩
    · exact (Binary64.le_iff_real hfin hlb).1 hlow
    · exact (Binary64.le_iff_real hub hfin').1 hup

variable [Elementary ι] {box : Box ι}

theorem holds_eval_through [Membership ℝ ι] [Enclosure.Linear ι] (h : Acceptable n points)
    (hne : points ≠ []) (hvalues : ∀ p ∈ points, ∀ v ∈ p.2, v.isFinite = true)
    (hX : Interpolates points X) (hbox : (through n points : Trajectory ι).eval T = .ok box)
    (hlen : box.length = n) (htT : t ∈ T) (ht : t ∈ (through n points : Trajectory ι).domain) :
    Box.Holds box (X t) := by
  have hmem := Interval.mem_inter htT ht
  have hne' := Interval.isEmpty_of_mem hmem
  obtain ⟨T', heq, hlb, hub, -, hlow, hup⟩ := exists_between_of_inter (ι := ι) h hne hne'
  unfold eval at hbox
  dsimp only at hbox
  rw [if_neg (Bool.eq_false_iff.1 hne'), heq] at hbox
  rw [heq] at hmem
  exact holds_evalSamples (spaced_inOrder h hvalues) ((interpolates_iff h).1 hX) hlb hub hlow hup
    hbox hlen ((Interval.mem_iff_of_isFinite hlb hub).1 hmem)

/-- An interval without a time of the domain has empty enclosures. -/
theorem eval_through_of_disjoint (h : Acceptable n points) (hne : points ≠ []) (hT : T.Numeric)
    (hdisjoint : ∀ t : ℝ, t ∈ T → t ∉ (through n points : Trajectory ι).domain) :
    (through n points : Trajectory ι).eval T = .ok (List.replicate n Enclosure.empty) := by
  have hempty : (T ∩ (through n points : Trajectory ι).domain).isEmpty = true := by
    by_contra hnot
    obtain ⟨T', heq, hlb, hub, hle, -⟩ := exists_between_of_inter (ι := ι) h hne
      (Bool.eq_false_iff.2 hnot)
    have hmem : real T'.lb ∈ T ∩ (through n points : Trajectory ι).domain :=
      heq ▸ (Interval.mem_iff_of_isFinite hlb hub).2 ⟨le_rfl, hle⟩
    exact hdisjoint _ (Interval.mem_of_isSubset (Interval.inter_isSubset_of_left hT.isSubset_self)
      hmem) (Interval.mem_of_isSubset (Interval.inter_isSubset_of_right
        (Interval.proper_ofBounds ..).numeric.isSubset_self) hmem)
  exact if_pos hempty

/-- At the time of a sample that is kept, the enclosure is the sample. -/
theorem eval_through_at_sample (h : Acceptable n points)
    (hvalues : ∀ p ∈ points, ∀ v ∈ p.2, v.isFinite = true) (hp : Kept points p) {s : Float}
    (hs : s.isFinite = true) (hps : real p.1 = real s) :
    (through n points : Trajectory ι).eval (Interval.point s) =
      .ok (p.2.map Enclosure.point) := by
  have hspaced := spaced_inOrder h hvalues
  have hmem : real s ∈ Interval.point s ∩ (through n points : Trajectory ι).domain := by
    refine Interval.mem_inter (Interval.mem_point hs) ?_
    exact (mem_domain_through h (List.ne_nil_of_mem hp.1.mem)).2
      ⟨⟨p, hp.1.mem, hps.le⟩, p, hp.1.mem, hps.ge⟩
  have hne := Interval.isEmpty_of_mem hmem
  obtain ⟨T', heq, hlb, hub, hle, -⟩ := exists_between_of_inter (ι := ι) h
    (List.ne_nil_of_mem hp.1.mem) hne
  rw [heq] at hmem
  have hpart : T'.isSubset (Interval.point s) = true :=
    heq ▸ Interval.inter_isSubset_of_left (Interval.numeric_ofBounds s s).isSubset_self
  have honly {r : ℝ} (hr : r ∈ T') : r = real s :=
    (Interval.mem_point_iff.1 (Interval.mem_of_isSubset hpart hr)).2.symm
  have hstart := honly ((Interval.mem_iff_of_isFinite hlb hub).2 ⟨le_rfl, hle⟩)
  have hstop := honly ((Interval.mem_iff_of_isFinite hlb hub).2 ⟨hle, le_rfl⟩)
  have hdegenerate : T'.isDegenerate = true := by
    rw [Interval.isDegenerate, (Binary64.beq_iff_real hlb hub).2 (hstart.trans hstop.symm),
      Bool.or_true]
  have hmember := (mem_inOrder_iff h).2 hp
  unfold eval
  dsimp only
  rw [if_neg (Bool.eq_false_iff.1 hne), heq]
  change evalSamples (inOrder points).toArray T' = _
  rw [evalSamples_eq (hspaced.interpolate_eq hlb hmember (hps.trans hstart.symm))
    (hspaced.interpolate_eq hub hmember (hps.trans hstop.symm)), if_pos hdegenerate]

end Eval

/-- Accepted samples with finite values are interpolated, and the enclosure over an interval has
all values of the interpolation at the times of the interval that are between samples. It is empty
in every component if there are none. -/
theorem eval_encloses_interpolation [Elementary ι] [Membership ℝ ι] [Enclosure.Linear ι]
    {x : Trajectory ι} (h : ofSamples points = .ok x)
    (hvalues : ∀ p ∈ points, ∀ v ∈ p.2, v.isFinite = true) :
    (∃ X, Interpolates points X) ∧ (∀ p ∈ points, p.2.length = x.dimension) ∧
      (∀ t : ℝ, t ∈ x.domain ↔ (∃ p ∈ points, real p.1 ≤ t) ∧ ∃ q ∈ points, t ≤ real q.1) ∧
      ∀ T : Interval, ∃ box, x.eval T = .ok box ∧ box.length = x.dimension ∧
        (∀ X, Interpolates points X → ∀ t : ℝ, t ∈ T → t ∈ x.domain → Box.Holds box (X t)) ∧
        (T.Numeric → (∀ t : ℝ, t ∈ T → t ∉ x.domain) →
          box = List.replicate x.dimension Enclosure.empty) := by
  obtain ⟨hne, n, -, hpoints, rfl⟩ := ofSamples_eq_ok.1 h
  have hsampled : Sampled (through n points : Trajectory ι) _ := sampled_through hpoints
  refine ⟨⟨_, (interpolates_iff hpoints).2 (follows_polyline (increasing_inOrder hpoints))⟩,
    fun p hp => (hpoints p hp).2, fun t => mem_domain_through hpoints hne, fun T => ?_⟩
  obtain ⟨box, hbox, hlen⟩ := hsampled.exists_eval (T := T) (Or.inl fun hempty =>
    inOrder_ne_nil hne (by simpa using hempty))
  refine ⟨box, hbox, hlen, fun X hX t htT ht => ?_, fun hT hdisjoint => ?_⟩
  · exact holds_eval_through hpoints hne hvalues hX hbox hlen htT ht
  · exact Except.ok.inj (hbox.symm.trans (eval_through_of_disjoint hpoints hne hT hdisjoint))

/-! ### Two samples -/

/-- Intervals with the whole line for a result that would miss a real. -/
abbrev Cautious : Type := WithQuotient .cautious (Operators.guarded (· / ·) (· / ·))

theorem linear_cautious : Enclosure.Linear Cautious :=
  WithQuotient.linear Operators.sound_cautious fun hr hs _ => Operators.mem_guarded hr hs

/-- The middle of the line from zero at the time 0 to one at the time 1. -/
theorem eval_encloses_interpolation_middle :
    ∃ x : Trajectory Cautious, ofSamples [(0.0, [0.0]), (1.0, [1.0])] = .ok x ∧
      ∃ box, x.eval (Interval.point 0.5) = .ok box ∧ ∃ a, box[0]? = some a ∧ (1 / 2 : ℝ) ∈ a := by
  have := linear_cautious
  have hpoints : Acceptable 1 [(0.0, [0.0]), (1.0, [1.0])] :=
    acceptable_pair ⟨rfl, rfl⟩ ⟨rfl, rfl⟩
  have h : ofSamples [(0.0, [0.0]), (1.0, [1.0])] = .ok (through (ι := Cautious) 1 _) :=
    ofSamples_eq_ok.2 ⟨List.cons_ne_nil _ _, 1, Nat.one_pos, hpoints, rfl⟩
  obtain ⟨⟨X, hX⟩, -, hdomain, hbox⟩ := eval_encloses_interpolation h (by
    rw [List.forall_mem_cons, List.forall_mem_singleton (a := (1.0, [1.0]))]
    exact ⟨List.forall_mem_singleton.2 rfl, List.forall_mem_singleton.2 rfl⟩)
  have hin : (1 / 2 : ℝ) ∈ (through (ι := Cautious) 1 [(0.0, [0.0]), (1.0, [1.0])]).domain := by
    refine (hdomain _).2
      ⟨⟨_, List.mem_cons_self, ?_⟩, _, List.mem_cons_of_mem _ List.mem_cons_self, ?_⟩
    · norm_num [Binary64.real_zero]
    · norm_num [Binary64.real_one]
  have hfollows := (interpolates_iff hpoints).1 hX
  rw [inOrder_two] at hfollows
  have hvalue : X (1 / 2) 0 = 1 / 2 := by
    rw [hfollows.between 0 _ _ rfl rfl (1 / 2) (by norm_num [Binary64.real_zero])
      (by norm_num [Binary64.real_one]) 0 _ _ rfl rfl]
    norm_num [line, Binary64.real_zero, Binary64.real_one]
  obtain ⟨box, heval, hlen, hholds, -⟩ := hbox (Interval.point 0.5)
  refine ⟨_, h, box, heval, ?_⟩
  have hhalf : (1 / 2 : ℝ) ∈ Interval.point 0.5 := Binary64.real_half ▸ Interval.mem_point rfl
  have hpos : 0 < box.length := hlen ▸ Nat.one_pos
  have ha : box[0]? = some box[0] := List.getElem?_eq_getElem hpos
  exact ⟨_, ha, hvalue ▸ hholds X hX _ hhalf hin 0 _ ha⟩

/-- A sample at the time zero gives way to a later one at the time `-0`. -/
theorem later_sample_kept : ∃ x : Trajectory Cautious,
    ofSamples [(0.0, [1.0]), (-0.0, [2.0])] = .ok x ∧ real (-0.0) = real 0.0 ∧
      x.eval (Interval.point 0.0) = .ok [Enclosure.point 2.0] ∧
      real 1.0 ∉ (Enclosure.point 2.0 : Cautious) := by
  have hpoints : Acceptable 1 [(0.0, [1.0]), (-0.0, [2.0])] :=
    acceptable_pair ⟨rfl, rfl⟩ ⟨rfl, rfl⟩
  have hzeros : (0.0 : Float) ≠ -0.0 := by decide +kernel
  have hkept : Kept [(0.0, [1.0]), (-0.0, [2.0])] (-0.0, [2.0]) :=
    ⟨⟨[(0.0, [1.0])], [], rfl, List.forall_mem_singleton.2 hzeros⟩, fun _ _ _ => hzeros.symm⟩
  refine ⟨_, ofSamples_eq_ok.2 ⟨List.cons_ne_nil _ _, 1, Nat.one_pos, hpoints, rfl⟩, rfl, ?_, ?_⟩
  · refine eval_through_at_sample hpoints ?_ hkept rfl rfl
    rw [List.forall_mem_cons, List.forall_mem_singleton (a := (-0.0, [2.0]))]
    exact ⟨List.forall_mem_singleton.2 rfl, List.forall_mem_singleton.2 rfl⟩
  · intro h
    have hle : real 2.0 ≤ real 1.0 := ((Interval.mem_iff_of_isFinite rfl rfl).1 h).1
    rw [Binary64.real_one, Binary64.real_two] at hle
    norm_num at hle

end Trajectory

end FlowTube
