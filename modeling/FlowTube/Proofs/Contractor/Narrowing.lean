import FlowTube.Proofs.Contractor.Regular
import FlowTube.Proofs.TubeVector.Within

/-! Contractions only narrow. Whatever a contractor writes into a slice is an intersection with
what was there, so every codomain and every gate stays inside the one before, and so does the value
at every time. A further breakpoint changes no value, so this is also true of a Picard step that
cuts slices.

The flags of contractions are exact. Each write reports whether one of its three intervals is not
the same as before, and reports are joined over slices, sweeps and components. A write cannot undo
an earlier one: where an interval lies between two that are the same, it is the same as well. An
empty interval needs some care, as its bounds may be any two numbers in the wrong order; but an
intersection has the bounds of the one empty interval then, and keeps them from there on. -/

namespace FlowTube

/-! ### Intervals -/

namespace Interval

variable {a b c : Interval}

/-- A part of an interval. Of an empty one it is the interval itself or the canonical one. -/
structure Narrows (b a : Interval) : Prop where
  isSubset : b.isSubset a = true
  empty : a.isEmpty = true → b = a ∨ b = Interval.empty

theorem Numeric.narrows (h : a.Numeric) : a.Narrows a := ⟨h.isSubset_self, fun _ => Or.inl rfl⟩

theorem Narrows.numeric (h : b.Narrows a) : b.Numeric := numeric_of_isSubset h.isSubset

theorem Narrows.trans (hcb : c.Narrows b) (hba : b.Narrows a) : c.Narrows a where
  isSubset := isSubset_trans hcb.isSubset hba.isSubset
  empty ha := by
    rcases hba.empty ha with rfl | rfl
    · exact hcb.empty ha
    · exact Or.inr (or_self_iff.1 (hcb.empty rfl))

theorem Narrows.eq_empty (h : b.Narrows Interval.empty) : b = Interval.empty :=
  or_self_iff.1 (h.empty rfl)

theorem Narrows.inter (h : b.Narrows a) (c : Interval) : (b ∩ c).Narrows a where
  isSubset := inter_isSubset_of_left h.isSubset
  empty ha :=
    Or.inr (inter_of_isEmpty_left (of_decide_eq_true (isEmpty_of_isSubset h.isSubset ha)))

/-- What lies between two intervals with equal bounds has these bounds too. -/
theorem Narrows.beq_iff (hcb : c.Narrows b) (hba : b.Narrows a) :
    (c == a) = true ↔ (c == b) = true ∧ (b == a) = true := by
  constructor
  · intro h
    have hac := isSubset_of_beq h
    cases ha : a.isEmpty with
    | true =>
      rcases hba.empty ha with rfl | rfl
      · exact ⟨h, hba.numeric.beq_self⟩
      · rw [hcb.eq_empty] at h ⊢
        exact ⟨rfl, h⟩
    | false =>
      have hfull {d : Interval} (hd : a.isSubset d = true) : d.isEmpty = false :=
        Bool.eq_false_iff.2 fun hempty =>
          Bool.eq_false_iff.1 ha (isEmpty_of_isSubset hd hempty)
      have hab := isSubset_trans hac hcb.isSubset
      exact ⟨beq_of_isSubset (hfull hac) hcb.isSubset (isSubset_trans hba.isSubset hac),
        beq_of_isSubset (hfull hab) hba.isSubset hab⟩
  · intro h
    exact beq_trans h.1 h.2

end Interval

/-! ### Tubes -/

namespace Tube

variable {x y z : Tube Interval} {i k p q : ℕ} {a b c : Interval}

/-- Numbers as bounds of all codomains and gates. -/
structure Numeric (x : Tube Interval) : Prop where
  codomain : ∀ i, (x.codomain i).Numeric
  gate : ∀ k, (x.gate k).Numeric

/-- Every codomain and every gate narrows the one before. -/
structure Narrows (y x : Tube Interval) : Prop where
  codomain : ∀ i, (y.codomain i).Narrows (x.codomain i)
  gate : ∀ k, (y.gate k).Narrows (x.gate k)

/-- Every codomain and every gate has the bounds of the one before. -/
structure Agrees (y x : Tube Interval) : Prop where
  codomain : ∀ i, (y.codomain i == x.codomain i) = true
  gate : ∀ k, (y.gate k == x.gate k) = true

theorem Numeric.narrows (h : x.Numeric) : x.Narrows x :=
  ⟨fun i => (h.codomain i).narrows, fun k => (h.gate k).narrows⟩

theorem Numeric.agrees (h : x.Numeric) : x.Agrees x :=
  ⟨fun i => (h.codomain i).beq_self, fun k => (h.gate k).beq_self⟩

theorem Narrows.numeric (h : y.Narrows x) : y.Numeric :=
  ⟨fun i => (h.codomain i).numeric, fun k => (h.gate k).numeric⟩

theorem Narrows.trans (hzy : z.Narrows y) (hyx : y.Narrows x) : z.Narrows x :=
  ⟨fun i => (hzy.codomain i).trans (hyx.codomain i), fun k => (hzy.gate k).trans (hyx.gate k)⟩

theorem Narrows.agrees_iff (hzy : z.Narrows y) (hyx : y.Narrows x) :
    z.Agrees x ↔ z.Agrees y ∧ y.Agrees x := by
  constructor
  · intro h
    have hcodomain i := ((hzy.codomain i).beq_iff (hyx.codomain i)).1 (h.codomain i)
    have hgate k := ((hzy.gate k).beq_iff (hyx.gate k)).1 (h.gate k)
    exact ⟨⟨fun i => (hcodomain i).1, fun k => (hgate k).1⟩,
      fun i => (hcodomain i).2, fun k => (hgate k).2⟩
  · rintro ⟨hzy', hyx'⟩
    exact ⟨fun i => Interval.beq_trans (hzy'.codomain i) (hyx'.codomain i),
      fun k => Interval.beq_trans (hzy'.gate k) (hyx'.gate k)⟩

/-! ### Slices -/

/-- There is only the canonical empty interval beyond the last gate, so nothing is lost there. -/
theorem gate_putGate_of_narrows (h : a.Narrows (x.gate k)) (m : ℕ) :
    (x.putGate k a).gate m = if m = k then a else x.gate m := by
  rcases Nat.lt_or_ge k x.gates.size with hk | hk
  · exact gate_putGate hk m
  · rw [gate_of_le hk] at h
    rw [putGate_of_le hk]
    split_ifs with hmk
    · rw [hmk, gate_of_le hk, h.eq_empty]
      rfl
    · rfl

theorem codomain_putCodomain_of_narrows (h : c.Narrows (x.codomain i)) (m : ℕ) :
    (x.putCodomain i c).codomain m = if m = i then c else x.codomain m := by
  rcases Nat.lt_or_ge m x.sliceCount with hm | hm
  · exact codomain_putCodomain hm
  · have hcount : (x.putCodomain i c).sliceCount = x.sliceCount := Array.size_setIfInBounds
    rw [codomain_of_le (hcount.trans_le hm), codomain_of_le hm]
    split_ifs with hmi
    · rw [← hmi, codomain_of_le hm] at h
      exact h.eq_empty.symm
    · rfl

/-- Slice `i` written: its codomain and the gates `p` and `q`. -/
def write (x : Tube Interval) (i : ℕ) (c : Interval) (p : ℕ) (a : Interval) (q : ℕ)
    (b : Interval) : Tube Interval :=
  ((x.putGate p a).putGate q b).putCodomain i c

section Write

variable (hpq : q ≠ p) (hc : c.Narrows (x.codomain i)) (ha : a.Narrows (x.gate p))
  (hb : b.Narrows (x.gate q))

include hc in
theorem codomain_write (m : ℕ) :
    (x.write i c p a q b).codomain m = if m = i then c else x.codomain m :=
  codomain_putCodomain_of_narrows (x := (x.putGate p a).putGate q b) hc m

include hpq ha hb in
theorem gate_write (m : ℕ) :
    (x.write i c p a q b).gate m = if m = q then b else if m = p then a else x.gate m := by
  have hq : (x.putGate p a).gate q = x.gate q := by
    rw [gate_putGate_of_narrows ha, if_neg hpq]
  have hwrite : (x.write i c p a q b).gate m = ((x.putGate p a).putGate q b).gate m := rfl
  rw [hwrite, gate_putGate_of_narrows (hq.symm ▸ hb), gate_putGate_of_narrows ha]

include hpq hc ha hb

theorem Numeric.narrows_write (h : x.Numeric) : (x.write i c p a q b).Narrows x where
  codomain m := by
    rw [codomain_write hc]
    split_ifs with hm
    · exact hm ▸ hc
    · exact (h.codomain m).narrows
  gate m := by
    rw [gate_write hpq ha hb]
    split_ifs with hmq hmp
    · exact hmq ▸ hb
    · exact hmp ▸ ha
    · exact (h.gate m).narrows

/-- Nothing changes if the three intervals written are what was there. -/
theorem Numeric.agrees_write_iff (h : x.Numeric) :
    (x.write i c p a q b).Agrees x ↔
      (c == x.codomain i) = true ∧ (a == x.gate p) = true ∧ (b == x.gate q) = true := by
  constructor
  · intro hagrees
    have hcodomain := hagrees.codomain i
    have hfirst := hagrees.gate p
    have hlast := hagrees.gate q
    rw [codomain_write hc, if_pos rfl] at hcodomain
    rw [gate_write hpq ha hb, if_neg hpq.symm, if_pos rfl] at hfirst
    rw [gate_write hpq ha hb, if_pos rfl] at hlast
    exact ⟨hcodomain, hfirst, hlast⟩
  · rintro ⟨hcodomain, hfirst, hlast⟩
    constructor
    · intro m
      rw [codomain_write hc]
      split_ifs with hm
      · exact hm ▸ hcodomain
      · exact (h.codomain m).beq_self
    · intro m
      rw [gate_write hpq ha hb]
      split_ifs with hmq hmp
      · exact hmq ▸ hlast
      · exact hmp ▸ hfirst
      · exact (h.gate m).beq_self

end Write

/-- A tube that narrows another one, with a flag that is not set if nothing changed, and only
then. -/
structure Reports (r : Tube Interval × Bool) (x : Tube Interval) : Prop where
  narrows : r.1.Narrows x
  flag : r.2 = false ↔ r.1.Agrees x

theorem Numeric.reports (h : x.Numeric) : Reports (x, false) x :=
  ⟨h.narrows, iff_of_true rfl h.agrees⟩

theorem Reports.trans {narrowed changed : Bool} (hzy : Reports (z, narrowed) y)
    (hyx : Reports (y, changed) x) : Reports (z, changed || narrowed) x where
  narrows := hzy.narrows.trans hyx.narrows
  flag := by
    rw [hzy.narrows.agrees_iff hyx.narrows, ← hzy.flag, ← hyx.flag, Bool.or_eq_false_iff, and_comm]

theorem entryExit_ne (forward : Bool) (i : ℕ) :
    (TubeVector.entryExit forward i).2 ≠ (TubeVector.entryExit forward i).1 := by
  cases forward <;> simp [TubeVector.entryExit]

/-- A slice is intersected with what the derivative leaves of it. -/
theorem narrows_narrowSlice {codomain first last : Interval} (hcodomain : codomain.Numeric)
    (hfirst : first.Numeric) (hlast : last.Numeric) (t : Interval) (v : Interval) :
    (Derivative.narrowSlice t v codomain first last).1.Narrows codomain ∧
      (Derivative.narrowSlice t v codomain first last).2.1.Narrows first ∧
      (Derivative.narrowSlice t v codomain first last).2.2.Narrows last :=
  ⟨(hcodomain.narrows.inter _).inter _, (hfirst.narrows.inter _).inter _,
    (hlast.narrows.inter _).inter _⟩

theorem Numeric.reports_derivative (h : x.Numeric) (i : ℕ) (v : Interval) :
    Reports (Derivative.contractSlice x i v) x := by
  have hpq : i + 1 ≠ i := Nat.succ_ne_self i
  obtain ⟨hc, ha, hb⟩ := narrows_narrowSlice (h.codomain i) (h.gate i) (h.gate (i + 1))
    (x.sliceDomain i) v
  refine ⟨h.narrows_write hpq hc ha hb, Iff.trans ?_ (h.agrees_write_iff hpq hc ha hb).symm⟩
  simp only [Derivative.contractSlice, bne, Bool.or_eq_false_iff, Bool.not_eq_false']
  exact and_comm

theorem Numeric.reports_integration (h : x.Numeric) (forward : Bool) (i : ℕ)
    (codomain exit : Interval) :
    Reports (Integration.restrictSlice forward i x codomain exit) x := by
  have hpq := entryExit_ne forward i
  have hc := (h.codomain i).narrows.inter codomain
  have ha := (h.gate (TubeVector.entryExit forward i).1).narrows.inter (x.codomain i ∩ codomain)
  have hb := ((h.gate (TubeVector.entryExit forward i).2).narrows.inter exit).inter
    (x.codomain i ∩ codomain)
  refine ⟨h.narrows_write hpq hc ha hb, Iff.trans ?_ (h.agrees_write_iff hpq hc ha hb).symm⟩
  simp only [Integration.restrictSlice, bne, Bool.or_eq_false_iff, Bool.not_eq_false', and_assoc]

theorem Numeric.narrows_picard (h : x.Numeric) (forward : Bool) (i : ℕ)
    (codomain exit : Interval) : (Picard.restrictSlice forward i x codomain exit).Narrows x :=
  h.narrows_write (entryExit_ne forward i) ((h.codomain i).narrows.inter codomain)
    ((h.gate _).narrows.inter _) ((h.gate _).narrows.inter _)

end Tube

open SliceRelation (Holds)

/-! ### Vectors -/

namespace TubeVector

variable {x y z : TubeVector Interval}

/-- Numbers as bounds of all codomains and gates. -/
def Numeric (x : TubeVector Interval) : Prop := ∀ c ∈ x.components, c.Numeric

/-- A vector that narrows another one, with a flag that is not set if nothing changed, and only
then. -/
structure Reports (r : TubeVector Interval × Bool) (x : TubeVector Interval) : Prop where
  narrows : Holds Tube.Narrows r.1 x
  flag : r.2 = false ↔ Holds Tube.Agrees r.1 x

theorem Numeric.reports (h : x.Numeric) : Reports (x, false) x :=
  ⟨List.forall₂_same.2 fun c hc => (h c hc).narrows,
    iff_of_true rfl (List.forall₂_same.2 fun c hc => (h c hc).agrees)⟩

theorem Reports.numeric {r : TubeVector Interval × Bool} (h : Reports r x) : r.1.Numeric := by
  intro c hc
  obtain ⟨j, hj, rfl⟩ := List.mem_iff_getElem.1 hc
  exact ((List.forall₂_iff_get.1 h.narrows).2 j hj (h.narrows.length_eq ▸ hj)).numeric

theorem Reports.trans {narrowed changed : Bool} (hzy : Reports (z, narrowed) y)
    (hyx : Reports (y, changed) x) : Reports (z, changed || narrowed) x := by
  obtain ⟨hlen, hget⟩ := List.forall₂_iff_get.1 hzy.narrows
  obtain ⟨hlen', hget'⟩ := List.forall₂_iff_get.1 hyx.narrows
  have hagree j (hz : j < z.components.length) (hy : j < y.components.length)
      (hx : j < x.components.length) := (hget j hz hy).agrees_iff (hget' j hy hx)
  constructor
  · exact List.forall₂_iff_get.2 ⟨hlen.trans hlen', fun j hj hj' =>
      (hget j hj (hlen ▸ hj)).trans (hget' j (hlen ▸ hj) hj')⟩
  · change (changed || narrowed) = false ↔ _
    rw [Bool.or_eq_false_iff, hzy.flag, hyx.flag, Holds, Holds, Holds, List.forall₂_iff_get,
      List.forall₂_iff_get, List.forall₂_iff_get]
    constructor
    · rintro ⟨⟨-, hyx'⟩, -, hzy'⟩
      refine ⟨hlen.trans hlen', fun j hj hj' => ?_⟩
      have hy : j < y.components.length := hlen ▸ hj
      exact (hagree j hj hy hj').2 ⟨hzy' j hj hy, hyx' j hy hj'⟩
    · rintro ⟨-, hzx⟩
      refine ⟨⟨hlen', fun j hj hj' => ?_⟩, hlen, fun j hj hj' => ?_⟩
      · have hz : j < z.components.length := hlen.symm ▸ hj
        exact ((hagree j hz hj hj').1 (hzx j hz hj')).2
      · have hx : j < x.components.length := hlen' ▸ hj'
        exact ((hagree j hj hj' hx).1 (hzx j hj hx)).1

/-- Components changed one by one, each with a partner at its place and a flag of its own. -/
theorem reports_zipWith {α : Type} {f : Tube Interval → α → Tube Interval × Bool}
    {cs : List (Tube Interval)} (hf : ∀ c ∈ cs, ∀ a, Tube.Reports (f c a) c) {as : List α}
    (hlen : cs.length ≤ as.length) :
    Reports (⟨(List.zipWith f cs as).map (·.1)⟩, (List.zipWith f cs as).any (·.2)) ⟨cs⟩ := by
  induction cs generalizing as with
  | nil => exact ⟨List.Forall₂.nil, iff_of_true rfl List.Forall₂.nil⟩
  | cons c cs ih =>
    cases as with
    | nil => simp at hlen
    | cons a as =>
      have hhead := hf c List.mem_cons_self a
      have htail := ih (fun d hd => hf d (List.mem_cons_of_mem _ hd)) (by simpa using hlen)
      constructor
      · exact List.Forall₂.cons hhead.narrows htail.narrows
      · simp only [Holds, List.zipWith_cons_cons, List.map_cons, List.any_cons,
          List.forall₂_cons, Bool.or_eq_false_iff]
        exact and_congr hhead.flag htail.flag

end TubeVector

/-! ### Sweeps -/

section Sweeps

variable {f : Dynamics Interval} {x y : TubeVector Interval} {changed : Bool}

/-- A sweep joins the reports of its slices. -/
theorem Derivative.reports_sweep {x : Tube Interval} (h : x.Numeric) (v : Tube Interval)
    (slices : List ℕ) : Tube.Reports (sweep v slices x) x := by
  have hfold : ∀ (slices : List ℕ) (r : Tube Interval × Bool), Tube.Reports r x →
      Tube.Reports (slices.foldl (fun (x, changed) i =>
        let (x, b) := contractSlice x i (v.codomain i)
        (x, changed || b)) r) x := by
    intro slices
    induction slices with
    | nil => exact fun r hr => hr
    | cons i slices ih =>
      intro r hr
      exact ih _ ((hr.narrows.numeric.reports_derivative i (v.codomain i)).trans hr)
  exact hfold slices _ h.reports

theorem Derivative.reports_contractTube {x : Tube Interval} (h : x.Numeric)
    (direction : Direction) (v : Tube Interval) :
    Tube.Reports (contractTube direction v x) x := by
  have hforward := reports_sweep h v (List.range x.sliceCount)
  cases direction with
  | forward => exact hforward.narrows.numeric.reports.trans hforward
  | backward => exact (reports_sweep h v _).trans h.reports
  | both => exact (reports_sweep hforward.narrows.numeric v _).trans hforward

theorem Derivative.reports_contract (hx : x.Numeric) {direction : Direction}
    {v : TubeVector Interval} (h : contract direction v x = .ok (y, changed)) :
    TubeVector.Reports (y, changed) x := by
  unfold contract at h
  split_ifs at h with hdim
  rw [← Except.ok.inj h, List.zipWith_comm]
  refine TubeVector.reports_zipWith (fun c hc v => reports_contractTube (hx c hc) direction v) ?_
  have hdim' : x.dimension = v.dimension := by simpa using hdim
  exact hdim'.le

namespace Integration

theorem reports_contractSlice (hx : x.Numeric) {m : Integration} {i : ℕ} {forward : Bool}
    (h : m.contractSlice f x i forward = .ok (y, changed)) :
    TubeVector.Reports (y, changed) x := by
  rw [contractSlice_eq] at h
  dsimp only at h
  split_ifs at h
  · rw [← Except.ok.inj h]
    exact hx.reports
  · obtain ⟨seed, -, h⟩ := bind_eq_ok.1 h
    cases seed with
    | none =>
      rw [← Except.ok.inj h]
      exact hx.reports
    | some seed =>
      obtain ⟨boxes, -, h⟩ := bind_eq_ok.1 h
      unfold restrictAll at h
      split_ifs at h with hlen
      simp only [Bool.or_eq_true, decide_eq_true_iff, not_or, not_lt] at hlen
      rw [← Except.ok.inj h]
      refine TubeVector.reports_zipWith (fun c hc (p : Interval × Interval) =>
        (hx c hc).reports_integration forward i p.1 p.2) ?_
      rw [List.length_zip]
      exact le_min hlen.1 hlen.2

/-- A sweep joins the reports of its slices, also if it ends early. -/
theorem reports_sweep {m : Integration} {forward before : Bool} {slices : List ℕ}
    {x₀ : TubeVector Interval} (hx : TubeVector.Reports (x, before) x₀)
    (h : m.sweep f forward slices before x = .ok (y, changed)) :
    TubeVector.Reports (y, changed) x₀ := by
  induction slices generalizing x before with
  | nil =>
    rw [← Except.ok.inj h]
    exact hx
  | cons i slices ih =>
    rw [sweep] at h
    obtain ⟨⟨z, narrowed⟩, hslice, h⟩ := bind_eq_ok.1 h
    have hz := (reports_contractSlice hx.numeric hslice).trans hx
    dsimp only at h
    split_ifs at h
    · rw [← Except.ok.inj h]
      exact hz
    · exact ih hz h

theorem reports_contract (hx : x.Numeric) {m : Integration} {t0 : Float} {direction : Direction}
    (h : m.contract f t0 direction x = .ok (y, changed)) : TubeVector.Reports (y, changed) x := by
  rw [contract_eq] at h
  cases hstart : startEnd? x t0 with
  | none =>
    rw [hstart] at h
    rw [← Except.ok.inj h]
    exact hx.reports
  | some r =>
    rw [hstart] at h
    obtain ⟨⟨z, narrowed⟩, hforward, h⟩ := bind_eq_ok.1 h
    have hz : TubeVector.Reports (z, narrowed) x := by
      split_ifs at hforward
      · exact reports_sweep hx.reports hforward
      · rw [← Except.ok.inj hforward]
        exact hx.reports
    split_ifs at h
    · exact reports_sweep hz h
    · rw [← Except.ok.inj h]
      exact hz

end Integration

end Sweeps

/-! ### Values -/

namespace Tube

variable {x y z : Tube Interval}

/-- Increasing breakpoints, and numbers as bounds. -/
structure Measured (x : Tube Interval) : Prop extends x.Ordered where
  numeric : x.Numeric

/-- The breakpoints of another tube, and perhaps more of them between the same ends, with every
value in the value there. -/
structure Tightens (y x : Tube Interval) : Prop where
  measured : y.Measured
  domain : y.domain = x.domain
  breakpoints : ∀ t ∈ x.times, t ∈ y.times
  eval : ∀ t, (y.eval t).isSubset (x.eval t) = true

theorem WellFormed.measured (h : x.WellFormed) (hnumeric : ∀ i, (x.codomain i).Numeric) :
    x.Measured :=
  ⟨h.ordered, hnumeric, h.numeric_gate⟩

theorem Tightens.trans (hzy : z.Tightens y) (hyx : y.Tightens x) : z.Tightens x where
  measured := hzy.measured
  domain := hzy.domain.trans hyx.domain
  breakpoints t ht := hzy.breakpoints t (hyx.breakpoints t ht)
  eval t := Interval.isSubset_trans (hzy.eval t) (hyx.eval t)

theorem Measured.tightens_of_narrows (h : x.Measured) (hn : y.Narrows x) (hs : y.SameShape x) :
    y.Tightens x := by
  have hfits : y.Fits := by
    obtain ⟨h1, h2, h3⟩ := h.toFits
    constructor
    · rwa [hs.codomains]
    · rwa [hs.codomains, hs.times]
    · rwa [hs.codomains, hs.gates]
  refine ⟨⟨⟨hfits, ?_⟩, hn.numeric⟩, ?_, fun t ht => hs.times ▸ ht, ?_⟩
  · rw [hs.times]
    exact h.increasing
  · simp only [domain, time, hs.times]
  · exact eval_isSubset_of_parts hfits h.toFits hs.times (fun i => (hn.codomain i).isSubset)
      fun k => (hn.gate k).isSubset

theorem Measured.sample (h : x.Measured) (t : Float) : (x.sample t).1.Measured := by
  refine ⟨h.toOrdered.sample t, ?_⟩
  rcases sample_eq h.toOrdered t with ⟨heq, -⟩ | ⟨i, hi, -, -, -, heq⟩
  · rw [heq]
    exact h.numeric
  · rw [heq]
    constructor
    · intro k
      rw [codomain_splitSlice hi]
      split_ifs <;> exact h.numeric.codomain _
    · intro k
      rw [gate_splitSlice h.toFits hi]
      split_ifs
      · exact h.numeric.gate _
      · exact h.numeric.codomain _
      · exact h.numeric.gate _

theorem Measured.tightens_sample (h : x.Measured) (t : Float) : (x.sample t).1.Tightens x where
  measured := h.sample t
  domain := h.toOrdered.domain_sample t
  breakpoints _ hs := h.toOrdered.mem_times_sample t hs
  eval s := by
    have hself := (h.tightens_of_narrows h.numeric.narrows (SameShape.refl x)).eval s
    rwa [h.toOrdered.eval_sample t s]

/-- Whatever contractions write, leaves parts of the values. -/
theorem sliceRelation_tightens :
    SliceRelation fun y x : Tube Interval => x.Measured → y.Tightens x where
  refl x hx := hx.tightens_of_narrows hx.numeric.narrows (SameShape.refl x)
  trans hzy hyx hx := (hzy (hyx hx).measured).trans (hyx hx)
  derivative x i v hx := hx.tightens_of_narrows (hx.numeric.reports_derivative i v).narrows
    (sliceRelation_sameShape.derivative x i v)
  integration forward i x codomain exit hx := hx.tightens_of_narrows
    (hx.numeric.reports_integration forward i codomain exit).narrows
    (sliceRelation_sameShape.integration forward i x codomain exit)
  picard forward i x codomain exit hx := hx.tightens_of_narrows
    (hx.numeric.narrows_picard forward i codomain exit)
    (sliceRelation_sameShape.picard forward i x codomain exit)

end Tube

namespace TubeVector

variable {x y : TubeVector Interval}

/-- The dimension, the time domain and all breakpoints of another vector, with every value in the
value there. -/
structure Tightens (y x : TubeVector Interval) : Prop where
  dimension : y.dimension = x.dimension
  domain : y.domain = x.domain
  breakpoints : ∀ j < x.dimension, ∀ t ∈ (x.component j).times, t ∈ (y.component j).times
  eval : ∀ j < x.dimension, ∀ t,
    ((y.component j).eval t).isSubset ((x.component j).eval t) = true

/-- No breakpoints but those of the other vector. -/
def SameTimes (y x : TubeVector Interval) : Prop :=
  ∀ j < x.dimension, (y.component j).times = (x.component j).times

/-- Some codomain or gate is not the same. -/
def Differs (y x : TubeVector Interval) : Prop :=
  ∃ j < x.dimension,
    (∃ i < x.sliceCount, ((y.component j).codomain i != (x.component j).codomain i) = true) ∨
      ∃ k ≤ x.sliceCount, ((y.component j).gate k != (x.component j).gate k) = true

theorem WellFormed.measured (h : x.WellFormed)
    (hnumeric : ∀ c ∈ x.components, ∀ i, (c.codomain i).Numeric) {c : Tube Interval}
    (hc : c ∈ x.components) : c.Measured :=
  (h.components c hc).measured (hnumeric c hc)

theorem tightens_of_holds (hsome : x.components ≠ []) (hx : ∀ c ∈ x.components, c.Measured)
    (h : Holds (fun y x : Tube Interval => x.Measured → y.Tightens x) y x) : y.Tightens x := by
  have hpart j (hj : j < x.dimension) : (y.component j).Tightens (x.component j) :=
    component_of_forall₂ h hj (hx _ (component_mem hj))
  exact ⟨h.length_eq, (hpart 0 (List.length_pos_of_ne_nil hsome)).domain,
    fun j hj => (hpart j hj).breakpoints, fun j hj => (hpart j hj).eval⟩

theorem SameShape.sameTimes (h : y.SameShape x) : y.SameTimes x :=
  fun _ hj => (component_of_forall₂ h hj).times

/-- Beyond the last slice and the last gate nothing can differ. -/
theorem not_differs_iff (hx : x.WellFormed) (hs : y.SameShape x) :
    ¬y.Differs x ↔ Holds Tube.Agrees y x := by
  have hcount j (hj : j < x.dimension) : (x.component j).sliceCount = x.sliceCount ∧
      (x.component j).gates.size = x.sliceCount + 1 := by
    have hc := component_mem hj
    have hsame := hx.ordered.sliceCount_eq hc
    exact ⟨hsame, (hx.components _ hc).gates.trans (congrArg (· + 1) hsame)⟩
  constructor
  · intro h
    simp only [Differs, not_exists, not_and, not_or, bne, Bool.not_eq_true', Bool.not_eq_false]
      at h
    refine List.forall₂_iff_get.2 ⟨hs.length_eq, fun j hj hj' => ?_⟩
    obtain ⟨hcodomain, hgate⟩ := h j hj'
    obtain ⟨hslices, hgates⟩ := hcount j hj'
    have hshape := component_of_forall₂ hs hj'
    rw [List.get_eq_getElem, List.get_eq_getElem, ← List.getD_eq_getElem _ ⟨#[], #[], #[]⟩ hj,
      ← List.getD_eq_getElem _ ⟨#[], #[], #[]⟩ hj']
    change (y.component j).Agrees (x.component j)
    constructor
    · intro i
      rcases Nat.lt_or_ge i x.sliceCount with hi | hi
      · exact hcodomain i hi
      · have hy : (y.component j).sliceCount ≤ i := hshape.codomains.trans_le (hslices.trans_le hi)
        rw [Tube.codomain_of_le hy, Tube.codomain_of_le (hslices.trans_le hi)]
        rfl
    · intro k
      rcases Nat.lt_or_ge x.sliceCount k with hk | hk
      · have hx : (x.component j).gates.size ≤ k := hgates.trans_le hk
        rw [Tube.gate_of_le (hshape.gates.trans_le hx), Tube.gate_of_le hx]
        rfl
      · exact hgate k hk
  · rintro h ⟨j, hj, ⟨i, -, hne⟩ | ⟨k, -, hne⟩⟩
    · rw [bne, (component_of_forall₂ h hj).codomain i] at hne
      contradiction
    · rw [bne, (component_of_forall₂ h hj).gate k] at hne
      contradiction

theorem Reports.flag_iff {changed : Bool} (h : Reports (y, changed) x) (hx : x.WellFormed)
    (hs : y.SameShape x) : changed = true ↔ y.Differs x := by
  have hflag : changed = false ↔ ¬y.Differs x := h.flag.trans (not_differs_iff hx hs).symm
  rw [← Bool.not_eq_false, hflag, not_not]

end TubeVector

/-- Whatever the dynamics answer, contractions keep the time domain and the breakpoints and leave
parts of the values; only a Picard step that need not keep the slices adds breakpoints. The flags
of the contraction by a derivative and of integration are set if some codomain or gate changed, and
only then. -/
theorem TubeVector.contractions_narrow (x : TubeVector Interval) (hx : x.WellFormed)
    (hnumeric : ∀ c ∈ x.components, ∀ i, (c.codomain i).Numeric) (f : Dynamics Interval) :
    (∀ direction v y changed, Derivative.contract direction v x = .ok (y, changed) →
      y.Tightens x ∧ y.SameTimes x ∧ (changed = true ↔ y.Differs x)) ∧
    (∀ (m : Integration) t0 direction y changed,
      m.contract f t0 direction x = .ok (y, changed) →
      y.Tightens x ∧ y.SameTimes x ∧ (changed = true ↔ y.Differs x)) ∧
    (∀ (p : Picard) fuel direction y found, p.contract fuel f direction x = .ok (y, found) →
      y.Tightens x ∧ (p.preserveSlicing = true → y.SameTimes x)) ∧
    (∀ (c : OdeContractor) t0 incremental peeling y,
      c.contract f t0 incremental peeling x = .ok y → y.Tightens x ∧ y.SameTimes x) ∧
    ∀ (p : Picard) fuel t0 incremental peeling y,
      OdeContractor.boundThenDerive p fuel f t0 incremental peeling x = .ok y →
      y.Tightens x ∧ (p.preserveSlicing = true → y.SameTimes x) := by
  have hmeasured : ∀ c ∈ x.components, c.Measured := fun c => hx.measured hnumeric
  have hparts : x.Numeric := fun c hc => (hmeasured c hc).numeric
  have htightens {y : TubeVector Interval} := tightens_of_holds (y := y) hx.someComponent hmeasured
  have hwrites := Tube.sliceRelation_tightens
  have hcut : ∀ p : Picard, p.preserveSlicing = true ∨ ∀ (c : Tube Interval) t,
      c.Measured → (c.sample t).1.Tightens c := fun _ => Or.inr fun c t hc => hc.tightens_sample t
  refine ⟨?derivative, ?integration, ?picard, ?mode, ?options⟩
  case derivative =>
    intro direction v y changed h
    have hshape := Derivative.sameShape_contract h
    exact ⟨htightens (Derivative.holds_contract hwrites h), hshape.sameTimes,
      (Derivative.reports_contract hparts h).flag_iff hx hshape⟩
  case integration =>
    intro m t0 direction y changed h
    have hshape := Integration.sameShape_contract h
    exact ⟨htightens (Integration.holds_contract hwrites h), hshape.sameTimes,
      (Integration.reports_contract hparts h).flag_iff hx hshape⟩
  case picard =>
    intro p fuel direction y found h
    exact ⟨htightens (Picard.holds_contract hwrites (hcut p) h), fun hkeep =>
      SameShape.sameTimes (Picard.holds_contract sliceRelation_sameShape (Or.inl hkeep) h)⟩
  case mode =>
    intro c t0 incremental peeling y h
    exact ⟨htightens (OdeContractor.holds_contract hwrites h),
      SameShape.sameTimes (OdeContractor.holds_contract sliceRelation_sameShape h)⟩
  case options =>
    intro p fuel t0 incremental peeling y h
    exact ⟨htightens (OdeContractor.holds_boundThenDerive hwrites (hcut p) h), fun hkeep =>
      SameShape.sameTimes
        (OdeContractor.holds_boundThenDerive sliceRelation_sameShape (Or.inl hkeep) h)⟩

/-- Slopes that no function in `Tube.early` has throughout: a contraction by them changes it. -/
theorem TubeVector.contractions_narrow_early :
    (⟨[Tube.early]⟩ : TubeVector Interval).WellFormed ∧
      (∀ c ∈ [Tube.early], ∀ i, (c.codomain i).Numeric) ∧
      ∃ y, Derivative.contract .both ⟨[Tube.late]⟩ ⟨[Tube.early]⟩ = .ok (y, true) ∧
        y.Tightens ⟨[Tube.early]⟩ ∧ y.Differs ⟨[Tube.early]⟩ := by
  have hx := wellFormed_singleton Tube.wellFormed_early
  have hnumeric : ∀ c ∈ [Tube.early], ∀ i, (c.codomain i).Numeric :=
    List.forall_mem_singleton.2 Tube.numeric_early
  have hrun : ((Derivative.contract .both ⟨[Tube.late]⟩ ⟨[Tube.early]⟩).toOption.map (·.2)) =
      some true := by
    decide +kernel
  refine ⟨hx, hnumeric, ?_⟩
  cases h : Derivative.contract .both (⟨[Tube.late]⟩ : TubeVector Interval) ⟨[Tube.early]⟩ with
  | error e =>
    rw [h] at hrun
    contradiction
  | ok r =>
    obtain ⟨y, changed⟩ := r
    rw [h] at hrun
    obtain rfl : changed = true := Option.some.inj hrun
    obtain ⟨htightens, -, hflag⟩ :=
      (contractions_narrow ⟨[Tube.early]⟩ hx hnumeric (Dynamics.delay 1.0)).1 _ _ _ _ h
    exact ⟨y, rfl, htightens, hflag.1 rfl⟩

end FlowTube
