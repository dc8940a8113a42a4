import FlowTube.Proofs.Interval.Inclusion
import FlowTube.Proofs.Search.Steps
import FlowTube.Proofs.TubeVector.Encloses

/-! Iterations that leave a vector as it is. Volumes are numbers, so such an iteration leaves the
volume equal to what it was. Propagation asks for that by itself and ends, whatever its ratio. The
loops of peeling and refining ask only whether the fixed point is reached, and a ratio above one
never reaches it: with such a ratio they go on from the same vector, unless it is thin. What a
further iteration does then depends on the random decisions alone, so a vector that no iteration
changes is never given back. -/

namespace FlowTube

open Binary64 (value)

/-! ### Volumes -/

theorem TubeVector.isNaN_volume {ι : Type} [Enclosure ι] (x : TubeVector ι) :
    x.volume.isNaN = false := by
  have hadd (cs : List (Tube ι)) (v : Float) : (addVolume v cs).isNaN = false := by
    induction cs generalizing v with
    | nil =>
      cases hv : v.isNaN with
      | true =>
        rw [addVolume, Binary64.min, if_pos hv]
        rfl
      | false => exact Binary64.isNaN_min hv rfl
    | cons c cs ih =>
      rw [addVolume]
      split_ifs
      · rfl
      · exact ih _
  exact hadd x.components 0.0

theorem TubeVector.volume_beq_self {ι : Type} [Enclosure ι] (x : TubeVector ι) :
    (x.volume == x.volume) = true :=
  Binary64.beq_iff.2 ⟨x.isNaN_volume, x.isNaN_volume, rfl⟩

/-- The same volume ends a loop unless its ratio is above one. -/
theorem fixedPointReached_self {v : Float} (hv : (v == v) = true) (ratio : Float) :
    fixedPointReached v v ratio = !decide (ratio > 1.0) := by
  unfold fixedPointReached
  split_ifs with hratio h0
  · simp [hratio]
  · simp [hratio]
  · simp [hv] at h0

namespace SearchM

variable {α β : Type} {m : SearchM α} {f : α → SearchM β} {a : α} {j i : Journal}

theorem run_bind_of_ok (h : m.run j = .ok (a, i)) : (m >>= f).run j = (f a).run i := by
  rw [StateT.run_bind, h]
  rfl

theorem run_lift_of_ok {x : Except Error α} (h : x = .ok a) :
    (liftM x : SearchM α).run j = .ok (a, j) :=
  run_lift_eq_ok.2 ⟨h, rfl⟩

end SearchM

open SearchM

namespace Problem

variable {p : Problem} {x y : TubeVector Interval} {t0 ratio : Float} {peeling incremental : Bool}
  {fuel : ℕ} {j j' : Journal}

theorem stopped_eq_ok (hdim : x.dimension = p.thresholds.length) :
    p.stopped x = .ok (x.isThin p.settings.stopping p.thresholds) :=
  if_pos (beq_iff_eq.2 hdim)

/-! ### One idle iteration -/

/-- An idle pass is the last one of a propagation. -/
theorem propagateLoop_of_idle
    (h : (p.pass peeling t0 incremental x).run j = .ok (x, j')) (n : ℕ) :
    (p.propagateLoop peeling ratio t0 (n + 1) incremental x).run j = .ok (x, j') := by
  unfold propagateLoop
  dsimp only
  rw [run_bind_of_ok h, x.volume_beq_self, Bool.or_true, if_pos rfl]
  rfl

/-- A loop with this ratio takes no notice of an idle iteration at the vector. -/
def GoesOn (p : Problem) (ratio : Float) (x : TubeVector Interval) : Prop :=
  ratio > 1.0 ∧ x.isThin p.settings.stopping p.thresholds = false

instance : Decidable (p.GoesOn ratio x) := inferInstanceAs (Decidable (_ ∧ _))

/-- After an idle iteration at a vector that is not empty the loops of peeling and refining end
with the vector, or they go on from it. -/
theorem run_after_idle (hne : x.isEmpty = false) (hdim : x.dimension = p.thresholds.length)
    (ratio : Float) (rest : SearchM (TubeVector Interval)) (i : Journal) :
    (if x.isEmpty then return x
      else do
        if ← p.stopped x then return x
        else if fixedPointReached x.volume x.volume ratio then return x
        else rest : SearchM (TubeVector Interval)).run i =
      if p.GoesOn ratio x then rest.run i else .ok (x, i) := by
  rw [if_neg (Bool.eq_false_iff.1 hne), run_bind_of_ok (run_lift_of_ok (stopped_eq_ok hdim)),
    fixedPointReached_self x.volume_beq_self]
  by_cases hgo : p.GoesOn ratio x
  · rw [if_pos hgo, hgo.2, decide_eq_true hgo.1]
    rfl
  · rw [if_neg hgo]
    cases hthin : x.isThin p.settings.stopping p.thresholds with
    | true => rfl
    | false =>
      rw [decide_eq_false fun hratio => hgo ⟨hratio, hthin⟩]
      rfl

theorem peelLoop_of_idle (hne : x.isEmpty = false) (hdim : x.dimension = p.thresholds.length)
    (h : (p.peel fuel x).run j = .ok (x, j')) (n : ℕ) :
    (p.peelLoop fuel (n + 1) x).run j =
      if p.GoesOn p.settings.peelingRatio x then (p.peelLoop fuel n x).run j'
      else .ok (x, j') := by
  rw [peelLoop, run_bind_of_ok h]
  exact run_after_idle hne hdim p.settings.peelingRatio (p.peelLoop fuel n x) j'

/-- The record after an iteration of refining that ends with the vector. -/
def noted (j : Journal) (x : TubeVector Interval) : Journal :=
  { j with latest := .refined x.sliceCount x.volume :: j.latest }

theorem refineLoop_of_idle (hne : x.isEmpty = false) (hdim : x.dimension = p.thresholds.length)
    (hrefine : Slicing.refine? p.settings.refining p.settings.maxSlices x = some y)
    (h : (p.contract fuel false y.domain.lb y).run j = .ok (x, j')) (n : ℕ) :
    (p.refineLoop fuel (n + 1) x).run j =
      if p.GoesOn p.settings.refiningRatio x then (p.refineLoop fuel n x).run (noted j' x)
      else .ok (x, noted j' x) := by
  rw [refineLoop, hrefine]
  dsimp only
  rw [run_bind_of_ok h]
  exact run_after_idle hne hdim p.settings.refiningRatio (p.refineLoop fuel n x) (noted j' x)

/-- Without room for further slices refining ends. -/
theorem refineLoop_of_none
    (h : Slicing.refine? p.settings.refining p.settings.maxSlices x = none) (n : ℕ) :
    (p.refineLoop fuel (n + 1) x).run j = .ok (x, j) := by
  rw [refineLoop, h]
  rfl

/-- An iteration that leaves the vector as it is ends its loop: in propagation always, in peeling
and in refining unless the ratio is above one and the vector is not thin; then these two go on from
the same vector. -/
theorem run_of_idle_iteration (p : Problem) (hne : x.isEmpty = false)
    (hdim : x.dimension = p.thresholds.length) (fuel : ℕ) (j j' : Journal) :
    (∀ peeling ratio t0 incremental, (p.pass peeling t0 incremental x).run j = .ok (x, j') →
      ∀ n, (p.propagateLoop peeling ratio t0 (n + 1) incremental x).run j = .ok (x, j')) ∧
    ((p.peel fuel x).run j = .ok (x, j') → ∀ n, (p.peelLoop fuel (n + 1) x).run j =
      if p.GoesOn p.settings.peelingRatio x then (p.peelLoop fuel n x).run j'
      else .ok (x, j')) ∧
    (Slicing.refine? p.settings.refining p.settings.maxSlices x = none →
      ∀ n, (p.refineLoop fuel (n + 1) x).run j = .ok (x, j)) ∧
    ∀ y, Slicing.refine? p.settings.refining p.settings.maxSlices x = some y →
      (p.contract fuel false y.domain.lb y).run j = .ok (x, j') →
        ∀ n, (p.refineLoop fuel (n + 1) x).run j =
          if p.GoesOn p.settings.refiningRatio x then (p.refineLoop fuel n x).run (noted j' x)
          else .ok (x, noted j' x) :=
  ⟨fun _ _ _ _ h => propagateLoop_of_idle h, peelLoop_of_idle hne hdim, refineLoop_of_none,
    fun _ hrefine => refineLoop_of_idle hne hdim hrefine⟩

/-! ### No change at all -/

/-- With a ratio above one a vector that peeling never changes is never given back. -/
theorem peelLoop_eq_unfinished (hne : x.isEmpty = false)
    (hdim : x.dimension = p.thresholds.length) (hgo : p.GoesOn p.settings.peelingRatio x)
    (h : ∀ j, ∃ j', (p.peel fuel x).run j = .ok (x, j')) (n : ℕ) (j : Journal) :
    (p.peelLoop fuel n x).run j = .error .unfinished := by
  induction n generalizing j with
  | zero => rfl
  | succ n ih =>
    obtain ⟨j', hidle⟩ := h j
    rw [peelLoop_of_idle hne hdim hidle, if_pos hgo]
    exact ih j'

/-- Nor is one whose refinement the contraction always takes back to it. -/
theorem refineLoop_eq_unfinished (hne : x.isEmpty = false)
    (hdim : x.dimension = p.thresholds.length) (hgo : p.GoesOn p.settings.refiningRatio x)
    (hrefine : Slicing.refine? p.settings.refining p.settings.maxSlices x = some y)
    (h : ∀ j, ∃ j', (p.contract fuel false y.domain.lb y).run j = .ok (x, j')) (n : ℕ)
    (j : Journal) : (p.refineLoop fuel n x).run j = .error .unfinished := by
  induction n generalizing j with
  | zero => rfl
  | succ n ih =>
    obtain ⟨j', hidle⟩ := h j
    rw [refineLoop_of_idle hne hdim hrefine hidle, if_pos hgo]
    exact ih (noted j' x)

/-! ### An iteration that others follow -/

/-- Peeling leaves a component alone if its gate cannot be split for the first parts and the
propagation changes nothing. -/
theorem peelComponent_of_idle {t : Float} {k : ℕ} {note : Journal → Journal}
    (hne : x.isEmpty = false) (h : ∀ i, (p.peelPropagate fuel t x).run i = .ok (x, note i))
    (hfuel : 0 < fuel) (hlow : (x.bisectAt t k p.settings.peelMinRate).toBool = false)
    (hhigh : (x.bisectAt t k (1.0 - p.settings.peelMinRate)).toBool = false) (j : Journal) :
    (p.peelComponent fuel t k x).run j = .ok (x, note (note j)) := by
  obtain ⟨n, rfl⟩ := Nat.exists_eq_add_one_of_ne_zero hfuel.ne'
  have hbelow : (p.peelBelow (n + 1) t k (n + 1) p.settings.peelMinRate x).run j =
      .ok (x, j) := by
    rw [peelBelow]
    split_ifs
    · cases hsplit : x.bisectAt t k p.settings.peelMinRate with
      | error e => rfl
      | ok halves => simp [hsplit, Except.toBool] at hlow
    · rfl
  have habove : (p.peelAbove (n + 1) t k (n + 1) (1.0 - p.settings.peelMinRate) x).run (note j) =
      .ok (x, note j) := by
    rw [peelAbove]
    split_ifs
    · cases hsplit : x.bisectAt t k (1.0 - p.settings.peelMinRate) with
      | error e => rfl
      | ok halves => simp [hsplit, Except.toBool] at hhigh
    · rfl
  rw [peelComponent, run_bind_of_ok hbelow, run_bind_of_ok (h j),
    if_neg (Bool.eq_false_iff.1 hne), run_bind_of_ok habove]
  exact h (note j)

/-- News at the time zero refute a tube, and peeling is at the last time first. -/
def lateNews : Problem where
  settings := { peelingRatio := 2.0, peelTime := .random }
  thresholds := [0.5]
  dynamics := none
  constraints := some fun x t0 incremental =>
    .ok (if incremental && t0 == 0.0 then x.modify 0 (·.setCodomain 0 Interval.empty) else x)
  coins := fun i => i != 0

/-- From zero to one in the slice and at its start, and one at its end. -/
def fixedEnd : TubeVector Interval :=
  ⟨[{ times := #[0.0, 1.0], codomains := #[.unit], gates := #[.unit, ⟨1.0, 1.0⟩] }]⟩

theorem isEmpty_fixedEnd : fixedEnd.isEmpty = false := by decide +kernel

/-- The record after a call of the constraints with news at the last time. -/
def calledAtEnd (j : Journal) : Journal := { j with latest := .called 1.0 true :: j.latest }

theorem pass_fixedEnd (j : Journal) :
    (lateNews.pass true 1.0 true fixedEnd).run j = .ok (fixedEnd, calledAtEnd j) := rfl

theorem run_of_idle_iteration_fixedEnd :
    (lateNews.propagateLoop true 2.0 1.0 20 true fixedEnd).run {} =
      .ok (fixedEnd, calledAtEnd {}) :=
  (run_of_idle_iteration lateNews isEmpty_fixedEnd rfl 20 {} (calledAtEnd {})).1 true 2.0 1.0 true
    (pass_fixedEnd {}) 19

/-- The record after peeling at the last time. -/
def peeledAtEnd : Journal :=
  { draws := 1, latest := [.called 1.0 true, .called 1.0 true] }

theorem peel_fixedEnd : (lateNews.peel 20 fixedEnd).run {} = .ok (fixedEnd, peeledAtEnd) := by
  have htime : (lateNews.peelTime fixedEnd).run {} = .ok (1.0, { draws := 1 }) := rfl
  have hpropagate (i : Journal) :
      (lateNews.peelPropagate 20 1.0 fixedEnd).run i = .ok (fixedEnd, calledAtEnd i) := by
    rw [peelPropagate, propagate, if_neg (by decide)]
    exact propagateLoop_of_idle (pass_fixedEnd i) 19
  have hpeel : (lateNews.peelComponent 20 1.0 0 fixedEnd).run { draws := 1 } =
      .ok (fixedEnd, peeledAtEnd) :=
    peelComponent_of_idle isEmpty_fixedEnd hpropagate (by decide) (by decide +kernel)
      (by decide +kernel) _
  have hcomponents : List.range fixedEnd.dimension = [0] := rfl
  rw [peel, run_bind_of_ok htime, hcomponents, peelComponents, run_bind_of_ok hpeel,
    isEmpty_fixedEnd]
  rfl

/-- Peeling at the last time changes nothing, and is not the last iteration: the next one is at
the time zero and refutes the tube. -/
theorem peelLoop_continues_fixedEnd :
    lateNews.check fixedEnd = .ok () ∧ fixedEnd.isEmpty = false ∧
      (lateNews.peel 20 fixedEnd).run {} = .ok (fixedEnd, peeledAtEnd) ∧
        ((lateNews.peelLoop 20 20 fixedEnd).run {}).toOption.map (·.1.isEmpty) = some true :=
  ⟨rfl, isEmpty_fixedEnd, peel_fixedEnd, by decide +kernel⟩

end Problem

end FlowTube
