import FlowTube.Proofs.Contractor.Shape
import FlowTube.Proofs.Search.Steps

/-! No trajectory is lost in a search. If the constraints and the contractions by the dynamics
keep a trajectory of the first tube, then so does every step of the search: what a fixed-point
loop returns has it, peeling drops a part only when the trajectory is in the other one or joins
the part again, samples change no value, and one half of every split has it. So it is at all
times in a tube of the stack or in an accepted one, and the clusters have it in the end.

Tubes without the trajectory are searched as well, and are joined to those that have it. Of
them it is used only that their components are tubes. -/

namespace FlowTube

/-- Every answer has the property, whatever was recorded before. -/
def SearchM.Ensures {α : Type} (m : SearchM α) (P : α → Prop) : Prop :=
  ∀ j a j', m.run j = .ok (a, j') → P a

open SearchM

/-! ### Steps that keep a trajectory -/

/-- A vector of the form of the first one, with the trajectory. -/
structure Tracks (x0 : TubeVector Interval) (X : ℝ → ℕ → ℝ) (x : TubeVector Interval) : Prop where
  compatible : x.CompatibleWith x0
  encloses : x.Encloses X

/-- A change that keeps the trajectory if it is there, and in any case the tubes tubes. -/
structure Carries (x0 : TubeVector Interval) (X : ℝ → ℕ → ℝ) (x y : TubeVector Interval) :
    Prop where
  partitioned : x.Partitioned → y.Partitioned
  tracks : Tracks x0 X x → Tracks x0 X y

variable {x0 x y z a b : TubeVector Interval} {X : ℝ → ℕ → ℝ}

theorem Tracks.isEmpty (h : Tracks x0 X x) : x.isEmpty = false :=
  h.encloses.isEmpty h.compatible.sliced.toPartitioned

namespace Carries

theorem refl (x : TubeVector Interval) : Carries x0 X x x := ⟨id, id⟩

theorem trans (hxy : Carries x0 X x y) (hyz : Carries x0 X y z) : Carries x0 X x z :=
  ⟨fun h => hyz.partitioned (hxy.partitioned h), fun h => hyz.tracks (hxy.tracks h)⟩

theorem of_keepsForm (h : x.KeepsForm y) (hX : Tracks x0 X x → y.Encloses X) : Carries x0 X x y :=
  ⟨h.partitioned, fun ht => ⟨(h.compatible ht.compatible.sliced).trans ht.compatible, hX ht⟩⟩

theorem sample (x : TubeVector Interval) (t : Float) : Carries x0 X x (x.sample t).1 :=
  of_keepsForm (TubeVector.keepsForm_sample x t) fun h =>
    h.encloses.sample h.compatible.sliced.toPartitioned t

end Carries

theorem TubeVector.SplitInto.symm (h : x.SplitInto a b) : x.SplitInto b a :=
  ⟨h.high, h.low, fun X hx hX => (h.cover X hx hX).symm⟩

/-- One half of a split has the trajectory. -/
theorem TubeVector.SplitInto.tracks (h : x.SplitInto a b) (hx : Tracks x0 X x) :
    Tracks x0 X a ∨ Tracks x0 X b := by
  have hs := hx.compatible.sliced
  exact (h.cover X hs.toPartitioned hx.encloses).imp
    (⟨(h.low.compatible hs).trans hx.compatible, ·⟩)
    (⟨(h.high.compatible hs).trans hx.compatible, ·⟩)

/-- A half that turns out to be empty may be dropped. -/
theorem Carries.drop (hsplit : x.SplitInto a b) (ha : Carries x0 X a y) (hempty : y.isEmpty = true)
    (hb : Carries x0 X b z) : Carries x0 X x z := by
  refine ⟨fun hx => hb.partitioned (hsplit.high.partitioned hx), fun hx => ?_⟩
  rcases hsplit.tracks hx with h | h
  · have hfalse := (ha.tracks h).isEmpty
    rw [hempty] at hfalse
    contradiction
  · exact hb.tracks h

/-- A half that was changed may be joined to the other one. -/
theorem Carries.join (hsplit : x.SplitInto a b) (ha : Carries x0 X a y) (hz : b.hull y = .ok z) :
    Carries x0 X x z := by
  have hboth (hx : x.Partitioned) : b.Partitioned ∧ y.Partitioned :=
    ⟨hsplit.high.partitioned hx, ha.partitioned (hsplit.low.partitioned hx)⟩
  refine ⟨fun hx => ((hboth hx).1.hull (hboth hx).2 hz).1.toPartitioned, fun hx => ?_⟩
  obtain ⟨hb, hy⟩ := hboth hx.compatible.sliced.toPartitioned
  obtain ⟨hzb, hzy⟩ := hb.compatible_hull hy hz
  rcases hsplit.tracks hx with h | h
  · have hy' := ha.tracks h
    exact ⟨hzy.trans hy'.compatible,
      TubeVector.Encloses.hull hb hy hz (Or.inr ⟨hy'.compatible.sliced, hy'.encloses⟩)⟩
  · exact ⟨hzb.trans h.compatible,
      TubeVector.Encloses.hull hb hy hz (Or.inl ⟨h.compatible.sliced, h.encloses⟩)⟩

/-! ### Lists of tubes -/

/-- Tubes, one of which has the trajectory. -/
structure Covers (x0 : TubeVector Interval) (X : ℝ → ℕ → ℝ) (xs : List (TubeVector Interval)) :
    Prop where
  partitioned : ∀ x ∈ xs, x.Partitioned
  tracks : ∃ x ∈ xs, Tracks x0 X x

namespace Covers

variable {xs ys : List (TubeVector Interval)}

theorem perm (h : Covers x0 X xs) (hperm : xs.Perm ys) : Covers x0 X ys where
  partitioned := fun x hx => h.partitioned x (hperm.mem_iff.2 hx)
  tracks := h.tracks.imp fun _ hx => ⟨hperm.mem_iff.1 hx.1, hx.2⟩

theorem carry (h : Covers x0 X (x :: xs)) (hxy : Carries x0 X x y) : Covers x0 X (y :: xs) := by
  constructor
  · intro z hz
    rcases List.mem_cons.1 hz with rfl | hz
    · exact hxy.partitioned (h.partitioned x List.mem_cons_self)
    · exact h.partitioned z (List.mem_cons_of_mem x hz)
  · obtain ⟨z, hz, ht⟩ := h.tracks
    rcases List.mem_cons.1 hz with rfl | hz
    · exact ⟨y, List.mem_cons_self, hxy.tracks ht⟩
    · exact ⟨z, List.mem_cons_of_mem y hz, ht⟩

/-- An empty tube does not have the trajectory. -/
theorem drop (h : Covers x0 X (x :: xs)) (hempty : x.isEmpty = true) : Covers x0 X xs := by
  refine ⟨fun z hz => h.partitioned z (List.mem_cons_of_mem x hz), ?_⟩
  obtain ⟨z, hz, ht⟩ := h.tracks
  rcases List.mem_cons.1 hz with rfl | hz
  · have hfalse := ht.isEmpty
    rw [hempty] at hfalse
    contradiction
  · exact ⟨z, hz, ht⟩

theorem split (h : Covers x0 X (x :: xs)) (hsplit : x.SplitInto a b) :
    Covers x0 X (a :: b :: xs) := by
  have hx := h.partitioned x List.mem_cons_self
  constructor
  · intro z hz
    rcases List.mem_cons.1 hz with rfl | hz
    · exact hsplit.low.partitioned hx
    · rcases List.mem_cons.1 hz with rfl | hz
      · exact hsplit.high.partitioned hx
      · exact h.partitioned z (List.mem_cons_of_mem x hz)
  · obtain ⟨z, hz, ht⟩ := h.tracks
    rcases List.mem_cons.1 hz with rfl | hz
    · rcases hsplit.tracks ht with ha | hb
      · exact ⟨a, List.mem_cons_self, ha⟩
      · exact ⟨b, List.mem_cons_of_mem a List.mem_cons_self, hb⟩
    · exact ⟨z, List.mem_cons_of_mem a (List.mem_cons_of_mem b hz), ht⟩

theorem join (h : Covers x0 X (x :: y :: xs)) (hz : y.hull x = .ok z) : Covers x0 X (z :: xs) := by
  have hx := h.partitioned x List.mem_cons_self
  have hy := h.partitioned y (List.mem_cons_of_mem x List.mem_cons_self)
  obtain ⟨hzy, hzx⟩ := hy.compatible_hull hx hz
  constructor
  · intro w hw
    rcases List.mem_cons.1 hw with rfl | hw
    · exact hzx.sliced.toPartitioned
    · exact h.partitioned w (List.mem_cons_of_mem x (List.mem_cons_of_mem y hw))
  · obtain ⟨w, hw, ht⟩ := h.tracks
    rcases List.mem_cons.1 hw with rfl | hw
    · exact ⟨z, List.mem_cons_self, hzx.trans ht.compatible, TubeVector.Encloses.hull hy hx hz
        (Or.inr ⟨ht.compatible.sliced, ht.encloses⟩)⟩
    · rcases List.mem_cons.1 hw with rfl | hw
      · exact ⟨z, List.mem_cons_self, hzy.trans ht.compatible, TubeVector.Encloses.hull hy hx hz
          (Or.inl ⟨ht.compatible.sliced, ht.encloses⟩)⟩
      · exact ⟨w, List.mem_cons_of_mem z hw, ht⟩

end Covers

/-! ### Clustering -/

namespace Clustering

variable {xs ys cs : List (TubeVector Interval)}

theorem covers_place (h : Covers x0 X (x :: (cs ++ xs))) (hplace : place x cs = .ok ys) :
    Covers x0 X (ys ++ xs) := by
  induction cs generalizing xs ys with
  | nil =>
    obtain rfl := Except.ok.inj hplace
    exact h
  | cons c cs ih =>
    obtain ⟨meet, -, hplace⟩ := bind_eq_ok.1 hplace
    split at hplace
    · obtain ⟨z, hz, hplace⟩ := bind_eq_ok.1 hplace
      obtain rfl := Except.ok.inj hplace
      exact h.join hz
    · obtain ⟨zs, hzs, hplace⟩ := bind_eq_ok.1 hplace
      obtain rfl := Except.ok.inj hplace
      have hrest : Covers x0 X (x :: (cs ++ (c :: xs))) :=
        h.perm (List.Perm.cons x List.perm_middle.symm)
      exact (ih hrest hzs).perm List.perm_middle

theorem covers_pass_from (h : Covers x0 X (xs ++ cs))
    (hpass : xs.foldlM (fun clusters x => place x clusters) cs = .ok ys) : Covers x0 X ys := by
  induction xs generalizing cs with
  | nil =>
    obtain rfl := Except.ok.inj hpass
    exact h
  | cons x xs ih =>
    rw [List.foldlM_cons] at hpass
    obtain ⟨zs, hzs, hpass⟩ := bind_eq_ok.1 hpass
    have hplaced : Covers x0 X (zs ++ xs) :=
      covers_place (h.perm (List.Perm.cons x List.perm_append_comm)) hzs
    exact ih (hplaced.perm List.perm_append_comm) hpass

theorem covers_passes {n : ℕ} (h : Covers x0 X xs) (hpasses : passes n xs = .ok ys) :
    Covers x0 X ys := by
  induction n generalizing xs with
  | zero =>
    obtain rfl := Except.ok.inj hpasses
    exact h
  | succ n ih =>
    unfold passes at hpasses
    split_ifs at hpasses
    · obtain rfl := Except.ok.inj hpasses
      exact h
    · obtain ⟨zs, hzs, hpasses⟩ := bind_eq_ok.1 hpasses
      have hpass : Covers x0 X zs := covers_pass_from (by rwa [List.append_nil]) hzs
      split_ifs at hpasses
      · obtain rfl := Except.ok.inj hpasses
        exact hpass
      · exact ih hpass hpasses

end Clustering

/-! ### Slicing -/

namespace Slicing

theorem carries_sampleWithin (maxSlices used : ℕ) (ts : List Float) (x : TubeVector Interval) :
    Carries x0 X x (sampleWithin maxSlices used ts x) := by
  induction ts generalizing used x with
  | nil => exact .refl x
  | cons t ts ih =>
    unfold sampleWithin
    split_ifs
    · exact .refl x
    · exact (Carries.sample x t).trans (ih _ _)

theorem carries_cutWidest (maxSlices n count : ℕ) (x : TubeVector Interval) :
    Carries x0 X x (cutWidest maxSlices n count x).1 := by
  induction n generalizing count x with
  | zero => exact .refl x
  | succ n ih =>
    unfold cutWidest
    dsimp only
    split_ifs
    · exact .sample x _
    · exact (Carries.sample x _).trans (ih _ _)

theorem carries_cutByThreshold (threshold : List Float → Float) (maxSlices : ℕ)
    (x : TubeVector Interval) : Carries x0 X x (cutByThreshold threshold maxSlices x) := by
  have hwidest : Carries x0 X x (cutWidest maxSlices (x.sliceCount / 10 + 1) x.sliceCount x).1 :=
    carries_cutWidest ..
  unfold cutByThreshold
  dsimp only
  split_ifs
  · exact hwidest.trans (carries_sampleWithin ..)
  · exact hwidest

theorem carries_refine? {mode : RefiningMode} {maxSlices : ℕ}
    (h : refine? mode maxSlices x = some y) : Carries x0 X x y := by
  unfold refine? at h
  split at h
  · contradiction
  cases mode with
  | allSlices =>
    obtain rfl := Option.some.inj h
    exact carries_sampleWithin ..
  | steepestSlice =>
    obtain rfl := Option.some.inj h
    exact .sample x _
  | averageThreshold | medianThreshold =>
    obtain rfl := Option.some.inj h
    split_ifs
    · exact carries_sampleWithin ..
    · exact carries_cutByThreshold ..

end Slicing

namespace Problem

/-- The passes of the search keep a trajectory: the constraints and the contraction by the
dynamics, inside peeling and outside, map a vector of the form of the first one with the
trajectory to another one. Of other vectors, the constraints must return tubes again. -/
structure Lossless (p : Problem) (x0 : TubeVector Interval) (X : ℝ → ℕ → ℝ) : Prop where
  constraints_tubes : ∀ step, p.constraints = some step → ∀ x t0 incremental y,
    x.Partitioned → step x t0 incremental = .ok y → y.Partitioned
  constraints : ∀ step, p.constraints = some step → ∀ x t0 incremental y,
    Tracks x0 X x → step x t0 incremental = .ok y → Tracks x0 X y
  dynamics : ∀ f, p.dynamics = some f → ∀ peeling x t0 incremental y, Tracks x0 X x →
    (p.ode peeling).contract f t0 incremental peeling x = .ok y → y.Encloses X

variable {p : Problem} (hp : p.Lossless x0 X)

include hp

/-- Every step of the search carries the trajectory on. -/
theorem Lossless.respects :
    p.Respects (fun _ => True) (fun _ => True) (Carries x0 X) TubeVector.SplitInto where
  refl _ := .refl _
  trans := .trans
  keeps _ _ := trivial
  constraints step hstep _ t0 incremental _ _ hy :=
    ⟨fun hx => hp.constraints_tubes step hstep _ t0 incremental _ hx hy,
      fun hx => hp.constraints step hstep _ t0 incremental _ hx hy⟩
  dynamics f hf peeling _ t0 incremental _ _ hy :=
    .of_keepsForm (OdeContractor.keepsForm_contract hy) fun hx =>
      hp.dynamics f hf peeling _ t0 incremental _ hx hy
  refine _ := Slicing.carries_refine?
  times _ _ := trivial
  split _ _ := TubeVector.splitInto_of_bisectAt
  parts _ _ := ⟨trivial, trivial⟩
  symm := TubeVector.SplitInto.symm
  drop := .drop
  join := .join

omit hp in
/-- The trajectory stays in a tube of the stack or among the solutions. -/
theorem invariant_covers :
    Invariant (fun _ => True) (Carries x0 X) TubeVector.SplitInto fun stack solutions _ =>
      Covers x0 X (stack ++ solutions) where
  proper _ := trivial
  narrow := Covers.carry
  drop := Covers.drop
  accept h _ := h.perm List.perm_middle.symm
  split := Covers.split

theorem Lossless.ensures_search (fuel : ℕ) (hx0 : x0.Sliced) (hX : x0.Encloses X) :
    Ensures (p.search fuel x0) (Covers x0 X) := by
  intro j clusters j' hrun
  have hfirst : Covers x0 X [x0] := by
    refine ⟨fun x hx => ?_, x0, List.mem_singleton_self x0, hx0.compatible, hX⟩
    rw [List.mem_singleton.1 hx]
    exact hx0.toPartitioned
  obtain ⟨solutions, hsolutions, hclusters⟩ := hp.respects.run_search invariant_covers hfirst hrun
  exact Clustering.covers_passes (hsolutions.perm (List.reverse_perm _).symm) hclusters

omit hp

/-- The ends of a tube are split in turn until both are narrow. -/
def enforcing : Problem where
  settings := { refiningRatio := -1.0, peelingRatio := -1.0, stopping := .boundaryGate,
                bisection := .alternate }
  thresholds := [0.6]
  dynamics := none
  constraints := some fun x _ _ => .ok x.enforceGates
  coins := fun _ => true

/-- One slice with open gates. -/
def corridor : TubeVector Interval := TubeVector.unitSlice .unit .whole

theorem encloses_corridor : corridor.Encloses fun t _ => t := by
  exact TubeVector.encloses_unitSlice (fun t h0 h1 => Interval.mem_unit.2 ⟨h0, h1⟩)
    Interval.mem_whole Interval.mem_whole

theorem lossless_enforcing : enforcing.Lossless corridor fun t _ => t where
  constraints_tubes := by
    intro step hstep x t0 incremental y hx hy
    obtain rfl := Option.some.inj hstep
    obtain rfl := Except.ok.inj hy
    exact (TubeVector.sameShape_enforceGates x).keepsForm.partitioned hx
  constraints := by
    intro step hstep x t0 incremental y hx hy
    obtain rfl := Option.some.inj hstep
    obtain rfl := Except.ok.inj hy
    have hcarries : Carries corridor (fun t _ => t) x x.enforceGates :=
      .of_keepsForm (TubeVector.sameShape_enforceGates x).keepsForm fun h =>
        TubeVector.Encloses.enforceGates h.encloses h.compatible.sliced.toPartitioned
    exact hcarries.tracks hx
  dynamics := fun f hf => nomatch hf

end Problem

end FlowTube
