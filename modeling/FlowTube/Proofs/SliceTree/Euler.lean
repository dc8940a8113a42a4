import FlowTube.Proofs.Enclosure.Laws
import FlowTube.Proofs.SliceTree.Refinement

/-! Sequences that move by Euler steps, one number to a slice, and what the sweeps of a slice tree
keep of them. The sweep forward narrows a slice by the step from the slice before it, with the
derivative of that slice, so it keeps every sequence whose derivatives lie each in the slice that
is left. The sweep backward narrows a slice by the step back from the next one, with the derivative
of the next one. It asks for each derivative in the slice that is reached, and of a sequence whose
derivative changes from one slice to the next it may lose the numbers. -/

namespace FlowTube

/-- A part of a value and of what narrows it is in the narrowed value. -/
theorem Enclosure.mem_narrow {ι : Type} [Enclosure ι] [Membership ℝ ι] [Lawful ι] {a y : ι} {r : ℝ}
    (ha : r ∈ a) (hy : r ∈ y) : r ∈ (narrow a y).1 := by
  unfold narrow
  split_ifs
  · exact ha
  · exact Lawful.mem_inter ha hy

theorem Box.holds_cons {ι : Type} [Membership ℝ ι] {a : ι} {as : Box ι} {X : ℕ → ℝ} :
    Box.Holds (a :: as) X ↔ X 0 ∈ a ∧ Box.Holds as fun i => X (i + 1) := by
  constructor
  · intro h
    exact ⟨h 0 a rfl, fun i b hb => h (i + 1) b hb⟩
  · rintro ⟨hhead, htail⟩ i b hb
    cases i with
    | zero => exact Option.some.inj hb ▸ hhead
    | succ i => exact htail i b hb

namespace SliceTree

open Binary64 (real)

variable {ι : Type} [Enclosure ι]

/-! ### Sweeps over lists -/

section Sweeps

variable [Membership ℝ ι] [Enclosure.Sound ι] {dt x w : ι} {xs ws : List ι} {d : ℝ} {X W : ℕ → ℝ}

/-- Every derivative is in the slice that its step leaves. -/
theorem holds_stepsForward (hd : d ∈ dt) (hx : Box.Holds (x :: xs) X)
    (hw : Box.Holds (w :: ws) W) (hstep : ∀ i < xs.length, X (i + 1) = X i + W i * d) :
    Box.Holds (x :: (stepsForward dt x w xs ws).1) X := by
  induction xs generalizing x w ws X W with
  | nil => cases ws <;> exact hx
  | cons y ys ih =>
    cases ws with
    | nil => exact hx
    | cons w' ws =>
      obtain ⟨hxhead, hy⟩ := Box.holds_cons.1 hx
      obtain ⟨hyhead, hys⟩ := Box.holds_cons.1 hy
      obtain ⟨hwhead, hws⟩ := Box.holds_cons.1 hw
      have hstep0 : X 1 = X 0 + W 0 * d := hstep 0 (Nat.zero_lt_succ _)
      have hreach : X 1 ∈ x + w * dt := by
        rw [hstep0]
        exact Enclosure.Sound.mem_add hxhead (Enclosure.Sound.mem_mul hwhead hd)
      -- the next step starts from the value that has just been narrowed
      have hnext : Box.Holds (_ :: ys) fun i => X (i + 1) :=
        Box.holds_cons.2 ⟨Enclosure.mem_narrow hyhead hreach, hys⟩
      refine Box.holds_cons.2 ⟨hxhead, ih hnext hws fun i hi => ?_⟩
      exact hstep (i + 1) (Nat.succ_lt_succ hi)

/-- Every derivative is in the slice that its step reaches. -/
theorem holds_stepsBackward (hd : d ∈ dt) (hx : Box.Holds (x :: xs) X) (hw : Box.Holds ws W)
    (hstep : ∀ i < xs.length, X (i + 1) = X i + W i * d) :
    Box.Holds ((stepsBackward dt x xs ws).1 :: (stepsBackward dt x xs ws).2.1) X := by
  induction xs generalizing x ws X W with
  | nil => cases ws <;> exact hx
  | cons y ys ih =>
    cases ws with
    | nil => exact hx
    | cons w ws =>
      obtain ⟨hxhead, hy⟩ := Box.holds_cons.1 hx
      obtain ⟨hwhead, hws⟩ := Box.holds_cons.1 hw
      have hrest := ih hy hws fun i hi => hstep (i + 1) (Nat.succ_lt_succ hi)
      have hback : X 0 ∈ (stepsBackward dt y ys ws).1 - w * dt := by
        rw [show X 0 = X 1 - W 0 * d by rw [hstep 0 (Nat.zero_lt_succ _)]; ring]
        exact Enclosure.Sound.mem_sub (Box.holds_cons.1 hrest).1
          (Enclosure.Sound.mem_mul hwhead hd)
      exact Box.holds_cons.2 ⟨Enclosure.mem_narrow hxhead hback, hrest⟩

end Sweeps

/-! ### Trees -/

/-- `y` has the slices of `x`, and each value has its number of the sequence. -/
structure Retains (x y : SliceTree ι) (X : ℕ → ℝ) [Membership ℝ ι] : Prop where
  frame : y.frame = x.frame
  holds : Box.Holds y.values X

section Trees

variable [Membership ℝ ι] {x v : SliceTree ι} {X W : ℕ → ℝ}

theorem retains_withValues {as : List ι} (hlen : as.length = x.values.length)
    (h : Box.Holds as X) : Retains x (x.withValues as) X :=
  ⟨frame_withValues x as, by rwa [values_withValues hlen]⟩

variable [Enclosure.Sound ι] (hdt : v.dt.isFinite = true) (hx : Box.Holds x.values X)
  (hstep : ∀ i, i + 1 < x.values.length → X (i + 1) = X i + W i * real v.dt)

include hdt hx hstep

theorem retains_eulerForward (hw : Box.Holds v.values W) : Retains x (eulerForward v x).1 X := by
  have hlen := length_forwardLoop (Enclosure.point v.dt) v.values x.values
  rw [eulerForward_eq]
  refine retains_withValues hlen ?_
  obtain ⟨a, as, has⟩ := List.exists_cons_of_ne_nil x.values_ne_nil
  obtain ⟨w, ws, hws⟩ := List.exists_cons_of_ne_nil v.values_ne_nil
  rw [has] at hx hstep ⊢
  rw [hws] at hw ⊢
  rw [← stepsForward_eq]
  exact holds_stepsForward (Enclosure.Lawful.mem_point hdt) hx hw fun i hi =>
    hstep i (Nat.succ_lt_succ hi)

theorem retains_eulerBackward (hw : Box.Holds v.values.tail W) :
    Retains x (eulerBackward v x).1 X := by
  have hlen := length_backwardLoop (Enclosure.point v.dt) v.values x.values
  rw [eulerBackward_eq]
  refine retains_withValues hlen ?_
  obtain ⟨a, as, has⟩ := List.exists_cons_of_ne_nil x.values_ne_nil
  obtain ⟨w, ws, hws⟩ := List.exists_cons_of_ne_nil v.values_ne_nil
  rw [has] at hx hstep ⊢
  rw [hws] at hw ⊢
  rw [← stepsBackward_eq]
  exact holds_stepsBackward (Enclosure.Lawful.mem_point hdt) hx hw fun i hi =>
    hstep i (Nat.succ_lt_succ hi)

end Trees

/-- A sequence that moves from slice to slice by Euler steps stays in the slices. The sweep forward
keeps it if each derivative is one of the slice that the step leaves, the sweep backward if it is
one of the slice that the step reaches, and both sweeps together keep it if it is one of either. -/
theorem euler_keeps_sequences {o : Operators} (ho : o.Sound) {x v : SliceTree (Rounded o)}
    {X W : ℕ → ℝ} (hdt : v.dt.isFinite = true) (hx : Box.Holds x.values X)
    (hstep : ∀ i, i + 1 < x.values.length → X (i + 1) = X i + W i * real v.dt) :
    (Box.Holds v.values W → Retains x (eulerForward v x).1 X) ∧
      (Box.Holds v.values.tail W → Retains x (eulerBackward v x).1 X) ∧
      (Box.Holds v.values W → Box.Holds v.values.tail W → Retains x (euler v x).1 X) := by
  have := Rounded.sound ho
  refine ⟨retains_eulerForward hdt hx hstep, retains_eulerBackward hdt hx hstep,
    fun hleft hreached => ?_⟩
  obtain ⟨hframe, hholds⟩ := retains_eulerForward hdt hx hstep hleft
  have hcount : (eulerForward v x).1.values.length = x.values.length := by
    rw [values_eq_flat, values_eq_flat, List.length_map, List.length_map, ← List.length_map (·.1),
      ← flat_frame, hframe, flat_frame, List.length_map]
  have hback := retains_eulerBackward hdt hholds (fun i hi => hstep i (hcount ▸ hi)) hreached
  exact ⟨hback.frame.trans hframe, hback.holds⟩

/-! ### Two slices -/

section Pair

/-- A value over the first and one over the second unit of time. -/
def pair (a b : ι) : SliceTree ι := (build [Interval.unit, ⟨1.0, 2.0⟩] a).withValues [a, b]

variable {a b : ι}

theorem frame_pair : (pair a b).frame = (build [Interval.unit, ⟨1.0, 2.0⟩] a).frame :=
  frame_withValues _ _

theorem values_pair : (pair a b).values = [a, b] := by
  refine values_withValues ?_
  rw [values_eq_flat, (build_spec a Change.consecutive_two_slices (List.cons_ne_nil _ _)).2.1]
  rfl

theorem dt_pair : (pair a b).dt = 1.0 := by
  have hbuild := build_spec a Change.consecutive_two_slices (List.cons_ne_nil _ _)
  rw [← dt_frame, frame_pair, dt_frame, hbuild.1.dt_eq, hbuild.2.1, map_fst_constant]
  decide +kernel

variable [Membership ℝ ι] {X W : ℕ → ℝ}

theorem holds_pair (ha : X 0 ∈ a) (hb : X 1 ∈ b) : Box.Holds (pair a b).values X := by
  rw [values_pair, Box.holds_cons, Box.holds_cons]
  exact ⟨ha, hb, fun i c hc => by cases hc⟩

theorem holds_tail_pair (hb : X 0 ∈ b) : Box.Holds (pair a b).values.tail X := by
  rw [values_pair, List.tail_cons, Box.holds_cons]
  exact ⟨hb, fun i c hc => by cases hc⟩

omit [Membership ℝ ι] in
/-- The derivative one takes zero to one. -/
theorem steps_pair {v : SliceTree ι} (hv : v.dt = 1.0) (hW : W 0 = 1) : ∀ i,
    i + 1 < (pair a b).values.length → ((i + 1 : ℕ) : ℝ) = (i : ℝ) + W i * real v.dt := by
  intro i hi
  rw [values_pair] at hi
  obtain rfl : i = 0 := by simpa using hi
  rw [hv, Binary64.real_one, hW]
  norm_num

omit [Membership ℝ ι] in
theorem values_eulerForward_two {x v : SliceTree ι} {w w' : ι} (hx : x.values = [a, b])
    (hv : v.values = [w, w']) : (eulerForward v x).1.values =
      [a, (Enclosure.narrow b (a + w * Enclosure.point v.dt)).1] := by
  rw [eulerForward, hx, hv]
  exact values_withValues (by rw [hx]; rfl)

omit [Membership ℝ ι] in
theorem values_eulerBackward_two {x v : SliceTree ι} {w w' : ι} (hx : x.values = [a, b])
    (hv : v.values = [w, w']) : (eulerBackward v x).1.values =
      [(Enclosure.narrow a (b - w' * Enclosure.point v.dt)).1, b] := by
  rw [eulerBackward, hx, hv]
  exact values_withValues (by rw [hx]; rfl)

end Pair

open FlowTube.Interval (point unit mem_unit mem_point_zero mem_point_one)

/-- Values from zero to one. -/
noncomputable def units : SliceTree (Rounded .cautious) := pair unit unit

/-- The derivative one, and any from zero to one. -/
noncomputable def rising : SliceTree (Rounded .cautious) := pair (point 1.0) unit

/-- A derivative that both slices have takes zero to one. -/
theorem euler_keeps_sequences_rising : Box.Holds units.values (fun i => (i : ℝ)) ∧
    Retains units (euler rising units).1 fun i => (i : ℝ) := by
  have hzero : ((0 : ℕ) : ℝ) ∈ unit := mem_unit.2 (by norm_num)
  have hone : ((1 : ℕ) : ℝ) ∈ unit := mem_unit.2 (by norm_num)
  have hone' : (1 : ℝ) ∈ unit := mem_unit.2 (by norm_num)
  have hx : Box.Holds units.values fun i => (i : ℝ) := holds_pair hzero hone
  have hdt : rising.dt = 1.0 := dt_pair
  obtain ⟨-, -, hboth⟩ := euler_keeps_sequences (W := fun _ => 1) Operators.sound_cautious
    (by rw [hdt]; rfl) hx (steps_pair hdt rfl)
  exact ⟨hx, hboth (holds_pair (mem_point_one.2 rfl) hone') (holds_tail_pair hone')⟩

/-- From zero to one. -/
noncomputable def step : SliceTree (Rounded .cautious) := pair (point 0.0) (point 1.0)

/-- The derivative one, and zero afterwards. -/
noncomputable def halting : SliceTree (Rounded .cautious) := pair (point 1.0) (point 0.0)

/-- The derivative of the first slice takes zero to one, and that of the second one does not take
one back to zero. -/
theorem eulerBackward_loses_step : Box.Holds step.values (fun i => (i : ℝ)) ∧
    Box.Holds halting.values (fun i => 1 - (i : ℝ)) ∧
    (∀ i, i + 1 < step.values.length →
      ((i + 1 : ℕ) : ℝ) = (i : ℝ) + (1 - (i : ℝ)) * real halting.dt) ∧
    ¬Box.Holds (eulerBackward halting step).1.values (fun i => (i : ℝ)) ∧
    ¬Box.Holds (euler halting step).1.values (fun i => (i : ℝ)) := by
  have hx : step.values = [point 0.0, point 1.0] := values_pair
  have hv : halting.values = [point 1.0, point 0.0] := values_pair
  have hdt : halting.dt = 1.0 := dt_pair
  have hstop : Operators.cautious.mul (point 0.0) (point 1.0) = point 0.0 :=
    Operators.cautious_mul_one rfl
  have hback : Operators.cautious.sub (point 1.0) (point 0.0) = point 1.0 :=
    Operators.cautious_sub_zero rfl
  have hgo : Operators.cautious.mul (point 1.0) (point 1.0) = point 1.0 :=
    Operators.cautious_mul_one (Interval.eq_of_bounds (by decide +kernel) (by decide +kernel))
  have hforth : Operators.cautious.add (point 0.0) (point 1.0) = point 1.0 :=
    Operators.cautious_zero_add rfl
  -- the second slice has the number one, which the derivative zero does not take back to zero
  have hlost {y : SliceTree (Rounded .cautious)} (hy : y.values = [point 0.0, point 1.0]) :
      ¬Box.Holds (eulerBackward halting y).1.values fun i => (i : ℝ) := by
    rw [values_eulerBackward_two hy hv, hdt]
    intro h
    have hmem : ((0 : ℕ) : ℝ) ∈ (Enclosure.narrow (point 0.0)
        (Operators.cautious.sub (point 1.0) (Operators.cautious.mul (point 0.0) (point 1.0)))).1 :=
      (Box.holds_cons.1 h).1
    have hnone : (Enclosure.narrow (point 0.0) (point 1.0)).1 = Interval.empty :=
      Interval.eq_of_bounds (by decide +kernel) (by decide +kernel)
    rw [hstop, hback] at hmem
    exact Interval.not_mem_empty (hnone ▸ hmem)
  have hforward : (eulerForward halting step).1.values = [point 0.0, point 1.0] := by
    rw [values_eulerForward_two hx hv, hdt]
    change [point 0.0, (Enclosure.narrow (point 1.0) (Operators.cautious.add (point 0.0)
      (Operators.cautious.mul (point 1.0) (point 1.0)))).1] = [point 0.0, point 1.0]
    rw [hgo, hforth]
    rfl
  refine ⟨holds_pair ?_ ?_, holds_pair ?_ ?_, steps_pair hdt (by norm_num), hlost hx,
    hlost hforward⟩
  · exact mem_point_zero.2 Nat.cast_zero
  · exact mem_point_one.2 Nat.cast_one
  · exact mem_point_one.2 (by norm_num)
  · exact mem_point_zero.2 (by norm_num)

end SliceTree

end FlowTube
