import FlowTube.Contractor.Ode
import FlowTube.Proofs.TubeVector.Encloses

/-! What contractions do to a vector comes down to what they do to single slices: integration,
contraction by a derivative and a Picard step write one slice after the other, in every component;
a Picard step may also cut slices, if it need not keep them. So a relation between tubes that holds
for each of these writes, and for several in a row, holds for all that a contraction does, whatever
the dynamics and the operators are. The first such relation is the shape. -/

namespace FlowTube

variable {ι : Type}

/-- The same breakpoints, and as many codomains and gates. -/
structure Tube.SameShape (y x : Tube ι) : Prop where
  times : y.times = x.times
  codomains : y.codomains.size = x.codomains.size
  gates : y.gates.size = x.gates.size

/-- Component by component the same shape. -/
def TubeVector.SameShape (y x : TubeVector ι) : Prop :=
  List.Forall₂ Tube.SameShape y.components x.components

namespace Tube

theorem SameShape.refl (x : Tube ι) : x.SameShape x := ⟨rfl, rfl, rfl⟩

theorem SameShape.trans {x y z : Tube ι} (hzy : z.SameShape y) (hyx : y.SameShape x) :
    z.SameShape x :=
  ⟨hzy.times.trans hyx.times, hzy.codomains.trans hyx.codomains, hzy.gates.trans hyx.gates⟩

theorem SameShape.ordered {x y : Tube ι} (h : y.SameShape x) (hx : x.Ordered) : y.Ordered where
  someSlice := h.codomains ▸ hx.someSlice
  times := by rw [h.times, h.codomains, hx.toFits.times]
  gates := by rw [h.gates, h.codomains, hx.toFits.gates]
  increasing := h.times ▸ hx.increasing

theorem SameShape.sliced {x y : Tube ι} (h : y.SameShape x) (hx : x.Sliced) : y.Sliced :=
  hx.of_shape h.times h.codomains h.gates

theorem sameShape_putSlice (x : Tube ι) (i : ℕ) (c a b : ι) : (x.putSlice i c a b).SameShape x :=
  ⟨rfl, Array.size_setIfInBounds, by simp [putSlice]⟩

end Tube

namespace TubeVector

variable {x y : TubeVector ι}

theorem SameShape.refl (x : TubeVector ι) : x.SameShape x :=
  List.forall₂_same.2 fun c _ => Tube.SameShape.refl c

theorem SameShape.exists_partner (h : y.SameShape x) :
    ∀ c ∈ y.components, ∃ d ∈ x.components, c.SameShape d := by
  obtain ⟨hlen, hget⟩ := List.forall₂_iff_get.1 h
  intro c hc
  obtain ⟨j, hj, rfl⟩ := List.mem_iff_getElem.1 hc
  exact ⟨x.components[j], List.getElem_mem (hlen ▸ hj), hget j hj (hlen ▸ hj)⟩

theorem Ordered.of_sameShape (h : x.Ordered) (hy : y.SameShape x) :
    y.Ordered ∧ y.times = x.times := by
  have hsome : y.components ≠ [] := by
    refine List.ne_nil_of_length_pos ?_
    rw [hy.length_eq]
    exact List.length_pos_of_ne_nil h.someComponent
  have hparts : ∀ c ∈ y.components, c.Ordered ∧ c.times = x.times := by
    intro c hc
    obtain ⟨d, hd, hcd⟩ := hy.exists_partner c hc
    exact ⟨hcd.ordered (h.components d hd), hcd.times.trans (h.shared d hd)⟩
  have htimes := (hparts _ (first_mem_of_ne_nil hsome)).2
  exact ⟨⟨hsome, fun c hc => (hparts c hc).1, fun c hc => (hparts c hc).2.trans htimes.symm⟩,
    htimes⟩

theorem SameShape.keepsForm (h : y.SameShape x) : x.KeepsForm y := by
  have hlen : y.components.length = x.components.length := h.length_eq
  have hpart := h.exists_partner
  have hpartitioned (hx : x.Partitioned) : y.Partitioned := by
    refine ⟨List.ne_nil_of_length_pos ?_, fun c hc => ?_⟩
    · rw [hlen]
      exact List.length_pos_of_ne_nil hx.someComponent
    · obtain ⟨d, hd, hcd⟩ := hpart c hc
      exact hcd.sliced (hx.components d hd)
  refine ⟨hpartitioned, fun hx => ?_⟩
  obtain ⟨hsome, hsliced⟩ := hpartitioned hx.toPartitioned
  have hy : y.Sliced := by
    refine Sliced.of_components x.times hsome hsliced fun c hc => ?_
    obtain ⟨d, hd, hcd⟩ := hpart c hc
    exact hcd.times.trans (hx.shared d hd)
  obtain ⟨d, hd, hcd⟩ := hpart _ hy.first_mem
  exact ⟨hy, hlen, sameSpan_of_component hy hx hy.first_mem hd
    (Tube.sameSpan_of_times hy.first (hx.components d hd) hcd.times)⟩

end TubeVector

variable [Enclosure ι]

theorem Tube.sameShape_enforceGates (x : Tube ι) : x.enforceGates.SameShape x :=
  ⟨rfl, rfl, Array.size_mapIdx⟩

theorem TubeVector.sameShape_enforceGates (x : TubeVector ι) : x.enforceGates.SameShape x := by
  change List.Forall₂ Tube.SameShape (x.components.map Tube.enforceGates) x.components
  rw [List.forall₂_map_left_iff]
  exact List.forall₂_same.2 fun c _ => Tube.sameShape_enforceGates c

/-! ### Slices written one after the other -/

/-- A relation between a tube after and before one or more of its slices were written by
contractions. -/
structure SliceRelation (Q : Tube ι → Tube ι → Prop) : Prop where
  refl : ∀ x, Q x x
  trans : ∀ {x y z}, Q z y → Q y x → Q z x
  derivative : ∀ x i v, Q (Derivative.contractSlice x i v).1 x
  integration : ∀ forward i x codomain exit,
    Q (Integration.restrictSlice forward i x codomain exit).1 x
  picard : ∀ forward i x codomain exit, Q (Picard.restrictSlice forward i x codomain exit) x

namespace SliceRelation

/-- Component by component a relation. -/
def Holds (Q : Tube ι → Tube ι → Prop) (y x : TubeVector ι) : Prop :=
  List.Forall₂ Q y.components x.components

variable {Q : Tube ι → Tube ι → Prop} (hQ : SliceRelation Q) {x y z : TubeVector ι}

include hQ

theorem holds_refl (x : TubeVector ι) : Holds Q x x := List.forall₂_same.2 fun c _ => hQ.refl c

theorem holds_trans (hzy : Holds Q z y) (hyx : Holds Q y x) : Holds Q z x :=
  forall₂_trans hzy hyx fun _ _ _ => hQ.trans

/-- A contraction may give back the vector it was given, with anything told of it. -/
theorem holds_of_given {α : Type} {a b : α} (h : (.ok (x, a) : Except Error _) = .ok (y, b)) :
    Holds Q y x := by
  obtain ⟨rfl, -⟩ := Prod.mk.inj (Except.ok.inj h)
  exact hQ.holds_refl x

omit [Enclosure ι] hQ in
/-- A relation that rests on a property of what was there. -/
theorem Holds.of_forall {P : Tube ι → Prop} (h : Holds (fun y x => P x → Q y x) y x)
    (hx : ∀ c ∈ x.components, P c) : Holds Q y x := by
  obtain ⟨hlen, hget⟩ := List.forall₂_iff_get.1 h
  exact List.forall₂_iff_get.2 ⟨hlen, fun j hj hj' => hget j hj hj' (hx _ (List.getElem_mem hj'))⟩

omit [Enclosure ι] hQ in
/-- Components changed one by one, each with a partner at its place. -/
theorem holds_zipWith {α : Type} {f : Tube ι → α → Tube ι} (hf : ∀ c a, Q (f c a) c)
    {cs : List (Tube ι)} {as : List α} (h : cs.length ≤ as.length) :
    Holds Q ⟨List.zipWith f cs as⟩ ⟨cs⟩ := by
  refine List.forall₂_iff_get.2 ⟨?_, fun j hj hj' => ?_⟩
  · simpa using h
  · simp only [List.get_eq_getElem, List.getElem_zipWith]
    exact hf _ _

omit [Enclosure ι] hQ in
/-- Components changed one by one, each by the sides of two boxes that are long enough. -/
theorem holds_zipWith_zip {f : Tube ι → ι × ι → Tube ι} (hf : ∀ c p, Q (f c p) c)
    {cs : List (Tube ι)} {a b : Box ι}
    (h : ¬(decide (a.length < cs.length) || decide (b.length < cs.length)) = true) :
    Holds Q ⟨List.zipWith f cs (a.zip b)⟩ ⟨cs⟩ := by
  rw [Bool.or_eq_true, decide_eq_true_iff, decide_eq_true_iff, not_or, not_lt, not_lt] at h
  refine holds_zipWith hf ?_
  rw [List.length_zip]
  exact le_min h.1 h.2

end SliceRelation

open SliceRelation (Holds)

variable {Q : Tube ι → Tube ι → Prop}

/-! ### Contraction by a derivative -/

namespace Derivative

theorem related_sweep (hQ : SliceRelation Q) (v : Tube ι) (slices : List ℕ) (x : Tube ι) :
    Q (sweep v slices x).1 x := by
  unfold sweep
  generalize false = changed
  induction slices generalizing x changed with
  | nil => exact hQ.refl x
  | cons i slices ih =>
    rw [List.foldl_cons]
    exact hQ.trans (ih _ _) (hQ.derivative x i (v.codomain i))

theorem related_contractTube (hQ : SliceRelation Q) (direction : Direction) (v x : Tube ι) :
    Q (contractTube direction v x).1 x := by
  unfold contractTube
  cases direction with
  | forward => exact related_sweep hQ v _ x
  | backward => exact related_sweep hQ v _ x
  | both => exact hQ.trans (related_sweep hQ v _ _) (related_sweep hQ v _ x)

theorem holds_contract (hQ : SliceRelation Q) {direction : Direction} {v x y : TubeVector ι}
    {changed : Bool} (h : contract direction v x = .ok (y, changed)) : Holds Q y x := by
  unfold contract at h
  split_ifs at h with hdim
  obtain ⟨rfl, -⟩ := Prod.mk.inj (Except.ok.inj h)
  have hlen : x.components.length ≤ v.components.length := by
    have hdim' : x.dimension = v.dimension := by simpa using hdim
    exact hdim'.le
  rw [List.map_zipWith, List.zipWith_comm]
  exact SliceRelation.holds_zipWith (fun c v => related_contractTube hQ direction v c) hlen

end Derivative

/-! ### Integration -/

namespace Integration

/-- Slice `i` of every component restricted to the sides of two boxes, which must be long
enough. -/
def restrictAll (forward : Bool) (i : ℕ) (x : TubeVector ι) (boxes : Box ι × Box ι) :
    Except Error (TubeVector ι × Bool) :=
  if boxes.1.length < x.dimension || boxes.2.length < x.dimension then .error .indexOutOfRange
  else
    let results := List.zipWith (fun c (a, b) => restrictSlice forward i c a b) x.components
      (boxes.1.zip boxes.2)
    .ok (⟨results.map (·.1)⟩, results.any (·.2))

/-- The codomain and the exit of a slice by the scheme. -/
def integrateSlice (m : Integration) (f : Dynamics ι) (x : TubeVector ι) (t : Interval)
    (entry seed : Box ι) (forward : Bool) : Except Error (Box ι × Box ι) :=
  match m.scheme with
  | .basic => integrate f x t entry seed forward
  | _ => m.integrateByPieces f x t entry seed forward

theorem contractSlice_eq (m : Integration) (f : Dynamics ι) (x : TubeVector ι) (i : ℕ)
    (forward : Bool) :
    m.contractSlice f x i forward =
      let entry := x.gate (TubeVector.entryExit forward i).1
      if Box.isEmpty entry then .ok (x, false)
      else m.seed? f x i entry forward >>= fun seed =>
        match seed with
        | none => .ok (x, false)
        | some seed =>
          m.integrateSlice f x (x.sliceDomain i) entry seed forward >>=
            restrictAll forward i x := by
  unfold contractSlice
  dsimp only
  split_ifs
  · rfl
  · refine congrArg _ (funext fun seed => ?_)
    cases seed with
    | none => rfl
    | some seed =>
      unfold integrateSlice
      cases m.scheme <;> rfl

theorem contract_eq (m : Integration) (f : Dynamics ι) (t0 : Float) (direction : Direction)
    (x : TubeVector ι) :
    m.contract f t0 direction x =
      match startEnd? x t0 with
      | none => .ok (x, false)
      | some (start, stop) =>
        (if direction.goesForward then
            m.sweep f true (List.range' start (x.sliceCount - start)) false x
          else .ok (x, false)) >>= fun r =>
          if direction.goesBackward && !r.1.isEmpty then
            m.sweep f false (List.range (min stop r.1.sliceCount)).reverse r.2 r.1
          else .ok r := by
  unfold contract
  cases startEnd? x t0 with
  | none => rfl
  | some r => cases direction <;> rfl

variable {f : Dynamics ι} {x y : TubeVector ι} {changed : Bool} (hQ : SliceRelation Q)

include hQ

theorem holds_restrictAll {forward : Bool} {i : ℕ} {boxes : Box ι × Box ι}
    (h : restrictAll forward i x boxes = .ok (y, changed)) : Holds Q y x := by
  unfold restrictAll at h
  split_ifs at h with hlen
  obtain ⟨rfl, -⟩ := Prod.mk.inj (Except.ok.inj h)
  rw [List.map_zipWith]
  exact SliceRelation.holds_zipWith_zip (fun c p => hQ.integration forward i c p.1 p.2) hlen

theorem holds_contractSlice {m : Integration} {i : ℕ} {forward : Bool}
    (h : m.contractSlice f x i forward = .ok (y, changed)) : Holds Q y x := by
  rw [contractSlice_eq] at h
  dsimp only at h
  split_ifs at h
  · exact hQ.holds_of_given h
  · obtain ⟨seed, -, h⟩ := bind_eq_ok.1 h
    cases seed with
    | none => exact hQ.holds_of_given h
    | some seed =>
      obtain ⟨boxes, -, h⟩ := bind_eq_ok.1 h
      exact holds_restrictAll hQ h

theorem holds_sweep {m : Integration} {forward : Bool} {slices : List ℕ} {before : Bool}
    (h : m.sweep f forward slices before x = .ok (y, changed)) : Holds Q y x := by
  induction slices generalizing x before with
  | nil => exact hQ.holds_of_given h
  | cons i slices ih =>
    rw [sweep] at h
    obtain ⟨⟨z, narrowed⟩, hslice, h⟩ := bind_eq_ok.1 h
    have hz := holds_contractSlice hQ hslice
    dsimp only at h
    split_ifs at h
    · exact hQ.holds_trans (hQ.holds_of_given h) hz
    · exact hQ.holds_trans (ih h) hz

theorem holds_contract {m : Integration} {t0 : Float} {direction : Direction}
    (h : m.contract f t0 direction x = .ok (y, changed)) : Holds Q y x := by
  rw [contract_eq] at h
  cases hstart : startEnd? x t0 with
  | none =>
    rw [hstart] at h
    exact hQ.holds_of_given h
  | some r =>
    rw [hstart] at h
    obtain ⟨⟨z, narrowed⟩, hforward, h⟩ := bind_eq_ok.1 h
    have hz : Holds Q z x := by
      split_ifs at hforward
      · exact holds_sweep hQ hforward
      · exact hQ.holds_of_given hforward
    split_ifs at h
    · exact hQ.holds_trans (holds_sweep hQ h) hz
    · exact hQ.holds_trans (hQ.holds_of_given h) hz

end Integration

/-! ### Picard steps -/

namespace Picard

/-- Slice `i` of every component restricted to the sides of two boxes, which must be long
enough. -/
def restrictAll (forward : Bool) (i : ℕ) (x : TubeVector ι) (boxes : Box ι × Box ι) :
    Except Error (TubeVector ι × Outcome) :=
  if boxes.1.length < x.dimension || boxes.2.length < x.dimension then .error .indexOutOfRange
  else .ok (⟨List.zipWith (fun c (a, b) => restrictSlice forward i c a b) x.components
      (boxes.1.zip boxes.2)⟩, .enclosed)

theorem contractSlice_eq (p : Picard) (f : Dynamics ι) (x : TubeVector ι) (i : ℕ)
    (forward : Bool) :
    p.contractSlice f x i forward =
      let entry := x.gate (TubeVector.entryExit forward i).1
      if Box.isBounded (x.codomain i) || !Box.isBounded entry then .ok (x, .skipped)
      else p.enclosure f x (x.sliceDomain i) entry forward >>= fun found =>
        match found with
        | none => .ok (x, .failed)
        | some boxes => restrictAll forward i x boxes := by
  unfold contractSlice
  dsimp only
  by_cases hc : Box.isBounded (x.codomain i) = true
  · simp only [hc, if_true, Bool.true_or]
    rfl
  · by_cases he : Box.isBounded (x.gate (TubeVector.entryExit forward i).1) = true
    · simp only [hc, he, Bool.not_true, Bool.or_false, if_false, Bool.false_eq_true]
      refine congrArg _ (funext fun found => ?_)
      cases found with
      | none => rfl
      | some boxes =>
        dsimp only [restrictAll]
        split_ifs <;> rfl
    · simp only [hc, he, Bool.not_false, Bool.or_true, if_true, if_false, Bool.false_eq_true]
      rfl

theorem contract_eq (p : Picard) (fuel : ℕ) (f : Dynamics ι) (direction : Direction)
    (x : TubeVector ι) :
    p.contract fuel f direction x =
      (if direction.goesForward then
          p.forwardLoop f (x.domain.diam * minSliceFraction) fuel 0 false x
        else .ok (x, false)) >>= fun r =>
        if direction.goesBackward then
          p.backwardLoop f (x.domain.diam * minSliceFraction) fuel r.1.sliceCount r.2 r.1
        else .ok r := by
  unfold contract
  cases direction <;> rfl

variable {p : Picard} {f : Dynamics ι} {x y : TubeVector ι} (hQ : SliceRelation Q)

include hQ

theorem holds_contractSlice {i : ℕ} {forward : Bool} {outcome : Outcome}
    (h : p.contractSlice f x i forward = .ok (y, outcome)) : Holds Q y x := by
  rw [contractSlice_eq] at h
  dsimp only at h
  split_ifs at h
  · exact hQ.holds_of_given h
  · obtain ⟨found, -, h⟩ := bind_eq_ok.1 h
    cases found with
    | none => exact hQ.holds_of_given h
    | some boxes =>
      dsimp only [restrictAll] at h
      split_ifs at h with hlen
      obtain ⟨rfl, -⟩ := Prod.mk.inj (Except.ok.inj h)
      exact SliceRelation.holds_zipWith_zip (fun c p => hQ.picard forward i c p.1 p.2) hlen

variable (hcut : p.preserveSlicing = true ∨ ∀ (c : Tube ι) t, Q (c.sample t).1 c)

include hcut

omit [Enclosure ι] hQ in
/-- Only a step that may cut slices cuts one. -/
theorem holds_sample_of_failed {minWidth : Float} {i : ℕ} {outcome : Outcome} (t : Float)
    (h : (outcome == .failed && p.splittable x i minWidth) = true) :
    Holds Q (x.sample t).1 x := by
  unfold splittable at h
  rw [Bool.and_eq_true, Bool.and_eq_true, Bool.not_eq_true'] at h
  have hsample := hcut.resolve_left (Bool.eq_false_iff.1 h.2.1)
  unfold Holds
  rw [TubeVector.components_sample, List.forall₂_map_left_iff]
  exact List.forall₂_same.2 fun c _ => hsample c t

theorem holds_forwardLoop {minWidth : Float} {fuel i : ℕ} {before found : Bool}
    (h : p.forwardLoop f minWidth fuel i before x = .ok (y, found)) : Holds Q y x := by
  induction fuel generalizing i before x with
  | zero =>
    unfold forwardLoop at h
    split_ifs at h
    exact hQ.holds_of_given h
  | succ fuel ih =>
    unfold forwardLoop at h
    split_ifs at h
    · obtain ⟨⟨z, outcome⟩, hslice, h⟩ := bind_eq_ok.1 h
      have hz := holds_contractSlice hQ hslice
      dsimp only at h
      split_ifs at h with hsplit
      · exact hQ.holds_trans (hQ.holds_trans (ih h) (holds_sample_of_failed hcut _ hsplit)) hz
      · exact hQ.holds_trans (ih h) hz
    · exact hQ.holds_of_given h

theorem holds_backwardLoop {minWidth : Float} {fuel i : ℕ} {before found : Bool}
    (h : p.backwardLoop f minWidth fuel i before x = .ok (y, found)) : Holds Q y x := by
  induction fuel generalizing i before x with
  | zero =>
    cases i with
    | zero => exact hQ.holds_of_given h
    | succ k => contradiction
  | succ fuel ih =>
    cases i with
    | zero => exact hQ.holds_of_given h
    | succ k =>
      unfold backwardLoop at h
      split_ifs at h
      obtain ⟨⟨z, outcome⟩, hslice, h⟩ := bind_eq_ok.1 h
      have hz := holds_contractSlice hQ hslice
      dsimp only at h
      split_ifs at h with hsplit
      · exact hQ.holds_trans (hQ.holds_trans (ih h) (holds_sample_of_failed hcut _ hsplit)) hz
      · exact hQ.holds_trans (ih h) hz

theorem holds_contract {fuel : ℕ} {direction : Direction} {found : Bool}
    (h : p.contract fuel f direction x = .ok (y, found)) : Holds Q y x := by
  rw [contract_eq] at h
  obtain ⟨⟨z, before⟩, hforward, h⟩ := bind_eq_ok.1 h
  have hz : Holds Q z x := by
    split_ifs at hforward
    · exact holds_forwardLoop hQ hcut hforward
    · exact hQ.holds_of_given hforward
  dsimp only at h
  split_ifs at h
  · exact hQ.holds_trans (holds_backwardLoop hQ hcut h) hz
  · exact hQ.holds_trans (hQ.holds_of_given h) hz

end Picard

/-! ### The contraction of a mode -/

theorem OdeContractor.boundThenDerive_eq (p : Picard) (fuel : ℕ) (f : Dynamics ι) (t0 : Float)
    (incremental peeling : Bool) (x : TubeVector ι) :
    boundThenDerive p fuel f t0 incremental peeling x =
      (if !peeling && x.volume ≥ Binary64.maxFinite then (·.1) <$> p.contract fuel f .both x
        else .ok x) >>= fun y => f.derivative y >>= fun v =>
          (·.1) <$> Derivative.contract (spread x.domain t0 incremental) v y := by
  unfold boundThenDerive
  split_ifs <;> rfl

/-- A Picard step and a contraction by the derivative write slices, and cut them only if the
Picard step may. -/
theorem OdeContractor.holds_boundThenDerive (hQ : SliceRelation Q) {p : Picard} {fuel : ℕ}
    {f : Dynamics ι} {t0 : Float} {incremental peeling : Bool} {x y : TubeVector ι}
    (hcut : p.preserveSlicing = true ∨ ∀ (c : Tube ι) t, Q (c.sample t).1 c)
    (h : boundThenDerive p fuel f t0 incremental peeling x = .ok y) : Holds Q y x := by
  rw [boundThenDerive_eq] at h
  obtain ⟨z, hpicard, h⟩ := bind_eq_ok.1 h
  have hz : Holds Q z x := by
    split_ifs at hpicard
    · obtain ⟨found, hfound⟩ := map_fst_eq_ok hpicard
      exact Picard.holds_contract hQ hcut hfound
    · obtain rfl := Except.ok.inj hpicard
      exact hQ.holds_refl _
  obtain ⟨v, -, h⟩ := bind_eq_ok.1 h
  obtain ⟨changed, hchanged⟩ := map_fst_eq_ok h
  exact hQ.holds_trans (Derivative.holds_contract hQ hchanged) hz

/-- A contraction by the dynamics writes slices only. -/
theorem OdeContractor.holds_contract (hQ : SliceRelation Q) {c : OdeContractor} {f : Dynamics ι}
    {t0 : Float} {incremental peeling : Bool} {x y : TubeVector ι}
    (h : c.contract f t0 incremental peeling x = .ok y) : Holds Q y x := by
  cases c with
  | disabled =>
    obtain rfl := Except.ok.inj h
    exact hQ.holds_refl _
  | integration scheme =>
    obtain ⟨⟨z, b⟩, hfirst, h⟩ := bind_eq_ok.1 h
    obtain ⟨⟨w, b'⟩, hsecond, h⟩ := bind_eq_ok.1 h
    obtain rfl := Except.ok.inj h
    exact hQ.holds_trans (Integration.holds_contract hQ hsecond)
      (Integration.holds_contract hQ hfirst)
  | picardDerivative => exact holds_boundThenDerive hQ (Or.inl rfl) h

/-! ### The shape -/

theorem sliceRelation_sameShape : SliceRelation fun y x : Tube ι => y.SameShape x where
  refl := Tube.SameShape.refl
  trans := Tube.SameShape.trans
  derivative x i _ := Tube.sameShape_putSlice x i _ _ _
  integration _ _ _ _ _ := ⟨rfl, Array.size_setIfInBounds, by simp [Integration.restrictSlice]⟩
  picard _ _ _ _ _ := ⟨rfl, Array.size_setIfInBounds, by simp [Picard.restrictSlice]⟩

theorem Derivative.sameShape_sweep (v : Tube ι) (slices : List ℕ) (x : Tube ι) :
    (sweep v slices x).1.SameShape x :=
  related_sweep sliceRelation_sameShape v slices x

theorem Derivative.sameShape_contract {direction : Direction} {v x y : TubeVector ι}
    {changed : Bool} (h : contract direction v x = .ok (y, changed)) : y.SameShape x :=
  holds_contract sliceRelation_sameShape h

section Integration

variable {m : Integration} {f : Dynamics ι} {x y : TubeVector ι} {forward changed : Bool}

theorem Integration.sameShape_contractSlice {i : ℕ}
    (h : m.contractSlice f x i forward = .ok (y, changed)) : y.SameShape x :=
  holds_contractSlice sliceRelation_sameShape h

theorem Integration.sameShape_sweep {slices : List ℕ} {before : Bool}
    (h : m.sweep f forward slices before x = .ok (y, changed)) : y.SameShape x :=
  holds_sweep sliceRelation_sameShape h

theorem Integration.sameShape_contract {t0 : Float} {direction : Direction}
    (h : m.contract f t0 direction x = .ok (y, changed)) : y.SameShape x :=
  holds_contract sliceRelation_sameShape h

end Integration

/-- A contraction by the dynamics keeps the form of a vector. -/
theorem OdeContractor.keepsForm_contract {c : OdeContractor} {f : Dynamics ι} {t0 : Float}
    {incremental peeling : Bool} {x y : TubeVector ι}
    (h : c.contract f t0 incremental peeling x = .ok y) : x.KeepsForm y :=
  TubeVector.SameShape.keepsForm (holds_contract sliceRelation_sameShape h)

end FlowTube
