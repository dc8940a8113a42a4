import FlowTube.Proofs.Contractor.Shape
import FlowTube.Proofs.Tube.Regular

/-! Dynamics that answer every question of a contraction. All boxes of a contraction then have
as many sides as the tube has components, and it does not fail. Without such dynamics nothing is
said of the boxes. -/

namespace FlowTube

variable {ι : Type}

namespace Dynamics

/-- For a box of `n` sides and a tube of `n` components there is an answer of `n` sides. -/
def Answers (f : Dynamics ι) (n : ℕ) : Prop :=
  ∀ (t : Interval) (box : Box ι) (x : TubeVector ι), box.length = n → x.dimension = n →
    ∃ v : Box ι, f.applyOnTube t box x = .ok v ∧ v.length = n

/-- The box has `n` sides, if the dynamics answer. -/
def Sized (f : Dynamics ι) (n : ℕ) (box : Box ι) : Prop := f.Answers n → box.length = n

/-- The computation fails only if the dynamics do not answer. -/
def Yields {α : Type} (f : Dynamics ι) (n : ℕ) (m : Except Error α) (P : α → Prop) : Prop :=
  Settles m P fun _ => ¬f.Answers n

variable {f : Dynamics ι} {n : ℕ} {a b box : Box ι} {x : TubeVector ι}

theorem sized_of_length (h : box.length = n) : f.Sized n box := fun _ => h

theorem Sized.zipWith (ha : f.Sized n a) (hb : f.Sized n b) (op : ι → ι → ι) :
    f.Sized n (List.zipWith op a b) := by
  intro h
  rw [List.length_zipWith, ha h, hb h, min_self]

/-- An answer has a side for every component. -/
theorem Answers.length_eq {t : Interval} {v : Box ι} (h : f.Answers n) (hbox : box.length = n)
    (hx : x.dimension = n) (hv : f.applyOnTube t box x = .ok v) : v.length = n := by
  obtain ⟨w, hw, hlen⟩ := h t box x hbox hx
  rw [hv] at hw
  exact Except.ok.inj hw ▸ hlen

section Results

variable {α : Type} {m : Except Error α} {P : α → Prop}

/-- If the dynamics answer, then there is a result. -/
theorem Yields.exists_ok (h : f.Yields n m P) (hf : f.Answers n) : ∃ a, m = .ok a ∧ P a := by
  cases m with
  | ok a => exact ⟨a, rfl, h⟩
  | error e => exact absurd hf h

theorem Yields.of_ok {a : α} (h : f.Yields n m P) (hm : m = .ok a) : P a := by
  subst hm
  exact h

end Results

theorem yields_apply (hbox : f.Sized n box) (hx : x.dimension = n) (t : Interval) :
    f.Yields n (f.applyOnTube t box x) (f.Sized n) := by
  by_cases h : f.Answers n
  · obtain ⟨v, hv, hlen⟩ := h t box x (hbox h) hx
    rw [hv]
    exact fun _ => hlen
  · cases f.applyOnTube t box x with
    | ok v => exact fun h' => absurd h' h
    | error e => exact h

end Dynamics

variable [Enclosure ι] {f : Dynamics ι} {n : ℕ} {x : TubeVector ι} {t : Interval}
  {entry seed : Box ι} {forward : Bool}

theorem Dynamics.Sized.inter {a b : Box ι} (ha : f.Sized n a) (hb : f.Sized n b) :
    f.Sized n (Box.inter a b) := ha.zipWith hb _

theorem Dynamics.Sized.step {v : Box ι} (hentry : f.Sized n entry) (hv : f.Sized n v)
    (forward : Bool) (h : ι) : f.Sized n (Box.step forward entry v h) := hentry.zipWith hv _

/-- Both boxes of a slice have a side for every component. -/
def Dynamics.SizedPair (f : Dynamics ι) (n : ℕ) (boxes : Box ι × Box ι) : Prop :=
  f.Sized n boxes.1 ∧ f.Sized n boxes.2

/-! ### Picard boxes -/

namespace Picard

theorem yields_search (hx : x.dimension = n) (hentry : f.Sized n entry) (delta : Float)
    (tries : ℕ) {guess : Box ι} (hguess : f.Sized n guess) :
    f.Yields n (search delta f x t entry forward tries guess)
      (fun found => ∀ boxes, found = some boxes → f.SizedPair n boxes) := by
  induction tries generalizing guess with
  | zero => exact fun boxes h => nomatch h
  | succ tries ih =>
    refine Settles.bind (f.yields_apply hguess hx t) fun v hv => ?_
    have hnext := hentry.step hv forward (Enclosure.elapsed t)
    dsimp only
    split_ifs
    · exact fun boxes h => nomatch h
    · refine Settles.bind (f.yields_apply hnext hx t) fun w hw boxes h => ?_
      obtain rfl := Option.some.inj h
      have hcodomain := (hentry.step hw forward (Enclosure.elapsed t)).inter hnext
      exact ⟨hcodomain, (hentry.step hw forward (Enclosure.width t)).inter hcodomain⟩
    · exact ih (hnext.zipWith hguess _)

/-- A visit writes the slice or leaves it as it is. -/
theorem yields_contractSlice {Q : Tube ι → Tube ι → Prop} (hQ : SliceRelation Q) (p : Picard)
    (hx : x.dimension = n) (i : ℕ) (forward : Bool) :
    f.Yields n (p.contractSlice f x i forward) (fun r => SliceRelation.Holds Q r.1 x) := by
  rw [contractSlice_eq]
  dsimp only
  have hentry : f.Sized n (x.gate (TubeVector.entryExit forward i).1) :=
    f.sized_of_length ((List.length_map _).trans hx)
  split_ifs
  · exact hQ.holds_refl x
  · refine Settles.bind (yields_search hx hentry _ _ hentry) fun found hfound => ?_
    cases found with
    | none => exact hQ.holds_refl x
    | some boxes =>
      obtain ⟨hcodomain, hexit⟩ := hfound boxes rfl
      dsimp only [restrictAll]
      split_ifs with hshort
      · intro h
        rw [hcodomain h, hexit h, hx] at hshort
        simp at hshort
      · exact SliceRelation.holds_zipWith_zip (fun c p => hQ.picard forward i c p.1 p.2) hshort

end Picard

/-! ### Integration -/

namespace Integration

theorem yields_settle (hx : x.dimension = n) (hentry : f.Sized n entry) (k : ℕ)
    (hseed : f.Sized n seed) : f.Yields n (settle f x t entry forward k seed) (f.Sized n) := by
  induction k generalizing seed with
  | zero => exact hseed
  | succ k ih =>
    refine Settles.bind (f.yields_apply hseed hx t) fun v hv => ?_
    have hnext := hseed.inter (hentry.step hv forward (Enclosure.elapsed t))
    dsimp only
    split_ifs
    · exact hnext
    · exact ih hnext

theorem yields_integrate (hx : x.dimension = n) (hentry : f.Sized n entry)
    (hseed : f.Sized n seed) :
    f.Yields n (integrate f x t entry seed forward) (f.SizedPair n) := by
  refine Settles.bind (yields_settle hx hentry localIterations hseed) fun c hc => ?_
  refine Settles.bind (f.yields_apply hc hx t) fun v hv => ?_
  exact ⟨hc, (hentry.step hv forward (Enclosure.width t)).inter hc⟩

theorem yields_integratePiece (m : Integration) (hx : x.dimension = n) (hentry : f.Sized n entry)
    (hseed : f.Sized n seed) :
    f.Yields n (m.integratePiece f x t entry seed forward) (f.SizedPair n) := by
  unfold integratePiece
  split_ifs
  · refine Settles.bind (Picard.yields_search hx hentry _ _ hentry) fun found hfound => ?_
    cases found with
    | none => exact yields_integrate hx hentry hseed
    | some boxes => exact yields_integrate hx hentry (hseed.inter (hfound boxes rfl).1)
  · exact yields_integrate hx hentry hseed

theorem yields_integratePieces (m : Integration) (hx : x.dimension = n)
    (hentry : f.Sized n entry) (hseed : f.Sized n seed) (k : ℕ) (pieces : List ι)
    {joined : Box ι × Box ι} (hjoined : f.SizedPair n joined) :
    f.Yields n (m.integratePieces f x t entry seed forward k pieces joined) (f.SizedPair n) := by
  induction pieces generalizing joined with
  | nil => exact hjoined
  | cons piece pieces ih =>
    have hentry' : f.Sized n (entry.set k piece) := fun h => List.length_set.trans (hentry h)
    refine Settles.bind (m.yields_integratePiece hx hentry' hseed) fun boxes hboxes => ?_
    dsimp only
    split_ifs
    · exact ih hjoined
    · exact ih ⟨hjoined.1.zipWith hboxes.1 _, hjoined.2.zipWith hboxes.2 _⟩

theorem yields_integrateSlice (m : Integration) (hx : x.dimension = n) (hentry : f.Sized n entry)
    (hseed : f.Sized n seed) :
    f.Yields n (m.integrateSlice f x t entry seed forward) (f.SizedPair n) := by
  have hpieces : f.Yields n (m.integrateByPieces f x t entry seed forward) (f.SizedPair n) := by
    have hnothing : f.Sized n (entry.map fun _ => Enclosure.empty) := fun h =>
      (List.length_map _).trans (hentry h)
    unfold integrateByPieces
    dsimp only
    split_ifs
    · exact yields_integrate hx hentry hseed
    · exact m.yields_integratePieces hx hentry hseed _ _ ⟨hnothing, hnothing⟩
  unfold integrateSlice
  cases m.scheme with
  | basic => exact yields_integrate hx hentry hseed
  | pieces => exact hpieces
  | guessedPieces => exact hpieces

theorem yields_seed (m : Integration) (hx : x.dimension = n) (i : ℕ) (hentry : f.Sized n entry) :
    f.Yields n (m.seed? f x i entry forward) (fun seed => ∀ s, seed = some s → f.Sized n s) := by
  have hcodomain : f.Sized n (x.codomain i) := f.sized_of_length ((List.length_map _).trans hx)
  unfold seed?
  dsimp only
  split_ifs
  · intro s hs
    obtain rfl := Option.some.inj hs
    exact hcodomain
  · exact fun s hs => nomatch hs
  · refine Settles.bind (Picard.yields_search hx hentry _ _ hentry) fun found hfound => ?_
    cases found with
    | none => exact fun s hs => nomatch hs
    | some boxes =>
      intro s hs
      obtain rfl := Option.some.inj hs
      exact hcodomain.inter (hfound boxes rfl).1

/-! A contraction writes slices or leaves them as they are. -/

variable {Q : Tube ι → Tube ι → Prop} (hQ : SliceRelation Q)

include hQ

theorem yields_restrictAll (hx : x.dimension = n) {boxes : Box ι × Box ι}
    (hboxes : f.SizedPair n boxes) (forward : Bool) (i : ℕ) :
    f.Yields n (restrictAll forward i x boxes) (fun r => SliceRelation.Holds Q r.1 x) := by
  unfold restrictAll
  split_ifs with hshort
  · intro h
    rw [hboxes.1 h, hboxes.2 h, hx] at hshort
    simp at hshort
  · change SliceRelation.Holds Q ⟨List.map _ (List.zipWith _ _ _)⟩ x
    rw [List.map_zipWith]
    exact SliceRelation.holds_zipWith_zip (fun c p => hQ.integration forward i c p.1 p.2) hshort

theorem yields_contractSlice (m : Integration) (hx : x.dimension = n) (i : ℕ) (forward : Bool) :
    f.Yields n (m.contractSlice f x i forward) (fun r => SliceRelation.Holds Q r.1 x) := by
  rw [contractSlice_eq]
  dsimp only
  have hentry : f.Sized n (x.gate (TubeVector.entryExit forward i).1) :=
    f.sized_of_length ((List.length_map _).trans hx)
  split_ifs
  · exact hQ.holds_refl x
  · refine Settles.bind (m.yields_seed hx i hentry) fun seed hseed => ?_
    cases seed with
    | none => exact hQ.holds_refl x
    | some seed =>
      refine Settles.bind (m.yields_integrateSlice hx hentry (hseed seed rfl)) fun boxes h => ?_
      exact yields_restrictAll hQ hx h forward i

theorem yields_sweep (m : Integration) (hx : x.dimension = n) (forward : Bool) (slices : List ℕ)
    (before : Bool) :
    f.Yields n (m.sweep f forward slices before x) (fun r => SliceRelation.Holds Q r.1 x) := by
  induction slices generalizing x before with
  | nil => exact hQ.holds_refl x
  | cons i slices ih =>
    refine Settles.bind (yields_contractSlice hQ m hx i forward) fun r hr => ?_
    dsimp only
    split_ifs
    · exact hr
    · exact (ih (hr.length_eq.trans hx) _).mono (fun _ h => hQ.holds_trans h hr) fun _ h => h

theorem yields_contract (m : Integration) (hx : x.dimension = n) (t0 : Float)
    (direction : Direction) :
    f.Yields n (m.contract f t0 direction x) (fun r => SliceRelation.Holds Q r.1 x) := by
  rw [contract_eq]
  cases startEnd? x t0 with
  | none => exact hQ.holds_refl x
  | some r =>
    refine Settles.bind (P := fun r => SliceRelation.Holds Q r.1 x) ?_ fun r hr => ?_
    · split_ifs
      · exact yields_sweep hQ m hx true _ false
      · exact hQ.holds_refl x
    · split_ifs
      · exact (yields_sweep hQ m (hr.length_eq.trans hx) false _ _).mono
          (fun _ h => hQ.holds_trans h hr) fun _ h => h
      · exact hr

end Integration

end FlowTube
