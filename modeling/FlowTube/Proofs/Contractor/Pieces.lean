import FlowTube.Proofs.Contractor.Answers
import FlowTube.Proofs.Contractor.Integration
import FlowTube.Proofs.Contractor.Parts

/-! Integration by pieces of the entry against integration of the entry at once. The local iteration
of a piece stays inside the one of the whole entry, round by round, however many rounds either
makes: a codomain that a further round would not narrow stays inside all that comes out of the other
one, and one that goes on only gets smaller. So the result of a piece is empty, and dropped, or it
lies in the result of the whole entry, and so does the hull of such results. If all pieces are
dropped, then the slice becomes empty and so does the tube. Otherwise the two tubes come out of the
slice one inside the other, which is what the next slice needs. -/

namespace FlowTube

variable {ι : Type} [Enclosure ι]

open Enclosure (isSubset elapsed_isSubset_self width_isSubset_self)
open Enclosure.Inclusive

/-- The dynamics answer, and smaller boxes and tubes give smaller answers. -/
structure Dynamics.Isotone (f : Dynamics ι) : Prop where
  answers : f.Answers f.dimension
  mono : ∀ (t : Interval) (box' box : Box ι) (z y : TubeVector ι) (v' v : Box ι),
    box.length = f.dimension → y.dimension = f.dimension → box'.LiesIn box → z.LiesIn y →
    f.applyOnTube t box' z = .ok v' → f.applyOnTube t box y = .ok v → v'.LiesIn v

namespace Integration

variable {f : Dynamics ι} {x y z : TubeVector ι} {t : Interval} {forward : Bool} {n k i : ℕ}
  {entry entry' seed seed' c c' p p' r r' next next' : Box ι} {m m' : Integration}

/-! ### Rounds of the local iteration -/

/-- One round of the local iteration. -/
def Tightens (f : Dynamics ι) (x : TubeVector ι) (t : Interval) (entry : Box ι) (forward : Bool)
    (codomain next : Box ι) : Prop :=
  ∃ v, f.applyOnTube t codomain x = .ok v ∧
    next = Box.inter codomain (Box.step forward entry v (Enclosure.elapsed t))

/-- A round is the last one if it changes nothing or leaves nothing. -/
theorem settle_cases (h : settle f x t entry forward (n + 1) c = .ok r) :
    ∃ next, Tightens f x t entry forward c next ∧
      ((next == c) = true ∧ r = next ∨ Box.isEmpty next = true ∧ r = next ∨
        settle f x t entry forward n next = .ok r) := by
  rw [settle] at h
  obtain ⟨v, hv, h⟩ := bind_eq_ok.1 h
  refine ⟨_, ⟨v, hv, rfl⟩, ?_⟩
  dsimp only at h
  split_ifs at h with hstop
  · obtain rfl := Except.ok.inj h
    rcases Bool.or_eq_true_iff.1 hstop with hsame | hempty
    · exact Or.inl ⟨hsame, rfl⟩
    · exact Or.inr (Or.inl ⟨hempty, rfl⟩)
  · exact Or.inr (Or.inr h)

/-- A codomain from the local iteration, and an exit with the slopes over it. -/
theorem integrate_eq_ok {boxes : Box ι × Box ι}
    (h : integrate f x t entry seed forward = .ok boxes) :
    settle f x t entry forward localIterations seed = .ok boxes.1 ∧
      ∃ v, f.applyOnTube t boxes.1 x = .ok v ∧
        boxes.2 = Box.inter (Box.step forward entry v (Enclosure.width t)) boxes.1 := by
  obtain ⟨c, hc, h⟩ := bind_eq_ok.1 h
  obtain ⟨v, hv, h⟩ := bind_eq_ok.1 h
  obtain rfl := Except.ok.inj h
  exact ⟨hc, v, hv, rfl⟩

/-! ### Two integrations -/

/-- What is needed to compare the integrations from two entries: isotone dynamics, one tube in the
other one, and one entry in the other one. -/
structure Comparable (f : Dynamics ι) (z y : TubeVector ι) (entry' entry : Box ι) : Prop where
  isotone : f.Isotone
  tubes : z.LiesIn y
  dimension : y.dimension = f.dimension
  entries : entry'.LiesIn entry
  length : entry.length = f.dimension

/-- Of the first two boxes the codomain is empty, or both lie in the other ones. -/
def Refines (boxes' boxes : Box ι × Box ι) : Prop :=
  Box.isEmpty boxes'.1 = true ∨ boxes'.1.LiesIn boxes.1 ∧ boxes'.2.LiesIn boxes.2

variable [Enclosure.Isotone ι]

/-- A round narrows the codomain. -/
theorem Tightens.liesIn (h : Tightens f x t entry forward c next) (hf : f.Answers f.dimension)
    (hx : x.dimension = f.dimension) (hentry : entry.length = f.dimension) (hc : c.LiesIn p)
    (hp : p.length = f.dimension) : next.LiesIn p := by
  obtain ⟨v, hv, rfl⟩ := h
  have hclen : c.length = f.dimension := hc.length_eq.trans hp
  refine hc.inter_left ?_
  rw [Box.length_step ((hf.length_eq hclen hx hv).trans hentry.symm), hentry, hclen]

/-- So do all rounds. -/
theorem settle_liesIn (hf : f.Answers f.dimension) (hx : x.dimension = f.dimension)
    (hentry : entry.length = f.dimension) (hc : c.LiesIn p) (hp : p.length = f.dimension)
    (h : settle f x t entry forward n c = .ok r) : r.LiesIn p := by
  induction n generalizing c with
  | zero => exact Except.ok.inj h ▸ hc
  | succ n ih =>
    obtain ⟨next, hround, hcases⟩ := settle_cases h
    have hnext := hround.liesIn hf hx hentry hc hp
    rcases hcases with ⟨-, rfl⟩ | ⟨-, rfl⟩ | hrest
    · exact hnext
    · exact hnext
    · exact ih hnext hrest

namespace Comparable

theorem entry_self (h : Comparable f z y entry' entry) : Comparable f z z entry' entry' :=
  ⟨h.isotone, h.tubes.self, h.tubes.dimension.trans h.dimension, h.entries.self,
    h.entries.length_eq.trans h.length⟩

/-- Less is left by a round from less. -/
theorem tightens (h : Comparable f z y entry' entry) (hc : c'.LiesIn c)
    (hlen : c.length = f.dimension) (h' : Tightens f z t entry' forward c' next')
    (hn : Tightens f y t entry forward c next) : next'.LiesIn next := by
  obtain ⟨v', hv', rfl⟩ := h'
  obtain ⟨v, hv, rfl⟩ := hn
  have hslopes := h.isotone.mono t c' c z y v' v hlen h.dimension hc h.tubes hv' hv
  exact hc.inter (h.entries.step hslopes (elapsed_isSubset_self t) forward)

/-- What a round does not narrow stays inside. -/
theorem liesIn_settle (h : Comparable f z y entry' entry) (hpc : p.LiesIn c)
    (hlen : c.length = f.dimension) (hround : Tightens f z t entry' forward p p')
    (hstable : p.LiesIn p') (hr : settle f y t entry forward n c = .ok r) : p.LiesIn r := by
  induction n generalizing c with
  | zero => exact Except.ok.inj hr ▸ hpc
  | succ n ih =>
    obtain ⟨next, hnext, hcases⟩ := settle_cases hr
    have hp := hstable.trans (h.tightens hpc hlen hround hnext)
    rcases hcases with ⟨-, rfl⟩ | ⟨-, rfl⟩ | hrest
    · exact hp
    · exact hp
    · exact ih hp (hp.length_eq.symm.trans (hpc.length_eq.trans hlen)) hrest

/-- The local iteration of less comes to nothing or to less, whenever the two of them stop. -/
theorem settle (h : Comparable f z y entry' entry) (hc : c'.LiesIn c)
    (hlen : c.length = f.dimension) (hr' : Integration.settle f z t entry' forward n c' = .ok r')
    (hr : Integration.settle f y t entry forward n c = .ok r) :
    Box.isEmpty r' = true ∨ r'.LiesIn r := by
  have hself := h.entry_self
  induction n generalizing c' c with
  | zero => exact Or.inr (Except.ok.inj hr' ▸ Except.ok.inj hr ▸ hc)
  | succ n ih =>
    obtain ⟨next', hround', hcases'⟩ := settle_cases hr'
    have hclen' : c'.length = f.dimension := hc.length_eq.trans hlen
    have hnarrow := hround'.liesIn hself.isotone.answers hself.dimension hself.length hc.self hclen'
    rcases hcases' with ⟨hsame, rfl⟩ | ⟨hempty, rfl⟩ | hrest'
    · -- the smaller codomain is stable, so the other iteration never leaves it
      exact Or.inr (hnarrow.trans
        (h.liesIn_settle hc hlen hround' (Box.liesIn_of_beq hsame) hr))
    · exact Or.inl hempty
    · obtain ⟨next, hround, hcases⟩ := settle_cases hr
      have hnext := h.tightens hc hlen hround' hround
      have hnlen' : next'.length = f.dimension := hnarrow.length_eq.trans hclen'
      have hrest : r'.LiesIn next := settle_liesIn hself.isotone.answers hself.dimension
        hself.length hnext (hnext.length_eq.symm.trans hnlen') hrest'
      rcases hcases with ⟨-, rfl⟩ | ⟨-, rfl⟩ | hr
      · exact Or.inr hrest
      · exact Or.inr hrest
      · exact ih hnext (hnext.length_eq.symm.trans hnlen') hrest' hr

theorem integrate (h : Comparable f z y entry' entry) (hseed : seed'.LiesIn seed)
    (hlen : seed.length = f.dimension) {boxes' boxes : Box ι × Box ι}
    (h' : Integration.integrate f z t entry' seed' forward = .ok boxes')
    (hb : Integration.integrate f y t entry seed forward = .ok boxes) : Refines boxes' boxes := by
  obtain ⟨hc', v', hv', he'⟩ := integrate_eq_ok h'
  obtain ⟨hc, v, hv, he⟩ := integrate_eq_ok hb
  rcases h.settle hseed hlen hc' hc with hempty | hle
  · exact Or.inl hempty
  · have hself := h.entry_self
    have hclen' := settle_liesIn hself.isotone.answers hself.dimension hself.length hseed.self
      (hseed.length_eq.trans hlen) hc'
    have hclen : boxes.1.length = f.dimension :=
      hle.length_eq.symm.trans (hclen'.length_eq.trans (hseed.length_eq.trans hlen))
    have hslopes := h.isotone.mono t boxes'.1 boxes.1 z y v' v hclen h.dimension hle h.tubes hv' hv
    rw [Refines, he', he]
    exact Or.inr ⟨hle, (h.entries.step hslopes (width_isSubset_self t) forward).inter hle⟩

/-- What is joined from the results of pieces lies in the result of the whole entry. -/
theorem integratePieces (h : Comparable f z y entry' entry) (hm : m.scheme ≠ .guessedPieces)
    (hseed : seed'.LiesIn seed) (hlen : seed.length = f.dimension) {pieces : List ι}
    (hpieces : ∀ piece ∈ pieces, isSubset piece (entry'.getD k Enclosure.empty) = true)
    {joined boxes' boxes : Box ι × Box ι}
    (hjoined : joined.1.LiesIn boxes.1 ∧ joined.2.LiesIn boxes.2)
    (h' : m.integratePieces f z t entry' seed' forward k pieces joined = .ok boxes')
    (hb : Integration.integrate f y t entry seed forward = .ok boxes) :
    boxes'.1.LiesIn boxes.1 ∧ boxes'.2.LiesIn boxes.2 := by
  induction pieces generalizing joined with
  | nil => exact Except.ok.inj h' ▸ hjoined
  | cons piece pieces ih =>
    rw [List.forall_mem_cons] at hpieces
    rw [Integration.integratePieces, integratePiece_eq hm] at h'
    obtain ⟨⟨c, e⟩, hce, h'⟩ := bind_eq_ok.1 h'
    have hpiece : Comparable f z y (entry'.set k piece) entry :=
      { h with entries := (h.entries.self.set hpieces.1).trans h.entries }
    dsimp only at h'
    split_ifs at h' with hdrop
    · exact ih hpieces.2 hjoined h'
    · rw [Bool.or_eq_true, not_or] at hdrop
      rcases hpiece.integrate hseed hlen hce hb with hempty | ⟨hcodomain, hexit⟩
      · exact absurd hempty hdrop.1
      · exact ih hpieces.2 ⟨hjoined.1.hull hcodomain, hjoined.2.hull hexit⟩ h'

/-- Integration by pieces leads to nothing, or inside the result of the whole entry. -/
theorem integrateByPieces (h : Comparable f z y entry' entry) (hpos : 0 < f.dimension)
    (hm : m.scheme ≠ .guessedPieces) (hseed : seed'.LiesIn seed) (hlen : seed.length = f.dimension)
    {boxes' boxes : Box ι × Box ι}
    (h' : m.integrateByPieces f z t entry' seed' forward = .ok boxes')
    (hb : Integration.integrate f y t entry seed forward = .ok boxes) : Refines boxes' boxes := by
  unfold Integration.integrateByPieces at h'
  dsimp only at h'
  split_ifs at h' with hwhole
  · exact h.integrate hseed hlen h' hb
  · rw [Bool.or_eq_true, not_or, Bool.not_eq_true', Bool.not_eq_false] at hwhole
    have hlen' : entry'.length = f.dimension := h.entries.length_eq.trans h.length
    have hk : Box.widest entry' < entry'.length := Box.widest_lt (hlen' ▸ hpos)
    have hside : entry'.getD (Box.widest entry') Enclosure.empty = entry'[Box.widest entry'] := by
      rw [List.getD_eq_getElem?_getD, List.getElem?_eq_getElem hk, Option.getD_some]
    have hbounded := List.all_eq_true.1 hwhole.1 _ (List.getElem_mem hk)
    have hself : isSubset entry'[Box.widest entry'] entry'[Box.widest entry'] = true :=
      (List.forall₂_iff_get.1 h.entries.self).2 _ hk hk
    have hlengths : f.SizedPair f.dimension boxes := (yields_integrate h.dimension
      (f.sized_of_length h.length) (f.sized_of_length hlen)).of_ok hb
    refine Or.inr (h.integratePieces hm hseed hlen (fun piece hpiece => ?_) ⟨?_, ?_⟩ h' hb)
    · rw [hside] at hpiece ⊢
      exact Enclosure.Isotone.isSubset_of_mem_subdivide hself hbounded hpiece
    · exact Box.liesIn_nothing (hlen'.trans (hlengths.1 h.isotone.answers).symm)
    · exact Box.liesIn_nothing (hlen'.trans (hlengths.2 h.isotone.answers).symm)

end Comparable

/-! ### Slices -/

omit [Enclosure.Isotone ι] in
/-- Every component is restricted to its sides of the boxes. -/
theorem restrictAll_eq_ok {boxes : Box ι × Box ι} {changed : Bool}
    (h : restrictAll forward i x boxes = .ok (y, changed)) :
    y = ⟨List.zipWith (fun c (p : ι × ι) => (restrictSlice forward i c p.1 p.2).1) x.components
      (boxes.1.zip boxes.2)⟩ := by
  unfold restrictAll at h
  split_ifs at h
  obtain ⟨rfl, -⟩ := Prod.mk.inj (Except.ok.inj h)
  rw [List.map_zipWith]

/-- A slice restricted to less is less. -/
theorem liesIn_restrictSlice {c d : Tube ι} (h : d.LiesIn c) {inner' inner exit' exit : ι}
    (hinner : isSubset inner' inner = true) (hexit : isSubset exit' exit = true) (forward : Bool)
    (i : ℕ) : (restrictSlice forward i d inner' exit').1.LiesIn
      (restrictSlice forward i c inner exit).1 := by
  have hcodomain := inter_isSubset_inter (h.codomain i) hinner
  have hentry := h.putGate
    (inter_isSubset_inter (h.gate (TubeVector.entryExit forward i).1) hcodomain)
    (TubeVector.entryExit forward i).1
  have hleft := inter_isSubset_inter
    (inter_isSubset_inter (h.gate (TubeVector.entryExit forward i).2) hexit) hcodomain
  exact (hentry.putGate hleft _).putCodomain hcodomain i

theorem isEmpty_restrictSlice {c : Tube ι} (hi : i < c.sliceCount) {inner : ι}
    (hinner : Enclosure.isEmpty inner = true) (exit : ι) (forward : Bool) :
    (restrictSlice forward i c inner exit).1.isEmpty = true := by
  have hcount : (restrictSlice forward i c inner exit).1.sliceCount = c.sliceCount :=
    Array.size_setIfInBounds
  exact Tube.isEmpty_iff.2 (Or.inl
    ⟨i, hi.trans_eq hcount.symm, isEmpty_codomain_restrictSlice hi hinner exit forward⟩)

/-- Restricted to boxes of which one pair refines the other, the tube is empty, or the tubes are
still one inside the other. -/
theorem restrictAll_refines (h : z.LiesIn y) (hz : z.Ordered) (hi : i < z.sliceCount)
    {boxes' boxes : Box ι × Box ι} (hboxes : Refines boxes' boxes)
    (hlen : boxes'.1.length = z.dimension) (hlen' : boxes'.2.length = z.dimension)
    {z₁ y₁ : TubeVector ι} {changed' changed : Bool}
    (hz₁ : restrictAll forward i z boxes' = .ok (z₁, changed'))
    (hy₁ : restrictAll forward i y boxes = .ok (y₁, changed)) :
    z₁.isEmpty = true ∨ z₁.LiesIn y₁ := by
  obtain rfl := restrictAll_eq_ok hz₁
  obtain rfl := restrictAll_eq_ok hy₁
  rcases hboxes with hempty | ⟨hcodomain, hexit⟩
  · -- one component is left with nothing
    obtain ⟨a, ha, hnone⟩ := List.any_eq_true.1 hempty
    obtain ⟨j, hj, rfl⟩ := List.mem_iff_getElem.1 ha
    have hjz : j < z.components.length := hj.trans_eq hlen
    have hje : j < boxes'.2.length := hjz.trans_eq hlen'.symm
    refine Or.inl (List.any_eq_true.2 ⟨_, List.mem_iff_getElem.2 ⟨j, ?_, rfl⟩, ?_⟩)
    · rw [List.length_zipWith, List.length_zip]
      exact lt_min hjz (lt_min hj hje)
    · rw [List.getElem_zipWith, List.getElem_zip]
      exact isEmpty_restrictSlice (hi.trans_eq (hz.sliceCount_eq (List.getElem_mem hjz)).symm) hnone
        _ _
  · have hpairs : List.Forall₂ (fun p' p : ι × ι => isSubset p'.1 p.1 = true ∧
        isSubset p'.2 p.2 = true) (boxes'.1.zip boxes'.2) (boxes.1.zip boxes.2) :=
      forall₂_zipWith (R := fun a' a => isSubset a' a = true)
        (S := fun b' b => isSubset b' b = true) (fun _ _ _ _ => And.intro) hcodomain hexit
    exact Or.inr (forall₂_zipWith
      (fun _ _ _ _ hdc hp => liesIn_restrictSlice hdc hp.1 hp.2 forward i) h hpairs)

/-! ### Two contractions -/

/-- The whole entry at once, with no Picard boxes and no early end. -/
def atOnce : Integration := ⟨.basic, false, false⟩

/-- The entry in pieces, with no Picard boxes and no early end. -/
def inPieces : Integration := ⟨.pieces, false, false⟩

/-- A tube contracted by pieces is empty, or it lies in one contracted at once. -/
def Within (z y : TubeVector ι) : Prop := z.isEmpty = true ∨ z.LiesIn y

variable {z₁ y₁ : TubeVector ι} {changed' changed before' before : Bool} {slices : List ℕ}

/-- This goes on for one more slice. -/
theorem within_contractSlice (hf : f.Isotone) (h : z.LiesIn y) (hdim : y.dimension = f.dimension)
    (hz : z.Ordered) (hi : i < z.sliceCount)
    (hz₁ : inPieces.contractSlice f z i forward = .ok (z₁, changed'))
    (hy₁ : atOnce.contractSlice f y i forward = .ok (y₁, changed)) : Within z₁ y₁ := by
  have hinside : z₁.LiesIn z := .of_holds (holds_contractSlice sliceRelation_liesIn hz₁) h.self
  have hentry := h.gate (TubeVector.entryExit forward i).1
  have hdim' : z.dimension = f.dimension := h.dimension.trans hdim
  have hpos : 0 < f.dimension := hdim' ▸ List.length_pos_of_ne_nil hz.someComponent
  rw [contractSlice_eq] at hz₁ hy₁
  dsimp only at hz₁ hy₁
  rw [seed?_eq rfl] at hz₁ hy₁
  by_cases hempty : z.isEmpty = true
  · exact Or.inl (hinside.isEmpty hempty)
  have hgate : Box.isEmpty (z.gate (TubeVector.entryExit forward i).1) = false :=
    Bool.eq_false_iff.2 fun he =>
      hempty (hz.isEmpty_of_gate (TubeVector.entryExit_le hi forward).1 he)
  have hcodomain : Box.isEmpty (z.codomain i) = false :=
    Bool.eq_false_iff.2 fun he => hempty (hz.isEmpty_of_codomain hi he)
  rw [if_neg (Bool.eq_false_iff.1 hgate)] at hz₁
  rw [if_neg fun he => Bool.eq_false_iff.1 hgate (hentry.isEmpty he)] at hy₁
  by_cases hbounded : Box.isBounded (y.codomain i) = true
  · rw [if_pos ((h.codomain i).isBounded hcodomain hbounded), h.sliceDomain] at hz₁
    rw [if_pos hbounded] at hy₁
    change inPieces.integrateByPieces f z _ _ _ forward >>= _ = _ at hz₁
    change integrate f y _ _ _ forward >>= _ = _ at hy₁
    obtain ⟨boxes', hboxes', hz₁⟩ := bind_eq_ok.1 hz₁
    obtain ⟨boxes, hboxes, hy₁⟩ := bind_eq_ok.1 hy₁
    have hsize (k : ℕ) : (z.gate k).length = f.dimension := (List.length_map _).trans hdim'
    have hlengths : f.SizedPair f.dimension boxes' := (inPieces.yields_integrateSlice hdim'
      (f.sized_of_length (hsize _)) (f.sized_of_length ((List.length_map _).trans hdim'))).of_ok
      hboxes'
    have hcompare : Comparable f z y (z.gate (TubeVector.entryExit forward i).1)
        (y.gate (TubeVector.entryExit forward i).1) :=
      ⟨hf, h, hdim, hentry, (List.length_map _).trans hdim⟩
    have hrefines : Refines boxes' boxes := hcompare.integrateByPieces (m := inPieces) hpos
      (by decide) (h.codomain i) ((List.length_map _).trans hdim) hboxes' hboxes
    exact restrictAll_refines h hz hi hrefines ((hlengths.1 hf.answers).trans hdim'.symm)
      ((hlengths.2 hf.answers).trans hdim'.symm) hz₁ hy₁
  · rw [if_neg hbounded] at hy₁
    obtain ⟨rfl, -⟩ := Prod.mk.inj (Except.ok.inj hy₁)
    exact Or.inr (hinside.trans h)

/-- So it does for a sweep: if one tube is empty, then its sweep is over, and if the other one is,
then so is the one inside. -/
theorem within_sweep (hf : f.Isotone) (h : z.LiesIn y) (hdim : y.dimension = f.dimension)
    (hz : z.Ordered) (hslices : ∀ i ∈ slices, i < z.sliceCount)
    (hz₁ : inPieces.sweep f forward slices before' z = .ok (z₁, changed'))
    (hy₁ : atOnce.sweep f forward slices before y = .ok (y₁, changed)) : Within z₁ y₁ := by
  induction slices generalizing z y before' before with
  | nil =>
    obtain ⟨rfl, -⟩ := Prod.mk.inj (Except.ok.inj hz₁)
    obtain ⟨rfl, -⟩ := Prod.mk.inj (Except.ok.inj hy₁)
    exact Or.inr h
  | cons i slices ih =>
    rw [List.forall_mem_cons] at hslices
    rw [sweep] at hz₁ hy₁
    obtain ⟨⟨z₂, _⟩, hslice', hz₁⟩ := bind_eq_ok.1 hz₁
    obtain ⟨⟨y₂, _⟩, hslice, hy₁⟩ := bind_eq_ok.1 hy₁
    have hwithin := within_contractSlice hf h hdim hz hslices.1 hslice' hslice
    dsimp only at hz₁ hy₁
    have hstop (b : Bool) : (inPieces.incremental && b) = false := rfl
    have hstop' (b : Bool) : (atOnce.incremental && b) = false := rfl
    rw [hstop, Bool.or_false] at hz₁
    rw [hstop', Bool.or_false] at hy₁
    by_cases hempty : z₂.isEmpty = true
    · rw [if_pos hempty] at hz₁
      obtain ⟨rfl, -⟩ := Prod.mk.inj (Except.ok.inj hz₁)
      exact Or.inl hempty
    · have h₂ := hwithin.resolve_left hempty
      rw [if_neg hempty] at hz₁
      rw [if_neg fun he => hempty (h₂.isEmpty he)] at hy₁
      have hshape' := sameShape_contractSlice hslice'
      have hshape := sameShape_contractSlice hslice
      refine ih h₂ (hshape.length_eq.trans hdim) (hz.of_sameShape hshape').1 (fun k hk => ?_)
        hz₁ hy₁
      exact (hslices.2 k hk).trans_eq hshape'.sliceCount_eq.symm

/-- And so it does for a contraction. -/
theorem within_contract (hf : f.Isotone) (hx : x.LiesIn x) (hdim : x.dimension = f.dimension)
    (ho : x.Ordered) (t0 : Float) (direction : Direction)
    (hz : inPieces.contract f t0 direction x = .ok (z, changed'))
    (hy : atOnce.contract f t0 direction x = .ok (y, changed)) : Within z y := by
  rw [contract_eq] at hz hy
  cases hstart : startEnd? x t0 with
  | none =>
    rw [hstart] at hz hy
    obtain ⟨rfl, -⟩ := Prod.mk.inj (Except.ok.inj hz)
    obtain ⟨rfl, -⟩ := Prod.mk.inj (Except.ok.inj hy)
    exact Or.inr hx
  | some ends =>
    obtain ⟨start, stop⟩ := ends
    rw [hstart] at hz hy
    obtain ⟨⟨z₁, _⟩, hz₁, hz⟩ := bind_eq_ok.1 hz
    obtain ⟨⟨y₁, _⟩, hy₁, hy⟩ := bind_eq_ok.1 hy
    dsimp only at hz hy
    have hforward : Within z₁ y₁ ∧ z₁.SameShape x ∧ y₁.SameShape x := by
      split_ifs at hz₁ hy₁
      · refine ⟨within_sweep hf hx hdim ho (fun i hi => ?_) hz₁ hy₁, sameShape_sweep hz₁,
          sameShape_sweep hy₁⟩
        obtain ⟨hlow, hup⟩ := List.mem_range'_1.1 hi
        omega
      · obtain ⟨rfl, -⟩ := Prod.mk.inj (Except.ok.inj hz₁)
        obtain ⟨rfl, -⟩ := Prod.mk.inj (Except.ok.inj hy₁)
        exact ⟨Or.inr hx, .refl x, .refl x⟩
    obtain ⟨hwithin, hshape', hshape⟩ := hforward
    by_cases hempty : z₁.isEmpty = true
    · rw [hempty, Bool.not_true, Bool.and_false, if_neg Bool.false_ne_true] at hz
      obtain ⟨rfl, -⟩ := Prod.mk.inj (Except.ok.inj hz)
      exact Or.inl hempty
    · have h₁ := hwithin.resolve_left hempty
      have hempty' : ¬y₁.isEmpty = true := fun he => hempty (h₁.isEmpty he)
      rw [Bool.eq_false_iff.2 hempty] at hz
      rw [Bool.eq_false_iff.2 hempty', hshape.sliceCount_eq] at hy
      rw [hshape'.sliceCount_eq] at hz
      split_ifs at hz hy
      · refine within_sweep hf h₁ (hshape.length_eq.trans hdim) (ho.of_sameShape hshape').1
          (fun i hi => ?_) hz hy
        rw [hshape'.sliceCount_eq]
        exact (List.mem_range.1 (List.mem_reverse.1 hi)).trans_le (min_le_right _ _)
      · obtain ⟨rfl, -⟩ := Prod.mk.inj (Except.ok.inj hz)
        obtain ⟨rfl, -⟩ := Prod.mk.inj (Except.ok.inj hy)
        exact Or.inr h₁

theorem exists_within (hf : f.Isotone) (hx : x.LiesIn x) (hdim : f.dimension = x.dimension)
    (ho : x.Ordered) (t0 : Float) (direction : Direction) :
    ∃ y z changed changed', atOnce.contract f t0 direction x = .ok (y, changed) ∧
      inPieces.contract f t0 direction x = .ok (z, changed') ∧ Within z y := by
  obtain ⟨⟨y, changed⟩, hy, -⟩ :=
    (yields_contract sliceRelation_sameShape atOnce hdim.symm t0 direction).exists_ok hf.answers
  obtain ⟨⟨z, changed'⟩, hz, -⟩ :=
    (yields_contract sliceRelation_sameShape inPieces hdim.symm t0 direction).exists_ok hf.answers
  exact ⟨y, z, changed, changed', hy, hz,
    within_contract hf hx hdim.symm ho t0 direction hz hy⟩

/-- Integration by pieces is never looser than integration at once: both contract the tube, and what
comes out by pieces is empty, or every gate and every codomain of it is a part of the one that comes
out at once. The operations and the dynamics are to be isotone and pieces are to be parts; codomains
with numbers as bounds lie in themselves. -/
theorem contract_inPieces_within (hf : f.Isotone) (hx : x.WellFormed)
    (hself : ∀ c ∈ x.components, ∀ i < c.sliceCount, isSubset (c.codomain i) (c.codomain i) = true)
    (hdim : f.dimension = x.dimension) (t0 : Float) (direction : Direction) :
    ∃ y z changed changed', atOnce.contract f t0 direction x = .ok (y, changed) ∧
      inPieces.contract f t0 direction x = .ok (z, changed') ∧
      (z.isEmpty = true ∨ z.LiesIn y) :=
  exists_within hf (hx.liesIn_self hself) hdim hx.ordered t0 direction

/-- The system whose slope is the state. -/
def growing : Dynamics ι where
  dimension := 1
  apply slots _ box := .ok ((List.range slots).map (box.getD · Enclosure.whole))
  applyOnTube _ box _ := .ok box

omit [Enclosure.Isotone ι] in
theorem isotone_growing : (growing : Dynamics ι).Isotone where
  answers _ box _ hbox _ := ⟨box, rfl, hbox⟩
  mono _ _ _ _ _ _ _ _ _ hbox _ hv' hv := Except.ok.inj hv' ▸ Except.ok.inj hv ▸ hbox

open TubeVector (unitSlice wellFormed_unitSlice) in
/-- Values from zero to one, growing over the unit span. -/
theorem contract_inPieces_within_growing :
    ∃ (y z : TubeVector ClosedInterval) (changed changed' : Bool),
      atOnce.contract growing 0.0 .both (unitSlice (Enclosure.ofInterval .unit)
        (Enclosure.ofInterval .unit)) = .ok (y, changed) ∧
      inPieces.contract growing 0.0 .both (unitSlice (Enclosure.ofInterval .unit)
        (Enclosure.ofInterval .unit)) = .ok (z, changed') ∧
      (z.isEmpty = true ∨ z.LiesIn y) :=
  contract_inPieces_within isotone_growing
    (wellFormed_unitSlice (ClosedInterval.isSubset_self _)) (fun _ _ _ _ =>
      ClosedInterval.isSubset_self _) rfl 0.0 .both

/-- So it is with binary64 intervals, for any isotone operators and any way to cut a bounded interval
in parts of it, if the bounds of the codomains are numbers. -/
theorem contract_inPieces_within_divided {o : Operators} (ho : o.Isotone)
    {cut : Interval → ℕ → List Interval} (hcut : ∀ (a : Interval) (n : ℕ), a.Numeric →
      a.isBounded = true → ∀ piece ∈ cut a n, piece.isSubset a = true)
    {f : Dynamics (Divided o cut)} (hf : f.Isotone) {x : TubeVector (Divided o cut)}
    (hx : x.WellFormed)
    (hnumeric : ∀ c ∈ x.components, ∀ i < c.sliceCount, Interval.Numeric (c.codomain i))
    (hdim : f.dimension = x.dimension) (t0 : Float) (direction : Direction) :
    ∃ y z changed changed', atOnce.contract f t0 direction x = .ok (y, changed) ∧
      inPieces.contract f t0 direction x = .ok (z, changed') ∧ Within z y := by
  have := Divided.isotone ho hcut
  have hself : x.LiesIn x := hx.liesIn_self fun c hc i hi => (hnumeric c hc i hi).isSubset_self
  exact exists_within hf hself hdim hx.ordered t0 direction

end Integration

end FlowTube
