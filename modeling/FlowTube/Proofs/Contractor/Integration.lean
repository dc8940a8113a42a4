import FlowTube.Proofs.Contractor.Parts
import FlowTube.Proofs.Contractor.Reach
import FlowTube.Proofs.TubeVector.Timed

/-! Integration keeps every trajectory that follows the dynamics, over finite, increasing
breakpoints. A box that holds the trajectory over a slice gives slopes that enclose those of the
trajectory, and what is reached with these slopes from the entry holds the trajectory again; so the
local iteration keeps it. A piece of the entry that does not have the value there may lose the
trajectory, but some piece has the value, its results are not empty, and the hull keeps them.

Over a slice that ends at an infinity no time that is a number elapses, and between equal
breakpoints the dynamics need not give a slope. Where nothing is reached for one of these reasons,
whole entries and pieces come out empty, and with them the slice. -/

namespace FlowTube

variable {ι : Type} [Enclosure ι] [Membership ℝ ι] {X : ℝ → ℕ → ℝ}

/-- The dynamics give an answer for every box of their dimension, and enclose the slopes of a
trajectory where the box holds it over the time and the tube encloses it. -/
structure Dynamics.Follows (f : Dynamics ι) (X : ℝ → ℕ → ℝ) : Prop where
  total : ∀ (t : Interval) (box : Box ι) (tube : TubeVector ι), box.length = f.dimension →
    tube.Sliced → tube.dimension = f.dimension → tube.Encloses X →
    ∃ v : Box ι, f.applyOnTube t box tube = .ok v ∧ v.length = f.dimension
  slopes : ∀ (t : Interval) (box : Box ι) (tube : TubeVector ι) (v : Box ι),
    box.length = f.dimension → tube.Sliced → tube.dimension = f.dimension → tube.Encloses X →
    (∀ r ∈ t, box.Holds (X r)) → f.applyOnTube t box tube = .ok v →
    ∀ r ∈ t, ∀ s ∈ t, r < s → v.Holds fun j => (X s j - X r j) / (s - r)

/-! ### Boxes -/

namespace Box

variable {p : ℕ → ℝ} {x y : Box ι}

theorem Holds.hull_left [Enclosure.Lawful ι] (h : Holds x p) : Holds (Box.hull x y) p :=
  holds_zipWith fun j a _ ha _ => Enclosure.Lawful.mem_union_left (h j a ha)

theorem Holds.hull_right [Enclosure.Lawful ι] (h : Holds y p) : Holds (Box.hull x y) p :=
  holds_zipWith fun j _ b _ hb => Enclosure.Lawful.mem_union_right (h j b hb)

omit [Enclosure ι] in
/-- A side may be replaced by an interval with the component there. -/
theorem Holds.set (h : Holds x p) {k : ℕ} {a : ι} (ha : p k ∈ a) : Holds (x.set k a) p := by
  intro j b hb
  rw [List.getElem?_set] at hb
  split_ifs at hb with hkj hlt
  · obtain rfl := hkj
    obtain rfl := Option.some.inj hb
    exact ha
  · exact h j b hb

omit [Membership ℝ ι] in
/-- The widest side is a side. -/
theorem widest_lt (h : 0 < x.length) : Box.widest x < x.length := by
  have hfold : ∀ (ks : List ℕ) (best : ℕ), best < x.length → (∀ k ∈ ks, k < x.length) →
      ks.foldl (fun best k =>
        if Enclosure.diam (x.getD k Enclosure.empty) > Enclosure.diam (x.getD best Enclosure.empty)
        then k else best) best < x.length := by
    intro ks
    induction ks with
    | nil => exact fun best hbest _ => hbest
    | cons k ks ih =>
      intro best hbest hks
      rw [List.foldl_cons]
      refine ih _ ?_ fun m hm => hks m (List.mem_cons_of_mem k hm)
      split_ifs
      · exact hks k List.mem_cons_self
      · exact hbest
  exact hfold _ 0 h fun k hk => List.mem_range.1 hk

end Box

namespace Integration

variable {x : TubeVector ι} {f : Dynamics ι} {t : Interval} {forward : Bool} {entry seed : Box ι}

/-- What integration may rely on: the trajectory is in the tube and follows the dynamics, and
the time is a span. -/
structure Setting (f : Dynamics ι) (x : TubeVector ι) (t : Interval) (X : ℝ → ℕ → ℝ) : Prop where
  follows : f.Follows X
  sliced : x.Sliced
  encloses : x.Encloses X
  dimension : f.dimension = x.dimension
  span : t.IsSpan

/-- A codomain that holds the trajectory over the time, and an exit that holds it at the end. -/
def HoldsThrough (t : Interval) (forward : Bool) (X : ℝ → ℕ → ℝ) (boxes : Box ι × Box ι) : Prop :=
  boxes.1.HoldsOver t X ∧ boxes.2.Holds (X (t.target forward))

namespace Setting

theorem total (h : Setting f x t X) {box : Box ι} (hbox : box.length = f.dimension) :
    ∃ v : Box ι, f.applyOnTube t box x = .ok v ∧ v.length = f.dimension :=
  h.follows.total t box x hbox h.sliced h.dimension.symm h.encloses

/-- A box that holds the trajectory gives slopes of the trajectory. -/
theorem hasSlopes (h : Setting f x t X) {box v : Box ι} (hlen : box.length = f.dimension)
    (hbox : box.HoldsOver t X) (hv : f.applyOnTube t box x = .ok v) (j : ℕ) (w : ι)
    (hw : v[j]? = some w) : HasSlopes (fun r => X r j) w {r | r ∈ t} := fun r hr s hs hrs =>
  h.follows.slopes t box x v hlen h.sliced h.dimension.symm h.encloses hbox hv r hr s hs hrs j w hw

end Setting

variable [Enclosure.Sound ι]

/-- The local iteration gives a codomain; it keeps a trajectory that is in the entry and in the
first codomain. -/
theorem settle_spec (h : Setting f x t X) (forward : Bool) (hentry : entry.length = f.dimension)
    (n : ℕ) (hseed : seed.length = f.dimension) :
    ∃ c : Box ι, settle f x t entry forward n seed = .ok c ∧ c.length = f.dimension ∧
      (entry.Holds (X (t.origin forward)) → seed.HoldsOver t X → c.HoldsOver t X) := by
  induction n generalizing seed with
  | zero => exact ⟨seed, rfl, hseed, fun _ h => h⟩
  | succ n ih =>
    obtain ⟨v, hv, hvlen⟩ := h.total hseed
    have hstep : settle f x t entry forward (n + 1) seed =
        let next := Box.inter seed (Box.step forward entry v (Enclosure.elapsed t))
        if next == seed || Box.isEmpty next then .ok next
        else settle f x t entry forward n next := by
      rw [settle, hv]
      rfl
    have hnext : (Box.inter seed (Box.step forward entry v (Enclosure.elapsed t))).length =
        f.dimension := by
      rw [Box.length_inter, hseed]
      rw [Box.length_step (hvlen.trans hentry.symm), hentry, hseed]
    have hholds (he : entry.Holds (X (t.origin forward))) (hs : seed.HoldsOver t X) :
        (Box.inter seed (Box.step forward entry v (Enclosure.elapsed t))).HoldsOver t X :=
      hs.inter (Box.holdsOver_step h.span he (h.hasSlopes hseed hs hv)).1
    obtain ⟨c, hc, hclen, hkeep⟩ := ih hnext
    rw [hstep]
    dsimp only
    split_ifs
    · exact ⟨_, rfl, hnext, hholds⟩
    · exact ⟨c, hc, hclen, fun he hs => hkeep he (hholds he hs)⟩

/-- Integration over a slice gives a codomain and an exit; they keep the trajectory. -/
theorem integrate_spec (h : Setting f x t X) (forward : Bool)
    (hentry : entry.length = f.dimension) (hseed : seed.length = f.dimension) :
    ∃ c e : Box ι, integrate f x t entry seed forward = .ok (c, e) ∧
      c.length = f.dimension ∧ e.length = f.dimension ∧
      (entry.Holds (X (t.origin forward)) → seed.HoldsOver t X →
        HoldsThrough t forward X (c, e)) := by
  obtain ⟨c, hc, hclen, hkeep⟩ := settle_spec h forward hentry localIterations hseed
  obtain ⟨v, hv, hvlen⟩ := h.total hclen
  have hstep : (Box.step forward entry v (Enclosure.width t)).length = entry.length :=
    Box.length_step (hvlen.trans hentry.symm)
  refine ⟨c, Box.inter (Box.step forward entry v (Enclosure.width t)) c, ?_, hclen, ?_,
    fun he hs => ?_⟩
  · rw [integrate, hc]
    change f.applyOnTube t c x >>= _ = _
    rw [hv]
    rfl
  · rw [Box.length_inter, hstep, hentry]
    rw [hstep, hentry, hclen]
  · have hover := hkeep he hs
    exact ⟨hover, (Box.holdsOver_step h.span he (h.hasSlopes hclen hover hv)).2.inter
      (hover _ (h.span.target_mem forward))⟩

/-! ### Pieces of the entry -/

variable {m : Integration}

theorem scheme_ne_guessedPieces (h : m.scheme = .basic ∨ m.scheme = .pieces) :
    m.scheme ≠ .guessedPieces := by
  rcases h with h | h
  · rw [h]
    decide
  · rw [h]
    decide

omit [Membership ℝ ι] [Enclosure.Sound ι] in
theorem integratePiece_eq (hm : m.scheme ≠ .guessedPieces) (f : Dynamics ι) (x : TubeVector ι)
    (t : Interval) (entry seed : Box ι) (forward : Bool) :
    m.integratePiece f x t entry seed forward = integrate f x t entry seed forward := by
  rw [integratePiece, if_neg (by simpa using hm)]
  rfl

/-- Boxes of the trajectory are not empty. -/
theorem HoldsThrough.isEmpty {boxes : Box ι × Box ι} (h : HoldsThrough t forward X boxes)
    (ht : t.IsSpan) : (Box.isEmpty boxes.1 || Box.isEmpty boxes.2) = false := by
  rw [(h.1 _ (ht.origin_mem forward)).isEmpty, h.2.isEmpty]
  rfl

theorem HoldsThrough.hull {c e c' e' : Box ι}
    (h : HoldsThrough t forward X (c, e) ∨ HoldsThrough t forward X (c', e')) :
    HoldsThrough t forward X (Box.hull c c', Box.hull e e') := by
  rcases h with h | h
  · exact ⟨fun r hr => (h.1 r hr).hull_left, h.2.hull_left⟩
  · exact ⟨fun r hr => (h.1 r hr).hull_right, h.2.hull_right⟩

/-- Joining the results of pieces keeps the trajectory if it was kept before, or if one of the
pieces has its value at the entry. -/
theorem integratePieces_spec (hm : m.scheme ≠ .guessedPieces) (h : Setting f x t X)
    (forward : Bool) (hentry : entry.length = f.dimension) (hseed : seed.length = f.dimension)
    (k : ℕ) (pieces : List ι) {codomain exit : Box ι} (hcod : codomain.length = f.dimension)
    (hexit : exit.length = f.dimension) :
    ∃ boxes : Box ι × Box ι,
      m.integratePieces f x t entry seed forward k pieces (codomain, exit) = .ok boxes ∧
      boxes.1.length = f.dimension ∧ boxes.2.length = f.dimension ∧
      (entry.Holds (X (t.origin forward)) → seed.HoldsOver t X →
        (HoldsThrough t forward X (codomain, exit) ∨
          ∃ piece ∈ pieces, X (t.origin forward) k ∈ piece) →
        HoldsThrough t forward X boxes) := by
  induction pieces generalizing codomain exit with
  | nil =>
    refine ⟨(codomain, exit), rfl, hcod, hexit, fun _ _ hkept => ?_⟩
    rcases hkept with hjoined | ⟨piece, hpiece, -⟩
    · exact hjoined
    · contradiction
  | cons piece pieces ih =>
    obtain ⟨c, e, hce, hclen, helen, hkeep⟩ :=
      integrate_spec h forward (List.length_set.trans hentry : (entry.set k piece).length = _) hseed
    have hstep : m.integratePieces f x t entry seed forward k (piece :: pieces) (codomain, exit) =
        if Box.isEmpty c || Box.isEmpty e then
          m.integratePieces f x t entry seed forward k pieces (codomain, exit)
        else m.integratePieces f x t entry seed forward k pieces
          (Box.hull codomain c, Box.hull exit e) := by
      rw [integratePieces, integratePiece_eq hm, hce]
      rfl
    rw [hstep]
    split_ifs with hempty
    · -- an empty result cannot have been that of the piece with the value
      obtain ⟨boxes, hboxes, hlen, hlen', hkept⟩ := ih hcod hexit
      refine ⟨boxes, hboxes, hlen, hlen', fun he hs hor => hkept he hs ?_⟩
      rcases hor with hjoined | ⟨q, hq, hmem⟩
      · exact Or.inl hjoined
      · rcases List.mem_cons.1 hq with rfl | hq
        · rw [(hkeep (he.set hmem) hs).isEmpty h.span] at hempty
          contradiction
        · exact Or.inr ⟨q, hq, hmem⟩
    · obtain ⟨boxes, hboxes, hlen, hlen', hkept⟩ := ih
        ((Box.length_hull (hclen.trans hcod.symm)).trans hcod)
        ((Box.length_hull (helen.trans hexit.symm)).trans hexit)
      refine ⟨boxes, hboxes, hlen, hlen', fun he hs hor => hkept he hs ?_⟩
      rcases hor with hjoined | ⟨q, hq, hmem⟩
      · exact Or.inl (.hull (.inl hjoined))
      · rcases List.mem_cons.1 hq with rfl | hq
        · exact Or.inl (.hull (.inr (hkeep (he.set hmem) hs)))
        · exact Or.inr ⟨q, hq, hmem⟩

/-- Integration by pieces gives a codomain and an exit; they keep the trajectory. -/
theorem integrateByPieces_spec (hm : m.scheme ≠ .guessedPieces) (h : Setting f x t X)
    (forward : Bool) (hentry : entry.length = f.dimension) (hseed : seed.length = f.dimension) :
    ∃ boxes : Box ι × Box ι, m.integrateByPieces f x t entry seed forward = .ok boxes ∧
      boxes.1.length = f.dimension ∧ boxes.2.length = f.dimension ∧
      (entry.Holds (X (t.origin forward)) → seed.HoldsOver t X →
        HoldsThrough t forward X boxes) := by
  unfold integrateByPieces
  dsimp only
  split_ifs with hwhole
  · obtain ⟨c, e, hce, hclen, helen, hkeep⟩ := integrate_spec h forward hentry hseed
    exact ⟨(c, e), hce, hclen, helen, hkeep⟩
  · rw [Bool.or_eq_true, not_or, Bool.not_eq_true', Bool.not_eq_false, Box.isBounded,
      List.all_eq_true] at hwhole
    have hpos : 0 < entry.length := by
      rw [hentry, h.dimension]
      exact List.length_pos_of_ne_nil h.sliced.someComponent
    have hk := Box.widest_lt hpos
    have hside : entry.getD (Box.widest entry) Enclosure.empty = entry[Box.widest entry] := by
      rw [List.getD_eq_getElem?_getD, List.getElem?_eq_getElem hk, Option.getD_some]
    have hnothing : (entry.map fun _ => (Enclosure.empty : ι)).length = f.dimension :=
      (List.length_map _).trans hentry
    obtain ⟨boxes, hboxes, hlen, hlen', hkeep⟩ := integratePieces_spec hm h forward hentry hseed
      (Box.widest entry)
      (Enclosure.subdivide (entry.getD (Box.widest entry) Enclosure.empty) pieceCount)
      hnothing hnothing
    refine ⟨boxes, hboxes, hlen, hlen', fun he hs => hkeep he hs (Or.inr ?_)⟩
    rw [hside]
    exact Enclosure.Lawful.exists_mem_subdivide (by decide) (by decide)
      (hwhole.1 _ (List.getElem_mem hk)) (he _ _ (List.getElem?_eq_getElem hk))

/-- The scheme gives a codomain and an exit for a slice; they keep the trajectory. -/
theorem integrateSlice_spec (hm : m.scheme ≠ .guessedPieces) (h : Setting f x t X)
    (forward : Bool) (hentry : entry.length = f.dimension) (hseed : seed.length = f.dimension) :
    ∃ boxes : Box ι × Box ι, m.integrateSlice f x t entry seed forward = .ok boxes ∧
      boxes.1.length = f.dimension ∧ boxes.2.length = f.dimension ∧
      (entry.Holds (X (t.origin forward)) → seed.HoldsOver t X →
        HoldsThrough t forward X boxes) := by
  unfold integrateSlice
  split
  · obtain ⟨c, e, hce, hclen, helen, hkeep⟩ := integrate_spec h forward hentry hseed
    exact ⟨(c, e), hce, hclen, helen, hkeep⟩
  · exact integrateByPieces_spec hm h forward hentry hseed

/-! ### Slices -/

end Integration

namespace TubeVector

variable {x y : TubeVector ι} {i k : ℕ}

omit [Enclosure ι] [Membership ℝ ι] in
theorem Sliced.isSpan_sliceDomain (hx : x.Sliced) (hi : i < x.sliceCount) :
    (x.sliceDomain i).IsSpan := hx.first.isSpan_sliceDomain hi

omit [Enclosure ι] [Membership ℝ ι] in
/-- A slice is entered and left at its gates. -/
theorem Sliced.origin_sliceDomain (hx : x.Sliced) (hi : i < x.sliceCount) (forward : Bool) :
    (x.sliceDomain i).origin forward = x.first.instant (entryExit forward i).1 ∧
      (x.sliceDomain i).target forward = x.first.instant (entryExit forward i).2 := by
  rw [sliceDomain, hx.first.sliceDomain_eq hi]
  cases forward with
  | true => exact ⟨rfl, rfl⟩
  | false => exact ⟨rfl, rfl⟩

omit [Enclosure ι] [Membership ℝ ι] in
theorem entryExit_le (hi : i < x.sliceCount) (forward : Bool) :
    (entryExit forward i).1 ≤ x.sliceCount ∧ (entryExit forward i).2 ≤ x.sliceCount := by
  cases forward with
  | true => exact ⟨hi.le, hi⟩
  | false => exact ⟨hi, hi.le⟩

omit [Enclosure ι] [Membership ℝ ι] in
theorem Sliced.mem_sliceDomain (hx : x.Sliced) (hi : i < x.sliceCount) {r : ℝ} :
    r ∈ x.sliceDomain i ↔ x.first.instant i ≤ r ∧ r ≤ x.first.instant (i + 1) :=
  hx.first.mem_sliceDomain hi

theorem Encloses.holds_gate (hX : x.Encloses X) (hx : x.Sliced) (hk : k ≤ x.sliceCount) :
    (x.gate k).Holds (X (x.first.instant k)) := by
  intro j a ha
  rw [gate, List.getElem?_map] at ha
  obtain ⟨c, hc, rfl⟩ := Option.map_eq_some_iff.1 ha
  have hmem := List.mem_of_getElem? hc
  rw [← hx.instant_eq hmem]
  exact (hX j c hc).gate k (hk.trans_eq (hx.sliceCount_eq hmem).symm)

theorem Encloses.holdsOver_codomain (hX : x.Encloses X) (hx : x.Sliced) (hi : i < x.sliceCount) :
    (x.codomain i).HoldsOver (x.sliceDomain i) X := by
  intro r hr j a ha
  rw [codomain, List.getElem?_map] at ha
  obtain ⟨c, hc, rfl⟩ := Option.map_eq_some_iff.1 ha
  have hmem := List.mem_of_getElem? hc
  obtain ⟨hlow, hup⟩ := (hx.mem_sliceDomain hi).1 hr
  rw [← hx.instant_eq hmem] at hlow hup
  exact (hX j c hc).codomain i (hi.trans_eq (hx.sliceCount_eq hmem).symm) r hlow hup

omit [Enclosure ι] [Membership ℝ ι] in
theorem SameShape.sliceCount_eq (h : y.SameShape x) : y.sliceCount = x.sliceCount := by
  obtain ⟨cs⟩ := x
  obtain ⟨ds⟩ := y
  cases h with
  | nil => rfl
  | cons hcd _ => exact hcd.codomains

end TubeVector

namespace Integration

variable {m : Integration} {f : Dynamics ι} {x : TubeVector ι} {i : ℕ} [Enclosure.Sound ι]

open Enclosure.Lawful (mem_inter)

theorem encloses_restrictSlice {c : Tube ι} {g : ℝ → ℝ} (hs : c.Sliced) (hg : c.Encloses g)
    (hi : i < c.sliceCount) (forward : Bool) {codomain exit : ι}
    (hcod : ∀ r, c.instant i ≤ r → r ≤ c.instant (i + 1) → g r ∈ codomain)
    (hexit : g (c.instant (TubeVector.entryExit forward i).2) ∈ exit) :
    (restrictSlice forward i c codomain exit).1.Encloses g := by
  have hle := hs.instant_le_instant (Nat.le_succ i) hi
  have hinner : ∀ r, c.instant i ≤ r → r ≤ c.instant (i + 1) → g r ∈ c.codomain i ∩ codomain :=
    fun r hlow hup => mem_inter (hg.codomain i hi r hlow hup) (hcod r hlow hup)
  have hfirst := hinner _ le_rfl hle
  have hlast := hinner _ hle le_rfl
  cases forward with
  | true =>
    have hentry := (hg.putCodomain hinner).putGate (mem_inter (hg.gate i hi.le) hfirst)
    exact hentry.putGate (mem_inter (mem_inter (hg.gate (i + 1) hi) hexit) hlast)
  | false =>
    have hentry := (hg.putCodomain hinner).putGate (mem_inter (hg.gate (i + 1) hi) hlast)
    exact hentry.putGate (mem_inter (mem_inter (hg.gate i hi.le) hexit) hfirst)

omit [Membership ℝ ι] [Enclosure.Sound ι] in
/-- Boxes of the dimension restrict every component. -/
theorem exists_restrictAll_eq (forward : Bool) (i : ℕ) {boxes : Box ι × Box ι}
    (hcod : boxes.1.length = x.dimension) (hexit : boxes.2.length = x.dimension) :
    ∃ changed, restrictAll forward i x boxes =
      .ok (⟨List.zipWith (fun c (p : ι × ι) => (restrictSlice forward i c p.1 p.2).1) x.components
        (boxes.1.zip boxes.2)⟩, changed) := by
  unfold restrictAll
  rw [hcod, hexit, if_neg (by simp)]
  dsimp only
  rw [List.map_zipWith]
  exact ⟨_, rfl⟩

/-- Boxes of the dimension that hold the trajectory are taken over. -/
theorem restrictAll_spec (hx : x.Sliced) (hX : x.Encloses X) (hi : i < x.sliceCount)
    (forward : Bool) {boxes : Box ι × Box ι} (hcod : boxes.1.length = x.dimension)
    (hexit : boxes.2.length = x.dimension)
    (hboxes : HoldsThrough (x.sliceDomain i) forward X boxes) :
    ∃ y changed, restrictAll forward i x boxes = .ok (y, changed) ∧ y.Encloses X := by
  obtain ⟨changed, hall⟩ := exists_restrictAll_eq forward i hcod hexit
  refine ⟨_, changed, hall, fun j d hd => ?_⟩
  obtain ⟨c, ⟨a, b⟩, hc, hab, rfl⟩ := List.getElem?_zipWith_eq_some.1 hd
  obtain ⟨ha, hb⟩ := List.getElem?_zip_eq_some.1 hab
  have hmem := List.mem_of_getElem? hc
  have hinstant := hx.instant_eq hmem
  refine encloses_restrictSlice (hx.components c hmem) (hX j c hc)
    (hi.trans_eq (hx.sliceCount_eq hmem).symm) forward (fun r hlow hup => ?_) ?_
  · rw [hinstant] at hlow hup
    exact hboxes.1 r ((hx.mem_sliceDomain hi).2 ⟨hlow, hup⟩) j a ha
  · rw [hinstant, ← (hx.origin_sliceDomain hi forward).2]
    exact hboxes.2 j b hb

omit [Membership ℝ ι] [Enclosure.Sound ι] in
theorem seed?_eq (hpicard : m.picardMode = false) (f : Dynamics ι) (x : TubeVector ι) (i : ℕ)
    (entry : Box ι) (forward : Bool) :
    m.seed? f x i entry forward =
      .ok (if Box.isBounded (x.codomain i) then some (x.codomain i) else none) := by
  rw [seed?, hpicard, Bool.not_false, Bool.true_or, if_pos rfl]
  split_ifs <;> rfl

/-- A contracted slice still has the trajectory. -/
theorem contractSlice_spec (hm : m.scheme ≠ .guessedPieces) (hpicard : m.picardMode = false)
    (hf : f.Follows X) (hx : x.Sliced) (hX : x.Encloses X) (hdim : f.dimension = x.dimension)
    (hi : i < x.sliceCount) (forward : Bool) :
    ∃ y changed, m.contractSlice f x i forward = .ok (y, changed) ∧ y.Encloses X := by
  have hsetting : Setting f x (x.sliceDomain i) X := ⟨hf, hx, hX, hdim, hx.isSpan_sliceDomain hi⟩
  have hgate (k : ℕ) : (x.gate k).length = f.dimension := (List.length_map _).trans hdim.symm
  have hcodomain : (x.codomain i).length = f.dimension := (List.length_map _).trans hdim.symm
  have hentry : (x.gate (TubeVector.entryExit forward i).1).Holds
      (X ((x.sliceDomain i).origin forward)) := by
    rw [(hx.origin_sliceDomain hi forward).1]
    exact hX.holds_gate hx (TubeVector.entryExit_le hi forward).1
  rw [contractSlice_eq]
  dsimp only
  rw [hentry.isEmpty, if_neg Bool.false_ne_true, seed?_eq hpicard]
  split_ifs with hbounded
  · obtain ⟨boxes, hboxes, hcod, hexit, hkeep⟩ := integrateSlice_spec hm hsetting forward
      (hgate (TubeVector.entryExit forward i).1) hcodomain
    obtain ⟨y, changed, hy, hyX⟩ := restrictAll_spec hx hX hi forward (hcod.trans hdim)
      (hexit.trans hdim) (hkeep hentry (hX.holdsOver_codomain hx hi))
    refine ⟨y, changed, ?_, hyX⟩
    change m.integrateSlice f x _ _ _ forward >>= _ = _
    rw [hboxes]
    exact hy
  · exact ⟨x, false, rfl, hX⟩

/-- So does the result of a sweep. -/
theorem sweep_spec (hm : m.scheme ≠ .guessedPieces) (hpicard : m.picardMode = false)
    (hf : f.Follows X) (hx : x.Sliced) (hX : x.Encloses X) (hdim : f.dimension = x.dimension)
    (forward : Bool) {slices : List ℕ} (hslices : ∀ i ∈ slices, i < x.sliceCount)
    (before : Bool) :
    ∃ y changed, m.sweep f forward slices before x = .ok (y, changed) ∧ y.Encloses X := by
  induction slices generalizing x before with
  | nil => exact ⟨x, before, rfl, hX⟩
  | cons i slices ih =>
    obtain ⟨y, narrowed, hy, hyX⟩ := contractSlice_spec hm hpicard hf hx hX hdim
      (hslices i List.mem_cons_self) forward
    have hshape := sameShape_contractSlice hy
    have hform := hshape.keepsForm.compatible hx
    have hrest : ∀ k ∈ slices, k < y.sliceCount := fun k hk =>
      (hslices k (List.mem_cons_of_mem i hk)).trans_eq hshape.sliceCount_eq.symm
    obtain ⟨z, changed, hz, hzX⟩ := ih hform.sliced hyX (hdim.trans hform.dimension.symm) hrest
      (before || narrowed)
    have hstep : m.sweep f forward (i :: slices) before x =
        if y.isEmpty || (m.incremental && !narrowed) then .ok (y, before || narrowed)
        else m.sweep f forward slices (before || narrowed) y := by
      rw [sweep, hy]
      rfl
    rw [hstep]
    split_ifs
    · exact ⟨y, _, rfl, hyX⟩
    · exact ⟨z, changed, hz, hzX⟩

end Integration

/-! ### Slices over which nothing is reached -/

section Emptied

open Enclosure (isEmpty elapsed)
open Enclosure.Inclusive (isEmpty_inter isEmpty_empty)
open Enclosure.Strict (isEmpty_add isEmpty_sub)

omit [Membership ℝ ι]

variable {m : Integration} {f : Dynamics ι} {x : TubeVector ι} {t : Interval} {forward : Bool}
  {entry seed v : Box ι} {i k : ℕ}

omit [Enclosure ι] in
theorem Box.mem_zipWith {op : ι → ι → ι} {y z : Box ι} {j : ℕ} (hy : j < y.length)
    (hz : j < z.length) : op y[j] z[j] ∈ List.zipWith op y z :=
  List.mem_of_getElem? (List.getElem?_zipWith_eq_some.2
    ⟨_, _, List.getElem?_eq_getElem hy, List.getElem?_eq_getElem hz, rfl⟩)

theorem Box.isEmpty_inter_right [Enclosure.Inclusive ι] {y z : Box ι} (hlen : z.length = y.length)
    (h : Box.isEmpty z = true) : Box.isEmpty (Box.inter y z) = true := by
  obtain ⟨a, ha, hempty⟩ := List.any_eq_true.1 h
  obtain ⟨j, hj, rfl⟩ := List.mem_iff_getElem.1 ha
  exact List.any_eq_true.2 ⟨_, mem_zipWith (hj.trans_eq hlen) hj, isEmpty_inter (.inr hempty)⟩

/-- A slice restricted to nothing is empty. -/
theorem Integration.isEmpty_codomain_restrictSlice [Enclosure.Inclusive ι] {c : Tube ι}
    (hi : i < c.sliceCount) {inner : ι} (hinner : isEmpty inner = true) (exit : ι)
    (forward : Bool) :
    isEmpty ((restrictSlice forward i c inner exit).1.codomain i) = true := by
  have hcodomain : (restrictSlice forward i c inner exit).1.codomain i = c.codomain i ∩ inner :=
    (Tube.codomain_putCodomain hi).trans (if_pos rfl)
  rw [hcodomain]
  exact isEmpty_inter (.inr hinner)

variable [Enclosure.Strict ι]

theorem Box.isEmpty_step {d w : ι} (hlen : v.length = entry.length) (hw : w ∈ v)
    (h : Enclosure.isEmpty (d * w) = true) : Box.isEmpty (Box.step forward entry v d) = true := by
  obtain ⟨j, hj, rfl⟩ := List.mem_iff_getElem.1 hw
  refine List.any_eq_true.2 ⟨_, mem_zipWith (hj.trans_eq hlen) hj, ?_⟩
  cases forward with
  | true => exact isEmpty_add (.inr h)
  | false => exact isEmpty_sub (.inr h)

namespace Integration

/-- The dynamics answer over a time, and the time elapsed leads nowhere with one of the slopes. -/
def Stalls (f : Dynamics ι) (x : TubeVector ι) (t : Interval) : Prop :=
  ∀ box : Box ι, box.length = f.dimension → ∃ v : Box ι, f.applyOnTube t box x = .ok v ∧
    v.length = f.dimension ∧ ∃ w ∈ v, isEmpty (elapsed t * w) = true

/-- One iteration leaves nothing, and is the last one. -/
theorem Stalls.settle (h : Stalls f x t) (forward : Bool) (hentry : entry.length = f.dimension)
    (hseed : seed.length = f.dimension) (n : ℕ) :
    ∃ c : Box ι, settle f x t entry forward (n + 1) seed = .ok c ∧ c.length = f.dimension ∧
      Box.isEmpty c = true := by
  obtain ⟨v, hv, hvlen, w, hw, hnone⟩ := h seed hseed
  have hstep : (Box.step forward entry v (elapsed t)).length = seed.length :=
    (Box.length_step (hvlen.trans hentry.symm)).trans (hentry.trans hseed.symm)
  have hempty : Box.isEmpty (Box.inter seed (Box.step forward entry v (elapsed t))) = true :=
    Box.isEmpty_inter_right hstep (Box.isEmpty_step (hvlen.trans hentry.symm) hw hnone)
  refine ⟨_, ?_, (Box.length_inter hstep).trans hseed, hempty⟩
  rw [Integration.settle, hv]
  change (if _ || _ then _ else _) = _
  rw [hempty, Bool.or_true, if_pos rfl]
  rfl

theorem Stalls.integrate (h : Stalls f x t) (forward : Bool) (hentry : entry.length = f.dimension)
    (hseed : seed.length = f.dimension) :
    ∃ c e : Box ι, integrate f x t entry seed forward = .ok (c, e) ∧ c.length = f.dimension ∧
      e.length = f.dimension ∧ Box.isEmpty c = true := by
  obtain ⟨c, hc, hclen, hempty⟩ := h.settle forward hentry hseed 9
  obtain ⟨v, hv, hvlen, -⟩ := h c hclen
  have hstep : (Box.step forward entry v (Enclosure.width t)).length = entry.length :=
    Box.length_step (hvlen.trans hentry.symm)
  refine ⟨c, Box.inter (Box.step forward entry v (Enclosure.width t)) c, ?_, hclen, ?_, hempty⟩
  · rw [Integration.integrate, localIterations, hc]
    change f.applyOnTube t c x >>= _ = _
    rw [hv]
    rfl
  · rw [Box.length_inter, hstep, hentry]
    rw [hstep, hentry, hclen]

/-- Every piece is dropped. -/
theorem Stalls.integratePieces (h : Stalls f x t) (hm : m.scheme ≠ .guessedPieces)
    (forward : Bool) (hentry : entry.length = f.dimension) (hseed : seed.length = f.dimension)
    (k : ℕ) (pieces : List ι) (joined : Box ι × Box ι) :
    m.integratePieces f x t entry seed forward k pieces joined = .ok joined := by
  induction pieces with
  | nil => rfl
  | cons piece pieces ih =>
    obtain ⟨c, e, hce, -, -, hempty⟩ :=
      h.integrate forward (List.length_set.trans hentry : (entry.set k piece).length = _) hseed
    rw [Integration.integratePieces, integratePiece_eq hm, hce]
    change (if Box.isEmpty c || Box.isEmpty e then _ else _) = _
    rw [hempty, Bool.true_or, if_pos rfl]
    exact ih

theorem Stalls.integrateSlice (h : Stalls f x t) (hm : m.scheme ≠ .guessedPieces)
    (forward : Bool) (hentry : entry.length = f.dimension) (hseed : seed.length = f.dimension) :
    ∃ boxes : Box ι × Box ι, m.integrateSlice f x t entry seed forward = .ok boxes ∧
      boxes.1.length = f.dimension ∧ boxes.2.length = f.dimension ∧
      Box.isEmpty boxes.1 = true := by
  obtain ⟨c, e, hce, hclen, helen, hempty⟩ := h.integrate forward hentry hseed
  unfold Integration.integrateSlice
  split
  · exact ⟨(c, e), hce, hclen, helen, hempty⟩
  · unfold integrateByPieces
    dsimp only
    split_ifs
    · exact ⟨(c, e), hce, hclen, helen, hempty⟩
    · have hnothing : (entry.map fun _ => (Enclosure.empty : ι)).length = f.dimension :=
        (List.length_map _).trans hentry
      refine ⟨_, h.integratePieces hm forward hentry hseed _ _ _, hnothing, hnothing, ?_⟩
      obtain ⟨v, -, hvlen, w, hw, -⟩ := h seed hseed
      obtain ⟨a, ha⟩ := List.exists_mem_of_length_pos (l := entry)
        (by rw [hentry, ← hvlen]; exact List.length_pos_of_mem hw)
      exact List.any_eq_true.2 ⟨_, List.mem_map_of_mem ha, isEmpty_empty⟩

/-- The slice comes out empty in one component, if it is integrated at all. -/
theorem Stalls.contractSlice (h : Stalls f x (x.sliceDomain i)) (hm : m.scheme ≠ .guessedPieces)
    (hpicard : m.picardMode = false) (hx : x.Timed) (hdim : f.dimension = x.dimension)
    (hi : i < x.sliceCount) (forward : Bool)
    (hentry : Box.isEmpty (x.gate (TubeVector.entryExit forward i).1) = false)
    (hbounded : Box.isBounded (x.codomain i) = true) :
    ∃ y changed, m.contractSlice f x i forward = .ok (y, changed) ∧
      ∃ (j : ℕ) (c : Tube ι), y.components[j]? = some c ∧ isEmpty (c.codomain i) = true := by
  have hgate : (x.gate (TubeVector.entryExit forward i).1).length = f.dimension :=
    (List.length_map _).trans hdim.symm
  have hcodomain : (x.codomain i).length = f.dimension := (List.length_map _).trans hdim.symm
  obtain ⟨boxes, hboxes, hcod, hexit, hempty⟩ := h.integrateSlice hm forward hgate hcodomain
  obtain ⟨changed, hall⟩ :=
    exists_restrictAll_eq forward i (hcod.trans hdim) (hexit.trans hdim)
  have hslice : m.contractSlice f x i forward = restrictAll forward i x boxes := by
    rw [contractSlice_eq]
    dsimp only
    rw [hentry, if_neg Bool.false_ne_true, seed?_eq hpicard, if_pos hbounded]
    change m.integrateSlice f x _ _ _ forward >>= _ = _
    rw [hboxes]
    rfl
  refine ⟨_, changed, hslice.trans hall, ?_⟩
  obtain ⟨a, ha, hnone⟩ := List.any_eq_true.1 hempty
  obtain ⟨j, hj, rfl⟩ := List.mem_iff_getElem.1 ha
  have hjx : j < x.dimension := hj.trans_eq (hcod.trans hdim)
  have hjexit : j < boxes.2.length := hj.trans_eq (hcod.trans hexit.symm)
  have hpair : (boxes.1.zip boxes.2)[j]? = some (boxes.1[j], boxes.2[j]) :=
    List.getElem?_zip_eq_some.2 ⟨List.getElem?_eq_getElem hj, List.getElem?_eq_getElem hjexit⟩
  refine ⟨j, _, List.getElem?_zipWith_eq_some.2
    ⟨_, _, TubeVector.getElem?_component hjx, hpair, rfl⟩, ?_⟩
  have hcount := hx.sliceCount_eq (TubeVector.component_mem hjx)
  exact isEmpty_codomain_restrictSlice (hi.trans_eq hcount.symm) hnone _ forward

end Integration

end Emptied

/-- Integration loses no trajectory over finite, strictly increasing breakpoints: if the dynamics
enclose the slopes of a trajectory of the tube, then the contracted tube has the trajectory, whether
the entries are taken whole or in pieces, for any start, direction and stopping rule, and for any
operators that contain the exact results. -/
theorem Integration.contract_keeps_solution {o : Operators} (ho : o.Sound) {m : Integration}
    (hscheme : m.scheme = .basic ∨ m.scheme = .pieces) (hpicard : m.picardMode = false)
    {f : Dynamics (Rounded o)} (t0 : Float) (direction : Direction) {x : TubeVector (Rounded o)}
    {X : ℝ → ℕ → ℝ} (hx : x.Sliced) (hX : ∀ t, x.HoldsAt X t) (hdim : f.dimension = x.dimension)
    (hf : f.Follows X) :
    ∃ y changed, m.contract f t0 direction x = .ok (y, changed) ∧ y.SameShape x ∧
      ∀ t, y.HoldsAt X t := by
  have := Rounded.sound ho
  have hm := scheme_ne_guessedPieces hscheme
  rw [← hx.encloses_iff] at hX
  suffices hok : ∃ y changed, m.contract f t0 direction x = .ok (y, changed) ∧ y.Encloses X by
    obtain ⟨y, changed, hy, hyX⟩ := hok
    have hshape := sameShape_contract hy
    exact ⟨y, changed, hy, hshape,
      (hshape.keepsForm.compatible hx).sliced.encloses_iff.1 hyX⟩
  rw [contract_eq]
  cases startEnd? x t0 with
  | none => exact ⟨x, false, rfl, hX⟩
  | some ends =>
    obtain ⟨start, stop⟩ := ends
    -- the slices after the start, then those before it in what the first sweep left
    have hfirst : ∃ y changed, (if direction.goesForward then
        m.sweep f true (List.range' start (x.sliceCount - start)) false x
        else .ok (x, false)) = .ok (y, changed) ∧ y.SameShape x ∧ y.Encloses X := by
      split_ifs
      · have hslices : ∀ i ∈ List.range' start (x.sliceCount - start), i < x.sliceCount := by
          intro i hi
          obtain ⟨hlow, hup⟩ := List.mem_range'_1.1 hi
          omega
        obtain ⟨y, changed, hy, hyX⟩ := sweep_spec hm hpicard hf hx hX hdim true hslices false
        exact ⟨y, changed, hy, sameShape_sweep hy, hyX⟩
      · exact ⟨x, false, rfl, .refl x, hX⟩
    obtain ⟨y, changed, hy, hshape, hyX⟩ := hfirst
    have hform := hshape.keepsForm.compatible hx
    dsimp only
    rw [hy]
    change ∃ z changed', (if direction.goesBackward && !y.isEmpty then
      m.sweep f false (List.range (min stop y.sliceCount)).reverse changed y
      else .ok (y, changed)) = .ok (z, changed') ∧ z.Encloses X
    split_ifs
    · refine sweep_spec hm hpicard hf hform.sliced hyX (hdim.trans hform.dimension.symm) false
        (fun i hi => ?_) changed
      exact (List.mem_range.1 (List.mem_reverse.1 hi)).trans_le (min_le_right _ _)
    · exact ⟨y, changed, rfl, hyX⟩

/-! ### The solution of slope one -/

namespace Integration

open FlowTube.Dynamics (steady)

theorem follows_steady (o : Operators) : (steady o).Follows fun t _ => t where
  total := fun _ _ _ _ _ _ _ => ⟨_, rfl, rfl⟩
  slopes := fun _ _ _ _ _ _ _ _ _ hv _ _ _ _ hrs => Dynamics.holds_steady hv hrs

/-- Gates and values from zero to one, over the unit span. -/
def unitBox (o : Operators) : TubeVector (Rounded o) :=
  TubeVector.unitSlice Interval.unit Interval.unit

theorem encloses_unitBox (o : Operators) : (unitBox o).Encloses fun t _ => t := by
  have hmem {t : ℝ} (h0 : 0 ≤ t) (h1 : t ≤ 1) : t ∈ Interval.unit :=
    Interval.mem_unit.2 ⟨h0, h1⟩
  exact TubeVector.encloses_unitSlice (fun _ => hmem) (hmem le_rfl zero_le_one)
    (hmem zero_le_one le_rfl)

theorem contract_keeps_unit_slope :
    (unitBox .cautious).Sliced ∧ (∀ t, (unitBox .cautious).HoldsAt (fun t _ => t) t) ∧
      (steady .cautious).Follows (fun t _ => t) ∧
      ∃ y changed, (⟨.pieces, false, false⟩ : Integration).contract (steady .cautious) 0.0 .both
          (unitBox .cautious) = .ok (y, changed) ∧
        y.SameShape (unitBox .cautious) ∧ ∀ t, y.HoldsAt (fun t _ => t) t := by
  have hX := TubeVector.sliced_unitSlice.encloses_iff.1 (encloses_unitBox .cautious)
  exact ⟨TubeVector.sliced_unitSlice, hX, follows_steady _,
    contract_keeps_solution Operators.sound_cautious (.inr rfl) rfl 0.0 .both
      TubeVector.sliced_unitSlice hX rfl (follows_steady _)⟩

/-! ### A trajectory lost -/

/-- Integration of a single slice that stalls loses every trajectory at each of its times. -/
theorem Stalls.sweep {ι : Type} [Enclosure ι] [Membership ℝ ι] [Enclosure.Lawful ι]
    [Enclosure.Strict ι] {m : Integration} {f : Dynamics ι} {x : TubeVector ι} {i : ℕ}
    (h : Stalls f x (x.sliceDomain i)) (hm : m.scheme ≠ .guessedPieces)
    (hpicard : m.picardMode = false) (hx : x.Timed) (hdim : f.dimension = x.dimension)
    (hi : i < x.sliceCount) (forward : Bool)
    (hentry : Box.isEmpty (x.gate (TubeVector.entryExit forward i).1) = false)
    (hbounded : Box.isBounded (x.codomain i) = true) {t : ℝ} (ht : t ∈ x.sliceDomain i)
    (X : ℝ → ℕ → ℝ) :
    ∃ y changed, m.sweep f forward [i] false x = .ok (y, changed) ∧ ¬y.HoldsAt X t := by
  obtain ⟨y, changed, hy, j, c, hc, hempty⟩ :=
    h.contractSlice hm hpicard hx hdim hi forward hentry hbounded
  refine ⟨y, changed, ?_, (sameShape_contractSlice hy).not_holdsAt hx hi hc hempty ht⟩
  rw [Integration.sweep, hy]
  change (if _ then _ else _) = _
  split_ifs
  · rw [Bool.false_or]
    rfl
  · rw [Bool.false_or]
    rfl

open FlowTube.Dynamics (resting)
open Enclosure (elapsed)

/-- What is at rest has no slope over a single time, and over a time that elapses to no number it
is nowhere. -/
theorem stalls_resting {o : Operators} (ho : o.Strict) {x : TubeVector (Rounded o)} {t : Interval}
    (h : t.isDegenerate = true ∨ Enclosure.isEmpty (elapsed t : Rounded o) = true) :
    Stalls (resting o) x t := by
  have hstrict := Rounded.strict ho
  intro box _
  refine ⟨[t.slopeAtRest], rfl, rfl, t.slopeAtRest, List.mem_singleton.2 rfl,
    hstrict.isEmpty_mul (h.symm.imp_right fun hdegenerate => ?_)⟩
  rw [Interval.slopeAtRest, if_pos hdegenerate]
  rfl

/-- Up to an infinity no time that is a number elapses. -/
theorem isEmpty_elapsed {t : Interval} (h : (Interval.point t.ub).isEmpty = true) :
    Enclosure.isEmpty (elapsed t : Rounded .cautious) = true := by
  have hwidth : (Enclosure.width t : Rounded .cautious) = Interval.empty := by
    refine Operators.guarded_eq ?_ fun r hr => ?_
    · change Interval.add (Interval.point t.ub) (-Interval.point t.lb) = _
      rw [Interval.add, h, Bool.true_or, if_pos rfl]
    · exact absurd h (Bool.eq_false_iff.1 (Interval.isEmpty_of_mem hr))
  rw [elapsed, hwidth]
  rfl

/-- The zero function follows the dynamics at rest, and is lost in tubes from zero to one, where
there is an infinite breakpoint, or two equal ones as a partition in small steps makes them. -/
theorem contract_loses_rest :
    let X : ℝ → ℕ → ℝ := fun _ _ => 0
    let f := resting .cautious
    let x : TubeVector (Rounded .cautious) := .endless Interval.unit
    let x' : TubeVector (Rounded .cautious) := .repeating Interval.unit
    Operators.cautious.Sound ∧
      (∀ t box tube, ∃ w, f.applyOnTube t box tube = .ok [w] ∧
        HasSlopes (fun _ => 0) w {r | r ∈ t}) ∧
      (x.Timed ∧ f.dimension = x.dimension ∧ ∀ t, x.HoldsAt X t) ∧
      TubeVector.uniform ⟨9007199254740992.0, 9007199254740996.0⟩ 1.0 [Interval.unit] = .ok x' ∧
      (x'.Timed ∧ f.dimension = x'.dimension ∧ ∀ t, x'.HoldsAt X t) ∧
      ∀ m : Integration, m.scheme = .basic ∨ m.scheme = .pieces → m.picardMode = false →
        (∃ y changed, m.contract f 1.0 .forward x = .ok (y, changed) ∧ ¬y.HoldsAt X 1) ∧
        ∃ y changed, m.contract f 9007199254740992.0 .backward x' = .ok (y, changed) ∧
          ¬y.HoldsAt X (Binary64.real 9007199254740992.0) := by
  have hlawful := (Rounded.sound Operators.sound_cautious).toLawful
  have hstrict := Rounded.strict Operators.strict_cautious
  intro X f x x'
  have hx : x.Timed := TubeVector.timed_endless _
  have hx' : x'.Timed := TubeVector.timed_repeating _
  refine ⟨Operators.sound_cautious, fun t _ _ => ⟨_, rfl, t.hasSlopes_slopeAtRest⟩, ⟨hx, rfl,
    TubeVector.holdsAt_endless fun _ => Interval.zero_mem_unit⟩, TubeVector.uniform_eq_repeating _,
    ⟨hx', rfl, TubeVector.holdsAt_repeating fun _ => Interval.zero_mem_unit⟩,
    fun m hscheme hpicard => ?_⟩
  have hm := scheme_ne_guessedPieces hscheme
  constructor
  · have hstalls : Stalls f x (x.sliceDomain 1) :=
      stalls_resting Operators.strict_cautious (.inr (isEmpty_elapsed (by decide +kernel)))
    have hstart : startEnd? x 1.0 = some (1, 1) := by decide +kernel
    obtain ⟨y, changed, hy, hlost⟩ := hstalls.sweep hm hpicard hx rfl (Nat.lt_succ_self 1) true
      (by decide +kernel) (by decide +kernel) (TubeVector.one_mem_endless _) X
    refine ⟨y, changed, ?_, hlost⟩
    rw [contract_eq, hstart]
    change m.sweep f true [1] false x >>= _ = _
    rw [hy]
    rfl
  · have hstalls : Stalls f x' (x'.sliceDomain 0) :=
      stalls_resting Operators.strict_cautious (.inl (TubeVector.isDegenerate_repeating _))
    have hstart : startEnd? x' 9007199254740992.0 = some (1, 1) := by decide +kernel
    obtain ⟨y, changed, hy, hlost⟩ := hstalls.sweep hm hpicard hx' rfl (Nat.succ_pos 2) false
      (by decide +kernel) (by decide +kernel) (TubeVector.start_mem_repeating _) X
    have hsome : x'.isEmpty = false := by decide +kernel
    refine ⟨y, changed, ?_, hlost⟩
    rw [contract_eq, hstart]
    change (if (true && !x'.isEmpty) = true then m.sweep f false [0] false x' else _) = _
    rw [hsome]
    exact hy

end Integration

end FlowTube
