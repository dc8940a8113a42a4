import FlowTube.Proofs.SliceTree.Updates

/-! Sequences of changes of a slice tree. A change does to the leaves what the same change does to a
flat list of slices and values: a place is found by its index, a time by the first slice that
contains it, an interval of time by the slices that meet it, and a second tree of the same size is
taken slice by slice. So after any sequence of changes the leaves are those of the list, and the
caches at every node are the hulls of the leaves below it. -/

namespace FlowTube

open SliceTree

variable {ι : Type}

/-! ### Changes -/

/-- A change of the values of a slice tree. -/
inductive Change (ι : Type)
  | set (i : ℕ) (y : ι)
  | setAt (t : Float) (y : ι)
  | setOver (tdom : Interval) (y : ι)
  | narrow (i : ℕ) (y : ι)
  | narrowAt (t : Float) (y : ι)
  | join (other : SliceTree ι)
  | meet (other : SliceTree ι)
  | eulerForward (v : SliceTree ι)
  | eulerBackward (v : SliceTree ι)
  | euler (v : SliceTree ι)
  | primitive (initial : ι)

namespace Change

variable [Enclosure ι] {x : SliceTree ι}

/-- The tree after a change. -/
def run : Change ι → SliceTree ι → SliceTree ι
  | set i y, x => x.set i y
  | setAt t y, x => x.setAt t y
  | setOver tdom y, x => SliceTree.setOver tdom y x
  | narrow i y, x => (x.narrow i y).1
  | narrowAt t y, x => (x.narrowAt t y).1
  | join other, x => x.join other
  | meet other, x => x.meet other
  | eulerForward v, x => (SliceTree.eulerForward v x).1
  | eulerBackward v, x => (SliceTree.eulerBackward v x).1
  | euler v, x => (SliceTree.euler v x).1
  | primitive initial, x => x.primitive initial

/-- Replaces the values of a list of slices. -/
def replace (xs : List (Interval × ι)) (values : List ι) : List (Interval × ι) :=
  (xs.map (·.1)).zip values

/-- Applies a function to the value at place `i`, if there is such a place. -/
def place (f : ι → ι) (i : ℕ) (xs : List (Interval × ι)) : List (Interval × ι) :=
  xs.modify i fun s => (s.1, f s.2)

/-- Applies a function to the value of the first slice that contains `t`, if there is one. -/
def placeAt (f : ι → ι) (t : Float) (xs : List (Interval × ι)) : List (Interval × ι) :=
  match xs.findIdx? (·.1.contains t) with
  | some i => place f i xs
  | none => xs

/-- All Euler steps forward with a derivative. -/
def forward (v : SliceTree ι) (xs : List (Interval × ι)) : List (Interval × ι) :=
  replace xs (forwardLoop (Enclosure.point v.dt) v.values (xs.map (·.2)))

/-- All Euler steps backward with a derivative. -/
def backward (v : SliceTree ι) (xs : List (Interval × ι)) : List (Interval × ι) :=
  replace xs (backwardLoop (Enclosure.point v.dt) v.values (xs.map (·.2)))

/-- A change of a flat list of slices with their values. -/
def runFlat : Change ι → List (Interval × ι) → List (Interval × ι)
  | set i y, xs => place (fun _ => y) i xs
  | setAt t y, xs => placeAt (fun _ => y) t xs
  | setOver tdom y, xs => xs.map fun s => if s.1.meets tdom then (s.1, y) else s
  | narrow i y, xs => place (fun a => (Enclosure.narrow a y).1) i xs
  | narrowAt t y, xs => placeAt (fun a => (Enclosure.narrow a y).1) t xs
  | join other, xs => List.zipWith (fun s r => (s.1, s.2 ∪ r.2)) xs other.flat
  | meet other, xs => List.zipWith (fun s r => (s.1, s.2 ∩ r.2)) xs other.flat
  | eulerForward v, xs => forward v xs
  | eulerBackward v, xs => backward v xs
  | euler v, xs => backward v (forward v xs)
  | primitive initial, xs =>
    let dt := Enclosure.point ((xs.map (·.1)).headD Interval.empty).diam
    replace xs ((xs.map (·.2)).scanl (fun c v => c + v * dt) initial).dropLast

/-- A second tree is balanced, as every tree over given slices is, and has `n` slices. -/
def Fits (n : ℕ) : Change ι → Prop
  | join other | meet other => other.Balanced ∧ other.size = n
  | _ => True

/-- One tree comes from another by a change with the given effect on the list of slices. -/
structure Follows (f : List (Interval × ι) → List (Interval × ι)) (x y : SliceTree ι) : Prop where
  frame : y.frame = x.frame
  coherent : x.Coherent → y.Coherent
  flat : x.Balanced → x.Spans → y.flat = f x.flat

theorem Follows.trans {f g : List (Interval × ι) → List (Interval × ι)} {y z : SliceTree ι}
    (hxy : Follows f x y) (hyz : Follows g y z) : Follows (fun xs => g (f xs)) x z where
  frame := hyz.frame.trans hxy.frame
  coherent h := hyz.coherent (hxy.coherent h)
  flat hb hs := by
    rw [hyz.flat, hxy.flat hb hs]
    · rwa [← balanced_frame, hxy.frame, balanced_frame]
    · rwa [← spans_frame, hxy.frame, spans_frame]

theorem follows_place {β : Type} (g : ι → ι × β) (i : ℕ) (x : SliceTree ι) :
    Follows (place (fun a => (g a).1) i) x (if i < x.size then (modify g i x).1 else x) := by
  split_ifs with hi
  · exact ⟨frame_modify g i x, coherent_modify g i, fun hb _ => flat_modify g hb hi⟩
  · refine ⟨rfl, id, fun hb _ => (List.modify_eq_self ?_).symm⟩
    rw [hb.length_flat]
    omega

theorem follows_placeAt {β : Type} (g : ι → ι × β) (t : Float) (x : SliceTree ι) :
    Follows (placeAt (fun a => (g a).1) t) x
      (match x.indexAt? t with
        | some i => if i < x.size then (modify g i x).1 else x
        | none => x) := by
  cases hi : x.indexAt? t with
  | some i =>
    have hplace := follows_place g i x
    refine ⟨hplace.frame, hplace.coherent, fun hb hs => ?_⟩
    rw [indexAt?_eq_findIdx? hb hs] at hi
    rw [placeAt, hi]
    exact hplace.flat hb hs
  | none =>
    refine ⟨rfl, id, fun hb hs => ?_⟩
    rw [indexAt?_eq_findIdx? hb hs] at hi
    rw [placeAt, hi]

theorem follows_combine (op : ι → ι → ι) {other : SliceTree ι} (hb : other.Balanced)
    (hsize : other.size = x.size) :
    Follows (fun xs => List.zipWith (fun s r => (s.1, op s.2 r.2)) xs other.flat) x
      (combine op x other).update where
  frame := by rw [frame_update, frame_combine]
  coherent _ := coherent_update _
  flat hx _ := by rw [flat_update, flat_combine op hx hb hsize]

theorem follows_withValues {g : List (Interval × ι) → List ι} {values : List ι}
    (hlen : values.length = x.values.length) (hg : x.Spans → values = g x.flat) :
    Follows (fun xs => replace xs (g xs)) x (x.withValues values) where
  frame := frame_withValues x values
  coherent _ := coherent_update _
  flat _ hs := by rw [flat_withValues x hlen, hg hs, replace]

theorem follows_eulerForward (v x : SliceTree ι) :
    Follows (forward v) x (SliceTree.eulerForward v x).1 := by
  rw [eulerForward_eq]
  exact follows_withValues (length_forwardLoop ..) fun _ => by rw [values_eq_flat x]

theorem follows_eulerBackward (v x : SliceTree ι) :
    Follows (backward v) x (SliceTree.eulerBackward v x).1 := by
  rw [eulerBackward_eq]
  exact follows_withValues (length_backwardLoop ..) fun _ => by rw [values_eq_flat x]

/-- A change does to a tree what it does to the list of its slices. -/
theorem follows_run (c : Change ι) (hc : c.Fits x.size) : Follows c.runFlat x (c.run x) := by
  cases c with
  | set i y => exact follows_place (fun _ => (y, ())) i x
  | setAt t y => exact follows_placeAt (fun _ => (y, ())) t x
  | setOver tdom y =>
    exact ⟨frame_setOver tdom y x, coherent_setOver tdom y, fun _ hs => flat_setOver tdom y hs⟩
  | narrow i y =>
    have hrun : (narrow i y).run x =
        if i < x.size then (modify (fun a => Enclosure.narrow a y) i x).1 else x := by
      rw [run, SliceTree.narrow, apply_ite Prod.fst]
    rw [hrun]
    exact follows_place (fun a => Enclosure.narrow a y) i x
  | narrowAt t y =>
    have hrun : (narrowAt t y).run x = match x.indexAt? t with
        | some i => if i < x.size then (modify (fun a => Enclosure.narrow a y) i x).1 else x
        | none => x := by
      rw [run, SliceTree.narrowAt]
      cases x.indexAt? t with
      | some i => exact apply_ite Prod.fst ..
      | none => rfl
    rw [hrun]
    exact follows_placeAt (fun a => Enclosure.narrow a y) t x
  | join other => exact follows_combine (· ∪ ·) hc.1 hc.2
  | meet other => exact follows_combine (· ∩ ·) hc.1 hc.2
  | eulerForward v => exact follows_eulerForward v x
  | eulerBackward v => exact follows_eulerBackward v x
  | euler v => exact (follows_eulerForward v x).trans (follows_eulerBackward v _)
  | primitive initial =>
    refine follows_withValues ?_ fun hs => ?_
    · rw [runningSums_eq, List.length_dropLast, List.length_scanl, Nat.add_sub_cancel]
    · rw [runningSums_eq, hs.dt_eq, values_eq_flat x]

/-- The tree after a sequence of changes. -/
def runAll (cs : List (Change ι)) (x : SliceTree ι) : SliceTree ι := cs.foldl (fun x c => c.run x) x

/-- The list of slices after a sequence of changes. -/
def runAllFlat (cs : List (Change ι)) (xs : List (Interval × ι)) : List (Interval × ι) :=
  cs.foldl (fun xs c => c.runFlat xs) xs

end Change

/-! ### Hulls at every node -/

namespace SliceTree

/-- A tree with all trees below it. -/
def subtrees : SliceTree ι → List (SliceTree ι)
  | leaf l => [leaf l]
  | node l past future => node l past future :: (past.subtrees ++ future.subtrees)

theorem flat_subset_of_mem_subtrees {x y : SliceTree ι} (h : y ∈ x.subtrees) : y.flat ⊆ x.flat := by
  induction x with
  | leaf l => rw [List.mem_singleton.1 h]; exact List.Subset.refl _
  | node l past future hp hf =>
    rcases List.mem_cons.1 h with rfl | h
    · exact List.Subset.refl _
    · rw [flat_node]
      rcases List.mem_append.1 h with h | h
      · exact List.subset_append_of_subset_left _ (hp h)
      · exact List.subset_append_of_subset_right _ (hf h)

theorem Coherent.of_mem_subtrees [Enclosure ι] {x y : SliceTree ι} (hx : x.Coherent)
    (h : y ∈ x.subtrees) : y.Coherent := by
  induction x with
  | leaf l => rwa [List.mem_singleton.1 h]
  | node l past future hp hf =>
    rcases List.mem_cons.1 h with rfl | h
    · exact hx
    · rcases List.mem_append.1 h with h | h
      · exact hp hx.1 h
      · exact hf hx.2.1 h

end SliceTree

namespace Interval

theorem numeric_ends (a : Interval) : a.ends.1.Numeric ∧ a.ends.2.Numeric := by
  unfold ends
  split_ifs
  · exact ⟨numeric_empty, numeric_empty⟩
  · exact ⟨numeric_ofBounds .., numeric_ofBounds ..⟩

theorem numeric_add (a b : Interval) : (a + b).Numeric := by
  change (add a b).Numeric
  unfold add
  split_ifs
  · exact numeric_empty
  · exact numeric_ofBounds ..

theorem Numeric.narrow {a : Interval} (h : a.Numeric) (y : Interval) :
    (Enclosure.narrow a y).1.Numeric := by
  unfold Enclosure.narrow
  split_ifs
  · exact h
  · exact numeric_inter a y

end Interval

namespace SliceTree

variable {x : SliceTree Interval}

/-- The caches at the root are the hulls of the values of the slices, of their least and of their
greatest values. -/
structure Summarized (x : SliceTree Interval) : Prop where
  value : x.value = Interval.hullAll (x.flat.map (·.2))
  lower : x.bounds.1 = Interval.hullAll (x.flat.map (·.2.ends.1))
  upper : x.bounds.2 = Interval.hullAll (x.flat.map (·.2.ends.2))

/-- The hull over a node is the hull of those over its halves. -/
theorem hullAll_flat_node {l : SliceLabel Interval} {past future : SliceTree Interval}
    {f : Interval × Interval → Interval} (hn : ∀ s ∈ past.flat ++ future.flat, (f s).Numeric) :
    Interval.hullAll ((node l past future).flat.map f) =
      Interval.hullAll (past.flat.map f) ∪ Interval.hullAll (future.flat.map f) := by
  rw [List.forall_mem_append] at hn
  rw [flat_node, List.map_append, Interval.hullAll_append]
  · exact List.forall_mem_map.2 hn.1
  · exact List.forall_mem_map.2 hn.2
  · simpa using future.flat_ne_nil

theorem summarized_node_iff {l : SliceLabel Interval} {past future : SliceTree Interval}
    (hn : ∀ s ∈ past.flat ++ future.flat, s.2.Numeric) (hp : past.Summarized)
    (hf : future.Summarized) : (node l past future).Summarized ↔
      l.value = past.value ∪ future.value ∧ l.bounds = joinBounds past.bounds future.bounds := by
  have hvalue := hullAll_flat_node (l := l) hn
  have hlower := hullAll_flat_node (l := l) fun s (_ : s ∈ past.flat ++ future.flat) =>
    (Interval.numeric_ends s.2).1
  have hupper := hullAll_flat_node (l := l) fun s (_ : s ∈ past.flat ++ future.flat) =>
    (Interval.numeric_ends s.2).2
  rw [← hp.value, ← hf.value] at hvalue
  rw [← hp.lower, ← hf.lower] at hlower
  rw [← hp.upper, ← hf.upper] at hupper
  constructor
  · intro h
    exact ⟨h.value.trans hvalue, Prod.ext (h.lower.trans hlower) (h.upper.trans hupper)⟩
  · rintro ⟨hv, hb⟩
    exact ⟨hv.trans hvalue.symm, (congrArg Prod.fst hb).trans hlower.symm,
      (congrArg Prod.snd hb).trans hupper.symm⟩

theorem summarized_leaf_iff {l : SliceLabel Interval} :
    (leaf l).Summarized ↔ l.bounds = Enclosure.ends l.value :=
  ⟨fun h => Prod.ext h.lower h.upper, fun h => ⟨rfl, congrArg Prod.fst h, congrArg Prod.snd h⟩⟩

/-- Caches that agree with what is directly below them are hulls of all that is below. -/
theorem Coherent.summarized (h : x.Coherent) (hn : ∀ s ∈ x.flat, s.2.Numeric) :
    x.Summarized := by
  induction x with
  | leaf l => exact summarized_leaf_iff.2 h
  | node l past future hp hf =>
    obtain ⟨hpast, hfuture, hcaches⟩ := h
    rw [flat_node] at hn
    have hboth := List.forall_mem_append.1 hn
    exact (summarized_node_iff hn (hp hpast hboth.1) (hf hfuture hboth.2)).2 hcaches

/-- Caches that are hulls of all that is below agree with what is directly below them. -/
theorem coherent_iff_summarized (hn : ∀ s ∈ x.flat, s.2.Numeric) :
    x.Coherent ↔ ∀ y ∈ x.subtrees, y.Summarized := by
  constructor
  · intro h y hy
    exact (h.of_mem_subtrees hy).summarized fun s hs => hn s (flat_subset_of_mem_subtrees hy hs)
  · intro h
    induction x with
    | leaf l => exact summarized_leaf_iff.1 (h (leaf l) (List.mem_singleton_self _))
    | node l past future hp hf =>
      rw [flat_node] at hn
      have hboth := List.forall_mem_append.1 hn
      rw [subtrees, List.forall_mem_cons, List.forall_mem_append] at h
      obtain ⟨hroot, hpast, hfuture⟩ := h
      have hcpast := hp hboth.1 hpast
      have hcfuture := hf hboth.2 hfuture
      exact ⟨hcpast, hcfuture, (summarized_node_iff hn (hcpast.summarized hboth.1)
        (hcfuture.summarized hboth.2)).1 hroot⟩

end SliceTree

/-! ### Sequences of changes -/

namespace Change

open SliceTree

variable {x : SliceTree Interval} {xs : List (Interval × Interval)} {slices : List Interval}
  {value : Interval} {c : Change Interval} {cs : List (Change Interval)}

/-- The intervals that a change brings in have numbers as bounds. -/
def Numeric : Change Interval → Prop
  | set _ y | setAt _ y | setOver _ y | primitive y => y.Numeric
  | join other => ∀ s ∈ other.flat, s.2.Numeric
  | _ => True

theorem numeric_place {f : Interval → Interval} (hf : ∀ a, a.Numeric → (f a).Numeric) (i : ℕ)
    (h : ∀ s ∈ xs, s.2.Numeric) : ∀ s ∈ place f i xs, s.2.Numeric :=
  forall_mem_modify h fun s hs => hf s.2 hs

theorem numeric_placeAt {f : Interval → Interval} (hf : ∀ a, a.Numeric → (f a).Numeric) (t : Float)
    (h : ∀ s ∈ xs, s.2.Numeric) : ∀ s ∈ placeAt f t xs, s.2.Numeric := by
  unfold placeAt
  split
  · exact numeric_place hf _ h
  · exact h

theorem numeric_replace {values : List Interval} (h : ∀ a ∈ values, a.Numeric) :
    ∀ s ∈ replace xs values, s.2.Numeric :=
  fun s hs => h s.2 (List.of_mem_zip hs).2

theorem numeric_forward (v : SliceTree Interval) (h : ∀ s ∈ xs, s.2.Numeric) :
    ∀ s ∈ forward v xs, s.2.Numeric := by
  refine numeric_replace (forwardLoop_keeps (P := fun ys : List Interval => ∀ a ∈ ys, a.Numeric)
    (fun ys i y hys => ?_) (List.forall_mem_map.2 h) _ _)
  exact forall_mem_modify hys fun a ha => ha.narrow y

theorem numeric_backward (v : SliceTree Interval) (h : ∀ s ∈ xs, s.2.Numeric) :
    ∀ s ∈ backward v xs, s.2.Numeric := by
  refine numeric_replace (backwardLoop_keeps (P := fun ys : List Interval => ∀ a ∈ ys, a.Numeric)
    (fun ys i y hys => ?_) (List.forall_mem_map.2 h) _ _)
  exact forall_mem_modify hys fun a ha => ha.narrow y

theorem numeric_scanl {f : Interval → Interval → Interval} (hf : ∀ a b, (f a b).Numeric)
    {a : Interval} (ha : a.Numeric) (vs : List Interval) : ∀ b ∈ vs.scanl f a, b.Numeric := by
  induction vs generalizing a with
  | nil => simpa using ha
  | cons v vs ih =>
    rw [List.scanl_cons, List.forall_mem_cons]
    exact ⟨ha, ih (hf a v)⟩

/-- The values of a list stay intervals with numbers as bounds. -/
theorem numeric_runFlat (hc : c.Numeric) (h : ∀ s ∈ xs, s.2.Numeric) :
    ∀ s ∈ c.runFlat xs, s.2.Numeric := by
  cases c with
  | set i y => exact numeric_place (fun _ _ => hc) i h
  | setAt t y => exact numeric_placeAt (fun _ _ => hc) t h
  | setOver tdom y =>
    refine List.forall_mem_map.2 fun s hs => ?_
    split_ifs
    · exact hc
    · exact h s hs
  | narrow i y => exact numeric_place (fun a ha => ha.narrow y) i h
  | narrowAt t y => exact numeric_placeAt (fun a ha => ha.narrow y) t h
  | join other =>
    intro s hs
    obtain ⟨j, hj⟩ := List.mem_iff_getElem?.1 hs
    obtain ⟨a, b, ha, hb, rfl⟩ := List.getElem?_zipWith_eq_some.1 hj
    exact (h a (List.mem_of_getElem? ha)).union (hc b (List.mem_of_getElem? hb))
  | meet other =>
    intro s hs
    obtain ⟨j, hj⟩ := List.mem_iff_getElem?.1 hs
    obtain ⟨a, b, -, -, rfl⟩ := List.getElem?_zipWith_eq_some.1 hj
    exact Interval.numeric_inter a.2 b.2
  | eulerForward v => exact numeric_forward v h
  | eulerBackward v => exact numeric_backward v h
  | euler v => exact numeric_backward v (numeric_forward v h)
  | primitive initial =>
    refine numeric_replace fun a ha => ?_
    exact numeric_scanl (fun _ _ => Interval.numeric_add ..) hc _ a (List.mem_of_mem_dropLast ha)

/-- What every tree over consecutive slices has, and every change keeps. -/
structure Kept (x : SliceTree Interval) : Prop where
  balanced : x.Balanced
  spans : x.Spans
  coherent : x.Coherent
  numeric : ∀ s ∈ x.flat, s.2.Numeric

theorem Kept.run (hx : Kept x) (hfits : c.Fits x.size) (hc : c.Numeric) : Kept (c.run x) := by
  have h := follows_run c hfits
  refine ⟨?_, ?_, h.coherent hx.coherent, ?_⟩
  · rw [← balanced_frame, h.frame, balanced_frame]
    exact hx.balanced
  · rw [← spans_frame, h.frame, spans_frame]
    exact hx.spans
  · rw [h.flat hx.balanced hx.spans]
    exact numeric_runFlat hc hx.numeric

theorem Kept.runAll (hx : Kept x) (hcs : ∀ c ∈ cs, c.Fits x.size ∧ c.Numeric) :
    Kept (runAll cs x) ∧ (runAll cs x).frame = x.frame ∧
      (runAll cs x).flat = runAllFlat cs x.flat := by
  induction cs generalizing x with
  | nil => exact ⟨hx, rfl, rfl⟩
  | cons c cs ih =>
    obtain ⟨hfits, hc⟩ := hcs c List.mem_cons_self
    have h := follows_run c hfits
    have hsize : (c.run x).size = x.size := by rw [← size_frame, h.frame, size_frame]
    obtain ⟨hkept, hframe, hflat⟩ := ih (hx.run hfits hc) fun d hd => by
      rw [hsize]
      exact hcs d (List.mem_cons_of_mem c hd)
    refine ⟨hkept, hframe.trans h.frame, hflat.trans ?_⟩
    rw [h.flat hx.balanced hx.spans]
    rfl

theorem kept_ofSlices (hslices : Consecutive slices) (hne : slices ≠ []) (hvalue : value.Numeric) :
    ∃ x, ofSlices slices value = .ok x ∧ Kept x ∧ x.flat = slices.map (·, value) := by
  obtain ⟨hspans, hflat, -⟩ := build_spec value hslices hne
  refine ⟨(build slices value).update, ?_, ⟨?_, ?_, coherent_update _, ?_⟩, ?_⟩
  · rw [ofSlices, if_neg (by simpa using hne)]
  · exact balanced_update (balanced_build slices value hne).1
  · rwa [← spans_frame, frame_update, spans_frame]
  · rw [flat_update, hflat]
    exact List.forall_mem_map.2 fun _ _ => hvalue
  · rw [flat_update, hflat]

/-- After any sequence of changes the leaves of a tree over consecutive slices are those of the
flat list after the same changes, the slices are the same at every node, and every cache is the
hull of what is below it. -/
theorem runAll_refines (cs : List (Change Interval)) (hslices : Consecutive slices)
    (hne : slices ≠ []) (hvalue : value.Numeric)
    (hcs : ∀ c ∈ cs, c.Fits slices.length ∧ c.Numeric) :
    ∃ x, ofSlices slices value = .ok x ∧
      (runAll cs x).flat = runAllFlat cs (slices.map (·, value)) ∧
      (runAll cs x).flat.map (·.1) = slices ∧ (runAll cs x).frame = x.frame ∧
      ∀ y ∈ (runAll cs x).subtrees, y.Summarized := by
  obtain ⟨x, hx, hkept, hflat⟩ := kept_ofSlices hslices hne hvalue
  have hsize : x.size = slices.length := by
    rw [← hkept.balanced.length_flat, hflat, List.length_map]
  rw [← hsize] at hcs
  obtain ⟨hkept', hframe, hflat'⟩ := hkept.runAll hcs
  refine ⟨x, hx, ?_, ?_, hframe, fun y hy => ?_⟩
  · rw [hflat', hflat]
  · rw [← flat_frame, hframe, flat_frame, hflat, map_fst_constant]
  · exact (hkept'.coherent.of_mem_subtrees hy).summarized fun s hs =>
      hkept'.numeric s (flat_subset_of_mem_subtrees hy hs)

theorem consecutive_two_slices : Consecutive [Interval.unit, ⟨1.0, 2.0⟩] := by
  refine ⟨?_, List.isChain_pair.2 (by decide +kernel)⟩
  rw [List.forall_mem_cons, List.forall_mem_singleton]
  refine ⟨?_, ?_⟩
  · exact ⟨0, Interval.mem_unit.2 ⟨le_rfl, zero_le_one⟩⟩
  · have hone : Binary64.IsUpper 1.0 (Binary64.real 1.0) :=
      (Binary64.isUpper_iff_of_isFinite rfl).2 le_rfl
    exact ⟨Binary64.real 1.0, (Binary64.isLower_iff_of_isFinite rfl).2 le_rfl,
      hone.of_le (by decide +kernel)⟩

theorem runAll_refines_two_slices :
    ∃ x, ofSlices [Interval.unit, ⟨1.0, 2.0⟩] Interval.whole = .ok x ∧
      (runAll [set 1 Interval.unit, narrow 0 Interval.unit,
          meet (build [Interval.unit, ⟨1.0, 2.0⟩] Interval.unit)] x).flat =
        [(Interval.unit, (Enclosure.narrow Interval.whole Interval.unit).1 ∩ Interval.unit),
          (⟨1.0, 2.0⟩, Interval.unit ∩ Interval.unit)] := by
  have hother := balanced_build [Interval.unit, ⟨1.0, 2.0⟩] Interval.unit (by simp)
  have hwhole : Interval.whole.Numeric := ⟨rfl, rfl⟩
  have hunit : Interval.unit.Numeric := ⟨rfl, rfl⟩
  obtain ⟨x, hx, hflat, -⟩ := runAll_refines [set 1 Interval.unit, narrow 0 Interval.unit,
    meet (build [Interval.unit, ⟨1.0, 2.0⟩] Interval.unit)] consecutive_two_slices (by simp) hwhole
    (by simp [Fits, Numeric, hunit, hother])
  refine ⟨x, hx, hflat.trans ?_⟩
  change List.zipWith _ [_, _] (build _ _).flat = _
  rw [(build_spec Interval.unit consecutive_two_slices (by simp)).2.1]
  rfl

end Change

end FlowTube
