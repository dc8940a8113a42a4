import FlowTube.Proofs.SliceTree.Shape

/-! What each change does to the leaves of a slice tree, in terms of their list. The frame stays
and the caches stay coherent in every case: a change of one slice refreshes the path to the root, a
change over an interval of time what it has visited, and all other changes the whole tree. The
Euler steps and running sums of a tree are loops over the list of its values. -/

namespace FlowTube

open SliceTree

variable {ι : Type}

/-! ### Lists changed at one place -/

section Lists

variable {α : Type} {f : α → α} {xs ys : List α} {i : ℕ}

theorem modify_append_left (h : i < xs.length) : (xs ++ ys).modify i f = xs.modify i f ++ ys := by
  induction xs generalizing i with
  | nil => simp at h
  | cons x xs ih =>
    cases i with
    | zero => simp
    | succ i => simp [ih (Nat.lt_of_succ_lt_succ h)]

theorem modify_append_right (h : xs.length ≤ i) :
    (xs ++ ys).modify i f = xs ++ ys.modify (i - xs.length) f := by
  induction xs generalizing i with
  | nil => rfl
  | cons x xs ih =>
    cases i with
    | zero => simp at h
    | succ i => simp [ih (Nat.le_of_succ_le_succ h)]

theorem forall_mem_modify {P : α → Prop} (h : ∀ a ∈ xs, P a) (hf : ∀ a, P a → P (f a)) :
    ∀ a ∈ xs.modify i f, P a := by
  intro a ha
  obtain ⟨j, hj⟩ := List.mem_iff_getElem?.1 ha
  rw [List.getElem?_modify] at hj
  obtain ⟨b, hb, rfl⟩ := Option.map_eq_some_iff.1 hj
  split_ifs
  · exact hf b (h b (List.mem_of_getElem? hb))
  · exact h b (List.mem_of_getElem? hb)

end Lists

namespace SliceTree

variable {x y : SliceTree ι} {i : ℕ}

/-! ### All slices -/

theorem frame_combine (op : ι → ι → ι) (x y : SliceTree ι) : (combine op x y).frame = x.frame := by
  induction x generalizing y with
  | leaf l => rfl
  | node l past future hp hf =>
    cases y with
    | leaf m => rfl
    | node m q g =>
      rw [combine, frame, hp, hf]
      rfl

/-- Trees of the same size are cut at the same places, so their leaves are combined in pairs. -/
theorem flat_combine (op : ι → ι → ι) (hx : x.Balanced) (hy : y.Balanced) (h : y.size = x.size) :
    (combine op x y).flat = List.zipWith (fun s r => (s.1, op s.2 r.2)) x.flat y.flat := by
  induction x generalizing y with
  | leaf l =>
    cases y with
    | leaf m => rfl
    | node m q g =>
      have := hy.1.size_pos
      have := hy.2.1.size_pos
      have hm : m.size = l.size := h
      have hl : l.size = 1 := hx
      have := hy.2.2.1
      omega
  | node l past future hp hf =>
    cases y with
    | leaf m =>
      have := hx.1.size_pos
      have := hx.2.1.size_pos
      have hm : m.size = l.size := h
      have hm1 : m.size = 1 := hy
      have := hx.2.2.1
      omega
    | node m q g =>
      obtain ⟨hpast, hfuture, hsize, hhalf⟩ := hx
      obtain ⟨hq, hg, hsize', hhalf'⟩ := hy
      have hm : m.size = l.size := h
      have hqp : q.size = past.size := by rw [hhalf, hhalf', hm]
      rw [combine, flat_node, hp hpast hq hqp, hf hfuture hg (by omega), flat_node, flat_node,
        List.zipWith_append (by rw [hpast.length_flat, hq.length_flat, hqp])]

theorem frame_assign (x : SliceTree ι) (as : List ι) : (x.assign as).1.frame = x.frame := by
  induction x generalizing as with
  | leaf l => cases as <;> rfl
  | node l past future hp hf => rw [assign, frame, hp, hf, frame]

/-- The leaves take the first values in order, and the others are left. -/
theorem flat_assign (x : SliceTree ι) {as : List ι} (h : as.length = x.flat.length)
    (rest : List ι) : (x.assign (as ++ rest)).1.flat = (x.flat.map (·.1)).zip as ∧
      (x.assign (as ++ rest)).2 = rest := by
  induction x generalizing as rest with
  | leaf l =>
    obtain ⟨a, rfl⟩ := List.length_eq_one_iff.1 h
    exact ⟨rfl, rfl⟩
  | node l past future hp hf =>
    rw [flat_node, List.length_append] at h
    obtain ⟨bs, cs, rfl, hbs⟩ : ∃ bs cs, as = bs ++ cs ∧ bs.length = past.flat.length :=
      ⟨as.take past.flat.length, as.drop past.flat.length, (List.take_append_drop _ _).symm,
        List.length_take_of_le (by omega)⟩
    rw [List.length_append, hbs, Nat.add_left_cancel_iff] at h
    obtain ⟨hpast, hrest⟩ := hp hbs (cs ++ rest)
    obtain ⟨hfuture, hrest'⟩ := hf h rest
    rw [List.append_assoc, assign]
    constructor
    · rw [flat_node, hpast, hrest, hfuture, flat_node, List.map_append,
        List.zip_append (by rw [List.length_map, hbs])]
    · change (future.assign (past.assign _).2).2 = rest
      rw [hrest, hrest']

variable [Enclosure ι]

/-! ### Caches -/

@[simp] theorem frame_sync (x : SliceTree ι) : x.sync.frame = x.frame := by
  cases x <;> rfl

@[simp] theorem flat_sync (x : SliceTree ι) : x.sync.flat = x.flat := by
  cases x <;> rfl

@[simp] theorem frame_update (x : SliceTree ι) : x.update.frame = x.frame := by
  induction x with
  | leaf l => rfl
  | node l past future hp hf => rw [update, frame_sync, frame, frame, hp, hf]

@[simp] theorem flat_update (x : SliceTree ι) : x.update.flat = x.flat := by
  induction x with
  | leaf l => rfl
  | node l past future hp hf => rw [update, flat_sync, flat_node, flat_node, hp, hf]

/-! ### One slice -/

section Modify

variable {β : Type} (f : ι → ι × β)

theorem frame_modify (i : ℕ) (x : SliceTree ι) : (modify f i x).1.frame = x.frame := by
  induction x generalizing i with
  | leaf l => rfl
  | node l past future hp hf =>
    rw [modify]
    split_ifs
    · rw [frame_sync, frame, hp, frame]
    · rw [frame_sync, frame, hf, frame]

theorem coherent_modify (i : ℕ) (h : x.Coherent) : (modify f i x).1.Coherent := by
  induction x generalizing i with
  | leaf l => rfl
  | node l past future hp hf =>
    rw [modify]
    split_ifs
    · exact ⟨hp i h.1, h.2.1, rfl, rfl⟩
    · exact ⟨h.1, hf _ h.2.1, rfl, rfl⟩

/-- The descent by index changes the slice at that place of the list. -/
theorem flat_modify (hb : x.Balanced) (hi : i < x.size) :
    (modify f i x).1.flat = x.flat.modify i fun s => (s.1, (f s.2).1) := by
  induction x generalizing i with
  | leaf l =>
    obtain rfl : i = 0 := by
      have hsize : l.size = 1 := hb
      change i < l.size at hi
      omega
    rfl
  | node l past future hp hf =>
    obtain ⟨hpast, hfuture, hsize, hhalf⟩ := hb
    change i < l.size at hi
    rw [modify, flat_node, ← hhalf]
    split_ifs with hlt
    · rw [flat_sync, flat_node, hp hpast hlt, modify_append_left (by rwa [hpast.length_flat])]
    · rw [flat_sync, flat_node, hf hfuture (by omega),
        modify_append_right (by rw [hpast.length_flat]; omega), hpast.length_flat]

end Modify

/-! ### The slices over an interval of time -/

theorem frame_setOver (tdom : Interval) (a : ι) (x : SliceTree ι) :
    (setOver tdom a x).frame = x.frame := by
  induction x with
  | leaf l =>
    rw [setOver]
    split_ifs <;> rfl
  | node l past future hp hf =>
    rw [setOver]
    split_ifs
    · rw [frame_sync, frame, hp, hf, frame]
    · rfl

theorem coherent_setOver (tdom : Interval) (a : ι) (h : x.Coherent) :
    (setOver tdom a x).Coherent := by
  induction x with
  | leaf l =>
    rw [setOver]
    split_ifs
    · rfl
    · exact h
  | node l past future hp hf =>
    rw [setOver]
    split_ifs
    · exact ⟨hp h.1, hf h.2.1, rfl, rfl⟩
    · exact h

omit [Enclosure ι] in
/-- What changes only the slices that meet an interval changes none where the domain misses it. -/
theorem Spans.map_of_not_meets {tdom : Interval} (hs : x.Spans)
    (h : ¬x.domain.meets tdom = true) (f : Interval × ι → Interval × ι) :
    (x.flat.map fun s => if s.1.meets tdom then f s else s) = x.flat := by
  have hsame : ∀ s ∈ x.flat, (if s.1.meets tdom then f s else s) = s := fun s hmem =>
    if_neg fun hmeets => h (hs.meets_of_mem hmem hmeets)
  rw [List.map_congr_left hsame, List.map_id']

/-- The descent by an interval of time changes the slices of the list that meet it: where it
stops at a node, no slice below meets the interval. -/
theorem flat_setOver (tdom : Interval) (a : ι) (hs : x.Spans) : (setOver tdom a x).flat =
    x.flat.map fun s => if s.1.meets tdom then (s.1, a) else s := by
  induction x with
  | leaf l =>
    rw [setOver, flat_leaf, List.map_singleton]
    split_ifs <;> rfl
  | node l past future hp hf =>
    rw [setOver]
    split_ifs with hmeets
    · rw [flat_sync, flat_node, hp hs.1, hf hs.2.1, flat_node, List.map_append]
    · exact (hs.map_of_not_meets hmeets _).symm

/-! ### New values for all slices -/

theorem frame_withValues (x : SliceTree ι) (as : List ι) : (x.withValues as).frame = x.frame := by
  rw [withValues, frame_update, frame_assign]

theorem flat_withValues (x : SliceTree ι) {as : List ι} (h : as.length = x.values.length) :
    (x.withValues as).flat = (x.flat.map (·.1)).zip as := by
  rw [values_eq_flat, List.length_map] at h
  rw [withValues, flat_update, ← (flat_assign x h []).1, List.append_nil]

theorem values_withValues {as : List ι} (h : as.length = x.values.length) :
    (x.withValues as).values = as := by
  rw [values_eq_flat, flat_withValues x h]
  rw [values_eq_flat, List.length_map] at h
  exact List.map_snd_zip (by rw [List.length_map, h])

/-! ### Loops over the values -/

/-- Narrows value `i + 1` to the Euler step from value `i`. -/
def forwardAt (dt : ι) (ws : List ι) (xs : List ι) (i : ℕ) : List ι :=
  match xs[i]?, ws[i]? with
  | some a, some w => xs.modify (i + 1) fun b => (Enclosure.narrow b (a + w * dt)).1
  | _, _ => xs

/-- Narrows value `i` to the Euler step back from value `i + 1`. -/
def backwardAt (dt : ι) (ws : List ι) (xs : List ι) (i : ℕ) : List ι :=
  match xs[i + 1]?, ws[i + 1]? with
  | some b, some w => xs.modify i fun a => (Enclosure.narrow a (b - w * dt)).1
  | _, _ => xs

/-- The steps from each value to the next, as far as there are values and derivatives. -/
def steps (ws xs : List ι) : List ℕ := List.range (min xs.length ws.length - 1)

/-- All steps forward, from the first value on. -/
def forwardLoop (dt : ι) (ws xs : List ι) : List ι := (steps ws xs).foldl (forwardAt dt ws) xs

/-- All steps backward, from the last value on. -/
def backwardLoop (dt : ι) (ws xs : List ι) : List ι :=
  (steps ws xs).reverse.foldl (backwardAt dt ws) xs

omit [Enclosure ι] in
theorem steps_cons_cons (w w' x y : ι) (ws xs : List ι) :
    steps (w :: w' :: ws) (x :: y :: xs) = 0 :: (steps (w' :: ws) (y :: xs)).map Nat.succ := by
  simp [steps, List.range_succ_eq_map]

omit [Enclosure ι] in
/-- Steps that leave the first value alone are steps of the others. -/
theorem foldl_map_succ {f g : List ι → ℕ → List ι} {x : ι}
    (h : ∀ xs i, f (x :: xs) (i + 1) = x :: g xs i) (is : List ℕ) (xs : List ι) :
    (is.map Nat.succ).foldl f (x :: xs) = x :: is.foldl g xs := by
  induction is generalizing xs with
  | nil => rfl
  | cons i is ih => rw [List.map_cons, List.foldl_cons, h, ih, List.foldl_cons]

theorem forwardAt_cons (dt w x : ι) (ws xs : List ι) (i : ℕ) :
    forwardAt dt (w :: ws) (x :: xs) (i + 1) = x :: forwardAt dt ws xs i := by
  simp only [forwardAt, List.getElem?_cons_succ]
  split <;> rfl

theorem backwardAt_cons (dt w x : ι) (ws xs : List ι) (i : ℕ) :
    backwardAt dt (w :: ws) (x :: xs) (i + 1) = x :: backwardAt dt ws xs i := by
  simp only [backwardAt, List.getElem?_cons_succ]
  split <;> rfl

theorem stepsForward_eq (dt x w : ι) (xs ws : List ι) :
    x :: (stepsForward dt x w xs ws).1 = forwardLoop dt (w :: ws) (x :: xs) := by
  induction xs generalizing x w ws with
  | nil => simp [stepsForward, forwardLoop, steps]
  | cons y ys ih =>
    cases ws with
    | nil => simp [stepsForward, forwardLoop, steps]
    | cons w' ws =>
      rw [forwardLoop, steps_cons_cons, List.foldl_cons]
      change _ = List.foldl _ (x :: (Enclosure.narrow y (x + w * dt)).1 :: ys) _
      rw [foldl_map_succ (forwardAt_cons dt w x (w' :: ws))]
      exact congrArg (x :: ·) (ih _ w' ws)

theorem stepsBackward_eq (dt x w : ι) (xs ws : List ι) :
    (stepsBackward dt x xs ws).1 :: (stepsBackward dt x xs ws).2.1 =
      backwardLoop dt (w :: ws) (x :: xs) := by
  induction xs generalizing x w ws with
  | nil => simp [stepsBackward, backwardLoop, steps]
  | cons y ys ih =>
    cases ws with
    | nil => simp [stepsBackward, backwardLoop, steps]
    | cons w' ws =>
      rw [backwardLoop, steps_cons_cons, List.reverse_cons, List.foldl_append, ← List.map_reverse,
        foldl_map_succ (backwardAt_cons dt w x (w' :: ws))]
      change _ = backwardAt dt _ (x :: backwardLoop dt (w' :: ws) (y :: ys)) 0
      rw [← ih]
      rfl

theorem runningSums_eq (dt c : ι) (vs : List ι) :
    runningSums dt c vs = (vs.scanl (fun c v => c + v * dt) c).dropLast := by
  induction vs generalizing c with
  | nil => rfl
  | cons v vs ih =>
    rw [runningSums, ih, List.scanl_cons, List.dropLast_cons_of_ne_nil]
    simp

/-- What narrowing one value keeps is kept by all steps. -/
theorem forwardLoop_keeps {P : List ι → Prop} {xs : List ι}
    (hP : ∀ ys i y, P ys → P (ys.modify i fun a => (Enclosure.narrow a y).1)) (h : P xs)
    (dt : ι) (ws : List ι) : P (forwardLoop dt ws xs) := by
  refine List.foldlRecOn (motive := P) (steps ws xs) _ h fun ys hys i _ => ?_
  unfold forwardAt
  split
  · exact hP ys _ _ hys
  · exact hys

theorem backwardLoop_keeps {P : List ι → Prop} {xs : List ι}
    (hP : ∀ ys i y, P ys → P (ys.modify i fun a => (Enclosure.narrow a y).1)) (h : P xs)
    (dt : ι) (ws : List ι) : P (backwardLoop dt ws xs) := by
  refine List.foldlRecOn (motive := P) (steps ws xs).reverse _ h fun ys hys i _ => ?_
  unfold backwardAt
  split
  · exact hP ys _ _ hys
  · exact hys

theorem length_forwardLoop (dt : ι) (ws xs : List ι) :
    (forwardLoop dt ws xs).length = xs.length :=
  forwardLoop_keeps (P := fun ys => ys.length = xs.length)
    (fun _ _ _ h => by rwa [List.length_modify]) rfl dt ws

theorem length_backwardLoop (dt : ι) (ws xs : List ι) :
    (backwardLoop dt ws xs).length = xs.length :=
  backwardLoop_keeps (P := fun ys => ys.length = xs.length)
    (fun _ _ _ h => by rwa [List.length_modify]) rfl dt ws

omit [Enclosure ι] in
theorem values_ne_nil (x : SliceTree ι) : x.values ≠ [] := by
  rw [values_eq_flat, Ne, List.map_eq_nil_iff]
  exact x.flat_ne_nil

theorem eulerForward_eq (v x : SliceTree ι) : (eulerForward v x).1 =
    x.withValues (forwardLoop (Enclosure.point v.dt) v.values x.values) := by
  obtain ⟨a, as, has⟩ := List.exists_cons_of_ne_nil x.values_ne_nil
  obtain ⟨w, ws, hws⟩ := List.exists_cons_of_ne_nil v.values_ne_nil
  rw [eulerForward, has, hws, ← stepsForward_eq]

theorem eulerBackward_eq (v x : SliceTree ι) : (eulerBackward v x).1 =
    x.withValues (backwardLoop (Enclosure.point v.dt) v.values x.values) := by
  obtain ⟨a, as, has⟩ := List.exists_cons_of_ne_nil x.values_ne_nil
  obtain ⟨w, ws, hws⟩ := List.exists_cons_of_ne_nil v.values_ne_nil
  rw [eulerBackward, has, hws, ← stepsBackward_eq]

end SliceTree

end FlowTube
