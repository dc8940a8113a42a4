import FlowTube.SliceTree.Update

/-! Shape and coherence of slice trees. A tree is balanced if its sizes are right and
every list of slices is cut in halves, and coherent if every cache agrees with what is
below it. Refreshing a cache keeps the leaf values, and refreshing all of them makes any
tree coherent. -/

namespace FlowTube.SliceTree

variable {ι : Type}

/-- Sizes count the slices below, and the first half is the longer one. -/
def Balanced : SliceTree ι → Prop
  | leaf l => l.size = 1
  | node l past future =>
    past.Balanced ∧ future.Balanced ∧ l.size = past.size + future.size ∧ past.size = half l.size

theorem length_leaves {x : SliceTree ι} (h : x.Balanced) : x.leaves.length = x.size := by
  induction x with
  | leaf l => exact h.symm
  | node l past future hp hf =>
    obtain ⟨h1, h2, h3, _⟩ := h
    rw [leaves, List.length_append, hp h1, hf h2]
    exact h3.symm

variable [Enclosure ι]

/-- Every cache agrees with what is directly below it. -/
def Coherent : SliceTree ι → Prop
  | leaf l => l.bounds = Enclosure.ends l.value
  | node l past future =>
    past.Coherent ∧ future.Coherent ∧ l.value = past.value ∪ future.value ∧
      l.bounds = joinBounds past.bounds future.bounds

theorem coherent_update (x : SliceTree ι) : x.update.Coherent := by
  induction x with
  | leaf l => rfl
  | node l past future hp hf => exact ⟨hp, hf, rfl, rfl⟩

theorem values_sync (x : SliceTree ι) : x.sync.values = x.values := by
  cases x <;> rfl

omit [Enclosure ι] in
theorem values_node (l : SliceLabel ι) (past future : SliceTree ι) :
    (node l past future).values = past.values ++ future.values := by
  simp only [values, leaves, List.map_append]

theorem balanced_sync {x : SliceTree ι} (h : x.Balanced) : x.sync.Balanced := by
  cases x <;> exact h

theorem size_update (x : SliceTree ι) : x.update.size = x.size := by
  cases x <;> rfl

theorem balanced_update {x : SliceTree ι} (h : x.Balanced) : x.update.Balanced := by
  induction x with
  | leaf l => exact h
  | node l past future hp hf =>
    obtain ⟨h1, h2, h3, h4⟩ := h
    refine balanced_sync ⟨hp h1, hf h2, ?_, ?_⟩
    · rw [size_update, size_update]
      exact h3
    · rw [size_update]
      exact h4

/-- A tree over a run of slices is balanced. -/
theorem balanced_build (slices : List Interval) (value : ι) (h : slices ≠ []) :
    (build slices value).Balanced ∧ (build slices value).size = slices.length := by
  fun_induction build slices value with
  | case1 slices hs =>
    have : slices.length = 1 := by
      have := List.length_pos_iff.mpr h
      omega
    exact ⟨this, rfl⟩
  | case2 slices hs hp hf =>
    have hn : 1 < slices.length := by omega
    have h1 : slices.take (half slices.length) ≠ [] := by
      intro h0
      have := congrArg List.length h0
      simp only [List.length_take, List.length_nil, half] at this
      omega
    have h2 : slices.drop (half slices.length) ≠ [] := by
      intro h0
      have := congrArg List.length h0
      simp only [List.length_drop, List.length_nil, half] at this
      omega
    obtain ⟨bp, sp⟩ := hp h1
    obtain ⟨bf, sf⟩ := hf h2
    refine ⟨⟨bp, bf, ?_, ?_⟩, rfl⟩
    · rw [sp, sf, List.length_take, List.length_drop]
      change slices.length = _
      simp only [half]
      omega
    · rw [sp, List.length_take]
      change _ = half slices.length
      simp only [half]
      omega

end FlowTube.SliceTree
