import FlowTube.Proofs.Interval.Hull
import FlowTube.SliceTree.Coherent

/-! Slice trees as lists. Without its values a tree is a frame: the domains, widths and numbers
of slices at every node. Over consecutive non-empty slices the domain of a node reaches from the
start of its first slice to the end of its last one, so a search by index, by time or by an
interval of time that descends from the root finds the slices that a search of the list finds. -/

namespace FlowTube

/-- A label without its values. -/
def SliceLabel.frame {ι : Type} (l : SliceLabel ι) : SliceLabel Unit :=
  { domain := l.domain, dt := l.dt, size := l.size, value := (), bounds := ((), ()) }

namespace SliceTree

open Binary64

variable {ι : Type} {x y : SliceTree ι} {t : Float} {tdom : Interval} {i : ℕ}

/-! ### Lists and frames -/

/-- The slices with their values, in order of time. -/
def flat (x : SliceTree ι) : List (Interval × ι) := x.leaves.map fun l => (l.domain, l.value)

theorem flat_leaf (l : SliceLabel ι) : (leaf l).flat = [(l.domain, l.value)] := rfl

theorem flat_node (l : SliceLabel ι) (past future : SliceTree ι) :
    (node l past future).flat = past.flat ++ future.flat := by
  simp only [flat, leaves, List.map_append]

theorem values_eq_flat (x : SliceTree ι) : x.values = x.flat.map (·.2) := by
  simp [values, flat]

theorem flat_ne_nil (x : SliceTree ι) : x.flat ≠ [] := by
  induction x with
  | leaf l => simp [flat_leaf]
  | node l past future hp hf => simp [flat_node, hp]

theorem Balanced.length_flat (h : x.Balanced) : x.flat.length = x.size := by
  rw [flat, List.length_map, length_leaves h]

theorem Balanced.size_pos (h : x.Balanced) : 0 < x.size := by
  rw [← h.length_flat]
  exact List.length_pos_of_ne_nil x.flat_ne_nil

/-- A tree without its values. -/
def frame : SliceTree ι → SliceTree Unit
  | leaf l => leaf l.frame
  | node l past future => node l.frame past.frame future.frame

@[simp] theorem domain_frame (x : SliceTree ι) : x.frame.domain = x.domain := by
  cases x <;> rfl

@[simp] theorem size_frame (x : SliceTree ι) : x.frame.size = x.size := by
  cases x <;> rfl

@[simp] theorem dt_frame (x : SliceTree ι) : x.frame.dt = x.dt := by
  cases x <;> rfl

theorem balanced_frame : x.frame.Balanced ↔ x.Balanced := by
  induction x with
  | leaf l => exact Iff.rfl
  | node l past future hp hf => simp [frame, Balanced, hp, hf, SliceLabel.frame]

theorem flat_frame (x : SliceTree ι) : x.frame.flat.map (·.1) = x.flat.map (·.1) := by
  induction x with
  | leaf l => rfl
  | node l past future hp hf => simp [frame, flat_node, hp, hf]

/-- The domain of a node joins those of its halves, which touch, and its width is that of the
first slice. -/
def Spans : SliceTree ι → Prop
  | leaf l => l.domain.lb ≤ l.domain.ub ∧ l.dt = l.domain.diam
  | node l past future =>
    past.Spans ∧ future.Spans ∧ (past.domain.ub == future.domain.lb) = true ∧
      l.domain = ⟨past.domain.lb, future.domain.ub⟩ ∧ l.dt = past.dt

theorem spans_frame : x.frame.Spans ↔ x.Spans := by
  induction x with
  | leaf l => exact Iff.rfl
  | node l past future hp hf => simp [frame, Spans, hp, hf, SliceLabel.frame]

/-! ### Consecutive slices -/

theorem Spans.lb_le_ub (h : x.Spans) : x.domain.lb ≤ x.domain.ub := by
  induction x with
  | leaf l => exact h.1
  | node l past future hp hf =>
    obtain ⟨hpast, hfuture, htouch, hdomain, -⟩ := h
    change l.domain.lb ≤ l.domain.ub
    rw [hdomain]
    exact le_trans (hp hpast) (le_trans (le_of_beq htouch).1 (hf hfuture))

/-- The slices lie in the domain. -/
theorem Spans.slice_within (h : x.Spans) {s : Interval × ι} (hs : s ∈ x.flat) :
    x.domain.lb ≤ s.1.lb ∧ s.1.lb ≤ s.1.ub ∧ s.1.ub ≤ x.domain.ub := by
  induction x with
  | leaf l =>
    obtain rfl : s = (l.domain, l.value) := by simpa [flat_leaf] using hs
    exact ⟨le_self (le_iff.1 h.1).1, h.1, le_self (le_iff.1 h.1).2.1⟩
  | node l past future hp hf =>
    obtain ⟨hpast, hfuture, htouch, hdomain, -⟩ := h
    change l.domain.lb ≤ _ ∧ _ ∧ _ ≤ l.domain.ub
    rw [hdomain]
    rw [flat_node, List.mem_append] at hs
    rcases hs with hs | hs
    · obtain ⟨hlb, hle, hub⟩ := hp hpast hs
      exact ⟨hlb, hle, le_trans hub (le_trans (le_of_beq htouch).1 hfuture.lb_le_ub)⟩
    · obtain ⟨hlb, hle, hub⟩ := hf hfuture hs
      exact ⟨le_trans hpast.lb_le_ub (le_trans (le_of_beq htouch).1 hlb), hle, hub⟩

/-- The width that a tree notes is that of its first slice. -/
theorem Spans.dt_eq (h : x.Spans) : x.dt = ((x.flat.map (·.1)).headD Interval.empty).diam := by
  induction x with
  | leaf l => exact h.2
  | node l past future hp hf =>
    obtain ⟨hpast, -, -, -, hdt⟩ := h
    change l.dt = _
    rw [hdt, hp hpast, flat_node]
    obtain ⟨s, ss, hss⟩ := List.exists_cons_of_ne_nil past.flat_ne_nil
    simp [hss]

theorem headD_append {past future : List Interval} (hp : past ≠ []) (d : Interval) :
    (past ++ future).headD d = past.headD d := by
  obtain ⟨s, ss, rfl⟩ := List.exists_cons_of_ne_nil hp
  rfl

theorem getLastD_append {past future : List Interval} (hf : future ≠ []) (d : Interval) :
    (past ++ future).getLastD d = future.getLastD d := by
  simp [List.getLastD_eq_getLast?, List.getLast?_eq_some_getLast hf]

/-- The domain reaches from the start of the first slice to the end of the last one. -/
theorem Spans.domain_eq (h : x.Spans) :
    x.domain = ⟨((x.flat.map (·.1)).headD Interval.empty).lb,
      ((x.flat.map (·.1)).getLastD Interval.empty).ub⟩ := by
  induction x with
  | leaf l => rfl
  | node l past future hp hf =>
    obtain ⟨hpast, hfuture, -, hdomain, -⟩ := h
    change l.domain = _
    rw [hdomain, hp hpast, hf hfuture, flat_node, List.map_append,
      headD_append (by simpa using past.flat_ne_nil),
      getLastD_append (by simpa using future.flat_ne_nil)]

/-- A time is in one of the halves if it is in the domain. -/
theorem Spans.contains_node {l : SliceLabel ι} {past future : SliceTree ι}
    (h : (node l past future).Spans) : l.domain.contains t = true ↔
      past.domain.contains t = true ∨ future.domain.contains t = true := by
  obtain ⟨hpast, hfuture, htouch, hdomain, -⟩ := h
  obtain ⟨hle, hge⟩ := le_of_beq htouch
  simp only [hdomain, Interval.contains_iff]
  constructor
  · rintro ⟨hlb, hub⟩
    by_cases ht : t ≤ past.domain.ub
    · exact Or.inl ⟨hlb, ht⟩
    · have hlt : past.domain.ub < t := by
        by_contra hnlt
        exact ht (le_of_not_lt (le_iff.1 hle).1 (le_iff.1 hub).1 hnlt)
      exact Or.inr ⟨le_trans hge (le_of_lt hlt), hub⟩
  · rintro (⟨hlb, hub⟩ | ⟨hlb, hub⟩)
    · exact ⟨hlb, le_trans hub (le_trans hle hfuture.lb_le_ub)⟩
    · exact ⟨le_trans hpast.lb_le_ub (le_trans hle hlb), hub⟩

/-! ### Searches -/

/-- The descent by time finds the first slice of the list that contains the time. -/
theorem indexAt?_eq_findIdx? (hb : x.Balanced) (hs : x.Spans) :
    x.indexAt? t = x.flat.findIdx? (·.1.contains t) := by
  induction x with
  | leaf l =>
    rw [flat_leaf, List.findIdx?_singleton]
    rfl
  | node l past future hp hf =>
    obtain ⟨hbpast, hbfuture, -, -⟩ := hb
    have hsplit : l.domain.contains t = (past.domain.contains t || future.domain.contains t) :=
      Bool.eq_iff_iff.2 (hs.contains_node.trans (Bool.or_eq_true _ _).symm.to_iff)
    obtain ⟨hspast, hsfuture, -⟩ := hs
    rw [flat_node, List.findIdx?_append, ← hp hbpast hspast, ← hf hbfuture hsfuture,
      hbpast.length_flat]
    change (if l.domain.contains t then some (indexAt?.go t (node l past future)) else none) = _
    rw [hsplit, indexAt?.go, indexAt?, indexAt?]
    cases past.domain.contains t with
    | true => rfl
    | false =>
      cases future.domain.contains t with
      | true => simp [Nat.add_comm]
      | false => rfl

/-- A tree whose domain misses an interval has no slice that meets it. -/
theorem Spans.meets_of_mem (h : x.Spans) {s : Interval × ι} (hs : s ∈ x.flat)
    (hmeets : s.1.meets tdom = true) : x.domain.meets tdom = true := by
  obtain ⟨hlb, hle, hub⟩ := h.slice_within hs
  simp only [Interval.meets, Interval.isEmpty, Bool.and_eq_true, Bool.not_eq_true',
    decide_eq_true_eq, decide_eq_false_iff_not] at hmeets ⊢
  obtain ⟨⟨⟨-, htdom⟩, hlow⟩, hup⟩ := hmeets
  exact ⟨⟨⟨not_lt_of_le h.lb_le_ub, htdom⟩, le_trans hlb hlow⟩, le_trans hup hub⟩

/-! ### Trees over given slices -/

/-- Slices with a real in each, one from where the one before ends. -/
structure Consecutive (slices : List Interval) : Prop where
  nonempty : ∀ s ∈ slices, ∃ r : ℝ, r ∈ s
  touching : slices.IsChain fun a b => (a.ub == b.lb) = true

variable {slices past future : List Interval}

/-- Two parts are consecutive slices each, and the second starts where the first ends. -/
theorem Consecutive.of_append (h : Consecutive (past ++ future)) (hp : past ≠ [])
    (hf : future ≠ []) : Consecutive past ∧ Consecutive future ∧
      ((past.getLastD Interval.empty).ub == (future.headD Interval.empty).lb) = true := by
  obtain ⟨hpast, hfuture, hcut⟩ := List.isChain_append.1 h.touching
  refine ⟨⟨fun s hs => h.nonempty s (List.mem_append_left _ hs), hpast⟩,
    ⟨fun s hs => h.nonempty s (List.mem_append_right _ hs), hfuture⟩, ?_⟩
  rw [List.getLastD_eq_getLast?, List.headD_eq_head?_getD, List.getLast?_eq_some_getLast hp,
    List.head?_eq_some_head hf]
  exact hcut _ (List.getLast?_eq_some_getLast hp) _ (List.head?_eq_some_head hf)

theorem Consecutive.value_head_lt_top (h : Consecutive slices) (hne : slices ≠ []) :
    Binary64.value (slices.headD Interval.empty).lb < ⊤ := by
  rw [List.headD_eq_head?_getD, List.head?_eq_some_head hne]
  obtain ⟨r, hr⟩ := h.nonempty _ (List.head_mem hne)
  exact hr.1.2.trans_lt (EReal.coe_lt_top r)

theorem Consecutive.bot_lt_value_last (h : Consecutive slices) (hne : slices ≠ []) :
    ⊥ < Binary64.value (slices.getLastD Interval.empty).ub := by
  rw [List.getLastD_eq_getLast?, List.getLast?_eq_some_getLast hne]
  obtain ⟨r, hr⟩ := h.nonempty _ (List.getLast_mem hne)
  exact (EReal.bot_lt_coe r).trans_le hr.2.2

theorem map_fst_constant (slices : List Interval) (value : ι) :
    (slices.map (·, value)).map (·.1) = slices := by
  simp [Function.comp_def]

/-- Trees over two parts of consecutive slices make one over all of them. -/
theorem node_spec [Enclosure ι] {p f : SliceTree ι} (value : ι) (h : Consecutive (past ++ future))
    (hpne : past ≠ []) (hfne : future ≠ []) (hps : p.Spans) (hfs : f.Spans)
    (hpflat : p.flat = past.map (·, value)) (hfflat : f.flat = future.map (·, value))
    (hpdomain : p.domain =
      ⟨(past.headD Interval.empty).lb, (past.getLastD Interval.empty).ub⟩)
    (hfdomain : f.domain =
      ⟨(future.headD Interval.empty).lb, (future.getLastD Interval.empty).ub⟩) :
    (node (labelOf (past ++ future) value) p f).Spans ∧
      (node (labelOf (past ++ future) value) p f).flat = (past ++ future).map (·, value) ∧
      (node (labelOf (past ++ future) value) p f).domain =
        ⟨(past.headD Interval.empty).lb, (future.getLastD Interval.empty).ub⟩ := by
  obtain ⟨hpast, hfuture, hcut⟩ := h.of_append hpne hfne
  have hple := hps.lb_le_ub
  have hfle := hfs.lb_le_ub
  rw [hpdomain] at hple
  rw [hfdomain] at hfle
  have hdomain : (node (labelOf (past ++ future) value) p f).domain =
      ⟨(past.headD Interval.empty).lb, (future.getLastD Interval.empty).ub⟩ := by
    change Interval.ofBounds _ _ = _
    rw [headD_append hpne, getLastD_append hfne]
    exact Interval.ofBounds_of_le (le_trans hple (le_trans (le_of_beq hcut).1 hfle))
      (hpast.value_head_lt_top hpne) (hfuture.bot_lt_value_last hfne)
  refine ⟨⟨hps, hfs, ?_, ?_, ?_⟩, ?_, hdomain⟩
  · rw [hpdomain, hfdomain]
    exact hcut
  · rw [hpdomain, hfdomain]
    exact hdomain
  · rw [hps.dt_eq, hpflat, map_fst_constant, ← headD_append hpne]
    rfl
  · rw [flat_node, hpflat, hfflat, List.map_append]

/-- The tree over consecutive slices has them as leaves, and its domains are those of its
slices. -/
theorem build_spec [Enclosure ι] (value : ι) (h : Consecutive slices) (hne : slices ≠ []) :
    (build slices value).Spans ∧ (build slices value).flat = slices.map (·, value) ∧
      (build slices value).domain =
        ⟨(slices.headD Interval.empty).lb, (slices.getLastD Interval.empty).ub⟩ := by
  fun_induction build slices value with
  | case1 slices hlen =>
    obtain ⟨s, rfl⟩ : ∃ s, slices = [s] :=
      List.length_eq_one_iff.1 (le_antisymm hlen (List.length_pos_of_ne_nil hne))
    obtain ⟨r, hr⟩ := h.nonempty s List.mem_cons_self
    have hdomain : Interval.ofBounds s.lb s.ub = s := Interval.ofBounds_eq hr.1 hr.2
    refine ⟨⟨?_, ?_⟩, ?_, ?_⟩
    · change (Interval.ofBounds s.lb s.ub).lb ≤ (Interval.ofBounds s.lb s.ub).ub
      rw [hdomain]
      exact Interval.lb_le_ub hr
    · change s.diam = (Interval.ofBounds s.lb s.ub).diam
      rw [hdomain]
    · change [(Interval.ofBounds s.lb s.ub, value)] = _
      rw [hdomain]
      rfl
    · exact hdomain
  | case2 slices hlen hp hf =>
    have hpne : slices.take (half slices.length) ≠ [] := by
      rw [Ne, List.take_eq_nil_iff, half]
      exact not_or.2 ⟨by omega, hne⟩
    have hfne : slices.drop (half slices.length) ≠ [] := by
      rw [Ne, List.drop_eq_nil_iff, half]
      omega
    have hsplit := List.take_append_drop (half slices.length) slices
    rw [← hsplit] at h
    obtain ⟨hpast, hfuture, -⟩ := h.of_append hpne hfne
    obtain ⟨hps, hpflat, hpdomain⟩ := hp hpast hpne
    obtain ⟨hfs, hfflat, hfdomain⟩ := hf hfuture hfne
    have hnode := node_spec value h hpne hfne hps hfs hpflat hfflat hpdomain hfdomain
    rwa [← headD_append hpne, ← getLastD_append hfne, hsplit] at hnode

end SliceTree

end FlowTube
