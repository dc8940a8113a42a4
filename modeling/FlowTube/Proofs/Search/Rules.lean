import FlowTube.Proofs.Interval.OutwardRoots
import FlowTube.Proofs.TubeVector.Within
import FlowTube.Search.Rule

/-! Constraints that stay within the vector they are given. All rules but a multiplication of the
codomains do: what they write to a gate or a codomain is an intersection with it, or the numbers of
it that have a square in a given interval. Several gates may be written one after the other, if none
is written twice: the value for each of them was taken from the gates as they were at the start. -/

namespace FlowTube

/-- Constraints that take a vector with the dimension and the ends of the first one to a vector
within it. -/
def ConstraintStep.StaysWithin (step : ConstraintStep) (x0 : TubeVector Interval) : Prop :=
  ∀ x t0 incremental y, x.Continues x0 → step x t0 incremental = .ok y → y.Within x

namespace Tube

variable {x : Tube Interval} {k m : ℕ} {y : Interval}

theorem gate_setGate_of_ne (hkm : m ≠ k) : (x.setGate k y).gate m = x.gate m := by
  change (x.putGate k _).gate m = x.gate m
  rcases Nat.lt_or_ge k x.gates.size with hk | hk
  · rw [gate_putGate hk, if_neg hkm]
  · rw [putGate_of_le hk]

/-- Different gates are replaced by parts of them. -/
theorem Regular.shrinks_setGates (h : x.Regular) {l : List (ℕ × Interval)}
    (hnodup : (l.map Prod.fst).Nodup) (hl : ∀ p ∈ l, p.2.isSubset (x.gate p.1) = true) :
    (l.foldl (fun x p => x.setGate p.1 p.2) x).Shrinks x := by
  induction l generalizing x with
  | nil => exact h.shrinks
  | cons p l ih =>
    obtain ⟨hp, hl⟩ := List.forall_mem_cons.1 hl
    rw [List.map_cons, List.nodup_cons] at hnodup
    have hset := h.shrinks_setGate hp
    refine (ih hset.regular hnodup.2 fun q hq => ?_).trans hset
    have hne : q.1 ≠ p.1 := fun heq => hnodup.1 (heq ▸ List.mem_map_of_mem hq)
    rw [gate_setGate_of_ne hne]
    exact hl q hq

end Tube

namespace Rule

variable {x : Tube Interval} {a y : Interval}

theorem shrinks_mapCodomains {f : Interval → Interval}
    (hf : ∀ a : Interval, a.Numeric → (f a).isSubset a = true) (hx : x.Regular) :
    (mapCodomains f x).Shrinks x := by
  unfold mapCodomains
  refine List.foldlRecOn (motive := fun z : Tube Interval => z.Shrinks x) _ _ hx.shrinks
    fun z hz i _ => ?_
  exact (hz.regular.shrinks_setCodomain (hf _ (hz.regular.numeric i))).trans hz

/-- The first gate and the last one are two. -/
theorem shrinks_ends (hx : x.Regular) {first last : Interval}
    (hfirst : first.isSubset (x.gate 0) = true)
    (hlast : last.isSubset (x.gate x.sliceCount) = true) :
    ((x.setGate 0 first).setGate x.sliceCount last).Shrinks x := by
  have hpos := hx.ordered.sliceCount_pos
  refine hx.shrinks_setGates (l := [(0, first), (x.sliceCount, last)]) ?_ ?_
  · simpa using hpos.ne
  · exact List.forall_mem_cons.2 ⟨hfirst, List.forall_mem_singleton.2 hlast⟩

theorem shrinks_boundary (hx : x.Regular) : (boundary y x).Shrinks x :=
  shrinks_ends hx (Interval.inverseSqr_isSubset (hx.numeric_gate _))
    (Interval.inverseSqr_isSubset (hx.numeric_gate _))

theorem shrinks_closeUp (hx : x.Regular) : (closeUp x).Shrinks x :=
  shrinks_ends hx (Interval.inter_isSubset_of_left (hx.numeric_gate _).isSubset_self)
    (Interval.inter_isSubset_of_right (hx.numeric_gate _).isSubset_self)

/-- What all gates have in common is part of each. -/
theorem foldl_inter_isSubset {gates : List Interval} {g : Interval} (hg : g ∈ gates)
    (hnumeric : g.Numeric) (a : Interval) : (gates.foldl (· ∩ ·) a).isSubset g = true := by
  induction gates generalizing a with
  | nil => exact absurd hg List.not_mem_nil
  | cons b gates ih =>
    rw [List.foldl_cons]
    rcases List.mem_cons.1 hg with rfl | hg
    · refine List.foldlRecOn (motive := fun c : Interval => c.isSubset g = true) _ _
        (Interval.inter_isSubset_of_right hnumeric.isSubset_self) fun c hc d _ => ?_
      exact Interval.inter_isSubset_of_left hc
    · exact ih hg _

theorem shrinks_constant (hx : x.Regular) : (constant y x).Shrinks x := by
  unfold constant
  dsimp only
  generalize x.range ∩ (x.gate 0).inverseSqr y = start
  rw [← Array.foldl_toList]
  generalize hvalue : x.gates.toList.foldl (· ∩ ·) start = value
  have hin : ∀ k < x.sliceCount + 1, value.isSubset (x.gate k) = true := by
    intro k hk
    have hsize : k < x.gates.size := by
      rw [hx.ordered.size_gates]
      exact hk
    rw [← hvalue]
    refine foldl_inter_isSubset ?_ (hx.numeric_gate k) start
    rw [Tube.gate_eq_getElem hsize]
    exact Array.mem_toList_iff.2 (Array.getElem_mem hsize)
  have hpinned : ((List.range (x.sliceCount + 1)).foldl (fun x k => x.setGate k value) x).Shrinks
      x := by
    have hset := hx.shrinks_setGates (l := (List.range (x.sliceCount + 1)).map (·, value))
      (by simpa [Function.comp_def] using List.nodup_range)
      (List.forall_mem_map.2 fun k hk => hin k (List.mem_range.1 hk))
    rwa [List.foldl_map] at hset
  exact (shrinks_mapCodomains
    (fun _ ha => Interval.inter_isSubset_of_left ha.isSubset_self) hpinned.regular).trans hpinned

/-! ### Rules on components -/

variable {v w : TubeVector Interval} {c : ℕ}

theorem shrinks_onComponent (hv : v.Regular) {f : Tube Interval → Except Error (Tube Interval)}
    (hf : ∀ d e : Tube Interval, d.Regular → f d = .ok e → e.Shrinks d)
    (h : onComponent c v f = .ok w) : w.Shrinks v := by
  obtain ⟨d, hd, h⟩ := bind_eq_ok.1 h
  obtain ⟨e, he, h⟩ := bind_eq_ok.1 h
  obtain rfl := Except.ok.inj h
  obtain ⟨_, hc, hd⟩ := bind_eq_ok.1 hd
  obtain rfl := Except.ok.inj hd
  have hindex := TubeVector.settles_checkIndex c v.dimension
  rw [hc] at hindex
  rw [TubeVector.modify_const]
  exact hv.shrinks_set (TubeVector.getElem?_component hindex)
    (hf _ _ (hv.components _ (TubeVector.component_mem hindex)) he)

/-- A rule that multiplies no codomain. -/
def Narrowing : Rule → Prop
  | scale _ _ => False
  | _ => True

theorem within_apply {rule : Rule} (hrule : rule.Narrowing) (hv : v.Regular)
    (h : apply v rule = .ok w) : w.Within v := by
  have hpure {f : Tube Interval → Tube Interval}
      (hf : ∀ d : Tube Interval, d.Regular → (f d).Shrinks d) (d e : Tube Interval) (hd : d.Regular)
      (he : (.ok (f d) : Except Error (Tube Interval)) = .ok e) : e.Shrinks d := by
    obtain rfl := Except.ok.inj he
    exact hf d hd
  cases rule with
  | boundarySquares c y =>
    exact hv.within_of_shrinks (shrinks_onComponent hv (hpure fun _ => shrinks_boundary) h)
  | constantSquare c y =>
    exact hv.within_of_shrinks (shrinks_onComponent hv (hpure fun _ => shrinks_constant) h)
  | scale c y => exact hrule.elim
  | band c y =>
    exact hv.within_of_shrinks (shrinks_onComponent hv (hpure fun _ => shrinks_mapCodomains
      fun _ ha => Interval.inter_isSubset_of_left ha.isSubset_self) h)
  | gate c k y =>
    refine hv.within_of_shrinks (shrinks_onComponent hv (fun d e hd he => ?_) h)
    obtain ⟨g, hg, he⟩ := bind_eq_ok.1 he
    obtain ⟨_, -, hg⟩ := bind_eq_ok.1 hg
    obtain rfl := Except.ok.inj hg
    obtain ⟨_, -, he⟩ := bind_eq_ok.1 he
    obtain rfl := Except.ok.inj he
    exact hd.shrinks_setGate (Interval.inter_isSubset_of_left (hd.numeric_gate k).isSubset_self)
  | periodic c =>
    exact hv.within_of_shrinks (shrinks_onComponent hv (hpure fun _ => shrinks_closeUp) h)
  | none =>
    obtain rfl := Except.ok.inj h
    exact hv.within

theorem within_foldlM_apply {rules : List Rule} (hrules : ∀ rule ∈ rules, rule.Narrowing)
    (hv : v.Regular) (h : rules.foldlM apply v = .ok w) : w.Within v := by
  induction rules generalizing v with
  | nil =>
    obtain rfl := Except.ok.inj h
    exact hv.within
  | cons rule rules ih =>
    obtain ⟨hrule, hrules⟩ := List.forall_mem_cons.1 hrules
    rw [List.foldlM_cons] at h
    obtain ⟨u, hu, h⟩ := bind_eq_ok.1 h
    have hwithin := within_apply hrule hv hu
    exact (ih hrules hwithin.regular h).trans hwithin

/-- Rules in a row stay within. -/
theorem staysWithin_step {rules : List Rule} (hrules : ∀ rule ∈ rules, rule.Narrowing)
    (x0 : TubeVector Interval) : (step rules).StaysWithin x0 :=
  fun _ _ _ _ hx hy => within_foldlM_apply hrules hx.regular hy

end Rule

end FlowTube
