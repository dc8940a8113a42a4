import FlowTube.Proofs.TubeVector.Probes

/-! Clusters as hulls of groups. While tubes are placed, every cluster is the hull of the tubes that
were joined to it, so the groups behind the clusters are a partition of the tubes placed so far. A
placement joins two groups whose hulls overlap or opens a new group. If a whole pass joins nothing,
the groups are as before and no hull overlaps an earlier one; any other pass leaves fewer clusters,
so the passes come to an end. -/

namespace FlowTube.Clustering

open Tube (Probe)

variable {α : Type} {f : α → TubeVector Interval} {r x c : TubeVector Interval}
  {g h : List α} {gs hs : List (List α)} {cs tubes : List (TubeVector Interval)}

/-! ### Groups -/

/-- The hull of the answers of a group. -/
def hullRead (f : α → TubeVector Interval) (g : List α) (j : ℕ) (p : Probe) : Interval :=
  Interval.hullAll (g.map fun a => (f a).read j p)

/-- The hulls of two groups overlap. -/
def Meet (f : α → TubeVector Interval) (r : TubeVector Interval) (g h : List α) : Prop :=
  r.Throughout fun j p => (hullRead f g j p ∩ hullRead f h j p).isEmpty = false

/-- A vector is the hull of a group of vectors between the same ends. -/
structure Gathers (f : α → TubeVector Interval) (r : TubeVector Interval) (g : List α)
    (c : TubeVector Interval) : Prop where
  continues : c.Continues r
  members : ∀ a ∈ g, (f a).Continues r
  read : ∀ j < r.dimension, ∀ p, c.read j p = hullRead f g j p
  mem_times : ∀ t, t ∈ c.times ↔ ∃ a ∈ g, t ∈ (f a).times

/-- A group that came about by joining groups whose hulls overlap. -/
inductive Linked (f : α → TubeVector Interval) (r : TubeVector Interval) : List α → Prop
  | single (a : α) : Linked f r [a]
  | join {g h : List α} (hh : Linked f r h) (hg : Linked f r g) (hmeet : Meet f r g h) :
      Linked f r (h ++ g)

theorem Linked.ne_nil (hg : Linked f r g) : g ≠ [] := by
  induction hg with
  | single a => exact List.cons_ne_nil a []
  | join hh hg hmeet ih _ => exact List.append_ne_nil_of_left_ne_nil ih _

/-- No group meets an earlier one. -/
def Separated (f : α → TubeVector Interval) (r : TubeVector Interval) (gs : List (List α)) : Prop :=
  gs.Pairwise fun h g => ¬Meet f r g h

theorem Meet.symm (hmeet : Meet f r g h) : Meet f r h g :=
  fun j hj p hp => Interval.isEmpty_inter_swap (hmeet j hj p hp)

theorem separated_of_length_le_one (hone : gs.length ≤ 1) : Separated f r gs := by
  match gs, hone with
  | [], _ => exact List.Pairwise.nil
  | [g], _ => exact List.pairwise_singleton ..

theorem numeric_reads (hg : ∀ a ∈ g, (f a).Continues r) {j : ℕ} (hj : j < r.dimension) (p : Probe) :
    ∀ b ∈ g.map fun a => (f a).read j p, b.Numeric :=
  List.forall_mem_map.2 fun a ha =>
    (hg a ha).regular.numeric_read ((hg a ha).dimension ▸ hj) p

namespace Gathers

theorem single {a : α} (ha : (f a).Continues r) : Gathers f r [a] (f a) where
  continues := ha
  members := List.forall_mem_singleton.2 ha
  read _ _ _ := (Interval.hullAll_singleton _).symm
  mem_times t := by simp

/-- There are breakpoints, and they come from some tube of the group. -/
theorem ne_nil (hg : Gathers f r g c) : g ≠ [] := by
  have hfirst := hg.continues.regular.first.ordered
  have hsize := hfirst.size_times
  obtain ⟨a, ha, -⟩ := (hg.mem_times (c.first.time 0)).1 (Tube.time_mem (by omega))
  exact List.ne_nil_of_mem ha

/-- Clusters overlap if the hulls of their groups do. -/
theorem overlap_iff {d : TubeVector Interval} (hg : Gathers f r g c) (hh : Gathers f r h d) :
    r.Overlap c d ↔ Meet f r g h := by
  refine forall₂_congr fun j hj => forall₂_congr fun p _ => ?_
  dsimp only
  rw [hg.read j hj, hh.read j hj]

theorem overlaps (hr : r.Regular) {d : TubeVector Interval} (hg : Gathers f r g c)
    (hh : Gathers f r h d) :
    ∃ b, Clustering.overlaps c d = .ok b ∧ (b = true ↔ Meet f r g h) := by
  obtain ⟨b, hb, hiff⟩ := hg.continues.overlaps hh.continues hr
  exact ⟨b, hb, hiff.trans (hg.overlap_iff hh)⟩

/-- The hull of two clusters is the hull of both groups together. -/
theorem exists_hull {d : TubeVector Interval} (hg : Gathers f r g c) (hh : Gathers f r h d) :
    ∃ e, c.hull d = .ok e ∧ Gathers f r (g ++ h) e := by
  obtain ⟨e, he, hcontinues, hjoins⟩ := hg.continues.exists_combine Interval.keepsInclusion_union
    Interval.union_empty hh.continues
  refine ⟨e, he, hcontinues, ?_, fun j hj p => ?_, fun t => ?_⟩
  · exact List.forall_mem_append.2 ⟨hg.members, hh.members⟩
  · rw [hjoins.read j (hcontinues.dimension ▸ hj), hg.read j hj, hh.read j hj, hullRead, hullRead,
      hullRead, List.map_append, Interval.hullAll_append (numeric_reads hg.members hj p)
        (numeric_reads hh.members hj p) (by simpa using hh.ne_nil)]
  · rw [hjoins.mem_times, hg.mem_times, hh.mem_times]
    simp only [List.mem_append, or_and_right, exists_or]

end Gathers

/-! ### Placements -/

theorem place_cons_of_overlap {rest : List (TubeVector Interval)} {d : TubeVector Interval}
    (hoverlap : overlaps x c = .ok true) (hd : c.hull x = .ok d) :
    place x (c :: rest) = .ok (d :: rest) := by
  rw [place, hoverlap]
  change (do return (← c.hull x) :: rest) = _
  rw [hd]
  rfl

theorem place_cons_of_not_overlap {rest : List (TubeVector Interval)}
    (hoverlap : overlaps x c = .ok false) :
    place x (c :: rest) = (c :: ·) <$> place x rest := by
  rw [place, hoverlap]
  rfl

/-- A tube is joined to a cluster whose hull it overlaps, or becomes the last cluster. -/
theorem place_spec (hr : r.Regular) (hcs : List.Forall₂ (Gathers f r) hs cs)
    (hx : Gathers f r g x) :
    (∃ hs₁ h hs₂ cs', hs = hs₁ ++ h :: hs₂ ∧ Meet f r g h ∧ place x cs = .ok cs' ∧
      List.Forall₂ (Gathers f r) (hs₁ ++ (h ++ g) :: hs₂) cs') ∨
    (∀ h ∈ hs, ¬Meet f r g h) ∧ place x cs = .ok (cs ++ [x]) := by
  induction hcs with
  | nil => exact Or.inr ⟨by simp, rfl⟩
  | @cons h c hs cs hc hcs ih =>
    obtain ⟨b, hb, hmeet⟩ := hx.overlaps hr hc
    cases b with
    | true =>
      obtain ⟨d, hd, hgathers⟩ := hc.exists_hull hx
      exact Or.inl ⟨[], h, hs, d :: cs, rfl, hmeet.1 rfl, place_cons_of_overlap hb hd,
        .cons hgathers hcs⟩
    | false =>
      have hnot : ¬Meet f r g h := fun hgh => Bool.false_ne_true (hmeet.2 hgh)
      rw [place_cons_of_not_overlap hb]
      rcases ih with ⟨hs₁, k, hs₂, cs', rfl, hk, hplace, hgathers⟩ | ⟨hnone, hplace⟩
      · exact Or.inl ⟨h :: hs₁, k, hs₂, c :: cs', rfl, hk, by rw [hplace]; rfl,
          .cons hc hgathers⟩
      · exact Or.inr ⟨List.forall_mem_cons.2 ⟨hnot, hnone⟩, by rw [hplace]; rfl⟩

/-! ### Passes -/

/-- The groups behind the clusters are linked and make up a list of tubes. -/
structure Grouping (f : α → TubeVector Interval) (r : TubeVector Interval) (as : List α)
    (gs : List (List α)) (cs : List (TubeVector Interval)) : Prop where
  gathers : List.Forall₂ (Gathers f r) gs cs
  linked : ∀ g ∈ gs, Linked f r g
  perm : gs.flatten.Perm as

variable {as bs : List α}

theorem Grouping.length_eq (h : Grouping f r as gs cs) : gs.length = cs.length :=
  h.gathers.length_eq

/-- One placement: the new group is joined to one that it meets, or becomes the last one. -/
theorem Grouping.place (hr : r.Regular) (hcs : Grouping f r as hs cs) (hx : Gathers f r g x)
    (hg : Linked f r g) : ∃ hs' cs', Clustering.place x cs = .ok cs' ∧
      Grouping f r (as ++ g) hs' cs' ∧
        (cs'.length = cs.length ∨
          hs' = hs ++ [g] ∧ cs' = cs ++ [x] ∧ ∀ h ∈ hs, ¬Meet f r g h) := by
  rcases place_spec hr hcs.gathers hx with
    ⟨hs₁, h, hs₂, cs', rfl, hmeet, hplace, hgathers⟩ | ⟨hnone, hplace⟩
  · have hlinked := hcs.linked
    simp only [List.forall_mem_append, List.forall_mem_cons] at hlinked
    obtain ⟨hlinked₁, hh, hlinked₂⟩ := hlinked
    refine ⟨hs₁ ++ (h ++ g) :: hs₂, cs', hplace, ⟨hgathers, ?_, ?_⟩, Or.inl ?_⟩
    · simp only [List.forall_mem_append, List.forall_mem_cons]
      exact ⟨hlinked₁, .join hh hg hmeet, hlinked₂⟩
    · refine List.Perm.trans ?_ (hcs.perm.append_right g)
      simp only [List.flatten_append, List.flatten_cons, List.append_assoc]
      exact ((@List.perm_append_comm _ g _).append_left h).append_left hs₁.flatten
    · rw [← hgathers.length_eq, ← hcs.length_eq]
      simp only [List.length_append, List.length_cons]
  · refine ⟨hs ++ [g], cs ++ [x], hplace, ⟨?_, ?_, ?_⟩, Or.inr ⟨rfl, rfl, hnone⟩⟩
    · exact List.rel_append hcs.gathers (.cons hx .nil)
    · exact List.forall_mem_append.2 ⟨hcs.linked, List.forall_mem_singleton.2 hg⟩
    · rw [List.flatten_append, List.flatten_singleton]
      exact hcs.perm.append_right g

/-- Placements in a row put together the groups of all tubes. Either some are joined, or each opens
a group of its own, which meets no earlier one. -/
theorem Grouping.foldlM_place (hr : r.Regular) (hcs : Grouping f r as hs cs)
    (hgs : List.Forall₂ (Gathers f r) gs tubes) (hlinked : ∀ g ∈ gs, Linked f r g) :
    ∃ hs' cs', tubes.foldlM (fun cs x => Clustering.place x cs) cs = .ok cs' ∧
      Grouping f r (as ++ gs.flatten) hs' cs' ∧
        (cs'.length < cs.length + tubes.length ∨
          cs' = cs ++ tubes ∧ (Separated f r hs → Separated f r (hs ++ gs))) := by
  induction hgs generalizing as hs cs with
  | nil =>
    refine ⟨hs, cs, rfl, ?_, Or.inr ⟨(List.append_nil cs).symm, ?_⟩⟩
    · rwa [List.flatten_nil, List.append_nil]
    · rw [List.append_nil]
      exact id
  | @cons g x gs tubes hx hgs ih =>
    obtain ⟨hg, hlinked⟩ := List.forall_mem_cons.1 hlinked
    obtain ⟨hs₁, cs₁, hplace, hgrouping, hlength⟩ := hcs.place hr hx hg
    obtain ⟨hs', cs', hrest, hgrouping', hrest_length⟩ := ih hgrouping hlinked
    refine ⟨hs', cs', ?_, ?_, ?_⟩
    · rw [List.foldlM_cons, hplace]
      exact hrest
    · rwa [List.flatten_cons, ← List.append_assoc]
    · rw [List.length_cons]
      rcases hlength with hjoined | ⟨rfl, rfl, hnone⟩
      · left
        rcases hrest_length with hlt | ⟨rfl, -⟩
        · omega
        · simp only [List.length_append]
          omega
      · rw [List.length_append, List.length_singleton] at hrest_length
        refine hrest_length.imp (fun hlt => by omega) fun ⟨heq, hsep⟩ => ⟨?_, fun h => ?_⟩
        · rw [heq, List.append_assoc, List.singleton_append]
        · rw [← List.singleton_append, ← List.append_assoc]
          exact hsep (List.pairwise_append.2 ⟨h, List.pairwise_singleton .., fun k hk l hl => by
            rw [List.mem_singleton.1 hl]
            exact hnone k hk⟩)

/-- Groups that do not meet stay as they are. -/
theorem foldlM_place_of_separated (hr : r.Regular) (hcs : List.Forall₂ (Gathers f r) hs cs)
    (hgs : List.Forall₂ (Gathers f r) gs tubes) (hsep : Separated f r (hs ++ gs)) :
    tubes.foldlM (fun cs x => place x cs) cs = .ok (cs ++ tubes) := by
  induction hgs generalizing hs cs with
  | nil => rw [List.append_nil]; rfl
  | @cons g x gs tubes hx hgs ih =>
    have hplace : place x cs = .ok (cs ++ [x]) := by
      rcases place_spec hr hcs hx with ⟨hs₁, h, hs₂, -, rfl, hmeet, -⟩ | ⟨-, hplace⟩
      · exact absurd hmeet ((List.pairwise_append.1 hsep).2.2 h (by simp) g List.mem_cons_self)
      · exact hplace
    rw [← List.singleton_append, ← List.append_assoc] at hsep
    have hrest := ih (List.rel_append hcs (.cons hx .nil)) hsep
    rw [List.foldlM_cons, hplace]
    refine hrest.trans ?_
    rw [List.append_assoc, List.singleton_append]

/-- A pass keeps the groups of all tubes. Either it leaves fewer clusters, or the tubes are the
clusters already and do not meet. -/
theorem Grouping.pass (hr : r.Regular) (htubes : Grouping f r as gs tubes) :
    ∃ hs cs, Clustering.pass tubes = .ok cs ∧ Grouping f r as hs cs ∧
      (cs.length < tubes.length ∨ cs = tubes ∧ Separated f r gs) := by
  have hnone : Grouping f r [] [] [] := ⟨.nil, by simp, .nil⟩
  obtain ⟨hs, cs, hpass, hgrouping, hlength⟩ :=
    hnone.foldlM_place hr htubes.gathers htubes.linked
  refine ⟨hs, cs, hpass, ⟨hgrouping.gathers, hgrouping.linked, ?_⟩, ?_⟩
  · rw [List.nil_append] at hgrouping
    exact hgrouping.perm.trans htubes.perm
  · refine hlength.imp (fun hlt => by simpa using hlt) fun ⟨heq, hsep⟩ => ⟨heq, ?_⟩
    exact hsep List.Pairwise.nil

/-! ### All passes -/

theorem passes_of_length_le_one (n : ℕ) (hone : tubes.length ≤ 1) :
    passes n tubes = .ok tubes := by
  cases n with
  | zero => rfl
  | succ n => exact if_pos hone

theorem passes_succ {n : ℕ} (hone : ¬tubes.length ≤ 1) (hpass : pass tubes = .ok cs) :
    passes (n + 1) tubes = if cs.length = tubes.length then .ok cs else passes n cs := by
  rw [passes, if_neg hone, hpass]
  change (if (cs.length == tubes.length) = true then _ else _) = _
  simp only [beq_iff_eq]
  rfl

/-- Tubes whose groups do not meet are clustered already. -/
theorem passes_of_separated (hr : r.Regular) (hgs : List.Forall₂ (Gathers f r) gs tubes)
    (hsep : Separated f r gs) (n : ℕ) : passes n tubes = .ok tubes := by
  by_cases hone : tubes.length ≤ 1
  · exact passes_of_length_le_one n hone
  · cases n with
    | zero => rfl
    | succ n =>
      have hpass : pass tubes = .ok tubes := foldlM_place_of_separated hr .nil hgs hsep
      rw [passes_succ hone hpass, if_pos rfl]

/-- The passes come to an end with groups that do not meet. -/
theorem Grouping.exists_passes (hr : r.Regular) (htubes : Grouping f r as gs tubes) :
    ∃ hs out, (∀ n ≥ tubes.length, passes n tubes = .ok out) ∧ Grouping f r as hs out ∧
      Separated f r hs := by
  induction hn : tubes.length using Nat.strong_induction_on generalizing gs tubes with
  | h m ih =>
    by_cases hone : tubes.length ≤ 1
    · refine ⟨gs, tubes, fun n _ => passes_of_length_le_one n hone, htubes, ?_⟩
      rw [← htubes.length_eq] at hone
      exact separated_of_length_le_one hone
    · obtain ⟨hs, cs, hpass, hgrouping, hlength⟩ := htubes.pass hr
      rcases hlength with hlt | ⟨rfl, hsep⟩
      · obtain ⟨hs', out, hout, hgrouping', hsep⟩ := ih cs.length (hn ▸ hlt) hgrouping rfl
        refine ⟨hs', out, fun n hnm => ?_, hgrouping', hsep⟩
        obtain ⟨n, rfl⟩ : ∃ k, n = k + 1 := ⟨n - 1, by omega⟩
        rw [passes_succ hone hpass, if_neg hlt.ne]
        exact hout n (by omega)
      · exact ⟨gs, cs, fun n _ => passes_of_separated hr htubes.gathers hsep n, htubes, hsep⟩

/-- Every tube starts as a group of its own. -/
theorem exists_cluster (hr : r.Regular) (has : ∀ a ∈ as, (f a).Continues r) :
    ∃ gs out, (∀ n ≥ as.length, passes n (as.map f) = .ok out) ∧ Grouping f r as gs out ∧
      Separated f r gs := by
  have hsingle : Grouping f r as (as.map fun a => [a]) (as.map f) := by
    refine ⟨?_, List.forall_mem_map.2 fun a _ => .single a, ?_⟩
    · rw [List.forall₂_map_left_iff, List.forall₂_map_right_iff]
      exact List.forall₂_same.2 fun a ha => .single (has a ha)
    · rw [← List.flatMap_def, List.flatMap_singleton']
  simpa only [List.length_map] using hsingle.exists_passes hr

/-- Clusters of separated groups do not overlap. -/
theorem pairwise_overlaps (hr : r.Regular) (hcs : List.Forall₂ (Gathers f r) gs cs)
    (hsep : Separated f r gs) : cs.Pairwise fun c d => overlaps d c = .ok false := by
  refine List.pairwise_iff_getElem.2 fun i j hi hj hij => ?_
  have hlength := hcs.length_eq
  have hi' : i < gs.length := by omega
  have hj' : j < gs.length := by omega
  have hnot := List.pairwise_iff_getElem.1 hsep i j hi' hj' hij
  obtain ⟨b, hb, hmeet⟩ := (hcs.get hj' hj).overlaps hr (hcs.get hi' hi)
  rw [Bool.eq_false_iff.2 fun htrue => hnot (hmeet.1 htrue)] at hb
  exact hb

/-! ### Well-formed tubes of one dimension and time domain -/

/-- Well-formed vectors with one dimension and one time domain. -/
structure Comparable (tubes : List (TubeVector Interval)) : Prop where
  regular : ∀ x ∈ tubes, x.Regular
  dimension : ∀ x ∈ tubes, ∀ y ∈ tubes, x.dimension = y.dimension
  domain : ∀ x ∈ tubes, ∀ y ∈ tubes, (x.domain == y.domain) = true

theorem Comparable.continues (htubes : Comparable tubes) (hr : r ∈ tubes) :
    ∀ x ∈ tubes, x.Continues r := fun x hx =>
  ⟨htubes.regular x hx, htubes.dimension x hx r hr,
    ((htubes.regular x hx).first.ordered.domain_beq_iff
      (htubes.regular r hr).first.ordered).1 (htubes.domain x hx r hr)⟩

/-- A well-formed vector that has at every time the hull of the values of a group. -/
structure IsHull (g : List (TubeVector Interval)) (c : TubeVector Interval) : Prop where
  regular : c.Regular
  dimension : ∀ x ∈ g, c.dimension = x.dimension
  domain : ∀ x ∈ g, (c.domain == x.domain) = true
  eval : ∀ j < c.dimension, ∀ t, (c.component j).eval t =
    Interval.hullAll (g.map fun x => (x.component j).eval t)

theorem Gathers.isHull {g : List (TubeVector Interval)} (hg : Gathers id r g c) : IsHull g c where
  regular := hg.continues.regular
  dimension x hx := hg.continues.dimension.trans (hg.members x hx).dimension.symm
  domain x hx := (hg.continues.regular.first.ordered.domain_beq_iff
    (hg.members x hx).regular.first.ordered).2
      (hg.continues.ends.trans (hg.members x hx).ends.symm)
  eval j hj t := hg.read j (hg.continues.dimension ▸ hj) (.value t)

/-- Clustering comes to an end, and its clusters are the hulls of the groups of a partition of the
tubes. No cluster overlaps an earlier one, and clustering them once more leaves them as they are. -/
theorem cluster_partitions (htubes : Comparable tubes) :
    ∃ out, cluster tubes = .ok out ∧ (∀ n ≥ tubes.length, passes n tubes = .ok out) ∧
      (∃ groups : List (List (TubeVector Interval)), [] ∉ groups ∧ groups.flatten.Perm tubes ∧
        List.Forall₂ IsHull groups out) ∧
      out.Pairwise (fun earlier later => overlaps later earlier = .ok false) ∧
      cluster out = .ok out := by
  cases tubes with
  | nil =>
    refine ⟨[], rfl, fun n _ => passes_of_length_le_one n (Nat.zero_le 1), ?_, List.Pairwise.nil,
      rfl⟩
    exact ⟨[], List.not_mem_nil, .nil, .nil⟩
  | cons r tubes =>
    have hr := htubes.regular r List.mem_cons_self
    have hcontinues := htubes.continues List.mem_cons_self
    obtain ⟨groups, out, hout, hgrouping, hsep⟩ := exists_cluster (f := id) hr hcontinues
    rw [List.map_id] at hout
    refine ⟨out, hout _ le_rfl, hout, ⟨groups, fun hnil => ?_, hgrouping.perm, ?_⟩,
      pairwise_overlaps hr hgrouping.gathers hsep, passes_of_separated hr hgrouping.gathers hsep _⟩
    · exact (hgrouping.linked [] hnil).ne_nil rfl
    · exact hgrouping.gathers.imp fun g c hg => hg.isHull

/-- One slice from zero to one with the same values all over. -/
def band (lb ub : Float) : TubeVector Interval :=
  ⟨[⟨#[0.0, 1.0], #[⟨lb, ub⟩], #[⟨lb, ub⟩, ⟨lb, ub⟩]⟩]⟩

theorem regular_band {lb ub : Float} (h : lb ≤ ub) : (band lb ub).Regular := by
  have hnumeric : (⟨lb, ub⟩ : Interval).Numeric :=
    ⟨(Binary64.le_iff.1 h).1, (Binary64.le_iff.1 h).2.1⟩
  refine ⟨List.cons_ne_nil _ _, List.forall_mem_singleton.2 ?_, List.forall_mem_singleton.2 rfl⟩
  refine ⟨⟨⟨Nat.one_pos, rfl, rfl⟩, List.pairwise_pair.2 (by decide), fun i hi => ?_,
    fun i hi => ?_⟩, fun i => ?_, ?_⟩
  · obtain rfl := Nat.lt_one_iff.1 hi
    exact hnumeric.isSubset_self
  · obtain rfl := Nat.lt_one_iff.1 hi
    exact hnumeric.isSubset_self
  · cases i with
    | zero => exact hnumeric
    | succ i => exact Interval.numeric_empty
  · have htimes : ∀ t ∈ #[(0.0 : Float), 1.0], t ≠ -0.0 := by decide
    exact htimes

theorem comparable_bands {bounds : List (Float × Float)} (h : ∀ b ∈ bounds, b.1 ≤ b.2) :
    Comparable (bounds.map fun b => band b.1 b.2) where
  regular := List.forall_mem_map.2 fun b hb => regular_band (h b hb)
  dimension := List.forall_mem_map.2 fun _ _ => List.forall_mem_map.2 fun _ _ => rfl
  domain := List.forall_mem_map.2 fun _ _ => List.forall_mem_map.2 fun _ _ => by
    change (Interval.ofBounds 0.0 1.0 == Interval.ofBounds 0.0 1.0) = true
    decide

/-- The second band and the third one overlap only once the third one has joined the first. -/
theorem cluster_partitions_chain : ∃ g c, cluster [band 0.0 1.0, band 2.0 3.0, band 1.0 2.0] =
    .ok [c] ∧ g.Perm [band 0.0 1.0, band 2.0 3.0, band 1.0 2.0] ∧ IsHull g c := by
  have hchain : Comparable [band 0.0 1.0, band 2.0 3.0, band 1.0 2.0] :=
    @comparable_bands [(0.0, 1.0), (2.0, 3.0), (1.0, 2.0)] (by decide)
  obtain ⟨out, hout, -, ⟨groups, -, hperm, hhulls⟩, -⟩ := cluster_partitions hchain
  have hone : (cluster [band 0.0 1.0, band 2.0 3.0, band 1.0 2.0]).toOption.map List.length =
      some 1 := by decide +kernel
  rw [hout] at hone ⊢
  obtain ⟨c, rfl⟩ := List.length_eq_one_iff.1 (Option.some.inj hone)
  obtain ⟨g, rest, hg, hrest, rfl⟩ := List.forall₂_cons_right_iff.1 hhulls
  rw [List.forall₂_nil_right_iff.1 hrest, List.flatten_singleton] at hperm
  exact ⟨g, c, rfl, hperm, hg⟩

end FlowTube.Clustering
