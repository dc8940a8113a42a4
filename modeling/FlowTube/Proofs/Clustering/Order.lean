import FlowTube.Proofs.Clustering.Groups
import Mathlib.Data.List.Perm.Basic
import Mathlib.Data.List.Sort

/-! Clusters do not depend on the order of the tubes. Overlaps are monotone: groups that meet still
meet when they grow. So whatever joins were made on the way, a linked group lies inside one group of
any partition whose groups do not meet: its first tube lies in one, and each join of two groups that
meet joins parts of one group. Applied both ways to the results of two orders, each group of the one
has the same tubes as a group of the other. Tubes are told apart by labels here, because a list may
have a tube twice. -/

namespace FlowTube.Clustering

open Tube (Probe)

variable {α : Type} {f : α → TubeVector Interval} {r c d : TubeVector Interval}
  {g h : List α} {gs hs : List (List α)} {as : List α} {a : α}

/-! ### Monotone overlaps -/

/-- Groups that meet still meet when they grow. -/
theorem Meet.mono {g' h' : List α} (hmeet : Meet f r g h) (hgg : g ⊆ g') (hhh : h ⊆ h')
    (hg' : ∀ a ∈ g', (f a).Continues r) (hh' : ∀ a ∈ h', (f a).Continues r) : Meet f r g' h' := by
  intro j hj p hp
  have hsubset := Interval.inter_isSubset_inter
    (Interval.hullAll_mono (numeric_reads hg' hj p) (List.map_subset _ hgg))
    (Interval.hullAll_mono (numeric_reads hh' hj p) (List.map_subset _ hhh))
  exact Bool.eq_false_iff.2 fun hempty =>
    Bool.eq_false_iff.1 (hmeet j hj p hp) (Interval.isEmpty_of_isSubset hsubset hempty)

theorem Separated.eq_of_meet (hsep : Separated f r gs) (hg : g ∈ gs) (hh : h ∈ gs)
    (hmeet : Meet f r g h) : g = h := by
  have : Std.Symm fun h g : List α => ¬Meet f r g h := ⟨fun _ _ hnot hmeet => hnot hmeet.symm⟩
  by_contra hne
  exact hsep.forall hg hh hne hmeet.symm

theorem Grouping.continues {cs : List (TubeVector Interval)} (hgs : Grouping f r as gs cs)
    (hg : g ∈ gs) : ∀ a ∈ g, (f a).Continues r := by
  obtain ⟨i, hi, rfl⟩ := List.mem_iff_getElem.1 hg
  exact (hgs.gathers.get hi (hgs.length_eq ▸ hi)).members

/-- A linked group lies inside one of the groups that do not meet. -/
theorem Linked.exists_subset (hg : Linked f r g) (hsep : Separated f r hs)
    (hcontinues : ∀ h ∈ hs, ∀ a ∈ h, (f a).Continues r) (hcover : ∀ a ∈ g, ∃ h ∈ hs, a ∈ h) :
    ∃ h ∈ hs, g ⊆ h := by
  induction hg with
  | single a =>
    obtain ⟨h, hh, ha⟩ := hcover a (List.mem_singleton_self a)
    exact ⟨h, hh, List.forall_mem_singleton.2 ha⟩
  | @join g k _ _ hmeet ihk ihg =>
    obtain ⟨h, hh, hsubset⟩ := ihk fun a ha => hcover a (List.mem_append_left g ha)
    obtain ⟨h', hh', hsubset'⟩ := ihg fun a ha => hcover a (List.mem_append_right k ha)
    -- the groups around both parts meet because the parts do
    have heq : h' = h := hsep.eq_of_meet hh' hh
      (hmeet.mono hsubset' hsubset (hcontinues h' hh') (hcontinues h hh))
    exact ⟨h, hh, List.append_subset.2 ⟨hsubset, heq ▸ hsubset'⟩⟩

/-! ### Two partitions -/

theorem eq_of_mem_of_mem (hnodup : gs.flatten.Nodup) (hg : g ∈ gs) (hh : h ∈ gs) (hag : a ∈ g)
    (hah : a ∈ h) : g = h := by
  have : Std.Symm (List.Disjoint (α := α)) := ⟨fun _ _ hdisjoint => hdisjoint.symm⟩
  by_contra hne
  exact (List.nodup_flatten.1 hnodup).2.forall hg hh hne hag hah

/-- Two partitions of the same tubes into linked groups that do not meet have the same groups. -/
theorem Grouping.exists_same_members {cs ds : List (TubeVector Interval)}
    (hgs : Grouping f r as gs cs) (hhs : Grouping f r as hs ds) (hnodup : as.Nodup)
    (hsep : Separated f r gs) (hsep' : Separated f r hs) (hg : g ∈ gs) :
    ∃ h ∈ hs, ∀ a, a ∈ g ↔ a ∈ h := by
  have hmem {a : α} : (∃ g ∈ gs, a ∈ g) ↔ ∃ h ∈ hs, a ∈ h := by
    rw [← List.mem_flatten, ← List.mem_flatten, hgs.perm.mem_iff, hhs.perm.mem_iff]
  obtain ⟨h, hh, hgh⟩ := (hgs.linked g hg).exists_subset hsep' (fun h hh => hhs.continues hh)
    fun a ha => hmem.1 ⟨g, hg, ha⟩
  obtain ⟨k, hk, hhk⟩ := (hhs.linked h hh).exists_subset hsep (fun g hg => hgs.continues hg)
    fun a ha => hmem.2 ⟨h, hh, ha⟩
  obtain ⟨a, rest, hcons⟩ := List.exists_cons_of_ne_nil (hgs.linked g hg).ne_nil
  have hag : a ∈ g := hcons ▸ List.mem_cons_self
  obtain rfl : g = k := eq_of_mem_of_mem (hgs.perm.nodup_iff.2 hnodup) hg hk hag (hhk (hgh hag))
  exact ⟨h, hh, fun a => ⟨fun ha => hgh ha, fun ha => hhk ha⟩⟩

/-- The tubes of a group. -/
def members (g : List α) : Set α := {a | a ∈ g}

theorem members_eq_iff : members g = members h ↔ ∀ a, a ∈ g ↔ a ∈ h := Set.ext_iff

theorem Grouping.nodup_members {cs : List (TubeVector Interval)} (hgs : Grouping f r as gs cs)
    (hnodup : as.Nodup) : (gs.map members).Nodup := by
  rw [← hgs.perm.nodup_iff, List.nodup_flatten] at hnodup
  refine List.pairwise_map.2 (hnodup.2.imp_of_mem fun hg hh hdisjoint heq => ?_)
  obtain ⟨a, rest, hcons⟩ := List.exists_cons_of_ne_nil (hgs.linked _ hg).ne_nil
  have ha := hcons ▸ List.mem_cons_self
  exact hdisjoint ha ((members_eq_iff.1 heq a).1 ha)

theorem Grouping.perm_members {cs ds : List (TubeVector Interval)} (hgs : Grouping f r as gs cs)
    (hhs : Grouping f r as hs ds) (hnodup : as.Nodup) (hsep : Separated f r gs)
    (hsep' : Separated f r hs) : (gs.map members).Perm (hs.map members) := by
  refine (List.perm_ext_iff_of_nodup (hgs.nodup_members hnodup) (hhs.nodup_members hnodup)).2
    fun s => ?_
  simp only [List.mem_map]
  constructor
  · rintro ⟨g, hg, rfl⟩
    obtain ⟨h, hh, hsame⟩ := hgs.exists_same_members hhs hnodup hsep hsep' hg
    exact ⟨h, hh, (members_eq_iff.2 hsame).symm⟩
  · rintro ⟨h, hh, rfl⟩
    obtain ⟨g, hg, hsame⟩ := hhs.exists_same_members hgs hnodup hsep' hsep hh
    exact ⟨g, hg, (members_eq_iff.2 hsame).symm⟩

/-! ### Clusters of the same tubes -/

/-- Tubes without an empty answer. -/
def Full (f : α → TubeVector Interval) (r : TubeVector Interval) (g : List α) : Prop :=
  ∀ a ∈ g, r.Throughout fun j p => ((f a).read j p).isEmpty = false

/-- A tube that meets another one is nowhere empty, so joins are made of full tubes. -/
theorem Linked.single_or_full (hg : Linked f r g) : (∃ a, g = [a]) ∨ Full f r g := by
  have hfull {g h : List α} (hg : (∃ a, g = [a]) ∨ Full f r g) (hmeet : Meet f r g h) :
      Full f r g := by
    rcases hg with ⟨a, rfl⟩ | hg
    · intro b hb j hj p hp
      rw [List.mem_singleton.1 hb]
      have hread := Interval.isEmpty_left_of_inter (hmeet j hj p hp)
      rwa [hullRead, List.map_singleton, Interval.hullAll_singleton] at hread
    · exact hg
  induction hg with
  | single a => exact Or.inl ⟨a, rfl⟩
  | join _ _ hmeet ihh ihg =>
    exact Or.inr (List.forall_mem_append.2 ⟨hfull ihh hmeet.symm, hfull ihg hmeet⟩)

/-- Clusters of the same tubes have the same breakpoints. -/
theorem Gathers.times_eq (hc : Gathers f r g c) (hd : Gathers f r h d)
    (hsame : ∀ a, a ∈ g ↔ a ∈ h) : c.times = d.times := by
  have hirrefl (t : Float) : ¬t < t := fun hlt => lt_irrefl _ (Binary64.lt_iff.1 hlt).2.2
  have : Std.Irrefl fun s t : Float => s < t := ⟨hirrefl⟩
  have : Std.Antisymm fun s t : Float => s < t :=
    ⟨fun s t hst hts => absurd (Binary64.lt_trans hst hts) (hirrefl s)⟩
  refine Array.toList_inj.1 (List.Pairwise.eq_of_mem_iff
    hc.continues.regular.first.increasing hd.continues.regular.first.increasing fun t => ?_)
  have hc' := hc.mem_times t
  have hd' := hd.mem_times t
  simp only [hsame] at hc'
  rw [Array.mem_toList_iff, Array.mem_toList_iff]
  exact hc'.trans hd'.symm

/-- Clusters of the same tubes are equal, whatever the joins were. -/
theorem Gathers.beq (hr : r.Regular) (hc : Gathers f r g c) (hd : Gathers f r h d)
    (hg : Linked f r g) (hh : Linked f r h) (hsame : ∀ a, a ∈ g ↔ a ∈ h) : (c == d) = true := by
  refine hc.continues.beq_of_read hd.continues hr (hc.times_eq hd hsame) fun j hj p hp => ?_
  have hgn := numeric_reads hc.members hj p
  have hhn := numeric_reads hd.members hj p
  dsimp only
  rw [hc.read j hj, hd.read j hj]
  by_cases hfull : Full f r g
  · obtain ⟨a, rest, hcons⟩ := List.exists_cons_of_ne_nil hg.ne_nil
    have ha : a ∈ g := hcons ▸ List.mem_cons_self
    have hne := Interval.isEmpty_hullAll hgn (List.mem_map_of_mem ha) (hfull a ha j hj p hp)
    exact Interval.beq_of_isSubset hne
      (Interval.hullAll_mono hhn (List.map_subset _ fun b hb => (hsame b).1 hb))
      (Interval.hullAll_mono hgn (List.map_subset _ fun b hb => (hsame b).2 hb))
  · -- a tube with an empty answer is alone in both groups
    have hfull' : ¬Full f r h := fun hall => hfull fun b hb => hall b ((hsame b).1 hb)
    obtain ⟨a, rfl⟩ := hg.single_or_full.resolve_right hfull
    obtain ⟨b, rfl⟩ := hh.single_or_full.resolve_right hfull'
    obtain rfl : a = b := List.mem_singleton.1 ((hsame a).1 (List.mem_singleton_self a))
    exact (Interval.numeric_hullAll hgn).beq_self

/-- Clusters of the groups in the one order are matched with equal ones in the other. -/
theorem Grouping.exists_perm {cs ds : List (TubeVector Interval)} (hr : r.Regular)
    (hgs : Grouping f r as gs cs) (hhs : Grouping f r as hs ds) (hnodup : as.Nodup)
    (hsep : Separated f r gs) (hsep' : Separated f r hs) :
    ∃ l, l.Perm ds ∧ List.Forall₂ (fun c d => (c == d) = true) cs l := by
  have hds : List.Forall₂ (fun s d => ∃ h, members h = s ∧ Linked f r h ∧ Gathers f r h d)
      (hs.map members) ds := by
    refine List.forall₂_map_left_iff.2 ?_
    exact ((List.forall₂_and_left _ _).2 ⟨hhs.linked, hhs.gathers⟩).imp fun h d hd => ⟨h, rfl, hd⟩
  obtain ⟨l, hl, hperm⟩ :=
    List.perm_comp_forall₂ (hgs.perm_members hhs hnodup hsep hsep') hds
  have hlength := hl.length_eq
  rw [List.length_map, hgs.length_eq] at hlength
  rw [List.forall₂_map_left_iff] at hl
  refine ⟨l, hperm, List.forall₂_iff_get.2 ⟨hlength, fun i hi hi' => ?_⟩⟩
  have hi'' : i < gs.length := hgs.length_eq ▸ hi
  obtain ⟨h, hsame, hh, hd⟩ := hl.get hi'' hi'
  exact (hgs.gathers.get hi'' hi).beq hr hd (hgs.linked _ (List.get_mem ..)) hh
    (members_eq_iff.1 hsame.symm)

/-- Labels tell the tubes of a list apart, and a list in another order has the same labels in some
order. -/
theorem exists_labels {tubes tubes' : List (TubeVector Interval)} (hperm : tubes.Perm tubes') :
    ∃ as bs : List (TubeVector Interval × ℕ), as.Nodup ∧ bs.Perm as ∧ as.map (·.1) = tubes ∧
      bs.map (·.1) = tubes' := by
  have hlabels : tubes.zipIdx.map (·.1) = tubes := List.zipIdx_map_fst 0 tubes
  have hfst : List.Forall₂ (fun x (a : TubeVector Interval × ℕ) => x = a.1) tubes tubes.zipIdx := by
    rw [← List.forall₂_map_right_iff (R := Eq), hlabels, List.forall₂_eq_eq_eq]
  obtain ⟨bs, hbs, hperm'⟩ := List.perm_comp_forall₂ hperm.symm hfst
  refine ⟨tubes.zipIdx, bs, (List.nodup_zipIdx_map_snd tubes).of_map, hperm', hlabels, ?_⟩
  rw [← List.forall₂_map_right_iff (R := Eq), List.forall₂_eq_eq_eq] at hbs
  exact hbs.symm

/-- The clusters of tubes in any order are the same ones up to their order. -/
theorem cluster_perm {tubes tubes' : List (TubeVector Interval)} (htubes : Comparable tubes)
    (hperm : tubes.Perm tubes') : ∃ out out', cluster tubes = .ok out ∧ cluster tubes' = .ok out' ∧
      ∃ l, l.Perm out' ∧ List.Forall₂ (fun c d => (c == d) = true) out l := by
  obtain ⟨as, bs, hnodup, hlabels, rfl, rfl⟩ := exists_labels hperm
  cases as with
  | nil =>
    obtain rfl := hlabels.eq_nil
    exact ⟨[], [], rfl, rfl, [], .nil, .nil⟩
  | cons a as =>
    have hr := htubes.regular a.1 List.mem_cons_self
    have has : ∀ b ∈ a :: as, b.1.Continues a.1 := fun b hb =>
      htubes.continues List.mem_cons_self b.1 (List.mem_map_of_mem hb)
    obtain ⟨gs, out, hout, hgs, hsep⟩ := exists_cluster hr has
    obtain ⟨hs, out', hout', hhs, hsep'⟩ := exists_cluster hr fun b hb =>
      has b (hlabels.mem_iff.1 hb)
    refine ⟨out, out', hout _ (List.length_map _).ge, hout' _ (List.length_map _).ge, ?_⟩
    exact hgs.exists_perm hr ⟨hhs.gathers, hhs.linked, hhs.perm.trans hlabels⟩ hnodup hsep hsep'

/-- A chain of bands is one cluster from either end, although the passes differ. -/
theorem cluster_perm_chain : ∃ c d, (c == d) = true ∧
    cluster [band 0.0 1.0, band 2.0 3.0, band 1.0 2.0] = .ok [c] ∧
      cluster [band 1.0 2.0, band 2.0 3.0, band 0.0 1.0] = .ok [d] := by
  have hchain : Comparable [band 0.0 1.0, band 2.0 3.0, band 1.0 2.0] :=
    @comparable_bands [(0.0, 1.0), (2.0, 3.0), (1.0, 2.0)] (by decide)
  obtain ⟨out, out', hout, hout', l, hperm, hequal⟩ :=
    cluster_perm hchain (List.reverse_perm _).symm
  have hone : (cluster [band 0.0 1.0, band 2.0 3.0, band 1.0 2.0]).toOption.map List.length =
      some 1 := by decide +kernel
  rw [hout] at hone
  obtain ⟨c, rfl⟩ := List.length_eq_one_iff.1 (Option.some.inj hone)
  obtain ⟨d, rest, hcd, hrest, rfl⟩ := List.forall₂_cons_left_iff.1 hequal
  obtain rfl := List.forall₂_nil_left_iff.1 hrest
  obtain rfl := List.singleton_perm.1 hperm
  exact ⟨c, d, hcd, hout, hout'⟩

end FlowTube.Clustering
