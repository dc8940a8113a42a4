import FlowTube.Proofs.Contractor.Reach

/-! Picard boxes. The search ends with a box such that all that is reached from the entry, with
the slopes over the box, lies in the box again. A solution is in the result if and only if it
stays in that box. A continuous solution stays in it if the entry and all that is reached lie
in its interior. Where they touch the boundary it may leave: the first candidate is the entry
itself, and where the slopes vanish there, as those of the square root do at zero, it is
accepted, although a solution may rest at zero for any time and grow then. -/

namespace FlowTube

open Topology

variable {ι : Type} [Enclosure ι] [Membership ℝ ι] {X : ℝ → ℕ → ℝ}

/-- Every answer has one side per component. -/
def Dynamics.FillsDimension (f : Dynamics ι) : Prop :=
  ∀ t box tube v, f.applyOnTube t box tube = .ok v → v.length = f.dimension

/-- A solution over `t`: its slope between two times lies in what the dynamics give for a time
interval with both and a box that holds it in between. -/
def Dynamics.SolvedBy (f : Dynamics ι) (x : TubeVector ι) (t : Interval) (X : ℝ → ℕ → ℝ) : Prop :=
  ∀ r ∈ t, ∀ s ∈ t, r < s → ∀ (u : Interval) (box v : Box ι), r ∈ u → s ∈ u →
    box.length = f.dimension → (∀ q ∈ Set.Icc r s, box.Holds (X q)) →
    f.applyOnTube u box x = .ok v → v.Holds fun j => (X s j - X r j) / (s - r)

/-- Every side lies in the interior of the side at its place. -/
def Box.Inside (x y : Box ι) : Prop :=
  ∀ (j : ℕ) (a b : ι), x[j]? = some a → y[j]? = some b → {r : ℝ | r ∈ a} ⊆ interior {r : ℝ | r ∈ b}

variable {f : Dynamics ι} {x : TubeVector ι} {t : Interval} {entry guess next : Box ι}
  {forward : Bool} {boxes : Box ι × Box ι}

omit [Enclosure ι] in
/-- The slopes of a solution while it is in a box. -/
theorem Dynamics.SolvedBy.hasSlopes (hX : f.SolvedBy x t X) {times : Set ℝ}
    (hconn : times.OrdConnected) (htimes : ∀ r ∈ times, r ∈ t) {box v : Box ι}
    (hlen : box.length = f.dimension) (hbox : ∀ r ∈ times, box.Holds (X r))
    (hv : f.applyOnTube t box x = .ok v) (j : ℕ) (w : ι) (hw : v[j]? = some w) :
    HasSlopes (fun r => X r j) w times := fun r hr s hs hrs =>
  hX r (htimes r hr) s (htimes s hs) hrs t box v (htimes r hr) (htimes s hs) hlen
    (fun q hq => hbox q (hconn.out hr hs hq)) hv j w hw

/-! ### Time along a span -/

namespace Interval

/-- The time at which `d` has passed from the origin of a span on. -/
noncomputable def along (t : Interval) (forward : Bool) (d : ℝ) : ℝ :=
  if forward then t.origin forward + d else t.origin forward - d

variable {d r : ℝ}

theorem along_passed (t : Interval) (forward : Bool) (r : ℝ) :
    t.along forward (passed forward (t.origin forward) r) = r := by
  cases forward with
  | true => exact add_sub_cancel _ _
  | false => exact sub_sub_cancel _ _

theorem passed_along (t : Interval) (forward : Bool) (d : ℝ) :
    passed forward (t.origin forward) (t.along forward d) = d := by
  cases forward with
  | true => exact add_sub_cancel_left _ _
  | false => exact sub_sub_cancel _ _

theorem along_zero (t : Interval) (forward : Bool) : t.along forward 0 = t.origin forward := by
  cases forward with
  | true => exact add_zero _
  | false => exact sub_zero _

theorem continuous_along (t : Interval) (forward : Bool) : Continuous (t.along forward) := by
  cases forward with
  | true => exact continuous_const.add continuous_id
  | false => exact continuous_const.sub continuous_id

/-- A time between the origin and another one has passed before. -/
theorem passed_mem_Icc (hr : r ∈ Set.uIcc (t.origin forward) (t.along forward d)) (hd : 0 ≤ d) :
    passed forward (t.origin forward) r ∈ Set.Icc 0 d := by
  cases forward with
  | true =>
    change r ∈ Set.uIcc (t.origin true) (t.origin true + d) at hr
    rw [Set.uIcc_of_le (by linarith)] at hr
    exact ⟨sub_nonneg.2 hr.1, sub_le_iff_le_add'.2 hr.2⟩
  | false =>
    change r ∈ Set.uIcc (t.origin false) (t.origin false - d) at hr
    rw [Set.uIcc_of_ge (by linarith)] at hr
    exact ⟨sub_nonneg.2 hr.2, sub_le_comm.1 hr.1⟩

/-- The time passed from end to end. -/
noncomputable def duration (t : Interval) : ℝ := Binary64.real t.ub - Binary64.real t.lb

theorem IsSpan.along_mem_iff (h : t.IsSpan) :
    t.along forward d ∈ t ↔ d ∈ Set.Icc 0 t.duration := by
  rw [h.mem_iff, duration]
  cases forward with
  | true =>
    change Binary64.real t.lb + d ∈ Set.Icc _ _ ↔ _
    exact ⟨fun hd => ⟨by linarith [hd.1], by linarith [hd.2]⟩,
      fun hd => ⟨by linarith [hd.1], by linarith [hd.2]⟩⟩
  | false =>
    change Binary64.real t.ub - d ∈ Set.Icc _ _ ↔ _
    exact ⟨fun hd => ⟨by linarith [hd.2], by linarith [hd.1]⟩,
      fun hd => ⟨by linarith [hd.2], by linarith [hd.1]⟩⟩

end Interval

namespace Box

omit [Membership ℝ ι] in
theorem isSubset_getElem? {x y : Box ι} (h : Box.isSubset x y = true) {j : ℕ} {a b : ι}
    (ha : x[j]? = some a) (hb : y[j]? = some b) : Enclosure.isSubset a b = true :=
  List.all_eq_true.1 h _
    (List.mem_of_getElem? (List.getElem?_zipWith_eq_some.2 ⟨a, b, ha, hb, rfl⟩))

omit [Membership ℝ ι] in
theorem isEmpty_getElem? {x : Box ι} (h : Box.isBounded x = true) {j : ℕ} {a : ι}
    (ha : x[j]? = some a) : Enclosure.isEmpty a = false := by
  have hbounded := List.all_eq_true.1 h a (List.mem_of_getElem? ha)
  rw [Enclosure.isBounded, Bool.and_eq_true, Bool.not_eq_true'] at hbounded
  exact hbounded.1

section Paths

variable {box : Box ι} {Y : ℝ → ℕ → ℝ} {times : Set ℝ}

/-- The times at which a continuous path is in a box. -/
theorem isClosed_holds [Enclosure.Lawful ι] (htimes : IsClosed times)
    (hY : ∀ j < box.length, ContinuousOn (fun d => Y d j) times) :
    IsClosed ({d | box.Holds (Y d)} ∩ times) := by
  have heq : {d | box.Holds (Y d)} ∩ times = times ∩ ⋂ (j : ℕ) (b : ι) (_ : box[j]? = some b),
      times ∩ Set.preimage (fun d => Y d j) {r : ℝ | r ∈ b} := by
    ext d
    simp only [Set.mem_inter_iff, Set.mem_iInter]
    exact ⟨fun hd => ⟨hd.2, fun j b hb => ⟨hd.2, hd.1 j b hb⟩⟩,
      fun hd => ⟨fun j b hb => (hd.2 j b hb).2, hd.1⟩⟩
  rw [heq]
  exact htimes.inter (isClosed_iInter fun j => isClosed_iInter fun b => isClosed_iInter fun hb =>
    (hY j (List.getElem?_eq_some_iff.1 hb).1).preimage_isClosed_of_isClosed htimes
      (Enclosure.Lawful.isClosed_members b))

omit [Enclosure ι] in
/-- A continuous path in the interior of a box stays there for a while. -/
theorem eventually_holds {d : ℝ}
    (hY : ∀ j < box.length, ContinuousWithinAt (fun d => Y d j) times d)
    (hd : ∀ (j : ℕ) (b : ι), box[j]? = some b → Y d j ∈ interior {r : ℝ | r ∈ b}) :
    ∀ᶠ q in 𝓝[times] d, box.Holds (Y q) := by
  have hside : ∀ j ∈ Set.Iio box.length, ∀ᶠ q in 𝓝[times] d, ∀ b, box[j]? = some b → Y q j ∈ b := by
    intro j hj
    have hb := List.getElem?_eq_getElem hj
    have hnear := (hY j hj).preimage_mem_nhdsWithin (mem_interior_iff_mem_nhds.1 (hd j _ hb))
    filter_upwards [hnear] with q hq b hb'
    obtain rfl := Option.some.inj (hb.symm.trans hb')
    exact hq
  filter_upwards [(Filter.eventually_all_finite (Set.finite_Iio _)).2 hside] with q hq j b hb
  exact hq j (List.getElem?_eq_some_iff.1 hb).1 b hb

end Paths

end Box

namespace Picard

/-- The candidate `guess` is accepted: `next` is reached from the entry with the slopes over it
and lies in it, and the result is what is reached with the slopes over `next`. -/
structure Accepted (f : Dynamics ι) (x : TubeVector ι) (t : Interval) (entry : Box ι)
    (forward : Bool) (guess next : Box ι) (boxes : Box ι × Box ι) : Prop where
  length : guess.length = f.dimension
  reached : ∃ v, f.applyOnTube t guess x = .ok v ∧
    next = Box.step forward entry v (Enclosure.elapsed t)
  bounded : Box.isBounded next = true
  subset : Box.isSubset next guess = true
  result : ∃ v, f.applyOnTube t next x = .ok v ∧
    boxes.1 = Box.inter (Box.step forward entry v (Enclosure.elapsed t)) next ∧
    boxes.2 = Box.inter (Box.step forward entry v (Enclosure.width t)) boxes.1

omit [Membership ℝ ι] in
/-- The search returns a box only for an accepted candidate. -/
theorem exists_accepted_of_search (hf : f.FillsDimension) (hentry : entry.length = f.dimension)
    {delta : Float} {tries : ℕ} (hguess : guess.length = f.dimension)
    (h : search delta f x t entry forward tries guess = .ok (some boxes)) :
    ∃ guess next, Accepted f x t entry forward guess next boxes := by
  induction tries generalizing guess with
  | zero => exact absurd (Except.ok.inj h) (Option.some_ne_none boxes).symm
  | succ tries ih =>
    obtain ⟨v, hv, h⟩ := bind_eq_ok.1 h
    dsimp only at h
    split_ifs at h with hbounded hsubset
    · exact absurd (Except.ok.inj h) (Option.some_ne_none boxes).symm
    · obtain ⟨w, hw, h⟩ := bind_eq_ok.1 h
      obtain rfl := Option.some.inj (Except.ok.inj h)
      exact ⟨guess, _, hguess, ⟨v, hv, rfl⟩, by simpa using hbounded, hsubset, w, hw, rfl, rfl⟩
    · refine ih ?_ h
      rw [List.length_zipWith, Box.length_step ((hf _ _ _ _ hv).trans hentry.symm), hentry, hguess,
        min_self]

section Search

variable {delta : Float} {n : ℕ} {v w : Box ι}

omit [Membership ℝ ι] in
theorem search_accept (hv : f.applyOnTube t guess x = .ok v)
    (hnext : Box.step forward entry v (Enclosure.elapsed t) = next)
    (hbounded : Box.isBounded next = true) (hsubset : Box.isSubset next guess = true)
    (hw : f.applyOnTube t next x = .ok w) :
    search delta f x t entry forward (n + 1) guess =
      let codomain := Box.inter (Box.step forward entry w (Enclosure.elapsed t)) next
      .ok (some (codomain,
        Box.inter (Box.step forward entry w (Enclosure.width t)) codomain)) := by
  rw [search, hv]
  change (if !Box.isBounded (Box.step forward entry v (Enclosure.elapsed t)) then _ else _) = _
  rw [hnext, hbounded, if_neg (by decide), if_pos hsubset, hw]
  rfl

omit [Membership ℝ ι] in
theorem search_reject (hv : f.applyOnTube t guess x = .ok v)
    (hnext : Box.step forward entry v (Enclosure.elapsed t) = next)
    (hbounded : Box.isBounded next = true) (hsubset : Box.isSubset next guess = false) :
    search delta f x t entry forward (n + 1) guess =
      search delta f x t entry forward n
        (List.zipWith (fun n g => Enclosure.grow delta (n ∪ g)) next guess) := by
  rw [search, hv]
  change (if !Box.isBounded (Box.step forward entry v (Enclosure.elapsed t)) then _ else _) = _
  rw [hnext, hbounded, if_neg (by decide), hsubset, if_neg Bool.false_ne_true]

end Search

/-! ### Solutions in the candidate -/

namespace Accepted

omit [Membership ℝ ι] in
theorem length_next (h : Accepted f x t entry forward guess next boxes) (hf : f.FillsDimension)
    (hentry : entry.length = f.dimension) : next.length = f.dimension := by
  obtain ⟨v, hv, rfl⟩ := h.reached
  exact (Box.length_step ((hf _ _ _ _ hv).trans hentry.symm)).trans hentry

omit [Membership ℝ ι] in
theorem length_result (h : Accepted f x t entry forward guess next boxes) (hf : f.FillsDimension)
    (hentry : entry.length = f.dimension) :
    boxes.1.length = f.dimension ∧ boxes.2.length = f.dimension := by
  obtain ⟨v, hv, hcod, hexit⟩ := h.result
  have hstep {d : ι} : (Box.step forward entry v d).length = f.dimension :=
    (Box.length_step ((hf _ _ _ _ hv).trans hentry.symm)).trans hentry
  have hfirst : boxes.1.length = f.dimension := by
    rw [hcod, Box.length_inter ((h.length_next hf hentry).trans hstep.symm), hstep]
  exact ⟨hfirst, by rw [hexit, Box.length_inter (hfirst.trans hstep.symm), hstep]⟩

variable [Enclosure.Sound ι]

/-- What lies in the result lies in the candidate. -/
theorem holds_guess (h : Accepted f x t entry forward guess next boxes) (hf : f.FillsDimension)
    (hentry : entry.length = f.dimension) {p : ℕ → ℝ} (hp : boxes.1.Holds p) : guess.Holds p := by
  intro j b hb
  have hj : j < f.dimension := h.length ▸ (List.getElem?_eq_some_iff.1 hb).1
  have hnext := List.getElem?_eq_getElem (hj.trans_eq (h.length_next hf hentry).symm)
  obtain ⟨v, hv, hcod, -⟩ := h.result
  have hstep {d : ι} : j < (Box.step forward entry v d).length := by
    rwa [Box.length_step ((hf _ _ _ _ hv).trans hentry.symm), hentry]
  have hsubset := Box.isSubset_getElem? h.subset hnext hb
  rw [hcod] at hp
  exact Enclosure.Lawful.mem_of_isSubset hsubset
    (Enclosure.Lawful.mem_of_mem_inter (Box.isEmpty_getElem? h.bounded hnext) hsubset
      (hp j _ (List.getElem?_zipWith_eq_some.2 ⟨_, _, List.getElem?_eq_getElem hstep, hnext, rfl⟩)))

/-- A solution that stays in the candidate is in the result. -/
theorem holds_result (h : Accepted f x t entry forward guess next boxes) (hf : f.FillsDimension)
    (hentry : entry.length = f.dimension) (ht : t.IsSpan) (hX : f.SolvedBy x t X)
    (hstart : entry.Holds (X (t.origin forward))) (hstays : guess.HoldsOver t X) :
    boxes.1.HoldsOver t X ∧ boxes.2.Holds (X (t.target forward)) := by
  have hconn : {r : ℝ | r ∈ t}.OrdConnected := by
    rw [show {r : ℝ | r ∈ t} = Set.Icc _ _ from Set.ext fun r => ht.mem_iff]
    exact Set.ordConnected_Icc
  have hnext : next.HoldsOver t X := by
    obtain ⟨v, hv, rfl⟩ := h.reached
    exact (Box.holdsOver_step ht hstart (hX.hasSlopes hconn (fun _ hr => hr) h.length hstays hv)).1
  obtain ⟨v, hv, hcod, hexit⟩ := h.result
  obtain ⟨hover, hend⟩ := Box.holdsOver_step ht hstart
    (hX.hasSlopes hconn (fun _ hr => hr) (h.length_next hf hentry) hnext hv)
  have hfirst : boxes.1.HoldsOver t X := hcod ▸ hover.inter hnext
  exact ⟨hfirst, hexit ▸ hend.inter (hfirst _ (ht.target_mem forward))⟩

/-- A solution that has been in the candidate up to some time is in `next` at that time. -/
theorem holds_next (h : Accepted f x t entry forward guess next boxes) (ht : t.IsSpan)
    (hX : f.SolvedBy x t X) (hstart : entry.Holds (X (t.origin forward))) {d : ℝ} (h0 : 0 < d)
    (hd : d ∈ Set.Icc 0 t.duration)
    (hbefore : ∀ q ∈ Set.Icc 0 d, guess.Holds (X (t.along forward q))) :
    next.Holds (X (t.along forward d)) := by
  obtain ⟨v, hv, rfl⟩ := h.reached
  have hmem : t.along forward d ∈ t := ht.along_mem_iff.2 hd
  have htimes : (Set.uIcc (t.origin forward) (t.along forward d)).Nontrivial := by
    refine ⟨_, Set.left_mem_uIcc, _, Set.right_mem_uIcc, fun heq => h0.ne ?_⟩
    have hpassed := congrArg (Interval.passed forward (t.origin forward))
      ((t.along_zero forward).trans heq)
    rwa [t.passed_along, t.passed_along] at hpassed
  have hbetween : ∀ r ∈ Set.uIcc (t.origin forward) (t.along forward d),
      r ∈ t ∧ guess.Holds (X r) := by
    intro r hr
    have hq := Interval.passed_mem_Icc hr h0.le
    rw [← t.along_passed forward r]
    exact ⟨ht.along_mem_iff.2 ⟨hq.1, hq.2.trans hd.2⟩, hbefore _ hq⟩
  refine Box.holds_step hstart (ht.passed_mem_elapsed forward hmem) fun j w hw => ?_
  exact (hX.hasSlopes Set.ordConnected_uIcc (fun r hr => (hbetween r hr).1) h.length
    (fun r hr => (hbetween r hr).2) hv j w hw).exists_slope htimes Set.left_mem_uIcc
    Set.right_mem_uIcc

/-- While a solution has stayed in the candidate, it is in the interior, if the entry and `next`
are. -/
theorem mem_interior (h : Accepted f x t entry forward guess next boxes) (hf : f.FillsDimension)
    (hentry : entry.length = f.dimension) (ht : t.IsSpan) (hX : f.SolvedBy x t X)
    (hstart : entry.Holds (X (t.origin forward))) (hinside : entry.Inside guess)
    (hnext : next.Inside guess) {d : ℝ} (hd : d ∈ Set.Icc 0 t.duration)
    (hbefore : 0 < d → ∀ q ∈ Set.Icc 0 d, guess.Holds (X (t.along forward q))) {j : ℕ} {b : ι}
    (hb : guess[j]? = some b) : X (t.along forward d) j ∈ interior {r : ℝ | r ∈ b} := by
  have hj : j < f.dimension := h.length ▸ (List.getElem?_eq_some_iff.1 hb).1
  rcases hd.1.eq_or_lt with rfl | h0
  · have he := List.getElem?_eq_getElem (hj.trans_eq hentry.symm)
    rw [t.along_zero]
    exact hinside j _ b he hb (hstart j _ he)
  · have hn := List.getElem?_eq_getElem (hj.trans_eq (h.length_next hf hentry).symm)
    exact hnext j _ b hn hb (h.holds_next ht hX hstart h0 hd (hbefore h0) j _ hn)

/-- A continuous solution stays in the candidate if the entry and `next` lie inside it. -/
theorem holdsOver_guess (h : Accepted f x t entry forward guess next boxes)
    (hf : f.FillsDimension) (hentry : entry.length = f.dimension) (ht : t.IsSpan)
    (hX : f.SolvedBy x t X) (hstart : entry.Holds (X (t.origin forward)))
    (hcont : ∀ j < f.dimension, ContinuousOn (fun r => X r j) {r | r ∈ t})
    (hinside : entry.Inside guess) (hnext : next.Inside guess) : guess.HoldsOver t X := by
  have hpath (j : ℕ) (hj : j < guess.length) :
      ContinuousOn (fun d => X (t.along forward d) j) (Set.Icc 0 t.duration) :=
    (hcont j (h.length ▸ hj)).comp (t.continuous_along forward).continuousOn
      fun d hd => ht.along_mem_iff.2 hd
  have hzero : guess.Holds (X (t.along forward 0)) := fun j b hb =>
    interior_subset (h.mem_interior hf hentry ht hX hstart hinside hnext
      ⟨le_rfl, sub_nonneg.2 ht.lt.le⟩ (fun h0 => absurd h0 (lt_irrefl 0)) hb)
  -- induction along the span: the set of good times is closed, and open to the right
  have hall := (Box.isClosed_holds isClosed_Icc hpath).Icc_subset_of_forall_mem_nhdsGT_of_Icc_subset
    hzero fun d hd hbefore => by
      refine nhdsWithin_le_of_mem (Icc_mem_nhdsGT_of_mem hd) ?_
      exact Box.eventually_holds (fun j hj => hpath j hj d ⟨hd.1, hd.2.le⟩) fun j b hb =>
        h.mem_interior hf hentry ht hX hstart hinside hnext ⟨hd.1, hd.2.le⟩ (fun _ => hbefore) hb
  intro r hr
  rw [← t.along_passed forward r] at hr ⊢
  exact hall (ht.along_mem_iff.1 hr)

end Accepted

end Picard

/-- The exact condition under which a Picard box has a solution, for any operators that contain
the exact results: a solution that starts in the entry is in the result, and at its end in the
exit, if and only if it stays in the accepted candidate. If it is continuous, and the entry and
all that is reached lie in the interior of the candidate, it does. -/
theorem Picard.enclosure_keeps_iff_stays {o : Operators} (ho : o.Sound) {p : Picard}
    {f : Dynamics (Rounded o)} {x : TubeVector (Rounded o)} {t : Interval}
    {entry codomain exit : Box (Rounded o)} {forward : Bool} (ht : t.IsSpan)
    (hf : f.FillsDimension) (hentry : entry.length = f.dimension)
    (h : p.enclosure f x t entry forward = .ok (some (codomain, exit))) :
    codomain.length = f.dimension ∧ exit.length = f.dimension ∧
      ∃ guess next, Accepted f x t entry forward guess next (codomain, exit) ∧
        ∀ X : ℝ → ℕ → ℝ, f.SolvedBy x t X → entry.Holds (X (t.origin forward)) →
          (codomain.HoldsOver t X ∧ exit.Holds (X (t.target forward)) ↔ guess.HoldsOver t X) ∧
          ((∀ j < f.dimension, ContinuousOn (fun r => X r j) {r | r ∈ t}) →
            entry.Inside guess → next.Inside guess →
            codomain.HoldsOver t X ∧ exit.Holds (X (t.target forward))) := by
  have := Rounded.sound ho
  obtain ⟨guess, next, hacc⟩ := exists_accepted_of_search hf hentry hentry h
  have hlen := hacc.length_result hf hentry
  refine ⟨hlen.1, hlen.2, guess, next, hacc, fun X hX hstart => ⟨⟨fun hkept r hr => ?_, ?_⟩, ?_⟩⟩
  · exact hacc.holds_guess hf hentry (hkept.1 r hr)
  · exact hacc.holds_result hf hentry ht hX hstart
  · intro hcont hinside hnext
    exact hacc.holds_result hf hentry ht hX hstart
      (hacc.holdsOver_guess hf hentry ht hX hstart hcont hinside hnext)

/-! ### A solution inside its box, and one that leaves it -/

namespace Picard

open FlowTube.Dynamics (steady)
open FlowTube.Interval (point unit mem_unit mem_point_zero mem_point_one)

/-- The box of one number. -/
def only (a : Float) : Box (Rounded .cautious) := [point a]

theorem isSpan_unit : unit.IsSpan := by
  refine ⟨rfl, rfl, ?_⟩
  rw [show unit.lb = 0.0 from rfl, show unit.ub = 1.0 from rfl, Binary64.real_zero,
    Binary64.real_one]
  exact zero_lt_one

theorem width_unit : (Enclosure.width unit : Rounded .cautious) = point 1.0 :=
  Operators.cautious_sub_zero rfl

theorem elapsed_unit : (Enclosure.elapsed unit : Rounded .cautious) = unit := by
  rw [Enclosure.elapsed, width_unit]
  rfl

/-- From zero, a time with slope zero. -/
theorem step_zero {h : Interval} (hmul : Operators.standard.mul h (point 0.0) = point 0.0) :
    Box.step true (only 0.0) (only 0.0) (show Rounded .cautious from h) = only 0.0 := by
  have hmul' : Operators.cautious.mul h (point 0.0) = point 0.0 := by
    refine Operators.guarded_eq hmul fun r _ s hs => ?_
    rw [mem_point_zero.1 hs]
    exact mem_point_zero.2 (mul_zero r)
  have hadd : Operators.cautious.add (point 0.0) (point 0.0) = point 0.0 :=
    Operators.cautious_zero_add rfl
  change [Operators.cautious.add (point 0.0) (Operators.cautious.mul h (point 0.0))] = [point 0.0]
  rw [hmul', hadd]

/-- From zero, a time with slope one. -/
theorem step_one {h : Interval} (hmul : Operators.standard.mul h (point 1.0) = h)
    (hadd : Operators.standard.add (point 0.0) h = h) :
    Box.step true (only 0.0) (only 1.0) (show Rounded .cautious from h) = [h] := by
  change [Operators.cautious.add (point 0.0) (Operators.cautious.mul h (point 1.0))] = [h]
  rw [Operators.cautious_mul_one hmul, Operators.cautious_zero_add hadd]

/-! #### Slope one -/

theorem solvedBy_steady (x : TubeVector (Rounded .cautious)) :
    (steady .cautious).SolvedBy x unit fun t _ => t :=
  fun _ _ _ _ hrs _ _ _ _ _ _ _ hv => Dynamics.holds_steady hv hrs

/-- The box of the unit interval. -/
def unitBox : Box (Rounded .cautious) := [unit]

/-- Zero alone is too narrow; the second candidate is accepted. -/
theorem enclosure_steady (x : TubeVector (Rounded .cautious)) :
    ({} : Picard).enclosure (steady .cautious) x unit (only 0.0) true =
      .ok (some (unitBox, only 1.0)) := by
  have helapsed : Box.step true (only 0.0) (only 1.0) (Enclosure.elapsed unit) = unitBox := by
    rw [elapsed_unit]
    exact step_one (Interval.eq_of_bounds (by decide +kernel) (by decide +kernel)) rfl
  have hwidth : Box.step true (only 0.0) (only 1.0) (Enclosure.width unit) = only 1.0 := by
    rw [width_unit]
    exact step_one (Interval.eq_of_bounds (by decide +kernel) (by decide +kernel)) rfl
  have hfirst : Box.isSubset unitBox (only 0.0) = false := by decide +kernel
  have hsecond : Box.isSubset unitBox
      (List.zipWith (fun n g => Enclosure.grow 1.1 (n ∪ g)) unitBox (only 0.0)) = true := by
    decide +kernel
  have hsteady (box : Box (Rounded .cautious)) :
      (steady .cautious).applyOnTube unit box x = .ok (only 1.0) := rfl
  change search 1.1 (steady .cautious) x unit (only 0.0) true (48 + 1 + 1) (only 0.0) = _
  rw [search_reject (hsteady _) helapsed rfl hfirst,
    search_accept (hsteady _) helapsed rfl hsecond (hsteady _), helapsed, hwidth]
  rfl

theorem enclosure_keeps_iff_stays_steady :
    let x : TubeVector (Rounded .cautious) := ⟨[]⟩
    let X : ℝ → ℕ → ℝ := fun t _ => t
    (steady .cautious).SolvedBy x unit X ∧ Box.Holds (only 0.0) (X (unit.origin true)) ∧
      ({} : Picard).enclosure (steady .cautious) x unit (only 0.0) true =
        .ok (some (unitBox, only 1.0)) ∧
      ∃ guess next,
        Accepted (steady .cautious) x unit (only 0.0) true guess next (unitBox, only 1.0) ∧
        (unitBox.HoldsOver unit X ∧ (only 1.0).Holds (X (unit.target true)) ↔
          guess.HoldsOver unit X) := by
  intro x X
  have hX := solvedBy_steady x
  have hstart : Box.Holds (only 0.0) (X (unit.origin true)) := by
    intro j a ha
    obtain ⟨hj, rfl⟩ := List.getElem?_eq_some_iff.1 ha
    exact (Nat.lt_one_iff.1 hj) ▸ mem_point_zero.2 Binary64.real_zero
  obtain ⟨-, -, guess, next, hacc, hkept⟩ := enclosure_keeps_iff_stays Operators.sound_cautious
    isSpan_unit (fun _ _ _ _ hv => congrArg List.length (Except.ok.inj hv).symm) rfl
    (enclosure_steady x)
  exact ⟨hX, hstart, enclosure_steady x, guess, next, hacc, (hkept X hX hstart).1⟩

/-! #### The square root -/

/-- Wider boxes and times give wider answers. -/
def Isotone (f : Dynamics ι) : Prop :=
  ∀ (t t' : Interval) (box box' : Box ι) (x : TubeVector ι) (v v' : Box ι),
    (∀ r : ℝ, r ∈ t → r ∈ t') → List.Forall₂ (fun a b => ∀ r : ℝ, r ∈ a → r ∈ b) box box' →
    f.applyOnTube t box x = .ok v → f.applyOnTube t' box' x = .ok v' →
    List.Forall₂ (fun a b => ∀ r : ℝ, r ∈ a → r ∈ b) v v'

open Classical in
/-- An enclosure of the square root: zero at zero, the unit interval up to one. -/
noncomputable def rootBound (a : Interval) : Interval :=
  if ∀ r ∈ a, r ≤ 0 then point 0.0 else if ∀ r ∈ a, r ≤ 1 then unit else .nonneg

theorem mem_nonneg {r : ℝ} : r ∈ Interval.nonneg ↔ 0 ≤ r := by
  change Binary64.IsLower 0.0 r ∧ Binary64.IsUpper Binary64.inf r ↔ _
  rw [Binary64.isLower_iff_of_isFinite rfl, Binary64.real_zero]
  exact and_iff_left ⟨rfl, le_top⟩

theorem sqrt_mem_rootBound {a : Interval} {r : ℝ} (hr : r ∈ a) : √r ∈ rootBound a := by
  unfold rootBound
  split_ifs with hzero hone
  · exact mem_point_zero.2 (Real.sqrt_eq_zero_of_nonpos (hzero r hr))
  · exact mem_unit.2 ⟨Real.sqrt_nonneg r, Real.sqrt_le_one.2 (hone r hr)⟩
  · exact mem_nonneg.2 (Real.sqrt_nonneg r)

/-- Small slopes are enclosed where there is a positive state. -/
theorem mem_rootBound {a : Interval} {q r : ℝ} (hq : q ∈ a) (hpos : 0 < q) (h0 : 0 ≤ r)
    (h1 : r ≤ 1) : r ∈ rootBound a := by
  unfold rootBound
  rw [if_neg fun hzero => hpos.not_ge (hzero q hq)]
  split_ifs
  · exact mem_unit.2 ⟨h0, h1⟩
  · exact mem_nonneg.2 h0

theorem rootBound_mono {a b : Interval} (hab : ∀ r : ℝ, r ∈ a → r ∈ b) {r : ℝ}
    (hr : r ∈ rootBound a) : r ∈ rootBound b := by
  unfold rootBound at hr ⊢
  split_ifs with hb hb'
  · rwa [if_pos fun q hq => hb q (hab q hq)] at hr
  · split_ifs at hr with ha ha'
    · rw [mem_point_zero.1 hr]
      exact mem_unit.2 ⟨le_rfl, zero_le_one⟩
    · exact hr
    · exact absurd (fun q hq => hb' q (hab q hq)) ha'
  · split_ifs at hr
    · exact mem_nonneg.2 (mem_point_zero.1 hr).ge
    · exact mem_nonneg.2 (mem_unit.1 hr).1
    · exact hr

/-- The system whose slope is the square root of the state. -/
noncomputable def root : Dynamics (Rounded .cautious) where
  dimension := 1
  apply slots _ box := .ok (List.replicate slots (rootBound (box.headD Enclosure.empty)))
  applyOnTube _ box _ := .ok [rootBound (box.headD Enclosure.empty)]

theorem isotone_root : Isotone root := by
  intro t t' box box' x v v' _ hbox hv hv'
  obtain rfl := Except.ok.inj hv
  obtain rfl := Except.ok.inj hv'
  refine .cons (fun r => rootBound_mono ?_) .nil
  cases hbox with
  | nil => exact fun _ hq => hq
  | cons h _ => exact h

/-- A quarter of the square of the time starts at zero with slope zero, and grows. -/
theorem solvedBy_root (x : TubeVector (Rounded .cautious)) :
    root.SolvedBy x unit fun t _ => t ^ 2 / 4 := by
  intro r hr s hs hrs u box v _ _ hlen hbox hv j w hw
  obtain ⟨hr0, hr1⟩ := mem_unit.1 hr
  obtain ⟨hs0, hs1⟩ := mem_unit.1 hs
  obtain ⟨a, rfl⟩ := List.length_eq_one_iff.1 hlen
  obtain rfl := Except.ok.inj hv
  obtain ⟨hj, rfl⟩ := List.getElem?_eq_some_iff.1 hw
  obtain rfl : j = 0 := Nat.lt_one_iff.1 hj
  have hslope : (s ^ 2 / 4 - r ^ 2 / 4) / (s - r) = (s + r) / 4 := by
    field_simp [sub_ne_zero.2 hrs.ne']
    ring
  have hgrown : (0 : ℝ) < s ^ 2 / 4 := by
    have hpos : 0 < s := hr0.trans_lt hrs
    positivity
  have hmem := mem_rootBound (hbox s ⟨hrs.le, le_rfl⟩ 0 a rfl) hgrown
    (show 0 ≤ (s + r) / 4 by linarith) (by linarith)
  rwa [← hslope] at hmem

theorem enclosure_root (x : TubeVector (Rounded .cautious)) :
    ({} : Picard).enclosure root x unit (only 0.0) true = .ok (some (only 0.0, only 0.0)) := by
  have hroot : root.applyOnTube unit (only 0.0) x = .ok (only 0.0) := by
    have hzero : rootBound (point 0.0) = point 0.0 := if_pos fun r hr => (mem_point_zero.1 hr).le
    exact congrArg (fun a => Except.ok [a]) hzero
  have helapsed : Box.step true (only 0.0) (only 0.0) (Enclosure.elapsed unit) = only 0.0 := by
    rw [elapsed_unit]
    exact step_zero rfl
  have hwidth : Box.step true (only 0.0) (only 0.0) (Enclosure.width unit) = only 0.0 := by
    rw [width_unit]
    exact step_zero rfl
  change search 1.1 root x unit (only 0.0) true (49 + 1) (only 0.0) = _
  rw [search_accept hroot helapsed rfl rfl hroot, helapsed, hwidth]
  rfl

/-- A Picard box that has lost a solution: the dynamics enclose the square root and are isotone,
a continuous solution of them starts in the entry, and the box found for the entry is zero alone,
although the solution has grown to a quarter at the end. -/
theorem enclosure_loses_growing_root :
    Operators.cautious.Sound ∧ root.FillsDimension ∧ Isotone root ∧
      (∀ (a : Rounded .cautious) (t : Interval) (x : TubeVector (Rounded .cautious)) (r : ℝ),
        r ∈ a → ∃ b : Rounded .cautious, root.applyOnTube t [a] x = .ok [b] ∧ √r ∈ b) ∧
      ∃ (x : TubeVector (Rounded .cautious)) (X : ℝ → ℕ → ℝ), root.SolvedBy x unit X ∧
        (∀ j, Continuous fun t => X t j) ∧ Box.Holds (only 0.0) (X (unit.origin true)) ∧
        ({} : Picard).enclosure root x unit (only 0.0) true = .ok (some (only 0.0, only 0.0)) ∧
        ¬Box.Holds (only 0.0) (X (unit.target true)) := by
  refine ⟨Operators.sound_cautious, fun _ _ _ _ hv => congrArg List.length (Except.ok.inj hv).symm,
    isotone_root, fun a _ _ r hr => ⟨rootBound a, rfl, sqrt_mem_rootBound hr⟩, ⟨[]⟩, _,
    solvedBy_root _, fun j => ?_, fun j a ha => ?_, enclosure_root _, fun hkept => ?_⟩
  · exact (continuous_pow 2).div_const 4
  · obtain ⟨hj, rfl⟩ := List.getElem?_eq_some_iff.1 ha
    obtain rfl : j = 0 := Nat.lt_one_iff.1 hj
    refine mem_point_zero.2 ?_
    rw [Interval.origin, if_pos rfl, show unit.lb = 0.0 from rfl, Binary64.real_zero]
    norm_num
  · have hend := mem_point_zero.1 (hkept 0 _ rfl)
    rw [Interval.target, if_pos rfl, show unit.ub = 1.0 from rfl, Binary64.real_one] at hend
    norm_num at hend

end Picard

end FlowTube
