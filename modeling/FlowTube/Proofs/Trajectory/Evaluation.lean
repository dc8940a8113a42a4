import FlowTube.Proofs.Computations
import FlowTube.Proofs.Tube.Conversion
import FlowTube.Trajectory

/-! Which questions a sampled trajectory answers. Samples that are accepted have one dimension and
finite times; they are put in order, and changes of the domain move them or leave some of them out.
An answer needs a sample: the dimension of an answer at a time without a value is read off the first
one. A restriction may leave the domain without a sample although a line between samples runs
through it, and then no question about a time of the domain has an answer. -/

namespace FlowTube

namespace Trajectory

variable {ι : Type} {points : List (Float × List Float)}
  {samples : Array (Float × List Float)} {x : Trajectory ι} {n : ℕ} {t : Float} {T : Interval}

/-! ### Accepted samples -/

/-- The samples sorted by the total order of their times. -/
def sort (points : List (Float × List Float)) : List (Float × List Float) :=
  points.mergeSort fun a b => Binary64.totalKey a.1 ≤ Binary64.totalKey b.1

/-- Samples in order of time, one at each time. -/
def inOrder (points : List (Float × List Float)) : List (Float × List Float) :=
  dropRepeated (sort points)

/-- Finite times, and values of one dimension. -/
def Acceptable (n : ℕ) (points : List (Float × List Float)) : Prop :=
  ∀ p ∈ points, p.1.isFinite = true ∧ p.2.length = n

theorem acceptable_pair {p q : Float × List Float} (hp : p.1.isFinite = true ∧ p.2.length = n)
    (hq : q.1.isFinite = true ∧ q.2.length = n) : Acceptable n [p, q] :=
  List.forall_mem_cons.2 ⟨hp, List.forall_mem_singleton.2 hq⟩

theorem checkSample_eq_ok {p : Float × List Float} :
    checkSample n p = .ok () ↔ p.1.isFinite = true ∧ p.2.length = n := by
  unfold checkSample
  split_ifs with htime hlength
  · exact iff_of_false (fun h => nomatch h) fun h => by simp [h.1] at htime
  · exact iff_of_false (fun h => nomatch h) fun h => by simp [h.2] at hlength
  · exact iff_of_true rfl ⟨by simpa using htime, by simpa using hlength⟩

/-- The trajectory through samples of dimension `n`. -/
def through (n : ℕ) (points : List (Float × List Float)) : Trajectory ι :=
  ⟨Interval.ofBounds (((inOrder points).head?.map (·.1)).getD 0.0)
    (((inOrder points).getLast?.map (·.1)).getD 0.0), n, .sampled (inOrder points).toArray⟩

theorem ofSamples_eq_ok : ofSamples points = .ok x ↔
    points ≠ [] ∧ ∃ n, 0 < n ∧ Acceptable n points ∧ x = through n points := by
  cases points with
  | nil => exact iff_of_false (fun h => nomatch h) fun h => h.1 rfl
  | cons p rest =>
    unfold ofSamples
    dsimp only
    split_ifs with hzero
    · refine iff_of_false (fun h => nomatch h) ?_
      rintro ⟨-, n, hpos, hpoints, -⟩
      have hdim := (hpoints p List.mem_cons_self).2
      simp only [beq_iff_eq] at hzero
      omega
    · refine Iff.trans bind_eq_ok ?_
      constructor
      · rintro ⟨⟨⟩, hcheck, hx⟩
        refine ⟨List.cons_ne_nil _ _, p.2.length, ?_, ?_, (Except.ok.inj hx).symm⟩
        · simpa [Nat.pos_iff_ne_zero] using hzero
        · exact fun q hq => checkSample_eq_ok.1 (forM_eq_ok.1 hcheck q hq)
      · rintro ⟨-, n, -, hpoints, rfl⟩
        obtain rfl := (hpoints p List.mem_cons_self).2
        exact ⟨(), forM_eq_ok.2 fun q hq => checkSample_eq_ok.2 (hpoints q hq), rfl⟩

theorem dropRepeated_sublist (points : List (Float × List Float)) :
    (dropRepeated points).Sublist points := by
  have hgo (last : Float) (points : List (Float × List Float)) :
      (dropRepeated.go last points).Sublist points := by
    induction points generalizing last with
    | nil => exact .slnil
    | cons p rest ih =>
      rw [dropRepeated.go]
      split_ifs
      · exact (ih last).cons p
      · exact (ih p.1).cons_cons p
  cases points with
  | nil => exact .slnil
  | cons p rest => exact (hgo p.1 rest).cons_cons p

theorem mem_sort {p : Float × List Float} : p ∈ sort points ↔ p ∈ points := List.mem_mergeSort

theorem mem_of_mem_inOrder {p : Float × List Float} (h : p ∈ inOrder points) : p ∈ points :=
  mem_sort.1 ((dropRepeated_sublist _).subset h)

theorem inOrder_ne_nil (h : points ≠ []) : inOrder points ≠ [] := by
  have hsorted : sort points ≠ [] := by
    rw [← List.length_pos_iff, sort, List.length_mergeSort, List.length_pos_iff]
    exact h
  unfold inOrder
  cases hsort : sort points with
  | nil => exact absurd hsort hsorted
  | cons p rest => exact List.cons_ne_nil _ _

/-! ### Answers -/

/-- The trajectory has samples of its dimension, over a domain that is empty or has a real. -/
structure Sampled (x : Trajectory ι) (samples : Array (Float × List Float)) : Prop where
  definition : x.definition = .sampled samples
  lengths : ∀ p ∈ samples, p.2.length = x.dimension
  domain : x.domain.Proper

theorem sampled_through (h : Acceptable n points) :
    Sampled (through n points : Trajectory ι) (inOrder points).toArray where
  definition := rfl
  lengths p hp := (h p (mem_of_mem_inOrder (List.mem_toArray.1 hp))).2
  domain := Interval.proper_ofBounds ..

section Questions

variable [Elementary ι]

theorem exists_interpolate (hsome : samples ≠ #[]) (hlengths : ∀ p ∈ samples, p.2.length = n) :
    ∃ box : Box ι, interpolate samples t = .ok box ∧ box.length = n := by
  obtain ⟨first, hfirst⟩ : ∃ first, samples[0]? = some first :=
    ⟨_, Array.getElem?_eq_getElem (Array.size_pos_iff.2 hsome)⟩
  have hnone : (List.replicate first.2.length (Enclosure.empty : ι)).length = n := by
    rw [List.length_replicate, hlengths first (Array.mem_of_getElem? hfirst)]
  simp only [interpolate, hfirst]
  generalize BinarySearch.partitionPoint (fun p => p.1 < t) samples = upper
  cases hafter : samples[upper]? with
  | none => exact ⟨_, rfl, hnone⟩
  | some after =>
    have hlen := hlengths after (Array.mem_of_getElem? hafter)
    dsimp only
    split_ifs with ht hupper
    · exact ⟨_, rfl, by rw [List.length_map, hlen]⟩
    · exact ⟨_, rfl, hnone⟩
    · cases hbefore : samples[upper - 1]? with
      | none => exact ⟨_, rfl, hnone⟩
      | some before =>
        refine ⟨_, rfl, ?_⟩
        rw [onLine, List.length_zipWith, hlen, hlengths before (Array.mem_of_getElem? hbefore),
          Nat.min_self]

/-- The samples from the start of `T` to its end, if they are in order. -/
def inside (samples : Array (Float × List Float)) (T : Interval) : List (Float × List Float) :=
  (samples.toList.drop (BinarySearch.partitionPoint (fun p => p.1 < T.lb) samples)).takeWhile
    fun p => p.1 ≤ T.ub

theorem mem_of_mem_inside {p : Float × List Float} (h : p ∈ inside samples T) : p ∈ samples :=
  Array.mem_def.2 (List.mem_of_mem_drop (List.takeWhile_subset _ h))

/-- The hulls of the sides with the values of samples. -/
def joinSamples (box : Box ι) (points : List (Float × List Float)) : Box ι :=
  points.foldl (fun acc p => List.zipWith (fun r v => r ∪ Enclosure.point v) acc p.2) box

theorem joinSamples_cons {p : Float × List Float} {box : Box ι} : joinSamples box (p :: points) =
    joinSamples (List.zipWith (fun r v => r ∪ Enclosure.point v) box p.2) points := rfl

theorem length_joinSamples {box : Box ι} (hbox : box.length = n)
    (hlengths : ∀ p ∈ points, p.2.length = n) : (joinSamples box points).length = n := by
  induction points generalizing box with
  | nil => exact hbox
  | cons p points ih =>
    rw [List.forall_mem_cons] at hlengths
    rw [joinSamples_cons]
    refine ih ?_ hlengths.2
    rw [List.length_zipWith, hbox, hlengths.1, Nat.min_self]

theorem evalSamples_eq {left right : Box ι} (hleft : interpolate samples T.lb = .ok left)
    (hright : interpolate samples T.ub = .ok right) : evalSamples samples T =
      .ok (if T.isDegenerate then left
        else joinSamples (List.zipWith (· ∪ ·) left right) (inside samples T)) := by
  rw [evalSamples, hleft]
  change (if T.isDegenerate then _ else _) = _
  split_ifs
  · rfl
  · rw [hright]
    rfl

theorem exists_evalSamples (hsome : samples ≠ #[]) (hlengths : ∀ p ∈ samples, p.2.length = n) :
    ∃ box : Box ι, evalSamples samples T = .ok box ∧ box.length = n := by
  obtain ⟨left, hleft, hleftlen⟩ := exists_interpolate (ι := ι) (t := T.lb) hsome hlengths
  obtain ⟨right, hright, hrightlen⟩ := exists_interpolate (ι := ι) (t := T.ub) hsome hlengths
  refine ⟨_, evalSamples_eq hleft hright, ?_⟩
  split_ifs
  · exact hleftlen
  · refine length_joinSamples ?_ fun p hp => hlengths p (mem_of_mem_inside hp)
    rw [List.length_zipWith, hleftlen, hrightlen, Nat.min_self]

/-- There is an answer if a sample is left or the time is not in the domain. -/
theorem Sampled.exists_eval (h : Sampled x samples)
    (hsome : samples ≠ #[] ∨ (T ∩ x.domain).isEmpty = true) :
    ∃ box, x.eval T = .ok box ∧ box.length = x.dimension := by
  unfold eval
  dsimp only
  split_ifs with hempty
  · exact ⟨_, rfl, List.length_replicate ..⟩
  · rw [h.definition]
    exact exists_evalSamples (hsome.resolve_right hempty) h.lengths

theorem Sampled.eval_of_empty (h : Sampled x #[]) (hT : (T ∩ x.domain).isEmpty = false) :
    x.eval T = .error .indexOutOfRange := by
  unfold eval
  dsimp only
  rw [if_neg (Bool.eq_false_iff.1 hT), h.definition]
  rfl

end Questions

/-- There is an answer to every question, with an interval or a number per component. -/
structure Answers (x : Trajectory Interval) : Prop where
  eval : ∀ T, ∃ box, x.eval T = .ok box ∧ box.length = x.dimension
  range : ∃ box, x.range = .ok box ∧ box.length = x.dimension
  valueAt : ∀ t, ∃ values, x.valueAt t = .ok values

theorem Sampled.answers_iff {x : Trajectory Interval} (h : Sampled x samples) :
    x.Answers ↔ samples ≠ #[] ∨ x.domain.isEmpty = true := by
  constructor
  · intro hanswers
    by_contra! hnone
    obtain ⟨rfl, hne⟩ := hnone
    rw [ne_eq, Bool.not_eq_true] at hne
    -- the whole domain is what is asked for
    have hself : (x.domain ∩ x.domain).isEmpty = false := by
      rcases h.domain with hempty | ⟨r, hr⟩
      · rw [hempty] at hne
        contradiction
      · exact Interval.isEmpty_of_mem (Interval.mem_inter hr hr)
    obtain ⟨box, hbox, -⟩ := hanswers.range
    rw [range, h.eval_of_empty hself] at hbox
    cases hbox
  · intro hsome
    have heval (T : Interval) : ∃ box, x.eval T = .ok box ∧ box.length = x.dimension := by
      refine h.exists_eval (hsome.imp_right fun hempty => ?_)
      rw [Interval.inter_of_isEmpty_right (of_decide_eq_true hempty)]
      rfl
    refine ⟨heval, heval _, fun t => ?_⟩
    unfold valueAt
    split_ifs
    · obtain ⟨box, hbox, -⟩ := heval (Interval.point t)
      rw [hbox]
      exact ⟨_, rfl⟩
    · exact ⟨_, rfl⟩

/-! ### Changes of the domain -/

/-- A change of the domain. -/
inductive Retiming
  | truncate (domain : Interval)
  | shift (amount : Float)

namespace Retiming

variable {changes : List Retiming}

/-- The trajectory after a change. -/
def run : Retiming → Trajectory ι → Trajectory ι
  | truncate domain, x => x.truncate domain
  | shift amount, x => x.shift amount

/-- The trajectory after several changes. -/
def runAll (changes : List Retiming) (x : Trajectory ι) : Trajectory ι :=
  changes.foldl (fun x c => c.run x) x

/-- No restriction. -/
def Shifts (changes : List Retiming) : Prop := ∀ c ∈ changes, ∃ amount, c = shift amount

/-- A change leaves samples, and a shift leaves as many as there were. -/
theorem sampled_run (h : Sampled x samples) (c : Retiming) :
    ∃ left, Sampled (c.run x) left ∧ (c.run x).dimension = x.dimension ∧
      ((∃ amount, c = shift amount) → left.size = samples.size) := by
  cases c with
  | truncate domain =>
    refine ⟨samples.filter fun p => (x.domain ∩ domain).contains p.1,
      ⟨by simp [run, Trajectory.truncate, h.definition], fun p hp => ?_, ?_⟩, rfl,
      fun hc => nomatch hc⟩
    · exact h.lengths p (Array.mem_filter.1 hp).1
    · exact Interval.proper_inter ..
  | shift amount =>
    refine ⟨samples.map fun p => (p.1 - amount, p.2),
      ⟨by simp [run, Trajectory.shift, h.definition], fun p hp => ?_, ?_⟩, rfl,
      fun _ => Array.size_map⟩
    · obtain ⟨q, hq, rfl⟩ := Array.mem_map.1 hp
      exact h.lengths q hq
    · exact Interval.proper_sub ..

theorem sampled_runAll (h : Sampled x samples) (changes : List Retiming) :
    ∃ left, Sampled (runAll changes x) left ∧ (runAll changes x).dimension = x.dimension ∧
      (Shifts changes → left.size = samples.size) := by
  induction changes generalizing x samples with
  | nil => exact ⟨samples, h, rfl, fun _ => rfl⟩
  | cons c changes ih =>
    obtain ⟨next, hnext, hdim, hsize⟩ := sampled_run h c
    obtain ⟨left, hleft, hdims, hsizes⟩ := ih hnext
    refine ⟨left, hleft, hdims.trans hdim, fun hshifts => ?_⟩
    obtain ⟨hc, hchanges⟩ := List.forall_mem_cons.1 hshifts
    rw [hsizes hchanges, hsize hc]

end Retiming

open Retiming (runAll)

/-- Accepted samples answer all questions after any changes of the domain, as long as a sample is
left or the domain is empty; shifts alone leave them all. Without a sample no question about a time
of the domain has an answer. -/
theorem answers_after_changes {x : Trajectory Interval} (h : ofSamples points = .ok x)
    (changes : List Retiming) : ∃ left, (runAll changes x).definition = .sampled left ∧
      (runAll changes x).dimension = x.dimension ∧
      ((runAll changes x).Answers ↔ left ≠ #[] ∨ (runAll changes x).domain.isEmpty = true) ∧
      (Retiming.Shifts changes → (runAll changes x).Answers) ∧
      (left = #[] → ∀ T, (T ∩ (runAll changes x).domain).isEmpty = false →
        (runAll changes x).eval T = .error .indexOutOfRange) := by
  obtain ⟨hne, n, -, hpoints, rfl⟩ := ofSamples_eq_ok.1 h
  obtain ⟨left, hleft, hdim, hsize⟩ := Retiming.sampled_runAll (sampled_through hpoints) changes
  refine ⟨left, hleft.definition, hdim, hleft.answers_iff, fun hshifts => ?_, ?_⟩
  · refine hleft.answers_iff.2 (Or.inl (Array.size_pos_iff.1 ?_))
    rw [hsize hshifts, List.size_toArray]
    exact List.length_pos_iff.2 (inOrder_ne_nil hne)
  · rintro rfl T hT
    exact hleft.eval_of_empty hT

/-! ### Two samples -/

theorem inOrder_two : inOrder [(0.0, [0.0]), (1.0, [1.0])] = [(0.0, [0.0]), (1.0, [1.0])] := by
  rw [inOrder, sort, List.mergeSort_of_pairwise]
  · rw [dropRepeated, dropRepeated.go, if_neg (by decide +kernel)]
    rfl
  · rw [List.pairwise_pair]
    decide +kernel

/-- From zero at the time 0 to one at the time 1. -/
def rising : Trajectory Interval := through 1 [(0.0, [0.0]), (1.0, [1.0])]

theorem ofSamples_rising : ofSamples [(0.0, [0.0]), (1.0, [1.0])] = .ok rising :=
  ofSamples_eq_ok.2
    ⟨List.cons_ne_nil _ _, 1, Nat.one_pos, acceptable_pair ⟨rfl, rfl⟩ ⟨rfl, rfl⟩, rfl⟩

theorem answers_after_shift : (runAll [.shift 1.0] rising).Answers := by
  obtain ⟨-, -, -, -, hshifts, -⟩ := answers_after_changes ofSamples_rising [.shift 1.0]
  exact hshifts (List.forall_mem_singleton.2 ⟨1.0, rfl⟩)

/-- The line between the two samples runs through the domain that is left, which has none. -/
theorem no_answer_between_samples : ofSamples [(0.0, [0.0]), (1.0, [1.0])] = .ok rising ∧
    (runAll [.truncate ⟨0.25, 0.75⟩] rising).domain.contains 0.5 = true ∧
    (runAll [.truncate ⟨0.25, 0.75⟩] rising).eval (Interval.point 0.5) =
      .error .indexOutOfRange ∧
    (runAll [.truncate ⟨0.25, 0.75⟩] rising).range = .error .indexOutOfRange := by
  have hdomain : (runAll [.truncate ⟨0.25, 0.75⟩] rising).domain = ⟨0.25, 0.75⟩ := by
    change Interval.ofBounds _ _ ∩ _ = _
    rw [inOrder_two]
    exact Interval.eq_of_bounds (by decide +kernel) (by decide +kernel)
  have hdefinition : (runAll [.truncate ⟨0.25, 0.75⟩] rising).definition = .sampled #[] := by
    refine congrArg Definition.sampled (Array.filter_eq_empty_iff.2 ?_)
    intro p hp
    rw [List.mem_toArray, inOrder_two] at hp
    change ¬(runAll [.truncate ⟨0.25, 0.75⟩] rising).domain.contains p.1 = true
    rw [hdomain]
    revert p
    rw [List.forall_mem_cons, List.forall_mem_singleton]
    decide +kernel
  have hnone : Sampled (runAll [.truncate ⟨0.25, 0.75⟩] rising) #[] :=
    ⟨hdefinition, fun p hp => absurd hp (Array.not_mem_empty p), Interval.proper_inter ..⟩
  refine ⟨ofSamples_rising, ?_, hnone.eval_of_empty ?_, hnone.eval_of_empty ?_⟩ <;> rw [hdomain] <;>
    decide +kernel

end Trajectory

end FlowTube
