import FlowTube.Proofs.Search.Solutions

/-! The calls of the constraints over a whole search. A propagation calls them once for each pass,
and only the first pass may be incremental. The first propagation of a node is incremental if the
node came from a split, and then its news are at the time of the split; the propagations after a
refinement are not, and their news are at the start of the refined tube. So the record of a search
is the record of a tree: of each node its opening, its calls and, if it is split, the time of the
split and the records of both halves. The constraints may do anything to the tubes, as the record
depends on what they leave only through the shape of the tree. Without peeling there are no other
calls. Every split gives two nodes with one incremental call each. -/

namespace FlowTube

/-! ### Marks in the record -/

/-- A step of a search that tells of its nodes, its calls or its splits. -/
inductive Mark
  | opened (level : ℕ) (t : Float)
  | called (t0 : Float) (incremental : Bool)
  | bisected (t : Float)

namespace Mark

def call? : Mark → Option (Float × Bool)
  | called t0 incremental => some (t0, incremental)
  | _ => none

def isIncremental : Mark → Bool
  | called _ incremental => incremental
  | _ => false

end Mark

def Event.mark? : Event → Option Mark
  | .opened level t => some (.opened level t)
  | .called t0 incremental => some (.called t0 incremental)
  | .bisected t _ _ _ => some (.bisected t)
  | _ => none

namespace Journal

/-- The marks in order. -/
def marks (j : Journal) : List Mark := j.events.filterMap Event.mark?

theorem calls_eq_marks (j : Journal) : j.calls = j.marks.filterMap Mark.call? := by
  rw [marks, List.filterMap_filterMap, calls]
  congr 1
  funext e
  cases e <;> rfl

theorem countP_calls (j : Journal) : j.calls.countP (·.2) = j.marks.countP Mark.isIncremental := by
  rw [calls_eq_marks, List.countP_filterMap]
  congr 1
  funext m
  cases m <;> rfl

/-- A later journal has these marks and this number of bisections more. -/
structure Extends (j j' : Journal) (ms : List Mark) (k : ℕ) : Prop where
  marks : j'.marks = j.marks ++ ms
  bisections : j'.bisections = j.bisections + k

namespace Extends

variable {i j j' : Journal} {ms ns : List Mark} {m k : ℕ}

theorem refl (j : Journal) : j.Extends j [] 0 := ⟨(List.append_nil _).symm, rfl⟩

theorem trans (h : j.Extends i ms m) (h' : i.Extends j' ns k) :
    j.Extends j' (ms ++ ns) (m + k) where
  marks := by rw [h'.marks, h.marks, List.append_assoc]
  bisections := by rw [h'.bisections, h.bisections, Nat.add_assoc]

theorem record (j : Journal) (e : Event) :
    j.Extends { j with latest := e :: j.latest } e.mark?.toList 0 := by
  refine ⟨?_, rfl⟩
  simp only [Journal.marks, Journal.events, List.reverse_cons, List.filterMap_append]
  cases h : e.mark? <;> simp [h]

/-- What is neither an entry of the record nor a count of bisections may change. -/
theorem of_latest (hlatest : j'.latest = j.latest) (hcount : j'.bisections = j.bisections + k) :
    j.Extends j' [] k where
  marks := by rw [List.append_nil, Journal.marks, events, hlatest]; rfl
  bisections := hcount

end Extends

end Journal

namespace SearchM

variable {α β : Type} {P : List Mark → α → Prop} {Q : List Mark → β → Prop}

/-- The computation may give this answer. -/
def Leads (m : SearchM α) (a : α) : Prop := ∃ j j', m.run j = .ok (a, j')

/-- The marks that a computation adds to the record are as its answer says. It counts no
bisection. -/
def Adds (m : SearchM α) (P : List Mark → α → Prop) : Prop :=
  ∀ j a j', m.run j = .ok (a, j') → ∃ ms, j.Extends j' ms 0 ∧ P ms a

theorem adds_pure {a : α} (h : P [] a) : Adds (pure a) P := by
  intro j b j' hrun
  obtain ⟨rfl, rfl⟩ := run_pure_eq_ok.1 hrun
  exact ⟨[], .refl j, h⟩

theorem adds_bind {m : SearchM α} {f : α → SearchM β} (hm : Adds m P)
    (hf : ∀ ms a, Leads m a → P ms a → Adds (f a) fun ns b => Q (ms ++ ns) b) :
    Adds (m >>= f) Q := by
  intro j b j' hrun
  obtain ⟨a, i, ha, hb⟩ := run_bind_eq_ok.1 hrun
  obtain ⟨ms, hms, hP⟩ := hm j a i ha
  obtain ⟨ns, hns, hQ⟩ := hf ms a ⟨j, i, ha⟩ hP i b j' hb
  exact ⟨ms ++ ns, hms.trans hns, hQ⟩

theorem adds_throw (e : Error) : Adds (throw e : SearchM α) P := fun _ _ _ hrun => nomatch hrun

theorem adds_lift (x : Except Error α) : Adds (liftM x : SearchM α) fun ms _ => ms = [] := by
  intro j a j' hrun
  obtain ⟨-, rfl⟩ := run_lift_eq_ok.1 hrun
  exact ⟨[], .refl j, rfl⟩

theorem adds_record (e : Event) : Adds (record e) fun ms _ => ms = e.mark?.toList := by
  intro j a j' hrun
  obtain ⟨-, rfl⟩ := Prod.mk.inj (Except.ok.inj hrun)
  exact ⟨e.mark?.toList, .record j e, rfl⟩

theorem adds_draw (coins : ℕ → Bool) : Adds (draw coins) fun ms _ => ms = [] := by
  intro j a j' hrun
  obtain ⟨-, rfl⟩ := Prod.mk.inj (Except.ok.inj hrun)
  exact ⟨[], .of_latest rfl rfl, rfl⟩

theorem Adds.mono {m : SearchM α} {P' : List Mark → α → Prop} (hm : Adds m P)
    (h : ∀ ms a, P ms a → P' ms a) : Adds m P' := by
  intro j a j' hrun
  obtain ⟨ms, hms, hP⟩ := hm j a j' hrun
  exact ⟨ms, hms, h ms a hP⟩

theorem adds_bind_silent {m : SearchM α} {f : α → SearchM β} (hm : Adds m fun ms _ => ms = [])
    (hf : ∀ a, Leads m a → Adds (f a) Q) : Adds (m >>= f) Q := by
  refine adds_bind hm fun ms a ha hms => ?_
  subst hms
  exact hf a ha

/-- A computation that leaves no mark leaves the record as it was. -/
theorem Adds.extends_nil {m : SearchM α} (hm : Adds m fun ms _ => ms = []) {j j' : Journal} {a : α}
    (hrun : m.run j = .ok (a, j')) : j.Extends j' [] 0 := by
  obtain ⟨ms, hms, rfl⟩ := hm j a j' hrun
  exact hms

end SearchM

open SearchM

namespace Problem

variable {p : Problem} {step : ConstraintStep} {x : TubeVector Interval} {t0 : Float}
  {incremental : Bool}

/-! ### Calls of a propagation -/

/-- A call, and then some that are not incremental. -/
def callsAt (t0 : Float) (incremental : Bool) (n : ℕ) : List Mark :=
  .called t0 incremental :: List.replicate n (.called t0 false)

theorem adds_constrain (hc : p.constraints = some step) :
    Adds (p.constrain false t0 incremental x) fun ms _ => ms = callsAt t0 incremental 0 := by
  unfold constrain
  rw [hc]
  refine adds_bind (adds_record _) fun ms _ _ hms => ?_
  subst hms
  exact adds_bind_silent (adds_lift _) fun y _ => adds_pure rfl

theorem adds_pass (hc : p.constraints = some step) :
    Adds (p.pass false t0 incremental x) fun ms _ => ms = callsAt t0 incremental 0 := by
  unfold pass
  refine adds_bind (adds_constrain hc) fun ms r _ hms => ?_
  subst hms
  cases p.dynamics with
  | none => exact adds_pure rfl
  | some f =>
    dsimp only
    split_ifs
    · exact adds_pure rfl
    · refine (adds_lift _).mono fun ns y hns => ?_
      rw [hns, List.append_nil]

theorem adds_propagateLoop (hc : p.constraints = some step) (ratio : Float) (fuel : ℕ) :
    Adds (p.propagateLoop false ratio t0 fuel incremental x) fun ms _ =>
      ∃ n, ms = callsAt t0 incremental n := by
  -- each pass adds its call to those of the passes after it, which are not incremental
  induction fuel generalizing incremental x with
  | zero => exact adds_throw _
  | succ fuel ih =>
    unfold propagateLoop
    refine adds_bind (adds_pass hc) fun ms y _ hms => ?_
    subst hms
    have hdone : ∃ n, callsAt t0 incremental 0 ++ [] = callsAt t0 incremental n := ⟨0, rfl⟩
    dsimp only
    split
    · exact adds_pure hdone
    · refine adds_bind_silent (adds_lift _) fun thin _ => ?_
      split_ifs
      · exact adds_pure hdone
      · exact adds_pure hdone
      · refine ih.mono fun ns z hns => ?_
        obtain ⟨n, rfl⟩ := hns
        exact ⟨n + 1, rfl⟩

/-! ### Splits and solutions -/

theorem adds_accept (x : TubeVector Interval) : Adds (accept x) fun ms _ => ms = [] := by
  intro j a j' hrun
  obtain ⟨-, rfl⟩ := Prod.mk.inj (Except.ok.inj hrun)
  have hcount : j.Extends { j with accepted := j.accepted + 1 } [] 0 := .of_latest rfl rfl
  have hboth := hcount.trans
    (.record _ (.accepted (j.accepted + 1) x.volume x.maxDiam x.boundaryWidth))
  exact ⟨[], hboth, rfl⟩

theorem adds_bisectionTime (p : Problem) (x : TubeVector Interval) (level : ℕ) :
    Adds (p.bisectionTime x level) fun ms _ => ms = [] := by
  unfold bisectionTime
  cases p.settings.bisection with
  | maxGateDiam | disabled =>
    dsimp only
    split_ifs <;> exact adds_pure rfl
  | upperBound | lowerBound | alternate => exact adds_pure rfl
  | random =>
    refine adds_bind_silent (adds_draw p.coins) fun heads _ => ?_
    split_ifs <;> exact adds_pure rfl

/-- A split is counted before it is recorded. -/
theorem extends_bisect {level : ℕ} {j j' : Journal}
    {result : Except Error (Float × TubeVector Interval × TubeVector Interval)}
    (hrun : (p.bisect x level).run j = .ok (result, j')) :
    match result with
    | .ok _ => j.Extends j' [] 1
    | .error _ => j.Extends j' [] 0 := by
  obtain ⟨time, i, htime, -, rfl⟩ := bisect_cases hrun
  have hi := (adds_bisectionTime p x level).extends_nil htime
  cases result with
  | error e => exact hi
  | ok r =>
    have hcount : i.Extends { i with bisections := i.bisections + 1 } [] 1 := .of_latest rfl rfl
    exact hi.trans hcount

/-! ### The tree of nodes -/

/-- Rounds of refining and contracting, with their calls and the tube that they leave. -/
inductive Refinings (p : Problem) (fuel : ℕ) :
    TubeVector Interval → List Mark → TubeVector Interval → Prop
  | done (x : TubeVector Interval) : Refinings p fuel x [] x
  | refined {x y z w : TubeVector Interval} {ms : List Mark} (n : ℕ)
      (hrefine : Slicing.refine? p.settings.refining p.settings.maxSlices x = some y)
      (hcontract : Leads (p.contract fuel false y.domain.lb y) z)
      (hrest : Refinings p fuel z ms w) :
      Refinings p fuel x (callsAt y.domain.lb false n ++ ms) w

/-- A node with its calls and the tube that is left of it. -/
inductive Visited (p : Problem) (fuel : ℕ) (node : Node) :
    List Mark → TubeVector Interval → Prop
  | intro {x z : TubeVector Interval} {ms : List Mark} (n : ℕ)
      (hcontract : Leads (p.contract fuel (node.level > 0) node.time node.tube) x)
      (hrefinings : Refinings p fuel x ms z) :
      Visited p fuel node
        (.opened node.level node.time :: callsAt node.time (node.level > 0) n ++ ms) z

/-- A node and all that come from it: what they leave in the record, with the number of splits. -/
inductive Traced (p : Problem) (fuel : ℕ) : Node → List Mark → ℕ → Prop
  | leaf {node : Node} {ms : List Mark} {z : TubeVector Interval}
      (hnode : Visited p fuel node ms z) : Traced p fuel node ms 0
  | split {node : Node} {ms ns os : List Mark} {z a b : TubeVector Interval} {t : Float} {m k : ℕ}
      (hnode : Visited p fuel node ms z)
      (hsplit : Leads (p.bisect z node.level) (.ok (t, a, b)))
      (hfirst : Traced p fuel ⟨node.level + 1, t, a⟩ ns m)
      (hsecond : Traced p fuel ⟨node.level + 1, t, b⟩ os k) :
      Traced p fuel node (ms ++ .bisected t :: (ns ++ os)) (m + k + 1)

/-- The nodes of a stack, one after the other. -/
inductive TracedAll (p : Problem) (fuel : ℕ) : List Node → List Mark → ℕ → Prop
  | nil : TracedAll p fuel [] [] 0
  | cons {node : Node} {stack : List Node} {ms ns : List Mark} {m k : ℕ}
      (hnode : Traced p fuel node ms m) (hstack : TracedAll p fuel stack ns k) :
      TracedAll p fuel (node :: stack) (ms ++ ns) (m + k)

theorem countP_callsAt (t0 : Float) (incremental : Bool) (n : ℕ) :
    (callsAt t0 incremental n).countP Mark.isIncremental = incremental.toNat := by
  have hrest : (List.replicate n (Mark.called t0 false)).countP Mark.isIncremental = 0 :=
    List.countP_eq_zero.2 fun m hm => by simp [List.eq_of_mem_replicate hm, Mark.isIncremental]
  rw [callsAt, List.countP_cons, hrest]
  cases incremental <;> rfl

theorem Refinings.countP_eq_zero {ms : List Mark} {z : TubeVector Interval} {fuel : ℕ}
    (h : Refinings p fuel x ms z) : ms.countP Mark.isIncremental = 0 := by
  induction h with
  | done x => rfl
  | refined n hrefine hcontract hrest ih => rw [List.countP_append, countP_callsAt, ih]; rfl

theorem Visited.countP_eq {node : Node} {ms : List Mark} {z : TubeVector Interval} {fuel : ℕ}
    (h : Visited p fuel node ms z) :
    ms.countP Mark.isIncremental = (decide (node.level > 0)).toNat := by
  cases h with
  | intro n hcontract hrefinings =>
    rw [List.cons_append, List.countP_cons, List.countP_append, countP_callsAt,
      hrefinings.countP_eq_zero]
    rfl

/-- Every split gives two nodes, each with one incremental call. -/
theorem Traced.countP_eq {node : Node} {ms : List Mark} {k fuel : ℕ}
    (h : Traced p fuel node ms k) :
    ms.countP Mark.isIncremental = 2 * k + (decide (node.level > 0)).toNat := by
  induction h with
  | leaf hnode => rw [hnode.countP_eq, Nat.mul_zero, Nat.zero_add]
  | split hnode hsplit hfirst hsecond ihfirst ihsecond =>
    rw [List.countP_append, List.countP_cons, List.countP_append, hnode.countP_eq, ihfirst,
      ihsecond]
    simp only [gt_iff_lt, Nat.zero_lt_succ, decide_true, Bool.toNat_true, Mark.isIncremental,
      Bool.false_eq_true, ↓reduceIte, Nat.add_zero]
    omega

/-! ### Calls of a search -/

section Search

variable (hc : p.constraints = some step) (hpropagation : 0.0 ≤ p.settings.propagationRatio)
  (hpeeling : p.settings.peelingRatio < 0.0)

include hc hpropagation hpeeling

/-- Without peeling, the calls of a contraction are those of its propagation. -/
theorem adds_contract (fuel : ℕ) : Adds (p.contract fuel incremental t0 x) fun ms _ =>
    ∃ n, ms = callsAt t0 incremental n := by
  have hloop : ¬p.settings.propagationRatio < 0.0 := Binary64.not_lt_of_le hpropagation
  have hpeel (y : TubeVector Interval) :
      ¬(!y.isEmpty && decide (p.settings.peelingRatio ≥ 0.0)) = true := by
    have hratio : ¬0.0 ≤ p.settings.peelingRatio := fun h => Binary64.not_lt_of_le h hpeeling
    simp [hratio]
  unfold contract propagate
  rw [if_neg hloop]
  refine adds_bind (adds_propagateLoop hc _ fuel) fun ms y _ hms => ?_
  rw [if_neg (hpeel y)]
  exact adds_pure (by rwa [List.append_nil])

theorem adds_refineLoop (fuel n : ℕ) : Adds (p.refineLoop fuel n x) (Refinings p fuel x) := by
  induction n generalizing x with
  | zero => exact adds_throw _
  | succ n ih =>
    unfold refineLoop
    cases hrefine : Slicing.refine? p.settings.refining p.settings.maxSlices x with
    | none => exact adds_pure (.done x)
    | some y =>
      refine adds_bind (adds_contract hc hpropagation hpeeling fuel) fun ms z hz hms => ?_
      obtain ⟨k, rfl⟩ := hms
      have hmore {ns : List Mark} {w : TubeVector Interval} (hrest : Refinings p fuel z ns w) :
          Refinings p fuel x (callsAt y.domain.lb false k ++ ns) w := .refined k hrefine hz hrest
      refine adds_bind_silent (adds_record _) fun _ _ => ?_
      split
      · exact adds_pure (hmore (.done z))
      · refine adds_bind_silent (adds_lift _) fun thin _ => ?_
        split_ifs
        · exact adds_pure (hmore (.done z))
        · exact adds_pure (hmore (.done z))
        · exact ih.mono fun ns w => hmore

theorem adds_narrow (fuel : ℕ) (node : Node) :
    Adds (p.narrow fuel node) (Visited p fuel node) := by
  unfold narrow
  refine adds_bind (adds_record _) fun os _ _ hos => ?_
  subst hos
  refine adds_bind (adds_contract hc hpropagation hpeeling fuel) fun ms x hx hms => ?_
  obtain ⟨k, rfl⟩ := hms
  have hvisited {ns : List Mark} {z : TubeVector Interval} (hrefinings : Refinings p fuel x ns z) :
      Visited p fuel node
        (.opened node.level node.time :: (callsAt node.time (node.level > 0) k ++ ns)) z :=
    .intro k hx hrefinings
  split
  · exact adds_pure (hvisited (.done x))
  · refine adds_bind_silent (adds_record _) fun _ _ => ?_
    split
    · exact (adds_refineLoop hc hpropagation hpeeling fuel fuel).mono fun ns z => hvisited
    · exact adds_pure (hvisited (.done x))

/-- What a round adds to the record comes before all that the next stack leaves there. -/
theorem traced_round {fuel : ℕ} {node : Node} {stack next : List Node}
    {solutions found : List (TubeVector Interval)} {j i : Journal}
    (hround : Round p fuel node stack solutions j next found i) :
    ∃ ms m, j.Extends i ms m ∧ ∀ ns k, TracedAll p fuel next ns k →
      TracedAll p fuel (node :: stack) (ms ++ ns) (m + k) := by
  have hnarrowed := adds_narrow hc hpropagation hpeeling fuel node
  cases hround with
  | dropped hnarrow hempty =>
    obtain ⟨ms, hms, hvisited⟩ := hnarrowed _ _ _ hnarrow
    exact ⟨ms, 0, hms, fun ns k hnext => .cons (.leaf hvisited) hnext⟩
  | accepted hnarrow hempty haccept =>
    obtain ⟨ms, hms, hvisited⟩ := hnarrowed _ _ _ hnarrow
    have hend := hms.trans ((adds_accept _).extends_nil haccept)
    rw [List.append_nil] at hend
    exact ⟨ms, 0, hend, fun ns k hnext => .cons (.leaf hvisited) hnext⟩
  | unsplittable hnarrow hempty hbisect haccept =>
    obtain ⟨ms, hms, hvisited⟩ := hnarrowed _ _ _ hnarrow
    have hend := ((hms.trans (extends_bisect hbisect)).trans (.record _ (.unsplittable _))).trans
      ((adds_accept _).extends_nil haccept)
    simp only [Event.mark?, Option.toList_none, List.append_nil] at hend
    exact ⟨ms, 0, hend, fun ns k hnext => .cons (.leaf hvisited) hnext⟩
  | split hnarrow hbisect =>
    obtain ⟨ms, hms, hvisited⟩ := hnarrowed _ _ _ hnarrow
    refine ⟨_, _, (hms.trans (extends_bisect hbisect)).trans (.record _ _), fun ns k hnext => ?_⟩
    -- both halves are on top of the next stack, the first one above the second one
    cases hnext with
    | cons hfirst hnext =>
      cases hnext with
      | cons hsecond hnext =>
        convert TracedAll.cons (.split hvisited ⟨_, _, hbisect⟩ hfirst hsecond) hnext using 1
        · simp only [Event.mark?, Option.toList_some, List.append_nil, List.append_assoc,
            List.cons_append, List.nil_append]
        · omega

/-- What the loop adds to the record is what the nodes of the stack leave there. -/
theorem traced_explore {fuel n : ℕ} {stack : List Node}
    {solutions result : List (TubeVector Interval)} {j j' : Journal}
    (hrun : (p.explore fuel n stack solutions).run j = .ok (result, j')) :
    ∃ ms k, j.Extends j' ms k ∧ TracedAll p fuel stack ms k := by
  induction n generalizing stack solutions j with
  | zero =>
    cases stack with
    | nil =>
      obtain ⟨-, rfl⟩ := run_pure_eq_ok.1 hrun
      exact ⟨[], 0, .refl j, .nil⟩
    | cons node stack => exact nomatch hrun
  | succ n ih =>
    cases stack with
    | nil =>
      obtain ⟨-, rfl⟩ := run_pure_eq_ok.1 hrun
      exact ⟨[], 0, .refl j, .nil⟩
    | cons node stack =>
      obtain ⟨next, found, i, hround, hrest⟩ := explore_cons hrun
      obtain ⟨ms, m, hms, hcons⟩ := traced_round hc hpropagation hpeeling hround
      obtain ⟨ns, k, hns, hnext⟩ := ih hrest
      exact ⟨ms ++ ns, m + k, hms.trans hns, hcons ns k hnext⟩

end Search

/-- A search leaves the record of the tree of its nodes: the root is opened at the start of the
first tube, and all others at the times of their splits. So the constraints are called incrementally
twice for every bisection. -/
theorem solve_calls {fuel : ℕ} {findings : Findings} (hc : p.constraints = some step)
    (hpropagation : 0.0 ≤ p.settings.propagationRatio) (hpeeling : p.settings.peelingRatio < 0.0)
    (h : p.solve fuel x = .ok findings) :
    Traced p fuel ⟨0, x.domain.lb, x⟩ findings.journal.marks findings.journal.bisections ∧
      findings.journal.calls.countP (·.2) = 2 * findings.journal.bisections := by
  obtain ⟨-, -, h⟩ := bind_eq_ok.1 h
  obtain ⟨⟨clusters, journal⟩, hrun, h⟩ := bind_eq_ok.1 h
  obtain rfl := Except.ok.inj h
  obtain ⟨solutions, i, hexplore, -, rfl⟩ := search_cases hrun
  obtain ⟨ms, n, hi, hstack⟩ := traced_explore hc hpropagation hpeeling hexplore
  have hend := (hi.trans (.record i (.searched i.accepted i.bisections))).trans
    (.record _ (.clustered clusters.length))
  have hroot : Traced p fuel ⟨0, x.domain.lb, x⟩ ms n := by
    cases hstack with
    | cons hroot hnil =>
      cases hnil
      rwa [List.append_nil]
  have hmarks := hend.marks.trans (congrArg _ ((List.append_nil _).trans (List.append_nil ms)))
  have hcount := hend.bisections.trans (Nat.zero_add n)
  rw [Journal.countP_calls, hmarks, hcount]
  exact ⟨hroot, hroot.countP_eq⟩

/-- The search for a constant with the square one cuts the slice of the first tube once. -/
def refinedRoots : Problem :=
  { rootsOfOne with settings := { rootsOfOne.settings with refiningRatio := 2.0, maxSlices := 2 } }

/-- Three bisections with six incremental calls. The root and its refinement have one other call
each. -/
theorem solve_calls_refinedRoots :
    0.0 ≤ refinedRoots.settings.propagationRatio ∧ refinedRoots.settings.peelingRatio < 0.0 ∧
      ∃ findings, refinedRoots.solve 10 (Clustering.band (-2.0) 2.0) = .ok findings ∧
        findings.journal.bisections = 3 ∧ findings.journal.calls.length = 8 ∧
        findings.journal.calls.countP (·.2) = 6 ∧
        Traced refinedRoots 10 ⟨0, 0.0, Clustering.band (-2.0) 2.0⟩ findings.journal.marks 3 := by
  have hpropagation : 0.0 ≤ refinedRoots.settings.propagationRatio := by decide
  have hpeeling : refinedRoots.settings.peelingRatio < 0.0 := by decide
  refine ⟨hpropagation, hpeeling, ?_⟩
  have hrun : (refinedRoots.solve 10 (Clustering.band (-2.0) 2.0)).toOption.map
      (fun found => (found.journal.calls.length, found.journal.bisections)) = some (8, 3) := by
    decide +kernel
  cases h : refinedRoots.solve 10 (Clustering.band (-2.0) 2.0) with
  | error e =>
    rw [h] at hrun
    contradiction
  | ok findings =>
    rw [h] at hrun
    obtain ⟨hcalls, hthree⟩ := Prod.mk.inj (Option.some.inj hrun)
    obtain ⟨htraced, hincremental⟩ := solve_calls rfl hpropagation hpeeling h
    rw [hthree] at htraced hincremental
    exact ⟨findings, rfl, hthree, hcalls, hincremental, htraced⟩

end Problem

end FlowTube
