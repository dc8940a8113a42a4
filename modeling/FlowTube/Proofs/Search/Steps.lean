import FlowTube.Proofs.Computations
import FlowTube.Search.Solve

/-! The search in terms of its steps. What happens to the tube of a node is made up of passes of the
constraints and the dynamics, of further breakpoints, and of splits inside peeling, where a half is
dropped as empty or joined to the other one again. So a relation between vectors that these steps
respect holds between the tube of a node and what the node leaves of it. The loop over the nodes
then keeps every condition on the stack and the solutions that one node keeps. Only the loop counts
bisections: one for every node that is split. -/

namespace FlowTube

namespace SearchM

variable {α β : Type} {P : α → Prop} {Q : β → Prop} {j j' : Journal}

/-! ### Runs -/

theorem run_bind_eq_ok {m : SearchM α} {f : α → SearchM β} {b : β} :
    (m >>= f).run j = .ok (b, j') ↔
      ∃ a i, m.run j = .ok (a, i) ∧ (f a).run i = .ok (b, j') :=
  bind_eq_ok.trans Prod.exists

theorem run_pure_eq_ok {a b : α} : (pure a : SearchM α).run j = .ok (b, j') ↔ a = b ∧ j = j' := by
  change Except.ok (a, j) = .ok (b, j') ↔ _
  rw [Except.ok.injEq, Prod.mk.injEq]

theorem run_lift_eq_ok {x : Except Error α} {a : α} :
    (liftM x : SearchM α).run j = .ok (a, j') ↔ x = .ok a ∧ j = j' := by
  cases x with
  | error e => exact ⟨fun h => (nomatch h), fun h => (nomatch h.1)⟩
  | ok b =>
    rw [Except.ok.injEq]
    exact run_pure_eq_ok

/-- Every answer has the property, and no bisection is counted. -/
def Quiet (m : SearchM α) (P : α → Prop) : Prop :=
  ∀ j a j', m.run j = .ok (a, j') → P a ∧ j'.bisections = j.bisections

theorem quiet_pure {a : α} (h : P a) : Quiet (pure a) P := by
  intro j b j' hrun
  obtain ⟨rfl, rfl⟩ := run_pure_eq_ok.1 hrun
  exact ⟨h, rfl⟩

theorem quiet_bind {m : SearchM α} {f : α → SearchM β} (hm : Quiet m P)
    (hf : ∀ a, P a → Quiet (f a) Q) : Quiet (m >>= f) Q := by
  intro j b j' hrun
  obtain ⟨a, i, ha, hb⟩ := run_bind_eq_ok.1 hrun
  obtain ⟨hP, hi⟩ := hm j a i ha
  obtain ⟨hQ, hj'⟩ := hf a hP i b j' hb
  exact ⟨hQ, hj'.trans hi⟩

theorem quiet_throw (e : Error) : Quiet (throw e : SearchM α) P :=
  fun _ _ _ hrun => nomatch hrun

theorem quiet_lift {x : Except Error α} (h : ∀ a, x = .ok a → P a) :
    Quiet (liftM x : SearchM α) P := by
  intro j a j' hrun
  obtain ⟨hx, rfl⟩ := run_lift_eq_ok.1 hrun
  exact ⟨h a hx, rfl⟩

theorem quiet_record (e : Event) : Quiet (record e) fun _ => True := by
  intro j a j' hrun
  obtain ⟨-, rfl⟩ := Prod.mk.inj (Except.ok.inj hrun)
  exact ⟨trivial, rfl⟩

theorem quiet_draw (coins : ℕ → Bool) : Quiet (draw coins) fun _ => True := by
  intro j a j' hrun
  obtain ⟨-, rfl⟩ := Prod.mk.inj (Except.ok.inj hrun)
  exact ⟨trivial, rfl⟩

theorem Quiet.mono {m : SearchM α} {P' : α → Prop} (hm : Quiet m P) (h : ∀ a, P a → P' a) :
    Quiet m P' := fun j a j' hrun => (hm j a j' hrun).imp_left (h a)

end SearchM

open SearchM

namespace Problem

variable {p : Problem} {I : TubeVector Interval → Prop} {T : Float → Prop}
  {R : TubeVector Interval → TubeVector Interval → Prop}
  {S : TubeVector Interval → TubeVector Interval → TubeVector Interval → Prop}
  {x a b : TubeVector Interval} {t : Float}

/-! ### Steps -/

/-- A time at which a vector may be split. -/
def SplitTime (x : TubeVector Interval) (t : Float) : Prop :=
  t = x.domain.lb ∨ t = x.domain.ub ∨ t = x.maxGateDiam.2 ∨ x.finiteGateTime = .ok t

/-- The single steps of a search respect a relation `R` between a vector with the property `I` and
what becomes of it, and a relation `S` between a vector and its halves at a time with `T`. -/
structure Respects (p : Problem) (I : TubeVector Interval → Prop) (T : Float → Prop)
    (R : TubeVector Interval → TubeVector Interval → Prop)
    (S : TubeVector Interval → TubeVector Interval → TubeVector Interval → Prop) : Prop where
  refl : ∀ {x}, I x → R x x
  trans : ∀ {x y z}, R x y → R y z → R x z
  keeps : ∀ {x y}, I x → R x y → I y
  constraints : ∀ step, p.constraints = some step → ∀ {x t0 incremental y}, I x →
    step x t0 incremental = .ok y → R x y
  dynamics : ∀ f, p.dynamics = some f → ∀ {peeling x t0 incremental y}, I x →
    (p.ode peeling).contract f t0 incremental peeling x = .ok y → R x y
  refine : ∀ {mode maxSlices x y}, I x → Slicing.refine? mode maxSlices x = some y → R x y
  times : ∀ {x t}, I x → SplitTime x t → T t
  split : ∀ {x t k ratio a b}, I x → T t → x.bisectAt t k ratio = .ok (a, b) → S x a b
  parts : ∀ {x a b}, I x → S x a b → I a ∧ I b
  symm : ∀ {x a b}, S x a b → S x b a
  drop : ∀ {x a b y z}, S x a b → R a y → y.isEmpty = true → R b z → R x z
  join : ∀ {x a b y z}, S x a b → R a y → b.hull y = .ok z → R x z

theorem quiet_peelTime (p : Problem) (x : TubeVector Interval) :
    Quiet (p.peelTime x) (SplitTime x) := by
  unfold peelTime
  split
  · exact quiet_pure (Or.inr (Or.inl rfl))
  · exact quiet_pure (Or.inl rfl)
  · refine quiet_bind (quiet_draw p.coins) fun heads _ => ?_
    split_ifs
    · exact quiet_pure (Or.inl rfl)
    · exact quiet_pure (Or.inr (Or.inl rfl))
  · exact quiet_pure (Or.inr (Or.inr (Or.inl rfl)))

theorem quiet_bisectionTime (p : Problem) (x : TubeVector Interval) (level : ℕ) :
    Quiet (p.bisectionTime x level) fun r => ∀ t, r = .ok t → SplitTime x t := by
  have hok {s : Float} (hs : SplitTime x s) :
      ∀ t, (.ok s : Except Error Float) = .ok t → SplitTime x t := by
    intro t h
    obtain rfl := Except.ok.inj h
    exact hs
  unfold bisectionTime
  cases p.settings.bisection with
  | maxGateDiam | disabled =>
    dsimp only
    split_ifs
    · exact quiet_pure (hok (Or.inr (Or.inr (Or.inl rfl))))
    · exact quiet_pure fun t h => Or.inr (Or.inr (Or.inr h))
  | upperBound => exact quiet_pure (hok (Or.inr (Or.inl rfl)))
  | lowerBound => exact quiet_pure (hok (Or.inl rfl))
  | random =>
    refine quiet_bind (quiet_draw p.coins) fun heads _ => ?_
    split_ifs
    · exact quiet_pure (hok (Or.inl rfl))
    · exact quiet_pure (hok (Or.inr (Or.inl rfl)))
  | alternate =>
    refine quiet_pure (hok ?_)
    split_ifs
    · exact Or.inl rfl
    · exact Or.inr (Or.inl rfl)

namespace Respects

variable (h : p.Respects I T R S)

include h

/-! ### Propagation -/

theorem quiet_constrain (hx : I x) (peeling : Bool) (t0 : Float) (incremental : Bool) :
    Quiet (p.constrain peeling t0 incremental x) fun r => R x r.1 := by
  unfold constrain
  cases hc : p.constraints with
  | none => exact quiet_pure (h.refl hx)
  | some step =>
    dsimp only
    split_ifs
    · exact quiet_pure (h.refl hx)
    · refine quiet_bind (quiet_record _) fun _ _ => ?_
      exact quiet_bind (quiet_lift fun y hy => h.constraints step hc hx hy) fun y hy =>
        quiet_pure (P := fun r : TubeVector Interval × Bool => R x r.1) hy

theorem quiet_pass (hx : I x) (peeling : Bool) (t0 : Float) (incremental : Bool) :
    Quiet (p.pass peeling t0 incremental x) (R x) := by
  unfold pass
  refine quiet_bind (h.quiet_constrain hx peeling t0 incremental) fun r hr => ?_
  cases hf : p.dynamics with
  | none => exact quiet_pure hr
  | some f =>
    dsimp only
    split_ifs
    · exact quiet_pure hr
    · exact quiet_lift fun y hy => h.trans hr (h.dynamics f hf (h.keeps hx hr) hy)

theorem quiet_propagateLoop (hx : I x) (peeling : Bool) (ratio t0 : Float) (fuel : ℕ)
    (incremental : Bool) : Quiet (p.propagateLoop peeling ratio t0 fuel incremental x) (R x) := by
  induction fuel generalizing incremental x with
  | zero => exact quiet_throw _
  | succ fuel ih =>
    unfold propagateLoop
    refine quiet_bind (h.quiet_pass hx peeling t0 incremental) fun y hy => ?_
    dsimp only
    split
    · exact quiet_pure hy
    · refine quiet_bind (quiet_lift fun thin _ => trivial) fun thin _ => ?_
      split_ifs
      · exact quiet_pure hy
      · exact quiet_pure hy
      · exact (ih (h.keeps hx hy) false).mono fun z hz => h.trans hy hz

theorem quiet_propagate (hx : I x) (fuel : ℕ) (peeling : Bool) (ratio t0 : Float)
    (incremental : Bool) : Quiet (p.propagate fuel peeling ratio t0 incremental x) (R x) := by
  unfold propagate
  split_ifs
  · exact quiet_pure (h.refl hx)
  · exact h.quiet_propagateLoop hx peeling ratio t0 fuel incremental

/-! ### Peeling -/

/-- A half is dropped if propagation empties it, and joined to the other one if not. -/
theorem quiet_peelHalf (hx : I x) (hsplit : S x a b) (fuel : ℕ) (t : Float)
    {rest : SearchM (TubeVector Interval)} (hrest : Quiet rest (R b)) :
    Quiet (p.peelPropagate fuel t a >>= fun y =>
      if y.isEmpty then rest else liftM (b.hull y)) (R x) := by
  refine quiet_bind (h.quiet_propagate (h.parts hx hsplit).1 fuel true _ t true) fun y hy => ?_
  split_ifs with hempty
  · exact hrest.mono fun z hz => h.drop hsplit hy hempty hz
  · exact quiet_lift fun z hz => h.join hsplit hy hz

theorem quiet_peelBelow (hx : I x) (ht : T t) (fuel k n : ℕ) (rate : Float) :
    Quiet (p.peelBelow fuel t k n rate x) (R x) := by
  induction n generalizing rate x with
  | zero =>
    unfold peelBelow
    split_ifs
    · exact quiet_throw _
    · exact quiet_pure (h.refl hx)
  | succ n ih =>
    unfold peelBelow
    split_ifs
    · cases hhalves : x.bisectAt t k rate with
      | error e => exact quiet_pure (h.refl hx)
      | ok halves =>
        obtain ⟨low, high⟩ := halves
        have hsplit := h.split hx ht hhalves
        exact h.quiet_peelHalf hx hsplit fuel t (ih (h.parts hx hsplit).2 _)
    · exact quiet_pure (h.refl hx)

theorem quiet_peelAbove (hx : I x) (ht : T t) (fuel k n : ℕ) (rate : Float) :
    Quiet (p.peelAbove fuel t k n rate x) (R x) := by
  induction n generalizing rate x with
  | zero =>
    unfold peelAbove
    split_ifs
    · exact quiet_throw _
    · exact quiet_pure (h.refl hx)
  | succ n ih =>
    unfold peelAbove
    split_ifs
    · cases hhalves : x.bisectAt t k rate with
      | error e => exact quiet_pure (h.refl hx)
      | ok halves =>
        obtain ⟨low, high⟩ := halves
        have hsplit := h.symm (h.split hx ht hhalves)
        exact h.quiet_peelHalf hx hsplit fuel t (ih (h.parts hx hsplit).2 _)
    · exact quiet_pure (h.refl hx)

theorem quiet_peelComponent (hx : I x) (ht : T t) (fuel k : ℕ) :
    Quiet (p.peelComponent fuel t k x) (R x) := by
  unfold peelComponent
  refine quiet_bind (h.quiet_peelBelow hx ht fuel k fuel _) fun a ha => ?_
  have hIa := h.keeps hx ha
  refine quiet_bind (h.quiet_propagate hIa fuel true _ t true) fun b hb => ?_
  have hIb := h.keeps hIa hb
  split_ifs
  · exact quiet_pure (h.trans ha hb)
  · refine quiet_bind (h.quiet_peelAbove hIb ht fuel k fuel _) fun c hc => ?_
    exact (h.quiet_propagate (h.keeps hIb hc) fuel true _ t true).mono fun d hd =>
      h.trans (h.trans ha hb) (h.trans hc hd)

theorem quiet_peelComponents (hx : I x) (ht : T t) (fuel : ℕ) (ks : List ℕ) :
    Quiet (p.peelComponents fuel t ks x) (R x) := by
  induction ks generalizing x with
  | nil => exact quiet_pure (h.refl hx)
  | cons k ks ih =>
    unfold peelComponents
    refine quiet_bind (h.quiet_peelComponent hx ht fuel k) fun y hy => ?_
    split_ifs
    · exact quiet_pure hy
    · exact (ih (h.keeps hx hy)).mono fun z hz => h.trans hy hz

theorem quiet_peelLoop (hx : I x) (fuel n : ℕ) : Quiet (p.peelLoop fuel n x) (R x) := by
  induction n generalizing x with
  | zero => exact quiet_throw _
  | succ n ih =>
    unfold peelLoop peel
    refine quiet_bind (quiet_bind (quiet_peelTime p x) fun t ht =>
      h.quiet_peelComponents hx (h.times hx ht) fuel (List.range x.dimension)) fun y hy => ?_
    split
    · exact quiet_pure hy
    · refine quiet_bind (quiet_lift fun thin _ => trivial) fun thin _ => ?_
      split_ifs
      · exact quiet_pure hy
      · exact quiet_pure hy
      · exact (ih (h.keeps hx hy)).mono fun z hz => h.trans hy hz

theorem quiet_contract (hx : I x) (fuel : ℕ) (incremental : Bool) (t0 : Float) :
    Quiet (p.contract fuel incremental t0 x) (R x) := by
  unfold contract
  refine quiet_bind (h.quiet_propagate hx fuel false _ t0 incremental) fun y hy => ?_
  split_ifs
  · exact (h.quiet_peelLoop (h.keeps hx hy) fuel fuel).mono fun z hz => h.trans hy hz
  · exact quiet_pure hy

/-! ### Nodes -/

theorem quiet_refineLoop (hx : I x) (fuel n : ℕ) : Quiet (p.refineLoop fuel n x) (R x) := by
  induction n generalizing x with
  | zero => exact quiet_throw _
  | succ n ih =>
    unfold refineLoop
    cases hrefine : Slicing.refine? p.settings.refining p.settings.maxSlices x with
    | none => exact quiet_pure (h.refl hx)
    | some y =>
      have hy := h.refine hx hrefine
      refine quiet_bind (h.quiet_contract (h.keeps hx hy) fuel false _) fun z hz => ?_
      have hxz := h.trans hy hz
      refine quiet_bind (quiet_record _) fun _ _ => ?_
      split
      · exact quiet_pure hxz
      · refine quiet_bind (quiet_lift fun thin _ => trivial) fun thin _ => ?_
        split_ifs
        · exact quiet_pure hxz
        · exact quiet_pure hxz
        · exact (ih (h.keeps hx hxz)).mono fun w hw => h.trans hxz hw

theorem quiet_narrow (fuel : ℕ) {node : Node} (hx : I node.tube) :
    Quiet (p.narrow fuel node) (R node.tube) := by
  unfold narrow
  refine quiet_bind (quiet_record _) fun _ _ => ?_
  refine quiet_bind (h.quiet_contract hx fuel _ node.time) fun y hy => ?_
  split
  · exact quiet_pure hy
  · refine quiet_bind (quiet_record _) fun _ _ => ?_
    split
    · exact (h.quiet_refineLoop (h.keeps hx hy) fuel fuel).mono fun z hz => h.trans hy hz
    · exact quiet_pure hy

end Respects

/-! ### Splits of nodes -/

/-- The first attempt to split a tube, at a time if there is one, and else the second. -/
def halves (x : TubeVector Interval) (time : Except Error Float) :
    Except Error (Float × TubeVector Interval × TubeVector Interval) :=
  match time.bind (splitAt x) with
  | .ok h => .ok h
  | .error _ => splitAt x x.maxGateDiam.2

/-- Both attempts to split give halves of the tube. -/
theorem Respects.splits_halves (h : p.Respects I T R S) (hx : I x) {time : Except Error Float}
    (htime : ∀ t, time = .ok t → SplitTime x t) (hhalves : halves x time = .ok (t, a, b)) :
    S x a b := by
  have hat {s : Float} (hs : SplitTime x s) (hsplit : splitAt x s = .ok (t, a, b)) : S x a b := by
    obtain ⟨⟨c, d⟩, hcd, hsplit⟩ := bind_eq_ok.1 hsplit
    obtain ⟨-, rfl, rfl⟩ := Except.ok.inj hsplit
    exact h.split hx (h.times hx hs) hcd
  unfold halves at hhalves
  split at hhalves
  · rename_i r hr
    obtain ⟨s, hs, hsplit⟩ := bind_eq_ok.1 hr
    exact hat (htime s hs) (hsplit.trans hhalves)
  · exact hat (Or.inr (Or.inr (Or.inl rfl))) hhalves

/-- The record after an attempt to split: a success is counted. -/
def counted (j : Journal) :
    Except Error (Float × TubeVector Interval × TubeVector Interval) → Journal
  | .ok _ => { j with bisections := j.bisections + 1 }
  | .error _ => j

/-- All that a split does: it names a time and makes both attempts, and it counts a success. -/
theorem bisect_cases {level : ℕ} {j j' : Journal}
    {result : Except Error (Float × TubeVector Interval × TubeVector Interval)}
    (hrun : (p.bisect x level).run j = .ok (result, j')) :
    ∃ time i, (p.bisectionTime x level).run j = .ok (time, i) ∧ halves x time = result ∧
      counted i result = j' := by
  obtain ⟨time, i, htime, hrun⟩ := run_bind_eq_ok.1 hrun
  refine ⟨time, i, htime, ?_⟩
  change (match halves x time with
    | .ok _ => do
      modify fun j => { j with bisections := j.bisections + 1 }
      pure (halves x time)
    | .error _ => pure (halves x time) : SearchM _).run i = _ at hrun
  cases hhalves : halves x time with
  | error e =>
    rw [hhalves] at hrun
    obtain ⟨rfl, rfl⟩ := run_pure_eq_ok.1 hrun
    exact ⟨rfl, rfl⟩
  | ok r =>
    rw [hhalves] at hrun
    obtain ⟨rfl, rfl⟩ := Prod.mk.inj (Except.ok.inj hrun)
    exact ⟨rfl, rfl⟩

/-- A split is counted, a failure to split is not. -/
theorem Respects.run_bisect (h : p.Respects I T R S) (hx : I x) {level : ℕ} {j j' : Journal}
    {result : Except Error (Float × TubeVector Interval × TubeVector Interval)}
    (hrun : (p.bisect x level).run j = .ok (result, j')) :
    match result with
    | .ok (_, a, b) => S x a b ∧ j'.bisections = j.bisections + 1
    | .error _ => j'.bisections = j.bisections := by
  obtain ⟨time, i, htime, hhalves, rfl⟩ := bisect_cases hrun
  obtain ⟨htime, hi⟩ := quiet_bisectionTime p x level j time i htime
  rw [← hi]
  cases result with
  | error e => rfl
  | ok r => exact ⟨h.splits_halves hx htime hhalves, rfl⟩

/-! ### The loop over the nodes -/

/-- A condition on the tubes of the stack, the solutions and the number of bisections that every
node keeps. -/
structure Invariant (I : TubeVector Interval → Prop)
    (R : TubeVector Interval → TubeVector Interval → Prop)
    (S : TubeVector Interval → TubeVector Interval → TubeVector Interval → Prop)
    (J : List (TubeVector Interval) → List (TubeVector Interval) → ℕ → Prop) : Prop where
  proper : ∀ {x stack solutions n}, J (x :: stack) solutions n → I x
  narrow : ∀ {x y stack solutions n}, J (x :: stack) solutions n → R x y →
    J (y :: stack) solutions n
  drop : ∀ {x stack solutions n}, J (x :: stack) solutions n → x.isEmpty = true →
    J stack solutions n
  accept : ∀ {x stack solutions n}, J (x :: stack) solutions n → x.isEmpty = false →
    J stack (x :: solutions) n
  split : ∀ {x a b stack solutions n}, J (x :: stack) solutions n → S x a b →
    J (a :: b :: stack) solutions (n + 1)

variable {J : List (TubeVector Interval) → List (TubeVector Interval) → ℕ → Prop}

theorem quiet_accept (x : TubeVector Interval) : Quiet (accept x) fun _ => True := by
  intro j a j' hrun
  obtain ⟨-, rfl⟩ := Prod.mk.inj (Except.ok.inj hrun)
  exact ⟨trivial, rfl⟩

/-- One round of the loop: what becomes of the top node, and what is left to be searched then. -/
inductive Round (p : Problem) (fuel : ℕ) (node : Node) (stack : List Node)
    (solutions : List (TubeVector Interval)) (j : Journal) :
    List Node → List (TubeVector Interval) → Journal → Prop
  | dropped {x : TubeVector Interval} {i : Journal}
      (hnarrow : (p.narrow fuel node).run j = .ok (x, i)) (hempty : x.isEmpty = true) :
      Round p fuel node stack solutions j stack solutions i
  | accepted {x : TubeVector Interval} {i l : Journal}
      (hnarrow : (p.narrow fuel node).run j = .ok (x, i)) (hempty : x.isEmpty = false)
      (haccept : (accept x).run i = .ok ((), l)) :
      Round p fuel node stack solutions j stack (x :: solutions) l
  | unsplittable {x : TubeVector Interval} {i k l : Journal} {cause : Error}
      (hnarrow : (p.narrow fuel node).run j = .ok (x, i)) (hempty : x.isEmpty = false)
      (hbisect : (p.bisect x node.level).run i = .ok (.error cause, k))
      (haccept : (accept x).run { k with latest := .unsplittable cause :: k.latest } =
        .ok ((), l)) :
      Round p fuel node stack solutions j stack (x :: solutions) l
  | split {x a b : TubeVector Interval} {t : Float} {i k : Journal}
      (hnarrow : (p.narrow fuel node).run j = .ok (x, i))
      (hbisect : (p.bisect x node.level).run i = .ok (.ok (t, a, b), k)) :
      Round p fuel node stack solutions j
        (⟨node.level + 1, t, a⟩ :: ⟨node.level + 1, t, b⟩ :: stack) solutions
        { k with latest := .bisected t node.level x.volume x.sliceCount :: k.latest }

/-- The loop goes round by round. -/
theorem explore_cons {fuel n : ℕ} {node : Node} {stack : List Node}
    {solutions result : List (TubeVector Interval)} {j j' : Journal}
    (hrun : (p.explore fuel (n + 1) (node :: stack) solutions).run j = .ok (result, j')) :
    ∃ next found i, Round p fuel node stack solutions j next found i ∧
      (p.explore fuel n next found).run i = .ok (result, j') := by
  unfold explore at hrun
  obtain ⟨x, i, hnarrow, hrun⟩ := run_bind_eq_ok.1 hrun
  split at hrun
  · rename_i hempty
    exact ⟨_, _, _, .dropped hnarrow hempty, hrun⟩
  · rename_i hempty
    rw [Bool.not_eq_true] at hempty
    obtain ⟨thin, _, hstopped, hrun⟩ := run_bind_eq_ok.1 hrun
    obtain ⟨-, rfl⟩ := run_lift_eq_ok.1 hstopped
    split at hrun
    · obtain ⟨_, l, haccept, hrun⟩ := run_bind_eq_ok.1 hrun
      exact ⟨_, _, _, .accepted hnarrow hempty haccept, hrun⟩
    · obtain ⟨halves, k, hbisect, hrun⟩ := run_bind_eq_ok.1 hrun
      cases halves with
      | error cause =>
        obtain ⟨_, _, hrecord, hrun⟩ := run_bind_eq_ok.1 hrun
        obtain ⟨-, rfl⟩ := Prod.mk.inj (Except.ok.inj hrecord)
        obtain ⟨_, l, haccept, hrun⟩ := run_bind_eq_ok.1 hrun
        exact ⟨_, _, _, .unsplittable hnarrow hempty hbisect haccept, hrun⟩
      | ok halves =>
        obtain ⟨_, _, hrecord, hrun⟩ := run_bind_eq_ok.1 hrun
        obtain ⟨-, rfl⟩ := Prod.mk.inj (Except.ok.inj hrecord)
        exact ⟨_, _, _, .split hnarrow hbisect, hrun⟩

/-- A round keeps what every node keeps. -/
theorem Respects.keeps_round (h : p.Respects I T R S) (hJ : Invariant I R S J) {fuel : ℕ}
    {node : Node} {stack next : List Node} {solutions found : List (TubeVector Interval)}
    {j i : Journal} (hinv : J ((node :: stack).map Node.tube) solutions j.bisections)
    (hround : Round p fuel node stack solutions j next found i) :
    J (next.map Node.tube) found i.bisections := by
  have hnarrowed {x : TubeVector Interval} {i : Journal}
      (hnarrow : (p.narrow fuel node).run j = .ok (x, i)) :
      J (x :: stack.map Node.tube) solutions i.bisections := by
    obtain ⟨hx, hi⟩ := h.quiet_narrow fuel (hJ.proper hinv) j x i hnarrow
    rw [hi]
    exact hJ.narrow hinv hx
  cases hround with
  | dropped hnarrow hempty => exact hJ.drop (hnarrowed hnarrow) hempty
  | accepted hnarrow hempty haccept =>
    rw [(quiet_accept _ _ _ _ haccept).2]
    exact hJ.accept (hnarrowed hnarrow) hempty
  | unsplittable hnarrow hempty hbisect haccept =>
    have hcount := h.run_bisect (hJ.proper (hnarrowed hnarrow)) hbisect
    have haccepted := hJ.accept (hnarrowed hnarrow) hempty
    rw [← hcount] at haccepted
    rw [(quiet_accept _ _ _ _ haccept).2]
    exact haccepted
  | split hnarrow hbisect =>
    obtain ⟨hsplit, hcount⟩ := h.run_bisect (hJ.proper (hnarrowed hnarrow)) hbisect
    have hnext := hJ.split (hnarrowed hnarrow) hsplit
    rw [← hcount] at hnext
    exact hnext

/-- The loop keeps what every node keeps. -/
theorem Respects.run_explore (h : p.Respects I T R S) (hJ : Invariant I R S J) {fuel n : ℕ}
    {stack : List Node} {solutions result : List (TubeVector Interval)} {j j' : Journal}
    (hinv : J (stack.map Node.tube) solutions j.bisections)
    (hrun : (p.explore fuel n stack solutions).run j = .ok (result, j')) :
    J [] result j'.bisections := by
  -- the nodes left to open decrease; what the stack and the solutions satisfy is `J`
  induction n generalizing stack solutions j with
  | zero =>
    cases stack with
    | nil =>
      obtain ⟨rfl, rfl⟩ := run_pure_eq_ok.1 hrun
      exact hinv
    | cons node stack => exact nomatch hrun
  | succ n ih =>
    cases stack with
    | nil =>
      obtain ⟨rfl, rfl⟩ := run_pure_eq_ok.1 hrun
      exact hinv
    | cons node stack =>
      obtain ⟨next, found, i, hround, hrest⟩ := explore_cons hrun
      exact ih (h.keeps_round hJ hinv hround) hrest

/-- All that a search does: the loop, and then what it has found is clustered. -/
theorem search_cases {fuel : ℕ} {clusters : List (TubeVector Interval)} {j j' : Journal}
    (hrun : (p.search fuel x).run j = .ok (clusters, j')) :
    ∃ solutions i, (p.explore fuel fuel [⟨0, x.domain.lb, x⟩] []).run j = .ok (solutions, i) ∧
      Clustering.cluster solutions.reverse = .ok clusters ∧
      { i with latest := .clustered clusters.length :: .searched i.accepted i.bisections ::
        i.latest } = j' := by
  obtain ⟨solutions, i, hexplore, hrun⟩ := run_bind_eq_ok.1 hrun
  obtain ⟨_, _, hget, hrun⟩ := run_bind_eq_ok.1 hrun
  obtain ⟨rfl, rfl⟩ := Prod.mk.inj (Except.ok.inj hget)
  obtain ⟨_, k, hsearched, hrun⟩ := run_bind_eq_ok.1 hrun
  obtain ⟨-, rfl⟩ := Prod.mk.inj (Except.ok.inj hsearched)
  obtain ⟨_, _, hlift, hrun⟩ := run_bind_eq_ok.1 hrun
  obtain ⟨hcluster, rfl⟩ := run_lift_eq_ok.1 hlift
  obtain ⟨_, l, hclustered, hrun⟩ := run_bind_eq_ok.1 hrun
  obtain ⟨-, rfl⟩ := Prod.mk.inj (Except.ok.inj hclustered)
  obtain ⟨rfl, rfl⟩ := run_pure_eq_ok.1 hrun
  exact ⟨solutions, i, hexplore, hcluster, rfl⟩

/-- What the loop has found satisfies the condition, and is clustered. -/
theorem Respects.run_search (h : p.Respects I T R S) (hJ : Invariant I R S J) {fuel : ℕ}
    {clusters : List (TubeVector Interval)} {j j' : Journal} (hinv : J [x] [] j.bisections)
    (hrun : (p.search fuel x).run j = .ok (clusters, j')) :
    ∃ solutions, J [] solutions j'.bisections ∧
      Clustering.cluster solutions.reverse = .ok clusters := by
  obtain ⟨solutions, i, hexplore, hcluster, rfl⟩ := search_cases hrun
  have hfirst : J ([⟨0, x.domain.lb, x⟩].map Node.tube) [] j.bisections := hinv
  have hfound : J [] solutions i.bisections := h.run_explore hJ hfirst hexplore
  exact ⟨solutions, hfound, hcluster⟩

end Problem

end FlowTube
