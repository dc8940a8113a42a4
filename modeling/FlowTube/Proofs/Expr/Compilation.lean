import FlowTube.Expr.Meaning
import FlowTube.Proofs.Computations

/-! Compiled expressions. An expression has a program exactly if all that it mentions is known,
and the program computes the value of the expression: run on any stack, it leaves the value on
top of that stack. On the way each instruction finds its operands above what was there before,
and each index is in range, so the values that stand in for missing operands are never used. -/

namespace FlowTube

variable {ι : Type}

/-! ### Names in scope -/

namespace Scope

variable {names : List String} {s : String} {i : ℕ}

theorem go_succ (k : ℕ) : place?.go s (k + 1) names = (place?.go s k names).map (· + 1) := by
  induction names generalizing k with
  | nil => rfl
  | cons n rest ih =>
    rw [place?.go, place?.go, ih]
    cases place?.go s (k + 1) rest with
    | some j => rfl
    | none => cases n == s <;> rfl

/-- A later place comes before the first one. -/
theorem place?_cons (n : String) (rest : List String) (s : String) : place? (n :: rest) s =
    ((place? rest s).map (· + 1)).or (if n == s then some 0 else none) := by
  rw [place?, place?.go, go_succ, place?]
  cases place?.go s 0 rest <;> rfl

theorem place?_eq_none_iff : place? names s = none ↔ s ∉ names := by
  induction names with
  | nil => simp [place?, place?.go]
  | cons n rest ih =>
    rw [place?_cons, Option.or_eq_none_iff, Option.map_eq_none_iff, ih, List.mem_cons, not_or,
      and_comm]
    refine and_congr_left fun _ => ?_
    by_cases h : n = s
    · simp [h]
    · simp [h, Ne.symm h]

theorem place?_lt (h : place? names s = some i) : i < names.length := by
  induction names generalizing i with
  | nil => cases h
  | cons n rest ih =>
    rw [place?_cons] at h
    cases hrest : place? rest s with
    | some j =>
      rw [hrest] at h
      obtain rfl : j + 1 = i := Option.some.inj h
      exact Nat.succ_lt_succ (ih hrest)
    | none =>
      rw [hrest] at h
      obtain ⟨-, rfl⟩ : n = s ∧ 0 = i := by simpa using h
      exact Nat.succ_pos _

theorem exists_getElem?_place? {x : Box ι} (h : place? names s = some i)
    (hx : names.length ≤ x.length) : ∃ v, x[i]? = some v :=
  ⟨_, List.getElem?_eq_getElem (Nat.lt_of_lt_of_le (place?_lt h) hx)⟩

/-- The value beside a name, the last one if the name stands there more than once. -/
def lookup? (names : List String) (values : Box ι) (s : String) : Option ι :=
  (names.zip values).reverse.lookup s

theorem getElem?_place? {x : Box ι} (hx : names.length ≤ x.length) :
    (place? names s).bind (x[·]?) = lookup? names x s := by
  induction names generalizing x with
  | nil => rfl
  | cons n rest ih =>
    cases x with
    | nil => simp at hx
    | cons v vs =>
      have hlen : rest.length ≤ vs.length := Nat.le_of_succ_le_succ hx
      rw [lookup?, List.zip_cons_cons, List.reverse_cons, List.lookup_append, ← lookup?, ← ih hlen,
        place?_cons]
      cases hrest : place? rest s with
      | some j =>
        obtain ⟨u, hu⟩ := exists_getElem?_place? hrest hlen
        simp [hu]
      | none =>
        by_cases h : n = s
        · simp [h]
        · simp [h, List.lookup_cons, beq_eq_false_iff_ne.2 (Ne.symm h)]

variable [Elementary ι] {scope : Scope}

/-- A variable, a parameter or one of the names that are always there. -/
def Known (scope : Scope) (s : String) : Prop :=
  s ∈ scope.vars ∨ s ∈ scope.params ∨ s ∈ ["t", "pi", "e"]

instance : DecidablePred scope.Known := fun s =>
  inferInstanceAs (Decidable (s ∈ scope.vars ∨ s ∈ scope.params ∨ s ∈ ["t", "pi", "e"]))

/-- The known names are those that stand for an operand. -/
theorem exists_operand?_iff : (∃ i : Instr ι, scope.operand? s = some i) ↔ scope.Known s := by
  unfold operand? Known
  cases hvar : place? scope.vars s with
  | some k =>
    have hs : s ∈ scope.vars := not_not.1 fun h => by simp [place?_eq_none_iff.2 h] at hvar
    simp [hs]
  | none =>
    cases hparam : place? scope.params s with
    | some k =>
      have hs : s ∈ scope.params := not_not.1 fun h => by simp [place?_eq_none_iff.2 h] at hparam
      simp [hs]
    | none =>
      simp only [place?_eq_none_iff.1 hvar, place?_eq_none_iff.1 hparam, false_or]
      split <;> simp_all

/-- The value of a name that is always there. -/
def builtin? (env : Surroundings ι) (s : String) : Option ι :=
  if s = "t" then some env.time
  else if s = "pi" then some Elementary.pi
  else if s = "e" then some Elementary.euler
  else none

/-- A name is looked up among the variables, then among the parameters. -/
theorem value?_eq_lookup? {env : Surroundings ι} (hvars : scope.vars.length ≤ env.vars.length)
    (hparams : scope.params.length ≤ env.params.length) (s : String) : scope.value? env s =
      (lookup? scope.vars env.vars s).or
        ((lookup? scope.params env.params s).or (builtin? env s)) := by
  rw [← getElem?_place? hvars, ← getElem?_place? hparams, value?]
  cases hvar : place? scope.vars s with
  | some k =>
    obtain ⟨v, hv⟩ := exists_getElem?_place? hvar hvars
    simp [hv]
  | none =>
    cases hparam : place? scope.params s with
    | some k =>
      obtain ⟨v, hv⟩ := exists_getElem?_place? hparam hparams
      simp [hv]
    | none => rfl

/-- A known name has a value in boxes that are long enough. -/
theorem exists_value? {env : Surroundings ι} (hs : scope.Known s)
    (hvars : scope.vars.length ≤ env.vars.length)
    (hparams : scope.params.length ≤ env.params.length) : ∃ v, scope.value? env s = some v := by
  unfold value?
  cases hvar : place? scope.vars s with
  | some k => exact exists_getElem?_place? hvar hvars
  | none =>
    cases hparam : place? scope.params s with
    | some k => exact exists_getElem?_place? hparam hparams
    | none =>
      have hs : s ∈ ["t", "pi", "e"] := by
        simpa [Known, place?_eq_none_iff.1 hvar, place?_eq_none_iff.1 hparam] using hs
      simp only [List.mem_cons, List.not_mem_nil, or_false] at hs
      rcases hs with rfl | rfl | rfl <;> simp

end Scope

/-! ### Runs without a missing operand -/

/-- The number of values that an instruction takes from the stack. -/
def Instr.operands : Instr ι → ℕ
  | .const _ | .var _ | .param _ | .time => 0
  | .sin | .cos | .exp | .ln | .sqrt | .neg => 1
  | .add | .sub | .mul | .div | .pow => 2

namespace Machine

variable [Elementary ι] {env : Surroundings ι} {p q : Program ι} {i : Instr ι}
  {stack stack' stack'' : List ι}

/-- A run in which each instruction finds its operands on the stack and succeeds. -/
inductive Runs (env : Surroundings ι) : Program ι → List ι → List ι → Prop
  | done (stack : List ι) : Runs env [] stack stack
  | next {i : Instr ι} {p : Program ι} {stack stack' stack'' : List ι} :
    i.operands ≤ stack.length → step env stack i = .ok stack' → Runs env p stack' stack'' →
      Runs env (i :: p) stack stack''

theorem Runs.single (hi : i.operands ≤ stack.length) (h : step env stack i = .ok stack') :
    Runs env [i] stack stack' := .next hi h (.done stack')

theorem Runs.append (hp : Runs env p stack stack') (hq : Runs env q stack' stack'') :
    Runs env (p ++ q) stack stack'' := by
  induction hp with
  | done => exact hq
  | next hi hstep _ ih => exact .next hi hstep (ih hq)

theorem Runs.run_eq (h : Runs env p stack stack') : run env p stack = .ok stack' := by
  induction h with
  | done => rfl
  | next _ hstep _ ih =>
    rw [run, hstep]
    exact ih

end Machine

/-! ### Operators and functions -/

section Operators

variable {op : Char} {f : String} {i : Instr ι}

theorem Instr.exists_ofBinary?_iff :
    (∃ i : Instr ι, ofBinary? op = some i) ↔ op ∈ ['+', '-', '*', '/', '^'] := by
  unfold ofBinary?
  split <;> simp_all

theorem Instr.exists_ofUnary?_iff : (∃ i : Instr ι, ofUnary? op = some i) ↔ op = '-' := by
  unfold ofUnary?
  split <;> simp_all

theorem Instr.exists_ofFunction?_iff : (∃ i : Instr ι, ofFunction? f = some i) ↔
    f ∈ ["sin", "cos", "exp", "ln", "log", "sqrt"] := by
  unfold ofFunction?
  split <;> simp_all

theorem Instr.operands_of_ofBinary? (h : ofBinary? op = some i) : i.operands = 2 := by
  unfold ofBinary? at h
  split at h <;> simp at h <;> subst h <;> rfl

theorem Instr.operands_of_ofFunction? (h : ofFunction? f = some i) : i.operands = 1 := by
  unfold ofFunction? at h
  split at h <;> simp at h <;> subst h <;> rfl

theorem Instr.operands_of_operand? [Elementary ι] {scope : Scope} {s : String}
    (h : scope.operand? s = some i) : i.operands = 0 := by
  unfold Scope.operand? at h
  split at h
  · exact Option.some.inj h ▸ rfl
  · split at h
    · exact Option.some.inj h ▸ rfl
    · split at h <;> simp at h <;> subst h <;> rfl

theorem Expr.exists_binaryMeaning? [Elementary ι] (h : op ∈ ['+', '-', '*', '/', '^']) :
    ∃ g : ι → ι → ι, binaryMeaning? op = some g := by
  simp only [List.mem_cons, List.not_mem_nil, or_false] at h
  rcases h with rfl | rfl | rfl | rfl | rfl <;> simp [binaryMeaning?]

theorem Expr.exists_functionMeaning? [Elementary ι]
    (h : f ∈ ["sin", "cos", "exp", "ln", "log", "sqrt"]) :
    ∃ g : ι → ι, functionMeaning? f = some g := by
  simp only [List.mem_cons, List.not_mem_nil, or_false] at h
  rcases h with rfl | rfl | rfl | rfl | rfl | rfl <;> simp [functionMeaning?]

end Operators

namespace Expr

variable [Elementary ι] {scope : Scope} {env : Surroundings ι} {e left right arg : Expr} {op : Char}
  {s f : String} {code code' : Program ι} {v : ι}

/-! ### What an expression emits -/

theorem emit_name_eq_ok : (name s).emit scope code = .ok code' ↔
    ∃ i, scope.operand? s = some i ∧ i :: code = code' := by
  rw [emit]
  cases scope.operand? s (ι := ι) <;> simp

theorem emit_binary_eq_ok : (binary op left right).emit scope code = .ok code' ↔
    ∃ c, left.emit scope code = .ok c ∧ ∃ c', right.emit scope c = .ok c' ∧
      ∃ i, Instr.ofBinary? op = some i ∧ i :: c' = code' := by
  rw [emit, bind_eq_ok]
  cases Instr.ofBinary? op (ι := ι) <;> simp [bind_eq_ok]

theorem emit_unary_eq_ok : (unary op arg).emit scope code = .ok code' ↔
    ∃ c, arg.emit scope code = .ok c ∧ ∃ i, Instr.ofUnary? op = some i ∧ i :: c = code' := by
  rw [emit, bind_eq_ok]
  cases Instr.ofUnary? op (ι := ι) <;> simp

theorem emit_call_eq_ok : (call f arg).emit scope code = .ok code' ↔
    ∃ c, arg.emit scope code = .ok c ∧ ∃ i, Instr.ofFunction? f = some i ∧ i :: c = code' := by
  rw [emit, bind_eq_ok]
  cases Instr.ofFunction? f (ι := ι) <;> simp

/-- Every name, operator and function of an expression has a meaning. -/
def Known (scope : Scope) : Expr → Prop
  | number _ => True
  | name s => scope.Known s
  | binary op left right =>
    op ∈ ['+', '-', '*', '/', '^'] ∧ left.Known scope ∧ right.Known scope
  | unary op arg => op = '-' ∧ arg.Known scope
  | call f arg => f ∈ ["sin", "cos", "exp", "ln", "log", "sqrt"] ∧ arg.Known scope

instance decidableKnown (scope : Scope) : (e : Expr) → Decidable (e.Known scope)
  | number _ => isTrue trivial
  | name s => inferInstanceAs (Decidable (scope.Known s))
  | binary op left right =>
    have := decidableKnown scope left
    have := decidableKnown scope right
    inferInstanceAs (Decidable (op ∈ ['+', '-', '*', '/', '^'] ∧ left.Known scope ∧
      right.Known scope))
  | unary op arg =>
    have := decidableKnown scope arg
    inferInstanceAs (Decidable (op = '-' ∧ arg.Known scope))
  | call f arg =>
    have := decidableKnown scope arg
    inferInstanceAs (Decidable (f ∈ ["sin", "cos", "exp", "ln", "log", "sqrt"] ∧ arg.Known scope))

/-- Exactly the expressions with a meaning emit code, whatever was emitted before. -/
theorem exists_emit_iff (code : Program ι) :
    (∃ code', e.emit scope code = .ok code') ↔ e.Known scope := by
  induction e generalizing code with
  | number x => simp [emit, Known]
  | name s =>
    rw [Known, ← Scope.exists_operand?_iff (ι := ι)]
    simp only [emit_name_eq_ok]
    exact ⟨fun ⟨_, i, hi, _⟩ => ⟨i, hi⟩, fun ⟨i, hi⟩ => ⟨_, i, hi, rfl⟩⟩
  | binary op left right hleft hright =>
    rw [Known, ← Instr.exists_ofBinary?_iff (ι := ι), ← hleft code]
    simp only [emit_binary_eq_ok]
    constructor
    · rintro ⟨_, c, hl, c', hr, i, hi, rfl⟩
      exact ⟨⟨i, hi⟩, ⟨c, hl⟩, (hright c).1 ⟨c', hr⟩⟩
    · rintro ⟨⟨i, hi⟩, ⟨c, hl⟩, hr⟩
      obtain ⟨c', hr⟩ := (hright c).2 hr
      exact ⟨_, c, hl, c', hr, i, hi, rfl⟩
  | unary op arg ih =>
    rw [Known, ← Instr.exists_ofUnary?_iff (ι := ι), ← ih code]
    simp only [emit_unary_eq_ok]
    exact ⟨fun ⟨_, c, hc, i, hi, _⟩ => ⟨⟨i, hi⟩, c, hc⟩,
      fun ⟨⟨i, hi⟩, c, hc⟩ => ⟨_, c, hc, i, hi, rfl⟩⟩
  | call f arg ih =>
    rw [Known, ← Instr.exists_ofFunction?_iff (ι := ι), ← ih code]
    simp only [emit_call_eq_ok]
    exact ⟨fun ⟨_, c, hc, i, hi, _⟩ => ⟨⟨i, hi⟩, c, hc⟩,
      fun ⟨⟨i, hi⟩, c, hc⟩ => ⟨_, c, hc, i, hi, rfl⟩⟩

/-- An expression with a meaning has a value in boxes that are long enough. -/
theorem Known.exists_value? (h : e.Known scope) (hvars : scope.vars.length ≤ env.vars.length)
    (hparams : scope.params.length ≤ env.params.length) : ∃ v, e.value? scope env = some v := by
  induction e with
  | number x => exact ⟨_, rfl⟩
  | name s => exact Scope.exists_value? h hvars hparams
  | binary op left right hleft hright =>
    obtain ⟨hop, hl, hr⟩ := h
    obtain ⟨a, ha⟩ := hleft hl
    obtain ⟨b, hb⟩ := hright hr
    obtain ⟨g, hg⟩ := exists_binaryMeaning? (ι := ι) hop
    exact ⟨g a b, by simp [value?, ha, hb, hg]⟩
  | unary op arg ih =>
    obtain ⟨rfl, harg⟩ := h
    obtain ⟨a, ha⟩ := ih harg
    exact ⟨-a, by simp [value?, ha]⟩
  | call f arg ih =>
    obtain ⟨hf, harg⟩ := h
    obtain ⟨a, ha⟩ := ih harg
    obtain ⟨g, hg⟩ := exists_functionMeaning? (ι := ι) hf
    exact ⟨g a, by simp [value?, ha, hg]⟩

/-- The code of an expression, put after what was emitted before, pushes its value on any stack.
What lies below stays as it is, so the codes of both operands of an operator fit together. -/
theorem runs_emit (he : e.emit scope code = .ok code') (hv : e.value? scope env = some v) :
    ∃ p, code' = p.reverse ++ code ∧ ∀ stack, Machine.Runs env p stack (v :: stack) := by
  induction e generalizing code code' v with
  | number x =>
    obtain rfl := Except.ok.inj he
    obtain rfl := Option.some.inj hv
    exact ⟨[_], rfl, fun stack => .single (Nat.zero_le _) rfl⟩
  | name s =>
    obtain ⟨i, hi, rfl⟩ := emit_name_eq_ok.1 he
    refine ⟨[i], rfl, fun stack => .single ?_ (Machine.step_operand hi hv stack)⟩
    rw [Instr.operands_of_operand? hi]
    exact Nat.zero_le _
  | binary op left right hleft hright =>
    obtain ⟨c, hl, c', hr, i, hi, rfl⟩ := emit_binary_eq_ok.1 he
    simp only [value?, Option.bind_eq_bind, Option.bind_eq_some_iff] at hv
    obtain ⟨a, ha, b, hb, g, hg, h⟩ := hv
    obtain rfl := Option.some.inj h
    obtain ⟨p, rfl, hp⟩ := hleft hl ha
    obtain ⟨q, rfl, hq⟩ := hright hr hb
    refine ⟨p ++ (q ++ [i]), by simp, fun stack => (hp stack).append ((hq _).append ?_)⟩
    refine .single ?_ (Machine.step_ofBinary? hi hg env a b stack)
    rw [Instr.operands_of_ofBinary? hi]
    exact Nat.le_add_left 2 stack.length
  | unary op arg ih =>
    obtain ⟨c, hc, i, hi, rfl⟩ := emit_unary_eq_ok.1 he
    obtain rfl := Instr.exists_ofUnary?_iff.1 ⟨i, hi⟩
    obtain rfl := Option.some.inj hi
    simp only [value?, Option.bind_eq_bind, Option.bind_eq_some_iff] at hv
    obtain ⟨a, ha, h⟩ := hv
    obtain rfl := Option.some.inj h
    obtain ⟨p, rfl, hp⟩ := ih hc ha
    refine ⟨p ++ [.neg], by simp, fun stack => (hp stack).append (.single ?_ rfl)⟩
    exact Nat.le_add_left 1 stack.length
  | call f arg ih =>
    obtain ⟨c, hc, i, hi, rfl⟩ := emit_call_eq_ok.1 he
    simp only [value?, Option.bind_eq_bind, Option.bind_eq_some_iff] at hv
    obtain ⟨a, ha, g, hg, h⟩ := hv
    obtain rfl := Option.some.inj h
    obtain ⟨p, rfl, hp⟩ := ih hc ha
    refine ⟨p ++ [i], by simp, fun stack => (hp stack).append ?_⟩
    refine .single ?_ (Machine.step_ofFunction? hi hg env a stack)
    rw [Instr.operands_of_ofFunction? hi]
    exact Nat.le_add_left 1 stack.length

/-- A compiled expression pushes its value on any stack. -/
theorem runs_compile {p : Program ι} (hp : e.compile scope = .ok p)
    (hv : e.value? scope env = some v) (stack : List ι) :
    Machine.Runs env p stack (v :: stack) := by
  obtain ⟨code, hcode, rfl⟩ := map_eq_ok.1 hp
  obtain ⟨q, rfl, hq⟩ := runs_emit hcode hv
  simpa using hq stack

theorem exists_compile_iff :
    (∃ p : Program ι, e.compile scope = .ok p) ↔ e.Known scope := by
  rw [← exists_emit_iff ([] : Program ι)]
  simp only [compile, map_eq_ok]
  exact ⟨fun ⟨_, code, hcode, _⟩ => ⟨code, hcode⟩, fun ⟨code, hcode⟩ => ⟨_, code, hcode, rfl⟩⟩

example : ¬ Known ⟨["x"], []⟩ (call "tan" (name "x")) := by decide

/-- Exactly the expressions with a meaning have a program, and executing it gives their value,
with each operand found on the stack, and leaves nothing behind. Names stand for variables first,
then for parameters. -/
theorem compile_correct (scope : Scope) (e : Expr) :
    ((∃ p : Program ι, e.compile scope = .ok p) ↔ e.Known scope) ∧
      ∀ (p : Program ι) (env : Surroundings ι), e.compile scope = .ok p →
        scope.vars.length ≤ env.vars.length → scope.params.length ≤ env.params.length →
        (∃ v, e.value? scope env = some v ∧ Machine.Runs env p [] [v] ∧
          ∀ m : Machine ι, m.execute p env = .ok (v, ⟨[]⟩)) ∧
        ∀ s, scope.value? env s = (Scope.lookup? scope.vars env.vars s).or
          ((Scope.lookup? scope.params env.params s).or (Scope.builtin? env s)) := by
  refine ⟨exists_compile_iff, fun p env hp hvars hparams =>
    ⟨?_, Scope.value?_eq_lookup? hvars hparams⟩⟩
  obtain ⟨v, hv⟩ := (exists_compile_iff.1 ⟨p, hp⟩).exists_value? hvars hparams
  have hruns := runs_compile hp hv []
  refine ⟨v, hv, hruns, fun m => ?_⟩
  rw [Machine.execute, hruns.run_eq]
  rfl

/-- A parameter may be called `t`, and then stands for itself and not for the time. -/
theorem compile_correct_shadowed_time :
    ∃ p : Program Interval,
      (binary '*' (binary '-' (name "x") (name "y")) (unary '-' (name "t"))).compile
        ⟨["x", "y"], ["t"]⟩ = .ok p ∧
      ∀ m : Machine Interval,
        m.execute p ⟨.whole, [.point 3.0, .point 1.0], [.point 2.0]⟩ =
          .ok ((Interval.point 3.0 - Interval.point 1.0) * -Interval.point 2.0, ⟨[]⟩) := by
  have hp : (binary '*' (binary '-' (name "x") (name "y")) (unary '-' (name "t"))).compile
      ⟨["x", "y"], ["t"]⟩ =
        .ok ([.var 0, .var 1, .sub, .param 0, .neg, .mul] : Program Interval) := rfl
  obtain ⟨⟨v, hv, -, hexecute⟩, -⟩ := (compile_correct _ _).2 _
    ⟨.whole, [.point 3.0, .point 1.0], [.point 2.0]⟩ hp (by simp) (by simp)
  obtain rfl : (Interval.point 3.0 - Interval.point 1.0) * -Interval.point 2.0 = v :=
    Option.some.inj hv
  exact ⟨_, hp, hexecute⟩

end Expr

end FlowTube
