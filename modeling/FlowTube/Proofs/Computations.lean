import Mathlib.Data.List.Forall2

/-! Computations that may fail. A result of steps in sequence is a result of each step, and a
map over a list that may fail is read entry by entry. Two computations over lists are compared place
by place. -/

namespace FlowTube

variable {ε α β : Type}

theorem bind_eq_ok {x : Except ε α} {f : α → Except ε β} {b : β} :
    x >>= f = .ok b ↔ ∃ a, x = .ok a ∧ f a = .ok b := by
  cases x with
  | error e => exact iff_of_false (fun h => nomatch h) (fun ⟨_, h, _⟩ => nomatch h)
  | ok a =>
    constructor
    · exact fun h => ⟨a, rfl, h⟩
    · rintro ⟨_, ha, h⟩
      cases ha
      exact h

theorem map_eq_ok {f : α → β} {x : Except ε α} {b : β} :
    f <$> x = .ok b ↔ ∃ a, x = .ok a ∧ f a = b := by
  rw [map_eq_pure_bind, bind_eq_ok]
  exact exists_congr fun a => and_congr_right fun _ => ⟨Except.ok.inj, congrArg Except.ok⟩

theorem mapError_eq_ok {ε' : Type} {f : ε → ε'} {m : Except ε α} {a : α}
    (h : m.mapError f = .ok a) : m = .ok a := by
  cases m with
  | error e => cases h
  | ok b => rw [← Except.ok.inj h]

theorem map_fst_eq_ok {m : Except ε (α × β)} {a : α} (h : (·.1) <$> m = .ok a) :
    ∃ b, m = .ok (a, b) := by
  obtain ⟨⟨_, b⟩, hm, rfl⟩ := map_eq_ok.1 h
  exact ⟨b, hm⟩

/-- Each entry of a list of results comes from the entry at its place. -/
theorem getElem?_of_mapM {f : α → Except ε β} {xs : List α} {ys : List β}
    (h : xs.mapM f = .ok ys) :
    ys.length = xs.length ∧ ∀ (j : ℕ) b, ys[j]? = some b → ∃ a, xs[j]? = some a ∧ f a = .ok b := by
  induction xs generalizing ys with
  | nil =>
    rw [List.mapM_nil] at h
    obtain rfl := Except.ok.inj h
    exact ⟨rfl, fun j b hb => by simp at hb⟩
  | cons x xs ih =>
    rw [List.mapM_cons] at h
    obtain ⟨y, hy, h⟩ := bind_eq_ok.1 h
    obtain ⟨zs, hzs, h⟩ := bind_eq_ok.1 h
    obtain rfl := Except.ok.inj h
    obtain ⟨hlen, hget⟩ := ih hzs
    refine ⟨by simp [hlen], fun j b hb => ?_⟩
    cases j with
    | zero => exact ⟨x, rfl, by rw [hy]; exact congrArg _ (by simpa using hb)⟩
    | succ j => exact hget j b (by simpa using hb)

/-- Results entry by entry make up a list of results. -/
theorem exists_mapM_eq_ok {f : α → Except ε β} {xs : List α}
    (h : ∀ a ∈ xs, ∃ b, f a = .ok b) : ∃ ys, xs.mapM f = .ok ys := by
  induction xs with
  | nil => exact ⟨[], List.mapM_nil⟩
  | cons a xs ih =>
    obtain ⟨b, hb⟩ := h a List.mem_cons_self
    obtain ⟨bs, hbs⟩ := ih fun a ha => h a (List.mem_cons_of_mem _ ha)
    exact ⟨b :: bs, by rw [List.mapM_cons, hb, hbs]; rfl⟩

/-- A map that succeeds everywhere is a map. -/
theorem mapM_eq_ok {f : α → Except ε β} {g : α → β} {xs : List α} (h : ∀ a ∈ xs, f a = .ok (g a)) :
    xs.mapM f = .ok (xs.map g) := by
  induction xs with
  | nil => exact List.mapM_nil
  | cons a xs ih =>
    rw [List.mapM_cons, h a List.mem_cons_self, ih fun b hb => h b (List.mem_cons_of_mem a hb)]
    rfl

/-- A check of every entry. -/
theorem forM_eq_ok {f : α → Except ε Unit} {xs : List α} :
    xs.forM f = .ok () ↔ ∀ a ∈ xs, f a = .ok () := by
  induction xs with
  | nil => exact iff_of_true rfl fun a ha => nomatch ha
  | cons a xs ih =>
    rw [List.forall_mem_cons, ← ih]
    refine Iff.trans bind_eq_ok ?_
    constructor
    · rintro ⟨⟨⟩, ha, hxs⟩
      exact ⟨ha, hxs⟩
    · rintro ⟨ha, hxs⟩
      exact ⟨(), ha, hxs⟩

/-! ### Results and failures -/

variable {P P' : α → Prop} {E : ε → Prop}

/-- The result has the one property, or the failure has the other. -/
def Settles (m : Except ε α) (P : α → Prop) (E : ε → Prop) : Prop :=
  match m with
  | .ok a => P a
  | .error e => E e

theorem Settles.bind {m : Except ε α} {f : α → Except ε β} {Q : β → Prop} (hm : Settles m P E)
    (hf : ∀ a, P a → Settles (f a) Q E) : Settles (m >>= f) Q E := by
  cases m with
  | ok a => exact hf a hm
  | error e => exact hm

theorem Settles.map {m : Except ε α} {g : α → β} {Q : β → Prop}
    (h : Settles m (fun a => Q (g a)) E) : Settles (g <$> m) Q E := by
  cases m with
  | ok a => exact h
  | error e => exact h

theorem Settles.mono {m : Except ε α} {E' : ε → Prop} (hm : Settles m P E)
    (hP : ∀ a, P a → P' a) (hE : ∀ e, E e → E' e) : Settles m P' E' := by
  cases m with
  | ok a => exact hP a hm
  | error e => exact hE e hm

theorem Settles.mapM {f : β → Except ε α} {xs : List β} (h : ∀ b ∈ xs, Settles (f b) P E) :
    Settles (xs.mapM f) (fun as => as.length = xs.length ∧ ∀ a ∈ as, P a) E := by
  induction xs with
  | nil =>
    rw [List.mapM_nil]
    exact ⟨rfl, by simp⟩
  | cons b xs ih =>
    rw [List.mapM_cons]
    refine (h b List.mem_cons_self).bind fun a ha => ?_
    refine (ih fun b hb => h b (List.mem_cons_of_mem _ hb)).bind fun as has => ?_
    exact ⟨congrArg (· + 1) has.1, List.forall_mem_cons.2 ⟨ha, has.2⟩⟩

/-! ### Lists place by place -/

theorem forall₂_trans {γ : Type} {R : γ → β → Prop} {S : β → α → Prop} {T : γ → α → Prop}
    {as : List α} {bs : List β} {cs : List γ} (hcb : List.Forall₂ R cs bs)
    (hba : List.Forall₂ S bs as) (h : ∀ c b a, R c b → S b a → T c a) : List.Forall₂ T cs as := by
  induction hba generalizing cs with
  | nil =>
    cases hcb
    exact .nil
  | cons hba _ ih =>
    cases hcb with
    | cons hcb hrest => exact .cons (h _ _ _ hcb hba) (ih hrest)

/-- Operations that respect relations between their operands do so place by place. -/
theorem forall₂_zipWith {α' β' γ γ' : Type} {R : α' → α → Prop} {S : β' → β → Prop}
    {T : γ' → γ → Prop} {f' : α' → β' → γ'} {f : α → β → γ}
    (h : ∀ a' a b' b, R a' a → S b' b → T (f' a' b') (f a b)) {as' : List α'} {as : List α}
    {bs' : List β'} {bs : List β} (ha : List.Forall₂ R as' as) (hb : List.Forall₂ S bs' bs) :
    List.Forall₂ T (List.zipWith f' as' bs') (List.zipWith f as bs) := by
  induction ha generalizing bs' bs with
  | nil => exact .nil
  | cons ha _ ih =>
    cases hb with
    | nil => exact .nil
    | cons hb hrest => exact .cons (h _ _ _ _ ha hb) (ih hrest)

end FlowTube
