import FlowTube.Expr.Grammar
import FlowTube.Expr.Parser
import FlowTube.Proofs.Computations

/-! The reader accepts exactly the grammar. What it reads is a phrase of the grammar at the front
of its tokens, by induction along the recursion of the reader. Conversely a phrase is read
wherever the token after it does not continue it, by induction on the phrase: a sum or a product
grows on its right end while the reader starts on its left, so the reader is shown to arrive in
the loop with the tree of what it has passed. Each list of tokens has one tree then. -/

namespace FlowTube.Expr

variable {ts us rest : List Token} {e left : Expr} {op : Char} {t : Token}

/-! ### The reader without its lengths -/

/-- What was read and the tokens that are left, without the bound on their number. -/
def bare {P : List Token → Prop} (r : Except Problem (Expr × { rest // P rest })) :
    Except Problem (Expr × List Token) :=
  (fun p => (p.1, p.2.1)) <$> r

theorem bare_eq_ok {P : List Token → Prop} {r : Except Problem (Expr × { rest // P rest })} :
    bare r = .ok (e, rest) ↔ ∃ h, r = .ok (e, ⟨rest, h⟩) := by
  rw [bare, map_eq_ok]
  constructor
  · rintro ⟨⟨e, rest, h⟩, hr, heq⟩
    cases heq
    exact ⟨h, hr⟩
  · rintro ⟨h, hr⟩
    exact ⟨_, hr, rfl⟩

theorem length_lt_of_bare {r : Except Problem (Expr × Shorter ts)} (h : bare r = .ok (e, rest)) :
    rest.length < ts.length := (bare_eq_ok.1 h).1

theorem bare_readSum (ts : List Token) : bare (readSum ts) =
    bare (readProduct ts) >>= fun r => bare (readSumTail r.1 r.2) := by
  rw [readSum]
  rcases readProduct ts with _ | ⟨left, mid, h⟩
  · rfl
  · change _ = bare (readSumTail left mid)
    cases hs : readSumTail left mid <;> simp only [hs] <;> rfl

theorem bare_readProduct (ts : List Token) : bare (readProduct ts) =
    bare (readSigned ts) >>= fun r => bare (readProductTail r.1 r.2) := by
  rw [readProduct]
  rcases readSigned ts with _ | ⟨left, mid, h⟩
  · rfl
  · change _ = bare (readProductTail left mid)
    cases hs : readProductTail left mid <;> simp only [hs] <;> rfl

/-- The operator of a token between terms. -/
def sumOp? : Token → Option Char
  | .plus => some '+'
  | .minus => some '-'
  | _ => none

/-- The operator of a token between factors. -/
def productOp? : Token → Option Char
  | .star => some '*'
  | .slash => some '/'
  | _ => none

theorem bare_readSumTail_cons (h : sumOp? t = some op) (left : Expr) (us : List Token) :
    bare (readSumTail left (t :: us)) =
      bare (readProduct us) >>= fun r => bare (readSumTail (.binary op left r.1) r.2) := by
  unfold sumOp? at h
  split at h <;> cases h <;> rw [readSumTail] <;> rcases readProduct us with _ | ⟨right, mid, h⟩
  · rfl
  · dsimp only
    change _ = bare (readSumTail (.binary '+' left right) mid)
    cases readSumTail (.binary '+' left right) mid <;> rfl
  · rfl
  · dsimp only
    change _ = bare (readSumTail (.binary '-' left right) mid)
    cases readSumTail (.binary '-' left right) mid <;> rfl

theorem bare_readProductTail_cons (h : productOp? t = some op) (left : Expr) (us : List Token) :
    bare (readProductTail left (t :: us)) =
      bare (readSigned us) >>= fun r => bare (readProductTail (.binary op left r.1) r.2) := by
  unfold productOp? at h
  split at h <;> cases h <;> rw [readProductTail] <;> rcases readSigned us with _ | ⟨right, mid, h⟩
  · rfl
  · dsimp only
    change _ = bare (readProductTail (.binary '*' left right) mid)
    cases readProductTail (.binary '*' left right) mid <;> rfl
  · rfl
  · dsimp only
    change _ = bare (readProductTail (.binary '/' left right) mid)
    cases readProductTail (.binary '/' left right) mid <;> rfl

theorem bare_readSumTail_of_none (h : ∀ t ∈ ts.head?, sumOp? t = none) (left : Expr) :
    bare (readSumTail left ts) = .ok (left, ts) := by
  rw [readSumTail]
  · rfl
  · rintro us rfl
    simp [sumOp?] at h
  · rintro us rfl
    simp [sumOp?] at h

theorem bare_readProductTail_of_none (h : ∀ t ∈ ts.head?, productOp? t = none) (left : Expr) :
    bare (readProductTail left ts) = .ok (left, ts) := by
  rw [readProductTail]
  · rfl
  · rintro us rfl
    simp [productOp?] at h
  · rintro us rfl
    simp [productOp?] at h

theorem bare_readSigned_minus (us : List Token) : bare (readSigned (.minus :: us)) =
    bare (readSigned us) >>= fun r => .ok (.unary '-' r.1, r.2) := by
  rw [readSigned]
  cases readSigned us <;> rfl

theorem bare_readSigned_of_ne (h : ∀ us, ts ≠ .minus :: us) :
    bare (readSigned ts) = bare (readPower ts) := by
  rw [readSigned]
  exact h

/-- The exponent that may follow. -/
def raising : Expr × List Token → Except Problem (Expr × List Token)
  | (base, .caret :: us) => bare (readSigned us) >>= fun r => .ok (.binary '^' base r.1, r.2)
  | r => .ok r

theorem bare_readPower (ts : List Token) :
    bare (readPower ts) = bare (readAtom ts) >>= raising := by
  rw [readPower]
  rcases readAtom ts with _ | ⟨base, mid, h⟩
  · rfl
  · rcases mid with _ | ⟨t, us⟩
    · rfl
    · cases t <;> try rfl
      change _ = raising (base, .caret :: us)
      dsimp only [raising]
      cases readSigned us <;> rfl

theorem bare_readAtom_number (x : Float) (us : List Token) :
    bare (readAtom (.number x :: us)) = .ok (.number x, us) := by
  rw [readAtom]
  rfl

theorem bare_readAtom_name (s : String) (h : ∀ vs, us ≠ .leftParen :: vs) :
    bare (readAtom (.word s :: us)) = .ok (.name s, us) := by
  rw [readAtom]
  · rfl
  · exact h

/-- The parenthesis that has to follow. -/
def closing (f : Expr → Expr) : Expr × List Token → Except Problem (Expr × List Token)
  | (e, .rightParen :: rest) => .ok (f e, rest)
  | _ => .error .unclosed

theorem bare_readAtom_call (s : String) (us : List Token) :
    bare (readAtom (.word s :: .leftParen :: us)) =
      bare (readSum us) >>= closing (.call s) := by
  rw [readAtom]
  rcases readSum us with _ | ⟨arg, mid, h⟩
  · rfl
  · rcases mid with _ | ⟨t, us⟩
    · rfl
    · cases t <;> rfl

theorem bare_readAtom_group (us : List Token) :
    bare (readAtom (.leftParen :: us)) = bare (readSum us) >>= closing id := by
  rw [readAtom]
  rcases readSum us with _ | ⟨e, mid, h⟩
  · rfl
  · rcases mid with _ | ⟨t, us⟩
    · rfl
    · cases t <;> rfl

/-! ### Phrases are read -/

/-- How closely a token binds to what stands before it: a parenthesis makes a name a function, an
exponent raises an atom, and so on down to tokens that end a sum. -/
def Token.strength : Token → ℕ
  | .leftParen => 4
  | .caret => 3
  | .star | .slash => 2
  | .plus | .minus => 1
  | .number _ | .word _ | .rightParen => 0

/-- The first token, if any, binds less closely than the given strength. -/
def Ends (n : ℕ) (rest : List Token) : Prop := ∀ t ∈ rest.head?, t.strength < n

theorem Ends.mono {m n : ℕ} (h : Ends m rest) (hmn : m ≤ n) : Ends n rest :=
  fun t ht => Nat.lt_of_lt_of_le (h t ht) hmn

theorem ends_cons {n : ℕ} : Ends n (t :: us) ↔ t.strength < n := by
  simp [Ends]

theorem sumOp?_eq_none (h : t.strength < 1) : sumOp? t = none := by
  cases t <;> simp_all [Token.strength, sumOp?]

theorem productOp?_eq_none (h : t.strength < 2) : productOp? t = none := by
  cases t <;> simp_all [Token.strength, productOp?]

theorem bare_readSumTail_of_ends (h : Ends 1 rest) (e : Expr) :
    bare (readSumTail e rest) = .ok (e, rest) :=
  bare_readSumTail_of_none (fun t ht => sumOp?_eq_none (h t ht)) e

theorem bare_readProductTail_of_ends (h : Ends 2 rest) (e : Expr) :
    bare (readProductTail e rest) = .ok (e, rest) :=
  bare_readProductTail_of_none (fun t ht => productOp?_eq_none (h t ht)) e

theorem raising_of_ends (h : Ends 3 rest) (e : Expr) : raising (e, rest) = .ok (e, rest) := by
  rcases rest with _ | ⟨t, us⟩
  · rfl
  · cases t <;> first | rfl | exact absurd (ends_cons.1 h) (by decide)

/-- A power does not begin with a minus sign, so what is read as a power is read as a signed one. -/
theorem bare_readSigned_of_readPower {r : Expr × List Token} (h : bare (readPower ts) = .ok r) :
    bare (readSigned ts) = .ok r := by
  rw [bare_readSigned_of_ne, h]
  rintro us rfl
  rw [bare_readPower, readAtom.eq_def] at h
  contradiction

mutual

/-- The reader passes a sum and then is in the loop for further terms. -/
theorem bare_readSum_append {ts rest : List Token} {e : Expr} :
    IsSum ts e → Ends 2 rest → bare (readSum (ts ++ rest)) = bare (readSumTail e rest)
  | .product h, hrest => by
    rw [bare_readSum, bare_readProduct_append h (hrest.mono (by omega)),
      bare_readProductTail_of_ends hrest]
    rfl
  | .add hts hus, hrest => by
    rw [List.append_assoc, List.cons_append, bare_readSum_append hts (ends_cons.2 (by decide)),
      bare_readSumTail_cons rfl, bare_readProduct_append hus (hrest.mono (by omega)),
      bare_readProductTail_of_ends hrest]
    rfl
  | .sub hts hus, hrest => by
    rw [List.append_assoc, List.cons_append, bare_readSum_append hts (ends_cons.2 (by decide)),
      bare_readSumTail_cons rfl, bare_readProduct_append hus (hrest.mono (by omega)),
      bare_readProductTail_of_ends hrest]
    rfl

/-- The reader passes a product and then is in the loop for further factors. -/
theorem bare_readProduct_append {ts rest : List Token} {e : Expr} :
    IsProduct ts e → Ends 3 rest → bare (readProduct (ts ++ rest)) = bare (readProductTail e rest)
  | .signed h, hrest => by
    rw [bare_readProduct, bare_readSigned_append h hrest]
    rfl
  | .mul hts hus, hrest => by
    rw [List.append_assoc, List.cons_append, bare_readProduct_append hts (ends_cons.2 (by decide)),
      bare_readProductTail_cons rfl, bare_readSigned_append hus hrest]
    rfl
  | .div hts hus, hrest => by
    rw [List.append_assoc, List.cons_append, bare_readProduct_append hts (ends_cons.2 (by decide)),
      bare_readProductTail_cons rfl, bare_readSigned_append hus hrest]
    rfl

theorem bare_readSigned_append {ts rest : List Token} {e : Expr} :
    IsSigned ts e → Ends 3 rest → bare (readSigned (ts ++ rest)) = .ok (e, rest)
  | .power h, hrest => bare_readSigned_of_readPower (bare_readPower_append h hrest)
  | .neg h, hrest => by
    rw [List.cons_append, bare_readSigned_minus, bare_readSigned_append h hrest]
    rfl

theorem bare_readPower_append {ts rest : List Token} {e : Expr} :
    IsPower ts e → Ends 3 rest → bare (readPower (ts ++ rest)) = .ok (e, rest)
  | .atom h, hrest => by
    rw [bare_readPower, bare_readAtom_append h (hrest.mono (by omega))]
    exact raising_of_ends hrest _
  | .pow hts hus, hrest => by
    rw [List.append_assoc, List.cons_append, bare_readPower,
      bare_readAtom_append hts (ends_cons.2 (by decide))]
    change raising (_, .caret :: _) = _
    rw [raising, bare_readSigned_append hus hrest]
    rfl

theorem bare_readAtom_append {ts rest : List Token} {e : Expr} :
    IsAtom ts e → Ends 4 rest → bare (readAtom (ts ++ rest)) = .ok (e, rest)
  | .number x, _ => bare_readAtom_number x _
  | .name s, hrest => by
    refine bare_readAtom_name s ?_
    rintro vs rfl
    exact absurd (ends_cons.1 hrest) (by decide)
  | .call s h, _ => by
    have hclosed : Ends 1 (.rightParen :: rest) := ends_cons.2 (by decide)
    rw [List.append_assoc, List.cons_append, List.cons_append, bare_readAtom_call,
      List.singleton_append, bare_readSum_append h (hclosed.mono (by omega)),
      bare_readSumTail_of_ends hclosed]
    rfl
  | .group h, _ => by
    have hclosed : Ends 1 (.rightParen :: rest) := ends_cons.2 (by decide)
    rw [List.append_assoc, List.cons_append, bare_readAtom_group, List.singleton_append,
      bare_readSum_append h (hclosed.mono (by omega)), bare_readSumTail_of_ends hclosed]
    rfl

end

/-! ### What is read is a phrase -/

theorem IsSum.append_of_sumOp? {a b : Expr} (h : sumOp? t = some op) (hts : IsSum ts a)
    (hus : IsProduct us b) : IsSum (ts ++ t :: us) (.binary op a b) := by
  unfold sumOp? at h
  split at h <;> cases h
  · exact .add hts hus
  · exact .sub hts hus

theorem IsProduct.append_of_productOp? {a b : Expr} (h : productOp? t = some op)
    (hts : IsProduct ts a) (hus : IsSigned us b) : IsProduct (ts ++ t :: us) (.binary op a b) := by
  unfold productOp? at h
  split at h <;> cases h
  · exact .mul hts hus
  · exact .div hts hus

/-- A list begins with an operator, or it does not. -/
theorem none_or_exists_op (op? : Token → Option Char) (ts : List Token) :
    (∀ t ∈ ts.head?, op? t = none) ∨ ∃ t us op, ts = t :: us ∧ op? t = some op := by
  rcases ts with _ | ⟨t, us⟩
  · simp
  · cases h : op? t with
    | none => simp [h]
    | some op => exact Or.inr ⟨t, us, op, rfl, h⟩

theorem closing_eq_ok {f : Expr → Expr} {r : Expr × List Token} :
    closing f r = .ok (e, rest) ↔ ∃ a, r = (a, .rightParen :: rest) ∧ f a = e := by
  unfold closing
  split
  · simp [and_comm]
  · simp_all

theorem readSumTail_cases (h : bare (readSumTail left ts) = .ok (e, rest)) :
    (e = left ∧ rest = ts) ∨ ∃ t us op right mid, ts = t :: us ∧ sumOp? t = some op ∧
      bare (readProduct us) = .ok (right, mid) ∧
      bare (readSumTail (.binary op left right) mid) = .ok (e, rest) := by
  obtain hend | ⟨t, us, op, rfl, hop⟩ := none_or_exists_op sumOp? ts
  · rw [bare_readSumTail_of_none hend] at h
    cases h
    exact Or.inl ⟨rfl, rfl⟩
  · simp only [bare_readSumTail_cons hop, bind_eq_ok, Prod.exists] at h
    obtain ⟨right, mid, hproduct, htail⟩ := h
    exact Or.inr ⟨t, us, op, right, mid, rfl, hop, hproduct, htail⟩

theorem readProductTail_cases (h : bare (readProductTail left ts) = .ok (e, rest)) :
    (e = left ∧ rest = ts) ∨ ∃ t us op right mid, ts = t :: us ∧ productOp? t = some op ∧
      bare (readSigned us) = .ok (right, mid) ∧
      bare (readProductTail (.binary op left right) mid) = .ok (e, rest) := by
  obtain hend | ⟨t, us, op, rfl, hop⟩ := none_or_exists_op productOp? ts
  · rw [bare_readProductTail_of_none hend] at h
    cases h
    exact Or.inl ⟨rfl, rfl⟩
  · simp only [bare_readProductTail_cons hop, bind_eq_ok, Prod.exists] at h
    obtain ⟨right, mid, hsigned, htail⟩ := h
    exact Or.inr ⟨t, us, op, right, mid, rfl, hop, hsigned, htail⟩

theorem readSigned_cases (h : bare (readSigned ts) = .ok (e, rest)) :
    (∃ us a, ts = .minus :: us ∧ bare (readSigned us) = .ok (a, rest) ∧ e = .unary '-' a) ∨
      bare (readPower ts) = .ok (e, rest) := by
  by_cases hminus : ∃ us, ts = .minus :: us
  · obtain ⟨us, rfl⟩ := hminus
    simp only [bare_readSigned_minus, bind_eq_ok, Prod.exists] at h
    obtain ⟨a, mid, harg, h⟩ := h
    cases h
    exact Or.inl ⟨us, a, rfl, harg, rfl⟩
  · rw [bare_readSigned_of_ne (not_exists.1 hminus)] at h
    exact Or.inr h

theorem readPower_cases (h : bare (readPower ts) = .ok (e, rest)) :
    bare (readAtom ts) = .ok (e, rest) ∨ ∃ a us b, bare (readAtom ts) = .ok (a, .caret :: us) ∧
      bare (readSigned us) = .ok (b, rest) ∧ e = .binary '^' a b := by
  rw [bare_readPower, bind_eq_ok] at h
  obtain ⟨r, hatom, h⟩ := h
  unfold raising at h
  split at h
  · simp only [bind_eq_ok, Prod.exists] at h
    obtain ⟨b, mid, hsigned, h⟩ := h
    cases h
    exact Or.inr ⟨_, _, b, hatom, hsigned, rfl⟩
  · cases h
    exact Or.inl hatom

theorem readAtom_cases (h : bare (readAtom ts) = .ok (e, rest)) :
    (∃ x, ts = .number x :: rest ∧ e = .number x) ∨ (∃ s, ts = .word s :: rest ∧ e = .name s) ∨
      (∃ s us a, ts = .word s :: .leftParen :: us ∧
        bare (readSum us) = .ok (a, .rightParen :: rest) ∧ e = .call s a) ∨
      ∃ us, ts = .leftParen :: us ∧ bare (readSum us) = .ok (e, .rightParen :: rest) := by
  match ts with
  | .number x :: us =>
    rw [bare_readAtom_number] at h
    cases h
    exact Or.inl ⟨x, rfl, rfl⟩
  | .leftParen :: us =>
    simp only [bare_readAtom_group, bind_eq_ok, closing_eq_ok] at h
    obtain ⟨_, hsum, _, rfl, rfl⟩ := h
    exact Or.inr (Or.inr (Or.inr ⟨us, rfl, hsum⟩))
  | .word s :: us =>
    by_cases hcall : ∃ vs, us = .leftParen :: vs
    · obtain ⟨vs, rfl⟩ := hcall
      simp only [bare_readAtom_call, bind_eq_ok, closing_eq_ok] at h
      obtain ⟨_, hsum, a, rfl, rfl⟩ := h
      exact Or.inr (Or.inr (Or.inl ⟨s, vs, a, rfl, hsum, rfl⟩))
    · rw [bare_readAtom_name s (not_exists.1 hcall)] at h
      cases h
      exact Or.inr (Or.inl ⟨s, rfl, rfl⟩)
  | [] | .plus :: _ | .minus :: _ | .star :: _ | .slash :: _ | .caret :: _ | .rightParen :: _ =>
    rw [readAtom.eq_def] at h
    contradiction

mutual

theorem isSum_of_readSum {ts rest : List Token} {e : Expr} (h : bare (readSum ts) = .ok (e, rest)) :
    ∃ us, ts = us ++ rest ∧ IsSum us e := by
  simp only [bare_readSum, bind_eq_ok, Prod.exists] at h
  obtain ⟨left, mid, hproduct, htail⟩ := h
  have hlength := length_lt_of_bare hproduct
  obtain ⟨us, hts, hus⟩ := isProduct_of_readProduct hproduct
  obtain ⟨vs, hmid, hvs⟩ := isSum_of_readSumTail htail
  exact ⟨us ++ vs, by rw [hts, hmid, List.append_assoc], hvs us (.product hus)⟩
termination_by (ts.length, 4)

/-- What the loop adds to a sum makes a longer sum. -/
theorem isSum_of_readSumTail {ts rest : List Token} {left e : Expr}
    (h : bare (readSumTail left ts) = .ok (e, rest)) :
    ∃ us, ts = us ++ rest ∧ ∀ ls, IsSum ls left → IsSum (ls ++ us) e := by
  obtain ⟨he, hrest⟩ | ⟨t, us, op, right, mid, hts, hop, hproduct, htail⟩ := readSumTail_cases h
  · exact ⟨[], hrest.symm, fun ls hls => by rwa [List.append_nil, he]⟩
  · have hlength := length_lt_of_bare hproduct
    obtain ⟨vs, hus, hvs⟩ := isProduct_of_readProduct hproduct
    obtain ⟨ws, hmid, hws⟩ := isSum_of_readSumTail htail
    refine ⟨t :: (vs ++ ws), by simp [hts, hus, hmid], fun ls hls => ?_⟩
    simpa using hws _ (IsSum.append_of_sumOp? hop hls hvs)
termination_by (ts.length, 4)

theorem isProduct_of_readProduct {ts rest : List Token} {e : Expr}
    (h : bare (readProduct ts) = .ok (e, rest)) : ∃ us, ts = us ++ rest ∧ IsProduct us e := by
  simp only [bare_readProduct, bind_eq_ok, Prod.exists] at h
  obtain ⟨left, mid, hsigned, htail⟩ := h
  have hlength := length_lt_of_bare hsigned
  obtain ⟨us, hts, hus⟩ := isSigned_of_readSigned hsigned
  obtain ⟨vs, hmid, hvs⟩ := isProduct_of_readProductTail htail
  exact ⟨us ++ vs, by rw [hts, hmid, List.append_assoc], hvs us (.signed hus)⟩
termination_by (ts.length, 3)

/-- What the loop adds to a product makes a longer product. -/
theorem isProduct_of_readProductTail {ts rest : List Token} {left e : Expr}
    (h : bare (readProductTail left ts) = .ok (e, rest)) :
    ∃ us, ts = us ++ rest ∧ ∀ ls, IsProduct ls left → IsProduct (ls ++ us) e := by
  obtain ⟨he, hrest⟩ | ⟨t, us, op, right, mid, hts, hop, hsigned, htail⟩ := readProductTail_cases h
  · exact ⟨[], hrest.symm, fun ls hls => by rwa [List.append_nil, he]⟩
  · have hlength := length_lt_of_bare hsigned
    obtain ⟨vs, hus, hvs⟩ := isSigned_of_readSigned hsigned
    obtain ⟨ws, hmid, hws⟩ := isProduct_of_readProductTail htail
    refine ⟨t :: (vs ++ ws), by simp [hts, hus, hmid], fun ls hls => ?_⟩
    simpa using hws _ (IsProduct.append_of_productOp? hop hls hvs)
termination_by (ts.length, 3)

theorem isSigned_of_readSigned {ts rest : List Token} {e : Expr}
    (h : bare (readSigned ts) = .ok (e, rest)) : ∃ us, ts = us ++ rest ∧ IsSigned us e := by
  obtain ⟨us, a, hts, harg, he⟩ | hpower := readSigned_cases h
  · obtain ⟨vs, hus, hvs⟩ := isSigned_of_readSigned harg
    exact ⟨.minus :: vs, by rw [hts, hus, List.cons_append], he ▸ .neg hvs⟩
  · obtain ⟨us, hts, hus⟩ := isPower_of_readPower hpower
    exact ⟨us, hts, .power hus⟩
termination_by (ts.length, 2)

theorem isPower_of_readPower {ts rest : List Token} {e : Expr}
    (h : bare (readPower ts) = .ok (e, rest)) : ∃ us, ts = us ++ rest ∧ IsPower us e := by
  obtain hatom | ⟨a, us, b, hatom, hsigned, he⟩ := readPower_cases h
  · obtain ⟨us, hts, hus⟩ := isAtom_of_readAtom hatom
    exact ⟨us, hts, .atom hus⟩
  · have hlength := length_lt_of_bare hatom
    obtain ⟨vs, hts, hvs⟩ := isAtom_of_readAtom hatom
    obtain ⟨ws, hus, hws⟩ := isSigned_of_readSigned hsigned
    exact ⟨vs ++ .caret :: ws, by simp [hts, hus], he ▸ .pow hvs hws⟩
termination_by (ts.length, 1)

theorem isAtom_of_readAtom {ts rest : List Token} {e : Expr}
    (h : bare (readAtom ts) = .ok (e, rest)) : ∃ us, ts = us ++ rest ∧ IsAtom us e := by
  obtain ⟨x, hts, he⟩ | ⟨s, hts, he⟩ | ⟨s, us, a, hts, hsum, he⟩ | ⟨us, hts, hsum⟩ :=
    readAtom_cases h
  · exact ⟨[.number x], hts, he ▸ .number x⟩
  · exact ⟨[.word s], hts, he ▸ .name s⟩
  · obtain ⟨vs, hus, hvs⟩ := isSum_of_readSum hsum
    exact ⟨.word s :: .leftParen :: vs ++ [.rightParen], by simp [hts, hus], he ▸ .call s hvs⟩
  · obtain ⟨vs, hus, hvs⟩ := isSum_of_readSum hsum
    exact ⟨.leftParen :: vs ++ [.rightParen], by simp [hts, hus], .group hvs⟩
termination_by (ts.length, 0)

end

/-! ### The whole of the tokens -/

theorem readSum_eq_ok_iff :
    (∃ h, readSum ts = .ok (e, ⟨[], h⟩)) ↔ IsSum ts e := by
  have hbare : bare (readSum ts) = .ok (e, []) ↔ ∃ h, readSum ts = .ok (e, ⟨[], h⟩) := bare_eq_ok
  refine hbare.symm.trans ⟨fun h => ?_, fun h => ?_⟩
  · obtain ⟨us, rfl, hus⟩ := isSum_of_readSum h
    rwa [List.append_nil]
  · have hend : Ends 1 [] := by simp [Ends]
    have hread := bare_readSum_append h (hend.mono (by omega))
    rwa [List.append_nil, bare_readSumTail_of_ends hend] at hread

theorem IsSum.unique {e' : Expr} (h : IsSum ts e) (h' : IsSum ts e') : e = e' := by
  obtain ⟨_, hread⟩ := readSum_eq_ok_iff.2 h
  obtain ⟨_, hread'⟩ := readSum_eq_ok_iff.2 h'
  cases hread.symm.trans hread'
  rfl

/-- A text is an expression if its tokens are a sum. -/
theorem parse_eq_ok_iff {source : String} :
    parse source = .ok e ↔ ∃ ts, tokenize source.toList = .ok ts ∧ IsSum ts e := by
  simp only [parse, bind_eq_ok, ← readSum_eq_ok_iff, Prod.exists]
  refine exists_congr fun ts => and_congr_right fun _ => ⟨?_, ?_⟩
  · rintro ⟨a, ⟨rest, hrest⟩, hread, h⟩
    split at h
    · cases h
      obtain rfl : rest = [] := List.isEmpty_iff.1 ‹_›
      exact ⟨hrest, hread⟩
    · contradiction
  · rintro ⟨h, hread⟩
    exact ⟨e, ⟨[], h⟩, hread, rfl⟩

/-- Reading takes all tokens and gives a tree exactly if it is the tree of the tokens in the
grammar, and there is no other one. Tokens without a tree are refused, or some are left. -/
theorem readSum_exact (ts : List Token) :
    (∀ e, (∃ h, readSum ts = .ok (e, ⟨[], h⟩)) ↔ IsSum ts e) ∧
      (∀ e e', IsSum ts e → IsSum ts e' → e = e') ∧
      ((∃ e, IsSum ts e) ∨ (∃ p, readSum ts = .error p) ∨
        ∃ e rest, readSum ts = .ok (e, rest) ∧ rest.1 ≠ []) := by
  refine ⟨fun e => readSum_eq_ok_iff, fun e e' => IsSum.unique, ?_⟩
  rcases hread : readSum ts with p | ⟨e, rest, hrest⟩
  · exact Or.inr (Or.inl ⟨p, rfl⟩)
  · rcases rest with _ | ⟨t, us⟩
    · exact Or.inl ⟨e, readSum_eq_ok_iff.1 ⟨hrest, hread⟩⟩
    · exact Or.inr (Or.inr ⟨e, _, rfl, List.cons_ne_nil t us⟩)

/-- A sign is weaker than a power, and powers group to the right. -/
theorem readSum_exact_sign_power :
    (∃ h, readSum [.minus, .word "x", .caret, .number 2.0] =
      .ok (.unary '-' (.binary '^' (.name "x") (.number 2.0)), ⟨[], h⟩)) ∧
    (∃ h, readSum [.word "a", .caret, .minus, .word "b", .caret, .word "c"] =
      .ok (.binary '^' (.name "a") (.unary '-' (.binary '^' (.name "b") (.name "c"))), ⟨[], h⟩)) ∧
    ∀ e, IsSum [.minus, .word "x", .caret, .number 2.0] e →
      e = .unary '-' (.binary '^' (.name "x") (.number 2.0)) := by
  have hsign : IsSum [.minus, .word "x", .caret, .number 2.0]
      (.unary '-' (.binary '^' (.name "x") (.number 2.0))) :=
    .product (.signed (.neg (.power (.pow (.name "x") (.power (.atom (.number 2.0)))))))
  have hpower : IsSum [.word "a", .caret, .minus, .word "b", .caret, .word "c"]
      (.binary '^' (.name "a") (.unary '-' (.binary '^' (.name "b") (.name "c")))) :=
    .product (.signed (.power (.pow (.name "a")
      (.neg (.power (.pow (.name "b") (.power (.atom (.name "c")))))))))
  exact ⟨((readSum_exact _).1 _).2 hsign, ((readSum_exact _).1 _).2 hpower,
    fun e he => (readSum_exact _).2.1 e _ he hsign⟩

end FlowTube.Expr
