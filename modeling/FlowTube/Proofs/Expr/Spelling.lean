import FlowTube.Proofs.Decimal.Numerals
import FlowTube.Proofs.Expr.Literals
import FlowTube.Proofs.Text.Classes

/-! How lists of tokens are written. A token has spellings, and a text is made of them with blanks
before, between and behind. Blanks have to stand between two spellings if the first token goes on
with the character that the second spelling starts with. The tokenizer takes the longest run of
characters each time, and so undoes writing; what it accepts was written in this way, with the blanks
that it drops as the gaps. -/

namespace FlowTube.Expr

open Decimal (IsNumeral ConvertsTo)

variable {c : Char} {cs text rest gap trail : List Char} {t u : Token} {ts : List Token}

theorem isNumberChar_of_isLetter (h : Text.isLetter c = true) : isNumberChar c = false := by
  refine Bool.eq_false_iff.2 fun hnumber => ?_
  rw [isNumberChar, Bool.or_eq_true, beq_iff_eq] at hnumber
  rcases hnumber with hdigit | rfl
  · have hd := Text.digit_bounds hdigit
    have hl := Text.letter_cases h
    omega
  · exact absurd h (by decide)

/-! ### Spellings -/

/-- The tokens that are written as one character. -/
def symbols : List (Char × Token) :=
  [('+', .plus), ('-', .minus), ('*', .star), ('/', .slash), ('^', .caret), ('(', .leftParen),
    (')', .rightParen)]

theorem symbols_forall {p : Char × Token → Prop} : (∀ s ∈ symbols, p s) ↔
    p ('+', .plus) ∧ p ('-', .minus) ∧ p ('*', .star) ∧ p ('/', .slash) ∧ p ('^', .caret) ∧
      p ('(', .leftParen) ∧ p (')', .rightParen) := by
  simp [symbols]

/-- How a token is written. -/
inductive Spells : Token → List Char → Prop
  | number {x : Float} {cs : List Char} (hcs : IsNumeral cs) (hx : ConvertsTo cs x) :
      Spells (.number x) cs
  | word {c : Char} {cs : List Char} (hc : Text.isLetter c = true)
      (hcs : ∀ d ∈ cs, Text.isWordChar d = true) : Spells (.word (String.ofList (c :: cs))) (c :: cs)
  | symbol {c : Char} {t : Token} (h : (c, t) ∈ symbols) : Spells t [c]

theorem Spells.exists_cons (h : Spells t cs) : ∃ d ds, cs = d :: ds := by
  cases h with
  | number hcs =>
    obtain ⟨c, hc, -⟩ := hcs.someDigit
    exact List.exists_cons_of_ne_nil (List.ne_nil_of_mem hc)
  | word => exact ⟨_, _, rfl⟩
  | symbol => exact ⟨_, _, rfl⟩

/-- The characters that a token goes on with. -/
def Token.takes : Token → Char → Bool
  | .number _ => isNumberChar
  | .word _ => Text.isWordChar
  | _ => fun _ => false

/-- Where blanks have to stand before a token: between two numbers, between two words, and between a
word and a number that starts with a digit. -/
def NeedsGap : Token → Token → List Char → Prop
  | .number _, .number _, _ => True
  | .word _, .word _, _ => True
  | .word _, .number _, c :: _ => c.isDigit = true
  | _, _, _ => False

theorem symbol_classes (h : (c, t) ∈ symbols) : Text.isBlank c = false ∧ isNumberChar c = false ∧
    Text.isLetter c = false ∧ Text.isWordChar c = false := by
  revert h
  exact symbols_forall (p := fun s => Text.isBlank s.1 = false ∧ isNumberChar s.1 = false ∧
    Text.isLetter s.1 = false ∧ Text.isWordChar s.1 = false).2 (by decide) (c, t)

theorem ofChar?_eq_some_iff : Token.ofChar? c = some t ↔ (c, t) ∈ symbols := by
  constructor
  · unfold Token.ofChar?
    split <;> simp +contextual [symbols, eq_comm]
  · exact symbols_forall (p := fun s => Token.ofChar? s.1 = some s.2).2
      ⟨rfl, rfl, rfl, rfl, rfl, rfl, rfl⟩ (c, t)

theorem not_needsGap_symbol (h : (c, u) ∈ symbols) : ¬NeedsGap t u cs := by
  revert h
  exact symbols_forall (p := fun s => ¬NeedsGap t s.2 cs).2
    (by cases t <;> exact ⟨id, id, id, id, id, id, id⟩) (c, u)

theorem symbol_takes {d : Char} (h : (c, t) ∈ symbols) : t.takes d = false := by
  revert h
  exact symbols_forall (p := fun s => s.2.takes d = false).2
    ⟨rfl, rfl, rfl, rfl, rfl, rfl, rfl⟩ (c, t)

theorem isNumberChar_of_isNumeral (h : IsNumeral cs) : ∀ c ∈ cs, isNumberChar c = true := by
  intro c hc
  rw [isNumberChar, Bool.or_eq_true, beq_iff_eq]
  exact h.characters c hc

/-- A token goes on with the start of a spelling exactly where a gap is needed before it. -/
theorem takes_iff (h : Spells u (c :: cs)) : t.takes c = true ↔ NeedsGap t u (c :: cs) := by
  cases t with
  | number x =>
    cases h with
    | number hcs => exact iff_of_true (isNumberChar_of_isNumeral hcs c List.mem_cons_self) trivial
    | word hc => exact iff_of_false (Bool.eq_false_iff.1 (isNumberChar_of_isLetter hc)) id
    | symbol h =>
      exact iff_of_false (Bool.eq_false_iff.1 (symbol_classes h).2.1) (not_needsGap_symbol h)
  | word s =>
    cases h with
    | number hcs =>
      refine ⟨fun hword => ?_, Text.isWordChar_of_isDigit⟩
      refine (hcs.characters c List.mem_cons_self).resolve_right ?_
      rintro rfl
      have hpoint : Text.isWordChar '.' = true := hword
      exact absurd hpoint (by decide)
    | word hc => exact iff_of_true (Text.isWordChar_of_isLetter hc) trivial
    | symbol h =>
      exact iff_of_false (Bool.eq_false_iff.1 (symbol_classes h).2.2.2) (not_needsGap_symbol h)
  | _ => exact iff_of_false Bool.false_ne_true id

theorem takes_of_isBlank (h : Text.isBlank c = true) : t.takes c = false := by
  cases t with
  | number x =>
    refine Bool.eq_false_iff.2 fun hnumber => ?_
    rw [isBlank_of_isNumberChar hnumber] at h
    contradiction
  | word s =>
    refine Bool.eq_false_iff.2 fun hword => ?_
    rw [Text.isBlank_of_isWordChar hword] at h
    contradiction
  | _ => rfl

/-! ### Written texts -/

/-- A token as it is written, with the blanks before it. -/
structure Piece where
  gap : List Char
  spelling : List Char
  token : Token

/-- The text of pieces, with blanks behind. -/
def written (pieces : List Piece) (trail : List Char) : List Char :=
  pieces.flatMap (fun p => p.gap ++ p.spelling) ++ trail

/-- Spellings with blanks before, between and behind, one at least wherever a gap is needed. -/
structure WellSpaced (pieces : List Piece) (trail : List Char) : Prop where
  spelled : ∀ p ∈ pieces, Spells p.token p.spelling
  blank : ∀ p ∈ pieces, ∀ c ∈ p.gap, Text.isBlank c = true
  apart : pieces.IsChain fun p q => NeedsGap p.token q.token q.spelling → q.gap ≠ []
  blankTrail : ∀ c ∈ trail, Text.isBlank c = true

/-- The text is a way to write the tokens. -/
def Writes (text : List Char) (ts : List Token) : Prop :=
  ∃ pieces trail, WellSpaced pieces trail ∧ pieces.map Piece.token = ts ∧
    written pieces trail = text

variable {pieces : List Piece} {p : Piece}

theorem written_cons (p : Piece) (pieces : List Piece) (trail : List Char) :
    written (p :: pieces) trail = p.gap ++ (p.spelling ++ written pieces trail) := by
  simp [written]

theorem wellSpaced_cons : WellSpaced (p :: pieces) trail ↔
    Spells p.token p.spelling ∧ (∀ c ∈ p.gap, Text.isBlank c = true) ∧
      (∀ q ∈ pieces.head?, NeedsGap p.token q.token q.spelling → q.gap ≠ []) ∧
      WellSpaced pieces trail := by
  constructor
  · rintro ⟨hspelled, hblank, hapart, htrail⟩
    obtain ⟨hfirst, hspelled⟩ := List.forall_mem_cons.1 hspelled
    obtain ⟨hgap, hblank⟩ := List.forall_mem_cons.1 hblank
    obtain ⟨hnext, hapart⟩ := List.isChain_cons.1 hapart
    exact ⟨hfirst, hgap, hnext, hspelled, hblank, hapart, htrail⟩
  · rintro ⟨hfirst, hgap, hnext, hspelled, hblank, hapart, htrail⟩
    exact ⟨List.forall_mem_cons.2 ⟨hfirst, hspelled⟩, List.forall_mem_cons.2 ⟨hgap, hblank⟩,
      List.isChain_cons.2 ⟨hnext, hapart⟩, htrail⟩

/-- The gaps are where they have to be if and only if no token goes on with what follows it. -/
theorem WellSpaced.stops_iff (h : WellSpaced pieces trail) :
    (∀ c ∈ (written pieces trail).head?, t.takes c = false) ↔
      ∀ q ∈ pieces.head?, NeedsGap t q.token q.spelling → q.gap ≠ [] := by
  cases pieces with
  | nil =>
    refine iff_of_true (fun c hc => takes_of_isBlank (h.blankTrail c ?_)) (by simp)
    exact List.mem_of_mem_head? hc
  | cons q pieces =>
    obtain ⟨hspelled, hgap, -, -⟩ := wellSpaced_cons.1 h
    obtain ⟨gap, spelling, u⟩ := q
    rw [written_cons]
    cases gap with
    -- without a gap the text starts with the spelling
    | nil =>
      obtain ⟨c, cs, rfl⟩ := hspelled.exists_cons
      rw [List.nil_append, List.cons_append, List.head?_cons, List.head?_cons]
      simp [← takes_iff hspelled]
    | cons g gap =>
      have hblank := hgap g List.mem_cons_self
      simp [takes_of_isBlank hblank]

/-! ### Reading back -/

theorem span_of_stops {p : Char → Bool} (hcs : ∀ c ∈ cs, p c = true)
    (hrest : ∀ c ∈ rest.head?, p c = false) :
    (cs ++ rest).takeWhile p = cs ∧ (cs ++ rest).dropWhile p = rest := by
  rw [List.takeWhile_append_of_pos hcs, List.dropWhile_append_of_pos hcs]
  cases rest with
  | nil => simp
  | cons c rest =>
    have hc := hrest c rfl
    simp [hc]

theorem tokenize_blank (h : ∀ c ∈ gap, Text.isBlank c = true) :
    tokenize (gap ++ rest) = tokenize rest := by
  induction gap with
  | nil => rfl
  | cons c gap ih =>
    obtain ⟨hc, hgap⟩ := List.forall_mem_cons.1 h
    rw [List.cons_append, tokenize, if_pos hc, ih hgap]

/-- A spelling gives its token, if the token does not go on behind it. -/
theorem tokenize_spelling (h : Spells t cs) (hrest : ∀ c ∈ rest.head?, t.takes c = false) :
    tokenize (cs ++ rest) = (tokenize rest).map (t :: ·) := by
  cases h with
  | number hcs hx =>
    obtain ⟨d, hread⟩ := Decimal.exists_read?_iff.2 hcs
    obtain rfl := (Decimal.convertsTo_of_read? hread).unique hx
    have hnumber := isNumberChar_of_isNumeral hcs
    obtain ⟨c, cs, rfl⟩ := (Spells.number hcs hx).exists_cons
    obtain ⟨hc, hcs⟩ := List.forall_mem_cons.1 hnumber
    obtain ⟨htake, hdrop⟩ := span_of_stops hcs hrest
    rw [List.cons_append, tokenize, if_neg (Bool.eq_false_iff.1 (isBlank_of_isNumberChar hc)),
      if_pos hc]
    dsimp only
    rw [htake, hdrop, hread]
  | word hc hcs =>
    obtain ⟨htake, hdrop⟩ := span_of_stops hcs hrest
    have hblank := Text.isBlank_of_isWordChar (Text.isWordChar_of_isLetter hc)
    rw [List.cons_append, tokenize, if_neg (Bool.eq_false_iff.1 hblank),
      if_neg (Bool.eq_false_iff.1 (isNumberChar_of_isLetter hc)), if_pos hc]
    dsimp only
    rw [htake, hdrop]
  | symbol h =>
    obtain ⟨hblank, hnumber, hletter, -⟩ := symbol_classes h
    rw [List.singleton_append, tokenize, if_neg (Bool.eq_false_iff.1 hblank),
      if_neg (Bool.eq_false_iff.1 hnumber), if_neg (Bool.eq_false_iff.1 hletter),
      ofChar?_eq_some_iff.2 h]

/-- What is written is read back. -/
theorem tokenize_written (h : WellSpaced pieces trail) :
    tokenize (written pieces trail) = .ok (pieces.map Piece.token) := by
  induction pieces with
  | nil =>
    have htrail : tokenize (trail ++ []) = tokenize [] := tokenize_blank h.blankTrail
    rw [List.append_nil, tokenize] at htrail
    exact htrail
  | cons p pieces ih =>
    obtain ⟨hspelled, hgap, hnext, hpieces⟩ := wellSpaced_cons.1 h
    rw [written_cons, tokenize_blank hgap,
      tokenize_spelling hspelled (hpieces.stops_iff.2 hnext), ih hpieces]
    rfl

/-! ### What is accepted -/

/-- A further blank in front belongs to the first gap, or to the blanks behind if there is none. -/
theorem Writes.add_blank (h : Writes text ts) (hc : Text.isBlank c = true) :
    Writes (c :: text) ts := by
  obtain ⟨pieces, trail, hpieces, rfl, rfl⟩ := h
  cases pieces with
  | nil =>
    exact ⟨[], c :: trail, ⟨hpieces.spelled, hpieces.blank, hpieces.apart,
      List.forall_mem_cons.2 ⟨hc, hpieces.blankTrail⟩⟩, rfl, rfl⟩
  | cons p pieces =>
    obtain ⟨hspelled, hgap, hnext, hpieces⟩ := wellSpaced_cons.1 hpieces
    refine ⟨⟨c :: p.gap, p.spelling, p.token⟩ :: pieces, trail, wellSpaced_cons.2
      ⟨hspelled, List.forall_mem_cons.2 ⟨hc, hgap⟩, hnext, hpieces⟩, rfl, ?_⟩
    rw [written_cons, written_cons, List.cons_append]

/-- A spelling may stand in front of a text that its token does not go on with. -/
theorem Writes.add_spelling (h : Writes rest ts) (hspelled : Spells t cs)
    (hrest : ∀ c ∈ rest.head?, t.takes c = false) : Writes (cs ++ rest) (t :: ts) := by
  obtain ⟨pieces, trail, hpieces, rfl, rfl⟩ := h
  exact ⟨⟨[], cs, t⟩ :: pieces, trail,
    wellSpaced_cons.2 ⟨hspelled, by simp, hpieces.stops_iff.1 hrest, hpieces⟩, rfl,
    written_cons _ _ _⟩

theorem head?_dropWhile_stops (p : Char → Bool) (cs : List Char) :
    ∀ c ∈ (cs.dropWhile p).head?, p c = false := by
  intro c hc
  have h := List.head?_dropWhile_not p cs
  rw [hc] at h
  exact h

/-- What is accepted was written. -/
theorem writes_of_tokenize (h : tokenize text = .ok ts) : Writes text ts := by
  -- a number or a word ends where the run of its characters does, so that it does not go on
  fun_induction tokenize text generalizing ts with
  | case1 =>
    obtain rfl := Except.ok.inj h
    exact ⟨[], [], ⟨by simp, by simp, .nil, by simp⟩, rfl, rfl⟩
  | case2 c cs hblank ih => exact (ih h).add_blank hblank
  | case3 c cs hblank hnumber digits => contradiction
  | case4 c cs hblank hnumber digits d hread =>
    rename_i ih
    obtain ⟨ts, hts, rfl⟩ := map_eq_ok.1 h
    have hspelled : Spells (.number d.toFloat) (c :: cs.takeWhile isNumberChar) :=
      .number (Decimal.exists_read?_iff.1 ⟨d, hread⟩) (Decimal.convertsTo_of_read? hread)
    have hwrites := (ih hts).add_spelling hspelled (head?_dropWhile_stops isNumberChar cs)
    rwa [List.cons_append, List.takeWhile_append_dropWhile] at hwrites
  | case5 c cs hblank hnumber hletter word =>
    rename_i ih
    obtain ⟨ts, hts, rfl⟩ := map_eq_ok.1 h
    have hspelled : Spells _ (c :: cs.takeWhile Text.isWordChar) :=
      .word hletter fun d hd => List.mem_takeWhile_imp hd
    have hwrites := (ih hts).add_spelling hspelled (head?_dropWhile_stops Text.isWordChar cs)
    rwa [List.cons_append, List.takeWhile_append_dropWhile] at hwrites
  | case6 c cs hblank hnumber hletter hchar => contradiction
  | case7 c cs hblank hnumber hletter t hchar ih =>
    obtain ⟨ts, hts, rfl⟩ := map_eq_ok.1 h
    have hsymbol := ofChar?_eq_some_iff.1 hchar
    exact (ih hts).add_spelling (.symbol hsymbol) fun d _ => symbol_takes hsymbol

/-- The tokenizer accepts a text as a list of tokens if and only if the text is a way to write the
list, and rejects every other text. -/
theorem tokenize_inverts_writing (text : List Char) :
    (∀ ts, tokenize text = .ok ts ↔ Writes text ts) ∧
      ((∃ problem, tokenize text = .error problem) ↔ ¬∃ ts, Writes text ts) := by
  have haccepts : ∀ ts, tokenize text = .ok ts ↔ Writes text ts := by
    refine fun ts => ⟨writes_of_tokenize, ?_⟩
    rintro ⟨pieces, trail, hpieces, rfl, rfl⟩
    exact tokenize_written hpieces
  refine ⟨haccepts, ?_⟩
  cases hresult : tokenize text with
  | ok ts => exact iff_of_false (by simp) (not_not.2 ⟨ts, (haccepts ts).1 hresult⟩)
  | error problem =>
    refine iff_of_true ⟨problem, rfl⟩ ?_
    rintro ⟨ts, hts⟩
    rw [(haccepts ts).2 hts] at hresult
    contradiction

end FlowTube.Expr
