import SignalCalc.Proofs.Token.Numeral
import SignalCalc.Token.Lexer

/-! # Words set apart by spaces

What the lexer makes of a text in which single spaces stand between the words. Pieces of such a text
are put together in the ways in which expressions are: one piece after the other, in parentheses, and
as the arguments of a call. A call is one token, so that its argument text is looked at twice: for
the parenthesis that closes it, and for the commas that divide it.

* `Lexes` — the tokens of a piece of text, whatever follows after a space.
* `Closed`, `Passes` — the scans for the closing parenthesis and for commas pass over a piece.
* `Spelled` — all that the parts of a text have to keep, with a rule for each way to join them.
* `Arguments.splitArguments` — the arguments of a call are found again.
* `spelled_call` — a call is one token.
-/

namespace SignalCalc

/-! ## Tokens -/

/-- The text ends or goes on after a space, but not with a parenthesis, which would make a call of a
name before it. -/
structure Apart (rest : List Char) : Prop where
  spaced : Spaced rest
  no_paren : (rest.dropWhile Text.isGap).head? ≠ some '('

theorem apart_nil : Apart [] := ⟨spaced_nil, by simp⟩

def Tokens.behind (ts : List Token) (more : Tokens) : Tokens :=
  { more with tokens := ts ++ more.tokens }

@[simp] theorem Tokens.behind_behind (ts us : List Token) (more : Tokens) :
    (more.behind us).behind ts = more.behind (ts ++ us) := by
  simp [behind]

theorem dropGaps_dropGaps (cs : List Char) :
    (cs.dropWhile Text.isGap).dropWhile Text.isGap = cs.dropWhile Text.isGap := by
  induction cs with
  | nil => rfl
  | cons c cs ih => by_cases hc : Text.isGap c <;> simp [hc, ih]

/-- Blanks in front of a token do not count. -/
theorem scan_dropGaps (fuel : Nat) (cs : List Char) :
    Tokens.scan fuel (cs.dropWhile Text.isGap) = Tokens.scan fuel cs := by
  cases fuel with
  | zero => rfl
  | succ fuel => simp only [Tokens.scan, Token.next, dropGaps_dropGaps]

theorem scan_space (fuel : Nat) (cs : List Char) :
    Tokens.scan fuel (' ' :: cs) = Tokens.scan fuel cs := by
  rw [← scan_dropGaps fuel (' ' :: cs), ← scan_dropGaps fuel cs]
  rfl

theorem scan_token {cs rest : List Char} {t : Token} (h : Token.next cs = .token t rest)
    (fuel : Nat) : Tokens.scan (fuel + 1) cs = (Tokens.scan fuel rest).behind [t] := by
  simp [Tokens.scan, h, Tokens.behind]

theorem next_symbol (s : Symbol) {rest : List Char} (hrest : Spaced rest) :
    Token.next (s.spelling ++ rest) = .token (.symbol s) rest := by
  obtain rfl | ⟨more, rfl⟩ := hrest <;> cases s <;> rfl

/-- The text has these tokens, and the text after it those that it has by itself. -/
structure Lexes (cs : List Char) (ts : List Token) : Prop where
  length_le : ts.length ≤ cs.length
  scan : ∀ fuel rest, Apart rest →
    Tokens.scan (ts.length + fuel) (cs ++ rest) = (Tokens.scan fuel rest).behind ts

theorem Lexes.ofText {cs : List Char} {ts : List Token} (h : Lexes cs ts) :
    Tokens.ofText cs = ⟨ts, .done⟩ := by
  -- every token takes a character, so that the fuel lasts to the end of the text and beyond
  obtain ⟨fuel, hfuel⟩ : ∃ fuel, cs.length + 1 = ts.length + (fuel + 1) :=
    ⟨cs.length - ts.length, by have := h.length_le; omega⟩
  have hscan := h.scan (fuel + 1) [] apart_nil
  rw [List.append_nil, ← hfuel] at hscan
  rw [Tokens.ofText, hscan]
  simp [Tokens.scan, Token.next, Tokens.behind]

theorem apart_symbol {s : Symbol} (hs : s ≠ .openParen) (more : List Char) :
    Apart (' ' :: (s.spelling ++ more)) where
  spaced := spaced_cons _
  no_paren := by
    cases s with
    | openParen => contradiction
    | _ => simp [Symbol.spelling, Text.isGap]

theorem Lexes.after (s : Symbol) {cs : List Char} {ts : List Token} (h : Lexes cs ts) :
    Lexes (s.spelling ++ ' ' :: cs) (.symbol s :: ts) where
  length_le := by
    have := h.length_le
    simp only [List.length_append, List.length_cons]
    omega
  scan fuel rest hrest := by
    have hnext := next_symbol s (spaced_cons (cs ++ rest))
    have hscan := scan_token hnext (ts.length + fuel)
    rw [scan_space, h.scan fuel rest hrest, Tokens.behind_behind] at hscan
    simpa [Nat.add_right_comm] using hscan

theorem Lexes.join {as bs : List Char} {ts us : List Token} (ha : Lexes as ts) {s : Symbol}
    (hs : s ≠ .openParen) (hb : Lexes bs us) :
    Lexes (as ++ ' ' :: (s.spelling ++ ' ' :: bs)) (ts ++ .symbol s :: us) where
  length_le := by
    have hta := ha.length_le
    have htb := (hb.after s).length_le
    simp only [List.length_append, List.length_cons] at hta htb ⊢
    omega
  scan fuel rest hrest := by
    have hapart : Apart (' ' :: ((s.spelling ++ ' ' :: bs) ++ rest)) := by
      rw [List.append_assoc]
      exact apart_symbol hs _
    have hscan := ha.scan ((Token.symbol s :: us).length + fuel) _ hapart
    rw [scan_space, (hb.after s).scan fuel rest hrest, Tokens.behind_behind] at hscan
    simpa [Nat.add_assoc] using hscan

theorem Lexes.paren {cs : List Char} {ts : List Token} (h : Lexes cs ts) :
    Lexes ('(' :: ' ' :: (cs ++ [' ', ')'])) (.symbol .openParen :: (ts ++ [.symbol .closeParen])) where
  length_le := by
    have := h.length_le
    simp only [List.length_append, List.length_cons, List.length_nil]
    omega
  scan fuel rest hrest := by
    -- from the closing parenthesis backwards: each piece is followed by the scan of the next
    have hclose : Tokens.scan (fuel + 1) (')' :: rest) =
        (Tokens.scan fuel rest).behind [.symbol .closeParen] :=
      scan_token (next_symbol .closeParen hrest.spaced) fuel
    have hapart : Apart (' ' :: ')' :: rest) := apart_symbol (s := .closeParen) (by decide) rest
    have hinner := h.scan (fuel + 1) (' ' :: ')' :: rest) hapart
    rw [scan_space, hclose, Tokens.behind_behind] at hinner
    have hopen := scan_token (next_symbol .openParen (spaced_cons (cs ++ ' ' :: ')' :: rest)))
      (ts.length + (fuel + 1))
    rw [scan_space, hinner, Tokens.behind_behind] at hopen
    have hfuel : (Token.symbol .openParen :: (ts ++ [.symbol .closeParen])).length + fuel =
        ts.length + (fuel + 1) + 1 := by
      simp only [List.length_cons, List.length_append, List.length_nil]
      omega
    rw [hfuel]
    simpa [Symbol.spelling] using hopen

theorem lexes_token {cs : List Char} {t : Token} (hcs : cs ≠ [])
    (h : ∀ rest, Apart rest → ∃ gone, Token.next (cs ++ rest) = .token t gone ∧
      gone.dropWhile Text.isGap = rest.dropWhile Text.isGap) : Lexes cs [t] where
  length_le := List.length_pos_iff.mpr hcs
  scan fuel rest hrest := by
    obtain ⟨gone, hnext, hgone⟩ := h rest hrest
    have hscan := scan_token hnext fuel
    rw [← scan_dropGaps fuel gone, hgone, scan_dropGaps] at hscan
    simpa [Nat.add_comm] using hscan

/-! ## Characters -/

theorem isAlpha_iff {c : Char} :
    c.isAlpha = true ↔ 65 ≤ c.toNat ∧ c.toNat ≤ 90 ∨ 97 ≤ c.toNat ∧ c.toNat ≤ 122 := by
  have hranges : c.isAlpha = (decide (c.val ≥ 'A'.val ∧ c.val ≤ 'Z'.val) ||
      (decide (c.val ≥ 'a'.val) && decide (c.val ≤ 'z'.val))) := rfl
  simp [hranges, UInt32.le_iff_toNat_le]

theorem isDigit_of_isNameStart {c : Char} (h : isNameStart c = true) : c.isDigit = false := by
  simp only [isNameStart, isAlpha_iff, Bool.or_eq_true, beq_iff_eq, ← Char.toNat_inj,
    Char.reduceToNat] at h
  simp only [Char.isDigit, UInt32.le_iff_toNat_le, ge_iff_le, Bool.and_eq_false_imp,
    decide_eq_true_eq, decide_eq_false_iff_not, Char.toNat_val, Char.reduceVal, UInt32.reduceToNat]
  omega

theorem isNameChar_of_isDigit {c : Char} (h : c.isDigit = true) : isNameChar c = true := by
  simp [isNameChar, Char.isAlphanum, h]

theorem isNameChar_of_isNameStart {c : Char} (h : isNameStart c = true) : isNameChar c = true := by
  simp only [isNameStart, Bool.or_eq_true] at h
  rcases h with h | h <;> simp [isNameChar, Char.isAlphanum, h]

theorem isGap_of_isNameChar {c : Char} (h : isNameChar c = true) : Text.isGap c = false := by
  have hne : ∀ d, isNameChar d = false → c ≠ d := fun d hd => ne_of_class h hd
  simp [Text.isGap, hne ' ' rfl, hne '\t' rfl, hne '\n' rfl, hne '\x0c' rfl, hne '\r' rfl]

theorem isBlank_of_isNameChar {c : Char} (h : isNameChar c = true) : Text.isBlank c = false := by
  -- no range of white space meets the characters of names
  simp only [isNameChar, Char.isAlphanum, isAlpha_iff, Char.isDigit, UInt32.le_iff_toNat_le,
    ge_iff_le, Bool.or_eq_true, Bool.and_eq_true, decide_eq_true_eq, beq_iff_eq,
    ← Char.toNat_inj, Char.toNat_val, Char.reduceVal, UInt32.reduceToNat, Char.reduceToNat] at h
  simp only [Text.isBlank, Text.whiteSpace, List.any_cons, List.any_nil, Bool.or_false,
    Bool.or_eq_false_iff, Bool.and_eq_false_imp, decide_eq_true_eq, decide_eq_false_iff_not]
  omega

/-! ## Numbers and names -/

theorem next_number {c : Char} (hc : c.isDigit = true) {cs rest : List Char} {v : Value}
    (h : Numeral.read (c :: cs) = .value v rest) :
    Token.next (c :: cs) = .token (.number v) rest := by
  have hne : ∀ d, d.isDigit = false → c ≠ d := fun d hd => ne_of_class hc hd
  simp [Token.next, isGap_of_isNameChar (isNameChar_of_isDigit hc), hne ',' rfl, hne '#' rfl,
    hne '$' rfl, hc, h]

theorem lexes_number {n : Nat} (hn : n ≤ Numeral.wordMax) :
    Lexes (Nat.toDigits 10 n) [.number (Numeral.plainValue n)] := by
  apply lexes_token Nat.toDigits_ne_nil
  intro rest hrest
  have hread := Numeral.read_toDigits hn hrest.spaced
  obtain ⟨c, cs, hcs, hc⟩ := Numeral.exists_toDigits_eq_cons n
  rw [hcs, List.cons_append] at hread ⊢
  exact ⟨rest, next_number hc hread, rfl⟩

theorem next_of_isNameStart {c : Char} (hstart : isNameStart c = true) (cs : List Char) :
    Token.next (c :: cs) = readName (c :: cs) := by
  have hne : ∀ d, isNameStart d = false → c ≠ d := fun d hd => ne_of_class hstart hd
  have hgap := isGap_of_isNameChar (isNameChar_of_isNameStart hstart)
  simp [Token.next, hgap, hne ',' rfl, hne '#' rfl, hne '$' rfl, hne '.' rfl,
    isDigit_of_isNameStart hstart, hstart]

/-- A variable's name is read up to the blanks behind it. A parenthesis there makes it a call. -/
theorem next_name {cs : List Char} (h : isVariableName cs = true) {rest : List Char}
    (hrest : Spaced rest) :
    Token.next (cs ++ rest) =
      match rest.dropWhile Text.isGap with
      | '(' :: inner =>
        match splitClose? 0 inner with
        | some (args, rest) => .token (.call (String.ofList cs) (Text.trim args)) rest
        | none => .fault (.unclosedCall (String.ofList cs))
      | _ => .token (.name (String.ofList cs)) (rest.dropWhile Text.isGap) := by
  cases cs with
  | nil => cases h
  | cons c cs =>
    simp only [isVariableName, Bool.and_eq_true, List.all_eq_true, decide_eq_true_eq] at h
    obtain ⟨⟨hstart, hchars⟩, hlength⟩ := h
    rw [List.cons_append, next_of_isNameStart hstart, ← List.cons_append]
    simp only [readName, hrest.takeWhile (p := isNameChar) rfl hchars,
      hrest.dropWhile (p := isNameChar) rfl hchars]
    exact if_neg (by omega)

theorem lexes_name {cs : List Char} (h : isVariableName cs = true) :
    Lexes cs [.name (String.ofList cs)] := by
  apply lexes_token (by rintro rfl; cases h)
  intro rest hrest
  refine ⟨rest.dropWhile Text.isGap, ?_, dropGaps_dropGaps rest⟩
  rw [next_name h hrest.spaced]
  have hparen := hrest.no_paren
  split
  · next heq => simp [heq] at hparen
  · rfl

/-! ## Parentheses and commas -/

def Closed (cs : List Char) : Prop :=
  ∀ depth rest, splitClose? depth (cs ++ rest) =
    (splitClose? depth rest).map fun (inner, rest) => (cs ++ inner, rest)

/-- The search for commas, inside of at least so many parentheses, passes over the text. -/
def Passes (least : Int) (cs : List Char) : Prop :=
  ∀ depth piece rest, least ≤ depth →
    splitCommas depth piece (cs ++ rest) = splitCommas depth (cs.reverse ++ piece) rest

theorem Closed.append {as bs : List Char} (ha : Closed as) (hb : Closed bs) : Closed (as ++ bs) := by
  intro depth rest
  rw [List.append_assoc, ha, hb, Option.map_map]
  simp [Function.comp_def]

/-- A character at which neither search stops. -/
def isPlain (c : Char) : Bool := c != '(' && c != ')' && c != ','

theorem isPlain_of_isNameChar {c : Char} (h : isNameChar c = true) : isPlain c = true := by
  have hne : ∀ d, isNameChar d = false → c ≠ d := fun d hd => ne_of_class h hd
  simp [isPlain, hne '(' rfl, hne ')' rfl, hne ',' rfl]

theorem closed_plain {cs : List Char} (h : ∀ c ∈ cs, isPlain c = true) : Closed cs := by
  intro depth rest
  induction cs with
  | nil => simp
  | cons c cs ih =>
    have hc := h c (by simp)
    simp only [isPlain, Bool.and_eq_true, bne_iff_ne] at hc
    simp [splitClose?, hc, ih fun d hd => h d (by simp [hd]), Function.comp_def]

theorem closed_space : Closed [' '] := closed_plain (by simp [isPlain])

theorem Closed.paren {cs : List Char} (h : Closed cs) : Closed ('(' :: (cs ++ [')'])) := by
  intro depth rest
  have hclose : splitClose? (depth + 1) (')' :: rest) =
      (splitClose? depth rest).map fun (inner, rest) => (')' :: inner, rest) := by
    simp [splitClose?]
  have hinner := h (depth + 1) (')' :: rest)
  rw [hclose, Option.map_map] at hinner
  simp [splitClose?, hinner, Function.comp_def]

/-- The first parenthesis that is not closed inside of a text closes what is open before it. -/
theorem Closed.splitClose? {cs : List Char} (h : Closed cs) (rest : List Char) :
    splitClose? 0 (cs ++ ')' :: rest) = some (cs, rest) := by
  simp [h 0, SignalCalc.splitClose?]

theorem Passes.append {least : Int} {as bs : List Char} (ha : Passes least as)
    (hb : Passes least bs) : Passes least (as ++ bs) := by
  intro depth piece rest hdepth
  rw [List.append_assoc, ha depth piece _ hdepth, hb depth _ rest hdepth]
  simp

theorem Passes.inside {cs : List Char} (h : Passes 0 cs) : Passes 1 cs :=
  fun depth piece rest hdepth => h depth piece rest (by omega)

theorem splitCommas_append_of_plain {cs : List Char} (h : ∀ c ∈ cs, isPlain c = true) (depth : Int)
    (piece rest : List Char) :
    splitCommas depth piece (cs ++ rest) = splitCommas depth (cs.reverse ++ piece) rest := by
  induction cs generalizing piece with
  | nil => rfl
  | cons c cs ih =>
    have hc := h c (by simp)
    simp only [isPlain, Bool.and_eq_true, bne_iff_ne] at hc
    simp [splitCommas, openAfter, hc, ih fun d hd => h d (by simp [hd])]

theorem passes_plain {cs : List Char} (h : ∀ c ∈ cs, isPlain c = true) : Passes 0 cs :=
  fun depth piece rest _ => splitCommas_append_of_plain h depth piece rest

theorem passes_space : Passes 0 [' '] := passes_plain (by simp [isPlain])

theorem passes_comma : Passes 1 [','] := by
  intro depth piece rest hdepth
  have hne : depth ≠ 0 := by omega
  simp [splitCommas, openAfter, hne]

theorem Passes.paren {cs : List Char} (h : Passes 1 cs) : Passes 0 ('(' :: (cs ++ [')'])) := by
  intro depth piece rest hdepth
  have hinner := h (depth + 1) ('(' :: piece) (')' :: rest) (by omega)
  simp [splitCommas, openAfter, hinner]

/-! ## White space -/

/-- The text starts and ends with characters that are not blank. -/
structure Tight (cs : List Char) : Prop where
  first : ∃ c, cs.head? = some c ∧ Text.isBlank c = false
  last : ∃ c, cs.getLast? = some c ∧ Text.isBlank c = false

theorem Tight.ne_nil {cs : List Char} (h : Tight cs) : cs ≠ [] := by
  rintro rfl
  obtain ⟨c, hc, -⟩ := h.first
  cases hc

/-- A text that starts and ends with tight ones is tight. -/
theorem Tight.between {as bs : List Char} (ha : Tight as) (hb : Tight bs) (middle : List Char) :
    Tight (as ++ (middle ++ bs)) where
  first := by
    obtain ⟨c, hc, hblank⟩ := ha.first
    exact ⟨c, by simp [hc], hblank⟩
  last := by
    obtain ⟨c, hc, hblank⟩ := hb.last
    exact ⟨c, by simp [hc], hblank⟩

theorem tight_word {cs : List Char} (hcs : cs ≠ []) (h : ∀ c ∈ cs, isNameChar c = true) :
    Tight cs where
  first := ⟨cs.head hcs, List.head?_eq_some_head hcs, isBlank_of_isNameChar (h _ (List.head_mem hcs))⟩
  last := ⟨cs.getLast hcs, List.getLast?_eq_some_getLast hcs,
    isBlank_of_isNameChar (h _ (List.getLast_mem hcs))⟩

theorem tight_spelling (s : Symbol) : Tight s.spelling := by
  cases s <;> exact ⟨⟨_, rfl, by decide⟩, ⟨_, rfl, by decide⟩⟩

theorem dropWhile_of_head {p : Char → Bool} {cs : List Char} (h : ∃ c, cs.head? = some c ∧ p c = false)
    (rest : List Char) : (cs ++ rest).dropWhile p = cs ++ rest := by
  obtain ⟨c, hhead, hc⟩ := h
  cases cs with
  | nil => cases hhead
  | cons d cs =>
    obtain rfl : d = c := by simpa using hhead
    simp [hc]

theorem isBlank_space : ∀ c ∈ [' '], Text.isBlank c = true := by
  simp [Text.isBlank, Text.whiteSpace]

/-- Trimming takes away the blanks around a tight text, and nothing else. -/
theorem Tight.trim {cs : List Char} (h : Tight cs) (before after : List Char)
    (hbefore : ∀ c ∈ before, Text.isBlank c = true) (hafter : ∀ c ∈ after, Text.isBlank c = true) :
    Text.trim (before ++ (cs ++ after)) = cs := by
  -- the blanks at the end are dropped from the front of the reversed text
  have hback : ∃ c, cs.reverse.head? = some c ∧ Text.isBlank c = false := by
    simpa using h.last
  have hend := dropWhile_of_head hback []
  rw [List.append_nil] at hend
  rw [Text.trim, List.dropWhile_append_of_pos hbefore, dropWhile_of_head h.first, List.reverse_append,
    List.dropWhile_append_of_pos (by simpa using hafter), hend, List.reverse_reverse]

/-! ## Spelled texts -/

/-- A text with its tokens that can be part of any other: the searches for parentheses and commas
pass over it, and it has no blanks at its ends. -/
structure Spelled (cs : List Char) (ts : List Token) : Prop where
  lexes : Lexes cs ts
  closed : Closed cs
  passes : Passes 0 cs
  tight : Tight cs

theorem spelled_word {cs : List Char} {ts : List Token} (hlexes : Lexes cs ts) (hcs : cs ≠ [])
    (h : ∀ c ∈ cs, isNameChar c = true) : Spelled cs ts where
  lexes := hlexes
  closed := closed_plain fun c hc => isPlain_of_isNameChar (h c hc)
  passes := passes_plain fun c hc => isPlain_of_isNameChar (h c hc)
  tight := tight_word hcs h

theorem spelled_number {n : Nat} (hn : n ≤ Numeral.wordMax) :
    Spelled (Nat.toDigits 10 n) [.number (Numeral.plainValue n)] :=
  spelled_word (lexes_number hn) Nat.toDigits_ne_nil fun _ hc =>
    isNameChar_of_isDigit (Nat.isDigit_of_mem_toDigits (by decide) (by decide) hc)

theorem isNameChar_of_isVariableName {cs : List Char} (h : isVariableName cs = true) :
    ∀ c ∈ cs, isNameChar c = true := by
  cases cs with
  | nil => cases h
  | cons c cs =>
    simp only [isVariableName, Bool.and_eq_true, List.all_eq_true] at h
    exact h.1.2

theorem ne_nil_of_isVariableName {cs : List Char} (h : isVariableName cs = true) : cs ≠ [] := by
  rintro rfl
  cases h

theorem spelled_name {cs : List Char} (h : isVariableName cs = true) :
    Spelled cs [.name (String.ofList cs)] :=
  spelled_word (lexes_name h) (ne_nil_of_isVariableName h) (isNameChar_of_isVariableName h)

/-- A symbol that is no parenthesis. -/
def Symbol.isOperator (s : Symbol) : Bool := s != .openParen && s != .closeParen

theorem isPlain_spelling {s : Symbol} (hs : s.isOperator = true) :
    ∀ c ∈ ' ' :: (s.spelling ++ [' ']), isPlain c = true := by
  cases s with
  | openParen | closeParen => cases hs
  | _ => simp [Symbol.spelling, isPlain]

theorem Spelled.after {s : Symbol} (hs : s.isOperator = true) {cs : List Char} {ts : List Token}
    (h : Spelled cs ts) : Spelled (s.spelling ++ ' ' :: cs) (.symbol s :: ts) := by
  have hplain : ∀ c ∈ s.spelling ++ [' '], isPlain c = true := fun c hc =>
    isPlain_spelling hs c (List.mem_cons_of_mem _ hc)
  have hsplit : s.spelling ++ ' ' :: cs = (s.spelling ++ [' ']) ++ cs := by simp
  exact {
    lexes := h.lexes.after s
    closed := hsplit ▸ (closed_plain hplain).append h.closed
    passes := hsplit ▸ (passes_plain hplain).append h.passes
    tight := (tight_spelling s).between h.tight [' '] }

theorem Spelled.join {as bs : List Char} {ts us : List Token} (ha : Spelled as ts) {s : Symbol}
    (hs : s.isOperator = true) (hb : Spelled bs us) :
    Spelled (as ++ ' ' :: (s.spelling ++ ' ' :: bs)) (ts ++ .symbol s :: us) := by
  have hplain := isPlain_spelling hs
  have hsplit : as ++ ' ' :: (s.spelling ++ ' ' :: bs) =
      as ++ (' ' :: (s.spelling ++ [' ']) ++ bs) := by simp
  have hparen : s ≠ .openParen := by
    rintro rfl
    cases hs
  exact {
    lexes := ha.lexes.join hparen hb.lexes
    closed := hsplit ▸ ha.closed.append ((closed_plain hplain).append hb.closed)
    passes := hsplit ▸ ha.passes.append ((passes_plain hplain).append hb.passes)
    tight := hsplit ▸ ha.tight.between hb.tight _ }

theorem closed_parens {cs : List Char} (h : Closed cs) :
    Closed ('(' :: ' ' :: (cs ++ [' ', ')'])) := by
  simpa using ((closed_space.append h).append closed_space).paren

theorem passes_parens {cs : List Char} (h : Passes 1 cs) :
    Passes 0 ('(' :: ' ' :: (cs ++ [' ', ')'])) := by
  simpa using ((passes_space.inside.append h).append passes_space.inside).paren

theorem Spelled.paren {cs : List Char} {ts : List Token} (h : Spelled cs ts) :
    Spelled ('(' :: ' ' :: (cs ++ [' ', ')']))
      (.symbol .openParen :: (ts ++ [.symbol .closeParen])) where
  lexes := h.lexes.paren
  closed := closed_parens h.closed
  passes := passes_parens h.passes.inside
  tight := by
    simpa [Symbol.spelling] using
      (tight_spelling .openParen).between (tight_spelling .closeParen) (' ' :: (cs ++ [' ']))

/-! ## Calls -/

def argumentText (texts : List (List Char)) : List Char := [' ', ',', ' '].intercalate texts

@[simp] theorem argumentText_singleton (text : List Char) : argumentText [text] = text := by
  simp [argumentText, List.intercalate]

@[simp] theorem argumentText_cons_cons (text next : List Char) (more : List (List Char)) :
    argumentText (text :: next :: more) =
      text ++ ([' ', ',', ' '] ++ argumentText (next :: more)) := by
  simp [argumentText, List.intercalate]

theorem length_le_argumentText {text : List Char} {texts : List (List Char)} (h : text ∈ texts) :
    text.length ≤ (argumentText texts).length := by
  induction texts with
  | nil => cases h
  | cons first more ih =>
    cases more with
    | nil => simp_all
    | cons next more =>
      simp only [argumentText_cons_cons, List.length_append]
      rcases List.mem_cons.mp h with rfl | hmore
      · omega
      · have hlength := ih hmore
        omega

structure Arguments (texts : List (List Char)) : Prop where
  ne_nil : texts ≠ []
  spelled : ∀ text ∈ texts, ∃ ts, Spelled text ts

theorem Arguments.tail {text next : List Char} {more : List (List Char)}
    (h : Arguments (text :: next :: more)) : Arguments (next :: more) where
  ne_nil := by simp
  spelled t ht := h.spelled t (List.mem_cons_of_mem text ht)

section Arguments

variable {texts : List (List Char)}

/-- What holds of the arguments, and is kept where a comma joins two texts, holds of them all. -/
theorem Arguments.text_rule {P : List Char → Prop} (h : Arguments texts)
    (hone : ∀ text ts, Spelled text ts → P text)
    (hjoin : ∀ as bs, P as → P bs → P (as ++ ([' ', ',', ' '] ++ bs))) : P (argumentText texts) := by
  induction texts with
  | nil => exact absurd rfl h.ne_nil
  | cons text more ih =>
    obtain ⟨ts, hfirst⟩ := h.spelled text (by simp)
    cases more with
    | nil => simpa using hone text ts hfirst
    | cons next more =>
      rw [argumentText_cons_cons]
      exact hjoin text _ (hone text ts hfirst) (ih h.tail)

theorem Arguments.closed_text (h : Arguments texts) : Closed (argumentText texts) := by
  have hcomma : Closed [' ', ',', ' '] := by
    intro depth rest
    simp [splitClose?, Function.comp_def]
  exact h.text_rule (fun _ _ hone => hone.closed) fun _ _ ha hb => ha.append (hcomma.append hb)

theorem Arguments.passes_text (h : Arguments texts) : Passes 1 (argumentText texts) := by
  have hcomma : Passes 1 [' ', ',', ' '] :=
    passes_space.inside.append (passes_comma.append passes_space.inside)
  exact h.text_rule (fun _ _ hone => hone.passes.inside) fun _ _ ha hb =>
    ha.append (hcomma.append hb)

theorem Arguments.tight_text (h : Arguments texts) : Tight (argumentText texts) :=
  h.text_rule (fun _ _ hone => hone.tight) fun _ _ ha hb => ha.between hb _

/-- The texts between the commas are found again, the first one also behind blanks. -/
theorem Arguments.splitCommas (h : Arguments texts) (piece : List Char)
    (hpiece : ∀ c ∈ piece, Text.isBlank c = true) :
    splitCommas 0 piece (argumentText texts) = texts := by
  -- of the blanks around a comma one stays with the text before it; the other starts the next piece
  induction texts generalizing piece with
  | nil => exact absurd rfl h.ne_nil
  | cons text more ih =>
    obtain ⟨ts, hfirst⟩ := h.spelled text (by simp)
    have hpass := fun rest => hfirst.passes 0 piece rest (by decide)
    have htrim : ∀ after, (∀ c ∈ after, Text.isBlank c = true) →
        Text.trim (piece.reverse ++ (text ++ after)) = text := fun after hafter =>
      hfirst.tight.trim piece.reverse after (by simpa using hpiece) hafter
    cases more with
    | nil =>
      have hlast := hpass []
      rw [List.append_nil] at hlast
      simpa [hlast, SignalCalc.splitCommas] using htrim [] (by simp)
    | cons next more =>
      have hrest : SignalCalc.splitCommas 0 [' '] (argumentText (next :: more)) = next :: more :=
        ih h.tail [' '] isBlank_space
      have hpiece' := htrim [' '] isBlank_space
      rw [argumentText_cons_cons, hpass]
      simp_all [SignalCalc.splitCommas, openAfter]

theorem Arguments.splitArguments (h : Arguments texts) :
    splitArguments (argumentText texts) = texts := by
  have htrim := h.tight_text.trim [] [] (by simp) (by simp)
  have hne := h.tight_text.ne_nil
  have hsplit := h.splitCommas [] (by simp)
  simp only [List.nil_append, List.append_nil] at htrim
  simp [SignalCalc.splitArguments, htrim, hne, hsplit]

end Arguments

/-- A call: the name of a function, and its arguments in parentheses. -/
theorem spelled_call {name : List Char} (hname : isVariableName name = true)
    {texts : List (List Char)} (h : Arguments texts) :
    Spelled (name ++ ' ' :: '(' :: ' ' :: (argumentText texts ++ [' ', ')']))
      [.call (String.ofList name) (argumentText texts)] where
  lexes := by
    apply lexes_token (by simp [ne_nil_of_isVariableName hname])
    intro rest hrest
    refine ⟨rest, ?_, rfl⟩
    have hclose := ((closed_space.append h.closed_text).append closed_space).splitClose? rest
    have htrim := h.tight_text.trim [' '] [' '] isBlank_space isBlank_space
    have hnext := next_name hname
      (spaced_cons ('(' :: ([' '] ++ argumentText texts ++ [' ']) ++ ')' :: rest))
    simp [Text.isGap] at hnext hclose htrim
    simp [hnext, hclose, htrim]
  closed := by
    have hname := closed_plain fun c hc =>
      isPlain_of_isNameChar (isNameChar_of_isVariableName hname c hc)
    simpa using hname.append (closed_space.append (closed_parens h.closed_text))
  passes := by
    have hname := passes_plain fun c hc =>
      isPlain_of_isNameChar (isNameChar_of_isVariableName hname c hc)
    simpa using hname.append (passes_space.append (passes_parens h.passes_text))
  tight := by
    have hword := tight_word (ne_nil_of_isVariableName hname) (isNameChar_of_isVariableName hname)
    simpa [Symbol.spelling] using
      hword.between (tight_spelling .closeParen) (' ' :: '(' :: ' ' :: (argumentText texts ++ [' ']))

end SignalCalc
