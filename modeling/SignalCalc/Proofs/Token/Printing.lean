import Mathlib.Data.List.Chain
import SignalCalc.Proofs.Token.Delimiters
import SignalCalc.Proofs.Value.Range

namespace SignalCalc

open DataType (IsWidth)

/-! ## Writing -/

/-- How a token is written: a symbol by its spelling, the placeholder by one of its signs, a number
that is not negative as its text with domain and bit count, a name by itself. -/
inductive Writes : Token → List Char → Prop where
  | symbol (s : Symbol) : Writes (.symbol s) s.spelling
  | placeholder {c : Char} (hc : c = '#' ∨ c = '$') : Writes .placeholder [c]
  | number {v : Value} {n : Nat} (hv : v.integer? = some (n : Int))
      (hwidth : IsWidth v.width) : Writes (.number v) v.text.toList
  | name {cs : List Char} (hcs : isVariableName cs = true) :
      Writes (.name (String.ofList cs)) cs

inductive Joined : List Token → List Char → Prop where
  | nil : Joined [] []
  | one {t : Token} {word : List Char} (h : Writes t word) : Joined [t] word
  | cons {t : Token} {ts : List Token} {word gap cs : List Char} (h : Writes t word)
      (hgap : gap ≠ []) (hgaps : ∀ c ∈ gap, Text.isGap c = true) (hrest : Joined ts cs) :
      Joined (t :: ts) (word ++ (gap ++ cs))

def NoCalls (ts : List Token) : Prop :=
  ts.IsChain fun t u => t.isName = true → u ≠ .symbol .openParen

/-! ## Single tokens -/

namespace Numeral

def suffixChars (signed : Bool) (width : UInt8) : List Char :=
  (if signed then 'i' else 'u') :: Nat.toDigits 10 (width.toNat * 8)

theorem ends_suffixChars (signed : Bool) (width : UInt8) : Ends (suffixChars signed width) := by
  intro c hc
  obtain rfl : (if signed then 'i' else 'u') = c := Option.some.inj hc
  cases signed <;> decide

theorem suffix?_suffixChars (signed : Bool) {width : UInt8} (hwidth : IsWidth width) :
    suffix? (suffixChars signed width) =
      some ⟨signed, width, (suffixChars signed width).length⟩ := by
  obtain rfl | rfl | rfl | rfl := hwidth <;> cases signed <;> rfl

theorem read_suffixed {n : Nat} (hn : n ≤ wordMax) (signed : Bool) {width : UInt8}
    (hwidth : IsWidth width) :
    read (Nat.toDigits 10 n ++ suffixChars signed width) =
      .value ⟨if signed then .signed (Int64.ofNat n) else .unsigned (UInt64.ofNat n), width⟩
        [] := by
  refine read_value_iff.mpr (.inr ?_)
  rw [integer_toDigits hn (ends_suffixChars signed width), List.drop_left]
  constructor
  · cases signed <;> rfl
  · simp only [suffixed, suffix?_suffixChars signed hwidth, List.drop_length]
    cases signed <;> rfl

end Numeral

namespace Value

/-- The text of an integer value are its digits with the suffix behind them. -/
theorem suffixedText_eq (i : Int) (signed : Bool) (width : UInt8) :
    integerText i ++ (if signed then "i" else "u") ++ integerText (width.toNat * 8) =
      String.ofList (integerChars i ++ Numeral.suffixChars signed width) := by
  have hbits : integerText (width.toNat * 8) =
    String.ofList (Nat.toDigits 10 (width.toNat * 8)) := rfl
  rw [integerText_eq i, hbits]
  apply String.toList_inj.mp
  cases signed <;> simp [Numeral.suffixChars]

end Value

/-- The text of an integer that is not negative: its digits and a suffix, which stand for it. -/
theorem text_of_integer {v : Value} {n : Nat} (hv : v.integer? = some (n : Int)) :
    n ≤ Numeral.wordMax ∧ ∃ signed,
      v.text.toList = Nat.toDigits 10 n ++ Numeral.suffixChars signed v.width ∧
      v = ⟨if signed then .signed (Int64.ofNat n) else .unsigned (UInt64.ofNat n), v.width⟩ := by
  have hdigits : Value.integerChars n = Nat.toDigits 10 n :=
    if_neg (Int.not_lt.mpr (Int.natCast_nonneg n))
  obtain ⟨scalar, width⟩ := v
  cases scalar with
  | signed i =>
    have hi : i.toInt = n := Option.some.inj hv
    have hlt := i.toInt_lt
    have hword : Int64.ofNat n = i := by
      rw [← Int64.toInt_inj, Int64.toInt_ofNat_of_lt (by omega), hi]
    -- a number that is not negative is the same one as a word
    refine ⟨by simp only [Numeral.wordMax]; omega, true, ?_, by rw [if_pos rfl, hword]⟩
    have htext := Value.suffixedText_eq n true width
    rw [hdigits, ← hi] at htext
    exact String.toList_inj.mpr htext |>.trans String.toList_ofList
  | unsigned u =>
    obtain rfl : u.toNat = n := Int.ofNat.inj (Option.some.inj hv)
    have hlt := u.toNat_lt
    refine ⟨by simp only [Numeral.wordMax]; omega, false, ?_, by simp⟩
    have htext := Value.suffixedText_eq u.toNat false width
    rw [hdigits] at htext
    exact String.toList_inj.mpr htext |>.trans String.toList_ofList
  | real d => cases hv

/-- A written token is read back to its end. -/
theorem next_word {t : Token} {word : List Char} (h : Writes t word) :
    Token.next word = .token t [] := by
  cases h with
  | symbol s => simpa using next_symbol s spaced_nil
  | placeholder hc => rcases hc with rfl | rfl <;> rfl
  | @number v n hv hwidth =>
    obtain ⟨hn, signed, htext, hvalue⟩ := text_of_integer hv
    have hread := Numeral.read_suffixed hn signed hwidth
    obtain ⟨c, cs, hcs, hc⟩ := Numeral.exists_toDigits_eq_cons n
    rw [← hvalue, hcs, List.cons_append] at hread
    rw [htext, hcs, List.cons_append]
    exact next_number hc hread
  | @name cs hcs =>
    have hnext := next_name hcs spaced_nil
    simpa using hnext

/-! ## Reading token by token -/

/-- The tokens that reading a text one by one yields, until nothing of it is left. -/
inductive Yields : List Char → List Token → Prop where
  | stop {cs : List Char} (h : Token.next cs = .stop []) : Yields cs []
  | token {cs rest : List Char} {t : Token} {ts : List Token} (h : Token.next cs = .token t rest)
      (hrest : Yields rest ts) : Yields cs (t :: ts)

theorem SameLeft.next {left rest : List Char} (h : SameLeft left rest) :
    Token.next left = Token.next rest := by
  unfold Token.next
  rw [h]

theorem Yields.of_sameLeft {left rest : List Char} {ts : List Token} (h : Yields rest ts)
    (hsame : SameLeft left rest) : Yields left ts := by
  cases h with
  | stop h => exact .stop (hsame.next.trans h)
  | token h hrest => exact .token (hsame.next.trans h) hrest

theorem Yields.ofText {cs : List Char} {ts : List Token} (h : Yields cs ts) :
    Tokens.ofText cs = ⟨ts, .done⟩ := by
  induction h with
  | stop h => simp [Tokens.ofText, Tokens.scan, h]
  | token h _ ih =>
    rw [ofText_token h, ih]
    rfl

/-- A text meets a parenthesis at once only if its first token is one. -/
theorem Yields.head_ne_paren {cs : List Char} {ts : List Token} (h : Yields cs ts)
    (hfirst : ts.head? ≠ some (.symbol .openParen)) :
    (cs.dropWhile Text.isGap).head? ≠ some '(' := by
  intro hhead
  obtain ⟨more, hmore⟩ := List.head?_eq_some_iff.mp hhead
  have hparen := next_paren hmore
  cases h with
  | stop h => simp [hparen] at h
  | token h hrest =>
    rw [hparen] at h
    cases h
    exact hfirst rfl

/-- The first token of a joined text is read, and the text behind it is left but for gaps. -/
theorem next_joined {t : Token} {word gap cs : List Char} {ts : List Token} (h : Writes t word)
    (hgap : gap ≠ []) (hgaps : ∀ c ∈ gap, Text.isGap c = true) (hyields : Yields cs ts)
    (hcalls : NoCalls (t :: ts)) :
    ∃ left, Token.next (word ++ (gap ++ cs)) = .token t left ∧ SameLeft left cs := by
  have hsame : SameLeft (gap ++ cs) cs := List.dropWhile_append_of_pos hgaps
  -- the gap ends the word, and behind it a name must not meet a parenthesis
  obtain ⟨g, gap, rfl⟩ := List.exists_cons_of_ne_nil hgap
  have hd := isDelimiter_of_isBlank (isBlank_of_isGap (hgaps g (by simp)))
  have hparen : t.isName = true → ((g :: (gap ++ cs)).dropWhile Text.isGap).head? ≠ some '(' := by
    intro hname
    rw [← List.cons_append, hsame]
    refine hyields.head_ne_paren fun hfirst => ?_
    obtain ⟨us, rfl⟩ := List.head?_eq_some_iff.mp hfirst
    exact (List.isChain_cons_cons.mp hcalls).1 hname rfl
  obtain ⟨left, hleft, hdrop⟩ := next_delimiter hd (next_word h) fun hname _ => hparen hname
  exact ⟨left, hleft, hdrop.trans hsame⟩

/-- A joined list of tokens is what its text yields, token by token and as a whole. -/
theorem printed_tokens_read_back {ts : List Token} {cs : List Char} (h : Joined ts cs)
    (hcalls : NoCalls ts) : Yields cs ts ∧ Tokens.ofText cs = ⟨ts, .done⟩ := by
  suffices hyields : Yields cs ts from ⟨hyields, hyields.ofText⟩
  induction h with
  | nil => exact .stop rfl
  | one h => exact .token (next_word h) (.stop rfl)
  | cons h hgap hgaps _ ih =>
    have hyields := ih (List.IsChain.of_cons hcalls)
    obtain ⟨left, hleft, hsame⟩ := next_joined h hgap hgaps hyields hcalls
    exact .token hleft (hyields.of_sameLeft hsame)

theorem printed_tokens_read_back_comparison :
    let limit : Value := ⟨.unsigned 300, 1⟩
    Tokens.ofText "a.b\t\n>= 300u8 ( $ )".toList =
      ⟨[.name "a.b", .symbol .greaterEqual, .number limit, .symbol .openParen, .placeholder,
        .symbol .closeParen], .done⟩ := by
  intro limit
  have hone : ∀ c ∈ [' '], Text.isGap c = true := by simp [Text.isGap]
  have hjoined : Joined
      [.name "a.b", .symbol .greaterEqual, .number limit, .symbol .openParen, .placeholder,
        .symbol .closeParen]
      (['a', '.', 'b'] ++ (['\t', '\n'] ++ (Symbol.greaterEqual.spelling ++ ([' '] ++
        (limit.text.toList ++ ([' '] ++ (Symbol.openParen.spelling ++ ([' '] ++
          (['$'] ++ ([' '] ++ Symbol.closeParen.spelling)))))))))) :=
    .cons (.name (by decide)) (by decide) (by simp [Text.isGap]) <|
    .cons (.symbol .greaterEqual) (by decide) hone <|
    .cons (.number (n := 300) rfl (.inl rfl)) (by decide) hone <|
    .cons (.symbol .openParen) (by decide) hone <|
    .cons (.placeholder (.inr rfl)) (by decide) hone <| .one (.symbol .closeParen)
  have hcalls : NoCalls [.name "a.b", .symbol .greaterEqual, .number limit, .symbol .openParen,
      .placeholder, .symbol .closeParen] := by
    simp [NoCalls, Token.isName]
  have htext : limit.text.toList = "300u8".toList := by decide +kernel
  rw [htext] at hjoined
  exact (printed_tokens_read_back hjoined hcalls).2

end SignalCalc
