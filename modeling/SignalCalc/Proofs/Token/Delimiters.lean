import Mathlib.Data.List.TakeWhile
import SignalCalc.Proofs.Token.Scanning

namespace SignalCalc

/-- A character that ends every word before it. -/
def isDelimiter (c : Char) : Bool := Text.isBlank c || !isPlain c

theorem isNameChar_of_isDelimiter {c : Char} (h : isDelimiter c = true) :
    isNameChar c = false := by
  refine Bool.eq_false_iff.mpr fun hname => ?_
  simp [isDelimiter, isBlank_of_isNameChar hname, isPlain_of_isNameChar hname] at h

theorem isNameChar_of_digit {b : Nat} {c : Char} (h : Numeral.isDigit b c = true) :
    isNameChar c = true := by
  suffices halnum : c.isAlphanum = true by simp [isNameChar, halnum]
  simp only [Numeral.isDigit, Numeral.digit?, Option.isSome_filter, Option.any_eq_true] at h
  obtain ⟨n, hn, -⟩ := h
  simp only [Char.isAlphanum, isAlpha_iff, Char.isDigit, Bool.or_eq_true, Bool.and_eq_true,
    decide_eq_true_eq, Char.le_def, UInt32.le_iff_toNat_le, Char.toNat_val, ge_iff_le,
    Char.reduceVal, UInt32.reduceToNat] at hn ⊢
  split at hn
  · omega
  · split at hn
    · omega
    · split at hn
      · omega
      · cases hn

theorem isDelimiter_of_isBlank {c : Char} (h : Text.isBlank c = true) : isDelimiter c = true := by
  simp [isDelimiter, h]

theorem isBlank_of_isGap {c : Char} (h : Text.isGap c = true) : Text.isBlank c = true := by
  simp only [Text.isGap, Bool.or_eq_true, beq_iff_eq] at h
  rcases h with (((rfl | rfl) | rfl) | rfl) | rfl <;> decide

/-! ## Numbers lie within their text -/

namespace Numeral

theorem digitCount_le (cs : List Char) : digitCount cs ≤ cs.length :=
  (List.takeWhile_prefix _).length_le

theorem base_le (cs : List Char) : (base cs).2 ≤ cs.length := by
  unfold base
  split
  · split <;> simp
  · simp
  · simp

theorem integer_le (cs : List Char) : (integer cs).2 ≤ cs.length := by
  have hbase := base_le cs
  have hdigits := (List.takeWhile_prefix (l := cs.drop (base cs).2) (isDigit (base cs).1)).length_le
  rw [List.length_drop] at hdigits
  simp only [integer, integerDigits]
  omega

theorem fractionLength_le (cs : List Char) : fractionLength cs ≤ cs.length := by
  unfold fractionLength
  split
  · next cs =>
    have hdigits := digitCount_le cs
    simp only [List.length_cons]
    omega
  · exact Nat.zero_le _

theorem exponentLength_le (cs : List Char) : exponentLength cs ≤ cs.length := by
  cases cs with
  | nil => exact Nat.zero_le _
  | cons c cs =>
    have hdigits : ∀ sign,
        (if digitCount (cs.drop sign) = 0 then 0 else 1 + sign + digitCount (cs.drop sign)) ≤
          (c :: cs).length := by
      intro sign
      have hcount : digitCount (cs.drop sign) ≤ cs.length - sign := by
        simpa using digitCount_le (cs.drop sign)
      simp only [List.length_cons]
      split <;> omega
    simp only [exponentLength]
    split
    · exact hdigits _
    · exact Nat.zero_le _

theorem doubleLength_le (cs : List Char) : doubleLength cs ≤ cs.length := by
  have hwhole := digitCount_le cs
  have hfraction := fractionLength_le (cs.drop (digitCount cs))
  have hexponent := exponentLength_le
    (cs.drop (digitCount cs + fractionLength (cs.drop (digitCount cs))))
  simp only [List.length_drop] at hfraction hexponent
  simp only [doubleLength]
  omega

theorem length_bitCount?_le {cs : List Char} {width : UInt8} {n : Nat}
    (h : bitCount? cs = some (width, n)) : n ≤ cs.length := by
  unfold bitCount? at h
  split at h <;> cases h <;> simp

theorem length_suffix?_le {cs : List Char} {s : Suffix} (h : suffix? cs = some s) :
    s.length ≤ cs.length := by
  simp only [suffix?, Option.bind_eq_some_iff, Option.map_eq_some_iff] at h
  obtain ⟨⟨signed, mark⟩, hmark, ⟨width, digits⟩, hcount, rfl⟩ := h
  have hdigits := length_bitCount?_le hcount
  have hlength : mark ≤ cs.length := by
    split at hmark <;> cases hmark <;> simp
  simp only [List.length_drop] at hdigits
  dsimp only
  omega

end Numeral

section Delimiter

variable {d : Char} {tail : List Char}

theorem takeWhile_delimiter {p : Char → Bool} (hp : p d = false) (cs : List Char) :
    (cs ++ d :: tail).takeWhile p = cs.takeWhile p := by
  induction cs with
  | nil => simp [hp]
  | cons c cs ih => by_cases hc : p c <;> simp [hc, ih]

theorem dropWhile_delimiter {p : Char → Bool} (hp : p d = false) (cs : List Char) :
    (cs ++ d :: tail).dropWhile p = cs.dropWhile p ++ d :: tail := by
  induction cs with
  | nil => simp [hp]
  | cons c cs ih => by_cases hc : p c <;> simp [hc, ih]

/-- What does not consist of such characters alone is left with its own text in front. -/
theorem dropWhile_append_of_ne_nil {p : Char → Bool} {cs : List Char} (h : cs.dropWhile p ≠ [])
    (more : List Char) : (cs ++ more).dropWhile p = cs.dropWhile p ++ more := by
  rw [List.dropWhile_append, if_neg (by simpa using h)]

theorem dropWhile_append_of_eq_nil {p : Char → Bool} {cs : List Char} (h : cs.dropWhile p = [])
    (more : List Char) : (cs ++ more).dropWhile p = more.dropWhile p := by
  rw [List.dropWhile_append, if_pos (by simp [h])]

variable (hd : isDelimiter d = true)
include hd

/-! ## Numbers -/

namespace Numeral

theorem isDigit_delimiter (b : Nat) : isDigit b d = false :=
  Bool.eq_false_iff.mpr fun hdigit =>
    Bool.eq_false_iff.mp (isNameChar_of_isDelimiter hd) (isNameChar_of_digit hdigit)

theorem digitCount_delimiter (cs : List Char) : digitCount (cs ++ d :: tail) = digitCount cs := by
  simp only [digitCount, takeWhile_delimiter (isDigit_delimiter hd 10)]

theorem base_delimiter (cs : List Char) : base (cs ++ d :: tail) = base cs := by
  cases cs with
  | nil => exact base_of_ne_zero (ne_of_class hd rfl) tail
  | cons c cs =>
    by_cases hzero : c = '0'
    · subst hzero
      -- two characters behind the zero decide
      match cs with
      | [] =>
        have hx : (d == 'x') = false ∧ (d == 'X') = false :=
          ⟨beq_false_of_ne (ne_of_class hd rfl), beq_false_of_ne (ne_of_class hd rfl)⟩
        cases tail <;> simp [base, hx]
      | [x] => simp [base, isDigit_delimiter hd]
      | x :: e :: more => rfl
    · rw [List.cons_append, base_of_ne_zero hzero, base_of_ne_zero hzero]

theorem integer_delimiter (cs : List Char) : integer (cs ++ d :: tail) = integer cs := by
  have hdigits : integerDigits (cs ++ d :: tail) = integerDigits cs := by
    simp only [integerDigits, base_delimiter hd, List.drop_append_of_le_length (base_le cs)]
    exact takeWhile_delimiter (isDigit_delimiter hd _) _
  simp only [integer, hdigits, base_delimiter hd]

theorem fractionLength_delimiter (cs : List Char) :
    fractionLength (cs ++ d :: tail) = fractionLength cs := by
  cases cs with
  | nil => simp [fractionLength, ne_of_class hd (d := '.') rfl]
  | cons c cs =>
    by_cases hpoint : c = '.'
    · subst hpoint
      simp only [List.cons_append, fractionLength, digitCount_delimiter hd]
    · simp [fractionLength, hpoint]

theorem exponentLength_delimiter (cs : List Char) :
    exponentLength (cs ++ d :: tail) = exponentLength cs := by
  cases cs with
  | nil => simp [exponentLength, ne_of_class hd (d := 'e') rfl, ne_of_class hd (d := 'E') rfl]
  | cons c cs =>
    cases cs with
    | nil =>
      simp [exponentLength, digitCount, isDigit_delimiter hd, ne_of_class hd (d := '+') rfl,
        ne_of_class hd (d := '-') rfl]
    | cons e cs =>
      have hdigits : digitCount (e :: (cs ++ d :: tail)) = digitCount (e :: cs) :=
        digitCount_delimiter hd (e :: cs)
      have htail : digitCount (cs ++ d :: tail) = digitCount cs := digitCount_delimiter hd cs
      simp only [List.cons_append, exponentLength]
      split
      · split <;> simp_all
      · rfl

theorem doubleLength_delimiter (cs : List Char) :
    doubleLength (cs ++ d :: tail) = doubleLength cs := by
  have hwhole := digitCount_le cs
  have hfraction := fractionLength_le (cs.drop (digitCount cs))
  rw [List.length_drop] at hfraction
  simp only [doubleLength, digitCount_delimiter hd, List.drop_append_of_le_length hwhole,
    fractionLength_delimiter hd]
  rw [List.drop_append_of_le_length (by omega), exponentLength_delimiter hd]

theorem marksDouble_delimiter (cs : List Char) :
    marksDouble (cs ++ d :: tail) = marksDouble cs := by
  cases cs with
  | nil =>
    simp [marksDouble, ne_of_class hd (d := '.') rfl, ne_of_class hd (d := 'e') rfl,
      ne_of_class hd (d := 'E') rfl]
  | cons c cs => rfl

theorem bitCount?_delimiter (cs : List Char) : bitCount? (cs ++ d :: tail) = bitCount? cs := by
  have hne : ∀ c, isDelimiter c = false → d ≠ c := fun c hc => ne_of_class hd hc
  match cs with
  | [] => simp [bitCount?, hne '8' rfl, hne '1' rfl, hne '3' rfl, hne '6' rfl]
  | [c] =>
    simp only [List.cons_append, List.nil_append]
    unfold bitCount?
    split <;> simp_all [hne '6' rfl, hne '2' rfl, hne '4' rfl]
  | c :: e :: cs =>
    unfold bitCount?
    split <;> simp_all

theorem suffix?_delimiter (cs : List Char) : suffix? (cs ++ d :: tail) = suffix? cs := by
  have hnone : bitCount? (d :: tail) = none := bitCount?_delimiter hd []
  have hu := ne_of_class hd (d := 'u') rfl
  have hi := ne_of_class hd (d := 'i') rfl
  match cs with
  | [] => simp [suffix?, hu, hi]
  | [c] =>
    have hnil : bitCount? [] = none := rfl
    by_cases hcu : c = 'u'
    · simp [suffix?, hcu, hi, hnone, hnil]
    · by_cases hci : c = 'i' <;> simp [suffix?, hcu, hci, hnone, hnil]
  | c :: e :: cs =>
    have hone : bitCount? (e :: (cs ++ d :: tail)) = bitCount? (e :: cs) :=
      bitCount?_delimiter hd (e :: cs)
    have htwo : bitCount? (cs ++ d :: tail) = bitCount? cs := bitCount?_delimiter hd cs
    by_cases hcu : c = 'u'
    · by_cases hei : e = 'i' <;> simp [suffix?, hcu, hei, hone, htwo]
    · by_cases hci : c = 'i' <;> simp [suffix?, hcu, hci, hone]

theorem suffixed_delimiter (n : Nat) (cs : List Char) :
    suffixed n (cs ++ d :: tail) = ((suffixed n cs).1, (suffixed n cs).2 ++ d :: tail) := by
  unfold suffixed
  rw [suffix?_delimiter hd]
  cases hsuffix : suffix? cs with
  | none => rfl
  | some s => simp [List.drop_append_of_le_length (length_suffix?_le hsuffix)]

theorem read_delimiter_iff {cs rest : List Char} {v : Value} :
    read (cs ++ d :: tail) = .value v rest ↔
      ∃ left, read cs = .value v left ∧ rest = left ++ d :: tail := by
  have hdouble := doubleLength_le cs
  simp only [read_value_iff]
  rw [integer_delimiter hd, List.drop_append_of_le_length (integer_le cs), marksDouble_delimiter hd,
    doubleLength_delimiter hd, List.take_append_of_le_length hdouble,
    List.drop_append_of_le_length hdouble, suffixed_delimiter hd]
  constructor
  · rintro (⟨hmark, hlength, hvalue, rfl⟩ | ⟨hmark, hvalue⟩)
    · exact ⟨_, .inl ⟨hmark, hlength, hvalue, rfl⟩, rfl⟩
    · cases hvalue
      exact ⟨_, .inr ⟨hmark, rfl⟩, rfl⟩
  · rintro ⟨left, ⟨hmark, hlength, hvalue, rfl⟩ | ⟨hmark, hvalue⟩, rfl⟩
    · exact .inl ⟨hmark, hlength, hvalue, rfl⟩
    · rw [hvalue]
      exact .inr ⟨hmark, rfl⟩

end Numeral

/-! ## Symbols -/

/-- No symbol goes on with a delimiter. -/
theorem isPrefixOf_spelling_delimiter (s : Symbol) (c : Char) (cs : List Char) :
    s.spelling.isPrefixOf (c :: (cs ++ d :: tail)) = s.spelling.isPrefixOf (c :: cs) := by
  have hne : ∀ e, isDelimiter e = false → (e == d) = false := fun e he =>
    beq_false_of_ne (ne_of_class hd he).symm
  cases cs <;> cases s <;>
    simp [Symbol.spelling, List.isPrefixOf, hne '=' rfl, hne '<' rfl, hne '>' rfl, hne '&' rfl,
      hne '|' rfl]

theorem Symbol.read?_delimiter (c : Char) (cs : List Char) :
    read? (c :: (cs ++ d :: tail)) =
      (read? (c :: cs)).map fun pair => (pair.1, pair.2 ++ d :: tail) := by
  simp only [read?, isPrefixOf_spelling_delimiter hd]
  cases cs with
  | nil =>
    -- one character is no symbol of two
    have hdouble : doubles.find? (fun s => s.spelling.isPrefixOf [c]) = none := by
      simp [doubles, spelling, List.isPrefixOf]
    rw [hdouble]
    simp [Function.comp_def]
  | cons e cs =>
    split
    · rfl
    · simp [Function.comp_def]

omit hd in
theorem Symbol.read?_blank {c : Char} (hc : Text.isBlank c = true) (cs : List Char) :
    read? (c :: cs) = none := by
  have hfirst : ∀ s : Symbol, s.spelling.isPrefixOf (c :: cs) = false := by
    intro s
    obtain ⟨e, he, hblank⟩ := (tight_spelling s).first
    cases hs : s.spelling with
    | nil => simp [hs] at he
    | cons f fs =>
      obtain rfl : f = e := by simpa [hs] using he
      have hne : (f == c) = false := beq_false_of_ne (ne_of_class hc hblank).symm
      simp [List.isPrefixOf, hne]
  have hnone : ∀ ss : List Symbol, ss.find? (fun s => s.spelling.isPrefixOf (c :: cs)) = none :=
    fun ss => List.find?_eq_none.mpr fun s _ => by simp [hfirst s]
  rw [read?, hnone, hnone]
  rfl

/-! ## Names and calls -/

omit hd

def nameOrCall (name behind : List Char) : Lexeme :=
  match behind with
  | '(' :: inner =>
    match splitClose? 0 inner with
    | some (args, rest) => .token (.call (String.ofList name) (Text.trim args)) rest
    | none => .fault (.unclosedCall (String.ofList name))
  | _ => .token (.name (String.ofList name)) behind

theorem readName_eq (cs : List Char) :
    readName cs =
      if maxNameLength < (cs.takeWhile isNameChar).length then .fault .nameTooLong
      else nameOrCall (cs.takeWhile isNameChar)
        ((cs.dropWhile isNameChar).dropWhile Text.isGap) := rfl

theorem nameOrCall_of_ne {behind : List Char} (h : behind.head? ≠ some '(') (name : List Char) :
    nameOrCall name behind = .token (.name (String.ofList name)) behind := by
  unfold nameOrCall
  split
  · simp at h
  · rfl

/-- A name with a delimiter behind it, which may be the parenthesis that makes a call of it. -/
theorem next_name_delimiter (hd : isDelimiter d = true) {name : List Char}
    (h : isVariableName name = true) :
    Token.next (name ++ d :: tail) = nameOrCall name ((d :: tail).dropWhile Text.isGap) := by
  cases name with
  | nil => cases h
  | cons c cs =>
    simp only [isVariableName, Bool.and_eq_true, List.all_eq_true, decide_eq_true_eq] at h
    obtain ⟨⟨hstart, hchars⟩, hlength⟩ := h
    have hname := isNameChar_of_isDelimiter hd
    rw [List.cons_append, next_of_isNameStart hstart, ← List.cons_append, readName_eq,
      takeWhile_delimiter hname, dropWhile_delimiter hname, List.takeWhile_eq_self_iff.mpr hchars,
      List.dropWhile_eq_nil_iff.mpr hchars, List.nil_append, if_neg (by omega)]

theorem splitClose?_append {depth : Nat} {cs inner rest : List Char}
    (h : splitClose? depth cs = some (inner, rest)) (more : List Char) :
    splitClose? depth (cs ++ more) = some (inner, rest ++ more) := by
  induction cs generalizing depth inner with
  | nil => cases h
  | cons c cs ih =>
    -- a character that is passed over is put back in front of what is found behind it
    have hkeep : ∀ depth', (splitClose? depth' cs).map (fun pair => (c :: pair.1, pair.2)) =
        some (inner, rest) →
        (splitClose? depth' (cs ++ more)).map (fun pair => (c :: pair.1, pair.2)) =
          some (inner, rest ++ more) := by
      intro depth' hmap
      obtain ⟨⟨found, rest'⟩, hfound, heq⟩ := Option.map_eq_some_iff.mp hmap
      cases heq
      rw [ih hfound]
      rfl
    simp only [List.cons_append, splitClose?] at h ⊢
    split at h
    · next hopen =>
      rw [if_pos hopen]
      exact hkeep _ h
    · next hopen =>
      rw [if_neg hopen]
      split at h
      · next hclose =>
        rw [if_pos hclose]
        cases depth with
        | zero =>
          cases h
          rfl
        | succ depth => exact hkeep _ h
      · next hclose =>
        rw [if_neg hclose]
        exact hkeep _ h

theorem isPlain_of_isBlank {c : Char} (h : Text.isBlank c = true) : isPlain c = true := by
  have hne : ∀ d, Text.isBlank d = false → c ≠ d := fun d hd => ne_of_class h hd
  simp [isPlain, hne '(' rfl, hne ')' rfl, hne ',' rfl]

/-- A parenthesis that is closed in front of blanks and more is closed there. -/
theorem splitClose?_of_blanks {blanks : List Char} (hblanks : ∀ c ∈ blanks, Text.isBlank c = true)
    {depth : Nat} {cs inner rest : List Char}
    (h : splitClose? depth (cs ++ blanks) = some (inner, rest)) :
    ∃ left, splitClose? depth cs = some (inner, left) ∧ rest = left ++ blanks := by
  have hplain := closed_plain fun c hc => isPlain_of_isBlank (hblanks c hc)
  suffices hmap : splitClose? depth (cs ++ blanks) =
      (splitClose? depth cs).map fun pair => (pair.1, pair.2 ++ blanks) by
    rw [hmap] at h
    obtain ⟨⟨inner', left⟩, hleft, heq⟩ := Option.map_eq_some_iff.mp h
    cases heq
    exact ⟨left, hleft, rfl⟩
  clear h
  induction cs generalizing depth with
  | nil => simpa [splitClose?] using hplain depth []
  | cons c cs ih =>
    simp only [List.cons_append, splitClose?]
    split
    · simp [ih, Function.comp_def]
    · split
      · cases depth with
        | zero => rfl
        | succ depth => simp [ih, Function.comp_def]
      · simp [ih, Function.comp_def]

theorem nameOrCall_append {name behind rest : List Char} {t : Token}
    (h : nameOrCall name behind = .token t rest) (hne : behind ≠ []) (more : List Char) :
    nameOrCall name (behind ++ more) = .token t (rest ++ more) := by
  obtain ⟨c, cs, rfl⟩ := List.exists_cons_of_ne_nil hne
  by_cases hc : c = '('
  · subst hc
    simp only [nameOrCall, List.cons_append] at h ⊢
    cases hclose : splitClose? 0 cs with
    | none => simp [hclose] at h
    | some pair =>
      rw [hclose] at h
      cases h
      rw [splitClose?_append hclose]
  · have hparen : ∀ cs', (c :: cs').head? ≠ some '(' := fun _ => by simpa using hc
    rw [nameOrCall_of_ne (hparen _)] at h
    rw [List.cons_append, nameOrCall_of_ne (hparen _)]
    cases h
    rfl

theorem nameOrCall_of_blanks {blanks : List Char} (hblanks : ∀ c ∈ blanks, Text.isBlank c = true)
    {name behind rest : List Char} {t : Token} (hne : behind ≠ [])
    (h : nameOrCall name (behind ++ blanks) = .token t rest) :
    ∃ left, nameOrCall name behind = .token t left ∧ rest = left ++ blanks := by
  obtain ⟨c, cs, rfl⟩ := List.exists_cons_of_ne_nil hne
  by_cases hc : c = '('
  · subst hc
    simp only [nameOrCall, List.cons_append] at h ⊢
    cases hclose : splitClose? 0 (cs ++ blanks) with
    | none => simp [hclose] at h
    | some pair =>
      rw [hclose] at h
      cases h
      obtain ⟨left, hleft, hrest⟩ := splitClose?_of_blanks hblanks hclose
      rw [hleft]
      exact ⟨left, rfl, hrest⟩
  · have hparen : ∀ cs', (c :: cs').head? ≠ some '(' := fun _ => by simpa using hc
    rw [List.cons_append, nameOrCall_of_ne (hparen _)] at h
    rw [nameOrCall_of_ne (hparen _)]
    cases h
    exact ⟨_, rfl, rfl⟩

/-- Whether the token is a name, which a parenthesis behind it would make a call of. -/
def Token.isName : Token → Bool
  | .name _ => true
  | _ => false

/-- The text is left over to another token and the gaps behind it. -/
abbrev SameLeft (left rest : List Char) : Prop :=
  left.dropWhile Text.isGap = rest.dropWhile Text.isGap

theorem readName_delimiter (hd : isDelimiter d = true) {cs rest : List Char} {t : Token}
    (h : readName cs = .token t rest)
    (hparen : t.isName = true → rest = [] → ((d :: tail).dropWhile Text.isGap).head? ≠ some '(') :
    ∃ left, readName (cs ++ d :: tail) = .token t left ∧ SameLeft left (rest ++ d :: tail) := by
  have hname := isNameChar_of_isDelimiter hd
  rw [readName_eq] at h ⊢
  rw [takeWhile_delimiter hname, dropWhile_delimiter hname]
  split at h
  · cases h
  · next hlength =>
    rw [if_neg hlength]
    by_cases hbehind : (cs.dropWhile isNameChar).dropWhile Text.isGap = []
    · -- the name is the last word of the text, so that it meets what follows
      rw [hbehind, nameOrCall_of_ne (by simp)] at h
      cases h
      rw [dropWhile_append_of_eq_nil hbehind, nameOrCall_of_ne (hparen rfl rfl)]
      exact ⟨_, rfl, dropGaps_dropGaps _⟩
    · rw [dropWhile_append_of_ne_nil hbehind, nameOrCall_append h hbehind]
      exact ⟨_, rfl, rfl⟩

theorem readName_of_blanks {blanks : List Char} (hblanks : ∀ c ∈ blanks, Text.isBlank c = true)
    {cs rest : List Char} {t : Token} (h : readName (cs ++ blanks) = .token t rest) :
    ∃ left, readName cs = .token t left ∧ SameLeft rest (left ++ blanks) := by
  cases blanks with
  | nil => exact ⟨rest, by simpa using h, by simp⟩
  | cons b blanks =>
    have hb := hblanks b (by simp)
    have hname := isNameChar_of_isDelimiter (isDelimiter_of_isBlank hb)
    rw [readName_eq] at h ⊢
    rw [takeWhile_delimiter hname, dropWhile_delimiter hname] at h
    split at h
    · cases h
    · next hlength =>
      rw [if_neg hlength]
      by_cases hbehind : (cs.dropWhile isNameChar).dropWhile Text.isGap = []
      · -- there is no parenthesis among the blanks
        have hparen : ((b :: blanks).dropWhile Text.isGap).head? ≠ some '(' := by
          intro hhead
          have hmem := (List.dropWhile_sublist _).subset (List.mem_of_mem_head? hhead)
          exact absurd (hblanks _ hmem) (by decide)
        rw [dropWhile_append_of_eq_nil hbehind, nameOrCall_of_ne hparen] at h
        cases h
        rw [hbehind, nameOrCall_of_ne (by simp)]
        exact ⟨[], rfl, dropGaps_dropGaps _⟩
      · rw [dropWhile_append_of_ne_nil hbehind] at h
        obtain ⟨left, hleft, rfl⟩ := nameOrCall_of_blanks hblanks hbehind h
        exact ⟨left, hleft, rfl⟩

/-! ## Tokens -/

theorem next_paren {cs more : List Char} (h : cs.dropWhile Text.isGap = '(' :: more) :
    Token.next cs = .token (.symbol .openParen) more := by
  unfold Token.next
  rw [h]
  rfl

/-- A token that a text starts with is there also when a delimiter follows the text. Only a name
that goes to the end of the text must not meet an opening parenthesis. -/
theorem next_delimiter (hd : isDelimiter d = true) {cs rest : List Char} {t : Token}
    (h : Token.next cs = .token t rest)
    (hparen : t.isName = true → rest = [] → ((d :: tail).dropWhile Text.isGap).head? ≠ some '(') :
    ∃ left, Token.next (cs ++ d :: tail) = .token t left ∧ SameLeft left (rest ++ d :: tail) := by
  obtain ⟨c, more, hcs, hcomma, hstarts⟩ := starts_of_next h
  have hcs' : (cs ++ d :: tail).dropWhile Text.isGap = c :: (more ++ d :: tail) := by
    rw [dropWhile_append_of_ne_nil (by simp [hcs]), hcs]
    rfl
  suffices hleft : ∃ left, Starts c (more ++ d :: tail) t left ∧
      SameLeft left (rest ++ d :: tail) by
    obtain ⟨left, hleft, hsame⟩ := hleft
    exact ⟨left, next_of_starts hcs' hcomma hleft, hsame⟩
  cases hstarts with
  | placeholder hmark => exact ⟨_, .placeholder hmark, rfl⟩
  | number hmark hnumber hread =>
    have hread' : Numeral.read (c :: more ++ d :: tail) = .value _ (rest ++ d :: tail) :=
      (Numeral.read_delimiter_iff hd).mpr ⟨rest, hread, rfl⟩
    exact ⟨_, .number hmark hnumber hread', rfl⟩
  | name hmark hnumber hname hread =>
    obtain ⟨left, hleft, hsame⟩ := readName_delimiter hd hread hparen
    exact ⟨left, .name hmark hnumber hname hleft, hsame⟩
  | @symbol s _ hmark hnumber hname hread =>
    have hread' : Symbol.read? (c :: (more ++ d :: tail)) = some (s, rest ++ d :: tail) := by
      rw [Symbol.read?_delimiter hd, hread]
      rfl
    exact ⟨_, .symbol hmark hnumber hname hread', rfl⟩

theorem not_starts_of_blank {c : Char} (hc : Text.isBlank c = true) {more rest : List Char}
    {t : Token} : ¬Starts c more t rest := by
  have hne : ∀ d, Text.isBlank d = false → (c == d) = false := fun d hd =>
    beq_false_of_ne (ne_of_class hc hd)
  intro h
  cases h with
  | placeholder hmark => simp [hne '#' rfl, hne '$' rfl] at hmark
  | number _ hnumber _ =>
    simp only [hne '.' rfl, Bool.or_false] at hnumber
    rw [isBlank_of_isNameChar (isNameChar_of_isDigit hnumber)] at hc
    cases hc
  | name _ _ hname _ =>
    rw [isBlank_of_isNameChar (isNameChar_of_isNameStart hname)] at hc
    cases hc
  | symbol _ _ _ hread => simp [Symbol.read?_blank hc] at hread

/-- Blanks behind a text do not make its first token. -/
theorem next_of_blanks {blanks : List Char} (hblanks : ∀ c ∈ blanks, Text.isBlank c = true)
    {cs rest : List Char} {t : Token} (h : Token.next (cs ++ blanks) = .token t rest) :
    ∃ left, Token.next cs = .token t left ∧ SameLeft rest (left ++ blanks) := by
  cases blanks with
  | nil => exact ⟨rest, by simpa using h, by simp⟩
  | cons b tail =>
    have hd := isDelimiter_of_isBlank (hblanks b (by simp))
    obtain ⟨c, more, hcs, hcomma, hstarts⟩ := starts_of_next h
    -- the text has a token of its own, or the token would have to start with a blank
    cases hgaps : cs.dropWhile Text.isGap with
    | nil =>
      rw [dropWhile_append_of_eq_nil hgaps] at hcs
      have hmem : c ∈ b :: tail := (List.dropWhile_sublist _).subset (by rw [hcs]; simp)
      exact absurd hstarts (not_starts_of_blank (hblanks c hmem))
    | cons c' more' =>
      rw [dropWhile_append_of_ne_nil (by simp [hgaps]), hgaps] at hcs
      obtain ⟨rfl, rfl⟩ : c' = c ∧ more' ++ b :: tail = more := by simpa using hcs
      suffices hleft : ∃ left, Starts c' more' t left ∧ SameLeft rest (left ++ b :: tail) by
        obtain ⟨left, hleft, hsame⟩ := hleft
        exact ⟨left, next_of_starts hgaps hcomma hleft, hsame⟩
      cases hstarts with
      | placeholder hmark => exact ⟨_, .placeholder hmark, rfl⟩
      | number hmark hnumber hread =>
        have hread' : Numeral.read (c' :: more' ++ b :: tail) = .value _ rest := hread
        obtain ⟨left, hleft, rfl⟩ := (Numeral.read_delimiter_iff hd).mp hread'
        exact ⟨_, .number hmark hnumber hleft, rfl⟩
      | name hmark hnumber hname hread =>
        have hread' : readName (c' :: more' ++ b :: tail) = .token t rest := hread
        obtain ⟨left, hleft, hsame⟩ := readName_of_blanks hblanks hread'
        exact ⟨left, .name hmark hnumber hname hleft, hsame⟩
      | symbol hmark hnumber hname hread =>
        rw [Symbol.read?_delimiter hd] at hread
        obtain ⟨⟨s, left⟩, hleft, heq⟩ := Option.map_eq_some_iff.mp hread
        cases heq
        exact ⟨_, .symbol hmark hnumber hname hleft, rfl⟩

/-! ## Whole texts -/

theorem ofText_dropGaps (cs : List Char) :
    Tokens.ofText (cs.dropWhile Text.isGap) = Tokens.ofText cs := by
  have hlength := length_dropWhile_le Text.isGap cs
  rw [Tokens.ofText, Tokens.ofText, ← scan_dropGaps (cs.length + 1) cs]
  exact scan_fuel (Nat.lt_succ_self _) (by omega)

theorem SameLeft.ofText {left rest : List Char} (h : SameLeft left rest) :
    Tokens.ofText left = Tokens.ofText rest := by
  rw [← ofText_dropGaps left, h, ofText_dropGaps]

/-- The tokens of a text, a closing parenthesis and more. -/
theorem ofText_close {cs : List Char} {ts : List Token} (h : Tokens.ofText cs = ⟨ts, .done⟩)
    (tail : List Char) :
    Tokens.ofText (cs ++ ')' :: tail) =
      (Tokens.ofText tail).behind (ts ++ [.symbol .closeParen]) := by
  refine ofText_done_rule (P := fun cs ts => Tokens.ofText (cs ++ ')' :: tail) =
      (Tokens.ofText tail).behind (ts ++ [.symbol .closeParen])) ?_ ?_ h
  · intro cs hblank
    apply ofText_token
    simp only [Token.next, dropWhile_append_of_eq_nil hblank]
    rfl
  · intro cs t rest ts hnext _ ih
    obtain ⟨left, hleft, hsame⟩ : ∃ left, Token.next (cs ++ ')' :: tail) = .token t left ∧
        SameLeft left (rest ++ ')' :: tail) := next_delimiter rfl hnext (by simp [Text.isGap])
    rw [ofText_token hleft, hsame.ofText, ih, Tokens.behind_behind]
    rfl

/-- A text that is read to its end holds gaps alone, or starts with a token. -/
theorem ofText_done_cases {cs : List Char} {ts : List Token}
    (h : Tokens.ofText cs = ⟨ts, .done⟩) :
    cs.dropWhile Text.isGap = [] ∧ ts = [] ∨
      ∃ t rest us, Token.next cs = .token t rest ∧ Tokens.ofText rest = ⟨us, .done⟩ ∧
        ts = t :: us :=
  ofText_done_rule (P := fun cs ts => cs.dropWhile Text.isGap = [] ∧ ts = [] ∨
      ∃ t rest us, Token.next cs = .token t rest ∧ Tokens.ofText rest = ⟨us, .done⟩ ∧ ts = t :: us)
    (fun _ hblank => .inl ⟨hblank, rfl⟩)
    (fun _ t rest us hnext hrest _ => .inr ⟨t, rest, us, hnext, hrest, rfl⟩) h

theorem ofText_of_blanks {blanks : List Char} (hblanks : ∀ c ∈ blanks, Text.isBlank c = true)
    {cs : List Char} {ts : List Token} (h : Tokens.ofText (cs ++ blanks) = ⟨ts, .done⟩) :
    Tokens.ofText cs = ⟨ts, .done⟩ := by
  -- by the length: what is left behind a token is the same in both texts only up to gaps
  induction hn : cs.length using Nat.strongRecOn generalizing cs ts with
  | ind n ih =>
    subst hn
    obtain ⟨hgaps, rfl⟩ | ⟨t, rest, us, hnext, hrest, rfl⟩ := ofText_done_cases h
    · rw [List.dropWhile_eq_nil_iff] at hgaps
      have hnil : cs.dropWhile Text.isGap = [] :=
        List.dropWhile_eq_nil_iff.mpr fun c hc => hgaps c (by simp [hc])
      rw [← ofText_dropGaps, hnil, ofText_nil]
    · obtain ⟨left, hleft, hsame⟩ := next_of_blanks hblanks hnext
      have hweight := next_weight hleft
      have hpos := t.weight_pos
      rw [hsame.ofText] at hrest
      rw [ofText_token hleft, ih left.length (by omega) hrest rfl]
      rfl

theorem ofText_behind_blanks {blanks : List Char} (hblanks : ∀ c ∈ blanks, Text.isBlank c = true)
    {cs : List Char} {ts : List Token} (h : Tokens.ofText (blanks ++ cs) = ⟨ts, .done⟩) :
    Tokens.ofText cs = ⟨ts, .done⟩ := by
  induction blanks with
  | nil => exact h
  | cons b blanks ih =>
    refine ih (fun c hc => hblanks c (by simp [hc])) ?_
    by_cases hgap : Text.isGap b
    · rw [← ofText_dropGaps] at h ⊢
      simpa [hgap] using h
    · -- any other blank is not read
      have hdrop : (b :: blanks ++ cs).dropWhile Text.isGap = b :: (blanks ++ cs) := by simp [hgap]
      obtain ⟨hgaps, -⟩ | ⟨t, rest, us, hnext, -, -⟩ := ofText_done_cases h
      · rw [hdrop] at hgaps
        cases hgaps
      · obtain ⟨c, more, hcs, -, hstarts⟩ := starts_of_next hnext
        rw [hdrop] at hcs
        cases hcs
        exact absurd hstarts (not_starts_of_blank (hblanks b (by simp)))

/-- A text with the blanks that trimming takes away. -/
theorem Text.exists_blanks (cs : List Char) : ∃ front back,
    (∀ c ∈ front, Text.isBlank c = true) ∧ (∀ c ∈ back, Text.isBlank c = true) ∧
      cs = front ++ (Text.trim cs ++ back) := by
  refine ⟨cs.takeWhile Text.isBlank,
    ((cs.dropWhile Text.isBlank).reverse.takeWhile Text.isBlank).reverse,
    fun c hc => List.mem_takeWhile_imp hc,
    fun c hc => List.mem_takeWhile_imp (List.mem_reverse.mp hc), ?_⟩
  rw [Text.trim, ← List.reverse_append, List.takeWhile_append_dropWhile, List.reverse_reverse,
    List.takeWhile_append_dropWhile]

/-- A text that is read to its end has the same tokens without the white space around it. -/
theorem ofText_trim {cs : List Char} {ts : List Token} (h : Tokens.ofText cs = ⟨ts, .done⟩) :
    Tokens.ofText (Text.trim cs) = ⟨ts, .done⟩ := by
  obtain ⟨front, back, hfront, hback, hcs⟩ := Text.exists_blanks cs
  rw [hcs] at h
  exact ofText_of_blanks hback (ofText_behind_blanks hfront h)

end Delimiter

end SignalCalc
