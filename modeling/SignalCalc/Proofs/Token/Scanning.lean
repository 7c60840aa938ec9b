import SignalCalc.Proofs.Token.Words

namespace SignalCalc

/-! ## Tokens take characters -/

/-- How many characters a token has at least. A call has those of its argument text and one more. -/
def Token.weight : Token → Nat
  | .call _ args => args.length + 1
  | _ => 1

theorem Token.weight_pos (t : Token) : 0 < t.weight := by
  cases t <;> simp [weight]

theorem length_dropWhile_le (p : Char → Bool) (cs : List Char) :
    (cs.dropWhile p).length ≤ cs.length := (List.dropWhile_suffix p).length_le

theorem Text.length_trim_le (cs : List Char) : (Text.trim cs).length ≤ cs.length := by
  have hback := length_dropWhile_le Text.isBlank (cs.dropWhile Text.isBlank).reverse
  have hfront := length_dropWhile_le Text.isBlank cs
  simp only [Text.trim, List.length_reverse] at hback ⊢
  omega

/-- The search for a closing parenthesis divides a text at it. -/
theorem splitClose?_eq_append {depth : Nat} {cs inner rest : List Char}
    (h : splitClose? depth cs = some (inner, rest)) : cs = inner ++ ')' :: rest := by
  induction cs generalizing depth inner with
  | nil => cases h
  | cons c cs ih =>
    have hkeep : ∀ depth', (splitClose? depth' cs).map (fun pair => (c :: pair.1, pair.2)) =
        some (inner, rest) → c :: cs = inner ++ ')' :: rest := by
      intro depth' hmap
      obtain ⟨⟨found, rest'⟩, hfound, heq⟩ := Option.map_eq_some_iff.mp hmap
      cases heq
      rw [ih hfound, List.cons_append]
    simp only [splitClose?] at h
    split at h
    · exact hkeep _ h
    · split at h
      · next hclose =>
        cases depth with
        | zero =>
          cases h
          simp [eq_of_beq hclose]
        | succ depth => exact hkeep _ h
      · exact hkeep _ h

theorem readName_weight {c : Char} (hc : isNameChar c = true) {cs rest : List Char} {t : Token}
    (h : readName (c :: cs) = .token t rest) : t.weight + rest.length ≤ (c :: cs).length := by
  have hgaps := length_dropWhile_le Text.isGap (cs.dropWhile isNameChar)
  have hname := length_dropWhile_le isNameChar cs
  simp only [readName, List.dropWhile_cons, hc, if_true] at h
  split at h
  · cases h
  · split at h
    · next inner hparen =>
      rw [hparen] at hgaps
      split at h
      · next args rest' hclose =>
        cases h
        have hsplit := congrArg List.length (splitClose?_eq_append hclose)
        have htrim := Text.length_trim_le args
        simp only [Token.weight, List.length_append, List.length_cons] at hsplit hgaps ⊢
        omega
      · cases h
    · cases h
      simp only [Token.weight, List.length_cons]
      omega

theorem Numeral.integer_length_pos {c : Char} (hc : c.isDigit = true) (cs : List Char) :
    0 < (integer (c :: cs)).2 := by
  by_cases hzero : c = '0'
  · subst hzero
    have hbase : 0 < (base ('0' :: cs)).2 := by
      unfold base
      split
      · split <;> simp
      · simp
      · next hne => exact absurd rfl (hne cs)
    simp only [integer]
    omega
  · simp [integer, integerDigits, base_of_ne_zero hzero, isDigit_of_isDigit hc]

namespace Numeral

def marksDouble : List Char → Bool
  | c :: _ => c == '.' || c == 'e' || c == 'E'
  | [] => false

/-- An integer with the suffix behind it, if there is one, and the text behind both. -/
def suffixed (n : Nat) (rest : List Char) : Value × List Char :=
  match suffix? rest with
  | some s =>
    (⟨if s.signed then .signed (UInt64.ofNat n).toInt64 else .unsigned (UInt64.ofNat n), s.width⟩,
      rest.drop s.length)
  | none => (plainValue n, rest)

theorem length_suffixed_le (n : Nat) (rest : List Char) :
    (suffixed n rest).2.length ≤ rest.length := by
  unfold suffixed
  split <;> simp

/-- A number is a double with its mark, or an integer with its suffix. -/
theorem read_value_iff {cs rest : List Char} {v : Value} :
    read cs = .value v rest ↔
      (marksDouble (cs.drop (integer cs).2) = true ∧ (integer cs).2 ≤ doubleLength cs ∧
        (double? (cs.take (doubleLength cs))).map Value.ofFloat = some v ∧
        cs.drop (doubleLength cs) = rest) ∨
      marksDouble (cs.drop (integer cs).2) = false ∧
        suffixed (integer cs).1 (cs.drop (integer cs).2) = (v, rest) := by
  have hread : read cs =
      if marksDouble (cs.drop (integer cs).2) then
        (double? (cs.take (doubleLength cs))).elim
          (.malformed (cs.take (max (max (integer cs).2 (doubleLength cs)) 1))) fun d =>
          if (integer cs).2 ≤ doubleLength cs then .value (.ofFloat d) (cs.drop (doubleLength cs))
          else .malformed (cs.take (max (max (integer cs).2 (doubleLength cs)) 1))
      else
        .value (suffixed (integer cs).1 (cs.drop (integer cs).2)).1
          (suffixed (integer cs).1 (cs.drop (integer cs).2)).2 := by
    unfold read suffixed
    dsimp only
    cases suffix? (cs.drop (integer cs).2) <;> cases double? (cs.take (doubleLength cs)) <;> rfl
  rw [hread]
  cases marksDouble (cs.drop (integer cs).2) with
  | false => simp [Prod.ext_iff]
  | true =>
    cases double? (cs.take (doubleLength cs)) with
    | none => simp
    | some d => by_cases hlength : (integer cs).2 ≤ doubleLength cs <;> simp [hlength]

theorem read_shorter {c : Char} (hc : c.isDigit = true ∨ c = '.') {cs rest : List Char}
    {v : Value} (h : read (c :: cs) = .value v rest) : rest.length < (c :: cs).length := by
  have hdrop : ∀ n, 0 < n → ((c :: cs).drop n).length < (c :: cs).length := by
    intro n hn
    simp only [List.length_drop, List.length_cons]
    omega
  obtain ⟨-, -, hdouble, rfl⟩ | ⟨hmark, hsuffixed⟩ := read_value_iff.mp h
  · apply hdrop
    -- there is no double without a digit
    apply Nat.pos_of_ne_zero
    intro hzero
    rw [hzero] at hdouble
    cases hdouble
  · have hpos : 0 < (integer (c :: cs)).2 := by
      rcases hc with hdigit | rfl
      · exact integer_length_pos hdigit cs
      · -- a point in front would make a double of the text
        cases hmark
    have hrest := hdrop _ hpos
    have hsuffix := length_suffixed_le (integer (c :: cs)).1 ((c :: cs).drop (integer (c :: cs)).2)
    rw [hsuffixed] at hsuffix
    exact Nat.lt_of_le_of_lt hsuffix hrest

end Numeral

theorem Symbol.read?_shorter {c : Char} {cs rest : List Char} {s : Symbol}
    (h : read? (c :: cs) = some (s, rest)) : rest.length < (c :: cs).length := by
  unfold read? at h
  split at h
  · cases h
    simp only [List.drop_succ_cons, List.length_drop, List.length_cons]
    omega
  · obtain ⟨s', -, heq⟩ := Option.map_eq_some_iff.mp h
    cases heq
    simp

inductive Starts (c : Char) (more : List Char) : Token → List Char → Prop where
  | placeholder (hmark : (c == '#' || c == '$') = true) : Starts c more .placeholder more
  | number {v : Value} {rest : List Char} (hmark : (c == '#' || c == '$') = false)
      (hnumber : (c.isDigit || c == '.') = true) (h : Numeral.read (c :: more) = .value v rest) :
      Starts c more (.number v) rest
  | name {t : Token} {rest : List Char} (hmark : (c == '#' || c == '$') = false)
      (hnumber : (c.isDigit || c == '.') = false) (hname : isNameStart c = true)
      (h : readName (c :: more) = .token t rest) : Starts c more t rest
  | symbol {s : Symbol} {rest : List Char} (hmark : (c == '#' || c == '$') = false)
      (hnumber : (c.isDigit || c == '.') = false) (hname : isNameStart c = false)
      (h : Symbol.read? (c :: more) = some (s, rest)) : Starts c more (.symbol s) rest

theorem next_of_starts {cs more rest : List Char} {c : Char} {t : Token}
    (hcs : cs.dropWhile Text.isGap = c :: more) (hcomma : (c == ',') = false)
    (h : Starts c more t rest) : Token.next cs = .token t rest := by
  cases h with
  | placeholder hmark => simp [Token.next, hcs, hcomma, hmark]
  | number hmark hnumber h => simp [Token.next, hcs, hcomma, hmark, hnumber, h]
  | name hmark hnumber hname h => simp [Token.next, hcs, hcomma, hmark, hnumber, hname, h]
  | symbol hmark hnumber hname h => simp [Token.next, hcs, hcomma, hmark, hnumber, hname, h]

theorem starts_of_next {cs rest : List Char} {t : Token} (h : Token.next cs = .token t rest) :
    ∃ c more, cs.dropWhile Text.isGap = c :: more ∧ (c == ',') = false ∧ Starts c more t rest := by
  unfold Token.next at h
  cases hcs : cs.dropWhile Text.isGap with
  | nil =>
    rw [hcs] at h
    cases h
  | cons c more =>
    rw [hcs] at h
    refine ⟨c, more, rfl, ?_⟩
    cases hcomma : c == ',' with
    | true => simp [hcomma] at h
    | false =>
      refine ⟨rfl, ?_⟩
      -- the kinds of tokens are tried in the order in which the lexer tries them
      cases hmark : c == '#' || c == '$' with
      | true =>
        simp only [hcomma, hmark, if_true, Bool.false_eq_true, if_false] at h
        cases h
        exact .placeholder hmark
      | false =>
        cases hnumber : c.isDigit || c == '.' with
        | true =>
          simp only [hcomma, hmark, hnumber, if_true, Bool.false_eq_true, if_false] at h
          cases hread : Numeral.read (c :: more) with
          | malformed text => simp [hread] at h
          | value v rest' =>
            rw [hread] at h
            cases h
            exact .number hmark hnumber hread
        | false =>
          cases hname : isNameStart c with
          | true =>
            simp only [hcomma, hmark, hnumber, hname, if_true, Bool.false_eq_true, if_false] at h
            exact .name hmark hnumber hname h
          | false =>
            simp only [hcomma, hmark, hnumber, hname, Bool.false_eq_true, if_false] at h
            cases hread : Symbol.read? (c :: more) with
            | none => simp [hread] at h
            | some pair =>
              rw [hread] at h
              cases h
              exact .symbol hmark hnumber hname hread

/-- A token takes its weight of the text. -/
theorem next_weight {cs rest : List Char} {t : Token} (h : Token.next cs = .token t rest) :
    t.weight + rest.length ≤ cs.length := by
  obtain ⟨c, more, hcs, -, hstarts⟩ := starts_of_next h
  have hgaps := length_dropWhile_le Text.isGap cs
  rw [hcs] at hgaps
  apply Nat.le_trans _ hgaps
  cases hstarts with
  | placeholder => exact Nat.le_of_eq (Nat.add_comm _ _)
  | number _ hnumber hread =>
    have hshorter := Numeral.read_shorter (by simpa using hnumber) hread
    simp only [Token.weight]
    omega
  | name _ _ hname hread => exact readName_weight (isNameChar_of_isNameStart hname) hread
  | symbol _ _ _ hread =>
    have hshorter := Symbol.read?_shorter hread
    simp only [Token.weight]
    omega

theorem readName_ne_stop (cs rest : List Char) : readName cs ≠ .stop rest := by
  unfold readName
  dsimp only
  split
  · simp
  · split
    · split <;> simp
    · simp

/-- Where there is no token and no fault, all that is left are blanks, or a comma comes next. -/
theorem next_stop {cs rest : List Char} (h : Token.next cs = .stop rest) :
    cs.dropWhile Text.isGap = rest := by
  unfold Token.next at h
  cases hcs : cs.dropWhile Text.isGap with
  | nil =>
    rw [hcs] at h
    cases h
    rfl
  | cons c more =>
    rw [hcs] at h
    dsimp only at h
    split at h
    · cases h
      rfl
    · split at h
      · cases h
      · split at h
        · split at h <;> cases h
        · split at h
          · exact absurd h (readName_ne_stop _ _)
          · split at h <;> cases h

theorem stop_cases {cs rest : List Char} (h : Token.next cs = .stop rest) :
    rest = [] ∨ ∃ more, rest = ',' :: more := by
  unfold Token.next at h
  split at h
  · cases h
    exact .inl rfl
  · split at h
    · next hcomma =>
      cases h
      exact .inr ⟨_, by rw [beq_iff_eq.mp hcomma]⟩
    · repeat' split at h
      all_goals first | cases h | exact absurd h (readName_ne_stop _ _)

/-! ## Fuel -/

/-- The scan has the same result with all fuel that is enough for the text. -/
theorem scan_fuel {cs : List Char} {fuel fuel' : Nat} (h : cs.length < fuel)
    (h' : cs.length < fuel') : Tokens.scan fuel cs = Tokens.scan fuel' cs := by
  induction fuel generalizing cs fuel' with
  | zero => omega
  | succ fuel ih =>
    cases fuel' with
    | zero => omega
    | succ fuel' =>
      unfold Tokens.scan
      cases hnext : Token.next cs with
      | stop rest => rfl
      | fault f => rfl
      | token t rest =>
        have hweight := next_weight hnext
        have hpos := t.weight_pos
        dsimp only
        have hrest : Tokens.scan fuel rest = Tokens.scan fuel' rest := ih (by omega) (by omega)
        rw [hrest]

theorem ofText_token {cs rest : List Char} {t : Token} (h : Token.next cs = .token t rest) :
    Tokens.ofText cs = (Tokens.ofText rest).behind [t] := by
  have hweight := next_weight h
  have hpos := t.weight_pos
  have hrest : Tokens.scan cs.length rest = Tokens.scan (rest.length + 1) rest :=
    scan_fuel (by omega) (Nat.lt_succ_self _)
  rw [Tokens.ofText, scan_token h, Tokens.ofText, hrest]

theorem ofText_stop {cs rest : List Char} (h : Token.next cs = .stop rest) :
    Tokens.ofText cs = Tokens.ofText rest := by
  have hlength := length_dropWhile_le Text.isGap cs
  calc Tokens.ofText cs
      = Tokens.scan (cs.length + 1) (cs.dropWhile Text.isGap) := (scan_dropGaps _ cs).symm
    _ = Tokens.ofText (cs.dropWhile Text.isGap) :=
        scan_fuel (Nat.lt_succ_of_le hlength) (Nat.lt_succ_self _)
    _ = Tokens.ofText rest := by rw [next_stop h]

theorem ofText_fault {cs : List Char} {f : TextFault} (h : Token.next cs = .fault f) :
    Tokens.ofText cs = ⟨[], .fault f⟩ := by
  simp [Tokens.ofText, Tokens.scan, h]

namespace Tokens

/-- How many characters the tokens have at least. -/
def weight (ts : Tokens) : Nat := ts.tokens.foldr (fun t n => t.weight + n) 0

theorem weight_ofText (cs : List Char) : (ofText cs).weight ≤ cs.length := by
  induction hn : cs.length using Nat.strongRecOn generalizing cs with
  | ind n ih =>
    subst hn
    cases hnext : Token.next cs with
    | token t rest =>
      have hweight := next_weight hnext
      have hpos := t.weight_pos
      have hrest := ih rest.length (by omega) rest rfl
      rw [ofText_token hnext]
      simp only [weight, behind, List.singleton_append, List.foldr_cons] at hrest ⊢
      omega
    | stop rest => simp [ofText, scan, hnext, weight]
    | fault f => simp [ofText, scan, hnext, weight]

theorem weight_append (us vs : List Token) (e : Ending) :
    weight ⟨us ++ vs, e⟩ = weight ⟨us, e⟩ + weight ⟨vs, e⟩ := by
  induction us with
  | nil => simp [weight]
  | cons t us ih =>
    simp only [weight, List.cons_append, List.foldr_cons] at ih ⊢
    omega

theorem weight_le_of_mem {t : Token} {ts : Tokens} (h : t ∈ ts.tokens) : t.weight ≤ ts.weight := by
  obtain ⟨tokens, ending⟩ := ts
  obtain ⟨before, after, rfl : tokens = before ++ t :: after⟩ := List.append_of_mem h
  have happend := weight_append before (t :: after) ending
  simp only [weight, List.foldr_cons] at happend ⊢
  omega

theorem length_le_weight (ts : Tokens) : ts.tokens.length ≤ ts.weight := by
  unfold weight
  induction ts.tokens with
  | nil => simp
  | cons t us ih =>
    have hpos := t.weight_pos
    simp only [List.length_cons, List.foldr_cons]
    omega

theorem length_ofText_le (cs : List Char) : (ofText cs).tokens.length ≤ cs.length :=
  Nat.le_trans (length_le_weight _) (weight_ofText cs)

end Tokens

theorem ofText_nil : Tokens.ofText [] = ⟨[], .done⟩ := rfl

theorem ofText_space (cs : List Char) : Tokens.ofText (' ' :: cs) = Tokens.ofText cs := by
  rw [Tokens.ofText, scan_space, Tokens.ofText]
  exact scan_fuel (by simp only [List.length_cons]; omega) (Nat.lt_succ_self _)

theorem Lexes.ofText_append {cs rest : List Char} {ts : List Token} (h : Lexes cs ts)
    (hrest : Apart rest) : Tokens.ofText (cs ++ rest) = (Tokens.ofText rest).behind ts := by
  -- the text has a character for each of its tokens, so that fuel is left for the rest
  obtain ⟨fuel, hfuel⟩ : ∃ fuel, (cs ++ rest).length + 1 = ts.length + fuel ∧ rest.length < fuel :=
    ⟨(cs ++ rest).length + 1 - ts.length, by
      have hlength := h.length_le
      simp only [List.length_append]
      omega⟩
  rw [Tokens.ofText, hfuel.1, h.scan fuel rest hrest, Tokens.ofText,
    scan_fuel hfuel.2 (Nat.lt_succ_self _)]

/-- Tokens that go to the end of a text, one by one. -/
theorem ofText_done_rule {P : List Char → List Token → Prop}
    (hblank : ∀ cs, cs.dropWhile Text.isGap = [] → P cs [])
    (htoken : ∀ cs t rest ts, Token.next cs = .token t rest → Tokens.ofText rest = ⟨ts, .done⟩ →
      P rest ts → P cs (t :: ts))
    {cs : List Char} {ts : List Token} (h : Tokens.ofText cs = ⟨ts, .done⟩) : P cs ts := by
  induction hn : cs.length using Nat.strongRecOn generalizing cs ts with
  | ind n ih =>
    subst hn
    cases hnext : Token.next cs with
    | token t rest =>
      have hweight := next_weight hnext
      have hpos := t.weight_pos
      rw [ofText_token hnext] at h
      cases hrest : Tokens.ofText rest with
      | mk us ending =>
        rw [hrest] at h
        cases h
        exact htoken cs t rest us hnext hrest (ih rest.length (by omega) hrest rfl)
    | stop rest =>
      have hrest := next_stop hnext
      simp only [Tokens.ofText, Tokens.scan, hnext, Tokens.mk.injEq] at h
      obtain ⟨rfl, hend⟩ := h
      split at hend
      · next hempty => exact hblank cs (by rw [hrest, List.isEmpty_iff.mp hempty])
      · cases hend
    | fault f => simp [Tokens.ofText, Tokens.scan, hnext] at h

end SignalCalc
