import SignalCalc.Proofs.Token.Delimiters

/-! # Nesting of parentheses

The nesting of a text is how many parentheses it leaves open. A text that closes no more than it
opens, and has its commas inside of parentheses, can be an argument: the searches for the closing
parenthesis of a call and for the commas between its arguments pass over it. Tokens have a nesting of
their own, in which a call counts nothing, and a text that is read to its end has the nesting of its
tokens.
-/

namespace SignalCalc

/-! ## Texts -/

/-- How many parentheses are open behind a text, so many being open in front of it. There is no
answer if it closes more, or has a comma where none is open. -/
def nesting? : Nat → List Char → Option Nat
  | depth, [] => some depth
  | depth, c :: cs =>
    if c == '(' then nesting? (depth + 1) cs
    else if c == ')' then
      match depth with
      | 0 => none
      | depth + 1 => nesting? depth cs
    else if c == ',' && depth == 0 then none
    else nesting? depth cs

/-- As many parentheses are closed as are opened, and no comma stands outside of them. -/
def Balanced (cs : List Char) : Prop := nesting? 0 cs = some 0

theorem nesting?_cons_of_plain {c : Char} (hc : isPlain c = true) (depth : Nat) (cs : List Char) :
    nesting? depth (c :: cs) = nesting? depth cs := by
  simp only [isPlain, Bool.and_eq_true, bne_iff_ne] at hc
  simp [nesting?, hc]

theorem nesting?_append_of_plain {word : List Char} (hword : ∀ c ∈ word, isPlain c = true)
    (depth : Nat) (cs : List Char) : nesting? depth (word ++ cs) = nesting? depth cs := by
  induction word with
  | nil => rfl
  | cons c word ih =>
    rw [List.forall_mem_cons] at hword
    rw [List.cons_append, nesting?_cons_of_plain hword.1, ih hword.2]

theorem char_cases (c : Char) : c = '(' ∨ c = ')' ∨ c = ',' ∨ isPlain c = true := by
  by_cases hopen : c = '('
  · exact .inl hopen
  · by_cases hclose : c = ')'
    · exact .inr (.inl hclose)
    · by_cases hcomma : c = ','
      · exact .inr (.inr (.inl hcomma))
      · exact .inr (.inr (.inr (by simp [isPlain, hopen, hclose, hcomma])))

theorem nesting?_comma (depth : Nat) (cs : List Char) :
    nesting? depth (',' :: cs) = if depth = 0 then none else nesting? depth cs := by
  cases depth <;> rfl

/-! ## The two searches -/

def before (cs : List Char) (found : Option (List Char × List Char)) :
    Option (List Char × List Char) :=
  found.map fun pair => (cs ++ pair.1, pair.2)

theorem before_cons (c : Char) (cs : List Char) (found : Option (List Char × List Char)) :
    before [c] (before cs found) = before (c :: cs) found := by
  cases found <;> rfl

theorem splitClose?_open (depth : Nat) (cs : List Char) :
    splitClose? depth ('(' :: cs) = before ['('] (splitClose? (depth + 1) cs) := rfl

theorem splitClose?_close (depth : Nat) (cs : List Char) :
    splitClose? (depth + 1) (')' :: cs) = before [')'] (splitClose? depth cs) := rfl

theorem splitClose?_other {c : Char} (hopen : c ≠ '(') (hclose : c ≠ ')') (depth : Nat)
    (cs : List Char) : splitClose? depth (c :: cs) = before [c] (splitClose? depth cs) := by
  simp [splitClose?, hopen, hclose, before]

theorem ne_of_isPlain {c : Char} (h : isPlain c = true) : c ≠ '(' ∧ c ≠ ')' ∧ c ≠ ',' := by
  simp only [isPlain, Bool.and_eq_true, bne_iff_ne] at h
  exact ⟨h.1.1, h.1.2, h.2⟩

/-- The search for a closing parenthesis passes over a text, so many parentheses being open around
it. -/
theorem splitClose?_of_nesting {cs : List Char} {depth after : Nat}
    (h : nesting? depth cs = some after) (outer : Nat) (rest : List Char) :
    splitClose? (outer + depth) (cs ++ rest) = before cs (splitClose? (outer + after) rest) := by
  induction cs generalizing depth with
  | nil =>
    cases h
    simp [before]
  | cons c cs ih =>
    rw [List.cons_append, ← before_cons]
    rcases char_cases c with rfl | rfl | rfl | hplain
    · rw [splitClose?_open, Nat.add_assoc, ih h]
    · cases depth with
      | zero => cases h
      | succ depth => rw [← Nat.add_assoc, splitClose?_close, ih h]
    · rw [nesting?_comma] at h
      split at h
      · cases h
      · rw [splitClose?_other (by decide) (by decide), ih h]
    · obtain ⟨hopen, hclose, -⟩ := ne_of_isPlain hplain
      rw [nesting?_cons_of_plain hplain] at h
      rw [splitClose?_other hopen hclose, ih h]

theorem Balanced.closed {cs : List Char} (h : Balanced cs) : Closed cs := fun depth rest =>
  splitClose?_of_nesting h depth rest

theorem splitCommas_plain {c : Char} (hc : isPlain c = true) (depth : Int) (piece cs : List Char) :
    splitCommas depth piece (c :: cs) = splitCommas depth (c :: piece) cs := by
  obtain ⟨hopen, hclose, hcomma⟩ := ne_of_isPlain hc
  simp [splitCommas, openAfter, hopen, hclose, hcomma]

theorem splitCommas_open (depth : Int) (piece cs : List Char) :
    splitCommas depth piece ('(' :: cs) = splitCommas (depth + 1) ('(' :: piece) cs := rfl

theorem splitCommas_close (depth : Int) (piece cs : List Char) :
    splitCommas depth piece (')' :: cs) = splitCommas (depth - 1) (')' :: piece) cs := rfl

theorem splitCommas_inner_comma {depth : Int} (hdepth : depth ≠ 0) (piece cs : List Char) :
    splitCommas depth piece (',' :: cs) = splitCommas depth (',' :: piece) cs := by
  simp [splitCommas, openAfter, hdepth]

theorem splitCommas_comma (piece cs : List Char) :
    splitCommas 0 piece (',' :: cs) = Text.trim piece.reverse :: splitCommas 0 [] cs := rfl

theorem splitCommas_of_nesting {cs : List Char} {depth after : Nat}
    (h : nesting? depth cs = some after) (piece rest : List Char) :
    splitCommas depth piece (cs ++ rest) = splitCommas after (cs.reverse ++ piece) rest := by
  induction cs generalizing depth piece with
  | nil =>
    cases h
    rfl
  | cons c cs ih =>
    rw [List.reverse_cons, List.append_assoc, List.singleton_append, List.cons_append]
    rcases char_cases c with rfl | rfl | rfl | hplain
    · rw [splitCommas_open]
      exact ih h _
    · cases depth with
      | zero => cases h
      | succ depth =>
        have hdepth : ((depth + 1 : Nat) : Int) - 1 = depth := by omega
        rw [splitCommas_close, hdepth]
        exact ih h _
    · rw [nesting?_comma] at h
      split at h
      · cases h
      · next hdepth =>
        rw [splitCommas_inner_comma (by omega)]
        exact ih h _
    · rw [nesting?_cons_of_plain hplain] at h
      rw [splitCommas_plain hplain]
      exact ih h _

theorem natAbs_depth_le (depth : Int) (cs : List Char) :
    (cs.foldl openAfter depth).natAbs ≤ depth.natAbs + cs.length := by
  induction cs generalizing depth with
  | nil => exact Nat.le_refl _
  | cons c cs ih =>
    have hstep : (openAfter depth c).natAbs ≤ depth.natAbs + 1 := by
      unfold openAfter
      split
      · omega
      · split
        · omega
        · omega
    have hrest := ih (openAfter depth c)
    rw [List.foldl_cons, List.length_cons]
    omega

/-- Wherever the search for commas stands in a text, its counter is at most the number of characters
that it has passed. -/
theorem splitCommas_depth (cs rest : List Char) :
    (cs.foldl openAfter 0).natAbs ≤ cs.length ∧
      ∃ pieces piece, splitCommas 0 [] (cs ++ rest) =
        pieces ++ splitCommas (cs.foldl openAfter 0) piece rest := by
  have hpassed : ∀ (depth : Int) (piece : List Char), ∃ pieces piece',
      splitCommas depth piece (cs ++ rest) =
        pieces ++ splitCommas (cs.foldl openAfter depth) piece' rest := by
    induction cs with
    | nil => exact fun _ piece => ⟨[], piece, rfl⟩
    | cons c cs ih =>
      intro depth piece
      rw [List.cons_append, List.foldl_cons]
      rw [splitCommas]
      split
      · next hcomma =>
        have hsame : openAfter depth c = depth := by
          simp only [Bool.and_eq_true, beq_iff_eq] at hcomma
          simp [openAfter, hcomma.1]
        obtain ⟨pieces, piece', h⟩ := ih depth []
        rw [h, hsame]
        exact ⟨_ :: pieces, piece', rfl⟩
      · exact ih _ _
  refine ⟨?_, hpassed 0 []⟩
  simpa using natAbs_depth_le 0 cs

/-! ## Arguments -/

def joinCommas (texts : List (List Char)) : List Char := [','].intercalate texts

@[simp] theorem joinCommas_singleton (text : List Char) : joinCommas [text] = text := by
  simp [joinCommas, List.intercalate]

@[simp] theorem joinCommas_cons_cons (text next : List Char) (more : List (List Char)) :
    joinCommas (text :: next :: more) = text ++ ',' :: joinCommas (next :: more) := by
  simp [joinCommas, List.intercalate]

/-- The search for a closing parenthesis passes over the arguments of a call. -/
theorem closed_joinCommas {texts : List (List Char)} (h : ∀ text ∈ texts, Balanced text) :
    Closed (joinCommas texts) := by
  induction texts with
  | nil => exact closed_plain (by simp [joinCommas, List.intercalate])
  | cons text more ih =>
    rw [List.forall_mem_cons] at h
    cases more with
    | nil => simpa using h.1.closed
    | cons next more =>
      -- the commas are nothing to the search for a parenthesis
      have hcomma : Closed [','] := fun depth rest =>
        splitClose?_other (by decide) (by decide) depth rest
      rw [joinCommas_cons_cons, ← List.singleton_append]
      exact h.1.closed.append (hcomma.append (ih h.2))

/-- Balanced texts with commas between them are found again, without the blanks around them. -/
theorem splitCommas_joinCommas {texts : List (List Char)} (h : ∀ text ∈ texts, Balanced text)
    (hne : texts ≠ []) : splitCommas 0 [] (joinCommas texts) = texts.map Text.trim := by
  induction texts with
  | nil => exact absurd rfl hne
  | cons text more ih =>
    rw [List.forall_mem_cons] at h
    have hpass := splitCommas_of_nesting h.1 []
    simp only [Int.ofNat_zero, List.append_nil] at hpass
    cases more with
    | nil =>
      have hlast := hpass []
      rw [List.append_nil] at hlast
      rw [joinCommas_singleton, hlast]
      simp [splitCommas]
    | cons next more =>
      rw [joinCommas_cons_cons, hpass, splitCommas_comma, ih h.2 (by simp), List.reverse_reverse]
      rfl

section Trim

variable {blanks : List Char} (hblanks : ∀ c ∈ blanks, Text.isBlank c = true)

include hblanks

theorem Text.trim_behind_blanks (cs : List Char) :
    Text.trim (blanks ++ cs) = Text.trim cs := by
  rw [Text.trim, List.dropWhile_append_of_pos hblanks, Text.trim]

theorem Text.trim_before_blanks (cs : List Char) : Text.trim (cs ++ blanks) = Text.trim cs := by
  have hreverse : ∀ c ∈ blanks.reverse, Text.isBlank c = true := by simpa using hblanks
  by_cases hcs : cs.dropWhile Text.isBlank = []
  · have hnil : blanks.dropWhile Text.isBlank = [] := List.dropWhile_eq_nil_iff.mpr hblanks
    rw [Text.trim, dropWhile_append_of_eq_nil hcs, hnil, Text.trim, hcs]
  · rw [Text.trim, dropWhile_append_of_ne_nil hcs, List.reverse_append,
      List.dropWhile_append_of_pos hreverse, Text.trim]

/-- Blanks in front of the first piece are trimmed from it. -/
theorem splitCommas_behind_blanks (depth : Int) (piece cs : List Char) :
    splitCommas depth (piece ++ blanks) cs = splitCommas depth piece cs := by
  have hreverse : ∀ c ∈ blanks.reverse, Text.isBlank c = true := by simpa using hblanks
  induction cs generalizing depth piece with
  | nil => simp only [splitCommas, List.reverse_append, Text.trim_behind_blanks hreverse]
  | cons c cs ih =>
    unfold splitCommas
    rw [List.reverse_append, Text.trim_behind_blanks hreverse, ← List.cons_append, ih]

theorem splitCommas_before_blanks (depth : Int) (piece cs : List Char) :
    splitCommas depth piece (cs ++ blanks) = splitCommas depth piece cs := by
  induction cs generalizing depth piece with
  | nil =>
    have hplain := splitCommas_append_of_plain (fun c hc => isPlain_of_isBlank (hblanks c hc)) depth
      piece []
    rw [List.append_nil] at hplain
    rw [List.nil_append, hplain]
    simp only [splitCommas, List.reverse_append, List.reverse_reverse,
      Text.trim_before_blanks hblanks]
  | cons c cs ih =>
    rw [List.cons_append]
    unfold splitCommas
    rw [ih, ih]

end Trim

theorem Text.trim_trim (cs : List Char) : Text.trim (Text.trim cs) = Text.trim cs := by
  obtain ⟨front, back, hfront, hback, hcs⟩ := Text.exists_blanks cs
  have htrim := congrArg Text.trim hcs
  rw [Text.trim_behind_blanks hfront, Text.trim_before_blanks hback] at htrim
  exact htrim.symm

/-- Blanks around the arguments of a call do not count. -/
theorem splitArguments_trim (cs : List Char) :
    splitArguments (Text.trim cs) = splitArguments cs := by
  obtain ⟨front, back, hfront, hback, hcs⟩ := Text.exists_blanks cs
  have hreverse : ∀ c ∈ front.reverse, Text.isBlank c = true := by simpa using hfront
  have hsplit : splitCommas 0 [] cs = splitCommas 0 [] (Text.trim cs) := by
    calc splitCommas 0 [] cs
        = splitCommas 0 [] (front ++ (Text.trim cs ++ back)) := by rw [← hcs]
      _ = splitCommas 0 ([] ++ front.reverse) (Text.trim cs ++ back) := by
          rw [splitCommas_append_of_plain fun c hc => isPlain_of_isBlank (hfront c hc)]
          simp
      _ = splitCommas 0 [] (Text.trim cs) := by
          rw [splitCommas_behind_blanks hreverse, splitCommas_before_blanks hback]
  rw [splitArguments, Text.trim_trim, splitArguments, hsplit]

/-- Balanced texts with commas between them are the arguments of a call, if they are not blank. -/
theorem splitArguments_joinCommas {texts : List (List Char)} (h : ∀ text ∈ texts, Balanced text)
    (hblank : ∀ text ∈ texts, Text.trim text ≠ []) :
    splitArguments (joinCommas texts) = texts.map Text.trim := by
  cases texts with
  | nil => rfl
  | cons text more =>
    have hsplit := splitCommas_joinCommas h (by simp)
    rw [splitArguments, if_neg, hsplit]
    -- a blank text would be its own and only piece
    intro hempty
    obtain ⟨front, back, hfront, hback, hcs⟩ := Text.exists_blanks (joinCommas (text :: more))
    rw [List.isEmpty_iff.mp hempty, List.nil_append] at hcs
    have hplain : ∀ c ∈ front ++ back, isPlain c = true := fun c hc =>
      isPlain_of_isBlank ((List.mem_append.mp hc).elim (hfront c) (hback c))
    have honly := splitCommas_append_of_plain hplain 0 [] []
    rw [List.append_nil, List.append_nil, ← hcs, hsplit, splitCommas, List.reverse_reverse,
      List.isEmpty_iff.mp hempty, List.map_cons] at honly
    exact hblank text (by simp) (List.cons.inj honly).1

/-! ## Tokens -/

def Token.nesting? (depth : Nat) : Token → Option Nat
  | .symbol .openParen => some (depth + 1)
  | .symbol .closeParen => if depth = 0 then none else some (depth - 1)
  | _ => some depth

def Tokens.nesting? : Nat → List Token → Option Nat
  | depth, [] => some depth
  | depth, t :: ts => (t.nesting? depth).bind fun after => nesting? after ts

theorem plain_cases (cs : List Char) :
    (∀ c ∈ cs, isPlain c = true) ∨
      ∃ word d tail, cs = word ++ d :: tail ∧ (∀ c ∈ word, isPlain c = true) ∧
        isPlain d = false := by
  induction cs with
  | nil => exact .inl (by simp)
  | cons c cs ih =>
    cases hc : isPlain c with
    | false => exact .inr ⟨[], c, cs, rfl, by simp, hc⟩
    | true =>
      refine ih.imp (fun hall => List.forall_mem_cons.mpr ⟨hc, hall⟩) ?_
      rintro ⟨word, d, tail, rfl, hword, hd⟩
      exact ⟨c :: word, d, tail, rfl, List.forall_mem_cons.mpr ⟨hc, hword⟩, hd⟩

theorem Numeral.read_suffix {cs rest : List Char} {v : Value} (h : read cs = .value v rest) :
    rest <:+ cs := by
  obtain ⟨-, -, -, rfl⟩ | ⟨-, hsuffixed⟩ := read_value_iff.mp h
  · exact List.drop_suffix _ _
  · have hrest : (suffixed (integer cs).1 (cs.drop (integer cs).2)).2 <:+
        cs.drop (integer cs).2 := by
      unfold suffixed
      split
      · exact List.drop_suffix _ _
      · exact List.suffix_rfl
    rw [hsuffixed] at hrest
    exact hrest.trans (List.drop_suffix _ _)

/-- A number has no parentheses and no commas in it. -/
theorem nesting?_read {cs rest : List Char} {v : Value} (h : Numeral.read cs = .value v rest)
    (depth : Nat) : nesting? depth cs = nesting? depth rest := by
  have hskip : ∀ word : List Char, (∀ c ∈ word, isPlain c = true) → ∀ tail,
      nesting? depth (word ++ tail) = nesting? depth tail := fun word hword =>
    nesting?_append_of_plain hword depth
  obtain hall | ⟨word, d, tail, rfl, hword, hd⟩ := plain_cases cs
  · have hrest : ∀ c ∈ rest, isPlain c = true := fun c hc =>
      hall c ((Numeral.read_suffix h).subset hc)
    have hcs := hskip cs hall []
    have hleft := hskip rest hrest []
    rw [List.append_nil] at hcs hleft
    rw [hcs, hleft]
  · -- the number ends in front of the first of them
    have hdelimiter : isDelimiter d = true := by simp [isDelimiter, hd]
    obtain ⟨left, hleft, rfl⟩ := (Numeral.read_delimiter_iff hdelimiter).mp h
    rw [hskip word hword, hskip left fun c hc => hword c ((Numeral.read_suffix hleft).subset hc)]

/-- The text behind the parenthesis that closes a call. -/
theorem nesting?_splitClose? {inner args rest : List Char} {opened : Nat}
    (h : splitClose? opened inner = some (args, rest)) (depth : Nat) :
    nesting? (depth + opened + 1) inner = nesting? depth rest := by
  induction inner generalizing opened args with
  | nil => cases h
  | cons c cs ih =>
    -- a character that the search passes over, with the parentheses open behind it
    have hstep : ∀ {opened' : Nat}, before [c] (splitClose? opened' cs) = some (args, rest) →
        nesting? (depth + opened' + 1) cs = nesting? depth rest := by
      intro opened' hbefore
      obtain ⟨⟨found, rest'⟩, hfound, heq⟩ := Option.map_eq_some_iff.mp hbefore
      cases heq
      exact ih hfound
    rcases char_cases c with rfl | rfl | rfl | hplain
    · rw [splitClose?_open] at h
      exact hstep h
    · cases opened with
      | zero =>
        cases h
        rfl
      | succ opened =>
        rw [splitClose?_close] at h
        exact hstep h
    · rw [splitClose?_other (by decide) (by decide)] at h
      rw [nesting?_comma, if_neg (Nat.succ_ne_zero _)]
      exact hstep h
    · obtain ⟨hopen, hclose, -⟩ := ne_of_isPlain hplain
      rw [splitClose?_other hopen hclose] at h
      rw [nesting?_cons_of_plain hplain]
      exact hstep h

/-- A call closes what it opens, and a name opens nothing. -/
theorem nesting?_readName {cs rest : List Char} {t : Token} (h : readName cs = .token t rest)
    (depth : Nat) :
    t.nesting? depth = some depth ∧ nesting? depth cs = nesting? depth rest := by
  have hgap : ∀ c, Text.isGap c = true → isPlain c = true := fun c hc =>
    isPlain_of_isBlank (isBlank_of_isGap hc)
  -- the name and the gap behind it are plain
  have hbehind : nesting? depth cs =
      nesting? depth ((cs.dropWhile isNameChar).dropWhile Text.isGap) := by
    calc nesting? depth cs
        = nesting? depth (cs.takeWhile isNameChar ++ cs.dropWhile isNameChar) := by
          rw [List.takeWhile_append_dropWhile]
      _ = nesting? depth (cs.dropWhile isNameChar) :=
          nesting?_append_of_plain
            (fun c hc => isPlain_of_isNameChar (List.mem_takeWhile_imp hc)) depth _
      _ = nesting? depth ((cs.dropWhile isNameChar).takeWhile Text.isGap ++
            (cs.dropWhile isNameChar).dropWhile Text.isGap) := by
          rw [List.takeWhile_append_dropWhile]
      _ = _ := nesting?_append_of_plain (fun c hc => hgap c (List.mem_takeWhile_imp hc)) depth _
  rw [readName_eq] at h
  rw [hbehind]
  split at h
  · cases h
  · unfold nameOrCall at h
    split at h
    · next inner hparen =>
      split at h
      · next args rest' hclose =>
        cases h
        rw [hparen]
        exact ⟨rfl, nesting?_splitClose? hclose depth⟩
      · cases h
    · cases h
      exact ⟨rfl, rfl⟩

theorem Symbol.read?_eq_append {cs rest : List Char} {s : Symbol} (h : read? cs = some (s, rest)) :
    cs = s.spelling ++ rest := by
  have hfits : ∀ {n : Nat} {ss : List Symbol}, (∀ s ∈ ss, s.spelling.length = n) →
      ss.find? (fun s => s.spelling.isPrefixOf cs) = some s → cs = s.spelling ++ cs.drop n := by
    intro n ss hlength hfind
    have hprefix : s.spelling.isPrefixOf cs = true :=
      List.find?_some (p := fun s : Symbol => s.spelling.isPrefixOf cs) hfind
    obtain ⟨tail, rfl⟩ := List.isPrefixOf_iff_prefix.mp hprefix
    rw [← hlength s (List.mem_of_find?_eq_some hfind), List.drop_left]
  unfold read? at h
  split at h
  · next s' hs =>
    cases h
    exact hfits (by decide) hs
  · obtain ⟨s', hs, heq⟩ := Option.map_eq_some_iff.mp h
    cases heq
    exact hfits (by decide) hs

theorem nesting?_spelling (s : Symbol) (depth : Nat) (cs : List Char) :
    nesting? depth (s.spelling ++ cs) =
      ((Token.symbol s).nesting? depth).bind fun after => nesting? after cs := by
  cases s with
  | closeParen => cases depth <;> rfl
  | _ => rfl

/-- A token has the nesting of its text. -/
theorem nesting?_next {cs rest : List Char} {t : Token} (h : Token.next cs = .token t rest)
    (depth : Nat) :
    nesting? depth cs = (t.nesting? depth).bind fun after => nesting? after rest := by
  obtain ⟨c, more, hcs, -, hstarts⟩ := starts_of_next h
  have hgaps : nesting? depth cs = nesting? depth (c :: more) := by
    rw [← hcs]
    conv => lhs; rw [← List.takeWhile_append_dropWhile (p := Text.isGap) (l := cs)]
    exact nesting?_append_of_plain
      (fun c hc => isPlain_of_isBlank (isBlank_of_isGap (List.mem_takeWhile_imp hc))) depth _
  rw [hgaps]
  cases hstarts with
  | placeholder hmark =>
    have hplain : isPlain c = true := by
      simp only [Bool.or_eq_true, beq_iff_eq] at hmark
      rcases hmark with rfl | rfl <;> rfl
    exact nesting?_cons_of_plain hplain depth _
  | number _ _ hread => exact nesting?_read hread depth
  | name _ _ _ hread =>
    obtain ⟨ht, hnesting⟩ := nesting?_readName hread depth
    rw [ht, hnesting]
    rfl
  | symbol _ _ _ hread =>
    rw [Symbol.read?_eq_append hread]
    exact nesting?_spelling _ depth rest

/-- A text that is read to its end has the nesting of its tokens. -/
theorem nesting?_ofText {cs : List Char} {ts : List Token} (h : Tokens.ofText cs = ⟨ts, .done⟩)
    (depth : Nat) : nesting? depth cs = Tokens.nesting? depth ts := by
  refine ofText_done_rule (P := fun cs ts => ∀ depth, nesting? depth cs = Tokens.nesting? depth ts)
    ?_ ?_ h depth
  · intro cs hblank depth
    have hplain := nesting?_append_of_plain (fun c (hc : c ∈ cs) =>
      isPlain_of_isBlank (isBlank_of_isGap (List.dropWhile_eq_nil_iff.mp hblank c hc))) depth []
    rwa [List.append_nil] at hplain
  · intro cs t rest ts hnext _ ih depth
    rw [nesting?_next hnext]
    cases ht : t.nesting? depth with
    | none => simp [Tokens.nesting?, ht]
    | some after => simp [Tokens.nesting?, ht, ih]

end SignalCalc
