import Mathlib.Data.List.Infix
import SignalCalc.Proofs.Token.Nesting

/-! # Calls and the texts of their arguments

A call is written as a name and texts with commas between them, in parentheses. Two searches take it
apart again: one for the parenthesis that closes the call, and one for the commas between its
arguments. They agree as long as the parentheses of each text are closed in it and its commas stand
inside of them, so that what was joined is what is split, however much white space is around it.
-/

namespace SignalCalc

/-! ## Texts -/

/-- A text that can be an argument: it is trimmed and not empty, as many parentheses are closed as
are opened, none is closed before it is opened, and no comma stands outside of them. -/
structure IsArgument (text : List Char) : Prop where
  ne_nil : text ≠ []
  trimmed : Text.trim text = text
  closed : text.count '(' = text.count ')'
  opened : ∀ front, front <+: text → front.count ')' ≤ front.count '('
  commas : ∀ front, front ++ [','] <+: text → front.count ')' < front.count '('

/-- The beginnings of a text are all that has to be looked at. -/
theorem isArgument_iff {text : List Char} :
    IsArgument text ↔
      (text ≠ [] ∧ Text.trim text = text ∧ text.count '(' = text.count ')') ∧
        ∀ front ∈ text.inits, front.count ')' ≤ front.count '(' ∧
          (front ++ [','] <+: text → front.count ')' < front.count '(') := by
  constructor
  · intro h
    refine ⟨⟨h.ne_nil, h.trimmed, h.closed⟩, fun front hfront => ?_⟩
    exact ⟨h.opened front ((List.mem_inits _ _).mp hfront), h.commas front⟩
  · rintro ⟨⟨hne, htrim, hclosed⟩, hfronts⟩
    have hmem : ∀ {front}, front <+: text → front ∈ text.inits := (List.mem_inits _ _).mpr
    exact ⟨hne, htrim, hclosed, fun front h => (hfronts front (hmem h)).1, fun front h =>
      (hfronts front (hmem ((List.prefix_append _ _).trans h))).2 h⟩

instance : DecidablePred IsArgument := fun _ => decidable_of_iff _ isArgument_iff.symm

/-- Where the counts of the parentheses allow it, a text has a nesting, and the counts say which. -/
theorem nesting?_of_counts {cs : List Char} {depth : Nat}
    (hopened : ∀ front, front <+: cs → front.count ')' ≤ depth + front.count '(')
    (hcommas : ∀ front, front ++ [','] <+: cs → front.count ')' < depth + front.count '(') :
    nesting? depth cs = some (depth + cs.count '(' - cs.count ')') := by
  -- a prefix of what is left is one of the whole text, with the first character in front
  induction cs generalizing depth with
  | nil => rfl
  | cons c cs ih =>
    have hfront : ∀ front, front <+: cs →
        (c :: front).count ')' ≤ depth + (c :: front).count '(' := fun front h =>
      hopened _ (List.cons_prefix_cons.mpr ⟨rfl, h⟩)
    have hcomma : ∀ front, front ++ [','] <+: cs →
        (c :: front).count ')' < depth + (c :: front).count '(' := fun front h =>
      hcommas _ (List.cons_prefix_cons.mpr ⟨rfl, h⟩)
    rcases char_cases c with rfl | rfl | rfl | hplain
    · simp only [List.count_cons_self, ne_eq, Char.reduceEq, not_false_eq_true,
        List.count_cons_of_ne] at hfront hcomma ⊢
      have hopen : nesting? depth ('(' :: cs) = nesting? (depth + 1) cs := rfl
      rw [hopen, ih (fun front h => by have := hfront front h; omega)
        (fun front h => by have := hcomma front h; omega)]
      congr 1
      omega
    · simp only [List.count_cons_self, ne_eq, Char.reduceEq, not_false_eq_true,
        List.count_cons_of_ne] at hfront hcomma ⊢
      cases depth with
      | zero => exact absurd (hfront [] List.nil_prefix) (by simp)
      | succ depth =>
        have hclose : nesting? (depth + 1) (')' :: cs) = nesting? depth cs := rfl
        rw [hclose, ih (fun front h => by have := hfront front h; omega)
          (fun front h => by have := hcomma front h; omega)]
        congr 1
        omega
    · have houter := hcommas [] (by simp)
      rw [List.count_nil, List.count_nil] at houter
      simp only [ne_eq, Char.reduceEq, not_false_eq_true, List.count_cons_of_ne]
        at hfront hcomma ⊢
      rw [nesting?_comma, if_neg (by omega), ih hfront hcomma]
    · obtain ⟨hopen, hclose, -⟩ := ne_of_isPlain hplain
      simp only [ne_eq, hopen, hclose, not_false_eq_true, List.count_cons_of_ne]
        at hfront hcomma ⊢
      rw [nesting?_cons_of_plain hplain, ih hfront hcomma]

theorem IsArgument.balanced {text : List Char} (h : IsArgument text) : Balanced text := by
  have hopened : ∀ front, front <+: text → front.count ')' ≤ 0 + front.count '(' := by
    simpa using h.opened
  have hcommas : ∀ front, front ++ [','] <+: text → front.count ')' < 0 + front.count '(' := by
    simpa using h.commas
  have hnesting := nesting?_of_counts hopened hcommas
  rw [h.closed, Nat.zero_add, Nat.sub_self] at hnesting
  exact hnesting

/-! ## White space around texts -/

theorem nesting?_append (depth : Nat) (as bs : List Char) :
    nesting? depth (as ++ bs) = (nesting? depth as).bind fun after => nesting? after bs := by
  induction as generalizing depth with
  | nil => rfl
  | cons c as ih =>
    rcases char_cases c with rfl | rfl | rfl | hplain
    · exact ih (depth + 1)
    · cases depth with
      | zero => rfl
      | succ depth => exact ih depth
    · rw [List.cons_append, nesting?_comma, nesting?_comma, ih]
      split <;> rfl
    · rw [List.cons_append, nesting?_cons_of_plain hplain, nesting?_cons_of_plain hplain, ih]

/-- A text with white space in front of it and behind it. -/
structure Padded where
  front : List Char
  text : List Char
  back : List Char

namespace Padded

def chars (a : Padded) : List Char := a.front ++ (a.text ++ a.back)

/-- An argument with nothing but white space around it. -/
structure IsArgument (a : Padded) : Prop where
  text : SignalCalc.IsArgument a.text
  front : ∀ c ∈ a.front, Text.isBlank c = true
  back : ∀ c ∈ a.back, Text.isBlank c = true

variable {a : Padded} (h : a.IsArgument)

include h

theorem IsArgument.trim : Text.trim a.chars = a.text := by
  rw [chars, Text.trim_behind_blanks h.front, Text.trim_before_blanks h.back, h.text.trimmed]

theorem IsArgument.balanced : Balanced a.chars := by
  have hback := nesting?_append_of_plain (fun c hc => isPlain_of_isBlank (h.back c hc)) 0 []
  rw [List.append_nil] at hback
  rw [Balanced, chars,
    nesting?_append_of_plain (fun c hc => isPlain_of_isBlank (h.front c hc)), nesting?_append,
    h.text.balanced, Option.bind_some, hback]
  rfl

end Padded

/-! ## Calls -/

/-- A name with an opening parenthesis behind it is a call, if the parenthesis is closed. -/
theorem next_call {name : List Char} (hname : isVariableName name = true) {inner args rest : List Char}
    (h : splitClose? 0 inner = some (args, rest)) :
    Token.next (name ++ '(' :: inner) = .token (.call (String.ofList name) (Text.trim args)) rest := by
  have hchars := isNameChar_of_isVariableName hname
  cases name with
  | nil => cases hname
  | cons c name =>
    simp only [isVariableName, Bool.and_eq_true, decide_eq_true_eq] at hname
    have hparen : isNameChar '(' = false := rfl
    have htake : (c :: name ++ '(' :: inner).takeWhile isNameChar = c :: name := by
      rw [takeWhile_delimiter hparen, List.takeWhile_eq_self_iff.mpr hchars]
    have hdrop : (c :: name ++ '(' :: inner).dropWhile isNameChar = '(' :: inner := by
      rw [dropWhile_delimiter hparen, List.dropWhile_eq_nil_iff.mpr hchars, List.nil_append]
    have hgap : ('(' :: inner).dropWhile Text.isGap = '(' :: inner := rfl
    rw [List.cons_append, next_of_isNameStart hname.1.1, ← List.cons_append, readName_eq, htake,
      hdrop, hgap, if_neg (by omega)]
    simp only [nameOrCall, h]

/-- A call of any function, whose arguments are written with commas between them and any white space
around them, and whatever follows it. The call is read with its name, and up to its own closing
parenthesis; its argument text splits into just the texts that were joined. -/
theorem call_splits {name : List Char} (hname : isVariableName name = true) {args : List Padded}
    (h : ∀ a ∈ args, a.IsArgument) (rest : List Char) :
    ∃ inner,
      Token.next (name ++ '(' :: (joinCommas (args.map Padded.chars) ++ ')' :: rest)) =
        .token (.call (String.ofList name) inner) rest ∧
      splitArguments inner = args.map Padded.text := by
  have hbalanced : ∀ text ∈ args.map Padded.chars, Balanced text := by
    simpa using fun a ha => (h a ha).balanced
  have hblank : ∀ text ∈ args.map Padded.chars, Text.trim text ≠ [] := by
    simpa using fun a ha => (h a ha).trim.symm ▸ (h a ha).text.ne_nil
  have hclose := (closed_joinCommas hbalanced).splitClose? rest
  refine ⟨_, next_call hname hclose, ?_⟩
  rw [splitArguments_trim, splitArguments_joinCommas hbalanced hblank, List.map_map]
  exact List.map_congr_left fun a ha => (h a ha).trim

theorem call_splits_nested :
    isVariableName "pow".toList = true ∧
    (Padded.mk [] "f(b, (2))".toList "\t ".toList).IsArgument ∧
    (Padded.mk "\n".toList "x + 1".toList []).IsArgument ∧
    ∃ inner,
      Token.next "pow(f(b, (2))\t ,\nx + 1) * 3)".toList = .token (.call "pow" inner) " * 3)".toList ∧
      splitArguments inner = ["f(b, (2))".toList, "x + 1".toList] := by
  have hname : isVariableName "pow".toList = true := by decide
  have hfirst : (Padded.mk [] "f(b, (2))".toList "\t ".toList).IsArgument :=
    ⟨by decide, List.all_eq_true.mp rfl, List.all_eq_true.mp rfl⟩
  have hsecond : (Padded.mk "\n".toList "x + 1".toList []).IsArgument :=
    ⟨by decide, List.all_eq_true.mp rfl, List.all_eq_true.mp rfl⟩
  have hsplits := call_splits hname (List.forall_mem_cons.mpr
    ⟨hfirst, List.forall_mem_singleton.mpr hsecond⟩) " * 3)".toList
  exact ⟨hname, hfirst, hsecond, hsplits⟩

end SignalCalc
