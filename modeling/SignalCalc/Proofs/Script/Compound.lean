import SignalCalc.Proofs.Script.Enclosure
import SignalCalc.Proofs.Token.Delimiters

namespace SignalCalc

open Reading

/-! ## Texts -/

structure Place where
  name : Name
  physical : Bool

namespace Place

def chars (place : Place) : List Char :=
  if place.physical then 'p' :: 'h' :: 'y' :: 's' :: '(' :: (place.name.chars ++ [')'])
  else place.name.chars

def token (place : Place) : Token :=
  if place.physical then .call "phys" place.name.chars else .name place.name.text

def target (place : Place) : Target := .named place.name.text

def load (place : Place) : AccessOp := if place.physical then .readPhysical else .read

def store (place : Place) : AccessOp := if place.physical then .writePhysical else .write

end Place

inductive CompoundOp where
  | add
  | sub
  | mul
  | div
deriving DecidableEq, Repr

namespace CompoundOp

def sign : CompoundOp → AssignOp
  | .add => .add
  | .sub => .sub
  | .mul => .mul
  | .div => .div

def binary : CompoundOp → BinaryOp
  | .add => .add
  | .sub => .sub
  | .mul => .mul
  | .div => .div

theorem combine?_sign (op : CompoundOp) : op.sign.combine? = some op.binary.opcode := by
  cases op <;> rfl

end CompoundOp

namespace Place

/-- The compound assignment `x += e`. -/
def compound (place : Place) (op : CompoundOp) (e : String) : String :=
  String.ofList (place.chars ++ ' ' :: (op.sign.symbol.spelling ++ ' ' :: e.toList))

/-- Its expansion `x = x + (e)`. -/
def expanded (place : Place) (op : CompoundOp) (e : String) : String :=
  String.ofList (place.chars ++ ' ' :: '=' :: ' ' ::
    (place.chars ++ ' ' :: (op.binary.symbol.spelling ++ ' ' :: '(' :: (e.toList ++ [')']))))

end Place

/-! ## Tokens -/

theorem Name.trim_chars (x : Name) : Text.trim x.chars = x.chars := by
  have htight := tight_word (ne_nil_of_isVariableName x.valid) (isNameChar_of_isVariableName x.valid)
  have htrim := htight.trim [] [] (by simp) (by simp)
  rwa [List.append_nil, List.nil_append] at htrim

/-- A parenthesis right behind a name makes a call of it. -/
theorem lexes_physical (x : Name) :
    Lexes ('p' :: 'h' :: 'y' :: 's' :: '(' :: (x.chars ++ [')'])) [.call "phys" x.chars] := by
  have hchars := isNameChar_of_isVariableName x.valid
  have hclosed : Closed x.chars := closed_plain fun c hc => isPlain_of_isNameChar (hchars c hc)
  apply lexes_token (by simp)
  intro rest hrest
  refine ⟨rest, ?_, rfl⟩
  have hnext : Token.next (['p', 'h', 'y', 's'] ++ '(' :: (x.chars ++ ')' :: rest)) =
      nameOrCall ['p', 'h', 'y', 's'] ('(' :: (x.chars ++ ')' :: rest)) :=
    next_name_delimiter rfl (by decide)
  simp only [nameOrCall, hclosed.splitClose? rest, x.trim_chars] at hnext
  simpa using hnext

theorem Place.lexes (place : Place) : Lexes place.chars [place.token] := by
  unfold chars token
  split
  · exact lexes_physical place.name
  · exact lexes_name place.name.valid

section Tokens

variable (place : Place) (op : CompoundOp)

theorem Place.ofText_compound (e : List Char) :
    Tokens.ofText (place.chars ++ ' ' :: (op.sign.symbol.spelling ++ ' ' :: e)) =
      (Tokens.ofText e).behind [place.token, .symbol op.sign.symbol] := by
  have hsign : op.sign.symbol ≠ .openParen := by cases op <;> decide
  rw [place.lexes.ofText_append (apart_symbol hsign _), ofText_space,
    ofText_token (next_symbol op.sign.symbol (spaced_cons e)), ofText_space, Tokens.behind_behind]
  rfl

theorem Place.ofText_expanded {e : List Char} {ts : List Token}
    (h : Tokens.ofText e = ⟨ts, .done⟩) :
    Tokens.ofText (place.chars ++ ' ' :: '=' :: ' ' ::
      (place.chars ++ ' ' :: (op.binary.symbol.spelling ++ ' ' :: '(' :: (e ++ [')'])))) =
      ⟨place.token :: .symbol .assign :: place.token :: .symbol op.binary.symbol ::
        .symbol .openParen :: (ts ++ [.symbol .closeParen]), .done⟩ := by
  have hop : op.binary.symbol ≠ .openParen := by cases op <;> decide
  have hassign : ∀ cs, Tokens.ofText (place.chars ++ ' ' :: '=' :: ' ' :: cs) =
      (Tokens.ofText cs).behind [place.token, .symbol .assign] := by
    intro cs
    have happend := place.lexes.ofText_append (apart_symbol (s := .assign) (by decide) (' ' :: cs))
    rw [ofText_space, ofText_token (next_symbol .assign (spaced_cons cs)), ofText_space,
      Tokens.behind_behind] at happend
    exact happend
  rw [hassign, place.lexes.ofText_append (apart_symbol hop _), ofText_space,
    ofText_token (next_symbol op.binary.symbol (spaced_cons _)), ofText_space,
    ofText_token (next_paren rfl), ofText_close h [], ofText_nil]
  simp [Tokens.behind]

end Tokens

/-! ## Scripts -/

/-- The conversion of a variable by its name. -/
theorem specialCall_physical {operand : Reading Unit} {args : List Char} {name : String}
    {ts : List Token} (hname : Reads (nameArgument "phys" args) ts [] name ts)
    (hstar : ∀ reference, args ≠ '*' :: reference) :
    specialCall operand "phys" args .physical ⟨ts, .done⟩ =
      variableUse operand (.named name) .readPhysical .writePhysical ⟨ts, .done⟩ := by
  unfold specialCall
  dsimp only
  split
  · next reference => exact absurd rfl (hstar reference)
  · exact hname.hand_over

/-- A place as an operand is the use of its variable. -/
theorem Place.operand_eq (place : Place) (dialect : Dialect) (depth : Nat) (ts : List Token) :
    operand dialect (depth + 1) ⟨place.token :: ts, .done⟩ =
      variableUse (operand dialect depth) place.target place.load place.store ⟨ts, .done⟩ := by
  obtain ⟨x, physical⟩ := place
  cases physical with
  | false => exact reads_current.hand_over.trans (reads_advance _).hand_over
  | true =>
    have hcall : call dialect (operand dialect depth) "phys" x.chars ⟨ts, .done⟩ =
        specialCall (operand dialect depth) "phys" x.chars .physical ⟨ts, .done⟩ := rfl
    have hname : Reads (nameArgument "phys" x.chars) ts [] x.text ts := by
      simp only [nameArgument, x.trim_chars, x.valid, if_true]
      exact reads_pure _
    have hstar : ∀ reference, x.chars ≠ '*' :: reference := by
      intro reference heq
      have hstart := x.valid
      rw [heq] at hstart
      cases hstart
    calc operand dialect (depth + 1) ⟨.call "phys" x.chars :: ts, .done⟩
        = call dialect (operand dialect depth) "phys" x.chars ⟨ts, .done⟩ :=
          operand_call dialect depth _ _ ts
      _ = _ := hcall.trans (specialCall_physical hname hstar)

section Scripts

variable {dialect : Dialect} {place : Place} {op : CompoundOp}

/-- Where the right-hand side is refused, the assignment is. -/
theorem assignment_of_error {operand : Reading Unit} {ts : List Token} {f : SourceFault}
    (h : (expression operand ⟨ts, .done⟩).result = .error f) (sign : AssignOp) (target : Target)
    (load store : AccessOp) :
    (variableUse operand target load store ⟨.symbol sign.symbol :: ts, .done⟩).result = .error f := by
  rw [variableUse, reads_current.hand_over]
  cases sign with
  | set | add | sub | mul | div =>
    exact (congrArg Step.result (reads_advance _).hand_over).trans (bind_of_error h)

/-- Where a compound assignment is read to its end, the expression on its right-hand side is. -/
theorem Place.reads_compound {depth : Nat} {ts : List Token} {acts : List Action}
    (h : Reads (expression (operand dialect (depth + 1)))
      (place.token :: .symbol op.sign.symbol :: ts) acts () []) :
    ∃ right, Reads (expression (operand dialect depth)) ts right () [] ∧
      acts = right ++ op.sign.actions place.target place.load place.store := by
  cases hright : expression (operand dialect depth) ⟨ts, .done⟩ with
  | mk right result =>
    cases result with
    | error f =>
      -- a fault there is one of the whole
      have huse := assignment_of_error (f := f) (by rw [hright]) op.sign place.target place.load
        place.store
      rw [← place.operand_eq] at huse
      have herror := ladder_of_error huse levels
      unfold Reads expression at h
      rw [h] at herror
      cases herror
    | ok pair =>
      obtain ⟨_, rest, last⟩ := pair
      obtain rfl : last = .done := (leaves_expression hright).ending
      have hread : Reads (expression (operand dialect depth)) ts right () rest := hright
      have hassign := Expr.reads_assignment hread op.sign place.target place.load place.store
      have hwhole : Reads (ladder (operand dialect (depth + 1)) [])
          (place.token :: .symbol op.sign.symbol :: ts) _ () rest :=
        (place.operand_eq dialect depth _).trans hassign
      -- the expression has left no operator for the rest of the ladder
      have hresult : (ladder (operand dialect depth) levels ⟨ts, .done⟩).result =
          .ok ((), ⟨rest, .done⟩) := congrArg Step.result hright
      have hrest : ∀ level ∈ levels, operator? level rest = none := ladder_exhausts hresult
      have hladder := hwhole.ladder levels hrest
      rw [List.append_nil] at hladder
      unfold Reads at h hladder
      rw [expression, hladder] at h
      cases h
      exact ⟨right, hread, rfl⟩

theorem reads_paren {depth : Nat} {ts rest : List Token} {acts : List Action}
    (h : Reads (expression (operand dialect depth)) (ts ++ .symbol .closeParen :: rest) acts ()
      (.symbol .closeParen :: rest)) :
    Reads (operand dialect (depth + 1)) (.symbol .openParen :: (ts ++ .symbol .closeParen :: rest))
      acts () rest := by
  apply reads_current.then
  apply (reads_advance _).then
  apply h.closing
  apply reads_current.then
  exact reads_advance _

theorem reads_binary {operand : Reading Unit} {ts us : List Token} {acts acts' : List Action}
    (op : BinaryOp) (hleft : Reads operand ts acts () (.symbol op.symbol :: us))
    (hright : Reads operand us acts' () []) :
    Reads (expression operand) ts (acts ++ acts' ++ [.operate op.opcode]) () [] := by
  obtain ⟨level, hrungs, hlevel⟩ := op.rungs_level
  have hfirst : Reads (ladder operand (rungs (op.level + 1))) ts acts () (.symbol op.symbol :: us) :=
    hleft.of_operand (follows_operator op us)
  have hsecond : Reads (ladder operand (rungs (op.level + 1))) us acts' () [] :=
    hright.of_operand (follows_nil _)
  have hstop : Loops level (ladder operand (rungs (op.level + 1))) [] [] [] := loops_stop rfl _
  have hround := hstop.step hlevel hsecond (Nat.zero_le _)
  have hchain := hfirst.leftAssociative hround
  rw [← List.append_assoc] at hchain
  have hself : Reads (ladder operand (rungs op.level)) ts (acts ++ acts' ++ [.operate op.opcode]) ()
      [] := by
    rw [hrungs]
    exact hchain
  exact hself.loosen (Nat.zero_le _) (follows_nil 0)

/-- The expansion, given how its last operand is read by itself. -/
theorem Place.reads_expanded {depth depth' : Nat} {ts : List Token} {right : List Action}
    (h : Reads (expression (operand dialect depth)) ts right () [])
    (hdepth : Tokens.weight ⟨ts, .done⟩ < depth') :
    Reads (expression (operand dialect (depth' + 2)))
      (place.token :: .symbol .assign :: place.token :: .symbol op.binary.symbol ::
        .symbol .openParen :: (ts ++ [.symbol .closeParen]))
      (.access place.load place.target ::
        (right ++ [.operate op.binary.opcode, .access place.store place.target])) () [] := by
  have hlevel : op.binary.level + 1 ≤ 11 := by cases op <;> decide
  have hinner := reads_paren (h.enclosed hdepth (.inr ⟨[], rfl⟩))
  have hvariable : ∀ rest, Reads (operand dialect (depth' + 1))
      (place.token :: .symbol op.binary.symbol :: rest) [.access place.load place.target] ()
      (.symbol op.binary.symbol :: rest) := fun rest =>
    (place.operand_eq dialect depth' _).trans
      (Expr.reads_variable ((follows_operator op.binary rest).mono hlevel) _ _ _ _)
  have hassign := Expr.reads_assignment (reads_binary op.binary (hvariable _) hinner) .set
    place.target place.load place.store
  have hwhole : Reads (operand dialect (depth' + 2)) _ _ () [] :=
    (place.operand_eq dialect (depth' + 1) _).trans hassign
  rw [AssignOp.actions, AssignOp.combine?, List.append_assoc] at hwhole
  exact hwhole.alone

/-- The scripts of a compound assignment and of its expansion, by that of the right-hand side. -/
theorem Script.compound_expanded {e : String}
    (h : (Script.ofText dialect (place.compound op e)).fault = none) :
    ∃ right, Script.ofText dialect e = ⟨right, none⟩ ∧
      (Script.ofText dialect (place.compound op e)).actions =
        right ++ [.access place.load place.target, .operate (.stack .swap),
          .operate op.binary.opcode, .access place.store place.target] ∧
      Script.ofText dialect (place.expanded op e) =
        ⟨.access place.load place.target :: (right ++ [.operate op.binary.opcode,
          .access place.store place.target]), none⟩ := by
  obtain ⟨hending, hread⟩ := Script.reads_of_ofText h
  have hchars : (place.compound op e).toList =
      place.chars ++ ' ' :: (op.sign.symbol.spelling ++ ' ' :: e.toList) := String.toList_ofList
  rw [hchars, place.ofText_compound] at hending hread
  obtain ⟨right, hright, hacts⟩ := Place.reads_compound hread
  have htokens : Tokens.ofText e.toList = ⟨(Tokens.ofText e.toList).tokens, .done⟩ := by
    rw [← show (Tokens.ofText e.toList).ending = .done from hending]
  have hweight := Tokens.weight_ofText e.toList
  rw [htokens] at hweight
  refine ⟨right, ?_, ?_, ?_⟩
  · have hdepth : Tokens.weight ⟨(Tokens.ofText e.toList).tokens, .done⟩ < e.toList.length + 1 := by
      omega
    have halone := hright.enclosed hdepth (.inl rfl)
    rw [List.append_nil] at halone
    have hscript := Script.ofText_of_reads htokens halone
    rwa [String.ofList_toList] at hscript
  · simpa [AssignOp.actions, op.combine?_sign] using hacts
  · apply Script.ofText_of_reads (place.ofText_expanded op htokens)
    -- the expansion is longer than the nesting in it is deep
    generalize hlength : (place.chars ++ ' ' :: '=' :: ' ' :: (place.chars ++
      ' ' :: (op.binary.symbol.spelling ++ ' ' :: '(' :: (e.toList ++ [')'])))).length = length
    obtain ⟨depth, rfl, hdepth⟩ : ∃ depth, length = depth + 1 ∧ e.toList.length < depth := by
      simp only [List.length_append, List.length_cons] at hlength
      exact ⟨length - 1, by omega, by omega⟩
    exact Place.reads_expanded hright (by omega)

end Scripts

end SignalCalc
