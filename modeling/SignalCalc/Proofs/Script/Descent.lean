import Mathlib.Data.List.Forall2
import SignalCalc.Proofs.Script.Expression

/-! # Recursive descent

The descent through the tokens of a written expression lists the actions of its tree. What has to be
known of the rest of the tokens is that none of them goes on with the expression: no assignment sign,
and no operator as tight as the place of the expression. The left operand of an operator is followed
by just such an operator, so that its case speaks of the loop that reads on.
-/

namespace SignalCalc

open Reading

/-! ## Pieces of the descent -/

/-- The piece reads some of the tokens, lists these actions and leaves the rest. -/
def Reads {α : Type} (r : Reading α) (ts : List Token) (actions : List Action) (a : α)
    (rest : List Token) : Prop :=
  r ⟨ts, .done⟩ = ⟨actions, .ok (a, ⟨rest, .done⟩)⟩

section Reads

variable {α β : Type} {ts mid rest : List Token} {acts acts' : List Action}

theorem reads_pure (a : α) : Reads (pure a) ts [] a ts := rfl

theorem reads_current : Reads current ts [] ts.head? ts := rfl

theorem reads_remaining : Reads remaining ts [] ts.length ts := rfl

theorem reads_ending : Reads ending ts [] .done ts := rfl

theorem reads_emit (a : Action) : Reads (emit a) ts [a] () ts := rfl

theorem reads_settle : Reads settle ts [] () ts := by
  cases ts <;> rfl

theorem reads_advance (t : Token) : Reads advance (t :: ts) [] () ts := reads_settle

theorem Reads.bind {r : Reading α} {f : α → Reading β} {a : α} {b : β}
    (h : Reads r ts acts a mid) (h' : Reads (f a) mid acts' b rest) :
    Reads (r >>= f) ts (acts ++ acts') b rest := by
  unfold Reads at h h' ⊢
  simp [Bind.bind, andThen, h, h']

theorem Reads.then {r : Reading α} {f : α → Reading β} {a : α} {b : β}
    (h : Reads r ts [] a mid) (h' : Reads (f a) mid acts b rest) :
    Reads (r >>= f) ts acts b rest := h.bind h'

/-- A piece, and then another that lists nothing. -/
theorem Reads.closing {r : Reading α} {f : α → Reading β} {a : α} {b : β}
    (h : Reads r ts acts a mid) (h' : Reads (f a) mid [] b rest) :
    Reads (r >>= f) ts acts b rest := by
  simpa using h.bind h'

end Reads

/-! ## The loop over operators -/

def operator? (level : Level) (ts : List Token) : Option Opcode :=
  match ts.head? with
  | some (.symbol s) => level s
  | _ => none

theorem reads_operatorAt (level : Level) (ts : List Token) :
    Reads (operatorAt level) ts [] (operator? level ts) ts := by
  cases ts with
  | nil => rfl
  | cons t ts => cases t <;> rfl

def Loops (level : Level) (operand : Reading Unit) (ts : List Token) (acts : List Action)
    (rest : List Token) : Prop :=
  ∀ fuel, ts.length < fuel → Reads (operators level operand fuel) ts acts () rest

theorem loops_stop {level : Level} {ts : List Token} (h : operator? level ts = none)
    (operand : Reading Unit) : Loops level operand ts [] ts := by
  intro fuel hfuel
  cases fuel with
  | zero => omega
  | succ fuel =>
    have hop := reads_operatorAt level ts
    rw [h] at hop
    exact hop.then (reads_pure ())

theorem Loops.step {level : Level} {operand : Reading Unit} {s : Symbol} {op : Opcode}
    (hop : level s = some op) {us mid rest : List Token} {acts acts' : List Action}
    (hoperand : Reads operand us acts () mid) (hlength : mid.length ≤ us.length)
    (h : Loops level operand mid acts' rest) :
    Loops level operand (.symbol s :: us) (acts ++ .operate op :: acts') rest := by
  intro fuel hfuel
  cases fuel with
  | zero => omega
  | succ fuel =>
    have hat := reads_operatorAt level (.symbol s :: us)
    rw [show operator? level (.symbol s :: us) = some op from hop] at hat
    have hmore := h fuel (by simp only [List.length_cons] at hfuel; omega)
    apply hat.then
    apply (reads_advance _).then
    apply hoperand.bind
    exact (reads_emit _).bind hmore

theorem Reads.leftAssociative {level : Level} {operand : Reading Unit}
    {ts mid rest : List Token} {acts acts' : List Action} (hoperand : Reads operand ts acts () mid)
    (h : Loops level operand mid acts' rest) :
    Reads (leftAssociative level operand) ts (acts ++ acts') () rest :=
  hoperand.bind (reads_remaining.then (h _ (Nat.lt_succ_self _)))

/-- Where no operator of the looser levels follows, they have nothing to add. -/
theorem Reads.ladder {operand : Reading Unit} (looser : List Level) {tighter : List Level}
    {ts rest : List Token} {acts : List Action} (h : Reads (ladder operand tighter) ts acts () rest)
    (hrest : ∀ level ∈ looser, operator? level rest = none) :
    Reads (ladder operand (looser ++ tighter)) ts acts () rest := by
  induction looser with
  | nil => exact h
  | cons level looser ih =>
    have hinner := ih fun l hl => hrest l (List.mem_cons_of_mem level hl)
    have houter := hinner.leftAssociative (loops_stop (hrest level (by simp)) _)
    rwa [List.append_nil] at houter

/-! ## Places in a tree -/

/-- The levels of the operators that may stand in a place without parentheses. -/
def rungs (place : Nat) : List Level := levels.drop (place - 1)

/-- An expression in a place ends before these tokens. -/
def Follows (place : Nat) (rest : List Token) : Prop :=
  ∀ s, rest.head? = some (.symbol s) →
    assignment? s = none ∧ ∀ level ∈ rungs place, level s = none

theorem Follows.operator? {place : Nat} {rest : List Token} (h : Follows place rest)
    {level : Level} (hlevel : level ∈ rungs place) : operator? level rest = none := by
  unfold SignalCalc.operator?
  split
  · next s hs => exact (h s hs).2 level hlevel
  · rfl

theorem rungs_split {place place' : Nat} (h : place ≤ place') :
    ∃ looser, rungs place = looser ++ rungs place' := by
  refine ⟨(rungs place).take (place' - 1 - (place - 1)), ?_⟩
  have hdrop : rungs place' = (rungs place).drop (place' - 1 - (place - 1)) := by
    simp only [rungs, List.drop_drop]
    congr 1
    omega
  rw [hdrop, List.take_append_drop]

theorem Follows.mono {place place' : Nat} {rest : List Token} (h : Follows place rest)
    (hle : place ≤ place') : Follows place' rest := by
  intro s hs
  obtain ⟨looser, hsplit⟩ := rungs_split hle
  refine ⟨(h s hs).1, fun level hlevel => (h s hs).2 level ?_⟩
  rw [hsplit]
  exact List.mem_append_right looser hlevel

theorem follows_nil (place : Nat) : Follows place [] := by
  intro s hs
  cases hs

theorem follows_close (place : Nat) (rest : List Token) :
    Follows place (.symbol .closeParen :: rest) := by
  intro s hs
  obtain rfl : Symbol.closeParen = s := by simpa using hs
  have hnone : ∀ level ∈ levels, level .closeParen = none := by simp [levels]
  exact ⟨rfl, fun level hlevel => hnone level (List.mem_of_mem_drop hlevel)⟩

/-- An operator does not go on with its left operand. -/
theorem follows_operator (op : BinaryOp) (rest : List Token) :
    Follows (op.level + 1) (.symbol op.symbol :: rest) := by
  intro s hs
  obtain rfl : op.symbol = s := by simpa using hs
  cases op <;> simp [rungs, levels, BinaryOp.level, BinaryOp.symbol, assignment?]

theorem BinaryOp.rungs_level (op : BinaryOp) :
    ∃ level, rungs op.level = level :: rungs (op.level + 1) ∧ level op.symbol = some op.opcode := by
  cases op <;> exact ⟨_, rfl, rfl⟩

/-- The reading of a looser place reads what a tighter one does, if nothing goes on with it. -/
theorem Reads.loosen {operand : Reading Unit} {place place' : Nat} (hle : place ≤ place')
    {ts rest : List Token} {acts : List Action}
    (h : Reads (SignalCalc.ladder operand (rungs place')) ts acts () rest)
    (hrest : Follows place rest) : Reads (SignalCalc.ladder operand (rungs place)) ts acts () rest := by
  obtain ⟨looser, hsplit⟩ := rungs_split hle
  rw [hsplit]
  apply h.ladder looser
  intro level hlevel
  apply hrest.operator?
  rw [hsplit]
  exact List.mem_append_left _ hlevel

theorem Reads.of_operand {operand : Reading Unit} {place : Nat} {ts rest : List Token}
    {acts : List Action} (h : Reads operand ts acts () rest) (hrest : Follows place rest) :
    Reads (SignalCalc.ladder operand (rungs place)) ts acts () rest := by
  have hbare : Reads (SignalCalc.ladder operand []) ts acts () rest := h
  have hladder := hbare.ladder (rungs place) fun level hlevel => hrest.operator? hlevel
  rwa [List.append_nil] at hladder

/-- An operand with nothing behind it is an expression. -/
theorem Reads.alone {operand : Reading Unit} {ts : List Token} {acts : List Action}
    (h : Reads operand ts acts () []) : Reads (expression operand) ts acts () [] := by
  have hladder := h.of_operand (follows_nil 0)
  exact hladder

/-! ## Expressions in their places -/

/-- What an assignment does to its target once the new value is on the stack. -/
def AssignOp.actions (sign : AssignOp) (target : Target) (load store : AccessOp) : List Action :=
  match sign.combine? with
  | none => [.access store target]
  | some op => [.access load target, .operate (.stack .swap), .operate op, .access store target]

namespace Expr

theorem assign_actions (sign : AssignOp) (x : Name) (e : Expr) :
    (assign sign x e).actions = e.actions ++ sign.actions (.named x.text) .read .write := by
  cases sign <;> simp [actions, AssignOp.actions, AssignOp.combine?]

/-- The descent reads the expression in a place. The length of its text bounds the depth. -/
def Parses (dialect : Dialect) (e : Expr) (place : Nat) : Prop :=
  ∀ depth rest, (enclose place e e.chars).length ≤ depth → Follows place rest →
    Reads (ladder (operand dialect depth) (rungs place))
      (encloseTokens place e e.tokens ++ rest) e.actions () rest

/-- The descent reads the expression as the beginning of a chain of operators of its place's own
level, and then reads on. -/
def Chains (dialect : Dialect) (e : Expr) (place : Nat) : Prop :=
  ∀ depth rest acts final level, (enclose place e e.chars).length ≤ depth →
    rungs place = level :: rungs (place + 1) → Follows (place + 1) rest →
    Loops level (ladder (operand dialect depth) (rungs (place + 1))) rest acts final →
    Reads (ladder (operand dialect depth) (rungs place))
      (encloseTokens place e e.tokens ++ rest) (e.actions ++ acts) () final

section Places

variable {dialect : Dialect} {e : Expr} {place : Nat}

theorem enclose_of_le (h : place ≤ e.level) (text : List Char) : enclose place e text = text := by
  simp [enclose, Nat.not_lt.mpr h]

theorem encloseTokens_of_le (h : place ≤ e.level) (ts : List Token) :
    encloseTokens place e ts = ts := by
  simp [encloseTokens, Nat.not_lt.mpr h]

theorem enclose_zero (e : Expr) (text : List Char) : enclose 0 e text = text :=
  enclose_of_le (Nat.zero_le _) text

theorem encloseTokens_zero (e : Expr) (ts : List Token) : encloseTokens 0 e ts = ts :=
  encloseTokens_of_le (Nat.zero_le _) ts

/-- In a place that is too tight for it, an expression is read inside of parentheses. -/
theorem Parses.enclosed (h : Parses dialect e 0) (hplace : e.level < place) :
    Parses dialect e place := by
  intro depth rest hdepth hrest
  apply Reads.of_operand _ hrest
  simp only [enclose, hplace, if_true, encloseTokens, List.length_cons, List.length_append] at hdepth ⊢
  -- going inside takes one off the depth, and the parentheses off the text
  cases depth with
  | zero => omega
  | succ depth =>
    have hinner := h depth (.symbol .closeParen :: rest) (by rw [enclose_zero]; omega)
      (follows_close 0 rest)
    rw [encloseTokens_zero] at hinner
    simp only [List.cons_append, List.append_assoc, List.nil_append]
    apply reads_current.then
    apply (reads_advance _).then
    apply hinner.closing
    apply reads_current.then
    exact reads_advance _

/-- Where the descent reads a looser expression, in whatever place, it reads it as a chain: it is
the first operand of the loop. -/
theorem Parses.chains (h : Parses dialect e (place + 1))
    (hsame : e.level < place + 1 ↔ e.level < place) : Chains dialect e place := by
  intro depth rest acts final level hdepth hrungs hrest hloop
  have htokens : encloseTokens (place + 1) e e.tokens = encloseTokens place e e.tokens := by
    simp only [encloseTokens, hsame]
  have hchars : enclose (place + 1) e e.chars = enclose place e e.chars := by
    simp only [enclose, hsame]
  rw [hrungs, ← htokens]
  exact (h depth rest (by rw [hchars]; exact hdepth) hrest).leftAssociative hloop

theorem Chains.parses (h : Chains dialect e place) {level : Level}
    (hrungs : rungs place = level :: rungs (place + 1)) : Parses dialect e place := by
  intro depth rest hdepth hrest
  have hstop : Loops level (ladder (operand dialect depth) (rungs (place + 1))) rest [] rest :=
    loops_stop (hrest.operator? (by simp [hrungs])) _
  have hread := h depth rest [] rest level hdepth hrungs (hrest.mono (Nat.le_succ place)) hstop
  rwa [List.append_nil] at hread

structure Descends (dialect : Dialect) (e : Expr) : Prop where
  parses : ∀ place, Parses dialect e place
  chains : ∀ place, Chains dialect e place

/-- Places as tight as the expression itself are all that have to be looked at. -/
theorem descends_of_level (h : ∀ place ≤ e.level, Parses dialect e place)
    (hchain : Chains dialect e e.level) : Descends dialect e := by
  have hparses : ∀ place, Parses dialect e place := by
    intro place
    by_cases hplace : place ≤ e.level
    · exact h place hplace
    · exact (h 0 (Nat.zero_le _)).enclosed (by omega)
  refine ⟨hparses, fun place => ?_⟩
  by_cases hplace : place = e.level
  · rw [hplace]
    exact hchain
  · exact (hparses (place + 1)).chains (by omega)

end Places

/-! ## The productions -/

section Productions

variable {dialect : Dialect}

theorem descends_operand {e : Expr} (hlevel : e.level = 11)
    (h : ∀ depth rest, e.chars.length ≤ depth + 1 → Follows 11 rest →
      Reads (operand dialect (depth + 1)) (e.tokens ++ rest) e.actions () rest) :
    Descends dialect e := by
  apply descends_of_level
  · intro place hplace depth rest hdepth hrest
    rw [hlevel] at hplace
    rw [enclose_of_le (by omega)] at hdepth
    rw [encloseTokens_of_le (by omega)]
    have hne := e.spelled.tight.ne_nil
    cases depth with
    | zero => exact absurd (List.eq_nil_of_length_eq_zero (Nat.le_zero.mp hdepth)) hne
    | succ depth =>
      exact (h depth rest hdepth (hrest.mono hplace)).of_operand hrest
  · -- above the last rung there are no chains
    intro depth rest acts final level hdepth hrungs
    rw [hlevel] at hrungs
    cases hrungs

theorem descends_literal (n : UInt64) : Descends dialect (.literal n) := by
  apply descends_operand rfl
  intro depth rest hdepth hrest
  apply reads_current.then
  apply (reads_advance _).then
  exact reads_emit _

/-- A name without an assignment sign behind it is read. -/
theorem reads_variable {rest : List Token} (hrest : Follows 11 rest) (operand : Reading Unit)
    (target : Target) (load store : AccessOp) :
    Reads (variableUse operand target load store) rest [.access load target] () rest := by
  apply reads_current.then
  cases rest with
  | nil => exact reads_emit _
  | cons t rest =>
    cases t with
    | symbol s =>
      simp only [List.head?_cons, (hrest s rfl).1]
      exact reads_emit _
    | number | name | call | placeholder => exact reads_emit _

theorem descends_name (x : Name) : Descends dialect (.name x) := by
  apply descends_operand rfl
  intro depth rest hdepth hrest
  apply reads_current.then
  apply (reads_advance _).then
  exact reads_variable hrest _ _ _ _

/-- An assignment takes in the expression to its right. -/
theorem reads_assignment {operand : Reading Unit} {ts rest : List Token} {acts : List Action}
    (h : Reads (expression operand) ts acts () rest) (sign : AssignOp) (target : Target)
    (load store : AccessOp) :
    Reads (variableUse operand target load store) (.symbol sign.symbol :: ts)
      (acts ++ sign.actions target load store) () rest := by
  apply reads_current.then
  cases sign with
  | set =>
    apply (reads_advance _).then
    exact h.bind (reads_emit _)
  | add | sub | mul | div =>
    apply (reads_advance _).then
    apply h.bind
    apply (reads_emit _).bind
    apply (reads_emit _).bind
    apply (reads_emit _).bind
    exact reads_emit _

theorem descends_assign {e : Expr} (h : Descends dialect e) (sign : AssignOp) (x : Name) :
    Descends dialect (.assign sign x e) := by
  apply descends_of_level
  · intro place hplace depth rest hdepth hrest
    obtain rfl : place = 0 := Nat.le_zero.mp hplace
    apply Reads.of_operand _ hrest
    simp only [enclose_zero, encloseTokens_zero, chars, List.length_append, List.length_cons]
      at hdepth ⊢
    cases depth with
    | zero => omega
    | succ depth =>
      have hright := h.parses 0 depth rest (by rw [enclose_zero]; omega) hrest
      rw [encloseTokens_zero] at hright
      apply reads_current.then
      apply (reads_advance _).then
      rw [assign_actions]
      exact reads_assignment hright sign _ _ _
  · -- nor below the first
    intro depth rest acts final level hdepth hrungs
    have hlength := congrArg List.length hrungs
    simp [Expr.level, rungs, levels] at hlength

/-- Only a literal starts with a number in the place of an operand. -/
theorem literal_of_head {e : Expr} {rest : List Token} {v : Value}
    (h : (encloseTokens 11 e e.tokens ++ rest).head? = some (.number v)) :
    e.negated? = negatedLiteral? v := by
  cases e with
  | literal n =>
    cases h
    rfl
  | binary op l r => cases op <;> cases h
  | name | unary | call | assign => cases h

/-- A minus sign before an operand that takes no sign. -/
theorem reads_negation {operand : Reading Unit} {ts rest : List Token} {acts : List Action}
    (hhead : ∀ v, ts.head? = some (.number v) → negatedLiteral? v = none)
    (h : Reads operand ts acts () rest) :
    Reads (negation operand) ts (acts ++ [.operate (.arithmetic .neg)]) () rest := by
  apply reads_current.then
  cases ts with
  | nil => exact h.bind (reads_emit _)
  | cons t ts =>
    cases t with
    | number v =>
      simp only [List.head?_cons, hhead v rfl]
      exact h.bind (reads_emit _)
    | symbol | name | call | placeholder => exact h.bind (reads_emit _)

/-- A minus sign before a number that takes it. -/
theorem reads_negative {v value : Value} (h : negatedLiteral? v = some value)
    (operand : Reading Unit) (rest : List Token) :
    Reads (negation operand) (.number v :: rest) [.push value] () rest := by
  apply reads_current.then
  simp only [List.head?_cons, h]
  apply (reads_advance _).then
  exact reads_emit _

theorem descends_unary {e : Expr} (h : Descends dialect e) (op : UnaryOp) :
    Descends dialect (.unary op e) := by
  apply descends_operand rfl
  intro depth rest hdepth hrest
  have hinner : Reads (operand dialect depth) (encloseTokens 11 e e.tokens ++ rest) e.actions ()
      rest := by
    apply h.parses 11 depth rest _ hrest
    simp only [chars, List.length_append, List.length_cons] at hdepth
    omega
  apply reads_current.then
  cases op with
  | plus => exact (reads_advance _).then hinner
  | not => exact (reads_advance _).then (hinner.bind (reads_emit _))
  | minus =>
    apply (reads_advance _).then
    cases hneg : e.negated? with
    | none =>
      simp only [actions, hneg]
      apply reads_negation _ hinner
      intro v hv
      rw [← literal_of_head hv, hneg]
    | some v =>
      simp only [actions, hneg]
      cases e with
      | literal n => exact reads_negative hneg _ rest
      | name | unary | binary | call | assign => cases hneg

theorem descends_binary {l r : Expr} (hl : Descends dialect l) (hr : Descends dialect r)
    (op : BinaryOp) : Descends dialect (.binary op l r) := by
  obtain ⟨level, hrungs, hlevel⟩ := op.rungs_level
  have hself : op.level ≤ (binary op l r).level := Nat.le_refl _
  have hchain : Chains dialect (.binary op l r) op.level := by
    intro depth rest acts final level' hdepth hrungs' hrest hloop
    obtain rfl : level' = level := by
      rw [hrungs] at hrungs'
      exact (List.cons.inj hrungs').1.symm
    rw [encloseTokens_of_le hself]
    simp only [enclose_of_le hself, chars, List.length_append, List.length_cons] at hdepth
    -- the right operand is one round of the loop, the left one comes before it
    have hright := hr.parses (op.level + 1) depth rest (by omega) hrest
    have hround := hloop.step hlevel hright (by simp)
    have hleft := hl.chains op.level depth _ _ _ _ (by omega) hrungs (follows_operator op _) hround
    simpa [tokens, actions] using hleft
  apply descends_of_level
  · intro place hplace depth rest hdepth hrest
    have hparses := hchain.parses hrungs depth rest
    rw [enclose_of_le hself, encloseTokens_of_le hself] at hparses
    rw [enclose_of_le hplace] at hdepth
    rw [encloseTokens_of_le hplace]
    exact (hparses hdepth (hrest.mono hplace)).loosen hplace hrest
  · exact hchain

theorem reads_wholeText {operand : Reading Unit} {ts : List Token} {acts : List Action}
    (h : Reads (expression operand) ts acts () []) : Reads (wholeText operand) ts acts () [] := by
  apply reads_settle.then
  apply h.closing
  apply reads_current.then
  exact reads_ending.then (reads_pure ())

/-- An argument is a text of its own, with its own tokens. -/
theorem reads_within {operand : Reading Unit} {text : List Char} {ts : List Token}
    {acts : List Action} (htokens : Tokens.ofText text = ⟨ts, .done⟩)
    (h : Reads (expression operand) ts acts () []) (rest : List Token) :
    Reads (within text (wholeText operand)) rest acts () rest := by
  have hwhole := reads_wholeText h
  unfold Reads at hwhole ⊢
  simp [within, htokens, hwhole, Except.map]

theorem reads_arguments {operand : Reading Unit} (function : String) {rest : List Token}
    {texts : List (List Char)} {acts : List (List Action)}
    (h : List.Forall₂ (fun text acts => text ≠ [] ∧
      Reads (within text (wholeText operand)) rest acts () rest) texts acts) :
    Reads (arguments operand function texts) rest acts.flatten () rest := by
  induction h with
  | nil => exact reads_pure ()
  | @cons text acts texts more hfirst _ ih =>
    have hne : text.isEmpty = false := by simpa using hfirst.1
    simp only [arguments, hne, List.flatten_cons]
    exact hfirst.2.bind ih

/-- A call of a function, given how to read its arguments. -/
theorem reads_call (f : FreeFunction) {n : Nat} (hn : f.builtin.arity.admits n = true)
    {args : Fin n → Expr} {operand : Reading Unit}
    (h : ∀ i, Reads (expression operand) (args i).tokens (args i).actions () [])
    (rest : List Token) :
    Reads (SignalCalc.call dialect operand f.builtin.name
      (argumentText (List.ofFn fun i => (args i).chars))) rest (call f hn args).actions () rest := by
  have hsplit := (arguments_of_spelled (f.count_ne_zero hn) fun i => (args i).spelled).splitArguments
  simp only [SignalCalc.call, Builtin.lookup?_name _ f.listed, builtinCall, hsplit, List.length_ofFn,
    checkArity, hn, if_true, f.anywhere, demandGate, Gate.demand?, actions, List.append_assoc]
  apply (reads_pure ()).then
  apply (reads_pure ()).then
  have hargs : List.Forall₂ (fun text acts => text ≠ [] ∧
      Reads (within text (wholeText operand)) rest acts () rest)
      (List.ofFn fun i => (args i).chars) (List.ofFn fun i => (args i).actions) := by
    rw [List.forall₂_iff_get]
    refine ⟨by simp, fun i _ _ => ?_⟩
    simp only [List.get_eq_getElem, List.getElem_ofFn]
    exact ⟨(args _).spelled.tight.ne_nil, reads_within (args _).spelled.lexes.ofText (h _) rest⟩
  apply (reads_arguments f.builtin.name hargs).bind
  by_cases hnear : f.builtin.op = .math .near ∧ n = 2
  · simp only [Bool.and_eq_true, decide_eq_true_eq, hnear, and_self, if_true]
    exact (reads_emit _).bind (reads_emit _)
  · simp only [Bool.and_eq_true, decide_eq_true_eq, hnear, if_false]
    exact reads_emit _

theorem descends_call (f : FreeFunction) {n : Nat} (hn : f.builtin.arity.admits n = true)
    {args : Fin n → Expr} (h : ∀ i, Descends dialect (args i)) :
    Descends dialect (.call f hn args) := by
  apply descends_operand rfl
  intro depth rest hdepth hrest
  have hargs : ∀ i, Reads (expression (operand dialect depth)) (args i).tokens (args i).actions ()
      [] := by
    intro i
    have hlength := length_le_argumentText (List.mem_ofFn.mpr ⟨i, rfl⟩ :
      (args i).chars ∈ List.ofFn fun i => (args i).chars)
    simp only [chars, List.length_append, List.length_cons] at hdepth
    have hread := (h i).parses 0 depth [] (by rw [enclose_zero]; omega) (follows_nil 0)
    rwa [encloseTokens_zero, List.append_nil] at hread
  apply reads_current.then
  apply (reads_advance _).then
  exact reads_call f hn hargs rest

/-- The descent reads every expression in every place. -/
theorem descent (dialect : Dialect) (e : Expr) : Descends dialect e := by
  induction e with
  | literal n => exact descends_literal n
  | name x => exact descends_name x
  | unary op e ih => exact descends_unary ih op
  | binary op l r ihl ihr => exact descends_binary ihl ihr op
  | call f h args ih => exact descends_call f h ih
  | assign sign x e ih => exact descends_assign ih sign x

end Productions

end Expr

/-- The script of a text, by its tokens. -/
theorem Script.ofText_of_reads {dialect : Dialect} {cs : List Char} {ts : List Token}
    {acts : List Action} (htokens : Tokens.ofText cs = ⟨ts, .done⟩)
    (h : Reads (expression (operand dialect (cs.length + 1))) ts acts () []) :
    Script.ofText dialect (String.ofList cs) = ⟨acts, none⟩ := by
  have hwhole := Expr.reads_wholeText h
  unfold Reads at hwhole
  simp [Script.ofText, htokens, hwhole]

/-- The script of a written expression are the actions of its tree. -/
theorem Script.ofText_text (dialect : Dialect) (e : Expr) :
    Script.ofText dialect e.text = ⟨e.actions, none⟩ := by
  have hread := (e.descent dialect).parses 0 (e.chars.length + 1) [] (by simp [Expr.enclose_zero])
    (follows_nil 0)
  rw [Expr.encloseTokens_zero, List.append_nil] at hread
  exact Script.ofText_of_reads e.spelled.lexes.ofText hread

end SignalCalc
