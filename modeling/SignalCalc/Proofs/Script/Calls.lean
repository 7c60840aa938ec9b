import SignalCalc.Proofs.Plugin.Numbering
import SignalCalc.Proofs.Script.Balance

/-! # Calls

How the text `name(a,b,c)` is read, for any name and for texts that are equations by themselves. Such
texts are balanced, so that they are found again between the commas, and each of them has the actions
that it has by itself. The call adds what the signature of the function says; without a signature, or
with another number of arguments, it is refused at once.
-/

namespace SignalCalc

open Reading

/-! ## Signatures -/

/-- What calls of a function have in common, whose arguments are expressions. -/
structure Signature where
  arity : Arity
  gate : Gate
  /-- What is put in place of arguments that are left out. -/
  filling : Nat → List Value
  instruction : Nat → Instruction
  usesFrame : Bool

def Builtin.signature (b : Builtin) : Signature where
  arity := b.arity
  gate := b.gate
  filling count := if b.op = .math .near && count = 2 then [.ofFloat 0.0] else []
  instruction := b.instruction
  usesFrame := b.gate = .frame

def Plugin.signature (p : Plugin) : Signature where
  arity := p.arity
  gate := if p.usesFrame then .frame else .anywhere
  filling _ := []
  instruction _ := ⟨.plugin p.id, .absent⟩
  usesFrame := p.usesFrame

/-- The signature of a name, unless it belongs to a function that reads its own argument text. -/
def Registry.signature? (plugins : Registry) (name : String) : Option Signature :=
  match Builtin.lookup? name with
  | some b => some b.signature
  | none => if (Special.lookup? name).isSome then none else (plugins.lookup? name).map (·.signature)

def Gate.actions (gate : Gate) (function : String) : List Action :=
  gate.demand?.toList.map (.demand · function)

def Signature.actions (f : Signature) (name : String) (count : Nat) (args : List Action) :
    List Action :=
  f.gate.actions name ++ (args ++ ((f.filling count).map .push ++
    [.invoke (f.instruction count) count f.usesFrame]))

theorem Builtin.name_of_lookup? {name : String} {b : Builtin} (h : Builtin.lookup? name = some b) :
    b.name = name := by
  simpa using List.find?_some h

/-! ## Reading a call -/

section Reads

variable {operand : Reading Unit} {ts : List Token} {acts : List Action} {args : List Char}

theorem reads_demandGate (gate : Gate) (function : String) (ts : List Token) :
    Reads (demandGate gate function) ts (gate.actions function) () ts := by
  cases gate <;> rfl

theorem reads_checkArity {arity : Arity} {got : Nat} (h : arity.admits got = true)
    (function : String) (ts : List Token) : Reads (checkArity function arity got) ts [] () ts := by
  rw [checkArity, if_pos h]
  exact reads_pure ()

theorem checkArity_refused {arity : Arity} {got : Nat} (h : arity.admits got = false)
    (function : String) (ts : Tokens) :
    checkArity function arity got ts = ⟨[], .error (.arity function arity got)⟩ := by
  rw [checkArity, if_neg (by simp [h])]
  rfl

theorem reads_builtinCall {b : Builtin}
    (hargs : Reads (arguments operand b.name (splitArguments args)) ts acts () ts)
    (h : b.arity.admits (splitArguments args).length = true) :
    Reads (builtinCall operand b args) ts
      (b.signature.actions b.name (splitArguments args).length acts) () ts := by
  apply (reads_checkArity h b.name ts).then
  apply (reads_demandGate b.gate b.name ts).bind
  apply hargs.bind
  by_cases hnear : (b.op = .math .near && (splitArguments args).length = 2) = true
  · simp only [Builtin.signature, hnear, if_true]
    exact (reads_emit _).bind (reads_emit _)
  · simp only [Builtin.signature, hnear]
    exact reads_emit _

theorem reads_pluginCall {plugins : Registry} {name : String} {p : Plugin}
    (hp : plugins.lookup? name = some p)
    (hargs : Reads (arguments operand name (splitArguments args)) ts acts () ts)
    (h : p.arity.admits (splitArguments args).length = true) :
    Reads (pluginCall plugins operand name args) ts
      (p.signature.actions name (splitArguments args).length acts) () ts := by
  unfold pluginCall
  rw [hp]
  apply (reads_checkArity h name ts).then
  apply (reads_demandGate _ name ts).bind
  apply hargs.bind
  exact reads_emit _

end Reads

section Call

variable {dialect : Dialect} {operand : Reading Unit} {name : String} {f : Signature}
  {ts : List Token} {acts : List Action} {args : List Char}

theorem Registry.signature?_cases {plugins : Registry} (h : plugins.signature? name = some f) :
    (∃ b, Builtin.lookup? name = some b ∧ f = b.signature) ∨
      Builtin.lookup? name = none ∧ Special.lookup? name = none ∧
        ∃ p, plugins.lookup? name = some p ∧ f = p.signature := by
  unfold Registry.signature? at h
  cases hb : Builtin.lookup? name with
  | some b =>
    rw [hb] at h
    exact .inl ⟨b, rfl, (Option.some.inj h).symm⟩
  | none =>
    rw [hb] at h
    cases hs : Special.lookup? name with
    | some s => simp [hs] at h
    | none =>
      simp only [hs, Option.isSome_none, Bool.false_eq_true, if_false, Option.map_eq_some_iff] at h
      obtain ⟨p, hp, rfl⟩ := h
      exact .inr ⟨rfl, rfl, p, hp, rfl⟩

theorem reads_call (hf : dialect.plugins.signature? name = some f)
    (hargs : Reads (arguments operand name (splitArguments args)) ts acts () ts)
    (h : f.arity.admits (splitArguments args).length = true) :
    Reads (call dialect operand name args) ts (f.actions name (splitArguments args).length acts) ()
      ts := by
  unfold call
  obtain ⟨b, hb, rfl⟩ | ⟨hb, hs, p, hp, rfl⟩ := Registry.signature?_cases hf
  · obtain rfl := Builtin.name_of_lookup? hb
    rw [hb]
    exact reads_builtinCall hargs h
  · rw [hb, hs]
    exact reads_pluginCall hp hargs h

/-- The number of arguments is asked for first. -/
theorem call_arity (hf : dialect.plugins.signature? name = some f)
    (h : f.arity.admits (splitArguments args).length = false) (us : Tokens) :
    call dialect operand name args us =
      ⟨[], .error (.arity name f.arity (splitArguments args).length)⟩ := by
  unfold call
  obtain ⟨b, hb, rfl⟩ | ⟨hb, hs, p, hp, rfl⟩ := Registry.signature?_cases hf
  · obtain rfl := Builtin.name_of_lookup? hb
    rw [hb]
    exact bind_of_fault (checkArity_refused h b.name us)
  · rw [hb, hs]
    dsimp only
    unfold pluginCall
    rw [hp]
    exact bind_of_fault (checkArity_refused h name us)

theorem call_unknown (hb : Builtin.lookup? name = none) (hs : Special.lookup? name = none)
    (hp : dialect.plugins.lookup? name = none) (us : Tokens) :
    call dialect operand name args us = ⟨[], .error (.text (.unknownFunction name))⟩ := by
  unfold call
  rw [hb, hs]
  dsimp only
  unfold pluginCall
  rw [hp]
  rfl

end Call

/-! ## Functions that read their own argument text -/

/-- With no tokens at hand, the piece leaves none, or its fault is none of an unknown function. -/
def Acquainted {α : Type} (r : Reading α) : Prop :=
  match (r ⟨[], .done⟩).result with
  | .ok (_, rest) => rest = ⟨[], .done⟩
  | .error f => ∀ x, f ≠ .text (.unknownFunction x)

section Acquainted

variable {α β : Type}

theorem acquainted_of_reads {r : Reading α} {acts : List Action} {a : α}
    (h : Reads r [] acts a []) : Acquainted r := by
  rw [Acquainted, congrArg Step.result h]

theorem Acquainted.bind {r : Reading α} {next : α → Reading β} (hr : Acquainted r)
    (hnext : ∀ a, Acquainted (next a)) : Acquainted (r >>= next) := by
  unfold Acquainted at hr
  cases hfirst : (r ⟨[], .done⟩).result with
  | error f =>
    rw [hfirst] at hr
    rw [Acquainted, bind_of_error hfirst]
    exact hr
  | ok pair =>
    obtain ⟨a, rest⟩ := pair
    rw [hfirst] at hr
    obtain rfl := hr
    have hread : r ⟨[], .done⟩ = ⟨(r ⟨[], .done⟩).actions, .ok (a, ⟨[], .done⟩)⟩ := by rw [← hfirst]
    rw [Acquainted, bind_of_ok hread]
    exact hnext a

theorem acquainted_emit (a : Action) : Acquainted (Reading.emit a) :=
  acquainted_of_reads (reads_emit a)

/-- With nothing behind it, a variable is read. -/
theorem acquainted_variableUse (operand : Reading Unit) (target : Target) (load store : AccessOp) :
    Acquainted (variableUse operand target load store) :=
  acquainted_of_reads (reads_current.then (reads_emit _))

/-- Acquaintance is passed on from piece to piece. -/
def acquaintance : Steps where
  Place := Unit
  Later _ _ := True
  Rel _ _ _ _ r _ := Acquainted r
  later_trans _ _ := trivial
  done a := acquainted_of_reads (reads_pure a)
  bind hr hnext := hr.bind fun a => hnext a () trivial
  raise h _ := h
  emit _ _ _ := acquainted_emit _
  ask _ hnext := (acquainted_emit _).bind fun _ => hnext
  refuse _ hknown := hknown

theorem acquainted_specialCall {operand : Reading Unit} {name : String} {args : List Char}
    {s : Special} (hs : Special.lookup? name = some s)
    (hargs : ∀ count, Acquainted (arguments operand name ((splitArguments args).drop count))) :
    Acquainted (specialCall operand name args s) := by
  obtain ⟨row, hrow, hspecial⟩ := Option.map_eq_some_iff.mp hs
  have hvariable : ∀ g target, acquaintance.Rel g 0 1 ()
      (variableUse operand target .readPhysical .writePhysical)
      (variableUse operand target .readPhysical .writePhysical) :=
    fun _ target => acquainted_variableUse operand target .readPhysical .writePhysical
  have hcounted : ∀ g count, acquaintance.Rel g 0 ((splitArguments args).drop count).length ()
      (arguments operand name ((splitArguments args).drop count))
      (arguments operand name ((splitArguments args).drop count)) :=
    fun _ count => hargs count
  exact Steps.specialCall (S := acquaintance) (g := false)
    ⟨row, List.mem_of_find?_eq_some hrow, hspecial⟩ hvariable hcounted

end Acquainted

/-! ## The text of a call -/

def callText (name : String) (texts : List String) : String :=
  name ++ "(" ++ ",".intercalate texts ++ ")"

def callArguments (texts : List String) : List Char := Text.trim (joinCommas (texts.map (·.toList)))

theorem toList_callText (name : String) (texts : List String) :
    (callText name texts).toList =
      name.toList ++ '(' :: (joinCommas (texts.map (·.toList)) ++ [')']) := by
  simp [callText, joinCommas, String.toList_intercalate]

/-- Nothing is read where there are no tokens. -/
theorem not_reads_nil {dialect : Dialect} {depth : Nat} {acts : List Action} {rest : List Token} :
    ¬Reads (expression (operand dialect depth)) [] acts () rest := by
  intro h
  obtain ⟨f, hfault⟩ : ∃ f, operand dialect depth ⟨[], .done⟩ = ⟨[], .error f⟩ := by
    cases depth with
    | zero => exact ⟨_, rfl⟩
    | succ depth => exact ⟨_, rfl⟩
  rw [Reads, expression, ladder_of_fault hfault] at h
  cases h

section Texts

variable {dialect : Dialect} {name : String} {texts : List String}

theorem Script.balanced {text : String} (h : (Script.ofText dialect text).fault = none) :
    Balanced text.toList := by
  obtain ⟨hending, hread⟩ := Script.reads_of_ofText h
  exact balanced_of_reads (by rw [← hending]) hread

/-- An equation without a fault, as an argument: blanks around it do not count, and any depth will do
that is enough for its text. -/
theorem Script.reads_argument {text : String} (h : (Script.ofText dialect text).fault = none)
    {depth : Nat} (hdepth : (Text.trim text.toList).length < depth) (rest : List Token) :
    Reads (within (Text.trim text.toList) (wholeText (operand dialect depth))) rest
      (Script.ofText dialect text).actions () rest := by
  obtain ⟨hending, hread⟩ := Script.reads_of_ofText h
  have htokens : Tokens.ofText text.toList = ⟨(Tokens.ofText text.toList).tokens, .done⟩ := by
    rw [← hending]
  have htrim := ofText_trim htokens
  have hweight := Tokens.weight_ofText (Text.trim text.toList)
  rw [htrim] at hweight
  have henclosed := hread.enclosed (Nat.lt_of_le_of_lt hweight hdepth) (.inl rfl)
  rw [List.append_nil] at henclosed
  exact Expr.reads_within htrim henclosed rest

theorem Script.trim_ne_nil {text : String} (h : (Script.ofText dialect text).fault = none) :
    Text.trim text.toList ≠ [] := by
  obtain ⟨hending, hread⟩ := Script.reads_of_ofText h
  have htokens : Tokens.ofText text.toList = ⟨(Tokens.ofText text.toList).tokens, .done⟩ := by
    rw [← hending]
  have htrim := ofText_trim htokens
  intro hnil
  rw [hnil, ofText_nil] at htrim
  rw [← (Tokens.mk.inj htrim).1] at hread
  exact not_reads_nil hread

variable (hname : isVariableName name.toList = true)
  (htexts : ∀ text ∈ texts, (Script.ofText dialect text).fault = none)

include htexts

theorem splitArguments_callArguments : splitArguments (callArguments texts) =
    texts.map fun text => Text.trim text.toList := by
  rw [callArguments, splitArguments_trim, splitArguments_joinCommas, List.map_map]
  · rfl
  · simpa using fun text htext => Script.balanced (htexts text htext)
  · simpa using fun text htext => Script.trim_ne_nil (htexts text htext)

/-- Each argument of a call has less text than the call. -/
theorem length_argument_lt {text : String} (htext : text ∈ texts) :
    (Text.trim text.toList).length < (callText name texts).toList.length := by
  have hpiece : Text.trim text.toList ∈ splitArguments (callArguments texts) := by
    rw [splitArguments_callArguments htexts]
    exact List.mem_map_of_mem htext
  have hlength := length_le_of_mem_splitArguments hpiece
  have htrim := Text.length_trim_le (joinCommas (texts.map (·.toList)))
  rw [callArguments] at hlength
  simp only [toList_callText, List.length_append, List.length_cons]
  omega

theorem reads_texts {depth : Nat}
    (hdepth : ∀ text ∈ texts, (Text.trim text.toList).length < depth) (function : String)
    (rest : List Token) :
    Reads (arguments (operand dialect depth) function
        (texts.map fun text => Text.trim text.toList)) rest
      (texts.flatMap fun text => (Script.ofText dialect text).actions) () rest := by
  rw [List.flatMap_def]
  apply Expr.reads_arguments
  rw [List.forall₂_map_left_iff, List.forall₂_map_right_iff, List.forall₂_same]
  intro text htext
  exact ⟨Script.trim_ne_nil (htexts text htext),
    Script.reads_argument (htexts text htext) (hdepth text htext) rest⟩

include hname

/-- A call is one token. -/
theorem ofText_callText : Tokens.ofText (callText name texts).toList =
    ⟨[.call name (callArguments texts)], .done⟩ := by
  have hclosed : Closed (joinCommas (texts.map (·.toList))) := by
    apply closed_joinCommas
    simpa using fun text htext => Script.balanced (htexts text htext)
  have hnext : Token.next (name.toList ++ '(' :: (joinCommas (texts.map (·.toList)) ++ [')'])) =
      nameOrCall name.toList ('(' :: (joinCommas (texts.map (·.toList)) ++ [')'])) :=
    next_name_delimiter rfl hname
  rw [nameOrCall, hclosed.splitClose? [], String.ofList_toList] at hnext
  rw [toList_callText, ofText_token hnext, ofText_nil]
  rfl

namespace Script

/-! ## The script of a call -/

-- the depth at which the descent arrives inside of the call
variable {depth : Nat} (hdepth : (callText name texts).toList.length = depth)

include hdepth

/-- The script of a text that is one call is what the call lists, and its fault. -/
theorem ofText_of_reads_call {acts : List Action}
    (h : Reads (call dialect (operand dialect depth) name (callArguments texts)) [] acts () []) :
    ofText dialect (callText name texts) = ⟨acts, none⟩ := by
  have hoperand : Reads (operand dialect (depth + 1)) [.call name (callArguments texts)] acts ()
      [] := by
    rw [Reads, operand_call]
    exact h
  rw [← hdepth] at hoperand
  have hscript := ofText_of_reads (ofText_callText hname htexts) hoperand.alone
  rwa [String.ofList_toList] at hscript

theorem ofText_of_call_fault {acts : List Action} {f : SourceFault}
    (h : call dialect (operand dialect depth) name (callArguments texts) ⟨[], .done⟩ =
      ⟨acts, .error f⟩) :
    ofText dialect (callText name texts) = ⟨acts, some f⟩ := by
  rw [← operand_call] at h
  have hwhole : wholeText (operand dialect (depth + 1))
      (Tokens.ofText (callText name texts).toList) = ⟨acts, .error f⟩ := by
    rw [ofText_callText hname htexts, wholeText, reads_settle.hand_over]
    exact bind_of_fault (ladder_of_fault h levels)
  rw [← hdepth] at hwhole
  simp only [ofText, hwhole]

omit hdepth

/-- A call with an accepted number of arguments: the demand of its function, the actions of the
arguments, and the instruction. -/
theorem ofText_call {f : Signature} (hf : dialect.plugins.signature? name = some f)
    (h : f.arity.admits texts.length = true) :
    ofText dialect (callText name texts) =
      ⟨f.actions name texts.length (texts.flatMap fun text => (ofText dialect text).actions),
        none⟩ := by
  have hsplit := splitArguments_callArguments htexts
  have hlength : (splitArguments (callArguments texts)).length = texts.length := by
    rw [hsplit, List.length_map]
  have hdepth : ∀ text ∈ texts, (Text.trim text.toList).length <
      (callText name texts).toList.length := fun _ => length_argument_lt htexts
  have hargs := reads_texts htexts hdepth name []
  rw [← hsplit] at hargs
  rw [← hlength] at h ⊢
  exact ofText_of_reads_call hname htexts rfl (reads_call hf hargs h)

/-- With another number of arguments it is refused for that, before anything else is looked at. -/
theorem ofText_call_arity {f : Signature} (hf : dialect.plugins.signature? name = some f)
    (h : f.arity.admits texts.length = false) :
    ofText dialect (callText name texts) = ⟨[], some (.arity name f.arity texts.length)⟩ := by
  have hlength : (splitArguments (callArguments texts)).length = texts.length := by
    rw [splitArguments_callArguments htexts, List.length_map]
  rw [← hlength] at h ⊢
  exact ofText_of_call_fault hname htexts rfl (call_arity hf h _)

theorem ofText_call_unknown (hb : Builtin.lookup? name = none) (hs : Special.lookup? name = none)
    (hp : dialect.plugins.lookup? name = none) :
    ofText dialect (callText name texts) = ⟨[], some (.text (.unknownFunction name))⟩ :=
  ofText_of_call_fault hname htexts rfl (call_unknown hb hs hp _)

/-- A function that reads its own argument text may refuse it, but not as unknown. -/
theorem ofText_call_special {s : Special} (hb : Builtin.lookup? name = none)
    (hs : Special.lookup? name = some s) (x : String) :
    (ofText dialect (callText name texts)).fault ≠ some (.text (.unknownFunction x)) := by
  generalize hdepth : (callText name texts).toList.length = depth
  have hargs : ∀ count, Acquainted (arguments (operand dialect depth) name
      ((splitArguments (callArguments texts)).drop count)) := by
    intro count
    rw [splitArguments_callArguments htexts, ← List.map_drop]
    apply acquainted_of_reads
    exact reads_texts (fun text htext => htexts text (List.mem_of_mem_drop htext))
      (fun text htext => hdepth ▸ length_argument_lt htexts (List.mem_of_mem_drop htext)) name []
  have hcall : Acquainted (call dialect (operand dialect depth) name (callArguments texts)) := by
    rw [call, hb, hs]
    exact acquainted_specialCall hs hargs
  rw [Acquainted] at hcall
  cases hstep : call dialect (operand dialect depth) name (callArguments texts) ⟨[], .done⟩ with
  | mk acts result =>
    rw [hstep] at hcall
    -- the call is the whole text, so that its fault is that of the script
    cases result with
    | error f =>
      rw [ofText_of_call_fault hname htexts hdepth hstep]
      exact fun heq => hcall x (Option.some.inj heq)
    | ok pair =>
      obtain ⟨_, rest⟩ := pair
      obtain rfl := hcall
      rw [ofText_of_reads_call hname htexts hdepth hstep]
      intro heq
      cases heq

end Script

end Texts

end SignalCalc
