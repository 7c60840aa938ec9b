import SignalCalc.Proofs.Equation.References
import SignalCalc.Proofs.Token.Printing

namespace SignalCalc

open DataType (IsWidth)

/-! ## Numbers without a suffix -/

namespace Numeral

theorem isReal_plainValue (n : Nat) : (plainValue n).isReal = false := by
  unfold plainValue
  repeat' split
  all_goals rfl

theorem toInt64_plainValue (n : Nat) : (plainValue n).toInt64 = Int64.ofNat n := by
  unfold plainValue
  repeat' split
  all_goals rfl

end Numeral

/-! ## Signs -/

theorem Int64.ofNat_natAbs {i : Int64} (h : 0 ≤ i.toInt) : Int64.ofNat i.toInt.natAbs = i := by
  rw [← Int64.ofInt_eq_ofNat, Int.natAbs_of_nonneg h, Int64.ofInt_toInt]

theorem Int64.neg_ofNat_natAbs {i : Int64} (h : i.toInt < 0) :
    -Int64.ofNat i.toInt.natAbs = i := by
  rw [← Int64.ofInt_eq_ofNat, ← Int64.ofInt_neg, Int.ofNat_natAbs_of_nonpos (Int.le_of_lt h),
    Int.neg_neg, Int64.ofInt_toInt]

/-- A sign in front of a literal does what negation does. -/
theorem toInt64_negatedLiteral {v w : Value} (hv : v.isReal = false)
    (h : negatedLiteral? v = some w) : w.toInt64 = -v.toInt64 := by
  obtain ⟨scalar, width⟩ := v
  cases scalar with
  | signed => cases h; rfl
  | unsigned => cases h
  | real => cases hv

theorem Value.toInt64_neg {v : Value} (hv : v.isReal = false) : v.neg.toInt64 = -v.toInt64 := by
  obtain ⟨scalar, width⟩ := v
  cases scalar with
  | signed | unsigned => rfl
  | real => cases hv

/-! ## Tokens -/

/-- The tokens of a decimal text: its sign, and the digits with what goes on with them. -/
theorem ofText_integerChars {i : Int} {suffix : List Char} {v : Value}
    (h : Numeral.read (Nat.toDigits 10 i.natAbs ++ suffix) = .value v []) :
    Tokens.ofText (Value.integerChars i ++ suffix) =
      ⟨if i < 0 then [.symbol .minus, .number v] else [.number v], .done⟩ := by
  obtain ⟨c, cs, hcs, hc⟩ := Numeral.exists_toDigits_eq_cons i.natAbs
  have hdigits : Tokens.ofText (c :: (cs ++ suffix)) = ⟨[.number v], .done⟩ := by
    rw [hcs, List.cons_append] at h
    rw [ofText_token (next_number hc h), ofText_nil]
    rfl
  by_cases hneg : i < 0
  · have hminus : Token.next ('-' :: c :: (cs ++ suffix)) =
        .token (.symbol .minus) (c :: (cs ++ suffix)) :=
      next_sign (.inr rfl) (ne_of_class hc rfl) (cs ++ suffix)
    simp only [Value.integerChars, hneg, if_true, hcs, List.cons_append]
    rw [ofText_token hminus, hdigits]
    rfl
  · simp only [Value.integerChars, hneg, if_false, hcs, List.cons_append]
    exact hdigits

/-! ## Literals -/

theorem natAbs_le_wordMax (i : Int64) : i.toInt.natAbs ≤ Numeral.wordMax := by
  have hlow := i.le_toInt
  have hhigh := i.toInt_lt
  simp only [Numeral.wordMax]
  omega

/-- The sign of a negative value goes into the number behind it. -/
theorem reads_signed (i : Int64) {width : UInt8} (hwidth : IsWidth width) :
    Tokens.ofText (Value.integerChars i.toInt ++ Numeral.suffixChars true width) =
        ⟨[.number ⟨.signed i, width⟩], .done⟩ ∨
      ∃ v, Tokens.ofText (Value.integerChars i.toInt ++ Numeral.suffixChars true width) =
          ⟨[.symbol .minus, .number v], .done⟩ ∧
        negatedLiteral? v = some ⟨.signed i, width⟩ := by
  have htokens := ofText_integerChars (Numeral.read_suffixed (natAbs_le_wordMax i) true hwidth)
  by_cases hneg : i.toInt < 0
  · rw [if_pos hneg] at htokens
    refine .inr ⟨_, htokens, ?_⟩
    simp only [negatedLiteral?, if_true, Int64.neg_ofNat_natAbs hneg]
  · rw [if_neg hneg, if_pos rfl, Int64.ofNat_natAbs (Int.not_lt.mp hneg)] at htokens
    exact .inl htokens

theorem reads_unsigned (n : UInt64) {width : UInt8} (hwidth : IsWidth width) :
    Tokens.ofText (Value.integerChars n.toNat ++ Numeral.suffixChars false width) =
      ⟨[.number ⟨.unsigned n, width⟩], .done⟩ := by
  have hn : (n.toNat : Int).natAbs ≤ Numeral.wordMax := by
    have := n.toNat_lt
    simp only [Numeral.wordMax, Int.natAbs_natCast]
    omega
  have htokens := ofText_integerChars (Numeral.read_suffixed hn false hwidth)
  rwa [if_neg (Int.not_lt.mpr (Int.natCast_nonneg _)), if_neg (by decide), Int.natAbs_natCast,
    UInt64.ofNat_toNat] at htokens

def Literal.signed (i : Int64) {width : UInt8} (hwidth : IsWidth width) : Literal :=
  ⟨Value.integerChars i.toInt ++ Numeral.suffixChars true width, ⟨.signed i, width⟩,
    reads_signed i hwidth⟩

def Literal.unsigned (n : UInt64) {width : UInt8} (hwidth : IsWidth width) : Literal :=
  ⟨Value.integerChars n.toNat ++ Numeral.suffixChars false width, ⟨.unsigned n, width⟩,
    .inl (reads_unsigned n hwidth)⟩

theorem exists_literal_text {v : Value} (hv : v.isReal = false) (hwidth : IsWidth v.width) :
    ∃ l : Literal, String.ofList l.chars = v.text ∧ l.value = v := by
  obtain ⟨scalar, width⟩ := v
  cases scalar with
  | signed i => exact ⟨.signed i hwidth, (Value.suffixedText_eq i.toInt true width).symm, rfl⟩
  | unsigned n => exact ⟨.unsigned n hwidth, (Value.suffixedText_eq n.toNat false width).symm, rfl⟩
  | real => cases hv

/-! ## Scripts -/

theorem Script.ofText_literal (dialect : Dialect) (l : Literal) :
    Script.ofText dialect (String.ofList l.chars) = ⟨[.push l.value], none⟩ := by
  have hdone : Tokens.ofText l.chars = ⟨(Tokens.ofText l.chars).tokens, .done⟩ := by
    obtain hplain | ⟨v, hsigned, -⟩ := l.reads
    · rw [hplain]
    · rw [hsigned]
  exact Script.ofText_of_reads hdone (reads_literal dialect l _)

theorem Script.ofText_integerText (dialect : Dialect) (i : Int64) :
    (∃ v, Script.ofText dialect (Value.integerText i.toInt) = ⟨[.push v], none⟩ ∧
        v.toInt64 = i) ∨
      ∃ v, Script.ofText dialect (Value.integerText i.toInt) =
          ⟨[.push v, .operate (.arithmetic .neg)], none⟩ ∧ v.neg.toInt64 = i := by
  have hread := Numeral.read_toDigits (natAbs_le_wordMax i) spaced_nil
  have htokens := ofText_integerChars hread
  have hreal := Numeral.isReal_plainValue i.toInt.natAbs
  have hvalue := Numeral.toInt64_plainValue i.toInt.natAbs
  rw [List.append_nil] at htokens
  rw [Value.integerText_eq]
  generalize Numeral.plainValue i.toInt.natAbs = v at htokens hreal hvalue
  -- a minus sign goes into the literal, if the literal has a negative
  by_cases hneg : i.toInt < 0
  · rw [if_pos hneg] at htokens
    cases hsigned : negatedLiteral? v with
    | some w =>
      let l : Literal := ⟨_, w, .inr ⟨v, htokens, hsigned⟩⟩
      refine .inl ⟨w, Script.ofText_literal dialect l, ?_⟩
      rw [toInt64_negatedLiteral hreal hsigned, hvalue, Int64.neg_ofNat_natAbs hneg]
    | none =>
      refine .inr ⟨v, Script.ofText_of_reads htokens (Reads.alone ?_), ?_⟩
      · -- the digits are an operand of their own, which takes no sign
        have hoperand : Reads (operand dialect (Value.integerChars i.toInt).length) [.number v]
            [.push v] () [] := by
          rw [Value.integerChars, if_pos hneg, List.length_cons]
          apply reads_current.then
          exact (reads_advance _).then (reads_emit _)
        apply reads_current.then
        apply (reads_advance _).then
        refine Expr.reads_negation (fun w hw => ?_) hoperand
        cases hw
        exact hsigned
      · rw [Value.toInt64_neg hreal, hvalue, Int64.neg_ofNat_natAbs hneg]
  · rw [if_neg hneg] at htokens
    let l : Literal := ⟨_, v, .inl htokens⟩
    refine .inl ⟨v, Script.ofText_literal dialect l, ?_⟩
    rw [hvalue, Int64.ofNat_natAbs (Int.not_lt.mp hneg)]

/-! ## Programs and values -/

section Outcomes

variable {σ : Type} [VariableStore σ] {cfg : Setting} {source : String} {v : Value}

theorem compile_pushed (h : Script.ofText cfg.dialect source = ⟨[.push v], none⟩)
    (scope : Option Scope) (s : σ) :
    compile cfg scope source s =
      ⟨.ok { code := [.literal v], source := source, lockHeld := cfg.options.lockHeld }, s,
        scope⟩ := by
  rw [compile, Parser.read_eq_interpret, h]
  rfl

theorem compile_negated
    (h : Script.ofText cfg.dialect source = ⟨[.push v, .operate (.arithmetic .neg)], none⟩)
    (scope : Option Scope) (s : σ) :
    compile cfg scope source s =
      ⟨.ok { code := [.literal v, .plain (.arithmetic .neg)], source := source,
             lockHeld := cfg.options.lockHeld }, s, scope⟩ := by
  rw [compile, Parser.read_eq_interpret, h]
  rfl

theorem evaluate_pushed (h : Script.ofText cfg.dialect source = ⟨[.push v], none⟩)
    (scope : Option Scope) (s : σ) : evaluate cfg scope source s = ⟨.ok ⟨v, []⟩, s, scope⟩ := by
  rw [evaluate, Parser.read_eq_interpret, h]
  rfl

end Outcomes

/-- Printed integers are read back exactly, in every setting, scope and store.

The text of an integer value of one, two, four or eight bytes compiles to one instruction, which
pushes that value, and evaluates to it. The digits of a signed integer alone compile to a program
that gives an equal integer in every run. Nothing else comes of either: no warning, and no change to
the store or the scope. -/
theorem printed_integers_read_back {σ : Type} [VariableStore σ] (cfg : Setting)
    (scope : Option Scope) (s : σ) :
    (∀ v : Value, v.isReal = false → v.width ∈ [1, 2, 4, 8] →
        compile cfg scope v.text s =
            ⟨.ok { code := [.literal v], source := v.text, lockHeld := cfg.options.lockHeld }, s,
              scope⟩ ∧
          evaluate cfg scope v.text s = ⟨.ok ⟨v, []⟩, s, scope⟩) ∧
      ∀ i : Int64, ∃ p : Program,
        compile cfg scope (Value.integerText i.toInt) s = ⟨.ok p, s, scope⟩ ∧
          ∀ (plugins : Registry) (ctx : Context) (s' : σ), ∃ v : Value,
            (p.run plugins ctx s').result = .ok v ∧ v.toInt64 = i ∧
              (p.run plugins ctx s').store = s' := by
  constructor
  · intro v hv hwidth
    obtain ⟨l, htext, hvalue⟩ := exists_literal_text hv (by simpa [IsWidth] using hwidth)
    have hscript := Script.ofText_literal cfg.dialect l
    rw [htext, hvalue] at hscript
    exact ⟨compile_pushed hscript scope s, evaluate_pushed hscript scope s⟩
  · intro i
    obtain ⟨v, hscript, hv⟩ | ⟨v, hscript, hv⟩ := Script.ofText_integerText cfg.dialect i
    · exact ⟨_, compile_pushed hscript scope s, fun plugins ctx s' => ⟨v, rfl, hv, rfl⟩⟩
    · exact ⟨_, compile_negated hscript scope s, fun plugins ctx s' => ⟨v.neg, rfl, hv, rfl⟩⟩

/-- The least signed integer with and without its suffix, and the greatest unsigned one. -/
theorem printed_integers_read_back_extremes :
    let s : MemoryStore := {}
    evaluate {} none "-9223372036854775808i64" s =
        ⟨.ok ⟨.ofInt64 (-9223372036854775808), []⟩, s, none⟩ ∧
      evaluate {} none "18446744073709551615u64" s =
        ⟨.ok ⟨.ofUInt64 18446744073709551615, []⟩, s, none⟩ ∧
      ∃ p : Program, compile {} none "-9223372036854775808" s = ⟨.ok p, s, none⟩ ∧
        ∃ v : Value, (p.execute .empty s).result = .ok v ∧ v.toInt64 = -9223372036854775808 := by
  intro s
  obtain ⟨hsuffixed, hplain⟩ := printed_integers_read_back {} none s
  have hleast : (Value.ofInt64 (-9223372036854775808)).text = "-9223372036854775808i64" := by
    decide
  have hgreatest : (Value.ofUInt64 18446744073709551615).text = "18446744073709551615u64" := by
    decide
  have hdigits : Value.integerText (Int64.toInt (-9223372036854775808)) = "-9223372036854775808" := by
    decide
  refine ⟨?_, ?_, ?_⟩
  · rw [← hleast]
    exact (hsuffixed _ rfl (by decide)).2
  · rw [← hgreatest]
    exact (hsuffixed _ rfl (by decide)).2
  · obtain ⟨p, hcompile, hrun⟩ := hplain (-9223372036854775808)
    rw [hdigits] at hcompile
    obtain ⟨v, hresult, hv, -⟩ := hrun .empty p.context s
    exact ⟨p, hcompile, v, hresult, hv⟩

end SignalCalc
