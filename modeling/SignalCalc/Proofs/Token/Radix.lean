import Mathlib.Data.List.Forall2
import Mathlib.Data.List.TakeWhile
import Mathlib.Data.Nat.Digits.Defs
import SignalCalc.Proofs.Token.Numeral

namespace SignalCalc.Numeral

/-! ## Digits -/

/-- The character is the digit of this value, a letter in either case. -/
def Digit (base value : Nat) (c : Char) : Prop := value < base ∧ c.toLower = value.digitChar

theorem toNat_toLower (c : Char) :
    c.toLower.toNat = if 65 ≤ c.toNat ∧ c.toNat ≤ 90 then c.toNat + 32 else c.toNat := by
  have hrange : (c.val ≥ 'A'.val ∧ c.val ≤ 'Z'.val) ↔ 65 ≤ c.toNat ∧ c.toNat ≤ 90 := by
    simp [UInt32.le_iff_toNat_le]
  unfold Char.toLower
  by_cases h : 65 ≤ c.toNat ∧ c.toNat ≤ 90
  · rw [dif_pos (hrange.mpr h), if_pos h, ← Char.toNat_val, UInt32.toNat_add]
    have hval : c.val.toNat = c.toNat := rfl
    have hdistance : ('a'.val - 'A'.val).toNat = 32 := rfl
    omega
  · rw [dif_neg (fun hc => h (hrange.mp hc)), if_neg h]

theorem toNat_digitChar : ∀ value < 16,
    value.digitChar.toNat = if value < 10 then 48 + value else 87 + value := by
  decide

/-- The reading of a digit by the number of its character. -/
theorem digit?_eq (base : Nat) (c : Char) :
    digit? base c =
      (if 48 ≤ c.toNat ∧ c.toNat ≤ 57 then some (c.toNat - 48)
        else if 97 ≤ c.toNat ∧ c.toNat ≤ 122 then some (c.toNat - 87)
        else if 65 ≤ c.toNat ∧ c.toNat ≤ 90 then some (c.toNat - 55)
        else none).filter (· < base) := by
  have hlower : 97 ≤ c.toNat → c.toNat - 97 + 10 = c.toNat - 87 := by omega
  have hupper : 65 ≤ c.toNat → c.toNat - 65 + 10 = c.toNat - 55 := by omega
  simp only [digit?, Bool.and_eq_true, decide_eq_true_eq, Char.le_def, UInt32.le_iff_toNat_le,
    Char.toNat_val, Char.reduceVal, UInt32.reduceToNat, Char.reduceToNat]
  congr 1
  split
  · rfl
  · split
    · next h => rw [hlower h.1]
    · split
      · next h => rw [hupper h.1]
      · rfl

/-- Digits are read as they are written. -/
theorem digit?_eq_some_iff {base : Nat} (hbase : base ≤ 16) {c : Char} {value : Nat} :
    digit? base c = some value ↔ Digit base value c := by
  rw [digit?_eq, Option.filter_eq_some_iff, Digit, ← Char.toNat_inj, toNat_toLower,
    decide_eq_true_eq, and_comm]
  refine and_congr_right fun hvalue => ?_
  rw [toNat_digitChar value (by omega)]
  by_cases hdecimal : 48 ≤ c.toNat ∧ c.toNat ≤ 57
  · rw [if_pos hdecimal, Option.some.injEq, if_neg (by omega)]
    split <;> omega
  · rw [if_neg hdecimal]
    by_cases hlower : 97 ≤ c.toNat ∧ c.toNat ≤ 122
    · rw [if_pos hlower, Option.some.injEq, if_neg (by omega)]
      split <;> omega
    · rw [if_neg hlower]
      by_cases hupper : 65 ≤ c.toNat ∧ c.toNat ≤ 90
      · rw [if_pos hupper, if_pos hupper, Option.some.injEq]
        split <;> omega
      · rw [if_neg hupper, if_neg hupper]
        refine iff_of_false (by simp) ?_
        split <;> omega

theorem isDigit_iff {base : Nat} (hbase : base ≤ 16) {c : Char} :
    isDigit base c = true ↔ ∃ value, Digit base value c := by
  simp only [isDigit, Option.isSome_iff_exists, digit?_eq_some_iff hbase]

/-! ## Bases -/

/-- A text announces the base of its integer: `0x` in front of a hexadecimal digit, a `0` in any
other place, or nothing at all. -/
inductive Announced : Nat → List Char → List Char → Prop where
  | hexadecimal {x c : Char} {value : Nat} {more : List Char} (hx : x = 'x' ∨ x = 'X')
      (hc : Digit 16 value c) : Announced 16 ['0', x] (c :: more)
  | octal {body : List Char}
      (hbody : ∀ x c value more, body = x :: c :: more → x = 'x' ∨ x = 'X' → ¬Digit 16 value c) :
      Announced 8 ['0'] body
  | decimal {body : List Char} (hbody : body.head? ≠ some '0') : Announced 10 [] body

/-- The base that is read is the one announced. -/
theorem announced_base (cs : List Char) :
    ∃ mark, cs = mark ++ cs.drop (base cs).2 ∧ mark.length = (base cs).2 ∧
      Announced (base cs).1 mark (cs.drop (base cs).2) := by
  unfold base
  split
  · next x c more =>
    split
    · next h =>
      simp only [Bool.and_eq_true, Bool.or_eq_true, beq_iff_eq] at h
      obtain ⟨value, hvalue⟩ := (isDigit_iff (Nat.le_refl 16)).mp h.2
      exact ⟨['0', x], rfl, rfl, .hexadecimal h.1 hvalue⟩
    · next h =>
      refine ⟨['0'], rfl, rfl, .octal ?_⟩
      rintro x' c' value more' heq hx hdigit
      cases heq
      exact h (by simp [hx, (isDigit_iff (Nat.le_refl 16)).mpr ⟨value, hdigit⟩])
  · next body hshort =>
    exact ⟨['0'], rfl, rfl, .octal fun x c _ more heq _ _ => hshort x c more heq⟩
  · next _ hzero =>
    refine ⟨[], rfl, rfl, .decimal ?_⟩
    cases cs with
    | nil => simp
    | cons c cs =>
      intro hhead
      obtain rfl : c = '0' := by simpa using hhead
      exact hzero _ rfl

theorem base_le_sixteen (cs : List Char) : (base cs).1 ≤ 16 := by
  rcases base_cases cs with h | h | h <;> omega

/-! ## Integers -/

/-- The number of digits is that of their values. -/
theorem valueOf_eq_ofDigits {base : Nat} (hbase : base ≤ 16) {values : List Nat}
    {digits : List Char} (h : List.Forall₂ (Digit base) values digits) :
    valueOf base digits = Nat.ofDigits base values.reverse := by
  have hfold : ∀ n, digits.foldl (fun n c => n * base + (digit? base c).getD 0) n =
      values.foldl (fun n value => value + base * n) n := by
    induction h with
    | nil => exact fun _ => rfl
    | cons hvalue _ ih =>
      intro n
      rw [List.foldl_cons, List.foldl_cons, (digit?_eq_some_iff hbase).mpr hvalue,
        Option.getD_some, ih, Nat.mul_comm, Nat.add_comm]
  rw [valueOf, hfold, Nat.ofDigits_eq_foldr, List.foldr_reverse]
  rfl

theorem ofDigits_le_of_prefix {base : Nat} (hbase : 0 < base) {first values : List Nat}
    (h : first <+: values) : Nat.ofDigits base first.reverse ≤ Nat.ofDigits base values.reverse := by
  obtain ⟨more, rfl⟩ := h
  rw [List.reverse_append, Nat.ofDigits_append]
  calc Nat.ofDigits base first.reverse
      ≤ base ^ more.reverse.length * Nat.ofDigits base first.reverse :=
        Nat.le_mul_of_pos_left _ (Nat.pow_pos hbase)
    _ ≤ _ := Nat.le_add_left _ _

theorem forall₂_digits {base : Nat} (hbase : base ≤ 16) {digits : List Char}
    (h : ∀ c ∈ digits, isDigit base c = true) :
    List.Forall₂ (Digit base) (digits.map fun c => (digit? base c).getD 0) digits := by
  rw [List.forall₂_map_left_iff, List.forall₂_same]
  intro c hc
  obtain ⟨value, hvalue⟩ := Option.isSome_iff_exists.mp (h c hc)
  rw [hvalue, Option.getD_some]
  exact (digit?_eq_some_iff hbase).mp hvalue

/-- No row of such characters at the start of a text goes further than the one taken. -/
theorem prefix_takeWhile {p : Char → Bool} {longer cs : List Char} (hlonger : longer <+: cs)
    (h : ∀ c ∈ longer, p c = true) : longer <+: cs.takeWhile p := by
  obtain ⟨more, rfl⟩ := hlonger
  rw [List.takeWhile_append_of_pos h]
  exact List.prefix_append _ _

/-- The integer at the start of any text. What the text announces is the base, and the digits behind
it are all those that follow there. Their exact number is the integer if it is a word, and otherwise
the integer is the largest word, which it is from the first digits on that go beyond it. A byte
string is the text of the characters with those numbers. -/
theorem integer_exact (cs : List Char) :
    ∃ base mark digits rest values, cs = mark ++ (digits ++ rest) ∧
      Announced base mark (digits ++ rest) ∧ List.Forall₂ (Digit base) values digits ∧
      (∀ longer, longer <+: digits ++ rest → (∀ c ∈ longer, ∃ value, Digit base value c) →
        longer <+: digits) ∧
      integer cs =
        (min (Nat.ofDigits base values.reverse) (2 ^ 64 - 1), mark.length + digits.length) ∧
      ∀ first, first <+: values → 2 ^ 64 - 1 < Nat.ofDigits base first.reverse →
        (integer cs).1 = 2 ^ 64 - 1 := by
  obtain ⟨mark, hcs, hmark, hannounced⟩ := announced_base cs
  have hbase := base_le_sixteen cs
  have hpos : 0 < (base cs).1 := by rcases base_cases cs with h | h | h <;> omega
  have hvalues := forall₂_digits hbase fun c (hc : c ∈ integerDigits cs) =>
    List.mem_takeWhile_imp hc
  have hbody : cs.drop (base cs).2 =
      integerDigits cs ++ (cs.drop (base cs).2).dropWhile (isDigit (base cs).1) :=
    List.takeWhile_append_dropWhile.symm
  have hinteger := integer_eq cs
  rw [valueOf_eq_ofDigits hbase hvalues, ← hmark] at hinteger
  refine ⟨(base cs).1, mark, integerDigits cs, _, _, hbody ▸ hcs, hbody ▸ hannounced, hvalues, ?_,
    hinteger, ?_⟩
  · intro longer hlonger hall
    rw [← hbody] at hlonger
    exact prefix_takeWhile hlonger fun c hc => (isDigit_iff hbase).mpr (hall c hc)
  · intro first hfirst hbeyond
    -- more digits do not bring the number back
    have hle := ofDigits_le_of_prefix hpos hfirst
    have hmax : wordMax = 2 ^ 64 - 1 := rfl
    rw [hinteger, hmax]
    exact Nat.min_eq_right (by omega)

end SignalCalc.Numeral
