import SignalCalc.Token.Number

namespace SignalCalc

/-- The text ends here, or goes on after a space. -/
def Spaced (rest : List Char) : Prop := rest = [] ∨ ∃ more, rest = ' ' :: more

theorem spaced_nil : Spaced [] := .inl rfl

theorem spaced_cons (more : List Char) : Spaced (' ' :: more) := .inr ⟨more, rfl⟩

/-- A space ends what is made of other characters. -/
theorem Spaced.takeWhile {rest : List Char} (h : Spaced rest) {p : Char → Bool} (hp : p ' ' = false)
    {word : List Char} (hword : ∀ c ∈ word, p c = true) : (word ++ rest).takeWhile p = word := by
  rw [List.takeWhile_append_of_pos hword]
  obtain rfl | ⟨more, rfl⟩ := h <;> simp [hp]

theorem Spaced.dropWhile {rest : List Char} (h : Spaced rest) {p : Char → Bool} (hp : p ' ' = false)
    {word : List Char} (hword : ∀ c ∈ word, p c = true) : (word ++ rest).dropWhile p = rest := by
  rw [List.dropWhile_append_of_pos hword]
  obtain rfl | ⟨more, rfl⟩ := h <;> simp [hp]

/-- A character is none of those that its class is without. -/
theorem ne_of_class {p : Char → Bool} {c d : Char} (hc : p c = true) (hd : p d = false) : c ≠ d := by
  rintro rfl
  simp [hd] at hc

namespace Numeral

theorem digit?_of_isDigit {c : Char} (h : c.isDigit = true) :
    digit? 10 c = some (c.toNat - '0'.toNat) := by
  simp only [Char.isDigit, Bool.and_eq_true, decide_eq_true_eq] at h
  have hrange : '0' ≤ c ∧ c ≤ '9' := h
  have hvalue : c.toNat - '0'.toNat < 10 := by
    have hle : c.toNat ≤ '9'.toNat := h.2
    have hten : '9'.toNat = '0'.toNat + 9 := rfl
    omega
  have hfilter : (some (c.toNat - '0'.toNat)).filter (· < 10) = some (c.toNat - '0'.toNat) :=
    Option.filter_some_pos (by simpa using hvalue)
  simp only [digit?, hrange, decide_true, if_true, Bool.and_self, hfilter]

theorem isDigit_of_isDigit {c : Char} (h : c.isDigit = true) : isDigit 10 c = true := by
  simp [isDigit, digit?_of_isDigit h]

theorem isDigit_toDigits {n : Nat} {c : Char} (hc : c ∈ Nat.toDigits 10 n) : c.isDigit = true :=
  Nat.isDigit_of_mem_toDigits (by decide) (by decide) hc

theorem exists_toDigits_eq_cons (n : Nat) :
    ∃ c cs, Nat.toDigits 10 n = c :: cs ∧ c.isDigit = true := by
  cases hcs : Nat.toDigits 10 n with
  | nil => simp at hcs
  | cons c cs => exact ⟨c, cs, rfl, isDigit_toDigits (n := n) (by simp [hcs])⟩

theorem head_toDigits {n : Nat} (hn : 0 < n) : (Nat.toDigits 10 n).head? ≠ some '0' := by
  induction n using Nat.strongRecOn with
  | ind n ih =>
    by_cases hsmall : n < 10
    · rw [Nat.toDigits_of_lt_base hsmall]
      simpa using Nat.pos_iff_ne_zero.mp hn
    · have hfront := ih (n / 10) (by omega) (by omega)
      rw [Nat.toDigits_of_base_le (by decide) (by omega)]
      cases hdigits : Nat.toDigits 10 (n / 10) with
      | nil => simp at hdigits
      | cons d ds =>
        rw [hdigits] at hfront
        simpa using hfront

/-- Digits have the number they were made from. -/
theorem valueOf_toDigits (n : Nat) : valueOf 10 (Nat.toDigits 10 n) = n := by
  have hvalue : ∀ (cs : List Char), (∀ c ∈ cs, c.isDigit = true) → ∀ n,
      cs.foldl (fun n c => n * 10 + (digit? 10 c).getD 0) n = Nat.ofDigitChars 10 cs n := by
    intro cs
    induction cs with
    | nil => simp
    | cons c cs ih =>
      intro hcs n
      rw [List.foldl_cons, Nat.ofDigitChars_cons, digit?_of_isDigit (hcs c (by simp)),
        Option.getD_some, Nat.mul_comm n 10]
      exact ih (fun d hd => hcs d (by simp [hd])) _
  rw [valueOf, hvalue _ fun c hc => isDigit_toDigits hc]
  exact Nat.ofDigitChars_toDigits (by decide) (by decide)

/-! ## Words while they are read -/

theorem toNat_le_wordMax (n : UInt64) : n.toNat ≤ wordMax := by
  have hlt := n.toNat_lt
  simp only [wordMax]
  omega

theorem toNat_ofNat_of_le {n : Nat} (h : n ≤ wordMax) : (UInt64.ofNat n).toNat = n := by
  apply UInt64.toNat_ofNat_of_lt'
  simp only [wordMax, UInt64.size] at h ⊢
  omega

theorem map_product? (a b : UInt64) :
    (product? a b).map UInt64.toNat =
      if a.toNat * b.toNat ≤ wordMax then some (a.toNat * b.toNat) else none := by
  unfold product?
  split
  · next h =>
    have hlt : a.toNat * b.toNat < 2 ^ 64 := by
      simp only [wordMax] at h
      omega
    rw [Option.map_some, UInt64.toNat_mul, Nat.mod_eq_of_lt hlt]
  · rfl

theorem map_sum? (a b : UInt64) :
    (sum? a b).map UInt64.toNat =
      if a.toNat + b.toNat ≤ wordMax then some (a.toNat + b.toNat) else none := by
  unfold sum?
  split
  · next h =>
    have hlt : a.toNat + b.toNat < 2 ^ 64 := by
      simp only [wordMax] at h
      omega
    rw [Option.map_some, UInt64.toNat_add, Nat.mod_eq_of_lt hlt]
  · rfl

/-- A digit behind a word gives a word, if there is one. -/
theorem map_appended (word : UInt64) {base digit : Nat} (hbase : base ≤ wordMax)
    (hdigit : digit ≤ wordMax) :
    ((product? word (UInt64.ofNat base)).bind fun shifted =>
        sum? shifted (UInt64.ofNat digit)).map UInt64.toNat =
      if word.toNat * base + digit ≤ wordMax then some (word.toNat * base + digit) else none := by
  have hshifted := map_product? word (UInt64.ofNat base)
  rw [toNat_ofNat_of_le hbase] at hshifted
  cases hproduct : product? word (UInt64.ofNat base) with
  | none =>
    rw [hproduct] at hshifted
    split at hshifted
    · cases hshifted
    · rw [if_neg (by omega)]
      rfl
  | some shifted =>
    rw [hproduct] at hshifted
    split at hshifted
    · have hvalue : shifted.toNat = word.toNat * base := Option.some.inj hshifted
      rw [Option.bind_some, map_sum?, hvalue, toNat_ofNat_of_le hdigit]
    · cases hshifted

theorem digit?_getD_lt {base : Nat} (hbase : 0 < base) (c : Char) :
    (digit? base c).getD 0 < base := by
  cases hdigit : digit? base c with
  | none => exact hbase
  | some d =>
    obtain ⟨-, hlt⟩ := Option.filter_eq_some_iff.mp hdigit
    simpa using hlt

namespace Accumulator

/-- The digits so far make this number. The word is the number as long as it is one; from then on
all that is known is that it was passed. -/
def Tracks (acc : Accumulator) (n : Nat) : Prop :=
  if acc.saturated then wordMax < n else acc.word.toNat = n

theorem Tracks.value {acc : Accumulator} {n : Nat} (h : acc.Tracks n) :
    acc.value = min n wordMax := by
  have hword := toNat_le_wordMax acc.word
  unfold Tracks at h
  unfold Accumulator.value
  split at h
  · next hsaturated =>
    rw [if_pos hsaturated]
    omega
  · next hexact =>
    rw [if_neg hexact]
    omega

/-- Appending a digit. Once the number was passed, it stays so whatever the old word makes of the
digits that follow. -/
theorem Tracks.append {acc : Accumulator} {n : Nat} (h : acc.Tracks n) {base : Nat}
    (hbase : 0 < base) (hword : base ≤ wordMax) (c : Char) :
    (acc.append base c).Tracks (n * base + (digit? base c).getD 0) := by
  obtain ⟨word, saturated⟩ := acc
  have hdigit := digit?_getD_lt hbase c
  have hn : n ≤ n * base := Nat.le_mul_of_pos_right n hbase
  cases saturated with
  | true =>
    have hpassed : wordMax < n := h
    have hstays : ((mk word true).append base c).saturated = true := by
      unfold Accumulator.append
      dsimp only
      split <;> rfl
    rw [Tracks, if_pos hstays]
    omega
  | false =>
    obtain rfl : word.toNat = n := h
    have hsmall : (digit? base c).getD 0 ≤ wordMax := by omega
    have htotal := map_appended word hword hsmall
    unfold Accumulator.append
    dsimp only
    split
    · next total heq =>
      rw [heq] at htotal
      split at htotal
      · exact Option.some.inj htotal
      · cases htotal
    · next heq =>
      rw [heq] at htotal
      split at htotal
      · cases htotal
      · rw [Tracks, if_pos rfl]
        omega

theorem Tracks.foldl {base : Nat} (hbase : 0 < base) (hword : base ≤ wordMax) (cs : List Char)
    {acc : Accumulator} {n : Nat} (h : acc.Tracks n) :
    (cs.foldl (Accumulator.append base) acc).Tracks
      (cs.foldl (fun n c => n * base + (digit? base c).getD 0) n) := by
  induction cs generalizing acc n with
  | nil => exact h
  | cons c cs ih => exact ih (h.append hbase hword c)

/-- However many digits there are, their number is exact up to the largest word. -/
theorem value_foldl {base : Nat} (hbase : 0 < base) (hword : base ≤ wordMax) (cs : List Char) :
    (cs.foldl (append base) {}).value = min (valueOf base cs) wordMax := by
  have hstart : Tracks {} 0 := rfl
  exact (hstart.foldl hbase hword cs).value

end Accumulator

/-! ## Integers -/

theorem base_cases (cs : List Char) : (base cs).1 = 16 ∨ (base cs).1 = 8 ∨ (base cs).1 = 10 := by
  unfold base
  split
  · split
    · exact .inl rfl
    · exact .inr (.inl rfl)
  · exact .inr (.inl rfl)
  · exact .inr (.inr rfl)

/-- The integer at the start of a text, by the exact number that its digits make. -/
theorem integer_eq (cs : List Char) :
    integer cs =
      (min (valueOf (base cs).1 (integerDigits cs)) wordMax,
        (base cs).2 + (integerDigits cs).length) := by
  have hbase : 0 < (base cs).1 ∧ (base cs).1 ≤ wordMax := by
    simp only [wordMax]
    rcases base_cases cs with h | h | h <;> omega
  simp only [integer, Accumulator.value_foldl hbase.1 hbase.2]

theorem base_of_ne_zero {c : Char} (hc : c ≠ '0') (cs : List Char) : base (c :: cs) = (10, 0) := by
  unfold base
  split <;> simp_all

theorem isDigit_mono {b b' : Nat} (hle : b ≤ b') {c : Char} (h : isDigit b c = true) :
    isDigit b' c = true := by
  simp only [isDigit, digit?, Option.isSome_filter, Option.any_eq_true, decide_eq_true_eq] at h ⊢
  obtain ⟨d, hd, hlt⟩ := h
  exact ⟨d, hd, Nat.lt_of_lt_of_le hlt hle⟩

/-- What comes next does not go on with a decimal numeral: no digit, nor the mark of a hexadecimal
one. -/
def Ends (rest : List Char) : Prop :=
  ∀ c, rest.head? = some c → isDigit 10 c = false ∧ c ≠ 'x' ∧ c ≠ 'X'

theorem ends_of_spaced {rest : List Char} (h : Spaced rest) : Ends rest := by
  obtain rfl | ⟨more, rfl⟩ := h
  · intro c hc
    cases hc
  · intro c hc
    obtain rfl : ' ' = c := Option.some.inj hc
    decide

theorem Ends.takeWhile {rest : List Char} (h : Ends rest) {b : Nat} (hb : b ≤ 10)
    {word : List Char} (hword : ∀ c ∈ word, isDigit b c = true) :
    (word ++ rest).takeWhile (isDigit b) = word := by
  rw [List.takeWhile_append_of_pos hword]
  cases rest with
  | nil => simp
  | cons c rest =>
    have hc : isDigit b c = false := by
      refine Bool.eq_false_iff.mpr fun hdigit => ?_
      have hno := (h c rfl).1
      rw [isDigit_mono hb hdigit] at hno
      cases hno
    simp [hc]

theorem Ends.base_zero {rest : List Char} (h : Ends rest) : base ('0' :: rest) = (8, 1) := by
  match rest with
  | [] => rfl
  | [_] => rfl
  | x :: d :: more => simp [base, (h x rfl).2]

theorem integer_toDigits {n : Nat} (hn : n ≤ wordMax) {rest : List Char} (hrest : Ends rest) :
    integer (Nat.toDigits 10 n ++ rest) = (n, (Nat.toDigits 10 n).length) := by
  by_cases hzero : n = 0
  · -- the only numeral that looks like an octal one
    subst hzero
    have hbase : base (Nat.toDigits 10 0 ++ rest) = (8, 1) := hrest.base_zero
    have hword : integerDigits (Nat.toDigits 10 0 ++ rest) = [] := by
      simp only [integerDigits, hbase]
      exact hrest.takeWhile (b := 8) (by decide) (List.forall_mem_nil _)
    rw [integer_eq, hword, hbase]
    rfl
  · have hbase : base (Nat.toDigits 10 n ++ rest) = (10, 0) := by
      have hhead := head_toDigits (Nat.pos_of_ne_zero hzero)
      cases hcs : Nat.toDigits 10 n with
      | nil => simp at hcs
      | cons c cs =>
        rw [hcs] at hhead
        exact base_of_ne_zero (by simpa using hhead) (cs ++ rest)
    have hword : integerDigits (Nat.toDigits 10 n ++ rest) = Nat.toDigits 10 n := by
      simp only [integerDigits, hbase, List.drop_zero]
      exact hrest.takeWhile (Nat.le_refl 10) fun c hc => isDigit_of_isDigit (isDigit_toDigits hc)
    rw [integer_eq, hword, hbase, valueOf_toDigits, Nat.min_eq_left hn, Nat.zero_add]

theorem read_toDigits {n : Nat} (hn : n ≤ wordMax) {rest : List Char} (hrest : Spaced rest) :
    read (Nat.toDigits 10 n ++ rest) = .value (plainValue n) rest := by
  simp only [read, integer_toDigits hn (ends_of_spaced hrest), List.drop_left]
  obtain rfl | ⟨more, rfl⟩ := hrest
  · rfl
  · rfl

end Numeral

namespace Value

def integerChars (i : Int) : List Char :=
  if i < 0 then '-' :: Nat.toDigits 10 i.natAbs else Nat.toDigits 10 i.natAbs

theorem integerText_eq (i : Int) : integerText i = String.ofList (integerChars i) := by
  cases i with
  | ofNat n =>
    have hn : ¬Int.ofNat n < 0 := Int.not_lt.mpr (Int.natCast_nonneg n)
    simp only [integerText, integerChars, hn, if_false]
    rfl
  | negSucc n =>
    simp only [integerText, integerChars, Int.negSucc_lt_zero, if_true]
    rfl

end Value

end SignalCalc
