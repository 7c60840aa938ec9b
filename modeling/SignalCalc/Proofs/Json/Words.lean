import Mathlib.Data.List.TakeDrop
import SignalCalc.Json.Reading
import SignalCalc.Proofs.Token.Numeral

namespace SignalCalc

open Numeral

namespace Json

/-! ## Numbers -/

/-- What comes next does not go on with a number. -/
def Ends (rest : List Char) : Prop :=
  ∀ c, rest.head? = some c → Numeral.isDigit 10 c = false ∧ c ≠ '.' ∧ c ≠ 'e' ∧ c ≠ 'E'

theorem ends_nil : Ends [] := nofun

namespace Number

variable {rest : List Char}

def written (i : Int) : Number := ⟨i < 0, Nat.toDigits 10 i.natAbs, none, none⟩

theorem digits_toDigits (n : Nat) (hrest : Ends rest) :
    digits (Nat.toDigits 10 n ++ rest) = (Nat.toDigits 10 n, rest) := by
  have hdigits : ∀ c ∈ Nat.toDigits 10 n, Numeral.isDigit 10 c = true := fun c hc =>
    isDigit_of_isDigit (isDigit_toDigits hc)
  rw [digits, List.span_eq_takeWhile_dropWhile, List.takeWhile_append_of_pos hdigits,
    List.dropWhile_append_of_pos hdigits]
  cases rest with
  | nil => simp
  | cons c rest => simp [(hrest c rfl).1]

theorem whole?_toDigits (n : Nat) (hrest : Ends rest) :
    whole? (Nat.toDigits 10 n ++ rest) = some (Nat.toDigits 10 n, rest) := by
  have hsome : someDigits? (Nat.toDigits 10 n ++ rest) = some (Nat.toDigits 10 n, rest) := by
    simp [someDigits?, digits_toDigits n hrest]
  rw [whole?, hsome]
  -- a zero in front is the whole number
  by_cases hn : n = 0
  · subst hn
    rfl
  · have hhead := head_toDigits (Nat.pos_of_ne_zero hn)
    split
    · next hzero =>
      simp only [Option.some.injEq, Prod.mk.injEq] at hzero
      simp [hzero.1] at hhead
    · rfl

theorem fraction?_ends (hrest : Ends rest) : fraction? rest = some (none, rest) := by
  cases rest with
  | nil => rfl
  | cons c rest => simp [fraction?, (hrest c rfl).2.1]

theorem exponent?_ends (hrest : Ends rest) : exponent? rest = some (none, rest) := by
  cases rest with
  | nil => rfl
  | cons c rest => simp [exponent?, (hrest c rfl).2.2]

theorem read?_integerChars (i : Int) (hrest : Ends rest) :
    read? (Value.integerChars i ++ rest) = some (written i, rest) := by
  have hwhole := whole?_toDigits i.natAbs hrest
  by_cases hneg : i < 0
  · rw [Value.integerChars, if_pos hneg, List.cons_append]
    simp [read?, hwhole, fraction?_ends hrest, exponent?_ends hrest, written, hneg]
  · obtain ⟨c, cs, hcs, hc⟩ := exists_toDigits_eq_cons i.natAbs
    rw [Value.integerChars, if_neg hneg]
    rw [hcs, List.cons_append] at hwhole ⊢
    unfold read?
    split
    next negative more hsign =>
      -- the first character is a digit and no sign
      split at hsign
      · next hhead =>
        cases hhead
        cases hc
      · cases hsign
        simp [hwhole, fraction?_ends hrest, exponent?_ends hrest, written, hneg, hcs]

/-- A whole number that fits a word is read as itself. -/
theorem meaning_written {i : Int} (hlow : -0x8000000000000000 ≤ i)
    (hhigh : i ≤ 0xFFFFFFFFFFFFFFFF) :
    (written i).meaning = .integer i := by
  have hinteger : (written i).integer? = some i := by
    obtain ⟨m, hm⟩ : ∃ m, i.natAbs = m := ⟨_, rfl⟩
    by_cases hneg : i < 0
    · have hpos : 0 < m := by omega
      have hsize : m ≤ 0x8000000000000000 := by omega
      have habs : -(m : Int) = i := by omega
      simp [integer?, written, valueOf_toDigits, hm, hneg, hpos, hsize, habs]
    · have hsize : m ≤ wordMax := by
        simp only [wordMax]
        omega
      have habs : (m : Int) = i := by omega
      simp [integer?, written, valueOf_toDigits, hm, hneg, hsize, habs]
  rw [meaning, hinteger]

end Number

/-! ## Quoted texts -/

def lettered : List Char := ['\n', '\r', '\t', '\x08', '\x0c']

def piece (c : Char) : Piece := if c.toNat < 32 ∧ c ∉ lettered then .unit c.toNat else .char c

theorem unit?_control : ∀ n < 32,
    unit? ['0', '0', Nat.digitChar (n / 16), Nat.digitChar (n % 16)] = some n := by
  decide

theorem string?_letter {letter e : Char} (hletter : letter ≠ 'u') (h : escaped? letter = some e)
    (he : piece e = .char e) (cs : List Char) :
    string? ('\\' :: letter :: cs) = (string? cs).map fun (ps, rest) => (piece e :: ps, rest) := by
  simp [string?, hletter, h, he]

theorem string?_plain {c : Char} (hquote : c ≠ '"') (hslash : c ≠ '\\') (hc : ¬c.toNat < 32)
    (cs : List Char) :
    string? (c :: cs) = (string? cs).map fun (ps, rest) => (piece c :: ps, rest) := by
  simp [string?, piece, hslash, hc]

theorem string?_escape (c : Char) (cs : List Char) :
    string? (escape c ++ cs) = (string? cs).map fun (ps, rest) => (piece c :: ps, rest) := by
  unfold escape
  -- the seven characters with a letter, then the other control characters, then all others
  iterate 7
    split
    · subst_vars
      exact string?_letter (by decide) rfl rfl cs
  split
  · next hcontrol =>
    have hunit := unit?_control c.toNat hcontrol
    simp only [List.cons_append, List.nil_append, string?, hunit]
    simp_all [piece, lettered]
  · next hcontrol =>
    exact string?_plain (by assumption) (by assumption) hcontrol cs

theorem string?_quoted (s : String) (rest : List Char) :
    ∃ cs, quoted s ++ rest = '"' :: cs ∧ string? cs = some (s.toList.map piece, rest) := by
  refine ⟨s.toList.flatMap escape ++ '"' :: rest, by simp [quoted], ?_⟩
  induction s.toList with
  | nil => simp [string?]
  | cons c cs ih =>
    rw [List.flatMap_cons, List.append_assoc, string?_escape, ih]
    rfl

theorem join?_control {n : Nat} (hn : n < 32) (ps : List Piece) :
    join? (.unit n :: ps) = (join? ps).map (Char.ofNat n :: ·) := by
  -- a unit as small as this is half of no pair, whatever comes next
  have hhigh : isHigh n = false := by
    simp [isHigh]
    omega
  have hlow : isLow n = false := by
    simp [isLow]
    omega
  match ps with
  | [] => simp [join?, hhigh, hlow]
  | .char _ :: _ => simp [join?, hhigh, hlow]
  | .unit _ :: _ => simp [join?, hhigh, hlow]

theorem join?_pieces (cs : List Char) : join? (cs.map piece) = some cs := by
  induction cs with
  | nil => rfl
  | cons c cs ih =>
    rw [List.map_cons, piece]
    split
    · next hcontrol => simp [join?_control hcontrol.1, ih, Char.ofNat_toNat]
    · simp [join?, ih]

theorem textOf?_pieces (s : String) : textOf? (s.toList.map piece) = some s := by
  simp [textOf?, join?_pieces]

end Json

end SignalCalc
