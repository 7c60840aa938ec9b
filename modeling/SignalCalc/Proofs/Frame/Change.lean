import SignalCalc.Proofs.Machine.StackUse
import SignalCalc.Proofs.Token.Numeral
import SignalCalc.Proofs.Value.Clamping

/-! # Changes of a frame's payload

A change is looked for by pairing the bytes of a range with those that were sent before. Pairs end
with the shorter payload, so that a second test is needed for the positions behind it. Both together
are the test of every position on its own.

The range is cut out of the payload by words. The checked form fails where an addition leaves the
word or where the range leaves the payload, and is shown not to.
-/

namespace SignalCalc

/-- Two lists differ in a pair, or the second one is shorter, just when the second one lacks an
entry of the first or has another one in its place. -/
theorem any_zip_or_shorter_iff {α : Type} [BEq α] [LawfulBEq α] (xs ys : List α) :
    ((xs.zip ys).any fun (a, b) => a != b) = true ∨ ys.length < xs.length ↔
      ∃ i, i < xs.length ∧ ys[i]? ≠ xs[i]? := by
  induction xs generalizing ys with
  | nil => simp
  | cons x xs ih =>
    cases ys with
    | nil =>
      -- the first entry has no partner
      refine iff_of_true (.inr (Nat.succ_pos _)) ⟨0, Nat.succ_pos _, ?_⟩
      simp
    | cons y ys =>
      rw [← Nat.or_exists_add_one]
      simp only [List.zip_cons_cons, List.any_cons, List.length_cons, Bool.or_eq_true, bne_iff_ne,
        List.getElem?_cons_zero, List.getElem?_cons_succ, Nat.succ_lt_succ_iff, ← ih ys, or_assoc,
        ne_eq, Option.some.injEq, Nat.succ_pos, true_and, eq_comm (a := x)]

namespace Frame

variable (f : Frame) (start size : Int64)

/-- The positions that `start` and `size` select. A size that is not positive and a start below zero
stand for the whole payload. All others stand for the positions from `start` up to the end of the
range or of the payload, whichever comes first. -/
def Selects (i : Nat) : Prop :=
  if size ≤ 0 ∨ start < 0 then i < f.data.length
  else start.toInt ≤ i ∧ (i : Int) < min (start.toInt + size.toInt) f.data.length

/-- The previous payload has no byte at this position, or another one. -/
def Renewed (i : Nat) : Prop := f.previous.length ≤ i ∨ f.previous[i]? ≠ f.data[i]?

instance : DecidablePred (f.Selects start size) := fun _ => inferInstanceAs (Decidable (ite _ _ _))

instance : DecidablePred f.Renewed := fun _ => inferInstanceAs (Decidable (_ ∨ _))

/-- Within the payload it is enough to compare what the two payloads have at a position. -/
theorem renewed_iff {f : Frame} {i : Nat} (h : i < f.data.length) :
    f.Renewed i ↔ f.previous[i]? ≠ f.data[i]? := by
  refine ⟨?_, .inr⟩
  rintro (hbeyond | hne)
  · rw [List.getElem?_eq_none hbeyond, List.getElem?_eq_getElem h]
    exact (Option.some_ne_none _).symm
  · exact hne

/-! ## Ranges -/

/-- What is selected are the positions from `first` up to `last`. -/
structure Spans (first last : Nat) : Prop where
  within : last ≤ f.data.length
  ordered : first = 0 ∨ first < last
  selects_iff : ∀ i, f.Selects start size i ↔ first ≤ i ∧ i < last

variable {f start size} {first last : Nat}

theorem Spans.first_le_last (h : f.Spans start size first last) : first ≤ last := by
  obtain hfirst | hlt := h.ordered
  · exact hfirst ▸ Nat.zero_le last
  · exact Nat.le_of_lt hlt

/-- The numbers of a range that is not the whole payload. -/
theorem signs_of_part (h : ¬(size ≤ 0 ∨ start < 0)) : 0 ≤ start.toInt ∧ 0 < size.toInt := by
  rw [Int64.le_iff_toInt_le, Int64.lt_iff_toInt_lt, Int64.toInt_zero] at h
  omega

variable (f start size) in
/-- The range spans what is selected, and there is no range where nothing is. -/
theorem range?_cases :
    (∃ first last, f.range? start size = some (first, last) ∧ f.Spans start size first last) ∨
      f.range? start size = none ∧ ∀ i, ¬f.Selects start size i := by
  unfold range?
  split
  · next hwhole =>
    refine .inl ⟨_, _, rfl, Nat.le_refl _, .inl rfl, fun i => ?_⟩
    simp [Selects, if_pos hwhole]
  · next hpart =>
    obtain ⟨hstart, hsize⟩ := signs_of_part hpart
    dsimp only
    split
    · next hinside =>
      refine .inl ⟨_, _, rfl, Nat.min_le_right _ _, .inr (by omega), fun i => ?_⟩
      rw [Selects, if_neg hpart]
      omega
    · next hbeyond =>
      refine .inr ⟨rfl, fun i => ?_⟩
      rw [Selects, if_neg hpart]
      omega

/-! ## Comparison -/

/-- Whether the bytes from `first` up to `last` differ in a pair, or reach beyond the previous
payload. -/
def differs (f : Frame) (first last : Nat) : Bool :=
  (((f.data.take last).drop first).zip (f.previous.drop first)).any (fun (a, b) => a != b) ||
    f.previous.length < last

variable (f start size) in
theorem changed_eq : f.changed start size =
    (f.range? start size).elim false fun (first, last) => f.differs first last := by
  unfold changed
  cases f.range? start size <;> rfl

theorem Spans.differs_iff (h : f.Spans start size first last) :
    f.differs first last = true ↔ ∃ i, f.Selects start size i ∧ f.Renewed i := by
  have hwithin := h.within
  have hordered := h.ordered
  -- the previous payload is held against the end of the range, not against what is left of it from
  -- the start of the range on; an empty range further back would tell the two tests apart
  have hshorter : f.previous.length < last ↔
      (f.previous.drop first).length < ((f.data.take last).drop first).length := by
    simp only [List.length_drop, List.length_take]
    omega
  have hbyte : ∀ i, first + i < last → ((f.data.take last).drop first)[i]? = f.data[first + i]? := by
    intro i hi
    rw [List.getElem?_drop, List.getElem?_take_of_lt hi]
  rw [differs, Bool.or_eq_true, decide_eq_true_eq, hshorter, any_zip_or_shorter_iff]
  simp only [List.length_drop, List.length_take]
  constructor
  · rintro ⟨i, hi, hne⟩
    rw [hbyte i (by omega), List.getElem?_drop] at hne
    exact ⟨first + i, (h.selects_iff _).mpr (by omega), (renewed_iff (by omega)).mpr hne⟩
  · rintro ⟨i, hselects, hrenewed⟩
    obtain ⟨hfirst, hlast⟩ := (h.selects_iff i).mp hselects
    obtain ⟨k, rfl⟩ := Nat.exists_eq_add_of_le hfirst
    refine ⟨k, by omega, ?_⟩
    rw [hbyte k hlast, List.getElem?_drop]
    exact (renewed_iff (by omega)).mp hrenewed

/-- A change is reported just when a selected position is renewed. -/
theorem changed_iff :
    f.changed start size = true ↔ ∃ i, f.Selects start size i ∧ f.Renewed i := by
  rw [changed_eq]
  obtain ⟨first, last, hrange, hspans⟩ | ⟨hrange, hnone⟩ := f.range?_cases start size
  · rw [hrange]
    exact hspans.differs_iff
  · rw [hrange]
    refine iff_of_false Bool.false_ne_true ?_
    rintro ⟨i, hselects, -⟩
    exact hnone i hselects

/-! ## Words and bounds -/

/-- The entries from `first` up to `last`, which only bounds in order and within the list allow. -/
def slice? {α : Type} (xs : List α) (first last : Nat) : Option (List α) :=
  if first ≤ last ∧ last ≤ xs.length then some ((xs.take last).drop first) else none

def compare? (f : Frame) (first last : Nat) : Option Bool := do
  let current ← slice? f.data first last
  return (current.zip (f.previous.drop first)).any (fun (a, b) => a != b) ||
    f.previous.length < last

/-- Whether the selected range differs from the previous payload, by a checked sum of words and a
checked cut. -/
def changed? (f : Frame) (start size : Int64) : Option Bool :=
  if size ≤ 0 ∨ start < 0 then f.compare? 0 f.data.length
  else
    let first := start.toUInt64
    if first.toNat < f.data.length then do
      let last ← Numeral.sum? first size.toUInt64
      f.compare? first.toNat (min last.toNat f.data.length)
    else some false

theorem Spans.compare?_eq (h : f.Spans start size first last) :
    f.compare? first last = some (f.differs first last) := by
  rw [compare?, slice?, if_pos ⟨h.first_le_last, h.within⟩]
  rfl

/-- Words that are no negative numbers have a sum, since neither has the highest bit. -/
theorem exists_sum? (hstart : 0 ≤ start.toInt) (hsize : 0 ≤ size.toInt) :
    start.toUInt64.toNat = start.toInt.toNat ∧
      ∃ sum, Numeral.sum? start.toUInt64 size.toUInt64 = some sum ∧
        sum.toNat = start.toInt.toNat + size.toInt.toNat := by
  have hsum := Numeral.map_sum? start.toUInt64 size.toUInt64
  have hfirst := Value.toNat_toUInt64 start
  have hlength := Value.toNat_toUInt64 size
  have hstartLt := start.toInt_lt
  have hsizeLt := size.toInt_lt
  rw [if_pos hstart] at hfirst
  rw [if_pos hsize] at hlength
  rw [if_pos (by simp only [Numeral.wordMax]; omega)] at hsum
  obtain ⟨sum, hsum, hvalue⟩ := Option.map_eq_some_iff.mp hsum
  exact ⟨by omega, sum, hsum, by omega⟩

variable (f start size)

/-- Words select the same range as numbers. -/
theorem changed?_eq_compare? : f.changed? start size =
    (f.range? start size).elim (some false) fun (first, last) => f.compare? first last := by
  unfold changed? range?
  split
  · rfl
  · next hpart =>
    obtain ⟨hstart, hsize⟩ := signs_of_part hpart
    obtain ⟨hfirst, sum, hsum, hlast⟩ := exists_sum? hstart (Int.le_of_lt hsize)
    simp only [hfirst, hsum, hlast, Option.bind_eq_bind, Option.bind_some]
    split <;> rfl

/-- No sum leaves the word, and no range the payload. -/
theorem changed?_eq : f.changed? start size = some (f.changed start size) := by
  rw [changed?_eq_compare?, changed_eq]
  obtain ⟨first, last, hrange, hspans⟩ | ⟨hrange, -⟩ := f.range?_cases start size
  · rw [hrange]
    exact hspans.compare?_eq
  · rw [hrange]
    rfl

/-! ## Exactness -/

/-- A change is reported just when a selected position has no byte in the previous payload or another
one, whatever the two lengths are, and no sum or index leaves its bounds on the way. The operation
takes the two numbers from the stack and leaves the answer. -/
theorem changed_exact (f : Frame) :
    (∀ start size : Int64,
      (f.changed start size = true ↔ ∃ i, f.Selects start size i ∧ f.Renewed i) ∧
      f.changed? start size = some (f.changed start size)) ∧
    ∀ (start size : Value) (below : List Value) (h : below.length + 2 ≤ stackCapacity),
      ∃ answer : Bool,
        FrameOp.run (some f) .dataChanged ⟨size :: start :: below, h⟩ =
          .ok () ⟨.ofBool answer :: below, Nat.le_of_succ_le h⟩ ∧
        (answer = true ↔ ∃ i, f.Selects start.toInt64 size.toInt64 i ∧ f.Renewed i) := by
  constructor
  · exact fun start size => ⟨changed_iff, f.changed?_eq start size⟩
  · intro start size below h
    have hrun := applyTwo_ok (fun a b => .ofBool (f.changed a.toInt64 b.toInt64)) start size below h
    exact ⟨f.changed start.toInt64 size.toInt64, hrun, changed_iff⟩

/-- The previous payload lacks the last byte. The longest range that begins within the payload sees
that, and a range behind it, of the same length, sees nothing. -/
theorem changed_exact_longer :
    let f : Frame := { id := 1, data := [5, 6, 7], previous := [5, 6] }
    f.changed 1 0x7FFFFFFFFFFFFFFF = true ∧ f.changed? 3 0x7FFFFFFFFFFFFFFF = some false ∧
    ([] : List Value).length + 2 ≤ stackCapacity ∧
    FrameOp.run (some f) .dataChanged ⟨[.ofInt64 0, .ofInt64 1], by decide⟩ =
      .ok () ⟨[.ofBool true], by decide⟩ := by
  intro f
  obtain ⟨hchanged, hrun⟩ := changed_exact f
  obtain ⟨hlong, -⟩ := hchanged 1 0x7FFFFFFFFFFFFFFF
  obtain ⟨-, hbehind⟩ := hchanged 3 0x7FFFFFFFFFFFFFFF
  have hroom : ([] : List Value).length + 2 ≤ stackCapacity := by decide
  obtain ⟨answer, hrun, hanswer⟩ := hrun (.ofInt64 1) (.ofInt64 0) [] hroom
  obtain rfl : answer = true := hanswer.mpr ⟨2, by decide, by decide⟩
  exact ⟨hlong.mpr ⟨2, by decide, by decide⟩, hbehind, hroom, hrun⟩

end Frame

end SignalCalc
