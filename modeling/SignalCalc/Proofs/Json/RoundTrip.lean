import SignalCalc.Proofs.Json.Words

/-! # Reading what was written

A JSON value without doubles is read back from its own text. The reader's fuel goes down with every
step into a value and from one item or member to the next, and each of these steps takes a character
of the text, so that the length of the text is fuel enough. The induction is on the fuel.
-/

namespace SignalCalc

namespace Json

/-- The value has no doubles in it, and its whole numbers fit a word. -/
inductive Exact : Json → Prop where
  | null : Exact .null
  | bool (b : Bool) : Exact (.bool b)
  | integer {i : Int} (hlow : -0x8000000000000000 ≤ i) (hhigh : i ≤ 0xFFFFFFFFFFFFFFFF) :
    Exact (.integer i)
  | text (s : String) : Exact (.text s)
  | array {items : List Json} (h : ∀ j ∈ items, Exact j) : Exact (.array items)
  | object {members : List (String × Json)} (h : ∀ m ∈ members, Exact m.2) : Exact (.object members)

/-! ## The beginnings of values -/

def opensNumber (c : Char) : Bool := c == '-' || c.isDigit

def opens (c : Char) : Bool := opensNumber c || ['n', 't', 'f', '"', '[', '\x7b'].contains c

theorem skip_cons {c : Char} (hc : c ∉ [' ', '\n', '\t', '\r']) (cs : List Char) :
    skip (c :: cs) = c :: cs := by
  simp only [List.mem_cons, List.not_mem_nil, or_false, not_or] at hc
  simp [skip, hc]

theorem skip_of_opens {c : Char} (hc : opens c = true) (cs : List Char) :
    skip (c :: cs) = c :: cs := by
  have hne : ∀ d, opens d = false → c ≠ d := fun d hd => ne_of_class hc hd
  refine skip_cons ?_ cs
  simp [hne ' ' rfl, hne '\n' rfl, hne '\t' rfl, hne '\r' rfl]

theorem exists_integerChars_eq_cons (i : Int) :
    ∃ c cs, Value.integerChars i = c :: cs ∧ opensNumber c = true := by
  by_cases hneg : i < 0
  · exact ⟨'-', _, by rw [Value.integerChars, if_pos hneg], rfl⟩
  · obtain ⟨c, cs, hcs, hc⟩ := Numeral.exists_toDigits_eq_cons i.natAbs
    exact ⟨c, cs, by rw [Value.integerChars, if_neg hneg, hcs], by simp [opensNumber, hc]⟩

theorem exists_chars_eq_cons {j : Json} (h : j.Exact) :
    ∃ c cs, j.chars = c :: cs ∧ opens c = true := by
  cases h with
  | null => exact ⟨'n', _, rfl, by decide⟩
  | bool b =>
    cases b with
    | false => exact ⟨'f', _, rfl, by decide⟩
    | true => exact ⟨'t', _, rfl, by decide⟩
  | @integer i _ _ =>
    obtain ⟨c, cs, hcs, hc⟩ := exists_integerChars_eq_cons i
    refine ⟨c, cs, ?_, by simp [opens, hc]⟩
    rw [chars, Value.integerText_eq, String.toList_ofList, hcs]
  | text s => exact ⟨'"', _, by rw [chars, quoted, List.cons_append], by decide⟩
  | @array items _ =>
    cases items with
    | nil => exact ⟨'[', _, by rw [chars], by decide⟩
    | cons item items => exact ⟨'[', _, by rw [chars, List.cons_append], by decide⟩
  | @object members _ =>
    cases members with
    | nil => exact ⟨'\x7b', _, by rw [chars], by decide⟩
    | cons m members =>
      obtain ⟨name, j⟩ := m
      exact ⟨'\x7b', _, by rw [chars, List.cons_append, List.cons_append], by decide⟩

theorem value?_number {c : Char} (hc : opensNumber c = true) (fuel : Nat) (cs : List Char) :
    value? (fuel + 1) (c :: cs) =
      (Number.read? (c :: cs)).map fun (n, rest) => (n.meaning, rest) := by
  have hne : ∀ d, opensNumber d = false → c ≠ d := fun d hd => ne_of_class hc hd
  have hskip : skip (c :: cs) = c :: cs := skip_of_opens (by simp [opens, hc]) cs
  rw [value?, hskip]
  split
  next heq => exact absurd (List.cons.inj heq).1 (hne 'n' rfl)
  next heq => exact absurd (List.cons.inj heq).1 (hne 't' rfl)
  next heq => exact absurd (List.cons.inj heq).1 (hne 'f' rfl)
  next heq => exact absurd (List.cons.inj heq).1 (hne '"' rfl)
  next heq => exact absurd (List.cons.inj heq).1 (hne '[' rfl)
  next heq => exact absurd (List.cons.inj heq).1 (hne '\x7b' rfl)
  next => rfl

theorem value?_quote (fuel : Nat) (cs : List Char) :
    value? (fuel + 1) ('"' :: cs) =
      (string? cs).map fun (ps, rest) => (((textOf? ps).map text).getD .meaningless, rest) := rfl

/-- A value behind an opening bracket is the first item. -/
theorem value?_items {item : Json} (h : item.Exact) (fuel : Nat) (cs : List Char) :
    value? (fuel + 1) ('[' :: (item.chars ++ cs)) =
      (items? fuel (item.chars ++ cs)).map fun (items, rest) => (.array items, rest) := by
  obtain ⟨c, more, hchars, hc⟩ := exists_chars_eq_cons h
  rw [value?, skip_cons (by decide), hchars, List.cons_append]
  simp only [skip_of_opens hc]
  split
  · next heq => exact absurd (List.cons.inj heq).1 (ne_of_class hc rfl)
  · rfl

/-- A quote behind an opening brace begins the first name. -/
theorem value?_members (name : String) (fuel : Nat) (cs : List Char) :
    value? (fuel + 1) ('\x7b' :: (quoted name ++ cs)) =
      (members? fuel (quoted name ++ cs)).map fun (members, rest) => (objectOf members, rest) := by
  rfl

theorem itemChars_length_pos (items : List Json) : 0 < (itemChars items).length := by
  cases items <;> simp [itemChars]

theorem memberChars_length_pos (members : List (String × Json)) :
    0 < (memberChars members).length := by
  cases members <;> simp [memberChars]

section Closing

variable {fuel : Nat} {cs mid rest : List Char} {name : List Piece} {item j : Json}

theorem items?_last (h : value? fuel cs = some (item, ']' :: rest)) :
    items? (fuel + 1) cs = some ([item], rest) := by
  rw [items?, h]
  rfl

theorem items?_more (h : value? fuel cs = some (item, ',' :: rest)) :
    items? (fuel + 1) cs = (items? fuel rest).map fun (items, rest) => (item :: items, rest) := by
  rw [items?, h]
  rfl

theorem members?_last (hname : string? cs = some (name, ':' :: mid))
    (h : value? fuel mid = some (j, '\x7d' :: rest)) :
    members? (fuel + 1) ('"' :: cs) = some ([(name, j)], rest) := by
  rw [members?, skip_cons (by decide)]
  simp only [hname, skip_cons (c := ':') (by decide), h]
  rfl

theorem members?_more (hname : string? cs = some (name, ':' :: mid))
    (h : value? fuel mid = some (j, ',' :: rest)) :
    members? (fuel + 1) ('"' :: cs) =
      (members? fuel rest).map fun (members, rest) => ((name, j) :: members, rest) := by
  rw [members?, skip_cons (by decide)]
  simp only [hname, skip_cons (c := ':') (by decide), h]
  rfl

end Closing

/-! ## Reading back -/

/-- The end of a number, and the beginning of what follows an item or a member. -/
theorem ends_itemChars (items : List Json) (rest : List Char) : Ends (itemChars items ++ rest) := by
  cases items with
  | nil => rintro c ⟨⟩; decide
  | cons item items => rintro c ⟨⟩; decide

theorem ends_memberChars (members : List (String × Json)) (rest : List Char) :
    Ends (memberChars members ++ rest) := by
  cases members with
  | nil => rintro c ⟨⟩; decide
  | cons m members => rintro c ⟨⟩; decide

def readMember (m : String × Json) : List Piece × Json := (m.1.toList.map piece, m.2)

theorem objectOf_readMember (members : List (String × Json)) :
    objectOf (members.map readMember) = .object members := by
  have hnamed : named? (members.map readMember) = some members := by
    induction members with
    | nil => rfl
    | cons m members ih => simp [named?, readMember, textOf?_pieces, ih]
  rw [objectOf, hnamed]

/-- With so much fuel, what is no longer is read back. -/
structure Restores (fuel : Nat) : Prop where
  value : ∀ {j : Json} {rest : List Char}, j.Exact → j.chars.length ≤ fuel → Ends rest →
    value? fuel (j.chars ++ rest) = some (j, rest)
  items : ∀ {item : Json} {more : List Json} (rest : List Char), item.Exact →
    (∀ j ∈ more, j.Exact) → (item.chars ++ itemChars more).length ≤ fuel →
      items? fuel (item.chars ++ (itemChars more ++ rest)) = some (item :: more, rest)
  members : ∀ (name : String) {j : Json} {more : List (String × Json)} (rest : List Char),
    j.Exact → (∀ m ∈ more, m.2.Exact) →
      (quoted name ++ ':' :: j.chars ++ memberChars more).length ≤ fuel →
        members? fuel (quoted name ++ ':' :: (j.chars ++ (memberChars more ++ rest))) =
          some (((name, j) :: more).map readMember, rest)

namespace Restores

variable {fuel : Nat} (ih : Restores fuel)

include ih

theorem value_succ {j : Json} {rest : List Char} (hj : j.Exact)
    (hfuel : j.chars.length ≤ fuel + 1) (hrest : Ends rest) :
    value? (fuel + 1) (j.chars ++ rest) = some (j, rest) := by
  cases hj with
  | null => rfl
  | bool b => cases b <;> rfl
  | @integer i hlow hhigh =>
    obtain ⟨c, cs, hcs, hc⟩ := exists_integerChars_eq_cons i
    have hread := Number.read?_integerChars i hrest
    rw [chars, Value.integerText_eq, String.toList_ofList]
    rw [hcs, List.cons_append] at hread ⊢
    rw [value?_number hc, hread, Option.map_some]
    dsimp only
    rw [Number.meaning_written hlow hhigh]
  | text s =>
    obtain ⟨cs, hcs, hread⟩ := string?_quoted s rest
    rw [chars, hcs, value?_quote, hread, Option.map_some]
    dsimp only
    rw [textOf?_pieces]
    rfl
  | @array items h =>
    -- the bracket takes the character that the rest of the fuel is short of
    cases items with
    | nil => rfl
    | cons item items =>
      obtain ⟨hitem, hitems⟩ := List.forall_mem_cons.mp h
      simp only [chars, List.cons_append, List.length_cons, List.append_assoc] at hfuel ⊢
      rw [value?_items hitem, ih.items rest hitem hitems (by omega)]
      rfl
  | @object members h =>
    cases members with
    | nil => rfl
    | cons m members =>
      obtain ⟨name, j⟩ := m
      obtain ⟨hj, hmembers⟩ := List.forall_mem_cons.mp h
      simp only [chars, List.cons_append, List.length_cons, List.append_assoc] at hfuel ⊢
      have hread := ih.members name rest hj hmembers (by
        simp only [List.append_assoc, List.cons_append]
        omega)
      rw [value?_members, hread, Option.map_some]
      dsimp only
      rw [objectOf_readMember]

theorem items_succ {item : Json} {more : List Json} (rest : List Char) (hitem : item.Exact)
    (hmore : ∀ j ∈ more, j.Exact) (hfuel : (item.chars ++ itemChars more).length ≤ fuel + 1) :
    items? (fuel + 1) (item.chars ++ (itemChars more ++ rest)) = some (item :: more, rest) := by
  rw [List.length_append] at hfuel
  have hpos := itemChars_length_pos more
  have hvalue := ih.value hitem (by omega) (ends_itemChars more rest)
  -- the array ends here, or a comma and the next item follow
  cases more with
  | nil => exact items?_last hvalue
  | cons next more =>
    obtain ⟨hnext, hmore⟩ := List.forall_mem_cons.mp hmore
    have hread := ih.items rest hnext hmore (by
      simp only [itemChars, List.cons_append, List.length_cons] at hfuel
      omega)
    simp only [itemChars, List.cons_append, List.append_assoc] at hvalue ⊢
    rw [items?_more hvalue, hread]
    rfl

theorem members_succ (name : String) {j : Json} {more : List (String × Json)} (rest : List Char)
    (hj : j.Exact) (hmore : ∀ m ∈ more, m.2.Exact)
    (hfuel : (quoted name ++ ':' :: j.chars ++ memberChars more).length ≤ fuel + 1) :
    members? (fuel + 1) (quoted name ++ ':' :: (j.chars ++ (memberChars more ++ rest))) =
      some (((name, j) :: more).map readMember, rest) := by
  obtain ⟨cs, hcs, hname⟩ := string?_quoted name (':' :: (j.chars ++ (memberChars more ++ rest)))
  have hpos := memberChars_length_pos more
  simp only [List.length_append, List.length_cons] at hfuel
  have hvalue := ih.value hj (by omega) (ends_memberChars more rest)
  rw [hcs]
  -- as with the items
  cases more with
  | nil => exact members?_last hname hvalue
  | cons next more =>
    obtain ⟨next, k⟩ := next
    obtain ⟨hnext, hmore⟩ := List.forall_mem_cons.mp hmore
    have hread := ih.members next rest hnext hmore (by
      simp only [memberChars, List.cons_append, List.length_cons, List.length_append] at hfuel ⊢
      omega)
    simp only [memberChars, List.cons_append, List.append_assoc] at hname hvalue
    rw [members?_more hname hvalue, hread]
    rfl

end Restores

theorem chars_length_pos {j : Json} (h : j.Exact) : 0 < j.chars.length := by
  obtain ⟨c, cs, hcs, -⟩ := exists_chars_eq_cons h
  rw [hcs]
  exact Nat.succ_pos _

theorem restores (fuel : Nat) : Restores fuel := by
  induction fuel with
  | zero =>
    -- no text is empty
    refine ⟨fun hj hfuel _ => ?_, fun _ hitem _ hfuel => ?_, fun _ _ _ _ hj _ hfuel => ?_⟩
    · have hpos := chars_length_pos hj
      omega
    · have hpos := chars_length_pos hitem
      simp only [List.length_append] at hfuel
      omega
    · have hpos := chars_length_pos hj
      simp only [List.length_append, List.length_cons] at hfuel
      omega
  | succ fuel ih => exact ⟨ih.value_succ, ih.items_succ, ih.members_succ⟩

/-- The text of a value without doubles stands for it. -/
theorem ofText?_render {j : Json} (h : j.Exact) : ofText? j.render = some j := by
  have hread := (restores (j.chars.length + 1)).value h (Nat.le_succ _) ends_nil
  rw [List.append_nil] at hread
  rw [ofText?, render, String.toList_ofList, hread]
  rfl

end Json

end SignalCalc
