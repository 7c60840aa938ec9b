import SignalCalc.Proofs.Script.Enclosure
import SignalCalc.Proofs.Token.Nesting

/-! # Expressions are balanced

What the descent reads has its parentheses in pairs: only an operand in parentheses goes over one,
and it ends with the one that closes it. Calls are single tokens, and what their productions do leaves
the tokens at hand alone. An equation that is read to its end is therefore balanced as a text, with no
comma outside of parentheses.
-/

namespace SignalCalc

open Reading

theorem Token.IsFlat.nesting? {t : Token} (h : t.IsFlat) (depth : Nat) :
    t.nesting? depth = some depth := by
  cases t with
  | symbol s =>
    cases s with
    | openParen => exact absurd rfl h.1
    | closeParen => exact absurd rfl h.2
    | _ => rfl
  | number | name | call | placeholder => rfl

section Pieces

variable {α β : Type} {ts : Tokens}

/-- What the piece reads of these tokens has its parentheses in pairs. -/
def KeepsNestingAt (ts : Tokens) (r : Reading α) : Prop :=
  ∀ a rest, (r ts).result = .ok (a, rest) →
    ∀ depth, Tokens.nesting? depth ts.tokens = Tokens.nesting? depth rest.tokens

/-- So it has where the tokens stay as they are. -/
theorem keepsNestingAt_of_still {r : Reading α}
    (h : ∀ a rest, (r ts).result = .ok (a, rest) → rest = ts) : KeepsNestingAt ts r := by
  intro a rest hread depth
  rw [h a rest hread]

theorem keepsNestingAt_emit (a : Action) : KeepsNestingAt ts (Reading.emit a) :=
  keepsNestingAt_of_still fun _ _ h => by
    cases h
    rfl

theorem keepsNestingAt_refuse (f : SourceFault) : KeepsNestingAt ts (refuse f : Reading α) :=
  keepsNestingAt_of_still fun _ _ h => by cases h

theorem KeepsNestingAt.bind {r : Reading α} {next : α → Reading β} (hr : KeepsNestingAt ts r)
    (hnext : ∀ a us, KeepsNestingAt us (next a)) : KeepsNestingAt ts (r >>= next) := by
  intro b rest h depth
  obtain ⟨a, mid, hfirst, hsecond, -⟩ := bind_ok h
  exact (hr a mid hfirst depth).trans (hnext a mid b rest hsecond depth)

theorem keepsNestingAt_look {r : Reading α} {a : α} {next : α → Reading β}
    (hr : r ts = ⟨[], .ok (a, ts)⟩) (h : KeepsNestingAt ts (next a)) :
    KeepsNestingAt ts (r >>= next) := by
  have hboth : (r >>= next) ts = next a ts := by simp [Bind.bind, andThen, hr]
  unfold KeepsNestingAt at h ⊢
  rwa [hboth]

theorem keepsNestingAt_within (text : List Char) (r : Reading Unit) :
    KeepsNestingAt ts (within text r) := by
  apply keepsNestingAt_of_still
  intro a rest h
  simp only [within] at h
  cases hr : (r (Tokens.ofText text)).result with
  | error f => simp [hr, Except.map] at h
  | ok pair =>
    simp only [hr, Except.map, Except.ok.injEq, Prod.mk.injEq] at h
    exact h.2.symm

theorem advance_ok {t : Token} {us : List Token} (hts : ts.tokens = t :: us) {a : Unit}
    {rest : Tokens} (h : (advance ts).result = .ok (a, rest)) : rest.tokens = us := by
  obtain hsettled | ⟨f, hfault⟩ := settle_cases { ts with tokens := ts.tokens.tail }
  · have hadvance : advance ts = ⟨[], .ok ((), { ts with tokens := ts.tokens.tail })⟩ :=
      settle_eq hsettled
    rw [hadvance] at h
    cases h
    simp [hts]
  · have hadvance : advance ts = ⟨[], .error f⟩ := hfault
    rw [hadvance] at h
    cases h

theorem keepsNestingAt_advance {t : Token} {us : List Token} (hts : ts.tokens = t :: us)
    (ht : t.IsFlat) : KeepsNestingAt ts advance := by
  intro a rest h depth
  rw [advance_ok hts h, hts]
  simp [Tokens.nesting?, ht.nesting? depth]

/-- What is opened in front of a piece is closed behind it. -/
theorem keepsNestingAt_group {us : List Token} {x : Reading α}
    (hts : ts.tokens = .symbol .openParen :: us) (hx : ∀ vs, KeepsNestingAt vs x) :
    KeepsNestingAt ts (advance >>= fun _ => x >>= fun _ => closing) := by
  intro b rest h depth
  obtain ⟨_, inner, hadvance, h, -⟩ := bind_ok h
  obtain ⟨_, behind, hread, h, -⟩ := bind_ok h
  obtain ⟨t, _, hlook, hclose, -⟩ := bind_ok h
  cases hlook
  -- the piece stands one deeper, and one is closed behind it
  have hinner := hx inner _ _ hread (depth + 1)
  rw [advance_ok hts hadvance] at hinner
  cases hbehind : behind.tokens with
  | nil =>
    rw [hbehind] at hclose
    cases hclose
  | cons t vs =>
    rw [hbehind] at hclose hinner
    cases t with
    | symbol s =>
      cases s with
      | closeParen =>
        rw [hts, advance_ok hbehind hclose]
        simpa [Tokens.nesting?, Token.nesting?] using hinner
      | _ => cases hclose
    | number | name | call | placeholder => cases hclose

theorem keepsNestingAt_demandGate (gate : Gate) (function : String) :
    KeepsNestingAt ts (demandGate gate function) := by
  cases gate with
  | anywhere => exact keepsNestingAt_of_still fun _ _ h => by cases h; rfl
  | frame | stateful => exact keepsNestingAt_emit _

end Pieces

def nestingTrait (dialect : Dialect) : Trait dialect where
  Holds _ _ _ ts r := KeepsNestingAt ts r
  done a := keepsNestingAt_of_still fun _ _ h => by
    cases h
    rfl
  bind hr hnext := hr.bind hnext
  raise h _ := h
  emit _ _ _ := keepsNestingAt_emit _
  ask _ hnext := fun a rest h => hnext a rest h
  refuse f := keepsNestingAt_refuse f
  look hr h := keepsNestingAt_look hr h
  advance htokens ht hnext := (keepsNestingAt_advance htokens ht).bind fun _ us => hnext us
  group htokens hx := keepsNestingAt_group htokens hx
  settle := keepsNestingAt_of_still fun _ _ h => settle_ok h
  within _ := keepsNestingAt_within _ _
  gated function _ _ _ _ hx := (keepsNestingAt_demandGate _ function).bind fun _ us =>
    (hx us).bind fun _ _ => keepsNestingAt_emit _

theorem balanced_of_reads {dialect : Dialect} {depth : Nat} {cs : List Char} {ts : List Token}
    {acts : List Action} (htokens : Tokens.ofText cs = ⟨ts, .done⟩)
    (h : Reads (expression (operand dialect depth)) ts acts () []) : Balanced cs := by
  have hread : (expression (operand dialect depth) ⟨ts, .done⟩).result = .ok ((), ⟨[], .done⟩) :=
    congrArg Step.result h
  have hnesting := (nestingTrait dialect).expression (g := false) depth _ _ hread 0
  rw [Balanced, nesting?_ofText htokens, hnesting]
  rfl

end SignalCalc
