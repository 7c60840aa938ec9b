import SignalCalc.Options.Json
import SignalCalc.Proofs.Json.RoundTrip

namespace SignalCalc

namespace Json

/-! ## Records -/

theorem member?_of_mem {members : List (String × Json)} (hnames : (members.map (·.1)).Nodup)
    {m : String × Json} (hm : m ∈ members) : member? members m.1 = some (some m.2) := by
  have hfilter : members.filter (·.1 = m.1) = [m] := by
    induction members with
    | nil => cases hm
    | cons n members ih =>
      obtain ⟨hn, hmembers⟩ := List.nodup_cons.mp hnames
      rcases List.mem_cons.mp hm with rfl | hm
      · have hothers : members.filter (·.1 = m.1) = [] := by
          refine List.filter_eq_nil_iff.mpr fun k hk heq => hn ?_
          exact List.mem_map.mpr ⟨k, hk, of_decide_eq_true heq⟩
        simp [hothers]
      · have hne : n.1 ≠ m.1 := fun heq => hn (List.mem_map.mpr ⟨m, hm, heq.symm⟩)
        simp [hne, ih hmembers hm]
  simp only [member?, hfilter]

/-- A record whose names are all different has the fields that it was written with. -/
theorem fields?_object {members : List (String × Json)} (hnames : (members.map (·.1)).Nodup) :
    fields? (members.map (·.1)) (.object members) = some (members.map (some ·.2)) := by
  have hpart : ∀ part : List (String × Json), (∀ m ∈ part, m ∈ members) →
      (part.map (·.1)).mapM (member? members) = some (part.map (some ·.2)) := by
    intro part hsub
    induction part with
    | nil => rfl
    | cons m part ih =>
      obtain ⟨hm, hpart⟩ := List.forall_mem_cons.mp hsub
      simp [List.mapM_cons, member?_of_mem hnames hm, ih hpart]
  exact hpart members fun m hm => hm

theorem fields?_zip (names : List String) (values : List Json) (hnames : names.Nodup)
    (hlength : names.length = values.length) :
    fields? names (.object (names.zip values)) = some (values.map some) := by
  have hfst : (names.zip values).map (·.1) = names :=
    List.map_fst_zip (Nat.le_of_eq hlength)
  have hsnd : (names.zip values).map (some ·.2) = values.map some := by
    have hvalues : (names.zip values).map Prod.snd = values :=
      List.map_snd_zip (Nat.le_of_eq hlength.symm)
    calc (names.zip values).map (some ·.2) = ((names.zip values).map Prod.snd).map some := by
          rw [List.map_map]
          rfl
      _ = values.map some := by rw [hvalues]
  have hfields := fields?_object (hfst.symm ▸ hnames)
  rwa [hfst, hsnd] at hfields

theorem integerIn?_of_mem {lo hi i : Int} (hlow : lo ≤ i) (hhigh : i ≤ hi) :
    (Json.integer i).integerIn? lo hi = some i := by
  simp [integerIn?, hlow, hhigh]

theorem Exact.record (names : List String) (values : List Json) (h : ∀ j ∈ values, j.Exact) :
    (Json.object (names.zip values)).Exact :=
  .object fun _ hm => h _ (List.of_mem_zip hm).2

theorem Exact.tagged (tag : String) {j : Json} (h : j.Exact) : (Json.object [(tag, j)]).Exact :=
  .record [tag] [j] (List.forall_mem_singleton.mpr h)

end Json

open Json

/-! ## Parts -/

theorem Scalar.ofJson?_toJson {s : Scalar} (h : ∀ d, s ≠ .real d) :
    Scalar.ofJson? s.toJson = some s := by
  cases s with
  | signed i =>
    have hi := integerIn?_of_mem (Int64.minValue_le_toInt i) (Int64.toInt_le i)
    simp only [ofJson?, toJson, variant?, hi, Option.map_some, Int64.ofInt_toInt]
  | unsigned n =>
    have hn : (Json.integer n.toNat).integerIn? 0 Numeral.wordMax = some (n.toNat : Int) := by
      refine integerIn?_of_mem (Int.natCast_nonneg _) ?_
      have := n.toNat_lt
      simp only [Numeral.wordMax]
      omega
    simp [ofJson?, toJson, variant?, hn]
  | real d => exact absurd rfl (h d)

theorem Scalar.exact_toJson {s : Scalar} (h : ∀ d, s ≠ .real d) : s.toJson.Exact := by
  cases s with
  | signed i =>
    have hlow := i.le_toInt
    have hhigh := i.toInt_lt
    exact .tagged "I64" (.integer hlow (by omega))
  | unsigned n =>
    have hhigh := n.toNat_lt
    exact .tagged "U64" (.integer (by omega) (by omega))
  | real d => exact absurd rfl (h d)

theorem Value.scalar_ne_real {v : Value} (h : v.isReal = false) (d : Float) : v.scalar ≠ .real d := by
  intro heq
  rw [isReal, heq] at h
  cases h

theorem Value.ofJson?_toJson {v : Value} (h : v.isReal = false) : Value.ofJson? v.toJson = some v := by
  have hscalar := Scalar.ofJson?_toJson (Value.scalar_ne_real h)
  obtain ⟨scalar, width⟩ := v
  have hwidth : (Json.integer width.toNat).integerIn? 0 255 = some (width.toNat : Int) := by
    refine integerIn?_of_mem (Int.natCast_nonneg _) ?_
    have := width.toNat_lt
    omega
  have hfields : (Value.toJson ⟨scalar, width⟩).fields? ["value", "width"] =
      some [some scalar.toJson, some (.integer width.toNat)] :=
    fields?_zip ["value", "width"] [_, _] (by decide) rfl
  simp [ofJson?, hfields, hscalar, hwidth]

theorem Value.exact_toJson {v : Value} (h : v.isReal = false) : v.toJson.Exact := by
  have hscalar := Scalar.exact_toJson (Value.scalar_ne_real h)
  have hwidth := v.width.toNat_lt
  refine .record ["value", "width"] [_, _] (List.forall_mem_cons.mpr ⟨hscalar, ?_⟩)
  exact List.forall_mem_singleton.mpr (.integer (by omega) (by omega))

theorem MissingVariables.ofJson?_toJson (m : MissingVariables) :
    MissingVariables.ofJson? m.toJson = some m := by
  cases m <;> rfl

theorem Placeholder.ofJson?_toJson {p : Placeholder} (h : ∀ v, p = .value v → v.isReal = false) :
    Placeholder.ofJson? p.toJson = some p := by
  cases p with
  | forbidden => rfl
  | parameter => rfl
  | value v => simp [ofJson?, toJson, variant?, Value.ofJson?_toJson (h v rfl)]
  | named name => rfl

theorem Placeholder.exact_toJson {p : Placeholder} (h : ∀ v, p = .value v → v.isReal = false) :
    p.toJson.Exact := by
  cases p with
  | forbidden => exact .text "None"
  | parameter => exact .text "Parameter"
  | value v => exact .tagged "Value" (Value.exact_toJson (h v rfl))
  | named name => exact .tagged "Variable" (.text name)

theorem Replacement.ofJson?_toJson {r : Replacement} (h : r.value.isReal = false) :
    Replacement.ofJson? r.toJson = some r := by
  have hfields : r.toJson.fields? ["name", "value"] =
      some [some (.text r.name), some r.value.toJson] :=
    fields?_zip ["name", "value"] [_, _] (by decide) rfl
  simp [ofJson?, hfields, text?, Value.ofJson?_toJson h]

theorem Replacement.exact_toJson {r : Replacement} (h : r.value.isReal = false) :
    r.toJson.Exact := by
  refine .record ["name", "value"] [_, _] (List.forall_mem_cons.mpr ⟨.text r.name, ?_⟩)
  exact List.forall_mem_singleton.mpr (Value.exact_toJson h)

/-! ## Options -/

namespace Options

theorem owner?_toJson (pid : Int32) : owner? (.integer pid.toInt) = some pid := by
  have hpid := integerIn?_of_mem (Int32.minValue_le_toInt pid) (Int32.toInt_le pid)
  simp only [owner?, hpid, Option.map_some, Int32.ofInt_toInt]

structure Exact (o : Options) : Prop where
  placeholder : ∀ v, o.placeholder = .value v → v.isReal = false
  replacement : ∀ r, o.replacement = some r → r.value.isReal = false

theorem ofJson?_toJson {o : Options} (h : o.Exact) : ofJson? o.toJson = some o := by
  have hfields : o.toJson.fields? fieldNames = some
      [some o.missing.toJson, some (.bool o.frameFunctions), some (.bool o.scriptLocals),
        some o.placeholder.toJson, some (o.owner.elim .null fun pid => .integer pid.toInt),
        some (.bool o.lockHeld), some (o.replacement.elim .null Replacement.toJson)] :=
    fields?_zip fieldNames [_, _, _, _, _, _, _] (by decide) rfl
  have howner : optional? owner? (o.owner.elim .null fun pid => .integer pid.toInt) =
      some o.owner := by
    cases o.owner with
    | none => rfl
    | some pid => simp [optional?, owner?_toJson]
  have hreplacement : optional? Replacement.ofJson? (o.replacement.elim .null Replacement.toJson) =
      some o.replacement := by
    cases hr : o.replacement with
    | none => rfl
    | some r =>
      have hread := Replacement.ofJson?_toJson (h.replacement r hr)
      change (Replacement.ofJson? r.toJson).map some = _
      rw [hread]
      rfl
  simp [ofJson?, hfields, field, MissingVariables.ofJson?_toJson, bool?,
    Placeholder.ofJson?_toJson h.placeholder, howner, hreplacement]

theorem exact_toJson {o : Options} (h : o.Exact) : o.toJson.Exact := by
  have howner : (o.owner.elim Json.null fun pid => .integer pid.toInt).Exact := by
    cases o.owner with
    | none => exact .null
    | some pid =>
      have hlow := pid.le_toInt
      have hhigh := pid.toInt_lt
      exact .integer (by omega) (by omega)
  have hreplacement : (o.replacement.elim Json.null Replacement.toJson).Exact := by
    cases hr : o.replacement with
    | none => exact .null
    | some r => exact Replacement.exact_toJson (h.replacement r hr)
  refine .record fieldNames _ fun j hj => ?_
  simp only [List.mem_cons, List.not_mem_nil, or_false] at hj
  rcases hj with rfl | rfl | rfl | rfl | rfl | rfl | rfl
  · exact .text _
  · exact .bool _
  · exact .bool _
  · exact Placeholder.exact_toJson h.placeholder
  · exact howner
  · exact .bool _
  · exact hreplacement

end Options

/-- Options without doubles are read back from their text exactly: whatever characters their names
are made of, and whatever the integers and widths of their values are. -/
theorem options_survive_text {o : Options} (h : o.Exact) : Options.ofText? o.render = some o := by
  rw [Options.ofText?, Options.render, Json.ofText?_render (Options.exact_toJson h)]
  exact Options.ofJson?_toJson h

/-- Names with quotes, backslashes, control characters and characters beyond 16 bits, and the
extreme values of both domains. -/
theorem options_survive_text_extremes :
    let named : Options :=
      { missing := .stopOnAccess, scriptLocals := true
        placeholder := .named "a \"b\" \\ \x01\x0c\n\x7f é😀", owner := some (-2147483648)
        replacement := some ⟨"\x00/\r\t\x1f", ⟨.unsigned 0xFFFFFFFFFFFFFFFF, 255⟩⟩ }
    let fixed : Options :=
      { frameFunctions := true, lockHeld := true
        placeholder := .value ⟨.signed (-9223372036854775808), 0⟩ }
    Options.ofText? named.render = some named ∧ Options.ofText? fixed.render = some fixed := by
  intro named fixed
  constructor
  · refine options_survive_text ⟨?_, ?_⟩
    · rintro v ⟨⟩
    · rintro r ⟨⟩
      rfl
  · refine options_survive_text ⟨?_, ?_⟩
    · rintro v ⟨⟩
      rfl
    · rintro r ⟨⟩

end SignalCalc
