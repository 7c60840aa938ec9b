import SignalCalc.Proofs.Machine.Writes
import SignalCalc.Proofs.Store.Lending

namespace SignalCalc

structure Sight where
  value : Value
  dataType : DataType
  conversion : Option Conversion

def Slot.sight (slot : Slot) : Sight := ⟨slot.value, slot.dataType, slot.conversion⟩

def Sight.put (seen : Sight) (value : Value) : Sight :=
  { seen with value := seen.dataType.coerce value }

def Slot.outline (slot : Slot) : Slot := { slot with value := default, attachments := 0 }

namespace MemoryStore

/-! ## What the machine sees -/

def sight (s : MemoryStore) (id : VarId) : Option Sight := (s.slot? id).map (·.sight)

/-- The store `t` shows every variable of `s` as `s` does. -/
def Shows (t s : MemoryStore) : Prop := ∀ id seen, s.sight id = some seen → t.sight id = some seen

theorem Shows.refl (s : MemoryStore) : Shows s s := fun _ _ h => h

theorem Shows.trans {s t u : MemoryStore} (h : Shows t s) (h' : Shows u t) : Shows u s :=
  fun id seen hs => h' id seen (h id seen hs)

theorem Shows.sight_eq {s t : MemoryStore} (h : Shows t s) {id : VarId}
    (hid : (s.slot? id).isSome) : t.sight id = s.sight id := by
  obtain ⟨slot, hslot⟩ := Option.isSome_iff_exists.mp hid
  have hseen : s.sight id = some slot.sight := by rw [sight, hslot]; rfl
  rw [hseen]
  exact h id _ hseen

theorem read_of_sight (s : MemoryStore) (id : VarId) :
    s.read id = ((s.sight id).map (·.value)).getD default := by
  unfold read sight
  cases s.slot? id <;> rfl

theorem dataType_of_sight (s : MemoryStore) (id : VarId) :
    s.dataType id = ((s.sight id).map (·.dataType)).getD default := by
  unfold dataType sight
  cases s.slot? id <;> rfl

theorem readPhysical_of_sight (s : MemoryStore) (id : VarId) :
    s.readPhysical id =
      match s.sight id with
      | none => .error (.unknownVariable id)
      | some ⟨_, _, none⟩ => .error (.noConversion id)
      | some ⟨v, _, some c⟩ => .ok (v.toFloat * c.factor + c.offset) := by
  unfold readPhysical conversion? sight
  cases s.slot? id with
  | none => rfl
  | some slot =>
    obtain ⟨_, _, _, _, _, _, conversion, _, _⟩ := slot
    cases conversion <;> rfl

theorem write_of_sight (s : MemoryStore) (id : VarId) (value : Value) (lockHeld : Bool) :
    MemoryStore.write id value lockHeld s =
      match s.sight id with
      | none => .error (.unknownVariable id) s
      | some _ => .ok () (s.update id (·.put value)) := by
  unfold MemoryStore.write sight
  cases s.slot? id <;> rfl

theorem writePhysical_of_sight (s : MemoryStore) (id : VarId) (value : Float) (lockHeld : Bool) :
    MemoryStore.writePhysical id value lockHeld s =
      match s.sight id with
      | none => .error (.unknownVariable id) s
      | some ⟨_, _, none⟩ => .error (.noConversion id) s
      | some ⟨_, _, some c⟩ =>
        if c.factor == 0.0 then .error (.noConversion id) s
        else .ok () (s.update id (·.put (.ofFloat ((value - c.offset) / c.factor)))) := by
  unfold MemoryStore.writePhysical conversion? sight
  cases s.slot? id with
  | none => rfl
  | some slot =>
    obtain ⟨_, _, _, _, _, _, conversion, _, _⟩ := slot
    cases conversion <;> rfl

theorem sight_put (s : MemoryStore) (id x : VarId) (value : Value) :
    (s.update id (·.put value)).sight x =
      if x = id then (s.sight x).map (·.put value) else s.sight x := by
  unfold sight
  rw [slot?_update s id x (keepsIdentity_put value)]
  split
  · cases s.slot? x <;> rfl
  · rfl

theorem Shows.put {s t : MemoryStore} (h : Shows t s) (id : VarId) (value : Value) :
    Shows (t.update id (·.put value)) (s.update id (·.put value)) := by
  intro x seen hseen
  rw [sight_put] at hseen ⊢
  split at hseen
  · next hx =>
    obtain ⟨old, hold, rfl⟩ := Option.map_eq_some_iff.mp hseen
    rw [if_pos hx, h x old hold]
    rfl
  · next hx =>
    rw [if_neg hx]
    exact h x seen hseen

theorem sight_recount (s : MemoryStore) (id x : VarId) (count : Nat → Nat) :
    (s.update id fun slot => { slot with attachments := count slot.attachments }).sight x =
      s.sight x := by
  unfold sight
  rw [slot?_update s id x (keepsIdentity_attachments count)]
  split
  · cases s.slot? x <;> rfl
  · rfl

theorem sight_attach (s : MemoryStore) (id x : VarId) : (s.attach id).sight x = s.sight x :=
  sight_recount s id x (· + 1)

theorem sight_insert (s : MemoryStore) (new : VarId → Slot) (x : VarId) :
    (s.insert new).sight x =
      (s.sight x).or (if (new s.freshId).id = x then some (new s.freshId).sight else none) := by
  unfold sight
  rw [slot?_insert]
  cases s.slot? x with
  | some slot => rfl
  | none => split <;> rfl

theorem Written.sight_other {ids : VarId → Prop} {s t : MemoryStore} (h : Written ids s t)
    {id : VarId} (hid : ¬ ids id) : t.sight id = s.sight id := by
  unfold sight
  rw [h.slot?_other hid]

/-! ## Outlines -/

def outline (s : MemoryStore) : MemoryStore := { s with slots := s.slots.map (·.outline) }

theorem slot?_outline (s : MemoryStore) (id : VarId) :
    s.outline.slot? id = (s.slot? id).map (·.outline) := by
  simp only [slot?, outline, List.find?_map, Function.comp_def]
  rfl

theorem lookup_outline (s : MemoryStore) (name : String) : s.outline.lookup name = s.lookup name := by
  simp only [lookup, named?, outline, List.find?_map, Function.comp_def, Option.map_map]
  rfl

theorem hasConversion_outline (s : MemoryStore) (id : VarId) :
    s.outline.hasConversion id = s.hasConversion id := by
  unfold hasConversion
  rw [slot?_outline]
  cases s.slot? id <;> rfl

theorem enumValue?_outline (s : MemoryStore) (id : VarId) (text : String) :
    s.outline.enumValue? id text = s.enumValue? id text := by
  unfold enumValue?
  rw [slot?_outline]
  cases s.slot? id <;> rfl

theorem outline_update (s : MemoryStore) (id : VarId) {f : Slot → Slot}
    (hf : ∀ slot, (f slot).outline = slot.outline) : (s.update id f).outline = s.outline := by
  simp only [outline, update, List.map_map]
  congr 1
  refine List.map_congr_left fun slot _ => ?_
  simp only [Function.comp_def]
  split
  · exact hf slot
  · rfl

theorem outline_attach (s : MemoryStore) (id : VarId) : (s.attach id).outline = s.outline :=
  outline_update s id fun _ => rfl

theorem outline_insert (s : MemoryStore) (new : VarId → Slot) :
    (s.insert new).outline = s.outline.insert fun id => (new id).outline := by
  simp [outline, MemoryStore.insert, freshId]

theorem Written.outline_eq {ids : VarId → Prop} {s t : MemoryStore} (h : Written ids s t) :
    t.outline = s.outline := by
  induction h with
  | refl => rfl
  | @write s' s'' id value _ _ _ hw ih =>
    rw [(write_ok hw).2, outline_update s' id (f := (·.put value)) fun _ => rfl, ih]

section Alike

variable {s t : MemoryStore} (h : s.outline = t.outline)
include h

theorem lookup_of_outline (name : String) : s.lookup name = t.lookup name := by
  rw [← lookup_outline s, h, lookup_outline]

theorem hasConversion_of_outline (id : VarId) : s.hasConversion id = t.hasConversion id := by
  rw [← hasConversion_outline s, h, hasConversion_outline]

theorem enumValue?_of_outline (id : VarId) (text : String) :
    s.enumValue? id text = t.enumValue? id text := by
  rw [← enumValue?_outline s, h, enumValue?_outline]

theorem isSome_slot?_of_outline (id : VarId) : (s.slot? id).isSome = (t.slot? id).isSome := by
  rw [← Option.isSome_map (f := Slot.outline), ← slot?_outline, h, slot?_outline, Option.isSome_map]

theorem freshId_of_outline : s.freshId = t.freshId := by
  have hlast : s.outline.lastId = t.outline.lastId := by rw [h]
  exact congrArg (fun n => VarId.mk (n + 1)) hlast

end Alike

/-! ## Names and variables -/

def KeepsNames (s t : MemoryStore) : Prop :=
  ∀ name id, s.lookup name = some id → t.lookup name = some id

theorem KeepsNames.refl (s : MemoryStore) : KeepsNames s s := fun _ _ h => h

theorem KeepsNames.trans {s t u : MemoryStore} (h : KeepsNames s t) (h' : KeepsNames t u) :
    KeepsNames s u := fun name id hs => h' name id (h name id hs)

theorem lookup_attach (s : MemoryStore) (id : VarId) (name : String) :
    (s.attach id).lookup name = s.lookup name :=
  lookup_of_outline (outline_attach s id) name

theorem lookup_insert (s : MemoryStore) (new : VarId → Slot) (name : String) :
    (s.insert new).lookup name =
      (s.lookup name).or (if (new s.freshId).name = name then some (new s.freshId).id else none) := by
  simp only [lookup, named?, MemoryStore.insert, List.find?_append, List.find?_singleton]
  cases s.slots.find? fun slot => decide (slot.name = name) with
  | some slot => rfl
  | none => by_cases h : (new s.freshId).name = name <;> simp [h]

/-- A resolved name stands for the variable from then on, and the others for theirs. -/
theorem lookup_of_resolve {s t : MemoryStore} {name : String} {policy : ExistPolicy}
    {owner : Option Int32} {b : Binding} (h : MemoryStore.resolve name policy owner s = .ok b t) :
    t.lookup name = some b.id ∧ KeepsNames s t := by
  obtain ⟨id, hname, rfl, rfl⟩ | ⟨hname, -, rfl, rfl⟩ := resolve_ok h
  · exact ⟨by rw [lookup_attach, hname], fun x id' hx => by rw [lookup_attach, hx]⟩
  · refine ⟨by simp [lookup_insert, hname, newSlot], ?_⟩
    intro x id hx
    simp [lookup_insert, hx]

end MemoryStore

end SignalCalc
