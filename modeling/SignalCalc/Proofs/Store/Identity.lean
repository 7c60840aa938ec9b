import SignalCalc.Proofs.Machine.Writes
import SignalCalc.Proofs.Store.Lending

/-! # Identity of variables

A host knows a variable by name or by number, and it may hold on to a number long after the variable
is gone. This module follows the list of slots through any list of requests, with names and numbers
of any kind. A request does one of four things to the slots (`Served`), and from that comes what is
true of many requests: names keep their numbers as long as they stay, and a number that was used up
stays so (`Later`).
-/

namespace SignalCalc

def endState {ε S α : Type} : EStateM.Result ε S α → S
  | .ok _ s => s
  | .error _ s => s

theorem Keeps.endState {ε S α : Type} {R : S → S → Prop} {x : EStateM ε S α} (hx : Keeps R x)
    (s : S) : R s (endState (x s)) := by
  have h := hx s
  cases hxs : x s with
  | ok a t =>
    rw [hxs] at h
    exact h
  | error e t =>
    rw [hxs] at h
    exact h

namespace MemoryStore

/-! ## Requests -/

inductive Request where
  | define (name : String) (type : DataType) (value : Value)
  | setConversion (name : String) (c : Conversion)
  | addEnum (name text : String) (value : Int64)
  | resolve (name : String) (policy : ExistPolicy) (owner : Option Int32)
  | write (id : VarId) (value : Value) (lockHeld : Bool)
  | writePhysical (id : VarId) (value : Float) (lockHeld : Bool)
  | attach (id : VarId)
  | detach (id : VarId)

def serve (s : MemoryStore) : Request → MemoryStore
  | .define name type value => (s.define name type value).2
  | .setConversion name c => (s.setConversion name c).2
  | .addEnum name text value => (s.addEnum name text value).2
  | .resolve name policy owner => endState (MemoryStore.resolve name policy owner s)
  | .write id value lockHeld => endState (MemoryStore.write id value lockHeld s)
  | .writePhysical id value lockHeld => endState (MemoryStore.writePhysical id value lockHeld s)
  | .attach id => s.attach id
  | .detach id => s.detach id

def grants (s : MemoryStore) : Request → Option VarId
  | .define name type value => some (s.define name type value).1
  | .resolve name policy owner =>
    match MemoryStore.resolve name policy owner s with
    | .ok b _ => some b.id
    | .error _ _ => none
  | _ => none

def serveAll (s : MemoryStore) (requests : List Request) : MemoryStore := requests.foldl serve s

theorem serveAll_append (s : MemoryStore) (first second : List Request) :
    s.serveAll (first ++ second) = (s.serveAll first).serveAll second :=
  List.foldl_append

variable {s t : MemoryStore} {r : Request}

/-- What a request can do: nothing, change a slot that keeps its identity, add a slot under the next
number and a new name, or remove the slot of which the last attachment is given back. -/
inductive Served (s : MemoryStore) (r : Request) : MemoryStore → Prop where
  | unchanged : Served s r s
  | changed (id : VarId) {f : Slot → Slot} (hf : KeepsIdentity f) : Served s r (s.update id f)
  | added {new : VarId → Slot} (hid : (new s.freshId).id = s.freshId)
      (hname : s.lookup (new s.freshId).name = none) : Served s r (s.insert new)
  | removed {id : VarId} {slot : Slot} (hr : r = .detach id) (hslot : s.slot? id = some slot)
      (hpinned : slot.pinned = false) (hlast : slot.attachments ≤ 1) :
      Served s r { s with slots := s.slots.filter (·.id ≠ id) }

def declaredSlot (name : String) (type : DataType) (value : Value) (id : VarId) : Slot :=
  { id := id, name := name, value := type.coerce value, dataType := type, attachments := 0,
    pinned := true }

def redeclared (type : DataType) (value : Value) (slot : Slot) : Slot :=
  { slot with dataType := type, value := type.coerce value, pinned := true }

theorem keepsIdentity_redeclared (type : DataType) (value : Value) :
    KeepsIdentity (redeclared type value) :=
  ⟨fun _ => rfl, fun _ => rfl⟩

/-- A name that is declared was known and keeps its number, or it gets the next one. -/
theorem define_cases (s : MemoryStore) (name : String) (type : DataType) (value : Value) :
    (∃ id, s.lookup name = some id ∧
        s.define name type value = (id, s.update id (redeclared type value))) ∨
      (s.lookup name = none ∧
        s.define name type value = (s.freshId, s.insert (declaredSlot name type value))) := by
  unfold MemoryStore.define
  cases hname : s.lookup name with
  | some id => exact .inl ⟨id, rfl, rfl⟩
  | none => exact .inr ⟨rfl, rfl⟩

theorem served_updateNamed (s : MemoryStore) (r : Request) (name : String) {f : Slot → Slot}
    (hf : KeepsIdentity f) : Served s r (s.updateNamed name f).2 := by
  unfold updateNamed
  split
  · exact .changed _ hf
  · exact .unchanged

theorem served (s : MemoryStore) (r : Request) : Served s r (s.serve r) := by
  cases r with
  | define name type value =>
    simp only [serve]
    rcases define_cases s name type value with ⟨id, -, hdefine⟩ | ⟨hname, hdefine⟩
    · rw [hdefine]
      exact .changed id (keepsIdentity_redeclared type value)
    · rw [hdefine]
      exact .added rfl hname
  | setConversion name c => exact served_updateNamed s _ name ⟨fun _ => rfl, fun _ => rfl⟩
  | addEnum name text value => exact served_updateNamed s _ name ⟨fun _ => rfl, fun _ => rfl⟩
  | resolve name policy owner =>
    simp only [serve]
    cases hr : MemoryStore.resolve name policy owner s with
    | error e t =>
      obtain ⟨-, -, rfl⟩ := resolve_error hr
      exact .unchanged
    | ok b t =>
      rcases resolve_ok hr with ⟨id, -, -, rfl⟩ | ⟨hname, -, -, rfl⟩
      · exact .changed id (keepsIdentity_attachments (· + 1))
      · exact .added rfl hname
  | write id value lockHeld =>
    simp only [serve, MemoryStore.write]
    split
    · exact .changed id (keepsIdentity_put value)
    · exact .unchanged
  | writePhysical id value lockHeld =>
    simp only [serve, MemoryStore.writePhysical]
    split
    · exact .unchanged
    · split
      · exact .unchanged
      · exact .changed id (keepsIdentity_put _)
  | attach id => exact .changed id (keepsIdentity_attachments (· + 1))
  | detach id =>
    simp only [serve, MemoryStore.detach]
    -- only here can a slot go
    cases hslot : s.slot? id with
    | none => exact .unchanged
    | some slot =>
      dsimp only
      split
      · next hlast => exact .removed rfl hslot hlast.2 hlast.1
      · exact .changed id (keepsIdentity_attachments (· - 1))

/-! ## One request -/

theorem WellFormed.lookup_iff (hs : s.WellFormed) {name : String} {id : VarId} :
    s.lookup name = some id ↔ ∃ slot, s.slot? id = some slot ∧ slot.name = name := by
  constructor
  · intro hname
    obtain ⟨slot, hslot, hnamed⟩ := hs.slot?_of_lookup hname
    exact ⟨slot, hslot, (mem_of_named? hnamed).2⟩
  · rintro ⟨slot, hslot, rfl⟩
    obtain ⟨hmem, rfl⟩ := mem_of_slot? hslot
    simp [lookup, hs.named?_of_mem hmem]

theorem slot?_erase_self (s : MemoryStore) (id : VarId) :
    ({ s with slots := s.slots.filter (·.id ≠ id) } : MemoryStore).slot? id = none := by
  rw [slot?_eq_none_iff]
  intro slot hmem
  simpa using (List.mem_filter.mp hmem).2

theorem Served.lastId_le (h : Served s r t) : s.lastId ≤ t.lastId := by
  cases h with
  | unchanged | changed | removed => exact Nat.le_refl _
  | added => exact Nat.le_succ _

/-- A slot goes only if its last attachment is given back. -/
theorem Served.gone (h : Served s r t) {id : VarId} {slot : Slot} (hslot : s.slot? id = some slot)
    (hgone : t.slot? id = none) : r = .detach id ∧ slot.pinned = false ∧ slot.attachments ≤ 1 := by
  cases h with
  | unchanged => simp [hslot] at hgone
  | changed x hf =>
    rw [slot?_update s x id hf] at hgone
    split at hgone <;> simp [hslot] at hgone
  | added hid hname => simp [slot?_insert, hslot] at hgone
  | @removed x old hr hold hpinned hlast =>
    by_cases hx : id = x
    · obtain rfl := hx
      obtain rfl := Option.some.inj (hold.symm.trans hslot)
      exact ⟨hr, hpinned, hlast⟩
    · rw [slot?_erase hx, hslot] at hgone
      cases hgone

/-- A slot that stays keeps its name. -/
theorem Served.name (h : Served s r t) {id : VarId} {slot slot' : Slot}
    (hslot : s.slot? id = some slot) (hslot' : t.slot? id = some slot') :
    slot'.name = slot.name := by
  cases h with
  | unchanged => rw [Option.some.inj (hslot.symm.trans hslot')]
  | @changed x f hf =>
    rw [slot?_update s x id hf, hslot] at hslot'
    split at hslot'
    · rw [← Option.some.inj hslot']
      exact hf.name slot
    · rw [Option.some.inj hslot']
  | added hid hname =>
    rw [slot?_insert, hslot] at hslot'
    rw [Option.some.inj hslot']
  | @removed x _ _ _ _ _ =>
    by_cases hx : id = x
    · rw [hx, slot?_erase_self] at hslot'
      cases hslot'
    · rw [slot?_erase hx, hslot] at hslot'
      rw [Option.some.inj hslot']

/-- A number that comes into use is the next one, and its name was not in use. -/
theorem Served.new (h : Served s r t) {id : VarId} {slot : Slot} (hnone : s.slot? id = none)
    (hslot : t.slot? id = some slot) : s.lastId < id.val ∧ s.lookup slot.name = none := by
  cases h with
  | unchanged => simp [hnone] at hslot
  | changed x hf =>
    rw [slot?_update s x id hf, hnone] at hslot
    split at hslot <;> cases hslot
  | @added new hid hname =>
    rw [slot?_insert, hnone] at hslot
    simp only [Option.none_or, Option.ite_none_right_eq_some, Option.some.injEq] at hslot
    obtain ⟨hx, rfl⟩ := hslot
    rw [← hx, hid]
    exact ⟨Nat.lt_succ_self s.lastId, hname⟩
  | @removed x _ _ _ _ _ =>
    by_cases hx : id = x
    · rw [hx, slot?_erase_self] at hslot
      cases hslot
    · rw [slot?_erase hx, hnone] at hslot
      cases hslot

theorem Served.lookup (h : Served s r t) (hs : s.WellFormed) (ht : t.WellFormed) {name : String}
    {id id' : VarId} (hname : s.lookup name = some id) (hname' : t.lookup name = some id') :
    id' = id := by
  obtain ⟨slot', hslot', hnamed⟩ := ht.lookup_iff.mp hname'
  cases hslot : s.slot? id' with
  | some slot =>
    have hold : s.lookup name = some id' :=
      hs.lookup_iff.mpr ⟨slot, hslot, by rw [← h.name hslot hslot', hnamed]⟩
    exact Option.some.inj (hold.symm.trans hname)
  | none =>
    -- a new number would have come with a new name
    have hnew := (h.new hslot hslot').2
    rw [hnamed, hname] at hnew
    cases hnew

theorem isSome_slot?_insert (s : MemoryStore) {new : VarId → Slot}
    (hid : (new s.freshId).id = s.freshId) : ((s.insert new).slot? s.freshId).isSome := by
  simp [slot?_insert, hid]

theorem grants_known (hs : s.WellFormed) {id : VarId} (h : s.grants r = some id) :
    ((s.serve r).slot? id).isSome := by
  cases r with
  | define name type value =>
    simp only [grants, Option.some.injEq] at h
    simp only [serve, ← h]
    rcases define_cases s name type value with ⟨x, hname, hdefine⟩ | ⟨-, hdefine⟩
    · obtain ⟨slot, hslot, -⟩ := hs.slot?_of_lookup hname
      rw [hdefine, isSome_slot?_update s x x (keepsIdentity_redeclared type value), hslot]
      rfl
    · rw [hdefine]
      exact isSome_slot?_insert s rfl
  | resolve name policy owner =>
    simp only [grants] at h
    simp only [serve]
    cases hr : MemoryStore.resolve name policy owner s with
    | error e t => simp [hr] at h
    | ok b t =>
      simp only [hr, Option.some.injEq] at h
      simp only [endState, ← h]
      rcases resolve_ok hr with ⟨x, hname, rfl, rfl⟩ | ⟨-, -, rfl, rfl⟩
      · obtain ⟨slot, hslot, -⟩ := hs.slot?_of_lookup hname
        rw [MemoryStore.attach, isSome_slot?_update s x x (keepsIdentity_attachments (· + 1)),
          hslot]
        rfl
      · exact isSome_slot?_insert s rfl
  | setConversion | addEnum | write | writePhysical | attach | detach => cases h

/-! ## Many requests -/

theorem Reachable.serve (h : Reachable s) (r : Request) : Reachable (s.serve r) := by
  cases r with
  | define name type value => exact h.define name type value
  | setConversion name c => exact h.setConversion name c
  | addEnum name text value => exact h.addEnum name text value
  | resolve name policy owner =>
    simp only [MemoryStore.serve]
    cases hr : MemoryStore.resolve name policy owner s with
    | ok b t => exact h.resolve hr
    | error e t =>
      obtain ⟨-, -, rfl⟩ := resolve_error hr
      exact h
  | write id value lockHeld => exact ((write_keeps id value lockHeld).endState s).reachable h
  | writePhysical id value lockHeld =>
    exact ((writePhysical_keeps id value lockHeld).endState s).reachable h
  | attach id => exact h.attach id
  | detach id => exact h.detach id

/-- The store `t` has come after `s`: what has a number in both has the same name in both, and a
number that was used up stays so. -/
structure Later (s t : MemoryStore) : Prop where
  lastId_le : s.lastId ≤ t.lastId
  name : ∀ {id slot slot'}, s.slot? id = some slot → t.slot? id = some slot' →
    slot'.name = slot.name
  usedUp : ∀ {id : VarId}, id.val ≤ s.lastId → s.slot? id = none → t.slot? id = none

theorem Later.refl (s : MemoryStore) : Later s s where
  lastId_le := Nat.le_refl _
  name h h' := by rw [Option.some.inj (h.symm.trans h')]
  usedUp _ h := h

theorem Served.later (h : Served s r t) : Later s t where
  lastId_le := h.lastId_le
  name := h.name
  usedUp hle hnone := by
    cases hslot : t.slot? _ with
    | none => rfl
    | some slot => exact absurd hle (Nat.not_le.mpr (h.new hnone hslot).1)

theorem Later.trans {u : MemoryStore} (hs : s.WellFormed) (h : Later s t) (h' : Later t u) :
    Later s u where
  lastId_le := Nat.le_trans h.lastId_le h'.lastId_le
  name := by
    intro id slot slot'' hslot hslot''
    obtain ⟨hmem, rfl⟩ := mem_of_slot? hslot
    have hle := hs.id_le slot hmem
    cases hslot' : t.slot? slot.id with
    | some slot' => rw [h'.name hslot' hslot'', h.name hslot hslot']
    | none =>
      -- gone in between means gone for good
      rw [h'.usedUp (Nat.le_trans hle h.lastId_le) hslot'] at hslot''
      cases hslot''
  usedUp hle hnone := h'.usedUp (Nat.le_trans hle h.lastId_le) (h.usedUp hle hnone)

theorem Reachable.serveAll (h : Reachable s) (requests : List Request) :
    Reachable (s.serveAll requests) ∧ Later s (s.serveAll requests) := by
  induction requests generalizing s with
  | nil => exact ⟨h, .refl s⟩
  | cons r requests ih =>
    obtain ⟨hreachable, hlater⟩ := ih (h.serve r)
    exact ⟨hreachable, (served s r).later.trans h.wellFormed hlater⟩

theorem lookup_serveAll (h : Reachable s) {requests : List Request} {name : String} {id : VarId}
    (hname : s.lookup name = some id)
    (hstays : ∀ k, ((s.serveAll (requests.take k)).lookup name).isSome) :
    (s.serveAll requests).lookup name = some id := by
  induction requests generalizing s with
  | nil => exact hname
  | cons r requests ih =>
    obtain ⟨id', hname'⟩ := Option.isSome_iff_exists.mp (hstays 1)
    have hsame : id' = id :=
      (served s r).lookup h.wellFormed (h.serve r).wellFormed hname hname'
    exact ih (h.serve r) (hsame ▸ hname') fun k => hstays (k + 1)

/-- A number that has gone out of use does not come back, and is not handed out. -/
theorem retired (h : Reachable s) {first : List Request} (second : List Request) {id : VarId}
    (hid : (s.slot? id).isSome) (hgone : (s.serveAll first).slot? id = none) :
    (s.serveAll (first ++ second)).slot? id = none ∧
      ∀ r, (s.serveAll (first ++ second)).grants r ≠ some id := by
  obtain ⟨slot, hslot⟩ := Option.isSome_iff_exists.mp hid
  obtain ⟨hmem, hid⟩ := mem_of_slot? hslot
  obtain ⟨hfirst, hlater⟩ := h.serveAll first
  have hle : id.val ≤ (s.serveAll first).lastId :=
    Nat.le_trans (hid ▸ h.wellFormed.id_le slot hmem) hlater.lastId_le
  rw [serveAll_append]
  obtain ⟨hsecond, hlater'⟩ := hfirst.serveAll second
  have hnone := hlater'.usedUp hle hgone
  refine ⟨hnone, fun r hgrants => ?_⟩
  -- to be handed out, the number would have to come back in one more request
  have hknown := grants_known hsecond.wellFormed hgrants
  rw [(served _ r).later.usedUp (Nat.le_trans hle hlater'.lastId_le) hnone] at hknown
  cases hknown

end MemoryStore

end SignalCalc
