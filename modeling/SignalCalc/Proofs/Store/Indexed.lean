import SignalCalc.Proofs.Store.Identity
import SignalCalc.Proofs.Store.Sight
import SignalCalc.Store.Indexed

/-! # Table and index

`IndexedStore` has to keep two tables in step and to get along with counters of 32 bits;
`MemoryStore`, of which the rest of the theory speaks, is one list of slots and counts without bound.
`Represents` relates the two. Every operation keeps it up and answers alike on both sides, as long as
no counter runs out (`HasRoom`). This is the one place where the bound of the counters is spoken of:
what is known of the list holds of the tables up to there.
-/

namespace SignalCalc

open MemoryStore (Request KeepsIdentity)

def Slot.record (slot : Slot) : Record where
  name := slot.name
  value := slot.value
  dataType := slot.dataType
  attachments := UInt32.ofNat slot.attachments
  pinned := slot.pinned
  conversion := slot.conversion
  enums := slot.enums
  owner := slot.owner

namespace MemoryStore

theorem lookup_update (s : MemoryStore) (id : VarId) (name : String) {f : Slot → Slot}
    (hf : KeepsIdentity f) : (s.update id f).lookup name = s.lookup name := by
  simp only [lookup, named?, update, List.find?_map, Function.comp_def, (hf.at_id id).name,
    Option.map_map, (hf.at_id id).id]

/-- With a slot its name goes, and no other. -/
theorem WellFormed.lookup_erase {s : MemoryStore} (hs : s.WellFormed) {id : VarId} {slot : Slot}
    (hslot : s.slot? id = some slot) (name : String) :
    ({ s with slots := s.slots.filter (·.id ≠ id) } : MemoryStore).lookup name =
      if slot.name = name then none else s.lookup name := by
  refine Option.ext fun x => ?_
  rw [(hs.erase id).lookup_iff]
  by_cases hx : x = id
  · obtain rfl := hx
    rw [slot?_erase_self]
    split
    · simp
    · next hname => simp [hs.lookup_iff, hslot, hname]
  · rw [slot?_erase hx, ← hs.lookup_iff]
    split
    · next hname =>
      -- the name stands for the slot that goes
      rw [hs.lookup_iff.mpr ⟨slot, hslot, hname⟩]
      simp [Ne.symm hx]
    · rfl

end MemoryStore

namespace IndexedStore

/-- The tables hold what the list of slots holds. -/
structure Represents (i : IndexedStore) (m : MemoryStore) : Prop where
  slots : ∀ id, i.slots[id]? = (m.slot? id).map Slot.record
  byName : ∀ name, i.byName[name]? = m.lookup name
  lastId : i.lastId.toNat = m.lastId
  counts : ∀ id slot, m.slot? id = some slot → slot.attachments < UInt32.size
  processes : ∀ process, i.processState process = m.processState process
  equations : ∀ n, n ∈ i.equations ↔ n ∈ m.equations

theorem represents_empty : Represents {} {} where
  slots := by simp [MemoryStore.slot?]
  byName := by simp [MemoryStore.lookup, MemoryStore.named?]
  lastId := rfl
  counts := by simp [MemoryStore.slot?]
  processes := by simp [processState, MemoryStore.processState]
  equations := by simp

variable {i : IndexedStore} {m : MemoryStore}

/-! ## Reading -/

namespace Represents

variable (h : Represents i m)

include h

theorem lookup (name : String) : i.lookup name = m.lookup name := h.byName name

theorem contains (name : String) : i.contains name = m.contains name := by
  rw [IndexedStore.contains, Std.HashMap.contains_eq_isSome_getElem?, h.byName]
  simp [MemoryStore.contains, MemoryStore.lookup]

theorem read (id : VarId) : i.read id = m.read id := by
  simp only [IndexedStore.read, MemoryStore.read, h.slots, Option.map_map]
  rfl

theorem dataType (id : VarId) : i.dataType id = m.dataType id := by
  simp only [IndexedStore.dataType, MemoryStore.dataType, h.slots, Option.map_map]
  rfl

theorem conversion? (id : VarId) :
    i.conversion? id = (m.conversion? id).map fun (slot, c) => (slot.record, c) := by
  simp only [IndexedStore.conversion?, MemoryStore.conversion?, h.slots]
  cases m.slot? id with
  | none => rfl
  | some slot =>
    cases hc : slot.conversion <;> simp [Slot.record, hc, Except.map]

theorem readPhysical (id : VarId) : i.readPhysical id = m.readPhysical id := by
  simp only [IndexedStore.readPhysical, MemoryStore.readPhysical, h.conversion?]
  cases m.conversion? id <;> rfl

theorem hasConversion (id : VarId) : i.hasConversion id = m.hasConversion id := by
  simp only [IndexedStore.hasConversion, MemoryStore.hasConversion, h.slots, Option.bind_map]
  rfl

theorem enumValue? (id : VarId) (text : String) : i.enumValue? id text = m.enumValue? id text := by
  simp only [IndexedStore.enumValue?, MemoryStore.enumValue?, h.slots, Option.bind_map]
  rfl

end Represents

/-! ## Changing both tables -/

theorem Represents.modify (h : Represents i m) (id : VarId) {f : Record → Record} {g : Slot → Slot}
    (hg : KeepsIdentity g)
    (hfg : ∀ slot, m.slot? id = some slot →
      (g slot).record = f slot.record ∧ (g slot).attachments < UInt32.size) :
    Represents (i.modify id f) (m.update id g) where
  slots := by
    intro x
    rw [IndexedStore.modify, Std.HashMap.getElem?_modify, MemoryStore.slot?_update m id x hg]
    by_cases hx : id = x
    · subst hx
      simp only [beq_self_eq_true, if_true, h.slots, Option.map_map]
      cases hslot : m.slot? id with
      | none => rfl
      | some slot => simp [(hfg slot hslot).1]
    · simp [hx, Ne.symm hx, h.slots]
  byName := by
    intro name
    rw [MemoryStore.lookup_update m id name hg]
    exact h.byName name
  lastId := h.lastId
  counts := by
    intro x slot hslot
    rw [MemoryStore.slot?_update m id x hg] at hslot
    split at hslot
    · next hx =>
      obtain ⟨old, hold, rfl⟩ := Option.map_eq_some_iff.mp hslot
      exact (hfg old (hx ▸ hold)).2
    · exact h.counts x slot hslot
  processes := h.processes
  equations := h.equations

theorem Represents.modify_unknown (h : Represents i m) {id : VarId} (hslot : m.slot? id = none)
    (f : Record → Record) : Represents (i.modify id f) m where
  slots := by
    intro x
    rw [IndexedStore.modify, Std.HashMap.getElem?_modify, h.slots, h.slots]
    by_cases hx : id = x
    · subst hx
      simp [hslot]
    · simp [hx]
  byName := h.byName
  lastId := h.lastId
  counts := h.counts
  processes := h.processes
  equations := h.equations

/-- The new number does not wrap around, and is new to the table. -/
theorem Represents.insert (h : Represents i m) (hm : m.WellFormed)
    (hroom : i.lastId.toNat + 1 < UInt32.size) {new : VarId → Slot} {r : Record}
    (hid : (new m.freshId).id = m.freshId) (hname : m.lookup (new m.freshId).name = none)
    (hr : (new m.freshId).record = r) (hcount : (new m.freshId).attachments < UInt32.size) :
    (i.insert r).1 = m.freshId ∧ Represents (i.insert r).2 (m.insert new) := by
  -- the one step that could come round, were it not for the room
  have hlast : (i.lastId + 1).toNat = m.lastId + 1 := by
    rw [UInt32.toNat_add, ← h.lastId]
    exact Nat.mod_eq_of_lt hroom
  have hfresh : (i.insert r).1 = m.freshId := by
    simp only [IndexedStore.insert, hlast, MemoryStore.freshId]
  refine ⟨hfresh, ?_, ?_, hlast, ?_, h.processes, h.equations⟩
  · intro id
    have hslots : (i.insert r).2.slots[id]? = (i.slots.insert (i.insert r).1 r)[id]? := rfl
    rw [hslots, hfresh, Std.HashMap.getElem?_insert, MemoryStore.slot?_insert, hid, h.slots]
    by_cases hx : m.freshId = id
    · subst hx
      simp [hm.slot?_freshId, hr]
    · simp [hx]
  · intro name
    have hnames : (i.insert r).2.byName[name]? = (i.byName.insert r.name (i.insert r).1)[name]? :=
      rfl
    rw [hnames, hfresh, Std.HashMap.getElem?_insert, MemoryStore.lookup_insert, hid, h.byName,
      ← hr]
    simp only [Slot.record, beq_iff_eq]
    by_cases hx : (new m.freshId).name = name
    · subst hx
      simp [hname]
    · simp [hx]
  · intro id slot hslot
    rw [MemoryStore.slot?_insert] at hslot
    rcases Option.or_eq_some_iff.mp hslot with hold | ⟨-, hnew⟩
    · exact h.counts id slot hold
    · simp only [Option.ite_none_right_eq_some, Option.some.injEq] at hnew
      rw [← hnew.2]
      exact hcount

/-- What leaves the list leaves both tables: the index loses the name under which the number was
found, and no other. -/
theorem Represents.remove (h : Represents i m) (hm : m.WellFormed) {id : VarId} {slot : Slot}
    (hslot : m.slot? id = some slot) {f : Record → Record}
    (hf : (f slot.record).name = slot.name) :
    Represents ((i.modify id f).remove id) { m with slots := m.slots.filter (·.id ≠ id) } := by
  have hrecord : (i.modify id f).slots[id]? = some (f slot.record) := by
    simp [IndexedStore.modify, h.slots, hslot]
  simp only [IndexedStore.remove, hrecord]
  refine ⟨?_, ?_, h.lastId, ?_, h.processes, h.equations⟩
  · intro x
    rw [Std.HashMap.getElem?_erase, IndexedStore.modify, Std.HashMap.getElem?_modify]
    by_cases hx : id = x
    · rw [← hx, MemoryStore.slot?_erase_self]
      simp
    · rw [MemoryStore.slot?_erase (Ne.symm hx), ← h.slots]
      simp [hx]
  · intro name
    -- the record says which name to strike, and it is the name of the slot
    rw [Std.HashMap.getElem?_erase, hm.lookup_erase hslot, hf]
    simp only [beq_iff_eq]
    split
    · rfl
    · exact h.byName name
  · intro x old hold
    by_cases hx : x = id
    · rw [hx, MemoryStore.slot?_erase_self] at hold
      cases hold
    · rw [MemoryStore.slot?_erase hx] at hold
      exact h.counts x old hold

/-! ## Operations -/

/-- One more attachment to a variable can be counted. -/
def CanAttach (s : IndexedStore) (id : VarId) : Prop :=
  ∀ r, s.slots[id]? = some r → r.attachments.toNat + 1 < UInt32.size

def CanCreate (s : IndexedStore) : Prop := s.lastId.toNat + 1 < UInt32.size

theorem record_attach (slot : Slot) :
    ({ slot with attachments := slot.attachments + 1 } : Slot).record = slot.record.attach := by
  simp only [Slot.record, Record.attach, UInt32.ofNat_add]
  rfl

theorem record_attachments_eq_zero {slot : Slot} (hcount : slot.attachments < UInt32.size) :
    slot.record.attachments = 0 ↔ slot.attachments = 0 := by
  rw [← UInt32.toNat_inj, Slot.record, UInt32.toNat_ofNat_of_lt' hcount]
  rfl

theorem record_detach {slot : Slot} (hcount : slot.attachments < UInt32.size) :
    ({ slot with attachments := slot.attachments - 1 } : Slot).record = slot.record.detach := by
  have hzero := record_attachments_eq_zero hcount
  unfold Record.detach
  split
  · next h =>
    rw [hzero] at h
    simp only [Slot.record, h]
    rfl
  · next h =>
    rw [hzero] at h
    simp only [Slot.record, UInt32.ofNat_sub (Nat.one_le_iff_ne_zero.mpr h)]
    rfl

theorem Represents.attach (h : Represents i m) {id : VarId} (hroom : i.CanAttach id) :
    Represents (i.attach id) (m.attach id) := by
  apply h.modify id (MemoryStore.keepsIdentity_attachments (· + 1))
  intro slot hslot
  have hmore := hroom slot.record (by rw [h.slots, hslot]; rfl)
  rw [Slot.record, UInt32.toNat_ofNat_of_lt' (h.counts id slot hslot)] at hmore
  exact ⟨record_attach slot, hmore⟩

theorem Represents.detach (h : Represents i m) (hm : m.WellFormed) (id : VarId) :
    Represents (i.detach id) (m.detach id) := by
  unfold IndexedStore.detach MemoryStore.detach
  cases hslot : m.slot? id with
  | none =>
    have hnone : (i.modify id Record.detach).slots[id]? = none := by
      simp [IndexedStore.modify, h.slots, hslot]
    simp only [hnone]
    exact h.modify_unknown hslot _
  | some slot =>
    have hcount := h.counts id slot hslot
    have hrecord : (i.modify id Record.detach).slots[id]? = some slot.record.detach := by
      simp [IndexedStore.modify, h.slots, hslot]
    -- both sides ask whether this was the last attachment, each of its own counter
    have hlast : (slot.record.detach.attachments = 0 && !slot.record.detach.pinned) = true ↔
        slot.attachments ≤ 1 ∧ slot.pinned = false := by
      rw [← record_detach hcount, Bool.and_eq_true, decide_eq_true_iff,
        record_attachments_eq_zero (Nat.lt_of_le_of_lt (Nat.sub_le _ 1) hcount)]
      simp [Slot.record, Nat.sub_eq_zero_iff_le]
    simp only [hrecord]
    by_cases hgoes : slot.attachments ≤ 1 ∧ slot.pinned = false
    · rw [if_pos (hlast.mpr hgoes), if_pos hgoes]
      exact h.remove hm hslot rfl
    · rw [if_neg (mt hlast.mp hgoes), if_neg hgoes]
      apply h.modify id (MemoryStore.keepsIdentity_attachments (· - 1))
      intro old hold
      have hcount := h.counts id old hold
      exact ⟨record_detach hcount, Nat.lt_of_le_of_lt (Nat.sub_le _ 1) hcount⟩

/-- A value is stored on both sides. -/
theorem Represents.put (h : Represents i m) (id : VarId) (value : Value) :
    Represents (i.modify id (·.put value)) (m.update id (·.put value)) :=
  h.modify id (MemoryStore.keepsIdentity_put value) fun slot hslot => ⟨rfl, h.counts id slot hslot⟩

theorem Represents.withSlot (h : Represents i m) (name : String) {f : Record → Record}
    {g : Slot → Slot} (hg : KeepsIdentity g) (hfg : ∀ slot, (g slot).record = f slot.record)
    (hcount : ∀ slot, (g slot).attachments = slot.attachments) :
    Represents (i.withSlot name f).2 (m.updateNamed name g).2 := by
  unfold IndexedStore.withSlot MemoryStore.updateNamed
  rw [h.byName]
  cases m.lookup name with
  | none => exact h
  | some id =>
    exact h.modify id hg fun slot hslot => ⟨hfg slot, hcount slot ▸ h.counts id slot hslot⟩

theorem Represents.define (h : Represents i m) (hm : m.WellFormed) {name : String}
    (hroom : i.byName[name]? = none → i.CanCreate) (type : DataType) (value : Value) :
    (i.define name type value).1 = (m.define name type value).1 ∧
      Represents (i.define name type value).2 (m.define name type value).2 := by
  unfold IndexedStore.define
  rw [h.byName] at hroom ⊢
  rcases MemoryStore.define_cases m name type value with ⟨id, hname, hdefine⟩ | ⟨hname, hdefine⟩
  · rw [hname, hdefine]
    exact ⟨rfl, h.modify id (MemoryStore.keepsIdentity_redeclared type value) fun slot hslot =>
      ⟨rfl, h.counts id slot hslot⟩⟩
  · rw [hname, hdefine]
    exact h.insert hm (hroom hname) rfl hname rfl (Nat.zero_lt_succ _)

inductive SameAnswer {ε α : Type} :
    EStateM.Result ε IndexedStore α → EStateM.Result ε MemoryStore α → Prop where
  | ok {a : α} {i : IndexedStore} {m : MemoryStore} (h : Represents i m) :
      SameAnswer (.ok a i) (.ok a m)
  | error {e : ε} {i : IndexedStore} {m : MemoryStore} (h : Represents i m) :
      SameAnswer (.error e i) (.error e m)

theorem Represents.resolve (h : Represents i m) (hm : m.WellFormed) {name : String}
    {policy : ExistPolicy} (hknown : ∀ id, i.byName[name]? = some id → i.CanAttach id)
    (hunknown : i.byName[name]? = none → policy ≠ .mustExist → i.CanCreate)
    (owner : Option Int32) :
    SameAnswer (IndexedStore.resolve name policy owner i)
      (MemoryStore.resolve name policy owner m) := by
  unfold IndexedStore.resolve MemoryStore.resolve
  rw [h.byName] at hknown hunknown ⊢
  cases hname : m.lookup name with
  | some id => exact .ok (h.attach (hknown id hname))
  | none =>
    by_cases hpolicy : policy = .mustExist
    · simp only [if_pos hpolicy]
      exact .error h
    · simp only [if_neg hpolicy]
      obtain ⟨hid, hinsert⟩ : _ ∧ Represents _ (m.insert (MemoryStore.newSlot name owner)) :=
        h.insert hm (hunknown hname hpolicy) rfl hname rfl (Nat.one_lt_succ_succ _)
      exact hid ▸ .ok hinsert

theorem Represents.write (h : Represents i m) (id : VarId) (value : Value) (lockHeld : Bool) :
    SameAnswer (IndexedStore.write id value lockHeld i) (MemoryStore.write id value lockHeld m) := by
  unfold IndexedStore.write MemoryStore.write
  rw [Std.HashMap.contains_eq_isSome_getElem?, h.slots]
  cases m.slot? id with
  | none => exact .error h
  | some slot => exact .ok (h.put id value)

theorem Represents.writePhysical (h : Represents i m) (id : VarId) (value : Float)
    (lockHeld : Bool) :
    SameAnswer (IndexedStore.writePhysical id value lockHeld i)
      (MemoryStore.writePhysical id value lockHeld m) := by
  unfold IndexedStore.writePhysical MemoryStore.writePhysical
  rw [h.conversion?]
  cases m.conversion? id with
  | error e => exact .error h
  | ok found =>
    simp only [Except.map]
    split
    · exact .error h
    · exact .ok (h.put id _)

theorem Represents.setProcess (h : Represents i m) (process : String) (state : ProcessState) :
    Represents (i.setProcess process state) (m.setProcess process state) := by
  refine ⟨h.slots, h.byName, h.lastId, h.counts, fun other => ?_, h.equations⟩
  have hother := h.processes other
  simp only [processState, MemoryStore.processState, IndexedStore.setProcess,
    MemoryStore.setProcess, Std.HashMap.getElem?_insert, List.find?_cons, List.find?_filter]
    at hother ⊢
  by_cases hp : process = other
  · simp [hp]
  · simp only [hp, beq_eq_false_iff_ne.mpr hp, decide_false, hother, Bool.false_eq_true, if_false]
    congr 3
    funext p
    by_cases hp' : p.1 = other
    · simp [hp', Ne.symm hp]
    · simp [hp']

theorem Represents.attachEquation (h : Represents i m) (n : UInt64) :
    Represents (i.attachEquation n) (m.attachEquation n) := by
  refine ⟨h.slots, h.byName, h.lastId, h.counts, h.processes, fun k => ?_⟩
  simp only [IndexedStore.attachEquation, MemoryStore.attachEquation, Std.HashSet.mem_insert,
    MemoryStore.mem_insertAscending, h.equations, beq_iff_eq]
  exact or_congr_left eq_comm

theorem Represents.detachEquation (h : Represents i m) (n : UInt64) :
    Represents (i.detachEquation n) (m.detachEquation n) := by
  refine ⟨h.slots, h.byName, h.lastId, h.counts, h.processes, fun k => ?_⟩
  simp only [IndexedStore.detachEquation, MemoryStore.detachEquation, Std.HashSet.mem_erase,
    List.mem_filter, h.equations, beq_eq_false_iff_ne, decide_eq_true_eq]
  rw [and_comm, ne_comm]

/-! ## Requests -/

def serve (s : IndexedStore) : Request → IndexedStore
  | .define name type value => (s.define name type value).2
  | .setConversion name c => (s.setConversion name c).2
  | .addEnum name text value => (s.addEnum name text value).2
  | .resolve name policy owner => endState (IndexedStore.resolve name policy owner s)
  | .write id value lockHeld => endState (IndexedStore.write id value lockHeld s)
  | .writePhysical id value lockHeld => endState (IndexedStore.writePhysical id value lockHeld s)
  | .attach id => s.attach id
  | .detach id => s.detach id

def grants (s : IndexedStore) : Request → Option VarId
  | .define name type value => some (s.define name type value).1
  | .resolve name policy owner =>
    match IndexedStore.resolve name policy owner s with
    | .ok b _ => some b.id
    | .error _ _ => none
  | _ => none

def serveAll (s : IndexedStore) (requests : List Request) : IndexedStore := requests.foldl serve s

/-- No counter runs out by a request: it does not create a variable when there is no number left,
and does not attach once more to a variable that is attached to as often as can be counted. -/
def HasRoom (s : IndexedStore) : Request → Prop
  | .define name _ _ => s.byName[name]? = none → s.CanCreate
  | .resolve name policy _ =>
    (∀ id, s.byName[name]? = some id → s.CanAttach id) ∧
      (s.byName[name]? = none → policy ≠ .mustExist → s.CanCreate)
  | .attach id => s.CanAttach id
  | _ => True

/-- No counter runs out in the course of some requests. -/
def Fits (s : IndexedStore) : List Request → Prop
  | [] => True
  | r :: requests => s.HasRoom r ∧ (s.serve r).Fits requests

theorem SameAnswer.endState {ε α : Type} {x : EStateM.Result ε IndexedStore α}
    {y : EStateM.Result ε MemoryStore α} (h : SameAnswer x y) :
    Represents (endState x) (endState y) := by
  cases h with
  | ok h | error h => exact h

theorem Represents.serve (h : Represents i m) (hm : m.WellFormed) {r : Request}
    (hroom : i.HasRoom r) : Represents (i.serve r) (m.serve r) := by
  cases r with
  | define name type value => exact (h.define hm hroom type value).2
  | setConversion name c =>
    exact h.withSlot name ⟨fun _ => rfl, fun _ => rfl⟩ (fun _ => rfl) fun _ => rfl
  | addEnum name text value =>
    exact h.withSlot name ⟨fun _ => rfl, fun _ => rfl⟩ (fun _ => rfl) fun _ => rfl
  | resolve name policy owner => exact (h.resolve hm hroom.1 hroom.2 owner).endState
  | write id value lockHeld => exact (h.write id value lockHeld).endState
  | writePhysical id value lockHeld => exact (h.writePhysical id value lockHeld).endState
  | attach id => exact h.attach hroom
  | detach id => exact h.detach hm id

theorem Represents.grants (h : Represents i m) (hm : m.WellFormed) {r : Request}
    (hroom : i.HasRoom r) : i.grants r = m.grants r := by
  cases r with
  | define name type value => exact congrArg some (h.define hm hroom type value).1
  | resolve name policy owner =>
    have hanswer := h.resolve hm hroom.1 hroom.2 owner
    simp only [IndexedStore.grants, MemoryStore.grants]
    generalize IndexedStore.resolve name policy owner i = x at hanswer ⊢
    generalize MemoryStore.resolve name policy owner m = y at hanswer ⊢
    cases hanswer with
    | ok | error => rfl
  | setConversion | addEnum | write | writePhysical | attach | detach => rfl

/-- As long as no counter runs out, the tables hold what the list holds after all requests. -/
theorem Represents.serveAll (h : Represents i m) (hm : m.Reachable) {requests : List Request}
    (hfits : i.Fits requests) : Represents (i.serveAll requests) (m.serveAll requests) := by
  induction requests generalizing i m with
  | nil => exact h
  | cons r requests ih => exact ih (h.serve hm.wellFormed hfits.1) (hm.serve r) hfits.2

theorem fits_append {first second : List Request} :
    i.Fits (first ++ second) ↔ i.Fits first ∧ (i.serveAll first).Fits second := by
  induction first generalizing i with
  | nil => simp [Fits, serveAll]
  | cons r first ih => simp only [List.cons_append, Fits, ih, and_assoc, serveAll, List.foldl_cons]

theorem Fits.take {requests : List Request} (h : i.Fits requests) (k : Nat) :
    i.Fits (requests.take k) := by
  rw [← List.take_append_drop k requests] at h
  exact (fits_append.mp h).1

/-! ## Few requests -/

/-- No counter is beyond `n`. -/
structure Below (s : IndexedStore) (n : Nat) : Prop where
  lastId : s.lastId.toNat ≤ n
  attachments : ∀ (id : VarId) (r : Record), s.slots[id]? = some r → r.attachments.toNat ≤ n

theorem Below.hasRoom {n : Nat} (h : i.Below n) (hn : n + 1 < UInt32.size) (r : Request) :
    i.HasRoom r := by
  have hcreate : i.CanCreate := Nat.lt_of_le_of_lt (Nat.succ_le_succ h.lastId) hn
  have hattach (id : VarId) : i.CanAttach id := fun r hr =>
    Nat.lt_of_le_of_lt (Nat.succ_le_succ (h.attachments id r hr)) hn
  cases r with
  | define => exact fun _ => hcreate
  | resolve => exact ⟨fun id _ => hattach id, fun _ _ => hcreate⟩
  | attach id => exact hattach id
  | setConversion | addEnum | write | writePhysical | detach => trivial

theorem Below.mono {n : Nat} (h : i.Below n) : i.Below (n + 1) :=
  ⟨Nat.le_succ_of_le h.lastId, fun id r hr => Nat.le_succ_of_le (h.attachments id r hr)⟩

theorem Below.modify {n : Nat} (h : i.Below n) (id : VarId) {f : Record → Record}
    (hf : ∀ r, (f r).attachments.toNat ≤ r.attachments.toNat + 1) :
    (i.modify id f).Below (n + 1) where
  lastId := Nat.le_succ_of_le h.lastId
  attachments := by
    intro x r hr
    rw [IndexedStore.modify, Std.HashMap.getElem?_modify] at hr
    split at hr
    · obtain ⟨old, hold, rfl⟩ := Option.map_eq_some_iff.mp hr
      exact Nat.le_trans (hf old) (Nat.succ_le_succ (h.attachments id old hold))
    · exact Nat.le_succ_of_le (h.attachments x r hr)

theorem Below.insert {n : Nat} (h : i.Below n) {new : Record} (hnew : new.attachments.toNat ≤ 1) :
    (i.insert new).2.Below (n + 1) where
  lastId := by
    simp only [IndexedStore.insert, UInt32.toNat_add]
    exact Nat.le_trans (Nat.mod_le _ _) (Nat.succ_le_succ h.lastId)
  attachments := by
    intro x r hr
    simp only [IndexedStore.insert, Std.HashMap.getElem?_insert] at hr
    split at hr
    · cases hr
      omega
    · exact Nat.le_succ_of_le (h.attachments x r hr)

theorem Below.remove {n : Nat} (h : i.Below n) (id : VarId) : (i.remove id).Below n := by
  unfold IndexedStore.remove
  split
  · refine ⟨h.lastId, fun x r hr => ?_⟩
    rw [Std.HashMap.getElem?_erase] at hr
    split at hr
    · cases hr
    · exact h.attachments x r hr
  · exact h

theorem toNat_attach_le (r : Record) : r.attach.attachments.toNat ≤ r.attachments.toNat + 1 := by
  rw [Record.attach, UInt32.toNat_add]
  exact Nat.mod_le _ _

theorem toNat_detach_le (r : Record) : r.detach.attachments.toNat ≤ r.attachments.toNat + 1 := by
  unfold Record.detach
  split
  · exact Nat.zero_le _
  · next h =>
    have hone : (1 : UInt32) ≤ r.attachments := by
      rw [UInt32.le_iff_toNat_le]
      exact Nat.one_le_iff_ne_zero.mpr fun hzero => h (UInt32.toNat_inj.mp hzero)
    rw [UInt32.toNat_sub_of_le _ _ hone]
    omega

theorem Below.serve {n : Nat} (h : i.Below n) (r : Request) : (i.serve r).Below (n + 1) := by
  -- only `resolve` and `attach` count an attachment more, and only new variables take a number
  have hkeep (id : VarId) (f : Record → Record) (hf : ∀ r, (f r).attachments = r.attachments) :
      (i.modify id f).Below (n + 1) :=
    h.modify id fun r => by rw [hf]; exact Nat.le_succ _
  cases r with
  | define name type value =>
    simp only [IndexedStore.serve, IndexedStore.define]
    split
    · exact hkeep _ _ fun _ => rfl
    · exact h.insert (Nat.zero_le _)
  | setConversion name c =>
    simp only [IndexedStore.serve, IndexedStore.setConversion, IndexedStore.withSlot]
    split
    · exact h.mono
    · exact hkeep _ _ fun _ => rfl
  | addEnum name text value =>
    simp only [IndexedStore.serve, IndexedStore.addEnum, IndexedStore.withSlot]
    split
    · exact h.mono
    · exact hkeep _ _ fun _ => rfl
  | resolve name policy owner =>
    simp only [IndexedStore.serve, IndexedStore.resolve]
    split
    · exact h.modify _ toNat_attach_le
    · split
      · exact h.mono
      · exact h.insert (Nat.le_refl _)
  | write id value lockHeld =>
    simp only [IndexedStore.serve, IndexedStore.write]
    split
    · exact hkeep _ _ fun _ => rfl
    · exact h.mono
  | writePhysical id value lockHeld =>
    simp only [IndexedStore.serve, IndexedStore.writePhysical]
    split
    · exact h.mono
    · split
      · exact h.mono
      · exact hkeep _ _ fun _ => rfl
  | attach id => exact h.modify id toNat_attach_le
  | detach id =>
    have hless := h.modify id toNat_detach_le
    simp only [IndexedStore.serve, IndexedStore.detach]
    split
    · split
      · exact hless.remove id
      · exact hless
    · exact hless

/-- It takes 2^32 requests for a counter to run out. -/
theorem fits_of_length {requests : List Request} (h : requests.length < UInt32.size) :
    Fits {} requests := by
  have hfits (i : IndexedStore) (n : Nat) (hi : i.Below n)
      (hn : n + requests.length < UInt32.size) : i.Fits requests := by
    induction requests generalizing i n with
    | nil => trivial
    | cons r requests ih =>
      rw [List.length_cons] at hn h
      exact ⟨hi.hasRoom (by omega) r, ih (by omega) _ (n + 1) (hi.serve r) (by omega)⟩
  exact hfits {} 0 ⟨Nat.le_refl 0, by simp⟩ (by simpa using h)

/-! ## Names and numbers -/

/-- The two tables are in step: the index has a name with a number exactly if the table has the
number with the name. No number is beyond the counter, and what nobody declared is attached to. -/
structure Consistent (s : IndexedStore) : Prop where
  inverse : ∀ (name : String) (id : VarId), s.byName[name]? = some id ↔
    ∃ r : Record, s.slots[id]? = some r ∧ r.name = name
  id_le : ∀ id ∈ s.slots, id.val ≤ s.lastId.toNat
  held : ∀ (id : VarId) (r : Record), s.slots[id]? = some r → r.pinned = false → 0 < r.attachments

/-- What becomes of names and numbers, whatever is requested from here on. -/
structure Lasting (s : IndexedStore) : Prop where
  /-- A variable goes only when the last attachment of one that nobody declared is given back. -/
  leaves : ∀ (q : Request) (id : VarId) (r : Record), s.HasRoom q →
    s.slots[id]? = some r → id ∉ (s.serve q).slots →
    q = .detach id ∧ r.pinned = false ∧ r.attachments = 1
  /-- A name keeps its number as long as it stays. -/
  keeps : ∀ (requests : List Request) (name : String) (id : VarId), s.Fits requests →
    s.byName[name]? = some id →
    (∀ k, name ∈ (s.serveAll (requests.take k)).byName) →
      (s.serveAll requests).byName[name]? = some id
  /-- A number that is still in use means the same variable. -/
  same : ∀ (requests : List Request) (id : VarId) (r r' : Record), s.Fits requests →
    s.slots[id]? = some r → (s.serveAll requests).slots[id]? = some r' → r'.name = r.name
  /-- A number that has gone out of use does not come back, and is not handed out. -/
  retired : ∀ (first second : List Request) (id : VarId), s.Fits (first ++ second) → id ∈ s.slots →
    id ∉ (s.serveAll first).slots →
      id ∉ (s.serveAll (first ++ second)).slots ∧
        ∀ q, (s.serveAll (first ++ second)).HasRoom q →
          (s.serveAll (first ++ second)).grants q ≠ some id

namespace Represents

variable (h : Represents i m)

include h

theorem slot_of_record {id : VarId} {r : Record} (hr : i.slots[id]? = some r) :
    ∃ slot, m.slot? id = some slot ∧ slot.record = r := by
  rw [h.slots] at hr
  exact Option.map_eq_some_iff.mp hr

theorem mem_slots {id : VarId} : id ∈ i.slots ↔ (m.slot? id).isSome := by
  rw [← Std.HashMap.contains_iff_mem, Std.HashMap.contains_eq_isSome_getElem?, h.slots]
  simp

theorem mem_byName {name : String} : name ∈ i.byName ↔ (m.lookup name).isSome := by
  rw [← Std.HashMap.contains_iff_mem, Std.HashMap.contains_eq_isSome_getElem?, h.byName]

theorem consistent (hm : m.WellFormed) : i.Consistent where
  inverse name id := by
    rw [h.byName, h.slots, hm.lookup_iff]
    constructor
    · rintro ⟨slot, hslot, hname⟩
      exact ⟨slot.record, by rw [hslot]; rfl, hname⟩
    · rintro ⟨r, hr, hname⟩
      obtain ⟨slot, hslot, rfl⟩ := Option.map_eq_some_iff.mp hr
      exact ⟨slot, hslot, hname⟩
  id_le id hid := by
    obtain ⟨slot, hslot⟩ := Option.isSome_iff_exists.mp (h.mem_slots.mp hid)
    obtain ⟨hmem, rfl⟩ := MemoryStore.mem_of_slot? hslot
    exact h.lastId ▸ hm.id_le slot hmem
  held id r hr hpinned := by
    obtain ⟨slot, hslot, rfl⟩ := h.slot_of_record hr
    have hheld := hm.held slot (MemoryStore.mem_of_slot? hslot).1 hpinned
    rw [UInt32.pos_iff_ne_zero, Ne, record_attachments_eq_zero (h.counts id slot hslot)]
    exact Nat.pos_iff_ne_zero.mp hheld

theorem lasting (hm : m.Reachable) : i.Lasting where
  leaves q id r hroom hr hgone := by
    obtain ⟨slot, hslot, rfl⟩ := h.slot_of_record hr
    rw [(h.serve hm.wellFormed hroom).mem_slots, Option.not_isSome_iff_eq_none] at hgone
    obtain ⟨hq, hpinned, hlast⟩ := (MemoryStore.served m q).gone hslot hgone
    have hheld := hm.wellFormed.held slot (MemoryStore.mem_of_slot? hslot).1 hpinned
    have hone : slot.attachments = 1 := Nat.le_antisymm hlast hheld
    exact ⟨hq, hpinned, by simp [Slot.record, hone]⟩
  keeps requests name id hfits hname hstays := by
    rw [(h.serveAll hm hfits).byName]
    rw [h.byName] at hname
    apply MemoryStore.lookup_serveAll hm hname
    intro k
    exact (h.serveAll hm (hfits.take k)).mem_byName.mp (hstays k)
  same requests id r r' hfits hr hr' := by
    obtain ⟨slot, hslot, rfl⟩ := h.slot_of_record hr
    obtain ⟨slot', hslot', rfl⟩ := (h.serveAll hm hfits).slot_of_record hr'
    exact (hm.serveAll requests).2.name hslot hslot'
  retired first second id hfits hid hgone := by
    have hafter := h.serveAll hm hfits
    rw [h.mem_slots] at hid
    rw [(h.serveAll hm (fits_append.mp hfits).1).mem_slots, Option.not_isSome_iff_eq_none] at hgone
    obtain ⟨hnone, hnever⟩ := MemoryStore.retired hm second hid hgone
    refine ⟨by rw [hafter.mem_slots, hnone]; simp, fun q hroom => ?_⟩
    rw [hafter.grants (hm.serveAll _).1.wellFormed hroom]
    exact hnever q

end Represents

/-- After every list of requests to an empty store the two tables are in step, and whatever is
requested then, a name keeps its number as long as it stays, and a number means one variable for
ever. All this as long as no counter runs out. -/
theorem identity_lasts (requests : List Request) (hfits : Fits {} requests) :
    (serveAll {} requests).Consistent ∧ (serveAll {} requests).Lasting := by
  have hrepresents := represents_empty.serveAll .empty hfits
  have hreachable := (MemoryStore.Reachable.serveAll .empty requests).1
  exact ⟨hrepresents.consistent hreachable.wellFormed, hrepresents.lasting hreachable⟩

/-- A name that comes back after its variable has gone gets another number. -/
theorem identity_lasts_recreated :
    let requests : List Request :=
      [.resolve "x" .createIfMissing none, .detach ⟨1⟩, .resolve "x" .createIfMissing none]
    Fits {} requests ∧ (serveAll {} requests).byName["x"]? = some ⟨2⟩ ∧
      (serveAll {} requests).Consistent ∧ (serveAll {} requests).Lasting := by
  intro requests
  have hfits : Fits {} requests := fits_of_length (by decide)
  refine ⟨hfits, ?_, identity_lasts requests hfits⟩
  simp [requests, serveAll, serve, IndexedStore.resolve, IndexedStore.detach, IndexedStore.insert,
    IndexedStore.modify, IndexedStore.remove, endState, Record.detach]

end IndexedStore

end SignalCalc
