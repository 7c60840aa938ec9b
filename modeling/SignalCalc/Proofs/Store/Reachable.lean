import SignalCalc.Store.Memory

/-! # Reachable stores

The states that a store can get into, and what holds of all of them. The invariant `WellFormed` is
what the rest of the theory works with: a number or a name selects at most one slot, no slot is
numbered beyond the counter, and a slot that nobody declared is held by somebody.

* `slot?_update`, `named?_update`, `slot?_of_mem` — look-ups after a change.
* `WellFormed.update`, `WellFormed.insert`, `WellFormed.erase` — the three ways in which slots
  change.
* `Reachable` — the states that a host can bring about, operation by operation.
* `Reachable.wellFormed` — the invariant holds in all of them.
-/

namespace SignalCalc

/-- A key without repetition selects the entry that has it. -/
theorem find?_of_nodup {α β : Type} [DecidableEq β] (key : α → β) {l : List α}
    (hnodup : (l.map key).Nodup) {a : α} (ha : a ∈ l) :
    l.find? (fun x => key x = key a) = some a := by
  induction l with
  | nil => cases ha
  | cons x l ih =>
    simp only [List.map_cons, List.nodup_cons, List.mem_map, not_exists, not_and] at hnodup
    rcases List.mem_cons.mp ha with rfl | ha
    · simp
    · have hne : key x ≠ key a := fun h => hnodup.1 a ha h.symm
      simp only [List.find?_cons, hne, decide_false]
      exact ih hnodup.2 ha

namespace MemoryStore

/-! ## Look-ups -/

theorem mem_of_slot? {s : MemoryStore} {id : VarId} {slot : Slot} (h : s.slot? id = some slot) :
    slot ∈ s.slots ∧ slot.id = id := by
  refine ⟨List.mem_of_find?_eq_some h, ?_⟩
  simpa using List.find?_some h

theorem mem_of_named? {s : MemoryStore} {name : String} {slot : Slot}
    (h : s.named? name = some slot) : slot ∈ s.slots ∧ slot.name = name := by
  refine ⟨List.mem_of_find?_eq_some h, ?_⟩
  simpa using List.find?_some h

theorem slot?_eq_none_iff {s : MemoryStore} {id : VarId} :
    s.slot? id = none ↔ ∀ slot ∈ s.slots, slot.id ≠ id := by
  simp [slot?]

theorem lookup_eq_none_iff {s : MemoryStore} {name : String} :
    s.lookup name = none ↔ ∀ slot ∈ s.slots, slot.name ≠ name := by
  simp [lookup, named?]

theorem mem_of_lookup {s : MemoryStore} {name : String} {id : VarId}
    (h : s.lookup name = some id) : ∃ slot ∈ s.slots, slot.name = name ∧ slot.id = id := by
  obtain ⟨slot, hslot, rfl⟩ := Option.map_eq_some_iff.mp h
  obtain ⟨hmem, hname⟩ := mem_of_named? hslot
  exact ⟨slot, hmem, hname, rfl⟩

/-! ## The invariant -/

/-- Numbers and names select at most one slot, the counter is not behind any number, and whatever
is not declared is attached to. -/
structure WellFormed (s : MemoryStore) : Prop where
  ids_nodup : (s.slots.map (·.id)).Nodup
  names_nodup : (s.slots.map (·.name)).Nodup
  id_le : ∀ slot ∈ s.slots, slot.id.val ≤ s.lastId
  held : ∀ slot ∈ s.slots, slot.pinned = false → 0 < slot.attachments

theorem WellFormed.slot?_of_mem {s : MemoryStore} (hs : s.WellFormed) {slot : Slot}
    (h : slot ∈ s.slots) : s.slot? slot.id = some slot :=
  find?_of_nodup Slot.id hs.ids_nodup h

theorem WellFormed.named?_of_mem {s : MemoryStore} (hs : s.WellFormed) {slot : Slot}
    (h : slot ∈ s.slots) : s.named? slot.name = some slot :=
  find?_of_nodup Slot.name hs.names_nodup h

theorem WellFormed.slot?_of_lookup {s : MemoryStore} (hs : s.WellFormed) {name : String}
    {id : VarId} (h : s.lookup name = some id) :
    ∃ slot, s.slot? id = some slot ∧ s.named? name = some slot := by
  obtain ⟨slot, hmem, rfl, rfl⟩ := mem_of_lookup h
  exact ⟨slot, hs.slot?_of_mem hmem, hs.named?_of_mem hmem⟩

theorem WellFormed.slot?_freshId {s : MemoryStore} (hs : s.WellFormed) :
    s.slot? s.freshId = none := by
  rw [slot?_eq_none_iff]
  intro slot hmem hid
  have hle := hs.id_le slot hmem
  rw [hid] at hle
  exact absurd hle (Nat.not_succ_le_self s.lastId)

/-! ## Changing one slot -/

structure KeepsIdentity (f : Slot → Slot) : Prop where
  id : ∀ slot, (f slot).id = slot.id
  name : ∀ slot, (f slot).name = slot.name

theorem KeepsIdentity.at_id {f : Slot → Slot} (hf : KeepsIdentity f) (id : VarId) :
    KeepsIdentity fun slot => if slot.id = id then f slot else slot where
  id slot := by
    by_cases h : slot.id = id
    · rw [if_pos h]; exact hf.id slot
    · rw [if_neg h]
  name slot := by
    by_cases h : slot.id = id
    · rw [if_pos h]; exact hf.name slot
    · rw [if_neg h]

theorem ids_update (s : MemoryStore) (id : VarId) {f : Slot → Slot} (hf : KeepsIdentity f) :
    (s.update id f).slots.map (·.id) = s.slots.map (·.id) := by
  simp only [update, List.map_map]
  exact List.map_congr_left fun slot _ => (hf.at_id id).id slot

theorem names_update (s : MemoryStore) (id : VarId) {f : Slot → Slot} (hf : KeepsIdentity f) :
    (s.update id f).slots.map (·.name) = s.slots.map (·.name) := by
  simp only [update, List.map_map]
  exact List.map_congr_left fun slot _ => (hf.at_id id).name slot

theorem slot?_update (s : MemoryStore) (id other : VarId) {f : Slot → Slot}
    (hf : KeepsIdentity f) :
    (s.update id f).slot? other = if other = id then (s.slot? other).map f else s.slot? other := by
  simp only [slot?, update, List.find?_map, Function.comp_def, (hf.at_id id).id]
  cases hfound : s.slots.find? (fun slot => decide (slot.id = other)) with
  | none => simp
  | some slot =>
    have hid : slot.id = other := by simpa using List.find?_some hfound
    by_cases h : other = id <;> simp [hid, h]

theorem slot?_update_ne (s : MemoryStore) {id other : VarId} {f : Slot → Slot}
    (hf : KeepsIdentity f) (h : other ≠ id) : (s.update id f).slot? other = s.slot? other := by
  simp [slot?_update s id other hf, h]

theorem isSome_slot?_update (s : MemoryStore) (id x : VarId) {f : Slot → Slot}
    (hf : KeepsIdentity f) : ((s.update id f).slot? x).isSome = (s.slot? x).isSome := by
  rw [slot?_update s id x hf]
  split <;> simp

theorem update_comm (s : MemoryStore) {id x : VarId} (hx : x ≠ id) {f g : Slot → Slot}
    (hf : KeepsIdentity f) (hg : KeepsIdentity g) :
    (s.update x f).update id g = (s.update id g).update x f := by
  simp only [update, List.map_map, MemoryStore.mk.injEq, and_true]
  refine List.map_congr_left fun slot _ => ?_
  by_cases h : slot.id = id
  · simp [h, hg.id, Ne.symm hx]
  · by_cases h' : slot.id = x <;> simp [h, h', hf.id, hx]

theorem mem_update {s : MemoryStore} {id : VarId} {f : Slot → Slot} {slot : Slot} :
    slot ∈ (s.update id f).slots ↔
      ∃ old ∈ s.slots, slot = if old.id = id then f old else old := by
  simp only [update, List.mem_map, eq_comm]

theorem WellFormed.update {s : MemoryStore} (hs : s.WellFormed) (id : VarId) {f : Slot → Slot}
    (hf : KeepsIdentity f)
    (hheld : ∀ slot ∈ s.slots, slot.id = id → (f slot).pinned = false → 0 < (f slot).attachments) :
    (s.update id f).WellFormed where
  ids_nodup := by rw [ids_update s id hf]; exact hs.ids_nodup
  names_nodup := by rw [names_update s id hf]; exact hs.names_nodup
  id_le := by
    intro slot hmem
    obtain ⟨old, hold, rfl⟩ := mem_update.mp hmem
    rw [(hf.at_id id).id]
    exact hs.id_le old hold
  held := by
    intro slot hmem
    obtain ⟨old, hold, rfl⟩ := mem_update.mp hmem
    by_cases h : old.id = id
    · rw [if_pos h]; exact hheld old hold h
    · rw [if_neg h]; exact hs.held old hold

/-! ## Adding and removing slots -/

theorem WellFormed.insert {s : MemoryStore} (hs : s.WellFormed) {slot : VarId → Slot}
    (hid : (slot s.freshId).id = s.freshId) (hname : s.lookup (slot s.freshId).name = none)
    (hheld : (slot s.freshId).pinned = false → 0 < (slot s.freshId).attachments) :
    (s.insert slot).WellFormed where
  ids_nodup := by
    simp only [MemoryStore.insert, List.map_append, List.map_cons, List.map_nil, hid]
    refine List.nodup_append.mpr ⟨hs.ids_nodup, by simp, ?_⟩
    intro id hold id' hnew heq
    obtain ⟨old, hmem, rfl⟩ := List.mem_map.mp hold
    rw [List.mem_singleton] at hnew
    exact slot?_eq_none_iff.mp hs.slot?_freshId old hmem (heq.trans hnew)
  names_nodup := by
    simp only [MemoryStore.insert, List.map_append, List.map_cons, List.map_nil]
    refine List.nodup_append.mpr ⟨hs.names_nodup, by simp, ?_⟩
    intro name hold name' hnew heq
    obtain ⟨old, hmem, rfl⟩ := List.mem_map.mp hold
    rw [List.mem_singleton] at hnew
    exact lookup_eq_none_iff.mp hname old hmem (heq.trans hnew)
  id_le := by
    intro x hmem
    rcases List.mem_append.mp hmem with hold | hnew
    · exact Nat.le_succ_of_le (hs.id_le x hold)
    · rw [List.mem_singleton.mp hnew, hid]
      exact Nat.le_refl _
  held := by
    intro x hmem
    rcases List.mem_append.mp hmem with hold | hnew
    · exact hs.held x hold
    · rw [List.mem_singleton.mp hnew]
      exact hheld

theorem WellFormed.erase {s : MemoryStore} (hs : s.WellFormed) (id : VarId) :
    ({ s with slots := s.slots.filter (·.id ≠ id) } : MemoryStore).WellFormed where
  ids_nodup := hs.ids_nodup.sublist ((List.filter_sublist).map _)
  names_nodup := hs.names_nodup.sublist ((List.filter_sublist).map _)
  id_le slot hmem := hs.id_le slot (List.mem_filter.mp hmem).1
  held slot hmem := hs.held slot (List.mem_filter.mp hmem).1

/-! ## What each operation keeps -/

theorem keepsIdentity_attachments (f : Nat → Nat) :
    KeepsIdentity fun slot => { slot with attachments := f slot.attachments } :=
  ⟨fun _ => rfl, fun _ => rfl⟩

theorem keepsIdentity_put (value : Value) : KeepsIdentity (·.put value) :=
  ⟨fun _ => rfl, fun _ => rfl⟩

theorem WellFormed.put {s : MemoryStore} (hs : s.WellFormed) (id : VarId) (value : Value) :
    (s.update id (·.put value)).WellFormed :=
  hs.update id (keepsIdentity_put value) fun slot hmem _ => hs.held slot hmem

theorem WellFormed.attach {s : MemoryStore} (hs : s.WellFormed) (id : VarId) :
    (s.attach id).WellFormed :=
  hs.update id (keepsIdentity_attachments (· + 1)) fun _ _ _ _ => Nat.succ_pos _

theorem WellFormed.updateNamed {s : MemoryStore} (hs : s.WellFormed) (name : String)
    {f : Slot → Slot} (hf : KeepsIdentity f)
    (hheld : ∀ slot ∈ s.slots, (f slot).pinned = false → 0 < (f slot).attachments) :
    (s.updateNamed name f).2.WellFormed := by
  unfold MemoryStore.updateNamed
  split
  · exact hs.update _ hf fun slot hmem _ => hheld slot hmem
  · exact hs

theorem WellFormed.define {s : MemoryStore} (hs : s.WellFormed) (name : String) (type : DataType)
    (value : Value) : (s.define name type value).2.WellFormed := by
  unfold MemoryStore.define
  cases hname : s.lookup name with
  | some id => exact hs.update id ⟨fun _ => rfl, fun _ => rfl⟩ fun _ _ _ h => by cases h
  | none =>
    dsimp only
    apply hs.insert
    · rfl
    · exact hname
    · intro h
      cases h

def newSlot (name : String) (owner : Option Int32) (id : VarId) : Slot :=
  { id := id, name := name, value := .ofFloat 0.0, dataType := .undeclared, attachments := 1,
    pinned := false, owner := owner }

/-- A resolved name was known and is attached to, or it was not and is created. -/
theorem resolve_ok {s s' : MemoryStore} {name : String} {policy : ExistPolicy}
    {owner : Option Int32} {b : Binding} (hr : MemoryStore.resolve name policy owner s = .ok b s') :
    (∃ id, s.lookup name = some id ∧ b = ⟨id, false⟩ ∧ s' = s.attach id) ∨
      (s.lookup name = none ∧ policy ≠ .mustExist ∧ b = ⟨s.freshId, true⟩ ∧
        s' = s.insert (newSlot name owner)) := by
  unfold MemoryStore.resolve at hr
  cases hname : s.lookup name with
  | some id =>
    simp only [hname, EStateM.Result.ok.injEq] at hr
    exact .inl ⟨id, rfl, hr.1.symm, hr.2.symm⟩
  | none =>
    simp only [hname] at hr
    split at hr
    · cases hr
    · next hpolicy =>
      cases hr
      exact .inr ⟨rfl, hpolicy, rfl, rfl⟩

/-- A name that is not resolved is unknown and must be known; nothing happens then. -/
theorem resolve_error {s s' : MemoryStore} {name : String} {policy : ExistPolicy}
    {owner : Option Int32} {e : BindError}
    (hr : MemoryStore.resolve name policy owner s = .error e s') :
    s.lookup name = none ∧ policy = .mustExist ∧ s' = s := by
  unfold MemoryStore.resolve at hr
  cases hname : s.lookup name with
  | some id => simp [hname] at hr
  | none =>
    simp only [hname] at hr
    split at hr
    · next hpolicy =>
      cases hr
      exact ⟨rfl, hpolicy, rfl⟩
    · cases hr

theorem WellFormed.resolve {s s' : MemoryStore} (hs : s.WellFormed) {name : String}
    {policy : ExistPolicy} {owner : Option Int32} {b : Binding}
    (hr : MemoryStore.resolve name policy owner s = .ok b s') : s'.WellFormed := by
  rcases resolve_ok hr with ⟨id, -, -, rfl⟩ | ⟨hname, -, -, rfl⟩
  · exact hs.attach id
  · exact hs.insert rfl hname fun _ => Nat.one_pos

/-- Giving back an attachment: the slot goes with the last one, or counts one less. -/
theorem WellFormed.detach {s : MemoryStore} (hs : s.WellFormed) (id : VarId) :
    (s.detach id).WellFormed := by
  unfold MemoryStore.detach
  cases hslot : s.slot? id with
  | none => exact hs
  | some slot =>
    dsimp only
    split
    · exact hs.erase id
    · next hkeep =>
      refine hs.update id (keepsIdentity_attachments (· - 1)) ?_
      intro old hmem hid hpinned
      obtain rfl : old = slot := by
        apply Option.some.inj
        rw [← hs.slot?_of_mem hmem, hid, hslot]
      have hmany : ¬ old.attachments ≤ 1 := fun h => hkeep ⟨h, hpinned⟩
      dsimp only
      omega

theorem write_ok {s s' : MemoryStore} {id : VarId} {value : Value} {lockHeld : Bool}
    (hw : MemoryStore.write id value lockHeld s = .ok () s') :
    (s.slot? id).isSome ∧ s' = s.update id (·.put value) := by
  unfold MemoryStore.write at hw
  cases hslot : s.slot? id with
  | none => simp [hslot] at hw
  | some slot =>
    simp only [hslot, EStateM.Result.ok.injEq, true_and] at hw
    exact ⟨rfl, hw.symm⟩

theorem writePhysical_ok {s s' : MemoryStore} {id : VarId} {value : Float} {lockHeld : Bool}
    (hw : MemoryStore.writePhysical id value lockHeld s = .ok () s') :
    ∃ raw, s' = s.update id (·.put raw) := by
  unfold MemoryStore.writePhysical at hw
  split at hw
  · cases hw
  · split at hw
    · cases hw
    · cases hw
      exact ⟨_, rfl⟩

/-! ## Registrations -/

theorem mem_insertAscending {n m : UInt64} {l : List UInt64} :
    m ∈ insertAscending n l ↔ m = n ∨ m ∈ l := by
  induction l with
  | nil => simp [insertAscending]
  | cons k l ih =>
    unfold insertAscending
    split
    · simp
    · split
      · next hk => simp [hk]
      · simp only [List.mem_cons, ih]
        exact or_left_comm

theorem pairwise_insertAscending {n : UInt64} {l : List UInt64} (h : l.Pairwise (· < ·)) :
    (insertAscending n l).Pairwise (· < ·) := by
  induction l with
  | nil => simp [insertAscending]
  | cons k l ih =>
    obtain ⟨hk, hl⟩ := List.pairwise_cons.mp h
    unfold insertAscending
    split
    · next hlt =>
      refine List.pairwise_cons.mpr ⟨fun m hm => ?_, h⟩
      rcases List.mem_cons.mp hm with rfl | hm
      · exact hlt
      · exact UInt64.lt_trans hlt (hk m hm)
    · next hnlt =>
      split
      · exact h
      · next hne =>
        refine List.pairwise_cons.mpr ⟨fun m hm => ?_, ih hl⟩
        rcases mem_insertAscending.mp hm with rfl | hm
        · exact UInt64.lt_of_le_of_ne (UInt64.not_lt.mp hnlt) (Ne.symm hne)
        · exact hk m hm

/-! ## Reachability -/

/-- The states of a store on which a host works: the empty store, and whatever an operation makes
of such a state. -/
inductive Reachable : MemoryStore → Prop where
  | empty : Reachable {}
  | define {s : MemoryStore} (name : String) (type : DataType) (value : Value)
      (h : Reachable s) : Reachable (s.define name type value).2
  | setConversion {s : MemoryStore} (name : String) (c : Conversion) (h : Reachable s) :
      Reachable (s.setConversion name c).2
  | addEnum {s : MemoryStore} (name text : String) (value : Int64) (h : Reachable s) :
      Reachable (s.addEnum name text value).2
  | setProcess {s : MemoryStore} (process : String) (state : ProcessState) (h : Reachable s) :
      Reachable (s.setProcess process state)
  | resolve {s s' : MemoryStore} {name : String} {policy : ExistPolicy} {owner : Option Int32}
      {b : Binding} (h : Reachable s) (hr : MemoryStore.resolve name policy owner s = .ok b s') :
      Reachable s'
  | write {s s' : MemoryStore} {id : VarId} {value : Value} {lockHeld : Bool} (h : Reachable s)
      (hw : MemoryStore.write id value lockHeld s = .ok () s') : Reachable s'
  | writePhysical {s s' : MemoryStore} {id : VarId} {value : Float} {lockHeld : Bool}
      (h : Reachable s) (hw : MemoryStore.writePhysical id value lockHeld s = .ok () s') :
      Reachable s'
  | attach {s : MemoryStore} (id : VarId) (h : Reachable s) : Reachable (s.attach id)
  | detach {s : MemoryStore} (id : VarId) (h : Reachable s) : Reachable (s.detach id)
  | attachEquation {s : MemoryStore} (n : UInt64) (h : Reachable s) :
      Reachable (s.attachEquation n)
  | detachEquation {s : MemoryStore} (n : UInt64) (h : Reachable s) :
      Reachable (s.detachEquation n)

theorem Reachable.wellFormed {s : MemoryStore} (h : Reachable s) : s.WellFormed := by
  induction h with
  | empty => exact ⟨by simp, by simp, by simp, by simp⟩
  | define name type value _ ih => exact ih.define name type value
  | setConversion name c _ ih =>
    exact ih.updateNamed name ⟨fun _ => rfl, fun _ => rfl⟩ ih.held
  | addEnum name text value _ ih =>
    exact ih.updateNamed name ⟨fun _ => rfl, fun _ => rfl⟩ ih.held
  | setProcess process state _ ih => exact ⟨ih.ids_nodup, ih.names_nodup, ih.id_le, ih.held⟩
  | resolve _ hr ih => exact ih.resolve hr
  | write _ hw ih =>
    rw [(write_ok hw).2]
    exact ih.put _ _
  | writePhysical _ hw ih =>
    obtain ⟨raw, rfl⟩ := writePhysical_ok hw
    exact ih.put _ raw
  | attach id _ ih => exact ih.attach id
  | detach id _ ih => exact ih.detach id
  | attachEquation n _ ih => exact ⟨ih.ids_nodup, ih.names_nodup, ih.id_le, ih.held⟩
  | detachEquation n _ ih => exact ⟨ih.ids_nodup, ih.names_nodup, ih.id_le, ih.held⟩

end MemoryStore

end SignalCalc
