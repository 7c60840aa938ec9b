import SignalCalc.Proofs.Store.Reachable
import SignalCalc.Program

/-! # Lending attachments

Work on an equation borrows attachments from the store and gives them back. `Lends` relates the
store before the work to the store in the middle of it: the slots from before are all still there,
in the same order, and differ by the attachments on loan and perhaps by their values; behind them
stand the slots that came to be in the meantime, each of them held by nobody else.
-/

namespace SignalCalc.MemoryStore

def bump (held : VarId → Nat) (id : VarId) : VarId → Nat :=
  fun x => held x + if x = id then 1 else 0

@[simp] theorem bump_self (held : VarId → Nat) (id : VarId) : bump held id id = held id + 1 := by
  simp [bump]

theorem bump_ne (held : VarId → Nat) {id x : VarId} (h : x ≠ id) : bump held id x = held x := by
  simp [bump, h]

theorem bump_count (ids : List VarId) (held : VarId → Nat) (id x : VarId) :
    bump (fun x => ids.count x + held x) id x = (id :: ids).count x + held x := by
  by_cases hx : x = id
  · simp [bump, hx]
    omega
  · simp [bump, hx, Ne.symm hx]

/-- A slot as resolving an unknown name makes it. -/
structure CreatedFor (owner : Option Int32) (slot : Slot) : Prop where
  dataType : slot.dataType = .undeclared
  pinned : slot.pinned = false
  conversion : slot.conversion = none
  enums : slot.enums = []
  owner : slot.owner = owner

/-- How a slot from before looks in the middle of the work: `held` of its attachments are on loan,
and its value is related to the old one by `same`. -/
def Carried (same : Value → Value → Prop) (held : VarId → Nat) (old new : Slot) : Prop :=
  ∃ value, same old.value value ∧
    new = { old with attachments := old.attachments + held old.id, value := value }

/-- A slot that came to be during the work. All of its attachments are on loan. -/
structure Borrowed (owner : Option Int32) (held : VarId → Nat) (lastId : Nat) (slot : Slot) :
    Prop where
  created : CreatedFor owner slot
  attachments : slot.attachments = held slot.id
  held_pos : 0 < held slot.id
  fresh : lastId < slot.id.val

/-- The store `after` is the store `before` with the attachments `held` on loan. Values from before
are related by `same`, and what was created belongs to `owner`. -/
structure Lends (same : Value → Value → Prop) (owner : Option Int32) (held : VarId → Nat)
    (before after : MemoryStore) : Prop where
  slots : ∃ (carry : Slot → Slot) (fresh : List Slot),
    after.slots = before.slots.map carry ++ fresh ∧
    (∀ slot ∈ before.slots, Carried same held slot (carry slot)) ∧
    (∀ slot ∈ fresh, Borrowed owner held before.lastId slot)
  known : ∀ id, 0 < held id → (after.slot? id).isSome
  lastId_le : before.lastId ≤ after.lastId
  processes : after.processes = before.processes
  equations : after.equations = before.equations

variable {same : Value → Value → Prop} {owner : Option Int32} {held : VarId → Nat}
  {before after : MemoryStore}

theorem Carried.id {old new : Slot} (h : Carried same held old new) : new.id = old.id := by
  obtain ⟨value, -, rfl⟩ := h
  rfl

theorem Carried.name {old new : Slot} (h : Carried same held old new) : new.name = old.name := by
  obtain ⟨value, -, rfl⟩ := h
  rfl

theorem Carried.attachments {old new : Slot} (h : Carried same held old new) :
    new.attachments = old.attachments + held old.id := by
  obtain ⟨value, -, rfl⟩ := h
  rfl

theorem Carried.pinned {old new : Slot} (h : Carried same held old new) :
    new.pinned = old.pinned := by
  obtain ⟨value, -, rfl⟩ := h
  rfl

/-- A slot of another number does not notice what happens to the loans of `id`. -/
theorem Carried.congr {old new : Slot} (h : Carried same held old new) {held' : VarId → Nat}
    (heq : held' old.id = held old.id) : Carried same held' old new := by
  obtain ⟨value, hvalue, rfl⟩ := h
  exact ⟨value, hvalue, by rw [heq]⟩

theorem Borrowed.congr {lastId : Nat} {slot : Slot} (h : Borrowed owner held lastId slot)
    {held' : VarId → Nat} (hheld : held' slot.id = held slot.id) :
    Borrowed owner held' lastId slot :=
  ⟨h.created, by rw [hheld]; exact h.attachments, by rw [hheld]; exact h.held_pos, h.fresh⟩

theorem Lends.refl (hsame : ∀ v, same v v) (owner : Option Int32) (s : MemoryStore) :
    Lends same owner (fun _ => 0) s s where
  slots := ⟨fun slot => slot, [], by simp, fun slot _ => ⟨slot.value, hsame _, rfl⟩, by simp⟩
  known _ h := absurd h (Nat.lt_irrefl 0)
  lastId_le := Nat.le_refl _
  processes := rfl
  equations := rfl

theorem Lends.congr (h : Lends same owner held before after) {held' : VarId → Nat}
    (heq : ∀ id, held' id = held id) : Lends same owner held' before after := by
  rwa [funext heq]

theorem Lends.held_freshId (h : Lends same owner held before after) (ha : after.WellFormed) :
    held after.freshId = 0 := by
  cases hheld : held after.freshId with
  | zero => rfl
  | succ n =>
    have hknown := h.known after.freshId (by omega)
    rw [ha.slot?_freshId] at hknown
    cases hknown

/-- A slot of the store in the middle of the work is one from before or a new one. -/
theorem Lends.mem_cases (h : Lends same owner held before after) {slot : Slot}
    (hmem : slot ∈ after.slots) :
    (∃ old ∈ before.slots, Carried same held old slot) ∨
      Borrowed owner held before.lastId slot := by
  obtain ⟨carry, fresh, hslots, hcarried, hfresh⟩ := h.slots
  rw [hslots] at hmem
  rcases List.mem_append.mp hmem with hold | hnew
  · obtain ⟨old, hbefore, rfl⟩ := List.mem_map.mp hold
    exact .inl ⟨old, hbefore, hcarried old hbefore⟩
  · exact .inr (hfresh slot hnew)

theorem Lends.mem_of_before (h : Lends same owner held before after) {old : Slot}
    (hmem : old ∈ before.slots) : ∃ new ∈ after.slots, Carried same held old new := by
  obtain ⟨carry, fresh, hslots, hcarried, -⟩ := h.slots
  refine ⟨carry old, ?_, hcarried old hmem⟩
  rw [hslots]
  exact List.mem_append_left _ (List.mem_map_of_mem hmem)

/-- A name from before still selects its slot. -/
theorem Lends.named?_of_before (h : Lends same owner held before after) (ha : after.WellFormed)
    {name : String} {old : Slot} (hold : before.named? name = some old) :
    ∃ new, after.named? name = some new ∧ Carried same held old new := by
  obtain ⟨hbefore, hname⟩ := mem_of_named? hold
  obtain ⟨new, hafter, hcarried⟩ := h.mem_of_before hbefore
  have hnamed := ha.named?_of_mem hafter
  rw [hcarried.name, hname] at hnamed
  exact ⟨new, hnamed, hcarried⟩

/-- A slot under a name that was not there before came to be during the work. -/
theorem Lends.borrowed_of_unnamed (h : Lends same owner held before after)
    (hb : before.WellFormed) {slot : Slot} (hmem : slot ∈ after.slots)
    (hnew : before.named? slot.name = none) : Borrowed owner held before.lastId slot := by
  apply (h.mem_cases hmem).resolve_left
  rintro ⟨old, hbefore, hcarried⟩
  rw [hcarried.name, hb.named?_of_mem hbefore] at hnew
  cases hnew

/-! ## Changes in place -/

theorem slots_update_append {carry : Slot → Slot} {fresh : List Slot}
    (hslots : after.slots = before.slots.map carry ++ fresh) (id : VarId) (f : Slot → Slot) :
    (after.update id f).slots =
      before.slots.map (fun slot => if (carry slot).id = id then f (carry slot) else carry slot) ++
        fresh.map fun slot => if slot.id = id then f slot else slot := by
  simp only [update, hslots, List.map_append, List.map_map, Function.comp_def]

/-- Recounting the attachments of one slot changes the number on loan. -/
theorem Lends.recount (h : Lends same owner held before after) (id : VarId) (count : Nat → Nat)
    {held' : VarId → Nat} (hcount : ∀ n, count (n + held id) = n + held' id)
    (hother : ∀ x, x ≠ id → held' x = held x)
    (hknown : ∀ x, 0 < held' x → (after.slot? x).isSome)
    (hpos : ∀ slot ∈ after.slots, slot.id = id → before.lastId < id.val → 0 < held' id) :
    Lends same owner held' before
      (after.update id fun slot => { slot with attachments := count slot.attachments }) := by
  have hidentity := keepsIdentity_attachments count
  obtain ⟨carry, fresh, hslots, hcarried, hfresh⟩ := h.slots
  refine ⟨⟨_, _, slots_update_append hslots id _, ?_, ?_⟩, ?_, h.lastId_le, h.processes,
    h.equations⟩
  · -- a variable from before: its own count shifts by what is held now
    intro slot hmem
    have hslot := hcarried slot hmem
    by_cases hid : slot.id = id
    · rw [if_pos (hslot.id.trans hid)]
      obtain ⟨value, hvalue, hnew⟩ := hslot
      refine ⟨value, hvalue, ?_⟩
      rw [hnew, hid, hcount]
    · rw [if_neg (by rw [hslot.id]; exact hid)]
      exact hslot.congr (hother _ hid)
  · -- a created variable: all of its count is held
    intro slot hmem
    obtain ⟨old, hold, rfl⟩ := List.mem_map.mp hmem
    have hborrowed := hfresh old hold
    by_cases hid : old.id = id
    · rw [if_pos hid]
      have hin : old ∈ after.slots := by rw [hslots]; exact List.mem_append_right _ hold
      refine ⟨⟨hborrowed.created.dataType, hborrowed.created.pinned, hborrowed.created.conversion,
        hborrowed.created.enums, hborrowed.created.owner⟩, ?_, ?_, hborrowed.fresh⟩
      · have hzero := hcount 0
        simp only [Nat.zero_add] at hzero
        simp only [hborrowed.attachments, hid, hzero]
      · simp only [hid]
        exact hpos old hin hid (hid ▸ hborrowed.fresh)
    · rw [if_neg hid]
      exact hborrowed.congr (hother _ hid)
  · intro x hx
    rw [isSome_slot?_update after id x hidentity]
    exact hknown x hx

theorem Lends.put (h : Lends (fun _ _ => True) owner held before after) (id : VarId)
    (value : Value) :
    Lends (fun _ _ => True) owner held before (after.update id (·.put value)) := by
  obtain ⟨carry, fresh, hslots, hcarried, hfresh⟩ := h.slots
  refine ⟨⟨_, _, slots_update_append hslots id _, ?_, ?_⟩, ?_, h.lastId_le, h.processes,
    h.equations⟩
  · intro slot hmem
    have hslot := hcarried slot hmem
    split
    · obtain ⟨old, -, hnew⟩ := hslot
      rw [hnew]
      exact ⟨_, trivial, rfl⟩
    · exact hslot
  · intro slot hmem
    obtain ⟨old, hold, rfl⟩ := List.mem_map.mp hmem
    have hborrowed := hfresh old hold
    split
    · exact ⟨⟨hborrowed.created.dataType, hborrowed.created.pinned, hborrowed.created.conversion,
        hborrowed.created.enums, hborrowed.created.owner⟩, hborrowed.attachments,
        hborrowed.held_pos, hborrowed.fresh⟩
    · exact hborrowed
  · intro x hx
    rw [isSome_slot?_update after id x (keepsIdentity_put value)]
    exact h.known x hx

/-! ## Store operations -/

theorem Lends.attach (h : Lends same owner held before after) {id : VarId}
    (hid : (after.slot? id).isSome) :
    Lends same owner (bump held id) before (after.attach id) := by
  apply h.recount id (· + 1)
  · intro n
    rw [bump_self]
    omega
  · intro x hx
    exact bump_ne held hx
  · intro x hx
    by_cases hxid : x = id
    · rw [hxid]; exact hid
    · rw [bump_ne held hxid] at hx
      exact h.known x hx
  · intro slot _ _ _
    rw [bump_self]
    exact Nat.succ_pos _

theorem slot?_insert {s : MemoryStore} {new : VarId → Slot} (x : VarId) :
    (s.insert new).slot? x =
      (s.slot? x).or (if (new s.freshId).id = x then some (new s.freshId) else none) := by
  simp only [slot?, MemoryStore.insert, List.find?_append, List.find?_singleton]
  by_cases hx : (new s.freshId).id = x <;> simp [hx]

theorem Lends.create (h : Lends same owner held before after) (ha : after.WellFormed)
    (name : String) :
    Lends same owner (bump held after.freshId) before (after.insert (newSlot name owner)) := by
  have hfreshId := h.held_freshId ha
  have hunused := ha.slot?_freshId
  obtain ⟨carry, fresh, hslots, hcarried, hfresh⟩ := h.slots
  -- the new number is nobody's, so that no other account changes
  have hne : ∀ slot ∈ after.slots, slot.id ≠ after.freshId := slot?_eq_none_iff.mp hunused
  refine ⟨⟨carry, fresh ++ [newSlot name owner after.freshId], ?_, ?_, ?_⟩, ?_, ?_, h.processes,
    h.equations⟩
  · simp only [MemoryStore.insert, hslots, List.append_assoc]
  · intro slot hmem
    have hslot := hcarried slot hmem
    have hin : carry slot ∈ after.slots := by
      rw [hslots]; exact List.mem_append_left _ (List.mem_map_of_mem hmem)
    have hid := hne (carry slot) hin
    rw [hslot.id] at hid
    exact hslot.congr (bump_ne held hid)
  · intro slot hmem
    rcases List.mem_append.mp hmem with hold | hnew
    · have hid := hne slot (by rw [hslots]; exact List.mem_append_right _ hold)
      exact (hfresh slot hold).congr (bump_ne held hid)
    · rw [List.mem_singleton.mp hnew]
      refine ⟨⟨rfl, rfl, rfl, rfl, rfl⟩, ?_, ?_, Nat.lt_succ_of_le h.lastId_le⟩
      · simp [newSlot, hfreshId]
      · simp [newSlot]
  · intro x hx
    rw [slot?_insert]
    by_cases hxid : x = after.freshId
    · simp [newSlot, hxid]
    · rw [bump_ne held hxid] at hx
      simp [h.known x hx]
  · exact Nat.le_succ_of_le h.lastId_le

theorem Lends.resolve (h : Lends same owner held before after) (ha : after.WellFormed)
    {name : String} {policy : ExistPolicy} {b : Binding} {after' : MemoryStore}
    (hr : MemoryStore.resolve name policy owner after = .ok b after') :
    Lends same owner (bump held b.id) before after' := by
  rcases resolve_ok hr with ⟨id, hname, rfl, rfl⟩ | ⟨-, -, rfl, rfl⟩
  · obtain ⟨slot, hslot, -⟩ := ha.slot?_of_lookup hname
    exact h.attach (by simp [hslot])
  · exact h.create ha name

theorem slot?_erase {s : MemoryStore} {id x : VarId} (h : x ≠ id) :
    ({ s with slots := s.slots.filter (·.id ≠ id) } : MemoryStore).slot? x = s.slot? x := by
  simp only [slot?, List.find?_filter]
  congr 1
  funext slot
  by_cases hx : slot.id = x
  · simp [hx, h]
  · simp [hx]

/-- A variable that was created during the work goes with its last attachment. -/
theorem Lends.erase {id : VarId} (h : Lends same owner (bump held id) before after)
    (hb : before.WellFormed) (hfresh : before.lastId < id.val) (hlast : held id = 0) :
    Lends same owner held before { after with slots := after.slots.filter (·.id ≠ id) } := by
  have hne : ∀ old ∈ before.slots, old.id ≠ id := by
    intro old hold heq
    have hle := hb.id_le old hold
    rw [heq] at hle
    omega
  obtain ⟨carry, fresh, hslots, hcarried, hborrowed⟩ := h.slots
  refine ⟨⟨carry, fresh.filter (·.id ≠ id), ?_, ?_, ?_⟩, ?_, h.lastId_le, h.processes,
    h.equations⟩
  · -- no variable from before is touched
    simp only [hslots, List.filter_append]
    congr 1
    rw [List.filter_eq_self]
    intro x hx
    obtain ⟨old, hold, rfl⟩ := List.mem_map.mp hx
    rw [(hcarried old hold).id]
    exact decide_eq_true (hne old hold)
  · intro old hold
    exact (hcarried old hold).congr (bump_ne held (hne old hold)).symm
  · intro x hx
    obtain ⟨hx, hxid⟩ := List.mem_filter.mp hx
    have hxid : x.id ≠ id := by simpa using hxid
    exact (hborrowed x hx).congr (bump_ne held hxid).symm
  · intro x hx
    have hxid : x ≠ id := fun heq => by rw [heq] at hx; omega
    rw [slot?_erase hxid]
    exact h.known x (by rw [bump_ne held hxid]; exact hx)

/-- Giving back an attachment takes it off the loan. A variable from before is not lost by that:
besides the loan it is declared or held by somebody else. -/
theorem Lends.detach {id : VarId} (h : Lends same owner (bump held id) before after)
    (hb : before.WellFormed) (ha : after.WellFormed) :
    Lends same owner held before (after.detach id) := by
  obtain ⟨slot, hslot⟩ := Option.isSome_iff_exists.mp (h.known id (by simp))
  obtain ⟨hmem, hid⟩ := mem_of_slot? hslot
  unfold MemoryStore.detach
  simp only [hslot]
  split
  · next hlast =>
    -- the last attachment of a variable that is not declared: it was created during the work
    rcases h.mem_cases hmem with ⟨old, hold, hcarried⟩ | hborrowed
    · have hpos := hb.held old hold (hcarried.pinned ▸ hlast.2)
      have hcount := hcarried.attachments
      rw [← hcarried.id, hid, bump_self] at hcount
      omega
    · have hcount := hborrowed.attachments
      have hfresh := hborrowed.fresh
      rw [hid] at hfresh
      rw [hid, bump_self] at hcount
      exact h.erase hb hfresh (by omega)
  · next hmore =>
    apply h.recount id (· - 1)
    · intro n
      rw [bump_self]
      omega
    · intro x hx
      exact (bump_ne held hx).symm
    · intro x hx
      exact h.known x (Nat.lt_of_lt_of_le hx (Nat.le_add_right _ _))
    · -- what was created during the work and stays is still held
      intro x hx hxid hlt
      obtain rfl : x = slot := by
        apply Option.some.inj
        rw [← ha.slot?_of_mem hx, hxid, hslot]
      rcases h.mem_cases hmem with ⟨old, hold, hcarried⟩ | hborrowed
      · have hle := hb.id_le old hold
        rw [← hcarried.id, hxid] at hle
        omega
      · have hcount := hborrowed.attachments
        rw [hid, bump_self] at hcount
        have : ¬ x.attachments ≤ 1 := fun hle => hmore ⟨hle, hborrowed.created.pinned⟩
        omega

theorem Lends.detachAll {ids : List VarId}
    (h : Lends same owner (fun id => ids.count id + held id) before after)
    (hb : before.WellFormed) (ha : after.WellFormed) :
    Lends same owner held before (Program.detachAll ids after) := by
  induction ids generalizing after with
  | nil => exact h.congr fun id => by simp
  | cons id ids ih =>
    have hfirst := h.congr (bump_count ids held id)
    exact ih (hfirst.detach hb ha) (ha.detach id)

/-- Once everything is back and no value has changed, the store is what it was, apart from the
counter. -/
theorem Lends.eq_of_returned (h : Lends Eq owner (fun _ => 0) before after) :
    after = { before with lastId := after.lastId } := by
  obtain ⟨carry, fresh, hslots, hcarried, hfresh⟩ := h.slots
  have hnone : fresh = [] := by
    cases fresh with
    | nil => rfl
    | cons slot rest => exact absurd (hfresh slot (by simp)).held_pos (Nat.lt_irrefl 0)
  have hsame : before.slots.map carry = before.slots := by
    rw [List.map_congr_left (g := fun slot => slot), List.map_id']
    intro slot hmem
    obtain ⟨value, hvalue, hnew⟩ := hcarried slot hmem
    rw [hnew, ← hvalue]
    simp
  rw [hnone, hsame, List.append_nil] at hslots
  cases after
  simp only [MemoryStore.mk.injEq, true_and]
  exact ⟨hslots, h.processes, h.equations⟩

end SignalCalc.MemoryStore
