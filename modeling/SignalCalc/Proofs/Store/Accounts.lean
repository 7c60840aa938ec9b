import SignalCalc.Proofs.Machine.Writes
import SignalCalc.Proofs.Store.Lending

namespace SignalCalc.MemoryStore

/-- The store has given out `owed id` attachments of each number, and has a slot for each that it
has given out. -/
structure Accounts (s : MemoryStore) (owed : VarId → Nat) : Prop where
  exact : ∀ slot ∈ s.slots, slot.attachments = owed slot.id
  known : ∀ id, 0 < owed id → (s.slot? id).isSome

variable {s t : MemoryStore} {owed : VarId → Nat}

theorem Accounts.congr (h : s.Accounts owed) {owed' : VarId → Nat}
    (heq : ∀ id, owed' id = owed id) : s.Accounts owed' := by
  rwa [funext heq]

theorem Accounts.owed_fresh (h : s.Accounts owed) (hs : s.WellFormed) {id : VarId}
    (hid : s.lastId < id.val) : owed id = 0 := by
  cases howed : owed id with
  | zero => rfl
  | succ n =>
    obtain ⟨slot, hslot⟩ := Option.isSome_iff_exists.mp (h.known id (by omega))
    obtain ⟨hmem, rfl⟩ := mem_of_slot? hslot
    have hle := hs.id_le slot hmem
    omega

theorem Accounts.of_slots (h : s.Accounts owed) (hslots : t.slots = s.slots) : t.Accounts owed where
  exact slot hslot := h.exact slot (hslots ▸ hslot)
  known id hid := by
    have hknown := h.known id hid
    unfold MemoryStore.slot? at hknown ⊢
    rwa [hslots]

/-- What is lent is added to the account. -/
theorem Accounts.lends (h : s.Accounts owed) (hs : s.WellFormed) {same : Value → Value → Prop}
    {owner : Option Int32} {held : VarId → Nat} (hlends : Lends same owner held s t)
    (ht : t.WellFormed) : t.Accounts fun id => owed id + held id where
  exact slot hmem := by
    -- what was created on loan bears a number for which nothing was owed
    rcases hlends.mem_cases hmem with ⟨old, hold, hcarried⟩ | hborrowed
    · rw [hcarried.attachments, hcarried.id, h.exact old hold]
    · rw [hborrowed.attachments, h.owed_fresh hs hborrowed.fresh, Nat.zero_add]
  known id hid := by
    by_cases howed : 0 < owed id
    · obtain ⟨slot, hslot⟩ := Option.isSome_iff_exists.mp (h.known id howed)
      obtain ⟨hmem, rfl⟩ := mem_of_slot? hslot
      obtain ⟨new, hnew, hcarried⟩ := hlends.mem_of_before hmem
      rw [← hcarried.id, ht.slot?_of_mem hnew]
      rfl
    · exact hlends.known id (by omega)

theorem Accounts.update (h : s.Accounts owed) (id : VarId) {f : Slot → Slot} (hf : KeepsIdentity f)
    (hcount : ∀ slot, (f slot).attachments = slot.attachments) : (s.update id f).Accounts owed where
  exact slot hmem := by
    obtain ⟨old, hold, rfl⟩ := mem_update.mp hmem
    rw [(hf.at_id id).id, ← h.exact old hold]
    split
    · exact hcount old
    · rfl
  known x hx := by
    rw [isSome_slot?_update s id x hf]
    exact h.known x hx

theorem Accounts.updateNamed (h : s.Accounts owed) (name : String) {f : Slot → Slot}
    (hf : KeepsIdentity f) (hcount : ∀ slot, (f slot).attachments = slot.attachments) :
    (s.updateNamed name f).2.Accounts owed := by
  unfold MemoryStore.updateNamed
  split
  · exact h.update _ hf hcount
  · exact h

theorem Accounts.define (h : s.Accounts owed) (hs : s.WellFormed) (name : String) (type : DataType)
    (value : Value) : (s.define name type value).2.Accounts owed := by
  unfold MemoryStore.define
  split
  · exact h.update _ ⟨fun _ => rfl, fun _ => rfl⟩ fun _ => rfl
  · refine ⟨?_, ?_⟩
    · intro slot hmem
      rcases List.mem_append.mp hmem with hold | hnew
      · exact h.exact slot hold
      · rw [List.mem_singleton.mp hnew]
        exact (h.owed_fresh hs (Nat.lt_succ_self _)).symm
    · intro id hid
      dsimp only
      rw [slot?_insert]
      simp [h.known id hid]

theorem Accounts.written (h : s.Accounts owed) {ids : VarId → Prop} (hw : Written ids s t) :
    t.Accounts owed := by
  induction hw with
  | refl => exact h
  | write _ _ hw ih =>
    rw [(write_ok hw).2]
    exact ih.update _ (keepsIdentity_put _) fun _ => rfl

theorem Accounts.attach (h : s.Accounts owed) {id : VarId} (hid : (s.slot? id).isSome) :
    (s.attach id).Accounts (bump owed id) where
  exact slot hmem := by
    obtain ⟨old, hold, rfl⟩ := mem_update.mp hmem
    rw [((keepsIdentity_attachments (· + 1)).at_id id).id]
    by_cases hold' : old.id = id
    · rw [if_pos hold', hold', bump_self, ← hold', ← h.exact old hold]
    · rw [if_neg hold', bump_ne owed hold', h.exact old hold]
  known x hx := by
    unfold MemoryStore.attach
    rw [isSome_slot?_update s id x (keepsIdentity_attachments (· + 1))]
    by_cases hxid : x = id
    · rw [hxid]
      exact hid
    · exact h.known x (by rwa [bump_ne owed hxid] at hx)

/-- An attachment that is given back is off the account. The slot goes only if it was the last. -/
theorem Accounts.detach {id : VarId} (h : s.Accounts (bump owed id)) :
    (s.detach id).Accounts owed := by
  obtain ⟨slot, hslot⟩ := Option.isSome_iff_exists.mp (h.known id (by simp))
  obtain ⟨hmem, hid⟩ := mem_of_slot? hslot
  have hcount := h.exact slot hmem
  rw [hid, bump_self] at hcount
  unfold MemoryStore.detach
  simp only [hslot]
  split
  · next hlast =>
    -- the slot goes, and nobody is left to miss it
    have hzero : owed id = 0 := by omega
    refine ⟨?_, ?_⟩
    · intro x hx
      obtain ⟨hx, hne⟩ := List.mem_filter.mp hx
      rw [h.exact x hx, bump_ne owed (by simpa using hne)]
    · intro x hx
      have hne : x ≠ id := fun heq => by rw [heq] at hx; omega
      rw [slot?_erase hne]
      exact h.known x (by rw [bump_ne owed hne]; exact hx)
  · refine ⟨?_, ?_⟩
    · intro x hx
      obtain ⟨old, hold, rfl⟩ := mem_update.mp hx
      rw [((keepsIdentity_attachments (· - 1)).at_id id).id]
      by_cases hold' : old.id = id
      · rw [if_pos hold', hold']
        have := h.exact old hold
        rw [hold', bump_self] at this
        dsimp only
        omega
      · rw [if_neg hold', h.exact old hold, bump_ne owed hold']
    · intro x hx
      rw [isSome_slot?_update s id x (keepsIdentity_attachments (· - 1))]
      exact h.known x (Nat.lt_of_lt_of_le hx (Nat.le_add_right _ _))

theorem Accounts.detachAll {ids : List VarId}
    (h : s.Accounts fun id => ids.count id + owed id) : (Program.detachAll ids s).Accounts owed := by
  induction ids generalizing s with
  | nil => exact h.congr fun id => by simp
  | cons id ids ih => exact ih (h.congr (bump_count ids owed id)).detach

theorem Accounts.attachAll {ids : List VarId} (h : s.Accounts owed)
    (hids : ∀ id ∈ ids, 0 < owed id) :
    (Program.attachAll ids s).Accounts fun id => ids.count id + owed id := by
  induction ids generalizing s owed with
  | nil => exact h.congr fun id => by simp
  | cons id ids ih =>
    have hfirst := h.attach (h.known id (hids id (by simp)))
    refine (ih hfirst fun x hx => ?_).congr fun x => ?_
    · have hpos := hids x (List.mem_cons_of_mem id hx)
      exact Nat.lt_of_lt_of_le hpos (Nat.le_add_right _ _)
    · rw [← bump_count ids owed id x]
      exact Nat.add_assoc _ _ _

end SignalCalc.MemoryStore
