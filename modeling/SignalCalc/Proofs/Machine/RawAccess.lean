import SignalCalc.Proofs.Store.Conformance
import SignalCalc.Proofs.Value.RawBits

namespace SignalCalc

open Machine MemoryStore

/-- On this store the instruction pushes a value, if there is room for one, and does nothing else. -/
def Pushes (i : Instruction) (v : Value) (s : MemoryStore) : Prop :=
  ∀ (plugins : Registry) (ctx : Context) (stack : Stack),
    step plugins ctx i ⟨stack, s⟩ = (push v >>= fun _ => pure i) ⟨stack, s⟩

/-- On the store `s` the instruction takes the value `v` from the stack, puts `v'` in its place, and
makes the store `s'` of `s`. -/
def Exchanges (i : Instruction) (v v' : Value) (s s' : MemoryStore) : Prop :=
  ∀ (plugins : Registry) (ctx : Context) (below : List Value)
    (h : below.length + 1 ≤ stackCapacity),
    step plugins ctx i ⟨⟨v :: below, h⟩, s⟩ = .ok i ⟨⟨v' :: below, h⟩, s'⟩

/-! ## Instructions -/

section Instructions

variable {s : MemoryStore} {id : VarId} {slot : Slot} (hslot : s.slot? id = some slot)
include hslot

theorem rawBits_of_slot? :
    rawBits s id = ⟨.unsigned (slot.dataType.toBits slot.value), slot.dataType.width⟩ := by
  simp [rawBits, VariableStore.dataType, VariableStore.read, MemoryStore.dataType,
    MemoryStore.read, hslot]

theorem pushes_readBits :
    Pushes (.access .readBits id)
      ⟨.unsigned (slot.dataType.toBits slot.value), slot.dataType.width⟩ s := by
  intro plugins ctx stack
  simp only [step, Instruction.access, builtin, access, bind, EStateM.bind, getStore,
    rawBits_of_slot? hslot]
  cases push _ _ <;> rfl

theorem pushes_invertedBits :
    Pushes (.access .invertedBits id)
      ⟨.unsigned (~~~slot.dataType.toBits slot.value &&& widthMask slot.dataType.width),
        slot.dataType.width⟩ s := by
  intro plugins ctx stack
  simp only [step, Instruction.access, builtin, access, bind, EStateM.bind, getStore,
    rawBits_of_slot? hslot, Value.toUInt64, Value.mask]
  cases push _ _ <;> rfl

/-- The word on the stack gives way to the value that it stands for, which goes to the store. -/
theorem exchanges_writeBits (word : Value) :
    Exchanges (.access .writeBits id) word (slot.dataType.ofBits word.toUInt64) s
      (s.update id (·.put (slot.dataType.ofBits word.toUInt64))) := by
  intro plugins ctx below h
  have htype : VariableStore.dataType s id = slot.dataType := by
    simp [VariableStore.dataType, MemoryStore.dataType, hslot]
  have hwrite : ∀ v, VariableStore.write id v ctx.lockHeld s =
      .ok () (s.update id (·.put v)) := by
    intro v
    simp [VariableStore.write, MemoryStore.write, hslot]
  have hroom : below.length < stackCapacity := h
  simp [step, Instruction.access, builtin, access, bind, EStateM.bind, getStore, onStack, onStore,
    Stack.pop, push, Stack.push, htype, hwrite, hroom, pure, EStateM.pure]

end Instructions

/-! ## Values in the store -/

/-- A variable keeps a value of its own integer type as it is. -/
theorem Slot.put_of_holds {slot : Slot} (h : slot.dataType.isReal = false) {v : Value}
    (hv : slot.dataType.Holds v) : slot.put v = { slot with value := v } := by
  rw [Slot.put, DataType.coerce_of_holds h hv]

/-- To store the value that a variable has already changes nothing. -/
theorem MemoryStore.WellFormed.put_self {s : MemoryStore} (hs : s.WellFormed) {id : VarId}
    {slot : Slot} (hslot : s.slot? id = some slot) (h : slot.dataType.isReal = false)
    (hvalue : slot.dataType.Holds slot.value) : s.update id (·.put slot.value) = s := by
  have hkeep : ∀ x ∈ s.slots, (if x.id = id then x.put slot.value else x) = x := by
    intro x hx
    split
    · next hid =>
      obtain rfl : x = slot := by
        apply Option.some.inj
        rw [← hs.slot?_of_mem hx, hid, hslot]
      rw [Slot.put_of_holds h hvalue]
    · rfl
  rw [MemoryStore.update, List.map_congr_left hkeep, List.map_id']

/-! ## There and back again -/

/-- Raw bits of an integer variable, of a width of `bytes` bytes. When a word is written as raw bits,
the value that stays on the stack is the value that is then stored; no other variable changes, and
the word is read back modulo the number of bit patterns, plain and inverted. When raw bits are read
and written back, the store is what it was before. -/
theorem rawBits_roundTrip {s : MemoryStore} (hs : Reachable s) {id : VarId} {slot : Slot}
    (hslot : s.slot? id = some slot) (hinteger : slot.dataType.isReal = false) :
    let bytes := slot.dataType.width
    let patterns := 2 ^ (8 * bytes.toNat)
    (∀ word : Value, ∃ stored s',
      Exchanges (.access .writeBits id) word stored s s' ∧ s'.read id = stored ∧
      (∀ other, other ≠ id → s'.slot? other = s.slot? other) ∧
      Pushes (.access .readBits id)
        ⟨.unsigned (.ofNat (word.toUInt64.toNat % patterns)), bytes⟩ s' ∧
      Pushes (.access .invertedBits id)
        ⟨.unsigned (.ofNat (patterns - 1 - word.toUInt64.toNat % patterns)), bytes⟩ s') ∧
    ∃ raw, Pushes (.access .readBits id) raw s ∧
      Exchanges (.access .writeBits id) raw (s.read id) s s := by
  intro bytes patterns
  have hread : s.read id = slot.value := by simp [MemoryStore.read, hslot]
  have hholds : slot.dataType.Holds slot.value := hs.conforming slot (mem_of_slot? hslot).1
  constructor
  · intro word
    -- what the bits stand for is of the type already, so that it is stored as it is
    have hput := slot.put_of_holds hinteger (DataType.holds_ofBits hinteger word.toUInt64)
    have hslot' : (s.update id (·.put (slot.dataType.ofBits word.toUInt64))).slot? id =
        some { slot with value := slot.dataType.ofBits word.toUInt64 } := by
      rw [slot?_update s id id (keepsIdentity_put _), if_pos rfl, hslot, Option.map_some, hput]
    have hbits := DataType.toBits_ofBits hinteger word.toUInt64
    have hplain := pushes_readBits hslot'
    have hinverted := pushes_invertedBits hslot'
    have hcomplement := DataType.toNat_not_and_widthMask (DataType.isWidth_width hinteger)
      (n := slot.dataType.toBits (slot.dataType.ofBits word.toUInt64))
      (by rw [hbits]; exact Nat.mod_lt _ (Nat.two_pow_pos _))
    refine ⟨_, _, exchanges_writeBits hslot word, ?_, ?_, ?_, ?_⟩
    · simp [MemoryStore.read, hslot']
    · exact fun other hne => slot?_update_ne s (keepsIdentity_put _) hne
    · rwa [← hbits, UInt64.ofNat_toNat]
    · rwa [← hbits, ← hcomplement, UInt64.ofNat_toNat]
  · refine ⟨_, pushes_readBits hslot, ?_⟩
    have hback := exchanges_writeBits hslot
      ⟨.unsigned (slot.dataType.toBits slot.value), slot.dataType.width⟩
    simp only [Value.toUInt64, DataType.ofBits_toBits hinteger hholds,
      hs.wellFormed.put_self hslot hinteger hholds] at hback
    rwa [hread]

/-- A signed byte takes the low eight bits of a longer word. -/
theorem rawBits_roundTrip_byte :
    let s := (({} : MemoryStore).define "b" .int8 (.ofInt64 (-1))).2
    let word := Value.ofUInt64 0x1FF85
    (∃ stored s', Exchanges (.access .writeBits ⟨1⟩) word stored s s' ∧ s'.read ⟨1⟩ = stored ∧
      Pushes (.access .readBits ⟨1⟩) ⟨.unsigned 0x85, 1⟩ s' ∧
      Pushes (.access .invertedBits ⟨1⟩) ⟨.unsigned 0x7A, 1⟩ s') ∧
    ∃ raw, Pushes (.access .readBits ⟨1⟩) raw s ∧
      Exchanges (.access .writeBits ⟨1⟩) raw (s.read ⟨1⟩) s s := by
  intro s word
  have hs : Reachable s := .define "b" .int8 (.ofInt64 (-1)) .empty
  obtain ⟨slot, hslot, htype⟩ : ∃ slot, s.slot? ⟨1⟩ = some slot ∧ slot.dataType = .int8 :=
    ⟨_, rfl, rfl⟩
  obtain ⟨hbits, hback⟩ := rawBits_roundTrip hs hslot (by rw [htype]; rfl)
  obtain ⟨stored, s', hwrite, hread, -, hplain, hinverted⟩ := hbits word
  have hlow : UInt64.ofNat (word.toUInt64.toNat % 2 ^ (8 * DataType.int8.width.toNat)) = 0x85 := by
    decide
  have hcomplement : UInt64.ofNat (2 ^ (8 * DataType.int8.width.toNat) - 1 -
      word.toUInt64.toNat % 2 ^ (8 * DataType.int8.width.toNat)) = 0x7A := by decide
  rw [htype, hlow] at hplain
  rw [htype, hcomplement] at hinverted
  exact ⟨⟨stored, s', hwrite, hread, hplain, hinverted⟩, hback⟩

end SignalCalc
