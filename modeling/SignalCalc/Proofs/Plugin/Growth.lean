import SignalCalc.Plugin.Samples

/-! # Growing registries

A registry is built from the empty one by registrations, and code that was compiled with it may run
later, when more plugins have joined. A registration appends, so a number that stood for a plugin
stands for it for ever.

* `Registry.Grown` — what registrations make of a registry.
* `Registry.register_ok` — what a registration does when it is accepted.
* `Grown.plugin?` — numbers keep their plugins.
* `Grown.numbered`, `Numbered.plugin?_id` — a plugin has the number under which it is found.
* `Registry.Honest` — only plugins that say so look at the frame.
* `Plugin.Samples.registry_grown`, `Plugin.Samples.registry_honest` — the samples are of this kind.
-/

namespace SignalCalc

namespace Registry

inductive Grown (r : Registry) : Registry → Prop where
  | self : Grown r r
  | register {r' r'' : Registry} {name : String} {least most : UInt8} {flags : UInt32}
      {body : PluginCall → StackM Unit} {id : OpcodeId} (h : Grown r r')
      (hregister : Registry.register name least most flags body r' = .ok id r'') : Grown r r''

/-- An accepted registration: the name and the numbers of arguments are in order, there is room, and
the plugin comes last. -/
theorem register_ok {name : String} {least most : UInt8} {flags : UInt32}
    {body : PluginCall → StackM Unit} {r r' : Registry} {id : OpcodeId}
    (h : register name least most flags body r = .ok id r') :
    isFunctionName name = true ∧ isReserved name = false ∧ r.ids.contains name = false ∧
      least ≤ most ∧ most.toNat ≤ maxArguments ∧ r.size < capacity ∧
      id = ⟨UInt16.ofNat (OpcodeId.pluginBase + r.size)⟩ ∧
      r' = ⟨r.plugins.push ⟨name, id, least, most, flags, body⟩, r.ids.insert name id⟩ := by
  unfold register at h
  split at h
  · cases h
  · next hname =>
    split at h
    · cases h
    · next hfree =>
      split at h
      · cases h
      · next harity =>
        split at h
        · cases h
        · next hroom =>
          cases h
          simp only [Bool.not_eq_true', Bool.not_eq_false] at hname
          simp only [Bool.or_eq_true, not_or, Bool.not_eq_true] at hfree
          simp only [not_or, UInt8.not_lt, Nat.not_lt] at harity
          exact ⟨hname, hfree.1, hfree.2, harity.1, harity.2, Nat.not_le.mp hroom, rfl, rfl⟩

theorem plugin?_eq_some {r : Registry} {id : OpcodeId} {p : Plugin} :
    r.plugin? id = some p ↔
      OpcodeId.pluginBase ≤ id.val.toNat ∧
        r.plugins[id.val.toNat - OpcodeId.pluginBase]? = some p := by
  unfold plugin? OpcodeId.pluginIndex?
  by_cases hbase : OpcodeId.pluginBase ≤ id.val.toNat
  · simp [hbase]
  · simp [hbase]

/-- A number keeps its plugin when others are registered. -/
theorem Grown.plugin? {r r' : Registry} (h : r.Grown r') {id : OpcodeId} {p : Plugin}
    (hp : r.plugin? id = some p) : r'.plugin? id = some p := by
  induction h with
  | self => exact hp
  | register _ hregister ih =>
    obtain ⟨-, -, -, -, -, -, -, rfl⟩ := register_ok hregister
    obtain ⟨hbase, hplace⟩ := plugin?_eq_some.mp ih
    have hbound := (Array.getElem?_eq_some_iff.mp hplace).1
    refine plugin?_eq_some.mpr ⟨hbase, ?_⟩
    rw [Array.getElem?_push_lt hbound, ← hplace, Array.getElem?_eq_getElem hbound]

/-- Every plugin has the number of its place. -/
def Numbered (r : Registry) : Prop :=
  ∀ (i : Nat) (p : Plugin), r.plugins[i]? = some p → p.id = ⟨UInt16.ofNat (OpcodeId.pluginBase + i)⟩

theorem Grown.numbered {r r' : Registry} (h : r.Grown r') (hr : r.Numbered) : r'.Numbered := by
  induction h with
  | self => exact hr
  | register _ hregister ih =>
    obtain ⟨-, -, -, -, -, -, rfl, rfl⟩ := register_ok hregister
    intro i p hp
    rw [Array.getElem?_push] at hp
    split at hp
    · next hlast =>
      cases hp
      rw [hlast]
      rfl
    · exact ih i p hp

theorem numbered_empty : Registry.empty.Numbered := by
  intro i p hp
  simp [Registry.empty] at hp

/-- The number under which a plugin is found is its own. -/
theorem Numbered.plugin?_id {r : Registry} (hr : r.Numbered) {id : OpcodeId} {p : Plugin}
    (hp : r.plugin? id = some p) : p.id = id := by
  obtain ⟨hbase, hplace⟩ := plugin?_eq_some.mp hp
  rw [hr _ p hplace, Nat.add_sub_cancel' hbase, UInt16.ofNat_toNat]

/-- A plugin that is found by name is found by its number. -/
theorem Numbered.plugin?_of_lookup? {r : Registry} (hr : r.Numbered) {name : String} {p : Plugin}
    (hp : r.lookup? name = some p) : r.plugin? p.id = some p := by
  obtain ⟨id, -, hid⟩ := Option.bind_eq_some_iff.mp hp
  rwa [hr.plugin?_id hid]

theorem register_error {name : String} {least most : UInt8} {flags : UInt32}
    {body : PluginCall → StackM Unit} {r r' : Registry} {e : RegistryError}
    (h : register name least most flags body r = .error e r') : r' = r := by
  unfold register at h
  repeat' split at h
  all_goals cases h
  all_goals rfl

end Registry

/-! ## Plugins and the frame -/

/-- The plugin does the same whatever the frame is, and whether there is one or not. -/
def Plugin.IgnoresFrame (p : Plugin) : Prop :=
  ∀ (frame frame' : Option Frame) (parameter : Value) (i : Instruction),
    p.body ⟨frame, parameter, i⟩ = p.body ⟨frame', parameter, i⟩

/-- The plugins that are not registered as users of the frame ignore it. -/
def Registry.Honest (r : Registry) : Prop :=
  ∀ id p, r.plugin? id = some p → p.usesFrame = false → p.IgnoresFrame

namespace Plugin.Samples

/-- What holds of the empty registry and is kept when a row is registered holds of the samples. -/
theorem registry_rule {P : Registry → Prop} (hempty : P .empty)
    (hregister : ∀ row ∈ table, ∀ r id r', P r →
      Registry.register row.1 row.2.1 row.2.2.1 row.2.2.2.1 row.2.2.2.2 r = .ok id r' → P r') :
    P registry := by
  refine List.foldlRecOn table _ hempty fun r hr row hrow => ?_
  dsimp only
  split
  · next id r' h => exact hregister row hrow r id r' hr h
  · next e r' h => rwa [Registry.register_error h]

theorem registry_grown : Registry.empty.Grown registry :=
  registry_rule .self fun _ _ _ _ _ hr h => hr.register h

theorem registry_honest : registry.Honest := by
  -- a plugin of the registry has flags and body of some row
  have hrows : ∀ p ∈ registry.plugins, ∃ row ∈ table,
      p.flags = row.2.2.2.1 ∧ p.body = row.2.2.2.2 := by
    refine registry_rule (P := fun r => ∀ p ∈ r.plugins, ∃ row ∈ table,
      p.flags = row.2.2.2.1 ∧ p.body = row.2.2.2.2) (by simp [Registry.empty]) ?_
    intro row hrow r id r' hr h p hp
    obtain ⟨-, -, -, -, -, -, -, rfl⟩ := Registry.register_ok h
    rcases Array.mem_push.mp hp with hp | rfl
    · exact hr p hp
    · exact ⟨row, hrow, rfl, rfl⟩
  intro id p hp hflag frame frame' parameter i
  obtain ⟨-, hplace⟩ := Registry.plugin?_eq_some.mp hp
  obtain ⟨row, hrow, hflags, hbody⟩ := hrows p (Array.mem_of_getElem? hplace)
  rw [hbody]
  simp only [Plugin.usesFrame, hflags] at hflag
  simp only [table, List.mem_cons, List.not_mem_nil, or_false] at hrow
  rcases hrow with rfl | rfl | rfl | rfl | rfl | rfl | rfl | rfl | rfl | rfl | rfl | rfl <;> try rfl
  -- the body that asks for the frame belongs to a row with the flag
  cases hflag

end Plugin.Samples

end SignalCalc
