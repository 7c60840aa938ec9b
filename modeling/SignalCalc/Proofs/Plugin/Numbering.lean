import SignalCalc.Proofs.Plugin.Growth
import Mathlib.Data.List.Nodup

/-! # Numbers and names of plugins

A host registers plugins one after another, and some of its requests are refused. A registry keeps
its plugins in a row and finds them through a map of names; the two agree after every sequence of
requests, until the numbers run out and beyond.
-/

namespace SignalCalc

structure Registration where
  name : String
  least : UInt8
  most : UInt8
  flags : UInt32
  body : PluginCall → StackM Unit

def Registration.plugin (q : Registration) (id : OpcodeId) : Plugin :=
  ⟨q.name, id, q.least, q.most, q.flags, q.body⟩

/-- The request is in order, whether there is a number left for it or not. -/
structure Registration.Valid (q : Registration) (r : Registry) : Prop where
  isName : isFunctionName q.name = true
  unreserved : isReserved q.name = false
  new : ∀ p ∈ r.plugins, p.name ≠ q.name
  ordered : q.least ≤ q.most
  bounded : q.most.toNat ≤ maxArguments

/-- The plugin has no name of the language's, and numbers of arguments that calls can have. -/
structure Plugin.Lawful (p : Plugin) : Prop where
  unreserved : isReserved p.name = false
  ordered : p.least ≤ p.most
  bounded : p.most.toNat ≤ maxArguments

theorem Registration.Valid.lawful {q : Registration} {r : Registry} (h : q.Valid r) (id : OpcodeId) :
    (q.plugin id).Lawful :=
  ⟨h.unreserved, h.ordered, h.bounded⟩

namespace Registry

def serve (r : Registry) (q : Registration) : Except RegistryError OpcodeId × Registry :=
  match register q.name q.least q.most q.flags q.body r with
  | .ok id r' => (.ok id, r')
  | .error e r' => (.error e, r')

def serveAll (r : Registry) : List Registration → Registry
  | [] => r
  | q :: qs => (r.serve q).2.serveAll qs

/-- The plugins that a sequence of requests is granted, each with the number that is the answer. -/
def granted (r : Registry) : List Registration → List Plugin
  | [] => []
  | q :: qs =>
    match r.serve q with
    | (.ok id, r') => q.plugin id :: r'.granted qs
    | (.error _, r') => r'.granted qs

def nextId (r : Registry) : OpcodeId := ⟨UInt16.ofNat (OpcodeId.pluginBase + r.size)⟩

def add (r : Registry) (q : Registration) : Registry :=
  ⟨r.plugins.push (q.plugin r.nextId), r.ids.insert q.name r.nextId⟩

theorem capacity_eq : capacity = 65280 := rfl

@[simp] theorem size_add (r : Registry) (q : Registration) : (r.add q).size = r.size + 1 :=
  Array.size_push _

@[simp] theorem mem_plugins_add {r : Registry} {q : Registration} {p : Plugin} :
    p ∈ (r.add q).plugins ↔ p ∈ r.plugins ∨ p = q.plugin r.nextId := Array.mem_push

/-! ## One request -/

structure Regular (r : Registry) : Prop where
  numbered : r.Numbered
  room : r.size ≤ capacity
  named : ∀ name id, r.ids[name]? = some id ↔ ∃ p ∈ r.plugins, p.name = name ∧ p.id = id
  distinct : (r.plugins.toList.map (·.name)).Nodup
  lawful : ∀ p ∈ r.plugins, p.Lawful

theorem regular_empty : Registry.empty.Regular where
  numbered := numbered_empty
  room := Nat.zero_le _
  named := by simp [Registry.empty]
  distinct := List.nodup_nil
  lawful := by simp [Registry.empty]

namespace Regular

variable {r : Registry} (hr : r.Regular)

include hr

/-- The names in the map are those of the plugins. -/
theorem contains_iff {name : String} :
    r.ids.contains name = true ↔ ∃ p ∈ r.plugins, p.name = name := by
  rw [Std.HashMap.contains_eq_isSome_getElem?, Option.isSome_iff_exists]
  constructor
  · rintro ⟨id, hid⟩
    obtain ⟨p, hp, hname, -⟩ := (hr.named name id).mp hid
    exact ⟨p, hp, hname⟩
  · rintro ⟨p, hp, hname⟩
    exact ⟨p.id, (hr.named name p.id).mpr ⟨p, hp, hname, rfl⟩⟩

/-- What a request can come to: the next number, or one of the four refusals. -/
theorem serve_cases (q : Registration) :
    (q.Valid r ∧ r.size < capacity ∧ r.serve q = (.ok r.nextId, r.add q)) ∨
      (q.Valid r ∧ r.size = capacity ∧ r.serve q = (.error .full, r)) ∨
      (¬q.Valid r ∧ ∃ e, e ≠ .full ∧ r.serve q = (.error e, r)) := by
  -- the four checks, in the order in which they are made
  by_cases hname : isFunctionName q.name = true
  · by_cases hfree : (isReserved q.name || r.ids.contains q.name) = true
    · refine .inr (.inr ⟨fun hq => ?_, .duplicate q.name, nofun, ?_⟩)
      · simp only [hq.unreserved, Bool.false_or, hr.contains_iff] at hfree
        obtain ⟨p, hp, heq⟩ := hfree
        exact hq.new p hp heq
      · simp only [serve, register, hname, hfree, Bool.not_true, Bool.false_eq_true, if_false,
          if_true]
    · by_cases harity : q.most < q.least ∨ maxArguments < q.most.toNat
      · refine .inr (.inr ⟨fun hq => ?_, .invalidArity q.least q.most, nofun, ?_⟩)
        · exact harity.elim (UInt8.not_lt.mpr hq.ordered) (Nat.not_lt.mpr hq.bounded)
        · simp only [serve, register, hname, hfree, harity, Bool.not_true, Bool.false_eq_true,
            if_false, if_true]
      · have hvalid : q.Valid r := by
          simp only [Bool.or_eq_true, not_or, Bool.not_eq_true] at hfree
          simp only [not_or, UInt8.not_lt, Nat.not_lt] at harity
          refine ⟨hname, hfree.1, fun p hp heq => ?_, harity.1, harity.2⟩
          exact Bool.eq_false_iff.mp hfree.2 (hr.contains_iff.mpr ⟨p, hp, heq⟩)
        by_cases hfull : capacity ≤ r.size
        · refine .inr (.inl ⟨hvalid, Nat.le_antisymm hr.room hfull, ?_⟩)
          simp only [serve, register, hname, hfree, harity, hfull, Bool.not_true,
            Bool.false_eq_true, if_false, if_true]
        · refine .inl ⟨hvalid, Nat.not_le.mp hfull, ?_⟩
          simp only [serve, register, hname, hfree, harity, hfull, Bool.not_true,
            Bool.false_eq_true, if_false]
          rfl
  · refine .inr (.inr ⟨fun hq => hname hq.isName, .invalidName q.name, nofun, ?_⟩)
    simp only [serve, register, hname, Bool.not_false, if_true]

theorem add {q : Registration} (hq : q.Valid r) (hroom : r.size < capacity) :
    (r.add q).Regular where
  numbered := by
    intro i p hp
    rw [Registry.add, Array.getElem?_push] at hp
    split at hp
    · next hlast =>
      cases hp
      rw [hlast]
      rfl
    · exact hr.numbered i p hp
  room := by
    rw [size_add]
    exact hroom
  named := by
    intro name id
    simp only [Registry.add, Std.HashMap.getElem?_insert, beq_iff_eq]
    split
    · next heq =>
      -- the name was new, so that nobody else answers to it
      constructor
      · intro hid
        exact ⟨_, mem_plugins_add.mpr (.inr rfl), heq, Option.some.inj hid⟩
      · rintro ⟨p, hp, hname, rfl⟩
        rcases mem_plugins_add.mp hp with hp | rfl
        · exact absurd (hname.trans heq.symm) (hq.new p hp)
        · rfl
    · next hne =>
      rw [hr.named]
      constructor
      · rintro ⟨p, hp, h⟩
        exact ⟨p, mem_plugins_add.mpr (.inl hp), h⟩
      · rintro ⟨p, hp, hname, hid⟩
        rcases mem_plugins_add.mp hp with hp | rfl
        · exact ⟨p, hp, hname, hid⟩
        · exact absurd hname hne
  distinct := by
    simp only [Registry.add, Array.toList_push, List.map_append, List.map_cons, List.map_nil]
    rw [← List.concat_eq_append]
    refine hr.distinct.concat fun hmem => ?_
    obtain ⟨p, hp, hname⟩ := List.mem_map.mp hmem
    exact hq.new p (Array.mem_toList_iff.mp hp) hname
  lawful := by
    simp only [mem_plugins_add]
    rintro p (hp | rfl)
    exacts [hr.lawful p hp, hq.lawful r.nextId]

theorem serve (q : Registration) : (r.serve q).2.Regular := by
  rcases hr.serve_cases q with ⟨hq, hroom, h⟩ | ⟨-, -, h⟩ | ⟨-, e, -, h⟩
  · rw [h]
    exact hr.add hq hroom
  · rw [h]
    exact hr
  · rw [h]
    exact hr

end Regular

/-! ## Sequences of requests -/

theorem Regular.serveAll {r : Registry} (hr : r.Regular) (qs : List Registration) :
    (r.serveAll qs).Regular := by
  induction qs generalizing r with
  | nil => exact hr
  | cons q qs ih => exact ih (hr.serve q)

/-- Requests append what they are granted. -/
theorem Regular.toList_serveAll {r : Registry} (hr : r.Regular) (qs : List Registration) :
    (r.serveAll qs).plugins.toList = r.plugins.toList ++ r.granted qs := by
  induction qs generalizing r with
  | nil => simp [Registry.serveAll, granted]
  | cons q qs ih =>
    have hnext := ih (hr.serve q)
    rw [Registry.serveAll, hnext, granted]
    -- the answer decides whether the list of what was granted goes on with this request
    rcases hr.serve_cases q with ⟨-, -, h⟩ | ⟨-, -, h⟩ | ⟨-, e, -, h⟩
    · rw [h]
      simp [Registry.add]
    · rw [h]
    · rw [h]

theorem serveAll_append (r : Registry) (qs later : List Registration) :
    r.serveAll (qs ++ later) = (r.serveAll qs).serveAll later := by
  induction qs generalizing r with
  | nil => rfl
  | cons q qs ih => exact ih (r.serve q).2

theorem Regular.mem_serveAll {r : Registry} (hr : r.Regular) (qs : List Registration) {p : Plugin}
    (hp : p ∈ r.plugins) : p ∈ (r.serveAll qs).plugins := by
  rw [← Array.mem_toList_iff, hr.toList_serveAll qs]
  exact List.mem_append_left _ (Array.mem_toList_iff.mpr hp)

/-! ## What is found in a registry -/

namespace Regular

variable {r : Registry} (hr : r.Regular)

include hr

/-- The numbers in the row are dense, and they do not come round. -/
theorem ids_eq : r.plugins.toList.map (·.id.val.toNat) = List.range' OpcodeId.pluginBase r.size := by
  refine List.ext_getElem (by simp [Registry.size]) fun i hi hi' => ?_
  have hlt : i < r.plugins.size := by simpa using hi
  have hid := hr.numbered i r.plugins[i] (Array.getElem?_eq_getElem hlt)
  have hroom : OpcodeId.pluginBase + i < 65536 := by
    have := hr.room
    simp only [capacity, OpcodeId.pluginBase, Registry.size] at this ⊢
    omega
  rw [List.getElem_map, Array.getElem_toList, hid, List.getElem_range', Nat.one_mul]
  exact UInt16.toNat_ofNat_of_lt' hroom

theorem pluginBase_le {p : Plugin} (hp : p ∈ r.plugins) :
    OpcodeId.pluginBase ≤ p.id.val.toNat := by
  have hmem : p.id.val.toNat ∈ r.plugins.toList.map (·.id.val.toNat) :=
    List.mem_map.mpr ⟨p, Array.mem_toList_iff.mpr hp, rfl⟩
  rw [hr.ids_eq] at hmem
  exact (List.mem_range'_1.mp hmem).1

/-- Every plugin stands where its number says. -/
theorem getElem?_id {p : Plugin} (hp : p ∈ r.plugins) :
    r.plugins[p.id.val.toNat - OpcodeId.pluginBase]? = some p := by
  obtain ⟨i, hi, rfl⟩ := Array.mem_iff_getElem.mp hp
  have hnumber := congrArg (·[i]?) hr.ids_eq
  have hi' : i < r.size := hi
  simp only [List.getElem?_map, Array.getElem?_toList, Array.getElem?_eq_getElem hi,
    List.getElem?_range' hi', Option.map_some, Option.some.injEq, Nat.one_mul] at hnumber
  rw [hnumber, Nat.add_sub_cancel_left, Array.getElem?_eq_getElem hi]

theorem plugin?_id {p : Plugin} (hp : p ∈ r.plugins) : r.plugin? p.id = some p :=
  plugin?_eq_some.mpr ⟨hr.pluginBase_le hp, hr.getElem?_id hp⟩

theorem id?_name {p : Plugin} (hp : p ∈ r.plugins) : r.id? p.name = some p.id :=
  (hr.named p.name p.id).mpr ⟨p, hp, rfl, rfl⟩

theorem lookup?_name {p : Plugin} (hp : p ∈ r.plugins) : r.lookup? p.name = some p := by
  rw [lookup?, hr.id?_name hp]
  exact hr.plugin?_id hp

theorem lookup?_eq_some_iff {name : String} {p : Plugin} :
    r.lookup? name = some p ↔ p ∈ r.plugins ∧ p.name = name := by
  constructor
  · intro h
    obtain ⟨id, hid, -⟩ := Option.bind_eq_some_iff.mp h
    obtain ⟨q, hq, rfl, -⟩ := (hr.named name id).mp hid
    rw [hr.lookup?_name hq] at h
    obtain rfl := Option.some.inj h
    exact ⟨hq, rfl⟩
  · rintro ⟨hp, rfl⟩
    exact hr.lookup?_name hp

end Regular

theorem opcode?_of_pluginBase_le {id : OpcodeId} (h : OpcodeId.pluginBase ≤ id.val.toNat) :
    id.opcode? = none := by
  rw [OpcodeId.opcode?, if_neg (Nat.not_lt.mpr h)]

theorem opcode_id_ne {id : OpcodeId} (h : OpcodeId.pluginBase ≤ id.val.toNat) (op : Opcode) :
    op.id ≠ id := by
  rintro rfl
  have hcode : op.id.val.toNat < 256 := op.code.toNat_lt
  exact absurd h (Nat.not_le.mpr hcode)

theorem isReserved_eq_false_iff {name : String} :
    isReserved name = false ↔
      (∀ b ∈ Builtin.table, b.name ≠ name) ∧ ∀ row ∈ Special.table, row.1 ≠ name := by
  simp only [isReserved, Builtin.lookup?, Special.lookup?, Special.row?, Option.isSome_map,
    Bool.or_eq_false_iff, Option.isSome_eq_false_iff, Option.isNone_iff_eq_none,
    List.find?_eq_none, decide_eq_true_eq, ne_eq]

/-! ## Registries without room -/

/-- A request like any number of others: each has a name of another length. -/
def filler (n : Nat) : Registration :=
  ⟨String.ofList ('_' :: List.replicate n '_'), 1, 1, 0, fun _ => pure ()⟩

theorem filler_unreserved (n : Nat) : isReserved (filler n).name = false := by
  -- no function of the language begins with an underscore
  have hbuiltin : ∀ b ∈ Builtin.table, b.name.toList.head? ≠ some '_' := by decide
  have hspecial : ∀ row ∈ Special.table, row.1.toList.head? ≠ some '_' := by decide
  have hhead : (filler n).name.toList.head? = some '_' := by simp [filler]
  refine isReserved_eq_false_iff.mpr ⟨fun b hb heq => ?_, fun row hrow heq => ?_⟩
  · exact hbuiltin b hb (heq ▸ hhead)
  · exact hspecial row hrow (heq ▸ hhead)

theorem filler_valid {r : Registry} {n : Nat} (h : ∀ p ∈ r.plugins, p.name.toList.length ≤ n) :
    (filler n).Valid r where
  isName := by simp [filler, isFunctionName]
  unreserved := filler_unreserved n
  new p hp heq := by
    have hlength : (filler n).name.toList.length = n + 1 := by simp [filler]
    have hle := h p hp
    rw [heq] at hle
    omega
  ordered := UInt8.le_refl _
  bounded := Nat.le_of_ble_eq_true rfl

/-- As many plugins as there are numbers can be registered. -/
theorem serveAll_fillers {n : Nat} (hn : n ≤ capacity) :
    (Registry.empty.serveAll ((List.range n).map filler)).size = n ∧
      ∀ p ∈ (Registry.empty.serveAll ((List.range n).map filler)).plugins,
        p.name.toList.length ≤ n := by
  induction n with
  | zero => exact ⟨rfl, by simp [Registry.serveAll, Registry.empty]⟩
  | succ n ih =>
    obtain ⟨hsize, hnames⟩ := ih (Nat.le_of_succ_le hn)
    have hregular := regular_empty.serveAll ((List.range n).map filler)
    rw [List.range_succ, List.map_append, serveAll_append]
    generalize Registry.empty.serveAll ((List.range n).map filler) = r at hsize hnames hregular
    obtain ⟨-, -, hserve⟩ | ⟨-, hfull, -⟩ | ⟨hno, -⟩ := hregular.serve_cases (filler n)
    · simp only [List.map_cons, List.map_nil, Registry.serveAll, hserve, size_add, hsize, true_and]
      intro p hp
      rcases mem_plugins_add.mp hp with hp | rfl
      · exact Nat.le_succ_of_le (hnames p hp)
      · simp [filler, Registration.plugin]
    · omega
    · exact absurd (filler_valid hnames) hno

/-! ## The account -/

/-- The account of every sequence of registrations.

A refusal changes nothing. A request is granted exactly if it is valid and fewer than 65280 plugins
are there; the lack of a number is the objection exactly if it is valid and 65280 are there. The
plugins are the requests that were granted, in order, with numbers from 256 on and without a gap.

From then on, whatever is registered later, each is found by its name, by its number and at its
place. Neither names nor numbers occur twice, no name is one of the language's, the least number of
arguments is at most the greatest and that at most 32, and no number is that of an operation. -/
theorem registrations_regular (qs : List Registration) :
    let r := Registry.empty.serveAll qs
    (∀ q e, (r.serve q).1 = .error e → (r.serve q).2 = r) ∧
      (∀ q, (∃ id, (r.serve q).1 = .ok id) ↔ q.Valid r ∧ r.size < 65280) ∧
      (∀ q, (r.serve q).1 = .error .full ↔ q.Valid r ∧ r.size = 65280) ∧
      r.plugins.toList = Registry.empty.granted qs ∧
      r.plugins.toList.map (·.id.val.toNat) = List.range' 256 r.size ∧ r.size ≤ 65280 ∧
      (∀ p ∈ r.plugins, ∀ later,
        (r.serveAll later).id? p.name = some p.id ∧ (r.serveAll later).plugin? p.id = some p ∧
          (r.serveAll later).lookup? p.name = some p ∧
          (r.serveAll later).plugins[p.id.val.toNat - 256]? = some p) ∧
      (∀ name id, r.id? name = some id ↔ ∃ p ∈ r.plugins, p.name = name ∧ p.id = id) ∧
      (r.plugins.toList.map (·.name)).Nodup ∧ (r.plugins.toList.map (·.id)).Nodup ∧
      ∀ p ∈ r.plugins,
        (∀ b ∈ Builtin.table, b.name ≠ p.name) ∧ (∀ row ∈ Special.table, row.1 ≠ p.name) ∧
          p.least ≤ p.most ∧ p.most ≤ 32 ∧ p.id.opcode? = none ∧ ∀ op : Opcode, op.id ≠ p.id := by
  intro r
  have hr : r.Regular := regular_empty.serveAll qs
  refine ⟨fun q e h => ?_, fun q => ?_, fun q => ?_, ?_, hr.ids_eq, hr.room, fun p hp later => ?_,
    hr.named, hr.distinct, ?_, fun p hp => ?_⟩
  · rcases hr.serve_cases q with ⟨-, -, hserve⟩ | ⟨-, -, hserve⟩ | ⟨-, e', -, hserve⟩
    · simp [hserve] at h
    · rw [hserve]
    · rw [hserve]
  · rw [← capacity_eq]
    rcases hr.serve_cases q with ⟨hq, hroom, hserve⟩ | ⟨-, hfull, hserve⟩ | ⟨hq, e, -, hserve⟩
    · simp [hserve, hq, hroom]
    · simp [hserve, hfull]
    · simp [hserve, hq]
  · rw [← capacity_eq]
    rcases hr.serve_cases q with ⟨-, hroom, hserve⟩ | ⟨hq, hfull, hserve⟩ | ⟨hq, e, he, hserve⟩
    · simp [hserve, Nat.ne_of_lt hroom]
    · simp [hserve, hq, hfull]
    · simp [hserve, hq, he]
  · exact regular_empty.toList_serveAll qs
  · have hlater := hr.serveAll later
    have hmem := hr.mem_serveAll later hp
    exact ⟨hlater.id?_name hmem, hlater.plugin?_id hmem, hlater.lookup?_name hmem,
      hlater.getElem?_id hmem⟩
  · refine List.Nodup.of_map (·.val.toNat) ?_
    rw [List.map_map]
    exact hr.ids_eq ▸ List.nodup_range'
  · have hp' := hr.lawful p hp
    obtain ⟨hbuiltin, hspecial⟩ := isReserved_eq_false_iff.mp hp'.unreserved
    have hbase := hr.pluginBase_le hp
    exact ⟨hbuiltin, hspecial, hp'.ordered, hp'.bounded, opcode?_of_pluginBase_le hbase,
      opcode_id_ne hbase⟩

/-- The last number is given out, and the next valid request is refused for want of one. -/
theorem registrations_regular_full :
    let r := Registry.empty.serveAll ((List.range 65280).map filler)
    r.size = 65280 ∧ (r.plugins.toList.map (·.id.val.toNat)).getLast? = some 65535 ∧
      (r.serve (filler 65280)).1 = .error .full ∧ (r.serve (filler 65280)).2 = r := by
  intro r
  obtain ⟨hsize, hnames⟩ := serveAll_fillers (Nat.le_of_eq capacity_eq.symm)
  obtain ⟨hkept, -, hfull, -, hids, -⟩ := registrations_regular ((List.range 65280).map filler)
  have hanswer := (hfull (filler 65280)).mpr ⟨filler_valid hnames, hsize⟩
  refine ⟨hsize, ?_, hanswer, hkept _ _ hanswer⟩
  rw [hids, hsize, List.getLast?_range']
  rfl

end Registry

end SignalCalc
