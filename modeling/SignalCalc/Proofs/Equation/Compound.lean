import SignalCalc.Proofs.Equation.Loans
import SignalCalc.Proofs.Equation.Naming
import SignalCalc.Proofs.Equation.StackDiscipline
import SignalCalc.Proofs.Machine.Commutation
import SignalCalc.Proofs.Script.Compound
import SignalCalc.Proofs.Store.Identity

/-! # The meaning of compound assignments

A compound assignment means what its expansion means: `x += e` does what `x = x + (e)` does, as
long as `e` does not write to `x`. The two have different code. The compound form reads `x` when the
value of `e` is there already, and exchanges the two; the expansion reads `x` first, and computes
`e` on top of it. They may also number new variables in different orders.
-/

namespace SignalCalc

open MemoryStore

/-! ## Variables by their names -/

def SameName (s t : MemoryStore) (id id' : VarId) : Prop :=
  ∃ name, s.lookup name = some id ∧ t.lookup name = some id'

section SameName

variable {s t : MemoryStore}

theorem MemoryStore.WellFormed.lookup_injective (hs : s.WellFormed) {name name' : String}
    {id : VarId} (h : s.lookup name = some id) (h' : s.lookup name' = some id) : name = name' := by
  obtain ⟨slot, hslot, rfl⟩ := hs.lookup_iff.mp h
  obtain ⟨slot', hslot', rfl⟩ := hs.lookup_iff.mp h'
  obtain rfl : slot = slot' := Option.some.inj (hslot.symm.trans hslot')
  rfl

theorem pairing_sameName (hs : s.WellFormed) (ht : t.WellFormed) : Pairing (SameName s t) where
  right := by
    rintro id x y ⟨name, hid, hx⟩ ⟨name', hid', hy⟩
    obtain rfl := hs.lookup_injective hid hid'
    exact Option.some.inj (hx.symm.trans hy)
  left := by
    rintro id x y ⟨name, hx, hid⟩ ⟨name', hy, hid'⟩
    obtain rfl := ht.lookup_injective hid hid'
    exact Option.some.inj (hx.symm.trans hy)

theorem paired_sameName (h : ∀ name, t.look name = s.look name) : Paired (SameName s t) s t := by
  rintro id id' ⟨name, hid, hid'⟩
  simpa [MemoryStore.look, hid, hid'] using h name

/-- A variable that was there before keeps its number in both stores, and the new ones have numbers
that were not in use. So the replacement of an old variable treats both stores alike. -/
theorem respects_sameName {before : MemoryStore} (hbefore : before.WellFormed) {names : List String}
    (hs : Names names before s) {names' : List String} (ht : Names names' before t) {ctx : Context}
    (hctx : ∀ id v, ctx.replaced = some (id, v) → (before.slot? id).isSome) :
    ctx.Respects (SameName s t) := by
  rintro id id' ⟨name, hid, hid'⟩
  cases hname : before.lookup name with
  | some old =>
    have hsame : id' = id := by
      rw [hs.keeps name old hname] at hid
      rw [ht.keeps name old hname] at hid'
      exact (Option.some.inj hid').symm.trans (Option.some.inj hid)
    rw [hsame]
  | none =>
    have hnone : ∀ x : VarId, before.lastId < x.val → ctx.replacement? x = none := by
      intro x hx
      unfold Context.replacement?
      cases hreplaced : ctx.replaced with
      | none => rfl
      | some pair =>
        obtain ⟨replaced, v⟩ := pair
        obtain ⟨slot, hslot⟩ := Option.isSome_iff_exists.mp (hctx replaced v hreplaced)
        obtain ⟨hmem, hslotId⟩ := mem_of_slot? hslot
        have hle := hbefore.id_le slot hmem
        rw [hslotId] at hle
        have hne : replaced ≠ x := by
          rintro rfl
          omega
        simp [hne]
    rw [hnone id (hs.fresh name id hid hname), hnone id' (ht.fresh name id' hid' hname)]

/-- Stores that keep their names and show the variables of each name alike show each name alike. -/
theorem look_of_paired (hs : s.WellFormed) (ht : t.WellFormed)
    (hlook : ∀ name, t.look name = s.look name) {s' t' : MemoryStore}
    (hs' : ∀ name, s'.lookup name = s.lookup name) (ht' : ∀ name, t'.lookup name = t.lookup name)
    (h : Paired (SameName s t) s' t') (name : String) : t'.look name = s'.look name := by
  have hsome : (t.lookup name).isSome = (s.lookup name).isSome := by
    rw [← hs.isSome_look, ← ht.isSome_look, hlook]
  unfold MemoryStore.look
  rw [hs', ht']
  cases hid : s.lookup name with
  | none =>
    rw [hid, Option.isSome_none, Option.isSome_eq_false_iff, Option.isNone_iff_eq_none] at hsome
    rw [hsome]
    rfl
  | some id =>
    rw [hid] at hsome
    obtain ⟨id', hid'⟩ := Option.isSome_iff_exists.mp hsome
    rw [hid']
    exact h id id' ⟨name, hid, hid'⟩

theorem MemoryStore.WellFormed.named_value (hs : s.WellFormed) (name : String) :
    (s.named? name).map (·.value) = (s.look name).map (·.value) := by
  unfold MemoryStore.look lookup
  cases hname : s.named? name with
  | none => rfl
  | some slot =>
    have hslot : s.slot? slot.id = some slot := hs.slot?_of_mem (mem_of_named? hname).1
    simp [sight, hslot, Slot.sight]

end SameName

/-! ## Code -/

namespace Machine

theorem run_append_done {plugins : Registry} {ctx : Context} {first second : List Instruction}
    {m : Machine MemoryStore} (h : (run plugins ctx (first ++ second) m).stopped = none) :
    (run plugins ctx first m).stopped = none ∧
      (run plugins ctx second (run plugins ctx first m).machine).stopped = none ∧
      (run plugins ctx (first ++ second) m).machine =
        (run plugins ctx second (run plugins ctx first m).machine).machine := by
  cases hfirst : (run plugins ctx first m).stopped with
  | some e =>
    rw [run_append_of_stopped hfirst second] at h
    cases h
  | none =>
    obtain ⟨hstopped, hmachine⟩ := run_append_of_done hfirst second
    exact ⟨rfl, hstopped.symm.trans h, hmachine⟩

theorem push_of_room {m : Machine MemoryStore} (hroom : m.stack.entries.length < stackCapacity)
    (v : Value) : push v m = .ok () ⟨⟨v :: m.stack.entries, hroom⟩, m.store⟩ := by
  simp [push, onStack, Stack.push, hroom]

/-- What a read of a place gives, by what replaces its variable and by what is seen of it. -/
def loaded? (place : Place) (replacement : Option Value) (seen : Option Sight) : Option Value :=
  match replacement with
  | some v => some v
  | none =>
    if place.physical then
      seen.bind fun x => x.conversion.map fun c => .ofFloat (x.value.toFloat * c.factor + c.offset)
    else some ((seen.map (·.value)).getD default)

theorem access_load (ctx : Context) (place : Place) (id : VarId) (m : Machine MemoryStore) :
    match loaded? place (ctx.replacement? id) (m.store.sight id) with
    | some v => access ctx place.load id m = push v m
    | none => ∃ e, access ctx place.load id m = .error e m := by
  obtain ⟨x, physical⟩ := place
  cases hreplaced : ctx.replacement? id with
  | some v => cases physical <;> simp [loaded?, Place.load, access, hreplaced]
  | none =>
    cases physical with
    | false =>
      simp only [loaded?, Place.load, access, hreplaced, ← read_of_sight]
      rfl
    | true =>
      have hread := readPhysical_of_sight m.store id
      have hok : ∀ d, m.store.readPhysical id = .ok d →
          access ctx .readPhysical id m = push (.ofFloat d) m := by
        intro d hd
        simp only [access, hreplaced, bind, EStateM.bind, getStore, VariableStore.readPhysical, hd]
      have herror : ∀ e, m.store.readPhysical id = .error e →
          ∃ e', access ctx .readPhysical id m = .error e' m := by
        intro e he
        simp only [access, hreplaced, bind, EStateM.bind, getStore, VariableStore.readPhysical, he]
        exact ⟨_, rfl⟩
      cases hseen : m.store.sight id with
      | none =>
        rw [hseen] at hread
        exact herror _ hread
      | some seen =>
        obtain ⟨v, type, conversion⟩ := seen
        rw [hseen] at hread
        cases conversion with
        | none => exact herror _ hread
        | some c => exact hok _ hread

/-- The expansion starts with the old value. -/
theorem run_load {plugins : Registry} {ctx : Context} {place : Place} {id : VarId} {s : MemoryStore}
    (h : (run plugins ctx [.access place.load id] ⟨.empty, s⟩).stopped = none) :
    ∃ v, loaded? place (ctx.replacement? id) (s.sight id) = some v ∧
      (run plugins ctx [.access place.load id] ⟨.empty, s⟩).machine =
        ⟨⟨[v], (by decide : 1 ≤ stackCapacity)⟩, s⟩ := by
  have hload := access_load ctx place id ⟨.empty, s⟩
  cases hvalue : loaded? place (ctx.replacement? id) (s.sight id) with
  | some v =>
    rw [hvalue] at hload
    have hpush := push_of_room (m := ⟨.empty, s⟩) (by decide : 0 < stackCapacity) v
    have hread : step plugins ctx (.access place.load id) ⟨.empty, s⟩ = .ok _ _ :=
      step_access_ok.mpr ⟨hload.trans hpush, rfl⟩
    refine ⟨v, rfl, ?_⟩
    rw [run_singleton, hread]
    rfl
  | none =>
    rw [hvalue] at hload
    obtain ⟨e, he⟩ := hload
    rw [run_singleton] at h
    cases hstep : step plugins ctx (.access place.load id) ⟨.empty, s⟩ with
    | error e' m => simp [hstep] at h
    | ok i m =>
      rw [(step_access_ok.mp hstep).1] at he
      cases he

/-- The compound form gets the old value under the new one. -/
theorem run_load_swap (plugins : Registry) {ctx : Context} {place : Place} {id : VarId}
    {b v : Value} {m : Machine MemoryStore} (hstack : m.stack.entries = [b])
    (hload : access ctx place.load id m = push v m) :
    let trace := run plugins ctx [.access place.load id, .plain (.stack .swap)] m
    trace.stopped = none ∧ trace.machine.stack.entries = [b, v] ∧ trace.machine.store = m.store := by
  obtain ⟨⟨entries, hbounded⟩, store⟩ := m
  obtain rfl : entries = [b] := hstack
  have hpush := push_of_room (m := ⟨⟨[b], hbounded⟩, store⟩) (by decide : 1 < stackCapacity) v
  have hread : step plugins ctx (.access place.load id) ⟨⟨[b], hbounded⟩, store⟩ = .ok _ _ :=
    step_access_ok.mpr ⟨hload.trans hpush, rfl⟩
  intro trace
  simp only [trace, run, hread]
  exact ⟨rfl, rfl, rfl⟩

/-- The end of both forms: the operation on the two values, and the write. -/
def finish (place : Place) (op : CompoundOp) (id : VarId) : List Instruction :=
  [.plain op.binary.opcode, .access place.store id]

section Forms

variable (plugins : Registry) {pairs : VarId → VarId → Prop} (hpairs : Pairing pairs)
  {ctx : Context} (hctx : ctx.Respects pairs) {place : Place} (op : CompoundOp) {id id' : VarId}
  (hid : pairs id id')
include hpairs hctx hid

theorem run_finish {m m' : Machine MemoryStore} (hm : Sunk pairs [] m m')
    (hsize : m'.stack.size = 2) (h : (run plugins ctx (finish place op id) m).stopped = none) :
    (run plugins ctx (finish place op id') m').stopped = none ∧
      Sunk pairs [] (run plugins ctx (finish place op id) m).machine
        (run plugins ctx (finish place op id') m').machine := by
  have htwin : List.Forall₂ (Instruction.Twin pairs) (finish place op id) (finish place op id') :=
    .cons (.same rfl) (.cons (.access place.store hid) .nil)
  have hfits : ∀ i ∈ finish place op id', i.isPlugin = false ∧ i.fits = true := by
    cases op <;> simp [finish, Instruction.isPlugin, Instruction.fits, Instruction.plain,
      Instruction.access, Opcode.fits, CompoundOp.binary, BinaryOp.opcode]
  have hdepth : depthAfter m'.stack.size ((finish place op id').map (·.use)) = some 1 := by
    rw [hsize]
    obtain ⟨x, physical⟩ := place
    cases op <;> cases physical <;> rfl
  obtain ⟨hstopped, hlast, -⟩ := run_sinks plugins hpairs hctx htwin hfits hm hdepth h
  exact ⟨hstopped, hlast⟩

/-- Where the code of the expansion goes through, the code of the compound form does, and leaves the
same. -/
theorem run_compound {right right' : List Instruction}
    (hright : List.Forall₂ (Instruction.Twin pairs) right right')
    (hfits : ∀ i ∈ right', i.isPlugin = false ∧ i.fits = true)
    (hdepth : depthAfter 0 (right'.map (·.use)) = some 1)
    (hkept : right'.any (·.overwrites id') = false) {s t : MemoryStore} (hst : Paired pairs s t)
    (h : (run plugins ctx ([.access place.load id] ++ (right ++ finish place op id))
      ⟨.empty, s⟩).stopped = none) :
    let expanded := run plugins ctx ([.access place.load id] ++ (right ++ finish place op id))
      ⟨.empty, s⟩
    let compound := run plugins ctx (right' ++ ([.access place.load id', .plain (.stack .swap)] ++
      finish place op id')) ⟨.empty, t⟩
    compound.stopped = none ∧ Sunk pairs [] expanded.machine compound.machine := by
  intro expanded compound
  -- the expansion reads the variable first, and computes the right-hand side on top of its value
  obtain ⟨hfirst, hrest, hexpanded⟩ := run_append_done h
  obtain ⟨v, hv, hafter⟩ := run_load hfirst
  rw [hafter] at hrest hexpanded
  obtain ⟨hsecond, hthird, hlast⟩ := run_append_done hrest
  have hstart : Sunk pairs [v] ⟨⟨[v], (by decide : 1 ≤ stackCapacity)⟩, s⟩ ⟨.empty, t⟩ := ⟨rfl, hst⟩
  obtain ⟨hdone, hsunk, hsize⟩ :=
    run_sinks plugins hpairs hctx hright hfits hstart hdepth hsecond
  -- the compound form computes the right-hand side by itself, and finds the variable as it was
  have hwritten := run_overwrites plugins ctx right' ⟨.empty, t⟩
  obtain ⟨hcompound, hmachine⟩ := run_append_of_done hdone
    ([.access place.load id', .plain (.stack .swap)] ++ finish place op id')
  generalize (run plugins ctx right ⟨⟨[v], (by decide : 1 ≤ stackCapacity)⟩, s⟩).machine = mq
    at hthird hlast hsunk
  generalize (run plugins ctx right' ⟨.empty, t⟩).machine = mp
    at hsunk hsize hwritten hcompound hmachine
  obtain ⟨b, hb⟩ := List.length_eq_one_iff.mp hsize
  have hsight : mp.store.sight id' = s.sight id := by
    rw [Written.sight_other hwritten (Bool.eq_false_iff.mp hkept)]
    exact hst id id' hid
  have hload := access_load ctx place id' mp
  rw [hctx id id' hid, hsight, hv] at hload
  obtain ⟨hexchanged, hstack, hstore⟩ := run_load_swap plugins hb hload
  obtain ⟨hcompound', hmachine'⟩ := run_append_of_done hexchanged (finish place op id')
  -- from here on both do the same
  generalize (run plugins ctx [.access place.load id', .plain (.stack .swap)] mp).machine = mp'
    at hstack hstore hcompound' hmachine'
  have hequal : Sunk pairs [] mq mp' := by
    have hentries : mq.stack.entries = mp.stack.entries ++ [v] := hsunk.stack
    refine ⟨?_, hstore ▸ hsunk.store⟩
    show mq.stack.entries = mp'.stack.entries ++ []
    rw [hentries, hb, hstack]
    rfl
  obtain ⟨hstopped, hfinal⟩ :=
    run_finish plugins hpairs hctx op hid hequal (congrArg List.length hstack) hthird
  refine ⟨hcompound.trans (hcompound'.trans hstopped), ?_⟩
  rw [show expanded.machine = _ from hexpanded.trans hlast,
    show compound.machine = _ from hmachine.trans hmachine']
  exact hfinal

end Forms

end Machine

/-! ## Programs -/

namespace Program

theorem run_ok {plugins : Registry} {ctx : Context} {p : Program} {s : MemoryStore} {v : Value} :
    (p.run plugins ctx s).result = .ok v ↔
      (Machine.run plugins ctx p.code ⟨.empty, s⟩).stopped = none ∧
        (Machine.run plugins ctx p.code ⟨.empty, s⟩).machine.stack.bottom? = some v := by
  unfold run
  dsimp only
  cases (Machine.run plugins ctx p.code ⟨.empty, s⟩).stopped with
  | some e => simp
  | none => cases (Machine.run plugins ctx p.code ⟨.empty, s⟩).machine.stack.bottom? <;> simp

theorem reachable_run (plugins : Registry) (ctx : Context) (p : Program) {s : MemoryStore}
    (hs : Reachable s) : Reachable (p.run plugins ctx s).store :=
  Written.reachable (Machine.run_written plugins ctx p.code ⟨.empty, s⟩) hs

theorem lookup_run (plugins : Registry) (ctx : Context) (p : Program) (s : MemoryStore)
    (name : String) : (p.run plugins ctx s).store.lookup name = s.lookup name :=
  lookup_of_outline (Machine.run_written plugins ctx p.code ⟨.empty, s⟩).outline_eq name

end Program

section Forms

variable {cfg : Setting} {scope : Option Scope} {place : Place} {op : CompoundOp} {e : String}
  {s : MemoryStore} {p q : Program}

/-- The programs of a compound assignment and of its expansion, by that of the right-hand side. -/
theorem compile_compound (hs : s.WellFormed)
    (hp : (compile cfg scope (place.compound op e) s).result = .ok p)
    (hq : (compile cfg scope (place.expanded op e) s).result = .ok q) :
    let tp := (compile cfg scope (place.compound op e) s).store
    let tq := (compile cfg scope (place.expanded op e) s).store
    ∃ r right id id', (compile cfg scope e s).result = .ok r ∧
      KeepsNames (compile cfg scope e s).store tp ∧ (∀ name, tp.look name = tq.look name) ∧
      List.Forall₂ (Instruction.Twin (SameName tq tp)) right r.code ∧
      tq.lookup place.name.text = some id ∧ tp.lookup place.name.text = some id' ∧
      p.code = r.code ++ ([.access place.load id', .plain (.stack .swap)] ++
        Machine.finish place op id') ∧
      q.code = [.access place.load id] ++ (right ++ Machine.finish place op id) := by
  intro tp tq
  obtain ⟨wp, hperform, hfault, hstore, hcode⟩ := compile_performed hp
  obtain ⟨right, he, hcompound, hexpanded⟩ := Script.compound_expanded hfault
  rw [hcompound] at hperform
  obtain ⟨we, hfirst, hsecond⟩ := performAll_append_ok hperform
  obtain ⟨r, hr, -, hrstore⟩ := compile_of_performed he hfirst
  have hdisciplined := Script.ofText_disciplined cfg.dialect e
  rw [he] at hdisciplined
  have hkeeps : KeepsNames (compile cfg scope e s).store tp := by
    have htail : Guarded [.access place.load place.target, .operate (.stack .swap),
        .operate op.binary.opcode, .access place.store place.target] := trivial
    have hright := performAll_drafted (w := .start s scope) hdisciplined.guarded hs hfirst
    rw [hrstore, show tp = _ from hstore]
    exact (performAll_drafted htail hright.names.wellFormed hsecond).names.keeps
  -- each of the three codes is that of its actions, by the numbers of the names in its own store
  obtain ⟨hpNames, hpCode⟩ := compile_drafted hs hp
  obtain ⟨hqNames, hqCode⟩ := compile_drafted hs hq
  obtain ⟨-, hrCode⟩ := compile_drafted hs hr
  rw [hcompound] at hpNames hpCode
  rw [hexpanded] at hqNames hqCode
  rw [he] at hrCode
  -- the target and the names of the right-hand side are known at the end, to both
  have hpNumber : ∀ name ∈ place.name.text :: right.flatMap (·.names),
      tp.lookup name = some (tp.number name) := by
    intro name hname
    apply hpNames.lookup_number
    simpa [Action.names, Place.target, or_comm] using hname
  have hqNumber : ∀ name ∈ place.name.text :: right.flatMap (·.names),
      tq.lookup name = some (tq.number name) := by
    intro name hname
    apply hqNames.lookup_number
    simpa [Action.names, Place.target, or_comm] using hname
  refine ⟨r, right.flatMap (·.code s tq.number), tq.number place.name.text,
    tp.number place.name.text, hr, hkeeps, ?_, ?_, hqNumber _ List.mem_cons_self,
    hpNumber _ List.mem_cons_self, ?_, ?_⟩
  · intro name
    rw [hpNames.look, hqNames.look]
    simp [Action.names, Place.target, or_comm]
  · rw [hrCode tp hkeeps]
    refine Action.twins_code hdisciplined.listed s fun name hname => ⟨name, ?_, ?_⟩
    · exact hqNumber name (List.mem_cons_of_mem _ hname)
    · exact hpNumber name (List.mem_cons_of_mem _ hname)
  · rw [hpCode tp (KeepsNames.refl _), hrCode tp hkeeps, List.flatMap_append]
    rfl
  · rw [hqCode tq (KeepsNames.refl _), List.flatMap_cons, List.flatMap_append]
    rfl

/-- The code of an equation that does not write to the variable of a name, also if that came to be
later. -/
theorem compile_spares (hs : Reachable s) {r : Program}
    (hr : (compile cfg scope e s).result = .ok r) {name : String}
    (hkept : ∀ id, (compile cfg scope e s).store.lookup name = some id → r.overwrites id = false)
    {t : MemoryStore} (ht : t.WellFormed) (hkeeps : KeepsNames (compile cfg scope e s).store t)
    {id : VarId} (hid : t.lookup name = some id) : r.overwrites id = false := by
  obtain ⟨hreachable, hlends⟩ := compile_lends hs cfg scope e
  rw [hr] at hlends
  rw [Bool.eq_false_iff]
  intro hwrites
  have hbound : id ∈ r.bindings := Instruction.mem_bindings_of_overwrites hwrites
  obtain ⟨slot, hslot⟩ := Option.isSome_iff_exists.mp
    (hlends.2.known id (List.count_pos_iff.mpr hbound))
  have hfound := hreachable.wellFormed.lookup_iff.mpr ⟨slot, hslot, rfl⟩
  obtain rfl := ht.lookup_injective hid (hkeeps slot.name id hfound)
  rw [hkept id hfound] at hwrites
  cases hwrites

end Forms

end SignalCalc
