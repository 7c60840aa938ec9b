import Mathlib.Algebra.GroupWithZero.Nat
import SignalCalc.Proofs.Equation.Loans
import SignalCalc.Proofs.Machine.Run
import SignalCalc.Proofs.Store.Accounts
import SignalCalc.Session

/-! # Attachments over a whole session

Three parties hold attachments: the program under construction, the live programs, and the
evaluations that leave behind what they created. This module follows a session through any list of
commands and shows that the store never loses count of them.
-/

namespace SignalCalc

open MemoryStore

theorem slots_unregister (n : UInt64) (s : MemoryStore) :
    (Program.unregister n s).slots = s.slots := by
  unfold Program.unregister
  split <;> rfl

theorem slots_register (p : Program) (n : UInt64) (s : MemoryStore) :
    (p.register n s).2.slots = s.slots := by
  unfold Program.register
  dsimp only
  split
  · exact slots_unregister _ s
  · exact slots_unregister _ s

namespace Session

/-! ## Programs by name -/

def live {σ : Type} (s : Session σ) : List Program := s.programs.map (·.2)

/-- How many instructions of some programs are bound to a variable. -/
def heldBy (programs : List (String × Program)) (id : VarId) : Nat :=
  (programs.map fun entry => entry.2.bindings.count id).sum

theorem heldBy_cons (name : String) (p : Program) (programs : List (String × Program)) (id : VarId) :
    heldBy ((name, p) :: programs) id = p.bindings.count id + heldBy programs id := by
  simp [heldBy]

theorem heldBy_pos {programs : List (String × Program)} {entry : String × Program}
    (hentry : entry ∈ programs) {id : VarId} (hid : id ∈ entry.2.bindings) :
    0 < heldBy programs id := by
  induction programs with
  | nil => cases hentry
  | cons first programs ih =>
    rw [show heldBy (first :: programs) id = first.2.bindings.count id + heldBy programs id from
      heldBy_cons first.1 first.2 programs id]
    rcases List.mem_cons.mp hentry with rfl | hentry
    · have := List.count_pos_iff.mpr hid
      omega
    · have := ih hentry
      omega

/-- Names of programs are not repeated, so that a name sets one program apart from the rest. -/
theorem heldBy_split {programs : List (String × Program)} (hnames : (programs.map (·.1)).Nodup)
    {entry : String × Program} (hentry : entry ∈ programs) (id : VarId) :
    heldBy programs id =
      entry.2.bindings.count id + heldBy (programs.filter (·.1 ≠ entry.1)) id := by
  induction programs with
  | nil => cases hentry
  | cons first programs ih =>
    simp only [List.map_cons, List.nodup_cons] at hnames
    obtain ⟨name, p⟩ := first
    rw [heldBy_cons]
    rcases List.mem_cons.mp hentry with rfl | hentry
    · -- nothing else bears this name, so that the filter keeps all the rest
      have hrest : programs.filter (·.1 ≠ name) = programs := by
        rw [List.filter_eq_self]
        intro other hother
        simp only [decide_eq_true_eq, ne_eq]
        exact fun heq => hnames.1 (List.mem_map.mpr ⟨other, hother, heq⟩)
      simp only [List.filter_cons, ne_eq, not_true_eq_false, decide_false, Bool.false_eq_true,
        if_false]
      simp only [ne_eq] at hrest
      rw [hrest]
    · have hne : name ≠ entry.1 := fun heq =>
        hnames.1 (List.mem_map.mpr ⟨entry, hentry, heq.symm⟩)
      simp only [List.filter_cons, ne_eq, hne, not_false_eq_true, decide_true, if_true]
      rw [heldBy_cons]
      have hrest := ih hnames.2 hentry
      simp only [ne_eq] at hrest
      omega

theorem mem_of_program? {σ : Type} {s : Session σ} {name : String} {p : Program}
    (h : s.program? name = some p) : (name, p) ∈ s.programs := by
  obtain ⟨entry, hentry, rfl⟩ := Option.map_eq_some_iff.mp h
  have hname := List.find?_some hentry
  simp only [decide_eq_true_eq] at hname
  rw [← hname]
  exact List.mem_of_find?_eq_some hentry

theorem filter_of_program?_none {σ : Type} {s : Session σ} {name : String}
    (h : s.program? name = none) : s.programs.filter (·.1 ≠ name) = s.programs := by
  rw [List.filter_eq_self]
  intro entry hentry
  have hnone := List.find?_eq_none.mp (Option.map_eq_none_iff.mp h) entry hentry
  simpa using hnone

theorem names_put {σ : Type} {s : Session σ} (hnames : (s.programs.map (·.1)).Nodup) (name : String)
    (p : Program) : ((s.put name p).programs.map (·.1)).Nodup := by
  simp only [put, List.map_cons, List.nodup_cons]
  refine ⟨?_, hnames.sublist (List.filter_sublist.map _)⟩
  intro hmem
  obtain ⟨entry, hentry, hname⟩ := List.mem_map.mp hmem
  have := (List.mem_filter.mp hentry).2
  simp [hname] at this

/-! ## Sessions whose store agrees with what is held -/

/-- The store of the session agrees with what its live programs hold and with what is held besides
them. -/
structure Settled (s : Session MemoryStore) (besides : VarId → Nat) : Prop where
  reachable : Reachable s.store
  names : (s.programs.map (·.1)).Nodup
  accounts : s.store.Accounts fun id => heldBy s.programs id + besides id

variable {s : Session MemoryStore} {besides : VarId → Nat}

/-- A new state of the store that agrees with an account for which more is held besides. -/
theorem Settled.withStore (h : s.Settled besides) {store : MemoryStore} (hstore : Reachable store)
    {more : VarId → Nat}
    (haccounts : store.Accounts fun id => heldBy s.programs id + besides id + more id)
    (setting : Setting) (scope : Option Scope) :
    Settled ⟨setting, store, scope, s.programs⟩ fun id => more id + besides id where
  reachable := hstore
  names := h.names
  accounts := haccounts.congr fun id => by
    dsimp only
    omega

/-- Releasing a program takes its share off the account. -/
theorem Settled.drop (h : s.Settled besides) (name : String) : (s.drop name).2.Settled besides := by
  unfold Session.drop
  cases hname : s.program? name with
  | none => exact h
  | some p =>
    have hsplit := heldBy_split h.names (mem_of_program? hname)
    refine ⟨h.reachable.release p, h.names.sublist (List.filter_sublist.map _), ?_⟩
    have hdetached : (Program.detachAll p.bindings s.store).Accounts
        fun id => heldBy (s.programs.filter (·.1 ≠ name)) id + besides id := by
      refine Accounts.detachAll (h.accounts.congr fun id => ?_)
      rw [hsplit id]
      dsimp only
      omega
    exact hdetached.of_slots (slots_unregister p.registration _)

/-- A program under a name of its own brings its share along. -/
theorem Settled.put {p : Program} (h : s.Settled fun id => p.bindings.count id + besides id)
    {name : String} (hname : s.programs.filter (·.1 ≠ name) = s.programs) :
    (s.put name p).Settled besides where
  reachable := h.reachable
  names := names_put h.names name p
  accounts := h.accounts.congr fun id => by
    simp only [Session.put]
    rw [heldBy_cons, hname]
    omega

theorem Settled.exchange (h : s.Settled besides) {name : String} {p q : Program}
    (hname : s.program? name = some p) (hbindings : q.bindings = p.bindings) :
    (s.put name q).Settled besides where
  reachable := h.reachable
  names := names_put h.names name q
  accounts := h.accounts.congr fun id => by
    simp only [Session.put]
    rw [heldBy_cons, hbindings, heldBy_split h.names (mem_of_program? hname) id]

theorem Settled.replace {p : Program} (h : s.Settled fun id => p.bindings.count id + besides id)
    (name : String) : (s.replace name p).Settled besides := by
  refine (h.drop name).put ?_
  unfold Session.drop
  cases hname : s.program? name with
  | none => exact filter_of_program?_none hname
  | some q => simp [List.filter_filter]

/-! ## Commands -/

/-- One thing that a host does to a session. The ways to run a program differ in the context that
they give to the run. -/
inductive Command where
  | configure (setting : Setting) (scope : Option Scope)
  | define (name : String) (type : DataType) (value : Value)
  | setConversion (name : String) (c : Conversion)
  | addEnum (name text : String) (value : Int64)
  | compile (name source : String)
  | share (name copy : String)
  | drop (name : String)
  | run (name : String) (plugins : Registry) (ctx : Context)
  | resetEdges (name : String)
  | register (name : String) (n : UInt64)
  | evaluate (source : String)
  | check (strict : Bool) (source : String)

/-- The session after a command. A command about a program that is not there does nothing. -/
def obey (s : Session MemoryStore) : Command → Session MemoryStore
  | .configure setting scope => { s with setting := setting, scope := scope }
  | .define name type value => { s with store := (s.store.define name type value).2 }
  | .setConversion name c => { s with store := (s.store.setConversion name c).2 }
  | .addEnum name text value => { s with store := (s.store.addEnum name text value).2 }
  | .compile name source => (s.compile name source).2
  | .share name copy => (s.share name copy).getD s
  | .drop name => (s.drop name).2
  | .run name plugins ctx => ((s.runWith name (·.run plugins ctx)).map (·.2)).getD s
  | .resetEdges name => (s.resetEdges name).getD s
  | .register name n => (s.register name n).getD s
  | .evaluate source => (s.evaluate source).2
  | .check strict source => (s.check strict source).2

theorem Settled.sameAccount (h : s.Settled besides) {store : MemoryStore} (hstore : Reachable store)
    (haccounts : store.Accounts fun id => heldBy s.programs id + besides id) (setting : Setting)
    (scope : Option Scope) : Settled ⟨setting, store, scope, s.programs⟩ besides :=
  ⟨hstore, h.names, haccounts⟩

theorem Settled.compile (h : s.Settled besides) (name source : String) :
    (s.compile name source).2.Settled besides := by
  obtain ⟨hreachable, hlends⟩ := compile_lends h.reachable s.setting s.scope source
  unfold Session.compile
  dsimp only
  cases hresult : (SignalCalc.compile s.setting s.scope source s.store).result with
  | error e =>
    rw [hresult] at hlends
    have haccounts := h.accounts.lends h.reachable.wellFormed hlends hreachable.wellFormed
    exact h.sameAccount hreachable haccounts s.setting _
  | ok p =>
    rw [hresult] at hlends
    have haccounts := h.accounts.lends h.reachable.wellFormed hlends.2 hreachable.wellFormed
    exact (h.withStore hreachable haccounts s.setting _).replace name

theorem Settled.share (h : s.Settled besides) (name copy : String) :
    ((s.share name copy).getD s).Settled besides := by
  unfold Session.share
  cases hname : s.program? name with
  | none => exact h
  | some p =>
    have hheld : ∀ id ∈ p.bindings, 0 < heldBy s.programs id + besides id := fun id hid =>
      Nat.lt_of_lt_of_le (heldBy_pos (mem_of_program? hname) hid) (Nat.le_add_right _ _)
    have haccounts : (Program.attachAll p.bindings s.store).Accounts
        fun id => heldBy s.programs id + besides id + p.bindings.count id :=
      (h.accounts.attachAll hheld).congr fun id => Nat.add_comm _ _
    exact (h.withStore (h.reachable.attachAll p.bindings) haccounts s.setting s.scope).replace
      (p := { p with registration := 0 }) copy

theorem Settled.run (h : s.Settled besides) (name : String) (plugins : Registry) (ctx : Context) :
    (((s.runWith name (·.run plugins ctx)).map (·.2)).getD s).Settled besides := by
  unfold Session.runWith
  cases hname : s.program? name with
  | none => exact h
  | some p =>
    have hwritten := Machine.run_written plugins ctx p.code ⟨.empty, s.store⟩
    have hstore := h.sameAccount (Written.reachable hwritten h.reachable)
      (h.accounts.written hwritten) s.setting s.scope
    exact hstore.exchange hname
      (filterMap_binding?_of_forget (Machine.run_forget plugins ctx p.code ⟨.empty, s.store⟩))

theorem Settled.resetEdges (h : s.Settled besides) (name : String) :
    ((s.resetEdges name).getD s).Settled besides := by
  unfold Session.resetEdges
  cases hname : s.program? name with
  | none => exact h
  | some p =>
    refine h.exchange hname (filterMap_binding?_of_forget ?_)
    simp only [Program.resetEdges, List.map_map, Function.comp_def, Instruction.forget_forget]

theorem Settled.register (h : s.Settled besides) (name : String) (n : UInt64) :
    ((s.register name n).getD s).Settled besides := by
  unfold Session.register
  cases hname : s.program? name with
  | none => exact h
  | some p =>
    have hreachable : Reachable (p.register n s.store).2 := by
      unfold Program.register
      dsimp only
      split
      · exact h.reachable.unregister _
      · exact (h.reachable.unregister _).attachEquation n
    have hstore := h.sameAccount hreachable (h.accounts.of_slots (slots_register p n s.store))
      s.setting s.scope
    exact hstore.exchange (q := (p.register n s.store).1) hname rfl

/-- Every command but an evaluation leaves alone what is held besides the live programs. -/
theorem Settled.obey (h : s.Settled besides) {c : Command} (hc : ∀ source, c ≠ .evaluate source) :
    (s.obey c).Settled besides := by
  cases c with
  | configure setting scope => exact h.sameAccount h.reachable h.accounts setting scope
  | define name type value =>
    exact h.sameAccount (h.reachable.define name type value)
      (h.accounts.define h.reachable.wellFormed name type value) s.setting s.scope
  | setConversion name c =>
    exact h.sameAccount (h.reachable.setConversion name c)
      (h.accounts.updateNamed name ⟨fun _ => rfl, fun _ => rfl⟩ fun _ => rfl) s.setting s.scope
  | addEnum name text value =>
    exact h.sameAccount (h.reachable.addEnum name text value)
      (h.accounts.updateNamed name ⟨fun _ => rfl, fun _ => rfl⟩ fun _ => rfl) s.setting s.scope
  | compile name source => exact h.compile name source
  | share name copy => exact h.share name copy
  | drop name => exact h.drop name
  | run name plugins ctx => exact h.run name plugins ctx
  | resetEdges name => exact h.resetEdges name
  | register name n => exact h.register name n
  | evaluate source => exact absurd rfl (hc source)
  | check strict source =>
    have hstore := check_store s.setting strict s.scope source s.store
    refine h.sameAccount ?_ ?_ s.setting _
    · rw [hstore]
      exact h.reachable
    · rw [hstore]
      exact h.accounts

end Session

/-! ## Ledgers -/

def newcomers (before after : MemoryStore) : List VarId :=
  (after.slots.map (·.id)).filter fun id => (before.slot? id).isNone

/-- A session, and the variables that evaluations have left behind in its store. -/
structure Ledger where
  session : Session MemoryStore
  kept : List VarId := []

namespace Ledger

def start (setting : Setting) (scope : Option Scope) : Ledger where
  session := { setting := setting, store := {}, scope := scope }

/-- The ledger after a command. An evaluation leaves behind what it created, unless the options say
that it removes it. -/
def obey (l : Ledger) (c : Session.Command) : Ledger :=
  let session := l.session.obey c
  match c with
  | .evaluate _ =>
    if l.session.setting.options.missing = .autoCreateThenRemove then ⟨session, l.kept⟩
    else ⟨session, l.kept ++ newcomers l.session.store session.store⟩
  | _ => ⟨session, l.kept⟩

def obeyAll (l : Ledger) (commands : List Session.Command) : Ledger := commands.foldl obey l

def keeps (l : Ledger) (id : VarId) : Nat := if id ∈ l.kept then 1 else 0

/-- The store agrees with what the live programs hold and what evaluations left behind. -/
def Balanced (l : Ledger) : Prop := l.session.Settled l.keeps

theorem start_balanced (setting : Setting) (scope : Option Scope) :
    (start setting scope).Balanced where
  reachable := .empty
  names := List.nodup_nil
  accounts := ⟨by simp [start], by simp [start, Session.heldBy, keeps]⟩

/-- The variables that an evaluation leaves behind are the newcomers to the store. -/
theorem mem_newcomers_iff {same : Value → Value → Prop} {owner : Option Int32}
    {created : List VarId} {before after : MemoryStore} (hbefore : before.WellFormed)
    (hfresh : ∀ id ∈ created, before.lastId < id.val)
    (hlends : Lends same owner (fun id => created.count id) before after) {id : VarId} :
    id ∈ newcomers before after ↔ id ∈ created := by
  constructor
  · intro hid
    obtain ⟨hafter, hnone⟩ := List.mem_filter.mp hid
    obtain ⟨slot, hslot, rfl⟩ := List.mem_map.mp hafter
    rcases hlends.mem_cases hslot with ⟨old, hold, hcarried⟩ | hborrowed
    · rw [hcarried.id, hbefore.slot?_of_mem hold] at hnone
      cases hnone
    · exact List.count_pos_iff.mp hborrowed.held_pos
  · intro hid
    obtain ⟨slot, hslot⟩ := Option.isSome_iff_exists.mp
      (hlends.known id (List.count_pos_iff.mpr hid))
    obtain ⟨hmem, rfl⟩ := mem_of_slot? hslot
    refine List.mem_filter.mpr ⟨List.mem_map_of_mem hmem, ?_⟩
    rw [Option.isNone_iff_eq_none, slot?_eq_none_iff]
    intro old hold heq
    have hle := hbefore.id_le old hold
    have hlt := hfresh _ hid
    rw [heq] at hle
    omega

theorem Balanced.evaluate {l : Ledger} (h : l.Balanced) (source : String) :
    (l.obey (.evaluate source)).Balanced := by
  obtain ⟨hreachable, created, hnodup, hfresh, hremoves, hlends⟩ :=
    evaluate_lends h.reachable l.session.setting l.session.scope source
  have hwf := h.reachable.wellFormed
  have hsettled := h.withStore hreachable
    (h.accounts.lends hwf hlends hreachable.wellFormed) l.session.setting
    (SignalCalc.evaluate l.session.setting l.session.scope source l.session.store).scope
  unfold Ledger.obey
  dsimp only
  split
  · next hmode =>
    refine ⟨hsettled.reachable, hsettled.names, hsettled.accounts.congr fun id => ?_⟩
    have hnone := hremoves (by rw [hmode]; rfl)
    simp only [hnone, List.count_nil, Nat.zero_add]
    rfl
  · refine ⟨hsettled.reachable, hsettled.names, hsettled.accounts.congr fun id => ?_⟩
    -- what was left behind before is still in use, so that no new number is among it
    have hkept : id ∈ l.kept → id ∉ created := by
      intro hid hcreated
      have howed := h.accounts.owed_fresh hwf (hfresh id hcreated)
      simp [keeps, hid] at howed
    have hcount : created.count id = if id ∈ created then 1 else 0 := hnodup.count
    have hsum : (Ledger.mk (l.session.obey (.evaluate source))
        (l.kept ++ newcomers l.session.store (l.session.obey (.evaluate source)).store)).keeps id =
        created.count id + l.keeps id := by
      simp only [keeps, hcount, List.mem_append]
      by_cases hid : id ∈ l.kept
      · simp [hid, hkept hid]
      · have hiff : id ∈ newcomers l.session.store (l.session.obey (.evaluate source)).store ↔
            id ∈ created := mem_newcomers_iff hwf hfresh hlends
        simp [hid, hiff]
    rw [hsum]
    rfl

theorem obey_other (l : Ledger) {c : Session.Command} (hc : ∀ source, c ≠ .evaluate source) :
    l.obey c = ⟨l.session.obey c, l.kept⟩ := by
  cases c with
  | evaluate source => exact absurd rfl (hc source)
  | configure | define | setConversion | addEnum | compile | share | drop | run | resetEdges
  | register | check => rfl

theorem Balanced.obey {l : Ledger} (h : l.Balanced) (c : Session.Command) : (l.obey c).Balanced := by
  by_cases hc : ∃ source, c = .evaluate source
  · obtain ⟨source, rfl⟩ := hc
    exact h.evaluate source
  · have hother : ∀ source, c ≠ .evaluate source := fun source heq => hc ⟨source, heq⟩
    rw [obey_other l hother]
    exact Session.Settled.obey h hother

/-- The ledger of every session balances. -/
theorem Balanced.obeyAll {l : Ledger} (h : l.Balanced) (commands : List Session.Command) :
    (l.obeyAll commands).Balanced := by
  induction commands generalizing l with
  | nil => exact h
  | cons c commands ih => exact ih (h.obey c)

theorem Balanced.known {l : Ledger} (h : l.Balanced) {p : Program} (hp : p ∈ l.session.live)
    {id : VarId} (hid : id ∈ p.bindings) : (l.session.store.slot? id).isSome := by
  obtain ⟨entry, hentry, rfl⟩ := List.mem_map.mp hp
  have hpos := Session.heldBy_pos hentry hid
  exact h.accounts.known id (Nat.lt_of_lt_of_le hpos (Nat.le_add_right _ _))

/-- A live program stops for want of a variable only if a plugin that it calls says so. -/
theorem Balanced.run_missing {l : Ledger} (h : l.Balanced) {p : Program} (hp : p ∈ l.session.live)
    {plugins : Registry} {ctx : Context} {e : RunError}
    (hrun : (p.run plugins ctx l.session.store).result = .error e) (he : e.isMissing = true) :
    ∃ i ∈ p.code, ∃ id call stack stack', i.operation = .plugin id ∧
      plugins.call id call stack = .error e stack' := by
  have hknown : Machine.Known (· ∈ p.code.filterMap (·.binding?)) ⟨.empty, l.session.store⟩ :=
    fun id hid => h.known hp hid
  unfold Program.run at hrun
  dsimp only at hrun
  split at hrun
  · next e' hstopped =>
    cases hrun
    exact Machine.run_missing hknown hstopped he
  · split at hrun
    · cases hrun
    · cases hrun
      cases he

end Ledger

/-- After any commands on an initially empty store, whatever their order and however they end: what a
live program names has a slot; every slot counts one attachment for each instruction of a live
program that is bound to it, and one more if a direct evaluation that does not remove what it
creates has created it; and no live program, run in any way, stops for want of a variable, unless a
plugin that it calls reports that of its own accord. -/
theorem attachments_exact (setting : Setting) (scope : Option Scope)
    (commands : List Session.Command) :
    let l := (Ledger.start setting scope).obeyAll commands
    (∀ p ∈ l.session.live, ∀ id ∈ p.bindings, (l.session.store.slot? id).isSome) ∧
      (∀ slot ∈ l.session.store.slots,
        slot.attachments = (l.session.live.map (·.bindings.count slot.id)).sum +
          if slot.id ∈ l.kept then 1 else 0) ∧
      ∀ p ∈ l.session.live, ∀ plugins ctx e,
        (p.run plugins ctx l.session.store).result = .error e → e.isMissing = true →
          ∃ i ∈ p.code, ∃ id call stack stack', i.operation = .plugin id ∧
            plugins.call id call stack = .error e stack' := by
  intro l
  have hbalanced : l.Balanced := (Ledger.start_balanced setting scope).obeyAll commands
  refine ⟨fun p hp id hid => hbalanced.known hp hid, ?_, ?_⟩
  · intro slot hslot
    rw [hbalanced.accounts.exact slot hslot]
    simp only [Session.heldBy, Session.live, List.map_map, Function.comp_def, Ledger.keeps]
  · intro p hp plugins ctx e hrun he
    exact hbalanced.run_missing hp hrun he

/-- A program and its copy hold one attachment each, and an evaluation keeps what it created. -/
theorem attachments_exact_shared :
    let l := (Ledger.start {} none).obeyAll [.compile "p" "x=1", .share "p" "q", .evaluate "y=x"]
    l.session.live.length = 2 ∧ l.kept = [⟨2⟩] ∧
      ∀ slot ∈ l.session.store.slots,
        slot.attachments = (l.session.live.map (·.bindings.count slot.id)).sum +
          if slot.id ∈ l.kept then 1 else 0 := by
  have hlive : ((Ledger.start {} none).obeyAll [.compile "p" "x=1", .share "p" "q",
      .evaluate "y=x"]).session.live.length = 2 := by decide +kernel
  have hkept : ((Ledger.start {} none).obeyAll [.compile "p" "x=1", .share "p" "q",
      .evaluate "y=x"]).kept = [⟨2⟩] := by decide +kernel
  have hexact := attachments_exact {} none [.compile "p" "x=1", .share "p" "q", .evaluate "y=x"]
  generalize (Ledger.start {} none).obeyAll [.compile "p" "x=1", .share "p" "q",
    .evaluate "y=x"] = l at hlive hkept hexact ⊢
  exact ⟨hlive, hkept, hexact.2.1⟩

end SignalCalc
