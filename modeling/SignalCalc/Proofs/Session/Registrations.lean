import SignalCalc.Proofs.Session.Attachments

/-! # Registrations of live programs

A host follows its programs by numbers, and the store keeps the list of the numbers in use. The list
never names a number that no live program holds. It may lack one: a number that two programs hold at
a time is struck off when the first of them gives it up. A number that is never shared in this way is
listed exactly as long as it is held.
-/

namespace SignalCalc

/-! ## Lists of numbers -/

namespace MemoryStore

/-- A list of numbers without one of them; 0 is no number. -/
def strike (n : UInt64) (l : List UInt64) : List UInt64 := if n = 0 then l else l.filter (· ≠ n)

def enter (n : UInt64) (l : List UInt64) : List UInt64 := if n = 0 then l else insertAscending n l

theorem mem_strike {n m : UInt64} (hm : m ≠ 0) {l : List UInt64} :
    m ∈ strike n l ↔ m ∈ l ∧ m ≠ n := by
  unfold strike
  split
  · next hn => simp [hn, hm]
  · simp

theorem mem_enter {n m : UInt64} (hm : m ≠ 0) {l : List UInt64} :
    m ∈ enter n l ↔ m = n ∨ m ∈ l := by
  unfold enter
  split
  · next hn => simp [hn, hm]
  · exact mem_insertAscending

structure Roll (l : List UInt64) : Prop where
  ascending : l.Pairwise (· < ·)
  nonzero : ∀ n ∈ l, n ≠ 0

theorem Roll.strike {l : List UInt64} (h : Roll l) (n : UInt64) : Roll (strike n l) := by
  unfold MemoryStore.strike
  split
  · exact h
  · exact ⟨h.ascending.filter _, fun m hm => h.nonzero m (List.mem_filter.mp hm).1⟩

theorem Roll.enter {l : List UInt64} (h : Roll l) (n : UInt64) : Roll (enter n l) := by
  unfold MemoryStore.enter
  split
  · exact h
  · next hn =>
    refine ⟨pairwise_insertAscending h.ascending, fun m hm => ?_⟩
    rcases mem_insertAscending.mp hm with rfl | hm
    · exact hn
    · exact h.nonzero m hm

/-! ## The list in the store -/

theorem equations_detachAll (ids : List VarId) (s : MemoryStore) :
    (Program.detachAll ids s).equations = s.equations := by
  have hdetach : ∀ (s : MemoryStore) (id : VarId), (s.detach id).equations = s.equations := by
    intro s id
    unfold detach
    split
    · split <;> rfl
    · rfl
  induction ids generalizing s with
  | nil => rfl
  | cons id ids ih => exact (ih (s.detach id)).trans (hdetach s id)

theorem equations_attachAll (ids : List VarId) (s : MemoryStore) :
    (Program.attachAll ids s).equations = s.equations := by
  induction ids generalizing s with
  | nil => rfl
  | cons id ids ih => exact ih (s.attach id)

theorem equations_unregister (n : UInt64) (s : MemoryStore) :
    (Program.unregister n s).equations = strike n s.equations := by
  unfold Program.unregister strike
  split <;> rfl

theorem equations_register (p : Program) (n : UInt64) (s : MemoryStore) :
    (p.register n s).2.equations = enter n (strike p.registration s.equations) := by
  rw [← equations_unregister]
  unfold Program.register enter
  dsimp only
  split <;> rfl

theorem equations_release (p : Program) (s : MemoryStore) :
    (p.release s).equations = strike p.registration s.equations := by
  rw [← equations_detachAll p.bindings s, ← equations_unregister]
  rfl

theorem equations_define (s : MemoryStore) (name : String) (type : DataType) (value : Value) :
    (s.define name type value).2.equations = s.equations := by
  unfold define
  dsimp only
  split <;> rfl

theorem equations_updateNamed (s : MemoryStore) (name : String) (f : Slot → Slot) :
    (s.updateNamed name f).2.equations = s.equations := by
  unfold updateNamed
  split <;> rfl

theorem Written.equations_eq {ids : VarId → Prop} {s t : MemoryStore} (h : Written ids s t) :
    t.equations = s.equations := by
  induction h with
  | refl => rfl
  | write _ _ hw ih =>
    rw [(write_ok hw).2]
    exact ih

end MemoryStore

open MemoryStore

namespace Session

/-! ## Numbers of programs -/

/-- The number under which the program of a name is registered; 0 if it is not, or if there is no
such program. -/
def number (s : Session MemoryStore) (name : String) : UInt64 :=
  ((s.program? name).map (·.registration)).getD 0

variable {s s' : Session MemoryStore}

theorem number_of_program? {name : String} {p : Program} (h : s.program? name = some p) :
    s.number name = p.registration := by
  simp [number, h]

/-- Where the names of the programs are not repeated, the numbers in use are those of live
programs. -/
theorem exists_number_iff (hnames : (s.programs.map (·.1)).Nodup) {n : UInt64} (hn : n ≠ 0) :
    (∃ name, s.number name = n) ↔ ∃ p ∈ s.live, p.registration = n := by
  constructor
  · rintro ⟨name, hname⟩
    cases hp : s.program? name with
    | none => simp [number, hp, hn.symm] at hname
    | some p =>
      rw [number_of_program? hp] at hname
      exact ⟨p, List.mem_map.mpr ⟨(name, p), mem_of_program? hp, rfl⟩, hname⟩
  · rintro ⟨p, hp, hnumber⟩
    obtain ⟨entry, hentry, rfl⟩ := List.mem_map.mp hp
    have hfound : s.program? entry.1 = some entry.2 := by
      simp [program?, find?_of_nodup (·.1) hnames hentry]
    exact ⟨entry.1, by rw [number_of_program? hfound, hnumber]⟩

theorem program?_filter (programs : List (String × Program)) (name other : String) :
    (programs.filter (·.1 ≠ name)).find? (·.1 = other) =
      if other = name then none else programs.find? (·.1 = other) := by
  rw [List.find?_filter]
  split
  · next h =>
    rw [List.find?_eq_none]
    intro entry _
    simp [h]
  · next h =>
    congr 1
    funext entry
    by_cases hentry : entry.1 = other
    · simp [hentry, h]
    · simp [hentry]

theorem number_put (s : Session MemoryStore) (name other : String) (p : Program) :
    (s.put name p).number other = if other = name then p.registration else s.number other := by
  by_cases h : other = name
  · simp [number, program?, put, h]
  · have hhead : name ≠ other := Ne.symm h
    simp only [number, program?, put, List.find?_cons, hhead, decide_false, program?_filter, h,
      if_false]

theorem number_drop (s : Session MemoryStore) (name other : String) :
    (s.drop name).2.number other = if other = name then 0 else s.number other := by
  unfold drop
  cases hname : s.program? name with
  | none =>
    by_cases h : other = name
    · simp [h, number, hname]
    · simp [h]
  | some p =>
    simp only [number, program?, program?_filter]
    by_cases h : other = name
    · simp [h]
    · simp [h]

theorem equations_drop (s : Session MemoryStore) (name : String) :
    (s.drop name).2.store.equations = strike (s.number name) s.store.equations := by
  unfold drop
  cases hname : s.program? name with
  | none => simp [number, hname, strike]
  | some p =>
    rw [number_of_program? hname]
    exact equations_release p s.store

/-! ## Commands -/

/-- What a command can do to the numbers of the programs and to the list of the store: nothing, or it
gives a name another number. Only registering gives a number that is not 0. -/
inductive Renumbered (s : Session MemoryStore) (c : Command) (s' : Session MemoryStore) : Prop where
  | same (hnumber : ∀ name, s'.number name = s.number name)
      (hequations : s'.store.equations = s.store.equations)
  | assigned (name : String) (n : UInt64) (hgiven : n ≠ 0 → c = .register name n)
      (hnumber : ∀ other, s'.number other = if other = name then n else s.number other)
      (hequations : s'.store.equations = enter n (strike (s.number name) s.store.equations))

section Changes

variable {c : Command} (setting : Setting) {store : MemoryStore} (scope : Option Scope)
  (hequations : store.equations = s.store.equations)
include hequations

theorem renumbered_same : Renumbered s c ⟨setting, store, scope, s.programs⟩ :=
  .same (fun _ => rfl) hequations

/-- A new program is not registered, and takes the place of one that is released. -/
theorem renumbered_replace {p : Program} (hp : p.registration = 0) (name : String) :
    Renumbered s c (replace ⟨setting, store, scope, s.programs⟩ name p) := by
  refine .assigned name 0 (fun h => absurd rfl h) (fun other => ?_) ?_
  · rw [replace, number_put, number_drop, hp]
    split <;> rfl
  · rw [← hequations]
    exact equations_drop ⟨setting, store, scope, s.programs⟩ name

/-- A program is exchanged for one with the same number. -/
theorem renumbered_exchange {name : String} {p q : Program} (hp : s.program? name = some p)
    (hq : q.registration = p.registration) :
    Renumbered s c (put ⟨setting, store, scope, s.programs⟩ name q) := by
  refine .same (fun other => ?_) hequations
  rw [number_put, hq]
  split
  · next h => rw [h, number_of_program? hp]
  · rfl

end Changes

theorem renumbered_compile (hs : Reachable s.store) (c : Command) (name source : String) :
    Renumbered s c (s.compile name source).2 := by
  obtain ⟨-, hlends⟩ := compile_lends hs s.setting s.scope source
  unfold Session.compile
  dsimp only
  cases hresult : (SignalCalc.compile s.setting s.scope source s.store).result with
  | error e =>
    rw [hresult] at hlends
    exact renumbered_same _ _ hlends.equations
  | ok p =>
    rw [hresult] at hlends
    exact renumbered_replace _ _ hlends.2.equations hlends.1 name

theorem renumbered_share (s : Session MemoryStore) (c : Command) (name copy : String) :
    Renumbered s c ((s.share name copy).getD s) := by
  unfold Session.share
  cases hname : s.program? name with
  | none => exact renumbered_same _ _ rfl
  | some p =>
    exact renumbered_replace s.setting s.scope (equations_attachAll p.bindings s.store)
      (p := { p with registration := 0 }) rfl copy

theorem renumbered_run (s : Session MemoryStore) (c : Command) (name : String) (plugins : Registry)
    (ctx : Context) :
    Renumbered s c (((s.runWith name (·.run plugins ctx)).map (·.2)).getD s) := by
  unfold Session.runWith
  cases hname : s.program? name with
  | none => exact renumbered_same _ _ rfl
  | some p =>
    have hwritten := Machine.run_written plugins ctx p.code ⟨.empty, s.store⟩
    exact renumbered_exchange s.setting s.scope hwritten.equations_eq hname
      (q := (p.run plugins ctx s.store).program) rfl

theorem renumbered_resetEdges (s : Session MemoryStore) (c : Command) (name : String) :
    Renumbered s c ((s.resetEdges name).getD s) := by
  unfold Session.resetEdges
  cases hname : s.program? name with
  | none => exact renumbered_same _ _ rfl
  | some p => exact renumbered_exchange s.setting s.scope rfl hname (q := p.resetEdges) rfl

theorem renumbered_register (s : Session MemoryStore) (name : String) (n : UInt64) :
    Renumbered s (.register name n) ((s.register name n).getD s) := by
  unfold Session.register
  cases hname : s.program? name with
  | none => exact renumbered_same _ _ rfl
  | some p =>
    refine .assigned name n (fun _ => rfl) (fun other => ?_) ?_
    · exact number_put _ name other { p with registration := n }
    · rw [number_of_program? hname]
      exact equations_register p n s.store

/-- There is nothing else that a command does to them. -/
theorem renumbered_obey (hs : Reachable s.store) (c : Command) : Renumbered s c (s.obey c) := by
  cases c with
  | configure setting scope => exact renumbered_same _ _ rfl
  | define name type value =>
    exact renumbered_same _ _ (equations_define s.store name type value)
  | setConversion name c => exact renumbered_same _ _ (equations_updateNamed s.store name _)
  | addEnum name text value => exact renumbered_same _ _ (equations_updateNamed s.store name _)
  | compile name source => exact renumbered_compile hs _ name source
  | share name copy => exact renumbered_share s _ name copy
  | drop name =>
    exact .assigned name 0 (fun h => absurd rfl h) (number_drop s name) (equations_drop s name)
  | run name plugins ctx => exact renumbered_run s _ name plugins ctx
  | resetEdges name => exact renumbered_resetEdges s _ name
  | register name n => exact renumbered_register s name n
  | evaluate source =>
    obtain ⟨-, created, -, -, -, hlends⟩ := evaluate_lends hs s.setting s.scope source
    exact renumbered_same _ _ hlends.equations
  | check strict source =>
    have hstore := check_store s.setting strict s.scope source s.store
    exact renumbered_same _ _ (congrArg MemoryStore.equations hstore)

/-! ## What every session keeps -/

/-- The store lists no number but those of programs. -/
structure Tracked (s : Session MemoryStore) : Prop where
  roll : Roll s.store.equations
  held : ∀ n ∈ s.store.equations, ∃ name, s.number name = n

theorem Tracked.renumbered (h : s.Tracked) {c : Command} (hc : Renumbered s c s') : s'.Tracked := by
  cases hc with
  | same hnumber hequations =>
    refine ⟨hequations ▸ h.roll, fun n hn => ?_⟩
    obtain ⟨name, hname⟩ := h.held n (hequations ▸ hn)
    exact ⟨name, (hnumber name).trans hname⟩
  | assigned name n hgiven hnumber hequations =>
    have hroll : Roll s'.store.equations := hequations ▸ (h.roll.strike _).enter n
    refine ⟨hroll, fun m hm => ?_⟩
    have hzero := hroll.nonzero m hm
    rw [hequations, mem_enter hzero, mem_strike hzero] at hm
    rcases hm with rfl | ⟨hm, hne⟩
    · exact ⟨name, by simp [hnumber]⟩
    · -- whoever holds the number is not the one that has given its own up
      obtain ⟨other, hother⟩ := h.held m hm
      have hname : other ≠ name := fun heq => hne (by rw [← hother, heq])
      exact ⟨other, by rw [hnumber, if_neg hname, hother]⟩

/-- One program at most holds the number, and then the number is listed. -/
structure Sole (n : UInt64) (s : Session MemoryStore) : Prop where
  unique : ∀ name other, s.number name = n → s.number other = n → name = other
  listed : ∀ name, s.number name = n → n ∈ s.store.equations

/-- Whether a command gives the number to a program while another one holds it. -/
def shares (s : Session MemoryStore) (n : UInt64) : Command → Bool
  | .register name m =>
    m = n && s.programs.any fun entry => entry.1 ≠ name && entry.2.registration = n
  | _ => false

theorem eq_of_not_shares {n : UInt64} (hn : n ≠ 0) {name other : String}
    (h : s.shares n (.register name n) = false) (hother : s.number other = n) : other = name := by
  cases hp : s.program? other with
  | none => simp [number, hp, hn.symm] at hother
  | some p =>
    rw [number_of_program? hp] at hother
    simp only [shares, decide_true, Bool.true_and, List.any_eq_false] at h
    simpa [hother] using h (other, p) (mem_of_program? hp)

theorem Sole.renumbered {n : UInt64} (hn : n ≠ 0) (h : s.Sole n) {c : Command}
    (hshares : s.shares n c = false) (hc : Renumbered s c s') : s'.Sole n := by
  cases hc with
  | same hnumber hequations =>
    refine ⟨fun name other hname hother => ?_, fun name hname => ?_⟩
    · exact h.unique name other (hnumber name ▸ hname) (hnumber other ▸ hother)
    · exact hequations ▸ h.listed name (hnumber name ▸ hname)
  | assigned changed m hgiven hnumber hequations =>
    -- the number is given away now, and then nobody else held it, or it stays where it was
    have hholder : ∀ name, s'.number name = n →
        (m = n ∧ name = changed) ∨ (name ≠ changed ∧ s.number name = n) := by
      intro name hname
      rw [hnumber] at hname
      split at hname
      · next heq => exact .inl ⟨hname, heq⟩
      · next hne => exact .inr ⟨hne, hname⟩
    have hgive : m = n → ∀ name, s.number name = n → name = changed := by
      rintro rfl name hname
      rw [hgiven hn] at hshares
      exact eq_of_not_shares hn hshares hname
    refine ⟨fun name other hname hother => ?_, fun name hname => ?_⟩
    · rcases hholder name hname with ⟨hm, rfl⟩ | ⟨hne, hname⟩
      · rcases hholder other hother with ⟨-, rfl⟩ | ⟨-, hother⟩
        · rfl
        · exact (hgive hm other hother).symm
      · rcases hholder other hother with ⟨hm, rfl⟩ | ⟨-, hother⟩
        · exact hgive hm name hname
        · exact h.unique name other hname hother
    · rw [hequations, mem_enter hn, mem_strike hn]
      rcases hholder name hname with ⟨hm, -⟩ | ⟨hne, hname⟩
      · exact .inl hm.symm
      · refine .inr ⟨h.listed name hname, fun hstruck => ?_⟩
        exact hne (h.unique name changed hname hstruck.symm)

/-! ## Whole sessions -/

def start (setting : Setting) (scope : Option Scope) : Session MemoryStore where
  setting := setting
  store := {}
  scope := scope

def obeyAll (s : Session MemoryStore) (commands : List Command) : Session MemoryStore :=
  commands.foldl obey s

def everShares (n : UInt64) : Session MemoryStore → List Command → Bool
  | _, [] => false
  | s, c :: commands => s.shares n c || everShares n (s.obey c) commands

end Session

namespace Ledger

theorem session_obey (l : Ledger) (c : Session.Command) : (l.obey c).session = l.session.obey c := by
  cases c with
  | evaluate source =>
    unfold obey
    dsimp only
    split <;> rfl
  | configure | define | setConversion | addEnum | compile | share | drop | run | resetEdges
  | register | check => rfl

theorem session_obeyAll (l : Ledger) (commands : List Session.Command) :
    (l.obeyAll commands).session = l.session.obeyAll commands := by
  induction commands generalizing l with
  | nil => rfl
  | cons c commands ih => exact (ih (l.obey c)).trans (by rw [session_obey]; rfl)

/-- What every command keeps holds at the end of a session. The invariant `P` may speak of the
commands that are left. -/
theorem Balanced.obeyAll_rule {P : Session MemoryStore → List Session.Command → Prop}
    (hstep : ∀ s c rest, Reachable s.store → P s (c :: rest) → P (s.obey c) rest) {l : Ledger}
    (h : l.Balanced) {commands : List Session.Command} (hP : P l.session commands) :
    P (l.session.obeyAll commands) [] := by
  induction commands generalizing l with
  | nil => exact hP
  | cons c commands ih =>
    have hnext := hstep l.session c commands h.reachable hP
    rw [← session_obey] at hnext
    -- the ledger follows the session only to keep its store reachable
    have hrest := ih (h.obey c) hnext
    rwa [session_obey] at hrest

end Ledger

namespace Session

theorem tracked_obeyAll (setting : Setting) (scope : Option Scope) (commands : List Command) :
    ((start setting scope).obeyAll commands).Tracked := by
  have hstart : (start setting scope).Tracked := ⟨⟨.nil, by simp [start]⟩, by simp [start]⟩
  exact (Ledger.start_balanced setting scope).obeyAll_rule (P := fun s _ => s.Tracked)
    (fun s c _ hs h => h.renumbered (renumbered_obey hs c)) hstart

theorem sole_obeyAll {n : UInt64} (hn : n ≠ 0) {setting : Setting} {scope : Option Scope}
    {commands : List Command} (h : everShares n (start setting scope) commands = false) :
    ((start setting scope).obeyAll commands).Sole n := by
  have hnobody : ∀ name, (start setting scope).number name ≠ n := fun name => hn.symm
  have hstart : (start setting scope).Sole n :=
    ⟨fun name _ hname => absurd hname (hnobody name), fun name hname => absurd hname (hnobody name)⟩
  refine ((Ledger.start_balanced setting scope).obeyAll_rule
    (P := fun s rest => s.Sole n ∧ everShares n s rest = false) ?_ ⟨hstart, h⟩).1
  -- the invariant looks ahead: no command that is left shares the number
  rintro s c rest hs ⟨hsole, hever⟩
  obtain ⟨hshares, hrest⟩ := Bool.or_eq_false_iff.mp hever
  exact ⟨hsole.renumbered hn hshares (renumbered_obey hs c), hrest⟩

theorem names_obeyAll (setting : Setting) (scope : Option Scope) (commands : List Command) :
    (((start setting scope).obeyAll commands).programs.map (·.1)).Nodup := by
  have hnames := ((Ledger.start_balanced setting scope).obeyAll commands).names
  rwa [Ledger.session_obeyAll] at hnames

end Session

/-- After any commands on an initially empty store, the store's list of registrations is ascending
without repetition, and it names no number but those, other than 0, that live programs hold. A number
that a live program holds is missing only if it was given to a program while another one held it:
one that was never shared is listed exactly as long as a live program holds it. -/
theorem registrations_tracked (setting : Setting) (scope : Option Scope)
    (commands : List Session.Command) :
    let s := (Session.start setting scope).obeyAll commands
    s.store.liveEquations.Pairwise (· < ·) ∧
      (∀ n ∈ s.store.liveEquations, n ≠ 0 ∧ ∃ p ∈ s.live, p.registration = n) ∧
      ∀ n, Session.everShares n (Session.start setting scope) commands = false →
        (n ∈ s.store.liveEquations ↔ n ≠ 0 ∧ ∃ p ∈ s.live, p.registration = n) := by
  intro s
  have hnames : (s.programs.map (·.1)).Nodup := Session.names_obeyAll setting scope commands
  have htracked : s.Tracked := Session.tracked_obeyAll setting scope commands
  have hheld : ∀ n ∈ s.store.liveEquations, n ≠ 0 ∧ ∃ p ∈ s.live, p.registration = n := by
    intro n hn
    have hzero := htracked.roll.nonzero n hn
    exact ⟨hzero, (Session.exists_number_iff hnames hzero).mp (htracked.held n hn)⟩
  refine ⟨htracked.roll.ascending, hheld, fun n hunshared => ⟨hheld n, ?_⟩⟩
  rintro ⟨hzero, hlive⟩
  obtain ⟨name, hname⟩ := (Session.exists_number_iff hnames hzero).mpr hlive
  exact (Session.sole_obeyAll hzero hunshared).listed name hname

/-- Two programs under numbers of their own and a copy of the one that is released. -/
theorem registrations_tracked_released :
    let commands : List Session.Command :=
      [.compile "p" "1", .compile "q" "2", .register "p" 3, .register "q" 9, .share "p" "r",
        .drop "p"]
    let s := (Session.start {} none).obeyAll commands
    s.live.length = 2 ∧ Session.everShares 9 (Session.start {} none) commands = false ∧
      (9 ∈ s.store.liveEquations ↔ (9 : UInt64) ≠ 0 ∧ ∃ p ∈ s.live, p.registration = 9) := by
  intro commands s
  exact ⟨rfl, rfl, (registrations_tracked {} none commands).2.2 9 rfl⟩

/-- A number that two programs share is forgotten with the first of them, while the second one, which
holds it still, is alive. -/
theorem shared_registration_forgotten :
    let s := (Session.start {} none).obeyAll
      [.compile "p" "1", .compile "q" "2", .register "p" 7, .register "q" 7, .drop "p"]
    (∃ p ∈ s.live, p.registration = 7) ∧ s.store.liveEquations = [] := by
  intro s
  exact ⟨⟨_, .head _, rfl⟩, rfl⟩

end SignalCalc
