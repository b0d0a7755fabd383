import ModeTree.Document.Reader
import ModeTree.Proofs.Machine.Draft
import ModeTree.Proofs.Json.Records
import ModeTree.Proofs.NameTable

/-!
# Declarations that are made again

A draft that has two states with one id does not build, and says so. A text may declare a state or a machine
again: the later declaration counts, and the text means what it would mean without the earlier one, which only
has to be readable (`parse_repeats`).
-/

set_option autoImplicit false

namespace ModeTree

variable {α : Type}

namespace Json

/-! ## Values with a change in one place -/

/-- The second object is the first one without a member whose key comes again behind it. -/
inductive DropsRepeated (value : Json) : Json → Json → Prop where
  | intro {name : String} {before after : List (Option String × Json)} :
      some name ∈ after.map Prod.fst →
        DropsRepeated value (.obj (before ++ (some name, value) :: after)) (.obj (before ++ after))

/-- The second object is the first one with another value for one member. -/
inductive ChangesMember (change : Json → Json → Prop) : Json → Json → Prop where
  | intro {key : Option String} {old new : Json} {before after : List (Option String × Json)} :
      change old new →
        ChangesMember change (.obj (before ++ (key, old) :: after)) (.obj (before ++ (key, new) :: after))

/-- Two records that differ in one field only. They may be written in different ways. -/
inductive ChangesField (fields : List String) (field : String) (change : Json → Json → Prop)
    (v v' : Json) : Prop where
  | intro {row row' : Row} {old new : Json} (hrow : v.row? fields true = some row)
      (hrow' : v'.row? fields true = some row')
      (hothers : ∀ other, other ≠ field → row.find? other = row'.find? other)
      (hold : row.find? field = some old) (hnew : row'.find? field = some new) (hchange : change old new)

/-! ## Reading them -/

/-- A repeated member has to be readable and has no other effect. -/
theorem DropsRepeated.table?_eq {value v v' : Json} (h : DropsRepeated value v v') (read : Json → Option α) :
    table? read v = if (read value).isSome then table? read v' else none := by
  cases h with
  | @intro name before after hname =>
      rw [table?_obj, table?_obj, List.mapM_append, List.mapM_cons, List.mapM_append]
      cases hafter : after.mapM (member? read) with
      | none => cases before.mapM (member? read) <;> cases read value <;> simp [member?]
      | some es =>
          have hmem : name ∈ es.map Prod.fst := by
            rw [keys_of_mapM hafter] at hname
            simpa using hname
          cases before.mapM (member? read) <;> cases hread : read value <;>
            simp [member?, hread, NameTable.ofList_drop hmem]

/-- Where reading a member depends on a condition, reading the table does. -/
theorem ChangesMember.table?_eq {change : Json → Json → Prop} {v v' : Json} (h : ChangesMember change v v')
    {read : Json → Option α} {c : Bool}
    (hread : ∀ old new, change old new → read old = if c then read new else none) :
    table? read v = if c then table? read v' else none := by
  cases h with
  | @intro key old new before after hchange =>
      rw [table?_obj, table?_obj, List.mapM_append, List.mapM_cons, List.mapM_append, List.mapM_cons, member?,
        hread old new hchange]
      cases c with
      | true => rfl
      | false => cases before.mapM (member? read) <;> cases key <;> simp

/-- Where reading a field depends on a condition, reading a record of two fields does. -/
theorem ChangesField.record_eq {fields : List String} {field other : String} {change : Json → Json → Prop}
    {v v' : Json} (h : ChangesField fields field change v v') (hother : other ≠ field) {c : Bool}
    {β γ : Type} {readOther : Json → Option β} {read : Json → Option α} (make : β → α → γ)
    (hread : ∀ old new, change old new → read old = if c then read new else none) :
    (do let row ← v.row? fields true
        return make (← row.required other readOther) (← row.required field read)) =
      if c then
        (do let row ← v'.row? fields true
            return make (← row.required other readOther) (← row.required field read))
      else none := by
  cases h with
  | @intro row row' old new hrow hrow' hothers hold hnew hchange =>
      simp only [hrow, hrow', Row.required, hothers other hother, hold, hnew, Option.bind_eq_bind,
        Option.bind_some, hread old new hchange]
      cases c with
      | true => rfl
      | false => simp

end Json

/-! ## Documents -/

/-- The second document is the first one without a declaration that is made again behind it. The flag tells
whether the declaration left out is readable. -/
inductive Document.Repeats : Json → Json → Bool → Prop where
  | machine {v v' value : Json} :
      Json.ChangesField ["root", "machines"] "machines" (Json.DropsRepeated value) v v' →
        Repeats v v' (MachineEntry.ofJson? value).isSome
  | state {v v' value : Json} :
      Json.ChangesField ["root", "machines"] "machines"
        (Json.ChangesMember (Json.ChangesField ["start", "states"] "states" (Json.DropsRepeated value))) v v' →
        Repeats v v' (StateEntry.ofJson? value).isSome

theorem Document.ofJson?_repeats {v v' : Json} {readable : Bool} (h : Document.Repeats v v' readable) :
    Document.ofJson? v = if readable then Document.ofJson? v' else none := by
  cases h with
  | machine h =>
      apply h.record_eq (by decide) Document.mk
      intro old new hdrops
      exact hdrops.table?_eq MachineEntry.ofJson?
  | state h =>
      apply h.record_eq (by decide) Document.mk
      intro machines machines' hmember
      apply hmember.table?_eq
      intro entry entry' hentry
      apply hentry.record_eq (by decide) MachineEntry.mk
      intro states states' hdrops
      exact hdrops.table?_eq StateEntry.ofJson?

/-! ## Documents with one repetition -/

namespace Document

/-- A document with the given machines. -/
def written (machines : List (String × Json)) : Json :=
  .record [("root", .text "m"), ("machines", .record machines)]

/-- A machine with the given states. -/
def writtenMachine (states : List (String × Json)) : Json :=
  .record [("start", .text "a"), ("states", .record states)]

/-- A state with an action on entry. -/
def writtenState (action : String) : Json := .record [("enter", .texts [action])]

/-- Each is declared once. -/
def once : String :=
  "\x7b\"root\":\"m\",\"machines\":\x7b\"m\":\x7b\"start\":\"a\",\"states\":\x7b\"a\":\x7b\"enter\":[\"two\"]\x7d\x7d\x7d\x7d\x7d"

/-- The state is declared twice. -/
def stateTwice : String :=
  "\x7b\"root\":\"m\",\"machines\":\x7b\"m\":\x7b\"start\":\"a\",\"states\":\x7b\"a\":\x7b\"enter\":[\"one\"]\x7d,\"a\":\x7b\"enter\":[\"two\"]\x7d\x7d\x7d\x7d\x7d"

/-- The machine is declared twice. -/
def machineTwice : String :=
  "\x7b\"root\":\"m\",\"machines\":\x7b\"m\":\x7b\"start\":\"a\",\"states\":\x7b\"a\":\x7b\"enter\":[\"one\"]\x7d\x7d\x7d,\"m\":\x7b\"start\":\"a\",\"states\":\x7b\"a\":\x7b\"enter\":[\"two\"]\x7d\x7d\x7d\x7d\x7d"

theorem parse_once :
    Json.parse once = some (written [("m", writtenMachine [("a", writtenState "two")])]) := by
  rfl

theorem parse_stateTwice :
    Json.parse stateTwice =
      some (written [("m", writtenMachine [("a", writtenState "one"), ("a", writtenState "two")])]) := by
  rfl

set_option maxRecDepth 1000 in
theorem parse_machineTwice :
    Json.parse machineTwice =
      some (written [("m", writtenMachine [("a", writtenState "one")]),
        ("m", writtenMachine [("a", writtenState "two")])]) := by
  rfl

theorem changesField_written {change : Json → Json → Prop} {machines machines' : List (String × Json)}
    (h : change (.record machines) (.record machines')) :
    Json.ChangesField ["root", "machines"] "machines" change (written machines) (written machines') :=
  .intro rfl rfl (fun other hother => by simp [Json.Row.find?, NameTable.findEntry, hother.symm]) rfl rfl h

theorem changesField_writtenMachine {change : Json → Json → Prop} {states states' : List (String × Json)}
    (h : change (.record states) (.record states')) :
    Json.ChangesField ["start", "states"] "states" change (writtenMachine states) (writtenMachine states') :=
  .intro rfl rfl (fun other hother => by simp [Json.Row.find?, NameTable.findEntry, hother.symm]) rfl rfl h

/-- The first of two states is left out. -/
theorem repeats_stateTwice :
    Document.Repeats
      (written [("m", writtenMachine [("a", writtenState "one"), ("a", writtenState "two")])])
      (written [("m", writtenMachine [("a", writtenState "two")])]) true := by
  have hdrops : Json.DropsRepeated (writtenState "one")
      (.record [("a", writtenState "one"), ("a", writtenState "two")])
      (.record [("a", writtenState "two")]) :=
    @Json.DropsRepeated.intro _ _ [] _ List.mem_cons_self
  have hmember : Json.ChangesMember
      (Json.ChangesField ["start", "states"] "states" (Json.DropsRepeated (writtenState "one")))
      (.record [("m", writtenMachine [("a", writtenState "one"), ("a", writtenState "two")])])
      (.record [("m", writtenMachine [("a", writtenState "two")])]) :=
    @Json.ChangesMember.intro _ _ _ _ [] [] (changesField_writtenMachine hdrops)
  exact .state (changesField_written hmember)

/-- The first of two machines is left out. -/
theorem repeats_machineTwice :
    Document.Repeats
      (written [("m", writtenMachine [("a", writtenState "one")]),
        ("m", writtenMachine [("a", writtenState "two")])])
      (written [("m", writtenMachine [("a", writtenState "two")])]) true := by
  have hdrops : Json.DropsRepeated (writtenMachine [("a", writtenState "one")])
      (.record [("m", writtenMachine [("a", writtenState "one")]),
        ("m", writtenMachine [("a", writtenState "two")])])
      (.record [("m", writtenMachine [("a", writtenState "two")])]) :=
    @Json.DropsRepeated.intro _ _ [] _ List.mem_cons_self
  exact .machine (changesField_written hdrops)

end Document

/-- Two states have one id. -/
def MachineDraft.twice : MachineDraft :=
  ⟨"m", some "a", [
    ⟨"a", ["one"], [], [], [], .inherit, none⟩,
    ⟨"a", ["two"], [], [], [], .inherit, none⟩], 16⟩

/-! ## Drafts and texts -/

/-- A draft with an id that stands more than once does not build, and the id is reported. -/
theorem MachineDraft.build_repeated {d : MachineDraft} {id : String} (h : 2 ≤ d.ids.count id) :
    ∃ defects, d.build = .error defects ∧ .duplicateState d.name id ∈ defects := by
  have hmem : Defect.duplicateState d.name id ∈ d.defects :=
    (d.mem_defects_iff _).2 (.inr (.inr (.inl ⟨id, h, rfl⟩)))
  exact ⟨d.defects, (d.build_eq_error_iff _).2 ⟨rfl, List.ne_nil_of_mem hmem⟩, hmem⟩

namespace MachineSet

/-- What is declared again is lost, or makes the text malformed. -/
theorem parse_of_repeats {s s' : String} {v v' : Json} {readable : Bool} (hs : Json.parse s = some v)
    (hs' : Json.parse s' = some v') (h : Document.Repeats v v' readable) (config : Config) :
    MachineSet.parse s config = if readable then MachineSet.parse s' config else .error .malformed := by
  simp only [MachineSet.parse, hs, hs', Option.bind_some, Document.ofJson?_repeats h]
  cases readable <;> rfl

/-- A text gives the machines of its document, if they load. -/
theorem parse_eq_ok_iff {s : String} {v : Json} (hs : Json.parse s = some v) (config : Config)
    (set : MachineSet) :
    MachineSet.parse s config = .ok set ↔
      ∃ d, Document.ofJson? v = some d ∧ d.load config.maxDepth = .ok set := by
  simp only [MachineSet.parse, hs, Option.bind_some]
  cases Document.ofJson? v with
  | none => simp
  | some d => cases hload : d.load config.maxDepth <;> simp [hload]

/-- A text in which a declaration is made again loads exactly when it would load without the earlier one,
and that one can be read. It is loaded as the text without it then, and is malformed if the earlier declaration
cannot be read. A draft with a repeated id does not build. -/
theorem parse_repeats (s : String) {v v' : Json} {readable : Bool} (hs : Json.parse s = some v)
    (h : Document.Repeats v v' readable) (config : Config) :
    (∀ set, MachineSet.parse s config = .ok set ↔
      readable = true ∧ ∃ d, Document.ofJson? v' = some d ∧ d.load config.maxDepth = .ok set) ∧
    (∀ s', Json.parse s' = some v' →
      MachineSet.parse s config = if readable then MachineSet.parse s' config else .error .malformed) ∧
    ∀ (d : MachineDraft) (id : String), 2 ≤ d.ids.count id →
      ∃ defects, d.build = .error defects ∧ .duplicateState d.name id ∈ defects := by
  refine ⟨?_, ?_, ?_⟩
  · intro set
    rw [parse_eq_ok_iff hs, Document.ofJson?_repeats h]
    cases readable <;> simp
  · intro s' hs'
    exact parse_of_repeats hs hs' h config
  · intro d id hcount
    exact MachineDraft.build_repeated hcount

/-- A state and a machine that are declared twice in a text are loaded as if they were declared once, while
a draft with two states of one id fails. -/
theorem parse_repeats_twice :
    (∃ v v', Json.parse Document.stateTwice = some v ∧ Json.parse Document.once = some v' ∧
      Document.Repeats v v' true ∧
      MachineSet.parse Document.stateTwice {} = MachineSet.parse Document.once {}) ∧
    (∃ v v', Json.parse Document.machineTwice = some v ∧ Json.parse Document.once = some v' ∧
      Document.Repeats v v' true ∧
      MachineSet.parse Document.machineTwice {} = MachineSet.parse Document.once {}) ∧
    2 ≤ MachineDraft.twice.ids.count "a" ∧
      ∃ defects, MachineDraft.twice.build = .error defects ∧ .duplicateState "m" "a" ∈ defects := by
  obtain ⟨-, hstate, hbuild⟩ :=
    parse_repeats _ Document.parse_stateTwice Document.repeats_stateTwice {}
  obtain ⟨-, hmachine, -⟩ :=
    parse_repeats _ Document.parse_machineTwice Document.repeats_machineTwice {}
  have hcount : 2 ≤ MachineDraft.twice.ids.count "a" := by decide
  exact ⟨⟨_, _, Document.parse_stateTwice, Document.parse_once, Document.repeats_stateTwice,
      hstate _ Document.parse_once⟩,
    ⟨_, _, Document.parse_machineTwice, Document.parse_once, Document.repeats_machineTwice,
      hmachine _ Document.parse_once⟩,
    hcount, hbuild MachineDraft.twice "a" hcount⟩

/-- A text may declare a state twice, or a machine, and load all the same. There is no trace then of the
first of the two declarations. -/
theorem repetition_loads :
    (∃ v v' set, Json.parse Document.stateTwice = some v ∧ Document.Repeats v v' true ∧
      MachineSet.parse Document.stateTwice {} = .ok set ∧ set.root.states.map (·.enter) = [["two"]]) ∧
    ∃ v v' set, Json.parse Document.machineTwice = some v ∧ Document.Repeats v v' true ∧
      MachineSet.parse Document.machineTwice {} = .ok set ∧ set.root.states.map (·.enter) = [["two"]] := by
  obtain ⟨set, hset, henter⟩ : ∃ set, MachineSet.parse Document.once {} = .ok set ∧
      set.root.states.map (·.enter) = [["two"]] := by
    rw [MachineSet.parse, Document.parse_once]
    exact ⟨_, rfl, rfl⟩
  have hstate := parse_of_repeats Document.parse_stateTwice Document.parse_once
    Document.repeats_stateTwice {}
  have hmachine := parse_of_repeats Document.parse_machineTwice Document.parse_once
    Document.repeats_machineTwice {}
  rw [if_pos rfl, hset] at hstate hmachine
  exact ⟨⟨_, _, set, Document.parse_stateTwice, Document.repeats_stateTwice, hstate, henter⟩,
    _, _, set, Document.parse_machineTwice, Document.repeats_machineTwice, hmachine, henter⟩

end MachineSet

end ModeTree
