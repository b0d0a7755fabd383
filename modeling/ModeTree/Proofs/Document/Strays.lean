import ModeTree.Proofs.Document.Repetition
import ModeTree.Proofs.Json.Keys

/-!
# Keys that are no fields

A document that is written with objects has a record for itself, for each machine, for each state, for each
transition and for each hint that a state shows (`Document.HasRecord`). A key that is no field of its record makes
the text malformed, wherever the record stands, unless the record is a hint: hints are open records, and a key
that is no field of a hint has no effect (`MachineSet.parse_strays`).
-/

set_option autoImplicit false

namespace ModeTree

open Json

/-- The kinds of records in a document. -/
inductive RecordKind where
  | document
  | machine
  | state
  | transition
  | hint
  deriving DecidableEq

namespace RecordKind

/-- The names of the fields of a record of the kind. -/
def fields : RecordKind → List String
  | document => ["root", "machines"]
  | machine => ["start", "states"]
  | state => ["enter", "exit", "sub_machines", "hint", "description", "transitions"]
  | transition => ["to", "action", "also", "on", "label", "help"]
  | hint => ["label", "help_text"]

/-- The value is read as a record of the kind. -/
def IsRead : RecordKind → Json → Prop
  | document, v => ∃ d, Document.ofJson? v = some d
  | machine, v => ∃ m, MachineEntry.ofJson? v = some m
  | state, v => ∃ s, StateEntry.ofJson? v = some s
  | transition, v => ∃ t, TransitionEntry.ofJson? v = some t
  | hint, v => ∃ h, Hint.ofJson? v = some h

/-- Of the records that can be read, only hints may have keys that are no fields. -/
theorem exists_field_of_isRead {kind : RecordKind} (hclosed : kind ≠ hint)
    {members : List (Option String × Json)} (h : kind.IsRead (.obj members)) {key : Option String}
    (hkey : key ∈ members.map Prod.fst) : ∃ field ∈ kind.fields, key = some field := by
  have hrow : ∃ row, (obj members).row? kind.fields true = some row := by
    cases kind with
    | hint => exact absurd rfl hclosed
    | _ =>
        obtain ⟨_, h⟩ := h
        obtain ⟨row, hrow, -⟩ := Option.bind_eq_some_iff.1 h
        exact ⟨row, hrow⟩
  obtain ⟨row, hrow⟩ := hrow
  exact exists_field_of_row? hrow hkey

end RecordKind

/-- What is read of a state under two of its fields. -/
theorem StateEntry.fields_of_ofJson? {v : Json} {s : StateEntry} (h : StateEntry.ofJson? v = some s) :
    ∃ row, v.row? RecordKind.state.fields true = some row ∧
      row.defaulted "hint" HintMode.ofJson? .inherit = some s.hint ∧
      row.defaulted "transitions" (list? TransitionEntry.ofJson?) [] = some s.transitions := by
  simp only [StateEntry.ofJson?, Option.bind_eq_bind, Option.bind_eq_some_iff, Option.pure_def] at h
  obtain ⟨row, hrow, enter, -, exit, -, subs, -, hint, hhint, description, -, transitions, htransitions, heq⟩ := h
  obtain rfl := Option.some.inj heq
  exact ⟨row, hrow, hhint, htransitions⟩

namespace Document

/-- A record of a document that is written with objects. -/
inductive HasRecord (v : Json) : RecordKind → Json → Prop where
  | document : HasRecord v .document v
  | machine {members machines : List (Option String × Json)} {key : Option String} {r : Json}
      (h : HasRecord v .document (.obj members)) (hmachines : (some "machines", .obj machines) ∈ members)
      (hmem : (key, r) ∈ machines) : HasRecord v .machine r
  | state {members states : List (Option String × Json)} {key : Option String} {r : Json}
      (h : HasRecord v .machine (.obj members)) (hstates : (some "states", .obj states) ∈ members)
      (hmem : (key, r) ∈ states) : HasRecord v .state r
  | transition {members : List (Option String × Json)} {transitions : List Json} {r : Json}
      (h : HasRecord v .state (.obj members)) (htransitions : (some "transitions", .arr transitions) ∈ members)
      (hmem : r ∈ transitions) : HasRecord v .transition r
  | hint {members : List (Option String × Json)} {r : Json} (h : HasRecord v .state (.obj members))
      (hhint : (some "hint", .obj [(some "show", r)]) ∈ members) : HasRecord v .hint r

/-- When a document can be read, each of its records can. -/
theorem HasRecord.isRead {v : Json} {kind : RecordKind} {r : Json} (h : HasRecord v kind r)
    (hv : RecordKind.document.IsRead v) : kind.IsRead r := by
  induction h with
  | document => exact hv
  | machine _ hmachines hmem ih =>
      obtain ⟨d, hd⟩ := ih
      obtain ⟨row, hrow, hd⟩ := Option.bind_eq_some_iff.1 hd
      obtain ⟨root, -, hd⟩ := Option.bind_eq_some_iff.1 hd
      obtain ⟨t, ht, -⟩ := Option.bind_eq_some_iff.1 hd
      rw [Row.required, find?_of_row? hrow hmachines (by decide)] at ht
      exact exists_of_mem_table? ht hmem
  | state _ hstates hmem ih =>
      obtain ⟨m, hm⟩ := ih
      obtain ⟨row, hrow, hm⟩ := Option.bind_eq_some_iff.1 hm
      obtain ⟨start, -, hm⟩ := Option.bind_eq_some_iff.1 hm
      obtain ⟨t, ht, -⟩ := Option.bind_eq_some_iff.1 hm
      rw [Row.required, find?_of_row? hrow hstates (by decide)] at ht
      exact exists_of_mem_table? ht hmem
  | transition _ htransitions hmem ih =>
      obtain ⟨s, hs⟩ := ih
      obtain ⟨row, hrow, -, hread⟩ := StateEntry.fields_of_ofJson? hs
      rw [Row.defaulted, find?_of_row? hrow htransitions (by decide)] at hread
      exact exists_of_mem_mapM hread hmem
  | hint _ hhint ih =>
      obtain ⟨s, hs⟩ := ih
      obtain ⟨row, hrow, hread, -⟩ := StateEntry.fields_of_ofJson? hs
      rw [Row.defaulted, find?_of_row? hrow hhint (by decide)] at hread
      obtain ⟨hint, hshown, -⟩ := Option.map_eq_some_iff.1 hread
      exact ⟨hint, hshown⟩

/-! ## Keys that are no fields of hints -/

/-- A state with none of the keys that are no fields of the hint that it shows. -/
def dropStateStrays : Json → Json := mapMember "hint" (mapMember "show" (dropStrays RecordKind.hint.fields))

/-- A machine in whose states the hints have none of these keys. -/
def dropMachineStrays : Json → Json := mapMember "states" (mapMembers dropStateStrays)

/-- A document with none of the keys that are no fields of the hints in it. -/
def dropHintStrays : Json → Json := mapMember "machines" (mapMembers dropMachineStrays)

/-- What stands in the document then are records without such keys. -/
theorem HasRecord.of_dropHintStrays {v : Json} {kind : RecordKind} {r : Json}
    (h : HasRecord (dropHintStrays v) kind r) :
    match kind with
    | .document => r = dropHintStrays v
    | .machine => ∃ m, r = dropMachineStrays m
    | .state => ∃ s, r = dropStateStrays s
    | .transition => True
    | .hint => ∃ hint, r = dropStrays RecordKind.hint.fields hint := by
  induction h with
  | document => rfl
  | machine _ hmachines hmem ih =>
      obtain ⟨x, hx⟩ := eq_of_mem_mapMember ih.symm hmachines
      exact eq_of_mem_mapMembers hx.symm hmem
  | state _ hstates hmem ih =>
      obtain ⟨m, hm⟩ := ih
      obtain ⟨x, hx⟩ := eq_of_mem_mapMember hm.symm hstates
      exact eq_of_mem_mapMembers hx.symm hmem
  | transition => trivial
  | hint _ hhint ih =>
      obtain ⟨s, hs⟩ := ih
      obtain ⟨x, hx⟩ := eq_of_mem_mapMember hs.symm hhint
      exact eq_of_mem_mapMember hx.symm List.mem_cons_self

/-- No hint has a key left that is no field. -/
theorem mem_fields_of_dropHintStrays {v : Json} {members : List (Option String × Json)}
    (h : HasRecord (dropHintStrays v) .hint (.obj members)) {name : String}
    (hname : some name ∈ members.map Prod.fst) : name ∈ RecordKind.hint.fields := by
  obtain ⟨hint, hhint⟩ := h.of_dropHintStrays
  exact mem_of_dropStrays hhint.symm hname

end Document

theorem Hint.ofJson?_dropStrays (v : Json) :
    Hint.ofJson? (dropStrays RecordKind.hint.fields v) = Hint.ofJson? v := by
  have hfields : ["label", "help_text"] = RecordKind.hint.fields := rfl
  rw [Hint.ofJson?, Hint.ofJson?, hfields, row?_dropStrays]

/-- A choice is read as before when its payload is. -/
theorem HintMode.ofJson?_mapMember {f : Json → Json} (h : ∀ v, Hint.ofJson? (f v) = Hint.ofJson? v) (v : Json) :
    HintMode.ofJson? (mapMember "show" f v) = HintMode.ofJson? v := by
  cases v with
  | obj members =>
      rcases members with _ | ⟨⟨_ | name, payload⟩, _ | ⟨m, members⟩⟩
      · rfl
      · rfl
      · rfl
      · by_cases hname : name = "show"
        · subst hname
          simp [mapMember, HintMode.ofJson?, choice?, h]
        · simp [mapMember, hname]
      · rfl
  | _ => rfl

theorem StateEntry.ofJson?_mapMember {f : Json → Json} (h : ∀ v, HintMode.ofJson? (f v) = HintMode.ofJson? v)
    (v : Json) : StateEntry.ofJson? (mapMember "hint" f v) = StateEntry.ofJson? v := by
  cases v with
  | obj members =>
      rw [StateEntry.ofJson?, StateEntry.ofJson?, row?_mapMember]
      cases (obj members).row? ["enter", "exit", "sub_machines", "hint", "description", "transitions"] true with
      | none => rfl
      | some row => simp [Row.defaulted_mapCell, h]
  | _ => rfl

theorem MachineEntry.ofJson?_mapMember {f : Json → Json}
    (h : ∀ v, table? StateEntry.ofJson? (f v) = table? StateEntry.ofJson? v) (v : Json) :
    MachineEntry.ofJson? (mapMember "states" f v) = MachineEntry.ofJson? v := by
  cases v with
  | obj members =>
      rw [MachineEntry.ofJson?, MachineEntry.ofJson?, row?_mapMember]
      cases (obj members).row? ["start", "states"] true with
      | none => rfl
      | some row => simp [Row.required_mapCell, h]
  | _ => rfl

namespace Document

theorem ofJson?_mapMember {f : Json → Json}
    (h : ∀ v, table? MachineEntry.ofJson? (f v) = table? MachineEntry.ofJson? v) (v : Json) :
    Document.ofJson? (mapMember "machines" f v) = Document.ofJson? v := by
  cases v with
  | obj members =>
      rw [Document.ofJson?, Document.ofJson?, row?_mapMember]
      cases (obj members).row? ["root", "machines"] true with
      | none => rfl
      | some row => simp [Row.required_mapCell, h]
  | _ => rfl

/-- A document is read as if there were none of the keys that are no fields of its hints. -/
theorem ofJson?_dropHintStrays (v : Json) : Document.ofJson? (dropHintStrays v) = Document.ofJson? v := by
  have hstate := StateEntry.ofJson?_mapMember (HintMode.ofJson?_mapMember Hint.ofJson?_dropStrays)
  have hmachine := MachineEntry.ofJson?_mapMember (table?_mapMembers hstate)
  exact ofJson?_mapMember (table?_mapMembers hmachine) v

/-! ## A misspelled key in a hint -/

/-- A state shows a hint whose help is written under a key that is no field. -/
def misspelledHint : String :=
  "\x7b\"root\":\"m\",\"machines\":\x7b\"m\":\x7b\"start\":\"a\",\"states\":\x7b\"a\":\x7b\"hint\":\x7b\"show\":\x7b\"help_txt\":\"Use the mouse\"\x7d\x7d\x7d\x7d\x7d\x7d\x7d"

/-- The help is a key of a state that is no field. -/
def misspelledState : String :=
  "\x7b\"root\":\"m\",\"machines\":\x7b\"m\":\x7b\"start\":\"a\",\"states\":\x7b\"a\":\x7b\"help_txt\":\"Use the mouse\"\x7d\x7d\x7d\x7d\x7d"

/-- The hint is empty. -/
def emptyHint : String :=
  "\x7b\"root\":\"m\",\"machines\":\x7b\"m\":\x7b\"start\":\"a\",\"states\":\x7b\"a\":\x7b\"hint\":\x7b\"show\":\x7b\x7d\x7d\x7d\x7d\x7d\x7d\x7d"

/-- A state with a hint. -/
def writtenHint (cells : List (String × Json)) : Json := .record [("hint", .record [("show", .record cells)])]

set_option maxRecDepth 1000 in
theorem parse_misspelledHint :
    Json.parse misspelledHint =
      some (written [("m", writtenMachine [("a", writtenHint [("help_txt", .text "Use the mouse")])])]) := by
  rfl

set_option maxRecDepth 1000 in
theorem parse_misspelledState :
    Json.parse misspelledState =
      some (written [("m", writtenMachine [("a", .record [("help_txt", .text "Use the mouse")])])]) := by
  rfl

theorem parse_emptyHint :
    Json.parse emptyHint = some (written [("m", writtenMachine [("a", writtenHint [])])]) := by
  rfl

theorem hasRecord_state (state : Json) :
    HasRecord (written [("m", writtenMachine [("a", state)])]) .state state := by
  have hmachine : HasRecord (written [("m", writtenMachine [("a", state)])]) .machine
      (writtenMachine [("a", state)]) :=
    .machine .document (List.mem_cons_of_mem _ List.mem_cons_self) List.mem_cons_self
  exact .state hmachine (List.mem_cons_of_mem _ List.mem_cons_self) List.mem_cons_self

end Document

namespace MachineSet

/-- A key that is no field of its record makes a text malformed, unless the record is a hint. Keys that are no
fields of hints have no effect: the text loads as the same text without them, in which no hint has such keys. -/
theorem parse_strays {s : String} {v : Json} (hs : Json.parse s = some v) (config : Config) :
    (∀ (kind : RecordKind) (members : List (Option String × Json)) (key : Option String),
      Document.HasRecord v kind (.obj members) → key ∈ members.map Prod.fst →
        (∀ field ∈ kind.fields, key ≠ some field) → kind ≠ .hint →
          MachineSet.parse s config = .error .malformed) ∧
    (∀ set, MachineSet.parse s config = .ok set ↔
      ∃ d, Document.ofJson? (Document.dropHintStrays v) = some d ∧ d.load config.maxDepth = .ok set) ∧
    (∀ s', Json.parse s' = some (Document.dropHintStrays v) →
      MachineSet.parse s config = MachineSet.parse s' config) ∧
    ∀ (members : List (Option String × Json)) (name : String),
      Document.HasRecord (Document.dropHintStrays v) .hint (.obj members) →
        some name ∈ members.map Prod.fst → name ∈ RecordKind.hint.fields := by
  refine ⟨?_, ?_, ?_, ?_⟩
  · intro kind members key hrecord hkey hstray hclosed
    have hnone : Document.ofJson? v = none := by
      rw [Option.eq_none_iff_forall_ne_some]
      intro d hd
      obtain ⟨field, hfield, hname⟩ := RecordKind.exists_field_of_isRead hclosed (hrecord.isRead ⟨d, hd⟩) hkey
      exact hstray field hfield hname
    simp only [MachineSet.parse, hs, Option.bind_some, hnone]
  · intro set
    rw [parse_eq_ok_iff hs, Document.ofJson?_dropHintStrays]
  · intro s' hs'
    simp only [MachineSet.parse, hs, hs', Option.bind_some, Document.ofJson?_dropHintStrays]
  · intro members name hrecord hname
    exact Document.mem_fields_of_dropHintStrays hrecord hname

/-- A key that is no field of a state makes the text malformed; the same key in a hint is skipped. -/
theorem parse_strays_misspelled :
    (∃ v members, Json.parse Document.misspelledState = some v ∧ Document.HasRecord v .state (.obj members) ∧
      some "help_txt" ∈ members.map Prod.fst ∧ (∀ field ∈ RecordKind.state.fields, some "help_txt" ≠ some field) ∧
      RecordKind.state ≠ .hint ∧ MachineSet.parse Document.misspelledState {} = .error .malformed) ∧
    ∃ v, Json.parse Document.misspelledHint = some v ∧
      Json.parse Document.emptyHint = some (Document.dropHintStrays v) ∧
      MachineSet.parse Document.misspelledHint {} = MachineSet.parse Document.emptyHint {} := by
  obtain ⟨hstate, -⟩ := parse_strays Document.parse_misspelledState {}
  obtain ⟨-, -, hhint, -⟩ := parse_strays Document.parse_misspelledHint {}
  have hrecord := Document.hasRecord_state (.record [("help_txt", .text "Use the mouse")])
  have hkey : some "help_txt" ∈ [some "help_txt"] := List.mem_singleton_self _
  have hstray : ∀ field ∈ RecordKind.state.fields, some "help_txt" ≠ some field := by decide
  have hclosed : RecordKind.state ≠ .hint := by decide
  exact ⟨⟨_, _, Document.parse_misspelledState, hrecord, hkey, hstray, hclosed,
      hstate .state _ _ hrecord hkey hstray hclosed⟩,
    _, Document.parse_misspelledHint, Document.parse_emptyHint, hhint _ Document.parse_emptyHint⟩

/-- A text with a key that is no field of a hint may load, without what stands under that key. -/
theorem misspelledHint_loads :
    ∃ v members set, Json.parse Document.misspelledHint = some v ∧ Document.HasRecord v .hint (.obj members) ∧
      some "help_txt" ∈ members.map Prod.fst ∧ (∀ field ∈ RecordKind.hint.fields, some "help_txt" ≠ some field) ∧
      MachineSet.parse Document.misspelledHint {} = .ok set ∧
      set.root.states.map (·.hintMode) = [.shown .empty] := by
  obtain ⟨set, hset, hshown⟩ : ∃ set, MachineSet.parse Document.misspelledHint {} = .ok set ∧
      set.root.states.map (·.hintMode) = [.shown .empty] := by
    rw [MachineSet.parse, Document.parse_misspelledHint]
    exact ⟨_, rfl, rfl⟩
  have hrecord := Document.hasRecord_state (Document.writtenHint [("help_txt", .text "Use the mouse")])
  exact ⟨_, _, set, Document.parse_misspelledHint, .hint hrecord List.mem_cons_self, List.mem_singleton_self _,
    by decide, hset, hshown⟩

end MachineSet

end ModeTree
