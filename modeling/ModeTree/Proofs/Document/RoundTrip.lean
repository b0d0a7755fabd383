import ModeTree.Config
import ModeTree.Document.Reader
import ModeTree.Proofs.Json.Records

/-!
# Documents, views and configurations are read back

Each record that is written is read as it was: every field is found with the value that was written for it, and
a field that was left out has the default that it was left out for. So a document, a view and a configuration
are read back from their texts (`texts_readBack`).
-/

set_option autoImplicit false

namespace ModeTree

open Json

theorem legible_text (s : String) : (text s).Legible := .str s

theorem text_ne_null (s : String) : text s ≠ .null := nofun

theorem isReadAs_texts (ss : List String) : IsReadAs (list? string?) (texts ss) ss :=
  isReadAs_list isReadAs_text ss

/-! ## Hints -/

namespace Label

theorem toJson_ne_null (l : Label) : l.toJson ≠ .null := nofun

theorem isReadAs (l : Label) : IsReadAs ofJson? l.toJson l :=
  ⟨(isReadAs_texts [l.category, l.action]).legible, rfl⟩

theorem legible (l : Label) : l.toJson.Legible := l.isReadAs.legible

end Label

namespace Hint

/-- The fields of a hint that are written. -/
def cells (h : Hint) : List (String × Json) :=
  present "label" Label.toJson h.label ++ present "help_text" text h.helpText

theorem writtenAs_cells (h : Hint) : WrittenAs ["label", "help_text"] h.cells := by
  have hwritten := (WrittenAs.nil.present "help_text" legible_text h.helpText).present "label" Label.legible
    h.label
  simpa [cells] using hwritten

theorem isReadAs (h : Hint) : IsReadAs ofJson? h.toJson h := by
  have hlabel : Row.defaulted ⟨false, h.cells⟩ "label" (nullable? Label.ofJson?) none = some h.label :=
    Row.defaulted_present (by simp [cells]) Label.isReadAs Label.toJson_ne_null
  have hhelp : Row.defaulted ⟨false, h.cells⟩ "help_text" (nullable? string?) none = some h.helpText :=
    Row.defaulted_present (by simp [cells]) isReadAs_text text_ne_null
  refine ⟨legible_record h.writtenAs_cells.legible, ?_⟩
  rw [show h.toJson = .record h.cells from rfl, ofJson?, h.writtenAs_cells.row?_eq (by decide)]
  simp [hlabel, hhelp]

end Hint

theorem HintMode.isReadAs (m : HintMode) : IsReadAs HintMode.ofJson? m.toJson m := by
  cases m with
  | inherit => exact ⟨.str _, rfl⟩
  | hidden => exact ⟨.str _, rfl⟩
  | shown hint =>
      refine ⟨legible_record (by simpa using (Hint.isReadAs hint).legible), ?_⟩
      simp [toJson, record, ofJson?, choice?, (Hint.isReadAs hint).decode_eq]

/-! ## Documents -/

namespace TransitionEntry

/-- The fields of a transition that are written. -/
def cells (t : TransitionEntry) : List (String × Json) :=
  present "to" text t.target ++ present "action" text t.action ++ unlessEmpty "also" (t.also.map text) ++
    [("on", texts t.on)] ++ present "label" Label.toJson t.label ++ present "help" text t.help

theorem writtenAs_cells (t : TransitionEntry) :
    WrittenAs ["to", "action", "also", "on", "label", "help"] t.cells := by
  have hlabel := (WrittenAs.nil.present "help" legible_text t.help).present "label" Label.legible t.label
  have halso := (hlabel.cons "on" (isReadAs_texts t.on).legible).unlessEmpty "also"
    (isReadAs_texts t.also).legible
  have hto := (halso.present "action" legible_text t.action).present "to" legible_text t.target
  simpa [cells, texts] using hto

theorem isReadAs (t : TransitionEntry) : IsReadAs ofJson? t.toJson t := by
  have hto : Row.defaulted ⟨false, t.cells⟩ "to" (nullable? string?) none = some t.target :=
    Row.defaulted_present (by simp [cells]) isReadAs_text text_ne_null
  have haction : Row.defaulted ⟨false, t.cells⟩ "action" (nullable? string?) none = some t.action :=
    Row.defaulted_present (by simp [cells]) isReadAs_text text_ne_null
  have halso : Row.defaulted ⟨false, t.cells⟩ "also" (list? string?) [] = some t.also :=
    Row.defaulted_unlessEmpty (by simp [cells]) isReadAs_text
  have hon : Row.defaulted ⟨false, t.cells⟩ "on" (list? string?) [] = some t.on :=
    Row.defaulted_eq (by simp [cells]) (isReadAs_texts t.on)
  have hlabel : Row.defaulted ⟨false, t.cells⟩ "label" (nullable? Label.ofJson?) none = some t.label :=
    Row.defaulted_present (by simp [cells]) Label.isReadAs Label.toJson_ne_null
  have hhelp : Row.defaulted ⟨false, t.cells⟩ "help" (nullable? string?) none = some t.help :=
    Row.defaulted_present (by simp [cells]) isReadAs_text text_ne_null
  refine ⟨legible_record t.writtenAs_cells.legible, ?_⟩
  rw [show t.toJson = .record t.cells from rfl, ofJson?, t.writtenAs_cells.row?_eq (by decide)]
  simp [hto, haction, halso, hon, hlabel, hhelp]

end TransitionEntry

namespace StateEntry

/-- The fields of a state that are written. -/
def cells (s : StateEntry) : List (String × Json) :=
  unlessEmpty "enter" (s.enter.map text) ++ unlessEmpty "exit" (s.exit.map text) ++
    unlessEmpty "sub_machines" (s.subMachines.map text) ++ [("hint", s.hint.toJson)] ++
    present "description" text s.description ++
    unlessEmpty "transitions" (s.transitions.map TransitionEntry.toJson)

theorem writtenAs_cells (s : StateEntry) :
    WrittenAs ["enter", "exit", "sub_machines", "hint", "description", "transitions"] s.cells := by
  have htransitions := (isReadAs_list TransitionEntry.isReadAs s.transitions).legible
  have hdescription := (WrittenAs.nil.unlessEmpty "transitions" htransitions).present "description" legible_text
    s.description
  have hsub := (hdescription.cons "hint" s.hint.isReadAs.legible).unlessEmpty "sub_machines"
    (isReadAs_texts s.subMachines).legible
  have henter := (hsub.unlessEmpty "exit" (isReadAs_texts s.exit).legible).unlessEmpty "enter"
    (isReadAs_texts s.enter).legible
  simpa [cells, texts] using henter

theorem isReadAs (s : StateEntry) : IsReadAs ofJson? s.toJson s := by
  have henter : Row.defaulted ⟨false, s.cells⟩ "enter" (list? string?) [] = some s.enter :=
    Row.defaulted_unlessEmpty (by simp [cells]) isReadAs_text
  have hexit : Row.defaulted ⟨false, s.cells⟩ "exit" (list? string?) [] = some s.exit :=
    Row.defaulted_unlessEmpty (by simp [cells]) isReadAs_text
  have hsub : Row.defaulted ⟨false, s.cells⟩ "sub_machines" (list? string?) [] = some s.subMachines :=
    Row.defaulted_unlessEmpty (by simp [cells]) isReadAs_text
  have hhint : Row.defaulted ⟨false, s.cells⟩ "hint" HintMode.ofJson? .inherit = some s.hint :=
    Row.defaulted_eq (by simp [cells]) s.hint.isReadAs
  have hdescription : Row.defaulted ⟨false, s.cells⟩ "description" (nullable? string?) none =
      some s.description :=
    Row.defaulted_present (by simp [cells]) isReadAs_text text_ne_null
  have htransitions : Row.defaulted ⟨false, s.cells⟩ "transitions" (list? TransitionEntry.ofJson?) [] =
      some s.transitions :=
    Row.defaulted_unlessEmpty (by simp [cells]) TransitionEntry.isReadAs
  refine ⟨legible_record s.writtenAs_cells.legible, ?_⟩
  rw [show s.toJson = .record s.cells from rfl, ofJson?, s.writtenAs_cells.row?_eq (by decide)]
  simp [henter, hexit, hsub, hhint, hdescription, htransitions]

end StateEntry

theorem MachineEntry.isReadAs (m : MachineEntry) : IsReadAs MachineEntry.ofJson? m.toJson m := by
  have hstates : IsReadAs (table? StateEntry.ofJson?) (table StateEntry.toJson m.states) m.states :=
    isReadAs_table StateEntry.isReadAs m.states
  have hwritten : WrittenAs ["start", "states"]
      [("start", text m.start), ("states", table StateEntry.toJson m.states)] :=
    (WrittenAs.nil.cons "states" hstates.legible).cons "start" (legible_text m.start)
  refine ⟨legible_record hwritten.legible, ?_⟩
  rw [toJson, ofJson?, hwritten.row?_eq (by decide)]
  simp [Row.required, (isReadAs_text m.start).decode_eq, hstates.decode_eq]

theorem Document.isReadAs (d : Document) : IsReadAs Document.ofJson? d.toJson d := by
  have hmachines : IsReadAs (table? MachineEntry.ofJson?) (table MachineEntry.toJson d.machines) d.machines :=
    isReadAs_table MachineEntry.isReadAs d.machines
  have hwritten : WrittenAs ["root", "machines"]
      [("root", text d.root), ("machines", table MachineEntry.toJson d.machines)] :=
    (WrittenAs.nil.cons "machines" hmachines.legible).cons "root" (legible_text d.root)
  refine ⟨legible_record hwritten.legible, ?_⟩
  rw [toJson, ofJson?, hwritten.row?_eq (by decide)]
  simp [Row.required, (isReadAs_text d.root).decode_eq, hmachines.decode_eq]

/-! ## Views -/

theorem Control.isReadAs (c : Control) : IsReadAs Control.ofJson? c.toJson c := by
  have hhelp : IsReadAs (nullable? string?) (nullable text c.helpText) c.helpText :=
    isReadAs_nullable isReadAs_text text_ne_null c.helpText
  have hwritten : WrittenAs ["label", "help_text", "stimuli"]
      [("label", c.label.toJson), ("help_text", nullable text c.helpText), ("stimuli", texts c.stimuli)] :=
    ((WrittenAs.nil.cons "stimuli" (isReadAs_texts c.stimuli).legible).cons "help_text" hhelp.legible).cons
      "label" c.label.legible
  refine ⟨legible_record hwritten.legible, ?_⟩
  rw [toJson, ofJson?, hwritten.row?_eq (by decide)]
  simp [Row.required, Row.optional, c.label.isReadAs.decode_eq, hhelp.decode_eq,
    (isReadAs_texts c.stimuli).decode_eq]

theorem View.isReadAs (v : View) : IsReadAs View.ofJson? v.toJson v := by
  have hlabel : IsReadAs (nullable? Label.ofJson?) (nullable Label.toJson v.label) v.label :=
    isReadAs_nullable Label.isReadAs Label.toJson_ne_null v.label
  have hhelp : IsReadAs (nullable? string?) (nullable text v.helpText) v.helpText :=
    isReadAs_nullable isReadAs_text text_ne_null v.helpText
  have hdescription : IsReadAs (nullable? string?) (nullable text v.description) v.description :=
    isReadAs_nullable isReadAs_text text_ne_null v.description
  have hcontrols : IsReadAs (list? Control.ofJson?) (.arr (v.controls.map Control.toJson)) v.controls :=
    isReadAs_list Control.isReadAs v.controls
  have hwritten : WrittenAs ["label", "help_text", "description", "controls"]
      [("label", nullable Label.toJson v.label), ("help_text", nullable text v.helpText),
        ("description", nullable text v.description), ("controls", .arr (v.controls.map Control.toJson))] :=
    (((WrittenAs.nil.cons "controls" hcontrols.legible).cons "description" hdescription.legible).cons
      "help_text" hhelp.legible).cons "label" hlabel.legible
  refine ⟨legible_record hwritten.legible, ?_⟩
  rw [toJson, ofJson?, hwritten.row?_eq (by decide)]
  simp [Row.required, Row.optional, hlabel.decode_eq, hhelp.decode_eq, hdescription.decode_eq,
    hcontrols.decode_eq]

/-! ## Configurations -/

namespace Config

/-- The fields of a configuration that are written. -/
def cells (c : Config) : List (String × Json) :=
  [("history_capacity", nat c.historyCapacity), ("max_depth", nat c.maxDepth)] ++
    present "trace_level" text c.traceLevel

theorem writtenAs_cells (c : Config) :
    WrittenAs ["history_capacity", "max_depth", "trace_level"] c.cells := by
  have htrace := WrittenAs.nil.present "trace_level" legible_text c.traceLevel
  have hdepth := htrace.cons "max_depth" (.nat c.maxDepth)
  simpa [cells] using hdepth.cons "history_capacity" (.nat c.historyCapacity)

/-- The numbers of a configuration are read back when they have 64 bits. -/
theorem isReadAs {c : Config} (hcapacity : c.historyCapacity < Nat.pow 2 64)
    (hdepth : c.maxDepth < Nat.pow 2 64) : IsReadAs ofJson? c.toJson c := by
  have hhistory : ∀ fallback, Row.defaulted ⟨false, c.cells⟩ "history_capacity" size? fallback =
      some c.historyCapacity := fun _ =>
    Row.defaulted_eq (by simp [cells]) (isReadAs_size hcapacity)
  have hmax : ∀ fallback, Row.defaulted ⟨false, c.cells⟩ "max_depth" size? fallback =
      some c.maxDepth := fun _ =>
    Row.defaulted_eq (by simp [cells]) (isReadAs_size hdepth)
  have htrace : Row.defaulted ⟨false, c.cells⟩ "trace_level" (nullable? string?) none = some c.traceLevel :=
    Row.defaulted_present (by simp [cells]) isReadAs_text text_ne_null
  refine ⟨legible_record c.writtenAs_cells.legible, ?_⟩
  rw [show c.toJson = .record c.cells from rfl, ofJson?, c.writtenAs_cells.row?_eq (by decide)]
  simp [hhistory, hmax, htrace]

end Config

/-- Documents, views and configurations that allow a level are read back from their texts. -/
theorem texts_readBack :
    (∀ d : Document, (Json.parse d.toJson.compact).bind Document.ofJson? = some d) ∧
    (∀ v : View, (Json.parse v.toJson.compact).bind View.ofJson? = some v) ∧
    ∀ c : Config, c.historyCapacity < Nat.pow 2 64 → c.maxDepth < Nat.pow 2 64 → 1 ≤ c.maxDepth →
      Config.parse c.toJson.compact = .ok c := by
  refine ⟨fun d => d.isReadAs.parse, fun v => v.isReadAs.parse, fun c hcapacity hdepth hlevel => ?_⟩
  rw [Config.parse, Config.check, (Config.isReadAs hcapacity hdepth).parse]
  exact if_neg (by omega)

/-- A configuration that keeps no history and allows one level, with a filter whose text has to be escaped. -/
theorem texts_readBack_oneLevel :
    (0 < Nat.pow 2 64 ∧ 1 < Nat.pow 2 64 ∧ 1 ≤ 1) ∧
      Config.parse (Config.toJson ⟨0, 1, some "\"debug\"\n"⟩).compact = .ok ⟨0, 1, some "\"debug\"\n"⟩ :=
  ⟨by decide, texts_readBack.2.2 ⟨0, 1, some "\"debug\"\n"⟩ (by decide) (by decide) (by decide)⟩

end ModeTree
