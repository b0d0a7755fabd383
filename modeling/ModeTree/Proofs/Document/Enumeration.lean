import ModeTree.Proofs.Document.Written

/-!
# Defects as often as they are written

`Document.writtenDefects` lists the defects of a document in order, each as often as it stands there, without
resolving anything. They are the defects of the document (`Document.mem_writtenDefects_iff`), and the draft of a
machine shows those of its entry that can be found in a draft, in the same order (`defects_of_drafts`).
-/

set_option autoImplicit false

namespace ModeTree

/-- The defects of a written transition that are found in a draft. -/
def TransitionEntry.found (machine : String) (states : NameTable StateEntry) (state : String)
    (t : TransitionEntry) : List Defect :=
  (if t.on.isEmpty then [.noStimuli machine state t.key] else []) ++
    t.on.filterMap (MachineDraft.stimulusDefect? machine state) ++
    match t.target with
    | none => []
    | some target => if states.contains target then [] else [.danglingTarget machine state target]

namespace MachineEntry

/-- The defects of a written machine that are found in its draft. -/
def found (name : String) (e : MachineEntry) : List Defect :=
  (if e.states.entries.isEmpty then [.noStates name] else []) ++
    (if e.states.entries.isEmpty || e.states.contains e.start then [] else [.unknownStart name e.start]) ++
    e.states.entries.flatMap fun p => p.2.transitions.flatMap (TransitionEntry.found name e.states p.1)

/-- The defects of a written machine that are noted while it is drafted. -/
def noted (machines : NameTable MachineEntry) (name : String) (e : MachineEntry) : List Defect :=
  e.states.entries.flatMap fun p =>
    (p.2.subMachines.filter fun sub => !machines.contains sub).map (.unknownSubMachine name p.1) ++
      Resolution.ambiguities name p.1 0 p.2.transitions

/-- The defects of a written machine, each as often as it stands there. -/
def writtenDefects (machines : NameTable MachineEntry) (name : String) (e : MachineEntry) : List Defect :=
  e.noted machines name ++ e.found name

end MachineEntry

/-- The defects of a document apart from those of its references as a whole, each as often as it stands there. -/
def Document.writtenDefects (d : Document) : List Defect :=
  (d.machines.entries.flatMap fun q => q.2.writtenDefects d.machines q.1) ++
    if d.machines.contains d.root then [] else [.unknownRoot d.root]

theorem TransitionEntry.mem_found_iff {machine : String} {states : NameTable StateEntry} {state : String}
    {t : TransitionEntry} {defect : Defect} :
    defect ∈ t.found machine states state ↔
      (t.on = [] ∧ defect = .noStimuli machine state t.key) ∨
        (∃ text ∈ t.on, ∃ cause, Stimulus.parse text = .error cause ∧
          defect = .badStimulus machine state text cause) ∨
        ∃ target, t.target = some target ∧ states.contains target = false ∧
          defect = .danglingTarget machine state target := by
  have hbad : defect ∈ t.on.filterMap (MachineDraft.stimulusDefect? machine state) ↔
      ∃ text ∈ t.on, ∃ cause, Stimulus.parse text = .error cause ∧
        defect = .badStimulus machine state text cause := by
    rw [List.mem_filterMap]
    refine exists_congr fun text => and_congr_right fun _ => ?_
    rw [MachineDraft.stimulusDefect?]
    cases Stimulus.parse text <;> simp [eq_comm]
  rw [found, List.mem_append, List.mem_append, hbad, or_assoc]
  have hnone : defect ∈ (if t.on.isEmpty then [Defect.noStimuli machine state t.key] else []) ↔
      t.on = [] ∧ defect = .noStimuli machine state t.key := by
    cases t.on <;> simp
  rw [hnone]
  cases t.target with
  | none => simp
  | some target => cases hknown : states.contains target <;> simp [hknown]

namespace MachineEntry

variable {machines : NameTable MachineEntry} {name : String} {e : MachineEntry} {defect : Defect}

theorem has_of_mem_noted (h : defect ∈ e.noted machines name) : e.Has machines name defect := by
  obtain ⟨p, hp, hmem⟩ := List.mem_flatMap.1 h
  rcases List.mem_append.1 hmem with hmem | hmem
  · obtain ⟨sub, hsub, rfl⟩ := List.mem_map.1 hmem
    obtain ⟨hsub, hunknown⟩ := List.mem_filter.1 hsub
    exact .unknownSubMachine hp hsub (by simpa using hunknown)
  · obtain ⟨i, t, ht, hkind, rfl⟩ := (Resolution.mem_ambiguities_iff _ _ _ _ _).1 hmem
    exact .ambiguousTransition hp (by simpa using ht) hkind

theorem has_of_mem_found (h : defect ∈ e.found name) : e.Has machines name defect := by
  rw [found, List.append_assoc, List.mem_append, List.mem_append] at h
  rcases h with hmem | hmem | hmem
  · obtain ⟨hempty, rfl⟩ : e.states.entries = [] ∧ defect = .noStates name := by
      cases hentries : e.states.entries <;> simp_all
    exact .noStates hempty
  · obtain ⟨hne, hunknown, rfl⟩ : e.states.entries ≠ [] ∧ e.states.contains e.start = false ∧
        defect = .unknownStart name e.start := by
      cases hentries : e.states.entries <;> cases hstart : e.states.contains e.start <;> simp_all
    exact .unknownStart hne hunknown
  · obtain ⟨p, hp, hmem⟩ := List.mem_flatMap.1 hmem
    obtain ⟨t, ht, hmem⟩ := List.mem_flatMap.1 hmem
    rcases TransitionEntry.mem_found_iff.1 hmem with
      ⟨hnil, rfl⟩ | ⟨text, htext, cause, hparse, rfl⟩ | ⟨target, htarget, hunknown, rfl⟩
    · exact .noStimuli hp ht hnil
    · exact .badStimulus hp ht htext hparse
    · exact .danglingTarget hp ht htarget hunknown

theorem mem_found_of_transition {p : String × StateEntry} (hp : p ∈ e.states.entries) {t : TransitionEntry}
    (ht : t ∈ p.2.transitions) (h : defect ∈ t.found name e.states p.1) : defect ∈ e.found name :=
  List.mem_append_right _ (List.mem_flatMap.2 ⟨p, hp, List.mem_flatMap.2 ⟨t, ht, h⟩⟩)

theorem mem_writtenDefects_of_has (h : e.Has machines name defect) : defect ∈ e.writtenDefects machines name := by
  cases h with
  | noStates hempty => simp [writtenDefects, found, hempty]
  | unknownStart hne hunknown => simp [writtenDefects, found, hne, hunknown]
  | danglingTarget hp ht htarget hunknown =>
      refine List.mem_append_right _ (mem_found_of_transition hp ht (TransitionEntry.mem_found_iff.2 ?_))
      exact Or.inr (Or.inr ⟨_, htarget, hunknown, rfl⟩)
  | badStimulus hp ht htext hparse =>
      refine List.mem_append_right _ (mem_found_of_transition hp ht (TransitionEntry.mem_found_iff.2 ?_))
      exact Or.inr (Or.inl ⟨_, htext, _, hparse, rfl⟩)
  | noStimuli hp ht hempty =>
      refine List.mem_append_right _ (mem_found_of_transition hp ht (TransitionEntry.mem_found_iff.2 ?_))
      exact Or.inl ⟨hempty, rfl⟩
  | ambiguousTransition hp ht hkind =>
      refine List.mem_append_left _ (List.mem_flatMap.2 ⟨_, hp, List.mem_append_right _ ?_⟩)
      exact (Resolution.mem_ambiguities_iff _ _ _ _ _).2 ⟨_, _, ht, hkind, by rw [Nat.zero_add]⟩
  | @unknownSubMachine p sub hp hsub hunknown =>
      refine List.mem_append_left _ (List.mem_flatMap.2 ⟨p, hp, List.mem_append_left _ ?_⟩)
      exact List.mem_map.2 ⟨sub, List.mem_filter.2 ⟨hsub, by simp [hunknown]⟩, rfl⟩

/-- The written defects of a machine are its defects. -/
theorem mem_writtenDefects_iff (machines : NameTable MachineEntry) (name : String) (e : MachineEntry)
    (defect : Defect) : defect ∈ e.writtenDefects machines name ↔ e.Has machines name defect :=
  ⟨fun h => (List.mem_append.1 h).elim has_of_mem_noted has_of_mem_found, mem_writtenDefects_of_has⟩

end MachineEntry

/-- The written defects of a document are its defects. -/
theorem Document.mem_writtenDefects_iff (d : Document) (defect : Defect) :
    defect ∈ d.writtenDefects ↔ d.Has defect := by
  rw [writtenDefects, List.mem_append, List.mem_flatMap]
  constructor
  · rintro (⟨⟨name, e⟩, hmem, hwritten⟩ | hroot)
    · exact .inMachine ((d.machines.mem_entries_iff name e).1 hmem)
        ((e.mem_writtenDefects_iff d.machines name defect).1 hwritten)
    · cases hknown : d.machines.contains d.root with
      | true => simp [hknown] at hroot
      | false =>
          obtain rfl : defect = .unknownRoot d.root := by simpa [hknown] using hroot
          exact .unknownRoot hknown
  · intro h
    cases h with
    | @inMachine name e defect he h =>
        exact Or.inl ⟨(name, e), (d.machines.mem_entries_iff name e).2 he,
          (e.mem_writtenDefects_iff d.machines name defect).2 h⟩
    | unknownRoot hunknown => simp [hunknown]

namespace Resolution

variable {maxDepth : Nat}

variable {built : NameTable Machine} {e : MachineEntry} {drafts : List StateDraft} {name : String}

theorem transitionDefects_eq {d : MachineDraft} {states : NameTable StateEntry} (hids : d.ids = states.names)
    (state : String) {t : TransitionEntry} {td : TransitionDraft} (h : transition? t = some td) :
    d.transitionDefects state td = t.found d.name states state := by
  obtain ⟨-, hstimuli, htarget⟩ := transition?_facts h
  have hknown : ∀ target, d.ids.contains target = states.contains target := by
    intro target
    rw [hids, Bool.eq_iff_iff, List.contains_iff_mem, NameTable.mem_names_iff]
  rw [MachineDraft.transitionDefects, TransitionEntry.found, hstimuli, key_of_transition? h, htarget]
  cases t.target with
  | none => rfl
  | some target => simp only [hknown]

/-- The draft of a machine shows what is written, in order, and that the machine is too deep. -/
theorem defects_of_drafts (hdrafts : List.Forall₂ (DraftOf built) e.states.entries drafts) :
    MachineDraft.defects ⟨name, some e.start, drafts, maxDepth⟩ =
      e.found name ++ if maxDepth < MachineDraft.depth ⟨name, some e.start, drafts, maxDepth⟩ then
        [.tooDeep name (MachineDraft.depth ⟨name, some e.start, drafts, maxDepth⟩) maxDepth] else [] := by
  have hids : MachineDraft.ids ⟨name, some e.start, drafts, maxDepth⟩ = e.states.names := ids_eq_names hdrafts
  have hempty : drafts.isEmpty = e.states.entries.isEmpty := by
    rw [Bool.eq_iff_iff, List.isEmpty_iff, List.isEmpty_iff]
    exact eq_nil_iff_of_drafts hdrafts
  have hstart : MachineDraft.startDefects ⟨name, some e.start, drafts, maxDepth⟩ =
      if e.states.entries.isEmpty || e.states.contains e.start then [] else [.unknownStart name e.start] := by
    have hknown : e.states.names.contains e.start = e.states.contains e.start := by
      rw [Bool.eq_iff_iff, List.contains_iff_mem, NameTable.mem_names_iff]
    simp only [MachineDraft.startDefects, hids, hempty, hknown]
  -- the names of a table stand once each
  have hrepeated : MachineDraft.repeatedIds [] e.states.names = [] :=
    (MachineDraft.repeatedIds_eq_nil_iff _).2 (NameTable.names_nodup e.states)
  have hstates : (drafts.flatMap fun s => s.transitions.flatMap
      (MachineDraft.transitionDefects ⟨name, some e.start, drafts, maxDepth⟩ s.id)) =
        e.states.entries.flatMap fun p => p.2.transitions.flatMap (TransitionEntry.found name e.states p.1) := by
    refine (flatMap_eq_of_forall₂ hdrafts fun p _ draft _ hof => ?_).symm
    refine flatMap_eq_of_forall₂ hof.transitions fun t _ td _ htransition => ?_
    rw [hof.id]
    exact (transitionDefects_eq hids p.1 htransition).symm
  rw [MachineDraft.defects, hstart, hids, hrepeated, hstates, MachineEntry.found, hempty, List.map_nil,
    List.append_nil]

end Resolution

end ModeTree
