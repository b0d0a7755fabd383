import ModeTree.Proofs.Document.Validity

/-!
# Defects as they are written

`Document.Has` says of a document, without resolving it, which defects stand in it and where. The checks of
a draft find exactly those of its entry that do not concern the drafting itself, and a depth that is too
great (`mem_defects_of_drafts`); the others are noted while the drafts are made (`mem_ambiguities_iff`).
-/

set_option autoImplicit false

namespace ModeTree

/-- The key of a transition as it is written. With both a target and an action it is that of the arrow. -/
def TransitionEntry.key (t : TransitionEntry) : String :=
  match t.target with
  | some target => (TransitionKind.arrow target t.also).key
  | none => t.action.getD ""

/-- The defects of a written machine of the given name. An unknown start is one only where there are states
among which it could be. -/
inductive MachineEntry.Has (machines : NameTable MachineEntry) (name : String) (e : MachineEntry) :
    Defect → Prop
  | noStates (hempty : e.states.entries = []) : Has machines name e (.noStates name)
  | unknownStart (hstates : e.states.entries ≠ []) (hunknown : e.states.contains e.start = false) :
      Has machines name e (.unknownStart name e.start)
  | danglingTarget {p : String × StateEntry} {t : TransitionEntry} {target : String}
      (hp : p ∈ e.states.entries) (ht : t ∈ p.2.transitions) (htarget : t.target = some target)
      (hunknown : e.states.contains target = false) :
      Has machines name e (.danglingTarget name p.1 target)
  | badStimulus {p : String × StateEntry} {t : TransitionEntry} {text : String} {cause : ParseError}
      (hp : p ∈ e.states.entries) (ht : t ∈ p.2.transitions) (htext : text ∈ t.on)
      (hparse : Stimulus.parse text = .error cause) :
      Has machines name e (.badStimulus name p.1 text cause)
  | noStimuli {p : String × StateEntry} {t : TransitionEntry} (hp : p ∈ e.states.entries)
      (ht : t ∈ p.2.transitions) (hempty : t.on = []) : Has machines name e (.noStimuli name p.1 t.key)
  | ambiguousTransition {p : String × StateEntry} {index : Nat} {t : TransitionEntry}
      (hp : p ∈ e.states.entries) (ht : p.2.transitions[index]? = some t)
      (hkind : t.target.isSome = t.action.isSome) :
      Has machines name e (.ambiguousTransition name p.1 index)
  | unknownSubMachine {p : String × StateEntry} {sub : String} (hp : p ∈ e.states.entries)
      (hsub : sub ∈ p.2.subMachines) (hunknown : machines.contains sub = false) :
      Has machines name e (.unknownSubMachine name p.1 sub)

/-- The defects of a document, apart from those of its references as a whole. -/
inductive Document.Has (d : Document) : Defect → Prop
  | inMachine {name : String} {e : MachineEntry} {defect : Defect} (he : d.machines.get? name = some e)
      (h : e.Has d.machines name defect) : Has d defect
  | unknownRoot (hunknown : d.machines.contains d.root = false) : Has d (.unknownRoot d.root)

namespace Defect

/-- The machine whose draft shows the defect, if it is one that is found by checking a draft. -/
def draft? : Defect → Option String
  | noStates machine => some machine
  | missingStart machine => some machine
  | unknownStart machine _ => some machine
  | duplicateState machine _ => some machine
  | danglingTarget machine _ _ => some machine
  | badStimulus machine _ _ _ => some machine
  | noStimuli machine _ _ => some machine
  | tooDeep machine _ _ => some machine
  | ambiguousTransition _ _ _ => none
  | unknownSubMachine _ _ _ => none
  | cyclicSubMachines _ => none
  | unknownRoot _ => none

/-- A defect of the references between the machines of a document: a cycle, or too many levels. -/
def OfReferences : Defect → Prop
  | cyclicSubMachines _ => True
  | tooDeep _ _ _ => True
  | _ => False

end Defect

/-- A defect of a machine is found in no draft but that of the machine. -/
theorem MachineEntry.Has.draft?_eq {machines : NameTable MachineEntry} {name machine : String}
    {e : MachineEntry} {defect : Defect} (h : e.Has machines name defect)
    (hdraft : defect.draft? = some machine) : machine = name := by
  cases h with
  | ambiguousTransition hp ht hkind => simp [Defect.draft?] at hdraft
  | unknownSubMachine hp hsub hunknown => simp [Defect.draft?] at hdraft
  | noStates hempty => exact (Option.some.inj hdraft).symm
  | unknownStart hstates hunknown => exact (Option.some.inj hdraft).symm
  | danglingTarget hp ht htarget hunknown => exact (Option.some.inj hdraft).symm
  | badStimulus hp ht htext hparse => exact (Option.some.inj hdraft).symm
  | noStimuli hp ht hempty => exact (Option.some.inj hdraft).symm

/-- A valid entry has no defect. -/
theorem MachineEntry.Valid.not_has {machines : NameTable MachineEntry} {e : MachineEntry}
    (h : e.Valid machines) (name : String) (defect : Defect) : ¬ e.Has machines name defect := by
  intro hhas
  cases hhas with
  | noStates hempty => exact h.states hempty
  | unknownStart hstates hunknown => simp [h.start] at hunknown
  | danglingTarget hp ht htarget hunknown =>
      simp [(h.transitions _ hp _ ht).target _ htarget] at hunknown
  | badStimulus hp ht htext hparse =>
      obtain ⟨x, hx⟩ := (h.transitions _ hp _ ht).readable _ htext
      rw [hx] at hparse
      cases hparse
  | noStimuli hp ht hempty => exact (h.transitions _ hp _ ht).stimuli hempty
  | ambiguousTransition hp ht hkind =>
      exact (h.transitions _ hp _ (List.mem_of_getElem? ht)).kind hkind
  | unknownSubMachine hp hsub hunknown => simp [h.subMachines _ hp _ hsub] at hunknown

namespace Resolution

variable {machines : NameTable MachineEntry} {maxDepth : Nat}

/-! ## Defects of the drafting -/

theorem kind?_isNone_iff (t : TransitionEntry) :
    (kind? t).isNone ↔ t.target.isSome = t.action.isSome := by
  have h := kind?_isSome_iff t
  cases hkind : kind? t <;> simp_all

/-- A transition without a kind is noted with its position. -/
theorem mem_ambiguities_iff (machine state : String) (index : Nat) (ts : List TransitionEntry)
    (defect : Defect) :
    defect ∈ ambiguities machine state index ts ↔
      ∃ i t, ts[i]? = some t ∧ t.target.isSome = t.action.isSome ∧
        defect = .ambiguousTransition machine state (index + i) := by
  induction ts generalizing index with
  | nil => simp [ambiguities]
  | cons u ts ih =>
      have hhead :
          defect ∈ (if (kind? u).isNone then [Defect.ambiguousTransition machine state index] else []) ↔
            u.target.isSome = u.action.isSome ∧ defect = .ambiguousTransition machine state index := by
        rw [← kind?_isNone_iff]
        cases (kind? u).isNone <;> simp
      rw [ambiguities, List.mem_append, ih (index + 1), hhead]
      constructor
      · rintro (⟨hkind, rfl⟩ | ⟨i, t, hi, hkind, rfl⟩)
        · exact ⟨0, u, rfl, hkind, rfl⟩
        · exact ⟨i + 1, t, hi, hkind, by rw [Nat.add_assoc, Nat.add_comm 1]⟩
      · rintro ⟨i, t, hi, hkind, rfl⟩
        cases i with
        | zero =>
            obtain rfl : u = t := by simpa using hi
            exact Or.inl ⟨hkind, rfl⟩
        | succ i =>
            exact Or.inr ⟨i, t, hi, hkind, by rw [Nat.add_assoc, Nat.add_comm 1]⟩

/-! ## Defects of a draft -/

theorem key_of_transition? {t : TransitionEntry} {d : TransitionDraft} (h : transition? t = some d) :
    d.kind.key = t.key := by
  obtain ⟨kind, hkind, rfl⟩ := Option.map_eq_some_iff.1 h
  rw [TransitionEntry.key]
  rw [kind?] at hkind
  split at hkind
  · next htarget _ =>
      cases hkind
      rw [htarget]
  · next htarget haction =>
      cases hkind
      rw [htarget, haction]
      rfl
  · cases hkind

/-- What is found in the draft of a transition, in terms of the transition as it is written. -/
theorem mem_transitionDefects_iff (d : MachineDraft) (state : String) {t : TransitionEntry}
    {td : TransitionDraft} (h : transition? t = some td) (defect : Defect) :
    defect ∈ d.transitionDefects state td ↔
      (t.on = [] ∧ defect = .noStimuli d.name state t.key) ∨
        (∃ text ∈ t.on, ∃ cause, Stimulus.parse text = .error cause ∧
          defect = .badStimulus d.name state text cause) ∨
        ∃ target, t.target = some target ∧ target ∉ d.ids ∧
          defect = .danglingTarget d.name state target := by
  obtain ⟨-, hstimuli, htarget⟩ := transition?_facts h
  have hnone : defect ∈ (if td.stimuli.isEmpty then [Defect.noStimuli d.name state td.kind.key] else []) ↔
      t.on = [] ∧ defect = .noStimuli d.name state t.key := by
    rw [hstimuli, key_of_transition? h]
    cases t.on <;> simp
  have hbad : defect ∈ td.stimuli.filterMap (MachineDraft.stimulusDefect? d.name state) ↔
      ∃ text ∈ t.on, ∃ cause, Stimulus.parse text = .error cause ∧
        defect = .badStimulus d.name state text cause := by
    rw [hstimuli, List.mem_filterMap]
    refine exists_congr fun text => and_congr_right fun _ => ?_
    rw [MachineDraft.stimulusDefect?]
    cases Stimulus.parse text <;> simp [eq_comm]
  rw [MachineDraft.transitionDefects, List.mem_append, List.mem_append, hnone, hbad, htarget, or_assoc]
  cases t.target with
  | none => simp
  | some target => by_cases hid : target ∈ d.ids <;> simp [hid]

section Drafts

variable {built : NameTable Machine} {entry : MachineEntry} {drafts : List StateDraft} {name : String}

/-- What is found in the states of a draft is what is written in the states of its entry. -/
theorem mem_stateDefects_iff (hdrafts : List.Forall₂ (DraftOf built) entry.states.entries drafts)
    (d : MachineDraft) (defect : Defect) :
    (defect ∈ drafts.flatMap fun s => s.transitions.flatMap (d.transitionDefects s.id)) ↔
      ∃ p ∈ entry.states.entries, ∃ t ∈ p.2.transitions, ∃ td, transition? t = some td ∧
        defect ∈ d.transitionDefects p.1 td := by
  rw [List.mem_flatMap]
  constructor
  · rintro ⟨draft, hdraft, hmem⟩
    obtain ⟨td, htd, hdefect⟩ := List.mem_flatMap.1 hmem
    obtain ⟨p, hp, hof⟩ := exists_of_mem_right hdrafts hdraft
    obtain ⟨t, ht, htransition⟩ := exists_of_mem_right hof.transitions htd
    rw [hof.id] at hdefect
    exact ⟨p, hp, t, ht, td, htransition, hdefect⟩
  · rintro ⟨p, hp, t, ht, td, htransition, hdefect⟩
    obtain ⟨draft, hdraft, hof⟩ := exists_of_mem_left hdrafts hp
    obtain ⟨td', htd', htransition'⟩ := exists_of_mem_left hof.transitions ht
    obtain rfl : td = td' := by simpa [htransition] using htransition'
    refine ⟨draft, hdraft, List.mem_flatMap.2 ⟨td, htd', ?_⟩⟩
    rw [hof.id]
    exact hdefect

theorem eq_nil_iff_of_drafts (hdrafts : List.Forall₂ (DraftOf built) entry.states.entries drafts) :
    drafts = [] ↔ entry.states.entries = [] := by
  rw [← List.length_eq_zero_iff, ← List.length_eq_zero_iff, hdrafts.length_eq]

/-- The start of a draft is found unknown exactly when that of its entry is. -/
theorem mem_startDefects_iff (hdrafts : List.Forall₂ (DraftOf built) entry.states.entries drafts)
    (defect : Defect) :
    defect ∈ MachineDraft.startDefects ⟨name, some entry.start, drafts, maxDepth⟩ ↔
      entry.states.entries ≠ [] ∧ entry.states.contains entry.start = false ∧
        defect = .unknownStart name entry.start := by
  have hids : MachineDraft.ids ⟨name, some entry.start, drafts, maxDepth⟩ = entry.states.names :=
    ids_eq_names hdrafts
  have hmem := NameTable.mem_names_iff entry.states entry.start
  simp only [MachineDraft.startDefects, hids, Ne, ← eq_nil_iff_of_drafts hdrafts]
  cases drafts with
  | nil => simp
  | cons draft drafts => by_cases hid : entry.start ∈ entry.states.names <;> simp_all

/-- The checks of a draft find the defects of its entry that can be found in a draft, and its depth when it
is too great. -/
theorem mem_defects_of_drafts (name : String) (machines : NameTable MachineEntry) (maxDepth : Nat)
    (hdrafts : List.Forall₂ (DraftOf built) entry.states.entries drafts) (defect : Defect) :
    defect ∈ MachineDraft.defects ⟨name, some entry.start, drafts, maxDepth⟩ ↔
      (entry.Has machines name defect ∧ defect.draft? = some name) ∨
        ∃ depth, maxDepth < depth ∧ defect = .tooDeep name depth maxDepth ∧
          depth = MachineDraft.depth ⟨name, some entry.start, drafts, maxDepth⟩ := by
  have hids : MachineDraft.ids ⟨name, some entry.start, drafts, maxDepth⟩ = entry.states.names :=
    ids_eq_names hdrafts
  have hunknown : ∀ id, id ∉ MachineDraft.ids ⟨name, some entry.start, drafts, maxDepth⟩ ↔
      entry.states.contains id = false := by
    intro id
    rw [hids, NameTable.mem_names_iff, Bool.not_eq_true]
  have hempty := eq_nil_iff_of_drafts hdrafts
  have hstates := mem_stateDefects_iff hdrafts ⟨name, some entry.start, drafts, maxDepth⟩ defect
  rw [MachineDraft.mem_defects_iff, mem_startDefects_iff hdrafts, hstates]
  constructor
  · rintro (⟨hnil, rfl⟩ | ⟨hne, hstart, rfl⟩ | ⟨id, hid, -⟩ | ⟨p, hp, t, ht, td, htransition, hmem⟩ |
      ⟨hlt, rfl⟩)
    · exact Or.inl ⟨.noStates (hempty.1 hnil), rfl⟩
    · exact Or.inl ⟨.unknownStart hne hstart, rfl⟩
    · -- the names of a table stand once each
      have hcount := List.nodup_iff_count_le_one.1 (NameTable.names_nodup entry.states) id
      rw [hids] at hid
      omega
    · rw [mem_transitionDefects_iff _ p.1 htransition] at hmem
      rcases hmem with ⟨hnil, rfl⟩ | ⟨text, htext, cause, hparse, rfl⟩ | ⟨target, htarget, hid, rfl⟩
      · exact Or.inl ⟨.noStimuli hp ht hnil, rfl⟩
      · exact Or.inl ⟨.badStimulus hp ht htext hparse, rfl⟩
      · exact Or.inl ⟨.danglingTarget hp ht htarget ((hunknown target).1 hid), rfl⟩
    · exact Or.inr ⟨_, hlt, rfl, rfl⟩
  · rintro (⟨hhas, hdraft⟩ | ⟨depth, hlt, rfl, rfl⟩)
    · -- every transition of a state with a draft has a draft itself
      have hdrafted : ∀ p ∈ entry.states.entries, ∀ t ∈ p.2.transitions, ∃ td, transition? t = some td := by
        intro p hp t ht
        obtain ⟨draft, -, hof⟩ := exists_of_mem_left hdrafts hp
        obtain ⟨td, -, htransition⟩ := exists_of_mem_left hof.transitions ht
        exact ⟨td, htransition⟩
      cases hhas with
      | noStates hnil => exact Or.inl ⟨hempty.2 hnil, rfl⟩
      | unknownStart hne hstart => exact Or.inr (Or.inl ⟨hne, hstart, rfl⟩)
      | @danglingTarget p t target hp ht htarget hstate =>
          obtain ⟨td, htransition⟩ := hdrafted p hp t ht
          refine Or.inr (Or.inr (Or.inr (Or.inl ⟨p, hp, t, ht, td, htransition, ?_⟩)))
          rw [mem_transitionDefects_iff _ p.1 htransition]
          exact Or.inr (Or.inr ⟨target, htarget, (hunknown target).2 hstate, rfl⟩)
      | @badStimulus p t text cause hp ht htext hparse =>
          obtain ⟨td, htransition⟩ := hdrafted p hp t ht
          refine Or.inr (Or.inr (Or.inr (Or.inl ⟨p, hp, t, ht, td, htransition, ?_⟩)))
          rw [mem_transitionDefects_iff _ p.1 htransition]
          exact Or.inr (Or.inl ⟨text, htext, cause, hparse, rfl⟩)
      | @noStimuli p t hp ht hnil =>
          obtain ⟨td, htransition⟩ := hdrafted p hp t ht
          refine Or.inr (Or.inr (Or.inr (Or.inl ⟨p, hp, t, ht, td, htransition, ?_⟩)))
          rw [mem_transitionDefects_iff _ p.1 htransition]
          exact Or.inl ⟨hnil, rfl⟩
      | ambiguousTransition hp ht hkind => simp [Defect.draft?] at hdraft
      | unknownSubMachine hp hsub hunknown => simp [Defect.draft?] at hdraft
    · exact Or.inr (Or.inr (Or.inr (Or.inr ⟨hlt, rfl⟩)))

end Drafts

end Resolution

end ModeTree
