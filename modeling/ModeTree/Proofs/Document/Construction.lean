import ModeTree.Proofs.Machine.Construction

/-!
# Machines of a document and their entries

`MachineEntry.Makes` says what a machine has to do with the entry that it was loaded from. It has the states of
the entry in ascending order, each says what is written of it, and the machines in it are those of the names
that are written there. This holds of all machines of a document that loads, and the order in which they are
resolved makes no difference (`load_makes`): two tables in which every machine comes from its entry are the
same when they have all of the names (`Faithful.extends`).
-/

set_option autoImplicit false

namespace ModeTree

/-- A transition of the machine `m` made of a written one. -/
structure TransitionEntry.Makes (m : Machine) (e : TransitionEntry) (t : Transition) : Prop where
  kind : (∃ target, e.target = some target ∧ e.action = none ∧ t.kind = .arrow target e.also) ∨
    ∃ name, e.target = none ∧ e.action = some name ∧ t.kind = .action name e.also
  stimuli : Stimulus.Spelled e.on t.stimuli
  hint : t.hint = ⟨e.label, e.help⟩
  arrow : t.Resolved m

/-- A state of the machine `m` made of a written one and its id, with machines of the table `machines`. -/
structure StateEntry.Makes (machines : NameTable Machine) (m : Machine) (p : String × StateEntry)
    (s : State Transition Machine) : Prop where
  id : s.id = p.1
  enter : s.enter = p.2.enter
  exit : s.exit = p.2.exit
  hintMode : s.hintMode = p.2.hint
  description : s.description = p.2.description
  subMachines : List.Forall₂ (fun name sub => machines.get? name = some sub) p.2.subMachines s.subMachines
  transitions : List.Forall₂ (TransitionEntry.Makes m) p.2.transitions s.transitions

/-- A machine made of the entry of a name. -/
structure MachineEntry.Makes (machines : NameTable Machine) (name : String) (e : MachineEntry)
    (m : Machine) : Prop where
  name : m.name = name
  start : ∃ hlt : m.start < m.states.length, m.states[m.start].id = e.start
  ascending : (m.states.map (·.id)).Pairwise (· < ·)
  states : List.Forall₂ (StateEntry.Makes machines m) e.states.entries m.states

namespace Resolution

variable {machines : NameTable MachineEntry} {maxDepth : Nat} {built built' : NameTable Machine}

/-! ## From entries to machines -/

/-- The draft of a written transition makes what the transition says. -/
theorem makes_of_transition? {m : Machine} {e : TransitionEntry} {d : TransitionDraft} {t : Transition}
    (h : transition? e = some d) (ht : d.Makes m t) : e.Makes m t := by
  obtain ⟨kind, hkind, rfl⟩ := Option.map_eq_some_iff.1 h
  refine ⟨?_, ht.stimuli, ht.hint.symm, ht.arrow⟩
  rw [← ht.kind]
  rw [kind?] at hkind
  split at hkind
  · next target htarget haction =>
      cases hkind
      exact Or.inl ⟨target, htarget, haction, rfl⟩
  · next name htarget haction =>
      cases hkind
      exact Or.inr ⟨name, htarget, haction, rfl⟩
  · cases hkind

/-- So does the draft of a state. -/
theorem DraftOf.makes {m : Machine} {p : String × StateEntry} {draft : StateDraft}
    {s : State Transition Machine} (h : DraftOf built p draft)
    (hkept : draft.Says (TransitionDraft.Makes m) s) (hsubs : draft.subMachines = s.subMachines) :
    StateEntry.Makes built m p s where
  id := hkept.id.symm.trans h.id
  enter := hkept.enter.symm.trans h.enter
  exit := hkept.exit.symm.trans h.exit
  hintMode := hkept.hintMode.symm.trans h.hintMode
  description := hkept.description.symm.trans h.description
  subMachines := hsubs ▸ h.subMachines
  transitions := forall₂_comp h.transitions hkept.transitions fun _ _ _ => makes_of_transition?

/-- A machine built from an entry is made of it. -/
theorem Builds.makes {name : String} {entry : MachineEntry} {m : Machine}
    (h : Builds maxDepth built name entry m) : entry.Makes built name m := by
  obtain ⟨drafts, hdrafts, hbuild⟩ := h
  have hm := MachineDraft.makes_of_build hbuild
  have hstates : List.Forall₂ (StateEntry.Makes built m) entry.states.entries m.states :=
    forall₂_comp hdrafts hm.states fun _ _ _ hof hs => hof.makes hs.1 hs.2
  refine ⟨hm.name.symm, ?_, ?_, hstates⟩
  · obtain ⟨hlt, hstart⟩ := hm.start
    exact ⟨hlt, (Option.some.inj hstart).symm⟩
  · rw [← map_eq_of_forall₂ hstates fun _ _ hs => hs.id.symm]
    exact entry.states.names_ascending

/-! ## The order of resolution -/

/-- Every machine of a faithful table has the name that it is found under. -/
theorem Faithful.name_eq (hf : Faithful machines maxDepth built) {name : String} {m : Machine}
    (hm : built.get? name = some m) : m.name = name := by
  obtain ⟨entry, -, hbuilds⟩ := hf name m hm
  exact hbuilds.makes.name

/-- A written state has one draft. -/
theorem DraftOf.unique {p : String × StateEntry} {draft draft' : StateDraft} (h : DraftOf built p draft)
    (h' : DraftOf built p draft') : draft = draft' := by
  obtain ⟨ds, htransitions⟩ : ∃ ds, p.2.transitions.mapM transition? = some ds :=
    ⟨_, mapM_transition?_eq_some h.transitions⟩
  obtain ⟨subs, hsubs, rfl⟩ := h.exists_eq htransitions
  obtain ⟨subs', hsubs', rfl⟩ := h'.exists_eq htransitions
  have hunique : Relator.RightUnique fun name m => built.get? name = some m := by
    intro name m m' hm hm'
    exact Option.some.inj (hm.symm.trans hm')
  rw [List.right_unique_forall₂' hunique hsubs hsubs']

/-- What one faithful table has for a name is what any other has that lacks no name. -/
theorem Faithful.extends (hf : Faithful machines maxDepth built) (hf' : Faithful machines maxDepth built')
    (hall : ∀ name, machines.contains name = true → ∃ m, built'.get? name = some m) :
    Extends built built' := by
  intro name m hm
  apply hf.induction (motive := fun name m => built'.get? name = some m) ?_ hm
  intro name entry drafts m hentry hdrafts hbuild ih
  obtain ⟨m', hm'⟩ := hall name ((NameTable.contains_iff machines name).2 ⟨entry, hentry⟩)
  obtain ⟨entry', hentry', drafts', hdrafts', hbuild'⟩ := hf' name m' hm'
  obtain rfl : entry = entry' := by simpa [hentry] using hentry'
  -- the machines in the drafts stand under their names in the other table as well
  have hdrafts : List.Forall₂ (DraftOf built') entry.states.entries drafts := by
    apply forall₂_imp_of_mem hdrafts
    intro p _ draft hdraft hof
    refine { hof with subMachines := forall₂_imp_of_mem hof.subMachines ?_ }
    intro sub _ found hfound hget
    obtain ⟨name, -, hget'⟩ := ih draft hdraft found hfound
    have hname : name = sub := (hf'.name_eq hget').symm.trans (hf.name_eq hget)
    exact hname ▸ hget'
  obtain rfl : drafts = drafts' :=
    List.right_unique_forall₂' (fun _ _ _ h h' => h.unique h') hdrafts hdrafts'
  obtain rfl : m = m' := Except.ok.inj (hbuild.symm.trans hbuild')
  exact hm'

/-- Machines without defects are all built, in whatever order they are resolved. -/
theorem Resolvable.resolveAll_facts (h : Resolvable machines maxDepth) {names : List String}
    (hnames : ∀ name, name ∈ names ↔ machines.contains name = true) :
    (resolveAll machines maxDepth names .empty).defects = [] ∧
      Faithful machines maxDepth (resolveAll machines maxDepth names .empty).built ∧
      ∀ name, machines.contains name = true →
        ∃ m, (resolveAll machines maxDepth names .empty).built.get? name = some m := by
  have hempty : Sane machines maxDepth [] .empty := sane_empty
  obtain ⟨hsane, -, -, hall⟩ := Resolution.resolveAll_facts (fun name => (hnames name).1) hempty
  have hnil : (resolveAll machines maxDepth names .empty).defects = [] := by
    by_contra hne
    exact hsane.genuine hne h
  refine ⟨hnil, hsane.faithful, ?_⟩
  intro name hname
  rcases hall name ((hnames name).2 hname) with hbuilt | hne
  · exact hbuilt
  · exact absurd hnil hne

end Resolution

namespace Document

open Resolution

variable {d : Document} {maxDepth : Nat} {set : MachineSet}

/-- The machines of a document that loads have no defects, and all of them are in the set. -/
theorem resolvable_of_load (h : d.load maxDepth = .ok set) :
    Resolvable d.machines maxDepth ∧
      ∀ name, d.machines.contains name = true → ∃ m, set.machines.get? name = some m := by
  obtain ⟨hnil, hbuilt, -⟩ := (load_eq_ok_iff d maxDepth set).1 h
  have hresolvable := ((defects_resolution_eq_nil_iff d maxDepth).1 hnil).resolvable
  obtain ⟨-, -, hall⟩ := hresolvable.resolveAll_facts (NameTable.mem_names_iff d.machines)
  rw [built_resolution] at hbuilt
  exact ⟨hresolvable, hbuilt ▸ hall⟩

/-- A document that loads gives a machine for each of its names and for no other, and for its root. Each
machine is made of the entry of its name, with machines of the set. In whatever order the names are resolved,
the machines are these, and there is no defect. -/
theorem load_makes (config : Config) (h : d.load config.maxDepth = .ok set) :
    set.machines.names = d.machines.names ∧ set.machines.get? d.root = some set.root ∧
      (∀ name e, d.machines.get? name = some e →
        ∃ m, set.machines.get? name = some m ∧ e.Makes set.machines name m) ∧
      ∀ names : List String, (∀ name, name ∈ names ↔ name ∈ d.machines.names) →
        let resolved := Resolution.resolveAll d.machines config.maxDepth names .empty
        resolved.built = set.machines ∧ resolved.defects = [] := by
  obtain ⟨-, -, hroot⟩ := (load_eq_ok_iff d config.maxDepth set).1 h
  obtain ⟨hresolvable, hall⟩ := resolvable_of_load h
  have hf := faithful_of_load h
  refine ⟨?_, hroot, ?_, ?_⟩
  · apply NameTable.names_eq_of_mem_iff
    intro name
    rw [NameTable.mem_names_iff, NameTable.mem_names_iff, NameTable.contains_iff]
    constructor
    · rintro ⟨m, hm⟩
      obtain ⟨e, he, -⟩ := hf name m hm
      exact (NameTable.contains_iff d.machines name).2 ⟨e, he⟩
    · exact hall name
  · intro name e he
    obtain ⟨m, hm⟩ := hall name ((NameTable.contains_iff d.machines name).2 ⟨e, he⟩)
    obtain ⟨e', he', hbuilds⟩ := hf name m hm
    obtain rfl : e = e' := by simpa [he] using he'
    exact ⟨m, hm, hbuilds.makes⟩
  · intro names hnames resolved
    simp only [NameTable.mem_names_iff] at hnames
    obtain ⟨hnil, hf', hall'⟩ := hresolvable.resolveAll_facts hnames
    have hsame : resolved.built = set.machines := by
      apply NameTable.eq_of_get?_eq
      intro name
      ext m
      exact ⟨hf'.extends hf hall name m, hf.extends hf' hall' name m⟩
    exact ⟨hsame, hnil⟩

/-- A desk with lights in both of its states, two of them in one. -/
def desk : Document where
  root := "desk"
  machines := .ofList [
    ("light", {
      start := "on"
      states := .ofList [
        ("on", { transitions := [{ target := some "off", on := ["tick", "esc:down"] }] }),
        ("off", { transitions := [{ target := some "on", on := ["tick"] }] })] }),
    ("desk", {
      start := "plugged"
      states := .ofList [
        ("plugged", {
          subMachines := ["light", "light"]
          transitions := [{ target := some "dim", also := ["bell"], on := ["space:down"] }] }),
        ("dim", {
          subMachines := ["light"]
          transitions := [{ action := some "count", on := ["scroll:up"], help := some "Counts" }] })] })]

/-- The lights of the desk are one machine, also when the machines are resolved the other way round. -/
theorem load_makes_desk :
    ∃ set light, desk.load ({} : Config).maxDepth = .ok set ∧ set.machines.names = ["desk", "light"] ∧
      set.machines.get? "light" = some light ∧ set.root.states.map (·.id) = ["dim", "plugged"] ∧
      (∀ s ∈ set.root.states, ∀ sub ∈ s.subMachines, sub = light) ∧
      (Resolution.resolveAll desk.machines ({} : Config).maxDepth ["light", "desk"] .empty).built =
        set.machines := by
  obtain ⟨set, hset⟩ : ∃ set, desk.load ({} : Config).maxDepth = .ok set := ⟨_, rfl⟩
  obtain ⟨hnames, hroot, hall, hresolved⟩ := load_makes {} hset
  obtain ⟨light, hlight, -⟩ := hall "light" _ rfl
  obtain ⟨m, hm, hmakes⟩ := hall "desk" _ rfl
  obtain rfl : set.root = m := Option.some.inj (hroot.symm.trans hm)
  refine ⟨set, light, hset, hnames, hlight, ?_, ?_, ?_⟩
  · rw [← map_eq_of_forall₂ hmakes.states fun _ _ hs => hs.id.symm]
    rfl
  · intro s hs sub hsub
    obtain ⟨p, hp, hof⟩ := exists_of_mem_right hmakes.states hs
    obtain ⟨name, hname, hget⟩ := exists_of_mem_right hof.subMachines hsub
    have hlights : ∀ e ∈ desk.machines.entries, ∀ p ∈ e.2.states.entries, ∀ name ∈ p.2.subMachines,
        name = "light" := by decide
    obtain rfl := hlights ("desk", _) List.mem_cons_self p hp name hname
    exact Option.some.inj (hget.symm.trans hlight)
  · refine (hresolved ["light", "desk"] ?_).1
    intro name
    show name ∈ ["light", "desk"] ↔ name ∈ ["desk", "light"]
    simp [or_comm]

end Document

end ModeTree
