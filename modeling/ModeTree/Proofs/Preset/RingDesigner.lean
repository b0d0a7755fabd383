import ModeTree.Preset.RingDesigner
import ModeTree.Proofs.Session.Escape

/-!
# Escape in the ring designer

The second state of the modeller is a hatch for escape (`hatch_modes`), and no other machine of the
document has a transition for it (`root_of_load`). So escape and its release recover a session of the
ring designer from wherever a run has come (`escape_recovers`).
-/

set_option autoImplicit false

namespace ModeTree.RingDesigner

open Resolution

universe u v

/-- Escape, pressed or released. -/
def escape (phase : Phase) : Stimulus := .key "esc" phase

theorem parse_escape_down : Stimulus.parse "esc:down" = .ok (escape .down) := by decide +kernel

theorem parse_escape_up : Stimulus.parse "esc:up" = .ok (escape .up) := by decide +kernel

/-- The modeller as a machine: it runs the machines of the designer, or waits for escape to be released. -/
def modes (subs : List Machine) : Machine :=
  ⟨"modeler", 0, [
    ⟨"idle_modeler", [], [], [
      ⟨.arrow "panic_escape_plan" [], [escape .down, .command "escape_modeler"], .empty, some 1⟩],
      subs, .inherit, none⟩,
    ⟨"panic_escape_plan", [], [], [
      ⟨.arrow "idle_modeler" [], [escape .up, .command "return_modeler"], .empty, some 0⟩],
      [], .inherit, some "Release escape to return to the modeler"⟩]⟩

/-! ## The document -/

theorem get?_modeler : document.machines.get? "modeler" = some modeler := rfl

/-- No machine refers to the modeller. -/
theorem not_refers_modeler (name : String) : ¬ Refers document.machines name "modeler" := by
  have hnone : ∀ e ∈ document.machines.entries, ∀ p ∈ e.2.states.entries, "modeler" ∉ p.2.subMachines := by
    decide +kernel
  rintro ⟨entry, hentry, p, hp, hmem⟩
  exact hnone (name, entry) ((document.machines.mem_entries_iff name entry).2 hentry) p hp hmem

/-- Escape is a pattern of the modeller only. -/
theorem patterns_quiet {name : String} {entry : MachineEntry}
    (hentry : document.machines.get? name = some entry) (hname : name ≠ "modeler") :
    ∀ pattern ∈ entry.patterns, pattern.matchesStimulus (escape .down) = false := by
  have hquiet : ∀ e ∈ document.machines.entries, e.1 ≠ "modeler" →
      ∀ pattern ∈ e.2.patterns, pattern.matchesStimulus (escape .down) = false := by
    decide +kernel
  exact hquiet (name, entry) ((document.machines.mem_entries_iff name entry).2 hentry) hname

/-! ## The machines -/

theorem entries_modeler : modeler.states.entries = [
    ("idle_modeler", {
      subMachines := ["render", "one_key", "style_main", "undo_redo"]
      transitions := [arrow "panic_escape_plan" ["esc:down", "escape_modeler"]] }),
    ("panic_escape_plan", {
      description := some "Release escape to return to the modeler"
      transitions := [arrow "idle_modeler" ["esc:up", "return_modeler"]] })] := rfl

/-- The modeller is built from its two states into `modes` of the machines that its first state names. -/
theorem eq_modes_of_build {built : NameTable Machine} {drafts : List StateDraft} {maxDepth : Nat}
    {m : Machine} (hdrafts : List.Forall₂ (DraftOf built) modeler.states.entries drafts)
    (hbuild : MachineDraft.build ⟨"modeler", some modeler.start, drafts, maxDepth⟩ = .ok m) :
    ∃ subs, List.Forall₂ (fun name sub => built.get? name = some sub)
        ["render", "one_key", "style_main", "undo_redo"] subs ∧ m = modes subs := by
  rw [entries_modeler] at hdrafts
  obtain ⟨idle, rest, hidle, hrest, rfl⟩ := List.forall₂_cons_left_iff.1 hdrafts
  obtain ⟨plan, tail, hplan, htail, rfl⟩ := List.forall₂_cons_left_iff.1 hrest
  obtain rfl := List.forall₂_nil_left_iff.1 htail
  obtain ⟨-, rfl⟩ := (MachineDraft.build_eq_ok_iff _ m).1 hbuild
  obtain ⟨subs, hsubs, rfl⟩ := hidle.exists_eq rfl
  obtain ⟨others, hothers, rfl⟩ := hplan.exists_eq rfl
  obtain rfl := List.forall₂_nil_left_iff.1 hothers
  exact ⟨subs, hsubs, rfl⟩

variable {config : Config} {set : MachineSet}

/-- The modeller of a loaded set, with machines that leave escape alone. -/
theorem root_of_load (h : load config = .ok set) :
    ∃ subs, set.root = modes subs ∧ ∀ sub ∈ subs, sub.Ignores (escape .down) := by
  have hf := Document.faithful_of_load h
  obtain ⟨-, -, hroot⟩ := (Document.load_eq_ok_iff document config.maxDepth set).1 h
  obtain ⟨entry, hentry, drafts, hdrafts, hbuild⟩ := hf "modeler" set.root hroot
  rw [get?_modeler] at hentry
  obtain rfl : modeler = entry := Option.some.inj hentry
  obtain ⟨subs, hsubs, hmodes⟩ := eq_modes_of_build hdrafts hbuild
  refine ⟨subs, hmodes, ?_⟩
  intro sub hsub
  obtain ⟨name, hname, hget⟩ := exists_of_mem_right hsubs hsub
  apply ignores_of_faithful hf not_refers_modeler (fun _ _ => patterns_quiet) ?_ hget
  rintro rfl
  simp at hname

theorem wellFormed_root (h : load config = .ok set) : set.root.WellFormed := by
  obtain ⟨-, -, hroot⟩ := (Document.load_eq_ok_iff document config.maxDepth set).1 h
  exact Machine.wellFormed_of_validated (.loaded h hroot)

/-- The second state of the modeller is a hatch for escape. -/
theorem hatch_modes {subs : List Machine} (hsubs : ∀ sub ∈ subs, sub.Ignores (escape .down)) :
    (modes subs).Hatch (escape .down) (escape .up) 1 where
  inward := by
    intro source hlt hne
    have hlt : source < 2 := hlt
    obtain rfl : source = 0 := by omega
    exact ⟨_, _, _, rfl, rfl, rfl⟩
  ignored := by
    intro s hs sub hsub
    simp only [modes, List.mem_cons, List.not_mem_nil, or_false] at hs
    rcases hs with rfl | rfl
    · exact hsubs sub hsub
    · simp at hsub
  stays := rfl
  alone := rfl
  outward := ⟨_, _, _, rfl, rfl, rfl⟩

/-- The ring designer loads with the limits that a configuration has by default. -/
theorem load_standard : ∃ set, load {} = .ok set := by
  cases h : load {} with
  | ok set => exact ⟨set, rfl⟩
  | error defects =>
      have hok : (load {}).isOk = true := by decide +kernel
      rw [h] at hok
      cases hok

/-! ## Sessions -/

variable {σ : Type u} {τ : Type v}

/-- A session of the ring designer that has run in whatever way is recovered by escape. When escape is
pressed, the modeller waits for its release and nothing else is active. When it is released then, the tree
and the view are those of a session that has just started. -/
theorem escape_recovers (hload : load config = .ok set) (registry : Registry σ) (settings : Config)
    (host : σ) (calls : List Session.Call) {down up : Stimulus}
    (hdown : Stimulus.parse "esc:down" = .ok down) (hup : Stimulus.parse "esc:up" = .ok up)
    (pressed released : Instant) (registry' : Registry τ) (settings' : Config) (host' : τ) :
    let s := (Session.start set.root registry settings host).run calls
    let waiting := (s.dispatch pressed down).2
    let recovered := (waiting.dispatch released up).2
    let anew := Session.start set.root registry' settings' host'
    waiting.currentState? "modeler" = some "panic_escape_plan" ∧
      waiting.activeStates = [⟨0, "modeler", "panic_escape_plan"⟩] ∧
      recovered.tree = anew.tree ∧ recovered.view = anew.view := by
  intro s waiting recovered anew
  obtain rfl : escape .down = down := by simpa [parse_escape_down] using hdown
  obtain rfl : escape .up = up := by simpa [parse_escape_up] using hup
  obtain ⟨subs, hmodes, hsubs⟩ := root_of_load hload
  have hatch : set.root.Hatch (escape .down) (escape .up) 1 := hmodes ▸ hatch_modes hsubs
  have hwf := wellFormed_root hload
  have hrun : Session.Running set.root s := Session.running_run hwf registry settings host calls
  have hrunWaiting : Session.Running set.root waiting := Session.running_dispatch hwf hrun pressed _
  have hwaiting : waiting.tree = LiveTree.inState set.root 1 := hatch.tree_press hrun pressed
  obtain ⟨htree, hview⟩ := hatch.start_release hrunWaiting hwaiting released
  rw [hmodes] at hwaiting
  refine ⟨?_, ?_, ?_, ?_⟩
  · rw [Session.currentState?, hwaiting]
    rfl
  · rw [Session.activeStates, hwaiting]
    rfl
  · rw [Session.tree_start]
    exact htree
  · rw [Session.view_start]
    exact hview

/-- A session of the ring designer in which a vertex is being moved is recovered by escape. -/
theorem escape_recovers_from_translate :
    ∃ set, load {} = .ok set ∧ Stimulus.parse "esc:down" = .ok (escape .down) ∧
      Stimulus.parse "esc:up" = .ok (escape .up) ∧
      ∀ now,
        let s := (Session.start set.root (.empty : Registry Unit) {} ()).run
          [.dispatch now (.onPlace .move .vertex), .dispatch now (.onPlace (.button 1 .down) .vertex)]
        let waiting := (s.dispatch now (escape .down)).2
        let recovered := (waiting.dispatch now (escape .up)).2
        let anew := Session.start set.root (.empty : Registry Unit) {} ()
        waiting.currentState? "modeler" = some "panic_escape_plan" ∧
          waiting.activeStates = [⟨0, "modeler", "panic_escape_plan"⟩] ∧
          recovered.tree = anew.tree ∧ recovered.view = anew.view := by
  obtain ⟨set, hset⟩ := load_standard
  refine ⟨set, hset, parse_escape_down, parse_escape_up, ?_⟩
  intro now
  exact escape_recovers hset .empty {} () _ parse_escape_down parse_escape_up now now .empty {} ()

end ModeTree.RingDesigner
