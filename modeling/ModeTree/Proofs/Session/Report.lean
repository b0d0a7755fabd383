import ModeTree.Proofs.Machine.Blueprint
import ModeTree.Proofs.Session.Agreement

/-!
# Reports

A report says all that can be seen of a session from its start to its end: what each stimulus or event comes
to, and after each of them the active states, the history without its times, the view, and the names that
are handed to the registry. Sessions of machines that agree have the same report (`report_eq`). So what the
callbacks do, also when they fail or panic, shows nowhere but with the host (`report_indifferent`), and the
order of states shows nowhere at all (`report_reordered`).
-/

set_option autoImplicit false

namespace ModeTree

universe u v

/-- What a host passes on: a stimulus, or an event of its own with what lies under the pointer. -/
inductive Input where
  | stimulus (x : Stimulus)
  | event (e : Event) (hit : Option Hit)

/-- What can be seen of a session at a time. -/
structure Scene where
  active : List ActiveState
  passages : List Passage
  view : View
  deriving DecidableEq, Repr

/-- What comes of one input: the outcome, what can be seen then, and the names handed to the registry. -/
structure Observation where
  outcome : Outcome
  scene : Scene
  attempted : List String
  deriving DecidableEq, Repr

/-- What can be seen of a session from its start to its end. -/
structure Report where
  opening : Scene
  entered : List String
  steps : List Observation
  left : List String
  deriving DecidableEq, Repr

/-- All names handed to the registry, in order. -/
def Report.names (r : Report) : List String :=
  r.entered ++ r.steps.flatMap (·.attempted) ++ r.left

/-- What differs from run to run of a machine: the callbacks, the host, and the time of each step. -/
structure Trial (σ : Type u) where
  registry : Registry σ
  host : σ
  clock : Nat → Instant

/-- The names whose callbacks ran to completion, in order. -/
def Journal.completed {σ : Type u} (j : Journal σ) : List String :=
  (j.attempts.filter fun a => a.2 = .completed).map (·.1)

/-- The names that lead from one journal to another are those that the second has in addition. -/
theorem Journal.eq_performAll_drop {σ : Type u} {r : Registry σ} {j j' : Journal σ} {names : List String}
    (h : j' = j.performAll r names) : j' = j.performAll r (j'.names.drop j.names.length) := by
  have hdrop : j'.names.drop j.names.length = names := by rw [h, names_performAll, List.drop_left]
  rw [hdrop]
  exact h

/-- The callbacks of a registry that complete are those of the names that pass a test, whatever state the
host is in. -/
def Registry.Completes {σ : Type u} (r : Registry σ) (test : String → Bool) : Prop :=
  ∀ name host, (r.invoke name host).1 = .completed ↔ test name = true

namespace Session

variable {σ : Type u} {τ : Type v}

/-- Takes an input at a time. -/
def take (s : Session σ) (now : Instant) : Input → Outcome × Session σ
  | .stimulus x => s.dispatch now x
  | .event e hit => s.feed now e hit

/-- What can be seen of a session: the active states, the changes of its history, and its view. -/
def scene (s : Session σ) : Scene := ⟨s.activeStates, s.history.passages, s.view⟩

/-- The session after some inputs. -/
def takeAll (s : Session σ) (clock : Nat → Instant) : List Input → Session σ
  | [] => s
  | input :: inputs => (s.take (clock 0) input).2.takeAll (fun n => clock (n + 1)) inputs

/-- What comes of some inputs, one after the other. -/
def observe (s : Session σ) (clock : Nat → Instant) : List Input → List Observation
  | [] => []
  | input :: inputs =>
    let (outcome, after) := s.take (clock 0) input
    -- names are only ever added
    ⟨outcome, after.scene, after.journal.names.drop s.journal.names.length⟩ ::
      after.observe (fun n => clock (n + 1)) inputs

/-- A session as a trial starts it. -/
def startTrial (root : Machine) (config : Config) (normalizer : Normalizer) (trial : Trial σ) :
    Session σ := (start root trial.registry config trial.host).withNormalizer normalizer

/-- What a trial leaves the host with when the session has been ended after some inputs. -/
def endTrial (root : Machine) (config : Config) (normalizer : Normalizer) (inputs : List Input)
    (trial : Trial σ) : Journal σ :=
  ((startTrial root config normalizer trial).takeAll trial.clock inputs).stop

/-- The report of a trial. -/
def report (root : Machine) (config : Config) (normalizer : Normalizer) (inputs : List Input)
    (trial : Trial σ) : Report :=
  let first := startTrial root config normalizer trial
  let last := first.takeAll trial.clock inputs
  ⟨first.scene, first.journal.names, first.observe trial.clock inputs,
    last.stop.names.drop last.journal.names.length⟩

/-! ## Two sessions side by side -/

theorem Agrees.scene_eq {s : Session σ} {s' : Session τ} (h : s.Agrees s') : s.scene = s'.scene := by
  rw [scene, scene, h.activeStates_eq, h.passages, h.view]

/-- Sessions that have performed the same names have added the same to their journals. -/
theorem PerformAlike.drop_eq {s after : Session σ} {s' after' : Session τ}
    (h : PerformAlike s after s' after') :
    after.journal.names.drop s.journal.names.length =
      after'.journal.names.drop s'.journal.names.length := by
  obtain ⟨names, hafter, hafter'⟩ := h
  rw [hafter, hafter', Journal.names_performAll, Journal.names_performAll, List.drop_left, List.drop_left]

variable {root root' : Machine}

theorem running_take (hroot : root.WellFormed) {s : Session σ} (h : Running root s) (now : Instant)
    (input : Input) : Running root (s.take now input).2 := by
  cases input with
  | stimulus x => exact running_call hroot s (.dispatch now x) h
  | event e hit => exact running_call hroot s (.feed now e hit) h

/-- An input leads from sessions that agree to sessions that agree. -/
theorem Agrees.take {s : Session σ} {s' : Session τ} (h : s.Agrees s') (hroot : root.WellFormed)
    (hroot' : root'.WellFormed) (hs : Running root s) (hs' : Running root' s') (now now' : Instant)
    (input : Input) :
    (s.take now input).1 = (s'.take now' input).1 ∧ (s.take now input).2.Agrees (s'.take now' input).2 ∧
      PerformAlike s (s.take now input).2 s' (s'.take now' input).2 := by
  cases input with
  | stimulus x => exact h.dispatch hroot hroot' hs hs' now now' x
  | event e hit =>
      rw [Session.take, Session.take, feed, feed, ← h.normalizer]
      cases s.normalizer.normalize e hit with
      | none => exact ⟨rfl, h, [], rfl, rfl⟩
      | some x => exact h.dispatch hroot hroot' hs hs' now now' x

theorem Agrees.observe_eq {s : Session σ} {s' : Session τ} (h : s.Agrees s') (hroot : root.WellFormed)
    (hroot' : root'.WellFormed) (hs : Running root s) (hs' : Running root' s') (clock clock' : Nat → Instant)
    (inputs : List Input) :
    s.observe clock inputs = s'.observe clock' inputs ∧
      (s.takeAll clock inputs).Agrees (s'.takeAll clock' inputs) := by
  induction inputs generalizing s s' clock clock' with
  | nil => exact ⟨rfl, h⟩
  | cons input inputs ih =>
      obtain ⟨houtcome, hafter, hnames⟩ := h.take hroot hroot' hs hs' (clock 0) (clock' 0) input
      obtain ⟨hrest, hlast⟩ := ih hafter (running_take hroot hs _ input) (running_take hroot' hs' _ input)
        (fun n => clock (n + 1)) (fun n => clock' (n + 1))
      refine ⟨?_, hlast⟩
      simp only [observe, houtcome, hafter.scene_eq, hnames.drop_eq, hrest]

theorem running_startTrial (hroot : root.WellFormed) (config : Config) (normalizer : Normalizer)
    (trial : Trial σ) : Running root (startTrial root config normalizer trial) := by
  have hstart := running_start hroot trial.registry config trial.host
  exact ⟨hstart.wellFormed, hstart.machine⟩

/-- Machines that agree have the same report, whatever the registries, the hosts and the times. -/
theorem report_eq (h : root.Agrees root') (hroot : root.WellFormed) (hroot' : root'.WellFormed)
    (config : Config) (normalizer : Normalizer) (inputs : List Input) (trial : Trial σ)
    (trial' : Trial τ) :
    report root config normalizer inputs trial = report root' config normalizer inputs trial' := by
  obtain ⟨hstart, hjournal, hjournal'⟩ := agrees_start h hroot hroot' config trial.registry
    trial'.registry trial.host trial'.host
  have hfirst : (startTrial root config normalizer trial).Agrees
      (startTrial root' config normalizer trial') :=
    ⟨hstart.tree, rfl, hstart.capacity, hstart.passages, hstart.view⟩
  have hentered : (startTrial root config normalizer trial).journal.names =
      (startTrial root' config normalizer trial').journal.names := by
    show (start root _ config _).journal.names = (start root' _ config _).journal.names
    rw [hjournal, hjournal', Journal.names_performAll, Journal.names_performAll]
    rfl
  obtain ⟨hsteps, hlast⟩ := hfirst.observe_eq hroot hroot' (running_startTrial hroot config normalizer trial)
    (running_startTrial hroot' config normalizer trial') trial.clock trial'.clock inputs
  obtain ⟨hstop, hstop'⟩ := hlast.stop
  rw [report, report, hfirst.scene_eq, hentered, hsteps, hstop, hstop']
  simp only [Journal.names_performAll, List.drop_left]

/-! ## One session and its callbacks -/

/-- An input performs some names and leaves the registry as it is. -/
theorem exists_names_take (s : Session σ) (now : Instant) (input : Input) :
    (s.take now input).2.registry = s.registry ∧
      ∃ names, (s.take now input).2.journal = s.journal.performAll s.registry names := by
  have hdispatch : ∀ x, (s.dispatch now x).2.registry = s.registry ∧
      ∃ names, (s.dispatch now x).2.journal = s.journal.performAll s.registry names := by
    intro x
    obtain ⟨outcome, after, heq, heffect⟩ := dispatch_effect s now x
    rw [heq]
    cases heffect with
    | unmatched hselect => exact ⟨rfl, [], rfl⟩
    | fired hselect hkind => exact ⟨rfl, _, rfl⟩
    | moved hselect hkind hindex => exact ⟨rfl, _, rfl⟩
    | untargeted hselect hkind hindex => exact ⟨rfl, [], rfl⟩
  cases input with
  | stimulus x => exact hdispatch x
  | event e hit =>
      rw [take, feed]
      cases s.normalizer.normalize e hit with
      | none => exact ⟨rfl, [], rfl⟩
      | some x => exact hdispatch x

/-- What some inputs do to the host is to invoke the names that are observed. -/
theorem journal_takeAll (s : Session σ) (clock : Nat → Instant) (inputs : List Input) :
    (s.takeAll clock inputs).registry = s.registry ∧
      (s.takeAll clock inputs).journal =
        s.journal.performAll s.registry ((s.observe clock inputs).flatMap (·.attempted)) := by
  induction inputs generalizing s clock with
  | nil => exact ⟨rfl, rfl⟩
  | cons input inputs ih =>
      obtain ⟨hregistry, names, hnames⟩ := exists_names_take s (clock 0) input
      obtain ⟨hrest, hjournal⟩ := ih (s.take (clock 0) input).2 fun n => clock (n + 1)
      rw [takeAll, observe, List.flatMap_cons, hrest, hjournal, hregistry, hnames,
        Journal.names_performAll, List.drop_left, Journal.performAll_append]
      exact ⟨rfl, rfl⟩

/-- What a trial does to the host is to invoke the names of its report, in order. -/
theorem endTrial_eq (root : Machine) (config : Config) (normalizer : Normalizer) (inputs : List Input)
    (trial : Trial σ) :
    endTrial root config normalizer inputs trial =
      (Journal.start trial.host).performAll trial.registry
        (report root config normalizer inputs trial).names := by
  let r := trial.registry
  let first := startTrial root config normalizer trial
  let last := first.takeAll trial.clock inputs
  let seen := (first.observe trial.clock inputs).flatMap (·.attempted)
  let left := last.stop.names.drop last.journal.names.length
  have hfirst : first.journal = (Journal.start trial.host).performAll r first.journal.names :=
    Journal.eq_performAll_drop
      (congrArg Prod.snd (LiveTree.launch_eq r root [] (.start trial.host)))
  obtain ⟨hregistry, hlast⟩ := journal_takeAll first trial.clock inputs
  have hstop : last.stop = last.journal.performAll last.registry left :=
    Journal.eq_performAll_drop (LiveTree.leave_eq last.registry last.tree [] last.journal)
  calc endTrial root config normalizer inputs trial
      = last.journal.performAll last.registry left := hstop
    _ = last.journal.performAll r left :=
        congrArg (fun registry => Journal.performAll registry last.journal left) hregistry
    _ = (first.journal.performAll r seen).performAll r left :=
        congrArg (fun j => Journal.performAll r j left) hlast
    _ = (((Journal.start trial.host).performAll r first.journal.names).performAll r seen).performAll r
          left := congrArg (fun j => (Journal.performAll r j seen).performAll r left) hfirst
    _ = (Journal.start trial.host).performAll r (first.journal.names ++ seen ++ left) := by
        rw [Journal.performAll_append, Journal.performAll_append]

/-- Of the names that are invoked, those complete whose callbacks do. -/
theorem completed_performAll {r : Registry σ} {test : String → Bool} (h : r.Completes test)
    (j : Journal σ) (names : List String) :
    (j.performAll r names).completed = j.completed ++ names.filter test := by
  induction names generalizing j with
  | nil => simp
  | cons name names ih =>
      have hstep : (j.perform r name).completed = j.completed ++ [name].filter test := by
        have hname := h name j.host
        cases htest : test name with
        | true => simp [Journal.perform, Journal.completed, htest, hname.2 htest]
        | false =>
            have hne : (r.invoke name j.host).1 ≠ .completed := by
              intro hcompleted
              rw [hname.1 hcompleted] at htest
              cases htest
            simp [Journal.perform, Journal.completed, htest, hne]
      show ((j.perform r name).performAll r names).completed = _
      rw [ih, hstep, List.append_assoc, ← List.filter_append]
      rfl

/-- What callbacks do shows nowhere in a session. Two trials of a validated machine have the same report,
whatever is registered and however the callbacks end. In both of them the names of the report are invoked one
after the other, and where it does not depend on the host which callbacks complete, the completed ones are
those of the report's names that complete. -/
theorem report_indifferent {root : Machine} (hroot : root.Validated) (config : Config)
    (normalizer : Normalizer) (inputs : List Input) (trial : Trial σ) (trial' : Trial τ) :
    let names := (report root config normalizer inputs trial).names
    let journal := endTrial root config normalizer inputs trial
    let journal' := endTrial root config normalizer inputs trial'
    report root config normalizer inputs trial = report root config normalizer inputs trial' ∧
      journal = (Journal.start trial.host).performAll trial.registry names ∧
      journal' = (Journal.start trial'.host).performAll trial'.registry names ∧
      (∀ test, trial.registry.Completes test → journal.completed = names.filter test) ∧
      ∀ test, trial'.registry.Completes test → journal'.completed = names.filter test := by
  intro names journal journal'
  have hwf := Machine.wellFormed_of_validated hroot
  have hsame := report_eq hroot.agrees_self hwf hwf config normalizer inputs trial trial'
  have hjournal : journal = (Journal.start trial.host).performAll trial.registry names :=
    endTrial_eq root config normalizer inputs trial
  have hjournal' : journal' = (Journal.start trial'.host).performAll trial'.registry names := by
    have hend := endTrial_eq root config normalizer inputs trial'
    rw [← hsame] at hend
    exact hend
  refine ⟨hsame, hjournal, hjournal', ?_, ?_⟩
  · intro test htest
    rw [hjournal]
    exact completed_performAll htest _ names
  · intro test htest
    rw [hjournal']
    exact completed_performAll htest _ names

/-- Callbacks for a light that blinks: the host counts how often it fades, and there is no flash. -/
def faulty : Registry Nat :=
  let panicking : Registry Nat := Registry.empty.register "flash" fun n => (.panicked .other, n)
  panicking.register "fade" fun n => (.completed, n + 1)

theorem completes_faulty : faulty.Completes fun name => name == "fade" := by
  intro name host
  rw [faulty, Registry.invoke, Registry.register, NameTable.get?_insert]
  by_cases hfade : "fade" = name
  · simp [hfade, Ending.outcome]
  · have hne : ¬ name = "fade" := Ne.symm hfade
    rw [Registry.register, NameTable.get?_insert]
    by_cases hflash : "flash" = name
    · simp [hfade, hflash, hne, Ending.outcome]
    · simp [hfade, hflash, hne, Registry.empty]

/-- A session without callbacks that is always at the start of 1970. -/
def silent : Trial Unit := ⟨.empty, (), fun _ => ⟨0, 0⟩⟩

/-- A lamp that blinks twice does so with these callbacks, at whatever times, as it does without any. -/
theorem report_indifferent_lamp :
    ∃ inner root, MachineDraft.blinker.build = .ok inner ∧ (MachineDraft.lamp inner).build = .ok root ∧
      let inputs : List Input := [.stimulus (.command "tick"), .stimulus (.command "tick")]
      (report root {} .standard inputs silent).names = ["fade", "flash", "fade"] ∧
        ∀ clock,
          let trial : Trial Nat := ⟨faulty, 0, clock⟩
          report root {} .standard inputs silent = report root {} .standard inputs trial ∧
            (endTrial root {} .standard inputs trial).completed = ["fade", "fade"] := by
  obtain ⟨inner, root, hinner, hroot, hnames⟩ : ∃ inner root,
      MachineDraft.blinker.build = .ok inner ∧ (MachineDraft.lamp inner).build = .ok root ∧
        (report root {} .standard [.stimulus (.command "tick"), .stimulus (.command "tick")] silent).names =
          ["fade", "flash", "fade"] := ⟨_, _, rfl, rfl, by decide +kernel⟩
  refine ⟨inner, root, hinner, hroot, hnames, ?_⟩
  intro clock trial
  obtain ⟨hsame, -, -, -, hcompleted⟩ := report_indifferent (Machine.validated_lamp hinner hroot) {}
    .standard [.stimulus (.command "tick"), .stimulus (.command "tick")] silent trial
  have hfade := hcompleted _ completes_faulty
  rw [hnames] at hfade
  exact ⟨hsame, hfade⟩

/-- The order of states shows nowhere. Of two blueprints that are reorderings of each other both build or
neither does. The machines are equally deep and name the same actions, and trials of them with the same
registry and the same host have the same report and leave the host with the same journal, whatever the
times. -/
theorem report_reordered {b b' : Blueprint} (h : b.Reordered b') :
    ((∃ m, b.build = .ok m) ↔ ∃ m', b'.build = .ok m') ∧
      ∀ m m', b.build = .ok m → b'.build = .ok m' →
        m.depth = m'.depth ∧ m.actionNames = m'.actionNames ∧
          ∀ (registry : Registry σ) (host : σ) (config : Config) (normalizer : Normalizer)
            (inputs : List Input) (clock clock' : Nat → Instant),
            report m config normalizer inputs ⟨registry, host, clock⟩ =
                report m' config normalizer inputs ⟨registry, host, clock'⟩ ∧
              endTrial m config normalizer inputs ⟨registry, host, clock⟩ =
                endTrial m' config normalizer inputs ⟨registry, host, clock'⟩ := by
  constructor
  · constructor
    · rintro ⟨m, hm⟩
      obtain ⟨m', hm', -⟩ := h.exists_build hm
      exact ⟨m', hm'⟩
    · rintro ⟨m', hm'⟩
      obtain ⟨m, hm, -⟩ := h.symm.exists_build hm'
      exact ⟨m, hm⟩
  · intro m m' hm hm'
    have hagrees : m.Agrees m' := by
      obtain ⟨built, hbuilt, hbuiltAgrees⟩ := h.exists_build hm
      rw [hm'] at hbuilt
      rwa [Except.ok.inj hbuilt]
    refine ⟨hagrees.depth_eq, hagrees.actionNames_eq, ?_⟩
    intro registry host config normalizer inputs clock clock'
    have hwf := Machine.wellFormed_of_validated (Blueprint.validated_of_build hm)
    have hwf' := Machine.wellFormed_of_validated (Blueprint.validated_of_build hm')
    have hsame := report_eq hagrees hwf hwf' config normalizer inputs (⟨registry, host, clock⟩ : Trial σ)
      (⟨registry, host, clock'⟩ : Trial σ)
    refine ⟨hsame, ?_⟩
    rw [endTrial_eq, endTrial_eq, hsame]

/-- A lamp whose states are turned round, and those of the light in it too, starts elsewhere in the list and
does the same. -/
theorem report_reordered_lamp :
    ∃ m m', (Blueprint.lamp .blinker).build = .ok m ∧
      (Blueprint.lamp (.turned .blinker)).turned.build = .ok m' ∧
      m.start = 0 ∧ m'.start = 1 ∧ m.depth = m'.depth ∧ m.actionNames = m'.actionNames ∧
      ∀ inputs clock clock',
        report m {} .standard inputs (⟨.empty, (), clock⟩ : Trial Unit) =
          report m' {} .standard inputs (⟨.empty, (), clock'⟩ : Trial Unit) := by
  obtain ⟨-, hbuilt⟩ := report_reordered (σ := Unit) Blueprint.reordered_lamp
  obtain ⟨hdepth, hactions, hsame⟩ := hbuilt _ _ rfl rfl
  refine ⟨_, _, rfl, rfl, rfl, rfl, hdepth, hactions, ?_⟩
  intro inputs clock clock'
  exact (hsame .empty () {} .standard inputs clock clock').1

end Session

end ModeTree
