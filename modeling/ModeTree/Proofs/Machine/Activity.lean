import ModeTree.Proofs.Machine.WellFormed
import ModeTree.Proofs.Tree.Shape

/-!
# Activities

An activity goes on from one action, which starts it, to another one, which stops it. A state is tidy about
an activity when it stops on exit what it starts on entry or by an action (`Activity.Tidy`). A machine is
tidy when its states are, at every depth, and the machine of a document is when the written states are
(`Document.Tidy.root`).
-/

set_option autoImplicit false

namespace ModeTree

/-- Something that goes on: the actions that start it, and the one that stops it. -/
structure Activity where
  starts : List String
  stop : String
  deriving DecidableEq, Repr

namespace Activity

/-- The actions of an activity. -/
def names (a : Activity) : List String := a.stop :: a.starts

/-- The last of some actions that starts the activity or stops it. -/
def last? (a : Activity) (actions : List String) : Option String :=
  (actions.filter fun name => name ∈ a.names).getLast?

/-- After some actions the activity does not go on because of them: none of them starts it or stops it, or
the last one that does stops it. -/
def Stopped (a : Activity) (actions : List String) : Prop :=
  a.last? actions = none ∨ a.last? actions = some a.stop

instance (a : Activity) (actions : List String) : Decidable (a.Stopped actions) :=
  inferInstanceAs (Decidable (_ ∨ _))

@[simp] theorem last?_nil (a : Activity) : a.last? [] = none := rfl

theorem last?_append (a : Activity) (xs ys : List String) :
    a.last? (xs ++ ys) = (a.last? ys).or (a.last? xs) := by
  rw [last?, List.filter_append, List.getLast?_append]
  rfl

/-- What a state with an id, actions on entry and on exit, and transitions of some kinds may do about an
activity. On exit it does not start it, and if it starts it by an action or on entry it stops it on exit.
Only the states whose ids are listed start it on entry and need not stop it. -/
structure Tidy (a : Activity) (loose : List String) (id : String) (enter exit : List String)
    (kinds : List TransitionKind) : Prop where
  onExit : a.Stopped exit
  onEntry : a.Stopped enter ∨ a.last? exit = some a.stop ∨ id ∈ loose
  ofLoose : id ∈ loose → ¬ a.Stopped enter
  onTransition : ∀ kind ∈ kinds, a.Stopped kind.actions ∨ kind.target? = none ∧ a.last? exit = some a.stop

instance (a : Activity) (loose : List String) (id : String) (enter exit : List String)
    (kinds : List TransitionKind) : Decidable (a.Tidy loose id enter exit kinds) :=
  decidable_of_iff
    (a.Stopped exit ∧ (a.Stopped enter ∨ a.last? exit = some a.stop ∨ id ∈ loose) ∧
      (id ∈ loose → ¬ a.Stopped enter) ∧
        ∀ kind ∈ kinds, a.Stopped kind.actions ∨ kind.target? = none ∧ a.last? exit = some a.stop)
    ⟨fun ⟨hexit, henter, hloose, hkinds⟩ => ⟨hexit, henter, hloose, hkinds⟩,
      fun ⟨hexit, henter, hloose, hkinds⟩ => ⟨hexit, henter, hloose, hkinds⟩⟩

end Activity

variable {a : Activity} {loose : List String}

/-- A state that is tidy about an activity. -/
abbrev State.Tidy {μ : Type} (a : Activity) (loose : List String) (s : State Transition μ) : Prop :=
  a.Tidy loose s.id s.enter s.exit (s.transitions.map (·.kind))

namespace Machine

/-- All states of the machine are tidy about an activity, at any depth. -/
inductive Tidy (a : Activity) (loose : List String) : Machine → Prop
  | intro {m : Machine} (own : ∀ s ∈ m.states, s.Tidy a loose)
      (subs : ∀ s ∈ m.states, ∀ sub ∈ s.subMachines, Tidy a loose sub) : Tidy a loose m

variable {m : Machine}

theorem Tidy.own (h : m.Tidy a loose) {s : State Transition Machine} (hs : s ∈ m.states) :
    s.Tidy a loose := by
  cases h with
  | intro own subs => exact own s hs

theorem Tidy.subs (h : m.Tidy a loose) {s : State Transition Machine} (hs : s ∈ m.states) {sub : Machine}
    (hsub : sub ∈ s.subMachines) : sub.Tidy a loose := by
  cases h with
  | intro own subs => exact subs s hs sub hsub

end Machine

/-- What runs in the tree of a tidy machine is tidy. -/
theorem LiveTree.WellFormed.tidy_descendant {t u : LiveTree} (ht : t.WellFormed)
    (h : t.machine.Tidy a loose) {p : List Nat} (hp : t.descendant? p = some u) :
    u.WellFormed ∧ u.machine.Tidy a loose :=
  ht.descendant_of_inherited (fun _ hm _ hs _ hsub => hm.subs hs hsub) h hp

/-! ## Documents -/

namespace Resolution

variable {machines : NameTable MachineEntry} {maxDepth : Nat} {built : NameTable Machine}

/-- The kinds of drafted transitions are those of the written ones. -/
theorem kinds_eq_filterMap {ts : List TransitionEntry} {ds : List TransitionDraft}
    (h : List.Forall₂ (fun t d => transition? t = some d) ts ds) :
    ds.map (·.kind) = ts.filterMap kind? := by
  induction h with
  | nil => rfl
  | cons ht _ ih =>
      obtain ⟨kind, hkind, rfl⟩ := Option.map_eq_some_iff.1 ht
      rw [List.map_cons, List.filterMap_cons, hkind, ih]

/-- A written state that is tidy is built into a tidy state. -/
theorem DraftOf.tidy {d : MachineDraft} {p : String × StateEntry} {draft : StateDraft}
    (hof : DraftOf built p draft)
    (hp : a.Tidy loose p.1 p.2.enter p.2.exit (p.2.transitions.filterMap kind?)) :
    (d.buildState draft).Tidy a loose := by
  have hkinds : (d.buildState draft).transitions.map (·.kind) = p.2.transitions.filterMap kind? := by
    rw [← kinds_eq_filterMap hof.transitions]
    show (draft.transitions.map d.buildTransition).map (·.kind) = _
    rw [List.map_map]
    rfl
  rw [State.Tidy, hkinds]
  show a.Tidy loose draft.id draft.enter draft.exit _
  rw [hof.id, hof.enter, hof.exit]
  exact hp

/-- The machines that are built from tidy written states are tidy. -/
theorem tidy_of_faithful (hf : Faithful machines maxDepth built)
    (hentries : ∀ name entry, machines.get? name = some entry → ∀ p ∈ entry.states.entries,
      a.Tidy loose p.1 p.2.enter p.2.exit (p.2.transitions.filterMap kind?))
    {name : String} {m : Machine} (hm : built.get? name = some m) : m.Tidy a loose := by
  apply hf.induction (motive := fun _ m => m.Tidy a loose) ?_ hm
  intro name entry drafts m hentry hdrafts hbuild ih
  obtain ⟨-, rfl⟩ := (MachineDraft.build_eq_ok_iff _ m).1 hbuild
  constructor
  · intro s hs
    obtain ⟨draft, hdraft, rfl⟩ := List.mem_map.1 hs
    obtain ⟨p, hp, hof⟩ := exists_of_mem_right hdrafts hdraft
    exact hof.tidy (hentries name entry hentry p hp)
  · intro s hs sub hsub
    obtain ⟨draft, hdraft, rfl⟩ := List.mem_map.1 hs
    obtain ⟨-, -, htidy⟩ := ih draft hdraft sub hsub
    exact htidy

end Resolution

/-- All written states of a document are tidy about an activity. -/
def Document.Tidy (a : Activity) (loose : List String) (d : Document) : Prop :=
  ∀ e ∈ d.machines.entries, ∀ p ∈ e.2.states.entries,
    a.Tidy loose p.1 p.2.enter p.2.exit (p.2.transitions.filterMap Resolution.kind?)

instance (a : Activity) (loose : List String) (d : Document) : Decidable (d.Tidy a loose) :=
  inferInstanceAs (Decidable (∀ e ∈ d.machines.entries, ∀ p ∈ e.2.states.entries, _))

/-- A tidy document is loaded into a tidy machine. -/
theorem Document.Tidy.root {d : Document} (h : d.Tidy a loose) {maxDepth : Nat} {set : MachineSet}
    (hload : d.load maxDepth = .ok set) : set.root.Tidy a loose := by
  obtain ⟨-, -, hroot⟩ := (load_eq_ok_iff d maxDepth set).1 hload
  apply Resolution.tidy_of_faithful (faithful_of_load hload) ?_ hroot
  intro name entry hentry
  exact h (name, entry) ((d.machines.mem_entries_iff name entry).2 hentry)

end ModeTree
