import ModeTree.Proofs.Session.Run
import ModeTree.Proofs.Tree.Order

/-!
# Priority of transitions

The candidates for a stimulus are the transitions with a pattern for it, in the current states of all
running machines. They are ordered by the depth of the machine, then by its place in the walk, then by
the order in which the state declares its transitions. `dispatch_takes_first` says that a stimulus is
taken by the first candidate of all, which is the only one that acts, and that it is dropped when there
is none.
-/

set_option autoImplicit false

namespace ModeTree

universe u

/-- What a transition of a running machine comes to. -/
def Context.outcome (c : Context) (t : Transition) : Outcome :=
  match t.kind with
  | .action name _ => .fired c.tree.name c.tree.currentId name
  | .arrow target _ => .moved c.tree.name c.tree.currentId target

/-- A transition by its place in a live tree: the path of its machine, and its position among the
transitions of the machine's current state. -/
structure Candidate where
  path : List Nat
  position : Nat

namespace Candidate

/-- The candidate is the transition `t` of the running machine `c`. -/
structure Stands (a : Candidate) (tree : LiveTree) (c : Context) (t : Transition) : Prop where
  runs : tree.descendant? a.path = some c.tree
  path : c.path = a.path
  transition : c.tree.currentState.transitions[a.position]? = some t

/-- The candidate has a pattern for a stimulus. -/
def Waits (a : Candidate) (tree : LiveTree) (x : Stimulus) : Prop :=
  ∃ c t, a.Stands tree c t ∧ t.matchesStimulus x = true

/-- Deeper machines come first, equally deep ones in the order of the walk, and the transitions of one
machine as they are declared. -/
def Precedes (a b : Candidate) : Prop :=
  b.path.length < a.path.length ∨
    a.path.length = b.path.length ∧
      (a.path < b.path ∨ a.path = b.path ∧ a.position < b.position)

/-- The candidate for a stimulus that comes before all others. -/
structure IsFirst (a : Candidate) (tree : LiveTree) (x : Stimulus) : Prop where
  waits : a.Waits tree x
  precedes : ∀ b : Candidate, b.Waits tree x → b ≠ a → a.Precedes b

variable {a b : Candidate} {tree : LiveTree} {x : Stimulus} {c : Context} {t : Transition}

theorem Precedes.asymm (hab : a.Precedes b) : ¬ b.Precedes a := by
  rintro (hlt | ⟨hlen, hpath | ⟨hpath, hposition⟩⟩)
  · rcases hab with hlt' | ⟨hlen, -⟩
    · omega
    · omega
  · rcases hab with hlt | ⟨-, hpath' | ⟨hpath', -⟩⟩
    · omega
    · exact List.lt_asymm hpath hpath'
    · rw [hpath'] at hpath
      exact List.lt_irrefl _ hpath
  · rcases hab with hlt | ⟨-, hpath' | ⟨-, hposition'⟩⟩
    · omega
    · rw [hpath] at hpath'
      exact List.lt_irrefl _ hpath'
    · omega

/-- There is at most one first candidate. -/
theorem IsFirst.unique (ha : a.IsFirst tree x) (hb : b.IsFirst tree x) : b = a := by
  by_contra hne
  exact (ha.precedes b hb.waits hne).asymm (hb.precedes a ha.waits (Ne.symm hne))

theorem precedes_of_outranks (h : LiveTree.Outranks a.path b.path) : a.Precedes b := by
  rcases h with hlt | ⟨hlen, hlt⟩
  · exact Or.inl hlt
  · exact Or.inr ⟨hlen, Or.inl hlt⟩

/-- A machine that has a candidate is in the walk. -/
theorem Stands.mem_walk (h : a.Stands tree c t) : c ∈ tree.walk := by
  rw [LiveTree.mem_walk_iff, h.path]
  exact h.runs

/-- A state with a candidate for a stimulus finds a transition for it. -/
theorem Stands.findTransition?_ne_none (h : a.Stands tree c t) (hmatch : t.matchesStimulus x = true) :
    c.tree.currentState.findTransition? x ≠ none := by
  intro hnone
  have hmem := List.mem_of_getElem? h.transition
  exact List.find?_eq_none.1 hnone t hmem hmatch

end Candidate

namespace Session

open Candidate

variable {σ : Type u}

/-- A state finds the first of its transitions that match. -/
theorem exists_position_of_findTransition? {state : State Transition Machine} {x : Stimulus}
    {t : Transition} (h : state.findTransition? x = some t) :
    ∃ i : Nat, state.transitions[i]? = some t ∧ t.matchesStimulus x = true ∧
      ∀ (j : Nat) (u : Transition), state.transitions[j]? = some u → u.matchesStimulus x = true →
        i ≤ j := by
  obtain ⟨hmatch, i, hi, rfl, hbefore⟩ := List.find?_eq_some_iff_getElem.1 h
  refine ⟨i, List.getElem?_eq_getElem hi, hmatch, ?_⟩
  intro j u hj hu
  obtain ⟨hlt, rfl⟩ := List.getElem?_eq_some_iff.1 hj
  by_contra hji
  have hno := hbefore j (Nat.lt_of_not_le hji)
  rw [hu] at hno
  exact absurd hno (by simp)

/-- The selected transition is the first candidate. -/
theorem isFirst_of_select? {tree : LiveTree} {x : Stimulus} {c : Context} {t : Transition}
    (h : select? tree x = some (c, t)) : ∃ a : Candidate, a.Stands tree c t ∧ a.IsFirst tree x := by
  obtain ⟨earlier, d, later, hsplit, hd, hearlier⟩ := List.findSome?_eq_some_iff.1 h
  obtain ⟨found, hfound, heq⟩ := Option.map_eq_some_iff.1 hd
  obtain ⟨rfl, rfl⟩ := Prod.mk.inj heq
  obtain ⟨i, hi, hmatch, hleast⟩ := exists_position_of_findTransition? hfound
  have hstands : Stands ⟨d.path, i⟩ tree d found := ⟨descendant?_of_select? h, rfl, hi⟩
  refine ⟨⟨d.path, i⟩, hstands, ⟨⟨d, found, hstands, hmatch⟩, ?_⟩⟩
  rintro b ⟨e, u, hb, hu⟩ hne
  -- the machine of another candidate stands earlier in the order of the offer, or later, or is the same
  have hmem := (LiveTree.mem_deepestFirst_iff tree e).2 hb.mem_walk
  rw [hsplit] at hmem
  rcases List.mem_append.1 hmem with hbefore | hmem
  · have hnone := Option.map_eq_none_iff.1 (hearlier e hbefore)
    exact absurd hnone (hb.findTransition?_ne_none hu)
  · rcases List.mem_cons.1 hmem with rfl | hafter
    · have hle := hleast b.position u hb.transition hu
      have hposition : i ≠ b.position := by
        rintro rfl
        apply hne
        obtain ⟨path, position⟩ := b
        rw [hb.path]
      exact Or.inr ⟨congrArg List.length hb.path, Or.inr ⟨hb.path, Nat.lt_of_le_of_ne hle hposition⟩⟩
    · have hranked := LiveTree.deepestFirst_ranked tree
      rw [hsplit, List.pairwise_append] at hranked
      have hlater := (List.pairwise_cons.1 hranked.2.1).1 e hafter
      apply precedes_of_outranks
      rw [← hb.path]
      exact hlater

/-- No transition is selected exactly when there is no candidate. -/
theorem select?_eq_none_iff_waits (tree : LiveTree) (x : Stimulus) :
    select? tree x = none ↔ ¬ ∃ a : Candidate, a.Waits tree x := by
  constructor
  · rintro hnone ⟨a, c, t, hstands, hmatch⟩
    have hfind := (select?_eq_none_iff tree x).1 hnone c hstands.mem_walk
    exact hstands.findTransition?_ne_none hmatch hfind
  · intro hnone
    cases hselect : select? tree x with
    | none => rfl
    | some found =>
        obtain ⟨a, -, hfirst⟩ := isFirst_of_select? hselect
        exact absurd ⟨a, hfirst.waits⟩ hnone

/-- A selected transition acts, and the outcome tells of it. -/
theorem Running.dispatch_of_select? {root : Machine} {s : Session σ} (hroot : root.WellFormed)
    (h : Running root s) {x : Stimulus} {c : Context} {t : Transition}
    (hselect : select? s.tree x = some (c, t)) (now : Instant) :
    s.dispatch now x = ((s.act now x c t).1, (s.act now x c t).2.present) ∧
      (s.dispatch now x).1 = c.outcome t := by
  constructor
  · rw [dispatch, hselect]
  · obtain ⟨outcome, after, heq, hresponse⟩ := h.response hroot now x
    rw [heq]
    cases hresponse with
    | dropped hnone => simp [hselect] at hnone
    | fired hsame hkind =>
        obtain ⟨rfl, rfl⟩ : c = _ ∧ t = _ := by simpa [hselect] using hsame
        rw [Context.outcome, hkind]
    | moved hsame hkind hindex hlt hid =>
        obtain ⟨rfl, rfl⟩ : c = _ ∧ t = _ := by simpa [hselect] using hsame
        rw [Context.outcome, hkind]

/-- Paths ascend along the walk. A stimulus without a candidate is dropped. Otherwise one candidate comes
before all others; it is the transition that the current state of its machine finds, it alone acts, and
the outcome names its machine, the state, and its action or its target. -/
theorem dispatch_takes_first {root : Machine} (hroot : root.Validated) (registry : Registry σ)
    (config : Config) (host : σ) (calls : List Call) (now : Instant) (x : Stimulus) :
    let s := (start root registry config host).run calls
    (s.tree.walk.Pairwise fun c d => c.path < d.path) ∧
      ((¬ ∃ a : Candidate, a.Waits s.tree x) → s.dispatch now x = (.dropped, s.present)) ∧
      ((∃ a : Candidate, a.Waits s.tree x) →
        ∃ (a : Candidate) (c : Context) (t : Transition),
          a.IsFirst s.tree x ∧ (∀ b : Candidate, b.IsFirst s.tree x → b = a) ∧ a.Stands s.tree c t ∧
            c.tree.currentState.findTransition? x = some t ∧
            s.dispatch now x = ((s.act now x c t).1, (s.act now x c t).2.present) ∧
            (s.dispatch now x).1 = c.outcome t) := by
  intro s
  have hwf := Machine.wellFormed_of_validated hroot
  have hrun : Running root s := running_run hwf registry config host calls
  refine ⟨s.tree.walk_ascending, ?_, ?_⟩
  · intro hnone
    rw [dispatch, (select?_eq_none_iff_waits s.tree x).2 hnone]
  · intro hsome
    cases hselect : select? s.tree x with
    | none => exact absurd hsome ((select?_eq_none_iff_waits s.tree x).1 hselect)
    | some found =>
        obtain ⟨c, t⟩ := found
        obtain ⟨a, hstands, hfirst⟩ := isFirst_of_select? hselect
        obtain ⟨hact, houtcome⟩ := hrun.dispatch_of_select? hwf hselect now
        exact ⟨a, c, t, hfirst, fun b hb => hfirst.unique hb, hstands, (mem_walk_of_select? hselect).2,
          hact, houtcome⟩

/-- On a desk with two lights a tick is for the first of them. -/
theorem dispatch_takes_first_desk :
    ∃ inner root, MachineDraft.blinker.build = .ok inner ∧ (MachineDraft.desk inner).build = .ok root ∧
      ∀ now,
        let s := (start root (.empty : Registry Unit) {} ()).run []
        Candidate.IsFirst ⟨[0], 0⟩ s.tree (.command "tick") ∧
          (s.dispatch now (.command "tick")).1 = .moved "blinker" "light" "dark" := by
  refine ⟨_, _, rfl, rfl, ?_⟩
  intro now s
  have hwaits : Candidate.Waits ⟨[0], 0⟩ s.tree (.command "tick") :=
    ⟨⟨[0], _⟩, _, ⟨rfl, rfl, rfl⟩, rfl⟩
  obtain ⟨-, -, hfirst⟩ := dispatch_takes_first (Machine.validated_desk rfl rfl) (.empty : Registry Unit) {}
    () [] now (.command "tick")
  obtain ⟨a, c, t, ha, -, hstands, -⟩ := hfirst ⟨_, hwaits⟩
  by_cases heq : a = ⟨[0], 0⟩
  · exact ⟨heq ▸ ha, rfl⟩
  · -- nothing comes before the first transition of the first light
    exfalso
    rcases ha.precedes _ hwaits (Ne.symm heq) with hlt | ⟨hlen, hlt | ⟨-, hlt⟩⟩
    · have hheight : a.path.length < 2 := LiveTree.length_lt_height hstands.runs
      simp only [List.length_singleton] at hlt
      omega
    · obtain ⟨k, hk⟩ := List.length_eq_one_iff.1 hlen
      rw [hk, List.cons_lt_cons_iff] at hlt
      simp at hlt
    · exact absurd hlt (Nat.not_lt_zero _)

end Session

end ModeTree
