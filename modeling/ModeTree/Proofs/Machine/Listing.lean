import ModeTree.Proofs.Machine.Draft
import Mathlib.Data.List.Pairwise

/-!
# The defects of a draft in order

`MachineDraft.Shows` says, without running the checks, which defects a draft has, and at which place each of
them stands. Places are compared as words are in a dictionary: first comes the machine as a whole, then its
start, then the ids that stand more than once, then the transitions state by state, and last the depth. A draft
fails exactly when it has a defect, and it answers then with all of its defects in the order of their places
(`build_lists`).
-/

set_option autoImplicit false

namespace ModeTree

/-! ## Numbered lists -/

section Numbered

variable {α β : Type}

/-- What stands in the members of a list, at its place there behind the position of the member. -/
def numbered (xs : List α) (g : α → List (List Nat × β)) : List (List Nat × β) :=
  xs.zipIdx.flatMap fun p => (g p.1).map fun e => (p.2 :: e.1, e.2)

theorem map_snd_numbered (xs : List α) (g : α → List (List Nat × β)) :
    (numbered xs g).map Prod.snd = xs.flatMap fun x => (g x).map Prod.snd := by
  have hmembers : xs.zipIdx.map Prod.fst = xs := List.zipIdx_map_fst 0 xs
  rw [numbered, List.map_flatMap]
  simp only [List.map_map]
  conv_rhs => rw [← hmembers, List.flatMap_map]
  rfl

theorem mem_numbered_iff (xs : List α) (g : α → List (List Nat × β)) (place : List Nat) (b : β) :
    (place, b) ∈ numbered xs g ↔
      ∃ i x rest, xs[i]? = some x ∧ (rest, b) ∈ g x ∧ place = i :: rest := by
  rw [numbered, List.mem_flatMap]
  constructor
  · rintro ⟨⟨x, i⟩, hx, hmem⟩
    obtain ⟨⟨rest, c⟩, he, heq⟩ := List.mem_map.1 hmem
    obtain ⟨rfl, rfl⟩ := Prod.mk.inj heq
    exact ⟨i, x, rest, List.mk_mem_zipIdx_iff_getElem?.1 hx, he, rfl⟩
  · rintro ⟨i, x, rest, hx, he, rfl⟩
    exact ⟨(x, i), List.mk_mem_zipIdx_iff_getElem?.2 hx, List.mem_map.2 ⟨(rest, b), he, rfl⟩⟩

/-- Where the members are in order, so is what stands in them. -/
theorem numbered_ordered {xs : List α} {g : α → List (List Nat × β)}
    (h : ∀ x ∈ xs, (g x).Pairwise fun a b => a.1 < b.1) :
    (numbered xs g).Pairwise fun a b => a.1 < b.1 := by
  rw [numbered, List.pairwise_flatMap]
  constructor
  · rintro ⟨x, i⟩ hx
    rw [List.pairwise_map]
    have hmem : x ∈ xs := List.mem_of_getElem? (List.mk_mem_zipIdx_iff_getElem?.1 hx)
    exact (h x hmem).imp fun hab => List.Lex.cons hab
  · -- of two members the earlier one has the lower position
    have hpositions : (xs.zipIdx.map Prod.snd).Pairwise (· < ·) := by
      rw [List.zipIdx_map_snd]
      exact List.pairwise_lt_range'
    refine (List.pairwise_map.1 hpositions).imp ?_
    rintro p q hpq a ha b hb
    obtain ⟨e, -, rfl⟩ := List.mem_map.1 ha
    obtain ⟨f, -, rfl⟩ := List.mem_map.1 hb
    exact List.Lex.rel hpq

end Numbered

/-! ## Levels -/

/-- A machine that stands in a state of another. -/
def Machine.Holding (m sub : Machine) : Prop := ∃ s ∈ m.states, sub ∈ s.subMachines

namespace MachineDraft

/-- Machines of which the first stands in a state of the draft, and each of the others in a state of the one
before it. -/
structure Nests (d : MachineDraft) (chain : List Machine) : Prop where
  first : ∀ m, chain.head? = some m → ∃ s ∈ d.states, m ∈ s.subMachines
  others : chain.IsChain Machine.Holding

/-- How deep a draft nests: as many machines stand one in another, the machine of the draft among them, and
nowhere more. -/
structure Levels (d : MachineDraft) (levels : Nat) : Prop where
  reached : ∃ chain, d.Nests chain ∧ levels = chain.length + 1
  greatest : ∀ chain, d.Nests chain → chain.length + 1 ≤ levels

theorem Levels.unique {d : MachineDraft} {levels levels' : Nat} (h : d.Levels levels)
    (h' : d.Levels levels') : levels = levels' := by
  obtain ⟨chain, hchain, rfl⟩ := h.reached
  obtain ⟨chain', hchain', rfl⟩ := h'.reached
  have hle := h.greatest chain' hchain'
  have hge := h'.greatest chain hchain
  omega

/-- A depth that is one more than that of the deepest machine below is reached by one of them, unless there
are none. -/
theorem exists_deepest {Below : Machine → Prop} {depth : Nat} (hpos : 0 < depth)
    (h : ∀ n, depth ≤ n + 1 ↔ ∀ sub, Below sub → sub.depth ≤ n) :
    depth = 1 ∨ ∃ sub, Below sub ∧ depth = sub.depth + 1 := by
  by_contra hnone
  obtain ⟨hone, hall⟩ := not_or.1 hnone
  obtain ⟨n, rfl⟩ : ∃ n, depth = n + 2 := ⟨depth - 2, by omega⟩
  -- all machines below would be less deep, and so would be the one above them
  have hless : ∀ sub, Below sub → sub.depth ≤ n := by
    intro sub hsub
    have hle := (h (n + 1)).1 (Nat.le_refl _) sub hsub
    have hne : n + 2 ≠ sub.depth + 1 := fun heq => hall ⟨sub, hsub, heq⟩
    omega
  have := (h n).2 hless
  omega

theorem length_le_depth_of_chain {chain : List Machine} {m : Machine}
    (h : (m :: chain).IsChain Machine.Holding) : (m :: chain).length ≤ m.depth := by
  induction chain generalizing m with
  | nil => exact m.depth_pos
  | cons sub chain ih =>
      obtain ⟨⟨s, hs, hsub⟩, hrest⟩ := List.isChain_cons_cons.1 h
      have hlt := Machine.depth_lt_of_mem hs hsub
      have hle := ih hrest
      simp only [List.length_cons] at hle ⊢
      omega

theorem exists_chain_of_depth (m : Machine) :
    ∃ chain, (m :: chain).IsChain Machine.Holding ∧ m.depth = (m :: chain).length := by
  induction m using Machine.induction with
  | nest m ih =>
      have hbelow : ∀ n, m.depth ≤ n + 1 ↔ ∀ sub, m.Holding sub → sub.depth ≤ n := by
        intro n
        rw [Machine.depth_le_succ_iff]
        exact ⟨fun h sub ⟨s, hs, hsub⟩ => h s hs sub hsub, fun h s hs sub hsub => h sub ⟨s, hs, hsub⟩⟩
      rcases exists_deepest m.depth_pos hbelow with hone | ⟨sub, ⟨s, hs, hsub⟩, hdepth⟩
      · exact ⟨[], List.IsChain.singleton m, hone⟩
      · obtain ⟨chain, hchain, hlength⟩ := ih s hs sub hsub
        refine ⟨sub :: chain, List.isChain_cons_cons.2 ⟨⟨s, hs, hsub⟩, hchain⟩, ?_⟩
        rw [hdepth, hlength]
        rfl

/-- The depth of a draft is how deep it nests. -/
theorem levels_depth (d : MachineDraft) : d.Levels d.depth := by
  have hbelow : ∀ n, d.depth ≤ n + 1 ↔
      ∀ sub, (∃ s ∈ d.states, sub ∈ s.subMachines) → sub.depth ≤ n := by
    intro n
    rw [depth_le_succ_iff]
    exact ⟨fun h sub ⟨s, hs, hsub⟩ => h s hs sub hsub, fun h s hs sub hsub => h sub ⟨s, hs, hsub⟩⟩
  refine ⟨?_, fun chain hchain => ?_⟩
  · rcases exists_deepest d.depth_pos hbelow with hone | ⟨sub, hsub, hdepth⟩
    · exact ⟨[], ⟨fun m hm => absurd hm (by simp), List.IsChain.nil⟩, hone⟩
    · obtain ⟨chain, hchain, hlength⟩ := exists_chain_of_depth sub
      refine ⟨sub :: chain, ⟨fun m hm => ?_, hchain⟩, hlength ▸ hdepth⟩
      obtain rfl : sub = m := by simpa using hm
      exact hsub
  · cases chain with
    | nil => exact d.depth_pos
    | cons m chain =>
        obtain ⟨s, hs, hm⟩ := hchain.first m rfl
        have hlt := depth_lt_of_mem hs hm
        have hle := length_le_depth_of_chain hchain.others
        omega

/-! ## Defects and their places -/

/-- The draft has a defect at a place. -/
inductive Shows (d : MachineDraft) : List Nat → Defect → Prop
  | noStates (hempty : d.states = []) : Shows d [0] (.noStates d.name)
  | missingStart (hstart : d.start = none) : Shows d [1] (.missingStart d.name)
  | unknownStart {id : String} (hstart : d.start = some id) (hstates : d.states ≠ [])
      (hunknown : id ∉ d.ids) : Shows d [1] (.unknownStart d.name id)
  /-- The id of the state at position `i` stands there for the second time. -/
  | duplicateState {i : Nat} {id : String} (hid : d.ids[i]? = some id)
      (hsecond : (d.ids.take i).count id = 1) : Shows d [2, i] (.duplicateState d.name id)
  | noStimuli {i j : Nat} {s : StateDraft} {t : TransitionDraft} (hs : d.states[i]? = some s)
      (ht : s.transitions[j]? = some t) (hempty : t.stimuli = []) :
      Shows d [3, i, j, 0] (.noStimuli d.name s.id t.kind.key)
  | badStimulus {i j k : Nat} {s : StateDraft} {t : TransitionDraft} {text : String} {cause : ParseError}
      (hs : d.states[i]? = some s) (ht : s.transitions[j]? = some t) (htext : t.stimuli[k]? = some text)
      (hparse : Stimulus.parse text = .error cause) :
      Shows d [3, i, j, 1, k] (.badStimulus d.name s.id text cause)
  | danglingTarget {i j : Nat} {s : StateDraft} {t : TransitionDraft} {target : String}
      (hs : d.states[i]? = some s) (ht : s.transitions[j]? = some t) (htarget : t.kind.target? = some target)
      (hunknown : target ∉ d.ids) : Shows d [3, i, j, 2] (.danglingTarget d.name s.id target)
  | tooDeep {levels : Nat} (hlevels : d.Levels levels) (hdeep : d.maxDepth < levels) :
      Shows d [4] (.tooDeep d.name levels d.maxDepth)

/-- All defects of a draft with their places, in the order of these. -/
structure Lists (d : MachineDraft) (found : List (List Nat × Defect)) : Prop where
  ordered : found.Pairwise fun a b => a.1 < b.1
  complete : ∀ place defect, (place, defect) ∈ found ↔ d.Shows place defect

/-- There is one list of them. -/
theorem Lists.unique {d : MachineDraft} {found found' : List (List Nat × Defect)} (h : d.Lists found)
    (h' : d.Lists found') : found = found' := by
  have hnodup : ∀ {xs : List (List Nat × Defect)}, (xs.Pairwise fun a b => a.1 < b.1) → xs.Nodup := by
    intro xs hxs
    refine hxs.imp ?_
    rintro a b hab rfl
    exact List.lt_irrefl _ hab
  have hperm : found.Perm found' := by
    rw [List.perm_ext_iff_of_nodup (hnodup h.ordered) (hnodup h'.ordered)]
    rintro ⟨place, defect⟩
    rw [h.complete, h'.complete]
  apply hperm.eq_of_pairwise ?_ h.ordered h'.ordered
  intro a b _ _ hab hba
  exact absurd (List.lt_trans hab hba) (List.lt_irrefl _)

/-! ## The checks with their places -/

/-- A check that finds at most one defect, which stands nowhere further down. -/
def here (defects : List Defect) : List (List Nat × Defect) := defects.map ([], ·)

/-- The checks of a transition: whether it has stimuli, each of its texts, and its target. -/
def checkTransition (d : MachineDraft) (s : StateDraft) (t : TransitionDraft) :
    List (List Nat × Defect) :=
  numbered
    [here (if t.stimuli.isEmpty then [.noStimuli d.name s.id t.kind.key] else []),
      numbered t.stimuli fun text => here (stimulusDefect? d.name s.id text).toList,
      here (match t.kind.target? with
        | none => []
        | some target => if d.ids.contains target then [] else [.danglingTarget d.name s.id target])]
    id

/-- The checks of the ids: each is reported where it stands for the second time. -/
def checkIds (d : MachineDraft) : List (List Nat × Defect) :=
  numbered d.ids.zipIdx fun p =>
    here (if (d.ids.take p.2).count p.1 = 1 then [.duplicateState d.name p.1] else [])

/-- All checks of a draft. -/
def check (d : MachineDraft) : List (List Nat × Defect) :=
  numbered
    [here (if d.states.isEmpty then [.noStates d.name] else []),
      here d.startDefects,
      d.checkIds,
      numbered d.states fun s => numbered s.transitions (d.checkTransition s),
      here (if d.maxDepth < d.depth then [.tooDeep d.name d.depth d.maxDepth] else [])]
    id

theorem map_snd_here (defects : List Defect) : (here defects).map Prod.snd = defects := by
  rw [here, List.map_map]
  exact List.map_id _

theorem mem_here_iff (defects : List Defect) (place : List Nat) (defect : Defect) :
    (place, defect) ∈ here defects ↔ place = [] ∧ defect ∈ defects := by
  simp [here, and_comm, eq_comm]

theorem mem_here_if_iff (c : Prop) [Decidable c] (x : Defect) (place : List Nat) (defect : Defect) :
    (place, defect) ∈ here (if c then [x] else []) ↔ c ∧ place = [] ∧ defect = x := by
  rw [mem_here_iff]
  by_cases hc : c <;> simp [hc]

theorem here_ordered {defects : List Defect} (h : defects.length ≤ 1) :
    (here defects).Pairwise fun a b => a.1 < b.1 := by
  match defects, h with
  | [], _ => exact List.Pairwise.nil
  | [defect], _ => exact List.pairwise_singleton _ _

/-- The ids that are reported, each at its second place. -/
theorem repeatedIds_eq (seen ids : List String) :
    repeatedIds seen ids = ids.zipIdx.flatMap fun p =>
      if seen.count p.1 + (ids.take p.2).count p.1 = 1 then [p.1] else [] := by
  induction ids generalizing seen with
  | nil => rfl
  | cons id ids ih =>
      have hhead : repeatedIds seen (id :: ids) =
          (if seen.count id = 1 then [id] else []) ++ repeatedIds (id :: seen) ids := by
        rw [repeatedIds]
        split <;> rfl
      rw [hhead, ih, List.zipIdx_cons, List.flatMap_cons, List.zipIdx_succ, List.flatMap_map]
      congr 1
      -- behind the head, what has been seen is longer by it, and so is what stands before
      apply List.flatMap_congr
      rintro ⟨other, i⟩ -
      simp only [List.take_succ_cons, List.count_cons]
      congr 2
      omega

/-- The checks find what the draft is answered with. -/
theorem map_snd_check (d : MachineDraft) : d.check.map Prod.snd = d.defects := by
  have hids : d.checkIds.map Prod.snd = (repeatedIds [] d.ids).map (.duplicateState d.name) := by
    rw [checkIds, map_snd_numbered, repeatedIds_eq, List.map_flatMap]
    apply List.flatMap_congr
    rintro ⟨id, i⟩ -
    rw [map_snd_here, List.count_nil, Nat.zero_add]
    split <;> rfl
  have htransition : ∀ s t, (d.checkTransition s t).map Prod.snd = d.transitionDefects s.id t := by
    intro s t
    rw [checkTransition, transitionDefects]
    cases t.kind.target? <;>
      simp [map_snd_numbered, map_snd_here, List.filterMap_eq_flatMap_toList]
  simp only [check, map_snd_numbered, List.flatMap_cons, List.flatMap_nil, id, map_snd_here, hids,
    htransition, List.append_nil, defects, List.append_assoc]

/-- What is found in the ids. -/
theorem mem_checkIds_iff (d : MachineDraft) (place : List Nat) (defect : Defect) :
    (place, defect) ∈ d.checkIds ↔ ∃ i id, d.ids[i]? = some id ∧ (d.ids.take i).count id = 1 ∧
      place = [i] ∧ defect = .duplicateState d.name id := by
  rw [checkIds, mem_numbered_iff]
  constructor
  · rintro ⟨i, ⟨id, n⟩, rest, hx, hmem, rfl⟩
    obtain ⟨hid, rfl⟩ : d.ids[i]? = some id ∧ i = n := by simpa [List.getElem?_zipIdx] using hx
    obtain ⟨hsecond, rfl, rfl⟩ := (mem_here_if_iff _ _ _ _).1 hmem
    exact ⟨i, id, hid, hsecond, rfl, rfl⟩
  · rintro ⟨i, id, hid, hsecond, rfl, rfl⟩
    exact ⟨i, (id, i), [], by simp [List.getElem?_zipIdx, hid],
      (mem_here_if_iff _ _ _ _).2 ⟨hsecond, rfl, rfl⟩, rfl⟩

/-- What is found in a text. -/
theorem mem_checkText_iff (d : MachineDraft) (s : StateDraft) (text : String) (place : List Nat)
    (defect : Defect) :
    (place, defect) ∈ here (stimulusDefect? d.name s.id text).toList ↔
      ∃ cause, Stimulus.parse text = .error cause ∧ place = [] ∧
        defect = .badStimulus d.name s.id text cause := by
  rw [mem_here_iff, stimulusDefect?]
  cases Stimulus.parse text with
  | ok x => simp
  | error cause => simp

/-- What is found in a transition. -/
theorem mem_checkTransition_iff (d : MachineDraft) (s : StateDraft) (t : TransitionDraft)
    (place : List Nat) (defect : Defect) :
    (place, defect) ∈ d.checkTransition s t ↔
      (t.stimuli = [] ∧ place = [0] ∧ defect = .noStimuli d.name s.id t.kind.key) ∨
        (∃ k text cause, t.stimuli[k]? = some text ∧ Stimulus.parse text = .error cause ∧
          place = [1, k] ∧ defect = .badStimulus d.name s.id text cause) ∨
        ∃ target, t.kind.target? = some target ∧ target ∉ d.ids ∧ place = [2] ∧
          defect = .danglingTarget d.name s.id target := by
  rw [checkTransition, mem_numbered_iff]
  constructor
  · rintro ⟨step, x, rest, hx, hmem, rfl⟩
    match step, hx with
    | 0, hx =>
      obtain rfl := Option.some.inj hx
      obtain ⟨hempty, rfl, rfl⟩ := (mem_here_if_iff _ _ _ _).1 hmem
      exact .inl ⟨List.isEmpty_iff.1 hempty, rfl, rfl⟩
    | 1, hx =>
      obtain rfl := Option.some.inj hx
      obtain ⟨k, text, deeper, htext, hin, rfl⟩ := (mem_numbered_iff _ _ _ _).1 hmem
      obtain ⟨cause, hparse, rfl, rfl⟩ := (mem_checkText_iff d s text _ _).1 hin
      exact .inr (.inl ⟨k, text, cause, htext, hparse, rfl, rfl⟩)
    | 2, hx =>
      obtain rfl := Option.some.inj hx
      obtain ⟨rfl, hfound⟩ := (mem_here_iff _ _ _).1 hmem
      cases htarget : t.kind.target? with
      | none => simp [htarget] at hfound
      | some target =>
        obtain ⟨hunknown, rfl⟩ : target ∉ d.ids ∧ defect = .danglingTarget d.name s.id target := by
          simpa [htarget] using hfound
        exact .inr (.inr ⟨target, rfl, hunknown, rfl, rfl⟩)
  · rintro (⟨hempty, rfl, rfl⟩ | ⟨k, text, cause, htext, hparse, rfl, rfl⟩ |
      ⟨target, htarget, hunknown, rfl, rfl⟩)
    · exact ⟨0, _, [], rfl, (mem_here_if_iff _ _ _ _).2 ⟨List.isEmpty_iff.2 hempty, rfl, rfl⟩, rfl⟩
    · refine ⟨1, _, [k], rfl, (mem_numbered_iff _ _ _ _).2 ⟨k, text, [], htext, ?_, rfl⟩, rfl⟩
      exact (mem_checkText_iff d s text _ _).2 ⟨cause, hparse, rfl, rfl⟩
    · exact ⟨2, _, [], rfl, (mem_here_iff _ _ _).2 ⟨rfl, by simp [htarget, hunknown]⟩, rfl⟩

/-- What is found in the transitions of all states. -/
theorem mem_checkStates_iff (d : MachineDraft) (place : List Nat) (defect : Defect) :
    (place, defect) ∈ (numbered d.states fun s => numbered s.transitions (d.checkTransition s)) ↔
      ∃ i j s t rest, d.states[i]? = some s ∧ s.transitions[j]? = some t ∧
        (rest, defect) ∈ d.checkTransition s t ∧ place = i :: j :: rest := by
  rw [mem_numbered_iff]
  constructor
  · rintro ⟨i, s, below, hs, hstate, rfl⟩
    obtain ⟨j, t, rest, ht, htransition, rfl⟩ := (mem_numbered_iff _ _ _ _).1 hstate
    exact ⟨i, j, s, t, rest, hs, ht, htransition, rfl⟩
  · rintro ⟨i, j, s, t, rest, hs, ht, htransition, rfl⟩
    exact ⟨i, s, _, hs, (mem_numbered_iff _ _ _ _).2 ⟨j, t, rest, ht, htransition, rfl⟩, rfl⟩

/-- What is found at the start. -/
theorem mem_checkStart_iff (d : MachineDraft) (place : List Nat) (defect : Defect) :
    (place, defect) ∈ here d.startDefects ↔ place = [] ∧
      ((d.start = none ∧ defect = .missingStart d.name) ∨
        ∃ id, d.start = some id ∧ d.states ≠ [] ∧ id ∉ d.ids ∧ defect = .unknownStart d.name id) := by
  rw [mem_here_iff, startDefects]
  cases d.start with
  | none => simp
  | some id => simp [and_assoc]

/-- Each defect that the checks find shows at its place. -/
theorem shows_of_mem_check {d : MachineDraft} {place : List Nat} {defect : Defect}
    (h : (place, defect) ∈ d.check) : d.Shows place defect := by
  obtain ⟨stage, x, rest, hx, hmem, rfl⟩ := (mem_numbered_iff _ _ _ _).1 h
  match stage, hx with
  | 0, hx =>
    obtain rfl := Option.some.inj hx
    obtain ⟨hempty, rfl, rfl⟩ := (mem_here_if_iff _ _ _ _).1 hmem
    exact .noStates (List.isEmpty_iff.1 hempty)
  | 1, hx =>
    obtain rfl := Option.some.inj hx
    obtain ⟨rfl, ⟨hstart, rfl⟩ | ⟨id, hstart, hstates, hunknown, rfl⟩⟩ := (mem_checkStart_iff d _ _).1 hmem
    · exact .missingStart hstart
    · exact .unknownStart hstart hstates hunknown
  | 2, hx =>
    obtain rfl := Option.some.inj hx
    obtain ⟨i, id, hid, hsecond, rfl, rfl⟩ := (mem_checkIds_iff d _ _).1 hmem
    exact .duplicateState hid hsecond
  | 3, hx =>
    obtain rfl := Option.some.inj hx
    obtain ⟨i, j, s, t, last, hs, ht, htransition, rfl⟩ := (mem_checkStates_iff d _ _).1 hmem
    rcases (mem_checkTransition_iff d s t _ _).1 htransition with ⟨hempty, rfl, rfl⟩ |
      ⟨k, text, cause, htext, hparse, rfl, rfl⟩ | ⟨target, htarget, hunknown, rfl, rfl⟩
    · exact .noStimuli hs ht hempty
    · exact .badStimulus hs ht htext hparse
    · exact .danglingTarget hs ht htarget hunknown
  | 4, hx =>
    obtain rfl := Option.some.inj hx
    obtain ⟨hdeep, rfl, rfl⟩ := (mem_here_if_iff _ _ _ _).1 hmem
    exact .tooDeep d.levels_depth hdeep

/-- Each defect that shows is found by one of the checks. -/
theorem mem_check_of_shows {d : MachineDraft} {place : List Nat} {defect : Defect}
    (h : d.Shows place defect) : (place, defect) ∈ d.check := by
  have htransition : ∀ {i j s t rest defect}, d.states[i]? = some s → s.transitions[j]? = some t →
      (rest, defect) ∈ d.checkTransition s t → (3 :: i :: j :: rest, defect) ∈ d.check := by
    intro i j s t rest defect hs ht hmem
    exact (mem_numbered_iff _ _ _ _).2
      ⟨3, _, _, rfl, (mem_checkStates_iff d _ _).2 ⟨i, j, s, t, rest, hs, ht, hmem, rfl⟩, rfl⟩
  cases h with
  | noStates hempty =>
    have hmem := (mem_here_if_iff _ (.noStates d.name) _ _).2 ⟨List.isEmpty_iff.2 hempty, rfl, rfl⟩
    exact (mem_numbered_iff _ _ _ _).2 ⟨0, _, [], rfl, hmem, rfl⟩
  | missingStart hstart =>
    have hmem := (mem_checkStart_iff d [] _).2 ⟨rfl, .inl ⟨hstart, rfl⟩⟩
    exact (mem_numbered_iff _ _ _ _).2 ⟨1, _, [], rfl, hmem, rfl⟩
  | unknownStart hstart hstates hunknown =>
    have hmem := (mem_checkStart_iff d [] _).2 ⟨rfl, .inr ⟨_, hstart, hstates, hunknown, rfl⟩⟩
    exact (mem_numbered_iff _ _ _ _).2 ⟨1, _, [], rfl, hmem, rfl⟩
  | duplicateState hid hsecond =>
    have hmem := (mem_checkIds_iff d _ _).2 ⟨_, _, hid, hsecond, rfl, rfl⟩
    exact (mem_numbered_iff _ _ _ _).2 ⟨2, _, _, rfl, hmem, rfl⟩
  | noStimuli hs ht hempty =>
    apply htransition hs ht
    exact (mem_checkTransition_iff d _ _ _ _).2 (.inl ⟨hempty, rfl, rfl⟩)
  | badStimulus hs ht htext hparse =>
    apply htransition hs ht
    exact (mem_checkTransition_iff d _ _ _ _).2 (.inr (.inl ⟨_, _, _, htext, hparse, rfl, rfl⟩))
  | danglingTarget hs ht htarget hunknown =>
    apply htransition hs ht
    exact (mem_checkTransition_iff d _ _ _ _).2 (.inr (.inr ⟨_, htarget, hunknown, rfl, rfl⟩))
  | tooDeep hlevels hdeep =>
    obtain rfl := hlevels.unique d.levels_depth
    have hmem := (mem_here_if_iff _ (.tooDeep d.name d.depth d.maxDepth) _ _).2 ⟨hdeep, rfl, rfl⟩
    exact (mem_numbered_iff _ _ _ _).2 ⟨4, _, [], rfl, hmem, rfl⟩

/-- The checks find each defect at its place, and nothing else. -/
theorem mem_check_iff (d : MachineDraft) (place : List Nat) (defect : Defect) :
    (place, defect) ∈ d.check ↔ d.Shows place defect := ⟨shows_of_mem_check, mem_check_of_shows⟩

/-- They find them in the order of their places. -/
theorem check_ordered (d : MachineDraft) : d.check.Pairwise fun a b => a.1 < b.1 := by
  have htransition : ∀ s t, (d.checkTransition s t).Pairwise fun a b => a.1 < b.1 := by
    intro s t
    apply numbered_ordered
    simp only [List.forall_mem_cons, id]
    refine ⟨here_ordered ?_, numbered_ordered fun text _ => here_ordered ?_, here_ordered ?_, ?_⟩
    · split <;> simp
    · cases stimulusDefect? d.name s.id text <;> simp
    · cases t.kind.target? with
      | none => simp
      | some target =>
        dsimp only
        split <;> simp
    · exact fun x hx => absurd hx List.not_mem_nil
  apply numbered_ordered
  simp only [List.forall_mem_cons, id]
  refine ⟨here_ordered ?_, here_ordered ?_, numbered_ordered fun p _ => here_ordered ?_,
    numbered_ordered fun s _ => numbered_ordered fun t _ => htransition s t, here_ordered ?_, ?_⟩
  · split <;> simp
  · rw [startDefects]
    cases d.start with
    | none => simp
    | some id =>
      dsimp only
      split <;> simp
  · split <;> simp
  · split <;> simp
  · exact fun x hx => absurd hx List.not_mem_nil

theorem lists_check (d : MachineDraft) : d.Lists d.check := ⟨d.check_ordered, d.mem_check_iff⟩

/-! ## Ids that stand more than once -/

/-- An id stands more than once exactly when it stands somewhere for the second time, and that is one place. -/
theorem two_le_count_iff (ids : List String) (id : String) :
    2 ≤ ids.count id ↔ ∃! i, ids[i]? = some id ∧ (ids.take i).count id = 1 := by
  have hplace : id ∈ repeatedIds [] ids ↔ ∃ i, ids[i]? = some id ∧ (ids.take i).count id = 1 := by
    rw [repeatedIds_eq, List.mem_flatMap]
    constructor
    · rintro ⟨⟨other, i⟩, hother, hmem⟩
      split at hmem
      · next hsecond =>
        obtain rfl := List.mem_singleton.1 hmem
        exact ⟨i, List.mk_mem_zipIdx_iff_getElem?.1 hother, by simpa using hsecond⟩
      · exact absurd hmem List.not_mem_nil
    · rintro ⟨i, hid, hsecond⟩
      exact ⟨(id, i), List.mk_mem_zipIdx_iff_getElem?.2 hid, by simp [hsecond]⟩
  -- behind its second place the id has stood twice already
  have hlate : ∀ {i j}, ids[i]? = some id → (ids.take i).count id = 1 → (ids.take j).count id = 1 →
      ¬ i < j := by
    intro i j hid hi hj hlt
    have hsub : (ids.take (i + 1)).Sublist (ids.take j) := List.take_sublist_take_left hlt
    have hcount := hsub.count_le id
    rw [List.take_add_one, hid, Option.toList_some, List.count_append, List.count_singleton_self] at hcount
    omega
  rw [mem_repeatedIds_iff, List.count_nil] at hplace
  constructor
  · intro htwice
    obtain ⟨i, hid, hsecond⟩ := hplace.1 ⟨by omega, by omega⟩
    refine ⟨i, ⟨hid, hsecond⟩, ?_⟩
    rintro j ⟨hjd, hj⟩
    have hle := Nat.le_of_not_lt (hlate hid hsecond hj)
    have hge := Nat.le_of_not_lt (hlate hjd hj hsecond)
    omega
  · rintro ⟨i, hi, -⟩
    have := (hplace.2 ⟨i, hi⟩).2
    omega

/-- A draft fails exactly when a defect shows in it. It is answered then with all of its defects, in the order
of their places. An id that stands more than once is among them once. -/
theorem build_lists (d : MachineDraft) :
    ((∃ defects, d.build = .error defects) ↔ ∃ place defect, d.Shows place defect) ∧
      (∀ defects, d.build = .error defects ↔
        ∃ found, d.Lists found ∧ found ≠ [] ∧ defects = found.map Prod.snd) ∧
      ∀ id, 2 ≤ d.ids.count id ↔ ∃! i, d.Shows [2, i] (.duplicateState d.name id) := by
  have hanswer : ∀ defects, d.build = .error defects ↔
      ∃ found, d.Lists found ∧ found ≠ [] ∧ defects = found.map Prod.snd := by
    intro defects
    rw [build_eq_error_iff, ← map_snd_check]
    constructor
    · rintro ⟨rfl, hne⟩
      exact ⟨d.check, d.lists_check, fun hnil => hne (by rw [hnil]; rfl), rfl⟩
    · rintro ⟨found, hfound, hne, rfl⟩
      obtain rfl := hfound.unique d.lists_check
      exact ⟨rfl, fun hnil => hne (List.map_eq_nil_iff.1 hnil)⟩
  refine ⟨?_, hanswer, fun id => ?_⟩
  · constructor
    · rintro ⟨defects, hdefects⟩
      obtain ⟨found, hfound, hne, -⟩ := (hanswer defects).1 hdefects
      obtain ⟨⟨place, defect⟩, hmem⟩ := List.exists_mem_of_ne_nil found hne
      exact ⟨place, defect, (hfound.complete place defect).1 hmem⟩
    · rintro ⟨place, defect, hshows⟩
      have hmem := (d.mem_check_iff place defect).2 hshows
      exact ⟨_, (hanswer _).2 ⟨d.check, d.lists_check, List.ne_nil_of_mem hmem, rfl⟩⟩
  · have hshows : ∀ i, d.Shows [2, i] (.duplicateState d.name id) ↔
        d.ids[i]? = some id ∧ (d.ids.take i).count id = 1 := by
      intro i
      constructor
      · rintro (_ | _ | _ | ⟨hid, hsecond⟩)
        exact ⟨hid, hsecond⟩
      · rintro ⟨hid, hsecond⟩
        exact .duplicateState hid hsecond
    simp only [hshows, two_le_count_iff]

-- One id three times, and a transition that waits for nothing and leads nowhere.
example : build ⟨"m", some "x", [⟨"a", [], [], [⟨.arrow "ghost" [], [], .empty⟩], [], .inherit, none⟩,
      .named "a", .named "a"], 0⟩ =
    .error [.unknownStart "m" "x", .duplicateState "m" "a", .noStimuli "m" "a" "-> ghost",
      .danglingTarget "m" "a" "ghost", .tooDeep "m" 1 0] := rfl

end MachineDraft

end ModeTree
