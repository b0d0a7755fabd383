import ModeTree.Proofs.Document.Translation
import Mathlib.Data.Finset.Card
import Mathlib.Logic.Relation

/-!
# Valid documents

`Document.Valid` says of a document, without resolving it, that it has no defect: every machine is well
written by itself, no machine refers to itself on some way, and no chain of references is longer than
the depth allowed. The resolver answers with machines exactly for the valid documents
(`load_isOk_iff_valid`).

One invariant carries the proof. While a document is resolved, every machine built comes from the entry
of its name, the machines that are being built are not in the table yet, and a defect is only ever
noted in a document that is not valid (`Sane`). Every part of the resolver keeps it, and answers without
a result only after a defect (`Step`). The resolver counts levels, but there is always one left for a machine
that is not being built yet (`Room`), and what it does with one is told by cases (`LookedUp`).
-/

set_option autoImplicit false

namespace ModeTree

/-- A written transition of a machine with the given states that has no defect. -/
structure TransitionEntry.Valid (states : NameTable StateEntry) (t : TransitionEntry) : Prop where
  kind : t.target.isSome ≠ t.action.isSome
  stimuli : t.on ≠ []
  readable : ∀ text ∈ t.on, ∃ x, Stimulus.parse text = .ok x
  target : ∀ target, t.target = some target → states.contains target = true

/-- A written machine that has no defect of its own. -/
structure MachineEntry.Valid (machines : NameTable MachineEntry) (e : MachineEntry) : Prop where
  states : e.states.entries ≠ []
  start : e.states.contains e.start = true
  subMachines : ∀ p ∈ e.states.entries, ∀ sub ∈ p.2.subMachines, machines.contains sub = true
  transitions : ∀ p ∈ e.states.entries, ∀ t ∈ p.2.transitions, t.Valid e.states

namespace Resolution

/-- Machines without defects, the references among them included. -/
structure Resolvable (machines : NameTable MachineEntry) (maxDepth : Nat) : Prop where
  entries : ∀ name e, machines.get? name = some e → e.Valid machines
  acyclic : ∀ name, ¬ Relation.TransGen (Refers machines) name name
  shallow : ∀ chain : List String, (∀ name ∈ chain, machines.contains name = true) →
    chain.IsChain (Refers machines) → chain.length ≤ maxDepth

end Resolution

/-- A document without defects. -/
structure Document.Valid (d : Document) (maxDepth : Nat) : Prop where
  root : d.machines.contains d.root = true
  resolvable : Resolution.Resolvable d.machines maxDepth

namespace Resolution

variable {machines : NameTable MachineEntry} {maxDepth : Nat} {trail : List String}

/-- A machine that refers to others is defined. -/
theorem Refers.contains {a b : String} (h : Refers machines a b) : machines.contains a = true := by
  obtain ⟨entry, hentry, -⟩ := h
  exact (NameTable.contains_iff machines a).2 ⟨entry, hentry⟩

/-- A machine that is referred to is defined, unless there is a defect. -/
theorem Resolvable.contains {a b : String} (h : Resolvable machines maxDepth)
    (hab : Refers machines a b) : machines.contains b = true := by
  obtain ⟨entry, hentry, p, hp, hb⟩ := hab
  exact (h.entries a entry hentry).subMachines p hp b hb

/-- A chain of references that starts with a defined machine is short, unless there is a defect. -/
theorem Resolvable.length_le {a : String} {chain : List String} (h : Resolvable machines maxDepth)
    (ha : machines.contains a = true) (hchain : (a :: chain).IsChain (Refers machines)) :
    (a :: chain).length ≤ maxDepth := by
  refine h.shallow _ ?_ hchain
  induction chain generalizing a with
  | nil => simpa using ha
  | cons b chain ih =>
      obtain ⟨hab, hrest⟩ := List.isChain_cons_cons.1 hchain
      rw [List.forall_mem_cons]
      exact ⟨ha, ih (h.contains hab) hrest⟩

/-! ## Sound drafts and valid entries -/

section Drafts

variable {built : NameTable Machine} {entry : MachineEntry} {drafts : List StateDraft}

theorem ids_eq_names (hdrafts : List.Forall₂ (DraftOf built) entry.states.entries drafts) :
    drafts.map (·.id) = entry.states.names := by
  rw [NameTable.names]
  generalize entry.states.entries = ps at hdrafts
  induction hdrafts with
  | nil => rfl
  | cons hp _ ih => rw [List.map_cons, List.map_cons, ih, hp.id]

/-- The draft of a transition is sound exactly when the transition is valid, apart from its kind. -/
theorem sound_of_valid {t : TransitionEntry} {d : TransitionDraft} (h : transition? t = some d)
    (ht : t.Valid entry.states) : d.Sound entry.states.names := by
  obtain ⟨-, hstimuli, htarget⟩ := transition?_facts h
  refine ⟨hstimuli ▸ ht.stimuli, hstimuli ▸ ht.readable, fun target heq => ?_⟩
  rw [NameTable.mem_names_iff]
  exact ht.target target (htarget ▸ heq)

theorem valid_of_sound {t : TransitionEntry} {d : TransitionDraft} (h : transition? t = some d)
    (hd : d.Sound entry.states.names) : t.Valid entry.states := by
  obtain ⟨hkind, hstimuli, htarget⟩ := transition?_facts h
  refine ⟨(kind?_isSome_iff t).1 hkind, hstimuli ▸ hd.stimuli, hstimuli ▸ hd.readable, fun target heq => ?_⟩
  rw [← NameTable.mem_names_iff]
  exact hd.target target (htarget.trans heq)

/-- The drafts of a valid entry are sound: its states make a machine. -/
theorem Resolvable.sound (h : Resolvable machines maxDepth) (hf : Faithful machines maxDepth built)
    {name : String} (hentry : machines.get? name = some entry)
    (hdrafts : List.Forall₂ (DraftOf built) entry.states.entries drafts) :
    MachineDraft.Sound ⟨name, some entry.start, drafts, maxDepth⟩ := by
  have hvalid := h.entries name entry hentry
  have hids : MachineDraft.ids ⟨name, some entry.start, drafts, maxDepth⟩ = entry.states.names :=
    ids_eq_names hdrafts
  refine ⟨?_, ⟨entry.start, rfl, ?_⟩, ?_, ?_, ?_⟩
  · show drafts ≠ []
    rintro rfl
    exact hvalid.states (List.forall₂_nil_right_iff.1 hdrafts)
  · rw [hids, NameTable.mem_names_iff]
    exact hvalid.start
  · -- the names of a table stand in order, each of them once
    rw [hids]
    exact NameTable.names_nodup _
  · intro draft hdraft d hd
    obtain ⟨p, hp, hof⟩ := exists_of_mem_right hdrafts hdraft
    obtain ⟨t, ht, htransition⟩ := exists_of_mem_right hof.transitions hd
    rw [hids]
    exact sound_of_valid htransition (hvalid.transitions p hp t ht)
  · -- a chain of references reaches the depth of the draft, and no chain is too long
    obtain ⟨chain, hchain, hle⟩ := exists_chain_of_drafts maxDepth hentry hdrafts
      fun sub m hsub _ => hf.exists_chain hsub
    have hname : machines.contains name = true := (NameTable.contains_iff machines name).2 ⟨entry, hentry⟩
    exact Nat.le_trans hle (h.length_le hname hchain)

/-- An entry from which a machine has been built is valid. -/
theorem Builds.valid (hf : Faithful machines maxDepth built) {name : String} {m : Machine}
    (hm : Builds maxDepth built name entry m) : entry.Valid machines := by
  obtain ⟨drafts, hdrafts, hbuild⟩ := hm
  obtain ⟨hsound, -⟩ := (MachineDraft.build_eq_ok_iff _ m).1 hbuild
  have hids : MachineDraft.ids ⟨name, some entry.start, drafts, maxDepth⟩ = entry.states.names :=
    ids_eq_names hdrafts
  refine ⟨?_, ?_, ?_, ?_⟩
  · intro hnil
    rw [hnil, List.forall₂_nil_left_iff] at hdrafts
    exact hsound.states hdrafts
  · obtain ⟨id, hid, hmem⟩ := hsound.start
    obtain rfl : entry.start = id := by simpa using hid
    rwa [hids, NameTable.mem_names_iff] at hmem
  · -- a machine of the table has an entry of its name
    intro p hp sub hsub
    obtain ⟨draft, -, hof⟩ := exists_of_mem_left hdrafts hp
    obtain ⟨found, -, hget⟩ := exists_of_mem_left hof.subMachines hsub
    obtain ⟨e, he, -⟩ := hf sub found hget
    exact (NameTable.contains_iff machines sub).2 ⟨e, he⟩
  · intro p hp t ht
    obtain ⟨draft, hdraft, hof⟩ := exists_of_mem_left hdrafts hp
    obtain ⟨d, hd, htransition⟩ := exists_of_mem_left hof.transitions ht
    have hdsound := hsound.transitions draft hdraft d hd
    rw [hids] at hdsound
    exact valid_of_sound htransition hdsound

/-- A machine that has been built stays within the depth allowed. -/
theorem Faithful.depth_le (hf : Faithful machines maxDepth built) {name : String} {m : Machine}
    (hm : built.get? name = some m) : m.depth ≤ maxDepth := by
  obtain ⟨e, -, drafts, -, hbuild⟩ := hf name m hm
  obtain ⟨hsound, -⟩ := (MachineDraft.build_eq_ok_iff _ m).1 hbuild
  rw [MachineDraft.depth_of_build hbuild]
  exact hsound.depth

/-- Machines that have all been built have no defect. -/
theorem Faithful.resolvable (hf : Faithful machines maxDepth built)
    (hall : ∀ name, machines.contains name = true → ∃ m, built.get? name = some m) :
    Resolvable machines maxDepth := by
  refine ⟨?_, ?_, ?_⟩
  · intro name e he
    obtain ⟨m, hm⟩ := hall name ((NameTable.contains_iff machines name).2 ⟨e, he⟩)
    obtain ⟨e', he', hbuilds⟩ := hf name m hm
    obtain rfl : e = e' := by simpa [he] using he'
    exact hbuilds.valid hf
  · -- a machine that refers to itself would be less deep than it is
    intro name hcycle
    obtain ⟨b, hab, -⟩ := Relation.TransGen.head'_iff.1 hcycle
    obtain ⟨m, hm⟩ := hall name hab.contains
    obtain ⟨sub, hsub, hlt⟩ := hf.depth_lt_of_transGen hcycle hm
    obtain rfl : m = sub := by simpa [hm] using hsub
    exact Nat.lt_irrefl _ hlt
  · -- a chain is no longer than its first machine is deep, and no machine is too deep
    intro chain hdefined hchain
    cases chain with
    | nil => exact Nat.zero_le _
    | cons a chain =>
        obtain ⟨m, hm⟩ := hall a (hdefined a List.mem_cons_self)
        exact Nat.le_trans (hf.length_le_depth hchain hm) (hf.depth_le hm)

end Drafts

/-! ## The invariant -/

/-- What holds throughout while the machines of `trail` are being built. -/
structure Sane (machines : NameTable MachineEntry) (maxDepth : Nat) (trail : List String)
    (r : Resolution) : Prop where
  faithful : Faithful machines maxDepth r.built
  pending : ∀ name ∈ trail, r.built.get? name = none
  failed : r.failed ≠ [] → r.defects ≠ []
  genuine : r.defects ≠ [] → ¬ Resolvable machines maxDepth

/-- A part of the resolver, begun with `r`, came out with `out`: it keeps the invariant, forgets
nothing, and either has a result that satisfies `Result` or has met a defect. -/
structure Step {α : Type} (machines : NameTable MachineEntry) (maxDepth : Nat) (trail : List String)
    (r : Resolution) (Result : NameTable Machine → α → Prop) (out : Option α × Resolution) : Prop where
  sane : Sane machines maxDepth trail out.2
  grown : Extends r.built out.2.built
  kept : r.defects ≠ [] → out.2.defects ≠ []
  result : ∀ a, out.1 = some a → Result out.2.built a
  stopped : out.1 = none → out.2.defects ≠ []

/-- A lookup that may be used while the machines of `trail` are being built. -/
def Lawful (machines : NameTable MachineEntry) (maxDepth : Nat) (trail : List String)
    (lookup : Lookup) : Prop :=
  ∀ name r, machines.contains name = true →
    (∀ n ∈ trail, Relation.TransGen (Refers machines) n name) → Sane machines maxDepth trail r →
      Step machines maxDepth trail r (fun built m => built.get? name = some m) (lookup name r)

theorem sane_empty : Sane machines maxDepth [] .empty :=
  ⟨faithful_empty, fun _ h => absurd h List.not_mem_nil, fun h => absurd rfl h, fun h => absurd rfl h⟩

theorem Sane.report {r : Resolution} (h : Sane machines maxDepth trail r) {defects : List Defect}
    (hdefects : defects ≠ [] → ¬ Resolvable machines maxDepth) :
    Sane machines maxDepth trail (r.report defects) := by
  refine ⟨h.faithful, h.pending, fun hf => ?_, fun hd => ?_⟩
  · show r.defects ++ defects ≠ []
    simp [h.failed hf]
  · -- the first defects decide, whether they are these or earlier ones
    by_cases hr : r.defects = []
    · apply hdefects
      rintro rfl
      exact hd (by simp [Resolution.report, hr])
    · exact h.genuine hr

theorem report_defects_ne_nil {r : Resolution} {defects : List Defect}
    (h : r.defects ≠ [] ∨ defects ≠ []) : (r.report defects).defects ≠ [] := by
  show r.defects ++ defects ≠ []
  rw [Ne, List.append_eq_nil_iff, not_and_or]
  exact h

/-- A part that has a result. -/
theorem Step.of_result {α : Type} {r r' : Resolution} {Result : NameTable Machine → α → Prop} {a : α}
    (hsane : Sane machines maxDepth trail r') (hgrown : Extends r.built r'.built)
    (hkept : r.defects ≠ [] → r'.defects ≠ []) (ha : Result r'.built a) :
    Step machines maxDepth trail r Result (some a, r') where
  sane := hsane
  grown := hgrown
  kept := hkept
  result := by
    intro b hb
    obtain rfl := Option.some.inj hb
    exact ha
  stopped := fun h => absurd h (Option.some_ne_none a)

/-- A part that has no result, after a defect. -/
theorem Step.of_defect {α : Type} {r r' : Resolution} {Result : NameTable Machine → α → Prop}
    (hsane : Sane machines maxDepth trail r') (hgrown : Extends r.built r'.built)
    (hdefects : r'.defects ≠ []) : Step machines maxDepth trail r Result (none, r') where
  sane := hsane
  grown := hgrown
  kept := fun _ => hdefects
  result := fun a ha => absurd ha.symm (Option.some_ne_none a)
  stopped := fun _ => hdefects

/-- A part that reports a defect and has no result. -/
theorem Step.of_report {α : Type} {r : Resolution} {Result : NameTable Machine → α → Prop}
    (h : Sane machines maxDepth trail r) {defects : List Defect} (hne : defects ≠ [])
    (hdefects : ¬ Resolvable machines maxDepth) :
    Step machines maxDepth trail r Result (none, r.report defects) :=
  Step.of_defect (h.report fun _ => hdefects) (Extends.refl _) (report_defects_ne_nil (Or.inr hne))

/-- Two parts one after the other, whose results are put together. -/
theorem Step.seq {α β γ : Type} {r : Resolution} {P : NameTable Machine → α → Prop}
    {Q : NameTable Machine → β → Prop} {R : NameTable Machine → γ → Prop} {f : α → β → γ}
    {first : Option α × Resolution} {rest : Option β × Resolution}
    (hfirst : Step machines maxDepth trail r P first)
    (hrest : Step machines maxDepth trail first.2 Q rest)
    (mono : ∀ {built built' a}, Extends built built' → P built a → P built' a)
    (combine : ∀ {built a b}, P built a → Q built b → R built (f a b)) :
    Step machines maxDepth trail r R (first.1.bind fun a => rest.1.map (f a), rest.2) := by
  refine ⟨hrest.sane, hfirst.grown.trans hrest.grown, fun hr => hrest.kept (hfirst.kept hr), ?_, ?_⟩
  · -- the result of the first part has to last until the second is done
    intro c hc
    obtain ⟨a, ha, hmap⟩ := Option.bind_eq_some_iff.1 hc
    obtain ⟨b, hb, rfl⟩ := Option.map_eq_some_iff.1 hmap
    exact combine (mono hrest.grown (hfirst.result a ha)) (hrest.result b hb)
  · intro hnone
    cases ha : first.1 with
    | none => exact hrest.kept (hfirst.stopped ha)
    | some a =>
        rw [show (first.1.bind fun a => rest.1.map (f a), rest.2).1 = first.1.bind fun a => rest.1.map (f a)
          from rfl, ha, Option.bind_some, Option.map_eq_none_iff] at hnone
        exact hrest.stopped hnone

/-! ## Every part keeps it -/

section Parts

variable {lookup : Lookup} {name : String}

theorem step_subMachines (hlookup : Lawful machines maxDepth trail lookup)
    (hpath : ∀ n ∈ trail, Relation.ReflTransGen (Refers machines) n name) (state : String)
    {names : List String} (hnames : ∀ sub ∈ names, Refers machines name sub) {r : Resolution}
    (hr : Sane machines maxDepth trail r) :
    Step machines maxDepth trail r
      (fun built subs => List.Forall₂ (fun n m => built.get? n = some m) names subs)
      (subMachines lookup machines.contains name state names r) := by
  induction names generalizing r with
  | nil =>
      exact Step.of_result hr (Extends.refl _) id List.Forall₂.nil
  | cons sub names ih =>
      obtain ⟨hsub, hrest⟩ := List.forall_mem_cons.1 hnames
      have hfirst : Step machines maxDepth trail r (fun built m => built.get? sub = some m)
          (if machines.contains sub then lookup sub r
            else (none, r.report [.unknownSubMachine name state sub])) := by
        by_cases hknown : machines.contains sub = true
        · -- every machine being built leads to this one, and this one to the machine in its state
          rw [if_pos hknown]
          exact hlookup sub r hknown (fun n hn => Relation.TransGen.tail' (hpath n hn) hsub) hr
        · rw [if_neg hknown]
          exact Step.of_report hr (List.cons_ne_nil _ _) fun h => hknown (h.contains hsub)
      exact hfirst.seq (ih hrest hfirst.sane) (fun hext h => hext _ _ h)
        fun hm hms => List.Forall₂.cons hm hms

/-- A state without a draft has a machine that was not built, or a transition without a kind. -/
theorem fault_of_state {known : String → Bool} {id : String} {e : StateEntry} {r : Resolution}
    (h : (state lookup known name id e r).1 = none) :
    (subMachines lookup known name id e.subMachines r).1 = none ∨
      ∃ t ∈ e.transitions, ¬ (kind? t).isSome := by
  have hdrafts := mapM_transition?_facts e.transitions
  cases hs : (subMachines lookup known name id e.subMachines r).1 with
  | none => exact Or.inl rfl
  | some ms =>
      cases ht : e.transitions.mapM transition? with
      | some ds => simp [state, hs, ht] at h
      | none =>
          rw [ht] at hdrafts
          exact Or.inr hdrafts

theorem step_state (hlookup : Lawful machines maxDepth trail lookup)
    (hpath : ∀ n ∈ trail, Relation.ReflTransGen (Refers machines) n name) {entry : MachineEntry}
    (hentry : machines.get? name = some entry) {p : String × StateEntry}
    (hp : p ∈ entry.states.entries) {r : Resolution} (hr : Sane machines maxDepth trail r) :
    Step machines maxDepth trail r (fun built draft => DraftOf built p draft)
      (state lookup machines.contains name p.1 p.2 r) := by
  have hsubs := step_subMachines hlookup hpath p.1 (fun sub hsub => ⟨entry, hentry, p, hp, hsub⟩) hr
  -- a transition that is neither an arrow nor an action, or both, is not valid
  have hambiguous : ambiguities name p.1 0 p.2.transitions ≠ [] → ¬ Resolvable machines maxDepth := by
    intro hne hresolvable
    refine hne ((ambiguities_eq_nil_iff _ _ _ _).2 fun t ht => ?_)
    exact (kind?_isSome_iff t).2 ((hresolvable.entries name entry hentry).transitions p hp t ht).kind
  refine ⟨hsubs.sane.report hambiguous, hsubs.grown,
    fun h => report_defects_ne_nil (Or.inl (hsubs.kept h)), ?_, fun hnone => report_defects_ne_nil ?_⟩
  · intro draft hdraft
    have hdrafts := mapM_transition?_facts p.2.transitions
    cases hs : (subMachines lookup machines.contains name p.1 p.2.subMachines r).1 with
    | none => simp [state, hs] at hdraft
    | some ms =>
        cases ht : p.2.transitions.mapM transition? with
        | none => simp [state, hs, ht] at hdraft
        | some ds =>
            rw [ht] at hdrafts
            obtain rfl : (⟨p.1, p.2.enter, p.2.exit, ds, ms, p.2.hint, p.2.description⟩ : StateDraft) =
                draft := by simpa [state, hs, ht] using hdraft
            exact ⟨rfl, rfl, rfl, rfl, rfl, hdrafts, hsubs.result ms hs⟩
  · -- each of the two parts notes why it fails
    rcases fault_of_state hnone with hs | ⟨t, ht, hkind⟩
    · exact Or.inl (hsubs.stopped hs)
    · exact Or.inr fun hnil => hkind ((ambiguities_eq_nil_iff _ _ _ _).1 hnil t ht)

theorem step_states (hlookup : Lawful machines maxDepth trail lookup)
    (hpath : ∀ n ∈ trail, Relation.ReflTransGen (Refers machines) n name) {entry : MachineEntry}
    (hentry : machines.get? name = some entry) {ps : List (String × StateEntry)}
    (hps : ∀ p ∈ ps, p ∈ entry.states.entries) {r : Resolution}
    (hr : Sane machines maxDepth trail r) :
    Step machines maxDepth trail r (fun built drafts => List.Forall₂ (DraftOf built) ps drafts)
      (states lookup machines.contains name ps r) := by
  induction ps generalizing r with
  | nil =>
      exact Step.of_result hr (Extends.refl _) id List.Forall₂.nil
  | cons p ps ih =>
      obtain ⟨hp, hrest⟩ := List.forall_mem_cons.1 hps
      have hfirst := step_state hlookup hpath hentry hp hr
      exact hfirst.seq (ih hrest hfirst.sane) (fun hext h => h.mono hext)
        fun hd hds => List.Forall₂.cons hd hds

theorem step_machine (hlookup : Lawful machines maxDepth trail lookup)
    (hpath : ∀ n ∈ trail, Relation.ReflTransGen (Refers machines) n name) {entry : MachineEntry}
    (hentry : machines.get? name = some entry) {r : Resolution}
    (hr : Sane machines maxDepth trail r) :
    Step machines maxDepth trail r (fun built m => Builds maxDepth built name entry m)
      (machine lookup machines.contains maxDepth name entry r) := by
  have hstates := step_states hlookup hpath hentry (fun p hp => hp) hr
  rw [machine]
  generalize states lookup machines.contains name entry.states.entries r = out at hstates ⊢
  obtain ⟨drafts, r'⟩ := out
  cases drafts with
  | none =>
      exact Step.of_defect hstates.sane hstates.grown (hstates.stopped rfl)
  | some drafts =>
      have hdrafts := hstates.result drafts rfl
      dsimp only
      cases hbuild : MachineDraft.build ⟨name, some entry.start, drafts, maxDepth⟩ with
      | ok m =>
          exact Step.of_result hstates.sane hstates.grown hstates.kept ⟨drafts, hdrafts, hbuild⟩
      | error defects =>
          -- the draft of a machine without defects builds
          have hunsound : ¬ Resolvable machines maxDepth := by
            intro hresolvable
            have hsound := hresolvable.sound hstates.sane.faithful hentry hdrafts
            have hok := (MachineDraft.build_eq_ok_iff _ _).2 ⟨hsound, rfl⟩
            rw [hbuild] at hok
            cases hok
          obtain ⟨-, hne⟩ := (MachineDraft.build_eq_error_iff _ _).1 hbuild
          exact Step.of_defect (hstates.sane.report fun _ => hunsound) hstates.grown
            (report_defects_ne_nil (Or.inr hne))

end Parts

/-! ## The trail -/

/-- The machines that are being built: each of them is defined, and none of them comes twice. -/
structure Trail (machines : NameTable MachineEntry) (trail : List String) : Prop where
  nodup : trail.Nodup
  defined : ∀ name ∈ trail, machines.contains name = true

theorem trail_nil : Trail machines [] := ⟨List.nodup_nil, nofun⟩

theorem Trail.push (h : Trail machines trail) {name : String} (hnew : name ∉ trail)
    (hname : machines.contains name = true) : Trail machines (trail ++ [name]) := by
  refine ⟨?_, ?_⟩
  · rw [List.nodup_append_comm]
    exact List.nodup_cons.2 ⟨hnew, h.nodup⟩
  · rw [List.forall_mem_append, List.forall_mem_singleton]
    exact ⟨h.defined, hname⟩

theorem Trail.length_le_size (h : Trail machines trail) : trail.length ≤ machines.size := by
  have hsubset : trail ⊆ machines.names := fun n hn => (NameTable.mem_names_iff _ n).2 (h.defined n hn)
  have hle := (List.subperm_of_subset h.nodup hsubset).length_le
  rwa [NameTable.names, List.length_map] at hle

/-- There is a level for each machine that is not being built yet, and one more. -/
structure Room (machines : NameTable MachineEntry) (levels : Nat) (trail : List String) : Prop
    extends Trail machines trail where
  levels : machines.size < levels + trail.length

/-- Otherwise the trail would be longer than the table. -/
theorem not_room_zero : ¬ Room machines 0 trail := by
  intro h
  have hle := h.toTrail.length_le_size
  have hlt := h.levels
  omega

theorem room_nil : Room machines (machines.size + 1) [] := ⟨trail_nil, by simp⟩

theorem Room.push {levels : Nat} (h : Room machines (levels + 1) trail) {name : String} (hnew : name ∉ trail)
    (hname : machines.contains name = true) : Room machines levels (trail ++ [name]) := by
  refine ⟨h.toTrail.push hnew hname, ?_⟩
  have hlt := h.levels
  rw [List.length_append, List.length_singleton]
  omega

/-- A machine to which all those of the trail lead is added to it. -/
theorem reflTransGen_push {name : String} (hpath : ∀ n ∈ trail, Relation.TransGen (Refers machines) n name) :
    ∀ n ∈ trail ++ [name], Relation.ReflTransGen (Refers machines) n name := by
  rw [List.forall_mem_append, List.forall_mem_singleton]
  exact ⟨fun n hn => (hpath n hn).to_reflTransGen, Relation.ReflTransGen.refl⟩

theorem Sane.push {r : Resolution} {name : String} (h : Sane machines maxDepth trail r)
    (hname : r.built.get? name = none) : Sane machines maxDepth (trail ++ [name]) r := by
  refine { h with pending := fun n hn => ?_ }
  rcases List.mem_append.1 hn with hn | hn
  · exact h.pending n hn
  · obtain rfl : n = name := by simpa using hn
    exact hname

/-- A machine that has been tried is settled, in the table or among those that failed. -/
theorem step_settle {r : Resolution} {name : String} {entry : MachineEntry}
    (hentry : machines.get? name = some entry) (hnew : name ∉ trail) {out : Option Machine × Resolution}
    (h : Step machines maxDepth (trail ++ [name]) r
      (fun built m => Builds maxDepth built name entry m) out) :
    Step machines maxDepth trail r (fun built m => built.get? name = some m)
      (out.1, out.2.settle name out.1) := by
  obtain ⟨found, r'⟩ := out
  -- nobody has built the machine in the meantime, so that no entry of the table is overwritten
  have hnone : r'.built.get? name = none := h.sane.pending name (by simp)
  have hpending : ∀ n ∈ trail, r'.built.get? n = none :=
    fun n hn => h.sane.pending n (List.mem_append_left _ hn)
  cases found with
  | none =>
      have hstopped : r'.defects ≠ [] := h.stopped rfl
      have hsane : Sane machines maxDepth trail (r'.settle name none) :=
        ⟨h.sane.faithful, hpending, fun _ => hstopped, h.sane.genuine⟩
      exact Step.of_defect hsane h.grown hstopped
  | some m =>
      have hbuilt : (r'.settle name (some m)).built = r'.built.insert name m := rfl
      have hsane : Sane machines maxDepth trail (r'.settle name (some m)) := by
        refine ⟨h.sane.faithful.insert hnone hentry (h.result m rfl), ?_, h.sane.failed, h.sane.genuine⟩
        intro n hn
        have hne : name ≠ n := by
          rintro rfl
          exact hnew hn
        rw [hbuilt, NameTable.get?_insert, if_neg hne]
        exact hpending n hn
      have hgrown : Extends r.built (r'.settle name (some m)).built :=
        h.grown.trans (Extends.insert hnone m)
      apply Step.of_result hsane hgrown h.kept
      rw [hbuilt, NameTable.get?_insert, if_pos rfl]

/-- What comes of looking a machine up while those of `trail` are being built. It has been built or has failed
before, or it is one of them, or it is new and is tried, with `below` for the machines in it. -/
inductive LookedUp (machines : NameTable MachineEntry) (maxDepth : Nat) (below : List String → Lookup)
    (trail : List String) (name : String) (r : Resolution) : Option Machine × Resolution → Prop where
  | built {m : Machine} (hbuilt : r.built.get? name = some m) :
      LookedUp machines maxDepth below trail name r (some m, r)
  | failed (hfailed : name ∈ r.failed) : LookedUp machines maxDepth below trail name r (none, r)
  | cycle (hnone : r.built.get? name = none) (hfailed : name ∉ r.failed) (hmem : name ∈ trail) :
      LookedUp machines maxDepth below trail name r
        (none, r.report [.cyclicSubMachines (trail.dropWhile (· != name) ++ [name])])
  | tried {entry : MachineEntry} {out : Option Machine × Resolution} (hnone : r.built.get? name = none)
      (hfailed : name ∉ r.failed) (hnew : name ∉ trail) (hentry : machines.get? name = some entry)
      (hout : machine (below (trail ++ [name])) machines.contains maxDepth name entry r = out) :
      LookedUp machines maxDepth below trail name r (out.1, out.2.settle name out.1)

theorem lookedUp_resolve (maxDepth levels : Nat) (trail : List String) {name : String}
    (hname : machines.contains name = true) (r : Resolution) :
    LookedUp machines maxDepth (resolve machines maxDepth levels) trail name r
      (resolve machines maxDepth (levels + 1) trail name r) := by
  rw [resolve]
  cases hbuilt : r.built.get? name with
  | some m => exact .built hbuilt
  | none =>
      by_cases hfailed : name ∈ r.failed
      · simp only [List.contains_iff_mem.2 hfailed, if_true]
        exact .failed hfailed
      · by_cases hmem : name ∈ trail
        · simp only [List.contains_iff_mem, hfailed, hmem, if_true, if_false]
          exact .cycle hbuilt hfailed hmem
        · obtain ⟨entry, hentry⟩ := (NameTable.contains_iff machines name).1 hname
          simp only [List.contains_iff_mem, hfailed, hmem, if_false, hentry]
          exact .tried hbuilt hfailed hmem hentry rfl

/-- Enough levels are enough: with one level for each machine that is not being built yet, and one
more, every machine is looked up properly. -/
theorem lawful_resolve (levels : Nat) :
    ∀ trail : List String, Room machines levels trail →
      Lawful machines maxDepth trail (resolve machines maxDepth levels trail) := by
  induction levels with
  | zero => exact fun trail hroom => absurd hroom not_room_zero
  | succ levels ih =>
      intro trail hroom name r hname hpath hr
      have hlookup := lookedUp_resolve maxDepth levels trail hname r
      generalize resolve machines maxDepth (levels + 1) trail name r = answer at hlookup ⊢
      cases hlookup with
      | built hbuilt => exact Step.of_result hr (Extends.refl _) id hbuilt
      | failed hfailed =>
          -- the defect has been noted then
          exact Step.of_defect hr (Extends.refl _) (hr.failed (List.ne_nil_of_mem hfailed))
      | cycle hnone hfailed hmem =>
          -- there is a way of references from the machine to itself
          apply Step.of_report hr (List.cons_ne_nil _ _)
          exact fun hresolvable => hresolvable.acyclic name (hpath name hmem)
      | tried hnone hfailed hnew hentry hout =>
          -- one level is spent, and the trail is one longer
          have hlawful := ih (trail ++ [name]) (hroom.push hnew hname)
          have hmachine := step_machine hlawful (reflTransGen_push hpath) hentry (hr.push hnone)
          rw [hout] at hmachine
          exact step_settle hentry hnew hmachine

/-- Resolving machines one after another keeps the invariant, and leaves each of them built unless
there is a defect. -/
theorem resolveAll_facts {names : List String} (hnames : ∀ n ∈ names, machines.contains n = true)
    {r : Resolution} (hr : Sane machines maxDepth [] r) :
    Sane machines maxDepth [] (resolveAll machines maxDepth names r) ∧
      Extends r.built (resolveAll machines maxDepth names r).built ∧
      (r.defects ≠ [] → (resolveAll machines maxDepth names r).defects ≠ []) ∧
      ∀ n ∈ names, (∃ m, (resolveAll machines maxDepth names r).built.get? n = some m) ∨
        (resolveAll machines maxDepth names r).defects ≠ [] := by
  induction names generalizing r with
  | nil => exact ⟨hr, Extends.refl _, id, fun n hn => absurd hn List.not_mem_nil⟩
  | cons name names ih =>
      obtain ⟨hname, hrest⟩ := List.forall_mem_cons.1 hnames
      have hstep := lawful_resolve _ [] room_nil name r hname nofun hr
      obtain ⟨hsane, hgrown, hkept, hall⟩ := ih hrest hstep.sane
      rw [resolveAll]
      refine ⟨hsane, hstep.grown.trans hgrown, fun h => hkept (hstep.kept h), ?_⟩
      rw [List.forall_mem_cons]
      refine ⟨?_, hall⟩
      -- what this one came to stays so while the others are resolved
      cases hfound : (resolve machines maxDepth (machines.size + 1) [] name r).1 with
      | some m => exact Or.inl ⟨m, hgrown _ _ (hstep.result m hfound)⟩
      | none => exact Or.inr (hkept (hstep.stopped hfound))

/-- What has come of all machines in the end: the invariant holds, and if there is no defect then
every machine has been built. -/
theorem resolveAll_names_facts (machines : NameTable MachineEntry) (maxDepth : Nat) :
    Sane machines maxDepth [] (resolveAll machines maxDepth machines.names .empty) ∧
      ((resolveAll machines maxDepth machines.names .empty).defects = [] →
        ∀ name, machines.contains name = true →
          ∃ m, (resolveAll machines maxDepth machines.names .empty).built.get? name = some m) := by
  have hempty : Sane machines maxDepth [] .empty := sane_empty
  obtain ⟨hsane, -, -, hall⟩ :=
    resolveAll_facts (fun n hn => (NameTable.mem_names_iff machines n).1 hn) hempty
  refine ⟨hsane, fun hnil name hname => ?_⟩
  rcases hall name ((NameTable.mem_names_iff machines name).2 hname) with hbuilt | hdefects
  · exact hbuilt
  · exact absurd hnil hdefects

/-- Machines without defects are resolved without defects. -/
theorem defects_resolveAll_eq_nil (h : Resolvable machines maxDepth) :
    (resolveAll machines maxDepth machines.names .empty).defects = [] := by
  obtain ⟨hsane, -⟩ := resolveAll_names_facts machines maxDepth
  by_contra hne
  exact hsane.genuine hne h

end Resolution

namespace Document

open Resolution

/-- An unknown root is noted last. -/
theorem defects_resolution (d : Document) (maxDepth : Nat) :
    (d.resolution maxDepth).defects = (resolveAll d.machines maxDepth d.machines.names .empty).defects ++
      if d.machines.contains d.root then [] else [.unknownRoot d.root] := by
  rw [resolution]
  split
  · exact (List.append_nil _).symm
  · rfl

/-- The resolver notes no defect exactly in a valid document. -/
theorem defects_resolution_eq_nil_iff (d : Document) (maxDepth : Nat) :
    (d.resolution maxDepth).defects = [] ↔ d.Valid maxDepth := by
  obtain ⟨hsane, hall⟩ := resolveAll_names_facts d.machines maxDepth
  rw [defects_resolution, List.append_eq_nil_iff]
  by_cases hroot : d.machines.contains d.root = true
  · rw [if_pos hroot]
    constructor
    · rintro ⟨hnil, -⟩
      exact ⟨hroot, hsane.faithful.resolvable (hall hnil)⟩
    · intro hvalid
      exact ⟨defects_resolveAll_eq_nil hvalid.resolvable, rfl⟩
  · -- a root that is not defined is a defect of its own
    rw [if_neg hroot]
    constructor
    · rintro ⟨-, hunknown⟩
      exact absurd hunknown (List.cons_ne_nil _ _)
    · intro hvalid
      exact absurd hvalid.root hroot

theorem built_resolution (d : Document) (maxDepth : Nat) :
    (d.resolution maxDepth).built = (resolveAll d.machines maxDepth d.machines.names .empty).built := by
  rw [resolution]
  split <;> rfl

theorem load_eq_ok_iff (d : Document) (maxDepth : Nat) (set : MachineSet) :
    d.load maxDepth = .ok set ↔
      (d.resolution maxDepth).defects = [] ∧ (d.resolution maxDepth).built = set.machines ∧
        set.machines.get? d.root = some set.root := by
  obtain ⟨root, machines⟩ := set
  rw [load]
  cases hroot : (d.resolution maxDepth).built.get? d.root with
  | none =>
      simp only [reduceCtorEq, false_iff]
      rintro ⟨-, rfl, h⟩
      rw [hroot] at h
      cases h
  | some m =>
      cases hdefects : (d.resolution maxDepth).defects with
      | cons defect defects => simp
      | nil =>
          simp only [Except.ok.injEq, MachineSet.mk.injEq, true_and]
          constructor
          · rintro ⟨rfl, rfl⟩
            exact ⟨rfl, hroot⟩
          · rintro ⟨rfl, h⟩
            rw [hroot] at h
            exact ⟨Option.some.inj h, rfl⟩

theorem defects_of_load {d : Document} {maxDepth : Nat} {defects : List Defect}
    (h : d.load maxDepth = .error defects) : (d.resolution maxDepth).defects = defects := by
  rw [load] at h
  split at h
  · cases h
  · simpa using h

/-- Every machine of a set comes from the entry of its name and from machines of the set. -/
theorem faithful_of_load {d : Document} {maxDepth : Nat} {set : MachineSet}
    (h : d.load maxDepth = .ok set) : Faithful d.machines maxDepth set.machines := by
  obtain ⟨-, hbuilt, -⟩ := (load_eq_ok_iff d maxDepth set).1 h
  rw [← hbuilt, built_resolution]
  exact (resolveAll_names_facts d.machines maxDepth).1.faithful

/-- A document loads exactly when it is valid. -/
theorem load_isOk_iff_valid (d : Document) (config : Config) :
    (∃ set, d.load config.maxDepth = .ok set) ↔ d.Valid config.maxDepth := by
  rw [← defects_resolution_eq_nil_iff]
  constructor
  · rintro ⟨set, hset⟩
    exact ((load_eq_ok_iff d config.maxDepth set).1 hset).1
  · intro hnil
    have hvalid := (defects_resolution_eq_nil_iff d config.maxDepth).1 hnil
    have hdefects := defects_resolveAll_eq_nil hvalid.resolvable
    obtain ⟨-, hall⟩ := resolveAll_names_facts d.machines config.maxDepth
    obtain ⟨root, hroot⟩ := hall hdefects d.root hvalid.root
    refine ⟨⟨root, (d.resolution config.maxDepth).built⟩, (load_eq_ok_iff _ _ _).2 ⟨hnil, rfl, ?_⟩⟩
    rw [built_resolution]
    exact hroot

end Document

end ModeTree
