import ModeTree.Proofs.Document.Written

/-!
# What the loader reports

A machine is drafted only when all its transitions have a kind and all the machines that it refers to can be
built (`Drafted`), and only the draft of a machine shows what its entry lacks otherwise. `load_reports` says
what comes of that: the loader reports every defect that stands in a document except those of machines that
are not drafted, and it reports nothing that does not stand there. So a machine with an unknown machine in it
keeps its other defects to itself (`target_behind_unknown_subMachine`).

While a document is resolved, each defect noted is one that is due, everything due to a settled machine has
been noted, and what has failed cannot be built (`Audited`). Every part of the resolver keeps that, and
accounts for the defects that it meets itself (`Account`).
-/

set_option autoImplicit false

namespace ModeTree

namespace Resolution

/-- The machine of a name can be built with at most so many levels: it has no defect of its own, and the
machines that it refers to can be built with one level less. -/
def SoundWithin (machines : NameTable MachineEntry) : (levels : Nat) → String → Prop
  | 0, _ => False
  | levels + 1, name =>
    ∃ e, machines.get? name = some e ∧ e.Valid machines ∧
      ∀ sub, Refers machines name sub → SoundWithin machines levels sub

/-- Every transition of a state has a kind, and every machine in it can be built. -/
structure Draftable (machines : NameTable MachineEntry) (maxDepth : Nat) (s : StateEntry) : Prop where
  kinds : ∀ t ∈ s.transitions, t.target.isSome ≠ t.action.isSome
  subMachines : ∀ sub ∈ s.subMachines, SoundWithin machines maxDepth sub

/-- All states of a machine can be drafted. -/
def Drafted (machines : NameTable MachineEntry) (maxDepth : Nat) (name : String) : Prop :=
  ∃ e, machines.get? name = some e ∧ ∀ p ∈ e.states.entries, Draftable machines maxDepth p.2

/-- A defect of a machine that is to be reported: one that is found in its draft only if it is drafted. -/
def Due (machines : NameTable MachineEntry) (maxDepth : Nat) (name : String) (defect : Defect) : Prop :=
  ∃ e, machines.get? name = some e ∧ e.Has machines name defect ∧
    ∀ machine, defect.draft? = some machine → Drafted machines maxDepth machine

variable {machines : NameTable MachineEntry} {maxDepth : Nat} {trail : List String}

/-! ## Machines that can be built -/

theorem SoundWithin.contains {levels : Nat} {name : String} (h : SoundWithin machines levels name) :
    machines.contains name = true := by
  cases levels with
  | zero => exact absurd h id
  | succ levels =>
      obtain ⟨e, he, -⟩ := h
      exact (NameTable.contains_iff machines name).2 ⟨e, he⟩

/-- A machine that can be built has a valid entry. -/
theorem SoundWithin.valid {levels : Nat} {name : String} (h : SoundWithin machines levels name)
    {e : MachineEntry} (he : machines.get? name = some e) : e.Valid machines := by
  cases levels with
  | zero => exact absurd h id
  | succ levels =>
      obtain ⟨e', he', hvalid, -⟩ := h
      obtain rfl : e = e' := by simpa [he] using he'
      exact hvalid

/-- The machines that it refers to can be built, with less levels. -/
theorem SoundWithin.refers {levels : Nat} {name sub : String} (h : SoundWithin machines levels name)
    (hsub : Refers machines name sub) : ∃ below < levels, SoundWithin machines below sub := by
  cases levels with
  | zero => exact absurd h id
  | succ levels =>
      obtain ⟨e, -, -, hsubs⟩ := h
      exact ⟨levels, Nat.lt_succ_self levels, hsubs sub hsub⟩

theorem SoundWithin.succ {levels : Nat} {name : String} (h : SoundWithin machines levels name) :
    SoundWithin machines (levels + 1) name := by
  induction levels generalizing name with
  | zero => exact absurd h id
  | succ levels ih =>
      obtain ⟨e, he, hvalid, hsubs⟩ := h
      exact ⟨e, he, hvalid, fun sub hsub => ih (hsubs sub hsub)⟩

theorem SoundWithin.mono {levels more : Nat} (hle : levels ≤ more) {name : String}
    (h : SoundWithin machines levels name) : SoundWithin machines more name := by
  induction hle with
  | refl => exact h
  | step _ ih => exact ih.succ

/-- Every machine that can be built can be drafted. -/
theorem SoundWithin.drafted {name : String} (h : SoundWithin machines maxDepth name) :
    Drafted machines maxDepth name := by
  obtain ⟨e, he⟩ := (NameTable.contains_iff machines name).1 h.contains
  have hvalid := h.valid he
  refine ⟨e, he, fun p hp => ⟨fun t ht => (hvalid.transitions p hp t ht).kind, fun sub hsub => ?_⟩⟩
  obtain ⟨below, hlt, hbelow⟩ := h.refers ⟨e, he, p, hp, hsub⟩
  exact hbelow.mono (Nat.le_of_lt hlt)

theorem SoundWithin.transGen {levels : Nat} {a b : String} (h : SoundWithin machines levels a)
    (hab : Relation.TransGen (Refers machines) a b) : ∃ below < levels, SoundWithin machines below b := by
  induction hab with
  | single hsub => exact h.refers hsub
  | tail _ hsub ih =>
      obtain ⟨mid, hmid, hsound⟩ := ih
      obtain ⟨below, hbelow, hsound'⟩ := hsound.refers hsub
      exact ⟨below, Nat.lt_trans hbelow hmid, hsound'⟩

/-- A machine that refers to itself on some way cannot be built. -/
theorem not_soundWithin_of_cycle {name : String} (hcycle : Relation.TransGen (Refers machines) name name)
    (levels : Nat) : ¬ SoundWithin machines levels name := by
  induction levels using Nat.strongRecOn with
  | ind levels ih =>
      intro h
      obtain ⟨below, hlt, hbelow⟩ := h.transGen hcycle
      exact ih below hlt hbelow

section Built

variable {built : NameTable Machine}

/-- What has been built can be built, with as many levels as it has. -/
theorem Faithful.soundWithin (hf : Faithful machines maxDepth built) {levels : Nat} {name : String}
    {m : Machine} (hm : built.get? name = some m) (hle : m.depth ≤ levels) :
    SoundWithin machines levels name := by
  induction levels generalizing name m with
  | zero =>
      have hpos := m.depth_pos
      omega
  | succ levels ih =>
      obtain ⟨e, he, hbuilds⟩ := hf name m hm
      refine ⟨e, he, hbuilds.valid hf, fun sub hsub => ?_⟩
      obtain ⟨found, hfound, hlt⟩ := hf.subMachine hsub hm
      apply ih hfound
      omega

/-- A machine that can be built with some levels has no more than these. -/
theorem Faithful.depth_le_of_soundWithin (hf : Faithful machines maxDepth built) {levels : Nat}
    {name : String} (h : SoundWithin machines levels name) {m : Machine}
    (hm : built.get? name = some m) : m.depth ≤ levels := by
  induction levels generalizing name m with
  | zero => exact absurd h id
  | succ levels ih =>
      obtain ⟨-, -, -, hsubs⟩ := h
      obtain ⟨e, he, drafts, hdrafts, hbuild⟩ := hf name m hm
      rw [MachineDraft.depth_of_build hbuild, MachineDraft.depth_le_succ_iff]
      intro draft hdraft sub hsub
      obtain ⟨subName, hrefers, hget⟩ := exists_refers_of_drafts he hdrafts hdraft hsub
      exact ih (hsubs subName hrefers) hget

/-- A machine whose states have drafts is drafted. -/
theorem drafted_of_drafts (hf : Faithful machines maxDepth built) {name : String} {e : MachineEntry}
    (he : machines.get? name = some e) {drafts : List StateDraft}
    (hdrafts : List.Forall₂ (DraftOf built) e.states.entries drafts) :
    Drafted machines maxDepth name := by
  refine ⟨e, he, fun p hp => ?_⟩
  obtain ⟨draft, -, hof⟩ := exists_of_mem_left hdrafts hp
  refine ⟨fun t ht => ?_, fun sub hsub => ?_⟩
  · obtain ⟨td, -, htransition⟩ := exists_of_mem_left hof.transitions ht
    exact (kind?_isSome_iff t).1 (transition?_facts htransition).1
  · obtain ⟨m, -, hm⟩ := exists_of_mem_left hof.subMachines hsub
    exact hf.soundWithin hm (hf.depth_le hm)

/-- The draft of a machine that can be built is not too deep. -/
theorem depth_le_of_drafts (hf : Faithful machines maxDepth built) {name : String} {e : MachineEntry}
    (he : machines.get? name = some e) {drafts : List StateDraft}
    (hdrafts : List.Forall₂ (DraftOf built) e.states.entries drafts)
    (h : SoundWithin machines maxDepth name) :
    MachineDraft.depth ⟨name, some e.start, drafts, maxDepth⟩ ≤ maxDepth := by
  cases maxDepth with
  | zero => exact absurd h id
  | succ levels =>
      obtain ⟨-, -, -, hsubs⟩ := h
      rw [MachineDraft.depth_le_succ_iff]
      intro draft hdraft sub hsub
      obtain ⟨subName, hrefers, hget⟩ := exists_refers_of_drafts he hdrafts hdraft hsub
      exact hf.depth_le_of_soundWithin (hsubs subName hrefers) hget

end Built

/-! ## The account of a part -/

/-- A defect that may be noted. -/
def Genuine (machines : NameTable MachineEntry) (maxDepth : Nat) (defect : Defect) : Prop :=
  defect.OfReferences ∨ ∃ name, Due machines maxDepth name defect

/-- What holds throughout of the defects noted. -/
structure Audited (machines : NameTable MachineEntry) (maxDepth : Nat) (r : Resolution) : Prop where
  genuine : ∀ defect ∈ r.defects, Genuine machines maxDepth defect
  complete : ∀ name, (r.built.get? name).isSome ∨ name ∈ r.failed →
    ∀ defect, Due machines maxDepth name defect → defect ∈ r.defects
  failed : ∀ name ∈ r.failed, ¬ SoundWithin machines maxDepth name

/-- A part of the resolver, begun with `r`, came out with `out`: it forgets no defect, has noted those of
`Own`, and is without a result only if there is a `Fault`. -/
structure Account {α : Type} (machines : NameTable MachineEntry) (maxDepth : Nat) (r : Resolution)
    (Own : Defect → Prop) (Fault : Prop) (out : Option α × Resolution) : Prop where
  audited : Audited machines maxDepth out.2
  kept : ∀ defect ∈ r.defects, defect ∈ out.2.defects
  own : ∀ defect, Own defect → defect ∈ out.2.defects
  fault : out.1 = none → Fault

/-- A lookup that accounts for the machines that are not being built yet. -/
def Accounting (machines : NameTable MachineEntry) (maxDepth : Nat) (trail : List String)
    (lookup : Lookup) : Prop :=
  ∀ name r, machines.contains name = true →
    (∀ n ∈ trail, Relation.TransGen (Refers machines) n name) → Sane machines maxDepth trail r →
      Audited machines maxDepth r →
        Account machines maxDepth r (fun defect => name ∉ trail ∧ Due machines maxDepth name defect)
          (¬ SoundWithin machines maxDepth name) (lookup name r)

theorem audited_empty : Audited machines maxDepth .empty := by
  refine ⟨fun _ h => absurd h List.not_mem_nil, fun name h => ?_, fun _ h => absurd h List.not_mem_nil⟩
  rcases h with hbuilt | hfailed
  · simp [Resolution.empty] at hbuilt
  · exact absurd hfailed List.not_mem_nil

theorem mem_report_iff (r : Resolution) (defects : List Defect) (defect : Defect) :
    defect ∈ (r.report defects).defects ↔ defect ∈ r.defects ∨ defect ∈ defects := List.mem_append

theorem Audited.report {r : Resolution} (h : Audited machines maxDepth r) {defects : List Defect}
    (hgenuine : ∀ defect ∈ defects, Genuine machines maxDepth defect) :
    Audited machines maxDepth (r.report defects) := by
  refine ⟨fun defect hmem => ?_, fun name hname defect hdue => ?_, h.failed⟩
  · rcases (mem_report_iff r defects defect).1 hmem with hearlier | hnew
    · exact h.genuine defect hearlier
    · exact hgenuine defect hnew
  · apply (mem_report_iff r defects defect).2
    exact Or.inl (h.complete name hname defect hdue)

/-- Two parts one after the other, whose results are put together. -/
theorem Account.seq {α β γ : Type} {r : Resolution} {Own Own' : Defect → Prop} {Fault Fault' : Prop}
    {f : α → β → γ} {first : Option α × Resolution} {rest : Option β × Resolution}
    (hfirst : Account machines maxDepth r Own Fault first)
    (hrest : Account machines maxDepth first.2 Own' Fault' rest) :
    Account machines maxDepth r (fun defect => Own defect ∨ Own' defect) (Fault ∨ Fault')
      (first.1.bind fun a => rest.1.map (f a), rest.2) := by
  refine ⟨hrest.audited, fun defect h => hrest.kept defect (hfirst.kept defect h), fun defect h => ?_, ?_⟩
  · rcases h with hown | hown
    · exact hrest.kept defect (hfirst.own defect hown)
    · exact hrest.own defect hown
  · intro hnone
    cases ha : first.1 with
    | none => exact Or.inl (hfirst.fault ha)
    | some a =>
        apply Or.inr
        apply hrest.fault
        simpa [ha] using hnone

theorem Account.imp {α : Type} {r : Resolution} {Own Own' : Defect → Prop} {Fault Fault' : Prop}
    {out : Option α × Resolution} (h : Account machines maxDepth r Own Fault out)
    (hown : ∀ defect, Own' defect → Own defect) (hfault : Fault → Fault') :
    Account machines maxDepth r Own' Fault' out :=
  ⟨h.audited, h.kept, fun defect hdefect => h.own defect (hown defect hdefect), fun hnone =>
    hfault (h.fault hnone)⟩

/-! ## Every part accounts for its defects -/

section Parts

variable {lookup : Lookup} {name : String} {entry : MachineEntry}

/-- A defect that is not found in a draft is due wherever it stands. -/
theorem due_of_has (hentry : machines.get? name = some entry) {defect : Defect}
    (h : entry.Has machines name defect) (hdraft : defect.draft? = none) :
    Due machines maxDepth name defect := by
  refine ⟨entry, hentry, h, fun machine hmachine => ?_⟩
  rw [hdraft] at hmachine
  cases hmachine

theorem account_subMachines (hlookup : Lawful machines maxDepth trail lookup)
    (haccount : Accounting machines maxDepth trail lookup)
    (hpath : ∀ n ∈ trail, Relation.ReflTransGen (Refers machines) n name)
    (hentry : machines.get? name = some entry) {p : String × StateEntry}
    (hp : p ∈ entry.states.entries) {names : List String} (hnames : ∀ sub ∈ names, sub ∈ p.2.subMachines)
    {r : Resolution} (hr : Sane machines maxDepth trail r) (hr' : Audited machines maxDepth r) :
    Account machines maxDepth r
      (fun defect => ∃ sub ∈ names, machines.contains sub = false ∧
        defect = .unknownSubMachine name p.1 sub)
      (∃ sub ∈ names, ¬ SoundWithin machines maxDepth sub)
      (subMachines lookup machines.contains name p.1 names r) := by
  induction names generalizing r with
  | nil =>
      refine ⟨hr', fun defect h => h, fun defect h => ?_, fun h => absurd h (Option.some_ne_none _)⟩
      obtain ⟨sub, hsub, -⟩ := h
      exact absurd hsub List.not_mem_nil
  | cons sub names ih =>
      obtain ⟨hsub, hrest⟩ := List.forall_mem_cons.1 hnames
      have hrefers : Refers machines name sub := ⟨entry, hentry, p, hp, hsub⟩
      have hfirst : Sane machines maxDepth trail (if machines.contains sub then lookup sub r
            else (none, r.report [.unknownSubMachine name p.1 sub])).2 ∧
          Account machines maxDepth r
            (fun defect => machines.contains sub = false ∧ defect = .unknownSubMachine name p.1 sub)
            (¬ SoundWithin machines maxDepth sub)
            (if machines.contains sub then lookup sub r
              else (none, r.report [.unknownSubMachine name p.1 sub])) := by
        by_cases hknown : machines.contains sub = true
        · rw [if_pos hknown]
          have hway : ∀ n ∈ trail, Relation.TransGen (Refers machines) n sub :=
            fun n hn => Relation.TransGen.tail' (hpath n hn) hrefers
          refine ⟨(hlookup sub r hknown hway hr).sane, (haccount sub r hknown hway hr hr').imp ?_ id⟩
          rintro defect ⟨hunknown, -⟩
          simp [hknown] at hunknown
        · rw [if_neg hknown]
          have hunknown : machines.contains sub = false := by simpa using hknown
          have hgenuine : Genuine machines maxDepth (.unknownSubMachine name p.1 sub) :=
            Or.inr ⟨name, due_of_has hentry (.unknownSubMachine hp hsub hunknown) rfl⟩
          refine ⟨hr.report fun _ h => hknown (h.contains hrefers), hr'.report ?_, ?_, ?_, ?_⟩
          · simpa using hgenuine
          · intro defect h
            exact (mem_report_iff r _ defect).2 (Or.inl h)
          · rintro defect ⟨-, rfl⟩
            exact (mem_report_iff r _ _).2 (Or.inr List.mem_cons_self)
          · exact fun _ hsound => hknown hsound.contains
      obtain ⟨hsane, hfirst⟩ := hfirst
      apply (hfirst.seq (ih hrest hsane hfirst.audited)).imp
      · rintro defect ⟨other, hother, hunknown, rfl⟩
        rcases List.mem_cons.1 hother with rfl | hother
        · exact Or.inl ⟨hunknown, rfl⟩
        · exact Or.inr ⟨other, hother, hunknown, rfl⟩
      · rintro (hfault | ⟨other, hother, hfault⟩)
        · exact ⟨sub, List.mem_cons_self, hfault⟩
        · exact ⟨other, List.mem_cons_of_mem _ hother, hfault⟩

/-- The defects of a state that are noted when it is drafted. -/
def DraftingDefect (machines : NameTable MachineEntry) (name : String) (p : String × StateEntry)
    (defect : Defect) : Prop :=
  (∃ sub ∈ p.2.subMachines, machines.contains sub = false ∧ defect = .unknownSubMachine name p.1 sub) ∨
    defect ∈ ambiguities name p.1 0 p.2.transitions

theorem account_state (hlookup : Lawful machines maxDepth trail lookup)
    (haccount : Accounting machines maxDepth trail lookup)
    (hpath : ∀ n ∈ trail, Relation.ReflTransGen (Refers machines) n name)
    (hentry : machines.get? name = some entry) {p : String × StateEntry}
    (hp : p ∈ entry.states.entries) {r : Resolution} (hr : Sane machines maxDepth trail r)
    (hr' : Audited machines maxDepth r) :
    Account machines maxDepth r (DraftingDefect machines name p) (¬ Draftable machines maxDepth p.2)
      (state lookup machines.contains name p.1 p.2 r) := by
  have hsubs := account_subMachines hlookup haccount hpath hentry hp (fun _ h => h) hr hr'
  have hgenuine : ∀ defect ∈ ambiguities name p.1 0 p.2.transitions, Genuine machines maxDepth defect := by
    intro defect hdefect
    obtain ⟨i, t, ht, hkind, rfl⟩ := (mem_ambiguities_iff _ _ _ _ _).1 hdefect
    exact Or.inr ⟨name, due_of_has hentry (.ambiguousTransition hp (by simpa using ht) hkind) rfl⟩
  refine ⟨hsubs.audited.report hgenuine, fun defect h => ?_, fun defect h => ?_, fun hnone hdraftable => ?_⟩
  · exact (mem_report_iff _ _ defect).2 (Or.inl (hsubs.kept defect h))
  · rcases h with hunknown | hambiguous
    · exact (mem_report_iff _ _ defect).2 (Or.inl (hsubs.own defect hunknown))
    · exact (mem_report_iff _ _ defect).2 (Or.inr hambiguous)
  · -- in a state that can be drafted both parts have a result
    rcases fault_of_state hnone with hs | ⟨t, ht, hkind⟩
    · obtain ⟨sub, hsub, hfault⟩ := hsubs.fault hs
      exact hfault (hdraftable.subMachines sub hsub)
    · exact hkind ((kind?_isSome_iff t).2 (hdraftable.kinds t ht))

theorem account_states (hlookup : Lawful machines maxDepth trail lookup)
    (haccount : Accounting machines maxDepth trail lookup)
    (hpath : ∀ n ∈ trail, Relation.ReflTransGen (Refers machines) n name)
    (hentry : machines.get? name = some entry) {ps : List (String × StateEntry)}
    (hps : ∀ p ∈ ps, p ∈ entry.states.entries) {r : Resolution} (hr : Sane machines maxDepth trail r)
    (hr' : Audited machines maxDepth r) :
    Account machines maxDepth r (fun defect => ∃ p ∈ ps, DraftingDefect machines name p defect)
      (∃ p ∈ ps, ¬ Draftable machines maxDepth p.2) (states lookup machines.contains name ps r) := by
  induction ps generalizing r with
  | nil =>
      refine ⟨hr', fun defect h => h, fun defect h => ?_, fun h => absurd h (Option.some_ne_none _)⟩
      obtain ⟨p, hp, -⟩ := h
      exact absurd hp List.not_mem_nil
  | cons p ps ih =>
      obtain ⟨hp, hrest⟩ := List.forall_mem_cons.1 hps
      have hsane := (step_state hlookup hpath hentry hp hr).sane
      have hfirst := account_state hlookup haccount hpath hentry hp hr hr'
      apply (hfirst.seq (ih hrest hsane hfirst.audited)).imp
      · rintro defect ⟨q, hq, hown⟩
        rcases List.mem_cons.1 hq with rfl | hq
        · exact Or.inl hown
        · exact Or.inr ⟨q, hq, hown⟩
      · rintro (hfault | ⟨q, hq, hfault⟩)
        · exact ⟨p, List.mem_cons_self, hfault⟩
        · exact ⟨q, List.mem_cons_of_mem _ hq, hfault⟩

/-- What is due to a machine is noted while it is drafted, or found in its draft. -/
theorem drafting_or_draft (hentry : machines.get? name = some entry) {defect : Defect}
    (h : Due machines maxDepth name defect) :
    (∃ p ∈ entry.states.entries, DraftingDefect machines name p defect) ∨
      (entry.Has machines name defect ∧ defect.draft? = some name ∧ Drafted machines maxDepth name) := by
  obtain ⟨e, he, hhas, hdrafted⟩ := h
  obtain rfl : entry = e := by simpa [hentry] using he
  cases hdraft : defect.draft? with
  | some machine =>
      obtain rfl := hhas.draft?_eq hdraft
      exact Or.inr ⟨hhas, rfl, hdrafted _ hdraft⟩
  | none =>
      apply Or.inl
      cases hhas with
      | noStates hempty => simp [Defect.draft?] at hdraft
      | unknownStart hstates hunknown => simp [Defect.draft?] at hdraft
      | danglingTarget hp ht htarget hunknown => simp [Defect.draft?] at hdraft
      | badStimulus hp ht htext hparse => simp [Defect.draft?] at hdraft
      | noStimuli hp ht hempty => simp [Defect.draft?] at hdraft
      | @ambiguousTransition p index t hp ht hkind =>
          refine ⟨p, hp, Or.inr ((mem_ambiguities_iff _ _ _ _ _).2 ⟨index, t, ht, hkind, ?_⟩)⟩
          rw [Nat.zero_add]
      | @unknownSubMachine p sub hp hsub hunknown =>
          exact ⟨p, hp, Or.inl ⟨sub, hsub, hunknown, rfl⟩⟩

theorem account_machine (hlookup : Lawful machines maxDepth trail lookup)
    (haccount : Accounting machines maxDepth trail lookup)
    (hpath : ∀ n ∈ trail, Relation.ReflTransGen (Refers machines) n name)
    (hentry : machines.get? name = some entry) {r : Resolution} (hr : Sane machines maxDepth trail r)
    (hr' : Audited machines maxDepth r) :
    Account machines maxDepth r (Due machines maxDepth name) (¬ SoundWithin machines maxDepth name)
      (machine lookup machines.contains maxDepth name entry r) := by
  have hstep := step_states hlookup hpath hentry (fun p hp => hp) hr
  have hstates := account_states hlookup haccount hpath hentry (fun p hp => hp) hr hr'
  rw [machine]
  generalize states lookup machines.contains name entry.states.entries r = out at hstep hstates ⊢
  obtain ⟨drafts, r'⟩ := out
  cases drafts with
  | none =>
      -- without drafts nothing that a draft shows is due
      obtain ⟨p, hp, hfault⟩ := hstates.fault rfl
      have hundrafted : ¬ Drafted machines maxDepth name := by
        rintro ⟨e, he, hall⟩
        obtain rfl : entry = e := by simpa [hentry] using he
        exact hfault (hall p hp)
      refine ⟨hstates.audited, hstates.kept, fun defect hdue => ?_, fun _ h => hundrafted h.drafted⟩
      rcases drafting_or_draft hentry hdue with hown | ⟨-, -, hdrafted⟩
      · exact hstates.own defect hown
      · exact absurd hdrafted hundrafted
  | some drafts =>
      have hdrafts := hstep.result drafts rfl
      have hdrafted := drafted_of_drafts hstep.sane.faithful hentry hdrafts
      have hfound := mem_defects_of_drafts name machines maxDepth hdrafts
      have hown : ∀ defect, Due machines maxDepth name defect → defect ∈ r'.defects ∨
          defect ∈ MachineDraft.defects ⟨name, some entry.start, drafts, maxDepth⟩ := by
        intro defect hdue
        rcases drafting_or_draft hentry hdue with hown | ⟨hhas, hdraft, -⟩
        · exact Or.inl (hstates.own defect hown)
        · exact Or.inr ((hfound defect).2 (Or.inl ⟨hhas, hdraft⟩))
      dsimp only
      cases hbuild : MachineDraft.build ⟨name, some entry.start, drafts, maxDepth⟩ with
      | ok m =>
          have hnil : MachineDraft.defects ⟨name, some entry.start, drafts, maxDepth⟩ = [] := by
            obtain ⟨hsound, -⟩ := (MachineDraft.build_eq_ok_iff _ m).1 hbuild
            exact (MachineDraft.defects_eq_nil_iff _).2 hsound
          refine ⟨hstates.audited, hstates.kept, ?_, fun h => absurd h (Option.some_ne_none m)⟩
          intro defect hdue
          rcases hown defect hdue with hnoted | hmem
          · exact hnoted
          · rw [hnil] at hmem
            exact absurd hmem List.not_mem_nil
      | error defects =>
          obtain ⟨rfl, hne⟩ := (MachineDraft.build_eq_error_iff _ _).1 hbuild
          have hgenuine : ∀ defect ∈ MachineDraft.defects ⟨name, some entry.start, drafts, maxDepth⟩,
              Genuine machines maxDepth defect := by
            intro defect hmem
            rcases (hfound defect).1 hmem with ⟨hhas, hdraft⟩ | ⟨depth, -, rfl, -⟩
            · refine Or.inr ⟨name, entry, hentry, hhas, fun machine hmachine => ?_⟩
              obtain rfl := hhas.draft?_eq hmachine
              exact hdrafted
            · exact Or.inl trivial
          refine ⟨hstates.audited.report hgenuine, fun defect h => ?_, fun defect hdue => ?_, ?_⟩
          · exact (mem_report_iff r' _ defect).2 (Or.inl (hstates.kept defect h))
          · exact (mem_report_iff r' _ defect).2 (hown defect hdue)
          · -- the draft of a machine that can be built has no defect
            intro _ hsound
            apply hne
            apply List.eq_nil_iff_forall_not_mem.2
            intro defect hmem
            rcases (hfound defect).1 hmem with ⟨hhas, -⟩ | ⟨depth, hlt, -, rfl⟩
            · exact (hsound.valid hentry).not_has name defect hhas
            · have hle := depth_le_of_drafts hstep.sane.faithful hentry hdrafts hsound
              omega

/-- A machine that has been tried is settled, with everything noted that is due to it. -/
theorem account_settle {r : Resolution} {out : Option Machine × Resolution}
    (h : Account machines maxDepth r (Due machines maxDepth name) (¬ SoundWithin machines maxDepth name)
      out) :
    Account machines maxDepth r (Due machines maxDepth name) (¬ SoundWithin machines maxDepth name)
      (out.1, out.2.settle name out.1) := by
  obtain ⟨found, r'⟩ := out
  cases found with
  | none =>
      refine ⟨⟨h.audited.genuine, ?_, ?_⟩, h.kept, h.own, h.fault⟩
      · rintro other (hbuilt | hfailed)
        · exact h.audited.complete other (Or.inl hbuilt)
        · rcases List.mem_cons.1 hfailed with rfl | hfailed
          · exact h.own
          · exact h.audited.complete other (Or.inr hfailed)
      · intro other hother
        rcases List.mem_cons.1 hother with rfl | hother
        · exact h.fault rfl
        · exact h.audited.failed other hother
  | some m =>
      refine ⟨⟨h.audited.genuine, ?_, h.audited.failed⟩, h.kept, h.own, h.fault⟩
      rintro other (hbuilt | hfailed)
      · by_cases heq : name = other
        · exact heq ▸ h.own
        · have hget : (r'.settle name (some m)).built.get? other = r'.built.get? other := by
            rw [show (r'.settle name (some m)).built = r'.built.insert name m from rfl,
              NameTable.get?_insert, if_neg heq]
          rw [hget] at hbuilt
          exact h.audited.complete other (Or.inl hbuilt)
      · exact h.audited.complete other (Or.inr hfailed)

end Parts

/-- Enough levels are enough for a full account, too. -/
theorem accounting_resolve (levels : Nat) :
    ∀ trail : List String, Room machines levels trail →
      Accounting machines maxDepth trail (resolve machines maxDepth levels trail) := by
  induction levels with
  | zero => exact fun trail hroom => absurd hroom not_room_zero
  | succ levels ih =>
      intro trail hroom name r hname hpath hr hr'
      have hlookup := lookedUp_resolve maxDepth levels trail hname r
      generalize resolve machines maxDepth (levels + 1) trail name r = answer at hlookup ⊢
      cases hlookup with
      | @built m hbuilt =>
          have hsome : (r.built.get? name).isSome := by rw [hbuilt]; rfl
          refine ⟨hr', fun defect h => h, ?_, fun h => absurd h (Option.some_ne_none m)⟩
          exact fun defect hown => hr'.complete name (Or.inl hsome) defect hown.2
      | failed hfailed =>
          refine ⟨hr', fun defect h => h, ?_, fun _ => hr'.failed name hfailed⟩
          exact fun defect hown => hr'.complete name (Or.inr hfailed) defect hown.2
      | cycle hnone hfailed hmem =>
          -- its own defects are noted when its turn ends
          refine ⟨hr'.report ?_, fun defect h => ?_, ?_, fun _ => ?_⟩
          · intro defect hdefect
            obtain rfl := List.mem_singleton.1 hdefect
            exact Or.inl trivial
          · exact (mem_report_iff r _ defect).2 (Or.inl h)
          · rintro defect ⟨hnew, -⟩
            exact absurd hmem hnew
          · exact not_soundWithin_of_cycle (hpath name hmem) maxDepth
      | tried hnone hfailed hnew hentry hout =>
          have hroom' := hroom.push hnew hname
          have hmachine := account_machine (lawful_resolve levels _ hroom') (ih _ hroom')
            (reflTransGen_push hpath) hentry (hr.push hnone) hr'
          rw [hout] at hmachine
          exact (account_settle hmachine).imp (fun _ h => h.2) id

/-- Resolving machines one after another notes all that is due to them. -/
theorem resolveAll_accounts {names : List String} (hnames : ∀ n ∈ names, machines.contains n = true)
    {r : Resolution} (hr : Sane machines maxDepth [] r) (hr' : Audited machines maxDepth r) :
    Audited machines maxDepth (resolveAll machines maxDepth names r) ∧
      (∀ defect ∈ r.defects, defect ∈ (resolveAll machines maxDepth names r).defects) ∧
      ∀ n ∈ names, ∀ defect, Due machines maxDepth n defect →
        defect ∈ (resolveAll machines maxDepth names r).defects := by
  induction names generalizing r with
  | nil => exact ⟨hr', fun _ h => h, fun n hn => absurd hn List.not_mem_nil⟩
  | cons name names ih =>
      obtain ⟨hname, hrest⟩ := List.forall_mem_cons.1 hnames
      have hsane := (lawful_resolve _ [] room_nil name r hname nofun hr).sane
      have haccount := accounting_resolve _ [] room_nil name r hname nofun hr hr'
      obtain ⟨haudited, hkept, hown⟩ := ih hrest hsane haccount.audited
      rw [resolveAll]
      refine ⟨haudited, fun defect h => hkept defect (haccount.kept defect h), ?_⟩
      rw [List.forall_mem_cons]
      refine ⟨fun defect hdue => ?_, hown⟩
      exact hkept defect (haccount.own defect ⟨List.not_mem_nil, hdue⟩)

end Resolution

namespace Document

open Resolution

/-- Which defects of a document are reported: those that are not found in drafts always, the others when
their machine is drafted, and none besides them but those of the references. -/
theorem mem_defects_resolution (d : Document) (maxDepth : Nat) :
    (∀ defect, d.Has defect →
        (defect ∈ (d.resolution maxDepth).defects ↔
          ∀ machine, defect.draft? = some machine → Drafted d.machines maxDepth machine)) ∧
      ∀ defect ∈ (d.resolution maxDepth).defects, d.Has defect ∨ defect.OfReferences := by
  have hsane : Sane d.machines maxDepth [] .empty := sane_empty
  obtain ⟨haudited, -, hall⟩ := resolveAll_accounts
    (fun n hn => (NameTable.mem_names_iff d.machines n).1 hn) hsane audited_empty
  have hmem : ∀ defect, defect ∈ (d.resolution maxDepth).defects ↔
      defect ∈ (resolveAll d.machines maxDepth d.machines.names .empty).defects ∨
        d.machines.contains d.root = false ∧ defect = .unknownRoot d.root := by
    intro defect
    rw [defects_resolution, List.mem_append]
    by_cases hroot : d.machines.contains d.root = true
    · simp [hroot]
    · simp [hroot]
  refine ⟨fun defect hhas => ⟨fun hdefect machine hdraft => ?_, fun hdrafted => ?_⟩, fun defect hdefect => ?_⟩
  · -- a defect of a draft that has been noted was due
    rcases (hmem defect).1 hdefect with hnoted | ⟨-, rfl⟩
    · rcases haudited.genuine defect hnoted with hreferences | ⟨name, e, he, hdue, hdrafted⟩
      · cases hhas with
        | inMachine he h => cases h <;> exact absurd hreferences id
        | unknownRoot hunknown => exact absurd hreferences id
      · exact hdrafted machine hdraft
    · simp [Defect.draft?] at hdraft
  · apply (hmem defect).2
    cases hhas with
    | @inMachine name e defect he h =>
        have hname := (NameTable.mem_names_iff d.machines name).2 ((NameTable.contains_iff d.machines name).2 ⟨e, he⟩)
        exact Or.inl (hall name hname defect ⟨e, he, h, hdrafted⟩)
    | unknownRoot hunknown => exact Or.inr ⟨hunknown, rfl⟩
  · rcases (hmem defect).1 hdefect with hnoted | ⟨hunknown, rfl⟩
    · rcases haudited.genuine defect hnoted with hreferences | ⟨name, e, he, h, -⟩
      · exact Or.inr hreferences
      · exact Or.inl (.inMachine he h)
    · exact Or.inl (.unknownRoot hunknown)

/-- A valid document has no defect. -/
theorem Valid.not_has {d : Document} {maxDepth : Nat} (h : d.Valid maxDepth) (defect : Defect) :
    ¬ d.Has defect := by
  intro hhas
  cases hhas with
  | inMachine he hentry => exact (h.resolvable.entries _ _ he).not_has _ _ hentry
  | unknownRoot hunknown => simp [h.root] at hunknown

/-- A document that loads has no defect. Of one that does not, the loader reports the transitions without a
kind, the unknown machines and the unknown root wherever they stand, and what the draft of a machine shows
exactly when the machine is drafted, that is when its transitions have kinds and the machines that it refers
to can be built. Apart from cycles and machines that are too deep it reports nothing else. -/
theorem load_reports (d : Document) (config : Config) :
    match d.load config.maxDepth with
    | .ok _ => ∀ defect, ¬ d.Has defect
    | .error defects =>
      (∀ defect, d.Has defect →
          (defect ∈ defects ↔
            ∀ machine, defect.draft? = some machine → Drafted d.machines config.maxDepth machine)) ∧
        ∀ defect ∈ defects, d.Has defect ∨ defect.OfReferences := by
  cases hload : d.load config.maxDepth with
  | ok set =>
      obtain ⟨hnil, -⟩ := (load_eq_ok_iff d config.maxDepth set).1 hload
      exact ((defects_resolution_eq_nil_iff d config.maxDepth).1 hnil).not_has
  | error defects =>
      rw [← defects_of_load hload]
      exact mem_defects_resolution d config.maxDepth

/-- A state that refers to an unknown machine and has an arrow to an unknown state. -/
def looseState : StateEntry where
  subMachines := ["nope"]
  transitions := [{ target := some "ghost", on := ["x:down"] }]

/-- A document in which this is the only state. -/
def loose : Document where
  root := "a"
  machines := .ofList [("a", { start := "s", states := .ofList [("s", looseState)] })]

/-- Of these two defects only the first is reported. -/
theorem target_behind_unknown_subMachine :
    ∃ defects, loose.load ({} : Config).maxDepth = .error defects ∧
      loose.Has (.unknownSubMachine "a" "s" "nope") ∧ .unknownSubMachine "a" "s" "nope" ∈ defects ∧
      loose.Has (.danglingTarget "a" "s" "ghost") ∧ .danglingTarget "a" "s" "ghost" ∉ defects := by
  have hentry : loose.machines.get? "a" = some ⟨"s", .ofList [("s", looseState)]⟩ := rfl
  have hstate : ("s", looseState) ∈ (NameTable.ofList [("s", looseState)]).entries := List.mem_cons_self
  refine ⟨[.unknownSubMachine "a" "s" "nope"], rfl, ?_, List.mem_cons_self, ?_, by decide⟩
  · apply Has.inMachine hentry
    exact .unknownSubMachine (p := ("s", looseState)) hstate List.mem_cons_self rfl
  · apply Has.inMachine hentry
    exact .danglingTarget (p := ("s", looseState)) hstate List.mem_cons_self rfl rfl

end Document

end ModeTree
