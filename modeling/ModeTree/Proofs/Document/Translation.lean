import ModeTree.Document.Resolution
import ModeTree.Proofs.Machine.Draft
import ModeTree.Proofs.NameTable
import ModeTree.Proofs.Relations

/-!
# Translating documents

What a resolved machine has to do with the entry of its name. `DraftOf` relates a written state to its
draft, `Builds` an entry to its machine, and `Faithful` says that every machine built so far comes from
the entry of its name and from machines that are built as well. The lemmas that follow say what each
part of the resolver answers in these terms.
-/

set_option autoImplicit false

namespace ModeTree

namespace Resolution

/-- A state draft that says what a written state says, with machines that have been built for the
names in it. -/
structure DraftOf (built : NameTable Machine) (p : String × StateEntry) (draft : StateDraft) :
    Prop where
  id : draft.id = p.1
  enter : draft.enter = p.2.enter
  exit : draft.exit = p.2.exit
  hintMode : draft.hintMode = p.2.hint
  description : draft.description = p.2.description
  transitions : List.Forall₂ (fun t d => transition? t = some d) p.2.transitions draft.transitions
  subMachines : List.Forall₂ (fun name m => built.get? name = some m) p.2.subMachines
    draft.subMachines

/-- A machine built from an entry, with machines that have been built for the names in it. -/
def Builds (maxDepth : Nat) (built : NameTable Machine) (name : String) (entry : MachineEntry)
    (m : Machine) : Prop :=
  ∃ drafts, List.Forall₂ (DraftOf built) entry.states.entries drafts ∧
    MachineDraft.build ⟨name, some entry.start, drafts, maxDepth⟩ = .ok m

/-- Every machine in a table is built from the entry of its name. -/
def Faithful (machines : NameTable MachineEntry) (maxDepth : Nat) (built : NameTable Machine) : Prop :=
  ∀ name m, built.get? name = some m →
    ∃ entry, machines.get? name = some entry ∧ Builds maxDepth built name entry m

/-- The second table has all that the first one has. -/
def Extends (built built' : NameTable Machine) : Prop :=
  ∀ name m, built.get? name = some m → built'.get? name = some m

/-- A state of the first machine names the second one. -/
def Refers (machines : NameTable MachineEntry) (a b : String) : Prop :=
  ∃ entry, machines.get? a = some entry ∧ ∃ p ∈ entry.states.entries, b ∈ p.2.subMachines

variable {machines : NameTable MachineEntry} {maxDepth : Nat}

theorem Extends.refl (built : NameTable Machine) : Extends built built := fun _ _ h => h

theorem Extends.trans {a b c : NameTable Machine} (hab : Extends a b) (hbc : Extends b c) :
    Extends a c := fun name m h => hbc name m (hab name m h)

/-- A new name leaves what is there. -/
theorem Extends.insert {built : NameTable Machine} {name : String} (h : built.get? name = none)
    (m : Machine) : Extends built (built.insert name m) := by
  intro other found hfound
  rw [NameTable.get?_insert]
  split
  · next heq =>
      subst heq
      rw [h] at hfound
      cases hfound
  · exact hfound

theorem DraftOf.mono {built built' : NameTable Machine} (h : Extends built built')
    {p : String × StateEntry} {draft : StateDraft} (hd : DraftOf built p draft) :
    DraftOf built' p draft :=
  { hd with subMachines := hd.subMachines.imp fun name m hm => h name m hm }

theorem Builds.mono {built built' : NameTable Machine} (h : Extends built built') {name : String}
    {entry : MachineEntry} {m : Machine} (hm : Builds maxDepth built name entry m) :
    Builds maxDepth built' name entry m := by
  obtain ⟨drafts, hdrafts, hbuild⟩ := hm
  exact ⟨drafts, hdrafts.imp fun _ _ hd => hd.mono h, hbuild⟩

theorem faithful_empty : Faithful machines maxDepth .empty := by
  intro name m h
  simp at h

/-- A machine of a new name may be added. -/
theorem Faithful.insert {built : NameTable Machine} (hf : Faithful machines maxDepth built)
    {name : String} (hnew : built.get? name = none) {entry : MachineEntry}
    (hentry : machines.get? name = some entry) {m : Machine}
    (hm : Builds maxDepth built name entry m) : Faithful machines maxDepth (built.insert name m) := by
  have hext := Extends.insert hnew m
  intro other found hfound
  rw [NameTable.get?_insert] at hfound
  split at hfound
  · next heq =>
      subst heq
      obtain rfl : m = found := by simpa using hfound
      exact ⟨entry, hentry, hm.mono hext⟩
  · obtain ⟨e, he, hbuilds⟩ := hf other found hfound
    exact ⟨e, he, hbuilds.mono hext⟩

/-! ## Written transitions -/

/-- A transition has a kind exactly when one of its target and its action is set. -/
theorem kind?_isSome_iff (t : TransitionEntry) :
    (kind? t).isSome ↔ t.target.isSome ≠ t.action.isSome := by
  rw [kind?]
  cases t.target <;> cases t.action <;> simp

theorem transition?_isSome (t : TransitionEntry) : (transition? t).isSome = (kind? t).isSome := by
  rw [transition?, Option.isSome_map]

/-- The draft of a transition has its texts and its target. -/
theorem transition?_facts {t : TransitionEntry} {d : TransitionDraft} (h : transition? t = some d) :
    (kind? t).isSome ∧ d.stimuli = t.on ∧ d.kind.target? = t.target := by
  obtain ⟨kind, hkind, rfl⟩ := Option.map_eq_some_iff.1 h
  refine ⟨by rw [hkind]; rfl, rfl, ?_⟩
  rw [kind?] at hkind
  split at hkind
  · next htarget _ =>
      cases hkind
      exact htarget.symm
  · next htarget _ =>
      cases hkind
      exact htarget.symm
  · cases hkind

theorem ambiguities_eq_nil_iff (machine state : String) (index : Nat) (ts : List TransitionEntry) :
    ambiguities machine state index ts = [] ↔ ∀ t ∈ ts, (kind? t).isSome := by
  induction ts generalizing index with
  | nil => simp [ambiguities]
  | cons t ts ih =>
      rw [ambiguities, List.append_eq_nil_iff, ih, List.forall_mem_cons]
      cases kind? t <;> simp

theorem mapM_transition?_facts (ts : List TransitionEntry) :
    match ts.mapM transition? with
    | some ds => List.Forall₂ (fun t d => transition? t = some d) ts ds
    | none => ∃ t ∈ ts, ¬ (kind? t).isSome := by
  induction ts with
  | nil => exact List.Forall₂.nil
  | cons t ts ih =>
      rw [List.mapM_cons]
      cases ht : transition? t with
      | none =>
          refine ⟨t, List.mem_cons_self, ?_⟩
          rw [← transition?_isSome, ht]
          simp
      | some d =>
          cases hts : ts.mapM transition? with
          | none =>
              rw [hts] at ih
              obtain ⟨u, hu, hkind⟩ := ih
              exact ⟨u, List.mem_cons_of_mem _ hu, hkind⟩
          | some ds =>
              rw [hts] at ih
              exact List.Forall₂.cons ht ih

theorem mapM_transition?_eq_some {ts : List TransitionEntry} {ds : List TransitionDraft}
    (h : List.Forall₂ (fun t d => transition? t = some d) ts ds) : ts.mapM transition? = some ds := by
  induction h with
  | nil => rfl
  | cons ht _ ih =>
      rw [List.mapM_cons, ht, ih]
      rfl

/-- A draft is determined by its written state, apart from the machines in it. -/
theorem DraftOf.exists_eq {built : NameTable Machine} {p : String × StateEntry} {draft : StateDraft}
    (h : DraftOf built p draft) {ts : List TransitionDraft}
    (hts : p.2.transitions.mapM transition? = some ts) :
    ∃ subs, List.Forall₂ (fun name m => built.get? name = some m) p.2.subMachines subs ∧
      draft = ⟨p.1, p.2.enter, p.2.exit, ts, subs, p.2.hint, p.2.description⟩ := by
  rw [mapM_transition?_eq_some h.transitions] at hts
  obtain rfl : draft.transitions = ts := Option.some.inj hts
  refine ⟨draft.subMachines, h.subMachines, ?_⟩
  rw [← h.id, ← h.enter, ← h.exit, ← h.hintMode, ← h.description]

/-! ## Depth along references -/

/-- The machines in the drafts of an entry come from the table, by names that the entry refers to. -/
theorem exists_refers_of_drafts {built : NameTable Machine} {name : String} {entry : MachineEntry}
    (hentry : machines.get? name = some entry) {drafts : List StateDraft}
    (hdrafts : List.Forall₂ (DraftOf built) entry.states.entries drafts) {draft : StateDraft}
    (hdraft : draft ∈ drafts) {sub : Machine} (hsub : sub ∈ draft.subMachines) :
    ∃ subName, Refers machines name subName ∧ built.get? subName = some sub := by
  obtain ⟨p, hp, hof⟩ := exists_of_mem_right hdrafts hdraft
  obtain ⟨subName, hname, hget⟩ := exists_of_mem_right hof.subMachines hsub
  exact ⟨subName, ⟨entry, hentry, p, hp, hname⟩, hget⟩

/-- A machine that is referred to has been built, and is less deep. -/
theorem Faithful.subMachine {built : NameTable Machine} (hf : Faithful machines maxDepth built)
    {a b : String} (hab : Refers machines a b) {m : Machine} (hm : built.get? a = some m) :
    ∃ sub, built.get? b = some sub ∧ sub.depth < m.depth := by
  obtain ⟨entry, hentry, p, hp, hb⟩ := hab
  obtain ⟨entry', hentry', drafts, hdrafts, hbuild⟩ := hf a m hm
  obtain rfl : entry = entry' := by simpa [hentry] using hentry'
  obtain ⟨draft, hdraft, hof⟩ := exists_of_mem_left hdrafts hp
  obtain ⟨sub, hsub, hget⟩ := exists_of_mem_left hof.subMachines hb
  refine ⟨sub, hget, ?_⟩
  rw [MachineDraft.depth_of_build hbuild]
  exact MachineDraft.depth_lt_of_mem hdraft hsub

/-- Induction over the built machines: one of them from those that its states refer to. -/
theorem Faithful.induction {built : NameTable Machine} (hf : Faithful machines maxDepth built)
    {motive : String → Machine → Prop}
    (step : ∀ name entry drafts m, machines.get? name = some entry →
      List.Forall₂ (DraftOf built) entry.states.entries drafts →
      MachineDraft.build ⟨name, some entry.start, drafts, maxDepth⟩ = .ok m →
      (∀ draft ∈ drafts, ∀ sub ∈ draft.subMachines,
        ∃ subName, Refers machines name subName ∧ motive subName sub) → motive name m)
    {name : String} {m : Machine} (hm : built.get? name = some m) : motive name m := by
  -- the machines in the states come from the same table, and are less deep
  induction hd : m.depth using Nat.strongRecOn generalizing name m with
  | ind depth ih =>
      obtain ⟨entry, hentry, drafts, hdrafts, hbuild⟩ := hf name m hm
      apply step name entry drafts m hentry hdrafts hbuild
      intro draft hdraft sub hsub
      obtain ⟨subName, hrefers, hget⟩ := exists_refers_of_drafts hentry hdrafts hdraft hsub
      have hlt : sub.depth < MachineDraft.depth ⟨name, some entry.start, drafts, maxDepth⟩ :=
        MachineDraft.depth_lt_of_mem hdraft hsub
      rw [← MachineDraft.depth_of_build hbuild, hd] at hlt
      exact ⟨subName, hrefers, ih sub.depth hlt hget rfl⟩

/-- A chain of references from a built machine has no more members than the machine has levels. -/
theorem Faithful.length_le_depth {built : NameTable Machine} (hf : Faithful machines maxDepth built)
    {chain : List String} {a : String} (hchain : (a :: chain).IsChain (Refers machines)) {m : Machine}
    (hm : built.get? a = some m) : (a :: chain).length ≤ m.depth := by
  induction chain generalizing a m with
  | nil => exact m.depth_pos
  | cons b chain ih =>
      -- every member of the chain is less deep than the one before it
      obtain ⟨hab, hrest⟩ := List.isChain_cons_cons.1 hchain
      obtain ⟨sub, hsub, hlt⟩ := hf.subMachine hab hm
      have := ih hrest hsub
      simp only [List.length_cons] at this ⊢
      omega

/-- So it is along every way of references: no built machine refers to itself. -/
theorem Faithful.depth_lt_of_transGen {built : NameTable Machine}
    (hf : Faithful machines maxDepth built) {a b : String}
    (hab : Relation.TransGen (Refers machines) a b) {m : Machine} (hm : built.get? a = some m) :
    ∃ sub, built.get? b = some sub ∧ sub.depth < m.depth := by
  induction hab with
  | single h => exact hf.subMachine h hm
  | tail _ h ih =>
      obtain ⟨mid, hmid, hlt⟩ := ih
      obtain ⟨sub, hsub, hlt'⟩ := hf.subMachine h hmid
      exact ⟨sub, hsub, by omega⟩

/-- Where the depths of the machines in the drafts of an entry are reached by chains of references, so
is the depth of the draft that they make. -/
theorem exists_chain_of_drafts {built : NameTable Machine} {name : String} {entry : MachineEntry}
    (maxDepth : Nat) (hentry : machines.get? name = some entry) {drafts : List StateDraft}
    (hdrafts : List.Forall₂ (DraftOf built) entry.states.entries drafts)
    (ih : ∀ sub m, built.get? sub = some m → (∃ draft ∈ drafts, m ∈ draft.subMachines) →
      ∃ chain, (sub :: chain).IsChain (Refers machines) ∧ m.depth ≤ (sub :: chain).length) :
    ∃ chain, (name :: chain).IsChain (Refers machines) ∧
      MachineDraft.depth ⟨name, some entry.start, drafts, maxDepth⟩ ≤ (name :: chain).length := by
  -- if all chains were shorter, so would be those of the machines in the drafts, and with them the depth
  by_contra hnone
  have hshort : ∀ chain, (name :: chain).IsChain (Refers machines) →
      (name :: chain).length < MachineDraft.depth ⟨name, some entry.start, drafts, maxDepth⟩ :=
    fun chain hchain => Nat.lt_of_not_le fun hle => hnone ⟨chain, hchain, hle⟩
  obtain ⟨n, hn⟩ : ∃ n, MachineDraft.depth ⟨name, some entry.start, drafts, maxDepth⟩ = n + 1 :=
    ⟨_, Nat.add_comm 1 _⟩
  have hpos := hshort [] (List.IsChain.singleton name)
  obtain ⟨k, rfl⟩ : ∃ k, n = k + 1 := ⟨n - 1, by rw [hn] at hpos; simp at hpos; omega⟩
  have hle : MachineDraft.depth ⟨name, some entry.start, drafts, maxDepth⟩ ≤ k + 1 := by
    rw [MachineDraft.depth_le_succ_iff]
    intro draft hdraft sub hsub
    obtain ⟨subName, hrefers, hget⟩ := exists_refers_of_drafts hentry hdrafts hdraft hsub
    obtain ⟨chain, hchain, hlen⟩ := ih subName sub hget ⟨draft, hdraft, hsub⟩
    have := hshort (subName :: chain) (List.isChain_cons_cons.2 ⟨hrefers, hchain⟩)
    rw [hn, List.length_cons] at this
    omega
  omega

/-- The depth of a built machine is reached by a chain of references. -/
theorem Faithful.exists_chain {built : NameTable Machine} (hf : Faithful machines maxDepth built)
    {name : String} {m : Machine} (hm : built.get? name = some m) :
    ∃ chain, (name :: chain).IsChain (Refers machines) ∧ m.depth ≤ (name :: chain).length := by
  induction hd : m.depth using Nat.strongRecOn generalizing name m with
  | ind d ih =>
      obtain ⟨entry, hentry, drafts, hdrafts, hbuild⟩ := hf name m hm
      have hdepth := MachineDraft.depth_of_build hbuild
      rw [← hd, hdepth]
      apply exists_chain_of_drafts maxDepth hentry hdrafts
      intro subName sub hsub hmem
      obtain ⟨draft, hdraft, hin⟩ := hmem
      have hlt : sub.depth < MachineDraft.depth ⟨name, some entry.start, drafts, maxDepth⟩ :=
        MachineDraft.depth_lt_of_mem hdraft hin
      rw [← hdepth, hd] at hlt
      exact ih sub.depth hlt hsub rfl

end Resolution

end ModeTree
