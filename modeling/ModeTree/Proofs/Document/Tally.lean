import ModeTree.Proofs.Document.Cycles
import ModeTree.Proofs.Document.Enumeration
import ModeTree.Proofs.Document.Reporting

/-!
# How often a defect is reported

The loader never fails without a defect, each defect that it reports, cycles apart, stands in the document, and
none is reported more often than it occurs there, however often its machine is referred to
(`load_error_reports`).

A machine is visited once at most. A defect that is noted at a machine is noted during that visit: before and
after it nothing is noted there, nor while another machine is being built in it (`Walk.count_eq`), and during it
what its tasks note (`Walk.count_le_share`) and what is found once they are done (`Walk.count_le`).
-/

set_option autoImplicit false

namespace ModeTree

namespace Defect

/-- The machine at the end of a cycle, which is met a second time there. -/
def closing? : Defect → Option String
  | cyclicSubMachines cycle => cycle.getLast?
  | _ => none

end Defect

namespace Resolution

variable {machines : NameTable MachineEntry} {maxDepth : Nat} {trail : List String}

/-! ## Depth -/

/-- Chains of references between defined machines, from the given one on, have so many members at most, and one
has as many. -/
structure NestingDepth (machines : NameTable MachineEntry) (name : String) (depth : Nat) : Prop where
  reached : ∃ chain, (name :: chain).IsChain (Refers machines) ∧
    (∀ n ∈ name :: chain, machines.contains n = true) ∧ (name :: chain).length = depth
  greatest : ∀ chain, (name :: chain).IsChain (Refers machines) →
    (∀ n ∈ name :: chain, machines.contains n = true) → (name :: chain).length ≤ depth

section Depth

variable {built : NameTable Machine} {e : MachineEntry} {drafts : List StateDraft} {name : String}

/-- All machines that a built one leads to are defined. -/
theorem Faithful.contains_of_isChain (hf : Faithful machines maxDepth built) {chain : List String} {m : Machine}
    (hm : built.get? name = some m) (hchain : (name :: chain).IsChain (Refers machines)) :
    ∀ n ∈ name :: chain, machines.contains n = true := by
  induction chain generalizing name m with
  | nil =>
      obtain ⟨e, he, -⟩ := hf name m hm
      simpa using (NameTable.contains_iff machines name).2 ⟨e, he⟩
  | cons next chain ih =>
      obtain ⟨hnext, hrest⟩ := List.isChain_cons_cons.1 hchain
      obtain ⟨sub, hsub, -⟩ := hf.subMachine hnext hm
      exact List.forall_mem_cons.2 ⟨hnext.contains, ih hsub hrest⟩

/-- The depth of a draft is that of its machine. -/
theorem nestingDepth_of_drafts (hf : Faithful machines maxDepth built) (hentry : machines.get? name = some e)
    (hdrafts : List.Forall₂ (DraftOf built) e.states.entries drafts) :
    NestingDepth machines name (MachineDraft.depth ⟨name, some e.start, drafts, maxDepth⟩) := by
  have hname : machines.contains name = true := (NameTable.contains_iff machines name).2 ⟨e, hentry⟩
  -- behind the first machine, a chain goes on with a machine of the draft
  have hbehind : ∀ next chain, (name :: next :: chain).IsChain (Refers machines) →
      ∃ m, built.get? next = some m ∧ (next :: chain).IsChain (Refers machines) ∧
        m.depth < MachineDraft.depth ⟨name, some e.start, drafts, maxDepth⟩ := by
    intro next chain hchain
    obtain ⟨⟨e', hentry', p, hp, hmem⟩, hrest⟩ := List.isChain_cons_cons.1 hchain
    obtain rfl : e = e' := by simpa [hentry] using hentry'
    obtain ⟨draft, hdraft, hof⟩ := exists_of_mem_left hdrafts hp
    obtain ⟨m, hm, hget⟩ := exists_of_mem_left hof.subMachines hmem
    exact ⟨m, hget, hrest, MachineDraft.depth_lt_of_mem hdraft hm⟩
  have hgreatest : ∀ chain, (name :: chain).IsChain (Refers machines) →
      (name :: chain).length ≤ MachineDraft.depth ⟨name, some e.start, drafts, maxDepth⟩ := by
    intro chain hchain
    cases chain with
    | nil => exact Nat.le_add_right 1 _
    | cons next chain =>
        obtain ⟨m, hm, hrest, hlt⟩ := hbehind next chain hchain
        have hle := hf.length_le_depth hrest hm
        rw [List.length_cons]
        omega
  refine ⟨?_, fun chain hchain _ => hgreatest chain hchain⟩
  obtain ⟨chain, hchain, hle⟩ := exists_chain_of_drafts maxDepth hentry hdrafts
    fun sub m hsub _ => hf.exists_chain hsub
  refine ⟨chain, hchain, ?_, Nat.le_antisymm (hgreatest chain hchain) hle⟩
  cases chain with
  | nil => simpa using hname
  | cons next chain =>
      obtain ⟨m, hm, hrest, -⟩ := hbehind next chain hchain
      exact List.forall_mem_cons.2 ⟨hname, hf.contains_of_isChain hm hrest⟩

end Depth

/-- A machine that is reported too deep has the depth reported. -/
theorem Walk.nestingDepth {ts : List Task} {r r' : Resolution} (h : Walk machines maxDepth trail ts r r')
    (htrail : Trailed machines trail ts) (hfaithful : Faithful machines maxDepth r.built)
    (hr : ∀ defect ∈ r.defects, ∀ name depth limit, defect = .tooDeep name depth limit →
      limit = maxDepth ∧ maxDepth < depth ∧ NestingDepth machines name depth) :
    ∀ defect ∈ r'.defects, ∀ name depth limit, defect = .tooDeep name depth limit →
      limit = maxDepth ∧ maxDepth < depth ∧ NestingDepth machines name depth := by
  refine Walk.forall_mem_defects ?_ ?_ ?_ h htrail hfaithful hr
  · rintro _ hnot name depth limit rfl
    exact absurd trivial hnot
  · rintro trail ts name - - - _ depth limit heq
    cases heq
  · rintro built name e found findings hf hentry hfound _ hdefect _ depth limit rfl
    cases hfound with
    | undrafted => exact absurd hdefect List.not_mem_nil
    | built => exact absurd hdefect List.not_mem_nil
    | defective hdrafts =>
        rcases (mem_defects_of_drafts name machines maxDepth hdrafts _).1 hdefect with
          ⟨hhas, -⟩ | ⟨depth', hlt, heq, hdepth⟩
        · cases hhas
        · obtain ⟨rfl, rfl, rfl⟩ : _ = name ∧ depth = depth' ∧ limit = maxDepth := by simpa using heq
          exact ⟨rfl, hlt, hdepth ▸ nestingDepth_of_drafts hf hentry hdrafts⟩

/-! ## Counting -/

/-- What a task notes by itself. -/
def Task.notes : Task → List Defect
  | look _ => []
  | note defects => defects

/-- The machine that a task looks up. -/
def Task.names : Task → List String
  | look name => [name]
  | note _ => []

/-- How often tasks may note a defect: as often as it stands among them, and a cycle as often as the machine that
closes it is looked up. -/
def share (defect : Defect) (ts : List Task) : Nat :=
  (ts.flatMap Task.notes).count defect + (ts.flatMap Task.names).countP fun name => defect.closing? == some name

theorem share_note (defect : Defect) (defects : List Defect) (ts : List Task) :
    share defect (.note defects :: ts) = defects.count defect + share defect ts := by
  simp [share, Task.notes, Task.names, Nat.add_assoc]

theorem share_look (defect : Defect) (name : String) (ts : List Task) :
    share defect (.look name :: ts) = (if defect.closing? == some name then 1 else 0) + share defect ts := by
  simp only [share, List.flatMap_cons, Task.notes, Task.names, List.nil_append, List.singleton_append,
    List.countP_cons]
  omega

section Counts

variable {defect : Defect} {place : String}

/-- A note is of the machine that is being built last. -/
theorem Trailed.count_note {defects : List Defect} {ts : List Task}
    (h : Trailed machines trail (.note defects :: ts)) (hplace : defect.place? ≠ trail.getLast?) :
    defects.count defect = 0 :=
  List.count_eq_zero.2 fun hmem => hplace (h.notes defects List.mem_cons_self defect hmem).1

theorem place?_cycleDefect {name : String} (hmem : name ∈ trail) :
    (cycleDefect trail name).place? = trail.getLast? := by
  obtain ⟨before, after, rfl, hdrop⟩ := exists_dropWhile_eq hmem
  rw [cycleDefect, hdrop, Defect.place?, List.dropLast_concat, List.getLast?_append_cons]

theorem count_cycleDefect {name : String} (hmem : name ∈ trail) (hplace : defect.place? ≠ trail.getLast?) :
    [cycleDefect trail name].count defect = 0 := by
  refine List.count_eq_zero.2 fun hdefect => hplace ?_
  rw [List.mem_singleton.1 hdefect, place?_cycleDefect hmem]

theorem closing?_cycleDefect (trail : List String) (name : String) :
    (cycleDefect trail name).closing? = some name := by
  simp [cycleDefect, Defect.closing?]

theorem count_report (r : Resolution) (defects : List Defect) (defect : Defect) :
    (r.report defects).defects.count defect = r.defects.count defect + defects.count defect :=
  List.count_append

theorem count_settle (r : Resolution) (findings : List Defect) (name : String) (found : Option Machine)
    (defect : Defect) : ((r.report findings).settle name found).defects.count defect =
      r.defects.count defect + findings.count defect := by
  rw [defects_settle, count_report]

/-- What is found at a machine that comes out is noted at that machine and at no other. -/
theorem Outcome.count_settle_of_ne {r : Resolution} {name : String} {e : MachineEntry} {found : Option Machine}
    {findings : List Defect} (h : Outcome maxDepth r.built name e found findings)
    (hplace : defect.place? = some place) (hne : place ≠ name) :
    ((r.report findings).settle name found).defects.count defect = r.defects.count defect := by
  have hnothing : findings.count defect = 0 := by
    refine List.count_eq_zero.2 fun hdefect => hne ?_
    have hdraft := h.draft?_eq hdefect
    cases defect <;> simp_all [Defect.draft?, Defect.place?]
  rw [count_settle, hnothing, Nat.add_zero]

/-- Nothing is noted at a machine that has been settled, nor at one in which another one is being built. -/
theorem Walk.count_eq (hplace : defect.place? = some place) {ts : List Task} {r r' : Resolution}
    (h : Walk machines maxDepth trail ts r r') (htrail : Trailed machines trail ts)
    (hlast : trail.getLast? ≠ some place) (hclosed : r.Settled place ∨ place ∈ trail) :
    r'.defects.count defect = r.defects.count defect := by
  induction h with
  | done => rfl
  | note _ ih =>
      rw [ih htrail.tail hlast hclosed, count_report, htrail.count_note (hplace ▸ hlast.symm), Nat.add_zero]
  | settled _ _ ih => exact ih htrail.tail hlast hclosed
  | cycle _ hmem _ ih =>
      rw [ih htrail.tail hlast hclosed, count_report, count_cycleDefect hmem (hplace ▸ hlast.symm), Nat.add_zero]
  | @visit _ _ name _ _ _ _ _ _ hnew hmem hentry hinner hfound _ ihinner ih =>
      have hne : place ≠ name := fun heq => hclosed.elim (heq ▸ hnew) (heq ▸ hmem)
      have hinner' := ihinner (htrail.push hmem hentry) (by simpa using hne.symm)
        (hclosed.imp_right (List.mem_append_left _))
      rw [ih htrail.tail hlast ?_, hfound.count_settle_of_ne hplace hne, hinner']
      rw [settled_settle_iff]
      exact hclosed.imp_left fun hsettled => Or.inr (hinner.settled_mono hsettled)

/-- The machine that is being built last has noted at it what its tasks note. -/
theorem Walk.count_le_share (hplace : defect.place? = some place) {ts : List Task} {r r' : Resolution}
    (h : Walk machines maxDepth trail ts r r') (htrail : Trailed machines trail ts)
    (hlast : trail.getLast? = some place) :
    r'.defects.count defect ≤ r.defects.count defect + share defect ts := by
  induction h with
  | done => exact Nat.le_add_right _ _
  | note _ ih =>
      have hrest := ih htrail.tail hlast
      rw [count_report] at hrest
      rw [share_note]
      omega
  | settled _ _ ih =>
      have hrest := ih htrail.tail hlast
      rw [share_look]
      omega
  | @cycle trail _ name _ _ _ _ _ ih =>
      have hrest := ih htrail.tail hlast
      have hone : [cycleDefect trail name].count defect ≤ if defect.closing? == some name then 1 else 0 := by
        by_cases heq : cycleDefect trail name = defect
        · subst heq
          simp [closing?_cycleDefect]
        · simp [heq]
      rw [count_report] at hrest
      rw [share_look]
      omega
  | @visit _ _ name _ _ _ _ _ _ _ hmem hentry hinner hfound _ _ ih =>
      have hopen := List.mem_of_getLast? hlast
      have hne : place ≠ name := fun heq => hmem (heq ▸ hopen)
      have hrest := ih htrail.tail hlast
      have hinner' := hinner.count_eq hplace (htrail.push hmem hentry) (by simpa using hne.symm)
        (Or.inr (List.mem_append_left _ hopen))
      rw [hfound.count_settle_of_ne hplace hne, hinner'] at hrest
      rw [share_look]
      omega

/-- At any other machine no more is noted than what its tasks note and what is found once they are done. -/
theorem Walk.count_le (hplace : defect.place? = some place) {allowed : Nat}
    (hallowed : ∀ {built e found findings}, machines.get? place = some e →
      Outcome maxDepth built place e found findings →
        share defect (tasks machines place e) + findings.count defect ≤ allowed)
    {ts : List Task} {r r' : Resolution} (h : Walk machines maxDepth trail ts r r')
    (htrail : Trailed machines trail ts) (hopen : place ∉ trail) :
    r'.defects.count defect ≤ r.defects.count defect ∨
      r'.Settled place ∧ r'.defects.count defect ≤ r.defects.count defect + allowed := by
  have hlast : ∀ {trail : List String}, place ∉ trail → defect.place? ≠ trail.getLast? := by
    intro trail hopen heq
    exact hopen (List.mem_of_getLast? (heq.symm.trans hplace))
  induction h with
  | done => exact Or.inl (Nat.le_refl _)
  | note _ ih =>
      have hrest := ih htrail.tail hopen
      rwa [count_report, htrail.count_note (hlast hopen), Nat.add_zero] at hrest
  | settled _ _ ih => exact ih htrail.tail hopen
  | cycle _ hmem _ ih =>
      have hrest := ih htrail.tail hopen
      rwa [count_report, count_cycleDefect hmem (hlast hopen), Nat.add_zero] at hrest
  | @visit trail _ name e found findings r r₁ _ hnew hmem hentry hinner hfound hrest ihinner ih =>
      have htrail' := htrail.push hmem hentry
      have hstay : Settled ((r₁.report findings).settle name found) place → _ := fun hsettled =>
        hrest.count_eq hplace htrail.tail (hplace ▸ (hlast hopen).symm) (Or.inl hsettled)
      by_cases hne : place = name
      · -- this is the one visit of the machine
        subst hne
        have hsettled := (settled_settle_iff (r₁.report findings) place found place).2 (Or.inl rfl)
        have hinner' := hinner.count_le_share hplace htrail' (by simp)
        have hsum := hallowed hentry hfound
        refine Or.inr ⟨hrest.settled_mono hsettled, ?_⟩
        rw [hstay hsettled, count_settle]
        omega
      · have hsame := hfound.count_settle_of_ne hplace hne
        rcases ihinner htrail' (by simpa using ⟨hopen, hne⟩) with hle | ⟨hsettled, hle⟩
        · have hrest' := ih htrail.tail hopen
          rw [hsame] at hrest'
          exact hrest'.imp (fun h => by omega) fun h => ⟨h.1, by omega⟩
        · -- what has been noted inside is all that is noted
          have hsettled' := (settled_settle_iff (r₁.report findings) name found place).2 (Or.inr hsettled)
          refine Or.inr ⟨hrest.settled_mono hsettled', ?_⟩
          rw [hstay hsettled', hsame]
          exact hle

/-- All that is noted at a machine while the machines of a table are resolved. -/
theorem count_resolveAll_le (hplace : defect.place? = some place) {allowed : Nat}
    (hallowed : ∀ {built e found findings}, machines.get? place = some e →
      Outcome maxDepth built place e found findings →
        share defect (tasks machines place e) + findings.count defect ≤ allowed) :
    (resolveAll machines maxDepth machines.names .empty).defects.count defect ≤ allowed := by
  have hwalk := walk_names machines maxDepth
  have hnothing : (Resolution.empty).defects.count defect = 0 := rfl
  rcases hwalk.count_le hplace hallowed (trailed_nil _) List.not_mem_nil with hle | ⟨-, hle⟩
  · omega
  · omega

end Counts

/-! ## How often a defect occurs -/

theorem notes_tasks (machines : NameTable MachineEntry) (name : String) (e : MachineEntry) :
    (tasks machines name e).flatMap Task.notes = e.noted machines name := by
  rw [tasks, MachineEntry.noted, List.flatMap_assoc]
  refine List.flatMap_congr fun p _ => ?_
  rw [stateTasks, List.flatMap_append]
  congr 1
  · induction p.2.subMachines with
    | nil => rfl
    | cons sub subs ih => cases hknown : machines.contains sub <;> simp_all [Task.notes]
  · simp [Task.notes]

theorem names_tasks (machines : NameTable MachineEntry) (name : String) (e : MachineEntry) :
    (tasks machines name e).flatMap Task.names =
      (e.states.entries.flatMap fun p => p.2.subMachines).filter machines.contains := by
  rw [tasks, List.filter_flatMap, List.flatMap_assoc]
  refine List.flatMap_congr fun p _ => ?_
  rw [stateTasks, List.flatMap_append]
  induction p.2.subMachines with
  | nil => rfl
  | cons sub subs ih => cases hknown : machines.contains sub <;> simp_all [Task.names]

/-- How often states of the first machine name the second one. -/
def references (machines : NameTable MachineEntry) (a b : String) : Nat :=
  match machines.get? a with
  | none => 0
  | some e => (e.states.entries.flatMap fun p => p.2.subMachines).count b

section Occurrences

variable {built : NameTable Machine} {name : String} {e : MachineEntry} {found : Option Machine}
  {findings : List Defect}

theorem share_of_not_ofReferences {defect : Defect} (h : ¬ defect.OfReferences) :
    share defect (tasks machines name e) = (e.noted machines name).count defect := by
  have hclosing : defect.closing? = none := by cases defect <;> simp_all [Defect.closing?, Defect.OfReferences]
  rw [share, notes_tasks, hclosing]
  simp

/-- A machine has noted what is written in it, as often as it stands there. -/
theorem share_add_findings_le_written {defect : Defect} (hdefect : ¬ defect.OfReferences)
    (h : Outcome maxDepth built name e found findings) :
    share defect (tasks machines name e) + findings.count defect ≤
      (e.writtenDefects machines name).count defect := by
  rw [share_of_not_ofReferences hdefect, MachineEntry.writtenDefects, List.count_append]
  refine Nat.add_le_add_left ?_ _
  cases h with
  | undrafted => exact Nat.zero_le _
  | built => exact Nat.zero_le _
  | @defective drafts hdrafts =>
      have hdeep : ∀ depth, Defect.tooDeep name depth maxDepth ≠ defect := by
        rintro depth rfl
        exact hdefect trivial
      rw [defects_of_drafts hdrafts, List.count_append]
      split <;> simp [hdeep]

/-- No defect of the references as a whole is written at a machine. -/
theorem count_eq_zero_of_ofReferences (machines : NameTable MachineEntry) (name : String) (e : MachineEntry)
    {defect : Defect} (h : defect.OfReferences) :
    (e.noted machines name).count defect = 0 ∧ (e.found name).count defect = 0 := by
  have hwritten : (e.writtenDefects machines name).count defect = 0 := by
    refine List.count_eq_zero.2 fun hmem => ?_
    cases (e.mem_writtenDefects_iff machines name defect).1 hmem <;> exact h
  rwa [MachineEntry.writtenDefects, List.count_append, Nat.add_eq_zero_iff] at hwritten

/-- A machine is found too deep once. -/
theorem share_add_findings_le_one (depth limit : Nat) (h : Outcome maxDepth built name e found findings) :
    share (.tooDeep name depth limit) (tasks machines name e) + findings.count (.tooDeep name depth limit) ≤
      1 := by
  have hreferences : (Defect.tooDeep name depth limit).OfReferences := trivial
  obtain ⟨hnoted, hfound⟩ := count_eq_zero_of_ofReferences machines name e hreferences
  have hshare : share (.tooDeep name depth limit) (tasks machines name e) = 0 := by
    rw [share, notes_tasks, hnoted]
    simp [Defect.closing?]
  rw [hshare, Nat.zero_add]
  cases h with
  | undrafted => exact Nat.zero_le _
  | built => exact Nat.zero_le _
  | defective hdrafts =>
      rw [defects_of_drafts hdrafts, List.count_append, hfound, Nat.zero_add]
      refine Nat.le_trans List.count_le_length ?_
      split <;> simp

/-- A cycle is noted as often as its last machine is looked up. -/
theorem share_add_findings_le_references {cycle : List String} {last : String} (hlast : cycle.getLast? = some last)
    (hentry : machines.get? name = some e) (h : Outcome maxDepth built name e found findings) :
    share (.cyclicSubMachines cycle) (tasks machines name e) + findings.count (.cyclicSubMachines cycle) ≤
      references machines name last := by
  have hreferences : (Defect.cyclicSubMachines cycle).OfReferences := trivial
  obtain ⟨hnoted, -⟩ := count_eq_zero_of_ofReferences machines name e hreferences
  have hfindings : findings.count (.cyclicSubMachines cycle) = 0 :=
    List.count_eq_zero.2 fun hmem => by cases h.draft?_eq hmem
  rw [share, notes_tasks, names_tasks, hnoted, hfindings, references, hentry, Defect.closing?, hlast,
    List.countP_filter, Nat.zero_add, Nat.add_zero]
  refine List.countP_mono_left fun sub _ hsub => ?_
  simp_all

end Occurrences

end Resolution

namespace Document

open Resolution

/-- How often a defect occurs in a document. A cycle does as often as its last reference is made, and a machine is
too deep once. -/
def occurrences (d : Document) : Defect → Nat
  | .cyclicSubMachines cycle =>
    match cycle.dropLast.getLast?, cycle.getLast? with
    | some a, some b => references d.machines a b
    | _, _ => 0
  | .tooDeep _ _ _ => 1
  | defect => d.writtenDefects.count defect

/-- What the defects reported of a document say of it. -/
structure Reports (d : Document) (maxDepth : Nat) (defects : List Defect) : Prop where
  nonempty : defects ≠ []
  genuine : ∀ defect ∈ defects, d.Has defect ∨ (∃ cycle, defect = .cyclicSubMachines cycle) ∨
    ∃ name depth, defect = .tooDeep name depth maxDepth ∧ maxDepth < depth ∧
      NestingDepth d.machines name depth
  counted : ∀ defect, defects.count defect ≤ d.occurrences defect

theorem place?_of_has {machines : NameTable MachineEntry} {name : String} {e : MachineEntry} {defect : Defect}
    (h : e.Has machines name defect) : defect.place? = some name := by
  cases h <;> rfl

/-- What is written in a document is reported as often at most. -/
theorem count_resolution_le_written (d : Document) (maxDepth : Nat) {defect : Defect}
    (hdefect : ¬ defect.OfReferences) :
    (d.resolution maxDepth).defects.count defect ≤ d.writtenDefects.count defect := by
  rw [defects_resolution, writtenDefects, List.count_append, List.count_append]
  refine Nat.add_le_add_right ?_ _
  cases hplace : defect.place? with
  | none =>
      -- all that is noted before the root is noted at a machine
      have hsane : Sane d.machines maxDepth [] .empty := sane_empty
      obtain ⟨haudited, -⟩ := resolveAll_accounts
        (fun n hn => (NameTable.mem_names_iff d.machines n).1 hn) hsane audited_empty
      refine (List.count_eq_zero.2 fun hmem => ?_).trans_le (Nat.zero_le _)
      rcases haudited.genuine defect hmem with hreferences | ⟨name, e, -, hhas, -⟩
      · exact hdefect hreferences
      · rw [place?_of_has hhas] at hplace
        cases hplace
  | some place =>
      refine count_resolveAll_le hplace fun {built e found findings} hentry hfound => ?_
      refine Nat.le_trans (share_add_findings_le_written hdefect hfound) (List.Sublist.count_le _ ?_)
      have hmem : (place, e) ∈ d.machines.entries := (d.machines.mem_entries_iff place e).2 hentry
      exact List.sublist_flatten_of_mem (List.mem_map.2 ⟨(place, e), hmem, rfl⟩)

theorem count_resolution_le (d : Document) (maxDepth : Nat) (defect : Defect) :
    (d.resolution maxDepth).defects.count defect ≤ d.occurrences defect := by
  have hroot : defect.OfReferences → (d.resolution maxDepth).defects.count defect =
      (resolveAll d.machines maxDepth d.machines.names .empty).defects.count defect := by
    intro hreferences
    rw [defects_resolution, List.count_append]
    split
    · rfl
    · rw [List.count_cons_of_ne, List.count_nil, Nat.add_zero]
      rintro rfl
      exact hreferences
  cases defect with
  | tooDeep name depth limit =>
      rw [hroot trivial]
      have hplace : (Defect.tooDeep name depth limit).place? = some name := rfl
      exact count_resolveAll_le hplace fun _ hfound => share_add_findings_le_one depth limit hfound
  | cyclicSubMachines cycle =>
      by_cases hmem : .cyclicSubMachines cycle ∈ (d.resolution maxDepth).defects
      · -- the machine before the last one closes the cycle
        obtain ⟨first, between, rfl⟩ := (isCycle_of_mem_resolution d maxDepth cycle hmem).closed
        obtain ⟨before, hbefore⟩ : ∃ before, (first :: between).getLast? = some before :=
          ⟨_, List.getLast?_eq_some_getLast (List.cons_ne_nil first between)⟩
        have hlast : (first :: between ++ [first]).getLast? = some first := List.getLast?_concat
        have hplace : (Defect.cyclicSubMachines (first :: between ++ [first])).place? = some before := by
          rw [Defect.place?, List.dropLast_concat, hbefore]
        rw [hroot trivial, occurrences, List.dropLast_concat, hbefore, hlast]
        exact count_resolveAll_le hplace fun hentry hfound =>
          share_add_findings_le_references hlast hentry hfound
      · rw [List.count_eq_zero.2 hmem]
        exact Nat.zero_le _
  | _ => exact count_resolution_le_written d maxDepth id

/-- A document that does not load has defects reported. Each of them, cycles apart, stands in the document at the
place named, and none is reported more often than it occurs there. -/
theorem load_error_reports {d : Document} {config : Config} {defects : List Defect}
    (h : d.load config.maxDepth = .error defects) : d.Reports config.maxDepth defects := by
  have hdefects := defects_of_load h
  refine ⟨?_, ?_, ?_⟩
  · -- a document without defects loads
    rintro rfl
    obtain ⟨set, hset⟩ := (load_isOk_iff_valid d config).2 ((defects_resolution_eq_nil_iff d _).1 hdefects)
    rw [hset] at h
    cases h
  · intro defect hmem
    rw [← hdefects] at hmem
    rcases (mem_defects_resolution d config.maxDepth).2 defect hmem with hhas | hreferences
    · exact Or.inl hhas
    · cases defect with
      | cyclicSubMachines cycle => exact Or.inr (Or.inl ⟨cycle, rfl⟩)
      | tooDeep name depth limit =>
          rw [defects_resolution] at hmem
          have hmem' : .tooDeep name depth limit ∈
              (resolveAll d.machines config.maxDepth d.machines.names .empty).defects := by
            split at hmem <;> simpa using hmem
          obtain ⟨rfl, hlt, hdepth⟩ := (walk_names d.machines config.maxDepth).nestingDepth (trailed_nil _)
            faithful_empty nofun _ hmem' name depth limit rfl
          exact Or.inr (Or.inr ⟨name, depth, rfl, hlt, hdepth⟩)
      | _ => exact absurd hreferences id
  · rw [← hdefects]
    exact count_resolution_le d config.maxDepth

/-- A state with an arrow to an unknown state. -/
def danglingState : StateEntry where
  transitions := [{ target := some "ghost", on := ["x:down"] }]

/-- A machine with this state, which three references lead to. -/
def shared : Document where
  root := "a"
  machines := .ofList [("a", { start := "s", states := .ofList [("s", { subMachines := ["c", "c"] })] }),
    ("b", { start := "s", states := .ofList [("s", { subMachines := ["c"] })] }),
    ("c", { start := "s", states := .ofList [("s", danglingState)] })]

/-- Its defect is reported once. -/
theorem load_error_reports_shared :
    shared.load ({} : Config).maxDepth = .error [.danglingTarget "c" "s" "ghost"] ∧
      shared.Reports ({} : Config).maxDepth [.danglingTarget "c" "s" "ghost"] :=
  have hload : shared.load ({} : Config).maxDepth = .error [.danglingTarget "c" "s" "ghost"] := rfl
  ⟨hload, load_error_reports hload⟩

end Document

end ModeTree
