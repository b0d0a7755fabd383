import ModeTree.Proofs.Document.Validity
import ModeTree.Proofs.Document.Written
import Mathlib.Data.List.Chain
import Mathlib.Logic.Function.Iterate

/-!
# The search of the resolver

Resolving is a depth-first search. For each machine that it visits it has a list of tasks, which stand in the
entry of the machine: other machines that are to be looked up, and defects that are to be noted (`tasks`). `Walk`
says, without levels, what the search does with such a list while the machines of a trail are being built, and
`walk_resolveAll` that the resolver does just that. What holds of the search is proved by induction on `Walk`.
The resolver itself counts levels, but with one for each machine and one more it never runs out of them
(`foldl_iterate_visit`).
-/

set_option autoImplicit false

namespace ModeTree

/-- The machine at which the defect is noted. A cycle is noted at the machine that closes it. -/
def Defect.place? : Defect → Option String
  | noStates machine => some machine
  | missingStart machine => some machine
  | unknownStart machine _ => some machine
  | duplicateState machine _ => some machine
  | danglingTarget machine _ _ => some machine
  | badStimulus machine _ _ _ => some machine
  | noStimuli machine _ _ => some machine
  | ambiguousTransition machine _ _ => some machine
  | unknownSubMachine machine _ _ => some machine
  | cyclicSubMachines cycle => cycle.dropLast.getLast?
  | tooDeep machine _ _ => some machine
  | unknownRoot _ => none

namespace Resolution

variable {machines : NameTable MachineEntry} {maxDepth : Nat} {trail : List String}

/-- The machine of the name has been built, or has failed. -/
def Settled (r : Resolution) (name : String) : Prop := (r.built.get? name).isSome ∨ name ∈ r.failed

/-- What is to be done for a machine: to look another one up, or to note defects. -/
inductive Task where
  | look (name : String)
  | note (defects : List Defect)

/-- The tasks of a state, in order. -/
def stateTasks (machines : NameTable MachineEntry) (machine : String) (p : String × StateEntry) : List Task :=
  p.2.subMachines.map (fun sub =>
    if machines.contains sub then .look sub else .note [.unknownSubMachine machine p.1 sub]) ++
    [.note (ambiguities machine p.1 0 p.2.transitions)]

/-- The tasks of a machine. -/
def tasks (machines : NameTable MachineEntry) (machine : String) (e : MachineEntry) : List Task :=
  e.states.entries.flatMap (stateTasks machines machine)

/-- How a machine may come out once its tasks are done: without drafts, or with drafts that have defects, or
built. -/
inductive Outcome (maxDepth : Nat) (built : NameTable Machine) (name : String) (e : MachineEntry) :
    Option Machine → List Defect → Prop where
  | undrafted : Outcome maxDepth built name e none []
  | defective {drafts : List StateDraft} (hdrafts : List.Forall₂ (DraftOf built) e.states.entries drafts) :
      Outcome maxDepth built name e none (MachineDraft.defects ⟨name, some e.start, drafts, maxDepth⟩)
  | built {m : Machine} (h : Builds maxDepth built name e m) : Outcome maxDepth built name e (some m) []

/-- What is found at a machine that comes out is found in its draft. -/
theorem Outcome.draft?_eq {built : NameTable Machine} {name : String} {e : MachineEntry}
    {found : Option Machine} {findings : List Defect} (h : Outcome maxDepth built name e found findings)
    {defect : Defect} (hdefect : defect ∈ findings) : defect.draft? = some name := by
  cases h with
  | undrafted => exact absurd hdefect List.not_mem_nil
  | built => exact absurd hdefect List.not_mem_nil
  | defective hdrafts =>
      rcases (mem_defects_of_drafts name .empty maxDepth hdrafts defect).1 hdefect with
        ⟨-, hdraft⟩ | ⟨depth, -, rfl, -⟩
      · exact hdraft
      · rfl

/-- The defect of a machine that is met again while it is being built: the end of the trail, from the machine
on, and the machine once more. -/
def cycleDefect (trail : List String) (name : String) : Defect :=
  .cyclicSubMachines (trail.dropWhile (· != name) ++ [name])

/-- What the search does with the tasks of the last machine of a trail, from one resolution to the next. -/
inductive Walk (machines : NameTable MachineEntry) (maxDepth : Nat) :
    List String → List Task → Resolution → Resolution → Prop where
  | done (trail : List String) (r : Resolution) : Walk machines maxDepth trail [] r r
  | note {trail : List String} {rest : List Task} {defects : List Defect} {r r' : Resolution}
      (hrest : Walk machines maxDepth trail rest (r.report defects) r') :
      Walk machines maxDepth trail (.note defects :: rest) r r'
  | settled {trail : List String} {rest : List Task} {name : String} {r r' : Resolution}
      (hsettled : r.Settled name) (hrest : Walk machines maxDepth trail rest r r') :
      Walk machines maxDepth trail (.look name :: rest) r r'
  | cycle {trail : List String} {rest : List Task} {name : String} {r r' : Resolution}
      (hnew : ¬ r.Settled name) (hmem : name ∈ trail)
      (hrest : Walk machines maxDepth trail rest (r.report [cycleDefect trail name]) r') :
      Walk machines maxDepth trail (.look name :: rest) r r'
  | visit {trail : List String} {rest : List Task} {name : String} {e : MachineEntry}
      {found : Option Machine} {findings : List Defect} {r r₁ r' : Resolution}
      (hnew : ¬ r.Settled name) (hmem : name ∉ trail) (hentry : machines.get? name = some e)
      (hinner : Walk machines maxDepth (trail ++ [name]) (tasks machines name e) r r₁)
      (hfound : Outcome maxDepth r₁.built name e found findings)
      (hrest : Walk machines maxDepth trail rest ((r₁.report findings).settle name found) r') :
      Walk machines maxDepth trail (.look name :: rest) r r'

theorem not_settled {r : Resolution} {name : String} (hnone : r.built.get? name = none)
    (hfailed : name ∉ r.failed) : ¬ r.Settled name := by
  rintro (hsome | hmem)
  · rw [hnone] at hsome
    cases hsome
  · exact hfailed hmem

theorem settled_settle_iff (r : Resolution) (name : String) (found : Option Machine) (other : String) :
    (r.settle name found).Settled other ↔ other = name ∨ r.Settled other := by
  cases found with
  | none =>
      rw [Settled, Settled, settle, List.mem_cons]
      tauto
  | some m =>
      rw [Settled, Settled, settle, NameTable.get?_insert]
      by_cases heq : name = other
      · simp [heq]
      · simp [heq, Ne.symm heq]

theorem defects_settle (r : Resolution) (name : String) (found : Option Machine) :
    (r.settle name found).defects = r.defects := by
  cases found <;> rfl

/-! ## What a walk keeps -/

theorem Walk.append {ts us : List Task} {r r₁ r' : Resolution} (h : Walk machines maxDepth trail ts r r₁)
    (h' : Walk machines maxDepth trail us r₁ r') : Walk machines maxDepth trail (ts ++ us) r r' := by
  induction h with
  | done => exact h'
  | note _ ih => exact .note (ih h')
  | settled hsettled _ ih => exact .settled hsettled (ih h')
  | cycle hnew hmem _ ih => exact .cycle hnew hmem (ih h')
  | visit hnew hmem hentry hinner hfound _ _ ih => exact .visit hnew hmem hentry hinner hfound (ih h')

/-- What has been settled stays so. -/
theorem Walk.settled_mono {ts : List Task} {r r' : Resolution} (h : Walk machines maxDepth trail ts r r')
    {name : String} (hname : r.Settled name) : r'.Settled name := by
  induction h with
  | done => exact hname
  | note _ ih => exact ih hname
  | settled _ _ ih => exact ih hname
  | cycle _ _ _ ih => exact ih hname
  | visit _ _ _ _ _ _ ihinner ih => exact ih ((settled_settle_iff _ _ _ _).2 (Or.inr (ihinner hname)))

/-- No defect is forgotten. -/
theorem Walk.defects_mono {ts : List Task} {r r' : Resolution} (h : Walk machines maxDepth trail ts r r')
    {defect : Defect} (hdefect : defect ∈ r.defects) : defect ∈ r'.defects := by
  induction h with
  | done => exact hdefect
  | note _ ih => exact ih (List.mem_append_left _ hdefect)
  | settled _ _ ih => exact ih hdefect
  | cycle _ _ _ ih => exact ih (List.mem_append_left _ hdefect)
  | visit _ _ _ _ _ _ ihinner ih =>
      apply ih
      rw [defects_settle]
      exact List.mem_append_left _ (ihinner hdefect)

/-- A machine that is being built is settled by none of its tasks. -/
theorem Walk.pending {ts : List Task} {r r' : Resolution} (h : Walk machines maxDepth trail ts r r')
    {name : String} (hname : name ∈ trail) (hr : ¬ r.Settled name) : ¬ r'.Settled name := by
  induction h with
  | done => exact hr
  | note _ ih => exact ih hname hr
  | settled _ _ ih => exact ih hname hr
  | cycle _ _ _ ih => exact ih hname hr
  | visit hnew hmem hentry hinner hfound hrest ihinner ih =>
      apply ih hname
      rw [settled_settle_iff]
      rintro (rfl | hsettled)
      · exact hmem hname
      · exact ihinner (List.mem_append_left _ hname) hr hsettled

theorem Outcome.faithful {r : Resolution} {name : String} {e : MachineEntry} {found : Option Machine}
    {findings : List Defect} (h : Outcome maxDepth r.built name e found findings)
    (hr : Faithful machines maxDepth r.built) (hentry : machines.get? name = some e) (hnew : ¬ r.Settled name) :
    Faithful machines maxDepth ((r.report findings).settle name found).built := by
  cases h with
  | undrafted => exact hr
  | defective => exact hr
  | built hbuilds =>
      have hnone : r.built.get? name = none := by
        cases hget : r.built.get? name with
        | none => rfl
        | some m => exact absurd (Or.inl (by rw [hget]; rfl)) hnew
      exact hr.insert hnone hentry hbuilds

/-- Every machine built comes from the entry of its name. -/
theorem Walk.faithful {ts : List Task} {r r' : Resolution} (h : Walk machines maxDepth trail ts r r')
    (hr : Faithful machines maxDepth r.built) : Faithful machines maxDepth r'.built := by
  induction h with
  | done => exact hr
  | note _ ih => exact ih hr
  | settled _ _ ih => exact ih hr
  | cycle _ _ _ ih => exact ih hr
  | visit hnew _ hentry hinner hfound _ ihinner ih =>
      exact ih (hfound.faithful (ihinner hr) hentry (hinner.pending (by simp) hnew))

/-! ## The trail -/

/-- The machines that are being built, each of which refers to the next, and tasks of the last one. -/
structure Trailed (machines : NameTable MachineEntry) (trail : List String) (ts : List Task) : Prop
    extends Trail machines trail where
  chain : trail.IsChain (Refers machines)
  looks : ∀ last ∈ trail.getLast?, ∀ sub, .look sub ∈ ts → Refers machines last sub
  notes : ∀ defects, .note defects ∈ ts → ∀ defect ∈ defects,
    defect.place? = trail.getLast? ∧ ¬ defect.OfReferences

theorem trailed_nil (names : List String) : Trailed machines [] (names.map .look) := by
  refine ⟨trail_nil, List.IsChain.nil, nofun, fun defects hdefects => ?_⟩
  obtain ⟨name, -, heq⟩ := List.mem_map.1 hdefects
  cases heq

theorem Trailed.tail {t : Task} {ts : List Task} (h : Trailed machines trail (t :: ts)) :
    Trailed machines trail ts :=
  { h with
    looks := fun last hlast sub hsub => h.looks last hlast sub (List.mem_cons_of_mem _ hsub)
    notes := fun defects hdefects => h.notes defects (List.mem_cons_of_mem _ hdefects) }

/-- A task of a machine looks up a machine that it refers to, or notes defects that stand in it. -/
theorem mem_tasks {name : String} {e : MachineEntry} (hentry : machines.get? name = some e) {t : Task}
    (h : t ∈ tasks machines name e) :
    (∃ sub, Refers machines name sub ∧ t = .look sub) ∨
      ∃ defects, t = .note defects ∧ ∀ defect ∈ defects,
        defect.place? = some name ∧ ¬ defect.OfReferences := by
  obtain ⟨p, hp, hmem⟩ := List.mem_flatMap.1 h
  rcases List.mem_append.1 hmem with hsub | hlast
  · obtain ⟨sub, hmem', rfl⟩ := List.mem_map.1 hsub
    by_cases hknown : machines.contains sub = true
    · exact Or.inl ⟨sub, ⟨e, hentry, p, hp, hmem'⟩, if_pos hknown⟩
    · refine Or.inr ⟨_, if_neg hknown, ?_⟩
      rw [List.forall_mem_singleton]
      exact ⟨rfl, id⟩
  · refine Or.inr ⟨_, List.mem_singleton.1 hlast, fun defect hdefect => ?_⟩
    obtain ⟨i, t, -, -, rfl⟩ := (mem_ambiguities_iff _ _ _ _ _).1 hdefect
    exact ⟨rfl, id⟩

/-- A machine that is visited is added to the trail, with its own tasks. -/
theorem Trailed.push {name : String} {ts : List Task} (h : Trailed machines trail (.look name :: ts))
    (hnew : name ∉ trail) {e : MachineEntry} (hentry : machines.get? name = some e) :
    Trailed machines (trail ++ [name]) (tasks machines name e) := by
  have hlast : (trail ++ [name]).getLast? = some name := List.getLast?_concat
  have hname : machines.contains name = true := (NameTable.contains_iff machines name).2 ⟨e, hentry⟩
  refine ⟨h.toTrail.push hnew hname, ?_, ?_, ?_⟩
  · refine List.isChain_append.2 ⟨h.chain, List.IsChain.singleton name, fun last hmem first hfirst => ?_⟩
    obtain rfl : name = first := by simpa using hfirst
    exact h.looks last hmem name List.mem_cons_self
  · rw [hlast]
    intro last hmem sub hsub
    obtain rfl : name = last := by simpa using hmem
    rcases mem_tasks hentry hsub with ⟨other, hrefers, heq⟩ | ⟨defects, heq, -⟩
    · obtain rfl : sub = other := by simpa using heq
      exact hrefers
    · cases heq
  · rw [hlast]
    intro defects hdefects
    rcases mem_tasks hentry hdefects with ⟨sub, -, heq⟩ | ⟨defects', heq, hall⟩
    · cases heq
    · obtain rfl : defects = defects' := by simpa using heq
      exact hall

/-- What holds of all defects that are noted holds of all defects in the end. -/
theorem Walk.forall_mem_defects {P : Defect → Prop} (hnoted : ∀ defect, ¬ defect.OfReferences → P defect)
    (hcycle : ∀ {trail ts name}, Trailed machines trail ts → .look name ∈ ts → name ∈ trail →
      P (cycleDefect trail name))
    (hfindings : ∀ {built name e found findings}, Faithful machines maxDepth built →
      machines.get? name = some e → Outcome maxDepth built name e found findings →
        ∀ defect ∈ findings, P defect)
    {ts : List Task} {r r' : Resolution} (h : Walk machines maxDepth trail ts r r')
    (htrail : Trailed machines trail ts) (hfaithful : Faithful machines maxDepth r.built)
    (hr : ∀ defect ∈ r.defects, P defect) : ∀ defect ∈ r'.defects, P defect := by
  induction h with
  | done => exact hr
  | note _ ih =>
      refine ih htrail.tail hfaithful (List.forall_mem_append.2 ⟨hr, fun defect hdefect => ?_⟩)
      exact hnoted defect (htrail.notes _ List.mem_cons_self defect hdefect).2
  | settled _ _ ih => exact ih htrail.tail hfaithful hr
  | cycle _ hmem _ ih =>
      refine ih htrail.tail hfaithful (List.forall_mem_append.2 ⟨hr, ?_⟩)
      rw [List.forall_mem_singleton]
      exact hcycle htrail List.mem_cons_self hmem
  | visit hnew hmem hentry hinner hfound _ ihinner ih =>
      have hbuilt := hinner.faithful hfaithful
      refine ih htrail.tail (hfound.faithful hbuilt hentry (hinner.pending (by simp) hnew)) ?_
      rw [defects_settle]
      exact List.forall_mem_append.2
        ⟨ihinner (htrail.push hmem hentry) hfaithful hr, hfindings hbuilt hentry hfound⟩

/-! ## Levels are enough -/

section Congruence

variable {lookup lookup' : Lookup} {known : String → Bool}

theorem subMachines_congr (h : ∀ name, known name = true → lookup name = lookup' name) (machine state : String)
    (names : List String) (r : Resolution) :
    subMachines lookup known machine state names r = subMachines lookup' known machine state names r := by
  induction names generalizing r with
  | nil => rfl
  | cons name names ih =>
      rw [subMachines, subMachines]
      by_cases hknown : known name = true
      · simp only [hknown, if_true, h name hknown, ih]
      · simp [hknown, ih]

theorem states_congr (h : ∀ name, known name = true → lookup name = lookup' name) (machine : String)
    (ps : List (String × StateEntry)) (r : Resolution) :
    states lookup known machine ps r = states lookup' known machine ps r := by
  induction ps generalizing r with
  | nil => rfl
  | cons p ps ih =>
      obtain ⟨id, entry⟩ := p
      simp only [states, state, subMachines_congr h, ih]

end Congruence

/-- One level of the search: what `resolve` does when the machines in a machine are looked up `below`. -/
def visit (machines : NameTable MachineEntry) (maxDepth : Nat) (below : List String → Lookup)
    (trail : List String) : Lookup := fun name r =>
  match r.built.get? name with
  | some m => (some m, r)
  | none =>
    if r.failed.contains name then (none, r)
    else if trail.contains name then (none, r.report [cycleDefect trail name])
    else
      match machines.get? name with
      | none => (none, r)
      | some entry =>
        let (found, r) := machine (below (trail ++ [name])) machines.contains maxDepth name entry r
        (found, r.settle name found)

theorem resolve_succ (machines : NameTable MachineEntry) (maxDepth levels : Nat) :
    resolve machines maxDepth (levels + 1) = visit machines maxDepth (resolve machines maxDepth levels) :=
  rfl

/-- A visit asks for machines below only behind a new name. -/
theorem visit_congr {below below' : List String → Lookup} {name : String}
    (h : name ∉ trail → ∀ sub, machines.contains sub = true →
      below (trail ++ [name]) sub = below' (trail ++ [name]) sub) :
    visit machines maxDepth below trail name = visit machines maxDepth below' trail name := by
  funext r
  by_cases hcycle : name ∈ trail
  · simp [visit, hcycle]
  · simp only [visit, machine, states_congr (h hcycle)]

/-- What stands below these levels is never asked. -/
theorem iterate_visit (below : List String → Lookup) (levels : Nat) :
    ∀ trail : List String, Room machines levels trail → ∀ name, machines.contains name = true →
      (visit machines maxDepth)^[levels] below trail name = resolve machines maxDepth levels trail name := by
  induction levels with
  | zero => exact fun trail hroom => absurd hroom not_room_zero
  | succ levels ih =>
      intro trail hroom name hname
      rw [Function.iterate_succ_apply', resolve_succ]
      exact visit_congr fun hnew => ih (trail ++ [name]) (hroom.push hnew hname)

/-- So it is for machines that are resolved one after another. -/
theorem foldl_iterate_visit (below : List String → Lookup) {names : List String}
    (hnames : ∀ n ∈ names, machines.contains n = true) (r : Resolution) :
    names.foldl (fun r name => ((visit machines maxDepth)^[machines.size + 1] below [] name r).2) r =
      resolveAll machines maxDepth names r := by
  induction names generalizing r with
  | nil => rfl
  | cons name names ih =>
      obtain ⟨hname, hrest⟩ := List.forall_mem_cons.1 hnames
      rw [List.foldl_cons, iterate_visit below _ [] room_nil name hname, ih hrest, resolveAll]

/-! ## The resolver walks -/

/-- A lookup that walks while the machines of `trail` are being built. -/
def Walking (machines : NameTable MachineEntry) (maxDepth : Nat) (trail : List String) (lookup : Lookup) :
    Prop :=
  ∀ name r, machines.contains name = true →
    (∀ n ∈ trail, Relation.TransGen (Refers machines) n name) → Sane machines maxDepth trail r →
      Walk machines maxDepth trail [.look name] r (lookup name r).2

section Parts

variable {lookup : Lookup} {name : String} {entry : MachineEntry}

theorem walk_subMachines (hlawful : Lawful machines maxDepth trail lookup)
    (hlookup : Walking machines maxDepth trail lookup)
    (hpath : ∀ n ∈ trail, Relation.ReflTransGen (Refers machines) n name) (state : String)
    {names : List String} (hnames : ∀ sub ∈ names, Refers machines name sub) {r : Resolution}
    (hr : Sane machines maxDepth trail r) :
    Walk machines maxDepth trail
      (names.map fun sub =>
        if machines.contains sub then .look sub else .note [.unknownSubMachine name state sub])
      r (subMachines lookup machines.contains name state names r).2 := by
  induction names generalizing r with
  | nil => exact .done trail r
  | cons sub names ih =>
      obtain ⟨hsub, hrest⟩ := List.forall_mem_cons.1 hnames
      rw [List.map_cons, subMachines]
      by_cases hknown : machines.contains sub = true
      · have hway : ∀ n ∈ trail, Relation.TransGen (Refers machines) n sub :=
          fun n hn => Relation.TransGen.tail' (hpath n hn) hsub
        simp only [hknown, if_true]
        exact (hlookup sub r hknown hway hr).append (ih hrest (hlawful sub r hknown hway hr).sane)
      · simp only [hknown]
        exact .note (ih hrest (hr.report fun _ h => hknown (h.contains hsub)))

theorem walk_state (hlawful : Lawful machines maxDepth trail lookup)
    (hlookup : Walking machines maxDepth trail lookup)
    (hpath : ∀ n ∈ trail, Relation.ReflTransGen (Refers machines) n name)
    (hentry : machines.get? name = some entry) {p : String × StateEntry}
    (hp : p ∈ entry.states.entries) {r : Resolution} (hr : Sane machines maxDepth trail r) :
    Walk machines maxDepth trail (stateTasks machines name p) r
      (state lookup machines.contains name p.1 p.2 r).2 :=
  (walk_subMachines hlawful hlookup hpath p.1 (fun _ hsub => ⟨entry, hentry, p, hp, hsub⟩) hr).append
    (.note (.done trail _))

theorem walk_states (hlawful : Lawful machines maxDepth trail lookup)
    (hlookup : Walking machines maxDepth trail lookup)
    (hpath : ∀ n ∈ trail, Relation.ReflTransGen (Refers machines) n name)
    (hentry : machines.get? name = some entry) {ps : List (String × StateEntry)}
    (hps : ∀ p ∈ ps, p ∈ entry.states.entries) {r : Resolution} (hr : Sane machines maxDepth trail r) :
    Walk machines maxDepth trail (ps.flatMap (stateTasks machines name)) r
      (states lookup machines.contains name ps r).2 := by
  induction ps generalizing r with
  | nil => exact .done trail r
  | cons p ps ih =>
      obtain ⟨hp, hrest⟩ := List.forall_mem_cons.1 hps
      have hsane := (step_state hlawful hpath hentry hp hr).sane
      exact (walk_state hlawful hlookup hpath hentry hp hr).append (ih hrest hsane)

/-- A machine is tried after its tasks are done, with one of the outcomes. -/
theorem walk_machine (hlawful : Lawful machines maxDepth trail lookup)
    (hlookup : Walking machines maxDepth trail lookup)
    (hpath : ∀ n ∈ trail, Relation.ReflTransGen (Refers machines) n name)
    (hentry : machines.get? name = some entry) {r : Resolution} (hr : Sane machines maxDepth trail r) :
    ∃ r₁ findings, Walk machines maxDepth trail (tasks machines name entry) r r₁ ∧
      Outcome maxDepth r₁.built name entry
        (machine lookup machines.contains maxDepth name entry r).1 findings ∧
      (machine lookup machines.contains maxDepth name entry r).2 = r₁.report findings := by
  have hstep := step_states hlawful hpath hentry (fun p hp => hp) hr
  have hwalk := walk_states hlawful hlookup hpath hentry (fun p hp => hp) hr
  rw [machine]
  generalize states lookup machines.contains name entry.states.entries r = out at hstep hwalk ⊢
  obtain ⟨drafts, r₁⟩ := out
  have hnothing : r₁.report [] = r₁ := by rw [report, List.append_nil]
  refine ⟨r₁, ?_⟩
  cases drafts with
  | none => exact ⟨[], hwalk, .undrafted, hnothing.symm⟩
  | some drafts =>
      have hdrafts := hstep.result drafts rfl
      dsimp only
      cases hbuild : MachineDraft.build ⟨name, some entry.start, drafts, maxDepth⟩ with
      | ok m => exact ⟨[], hwalk, .built ⟨drafts, hdrafts, hbuild⟩, hnothing.symm⟩
      | error defects =>
          obtain ⟨rfl, -⟩ := (MachineDraft.build_eq_error_iff _ _).1 hbuild
          exact ⟨_, hwalk, .defective hdrafts, rfl⟩

end Parts

/-- With enough levels the resolver walks. -/
theorem walking_resolve (levels : Nat) :
    ∀ trail : List String, Room machines levels trail →
      Walking machines maxDepth trail (resolve machines maxDepth levels trail) := by
  induction levels with
  | zero => exact fun trail hroom => absurd hroom not_room_zero
  | succ levels ih =>
      intro trail hroom name r hname hpath hr
      have hlookup := lookedUp_resolve maxDepth levels trail hname r
      generalize resolve machines maxDepth (levels + 1) trail name r = answer at hlookup ⊢
      cases hlookup with
      | built hbuilt =>
          have hsome : (r.built.get? name).isSome := by rw [hbuilt]; rfl
          exact .settled (Or.inl hsome) (.done trail r)
      | failed hfailed => exact .settled (Or.inr hfailed) (.done trail r)
      | cycle hnone hfailed hmem => exact .cycle (not_settled hnone hfailed) hmem (.done trail _)
      | tried hnone hfailed hnew hentry hout =>
          have hroom' := hroom.push hnew hname
          obtain ⟨r₁, findings, hwalk, hfound, heq⟩ := walk_machine (lawful_resolve levels _ hroom')
            (ih _ hroom') (reflTransGen_push hpath) hentry (hr.push hnone)
          rw [hout] at hfound heq
          rw [heq]
          exact .visit (not_settled hnone hfailed) hnew hentry hwalk hfound (.done trail _)

/-- Machines are resolved by looking them up one after another. -/
theorem walk_resolveAll {names : List String} (hnames : ∀ n ∈ names, machines.contains n = true)
    {r : Resolution} (hr : Sane machines maxDepth [] r) :
    Walk machines maxDepth [] (names.map .look) r (resolveAll machines maxDepth names r) := by
  induction names generalizing r with
  | nil => exact .done [] r
  | cons name names ih =>
      obtain ⟨hname, hrest⟩ := List.forall_mem_cons.1 hnames
      have hsane := (lawful_resolve _ [] room_nil name r hname nofun hr).sane
      rw [resolveAll]
      exact (walking_resolve _ [] room_nil name r hname nofun hr).append (ih hrest hsane)

/-- The walk over all machines of a table. -/
theorem walk_names (machines : NameTable MachineEntry) (maxDepth : Nat) :
    Walk machines maxDepth [] (machines.names.map .look) .empty
      (resolveAll machines maxDepth machines.names .empty) :=
  walk_resolveAll (fun n hn => (NameTable.mem_names_iff machines n).1 hn) sane_empty

end Resolution

end ModeTree
