import ModeTree.Proofs.Document.Search

/-!
# Cycles of references

The resolver reports a cycle exactly when a machine refers to itself on some way (`load_reports_cycles`), whatever
else is wrong with the document. Each cycle that it reports is one of the references (`IsCycle`). Not all of them
are reported, but at least one of each component: when a machine that lies on a cycle is settled, the machine next
on that cycle is either settled as well, or still being built, and then the way back to it has been reported
(`Trailed.covered`).
-/

set_option autoImplicit false

namespace ModeTree

namespace Resolution

variable {machines : NameTable MachineEntry} {maxDepth : Nat} {trail : List String}

/-- A list of machines each of which refers to the next, that ends where it begins and meets no other machine
twice. -/
structure IsCycle (machines : NameTable MachineEntry) (cycle : List String) : Prop where
  closed : ∃ first between, cycle = first :: between ++ [first]
  distinct : cycle.dropLast.Nodup
  defined : ∀ name ∈ cycle.dropLast, machines.contains name = true
  refers : cycle.IsChain (Refers machines)

/-- Each of two machines refers to the other on some way. -/
def Entangled (machines : NameTable MachineEntry) (a b : String) : Prop :=
  Relation.TransGen (Refers machines) a b ∧ Relation.TransGen (Refers machines) b a

theorem Entangled.trans {a b c : String} (hab : Entangled machines a b) (hbc : Entangled machines b c) :
    Entangled machines a c := ⟨hab.1.trans hbc.1, hbc.2.trans hab.2⟩

theorem Entangled.symm {a b : String} (h : Entangled machines a b) : Entangled machines b a := ⟨h.2, h.1⟩

/-- The machines of a cycle are entangled with each other. -/
theorem IsCycle.entangled {cycle : List String} (h : IsCycle machines cycle) {a b : String} (ha : a ∈ cycle)
    (hb : b ∈ cycle) : Entangled machines a b := by
  obtain ⟨first, between, rfl⟩ := h.closed
  have hways : (first :: between ++ [first]).Pairwise (Relation.TransGen (Refers machines)) :=
    (h.refers.imp fun _ _ => Relation.TransGen.single).pairwise
  obtain ⟨hfrom, -, hto⟩ := List.pairwise_append.1 hways
  have hloop := hto first List.mem_cons_self first List.mem_cons_self
  have hall : ∀ c ∈ first :: between ++ [first], Entangled machines first c := by
    intro c hc
    rcases List.mem_append.1 hc with hc | hc
    · rcases List.mem_cons.1 hc with rfl | hc
      · exact ⟨hloop, hloop⟩
      · exact ⟨List.rel_of_pairwise_cons hfrom hc, hto c (List.mem_cons_of_mem _ hc) first List.mem_cons_self⟩
    · obtain rfl := List.mem_singleton.1 hc
      exact ⟨hloop, hloop⟩
  exact (hall a ha).symm.trans (hall b hb)

/-- From where a name stands in a trail. -/
theorem exists_dropWhile_eq {name : String} (h : name ∈ trail) :
    ∃ before after, trail = before ++ name :: after ∧ trail.dropWhile (· != name) = name :: after := by
  induction trail with
  | nil => exact absurd h List.not_mem_nil
  | cons n trail ih =>
      by_cases heq : n = name
      · subst heq
        exact ⟨[], trail, rfl, by simp⟩
      · obtain ⟨before, after, rfl, hdrop⟩ := ih ((List.mem_cons.1 h).resolve_left (Ne.symm heq))
        refine ⟨n :: before, after, rfl, ?_⟩
        rw [List.dropWhile_cons_of_pos (by simpa using heq), hdrop]

/-- A machine that is met again while it is being built closes a cycle. -/
theorem Trailed.isCycle {ts : List Task} (h : Trailed machines trail ts) {name : String}
    (hlook : .look name ∈ ts) (hmem : name ∈ trail) :
    IsCycle machines (trail.dropWhile (· != name) ++ [name]) := by
  obtain ⟨before, after, rfl, hdrop⟩ := exists_dropWhile_eq hmem
  rw [hdrop]
  have hsuffix : (name :: after).Sublist (before ++ name :: after) := List.sublist_append_right _ _
  refine ⟨⟨name, after, rfl⟩, ?_, ?_, ?_⟩
  · rw [List.dropLast_concat]
    exact hsuffix.nodup h.nodup
  · rw [List.dropLast_concat]
    exact fun other hother => h.defined other (hsuffix.subset hother)
  · have hchain : (name :: after).IsChain (Refers machines) := h.chain.right_of_append
    refine List.isChain_append.2 ⟨hchain, List.IsChain.singleton name, fun last hlast first hfirst => ?_⟩
    obtain rfl : name = first := by simpa using hfirst
    apply h.looks last ?_ name hlook
    simpa using hlast

/-! ## What is reported -/

/-- All cycles reported are cycles. -/
theorem Walk.isCycle {ts : List Task} {r r' : Resolution} (h : Walk machines maxDepth trail ts r r')
    (htrail : Trailed machines trail ts) (hfaithful : Faithful machines maxDepth r.built)
    (hr : ∀ defect ∈ r.defects, ∀ cycle, defect = .cyclicSubMachines cycle → IsCycle machines cycle) :
    ∀ defect ∈ r'.defects, ∀ cycle, defect = .cyclicSubMachines cycle → IsCycle machines cycle := by
  refine Walk.forall_mem_defects ?_ ?_ ?_ h htrail hfaithful hr
  · rintro _ hnot cycle rfl
    exact absurd trivial hnot
  · rintro trail ts name htrail hlook hmem cycle heq
    obtain rfl : trail.dropWhile (· != name) ++ [name] = cycle := by simpa [cycleDefect] using heq
    exact htrail.isCycle hlook hmem
  · rintro built name e found findings - - hfound _ hdefect cycle rfl
    cases hfound.draft?_eq hdefect

/-- A cycle through machines that are entangled with the given one has been reported. -/
def Covered (machines : NameTable MachineEntry) (r : Resolution) (name : String) : Prop :=
  ∃ cycle, .cyclicSubMachines cycle ∈ r.defects ∧ ∀ other ∈ cycle, Entangled machines name other

/-- Every settled machine that refers to itself on some way is covered. -/
def SettledCovered (machines : NameTable MachineEntry) (r : Resolution) : Prop :=
  ∀ name, r.Settled name → Relation.TransGen (Refers machines) name name → Covered machines r name

theorem Covered.mono {r r' : Resolution} (h : ∀ defect ∈ r.defects, defect ∈ r'.defects) {name : String}
    (hname : Covered machines r name) : Covered machines r' name := by
  obtain ⟨cycle, hcycle, hall⟩ := hname
  exact ⟨cycle, h _ hcycle, hall⟩

theorem SettledCovered.report {r : Resolution} (h : SettledCovered machines r) (defects : List Defect) :
    SettledCovered machines (r.report defects) :=
  fun name hname hcycle => (h name hname hcycle).mono fun _ => List.mem_append_left _

theorem Covered.of_entangled {r : Resolution} {a b : String} (hab : Entangled machines a b)
    (hb : Covered machines r b) : Covered machines r a := by
  obtain ⟨cycle, hcycle, hall⟩ := hb
  exact ⟨cycle, hcycle, fun other hother => hab.trans (hall other hother)⟩

/-- A machine on a cycle refers to one that it is entangled with, and that is looked up among its tasks. -/
theorem exists_look_of_cycle {name : String} (hcycle : Relation.TransGen (Refers machines) name name)
    {e : MachineEntry} (hentry : machines.get? name = some e) :
    ∃ sub, .look sub ∈ tasks machines name e ∧ Entangled machines name sub := by
  obtain ⟨sub, hsub, hback⟩ := Relation.TransGen.head'_iff.1 hcycle
  have hentangled : Entangled machines name sub := by
    refine ⟨.single hsub, ?_⟩
    rcases Relation.reflTransGen_iff_eq_or_transGen.1 hback with heq | hway
    · rw [heq] at hcycle ⊢
      exact hcycle
    · exact hway
  obtain ⟨next, hnext, -⟩ := Relation.TransGen.head'_iff.1 hentangled.2
  obtain ⟨e', hentry', p, hp, hmem⟩ := hsub
  obtain rfl : e = e' := by simpa [hentry] using hentry'
  have hlook : .look sub ∈ stateTasks machines name p :=
    List.mem_append_left _ (List.mem_map.2 ⟨sub, hmem, if_pos hnext.contains⟩)
  exact ⟨sub, List.mem_flatMap.2 ⟨p, hp, hlook⟩, hentangled⟩

/-- What becomes of a machine that is looked up: it is settled, or it is still being built, and the cycle that it
closes has been reported. -/
def Answered (trail : List String) (r : Resolution) (sub : String) : Prop :=
  r.Settled sub ∨ (sub ∈ trail ∧ cycleDefect trail sub ∈ r.defects)

theorem forall_look_iff {P : String → Prop} (name : String) (ts : List Task) :
    (∀ sub, .look sub ∈ Task.look name :: ts → P sub) ↔ P name ∧ ∀ sub, .look sub ∈ ts → P sub := by
  simp only [List.mem_cons, Task.look.injEq, forall_eq_or_imp]

/-- Once its tasks are done, a machine on a cycle is covered by the one next on it: that one has been settled, or is
being built, and then it closes a cycle. -/
theorem Trailed.covered {name : String} {e : MachineEntry} {r : Resolution}
    (htrail : Trailed machines (trail ++ [name]) (tasks machines name e)) (hentry : machines.get? name = some e)
    (hr : SettledCovered machines r)
    (hlooks : ∀ sub, .look sub ∈ tasks machines name e → Answered (trail ++ [name]) r sub)
    (hcycle : Relation.TransGen (Refers machines) name name) : Covered machines r name := by
  obtain ⟨sub, hlook, hentangled⟩ := exists_look_of_cycle hcycle hentry
  rcases hlooks sub hlook with hsettled | ⟨hopen, hreported⟩
  · exact (hr sub hsettled (hentangled.2.trans hentangled.1)).of_entangled hentangled
  · refine ⟨_, hreported, fun other hother => hentangled.trans ?_⟩
    exact (htrail.isCycle hlook hopen).entangled (List.mem_append_right _ List.mem_cons_self) hother

theorem SettledCovered.settle {r : Resolution} {name : String} (h : SettledCovered machines r)
    (hname : Relation.TransGen (Refers machines) name name → Covered machines r name) (findings : List Defect)
    (found : Option Machine) : SettledCovered machines ((r.report findings).settle name found) := by
  have hkept : ∀ defect ∈ r.defects, defect ∈ ((r.report findings).settle name found).defects := by
    intro defect hdefect
    rw [defects_settle]
    exact List.mem_append_left _ hdefect
  intro other hother hcycle
  rcases (settled_settle_iff _ _ _ _).1 hother with rfl | hother
  · exact (hname hcycle).mono hkept
  · exact (h other hother hcycle).mono hkept

/-- Whatever is looked up is answered, and the machines on cycles are covered when they are settled. -/
theorem Walk.covers {ts : List Task} {r r' : Resolution} (h : Walk machines maxDepth trail ts r r')
    (htrail : Trailed machines trail ts) (hr : SettledCovered machines r) :
    SettledCovered machines r' ∧ ∀ sub, .look sub ∈ ts → Answered trail r' sub := by
  induction h with
  | done => exact ⟨hr, fun sub hsub => absurd hsub List.not_mem_nil⟩
  | note _ ih =>
      obtain ⟨hcovered, hlooks⟩ := ih htrail.tail (hr.report _)
      exact ⟨hcovered, fun sub hsub => hlooks sub (by simpa using hsub)⟩
  | settled hsettled hrest ih =>
      obtain ⟨hcovered, hlooks⟩ := ih htrail.tail hr
      exact ⟨hcovered, (forall_look_iff _ _).2 ⟨Or.inl (hrest.settled_mono hsettled), hlooks⟩⟩
  | cycle _ hmem hrest ih =>
      obtain ⟨hcovered, hlooks⟩ := ih htrail.tail (hr.report _)
      have hreported := hrest.defects_mono (List.mem_append_right _ List.mem_cons_self)
      exact ⟨hcovered, (forall_look_iff _ _).2 ⟨Or.inr ⟨hmem, hreported⟩, hlooks⟩⟩
  | @visit _ _ name _ found findings _ _ _ _ hmem hentry _ _ hrest ihinner ih =>
      have htrail' := htrail.push hmem hentry
      obtain ⟨hcovered₁, hlooks₁⟩ := ihinner htrail' hr
      have hvisited := hcovered₁.settle (htrail'.covered hentry hcovered₁ hlooks₁) findings found
      obtain ⟨hcovered, hlooks⟩ := ih htrail.tail hvisited
      have hsettled := hrest.settled_mono ((settled_settle_iff _ name found name).2 (Or.inl rfl))
      exact ⟨hcovered, (forall_look_iff _ _).2 ⟨Or.inl hsettled, hlooks⟩⟩

theorem not_settled_empty (name : String) : ¬ Settled .empty name := by
  simp [Settled, empty]

end Resolution

namespace Document

open Resolution

theorem cyclic_mem_resolution_iff (d : Document) (maxDepth : Nat) (cycle : List String) :
    .cyclicSubMachines cycle ∈ (d.resolution maxDepth).defects ↔
      .cyclicSubMachines cycle ∈ (resolveAll d.machines maxDepth d.machines.names .empty).defects := by
  rw [defects_resolution]
  split <;> simp

/-- Each cycle that is noted is one. -/
theorem isCycle_of_mem_resolution (d : Document) (maxDepth : Nat) (cycle : List String)
    (h : .cyclicSubMachines cycle ∈ (d.resolution maxDepth).defects) : IsCycle d.machines cycle :=
  (walk_names d.machines maxDepth).isCycle (trailed_nil _) faithful_empty nofun _
    ((cyclic_mem_resolution_iff d maxDepth cycle).1 h) cycle rfl

/-- Each machine that refers to itself on some way is entangled with the machines of a cycle that is noted. -/
theorem exists_cycle_mem_resolution (d : Document) (maxDepth : Nat) {name : String}
    (h : Relation.TransGen (Refers d.machines) name name) :
    ∃ cycle, .cyclicSubMachines cycle ∈ (d.resolution maxDepth).defects ∧
      ∀ other ∈ cycle, Entangled d.machines name other := by
  have hempty : SettledCovered d.machines .empty := fun n hn => absurd hn (not_settled_empty n)
  obtain ⟨hcovered, hlooks⟩ := (walk_names d.machines maxDepth).covers (trailed_nil _) hempty
  obtain ⟨next, hnext, -⟩ := Relation.TransGen.head'_iff.1 h
  have hname : name ∈ d.machines.names := (NameTable.mem_names_iff _ _).2 hnext.contains
  -- nothing is being built in the end, so all machines are settled
  have hsettled := (hlooks name (List.mem_map.2 ⟨name, hname, rfl⟩)).resolve_right fun hopen =>
    List.not_mem_nil hopen.1
  obtain ⟨cycle, hcycle, hall⟩ := hcovered name hsettled h
  exact ⟨cycle, (cyclic_mem_resolution_iff d maxDepth cycle).2 hcycle, hall⟩

/-- Looking the machines up one after another ends, since whatever stands below one level for each machine and one
more is never asked. The loader reports a cycle exactly of the documents with a cycle of references. Each cycle that
it reports is one of the references between the machines of the document, and each machine on a cycle refers, on
some way, to all machines of a reported one, and they to it. -/
theorem load_reports_cycles (d : Document) (config : Config) :
    (∀ below : List String → Lookup,
      d.machines.names.foldl (fun r name =>
          ((visit d.machines config.maxDepth)^[d.machines.size + 1] below [] name r).2) .empty =
        resolveAll d.machines config.maxDepth d.machines.names .empty) ∧
    match d.load config.maxDepth with
    | .ok _ => ∀ name, ¬ Relation.TransGen (Refers d.machines) name name
    | .error defects =>
      ((∃ cycle, .cyclicSubMachines cycle ∈ defects) ↔
          ∃ name, Relation.TransGen (Refers d.machines) name name) ∧
        (∀ cycle, .cyclicSubMachines cycle ∈ defects → IsCycle d.machines cycle) ∧
        ∀ name, Relation.TransGen (Refers d.machines) name name →
          ∃ cycle, .cyclicSubMachines cycle ∈ defects ∧
            ∀ other ∈ cycle, Entangled d.machines name other := by
  refine ⟨fun below => foldl_iterate_visit below (fun n => (NameTable.mem_names_iff d.machines n).1) _, ?_⟩
  cases hload : d.load config.maxDepth with
  | ok set =>
      exact ((load_isOk_iff_valid d config).1 ⟨set, hload⟩).resolvable.acyclic
  | error defects =>
      rw [← defects_of_load hload]
      refine ⟨⟨?_, ?_⟩, isCycle_of_mem_resolution d _, fun name => exists_cycle_mem_resolution d _⟩
      · rintro ⟨cycle, hcycle⟩
        have hgenuine := isCycle_of_mem_resolution d _ cycle hcycle
        obtain ⟨first, between, rfl⟩ := hgenuine.closed
        exact ⟨first, (hgenuine.entangled List.mem_cons_self List.mem_cons_self).1⟩
      · rintro ⟨name, hname⟩
        obtain ⟨cycle, hcycle, -⟩ := exists_cycle_mem_resolution d config.maxDepth hname
        exact ⟨cycle, hcycle⟩

end Document

end ModeTree
