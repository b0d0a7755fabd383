import ModeTree.Proofs.Machine.Activity
import ModeTree.Proofs.Session.Blocks
import ModeTree.Proofs.Session.Escape

/-!
# Activities in sessions

Whether an activity goes on after a run is decided by the last block of the trace that starts it or stops it
(`last?_flatMap`). In a session of a tidy machine an activity that goes on is watched: some machine is in a
state that stops it on exit, unless it was a loose state whose entry started it last (`watched_trace`). So
when a hatch has been entered, nothing goes on but what a loose state has left behind (`stopped_press_iff`).
-/

set_option autoImplicit false

namespace ModeTree

universe u

namespace Activity

variable (a : Activity) (loose : List String)

/-- The last block with an action that starts the activity or stops it. -/
def lastBlock? (bs : List Block) : Option Block := (bs.filter fun b => (a.last? b.actions).isSome).getLast?

/-- A block of a tidy state. -/
def TidyBlock : Block → Prop
  | .entered stay => stay.state.Tidy a loose
  | .left stay => stay.state.Tidy a loose
  | .fired stay names => a.Stopped names ∨ a.last? stay.state.exit = some a.stop
  | .passed _ names => a.Stopped names

/-- Some machine is in a state that stops the activity on exit. -/
def Guarded (o : Occupancy) : Prop :=
  ∃ stay : Stay, o stay.path = some stay ∧ a.last? stay.state.exit = some a.stop

/-- After some blocks the activity does not go on, or some machine is in a state that stops it on exit, or it
was started last on entry to a loose state. -/
def Watched (o : Occupancy) (bs : List Block) : Prop :=
  ∀ b, a.lastBlock? bs = some b →
    a.Stopped b.actions ∨ a.Guarded o ∨ ∃ stay, b = .entered stay ∧ stay.state.id ∈ loose

variable {a loose}

/-! ## The last block -/

theorem lastBlock?_append_singleton (bs : List Block) (b : Block) :
    a.lastBlock? (bs ++ [b]) = if (a.last? b.actions).isSome then some b else a.lastBlock? bs := by
  rw [lastBlock?, List.filter_append, List.getLast?_append, List.filter_singleton]
  cases (a.last? b.actions).isSome <;> rfl

/-- The last block that has an action of the activity has the last such action. -/
theorem last?_flatMap (bs : List Block) :
    a.last? (bs.flatMap Block.actions) = (a.lastBlock? bs).bind fun b => a.last? b.actions := by
  induction bs using List.reverseRecOn with
  | nil => rfl
  | append_singleton bs b ih =>
      rw [List.flatMap_append, last?_append, lastBlock?_append_singleton, ih, List.flatMap_singleton]
      cases h : a.last? b.actions with
      | none => simp
      | some name => simp [h]

theorem mem_of_lastBlock? {bs : List Block} {b : Block} (h : a.lastBlock? bs = some b) : b ∈ bs :=
  (List.mem_filter.1 (List.mem_of_getLast? h)).1

/-- Actions after a trace are stopped exactly when the last block that matters stops them. -/
theorem stopped_flatMap_iff (bs : List Block) :
    a.Stopped (bs.flatMap Block.actions) ↔ ∀ b, a.lastBlock? bs = some b → a.Stopped b.actions := by
  rw [Stopped, last?_flatMap]
  cases h : a.lastBlock? bs with
  | none => simp
  | some b =>
      simp only [Option.bind_some, Option.some.injEq, forall_eq']
      rfl

/-! ## One block -/

/-- A block keeps the activity guarded unless it stops it. -/
theorem Guarded.step {o : Occupancy} (h : a.Guarded o) {b : Block} (hallowed : o.Allows b)
    (hnone : a.last? b.actions = none) : a.Guarded (o.step b) := by
  obtain ⟨stay, hopen, hstops⟩ := h
  refine ⟨stay, ?_, hstops⟩
  rw [← hopen]
  apply Occupancy.step_of_not_bounds
  intro hbounds
  cases b with
  | entered other =>
      -- a machine enters where none is
      obtain ⟨hfree, -⟩ := hallowed
      rw [show other.path = stay.path from hbounds, hopen] at hfree
      cases hfree
  | left other =>
      -- the machine that leaves is the one that would stop the activity
      obtain ⟨hother, -⟩ := hallowed
      rw [show other.path = stay.path from hbounds, hopen] at hother
      obtain rfl := Option.some.inj hother
      rw [show (Block.left stay).actions = stay.state.exit from rfl, hstops] at hnone
      cases hnone
  | fired other names => exact hbounds
  | passed path names => exact hbounds

/-- After a block of a tidy state that matters the activity is watched because of it. -/
theorem TidyBlock.watches {o : Occupancy} {b : Block} (htidy : a.TidyBlock loose b) (hallowed : o.Allows b) :
    a.Stopped b.actions ∨ a.Guarded (o.step b) ∨ ∃ stay, b = .entered stay ∧ stay.state.id ∈ loose := by
  cases b with
  | entered stay =>
      rcases htidy.onEntry with hstopped | hstops | hloose
      · exact Or.inl hstopped
      · exact Or.inr (Or.inl ⟨stay, Occupancy.step_entered_self o stay, hstops⟩)
      · exact Or.inr (Or.inr ⟨stay, rfl, hloose⟩)
  | left stay => exact Or.inl htidy.onExit
  | fired stay names =>
      rcases htidy with hstopped | hstops
      · exact Or.inl hstopped
      · exact Or.inr (Or.inl ⟨stay, hallowed, hstops⟩)
  | passed path names => exact Or.inl htidy

theorem Watched.step {o : Occupancy} {bs : List Block} (h : a.Watched loose o bs) {b : Block}
    (htidy : a.TidyBlock loose b) (hallowed : o.Allows b) : a.Watched loose (o.step b) (bs ++ [b]) := by
  intro c hc
  rw [lastBlock?_append_singleton] at hc
  split at hc
  · obtain rfl := Option.some.inj hc
    exact htidy.watches hallowed
  · next hnone =>
      rcases h c hc with hstopped | hguarded | hloose
      · exact Or.inl hstopped
      · exact Or.inr (Or.inl (hguarded.step hallowed (by simpa using hnone)))
      · exact Or.inr (Or.inr hloose)

/-- Through a lawful trace of tidy states the activity stays watched. -/
theorem Watched.after {o : Occupancy} {bs : List Block} (h : a.Watched loose o bs) {cs : List Block}
    (hlawful : o.Lawful cs) (htidy : ∀ c ∈ cs, a.TidyBlock loose c) :
    a.Watched loose (o.after cs) (bs ++ cs) := by
  induction cs generalizing o bs with
  | nil =>
      rw [List.append_nil]
      exact h
  | cons c cs ih =>
      obtain ⟨hallowed, hrest⟩ := hlawful
      have hstep := h.step (htidy c List.mem_cons_self) hallowed
      have hafter := ih hstep hrest fun d hd => htidy d (List.mem_cons_of_mem _ hd)
      rw [List.append_assoc, List.singleton_append] at hafter
      exact hafter

end Activity

/-! ## Sessions -/

namespace LiveTree

variable {a : Activity} {loose : List String}

/-- Below a tree without children nothing runs. -/
theorem eq_of_descendant?_of_children {t u : LiveTree} (h : t.children = []) {p : List Nat}
    (hu : t.descendant? p = some u) : t = u := by
  cases p with
  | nil => simpa using hu
  | cons i p =>
      rw [descendant?_cons, h] at hu
      cases hu

/-- The machines of a walk through the tree of a tidy machine are in tidy states. -/
theorem WellFormed.tidy_of_mem_walkFrom {t : LiveTree} (ht : t.WellFormed) (h : t.machine.Tidy a loose)
    {p : List Nat} {c : Context} (hc : c ∈ t.walkFrom p) : c.stay.state.Tidy a loose := by
  obtain ⟨q, -, hq⟩ := (mem_walkFrom_iff t p c).1 hc
  obtain ⟨hwf, htidy⟩ := ht.tidy_descendant h hq
  exact htidy.own hwf.currentState_mem

theorem WellFormed.tidy_entries {t : LiveTree} (ht : t.WellFormed) (h : t.machine.Tidy a loose)
    (p : List Nat) : ∀ b ∈ t.entries p, a.TidyBlock loose b := by
  intro b hb
  obtain ⟨c, hc, rfl⟩ := List.mem_map.1 hb
  exact ht.tidy_of_mem_walkFrom h hc

theorem WellFormed.tidy_exits {t : LiveTree} (ht : t.WellFormed) (h : t.machine.Tidy a loose)
    (p : List Nat) : ∀ b ∈ t.exits p, a.TidyBlock loose b := by
  intro b hb
  obtain ⟨c, hc, rfl⟩ := List.mem_map.1 hb
  exact ht.tidy_of_mem_walkFrom h ((mem_closeFrom_iff t p c).1 hc)

end LiveTree

namespace Session

open LiveTree

variable {σ : Type u} {a : Activity} {loose : List String} {root : Machine}

/-- The reaction of a session of a tidy machine is tidy. -/
theorem tidy_reaction (hroot : root.WellFormed) (htidy : root.Tidy a loose) {s : Session σ}
    (h : Running root s) (x : Stimulus) : ∀ b ∈ s.reaction x, a.TidyBlock loose b := by
  obtain ⟨outcome, after, -, hresponse⟩ := h.response hroot ⟨0, 0⟩ x
  cases hresponse with
  | dropped hselect => simp [reaction, hselect]
  | @fired c t name also hselect hkind =>
      obtain ⟨hwf, hm⟩ := h.wellFormed.tidy_descendant (h.machine ▸ htidy) (descendant?_of_select? hselect)
      have hmem : t ∈ c.tree.currentState.transitions :=
        List.mem_of_find?_eq_some (mem_walk_of_select? hselect).2
      have hreaction : s.reaction x = [.fired c.stay (name :: also)] := by
        simp [reaction, hselect, hkind]
      intro b hb
      rw [hreaction, List.mem_singleton] at hb
      subst hb
      have hkinds := (hm.own hwf.currentState_mem).onTransition t.kind (List.mem_map_of_mem hmem)
      rw [hkind] at hkinds
      exact hkinds.imp id And.right
  | @moved c t target also index hselect hkind hindex hlt hid =>
      obtain ⟨hwf, hm⟩ := h.wellFormed.tidy_descendant (h.machine ▸ htidy) (descendant?_of_select? hselect)
      obtain ⟨-, hwfm, -⟩ := h.selected hroot hselect
      have hmem : t ∈ c.tree.currentState.transitions :=
        List.mem_of_find?_eq_some (mem_walk_of_select? hselect).2
      have hreaction : s.reaction x =
          c.tree.exits c.path ++ .passed c.path also :: (inState c.tree.machine index).entries c.path := by
        simp [reaction, hselect, hkind, hindex]
      intro b hb
      rw [hreaction] at hb
      rcases List.mem_append.1 hb with hexit | hb
      · exact hwf.tidy_exits hm c.path b hexit
      · rcases List.mem_cons.1 hb with rfl | hentry
        · -- an arrow does not start the activity
          have hkinds := (hm.own hwf.currentState_mem).onTransition t.kind (List.mem_map_of_mem hmem)
          rw [hkind] at hkinds
          rcases hkinds with hstopped | ⟨hnone, -⟩
          · exact hstopped
          · cases hnone
        · exact (wellFormed_inState hwfm hlt).tidy_entries hm c.path b hentry

theorem tidy_trace (hroot : root.WellFormed) (htidy : root.Tidy a loose) {s : Session σ}
    (h : Running root s) (calls : List Call) : ∀ b ∈ s.trace calls, a.TidyBlock loose b := by
  induction calls generalizing s with
  | nil => simp [trace]
  | cons c calls ih =>
      intro b hb
      rw [trace] at hb
      rcases List.mem_append.1 hb with hb | hb
      · cases c with
        | dispatch now x => exact tidy_reaction hroot htidy h x b hb
        | feed now e hit =>
            rw [blocks] at hb
            split at hb
            · exact tidy_reaction hroot htidy h _ b hb
            · simp at hb
        | attachPanel => simp [blocks] at hb
        | useNormalizer n => simp [blocks] at hb
        | invoke name => simp [blocks] at hb
      · exact ih (running_call hroot s c h) b hb

theorem tidy_traceFromStart (hroot : root.WellFormed) (htidy : root.Tidy a loose) (registry : Registry σ)
    (config : Config) (host : σ) (calls : List Call) :
    ∀ b ∈ traceFromStart root registry config host calls, a.TidyBlock loose b := by
  intro b hb
  rcases List.mem_append.1 hb with hb | hb
  · apply (wellFormed_fresh hroot).tidy_entries ?_ [] b hb
    rwa [machine_fresh]
  · exact tidy_trace hroot htidy (running_start hroot registry config host) calls b hb

/-- Throughout a session of a tidy machine an activity is watched. -/
theorem watched_trace (hroot : root.WellFormed) (htidy : root.Tidy a loose) (registry : Registry σ)
    (config : Config) (host : σ) (calls : List Call) :
    a.Watched loose ((start root registry config host).run calls).tree.occupancy
      (traceFromStart root registry config host calls) := by
  obtain ⟨hlawful, hopen⟩ := lawful_traceFromStart hroot registry config host calls
  have hempty : a.Watched loose .empty [] := by
    intro b hb
    cases hb
  rw [← hopen]
  exact hempty.after hlawful (tidy_traceFromStart hroot htidy registry config host calls)

theorem names_run_start (root : Machine) (registry : Registry σ) (config : Config) (host : σ)
    (calls : List Call) :
    ((start root registry config host).run calls).journal.names =
      (traceFromStart root registry config host calls).flatMap Block.actions := by
  rw [names_run, names_start, ← List.flatMap_append]
  rfl

/-- When nothing that runs would stop an activity on exit, it has been stopped unless the entry to a loose
state was the last to matter. -/
theorem stopped_iff_of_not_guarded (hroot : root.WellFormed) (htidy : root.Tidy a loose)
    (registry : Registry σ) (config : Config) (host : σ) (calls : List Call)
    (hguarded : ¬ a.Guarded ((start root registry config host).run calls).tree.occupancy) :
    a.Stopped ((start root registry config host).run calls).journal.names ↔
      ∀ stay, a.lastBlock? (traceFromStart root registry config host calls) = some (.entered stay) →
        stay.state.id ∉ loose := by
  rw [names_run_start, Activity.stopped_flatMap_iff]
  constructor
  · intro hstopped stay hlast hloose
    have hmem := Activity.mem_of_lastBlock? hlast
    have htidyBlock : a.TidyBlock loose (.entered stay) :=
      tidy_traceFromStart hroot htidy registry config host calls _ hmem
    exact htidyBlock.ofLoose hloose (hstopped _ hlast)
  · intro hloose b hlast
    have hwatched := watched_trace hroot htidy registry config host calls b hlast
    rcases hwatched with hstopped | hopen | ⟨stay, rfl, hid⟩
    · exact hstopped
    · exact absurd hopen hguarded
    · exact absurd hid (hloose stay hlast)

/-- After `press` the root is in the hatch, and so whatever has been stopped or started is left as it is. -/
theorem stopped_press_iff (hroot : root.WellFormed) (htidy : root.Tidy a loose) {press release : Stimulus}
    {plan : Nat} (hatch : root.Hatch press release plan)
    (hplan : a.last? (root.stateAt plan).exit ≠ some a.stop) (registry : Registry σ) (config : Config)
    (host : σ) (calls : List Call) (now : Instant) :
    let calls' := calls ++ [.dispatch now press]
    a.Stopped ((start root registry config host).run calls').journal.names ↔
      ∀ stay, a.lastBlock? (traceFromStart root registry config host calls') = some (.entered stay) →
        stay.state.id ∉ loose := by
  intro calls'
  apply stopped_iff_of_not_guarded hroot htidy
  rintro ⟨stay, hopen, hstops⟩
  have hrun := running_run hroot registry config host calls
  have htree : ((start root registry config host).run calls').tree = inState root plan := by
    have hlast : (start root registry config host).run calls' =
        (((start root registry config host).run calls).dispatch now press).2 := by
      rw [run, List.foldl_append]
      rfl
    rw [hlast]
    exact hatch.tree_press hrun now
  rw [htree, occupancy] at hopen
  obtain ⟨u, hu, hstay⟩ := Option.map_eq_some_iff.1 hopen
  have hchildren : (inState root plan).children = [] := by
    show (root.stateAt plan).subMachines.map fresh = []
    rw [hatch.alone, List.map_nil]
  obtain rfl := eq_of_descendant?_of_children hchildren hu
  have hstate : stay.state = root.stateAt plan := congrArg Stay.state hstay.symm
  rw [hstate] at hstops
  exact hplan hstops

end Session

end ModeTree
