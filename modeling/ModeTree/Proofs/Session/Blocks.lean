import ModeTree.Proofs.Session.Run
import ModeTree.Proofs.Session.Trace

/-!
# The trace of a session

What a session performs, block by block: the entries of the tree it starts with, for each call the
blocks of its reaction, and at the end the exits of the tree. The stays that are open at any time are the
running machines in their current states (`lawful_run`), and with this the trace of a whole session is
lawful.
-/

set_option autoImplicit false

namespace ModeTree

universe u

namespace LiveTree

/-- The blocks with which the machines of a tree are entered. -/
def entries (path : List Nat) (t : LiveTree) : List Block :=
  (t.walkFrom path).map fun c => .entered c.stay

/-- The blocks with which the machines of a tree are left. -/
def exits (path : List Nat) (t : LiveTree) : List Block :=
  (t.closeFrom path).map fun c => .left c.stay

/-- The stays of the running machines. -/
def occupancy (t : LiveTree) : Occupancy := fun p => (t.descendant? p).map fun u => Context.stay ⟨p, u⟩

/-- The stays at a path and below it are those of a tree. -/
def Fills (t : LiveTree) (p : List Nat) (o : Occupancy) : Prop :=
  ∀ q, o (p ++ q) = (t.descendant? q).map fun u => Context.stay ⟨p ++ q, u⟩

theorem actions_entries (path : List Nat) (t : LiveTree) :
    (t.entries path).flatMap Block.actions = entryActions (t.walkFrom path) := by
  rw [entries, List.flatMap_map]
  rfl

theorem actions_exits (path : List Nat) (t : LiveTree) :
    (t.exits path).flatMap Block.actions = exitActions (t.closeFrom path) := by
  rw [exits, List.flatMap_map]
  rfl

/-! ## Contexts below a path -/

theorem mem_closeChildren_iff {ts : List LiveTree}
    (ih : ∀ t ∈ ts, ∀ p c, c ∈ t.closeFrom p ↔ c ∈ t.walkFrom p) (p : List Nat) (k : Nat) (c : Context) :
    c ∈ closeChildren p k ts ↔ c ∈ walkChildren p k ts := by
  induction ts generalizing k with
  | nil => rfl
  | cons t ts ihts =>
      have hrest := ihts (fun u hu => ih u (List.mem_cons_of_mem _ hu)) (k + 1)
      rw [closeChildren, walkChildren, List.mem_append, List.mem_append, ih t List.mem_cons_self, hrest]

/-- A tree is left by the machines that the walk lists. -/
theorem mem_closeFrom_iff (t : LiveTree) (p : List Nat) (c : Context) :
    c ∈ t.closeFrom p ↔ c ∈ t.walkFrom p := by
  induction t using LiveTree.induction generalizing p c with
  | node machine current children ih =>
      rw [closeFrom, walkFrom, List.mem_append, mem_closeChildren_iff ih, List.mem_singleton,
        List.mem_cons, or_comm]

theorem prefix_of_mem_walkFrom {t : LiveTree} {p : List Nat} {c : Context} (h : c ∈ t.walkFrom p) :
    p <+: c.path := by
  obtain ⟨q, hpath, -⟩ := (mem_walkFrom_iff t p c).1 h
  exact ⟨q, hpath.symm⟩

theorem prefix_of_mem_closeChildren {ts : List LiveTree} {p : List Nat} {k : Nat} {c : Context}
    (h : c ∈ closeChildren p k ts) : ∃ i q, c.path = p ++ i :: q := by
  rw [mem_closeChildren_iff (fun t _ => mem_closeFrom_iff t),
    mem_walkChildren_iff (fun t _ => mem_walkFrom_iff t)] at h
  obtain ⟨i, u, q, -, hpath, -⟩ := h
  exact ⟨k + i, q, hpath⟩

theorem not_prefix_of_ne {p q : List Nat} {i k : Nat} (h : k ≠ i) : ¬ p ++ [k] <+: p ++ i :: q := by
  rw [List.prefix_append_right_inj]
  simp [List.cons_prefix_cons, h]

theorem not_prefix_self (p : List Nat) (k : Nat) : ¬ p ++ [k] <+: p := by
  intro h
  have hle := h.length_le
  rw [List.length_append, List.length_singleton] at hle
  omega

/-! ## What is open after entering and leaving -/

/-- Where only one stay is entered, that one is open afterwards. -/
theorem after_entered {cs : List Context} {o : Occupancy} {q : List Nat} {stay : Stay}
    (hmem : ∃ c ∈ cs, c.path = q) (hsame : ∀ c ∈ cs, c.path = q → c.stay = stay) :
    o.after (cs.map fun c => .entered c.stay) q = some stay := by
  obtain ⟨c, hc, hpath⟩ := hmem
  have hbounds : (Block.entered c.stay).Bounds q := hpath
  apply Occupancy.after_eq_of_bounds o ⟨_, List.mem_map.2 ⟨c, hc, rfl⟩, hbounds⟩
  intro b hb hbounds o
  obtain ⟨d, hd, rfl⟩ := List.mem_map.1 hb
  obtain rfl : d.path = q := hbounds
  rw [← hsame d hd rfl]
  exact Occupancy.step_entered_self o d.stay

theorem after_left {cs : List Context} {o : Occupancy} {q : List Nat} (hmem : ∃ c ∈ cs, c.path = q) :
    o.after (cs.map fun c => .left c.stay) q = none := by
  obtain ⟨c, hc, hpath⟩ := hmem
  have hbounds : (Block.left c.stay).Bounds q := hpath
  apply Occupancy.after_eq_of_bounds o ⟨_, List.mem_map.2 ⟨c, hc, rfl⟩, hbounds⟩
  intro b hb hbounds o
  obtain ⟨d, -, rfl⟩ := List.mem_map.1 hb
  obtain rfl : d.path = q := hbounds
  exact Occupancy.step_left_self o d.stay

theorem after_left_of_forall_ne {cs : List Context} {o : Occupancy} {q : List Nat}
    (h : ∀ c ∈ cs, c.path ≠ q) : o.after (cs.map fun c => .left c.stay) q = o q := by
  apply Occupancy.after_of_not_bounds
  intro b hb hbounds
  obtain ⟨c, hc, rfl⟩ := List.mem_map.1 hb
  exact h c hc hbounds

/-- To enter a tree changes nothing outside its path. -/
theorem after_entries_outside {t : LiveTree} {p q : List Nat} (o : Occupancy) (h : ¬ p <+: q) :
    o.after (t.entries p) q = o q := by
  apply Occupancy.after_of_not_bounds
  intro b hb hbounds
  obtain ⟨c, hc, rfl⟩ := List.mem_map.1 hb
  obtain rfl : c.path = q := hbounds
  exact h (prefix_of_mem_walkFrom hc)

theorem after_exits_outside {t : LiveTree} {p q : List Nat} (o : Occupancy) (h : ¬ p <+: q) :
    o.after (t.exits p) q = o q := by
  apply after_left_of_forall_ne
  rintro c hc rfl
  exact h (prefix_of_mem_walkFrom ((mem_closeFrom_iff t p c).1 hc))

/-- After a tree has been entered at a free path, its stays are open there. -/
theorem fills_after_entries {t : LiveTree} {p : List Nat} {o : Occupancy} (hfree : ∀ q, o (p ++ q) = none) :
    t.Fills p (o.after (t.entries p)) := by
  intro q
  cases hq : t.descendant? q with
  | none =>
      -- no machine of the tree runs here, so none is entered
      rw [Option.map_none, ← hfree q]
      apply Occupancy.after_of_not_bounds
      intro b hb hbounds
      obtain ⟨c, hc, rfl⟩ := List.mem_map.1 hb
      obtain ⟨r, hpath, hr⟩ := (mem_walkFrom_iff t p c).1 hc
      obtain rfl : r = q := List.append_cancel_left (hpath.symm.trans hbounds)
      rw [hq] at hr
      exact absurd hr (by simp)
  | some u =>
      -- whatever is entered here is the one machine that runs here
      apply after_entered ⟨⟨p ++ q, u⟩, (mem_walkFrom_iff t p _).2 ⟨q, rfl, hq⟩, rfl⟩
      intro c hc hpath
      obtain ⟨r, hpath', hr⟩ := (mem_walkFrom_iff t p c).1 hc
      obtain rfl : r = q := List.append_cancel_left (hpath'.symm.trans hpath)
      obtain ⟨path, tree⟩ := c
      obtain rfl : u = tree := Option.some.inj (hq.symm.trans hr)
      rw [show path = p ++ r from hpath]

/-- After a tree has been left, nothing is open at its path and below. -/
theorem after_exits {t : LiveTree} {p : List Nat} {o : Occupancy} (h : t.Fills p o) (q : List Nat) :
    o.after (t.exits p) (p ++ q) = none := by
  by_cases hmem : ∃ c ∈ t.closeFrom p, c.path = p ++ q
  · exact after_left hmem
  · -- nothing is left here, so nothing ran here before
    rw [exits, after_left_of_forall_ne fun c hc hpath => hmem ⟨c, hc, hpath⟩, h q]
    cases hq : t.descendant? q with
    | none => rfl
    | some u =>
        have hu : (⟨p ++ q, u⟩ : Context) ∈ t.walkFrom p := (mem_walkFrom_iff t p _).2 ⟨q, rfl, hq⟩
        exact absurd ⟨_, (mem_closeFrom_iff t p _).2 hu, rfl⟩ hmem

/-! ## Entering and leaving are lawful -/

theorem lawful_entries_children {ts : List LiveTree} {p : List Nat} {owner : Stay}
    (ih : ∀ t ∈ ts, ∀ (p : List Nat) (o : Occupancy), (∀ q, o (p ++ q) = none) →
      o.Admits p t.machine → o.Lawful (t.entries p))
    {k : Nat} {o : Occupancy} (howner : o p = some owner)
    (hruns : ∀ (i : Nat) (t : LiveTree), ts[i]? = some t → owner.state.subMachines[k + i]? = some t.machine)
    (hfree : ∀ i q, k ≤ i → o (p ++ i :: q) = none) :
    o.Lawful ((walkChildren p k ts).map fun c => .entered c.stay) := by
  induction ts generalizing k o with
  | nil => trivial
  | cons t ts ihts =>
      rw [walkChildren, List.map_append, Occupancy.lawful_append]
      constructor
      · -- the first machine belongs at its path, since its owner is open
        apply ih t List.mem_cons_self
        · intro q
          rw [List.append_assoc]
          exact hfree k q (Nat.le_refl k)
        · intro p' k' hp'
          obtain ⟨rfl, hk⟩ := List.append_inj' hp' rfl
          obtain rfl : k = k' := by simpa using hk
          exact ⟨owner, howner, hruns 0 t rfl⟩
      · -- its entries touch neither the owner nor the paths of the machines beside it
        apply ihts fun u hu => ih u (List.mem_cons_of_mem _ hu)
        · rw [← howner]
          exact after_entries_outside o (not_prefix_self p k)
        · intro i u hi
          rw [Nat.add_assoc, Nat.add_comm 1]
          exact hruns (i + 1) u hi
        · intro i q hi
          rw [← hfree i q (by omega)]
          exact after_entries_outside o (not_prefix_of_ne (by omega))

/-- A well-formed tree may be entered at a free path where its machine belongs. -/
theorem lawful_entries {t : LiveTree} (ht : t.WellFormed) {p : List Nat} {o : Occupancy}
    (hfree : ∀ q, o (p ++ q) = none) (hadmits : o.Admits p t.machine) : o.Lawful (t.entries p) := by
  induction t using LiveTree.induction generalizing p o with
  | node machine current children ih =>
      rw [entries, walkFrom, List.map_cons]
      have hself : o p = none := by simpa using hfree []
      refine ⟨⟨hself, hadmits⟩, ?_⟩
      -- once it is entered, the machine owns the stays of its children
      have howner : o.step (.entered ⟨p, machine, current⟩) p = some ⟨p, machine, current⟩ :=
        Occupancy.step_entered_self o ⟨p, machine, current⟩
      apply lawful_entries_children (fun c hc p o => ih c hc (ht.nested hc)) howner
      · intro i c hi
        have hruns : children.map (·.machine) = (machine.stateAt current).subMachines := ht.runs
        show (machine.stateAt current).subMachines[0 + i]? = some c.machine
        rw [← hruns, Nat.zero_add, List.getElem?_map, hi, Option.map_some]
      · intro i q _
        rw [← hfree (i :: q)]
        apply Occupancy.step_of_not_bounds
        intro hpath
        have hpath' : p = p ++ i :: q := hpath
        simp at hpath'

theorem lawful_exits_children {ts : List LiveTree} {p : List Nat}
    (ih : ∀ t ∈ ts, ∀ (p : List Nat) (o : Occupancy), t.Fills p o → o.Lawful (t.exits p)) {k : Nat}
    {o : Occupancy} (hfills : ∀ (i : Nat) (t : LiveTree), ts[i]? = some t → t.Fills (p ++ [k + i]) o) :
    o.Lawful ((closeChildren p k ts).map fun c => .left c.stay) := by
  induction ts generalizing k o with
  | nil => trivial
  | cons t ts ihts =>
      rw [closeChildren, List.map_append, Occupancy.lawful_append]
      constructor
      · exact ih t List.mem_cons_self _ _ (hfills 0 t rfl)
      · -- the machines beside it are still open when the first one has been left
        apply ihts fun u hu => ih u (List.mem_cons_of_mem _ hu)
        intro i u hi q
        have hsucc : k + 1 + i = k + (i + 1) := by omega
        rw [hsucc, ← hfills (i + 1) u hi q]
        apply after_exits_outside
        rw [List.append_assoc]
        exact not_prefix_of_ne (by omega)

/-- A tree whose stays are open may be left. -/
theorem lawful_exits {t : LiveTree} {p : List Nat} {o : Occupancy} (h : t.Fills p o) :
    o.Lawful (t.exits p) := by
  induction t using LiveTree.induction generalizing p o with
  | node machine current children ih =>
      rw [exits, closeFrom, List.map_append, Occupancy.lawful_append]
      refine ⟨lawful_exits_children (fun c hc p o => ih c hc) ?_, ?_⟩
      · intro i c hi q
        have hq := h (i :: q)
        rw [descendant?_cons] at hq
        simpa [hi] using hq
      · rw [List.map_singleton, Occupancy.lawful_singleton]
        constructor
        · -- the machine itself is still open after its children
          have hself : o p = some ⟨p, machine, current⟩ := by
            have hnil := h []
            rw [List.append_nil] at hnil
            exact hnil
          show o.after _ p = some ⟨p, machine, current⟩
          rw [← hself]
          apply after_left_of_forall_ne
          intro c hc hpath
          obtain ⟨i, q, hpath'⟩ := prefix_of_mem_closeChildren hc
          rw [hpath] at hpath'
          simp at hpath'
        · -- and below it everything that was open has been left
          intro q hq
          by_cases hmem : ∃ c ∈ closeChildren p 0 children, c.path = p ++ q
          · exact after_left hmem
          · show o.after _ (p ++ q) = none
            rw [after_left_of_forall_ne fun c hc hpath => hmem ⟨c, hc, hpath⟩, h q]
            cases hdesc : descendant? ⟨machine, current, children⟩ q with
            | none => rfl
            | some u =>
                have hu : (⟨p ++ q, u⟩ : Context) ∈ walkFrom p ⟨machine, current, children⟩ :=
                  (mem_walkFrom_iff _ p _).2 ⟨q, rfl, hdesc⟩
                rw [walkFrom] at hu
                rcases List.mem_cons.1 hu with heq | hchild
                · have hpath := congrArg Context.path heq
                  exact absurd (by simpa using hpath) hq
                · rw [← mem_closeChildren_iff (fun t _ => mem_closeFrom_iff t)] at hchild
                  exact absurd ⟨_, hchild, rfl⟩ hmem

/-! ## Moves -/

theorem fills_occupancy {t u : LiveTree} {p : List Nat} (h : t.descendant? p = some u) :
    u.Fills p t.occupancy := by
  intro q
  rw [occupancy, descendant?_append, h, Option.bind_some]

/-- In a well-formed tree every machine runs inside the stay above it. -/
theorem admits_occupancy {t u : LiveTree} (ht : t.WellFormed) (hm : t.machine.WellFormed) {p : List Nat}
    (h : t.descendant? p = some u) : t.occupancy.Admits p u.machine := by
  rintro p k rfl
  rw [descendant?_append] at h
  obtain ⟨owner, howner, hu⟩ := Option.bind_eq_some_iff.1 h
  rw [descendant?_cons] at hu
  obtain ⟨v, hv, hvu⟩ := Option.bind_eq_some_iff.1 hu
  obtain rfl : v = u := by simpa using hvu
  refine ⟨Context.stay ⟨p, owner⟩, by rw [occupancy, howner, Option.map_some], ?_⟩
  obtain ⟨hwf, -⟩ := ht.descendant hm howner
  show owner.currentState.subMachines[k]? = some v.machine
  rw [← hwf.runs, List.getElem?_map, hv, Option.map_some]

/-- The stays of a tree after a replacement: those of the new subtree, and elsewhere those as before. -/
theorem occupancy_replace {t old new : LiveTree} {p : List Nat} (h : t.descendant? p = some old)
    (q : List Nat) :
    (t.replace p new).occupancy q =
      if p <+: q then (new.descendant? (q.drop p.length)).map fun u => Context.stay ⟨q, u⟩
      else t.occupancy q := by
  rw [occupancy, descendant?_replace new h q]
  by_cases hpq : p <+: q
  · simp [hpq]
  · simp only [hpq, if_false, occupancy, Option.map_map]
    congr 1
    funext u
    by_cases hqp : q <+: p
    · -- on the way to the path a tree keeps its machine and its state
      obtain ⟨r, rfl⟩ := hqp
      cases r with
      | nil => simp at hpq
      | cons i r => simp [Context.stay]
    · simp [hqp]

theorem lawful_move {t old new : LiveTree} (ht : t.WellFormed) (hm : t.machine.WellFormed)
    {p : List Nat} (h : t.descendant? p = some old) (hnew : new.WellFormed)
    (hmachine : new.machine = old.machine) (also : List String) :
    t.occupancy.Lawful (old.exits p ++ .passed p also :: new.entries p) ∧
      t.occupancy.after (old.exits p ++ .passed p also :: new.entries p) =
        (t.replace p new).occupancy := by
  have hfills := fills_occupancy h
  -- the exits free the path and leave the owner above it open
  have hfree := after_exits hfills
  have hadmits : (t.occupancy.after (old.exits p)).Admits p new.machine := by
    rintro p' k rfl
    rw [after_exits_outside _ (not_prefix_self p' k), hmachine]
    exact admits_occupancy ht hm h p' k rfl
  constructor
  · rw [Occupancy.lawful_append]
    exact ⟨lawful_exits hfills, trivial, lawful_entries hnew hfree hadmits⟩
  · rw [Occupancy.after_append, Occupancy.after_cons]
    funext q
    show ((t.occupancy.after (old.exits p)).after (new.entries p)) q = _
    rw [occupancy_replace h q]
    -- below the path the new tree is open, and elsewhere nothing has changed
    by_cases hpq : p <+: q
    · obtain ⟨r, rfl⟩ := hpq
      rw [fills_after_entries hfree r]
      simp
    · rw [after_entries_outside _ hpq, after_exits_outside _ hpq]
      simp [hpq]

end LiveTree

namespace Session

open LiveTree

variable {σ : Type u}

/-- The blocks that a stimulus leads to. -/
def reaction (s : Session σ) (x : Stimulus) : List Block :=
  match select? s.tree x with
  | none => []
  | some (c, t) =>
    match t.kind, t.targetIndex with
    | .action name also, _ => [.fired c.stay (name :: also)]
    | .arrow _ also, some target =>
      c.tree.exits c.path ++ .passed c.path also :: (inState c.tree.machine target).entries c.path
    | .arrow _ _, none => []

/-- The blocks that a call leads to. -/
def blocks (s : Session σ) : Call → List Block
  | .dispatch _ stimulus => s.reaction stimulus
  | .feed _ event hit =>
    match s.normalizer.normalize event hit with
    | some stimulus => s.reaction stimulus
    | none => []
  | .attachPanel => []
  | .useNormalizer _ => []
  | .invoke _ => []

/-- The blocks of some calls. -/
def trace (s : Session σ) : List Call → List Block
  | [] => []
  | c :: calls => s.blocks c ++ (s.call c).trace calls

/-- The blocks of a session from its start to the end of some calls. -/
def traceFromStart (root : Machine) (registry : Registry σ) (config : Config) (host : σ)
    (calls : List Call) : List Block :=
  (fresh root).entries [] ++ (start root registry config host).trace calls

/-- The blocks of a session from its start to its end, with some calls in between. -/
def wholeTrace (root : Machine) (registry : Registry σ) (config : Config) (host : σ)
    (calls : List Call) : List Block :=
  traceFromStart root registry config host calls ++
    ((start root registry config host).run calls).tree.exits []

/-! ## What is invoked -/

theorem names_start (root : Machine) (registry : Registry σ) (config : Config) (host : σ) :
    (start root registry config host).journal.names = ((fresh root).entries []).flatMap Block.actions := by
  rw [start, LiveTree.launch_eq registry root [], actions_entries]
  show ((Journal.start host).performAll registry _).names = _
  rw [Journal.names_performAll]
  rfl

theorem names_dispatch (s : Session σ) (now : Instant) (x : Stimulus) :
    (s.dispatch now x).2.journal.names =
      s.journal.names ++ (s.reaction x).flatMap Block.actions := by
  obtain ⟨outcome, after, heq, heffect⟩ := dispatch_effect s now x
  rw [heq]
  show after.journal.names = _
  cases heffect with
  | unmatched hselect => simp [reaction, hselect]
  | fired hselect hkind =>
      rw [Journal.names_performAll]
      simp [reaction, hselect, hkind, Block.actions]
  | moved hselect hkind hindex =>
      rw [afterMove, Journal.names_performAll]
      simp [reaction, hselect, hkind, hindex, Block.actions, actions_exits, actions_entries]
  | untargeted hselect hkind hindex => simp [reaction, hselect, hkind, hindex]

theorem names_call (s : Session σ) (c : Call) :
    (s.call c).journal.names = s.journal.names ++ (s.blocks c).flatMap Block.actions := by
  cases c with
  | dispatch now stimulus => exact names_dispatch s now stimulus
  | feed now event hit =>
      rw [call, feed, blocks]
      cases s.normalizer.normalize event hit with
      | none => simp
      | some stimulus => exact names_dispatch s now stimulus
  | attachPanel => simp [call, blocks, attachPanel]
  | useNormalizer n => simp [call, blocks, withNormalizer]
  | invoke name => simp [call, blocks, invoke, Journal.names]

theorem names_run (s : Session σ) (calls : List Call) :
    (s.run calls).journal.names = s.journal.names ++ (s.trace calls).flatMap Block.actions := by
  induction calls generalizing s with
  | nil => simp [trace]
  | cons c calls ih =>
      rw [run_cons, ih, names_call, trace, List.flatMap_append, List.append_assoc]

theorem names_stop (s : Session σ) :
    s.stop.names = s.journal.names ++ (s.tree.exits []).flatMap Block.actions := by
  rw [stop, leave_eq s.registry s.tree [], Journal.names_performAll, actions_exits]

/-! ## What is open -/

variable {root : Machine}

/-- The reaction to a stimulus is lawful, and leaves open what runs afterwards. -/
theorem lawful_dispatch (hroot : root.WellFormed) {s : Session σ} (h : Running root s) (now : Instant)
    (x : Stimulus) :
    s.tree.occupancy.Lawful (s.reaction x) ∧
      s.tree.occupancy.after (s.reaction x) = (s.dispatch now x).2.tree.occupancy := by
  obtain ⟨outcome, after, heq, hresponse⟩ := h.response hroot now x
  rw [heq]
  show _ ∧ _ = after.tree.occupancy
  cases hresponse with
  | dropped hselect => simp [reaction, hselect, Occupancy.Lawful]
  | @fired c t name also hselect hkind =>
      -- the machine that acts is running, so its stay is open
      have hopen : s.tree.occupancy c.path = some c.stay := by
        rw [occupancy, descendant?_of_select? hselect, Option.map_some]
      have hreaction : s.reaction x = [.fired c.stay (name :: also)] := by
        simp [reaction, hselect, hkind]
      rw [hreaction]
      exact ⟨(Occupancy.lawful_singleton _ _).2 hopen, rfl⟩
  | @moved c t target also index hselect hkind hindex hlt hid =>
      -- the arrow leads to a state, so the tree that is entered is well formed
      have hlive := descendant?_of_select? hselect
      obtain ⟨hc, hm, -⟩ := h.selected hroot hselect
      have hreaction : s.reaction x =
          c.tree.exits c.path ++ .passed c.path also :: (inState c.tree.machine index).entries c.path := by
        simp [reaction, hselect, hkind, hindex]
      rw [hreaction]
      exact lawful_move h.wellFormed (h.machine ▸ hroot) hlive (wellFormed_inState hm hlt) rfl also

theorem lawful_call (hroot : root.WellFormed) {s : Session σ} (h : Running root s) (c : Call) :
    s.tree.occupancy.Lawful (s.blocks c) ∧
      s.tree.occupancy.after (s.blocks c) = (s.call c).tree.occupancy := by
  cases c with
  | dispatch now stimulus => exact lawful_dispatch hroot h now stimulus
  | feed now event hit =>
      rw [call, feed, blocks]
      cases s.normalizer.normalize event hit with
      | none => exact ⟨trivial, rfl⟩
      | some stimulus => exact lawful_dispatch hroot h now stimulus
  | attachPanel => exact ⟨trivial, rfl⟩
  | useNormalizer n => exact ⟨trivial, rfl⟩
  | invoke name => exact ⟨trivial, rfl⟩

theorem lawful_run (hroot : root.WellFormed) {s : Session σ} (h : Running root s) (calls : List Call) :
    s.tree.occupancy.Lawful (s.trace calls) ∧
      s.tree.occupancy.after (s.trace calls) = (s.run calls).tree.occupancy := by
  induction calls generalizing s with
  | nil => exact ⟨trivial, rfl⟩
  | cons c calls ih =>
      -- what a call leaves open is what the calls after it begin with
      obtain ⟨hcall, hafter⟩ := lawful_call hroot h c
      obtain ⟨hrest, hend⟩ := ih (running_call hroot s c h)
      rw [trace, Occupancy.lawful_append, Occupancy.after_append, hafter]
      exact ⟨⟨hcall, hrest⟩, hend⟩

/-- From the start to the end of some calls the trace is lawful, and what it leaves open is what runs. -/
theorem lawful_traceFromStart (hroot : root.WellFormed) (registry : Registry σ) (config : Config)
    (host : σ) (calls : List Call) :
    Occupancy.empty.Lawful (traceFromStart root registry config host calls) ∧
      Occupancy.empty.after (traceFromStart root registry config host calls) =
        ((start root registry config host).run calls).tree.occupancy := by
  -- at the start nothing is open, and the root needs no owner
  have hfree : ∀ q, Occupancy.empty ([] ++ q) = none := fun _ => rfl
  have hadmits : Occupancy.empty.Admits [] (fresh root).machine := by
    intro p k hp
    simp at hp
  have hopen : Occupancy.empty.after ((fresh root).entries []) = (fresh root).occupancy := by
    funext q
    exact fills_after_entries hfree q
  have hstart := running_start hroot registry config host
  obtain ⟨hrun, hend⟩ := lawful_run hroot hstart calls
  rw [tree_start] at hrun hend
  rw [traceFromStart, Occupancy.lawful_append, Occupancy.after_append, hopen]
  exact ⟨⟨lawful_entries (wellFormed_fresh hroot) hfree hadmits, hrun⟩, hend⟩

/-- The whole trace is lawful and leaves nothing open. -/
theorem lawful_wholeTrace (hroot : root.WellFormed) (registry : Registry σ) (config : Config)
    (host : σ) (calls : List Call) :
    Occupancy.empty.Lawful (wholeTrace root registry config host calls) ∧
      Occupancy.empty.after (wholeTrace root registry config host calls) = .empty := by
  obtain ⟨htrace, hopen⟩ := lawful_traceFromStart hroot registry config host calls
  have hfills := fills_occupancy (descendant?_nil ((start root registry config host).run calls).tree)
  rw [wholeTrace, Occupancy.lawful_append, Occupancy.after_append, hopen]
  refine ⟨⟨htrace, lawful_exits hfills⟩, ?_⟩
  -- every path lies below the root
  funext q
  exact after_exits hfills q

theorem occupancy_eq_some_iff (t : LiveTree) (stay : Stay) :
    t.occupancy stay.path = some stay ↔ stay ∈ t.walk.map Context.stay := by
  rw [occupancy, List.mem_map]
  constructor
  · intro h
    obtain ⟨u, hu, hstay⟩ := Option.map_eq_some_iff.1 h
    exact ⟨⟨stay.path, u⟩, (mem_walk_iff t _).2 hu, hstay⟩
  · rintro ⟨c, hc, rfl⟩
    rw [show c.stay.path = c.path from rfl, (mem_walk_iff t c).1 hc, Option.map_some]

/-- Entry and exit are paired over whole sessions. The names handed to the registry are those of the
blocks of the trace, one block after the other; up to the end of the calls the stays that have begun and
not ended are those of the running machines; and over the whole session every stay begins and ends once,
with the stays below it and its own actions in between. -/
theorem stays_paired (hroot : root.Validated) (registry : Registry σ) (config : Config) (host : σ)
    (calls : List Call) :
    let s := (start root registry config host).run calls
    let sofar := traceFromStart root registry config host calls
    let whole := wholeTrace root registry config host calls
    s.journal.names = sofar.flatMap Block.actions ∧
      s.stop.names = whole.flatMap Block.actions ∧
      (∀ stay, (∃ i, Trace.OpenSince sofar stay i) ↔ stay ∈ s.tree.walk.map Context.stay) ∧
      Trace.Paired whole := by
  intro s sofar whole
  have hwf := Machine.wellFormed_of_validated hroot
  have hnames : s.journal.names = sofar.flatMap Block.actions := by
    rw [names_run, names_start, ← List.flatMap_append]
    rfl
  refine ⟨hnames, ?_, ?_, ?_⟩
  · rw [names_stop, hnames, ← List.flatMap_append]
    rfl
  · intro stay
    obtain ⟨-, hopen⟩ := lawful_traceFromStart hwf registry config host calls
    rw [Trace.exists_openSince_iff, hopen, occupancy_eq_some_iff]
  · obtain ⟨hlawful, hend⟩ := lawful_wholeTrace hwf registry config host calls
    exact Trace.paired_of_lawful hlawful hend

/-- A lamp that blinks is such a machine. -/
theorem stays_paired_lamp :
    ∃ inner root, MachineDraft.blinker.build = .ok inner ∧
      (MachineDraft.lamp inner).build = .ok root ∧
      ∀ calls, Trace.Paired (wholeTrace root (.empty : Registry Unit) {} () calls) := by
  refine ⟨_, _, rfl, rfl, ?_⟩
  intro calls
  have hroot := Machine.validated_lamp rfl rfl
  obtain ⟨-, -, -, hpaired⟩ := stays_paired hroot (.empty : Registry Unit) {} () calls
  exact hpaired

end Session

end ModeTree
