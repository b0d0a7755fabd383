import ModeTree.Proofs.Tree.Order

/-!
# Walk and lookup

The walk of a live tree and the lookup of a path are two views of one tree. Under every path the walk lists what
the lookup finds, once if it finds a tree and not at all if it finds none (`filter_walk`), and it does so in
dictionary order. The walk may be made along a single path, which is lengthened before a child and shortened
after it (`walkAlong_eq`). When the tree at the end of a path is replaced, the trees beside that path stay the
same, and those on the way to it differ in nothing but what runs below them (`walk_agrees_with_lookup`).
-/

set_option autoImplicit false

namespace ModeTree

namespace LiveTree

/-! ## The walk along one path -/

mutual

/-- Walks a tree along one path and adds what it meets to a list. In the end the path is as it was. -/
def walkAlong (path : List Nat) (listed : List Context) : LiveTree → List Nat × List Context
  | ⟨machine, current, children⟩ =>
    walkChildrenAlong path 0 (listed ++ [⟨path, ⟨machine, current, children⟩⟩]) children

/-- Walks the children of the machine at the path, from a position on. -/
def walkChildrenAlong (path : List Nat) (index : Nat) (listed : List Context) :
    List LiveTree → List Nat × List Context
  | [] => (path, listed)
  | child :: rest =>
    let (path, listed) := walkAlong (path ++ [index]) listed child
    walkChildrenAlong path.dropLast (index + 1) listed rest

end

theorem walkChildrenAlong_eq {ts : List LiveTree}
    (ih : ∀ u ∈ ts, ∀ path listed, u.walkAlong path listed = (path, listed ++ u.walkFrom path))
    (path : List Nat) (index : Nat) (listed : List Context) :
    walkChildrenAlong path index listed ts = (path, listed ++ walkChildren path index ts) := by
  induction ts generalizing index listed with
  | nil => simp [walkChildrenAlong, walkChildren]
  | cons u ts ihts =>
      have hrest := ihts (fun v hv => ih v (List.mem_cons_of_mem _ hv)) (index + 1)
      -- the first child gives the path back with its own position at the end, which is then taken away
      rw [walkChildrenAlong, ih u List.mem_cons_self, walkChildren]
      simp only [List.dropLast_concat, hrest, List.append_assoc]

theorem walkAlong_eq (t : LiveTree) (path : List Nat) (listed : List Context) :
    t.walkAlong path listed = (path, listed ++ t.walkFrom path) := by
  induction t using LiveTree.induction generalizing path listed with
  | node machine current children ih =>
      rw [walkAlong, walkChildrenAlong_eq ih, walkFrom, List.append_assoc]
      rfl

/-! ## What the walk lists -/

/-- Under a path the walk lists what the path leads to. -/
theorem filter_walk (t : LiveTree) (p : List Nat) :
    t.walk.filter (fun c => c.path = p) = ((t.descendant? p).map (Context.mk p)).toList := by
  cases hp : t.descendant? p with
  | none =>
      refine List.filter_eq_nil_iff.2 ?_
      intro c hc hpath
      obtain rfl : c.path = p := by simpa using hpath
      simp [(mem_walk_iff t c).1 hc] at hp
  | some u =>
      apply List.perm_singleton.1
      refine (List.perm_ext_iff_of_nodup (t.walk_nodup.filter _) (List.pairwise_singleton _ _)).2 ?_
      rintro ⟨path, tree⟩
      simp only [List.mem_filter, mem_walk_iff, decide_eq_true_eq, List.mem_singleton, Context.mk.injEq]
      constructor
      · rintro ⟨htree, rfl⟩
        exact ⟨rfl, Option.some.inj (htree.symm.trans hp)⟩
      · rintro ⟨rfl, rfl⟩
        exact ⟨hp, rfl⟩

/-! ## Lookup after a replacement -/

/-- Two trees that differ at most in what runs at a path. Above it the machines are the same, in the same
states and with as many machines below them, and beside it the subtrees are the same. -/
structure Alike (p : List Nat) (t t' : LiveTree) : Prop where
  above : ∀ q i r, p = q ++ i :: r → ∃ u u', t.descendant? q = some u ∧ t'.descendant? q = some u' ∧
    u'.machine = u.machine ∧ u'.current = u.current ∧ u'.children.length = u.children.length
  beside : ∀ q, ¬ p <+: q → ¬ q <+: p → t'.descendant? q = t.descendant? q

/-- A tree after a replacement is like the tree before, apart from the path. -/
theorem alike_replace {t old : LiveTree} {p : List Nat} (h : t.descendant? p = some old)
    (new : LiveTree) : Alike p t (t.replace p new) where
  above := by
    rintro q i r rfl
    have hq := descendant?_replace new h q
    rw [descendant?_append] at h
    obtain ⟨u, hu, -⟩ := Option.bind_eq_some_iff.1 h
    have hlong : ¬ q ++ i :: r <+: q := by
      intro hprefix
      have hle := hprefix.length_le
      rw [List.length_append, List.length_cons] at hle
      omega
    refine ⟨u, u.replace (i :: r) new, hu, ?_, rfl, rfl, ?_⟩
    · rw [hq, hu, if_neg hlong]
      simp
    · rw [children_replace_cons, List.length_modify]
  beside := by
    intro q hpq hqp
    have hq := descendant?_replace new h q
    rw [hq, if_neg hpq]
    simp [hqp]

/-- What runs at the path of a replacement. -/
theorem descendant?_replace_self {t old : LiveTree} {p : List Nat} (h : t.descendant? p = some old)
    (new : LiveTree) : (t.replace p new).descendant? p = some new := by
  rw [descendant?_replace new h p, if_pos List.prefix_rfl, List.drop_length, descendant?_nil]

/-- The walk and the lookup agree. Under each path the walk lists what the path leads to, once or not at all, and
its paths ascend in dictionary order; it may be made along one path. When the tree that a path leads to has become
another one, the path leads to that one. The paths beside it lead to the same trees as before, and those on the
way to it to the same machines, in the same states and with as many machines below them. -/
theorem walk_agrees_with_lookup (t : LiveTree) :
    (∀ p, t.walk.filter (fun c => c.path = p) = ((t.descendant? p).map (Context.mk p)).toList) ∧
      t.walk.Pairwise (fun c d => c.path < d.path) ∧
      t.walkAlong [] [] = ([], t.walk) ∧
      ∀ p old, t.descendant? p = some old → ∀ new,
        (t.replace p new).descendant? p = some new ∧ Alike p t (t.replace p new) := by
  refine ⟨t.filter_walk, t.walk_ascending, t.walkAlong_eq [] [], ?_⟩
  intro p old hold new
  exact ⟨descendant?_replace_self hold new, alike_replace hold new⟩

/-- A light in the state at a position: on or off. -/
def light (current : Nat) : LiveTree := ⟨⟨"light", 0, [.named "on", .named "off"]⟩, current, []⟩

/-- A desk with two lights that are on. -/
def litDesk : LiveTree :=
  let lit : State Transition Machine := ⟨"lit", [], [], [], [(light 0).machine, (light 0).machine], .inherit, none⟩
  ⟨⟨"desk", 0, [lit]⟩, 0, [light 0, light 0]⟩

/-- When the first light goes out, the second stays on. -/
theorem walk_agrees_with_lookup_litDesk :
    let dimmed := litDesk.replace [0] (light 1)
    litDesk.walk.filter (fun c => c.path = [1]) = [⟨[1], light 0⟩] ∧
      dimmed.descendant? [0] = some (light 1) ∧ dimmed.descendant? [1] = some (light 0) ∧
      ∃ desk, dimmed.descendant? [] = some desk ∧ desk.machine = litDesk.machine ∧ desk.children.length = 2 := by
  intro dimmed
  obtain ⟨hfilter, -, -, hreplace⟩ := walk_agrees_with_lookup litDesk
  obtain ⟨hself, halike⟩ := hreplace [0] (light 0) rfl (light 1)
  obtain ⟨u, desk, hu, hdesk, hmachine, -, hlength⟩ := halike.above [] 0 [] rfl
  obtain rfl : litDesk = u := by simpa using hu
  exact ⟨hfilter [1], hself, halike.beside [1] (by decide) (by decide), desk, hdesk, hmachine, hlength⟩

end LiveTree

end ModeTree
