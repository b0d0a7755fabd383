import ModeTree.Session.Basic
import Mathlib.Data.List.Basic

/-!
# Walks and paths

The walk of a live tree lists the running machines together with their paths, and a path leads to at
most one of them. The two views agree (`mem_walk_iff`): the walk has exactly the contexts whose path
leads to their tree. `descendant?_replace` says what every path leads to after a subtree has been
replaced, and `mem_deepestFirst_iff` and `select?_eq_none_iff` bring these facts to the order in which
a stimulus is offered.
-/

set_option autoImplicit false

namespace ModeTree

namespace LiveTree

/-- Induction over a live tree: a tree from the trees of its children. -/
@[elab_as_elim]
theorem induction {motive : LiveTree → Prop}
    (node : ∀ machine current children, (∀ c ∈ children, motive c) →
      motive ⟨machine, current, children⟩) : ∀ t, motive t
  | ⟨machine, current, children⟩ => node machine current children fun c _ => induction node c

/-! ## Paths -/

@[simp] theorem descendant?_nil (t : LiveTree) : t.descendant? [] = some t := by
  cases t
  rfl

theorem descendant?_cons (t : LiveTree) (i : Nat) (p : List Nat) :
    t.descendant? (i :: p) = t.children[i]?.bind fun c => c.descendant? p := by
  rw [descendant?]
  cases t.children[i]? <;> rfl

/-- To follow two paths one after the other is to follow the second from where the first ends. -/
theorem descendant?_append (t : LiveTree) (p q : List Nat) :
    t.descendant? (p ++ q) = (t.descendant? p).bind fun u => u.descendant? q := by
  induction p generalizing t with
  | nil => simp
  | cons i p ih =>
      rw [List.cons_append, descendant?_cons, descendant?_cons]
      cases t.children[i]? with
      | none => rfl
      | some c => exact ih c

@[simp] theorem replace_nil (t new : LiveTree) : t.replace [] new = new := by
  cases t
  rfl

@[simp] theorem machine_replace_cons (t new : LiveTree) (i : Nat) (p : List Nat) :
    (t.replace (i :: p) new).machine = t.machine := rfl

@[simp] theorem current_replace_cons (t new : LiveTree) (i : Nat) (p : List Nat) :
    (t.replace (i :: p) new).current = t.current := rfl

theorem children_replace_cons (t new : LiveTree) (i : Nat) (p : List Nat) :
    (t.replace (i :: p) new).children = t.children.modify i fun c => c.replace p new := rfl

/-- A replacement shows below its path and nowhere else; on the way to it the trees keep their machine
and their state. -/
theorem descendant?_replace {t old : LiveTree} (new : LiveTree) {p : List Nat}
    (h : t.descendant? p = some old) (q : List Nat) :
    (t.replace p new).descendant? q =
      if p <+: q then new.descendant? (q.drop p.length)
      else (t.descendant? q).map fun u => if q <+: p then u.replace (p.drop q.length) new else u := by
  induction p generalizing t q with
  | nil => simp
  | cons i p ih =>
      rw [descendant?_cons] at h
      cases hi : t.children[i]? with
      | none => simp [hi] at h
      | some c =>
          rw [hi] at h
          cases q with
          | nil => simp
          | cons j q =>
              rw [descendant?_cons, children_replace_cons, List.getElem?_modify, descendant?_cons]
              -- two paths that part here do not see each other
              by_cases hij : i = j
              · subst hij
                simpa [hi, List.cons_prefix_cons] using ih h q
              · have hji : j ≠ i := Ne.symm hij
                cases t.children[j]? <;> simp [hij, hji, List.cons_prefix_cons]

/-! ## The walk -/

theorem mem_walkChildren_iff {ts : List LiveTree}
    (ih : ∀ u ∈ ts, ∀ p c, c ∈ u.walkFrom p ↔ ∃ q, c.path = p ++ q ∧ u.descendant? q = some c.tree)
    (p : List Nat) (k : Nat) (c : Context) :
    c ∈ walkChildren p k ts ↔
      ∃ i u q, ts[i]? = some u ∧ c.path = p ++ (k + i) :: q ∧ u.descendant? q = some c.tree := by
  induction ts generalizing k with
  | nil => simp [walkChildren]
  | cons v ts ihts =>
      -- the positions of the other children are counted from the next one on
      have ihts' := ihts (fun u hu => ih u (List.mem_cons_of_mem _ hu)) (k + 1)
      rw [walkChildren, List.mem_append, ih v List.mem_cons_self, ihts']
      constructor
      · rintro (⟨q, hpath, hq⟩ | ⟨i, u, q, hi, hpath, hq⟩)
        · exact ⟨0, v, q, rfl, by simpa using hpath, hq⟩
        · exact ⟨i + 1, u, q, hi, by simpa [Nat.add_assoc, Nat.add_comm 1] using hpath, hq⟩
      · rintro ⟨i, u, q, hi, hpath, hq⟩
        cases i with
        | zero =>
            obtain rfl : v = u := by simpa using hi
            exact Or.inl ⟨q, by simpa using hpath, hq⟩
        | succ i =>
            exact Or.inr ⟨i, u, q, hi, by simpa [Nat.add_assoc, Nat.add_comm 1] using hpath, hq⟩

theorem mem_walkFrom_iff (t : LiveTree) (p : List Nat) (c : Context) :
    c ∈ t.walkFrom p ↔ ∃ q, c.path = p ++ q ∧ t.descendant? q = some c.tree := by
  induction t using LiveTree.induction generalizing p c with
  | node machine current children ih =>
      rw [walkFrom, List.mem_cons, mem_walkChildren_iff ih]
      constructor
      · rintro (rfl | ⟨i, u, q, hi, hpath, hq⟩)
        · exact ⟨[], by simp, rfl⟩
        · refine ⟨i :: q, by simpa using hpath, ?_⟩
          rw [descendant?_cons]
          simp [hi, hq]
      · rintro ⟨q, hpath, hq⟩
        cases q with
        | nil =>
            obtain ⟨path, tree⟩ := c
            simp only [descendant?_nil, Option.some.injEq] at hq
            simp only [List.append_nil] at hpath
            exact Or.inl (by rw [hpath, hq])
        | cons i q =>
            rw [descendant?_cons] at hq
            obtain ⟨u, hi, hu⟩ := Option.bind_eq_some_iff.1 hq
            exact Or.inr ⟨i, u, q, hi, by simpa using hpath, hu⟩

/-- The walk lists exactly the running machines with the paths that lead to them. -/
theorem mem_walk_iff (t : LiveTree) (c : Context) :
    c ∈ t.walk ↔ t.descendant? c.path = some c.tree := by
  rw [walk, mem_walkFrom_iff]
  constructor
  · rintro ⟨q, hpath, hq⟩
    rw [hpath]
    exact hq
  · intro h
    exact ⟨c.path, rfl, h⟩

/-! ## Depth -/

theorem height_le_heightOfAll {c : LiveTree} {ts : List LiveTree} (h : c ∈ ts) :
    c.height ≤ heightOfAll ts := by
  induction ts with
  | nil => simp at h
  | cons u ts ih =>
      rw [heightOfAll]
      rcases List.mem_cons.1 h with rfl | h
      · exact Nat.le_max_left _ _
      · exact Nat.le_trans (ih h) (Nat.le_max_right _ _)

theorem heightOfAll_le {ts : List LiveTree} {n : Nat} (h : ∀ c ∈ ts, c.height ≤ n) :
    heightOfAll ts ≤ n := by
  induction ts with
  | nil => exact Nat.zero_le n
  | cons u ts ih =>
      rw [heightOfAll]
      exact Nat.max_le.2 ⟨h u List.mem_cons_self, ih fun c hc => h c (List.mem_cons_of_mem _ hc)⟩

theorem height_eq (t : LiveTree) : t.height = 1 + heightOfAll t.children := by
  cases t
  rw [height]

/-- A path that leads somewhere is shorter than the tree is high. -/
theorem length_lt_height {t u : LiveTree} {p : List Nat} (h : t.descendant? p = some u) :
    p.length < t.height := by
  induction p generalizing t with
  | nil =>
      rw [height_eq, List.length_nil]
      omega
  | cons i p ih =>
      rw [descendant?_cons] at h
      obtain ⟨c, hc, hu⟩ := Option.bind_eq_some_iff.1 h
      have hlt := ih hu
      have hle := height_le_heightOfAll (List.mem_of_getElem? hc)
      rw [height_eq, List.length_cons]
      omega

theorem mem_atDepth_iff (t : LiveTree) (depth : Nat) (c : Context) :
    c ∈ t.atDepth depth ↔ c ∈ t.walk ∧ c.path.length = depth := by
  simp [atDepth]

/-- The running machines in the order in which a stimulus is offered are those of the walk. -/
theorem mem_deepestFirst_iff (t : LiveTree) (c : Context) : c ∈ t.deepestFirst ↔ c ∈ t.walk := by
  simp only [deepestFirst, List.mem_flatMap, List.mem_reverse, List.mem_range, mem_atDepth_iff]
  constructor
  · rintro ⟨depth, -, hc, -⟩
    exact hc
  · intro hc
    exact ⟨c.path.length, length_lt_height ((mem_walk_iff t c).1 hc), hc, rfl⟩

theorem mem_outermostFirst_iff (t : LiveTree) (c : Context) : c ∈ t.outermostFirst ↔ c ∈ t.walk := by
  rw [← mem_deepestFirst_iff]
  simp [outermostFirst, deepestFirst]

end LiveTree

namespace Session

/-- The selected transition belongs to the current state of a running machine. -/
theorem mem_walk_of_select? {t : LiveTree} {x : Stimulus} {c : Context} {transition : Transition}
    (h : select? t x = some (c, transition)) :
    c ∈ t.walk ∧ c.tree.currentState.findTransition? x = some transition := by
  obtain ⟨d, hd, hsome⟩ := List.exists_of_findSome?_eq_some h
  obtain ⟨found, hfound, heq⟩ := Option.map_eq_some_iff.1 hsome
  obtain ⟨rfl, rfl⟩ := Prod.mk.inj heq
  exact ⟨(LiveTree.mem_deepestFirst_iff t d).1 hd, hfound⟩

/-- No transition is selected exactly when no running machine has one for the stimulus. -/
theorem select?_eq_none_iff (t : LiveTree) (x : Stimulus) :
    select? t x = none ↔ ∀ c ∈ t.walk, c.tree.currentState.findTransition? x = none := by
  simp only [select?, List.findSome?_eq_none_iff, LiveTree.mem_deepestFirst_iff, Option.map_eq_none_iff]

end Session

end ModeTree
