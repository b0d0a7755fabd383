import ModeTree.Proofs.Tree.Walk

/-!
# The order of the walk

Paths are compared as words are in a dictionary: a path stands before every longer one that goes on from
it, and of two paths that part the one with the lower position there stands first. In this order parents
come before their children and children come in order. `walk_ascending` says that the walk lists the
running machines in it, and `deepestFirst_ranked` that a stimulus is offered to deeper machines first and
to equally deep ones in the order of the walk. A view is put together from the outermost machine on, and
equally deep ones stand in the order of the walk there too (`byDepth_outermostFirst`).
-/

set_option autoImplicit false

namespace ModeTree

namespace LiveTree

/-! ## Paths in dictionary order -/

theorem path_lt_child (p : List Nat) (i : Nat) (q : List Nat) : p < p ++ i :: q := by
  have hnil : ([] : List Nat) < i :: q := List.nil_lt_cons i q
  have hlt : p ++ [] < p ++ i :: q := List.append_left_lt hnil
  rwa [List.append_nil] at hlt

/-- Below one path, the descendants of an earlier child stand before those of a later one. -/
theorem path_lt_of_lt (p : List Nat) {i k : Nat} (h : i < k) (q r : List Nat) :
    p ++ i :: q < p ++ k :: r := by
  apply List.append_left_lt
  exact List.Lex.rel h

/-! ## The walk -/

theorem walkChildren_ascending {ts : List LiveTree}
    (ih : ∀ t ∈ ts, ∀ p, (t.walkFrom p).Pairwise fun c d => c.path < d.path) (p : List Nat) (k : Nat) :
    (walkChildren p k ts).Pairwise fun c d => c.path < d.path := by
  induction ts generalizing k with
  | nil => exact List.Pairwise.nil
  | cons t ts ihts =>
      rw [walkChildren, List.pairwise_append]
      refine ⟨ih t List.mem_cons_self _, ihts (fun u hu => ih u (List.mem_cons_of_mem _ hu)) (k + 1), ?_⟩
      -- a machine of the first tree against one of a later tree
      intro c hc d hd
      obtain ⟨q, hcpath, -⟩ := (mem_walkFrom_iff t _ c).1 hc
      obtain ⟨i, u, r, -, hdpath, -⟩ := (mem_walkChildren_iff (fun u _ => mem_walkFrom_iff u) p _ d).1 hd
      rw [hcpath, hdpath, List.append_assoc]
      apply path_lt_of_lt
      omega

theorem walkFrom_ascending (t : LiveTree) (p : List Nat) :
    (t.walkFrom p).Pairwise fun c d => c.path < d.path := by
  induction t using LiveTree.induction generalizing p with
  | node machine current children ih =>
      rw [walkFrom, List.pairwise_cons]
      refine ⟨?_, walkChildren_ascending ih p 0⟩
      intro c hc
      obtain ⟨i, u, q, -, hpath, -⟩ := (mem_walkChildren_iff (fun u _ => mem_walkFrom_iff u) p 0 c).1 hc
      rw [hpath]
      exact path_lt_child p _ q

/-- The walk lists the running machines in the order of their paths. -/
theorem walk_ascending (t : LiveTree) : t.walk.Pairwise fun c d => c.path < d.path :=
  walkFrom_ascending t []

/-- No running machine is listed twice. -/
theorem walk_nodup (t : LiveTree) : t.walk.Nodup := by
  refine t.walk_ascending.imp ?_
  rintro c d hlt rfl
  exact List.lt_irrefl _ hlt

/-- So paths ascend from one machine of the walk to a later one. -/
theorem path_lt_of_sublist {t : LiveTree} {c d : Context} (h : [c, d].Sublist t.walk) :
    c.path < d.path := by
  simpa using t.walk_ascending.sublist h

/-- Machines at one depth are listed in the order of the walk. -/
theorem atDepth_ordered (t : LiveTree) (depth : Nat) :
    (t.atDepth depth).Pairwise fun c d =>
      c.path.length = d.path.length ∧ [c, d].Sublist t.walk := by
  rw [List.pairwise_iff_forall_sublist]
  intro c d hsub
  have hc := ((mem_atDepth_iff t depth c).1 (hsub.subset (by simp))).2
  have hd := ((mem_atDepth_iff t depth d).1 (hsub.subset (by simp))).2
  exact ⟨hc.trans hd.symm, hsub.trans List.filter_sublist⟩

/-- Machines at two depths have paths of these lengths. -/
theorem length_lt_of_atDepth {t : LiveTree} {shallow deep : Nat} (h : shallow < deep) {c d : Context}
    (hc : c ∈ t.atDepth shallow) (hd : d ∈ t.atDepth deep) : c.path.length < d.path.length := by
  have hcdepth := ((mem_atDepth_iff t shallow c).1 hc).2
  have hddepth := ((mem_atDepth_iff t deep d).1 hd).2
  omega

/-! ## The order in which a stimulus is offered -/

/-- The machine at the first path is offered a stimulus before the one at the second: it is deeper, or
equally deep and earlier in the walk. -/
def Outranks (p q : List Nat) : Prop := q.length < p.length ∨ p.length = q.length ∧ p < q

/-- A stimulus is offered level by level from below, and within a level in the order of the walk. -/
theorem deepestFirst_ranked (t : LiveTree) :
    t.deepestFirst.Pairwise fun c d => Outranks c.path d.path := by
  rw [deepestFirst, List.pairwise_flatMap]
  refine ⟨?_, ?_⟩
  · intro depth _
    refine (atDepth_ordered t depth).imp ?_
    rintro c d ⟨hlength, hsub⟩
    exact Or.inr ⟨hlength, path_lt_of_sublist hsub⟩
  · rw [List.pairwise_reverse]
    refine List.pairwise_lt_range.imp ?_
    intro shallow deep hlt c hc d hd
    exact Or.inl (length_lt_of_atDepth hlt hd hc)

/-! ## The order in which a view is put together -/

/-- The running machines by depth, and those at one depth in the order of the walk. -/
structure ByDepth (t : LiveTree) (contexts : List Context) : Prop where
  all : contexts.Perm t.walk
  ordered : contexts.Pairwise fun c d =>
    c.path.length < d.path.length ∨ c.path.length = d.path.length ∧ [c, d].Sublist t.walk

theorem outermostFirst_ordered (t : LiveTree) :
    t.outermostFirst.Pairwise fun c d =>
      c.path.length < d.path.length ∨ c.path.length = d.path.length ∧ [c, d].Sublist t.walk := by
  rw [outermostFirst, List.pairwise_flatMap]
  refine ⟨?_, ?_⟩
  · intro depth _
    exact (atDepth_ordered t depth).imp Or.inr
  · refine List.pairwise_lt_range.imp ?_
    intro shallow deep hlt c hc d hd
    exact Or.inl (length_lt_of_atDepth hlt hc hd)

/-- There is no way to stand both before and behind another machine. -/
theorem eq_of_ordered {t : LiveTree} {c d : Context}
    (hcd : c.path.length < d.path.length ∨ c.path.length = d.path.length ∧ [c, d].Sublist t.walk)
    (hdc : d.path.length < c.path.length ∨ d.path.length = c.path.length ∧ [d, c].Sublist t.walk) :
    c = d := by
  rcases hcd with hlt | ⟨hlength, hcd⟩
  · rcases hdc with hlt' | ⟨hlength', -⟩ <;> omega
  · rcases hdc with hlt' | ⟨-, hdc⟩
    · omega
    · exact absurd (path_lt_of_sublist hdc) (List.lt_asymm (path_lt_of_sublist hcd))

/-- The running machines are listed by depth in one way only. -/
theorem ByDepth.unique {t : LiveTree} {cs cs' : List Context} (h : t.ByDepth cs) (h' : t.ByDepth cs') :
    cs = cs' := by
  refine (h.all.trans h'.all.symm).eq_of_pairwise ?_ h.ordered h'.ordered
  intro c d _ _ hcd hdc
  exact eq_of_ordered hcd hdc

theorem byDepth_outermostFirst (t : LiveTree) : t.ByDepth t.outermostFirst := by
  refine ⟨?_, t.outermostFirst_ordered⟩
  have hlevels : t.outermostFirst.Nodup := by
    refine t.outermostFirst_ordered.imp ?_
    rintro c d (hlt | ⟨-, hsub⟩) rfl
    · exact Nat.lt_irrefl _ hlt
    · exact List.lt_irrefl _ (path_lt_of_sublist hsub)
  exact (List.perm_ext_iff_of_nodup hlevels t.walk_nodup).2 (mem_outermostFirst_iff t)

end LiveTree

end ModeTree
