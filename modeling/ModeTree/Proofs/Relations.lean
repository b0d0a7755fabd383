import Mathlib.Data.List.Forall2

/-!
# Related lists

Lists that are related member by member, and what follows for the images of their members, for the first
members with a property, for the members that a function keeps, and for further lists. A computation that
may fail is opened at its first step by `bind_eq_ok_iff`.
-/

set_option autoImplicit false

namespace ModeTree

theorem bind_eq_ok_iff {ε α β : Type} {e : Except ε α} {f : α → Except ε β} {b : β} :
    (e >>= f) = .ok b ↔ ∃ a, e = .ok a ∧ f a = .ok b := by
  cases e with
  | error err => simp [bind, Except.bind]
  | ok a => simp [bind, Except.bind]

variable {α β γ δ : Type*} {R : α → β → Prop} {xs : List α} {ys : List β}

theorem exists_of_mem_left (h : List.Forall₂ R xs ys) {x : α} (hx : x ∈ xs) : ∃ y ∈ ys, R x y := by
  induction h with
  | nil => simp at hx
  | @cons a b xs ys hab _ ih =>
      rcases List.mem_cons.1 hx with rfl | hx
      · exact ⟨b, List.mem_cons_self, hab⟩
      · obtain ⟨y, hy, hR⟩ := ih hx
        exact ⟨y, List.mem_cons_of_mem _ hy, hR⟩

theorem exists_of_mem_right (h : List.Forall₂ R xs ys) {y : β} (hy : y ∈ ys) : ∃ x ∈ xs, R x y := by
  obtain ⟨x, hx, hR⟩ := exists_of_mem_left h.flip hy
  exact ⟨x, hx, hR⟩

/-- Another relation holds member by member if it holds of all members that are related. -/
theorem forall₂_imp_of_mem {S : α → β → Prop} (h : List.Forall₂ R xs ys)
    (himp : ∀ x ∈ xs, ∀ y ∈ ys, R x y → S x y) : List.Forall₂ S xs ys := by
  induction h with
  | nil => exact .nil
  | @cons x y xs ys hxy _ ih =>
      have hhead := himp x List.mem_cons_self y List.mem_cons_self hxy
      apply List.Forall₂.cons hhead
      apply ih
      intro x hx y hy
      exact himp x (List.mem_cons_of_mem _ hx) y (List.mem_cons_of_mem _ hy)

/-- Relations that hold member by member may be composed. -/
theorem forall₂_comp {S : β → γ → Prop} {T : α → γ → Prop} {zs : List γ} (hxy : List.Forall₂ R xs ys)
    (hyz : List.Forall₂ S ys zs) (h : ∀ x y z, R x y → S y z → T x z) : List.Forall₂ T xs zs := by
  induction hxy generalizing zs with
  | nil =>
      cases hyz with
      | nil => exact .nil
  | @cons x y xs ys hR _ ih =>
      cases hyz with
      | @cons _ z _ zs hS hrest => exact .cons (h x y z hR hS) (ih hrest)

/-- Related lists have the same list of images when related members have the same image. -/
theorem map_eq_of_forall₂ {f : α → γ} {g : β → γ} (h : List.Forall₂ R xs ys)
    (heq : ∀ x y, R x y → f x = g y) : xs.map f = ys.map g := by
  induction h with
  | nil => rfl
  | cons hxy _ ih => rw [List.map_cons, List.map_cons, heq _ _ hxy, ih]

theorem flatMap_eq_of_forall₂ {f : α → List γ} {g : β → List γ} (h : List.Forall₂ R xs ys)
    (heq : ∀ x ∈ xs, ∀ y ∈ ys, R x y → f x = g y) : xs.flatMap f = ys.flatMap g := by
  induction h with
  | nil => rfl
  | @cons x y xs ys hxy _ ih =>
      rw [List.flatMap_cons, List.flatMap_cons, heq x List.mem_cons_self y List.mem_cons_self hxy, ih]
      intro x hx y hy
      exact heq x (List.mem_cons_of_mem _ hx) y (List.mem_cons_of_mem _ hy)

/-- Where every member has a relative there is a list of them. -/
theorem exists_forall₂ (h : ∀ x ∈ xs, ∃ y, R x y) : ∃ ys, List.Forall₂ R xs ys := by
  induction xs with
  | nil => exact ⟨[], .nil⟩
  | cons x xs ih =>
      obtain ⟨y, hy⟩ := h x List.mem_cons_self
      obtain ⟨ys, hys⟩ := ih fun z hz => h z (List.mem_cons_of_mem _ hz)
      exact ⟨y :: ys, .cons hy hys⟩

/-- Two lists that are related to one have a common relative if their members have. -/
theorem exists_forall₂_of_forall₂ {S : α → γ → Prop} {T : γ → δ → Prop} {U : β → δ → Prop} {zs : List γ}
    (hys : List.Forall₂ R xs ys) (hzs : List.Forall₂ S xs zs)
    (hmem : ∀ x ∈ xs, ∀ y z, R x y → S x z → ∃ w, T z w ∧ U y w) :
    ∃ ws, List.Forall₂ T zs ws ∧ List.Forall₂ U ys ws := by
  induction hys generalizing zs with
  | nil =>
      cases hzs with
      | nil => exact ⟨[], .nil, .nil⟩
  | @cons x y xs ys hxy _ ih =>
      cases hzs with
      | @cons _ z _ zs hxz hzs =>
          obtain ⟨w, hzw, hyw⟩ := hmem x List.mem_cons_self y z hxy hxz
          obtain ⟨ws, hzws, hyws⟩ := ih hzs fun x hx => hmem x (List.mem_cons_of_mem _ hx)
          exact ⟨w :: ws, .cons hzw hzws, .cons hyw hyws⟩

/-- The first finds in related lists are related, or there are none. -/
theorem findSome?_rel {S : γ → δ → Prop} {f : α → Option γ} {g : β → Option δ}
    (h : List.Forall₂ R xs ys) (hrel : ∀ x y, R x y → Option.Rel S (f x) (g y)) :
    Option.Rel S (xs.findSome? f) (ys.findSome? g) := by
  induction h with
  | nil => exact .none
  | @cons x y xs ys hxy _ ih =>
      rw [List.findSome?_cons, List.findSome?_cons]
      have hhead := hrel x y hxy
      cases hx : f x with
      | none =>
          rw [hx] at hhead
          cases hy : g y with
          | none => exact ih
          | some d => rw [hy] at hhead; cases hhead
      | some c =>
          rw [hx] at hhead
          cases hy : g y with
          | none => rw [hy] at hhead; cases hhead
          | some d => rwa [hy] at hhead

/-- The first members of related lists that pass a test are related, or there are none. -/
theorem find?_rel {p : α → Bool} {q : β → Bool} (h : List.Forall₂ R xs ys)
    (htest : ∀ x y, R x y → p x = q y) : Option.Rel R (xs.find? p) (ys.find? q) := by
  induction h with
  | nil => exact .none
  | @cons x y xs ys hxy _ ih =>
      rw [List.find?_cons, List.find?_cons, htest x y hxy]
      cases q y with
      | false => exact ih
      | true => exact .some hxy

/-- Lists stay related when members at one position are changed into related ones. -/
theorem modify_rel {f : α → α} {g : β → β} (h : List.Forall₂ R xs ys)
    (hrel : ∀ x y, R x y → R (f x) (g y)) (i : Nat) :
    List.Forall₂ R (xs.modify i f) (ys.modify i g) := by
  induction h generalizing i with
  | nil => simp
  | @cons x y xs ys hxy hrest ih =>
      cases i with
      | zero => simpa using ⟨hrel x y hxy, hrest⟩
      | succ i => simpa using ⟨hxy, ih i⟩

/-- What a function keeps of a list, beside the places of the members that it is made of. -/
theorem forall₂_findIdxs_filterMap (f : α → Option β) (xs : List α) :
    List.Forall₂ (fun i y => ∃ x, xs[i]? = some x ∧ f x = some y)
      (xs.findIdxs fun x => (f x).isSome) (xs.filterMap f) := by
  induction xs with
  | nil => exact .nil
  | cons x xs ih =>
      -- behind the head, places count from one
      have hrest : List.Forall₂ (fun i y => ∃ z, (x :: xs)[i]? = some z ∧ f z = some y)
          (xs.findIdxs (fun x => (f x).isSome) 1) (xs.filterMap f) := by
        rw [List.findIdxs_start, List.forall₂_map_left_iff]
        exact ih
      rw [List.findIdxs_cons, List.filterMap_cons]
      cases hx : f x with
      | none => exact hrest
      | some y => exact .cons ⟨x, rfl, hx⟩ hrest

end ModeTree
