import ModeTree.NameTable
import Mathlib.Data.List.Nodup

/-!
# Tables and their names

A table is known by what it answers for each name (`eq_of_get?_eq`), and the names of a table by which they are
(`names_eq_of_mem_iff`). The table of a list answers with the last entry of a name (`get?_ofList`), so an entry
whose name comes again has no effect (`ofList_drop`).
-/

set_option autoImplicit false

namespace ModeTree

namespace NameTable

variable {α β : Type}

theorem contains_iff (t : NameTable α) (name : String) :
    t.contains name = true ↔ ∃ value, t.get? name = some value := by
  rw [contains, Option.isSome_iff_exists]

theorem nodup_of_ascending {γ : Type} {key : γ → String} {xs : List γ}
    (h : xs.Pairwise fun a b => key a < key b) : xs.Nodup := by
  refine h.imp ?_
  rintro a b hab rfl
  exact Std.lt_irrefl hab

/-- Ascending lists with the same members are the same. -/
theorem eq_of_ascending {γ : Type} {key : γ → String} {xs ys : List γ}
    (hxs : xs.Pairwise fun a b => key a < key b) (hys : ys.Pairwise fun a b => key a < key b)
    (h : ∀ x, x ∈ xs ↔ x ∈ ys) : xs = ys := by
  have hperm : xs.Perm ys :=
    (List.perm_ext_iff_of_nodup (nodup_of_ascending hxs) (nodup_of_ascending hys)).2 h
  apply hperm.eq_of_pairwise ?_ hxs hys
  intro a b _ _ hab hba
  exact absurd (Std.lt_trans hab hba) Std.lt_irrefl

theorem names_nodup (t : NameTable α) : t.names.Nodup := nodup_of_ascending t.names_ascending

/-- Two tables with the same names list them in the same order. -/
theorem names_eq_of_mem_iff {t : NameTable α} {u : NameTable β}
    (h : ∀ name, name ∈ t.names ↔ name ∈ u.names) : t.names = u.names :=
  eq_of_ascending t.names_ascending u.names_ascending h

/-- Tables with the same value for every name are the same. -/
theorem eq_of_get?_eq {t u : NameTable α} (h : ∀ name, t.get? name = u.get? name) : t = u := by
  have hentries : t.entries = u.entries := by
    apply eq_of_ascending t.ascending u.ascending
    rintro ⟨name, value⟩
    rw [mem_entries_iff, mem_entries_iff, h]
  cases t
  cases u
  simpa using hentries

/-! ## Tables of lists -/

theorem findEntry_append (name : String) (es es' : List (String × α)) :
    findEntry name (es ++ es') = (findEntry name es).or (findEntry name es') := by
  induction es with
  | nil => rfl
  | cons e es ih => by_cases he : e.1 = name <;> simp [findEntry, he, ih]

/-- The last entry with a name is the one that is found. -/
theorem get?_ofList (es : List (String × α)) (name : String) :
    (ofList es).get? name = findEntry name es.reverse := by
  suffices hfold : ∀ t : NameTable α,
      (es.foldl (fun t e => t.insert e.1 e.2) t).get? name = (findEntry name es.reverse).or (t.get? name) by
    simpa [ofList] using hfold empty
  induction es with
  | nil => simp [findEntry]
  | cons e es ih =>
      intro t
      rw [List.foldl_cons, ih, get?_insert, List.reverse_cons, findEntry_append]
      by_cases he : e.1 = name <;> simp [findEntry, he]

/-- An entry is found when no other has its name. -/
theorem findEntry_of_mem {name : String} {value : α} {es : List (String × α)} (hnodup : (es.map Prod.fst).Nodup)
    (h : (name, value) ∈ es) : findEntry name es = some value := by
  induction es with
  | nil => cases h
  | cons e es ih =>
      obtain ⟨hfresh, hrest⟩ := List.nodup_cons.1 hnodup
      rcases List.mem_cons.1 h with rfl | hmem
      · exact if_pos rfl
      · have hne : e.1 ≠ name := by
          rintro rfl
          exact hfresh (List.mem_map.2 ⟨_, hmem, rfl⟩)
        rw [findEntry, if_neg hne, ih hrest hmem]

theorem findEntry_ne_none_iff (name : String) (es : List (String × α)) :
    findEntry name es ≠ none ↔ ∃ e ∈ es, e.1 = name := by
  simp [Ne, findEntry_eq_none_iff]

/-- The names of a table made of a list are those in the list. -/
theorem mem_names_ofList_iff (es : List (String × α)) (name : String) :
    name ∈ (ofList es).names ↔ ∃ e ∈ es, e.1 = name := by
  rw [mem_names_iff, contains, get?_ofList, Option.isSome_iff_ne_none, findEntry_ne_none_iff]
  simp only [List.mem_reverse]

/-- An entry has no effect when its name comes again. -/
theorem ofList_drop {name : String} {value : α} {before after : List (String × α)}
    (h : name ∈ after.map Prod.fst) : ofList (before ++ (name, value) :: after) = ofList (before ++ after) := by
  apply eq_of_get?_eq
  intro other
  simp only [get?_ofList, List.reverse_append, List.reverse_cons, findEntry_append]
  obtain ⟨e, he, rfl⟩ := List.mem_map.1 h
  by_cases hother : e.1 = other
  · have hlater : findEntry other after.reverse ≠ none :=
      (findEntry_ne_none_iff _ _).2 ⟨e, List.mem_reverse.2 he, hother⟩
    obtain ⟨found, hfound⟩ := Option.ne_none_iff_exists'.1 hlater
    simp [hfound]
  · simp [findEntry, hother]

/-- A table is the table of its entries. -/
theorem ofList_entries (t : NameTable α) : ofList t.entries = t := by
  apply eq_of_get?_eq
  intro name
  rw [get?_ofList]
  cases hname : t.get? name with
  | none =>
      rw [get?, findEntry_eq_none_iff] at hname
      simpa [findEntry_eq_none_iff] using hname
  | some value =>
      have hmem : (name, value) ∈ t.entries := (t.mem_entries_iff name value).2 hname
      have hfound : findEntry name t.entries.reverse ≠ none :=
        (findEntry_ne_none_iff _ _).2 ⟨_, List.mem_reverse.2 hmem, rfl⟩
      obtain ⟨found, hfound⟩ := Option.ne_none_iff_exists'.1 hfound
      -- a name has one entry only, so the last one is the first one
      have hentry := (t.mem_entries_iff name found).1 (List.mem_reverse.1 (mem_of_findEntry hfound))
      rw [hfound, ← hentry, hname]

end NameTable

end ModeTree
