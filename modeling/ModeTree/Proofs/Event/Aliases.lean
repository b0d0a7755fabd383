import ModeTree.Proofs.Event.Image

/-!
# Aliases of keys

An alias is kept under the lowercase form of the name that a host uses, and looked up by the folded name of a
key. The two are the same for a name without white space around it and for a blank one, so such an alias names
every key that is spelled like it up to case. An alias for any other name is never found. In either case the
keys whose names differ in more than case and white space keep theirs (`alias_names_keys`).
-/

set_option autoImplicit false

namespace ModeTree

open Text

namespace Normalizer

/-- The normaliser with further aliases, taken one after the other. -/
def withAliases (n : Normalizer) (aliases : List (String × String)) : Normalizer :=
  aliases.foldl (fun n entry => n.withAlias entry.1 entry.2) n

/-- A name that is blank, or that has no white space around it. -/
def Unpadded (name : String) : Prop := White name.toList ∨ Trimmed name.toList

instance : DecidablePred Unpadded := fun name =>
  inferInstanceAs (Decidable (White name.toList ∨ Trimmed name.toList))

/-! ## Folding and lowercasing -/

theorem unpadded_lowercase_iff {name : String} : Unpadded (lowercase name) ↔ Unpadded name := by
  rw [Unpadded, Unpadded, toList_lowercase, white_lower_iff, trimmed_lower_iff]

theorem unpadded_foldName (name : String) : Unpadded (foldName name) := by
  by_cases h : White name.toList
  · rw [foldName_of_white h]
    exact .inl h
  · exact .inr (trimmed_foldName h).1

theorem foldName_eq_lowercase {name : String} (h : Unpadded name) : foldName name = lowercase name := by
  apply String.toList_inj.1
  rw [toList_lowercase]
  by_cases hwhite : White name.toList
  · rw [foldName_of_white hwhite, lower_of_white hwhite]
  · rw [toList_foldName hwhite, trim_eq_self (h.resolve_left hwhite)]

/-- Folding changes a name by its case and the white space around it alone. -/
theorem trim_foldName (name : String) : trim (foldName name).toList = trim (lower name.toList) := by
  by_cases h : White name.toList
  · rw [foldName_of_white h, lower_of_white h]
  · rw [toList_foldName h, trim_eq_self (trimmed_lower (trimmed_trim _)), trim_lower]

/-! ## What an alias names -/

theorem keyName_withAlias (n : Normalizer) (host key name : String) :
    (n.withAlias host key).keyName name =
      if lowercase host = foldName name then lowercase key else n.keyName name := by
  rw [keyName, withAlias, NameTable.get?_insert, keyName]
  split
  · rfl
  · rfl

/-- Of several aliases the last one counts that is kept under the folded name. -/
theorem keyName_withAliases (n : Normalizer) (aliases : List (String × String)) (name : String) :
    (n.withAliases aliases).keyName name =
      ((aliases.reverse.find? fun entry => lowercase entry.1 = foldName name).map
        fun entry => lowercase entry.2).getD (n.keyName name) := by
  induction aliases generalizing n with
  | nil => rfl
  | cons entry aliases ih =>
      rw [withAliases, List.foldl_cons, ← withAliases, ih, keyName_withAlias, List.reverse_cons,
        List.find?_append]
      cases aliases.reverse.find? fun entry => lowercase entry.1 = foldName name with
      | some later => rfl
      | none =>
          by_cases hentry : lowercase entry.1 = foldName name
          · simp [hentry]
          · simp [hentry]

/-- An alias for a name with white space around it is never found. -/
theorem lowercase_ne_foldName {host : String} (h : ¬ Unpadded host) (name : String) :
    lowercase host ≠ foldName name := by
  intro heq
  apply h
  rw [← unpadded_lowercase_iff, heq]
  exact unpadded_foldName name

/-- What an alias does. A key whose name differs from the host's in more than case and white space keeps its
name. A key whose name differs in case alone takes the alias if the host's name has no white space around it,
or is blank; otherwise the alias names no key at all. And the last of several aliases for one name counts,
whatever others there are. -/
theorem alias_names_keys (n : Normalizer) (host key : String) :
    let m := n.withAlias host key
    (∀ name, trim (lower name.toList) ≠ trim (lower host.toList) → m.keyName name = n.keyName name) ∧
      (Unpadded host → ∀ name, lowercase name = lowercase host → m.keyName name = lowercase key) ∧
      (¬ Unpadded host → ∀ name, m.keyName name = n.keyName name) ∧
      (Unpadded host → ∀ earlier later, (∀ entry ∈ later, lowercase entry.1 ≠ lowercase host) →
        ∀ name, lowercase name = lowercase host →
          (n.withAliases (earlier ++ (host, key) :: later)).keyName name = lowercase key) := by
  -- a name that is spelled like an unpadded one up to case is folded to what the alias is kept under
  have hfound : Unpadded host → ∀ name, lowercase name = lowercase host → lowercase host = foldName name := by
    intro hhost name hname
    have hunpadded : Unpadded name := by
      rw [← unpadded_lowercase_iff, hname]
      exact unpadded_lowercase_iff.2 hhost
    rw [foldName_eq_lowercase hunpadded, hname]
  refine ⟨?_, ?_, ?_, ?_⟩
  · intro name hname
    rw [keyName_withAlias, if_neg]
    intro heq
    apply hname
    rw [← trim_foldName, ← heq, toList_lowercase]
  · intro hhost name hname
    rw [keyName_withAlias, if_pos (hfound hhost name hname)]
  · intro hhost name
    rw [keyName_withAlias, if_neg (lowercase_ne_foldName hhost name)]
  · intro hhost earlier later hlater name hname
    have hfold := hfound hhost name hname
    have hnone : later.reverse.find? (fun entry => lowercase entry.1 = foldName name) = none := by
      rw [List.find?_eq_none]
      intro entry hentry
      simpa [← hfold] using hlater entry (List.mem_reverse.1 hentry)
    rw [keyName_withAliases, List.reverse_append, List.reverse_cons, List.append_assoc, List.find?_append,
      hnone, Option.none_or, List.singleton_append, List.find?_cons_of_pos (by simpa using hfold)]
    rfl

/-- The second of two aliases for one key names it, in capitals too. -/
theorem alias_names_suppr :
    Unpadded "Suppr" ∧
      (standard.withAliases [("SUPPR", "erase"), ("F1", "help"), ("Suppr", "Del"), ("F2", "rename")]).keyName
        "sUPPR" = "del" := by
  have hhost : Unpadded "Suppr" := by decide +kernel
  obtain ⟨-, -, -, hlast⟩ := alias_names_keys standard "Suppr" "Del"
  refine ⟨hhost, ?_⟩
  have hnamed := hlast hhost [("SUPPR", "erase"), ("F1", "help")] [("F2", "rename")] (by decide +kernel)
    "sUPPR" (by decide +kernel)
  exact hnamed.trans (by decide +kernel)

/-- A host that calls a key by a name with a blank in front of it cannot have an alias for it. -/
theorem paddedAlias_not_found :
    ¬ ∀ (n : Normalizer) (host key name : String), lowercase name = lowercase host →
      (n.withAlias host key).keyName name = lowercase key := by
  intro h
  have hnamed : (standard.withAlias " F13" "play").keyName " F13" = lowercase "play" := h _ _ _ _ rfl
  exact absurd hnamed (by decide +kernel)

end Normalizer

end ModeTree
