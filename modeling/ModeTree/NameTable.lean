/-!
# Name tables

A finite map from names, kept as a list of entries in ascending order of code points. Looking a name
up after an insertion or a removal is decided by `get?_insert` and `get?_erase`, and the entries are
the answers (`mem_entries_iff`).
-/

namespace ModeTree

universe u

variable {α : Type u}

/-- Entries in ascending order of their names, each name once. -/
structure NameTable (α : Type u) where
  entries : List (String × α)
  ascending : entries.Pairwise fun a b => a.1 < b.1

namespace NameTable

instance [DecidableEq α] : DecidableEq (NameTable α) := fun s t =>
  decidable_of_iff (s.entries = t.entries) (by cases s; cases t; simp)

instance [Repr α] : Repr (NameTable α) := ⟨fun t => reprPrec t.entries⟩

/-- The table without entries. -/
def empty : NameTable α := ⟨[], .nil⟩

instance : Inhabited (NameTable α) := ⟨empty⟩

/-- Entries with one more name, or with a new value for a name that is there already. -/
def insertEntry (name : String) (value : α) : List (String × α) → List (String × α)
  | [] => [(name, value)]
  | e :: rest =>
    if name < e.1 then (name, value) :: e :: rest
    else if name = e.1 then (name, value) :: rest
    else e :: insertEntry name value rest

/-- Value of the first entry with the given name. -/
def findEntry (name : String) : List (String × α) → Option α
  | [] => none
  | e :: rest => if e.1 = name then some e.2 else findEntry name rest

theorem mem_insertEntry {name : String} {value : α} {e : String × α} {es : List (String × α)}
    (h : e ∈ insertEntry name value es) : e = (name, value) ∨ e ∈ es := by
  induction es with
  | nil => simpa [insertEntry] using h
  | cons d rest ih =>
    simp only [insertEntry] at h
    split at h
    · simpa using h
    · split at h
      · rcases List.mem_cons.1 h with h | h
        · exact .inl h
        · exact .inr (List.mem_cons_of_mem _ h)
      · rcases List.mem_cons.1 h with h | h
        · exact .inr (h ▸ List.mem_cons_self)
        · exact (ih h).imp id (List.mem_cons_of_mem _)

theorem lt_of_not_lt_of_ne {a b : String} (h : ¬ a < b) (hne : a ≠ b) : b < a :=
  Std.lt_of_le_of_ne (Std.not_lt.1 h) (Ne.symm hne)

theorem pairwise_insertEntry (name : String) (value : α) {es : List (String × α)}
    (h : es.Pairwise fun a b => a.1 < b.1) :
    (insertEntry name value es).Pairwise fun a b => a.1 < b.1 := by
  induction es with
  | nil => simp [insertEntry]
  | cons d rest ih =>
    obtain ⟨hd, hrest⟩ := List.pairwise_cons.1 h
    simp only [insertEntry]
    split
    · next hlt =>
      refine List.pairwise_cons.2 ⟨fun e he => ?_, h⟩
      rcases List.mem_cons.1 he with rfl | he
      · exact hlt
      · exact Std.lt_trans hlt (hd e he)
    · next hlt =>
      split
      · next heq => exact List.pairwise_cons.2 ⟨fun e he => heq ▸ hd e he, hrest⟩
      · next hne =>
        refine List.pairwise_cons.2 ⟨fun e he => ?_, ih hrest⟩
        rcases mem_insertEntry he with rfl | he
        · exact lt_of_not_lt_of_ne hlt hne
        · exact hd e he

theorem findEntry_insertEntry (name other : String) (value : α) (es : List (String × α)) :
    findEntry other (insertEntry name value es) =
      if name = other then some value else findEntry other es := by
  induction es with
  | nil => simp [insertEntry, findEntry]
  | cons d rest ih =>
    simp only [insertEntry]
    split
    · simp [findEntry]
    · split
      · next heq => by_cases ho : name = other <;> simp_all [findEntry]
      · next hne =>
        by_cases hd : d.1 = other
        · have : name ≠ other := fun hn => hne (hn.trans hd.symm)
          simp [findEntry, hd, this]
        · simp [findEntry, hd, ih]

theorem findEntry_eq_none_iff (name : String) (es : List (String × α)) :
    findEntry name es = none ↔ ∀ e ∈ es, e.1 ≠ name := by
  induction es with
  | nil => simp [findEntry]
  | cons d rest ih => by_cases hd : d.1 = name <;> simp [findEntry, hd, ih]

theorem mem_of_findEntry {name : String} {value : α} {es : List (String × α)}
    (h : findEntry name es = some value) : (name, value) ∈ es := by
  induction es with
  | nil => simp [findEntry] at h
  | cons d rest ih =>
    simp only [findEntry] at h
    split at h
    · next hd =>
      obtain rfl : d.2 = value := by simpa using h
      simp [← hd]
    · exact List.mem_cons_of_mem _ (ih h)

/-- The table with `name` mapped to `value`. -/
def insert (t : NameTable α) (name : String) (value : α) : NameTable α :=
  ⟨insertEntry name value t.entries, pairwise_insertEntry name value t.ascending⟩

/-- The table without `name`. -/
def erase (t : NameTable α) (name : String) : NameTable α :=
  ⟨t.entries.filter fun e => e.1 != name, t.ascending.filter _⟩

/-- The value of a name. -/
def get? (t : NameTable α) (name : String) : Option α := findEntry name t.entries

/-- Whether a name has a value. -/
def contains (t : NameTable α) (name : String) : Bool := (t.get? name).isSome

/-- The names in ascending order. -/
def names (t : NameTable α) : List String := t.entries.map (·.1)

/-- The number of names. -/
def size (t : NameTable α) : Nat := t.entries.length

/-- Whether there are no names. -/
def isEmpty (t : NameTable α) : Bool := t.entries.isEmpty

/-- The table of a list of entries; of several entries with one name the last counts. -/
def ofList (es : List (String × α)) : NameTable α :=
  es.foldl (fun t e => t.insert e.1 e.2) empty

theorem get?_insert (t : NameTable α) (name other : String) (value : α) :
    (t.insert name value).get? other = if name = other then some value else t.get? other :=
  findEntry_insertEntry name other value t.entries

@[simp] theorem get?_empty (name : String) : (empty : NameTable α).get? name = none := rfl

theorem get?_erase (t : NameTable α) (name other : String) :
    (t.erase name).get? other = if name = other then none else t.get? other := by
  obtain ⟨es, h⟩ := t
  show findEntry other (es.filter fun e => e.1 != name) =
    if name = other then none else findEntry other es
  clear h
  induction es with
  | nil => simp [findEntry]
  | cons d rest ih =>
    by_cases hd : d.1 = name
    · by_cases ho : name = other
      · simp_all
      · have : d.1 ≠ other := fun h => ho (hd.symm.trans h)
        simp_all [findEntry]
    · have hkeep : (d.1 != name) = true := by simpa using hd
      have hcons : ((d :: rest).filter fun e => e.1 != name) = d :: rest.filter fun e => e.1 != name :=
        List.filter_cons_of_pos hkeep
      rw [hcons]
      by_cases ho : d.1 = other
      · have : name ≠ other := fun h => hd (ho.trans h.symm)
        simp [findEntry, ho, this]
      · simp [findEntry, ho, ih]

theorem mem_entries_iff (t : NameTable α) (name : String) (value : α) :
    (name, value) ∈ t.entries ↔ t.get? name = some value := by
  obtain ⟨es, h⟩ := t
  refine ⟨fun hmem => ?_, mem_of_findEntry⟩
  show findEntry name es = some value
  induction es with
  | nil => simp at hmem
  | cons d rest ih =>
    obtain ⟨hd, hrest⟩ := List.pairwise_cons.1 h
    rcases List.mem_cons.1 hmem with rfl | hmem
    · simp [findEntry]
    · have : d.1 ≠ name := fun heq => by
        have := hd _ hmem
        rw [heq] at this
        exact Std.lt_irrefl this
      simp [findEntry, this, ih hrest hmem]

theorem mem_names_iff (t : NameTable α) (name : String) :
    name ∈ t.names ↔ t.contains name = true := by
  simp only [names, List.mem_map, contains, Option.isSome_iff_exists]
  constructor
  · rintro ⟨⟨n, v⟩, hmem, rfl⟩
    exact ⟨v, (t.mem_entries_iff n v).1 hmem⟩
  · rintro ⟨v, hv⟩
    exact ⟨(name, v), (t.mem_entries_iff name v).2 hv, rfl⟩

theorem names_ascending (t : NameTable α) : t.names.Pairwise (· < ·) :=
  t.ascending.map _ fun _ _ h => h

end NameTable

end ModeTree
