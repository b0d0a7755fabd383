import ModeTree.Proofs.Json.Records

/-!
# Keys of objects

A closed record that is written as an object has no keys but its fields (`exists_field_of_row?`), while an open one
is read as if the others were not there (`row?_dropStrays`). To change the value of one member is to change one
cell of the row (`row?_mapMember`), so a record is read as before when the field is.
-/

set_option autoImplicit false

namespace ModeTree.Json

variable {α : Type}

/-! ## Rows of objects -/

theorem named?_cons (key : Option String) (v : Json) (members : List (Option String × Json)) :
    named? ((key, v) :: members) = key.bind fun name => (named? members).map ((name, v) :: ·) := by
  rw [named?, List.mapM_cons]
  cases key with
  | none => rfl
  | some name =>
      show (named? members).bind _ = _
      cases named? members <;> rfl

theorem named?_eq_some_iff {members : List (Option String × Json)} {cells : List (String × Json)} :
    named? members = some cells ↔ members = cells.map fun c => (some c.1, c.2) := by
  constructor
  · intro h
    induction members generalizing cells with
    | nil =>
        obtain rfl : [] = cells := by simpa [named?] using h
        rfl
    | cons m members ih =>
        rw [named?_cons] at h
        obtain ⟨name, hname, hrest⟩ := Option.bind_eq_some_iff.1 h
        obtain ⟨cs, hcs, rfl⟩ := Option.map_eq_some_iff.1 hrest
        rw [List.map_cons, ← ih hcs, ← hname]
  · rintro rfl
    exact named?_record cells

/-- The row of an object: its keys have a text, they are fields if the record is closed, and no field comes
twice. -/
theorem row?_obj_eq_some {fields : List String} {closed : Bool} {members : List (Option String × Json)} {row : Row}
    (h : (obj members).row? fields closed = some row) :
    ∃ cells : List (String × Json), members = cells.map (fun c => (some c.1, c.2)) ∧
      (closed = true → ∀ c ∈ cells, fields.contains c.1 = true) ∧
      row = ⟨false, cells.filter fun c => fields.contains c.1⟩ ∧ (row.cells.map Prod.fst).Nodup := by
  obtain ⟨cells, hnamed, h⟩ := Option.bind_eq_some_iff.1 h
  refine ⟨cells, named?_eq_some_iff.1 hnamed, ?_⟩
  dsimp only at h
  split at h
  · cases h
  · next hopen =>
    split at h
    · cases h
    · next hnodup =>
      obtain rfl : (⟨false, cells.filter fun c => fields.contains c.1⟩ : Row) = row := by simpa using h
      refine ⟨fun hclosed => ?_, rfl, by simpa using hnodup⟩
      have hlength : (cells.filter fun c => fields.contains c.1).length = cells.length := by
        simpa [hclosed] using hopen
      exact List.length_filter_eq_length_iff.1 hlength

/-- A closed record has no keys but its fields. -/
theorem exists_field_of_row? {fields : List String} {members : List (Option String × Json)} {row : Row}
    (h : (obj members).row? fields true = some row) {key : Option String} (hkey : key ∈ members.map Prod.fst) :
    ∃ field ∈ fields, key = some field := by
  obtain ⟨cells, rfl, hfields, -, -⟩ := row?_obj_eq_some h
  rw [List.map_map] at hkey
  obtain ⟨c, hc, rfl⟩ := List.mem_map.1 hkey
  exact ⟨c.1, List.contains_iff_mem.1 (hfields rfl c hc), rfl⟩

/-- What stands under a field is what is read for it. -/
theorem find?_of_row? {fields : List String} {closed : Bool} {members : List (Option String × Json)} {row : Row}
    (h : (obj members).row? fields closed = some row) {field : String} {v : Json}
    (hmem : (some field, v) ∈ members) (hfield : field ∈ fields) : row.find? field = some v := by
  obtain ⟨cells, rfl, -, rfl, hnodup⟩ := row?_obj_eq_some h
  obtain ⟨c, hc, heq⟩ := List.mem_map.1 hmem
  obtain ⟨rfl, rfl⟩ : c.1 = field ∧ c.2 = v := by simpa using heq
  refine NameTable.findEntry_of_mem hnodup (List.mem_filter.2 ⟨hc, ?_⟩)
  exact List.contains_iff_mem.2 hfield

/-! ## Objects with changes -/

/-- Changes the value of the members with one key. -/
def mapMember (key : String) (f : Json → Json) : Json → Json
  | obj members => obj (members.map fun m => (m.1, if m.1 = some key then f m.2 else m.2))
  | v => v

/-- Changes the values of all members. -/
def mapMembers (f : Json → Json) : Json → Json
  | obj members => obj (members.map fun m => (m.1, f m.2))
  | v => v

/-- Leaves out the members whose keys are no fields. -/
def dropStrays (fields : List String) : Json → Json
  | obj members => obj (members.filter fun m => m.1.all fields.contains)
  | v => v

/-- Changes the cell of one field. -/
def Row.mapCell (field : String) (f : Json → Json) (row : Row) : Row :=
  { row with cells := row.cells.map fun c => (c.1, if c.1 = field then f c.2 else c.2) }

theorem named?_map (g : Option String → Json → Json) (members : List (Option String × Json)) :
    named? (members.map fun m => (m.1, g m.1 m.2)) =
      (named? members).map (List.map fun c => (c.1, g (some c.1) c.2)) := by
  induction members with
  | nil => rfl
  | cons m members ih =>
      obtain ⟨key, v⟩ := m
      rw [List.map_cons, named?_cons, named?_cons, ih]
      cases key with
      | none => rfl
      | some name => cases named? members <;> rfl

theorem row?_mapMember (fields : List String) (closed : Bool) (key : String) (f : Json → Json)
    (members : List (Option String × Json)) :
    (mapMember key f (obj members)).row? fields closed =
      ((obj members).row? fields closed).map (Row.mapCell key f) := by
  have hnamed := named?_map (fun k v => if k = some key then f v else v) members
  simp only [mapMember, row?, hnamed, Option.bind_eq_bind, Option.pure_def]
  cases named? members with
  | none => rfl
  | some cells =>
      -- the keys of the cells stay as they are
      have hkeys : ((cells.map fun c => (c.1, if some c.1 = some key then f c.2 else c.2)).filter
          fun c => fields.contains c.1) = (cells.filter fun c => fields.contains c.1).map
          fun c => (c.1, if some c.1 = some key then f c.2 else c.2) := List.filter_map
      simp only [Option.map_some, Option.bind_some, hkeys, List.length_map, List.map_map, Function.comp_def]
      split
      · rfl
      · split
        · rfl
        · simp [Row.mapCell]

theorem eq_of_mem_mapMember {key : String} {f : Json → Json} {v : Json} {members : List (Option String × Json)}
    (h : mapMember key f v = obj members) {w : Json} (hmem : (some key, w) ∈ members) : ∃ w', w = f w' := by
  cases v with
  | obj olds =>
      obtain rfl : olds.map _ = members := obj.inj h
      obtain ⟨m, -, heq⟩ := List.mem_map.1 hmem
      obtain ⟨hkey, hvalue⟩ := Prod.mk.inj heq
      exact ⟨m.2, hvalue.symm.trans (if_pos hkey)⟩
  | _ => cases h

theorem eq_of_mem_mapMembers {f : Json → Json} {v : Json} {members : List (Option String × Json)}
    (h : mapMembers f v = obj members) {key : Option String} {w : Json} (hmem : (key, w) ∈ members) :
    ∃ w', w = f w' := by
  cases v with
  | obj olds =>
      obtain rfl : olds.map _ = members := obj.inj h
      obtain ⟨m, -, heq⟩ := List.mem_map.1 hmem
      exact ⟨m.2, (Prod.mk.inj heq).2.symm⟩
  | _ => cases h

theorem mem_of_dropStrays {fields : List String} {v : Json} {members : List (Option String × Json)}
    (h : dropStrays fields v = obj members) {name : String} (hname : some name ∈ members.map Prod.fst) :
    name ∈ fields := by
  cases v with
  | obj olds =>
      obtain rfl : olds.filter _ = members := obj.inj h
      obtain ⟨m, hm, hkey⟩ := List.mem_map.1 hname
      obtain ⟨-, hfield⟩ := List.mem_filter.1 hm
      rw [hkey] at hfield
      exact List.contains_iff_mem.1 hfield
  | _ => cases h

theorem Row.find?_mapCell (field other : String) (f : Json → Json) (row : Row) :
    (row.mapCell field f).find? other = if other = field then (row.find? other).map f else row.find? other := by
  obtain ⟨positional, cells⟩ := row
  induction cells with
  | nil => simp [mapCell, find?, NameTable.findEntry]
  | cons c cells ih =>
      simp only [mapCell, find?, List.map_cons, NameTable.findEntry] at ih ⊢
      by_cases hother : c.1 = other
      · subst hother
        by_cases hfield : c.1 = field <;> simp [hfield]
      · rw [if_neg hother, if_neg hother, ih]

theorem Row.required_mapCell {field other : String} {f : Json → Json} {read : Json → Option α}
    (h : other = field → ∀ v, read (f v) = read v) (row : Row) :
    (row.mapCell field f).required other read = row.required other read := by
  rw [required, required, find?_mapCell]
  by_cases heq : other = field
  · cases row.find? other <;> simp [h heq, if_pos heq]
  · rw [if_neg heq]

theorem Row.defaulted_mapCell {field other : String} {f : Json → Json} {read : Json → Option α}
    (h : other = field → ∀ v, read (f v) = read v) (row : Row) (fallback : α) :
    (row.mapCell field f).defaulted other read fallback = row.defaulted other read fallback := by
  rw [defaulted, defaulted, find?_mapCell]
  by_cases heq : other = field
  · cases row.find? other <;> simp [h heq, if_pos heq]
  · rw [if_neg heq]

/-- A table is read as before when its values are. -/
theorem table?_mapMembers {f : Json → Json} {read : Json → Option α} (h : ∀ v, read (f v) = read v) (v : Json) :
    table? read (mapMembers f v) = table? read v := by
  cases v with
  | obj members =>
      have hmember : member? read ∘ (fun m => (m.1, f m.2)) = member? read := by
        funext m
        rw [Function.comp, member?, member?, h]
      rw [mapMembers, table?_obj, table?_obj, List.mapM_map, hmember]
  | _ => rfl

/-- A key without a text stays, for an object with such a key is not a record. -/
theorem named?_filter (p : String → Bool) (members : List (Option String × Json)) :
    named? (members.filter fun m => m.1.all p) = (named? members).map (List.filter fun c => p c.1) := by
  induction members with
  | nil => rfl
  | cons m members ih =>
      obtain ⟨key, v⟩ := m
      cases key with
      | none => simp [named?_cons]
      | some name =>
          cases hp : p name with
          | false =>
              rw [List.filter_cons_of_neg (by simp [hp]), ih, named?_cons]
              cases named? members <;> simp [hp]
          | true =>
              rw [List.filter_cons_of_pos (by simp [hp]), named?_cons, ih, named?_cons]
              cases named? members <;> simp [hp]

/-- An open record is read without the keys that are no fields. -/
theorem row?_dropStrays (fields : List String) (v : Json) :
    (dropStrays fields v).row? fields false = v.row? fields false := by
  cases v with
  | obj members =>
      simp only [dropStrays, row?, named?_filter, Option.bind_eq_bind, Bool.false_and]
      cases named? members with
      | none => rfl
      | some cells => simp [List.filter_filter]
  | _ => rfl

end ModeTree.Json
