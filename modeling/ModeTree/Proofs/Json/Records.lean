import ModeTree.Document.Codec
import ModeTree.Proofs.Json.Text
import ModeTree.Proofs.NameTable

/-!
# Values that are read back

A decoder answers with `a` for a value that was written for `a` (`IsReadAs`): lists, tables and records are
read back when their parts are. The fields of a record are written in their declared order, some of them left
out (`WrittenAs`), so its row holds the fields that were written and nothing else (`WrittenAs.row?_eq`).
-/

set_option autoImplicit false

namespace ModeTree.Json

variable {α : Type}

/-- A value with a text that is read as `a`. -/
structure IsReadAs (decode : Json → Option α) (v : Json) (a : α) : Prop where
  legible : v.Legible
  decode_eq : decode v = some a

/-- Reading the text of a value gives what the value gives. -/
theorem IsReadAs.parse {decode : Json → Option α} {v : Json} {a : α} (h : IsReadAs decode v a) :
    (Json.parse v.compact).bind decode = some a := by
  rw [parse_compact h.legible, Option.bind_some, h.decode_eq]

theorem isReadAs_text (s : String) : IsReadAs string? (.text s) s := ⟨.str _, rfl⟩

theorem isReadAs_size {n : Nat} (h : n < Nat.pow 2 64) : IsReadAs size? (.nat n) n := by
  refine ⟨.nat n, ?_⟩
  simpa [size?, natBelow?, nat] using h

/-! ## Lists and tables -/

/-- A list is read back when each item is. -/
theorem mapM_map_eq_some_of_mem {β : Type} {write : α → β} {read : β → Option α} {as : List α}
    (h : ∀ a ∈ as, read (write a) = some a) : (as.map write).mapM read = some as := by
  induction as with
  | nil => rfl
  | cons a as ih =>
      obtain ⟨ha, has⟩ := List.forall_mem_cons.1 h
      rw [List.map_cons, List.mapM_cons, ha, ih has]
      rfl

theorem mapM_map_eq_some {β : Type} {write : α → β} {read : β → Option α}
    (h : ∀ a, read (write a) = some a) (as : List α) : (as.map write).mapM read = some as :=
  mapM_map_eq_some_of_mem fun a _ => h a

theorem named?_record (cells : List (String × Json)) :
    named? (cells.map fun c => (some c.1, c.2)) = some cells := by
  refine mapM_map_eq_some (fun c => ?_) cells
  rfl

theorem legible_record {cells : List (String × Json)} (h : ∀ c ∈ cells, c.2.Legible) :
    Legible (.record cells) := by
  refine .obj fun m hm => ?_
  obtain ⟨c, hc, rfl⟩ := List.mem_map.1 hm
  exact h c hc

section Collections

variable {encode : α → Json} {decode : Json → Option α}

theorem isReadAs_list_of_mem {as : List α} (h : ∀ a ∈ as, IsReadAs decode (encode a) a) :
    IsReadAs (list? decode) (.arr (as.map encode)) as := by
  refine ⟨.arr fun v hv => ?_, mapM_map_eq_some_of_mem fun a ha => (h a ha).decode_eq⟩
  obtain ⟨a, ha, rfl⟩ := List.mem_map.1 hv
  exact (h a ha).legible

theorem isReadAs_list (h : ∀ a, IsReadAs decode (encode a) a) (as : List α) :
    IsReadAs (list? decode) (.arr (as.map encode)) as :=
  isReadAs_list_of_mem fun a _ => h a

theorem isReadAs_table (h : ∀ a, IsReadAs decode (encode a) a) (t : NameTable α) :
    IsReadAs (table? decode) (table encode t) t := by
  refine ⟨legible_record fun c hc => ?_, ?_⟩
  · obtain ⟨e, -, rfl⟩ := List.mem_map.1 hc
    exact (h e.2).legible
  · have hentries : (t.entries.map fun e => (e.1, encode e.2)).mapM (fun m => (decode m.2).map (m.1, ·)) =
        some t.entries := mapM_map_eq_some (fun e => by rw [(h e.2).decode_eq]; rfl) t.entries
    rw [table, record, table?, named?_record]
    simp only [Option.bind_eq_bind, Option.bind_some, hentries, NameTable.ofList_entries, Option.pure_def]

/-- A value or `null`; the values themselves are not `null`. -/
theorem isReadAs_nullable (h : ∀ a, IsReadAs decode (encode a) a) (hvalue : ∀ a, encode a ≠ .null)
    (o : Option α) : IsReadAs (nullable? decode) (nullable encode o) o := by
  cases o with
  | none => exact ⟨.null, rfl⟩
  | some a =>
      refine ⟨(h a).legible, ?_⟩
      rw [nullable, nullable?, (h a).decode_eq, Option.map_some]
      exact hvalue a

end Collections

/-! ## Members of a table -/

/-- A member as an entry of a table. -/
def member? (read : Json → Option α) (m : Option String × Json) : Option (String × α) :=
  m.1.bind fun name => (read m.2).map (name, ·)

theorem table?_obj (read : Json → Option α) (members : List (Option String × Json)) :
    table? read (.obj members) = (members.mapM (member? read)).map .ofList := by
  -- names are asked for in a first pass, but a table is read only if both passes succeed
  have hpasses : ((named? members).bind fun ms => ms.mapM fun m => (read m.2).map (m.1, ·)) =
      members.mapM (member? read) := by
    induction members with
    | nil => rfl
    | cons m members ih =>
        rw [List.mapM_cons, ← ih, named?, List.mapM_cons, member?]
        cases m.1 with
        | none => rfl
        | some name =>
            cases hms : members.mapM fun m => m.1.map (·, m.2) <;> cases hread : read m.2 <;>
              simp [named?, hms, hread, List.mapM_cons]
  rw [← hpasses]
  simp only [table?, Option.bind_eq_bind, Option.pure_def, Option.map_eq_bind, Option.bind_assoc]
  rfl

/-- What was read of a list was read of each of its items. -/
theorem exists_of_mem_mapM {β : Type} {read : β → Option α} {bs : List β} {as : List α}
    (h : bs.mapM read = some as) {b : β} (hmem : b ∈ bs) : ∃ a, read b = some a := by
  induction bs generalizing as with
  | nil => cases hmem
  | cons b' bs ih =>
      rw [List.mapM_cons] at h
      obtain ⟨a, ha, hrest⟩ := Option.bind_eq_some_iff.1 h
      obtain ⟨as', has, -⟩ := Option.bind_eq_some_iff.1 hrest
      rcases List.mem_cons.1 hmem with rfl | hmem
      · exact ⟨a, ha⟩
      · exact ih has hmem

/-- What was read of a table was read of each of its members. -/
theorem exists_of_mem_table? {read : Json → Option α} {members : List (Option String × Json)} {t : NameTable α}
    (h : table? read (.obj members) = some t) {key : Option String} {v : Json} (hmem : (key, v) ∈ members) :
    ∃ a, read v = some a := by
  rw [table?_obj] at h
  obtain ⟨entries, hentries, -⟩ := Option.map_eq_some_iff.1 h
  obtain ⟨e, he⟩ := exists_of_mem_mapM hentries hmem
  obtain ⟨name, -, hvalue⟩ := Option.bind_eq_some_iff.1 he
  obtain ⟨a, ha, -⟩ := Option.map_eq_some_iff.1 hvalue
  exact ⟨a, ha⟩

theorem keys_of_mapM {read : Json → Option α} {members : List (Option String × Json)}
    {entries : List (String × α)} (h : members.mapM (member? read) = some entries) :
    members.map Prod.fst = entries.map fun e => some e.1 := by
  induction members generalizing entries with
  | nil =>
      obtain rfl : [] = entries := by simpa using h
      rfl
  | cons m members ih =>
      rw [List.mapM_cons] at h
      obtain ⟨e, he, hrest⟩ := Option.bind_eq_some_iff.1 h
      obtain ⟨es, hes, heq⟩ := Option.bind_eq_some_iff.1 hrest
      obtain rfl : e :: es = entries := by simpa using heq
      obtain ⟨name, hname, hvalue⟩ := Option.bind_eq_some_iff.1 he
      obtain ⟨value, -, rfl⟩ := Option.map_eq_some_iff.1 hvalue
      rw [List.map_cons, List.map_cons, ih hes, hname]

/-! ## Records -/

/-- Cells of a record: each of the fields once at most, in the declared order, with values that have a text. -/
structure WrittenAs (fields : List String) (cells : List (String × Json)) : Prop where
  names : (cells.map Prod.fst).Sublist fields
  legible : ∀ c ∈ cells, c.2.Legible

namespace WrittenAs

variable {field : String} {fields : List String} {cells : List (String × Json)}

theorem nil : WrittenAs [] [] := ⟨.slnil, nofun⟩

theorem skip (h : WrittenAs fields cells) (field : String) : WrittenAs (field :: fields) cells :=
  ⟨.cons field h.names, h.legible⟩

theorem cons (h : WrittenAs fields cells) (field : String) {v : Json} (hv : v.Legible) :
    WrittenAs (field :: fields) ((field, v) :: cells) :=
  ⟨.cons_cons field h.names, List.forall_mem_cons.2 ⟨hv, h.legible⟩⟩

theorem present (h : WrittenAs fields cells) (field : String) {encode : α → Json}
    (hv : ∀ a, (encode a).Legible) (o : Option α) :
    WrittenAs (field :: fields) (Json.present field encode o ++ cells) := by
  cases o with
  | none => exact h.skip field
  | some a => exact h.cons field (hv a)

theorem unlessEmpty (h : WrittenAs fields cells) (field : String) {items : List Json}
    (hv : Legible (.arr items)) : WrittenAs (field :: fields) (Json.unlessEmpty field items ++ cells) := by
  cases items with
  | nil => exact h.skip field
  | cons v items => exact h.cons field hv

/-- A record that was written has the row of its cells. -/
theorem row?_eq (h : WrittenAs fields cells) (hnodup : fields.Nodup) (closed : Bool) :
    (record cells).row? fields closed = some ⟨false, cells⟩ := by
  have hknown : (cells.filter fun c => fields.contains c.1) = cells := by
    refine List.filter_eq_self.2 fun c hc => ?_
    simpa using h.names.subset (List.mem_map_of_mem hc)
  have hdistinct : (cells.map (·.1)).Nodup := h.names.nodup hnodup
  simp only [record, row?, named?_record, Option.bind_eq_bind, Option.bind_some, hknown, bne_self_eq_false,
    Bool.and_false, decide_eq_true hdistinct]
  rfl

end WrittenAs

/-! ## Fields -/

namespace Row

@[simp] theorem find?_nil (positional : Bool) (name : String) : find? ⟨positional, []⟩ name = none := rfl

@[simp] theorem find?_cons (positional : Bool) (c : String × Json) (cells : List (String × Json))
    (name : String) :
    find? ⟨positional, c :: cells⟩ name = if c.1 = name then some c.2 else find? ⟨positional, cells⟩ name :=
  rfl

@[simp] theorem find?_append (positional : Bool) (cells cells' : List (String × Json)) (name : String) :
    find? ⟨positional, cells ++ cells'⟩ name =
      (find? ⟨positional, cells⟩ name).or (find? ⟨positional, cells'⟩ name) :=
  NameTable.findEntry_append name cells cells'

@[simp] theorem find?_present (positional : Bool) (name field : String) (encode : α → Json) (o : Option α) :
    find? ⟨positional, present field encode o⟩ name = if field = name then o.map encode else none := by
  cases o <;> simp [present]

@[simp] theorem find?_unlessEmpty (positional : Bool) (name field : String) (items : List Json) :
    find? ⟨positional, unlessEmpty field items⟩ name =
      if field = name ∧ items ≠ [] then some (.arr items) else none := by
  cases items <;> simp [unlessEmpty]

variable {row : Row} {field : String} {encode : α → Json} {decode : Json → Option α}

/-- A field with a default that is written all the same. -/
theorem defaulted_eq {v : Json} {a fallback : α} (hfind : row.find? field = some v) (h : IsReadAs decode v a) :
    row.defaulted field decode fallback = some a := by
  rw [defaulted, hfind]
  exact h.decode_eq

/-- A value that is left out where there is none. -/
theorem defaulted_present {o : Option α} (hfind : row.find? field = o.map encode)
    (h : ∀ a, IsReadAs decode (encode a) a) (hvalue : ∀ a, encode a ≠ .null) :
    row.defaulted field (nullable? decode) none = some o := by
  rw [defaulted, hfind]
  cases o with
  | none => rfl
  | some a => exact (isReadAs_nullable h hvalue (some a)).decode_eq

/-- A list that is left out where it has no items. -/
theorem defaulted_unlessEmpty {as : List α}
    (hfind : row.find? field = if as ≠ [] then some (.arr (as.map encode)) else none)
    (h : ∀ a, IsReadAs decode (encode a) a) : row.defaulted field (list? decode) [] = some as := by
  rw [defaulted, hfind]
  cases as with
  | nil => rfl
  | cons a as => exact (isReadAs_list h (a :: as)).decode_eq

end Row

end ModeTree.Json
