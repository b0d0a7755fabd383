import ModeTree.History.Codec
import ModeTree.Proofs.Document.RoundTrip
import ModeTree.Proofs.Time.Spelling

/-!
# Histories are read back

A history whose numbers have 64 bits and whose instants are of the years 0 to 9999 is read back from its text, with
its capacity and with every change in its place (`text_readBack`). It may hold more changes than its capacity.
-/

set_option autoImplicit false

namespace ModeTree

open Json

theorem Instant.isReadAs {t : Instant} (h : t.IsCommon) : IsReadAs Instant.ofJson? t.toJson t := by
  refine ⟨legible_text t.text, ?_⟩
  rw [Instant.ofJson?, Instant.toJson, (isReadAs_text t.text).decode_eq, Option.bind_some,
    parse_of_spells (spells_text h)]

/-- A change whose depth has 64 bits and whose instant is of the years 0 to 9999. -/
structure ModeChange.IsCommon (c : ModeChange) : Prop where
  depth_lt : c.depth < Nat.pow 2 64
  timestamp : c.timestamp.IsCommon

theorem ModeChange.isReadAs {c : ModeChange} (h : c.IsCommon) : IsReadAs ModeChange.ofJson? c.toJson c := by
  have hdepth : IsReadAs size? (.nat c.depth) c.depth := isReadAs_size h.depth_lt
  have htime : IsReadAs Instant.ofJson? c.timestamp.toJson c.timestamp := Instant.isReadAs h.timestamp
  have hwritten : WrittenAs ["machine", "depth", "from", "to", "stimulus", "timestamp"]
      [("machine", text c.machine), ("depth", .nat c.depth), ("from", text c.source), ("to", text c.target),
        ("stimulus", text c.stimulus), ("timestamp", c.timestamp.toJson)] :=
    (((((WrittenAs.nil.cons "timestamp" htime.legible).cons "stimulus" (legible_text c.stimulus)).cons "to"
      (legible_text c.target)).cons "from" (legible_text c.source)).cons "depth" hdepth.legible).cons "machine"
      (legible_text c.machine)
  refine ⟨legible_record hwritten.legible, ?_⟩
  rw [toJson, ofJson?, hwritten.row?_eq (by decide)]
  simp [Row.required, (isReadAs_text _).decode_eq, hdepth.decode_eq, htime.decode_eq]

theorem History.isReadAs {h : History} (hcapacity : h.capacity < Nat.pow 2 64)
    (hchanges : ∀ c ∈ h.changes, c.IsCommon) : IsReadAs History.ofJson? h.toJson h := by
  have hsize : IsReadAs size? (.nat h.capacity) h.capacity := isReadAs_size hcapacity
  have hlist : IsReadAs (list? ModeChange.ofJson?) (.arr (h.changes.map ModeChange.toJson)) h.changes :=
    isReadAs_list_of_mem fun c hc => ModeChange.isReadAs (hchanges c hc)
  have hwritten : WrittenAs ["capacity", "changes"]
      [("capacity", .nat h.capacity), ("changes", .arr (h.changes.map ModeChange.toJson))] :=
    (WrittenAs.nil.cons "changes" hlist.legible).cons "capacity" hsize.legible
  refine ⟨legible_record hwritten.legible, ?_⟩
  rw [toJson, ofJson?, hwritten.row?_eq (by decide)]
  simp [Row.required, hsize.decode_eq, hlist.decode_eq]

/-- A history is read back from its text, in which every instant is spelled exactly and with the fewest digits. -/
theorem History.text_readBack {h : History} (hcapacity : h.capacity < Nat.pow 2 64)
    (hchanges : ∀ c ∈ h.changes, c.IsCommon) :
    (Json.parse h.toJson.compact).bind History.ofJson? = some h ∧
      ∀ c ∈ h.changes, c.timestamp.Spells c.timestamp.text.toList :=
  ⟨(History.isReadAs hcapacity hchanges).parse, fun c hc => Instant.spells_text (hchanges c hc).timestamp⟩

/-- A history with the first instant of the year 0, one of a leap day to the nanosecond, and the last millisecond
of the year 9999. It holds more changes than its capacity. -/
def History.wide : History :=
  ⟨2, [⟨"m", 0, "a", "b \"quoted\"", "x:down", ⟨-62167219200, 0⟩⟩,
    ⟨"m", 1, "b", "a", "x:up", ⟨951868799, 123456789⟩⟩, ⟨"", 0, "", "", "", ⟨253402300799, 999000000⟩⟩]⟩

theorem History.isCommon_wide : ∀ c ∈ History.wide.changes, c.IsCommon := by
  simp only [wide, List.forall_mem_cons]
  exact ⟨⟨by decide, by decide, by decide, by decide⟩, ⟨by decide, by decide, by decide, by decide⟩,
    ⟨by decide, by decide, by decide, by decide⟩, nofun⟩

/-- The history is read back. -/
theorem History.text_readBack_wide :
    History.wide.capacity < Nat.pow 2 64 ∧ (∀ c ∈ History.wide.changes, c.IsCommon) ∧
      (Json.parse History.wide.toJson.compact).bind History.ofJson? = some History.wide := by
  have hcapacity : History.wide.capacity < Nat.pow 2 64 := by decide
  exact ⟨hcapacity, isCommon_wide, (History.text_readBack hcapacity isCommon_wide).1⟩

end ModeTree
