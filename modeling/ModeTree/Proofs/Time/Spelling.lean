import ModeTree.Proofs.Time.Calendar
import ModeTree.Time.Instant

/-!
# Instants and their texts

The text of an instant of the years 0 to 9999 spells its date and its time of day with two digits for each part
and four for the year, and then the fewest of 0, 3, 6 and 9 digits that give its nanoseconds exactly
(`spells_text`). Whatever is spelled so is read as the instant (`parse_of_spells`).
-/

set_option autoImplicit false

namespace ModeTree.Instant

/-! ## Digits -/

/-- As many digits as given, that denote a number. -/
structure Denotes (width n : Nat) (ds : List Char) : Prop where
  length_eq : ds.length = width
  digits : ∀ c ∈ ds, c.isDigit = true
  value_eq : digitsValue ds = n

/-- A number below a power of ten is written with as many digits. -/
theorem denotes_padded {width n : Nat} (hwidth : 0 < width) (h : n < 10 ^ width) :
    Denotes width n (padded width n).toList := by
  have hlength : (Nat.toDigits 10 n).length ≤ width := (Nat.length_toDigits_le_iff (by decide) hwidth).2 h
  refine ⟨?_, ?_, ?_⟩
  · simp [padded]
    omega
  · intro c hc
    rw [padded, String.toList_ofList, List.mem_append, List.mem_replicate] at hc
    rcases hc with ⟨-, rfl⟩ | hc
    · rfl
    · exact Nat.isDigit_of_mem_toDigits (by decide) (by decide) hc
  · rw [digitsValue, padded, String.toList_ofList, Nat.ofDigitChars_append, Nat.ofDigitChars_replicate_zero,
      Nat.mul_zero, Nat.ofDigitChars_toDigits (by decide) (by decide)]

theorem not_isWhite_of_isDigit {c : Char} (h : c.isDigit = true) : Text.isWhite c = false := by
  obtain ⟨hlow, hhigh⟩ : 48 ≤ c.toNat ∧ c.toNat ≤ 57 := by simpa [Char.isDigit_iff_toNat] using h
  simp [Text.isWhite, Text.whiteRanges, Text.inRanges]
  omega

theorem Denotes.takeWhile_append {width n : Nat} {ds : List Char} (h : Denotes width n ds) (rest : List Char) :
    (ds ++ rest).takeWhile Char.isDigit = ds ++ rest.takeWhile Char.isDigit :=
  List.takeWhile_append_of_pos h.digits

/-- A number is read when it has all the digits that are looked at. -/
theorem Denotes.number? {width n : Nat} {ds : List Char} (h : Denotes width n ds) (hwidth : 0 < width)
    (rest : List Char) : number? width (ds ++ rest) = some (n, rest) := by
  have hne : ds ≠ [] := List.ne_nil_of_length_pos (h.length_eq ▸ hwidth)
  have htaken : ((ds ++ rest).takeWhile Char.isDigit).take width = ds := by
    rw [h.takeWhile_append, ← h.length_eq, List.take_left]
  rw [Instant.number?]
  simp [htaken, hne, h.value_eq]

/-- No white space stands in front of a number. -/
theorem Denotes.trimStart {width n : Nat} {ds : List Char} (h : Denotes width n ds) (hwidth : 0 < width)
    (rest : List Char) : Text.trimStart (ds ++ rest) = ds ++ rest := by
  cases ds with
  | nil => exact absurd h.length_eq hwidth.ne
  | cons c ds =>
      have hdigit : Text.isWhite c = false := not_isWhite_of_isDigit (h.digits c List.mem_cons_self)
      rw [Text.trimStart, List.cons_append, List.dropWhile_cons_of_neg (by simp [hdigit])]

theorem Denotes.field? {n : Nat} {ds : List Char} (h : Denotes 2 n ds) (rest : List Char) :
    field? (ds ++ rest) = some (n, rest) := by
  rw [Instant.field?, h.trimStart (by decide), h.number? (by decide)]

/-- A mark that is not white space is read as it stands. -/
theorem mark?_trimStart {c : Char} (h : Text.isWhite c = false) (rest : List Char) :
    mark? c (Text.trimStart (c :: rest)) = some rest := by
  rw [Text.trimStart, List.dropWhile_cons_of_neg (by simp [h]), mark?, if_pos rfl]

/-- A year of four digits has no sign. -/
theorem Denotes.year? {n : Nat} {ds : List Char} (h : Denotes 4 n ds) (rest : List Char) :
    year? (ds ++ rest) = some ((n : Int), rest) := by
  have hsign : ∀ c cs, c.isDigit = false → ds ++ rest ≠ c :: cs := by
    intro c cs hc heq
    cases ds with
    | nil => exact absurd h.length_eq (by decide)
    | cons d ds =>
        obtain ⟨rfl, -⟩ := List.cons.inj heq
        rw [h.digits d List.mem_cons_self] at hc
        cases hc
  rw [Instant.year?, h.trimStart (by decide)]
  split
  · next heq => exact absurd heq (hsign '-' _ rfl)
  · next heq => exact absurd heq (hsign '+' _ rfl)
  · rw [h.number? (by decide), Option.map_some]

/-! ## Fractions -/

/-- The digits behind the second: none, or three, six or nine, of which the last three are not all zero. -/
inductive IsFraction (nano : Nat) : List Char → Prop where
  | none (h : nano = 0) : IsFraction nano []
  | digits {groups n : Nat} {ds : List Char} (hgroups : 1 ≤ groups ∧ groups ≤ 3) (hds : Denotes (3 * groups) n ds)
      (hexact : n * 1000 ^ (3 - groups) = nano) (hfewest : n % 1000 ≠ 0) : IsFraction nano ('.' :: ds)

theorem isFraction_text {nano : Nat} (h : nano < billion) : IsFraction nano (fractionText nano).toList := by
  rw [billion] at h
  rw [fractionText]
  split
  · next hzero => exact .none hzero
  split
  · next hnano hmillion =>
    have hds : Denotes (3 * 1) (nano / 1000000) (padded 3 (nano / 1000000)).toList :=
      denotes_padded (by decide) (by omega)
    rw [String.toList_append]
    exact .digits (by decide) hds (by omega) (by omega)
  split
  · next hnano hmillion hthousand =>
    have hds : Denotes (3 * 2) (nano / 1000) (padded 6 (nano / 1000)).toList :=
      denotes_padded (by decide) (by omega)
    rw [String.toList_append]
    exact .digits (by decide) hds (by omega) (by omega)
  · next hnano hmillion hthousand =>
    have hds : Denotes (3 * 3) nano (padded 9 nano).toList := denotes_padded (by decide) (by omega)
    rw [String.toList_append]
    exact .digits (by decide) hds (by omega) hthousand

theorem IsFraction.fraction? {nano : Nat} {f : List Char} (h : IsFraction nano f) (rest : List Char) :
    fraction? (f ++ 'Z' :: rest) = some (nano, 'Z' :: rest) := by
  cases h with
  | none h => rw [h]; rfl
  | @digits groups n ds hgroups hds hexact hfewest =>
      have htake : (ds ++ 'Z' :: rest).takeWhile Char.isDigit = ds := by
        rw [hds.takeWhile_append]
        exact List.append_nil ds
      have hdrop : (ds ++ 'Z' :: rest).dropWhile Char.isDigit = 'Z' :: rest :=
        List.dropWhile_append_of_pos hds.digits
      have hne : ds ≠ [] := List.ne_nil_of_length_pos (by rw [hds.length_eq]; omega)
      have hcounted : ds.take 9 = ds := List.take_of_length_le (by rw [hds.length_eq]; omega)
      -- three digits are a thousandth
      have hscale : n * 10 ^ (9 - 3 * groups) = nano := by
        have hpower : 9 - 3 * groups = 3 * (3 - groups) := by omega
        rw [← hexact, hpower, Nat.pow_mul]
      rw [List.cons_append, Instant.fraction?]
      simp [htake, hdrop, hne, hcounted, hds.value_eq, hds.length_eq, hscale]

/-! ## Spelling -/

/-- A text spells an instant when it has its date and its time of day. -/
inductive Spells (t : Instant) : List Char → Prop where
  | intro {year month day hour minute second : Nat} {y mo d h mi s f : List Char} (hyear : year < 10000)
      (hvalid : (Date.mk year month day).IsValid) (hhour : hour < 24) (hminute : minute < 60)
      (hsecond : second < 60)
      (hinstant : t.second = (Date.mk year month day).dayNumber * daySeconds +
        (hour * 3600 + minute * 60 + second : Nat))
      (hy : Denotes 4 year y) (hmo : Denotes 2 month mo) (hd : Denotes 2 day d) (hh : Denotes 2 hour h)
      (hmi : Denotes 2 minute mi) (hs : Denotes 2 second s) (hf : IsFraction t.nano f) :
      Spells t (y ++ '-' :: (mo ++ '-' :: (d ++ 'T' :: (h ++ ':' :: (mi ++ ':' :: (s ++ (f ++ ['Z'])))))))

theorem date?_spelled {year month day : Nat} {y mo d : List Char} (hvalid : (Date.mk year month day).IsValid)
    (hy : Denotes 4 year y) (hmo : Denotes 2 month mo) (hd : Denotes 2 day d) (rest : List Char) :
    date? (y ++ '-' :: (mo ++ '-' :: (d ++ rest))) = some (⟨year, month, day⟩, rest) := by
  have hmark := fun rest => mark?_trimStart (c := '-') (by decide) rest
  simp only [date?, hy.year?, hmark, hmo.field?, hd.field?, Option.bind_eq_bind, Option.bind_some, if_pos hvalid]

theorem clock?_spelled {hour minute second nano : Nat} {h mi s f : List Char} (hhour : hour < 24)
    (hminute : minute < 60) (hsecond : second < 60) (hh : Denotes 2 hour h) (hmi : Denotes 2 minute mi)
    (hs : Denotes 2 second s) (hf : IsFraction nano f) (rest : List Char) :
    clock? (h ++ ':' :: (mi ++ ':' :: (s ++ (f ++ 'Z' :: rest)))) =
      some ((hour * 3600 + minute * 60 + second, nano), 'Z' :: rest) := by
  have hmark := fun rest => mark?_trimStart (c := ':') (by decide) rest
  have hrange : ¬ (23 < hour ∨ 59 < minute ∨ 60 < second) := by omega
  simp only [clock?, hh.field?, hmark, hmi.field?, hs.field?, hf.fraction?, Option.bind_eq_bind, Option.bind_some,
    if_neg hrange, if_neg hsecond.ne]

/-- A text that spells an instant is read as the instant. -/
theorem parse_of_spells {t : Instant} {s : String} (h : Spells t s.toList) : parse s = some t := by
  generalize hcs : s.toList = cs at h
  cases h with
  | @intro year month day hour minute second y mo d h mi s f hyear hvalid hhour hminute hsecond hinstant hy hmo hd
      hh hmi hs hf =>
      have hdate := date?_spelled hvalid hy hmo hd
      have hclock := clock?_spelled hhour hminute hsecond hh hmi hs hf
      have hzone : zone? (Text.trimStart ['Z']) = some (0, []) := rfl
      have hday : t.second / daySeconds = (Date.mk year month day).dayNumber := by
        rw [hinstant, daySeconds]
        omega
      have hinRange : yearInRange (Date.mk year month day).year = true := by
        simp [yearInRange]
        omega
      have hsecondOf : (Date.mk year month day).dayNumber * daySeconds +
          ((hour * 3600 + minute * 60 + second : Nat) : Int) - 0 = t.second := by
        rw [hinstant, Int.sub_zero]
      rw [parse, hcs, hdate]
      simp only [Option.bind_eq_bind, Option.bind_some, hclock, hzone, hsecondOf, hday,
        Date.ofDayNumber_dayNumber hvalid, hinRange]
      rfl

/-! ## The text of an instant -/

/-- The date of an instant in universal time. -/
def date (t : Instant) : Date := Date.ofDayNumber (t.second / daySeconds)

/-- An instant of the years 0 to 9999, in nanoseconds and outside of leap seconds. -/
structure IsCommon (t : Instant) : Prop where
  year_nonneg : 0 ≤ t.date.year
  year_le : t.date.year ≤ 9999
  nano_lt : t.nano < billion

/-- The text has its parts in order, with marks between them. -/
theorem toList_text {t : Instant} (h : t.IsCommon) {clock : Nat} (hclock : clock = (t.second % daySeconds).toNat) :
    t.text.toList = (padded 4 t.date.year.toNat).toList ++ '-' :: ((padded 2 t.date.month).toList ++ '-' ::
      ((padded 2 t.date.day).toList ++ 'T' :: ((padded 2 (clock / 3600)).toList ++ ':' ::
        ((padded 2 (clock / 60 % 60)).toList ++ ':' :: ((padded 2 (clock % 60)).toList ++
          ((fractionText t.nano).toList ++ ['Z'])))))) := by
  have hyear : yearText t.date.year = padded 4 t.date.year.toNat := if_pos ⟨h.year_nonneg, h.year_le⟩
  have hsecond : clock % 60 + t.nano / billion = clock % 60 := by
    rw [Nat.div_eq_of_lt h.nano_lt, Nat.add_zero]
  rw [← hyear, ← hsecond, hclock, date, text, Nat.mod_eq_of_lt h.nano_lt]
  simp

/-- The text of an instant spells it. -/
theorem spells_text {t : Instant} (h : t.IsCommon) : Spells t t.text.toList := by
  have hvalid : t.date.IsValid := Date.isValid_ofDayNumber (t.second / daySeconds)
  have hday : t.date.dayNumber = t.second / daySeconds := Date.dayNumber_ofDayNumber (t.second / daySeconds)
  obtain ⟨clock, hclock⟩ : ∃ clock, clock = (t.second % daySeconds).toNat := ⟨_, rfl⟩
  have hlt : clock < 86400 := by
    rw [hclock, daySeconds]
    omega
  have hyear : t.date.year.toNat < 10000 := by
    have hle := h.year_le
    omega
  have hdate : Date.mk t.date.year.toNat t.date.month t.date.day = t.date := by
    rw [Int.toNat_of_nonneg h.year_nonneg]
  obtain ⟨hmonth, hdayOfMonth⟩ := hvalid.lt_hundred
  rw [toList_text h hclock]
  refine .intro hyear (hdate ▸ hvalid) (by omega) (Nat.mod_lt _ (by decide)) (Nat.mod_lt _ (by decide)) ?_
    (denotes_padded (by decide) hyear) (denotes_padded (by decide) hmonth) (denotes_padded (by decide) hdayOfMonth)
    (denotes_padded (by decide) (by omega)) (denotes_padded (by decide) (by omega))
    (denotes_padded (by decide) (by omega)) (isFraction_text h.nano_lt)
  -- hours, minutes and seconds make up the time of day
  rw [hdate, hday]
  rw [daySeconds] at hclock ⊢
  omega

example : text ⟨951868799, 123456000⟩ = "2000-02-29T23:59:59.123456Z" := by decide

end ModeTree.Instant
