import ModeTree.Proofs.Text.Trim
import ModeTree.Text.Lowercase

/-!
# The lowercase form

A lowercase form stays as it is when it is lowercased once more (`lower_lower`): no letter that the
table of case runs gives out is one that it changes. Neither is any of them white space or a plus sign,
so that lowercasing keeps a trimmed text trimmed (`trimmed_lower`). White space is its own lowercase form
(`lower_of_white`), and a text has the same lowercase form wherever it stands in it (`trim_lower`).
-/

set_option autoImplicit false

namespace ModeTree.Text

/-! ## The table -/

namespace CaseRun

/-- The greatest lowercase form of a run, up to its step. -/
def top (run : CaseRun) : Nat := run.lower + (run.last - run.first)

/-- Whether the lowercase forms of a run stand outside a range. -/
def clears (run : CaseRun) (range : Nat × Nat) : Bool :=
  Nat.blt run.top range.1 || Nat.blt range.2 run.lower

/-- Whether a run has no letter in a range. -/
def misses (run : CaseRun) (range : Nat × Nat) : Bool :=
  Nat.blt run.last range.1 || Nat.blt range.2 run.first

/-- Whether the lowercase forms of a run are no letters of another: they stand outside it, or the two
alternate, or there is only one form to look at. -/
def avoids (run other : CaseRun) : Bool :=
  run.clears (other.first, other.last) ||
    (Nat.beq (run.step % 2) 0 && Nat.beq (other.step % 2) 0 &&
      Nat.beq ((run.lower + other.first) % 2) 1) ||
    (Nat.beq run.first run.last && (other.lower? run.lower).isNone)

theorem lower?_eq_some_iff {run : CaseRun} {n code : Nat} :
    run.lower? n = some code ↔
      run.first ≤ n ∧ n ≤ run.last ∧ (n - run.first) % run.step = 0 ∧
        run.lower + (n - run.first) = code := by
  rw [lower?]
  split
  · next h => simp [h]
  · next h =>
      simp only [reduceCtorEq, false_iff]
      rintro ⟨hfirst, hlast, hstep, -⟩
      exact h ⟨hfirst, hlast, hstep⟩

theorem not_mem_of_clears {run : CaseRun} {range : Nat × Nat} (h : run.clears range = true) {n code : Nat}
    (hn : run.lower? n = some code) : ¬ (range.1 ≤ code ∧ code ≤ range.2) := by
  obtain ⟨hfirst, hlast, -, rfl⟩ := lower?_eq_some_iff.1 hn
  simp only [clears, top, Bool.or_eq_true, Nat.blt_eq] at h
  omega

theorem even_of_mod {k step : Nat} (hstep : step % 2 = 0) (hk : k % step = 0) : k % 2 = 0 := by
  obtain ⟨a, rfl⟩ := Nat.dvd_of_mod_eq_zero hk
  rw [Nat.mul_mod, hstep, Nat.zero_mul, Nat.zero_mod]

theorem lower?_eq_none_of_avoids {run other : CaseRun} (h : run.avoids other = true) {n code : Nat}
    (hn : run.lower? n = some code) : other.lower? code = none := by
  rw [Option.eq_none_iff_forall_ne_some]
  intro again hagain
  obtain ⟨hfirst', hlast', hstep', -⟩ := lower?_eq_some_iff.1 hagain
  rw [avoids, Bool.or_eq_true, Bool.or_eq_true] at h
  -- the form would have to be a letter of the other run, in each of the three ways to avoid it
  rcases h with (hclear | heven) | hsingle
  · exact not_mem_of_clears hclear hn ⟨hfirst', hlast'⟩
  · -- the forms of one run are even where the letters of the other are odd
    obtain ⟨hfirst, hlast, hstep, rfl⟩ := lower?_eq_some_iff.1 hn
    simp only [Bool.and_eq_true, Nat.beq_eq] at heven
    obtain ⟨⟨hrun, hother⟩, hodd⟩ := heven
    have hk := even_of_mod hrun hstep
    have hk' := even_of_mod hother hstep'
    omega
  · -- a run of one letter has one form, which has been looked at
    obtain ⟨hfirst, hlast, -, rfl⟩ := lower?_eq_some_iff.1 hn
    simp only [Bool.and_eq_true, Nat.beq_eq, Option.isNone_iff_eq_none] at hsingle
    obtain ⟨hone, hnone⟩ := hsingle
    have hn : n - run.first = 0 := by omega
    rw [hn, Nat.add_zero, hnone] at hagain
    exact absurd hagain (by simp)

end CaseRun

/-- Where no lowercase form of a case run stands: at white space, at other characters of ASCII than the
letters a to z, at the two capitals with a rule of their own, and at surrogates. -/
def barredRanges : List (Nat × Nat) :=
  whiteRanges ++ [(0x0000, 0x0060), (0x007B, 0x007F), (0x0130, 0x0130), (0x03A3, 0x03A3),
    (0xD800, 0xDFFF)]

theorem caseRuns_clear :
    (caseRuns.all fun run =>
      barredRanges.all run.clears && whiteRanges.all run.misses && Nat.blt run.top 0x110000) = true := by
  decide +kernel

theorem caseRuns_avoid : (caseRuns.all fun run => caseRuns.all run.avoids) = true := by
  decide +kernel

/-- A lowercase form from the table is a character that the table does not change. -/
theorem lower?_facts {run : CaseRun} (hrun : run ∈ caseRuns) {n code : Nat}
    (hn : run.lower? n = some code) :
    (∀ range ∈ barredRanges, ¬ (range.1 ≤ code ∧ code ≤ range.2)) ∧ code < 0x110000 ∧
      (caseRuns.findSome? (·.lower? code)) = none := by
  have hclear := List.all_eq_true.1 caseRuns_clear run hrun
  rw [Bool.and_eq_true, Bool.and_eq_true, Nat.blt_eq] at hclear
  obtain ⟨⟨hranges, -⟩, htop⟩ := hclear
  refine ⟨?_, ?_, ?_⟩
  · intro range hrange
    exact CaseRun.not_mem_of_clears (List.all_eq_true.1 hranges range hrange) hn
  · obtain ⟨hfirst, hlast, -, rfl⟩ := CaseRun.lower?_eq_some_iff.1 hn
    rw [CaseRun.top] at htop
    omega
  · rw [List.findSome?_eq_none_iff]
    intro other hother
    have havoid := List.all_eq_true.1 (List.all_eq_true.1 caseRuns_avoid run hrun) other hother
    exact CaseRun.lower?_eq_none_of_avoids havoid hn

/-- White space is no letter of a case run. -/
theorem not_letter_of_isWhite {run : CaseRun} (hrun : run ∈ caseRuns) {c : Char} (h : isWhite c = true) :
    ¬ (run.first ≤ c.toNat ∧ c.toNat ≤ run.last) := by
  rw [isWhite, inRanges_iff] at h
  obtain ⟨range, hrange, hlow, hhigh⟩ := h
  have hclear := List.all_eq_true.1 caseRuns_clear run hrun
  rw [Bool.and_eq_true, Bool.and_eq_true] at hclear
  have hmisses := List.all_eq_true.1 hclear.1.2 range hrange
  rw [CaseRun.misses, Bool.or_eq_true, Nat.blt_eq, Nat.blt_eq] at hmisses
  omega

/-! ## Characters -/

/-- What is known of a character in the lowercase form of another one: lowercasing leaves it as it is,
and it is white space or a plus sign only if the other one is. -/
structure Lowers (c d : Char) : Prop where
  fixed : lowerChar d = [d]
  sigma : d ≠ 'Σ'
  white : isWhite d = true → isWhite c = true
  plus : d = '+' → c = '+'

theorem ascii_facts : ∀ n < 128, (Char.ofNat n).toLower.toNat < 128 ∧
    (Char.ofNat n).toLower.toLower = (Char.ofNat n).toLower ∧
    (isWhite (Char.ofNat n).toLower = true → isWhite (Char.ofNat n) = true) ∧
    ((Char.ofNat n).toLower = '+' → Char.ofNat n = '+') := by
  decide +kernel

/-- Lowercasing in ASCII changes the letters A to Z alone. -/
theorem toLower_of_not_capital {c : Char} (h : ¬ (0x41 ≤ c.toNat ∧ c.toNat ≤ 0x5A)) : c.toLower = c := by
  have hcapital : ¬ (c.val ≥ 'A'.val ∧ c.val ≤ 'Z'.val) := by
    rwa [ge_iff_le, UInt32.le_iff_toNat_le, UInt32.le_iff_toNat_le]
  exact dif_neg hcapital

theorem toLower_of_isWhite {c : Char} (h : isWhite c = true) : c.toLower = c := by
  -- the letters A to Z are the first run of the table
  have hfirst : ⟨0x0041, 0x005A, 1, 0x0061⟩ ∈ caseRuns := List.mem_cons_self
  exact toLower_of_not_capital (not_letter_of_isWhite hfirst h)

theorem lowers_toLower {c : Char} (hc : c.toNat < 0x80) : Lowers c c.toLower := by
  obtain ⟨hlt, hidem, hwhite, hplus⟩ := ascii_facts c.toNat hc
  rw [Char.ofNat_toNat] at hlt hidem hwhite hplus
  refine ⟨?_, ?_, hwhite, hplus⟩
  · rw [lowerChar, if_pos hlt, hidem]
  · intro hsigma
    rw [hsigma] at hlt
    exact absurd hlt (by decide)

theorem lowers_ofNat {run : CaseRun} (hrun : run ∈ caseRuns) {c : Char} {code : Nat}
    (hcode : run.lower? c.toNat = some code) : Lowers c (Char.ofNat code) := by
  obtain ⟨hbarred, hlt, hnone⟩ := lower?_facts hrun hcode
  have hbar : ∀ lo hi, (lo, hi) ∈ barredRanges → ¬ (lo ≤ code ∧ code ≤ hi) := fun lo hi h => hbarred _ h
  -- no surrogate, so that the code point is that of a character
  have hsurrogate := hbar 0xD800 0xDFFF (by simp [barredRanges])
  have hlow := hbar 0x0000 0x0060 (by simp [barredRanges])
  have hvalid : code.isValidChar := by
    rw [Nat.isValidChar]
    omega
  have hnat : (Char.ofNat code).toNat = code := by
    rw [Char.ofNat, dif_pos hvalid]
    rfl
  have hne : ∀ d : Char, (d.toNat, d.toNat) ∈ barredRanges → Char.ofNat code ≠ d := by
    rintro d hd rfl
    rw [hnat] at hd
    exact hbar code code hd ⟨Nat.le_refl _, Nat.le_refl _⟩
  refine ⟨?_, hne 'Σ' (by decide), ?_, ?_⟩
  · rw [lowerChar, hnat]
    -- in ASCII it is one of the letters a to z
    by_cases hascii : code < 0x80
    · have hhigh := hbar 0x007B 0x007F (by simp [barredRanges])
      rw [if_pos hascii, toLower_of_not_capital (by omega)]
    · rw [if_neg hascii, if_neg (hne 'İ' (by decide)), hnone]
  · intro hwhite
    rw [isWhite, inRanges_iff, hnat] at hwhite
    obtain ⟨range, hrange, hin⟩ := hwhite
    exact absurd hin (hbarred range (List.mem_append_left _ hrange))
  · -- the plus sign is none of the letters a to z
    intro hplus
    have hcode : code = 0x2B := by rw [← hnat, hplus]; rfl
    omega

theorem lowerChar_ne_nil (c : Char) : lowerChar c ≠ [] := by
  rw [lowerChar]
  split
  · simp
  · split
    · simp
    · split <;> simp

/-- Every character in the lowercase form of one that is no capital sigma. -/
theorem lowers_of_mem_lowerChar {c d : Char} (hc : c ≠ 'Σ') (hd : d ∈ lowerChar c) : Lowers c d := by
  have hd' := hd
  rw [lowerChar] at hd'
  by_cases hascii : c.toNat < 0x80
  · obtain rfl : d = c.toLower := by simpa [hascii] using hd'
    exact lowers_toLower hascii
  · rw [if_neg hascii] at hd'
    by_cases hdot : c = 'İ'
    · subst hdot
      rw [if_pos rfl] at hd'
      -- an i and the dot above it
      rcases List.mem_cons.1 hd' with rfl | hd'
      · exact ⟨by decide, by decide, by decide, by decide⟩
      · obtain rfl : d = '\u0307' := by simpa using hd'
        exact ⟨by decide, by decide, by decide, by decide⟩
    · rw [if_neg hdot] at hd'
      cases htable : caseRuns.findSome? (·.lower? c.toNat) with
      | some code =>
          obtain ⟨run, hrun, hcode⟩ := List.exists_of_findSome?_eq_some htable
          obtain rfl : d = Char.ofNat code := by simpa [htable] using hd'
          exact lowers_ofNat hrun hcode
      | none =>
          obtain rfl : d = c := by simpa [htable] using hd'
          refine ⟨?_, hc, id, id⟩
          rw [lowerChar, if_neg hascii, if_neg hdot, htable]

theorem lowerChar_of_isWhite {c : Char} (h : isWhite c = true) : lowerChar c = [c] := by
  rw [lowerChar]
  by_cases hascii : c.toNat < 0x80
  · rw [if_pos hascii, toLower_of_isWhite h]
  · have hdot : c ≠ 'İ' := by
      rintro rfl
      exact absurd h (by decide)
    have hnone : caseRuns.findSome? (·.lower? c.toNat) = none := by
      rw [List.findSome?_eq_none_iff]
      intro run hrun
      rw [Option.eq_none_iff_forall_ne_some]
      intro code hcode
      obtain ⟨hfirst, hlast, -⟩ := CaseRun.lower?_eq_some_iff.1 hcode
      exact not_letter_of_isWhite hrun h ⟨hfirst, hlast⟩
    rw [if_neg hascii, if_neg hdot, hnone]

/-! ## Texts -/

/-- The lowercase form of a text begins with that of its first character. -/
theorem lowerAfter_cons (before : List Char) (c : Char) (rest : List Char) :
    ∃ block, block ≠ [] ∧ (∀ d ∈ block, Lowers c d) ∧
      lowerAfter before (c :: rest) = block ++ lowerAfter (c :: before) rest := by
  rw [lowerAfter]
  by_cases hc : c = 'Σ'
  · -- a capital sigma has one of two forms, according to its neighbours
    subst hc
    rw [if_pos rfl]
    refine ⟨[_], by simp, ?_, rfl⟩
    intro d hd
    rw [List.mem_singleton] at hd
    subst hd
    split
    · exact ⟨by decide, by decide, by decide, by decide⟩
    · exact ⟨by decide, by decide, by decide, by decide⟩
  · rw [if_neg hc]
    exact ⟨lowerChar c, lowerChar_ne_nil c, fun d hd => lowers_of_mem_lowerChar hc hd, rfl⟩

theorem exists_lowers {before cs : List Char} {d : Char} (h : d ∈ lowerAfter before cs) :
    ∃ c ∈ cs, Lowers c d := by
  induction cs generalizing before with
  | nil => simp [lowerAfter] at h
  | cons c cs ih =>
      obtain ⟨block, -, hblock, heq⟩ := lowerAfter_cons before c cs
      rw [heq, List.mem_append] at h
      rcases h with h | h
      · exact ⟨c, List.mem_cons_self, hblock d h⟩
      · obtain ⟨e, he, hlowers⟩ := ih h
        exact ⟨e, List.mem_cons_of_mem _ he, hlowers⟩

theorem lowerAfter_eq_self {before cs : List Char} (h : ∀ c ∈ cs, lowerChar c = [c] ∧ c ≠ 'Σ') :
    lowerAfter before cs = cs := by
  induction cs generalizing before with
  | nil => rfl
  | cons c cs ih =>
      obtain ⟨hfixed, hsigma⟩ := h c List.mem_cons_self
      rw [lowerAfter, if_neg hsigma, hfixed, ih fun d hd => h d (List.mem_cons_of_mem _ hd)]
      rfl

theorem White.lowerChar_eq {cs : List Char} (h : White cs) : ∀ c ∈ cs, lowerChar c = [c] ∧ c ≠ 'Σ' := by
  intro c hc
  refine ⟨lowerChar_of_isWhite (h c hc), ?_⟩
  rintro rfl
  exact absurd (h 'Σ' hc) (by decide)

theorem lower_of_white {cs : List Char} (h : White cs) : lower cs = cs :=
  lowerAfter_eq_self h.lowerChar_eq

/-- Lowercasing a second time changes nothing. -/
theorem lower_lower (cs : List Char) : lower (lower cs) = lower cs := by
  apply lowerAfter_eq_self
  intro d hd
  obtain ⟨c, -, hlowers⟩ := exists_lowers hd
  exact ⟨hlowers.fixed, hlowers.sigma⟩

theorem plus_not_mem_lower {cs : List Char} (h : '+' ∉ cs) : '+' ∉ lower cs := by
  intro hmem
  obtain ⟨c, hc, hlowers⟩ := exists_lowers hmem
  rw [hlowers.plus rfl] at hc
  exact h hc

theorem lowerAfter_ne_nil {before cs : List Char} (h : cs ≠ []) : lowerAfter before cs ≠ [] := by
  obtain ⟨c, rest, rfl⟩ := List.exists_cons_of_ne_nil h
  obtain ⟨block, hne, -, heq⟩ := lowerAfter_cons before c rest
  rw [heq]
  simp [hne]

/-- The last character of a lowercase form comes from the last one of the text. -/
theorem last_lowerAfter {before cs : List Char} {d : Char} (h : (lowerAfter before cs).getLast? = some d) :
    ∃ c, cs.getLast? = some c ∧ Lowers c d := by
  induction cs generalizing before with
  | nil => simp [lowerAfter] at h
  | cons c cs ih =>
      obtain ⟨block, -, hblock, heq⟩ := lowerAfter_cons before c cs
      rw [heq] at h
      -- no character vanishes, so what follows gives the last one if anything follows
      by_cases hcs : cs = []
      · subst hcs
        rw [lowerAfter, List.append_nil] at h
        exact ⟨c, rfl, hblock d (List.mem_of_getLast? h)⟩
      · rw [List.getLast?_append_of_ne_nil _ (lowerAfter_ne_nil hcs)] at h
        obtain ⟨e, he, hlowers⟩ := ih h
        obtain ⟨first, rest, rfl⟩ := List.exists_cons_of_ne_nil hcs
        exact ⟨e, by rwa [List.getLast?_cons_cons], hlowers⟩

/-- Lowercasing puts no white space at the ends of a text. -/
theorem trimmed_lower {cs : List Char} (h : Trimmed cs) : Trimmed (lower cs) where
  head := by
    intro d hd
    cases cs with
    | nil => simp at hd
    | cons c cs =>
        obtain ⟨block, hne, hblock, heq⟩ := lowerAfter_cons [] c cs
        obtain ⟨first, rest, rfl⟩ := List.exists_cons_of_ne_nil hne
        rw [lower, heq] at hd
        obtain rfl : first = d := by simpa using hd
        have hc := h.head c rfl
        have hwhite := (hblock first List.mem_cons_self).white
        rw [← Bool.not_eq_true]
        intro hfirst
        rw [hwhite hfirst] at hc
        exact absurd hc (by simp)
  last := by
    intro d hd
    obtain ⟨c, hlast, hlowers⟩ := last_lowerAfter hd
    have hc := h.last c hlast
    rw [← Bool.not_eq_true]
    intro hwhite
    rw [hlowers.white hwhite] at hc
    exact absurd hc (by simp)

/-! ## White space around a text -/

theorem whiteRanges_uncased :
    (casedRanges.all fun cased => whiteRanges.all fun range =>
      Nat.blt cased.2 range.1 || Nat.blt range.2 cased.1) = true := by
  decide +kernel

/-- White space is no cased letter. -/
theorem not_cased_of_isWhite {c : Char} (h : isWhite c = true) : inRanges casedRanges c.toNat = false := by
  rw [← Bool.not_eq_true]
  intro hcased
  rw [isWhite, inRanges_iff] at h
  rw [inRanges_iff] at hcased
  obtain ⟨range, hrange, hlow, hhigh⟩ := h
  obtain ⟨cased, hmem, hlow', hhigh'⟩ := hcased
  have hapart := List.all_eq_true.1 (List.all_eq_true.1 whiteRanges_uncased cased hmem) range hrange
  rw [Bool.or_eq_true, Nat.blt_eq, Nat.blt_eq] at hapart
  omega

/-- White space behind a text has no part in how the text starts. -/
theorem startsCased_append_white (cs : List Char) {v : List Char} (hv : White v) :
    startsCased (cs ++ v) = startsCased cs := by
  rw [startsCased, startsCased, List.dropWhile_append]
  cases hcs : cs.dropWhile fun c => inRanges ignorableRanges c.toNat with
  | cons c rest => rfl
  | nil =>
      -- everything in the text is passed over, and the white space begins with no cased letter
      cases hrest : v.dropWhile fun c => inRanges ignorableRanges c.toNat with
      | nil => simp
      | cons c rest =>
          have hc : c ∈ v := List.dropWhile_sublist _ |>.subset (hrest ▸ List.mem_cons_self)
          simpa using not_cased_of_isWhite (hv c hc)

theorem lowerAfter_append_white (before cs : List Char) {v : List Char} (hv : White v) :
    lowerAfter before (cs ++ v) = lowerAfter before cs ++ v := by
  induction cs generalizing before with
  | nil => exact lowerAfter_eq_self hv.lowerChar_eq
  | cons c cs ih =>
      rw [List.cons_append, lowerAfter, lowerAfter, ih, startsCased_append_white cs hv]
      split
      · rfl
      · rw [List.append_assoc]

/-- A text that white space stands in front of is lowercased as if it began there. -/
theorem lowerAfter_before_white (before cs : List Char) {u : List Char} (hu : White u) :
    lowerAfter (before ++ u) cs = lowerAfter before cs := by
  induction cs generalizing before with
  | nil => rfl
  | cons c cs ih =>
      rw [lowerAfter, lowerAfter, startsCased_append_white before hu, ← List.cons_append, ih]

theorem lowerAfter_white_append (before cs : List Char) {u : List Char} (hu : White u) :
    lowerAfter before (u ++ cs) = u ++ lowerAfter (u.reverse ++ before) cs := by
  induction u generalizing before with
  | nil => rfl
  | cons c u ih =>
      obtain ⟨hfixed, hsigma⟩ := hu.lowerChar_eq c List.mem_cons_self
      rw [List.cons_append, lowerAfter, if_neg hsigma, hfixed,
        ih (c :: before) fun d hd => hu d (List.mem_cons_of_mem _ hd), List.reverse_cons,
        List.append_assoc]
      rfl

/-- Lowercasing keeps the white space around a text as it is. -/
theorem Padded.lower {core cs : List Char} (h : Padded core cs) : Padded (lower core) (lower cs) := by
  obtain ⟨u, v, hu, hv, rfl⟩ := h
  refine ⟨u, v, hu, hv, ?_⟩
  have hrev : White u.reverse := fun c hc => hu c (List.mem_reverse.1 hc)
  rw [Text.lower, lowerAfter_append_white _ _ hv, lowerAfter_white_append _ _ hu, List.append_nil,
    ← List.nil_append u.reverse, lowerAfter_before_white _ _ hrev, Text.lower]

/-- To trim and to lowercase come to the same in either order. -/
theorem trim_lower (cs : List Char) : trim (lower cs) = lower (trim cs) :=
  trim_eq_iff.2 ⟨trimmed_lower (trimmed_trim cs), (padded_trim cs).lower⟩

theorem white_lower_iff {cs : List Char} : White (lower cs) ↔ White cs := by
  rw [← trim_eq_nil_iff, ← trim_eq_nil_iff, trim_lower]
  constructor
  · intro h
    by_contra hne
    exact lowerAfter_ne_nil hne h
  · intro h
    rw [h, lower_nil]

/-- Lowercasing takes no white space from the ends of a text either. -/
theorem trimmed_lower_iff {cs : List Char} : Trimmed (lower cs) ↔ Trimmed cs := by
  refine ⟨?_, trimmed_lower⟩
  intro h
  have hsingle : ∀ c, isWhite c = true → White [c] := by
    intro c hc d hd
    rwa [List.mem_singleton.1 hd]
  constructor
  · intro c hc
    obtain ⟨rest, rfl⟩ := List.head?_eq_some_iff.1 hc
    rw [← Bool.not_eq_true]
    intro hwhite
    -- the lowercase form would begin with the same white space
    have hfirst : (lower (c :: rest)).head? = some c := by
      rw [lower, ← List.singleton_append, lowerAfter_white_append _ _ (hsingle c hwhite)]
      rfl
    rw [h.head c hfirst] at hwhite
    exact absurd hwhite (by simp)
  · intro c hc
    obtain ⟨front, rfl⟩ := List.getLast?_eq_some_iff.1 hc
    rw [← Bool.not_eq_true]
    intro hwhite
    have hlast : (lower (front ++ [c])).getLast? = some c := by
      rw [lower, lowerAfter_append_white _ _ (hsingle c hwhite), List.getLast?_concat]
    rw [h.last c hlast] at hwhite
    exact absurd hwhite (by simp)

/-! ## The letters A to Z alone -/

/-- A text without white space in lowercase has none in capitals. -/
theorem plain_of_lowerAscii {cs : List Char} (h : Plain (lowerAscii cs)) : Plain cs := by
  intro c hc
  rw [← Bool.not_eq_true]
  intro hwhite
  have hlower := h c.toLower (List.mem_map_of_mem hc)
  rw [toLower_of_isWhite hwhite, hwhite] at hlower
  exact absurd hlower (by simp)

end ModeTree.Text
