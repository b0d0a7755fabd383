import ModeTree.Json.Printer
import ModeTree.Json.Reader
import Mathlib.Data.List.TakeWhile

/-!
# Values and their texts

A value whose numbers are natural numbers is read back from its compact text (`parse_compact`). The text is
taken apart in two stages: its characters give the tokens of the value (`tokens?_compact`), and these give the
value (`ofTokens?_tokens`). A word has no end of its own, so the scan may stand in the last word of a value when
the value is over; the mark behind it, or the end of the text, closes the word (`Scan.Holds`).
-/

set_option autoImplicit false

namespace ModeTree.Json

section Folds

variable {σ α : Type} {f : σ → α → Option σ} {s s' : σ}

/-- A fold goes on from where its first step has come. -/
theorem foldlM_cons_of_eq {x : α} (h : f s x = some s') (xs : List α) :
    (x :: xs).foldlM f s = xs.foldlM f s' := by
  rw [List.foldlM_cons, h]
  rfl

theorem foldlM_append_of_eq {xs : List α} (h : xs.foldlM f s = some s') (ys : List α) :
    (xs ++ ys).foldlM f s = ys.foldlM f s' := by
  rw [List.foldlM_append, h]
  rfl

end Folds

/-! ## Words -/

/-- A character that stands in a word and does not end it. -/
def inWord (c : Char) : Bool := !(Scan.isBlank c || Scan.isMark c || c == '"')

theorem foldlM_word {w : List Char} (h : ∀ c ∈ w, inWord c = true) (tokens : List Token) (cs : List Char) :
    w.foldlM Scan.step ⟨tokens, .word cs⟩ = some ⟨tokens, .word (w.reverse ++ cs)⟩ := by
  induction w generalizing cs with
  | nil => rfl
  | cons c w ih =>
      obtain ⟨hc, hw⟩ := List.forall_mem_cons.1 h
      have hstep : Scan.step ⟨tokens, .word cs⟩ c = some ⟨tokens, .word (c :: cs)⟩ := by
        rw [inWord, Bool.not_eq_true'] at hc
        simp [Scan.step, hc]
      rw [foldlM_cons_of_eq hstep, ih hw, List.reverse_cons, List.append_assoc]
      rfl

/-- The scan of a word that begins between tokens. -/
theorem foldlM_word_between {w : List Char} (hne : w ≠ []) (h : ∀ c ∈ w, inWord c = true)
    (tokens : List Token) :
    w.foldlM Scan.step ⟨tokens, .between⟩ = some ⟨tokens, .word w.reverse⟩ := by
  cases w with
  | nil => exact absurd rfl hne
  | cons c w =>
      obtain ⟨hc, hw⟩ := List.forall_mem_cons.1 h
      have hstep : Scan.step ⟨tokens, .between⟩ c = some ⟨tokens, .word [c]⟩ := by
        simp only [inWord, Bool.not_eq_true', Bool.or_eq_false_iff, beq_eq_false_iff_ne] at hc
        obtain ⟨⟨hblank, hmark⟩, hquote⟩ := hc
        simp [Scan.step, Scan.open?, hblank, hmark, hquote]
      rw [foldlM_cons_of_eq hstep, foldlM_word hw, List.reverse_cons]

/-! ## Numerals -/

theorem inWord_of_isDigit {c : Char} (h : c.isDigit = true) : inWord c = true := by
  -- there are ten digits
  have hdigits : ∀ n < 58, 48 ≤ n → inWord (Char.ofNat n) = true := by decide
  obtain ⟨hlow, hhigh⟩ : 48 ≤ c.toNat ∧ c.toNat ≤ 57 := by simpa [Char.isDigit_iff_toNat] using h
  rw [← Char.ofNat_toNat c]
  exact hdigits c.toNat (by omega) hlow

/-- A number that is not zero is not written with a zero first. -/
theorem head?_toDigits {n : Nat} (hn : 0 < n) : (Nat.toDigits 10 n).head? ≠ some '0' := by
  induction n using Nat.strongRecOn with
  | ind n ih =>
      by_cases hlt : n < 10
      · rw [Nat.toDigits_of_lt_base hlt]
        have hdigit : ∀ k < 10, 0 < k → k.digitChar ≠ '0' := by decide
        simpa using hdigit n hlt hn
      · have hfirst := ih (n / 10) (by omega) (by omega)
        rw [Nat.toDigits_of_base_le (by decide) (Nat.le_of_not_lt hlt)]
        cases hhigh : Nat.toDigits 10 (n / 10) with
        | nil => exact absurd hhigh Nat.toDigits_ne_nil
        | cons d ds => simpa [hhigh] using hfirst

theorem chars_ofNat (n : Nat) : (Numeral.ofNat n).chars = Nat.toDigits 10 n := by
  simp [Numeral.chars, Numeral.ofNat]

/-- Digits without a zero first are a whole number. -/
theorem ofChars?_digits {ds : List Char} (hne : ds ≠ []) (hdigits : ∀ c ∈ ds, c.isDigit = true)
    (hzero : ds.head? = some '0' → ds.length ≤ 1) : Numeral.ofChars? ds = some ⟨false, ds, [], none⟩ := by
  have hsign : ∀ rest, ds = '-' :: rest → False := by
    rintro rest rfl
    exact absurd (hdigits '-' List.mem_cons_self) (by decide)
  have hlead : (ds.isEmpty || (ds.head? == some '0' && 1 < ds.length)) = false := by
    by_cases hhead : ds.head? = some '0'
    · simp [hne, Nat.not_lt.2 (hzero hhead)]
    · simp [hne, hhead]
  have hwhole : ds.takeWhile Char.isDigit = ds := List.takeWhile_eq_self_iff.2 hdigits
  have hrest : ds.dropWhile Char.isDigit = [] := List.dropWhile_eq_nil_iff.2 hdigits
  rw [Numeral.ofChars?]
  · -- nothing stands behind the digits
    simp only [hwhole, hrest, hlead]
    rfl
  · exact hsign

/-- The word of a natural number is its numeral. -/
theorem word?_ofNat (n : Nat) : word? (Numeral.ofNat n).chars = some (.nat n) := by
  have hdigits : ∀ c ∈ Nat.toDigits 10 n, c.isDigit = true :=
    fun c hc => Nat.isDigit_of_mem_toDigits (by decide) (by decide) hc
  have hzero : (Nat.toDigits 10 n).head? = some '0' → (Nat.toDigits 10 n).length ≤ 1 := by
    intro hhead
    rcases Nat.eq_zero_or_pos n with rfl | hpos
    · simp
    · exact absurd hhead (head?_toDigits hpos)
  -- a list of digits is none of the words with letters
  have hletters : ∀ w : List Char, w.any (fun c => !c.isDigit) = true → Nat.toDigits 10 n ≠ w := by
    intro w hw heq
    simp only [List.any_eq_true, Bool.not_eq_true'] at hw
    obtain ⟨c, hc, hdigit⟩ := hw
    rw [hdigits c (heq ▸ hc)] at hdigit
    cases hdigit
  rw [chars_ofNat, word?, if_neg (hletters _ (by decide)), if_neg (hletters _ (by decide)),
    if_neg (hletters _ (by decide)), ofChars?_digits Nat.toDigits_ne_nil hdigits hzero]
  rfl

/-! ## Literals -/

/-- What is read of the escape of a character: the character, or its code unit. -/
def piece (c : Char) : Piece :=
  if c < ' ' ∧ c ∉ ['\x08', '\t', '\n', '\x0c', '\x0d'] then .unit c.toNat else .char c

theorem hexDigit?_hexDigits : ∀ n < 16, hexDigit? (hexDigits.getD n '0') = some n := by decide

/-- A backslash and a letter stand for a special character. -/
theorem pieces?_short {e c : Char} (h : shortEscape? e = some c) (he : e ≠ 'u') (rest : List Char) :
    pieces? ('\\' :: e :: rest) = (pieces? rest).map (.char c :: ·) := by
  rw [pieces?, h]
  · cases pieces? rest <;> rfl
  · exact fun _ _ _ _ _ hu => absurd hu he

theorem pieces?_escape (c : Char) (rest : List Char) :
    pieces? (escape c ++ rest) = (pieces? rest).map (piece c :: ·) := by
  unfold escape
  split
  · exact pieces?_short (e := '"') rfl (by decide) rest
  · exact pieces?_short (e := '\\') rfl (by decide) rest
  · exact pieces?_short (e := 'b') rfl (by decide) rest
  · exact pieces?_short (e := 't') rfl (by decide) rest
  · exact pieces?_short (e := 'n') rfl (by decide) rest
  · exact pieces?_short (e := 'f') rfl (by decide) rest
  · exact pieces?_short (e := 'r') rfl (by decide) rest
  next hquote hslash h1 h2 h3 h4 h5 =>
    split
    next hlt =>
      have hbound : c.toNat < 32 := by simpa [Char.lt_def, UInt32.lt_iff_toNat_lt] using hlt
      have hhigh := hexDigit?_hexDigits (c.toNat / 16) (by omega)
      have hlow := hexDigit?_hexDigits (c.toNat % 16) (by omega)
      have hzero : hexDigit? '0' = some 0 := by decide
      have hpiece : piece c = .unit c.toNat := by
        simp only [piece]
        rw [if_pos ⟨hlt, by simpa using ⟨h1, h2, h3, h4, h5⟩⟩]
      have hcode : 0 * 4096 + 0 * 256 + c.toNat / 16 * 16 + c.toNat % 16 = c.toNat := by omega
      simp only [List.cons_append, List.nil_append, pieces?, hzero, hhigh, hlow, Option.bind_eq_bind,
        Option.bind_some, Option.pure_def, hcode, hpiece]
      cases pieces? rest <;> rfl
    next hlt =>
      have hpiece : piece c = .char c := by simp [piece, hlt]
      have hplain : ¬ (c = '\\' ∨ c < ' ') := by rintro (h | h); exacts [hslash h, hlt h]
      rw [List.singleton_append, pieces?, if_neg hplain, hpiece]
      · cases pieces? rest <;> rfl
      · exact fun _ _ _ _ _ h => absurd h hslash
      · exact fun _ _ h => absurd h hslash

theorem join?_piece (c : Char) (ps : List Piece) : join? (piece c :: ps) = (join? ps).map (c :: ·) := by
  by_cases hcontrol : c < ' ' ∧ c ∉ ['\x08', '\t', '\n', '\x0c', '\x0d']
  · have hbound : c.toNat < 32 := by simpa [Char.lt_def, UInt32.lt_iff_toNat_lt] using hcontrol.1
    -- the code of a control character is no half of a surrogate pair
    have hhigh : isHighSurrogate c.toNat = false := by simp [isHighSurrogate]; omega
    have hlow : isLowSurrogate c.toNat = false := by simp [isLowSurrogate]; omega
    rw [piece, if_pos hcontrol]
    rcases ps with _ | ⟨⟨d⟩ | ⟨code⟩, ps⟩ <;> simp [join?, hhigh, hlow]
  · rw [piece, if_neg hcontrol, join?]

theorem pieces?_escapes (cs : List Char) : pieces? (cs.flatMap escape) = some (cs.map piece) := by
  induction cs with
  | nil => rfl
  | cons c cs ih => rw [List.flatMap_cons, pieces?_escape, ih, Option.map_some, List.map_cons]

theorem join?_pieces (cs : List Char) : join? (cs.map piece) = some cs := by
  induction cs with
  | nil => rfl
  | cons c cs ih => rw [List.map_cons, join?_piece, ih, Option.map_some]

/-- The escaped text is read back. -/
theorem literal?_escape (s : String) : literal? (s.toList.flatMap escape) = some (.text s) := by
  rw [literal?, pieces?_escapes, Option.map_some, join?_pieces, Option.map_some, String.ofList_toList, text]

theorem hexDigits_getD : ∀ n < 16, hexDigits.getD n '0' ≠ '"' ∧ hexDigits.getD n '0' ≠ '\\' := by decide

theorem foldlM_escape (tokens : List Token) (c : Char) (cs : List Char) :
    (escape c).foldlM Scan.step ⟨tokens, .quoted cs⟩ =
      some ⟨tokens, .quoted ((escape c).reverse ++ cs)⟩ := by
  unfold escape
  split
  case h_8 hquote hslash _ _ _ _ _ =>
    -- a character that is neither a quote nor a backslash is kept
    have hstep : ∀ d ds, d ≠ '"' → d ≠ '\\' →
        Scan.step ⟨tokens, .quoted ds⟩ d = some ⟨tokens, .quoted (d :: ds)⟩ := by
      intro d ds hq hs
      rw [Scan.step, if_neg hq, if_neg hs]
    split
    next hlt =>
      have hbound : c.toNat < 32 := by simpa [Char.lt_def, UInt32.lt_iff_toNat_lt] using hlt
      obtain ⟨hq, hs⟩ := hexDigits_getD (c.toNat / 16) (by omega)
      obtain ⟨hq', hs'⟩ := hexDigits_getD (c.toNat % 16) (by omega)
      have hopen : Scan.step ⟨tokens, .quoted cs⟩ '\\' = some ⟨tokens, .escaped ('\\' :: cs)⟩ := rfl
      have hletter : Scan.step ⟨tokens, .escaped ('\\' :: cs)⟩ 'u' =
          some ⟨tokens, .quoted ('u' :: '\\' :: cs)⟩ := rfl
      have hzero := fun ds => hstep '0' ds (by decide) (by decide)
      rw [foldlM_cons_of_eq hopen, foldlM_cons_of_eq hletter, foldlM_cons_of_eq (hzero _),
        foldlM_cons_of_eq (hzero _), foldlM_cons_of_eq (hstep _ _ hq hs), foldlM_cons_of_eq (hstep _ _ hq' hs')]
      rfl
    next =>
      rw [foldlM_cons_of_eq (hstep c cs hquote hslash)]
      rfl
  all_goals rfl

theorem foldlM_escapes (tokens : List Token) (s cs : List Char) :
    (s.flatMap escape).foldlM Scan.step ⟨tokens, .quoted cs⟩ =
      some ⟨tokens, .quoted ((s.flatMap escape).reverse ++ cs)⟩ := by
  induction s generalizing cs with
  | nil => rfl
  | cons c s ih =>
      rw [List.flatMap_cons, foldlM_append_of_eq (foldlM_escape tokens c cs), ih, List.reverse_append,
        List.append_assoc]

/-! ## Scanning -/

namespace Scan

/-- The tokens that a scan has read, latest first; a word at the end counts with its value. -/
inductive Holds : Scan → List Token → Prop where
  | between (tokens : List Token) : Holds ⟨tokens, .between⟩ tokens
  | word {tokens : List Token} {cs : List Char} {v : Json} (h : word? cs.reverse = some v) :
      Holds ⟨tokens, .word cs⟩ (.scalar v :: tokens)

variable {scan : Scan} {tokens : List Token}

theorem not_isBlank {c : Char} (h : isMark c = true) : isBlank c = false := by
  have hmarks : ("[]\x7b\x7d:,".toList.all fun c => !isBlank c) = true := rfl
  simpa using List.all_eq_true.1 hmarks c (List.contains_iff_mem.1 h)

theorem Holds.step_mark (h : scan.Holds tokens) {c : Char} (hc : isMark c = true) :
    scan.step c = some ⟨.mark c :: tokens, .between⟩ := by
  cases h with
  | between => simp [step, open?, hc, not_isBlank hc]
  | word hword => simp [step, open?, hc, not_isBlank hc, hword]

theorem Holds.finish_eq (h : scan.Holds tokens) : scan.finish = some tokens.reverse := by
  cases h with
  | between => rfl
  | word hword => simp [finish, hword]

end Scan

/-- Characters that give the tokens `ts` wherever a token may begin. The last one may still be open. -/
def Scans (cs : List Char) (ts : List Token) : Prop :=
  ∀ tokens, ∃ scan : Scan,
    cs.foldlM Scan.step ⟨tokens, .between⟩ = some scan ∧ scan.Holds (ts.reverse ++ tokens)

/-- Characters that give the tokens `ts` and leave none open. -/
def ScansWhole (cs : List Char) (ts : List Token) : Prop :=
  ∀ tokens, cs.foldlM Scan.step ⟨tokens, .between⟩ = some ⟨ts.reverse ++ tokens, .between⟩

section Scans

variable {cs ds : List Char} {ts us : List Token}

theorem ScansWhole.scans (h : ScansWhole cs ts) : Scans cs ts := fun tokens => ⟨_, h tokens, .between _⟩

theorem ScansWhole.append_scans (h : ScansWhole cs ts) (h' : Scans ds us) : Scans (cs ++ ds) (ts ++ us) := by
  intro tokens
  rw [foldlM_append_of_eq (h tokens), List.reverse_append, List.append_assoc]
  exact h' _

/-- A mark closes what is open. -/
theorem Scans.mark (h : Scans cs ts) {c : Char} (hc : Scan.isMark c = true) :
    ScansWhole (cs ++ [c]) (ts ++ [.mark c]) := by
  intro tokens
  obtain ⟨scan, hscan, hholds⟩ := h tokens
  rw [foldlM_append_of_eq hscan, foldlM_cons_of_eq (hholds.step_mark hc), List.reverse_append]
  rfl

theorem scansWhole_mark {c : Char} (hc : Scan.isMark c = true) : ScansWhole [c] [.mark c] :=
  fun tokens => foldlM_cons_of_eq ((Scan.Holds.between tokens).step_mark hc) []

theorem scans_word {w : List Char} {v : Json} (h : w.all inWord = true) (hv : word? w = some v) :
    Scans w [.scalar v] := by
  have hne : w ≠ [] := by rintro rfl; cases hv
  have hscan := foldlM_word_between hne (List.all_eq_true.1 h)
  exact fun tokens => ⟨_, hscan tokens, .word (by rwa [List.reverse_reverse])⟩

/-- Between two quotes stands a literal. -/
theorem scansWhole_literal {cs : List Char} {v : Json} (hv : literal? cs = some v)
    (hcs : ∀ tokens, cs.foldlM Scan.step ⟨tokens, .quoted []⟩ = some ⟨tokens, .quoted cs.reverse⟩) :
    ScansWhole ('"' :: cs ++ ['"']) [.scalar v] := by
  intro tokens
  have hopen : Scan.step ⟨tokens, .between⟩ '"' = some ⟨tokens, .quoted []⟩ := rfl
  have hclose : Scan.step ⟨tokens, .quoted cs.reverse⟩ '"' = some ⟨.scalar v :: tokens, .between⟩ := by
    rw [Scan.step, if_pos rfl, List.reverse_reverse, hv]
    rfl
  rw [List.cons_append, foldlM_cons_of_eq hopen, foldlM_append_of_eq (hcs tokens), foldlM_cons_of_eq hclose]
  rfl

/-- A literal is read back whether it has a text or is half of a surrogate pair. -/
theorem scansWhole_quoteText (s : Option String) : ScansWhole (quoteText s).toList [.scalar (.str s)] := by
  cases s with
  | some s =>
      rw [quoteText, quote, String.toList_ofList]
      refine scansWhole_literal (literal?_escape s) fun tokens => ?_
      rw [foldlM_escapes, List.append_nil]
  | none =>
      have hhalf : literal? ("\\ud800".toList) = some (.str none) := by
        simp [literal?, pieces?, hexDigit?, join?, isHighSurrogate]
      exact scansWhole_literal hhalf fun tokens => rfl

end Scans

/-! ## Values -/

mutual

/-- The tokens of a value. -/
def tokens : Json → List Token
  | arr items => .mark '[' :: tokensItems items ++ [.mark ']']
  | obj members => .mark '\x7b' :: tokensMembers members ++ [.mark '\x7d']
  | v => [.scalar v]

/-- The tokens of the items of an array, with commas between them. -/
def tokensItems : List Json → List Token
  | [] => []
  | [v] => tokens v
  | v :: rest => tokens v ++ .mark ',' :: tokensItems rest

/-- The tokens of the members of an object, with commas between them. -/
def tokensMembers : List (Option String × Json) → List Token
  | [] => []
  | [(k, v)] => .scalar (.str k) :: .mark ':' :: tokens v
  | (k, v) :: rest => .scalar (.str k) :: .mark ':' :: tokens v ++ .mark ',' :: tokensMembers rest

end

/-- A value whose numbers are natural numbers. -/
inductive Legible : Json → Prop where
  | null : Legible .null
  | bool (b : Bool) : Legible (.bool b)
  | nat (n : Nat) : Legible (.nat n)
  | str (s : Option String) : Legible (.str s)
  | arr {items : List Json} (h : ∀ v ∈ items, Legible v) : Legible (.arr items)
  | obj {members : List (Option String × Json)} (h : ∀ m ∈ members, Legible m.2) : Legible (.obj members)

theorem scans_items : ∀ {items : List Json}, (∀ v ∈ items, Scans v.compact.toList v.tokens) →
    Scans (compactItems items).toList (tokensItems items)
  | [], _ => fun tokens => ⟨_, rfl, .between tokens⟩
  | [v], h => by simpa [compactItems, tokensItems] using h v (by simp)
  | v :: w :: rest, h => by
      obtain ⟨hv, hrest⟩ := List.forall_mem_cons.1 h
      have hitems := ((hv.mark (c := ',') rfl).append_scans (scans_items hrest))
      simpa [compactItems, tokensItems] using hitems

theorem scans_members : ∀ {members : List (Option String × Json)},
    (∀ m ∈ members, Scans m.2.compact.toList m.2.tokens) →
      Scans (compactMembers members).toList (tokensMembers members)
  | [], _ => fun tokens => ⟨_, rfl, .between tokens⟩
  | [(k, v)], h => by
      have hkey := (scansWhole_quoteText k).scans.mark (c := ':') rfl
      simpa [compactMembers, tokensMembers] using hkey.append_scans (h (k, v) (by simp))
  | (k, v) :: m :: rest, h => by
      obtain ⟨hv, hrest⟩ := List.forall_mem_cons.1 h
      have hkey := (scansWhole_quoteText k).scans.mark (c := ':') rfl
      have hmember := (hkey.append_scans hv).mark (c := ',') rfl
      simpa [compactMembers, tokensMembers] using hmember.append_scans (scans_members hrest)

theorem scans_compact {v : Json} (h : v.Legible) : Scans v.compact.toList v.tokens := by
  induction h with
  | null => exact scans_word rfl rfl
  | bool b => cases b <;> exact scans_word rfl rfl
  | nat n =>
      have hword : (Numeral.ofNat n).chars.all inWord = true := by
        rw [chars_ofNat, List.all_eq_true]
        exact fun c hc => inWord_of_isDigit (Nat.isDigit_of_mem_toDigits (by decide) (by decide) hc)
      simpa [compact, tokens, Json.nat] using scans_word hword (word?_ofNat n)
  | str s => simpa [compact, tokens] using (scansWhole_quoteText s).scans
  | arr _ ih =>
      have hopen := scansWhole_mark (c := '[') rfl
      simpa [compact, tokens] using ((hopen.append_scans (scans_items ih)).mark (c := ']') rfl).scans
  | obj _ ih =>
      have hopen := scansWhole_mark (c := '\x7b') rfl
      simpa [compact, tokens] using ((hopen.append_scans (scans_members ih)).mark (c := '\x7d') rfl).scans

theorem tokens?_compact {v : Json} (h : v.Legible) : tokens? v.compact.toList = some v.tokens := by
  obtain ⟨scan, hscan, hholds⟩ := scans_compact h []
  rw [tokens?, hscan, Option.bind_eq_bind, Option.bind_some, hholds.finish_eq]
  simp

/-! ## Reading -/

/-- Tokens that are read as a value wherever one may stand. -/
def Reads (ts : List Token) (v : Json) : Prop :=
  ∀ frames, ts.foldlM Reading.step ⟨frames, .value⟩ = some ⟨frames, .separator v⟩

/-- The first item of an array is read like a later one: no value begins with the mark that closes it. -/
theorem foldlM_firstItem (frames : List Frame) (v : Json) (rest : List Json) (ts : List Token) :
    (tokensItems (v :: rest) ++ ts).foldlM Reading.step ⟨frames, .firstItem⟩ =
      (tokensItems (v :: rest) ++ ts).foldlM Reading.step ⟨.items [] :: frames, .value⟩ := by
  cases rest <;> cases v <;> simp [tokensItems, tokens, Reading.step]

theorem foldlM_firstKey (frames : List Frame) (m : Option String × Json) (rest : List (Option String × Json))
    (ts : List Token) :
    (tokensMembers (m :: rest) ++ ts).foldlM Reading.step ⟨frames, .firstKey⟩ =
      (tokensMembers (m :: rest) ++ ts).foldlM Reading.step ⟨frames, .key []⟩ := by
  cases rest <;> simp [tokensMembers, Reading.step]

theorem reads_items (frames : List Frame) : ∀ {v : Json} {rest : List Json} (done : List Json),
    (∀ w ∈ v :: rest, Reads w.tokens w) →
      (tokensItems (v :: rest) ++ [Token.mark ']']).foldlM Reading.step ⟨.items done :: frames, .value⟩ =
        some ⟨frames, .separator (.arr (done.reverse ++ v :: rest))⟩
  | v, [], done, h => by
      rw [tokensItems, foldlM_append_of_eq (h v List.mem_cons_self _)]
      simp [Reading.step, Reading.close?]
  | v, w :: rest, done, h => by
      obtain ⟨hv, hrest⟩ := List.forall_mem_cons.1 h
      rw [tokensItems, List.append_assoc, foldlM_append_of_eq (hv _)]
      · simpa [Reading.step, Reading.close?] using reads_items frames (v :: done) hrest
      · simp

/-- A key, the mark behind it and its value. -/
theorem reads_member (frames : List Frame) (done : List (Option String × Json)) (k : Option String) {v : Json}
    (h : Reads v.tokens v) (ts : List Token) :
    (Token.scalar (.str k) :: .mark ':' :: (v.tokens ++ ts)).foldlM Reading.step ⟨frames, .key done⟩ =
      ts.foldlM Reading.step ⟨.members done k :: frames, .separator v⟩ := by
  have hkey : Reading.step ⟨frames, .key done⟩ (.scalar (.str k)) = some ⟨frames, .colon done k⟩ := rfl
  have hcolon : Reading.step ⟨frames, .colon done k⟩ (.mark ':') = some ⟨.members done k :: frames, .value⟩ :=
    rfl
  rw [foldlM_cons_of_eq hkey, foldlM_cons_of_eq hcolon, foldlM_append_of_eq (h _)]

theorem reads_members (frames : List Frame) : ∀ {k : Option String} {v : Json}
    {rest : List (Option String × Json)} (done : List (Option String × Json)),
    (∀ m ∈ (k, v) :: rest, Reads m.2.tokens m.2) →
      (tokensMembers ((k, v) :: rest) ++ [Token.mark '\x7d']).foldlM Reading.step ⟨frames, .key done⟩ =
        some ⟨frames, .separator (.obj (done.reverse ++ (k, v) :: rest))⟩
  | k, v, [], done, h => by
      rw [tokensMembers, List.cons_append, List.cons_append, reads_member frames done k (h (k, v) (by simp))]
      simp [Reading.step, Reading.close?]
  | k, v, (k', v') :: rest, done, h => by
      obtain ⟨hv, hrest⟩ := List.forall_mem_cons.1 h
      rw [tokensMembers]
      · simp only [List.cons_append, List.append_assoc]
        rw [reads_member frames done k hv]
        simpa [Reading.step, Reading.close?] using reads_members frames ((k, v) :: done) hrest
      · simp

theorem reads_tokens {v : Json} (h : v.Legible) : Reads v.tokens v := by
  induction h with
  | null | bool | nat | str => intro frames; simp [tokens, Json.nat, Reading.step, Reading.open?]
  | @arr items _ ih =>
      intro frames
      cases items with
      | nil => rfl
      | cons v rest =>
          rw [tokens, List.cons_append, List.foldlM_cons]
          exact (foldlM_firstItem frames v rest _).trans (reads_items frames [] ih)
  | @obj members _ ih =>
      intro frames
      cases members with
      | nil => rfl
      | cons m rest =>
          rw [tokens, List.cons_append, List.foldlM_cons]
          exact (foldlM_firstKey frames m rest _).trans (reads_members frames [] ih)

theorem ofTokens?_tokens {v : Json} (h : v.Legible) : ofTokens? v.tokens = some v := by
  rw [ofTokens?, reads_tokens h, Option.bind_eq_bind, Option.bind_some]
  rfl

/-- The text of a value is read as the value. -/
theorem parse_compact {v : Json} (h : v.Legible) : parse v.compact = some v := by
  rw [parse, tokens?_compact h, Option.bind_eq_bind, Option.bind_some, ofTokens?_tokens h]

end ModeTree.Json
