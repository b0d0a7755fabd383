import ModeTree.Text.Ranges

/-!
# White space

The characters with the property `White_Space`, and trimming.
-/

namespace ModeTree.Text

/-- The characters with the property `White_Space`, as closed ranges of code points. -/
def whiteRanges : List (Nat × Nat) :=
  [(0x0009, 0x000D), (0x0020, 0x0020), (0x0085, 0x0085), (0x00A0, 0x00A0), (0x1680, 0x1680),
   (0x2000, 0x200A), (0x2028, 0x2029), (0x202F, 0x202F), (0x205F, 0x205F), (0x3000, 0x3000)]

/-- Whether a character is white space. -/
def isWhite (c : Char) : Bool := inRanges whiteRanges c.toNat

/-- The text without the white space at its start. -/
def trimStart (cs : List Char) : List Char := cs.dropWhile isWhite

/-- The text without the white space at its end. -/
def trimEnd : List Char → List Char
  | [] => []
  | c :: rest =>
    match trimEnd rest with
    | [] => if isWhite c then [] else [c]
    | d :: kept => c :: d :: kept

/-- The text without the white space at both ends. -/
def trim (cs : List Char) : List Char := trimEnd (trimStart cs)

@[simp] theorem trimStart_nil : trimStart [] = [] := rfl

@[simp] theorem trimEnd_nil : trimEnd [] = [] := rfl

@[simp] theorem trim_nil : trim [] = [] := rfl

/-- Trimming the end gives the empty text exactly when all characters are white. -/
theorem trimEnd_eq_nil_iff (cs : List Char) : trimEnd cs = [] ↔ ∀ c ∈ cs, isWhite c = true := by
  induction cs with
  | nil => simp
  | cons c rest ih =>
    cases h : trimEnd rest with
    | nil => by_cases hc : isWhite c <;> simp_all [trimEnd]
    | cons d kept =>
      have hrest : ¬ ∀ x ∈ rest, isWhite x = true := fun hall => by simp [ih.2 hall] at h
      simp only [trimEnd, h, List.mem_cons, forall_eq_or_imp, reduceCtorEq, false_iff, not_and]
      exact fun _ => hrest

end ModeTree.Text
