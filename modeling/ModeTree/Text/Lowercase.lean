import ModeTree.Text.CaseData
import ModeTree.Text.Ranges

/-!
# Lowercase

The full lowercase mapping. Every letter has its own lowercase form but for two: a capital I with a
dot above becomes two characters, and a capital sigma at the end of a word takes its final form.
-/

namespace ModeTree.Text

/-- Lowercase form of one character, where no neighbour matters. -/
def lowerChar (c : Char) : List Char :=
  -- ASCII needs no look into the table
  if c.toNat < 0x80 then [c.toLower]
  else if c = 'İ' then ['i', '\u0307']
  else
    match caseRuns.findSome? (·.lower? c.toNat) with
    | some code => [Char.ofNat code]
    | none => [c]

/-- Whether the first character that is not passed over is a cased letter. -/
def startsCased (cs : List Char) : Bool :=
  match cs.dropWhile fun c => inRanges ignorableRanges c.toNat with
  | [] => false
  | c :: _ => inRanges casedRanges c.toNat

/-- Lowercase form of a text that follows the characters of `before`, nearest first. A sigma is final
when a cased letter stands before it and none after it. -/
def lowerAfter (before : List Char) : List Char → List Char
  | [] => []
  | c :: rest =>
    if c = 'Σ' then
      (if startsCased before && !startsCased rest then 'ς' else 'σ') :: lowerAfter (c :: before) rest
    else lowerChar c ++ lowerAfter (c :: before) rest

/-- Lowercase form of a text. -/
def lower (cs : List Char) : List Char := lowerAfter [] cs

/-- Lowercase form of a string. -/
def lowercase (s : String) : String := String.ofList (lower s.toList)

/-- Lowercase form in which only the letters A to Z change. -/
def lowerAscii (cs : List Char) : List Char := cs.map Char.toLower

@[simp] theorem lower_nil : lower [] = [] := rfl

@[simp] theorem toList_lowercase (s : String) : (lowercase s).toList = lower s.toList := by
  simp [lowercase]

example : lowercase "ΑΣ" = "ας" := by decide +kernel

example : lowercase "ΑΣΑ Σ" = "ασα σ" := by decide +kernel

example : lowercase "İẞK" = "i\u0307ßk" := by decide +kernel

end ModeTree.Text
