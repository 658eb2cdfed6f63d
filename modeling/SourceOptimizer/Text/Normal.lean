import SourceOptimizer.Text.Combining
import SourceOptimizer.Text.Compatible
import SourceOptimizer.Text.Composite

/-! Normal form of names: two spellings of one name are the same name. A name is taken apart into plain characters
and marks, the marks are put in the order of their classes, and what can be composed is composed again. -/
namespace SourceOptimizer.Text

def takeApart : Nat → Nat → Text
  | 0, c => [c]
  | depth + 1, c =>
    if c < 0x80 then [c]
    else if isSyllable c then syllableParts c
    else match plainShape? c with
      | some cs => cs
      | none =>
        match listedParts? c (composites.size / 3) 0 with
        | some (a, b) => takeApart depth a ++ [b]
        | none => [c]

def maxParts : Nat := 4

/-- Put a mark among marks in the order of their classes, after its equals. -/
def insertMark (c : Nat) : Text → Text
  | [] => [c]
  | d :: ds => if combiningClass c < combiningClass d then c :: d :: ds else d :: insertMark c ds

/-- Marks in order; `marks` are those since the last character that is none. -/
def orderMarks (marks : Text) : Text → Text
  | [] => marks
  | c :: cs =>
    if combiningClass c == 0 then marks ++ c :: orderMarks [] cs else orderMarks (insertMark c marks) cs

/-- Compose marks with the character `start` before them. A mark that cannot be composed is kept, and keeps those of
the same class after it from `start`. -/
def composeFrom (start : Nat) (kept : Text) : Text → Text
  | [] => start :: kept
  | c :: cs =>
    let free := match kept.getLast? with
      | none => true
      | some d => combiningClass d < combiningClass c
    match (if free then composite? start c else none) with
    | some s => composeFrom s kept cs
    | none =>
      if combiningClass c == 0 then start :: kept ++ composeFrom c [] cs else composeFrom start (kept ++ [c]) cs

def compose : Text → Text
  | [] => []
  | c :: cs => if combiningClass c == 0 then composeFrom c [] cs else c :: compose cs

def normalize (s : Text) : Text := compose (orderMarks [] (s.flatMap (takeApart maxParts)))

end SourceOptimizer.Text
