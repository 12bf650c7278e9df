set_option autoImplicit false

/-! Patterns for paths. A question mark stands for one character, a star for any number of them,
two stars between slashes for any number of directories, and a class in brackets for one of its
members or, after an exclamation mark, for any other character. Everything else stands for
itself. -/

namespace ClassExpr.Glob

inductive Token where
  | char (c : Char)
  | anyChar
  | anySequence
  /-- Two stars and the slash after them, or two stars at the end. -/
  | anyDirectories
  | oneOf (members : List (Char × Char))
  | noneOf (members : List (Char × Char))
deriving Repr, DecidableEq

def isMember (members : List (Char × Char)) (c : Char) : Bool :=
  members.any (fun (first, last) => first ≤ c && c ≤ last)

/-! ### Reading -/

/-- The ranges of a class: two characters with a dash between them, or one that stands alone. -/
def ranges : List Char → List (Char × Char)
  | first :: '-' :: last :: cs => (first, last) :: ranges cs
  | c :: cs => (c, c) :: ranges cs
  | [] => []

inductive Reading where
  | outside (previous : Option Char)
  | inside (negated : Bool) (members : List Char)
deriving Repr, DecidableEq

def startsName (previous : Option Char) : Bool :=
  previous.all (· == '/')

/-- Reads the rest of a pattern. A class has at least one member, so that a bracket right after the
opening one does not close it. -/
def tokensFrom? : Reading → List Char → Option (List Token)
  | .outside _, [] => some []
  | .outside _, '?' :: cs => (tokensFrom? (.outside (some '?')) cs).map (.anyChar :: ·)
  | .outside _, '*' :: '*' :: '*' :: _ => none
  | .outside previous, '*' :: '*' :: '/' :: cs =>
      if startsName previous then (tokensFrom? (.outside (some '/')) cs).map (.anyDirectories :: ·)
      else none
  | .outside previous, '*' :: '*' :: cs =>
      if startsName previous && cs.isEmpty then some [.anyDirectories] else none
  | .outside _, '*' :: cs => (tokensFrom? (.outside (some '*')) cs).map (.anySequence :: ·)
  | .outside _, '[' :: '!' :: cs => tokensFrom? (.inside true []) cs
  | .outside _, '[' :: cs => tokensFrom? (.inside false []) cs
  | .outside _, c :: cs => (tokensFrom? (.outside (some c)) cs).map (.char c :: ·)
  | .inside _ _, [] => none
  | .inside negated members, c :: cs =>
      if c == ']' && !members.isEmpty then
        let found := ranges members.reverse
        (tokensFrom? (.outside (some ']')) cs).map
          ((if negated then .noneOf found else .oneOf found) :: ·)
      else tokensFrom? (.inside negated (c :: members)) cs

def tokens? (pattern : String) : Option (List Token) :=
  tokensFrom? (.outside none) pattern.toList

/-! ### Matching -/

def anyEnd (test : List Char → Bool) : List Char → Bool
  | [] => test []
  | c :: cs => test (c :: cs) || anyEnd test cs

/-- Whether a test holds for nothing or for what follows some slash. -/
def anyAfterSlash (test : List Char → Bool) : List Char → Bool
  | [] => test []
  | c :: cs => (c == '/' && test cs) || anyAfterSlash test cs

def isMatch : List Token → List Char → Bool
  | [], cs => cs.isEmpty
  | .anySequence :: tokens, cs => anyEnd (isMatch tokens) cs
  | .anyDirectories :: tokens, cs => isMatch tokens cs || anyAfterSlash (isMatch tokens) cs
  | .char expected :: tokens, c :: cs => c == expected && isMatch tokens cs
  | .anyChar :: tokens, _ :: cs => isMatch tokens cs
  | .oneOf members :: tokens, c :: cs => isMember members c && isMatch tokens cs
  | .noneOf members :: tokens, c :: cs => !isMember members c && isMatch tokens cs
  | _ :: _, [] => false

end ClassExpr.Glob
