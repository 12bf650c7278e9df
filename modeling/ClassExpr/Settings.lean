import ClassExpr.Error
import ClassExpr.Text.Blank

set_option autoImplicit false

/-! The two settings of an expression's reader, and what makes them acceptable: a separator of one
to eight characters that neither contains white space nor has a meaning of its own, and a bounded
depth. The separator is judged first. -/

namespace ClassExpr

structure Settings where
  /-- Stands between a variant and what it applies to. -/
  separator : String := ":"
  /-- How deep groups and bodies of variants may nest before an interior is kept as one leaf. -/
  maxDepth : Nat := 128
deriving Repr, DecidableEq

namespace Settings

/-- A character that a separator cannot contain because it has a meaning of its own. -/
def isReserved (c : Char) : Bool :=
  c == '(' || c == ')' || c == '[' || c == ']' || c == '!'

def separatorFault? (separator : List Char) : Option SeparatorFault :=
  if separator.isEmpty then some .empty
  else if 8 < separator.length then some .tooLong
  else if separator.any Text.isBlank then some .blank
  else if separator.any isReserved then some .reserved
  else none

def depthFault? (maxDepth : Nat) : Option SettingsFault :=
  if maxDepth = 0 then some .depthTooSmall
  else if greatestDepth < maxDepth then some .depthTooGreat
  else none

def fault? (settings : Settings) : Option Error :=
  match separatorFault? settings.separator.toList with
  | some cause => some (.separator settings.separator cause)
  | none => (depthFault? settings.maxDepth).map .settings

def checked (settings : Settings) : Except Error Settings :=
  match settings.fault? with
  | some error => .error error
  | none => .ok settings

end Settings

end ClassExpr
