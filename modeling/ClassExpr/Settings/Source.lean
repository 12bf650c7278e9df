import ClassExpr.Host
import ClassExpr.Settings.File

set_option autoImplicit false

/-! Where settings come from: a file, if one is named, and a separator that replaces that of the
file. The settings of a file are judged before the separator is replaced, and again afterwards. -/

namespace ClassExpr.Settings

structure Source where
  separator : Option String := none
  /-- The path of a file. -/
  config : Option String := none
deriving Repr, DecidableEq

variable {m : Type → Type} [Monad m]

/-- Reads the settings of a file in a given format, and does not judge them. -/
def ofPathAs (host : Host m) (format : Format) (path : String) (reading : Reading := ofText) :
    ExceptT Error m Settings :=
  ExceptT.mk do
    return ofFile reading format path (← (host.read path).run)

def ofPath (host : Host m) (path : String) (reading : Reading := ofText) :
    ExceptT Error m Settings := do
  match Format.ofPath? path with
  | none => throw (.settings (.unsupportedFormat path))
  | some format =>
      let settings ← ofPathAs host format path reading
      liftExcept settings.checked
where
  liftExcept (value : Except Error Settings) : ExceptT Error m Settings :=
    ExceptT.mk (pure value)

def Source.load (host : Host m) (source : Source) (reading : Reading := ofText) :
    ExceptT Error m Settings := do
  let settings ← match source.config with
    | none => pure {}
    | some path => ofPath host path reading
  ExceptT.mk (pure (settings.withSeparator source.separator).checked)

end ClassExpr.Settings
