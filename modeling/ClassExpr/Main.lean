import ClassExpr.CommandLine.Run
import Std.Time.Format

set_option autoImplicit false

/-! The program on a real machine. Only what the machine does is here: files, the input, the clock
and the two outputs. -/

namespace ClassExpr.Machine

def faultOf : IO.Error → FileFault
  | .noFileOrDirectory _ _ _ => .notFound
  | .alreadyExists _ _ _ => .alreadyExists
  | .inappropriateType _ code _ => if code == 21 then .isDirectory else .notDirectory
  | .resourceBusy _ _ => .busy
  | other => .refused (toString other)

def attempt {T : Type} (action : IO T) : ExceptT FileFault IO T :=
  ExceptT.mk do
    try
      return .ok (← action)
    catch error =>
      return .error (faultOf error)

def entryOf (path : String) : IO.FS.DirEntry :=
  { root := ".", fileName := path }

partial def addBelow (place : List String) (directory : IO.FS.DirEntry)
    (entries : List (List String × Stored Nat)) : IO (List (List String × Stored Nat)) := do
  let mut entries := entries
  for entry in ← directory.path.readDir do
    let here := place ++ [entry.fileName]
    if ← entry.path.isDir then
      entries ← addBelow here entry ((here, .directory) :: entries)
    else
      let size ← try pure (← entry.path.metadata).byteSize catch _ => pure 0
      entries := (here, .file size.toNat) :: entries
  return entries

def survey : IO (FileTree Nat) := do
  let home := (Path.names (← IO.currentDir).toString).filter (fun name => !Path.isIdle name)
  let way := (List.range home.length).map (fun n => (home.take (n + 1), Stored.directory))
  return { home, entries := ← addBelow home (entryOf ".") way }

partial def readToEnd (stream : IO.FS.Stream) (read : ByteArray) : IO ByteArray := do
  let more ← stream.read 65536
  if more.isEmpty then return read else readToEnd stream (read ++ more)

def decoded (content : IO ByteArray) : ExceptT FileFault IO String := do
  ExceptT.mk (pure (Host.decode (← attempt content)))

def dateText : IO String := do
  let now ← Std.Time.Timestamp.now
  let date := Std.Time.DateTime.ofTimestamp now Std.Time.TimeZone.ZoneRules.UTC
  return date.format "uuuu-MM-dd'T'HH:mm:ss.SSSSSSSSS'Z'"

def host : Host IO where
  survey := survey
  read path := decoded (IO.FS.readBinFile path)
  makeDirectory path := attempt (IO.FS.createDir path)
  isDirectory path := (entryOf path).path.isDir
  create path := attempt (IO.FS.writeFile path "")
  append path text := attempt (IO.FS.withFile path .append (·.putStr text))
  sync path := attempt (IO.FS.withFile path .append (·.flush))
  rename source target := attempt (IO.FS.rename source target)
  input := decoded (do readToEnd (← IO.getStdin) .empty)
  now := dateText
  clock := IO.monoMsNow

end ClassExpr.Machine

def main (arguments : List String) : IO UInt32 := do
  let outcome ← ClassExpr.CommandLine.run ClassExpr.Machine.host arguments
  IO.print outcome.output
  for note in outcome.notes do
    IO.eprintln note
  return outcome.code.toUInt32
