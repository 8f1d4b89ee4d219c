/-
  The command line on the system at hand.
-/
import Mispredict.Cli.Run

namespace Mispredict.Cli

/-- A failed file operation of which the system gives a code; some calls give it with the opposite
    sign. -/
def coded (code : UInt32) (details : String) : FileFault :=
  let code := min code (0 - code)
  if code = 36 then .nameTooLong
  else .other (details ++ " (os error " ++ toString code ++ ")")

/-- The cause of a failed file operation. -/
def fileFault : IO.Error → FileFault
  | .noFileOrDirectory .. => .notFound
  | .inappropriateType _ code _ => if code = 21 then .isADirectory else .notADirectory
  | .alreadyExists .. => .alreadyExists
  | .invalidArgument _ code details => coded code details
  | .permissionDenied _ code details => coded code details
  | .resourceExhausted _ code details => coded code details
  | .otherError code details => coded code details
  | .userError _ => .other "stream did not contain valid UTF-8"
  | e => .other (toString e)

/-- The outcome of a file operation. -/
def attempt {α : Type} (act : IO α) : IO (Except FileFault α) := do
  match ← act.toBaseIO with
  | .ok a => return .ok a
  | .error e => return .error (fileFault e)

/-- A directory as the system takes it. -/
def directory (dir : String) : IO.FS.DirEntry := ⟨dir, ""⟩

/-- The names of the plain files of a directory. -/
def plainFiles (dir : String) : IO (List String) := do
  let mut names := []
  for entry in ← (directory dir).root.readDir do
    if (← entry.path.metadata).type == .file then
      names := entry.fileName :: names
  return names

instance : Host IO where
  readFile path := attempt (IO.FS.readFile path)
  listFiles path := attempt (plainFiles path)
  isDir path := (directory path).root.isDir
  makeDir path := attempt (IO.FS.createDir path)
  writeFile path text := attempt (IO.FS.writeFile path text)
  print line := IO.println line

end Mispredict.Cli

/-- Checks the sources of a directory for speculative non-interference. -/
def main (args : List String) : IO UInt32 := do
  let ending ← Mispredict.Cli.run args
  match ending.complaint with
  | some text => IO.eprintln text
  | none => pure ()
  return ending.exitCode.toUInt32
