import Thompson.CommandLine.Arguments
import Thompson.CommandLine.Run

/-!
The program: it reads its arguments and the one source they name, and leaves the
rest to `Request.run`.
-/
namespace Thompson

def readFailure : IO.Error → ReadFailure
  | .noFileOrDirectory .. => .notFound
  | .inappropriateType _ code _ => if code = 21 then .isDirectory else .notDirectory
  | .invalidArgument _ 36 _ => .nameTooLong
  | e => .other (toString e)

partial def readAll (stream : IO.FS.Stream) (read : ByteArray) : IO ByteArray := do
  let more ← stream.read 65536
  if more.isEmpty then pure read else readAll stream (read ++ more)

/-- Only the source that the request names is read. -/
def surroundings (r : Request) : IO Surroundings := do
  let terminal := (← (← IO.getStdout).isTty) && (← (← IO.getStderr).isTty)
  let nothing : Surroundings := { stdin := .empty, file := fun _ => .error .notFound, terminal }
  match r.file with
  | none => pure nothing
  | some "-" => pure { nothing with stdin := ← readAll (← IO.getStdin) .empty }
  | some path =>
    let content ← try .ok <$> IO.FS.readBinFile path catch e => pure (.error (readFailure e))
    pure { nothing with file := fun _ => content }

def answer (args : List String) : IO UInt32 := do
  match readArguments args with
  | .error refusal =>
    if refusal = .help then IO.println refusal.message else IO.eprintln refusal.message
    pure refusal.exitCode.toUInt32
  | .ok r =>
    let outcome := r.run (← surroundings r)
    IO.print outcome.stdout
    IO.eprint outcome.stderr
    pure outcome.code.toUInt32

end Thompson

def main (args : List String) : IO UInt32 := Thompson.answer args
