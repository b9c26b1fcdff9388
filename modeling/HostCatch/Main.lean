import HostCatch.Command.View

namespace HostCatch

/-- An error of the operating system, as a fault. -/
def systemFault (path : String) : IO.Error → Fault
  | .noFileOrDirectory _ _ _ => .file .opening path .missing
  | e => .text (utf8 (toString e))

/-- The files of the machine. -/
def diskFiles : Files IO where
  read path := do
    try
      let data ← IO.FS.readBinFile path
      pure (.ok data.data.toList)
    catch e => pure (.error (systemFault path e))
  write path data := do
    try
      IO.FS.writeBinFile path ⟨data.toArray⟩
      pure (.ok ())
    catch e => pure (.error (systemFault path e))

def displayOf (stream : IO.FS.Stream) : IO Display := do
  pure (if ← stream.isTty then .styled else .plain)

/-- Shows the picker after each key until it is left. A line of input names a key, and any other
line is typed into the filter. -/
partial def pickLoop (input output : IO.FS.Stream) (p : Picker) : IO Unit := do
  output.putStrLn p.view
  output.flush
  let line ← input.getLine
  if line.isEmpty then pure ()
  else
    let key := Key.ofText (String.ofList (line.toList.takeWhile (· ≠ '\n')))
    let (p, left) ← p.advance diskFiles (.key key)
    if left then pure () else pickLoop input output p

/-- Does what the arguments ask for, and gives the exit code. -/
def runCommand (args : List String) : IO UInt32 := do
  let stdout ← IO.getStdout
  let stderr ← IO.getStderr
  let complaints ← displayOf stderr
  let exit ←
    match Invocation.ofArgs args with
    | .finish exit => pure exit
    | .once verbose o => o.runOnce diskFiles verbose (← displayOf stdout) complaints
    | .pick _ o => do
      let (p, _) := ({ options := o } : Picker).update (← Picker.reading diskFiles o)
      pickLoop (← IO.getStdin) stdout p
      pure {}
  exit.notes.forM fun note => stderr.putStrLn note
  stdout.putStr exit.printed
  stderr.putStr exit.complaint
  pure exit.code

end HostCatch

def main (args : List String) : IO UInt32 :=
  HostCatch.runCommand args
