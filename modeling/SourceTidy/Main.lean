import SourceTidy.Disk

/-! # The command

Runs the program on the disk: takes a picture of it, runs the program on the picture, prints what it
has to say, and writes back what it has changed.
-/

open SourceTidy in
def main (arguments : List String) : IO UInt32 := do
  let colours := (← IO.getEnv "NO_COLOR").isNone
  let logFilter ← IO.getEnv "CODECHECK_LOG"
  let wishes := match CommandLine.parse arguments with
    | .ok given => given.wishes
    | .error _ => {}
  let picture ← Disk.takePicture wishes
  let ending := Program.run ⟨colours, logFilter⟩ arguments picture.volume
  Disk.writeChanges picture ending.volume
  ending.notes.forM IO.eprintln
  IO.print ending.output
  return UInt32.ofNat ending.exitCode
