import HotRegion.CommandLine.Run

/-! # Entry point -/

namespace HotRegion.CommandLine

/-- The contents of an input. -/
def readInput : Input → IO (Except RunError (List UInt8))
  | .standard => do
    let stdin ← IO.getStdin
    return .ok (← stdin.readBinToEnd).toList
  | .file path => do
    try
      return .ok (← IO.FS.readBinFile path).toList
    catch
      | .noFileOrDirectory .. => return .error (.noFile path)
      | e => return .error (.unreadable path (toString e))

end HotRegion.CommandLine

open HotRegion.CommandLine in
def main (args : List String) : IO UInt32 := do
  let output ← run 0x1000000000000000 readInput args
  IO.print output.out
  IO.eprint output.err
  return output.exitCode.toUInt32
