import TreeSchema.Program

/-! The program as it is started: it reads what the arguments name, and leaves
everything else to `runProgram`. -/
namespace TreeSchema

open System (FilePath)

/-- The fault that a failure of the system stands for. -/
def FileFault.ofFailure (failure : IO.Error) : FileFault :=
  match failure with
  | .noFileOrDirectory .. => .missing
  | .inappropriateType _ _ "not a directory" => .notDirectory
  | .inappropriateType .. => .isDirectory
  | failure => .other (toString failure)

def readFileEntry (path : FilePath) : IO Entry := do
  try return .file (← IO.FS.readBinFile path)
  catch failure => return .unreadable (.ofFailure failure)

/-- Read a file, or the case files of a directory. -/
partial def readEntry (path : FilePath) : IO Entry := do
  if ← path.isDir then
    let mut entries := []
    for child in ← path.readDir do
      if (← child.path.isDir) || isCaseName child.fileName then
        entries := (child.fileName, ← readEntry child.path) :: entries
    return .directory entries
  else readFileEntry path

def readPath (path : String) : IO (Except FileFault Entry) := do
  if ← FilePath.pathExists path then return .ok (← readEntry path)
  match ← readFileEntry path with
  | .unreadable fault => return .error fault
  | entry => return .ok entry

def readDisk (paths : List String) : IO Disk := do
  let found ← paths.mapM fun path => do return (path, ← readPath path)
  return fun path => (found.lookup path).getD (.error .missing)

end TreeSchema

open TreeSchema in
def main (arguments : List String) : IO UInt32 := do
  let paths :=
    match CommandLine.read arguments with
    | .ok invocation => invocation.paths
    | .error _ => []
  let report := runProgram (← readDisk paths) arguments
  (← IO.getStdout).putStr report.output
  (← IO.getStderr).putStr report.errors
  return report.exitCode.toUInt32
