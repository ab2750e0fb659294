import TileProgram.CommandLine.Run

/-!
# The program

Commands run on the disk, with the arguments and the environment of the process.
-/

namespace TileProgram
namespace Disk

def reason : IO.Error → String
  | .alreadyExists _ code details | .otherError code details | .resourceBusy
      code details
  | .resourceVanished code details | .unsupportedOperation code details
  | .hardwareFault code details | .unsatisfiedConstraints code details
  | .illegalOperation code details | .protocolError code details | .timeExpired
      code details
  | .interrupted _ code details | .noFileOrDirectory _ code details
  | .invalidArgument _ code details | .permissionDenied _ code details
  | .resourceExhausted _ code details | .inappropriateType _ code details
  | .noSuchThing _ code details => s!"{details} (os error {code})"
  | .unexpectedEof => "unexpected end of file"
  | .userError details => details

def readText (path : String) : IO (Except String String) := do
  try
    match String.fromUTF8? (← IO.FS.readBinFile path) with
    | some text => return .ok text
    | none => return .error "stream did not contain valid UTF-8"
  catch failure =>
    return .error (reason failure)

def writeText (path text : String) : IO (Except String Unit) := do
  try
    IO.FS.writeFile path text
    return .ok ()
  catch failure =>
    return .error (reason failure)

def programFolders : IO (List String) := do
  let first := (← IO.appPath).parent
  let second := first.bind (·.parent)
  let third := second.bind (·.parent)
  return [first, second, third].filterMap fun folder => folder.map (·.toString)

def host : Host IO where
  readText := readText
  writeText := writeText
  isPresent path := (System.mkFilePath [path]).pathExists
  environment name := IO.getEnv name
  programFolders := programFolders
  print text := IO.print text
  report line := IO.eprintln line

end Disk
end TileProgram

def main (args : List String) : IO UInt32 := do
  return (← TileProgram.CommandLine.run TileProgram.Disk.host args).toUInt32
