/-!
# Hosts

A command reaches files, variables and output only through a host, so that the
same command runs on a disk or in memory.
-/

namespace TileProgram

structure Host (m : Type → Type) where
  readText : String → m (Except String String)
  writeText : String → String → m (Except String Unit)
  isPresent : String → m Bool
  environment : String → m (Option String)
  programFolders : m (List String)
  print : String → m Unit
  report : String → m Unit

end TileProgram
