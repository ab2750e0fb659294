import TileProgram.Diagnostic
import TileProgram.Json.Basic

/-!
# Diagnostics as JSON
-/

namespace TileProgram

def Diagnostic.toJson (d : Diagnostic) : Json :=
  .object [("severity", .string d.severity.name),
    ("message", .string d.message), ("site", .string d.site.text),
    ("notes", Json.list Json.string d.notes),
    ("help", Json.option Json.string d.help)]

end TileProgram
