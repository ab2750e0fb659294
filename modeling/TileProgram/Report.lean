import TileProgram.Kernel.Listing
import TileProgram.Text.Split

/-!
# Reports

A diagnostic drawn next to the line of a listing that it points at.
-/

namespace TileProgram
namespace Listing

def lineAt (l : Listing) (offset : Nat) : Nat × String :=
  let bytes := l.text.toUTF8.toList.take offset
  let row := bytes.count 10
  (row + 1, (((Text.split '\n' l.text.toList)[row]?).map String.ofList).getD "")

def report (l : Listing) (file : String) (d : Diagnostic) : List String :=
  let (row, text) := l.lineAt (l.spans.lookup d.site).first
  [s!"[{d.severity.name}] {d.message}", s!"  --> {file}:{row} ({d.site.text})", s!"   | {text}"]
    ++ d.notes.map (fun note => s!"   = note: {note}")
    ++ (d.help.map fun help => s!"   = help: {help}").toList

end Listing
end TileProgram
