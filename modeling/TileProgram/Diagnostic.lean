import Std.Data.HashMap
import TileProgram.Id

/-!
# Diagnostics

A diagnostic points at a site of a kernel: its header, a tile or an operation.
A listing turns sites into spans of its text; a site the listing does not show
falls back to the header.
-/

namespace TileProgram

structure Span where
  first : Nat
  last : Nat
  deriving DecidableEq, Repr

inductive Site where
  | nowhere
  | kernel
  | tile (name : String)
  | op (id : OpId)
  deriving DecidableEq, Hashable, Repr

def Site.text : Site → String
  | nowhere => "<none>"
  | kernel => "kernel"
  | tile name => s!"tile '{name}'"
  | op id => s!"op {id.text}"

/-- Spans of the sites of a listing, each site at most once. -/
structure SpanMap where
  entries : Std.HashMap Site Span

namespace SpanMap

def empty : SpanMap := ⟨∅⟩

/-- Record a span; a later span of the same site takes its place. -/
def insert (m : SpanMap) (site : Site) (span : Span) : SpanMap :=
  ⟨m.entries.insert site span⟩

def get? (m : SpanMap) (site : Site) : Option Span := m.entries[site]?

def size (m : SpanMap) : Nat := m.entries.size

/-- The span of a site, else of the header, else the start of the text. -/
def lookup (m : SpanMap) (site : Site) : Span :=
  ((m.get? site).or (m.get? .kernel)).getD ⟨0, 0⟩

end SpanMap

inductive Severity where
  | error
  | warning
  deriving DecidableEq, Repr

def Severity.name : Severity → String
  | error => "error"
  | warning => "warning"

structure Diagnostic where
  severity : Severity
  message : String
  site : Site
  notes : List String
  help : Option String
  deriving DecidableEq, Repr

namespace Diagnostic

def error (message : String) (site : Site) : Diagnostic :=
  ⟨.error, message, site, [], none⟩

def warning (message : String) (site : Site) : Diagnostic :=
  ⟨.warning, message, site, [], none⟩

def withNote (d : Diagnostic) (note : String) : Diagnostic :=
  { d with notes := d.notes ++ [note] }

def withHelp (d : Diagnostic) (help : String) : Diagnostic :=
  { d with help := some help }

def plainLines (d : Diagnostic) : List String :=
  [s!"{d.severity.name}: {d.message}"]
    ++ d.notes.map (fun note => s!"  note: {note}")
    ++ (d.help.map fun help => s!"  help: {help}").toList

end Diagnostic

end TileProgram
