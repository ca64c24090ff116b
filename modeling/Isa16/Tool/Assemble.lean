import Isa16.Tool.Report
import Isa16.Assembly.Printer
import Isa16.Json
/-!
# Assembling a file

The tool that assembles a source and writes the code, and on request the
expanded source, the labels, and all of the result as JSON.
-/

namespace Isa16.Tool

structure AssembleOptions where
  input : String
  output : String
  /-- Writes the listing in place of the bare words. -/
  listing : Bool := false
  intermediate? : Option String := none
  symbols? : Option String := none
  json? : Option String := none

def symbolListJson (a : Assembly) : Json :=
  .array (a.symbolList.map fun (addr, name) =>
    .object [("addr", .number addr.toNat), ("name", .string name)])

def assemblyJson (a : Assembly) : Json :=
  .object
    [("hex", .string a.hex),
      ("symbols", .object (a.symbols.toList.map fun (name, addr) => (name, .number addr.toNat))),
      ("intermediate", .string a.intermediate),
      ("line_map", .array (a.lineMap.toList.map .number))]

/-- The files to write for a result. -/
def assemblyWrites (o : AssembleOptions) (a : Assembly) : List (String × String) :=
  let code := if o.listing then a.listing ++ "\n" else a.hex
  (o.output, code) ::
    (o.intermediate?.map fun path => (path, a.intermediate)).toList
      ++ (o.symbols?.map fun path => (path, (symbolListJson a).render)).toList
      ++ (o.json?.map fun path => (path, (assemblyJson a).render)).toList

/-- Assembles a source file. -/
def assembleFile (o : AssembleOptions) (files : Files) : Report :=
  Report.ofExcept do
    match assemble (← readSource files o.input) with
    | .ok a => return { writes := assemblyWrites o a }
    | .error d => throw ⟨d.message, none⟩

end Isa16.Tool
