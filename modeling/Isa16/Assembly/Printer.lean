import Isa16.Assembly.Basic
/-!
# Views of an assembled source

The expanded source, which shows what each line of the source came to, and the
listing, which has the code one word a line behind the labels as comments.
-/

namespace Isa16.Assembly

/-! ## Expanded source -/

/-- A branch to a symbol with the displacement that stands for it. -/
def branchText? (symbols : SymbolTable) (pc : Nat) (text : String) : Option String :=
  let (name, tokens) := cutInstruction (Text.code text.toList)
  match Opcode.ofMnemonic? (String.ofList name), tokens with
  | some op, [reg, '.' :: target] =>
    if op = .brz ∨ op = .brn then
      symbols[String.ofList target]?.map fun addr =>
        let offset : Int := addr.toNat - pc
        op.text [String.ofList reg, toString offset] ++ " //" ++ text
    else none
  | _, _ => none

/-- A laid out line at address `pc` as source code. -/
def Line.display (symbols : SymbolTable) (pc : Nat) : Line → String
  | .note text => text
  | .label name => "//." ++ name ++ ":"
  | .made i => i.text
  | .written text => (branchText? symbols pc text).getD text

/-- The expanded source. -/
def intermediate (a : Assembly) : String :=
  "\n".intercalate <| (addressed (·.val.width) 0 a.layout.lines).map fun (pc, x) =>
    x.val.display a.symbols pc

/-! ## Listing -/

/-- A label of the listing, with its number in the order of names. -/
def symbolLine (index : Nat) (name : String) (addr : UInt16) : String :=
  "//  " ++ Text.padStart 3 (toString index) ++ ": ." ++ name ++ " at " ++ Text.Hex.word addr

/-- The labels of the listing. -/
def symbolLines (symbols : SymbolTable) : List String :=
  if symbols.isEmpty then ["// No symbols used"]
  else "// Symbols:" :: symbols.toList.mapIdx fun index (name, addr) => symbolLine index name addr

/-- The code one word a line, with the labels as comments. -/
def listing (a : Assembly) : String :=
  "\n".intercalate <|
    "// Assembled with sc16-asm" :: symbolLines a.symbols ++ "@0" :: a.program.words.toList.map Text.Hex.word

end Isa16.Assembly
