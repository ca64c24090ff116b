import Isa16.Instruction.Opcode
/-!
# Instructions

A word whose operation code is in the table is an instruction. The instruction
keeps all fields, those its operands do not use included, so an instruction
and its word determine each other (`ofWord?_eq_some_iff`).
-/

namespace Isa16

structure Instruction where
  opcode : Opcode
  da : Fin 8
  aa : Fin 8
  ba : Fin 8
deriving DecidableEq

namespace Instruction

def fields (i : Instruction) : Fields := ⟨i.opcode.code, i.da, i.aa, i.ba⟩

def word (i : Instruction) : UInt16 := i.fields.pack

/-- The instruction a word holds, if its operation code is in the table. -/
def ofWord? (w : UInt16) : Option Instruction :=
  let f := Fields.unpack w
  (Opcode.ofCode? f.op).map fun op => ⟨op, f.da, f.aa, f.ba⟩

/-- The displacement in `da` and `ba`; only branches use it. -/
def offset (i : Instruction) : Int := displacement i.da i.ba

@[simp] theorem ofWord?_word (i : Instruction) : ofWord? i.word = some i := by
  simp [ofWord?, word, fields]

theorem ofWord?_eq_some_iff {w : UInt16} {i : Instruction} : ofWord? w = some i ↔ i.word = w := by
  constructor
  · intro h
    simp only [ofWord?, Option.map_eq_some_iff] at h
    obtain ⟨op, hop, rfl⟩ := h
    rw [word, fields, Opcode.code_of_ofCode? hop]
    exact Fields.pack_unpack w
  · rintro rfl
    exact ofWord?_word i

end Instruction

end Isa16
