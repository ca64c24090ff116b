/-!
# Instruction words

A word holds a seven-bit operation code and three three-bit fields:

```text
 15      9 8   6 5   3 2   0
+---------+-----+-----+-----+
|   op    | da  | aa  | ba  |
+---------+-----+-----+-----+
```

Branches read `da` and `ba` together as a six-bit displacement in two's
complement. Packing and unpacking are inverse to each other.
-/

namespace Isa16

-- The type is spelled out so that literals of registers and operation codes mean the same under any import.
instance neZero_registers : @NeZero Nat Zero.ofOfNat0 8 := ⟨Nat.succ_ne_zero 7⟩

instance neZero_opcodes : @NeZero Nat Zero.ofOfNat0 128 := ⟨Nat.succ_ne_zero 127⟩

/-- The number of a register. -/
abbrev Reg := Fin 8

/-- The fields of a word, whatever its operation code means. -/
structure Fields where
  op : Fin 128
  da : Fin 8
  aa : Fin 8
  ba : Fin 8
deriving DecidableEq

namespace Fields

/-- Fields from numbers of any size; each keeps the low bits that fit. -/
def truncate (op da aa ba : Nat) : Fields :=
  ⟨Fin.ofNat 128 op, Fin.ofNat 8 da, Fin.ofNat 8 aa, Fin.ofNat 8 ba⟩

def pack (f : Fields) : UInt16 := UInt16.ofNat (f.op * 512 + f.da * 64 + f.aa * 8 + f.ba)

def unpack (w : UInt16) : Fields :=
  truncate (w.toNat / 512) (w.toNat / 64) (w.toNat / 8) w.toNat

theorem toNat_pack (f : Fields) : f.pack.toNat = f.op * 512 + f.da * 64 + f.aa * 8 + f.ba := by
  have := f.op.isLt; have := f.da.isLt; have := f.aa.isLt; have := f.ba.isLt
  simp only [pack, UInt16.toNat_ofNat']
  omega

@[simp] theorem unpack_pack (f : Fields) : unpack f.pack = f := by
  have := f.op.isLt; have := f.da.isLt; have := f.aa.isLt; have := f.ba.isLt
  cases f
  simp only [unpack, truncate, toNat_pack, mk.injEq, Fin.ext_iff, Fin.val_ofNat] at *
  omega

@[simp] theorem pack_unpack (w : UInt16) : (unpack w).pack = w := by
  apply UInt16.toNat_inj.1
  have := w.toNat_lt
  simp only [toNat_pack, unpack, truncate, Fin.val_ofNat]
  omega

end Fields

/-! ## Displacements -/

/-- The displacement held in `da` (high bits) and `ba`. -/
def displacement (da ba : Fin 8) : Int := Int.bmod (8 * da + ba) 64

/-- The two halves of a displacement, of which the low six bits are kept. -/
def splitDisplacement (d : Int) : Fin 8 × Fin 8 :=
  let bits := (d % 64).toNat
  (Fin.ofNat 8 (bits / 8), Fin.ofNat 8 bits)

theorem displacement_bounds (da ba : Fin 8) : -32 ≤ displacement da ba ∧ displacement da ba ≤ 31 := by
  have := da.isLt; have := ba.isLt
  simp only [displacement, Int.bmod_def]
  omega

theorem displacement_split {d : Int} (h : -32 ≤ d) (h' : d ≤ 31) :
    displacement (splitDisplacement d).1 (splitDisplacement d).2 = d := by
  simp only [displacement, splitDisplacement, Fin.val_ofNat, Int.bmod_def]
  omega

theorem split_displacement (da ba : Fin 8) : splitDisplacement (displacement da ba) = (da, ba) := by
  revert da ba; decide

end Isa16
