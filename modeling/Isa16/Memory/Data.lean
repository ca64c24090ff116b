/-!
# Data memory

65536 words kept as 131072 bytes: word `n` is byte `2n` (high) followed by byte
`2n + 1` (low). Words and bytes are two views of the same contents, and
`word_setWord` and `bytes_setWord` say how a write to one shows in the other.
-/

namespace Isa16

structure DataMemory where
  bytes : Vector UInt8 131072

namespace DataMemory

def empty : DataMemory := ⟨Vector.replicate 131072 0⟩

def clear (m : DataMemory) : DataMemory := ⟨m.bytes.map fun _ => 0⟩

theorem high_lt (addr : UInt16) : 2 * addr.toNat < 131072 := by
  have := addr.toNat_lt; omega

theorem low_lt (addr : UInt16) : 2 * addr.toNat + 1 < 131072 := by
  have := addr.toNat_lt; omega

def word (m : DataMemory) (addr : UInt16) : UInt16 :=
  have := high_lt addr
  have := low_lt addr
  UInt16.ofNat (256 * m.bytes[2 * addr.toNat].toNat + m.bytes[2 * addr.toNat + 1].toNat)

def setWord (m : DataMemory) (addr value : UInt16) : DataMemory :=
  ⟨(m.bytes.set (2 * addr.toNat) (UInt8.ofNat (value.toNat / 256)) (high_lt addr)).set
    (2 * addr.toNat + 1) (UInt8.ofNat value.toNat) (low_lt addr)⟩

def setByte (m : DataMemory) (index : Fin 131072) (value : UInt8) : DataMemory :=
  ⟨m.bytes.set index value⟩

/-- The words that are not zero, with their addresses. -/
def nonzeroWords (m : DataMemory) : List (UInt16 × UInt16) :=
  (List.range 65536).filterMap fun n =>
    let addr := UInt16.ofNat n
    let value := m.word addr
    if value = 0 then none else some (addr, value)

/-- How many bytes there are, and how many of them are not zero. -/
def summary (m : DataMemory) : String :=
  let nonzero := m.bytes.toArray.foldl (fun n b => if b = 0 then n else n + 1) 0
  s!"DataMemory \x7b bytes: 131072, nonzero: {nonzero} \x7d"

/-! ## Reading after a write -/

theorem clear_eq_empty (m : DataMemory) : m.clear = empty := by
  simp only [clear, empty, mk.injEq]
  ext i hi
  simp

theorem bytes_setWord (m : DataMemory) (addr value : UInt16) (i : Nat) (hi : i < 131072) :
    (m.setWord addr value).bytes[i] =
      if i = 2 * addr.toNat then UInt8.ofNat (value.toNat / 256)
      else if i = 2 * addr.toNat + 1 then UInt8.ofNat value.toNat
      else m.bytes[i] := by
  simp only [setWord, Vector.getElem_set]
  grind

theorem word_setWord (m : DataMemory) (addr value b : UInt16) :
    (m.setWord addr value).word b = if b = addr then value else m.word b := by
  have hv := value.toNat_lt
  by_cases h : b = addr
  · subst h
    apply UInt16.toNat_inj.1
    simp [word, bytes_setWord]
    omega
  · have h' : b.toNat ≠ addr.toNat := fun e => h (UInt16.toNat_inj.1 e)
    simp only [word, bytes_setWord, h, if_false]
    rw [if_neg (by omega), if_neg (by omega), if_neg (by omega), if_neg (by omega)]

theorem word_empty (addr : UInt16) : empty.word addr = 0 := by
  simp [empty, word]

end DataMemory

end Isa16
