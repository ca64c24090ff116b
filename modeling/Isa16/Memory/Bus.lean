import Isa16.Memory.Data
/-!
# The bus

Where `ld` and `st` go. A bus answers an access or refuses it with a reason,
and is in a new state afterwards either way. Data memory never refuses; a
guarded memory refuses the addresses of its guard and then stays as it is.
-/

namespace Isa16

class Bus (β : Type) where
  read : β → UInt16 → Except String UInt16 × β
  write : β → UInt16 → UInt16 → Except String Unit × β

instance : Bus DataMemory where
  read m addr := (.ok (m.word addr), m)
  write m addr value := (.ok (), m.setWord addr value)

structure GuardedMemory where
  memory : DataMemory
  refuses : UInt16 → Bool

instance : Bus GuardedMemory where
  read g addr :=
    if g.refuses addr then (.error "read refused", g) else (.ok (g.memory.word addr), g)
  write g addr value :=
    if g.refuses addr then (.error "write refused", g)
    else (.ok (), { g with memory := g.memory.setWord addr value })

end Isa16
