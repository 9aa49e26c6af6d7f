import Qemu.Virtio.PackedAccounting

/-! Popping from a packed ring aborts only on an empty indirect table, and reads no descriptor
outside. -/

namespace Qemu.Virtio

variable (guest : Guest) {chain : Chain}

def Mapped.Within (bound : Nat) : Mapped → Prop
  | .ok sgs | .error _ sgs => sgs.length ≤ bound
  | .aborts => False

/-- Collecting did not abort, with no more buffers than an element can have. -/
def Collected.Fits : Collected Chain → Prop
  | .ok chain | .error _ chain => chain.mapped ≤ virtqueueMaxSize
  | .aborts => False

variable {guest : Guest} {D : Type} {buffer : D → Buffer}
    {readNext readNext' : D → Nat → Nat → Next D}

variable {num max : Nat} {indirect : Bool}

variable {memory : Nat → GuestMemory} {time i : Nat}

variable {m : Machine}

end Qemu.Virtio
