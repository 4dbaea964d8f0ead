import Mathlib

/-! The version word of an object under optimistic concurrency control: a version that
grows with every install, and the thread that has it locked. The version is a natural number: its
52 bits are assumed never to wrap around. -/
namespace AlNiCo.Sto

@[ext]
structure Word (T : Type) where
  version : Nat
  owner : Option T
deriving DecidableEq

namespace Word
variable {T : Type}

def lock (w : Word T) (t : T) : Word T := { w with owner := some t }

def unlock (w : Word T) : Word T := { w with owner := none }

/-- `set_version_unlock` with the next version. -/
def release (w : Word T) : Word T := ⟨w.version+1,none⟩

end Word

end AlNiCo.Sto
