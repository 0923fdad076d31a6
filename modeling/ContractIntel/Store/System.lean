import ContractIntel.Store.Ops

/-!
# The system

Clients and workers, each a program over the operations with a session of its own, over one store.
In a run they take turns operation by operation; time passes and parties crash between operations.
-/

namespace ContractIntel

/-- The store and what is left to do for each party. -/
abbrev System (ι : Type) := Lib.Pool ι Session Store Op Op.Res Exn Unit

/-- One operation of one party, the passing of time, or a crash. -/
abbrev Turn (ι : Type) := Lib.Turn ι Answer Time

/-! The parties of a small run are numerals. -/

instance oneParty : NeZero 1 := ⟨Nat.one_ne_zero⟩

instance twoParties : NeZero 2 := ⟨Nat.succ_ne_zero 1⟩

instance threeParties : NeZero 3 := ⟨Nat.succ_ne_zero 2⟩

instance fourParties : NeZero 4 := ⟨Nat.succ_ne_zero 3⟩

namespace System

variable {ι : Type}

/-- Every party before its first operation, with a fresh session. -/
def start (s : Store) (programs : ι → Option (Service Unit)) : System ι :=
  ⟨s, fun i => (programs i).map fun program => (⟨false⟩, program)⟩

def step [DecidableEq ι] : System ι → Turn ι → Option (System ι) := Lib.Pool.step exec Store.tick

end System

end ContractIntel
