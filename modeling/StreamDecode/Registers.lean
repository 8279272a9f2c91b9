set_option autoImplicit false

/-! # Named registers

Values under names, of which the last one written to a name counts. -/

namespace StreamDecode

/-- Values under names. -/
abbrev Registers (α : Type) := List (String × α)

namespace Registers

variable {α : Type}

/-- The value of a register. -/
def get? (registers : Registers α) (name : String) : Option α := registers.lookup name

/-- Empty a register. -/
def clear (registers : Registers α) (name : String) : Registers α :=
  registers.filter fun entry => entry.1 != name

/-- Write a register. -/
def set (registers : Registers α) (name : String) (value : α) : Registers α :=
  (name, value) :: registers.clear name

end Registers

end StreamDecode
