import StreamDecode.Registers
import StreamDecode.Result

set_option autoImplicit false

/-! # Runs held in registers

A `Session` holds results of piecewise runs in named registers, where they can be copied, mapped and
fed. A suspension can be resumed once only: every result gets a number when it arises, its copies
and what is mapped from it keep that number, and a number that has been fed is marked. Feeding one
of the others then is an error and changes nothing. -/

namespace StreamDecode

/-- A result in a register. -/
structure Held (β α : Type) where
  result : Result β α
  /-- The number under which the result arose. -/
  point : Nat

/-- Results in registers, and which of the numbers given out so far have been resumed. -/
structure Session (β α : Type) where
  registers : Registers (Held β α)
  resumed : Array Bool

/-- Why a step of a session is not possible. -/
inductive SessionError where
  | alreadyResumed
  | emptyRegister (name : String)
deriving Repr, DecidableEq

/-- The text of a session error. -/
def SessionError.message : SessionError → String
  | alreadyResumed => "Partial continuation resumed more than once"
  | emptyRegister name => "no such register: " ++ name

/-- A step of a session. -/
inductive SessionCommand (β α : Type) where
  /-- Start a run in a register. -/
  | start (dest : String) (input : β)
  /-- Copy a register to another one. -/
  | copy (source dest : String)
  /-- Move a register to another one, changing the value by a function. -/
  | map (source : String) (f : α → α) (dest : String)
  /-- Feed a chunk to a register and move what comes of it to another one. -/
  | feed (source : String) (chunk : β) (dest : String)

/-- The register that a step writes. -/
def SessionCommand.target {β α : Type} : SessionCommand β α → String
  | start dest _ | copy _ dest | map _ _ dest | feed _ _ dest => dest

namespace Session

variable {β α : Type}

/-- The session before its first step. -/
def empty : Session β α := ⟨[], #[]⟩

/-- The held result of a register. -/
def get (s : Session β α) (name : String) : Except SessionError (Held β α) :=
  match s.registers.get? name with
  | some held => .ok held
  | none => .error (.emptyRegister name)

/-- Write a result that has just arisen to a register, under a number of its own. -/
def hold (s : Session β α) (name : String) (result : Result β α) : Session β α :=
  ⟨s.registers.set name ⟨result, s.resumed.size⟩, s.resumed.push false⟩

/-- Whether the result that arose under this number has been resumed. -/
def wasResumed (s : Session β α) (point : Nat) : Bool := s.resumed[point]?.getD false

/-- Resume what is held, which leaves its register, and hold what comes of it. -/
def feed (s : Session β α) (source : String) (held : Held β α) (chunk : β) (dest : String) :
    Except SessionError (Session β α) :=
  let registers := s.registers.clear source
  match held.result with
  | .suspended resume =>
      if s.wasResumed held.point then .error .alreadyResumed
      else .ok (hold ⟨registers, s.resumed.setIfInBounds held.point true⟩ dest (resume chunk))
  | _ => .ok { s with registers := registers.set dest held }

/-- Perform a step with the decoder of the session. -/
def perform [Buffer β] (d : Decoder β α) (s : Session β α) :
    SessionCommand β α → Except SessionError (Session β α)
  | .start dest input => .ok (s.hold dest (d.runPartial input))
  | .copy source dest =>
      (s.get source).map fun held => { s with registers := s.registers.set dest held }
  | .map source f dest =>
      (s.get source).map fun held => { s with
        registers := (s.registers.clear source).set dest { held with result := held.result.map f } }
  | .feed source chunk dest => (s.get source).bind fun held => s.feed source held chunk dest

/-- Perform steps in turn; one that is not possible changes nothing. -/
def performAll [Buffer β] (d : Decoder β α) (s : Session β α)
    (commands : List (SessionCommand β α)) : Session β α :=
  commands.foldl (fun s command => (s.perform d command).toOption.getD s) s

end Session

end StreamDecode
