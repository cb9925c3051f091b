import RegisterMachine.Host.Console
import RegisterMachine.Log
import RegisterMachine.Machine.Decoder
import RegisterMachine.Machine.Execution

/-!
# RegisterMachine.Machine.Step

One step of the machine: decode the instruction at `IP`, move `IP` behind it,
raise a fault for every fetch that was refused, carry the instruction out, and
record it.

`Machine.turn?` is the part of a step that is the machine's own, up to its
request to the host; `Turn.serve` lets a console answer the request. What
happened on the way is a list of `Event`s, in order, and the log is a function
of the events.
-/

namespace RegisterMachine

/-- What can happen in a step. -/
inductive Event
  /-- A fault was raised when the instruction pointer was `ip`. -/
  | fault (f : Fault) (ip : Word)
  /-- A request with the given number and arguments is about to be served. -/
  | syscall (id descriptor address count : Word)
  /-- Some bytes were written, or the host failed to. -/
  | write (descriptor : Word) (bytes : List Byte) (error : Option HostError)
  /-- `count` bytes were asked for, and some were read. -/
  | read (count : Word) (bytes : List Byte) (error : Option HostError)
  /-- The instruction was recorded. -/
  | trace (record : TraceRecord)
  deriving DecidableEq

/-- A step up to the request to the host. -/
structure Turn where
  /-- What has happened so far. -/
  events : List Event
  outcome : Outcome
  /-- The address and the first byte of the instruction, if there was one. -/
  fetched : Option (Word × Byte)

namespace Machine

/-- The machine after decoding has come as far as the cursor. -/
def advance (m : Machine) (cursor : Cursor) : Machine :=
  cursor.refused.foldl (fun m _ => m.raise .pointerOutOfBounds) (m.set .ip cursor.ip)

/-- The event of the request that the machine is about to make. -/
def requestEvent (m : Machine) : Event :=
  .syscall (m.get .r1) (m.get .r2) (m.get .r3) (m.get .r4)

/-- The machine's part of a step, unless it has halted. -/
def turn? (m : Machine) : Option Turn :=
  match m.status with
  | .halted => none
  | .running =>
    let ip := m.ip
    if ip < m.memory.codeSize then
      let decoded := m.memory.decode ip
      let left := m.registers.leftValue
      let next := m.advance decoded.cursor
      let refusals := decoded.cursor.refused.map (Event.fault .pointerOutOfBounds)
      let fetched := some (ip, decoded.opcode)
      match decoded.instruction? with
      | none =>
        some
          { events := refusals ++ [.fault .badInstruction next.ip]
            outcome := .done (next.raise .badInstruction)
            fetched }
      | some i =>
        let events :=
          match i with
          | .syscall => refusals ++ [next.requestEvent]
          | _ => refusals
        match next.execute left i with
        | .ok outcome => some { events, outcome, fetched }
        | .error f =>
          some { events := events ++ [.fault f next.ip], outcome := .done (next.raise f), fetched }
    else
      some
        { events := [.fault .pointerOutOfBounds ip]
          outcome := .done (m.raise .pointerOutOfBounds)
          fetched := none }

end Machine

/-- The result of a step. -/
structure Step (κ : Type) where
  machine : Machine
  console : κ
  /-- What has happened, in order. -/
  events : List Event

variable {κ : Type} [Console κ]

/-- Lets a console answer the request of an instruction. -/
def Outcome.serve (outcome : Outcome) (c : κ) : Step κ :=
  match outcome with
  | .done m => { machine := m, console := c, events := [] }
  | .write descriptor bytes m =>
    let (error, c) := Console.write c (.ofDescriptor descriptor) bytes
    { machine := m, console := c, events := [.write descriptor bytes error] }
  | .read address count m =>
    let (reply, c) := Console.read c count.toNat
    let bytes := reply.bytes.take count.toNat
    { machine := m.receive address bytes, console := c
      events := [.read count bytes reply.error] }

/-- The record of the instruction, if the machine is asked for one. -/
def Turn.record? (turn : Turn) (after : Machine) : Option TraceRecord :=
  match turn.fetched with
  | some (ip, opcode) =>
    if after.tracing then some (.ofMachine after ip opcode) else none
  | none => none

/-- Lets a console answer the request of a step, and hands it the trace record. -/
def Turn.serve (turn : Turn) (c : κ) : Step κ :=
  let served := turn.outcome.serve c
  let events := turn.events ++ served.events
  match turn.record? served.machine with
  | none => { served with events }
  | some record =>
    { served with
      console := Console.trace served.console record
      events := events ++ [.trace record] }

/-- One step of a machine with a console, unless the machine has halted. -/
def Machine.step? (m : Machine) (c : κ) : Option (Step κ) := m.turn?.map fun turn => turn.serve c

/-! ### The log of a step -/

/-- What is logged of an event. -/
def Event.log? : Event → Option Log.Record
  | fault f ip =>
    some
      { level := .warn, target := "bytecraft::vm", message := "machine faulted"
        fields := [("fault", f.message), ("ip", toString ip.toNat)] }
  | syscall id descriptor address count =>
    some
      { level := .trace, target := "bytecraft::vm", message := "syscall"
        fields :=
          [("id", toString id.toNat),
            ("args", "[" ++ toString descriptor.toNat ++ ", " ++ toString address.toNat ++ ", " ++
              toString count.toNat ++ "]")] }
  | write descriptor _ error =>
    error.map fun e =>
      { level := .warn, target := "bytecraft::vm"
        message := "write syscall failed on the host"
        fields := [("error", e.message), ("fd", toString descriptor.toNat)] }
  | read _ _ error =>
    error.map fun e =>
      { level := .warn, target := "bytecraft::console"
        message := "stdin read failed, treating as end of input"
        fields := [("error", e.message)] }
  | trace _ => none

/-- What is logged when a run has come to its end. -/
def Machine.haltLog (m : Machine) : Log.Record :=
  { level := .debug, target := "bytecraft::vm", message := "machine halted"
    fields := [("flags", String.ofList m.flags.render)] }

/-- A machine that has halted takes no step. -/
theorem Machine.step?_of_halted {m : Machine} (h : m.status = .halted) (c : κ) :
    m.step? c = none := by
  simp [Machine.step?, Machine.turn?, h]

/-- A machine that is running takes a step. -/
theorem Machine.step?_isSome_of_running {m : Machine} (h : m.status = .running) (c : κ) :
    (m.step? c).isSome := by
  have : m.turn?.isSome := by
    unfold Machine.turn?
    rw [h]
    dsimp only
    split
    · split
      · rfl
      · split <;> rfl
    · rfl
  simpa [Machine.step?] using this

end RegisterMachine
