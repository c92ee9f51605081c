import Micro6502.Mnemonic
import Micro6502.Processor.Address
import Micro6502.Processor.Arithmetic
import Micro6502.Processor.Stack

namespace Micro6502

inductive Logic where
  | and
  | or
  | xor
  deriving DecidableEq, Repr

def Logic.apply (k : Logic) (a v : UInt8) : UInt8 :=
  match k with
  | and => a &&& v
  | or => a ||| v
  | xor => a ^^^ v

inductive Operation where
  | load (r : Register)
  | store (r : Register)
  | add
  | subtract
  | combine (k : Logic)
  | compare (r : Register)
  | bitTest
  | branch (f : Flag) (taken : Bool)
  | shift (k : Shift)
  | adjustMemory (delta : UInt8)
  | adjustRegister (r : Register) (delta : UInt8)
  | jump
  | call
  | returnFromCall
  | returnFromInterrupt
  | pushAccumulator
  | pushStatus
  | pullAccumulator
  | pullStatus
  | setFlag (f : Flag) (on : Bool)
  | transfer (source target : Register)
  | readStackPointer
  | writeStackPointer
  | brk
  | nothing
  deriving DecidableEq, Repr

namespace Mnemonic

def operation : Mnemonic → Operation
  | adc => .add
  | and => .combine .and
  | asl => .shift .asl
  | bcc => .branch .carry false
  | bcs => .branch .carry true
  | beq => .branch .zero true
  | bit => .bitTest
  | bmi => .branch .negative true
  | bne => .branch .zero false
  | bpl => .branch .negative false
  | brk => .brk
  | bvc => .branch .overflow false
  | bvs => .branch .overflow true
  | clc => .setFlag .carry false
  | cld => .setFlag .decimal false
  | cli => .setFlag .interruptDisable false
  | clv => .setFlag .overflow false
  | cmp => .compare .a
  | cpx => .compare .x
  | cpy => .compare .y
  | dec => .adjustMemory 0xFF
  | dex => .adjustRegister .x 0xFF
  | dey => .adjustRegister .y 0xFF
  | eor => .combine .xor
  | inc => .adjustMemory 1
  | inx => .adjustRegister .x 1
  | iny => .adjustRegister .y 1
  | jmp => .jump
  | jsr => .call
  | lda => .load .a
  | ldx => .load .x
  | ldy => .load .y
  | lsr => .shift .lsr
  | nop => .nothing
  | ora => .combine .or
  | pha => .pushAccumulator
  | php => .pushStatus
  | pla => .pullAccumulator
  | plp => .pullStatus
  | rol => .shift .rol
  | ror => .shift .ror
  | rti => .returnFromInterrupt
  | rts => .returnFromCall
  | sbc => .subtract
  | sec => .setFlag .carry true
  | sed => .setFlag .decimal true
  | sei => .setFlag .interruptDisable true
  | sta => .store .a
  | stx => .store .x
  | sty => .store .y
  | tax => .transfer .a .x
  | tay => .transfer .a .y
  | tsx => .readStackPointer
  | txa => .transfer .x .a
  | txs => .writeStackPointer
  | tya => .transfer .y .a

end Mnemonic

namespace Processor

def modify (s : Processor) (mode : AddressingMode) (f : UInt8 → UInt8) :
    Bus (UInt8 × Processor) := do
  let (a, s) ← s.operandAddress mode
  let v ← Bus.get a
  Bus.put a (f v)
  pure (v, s)

def shift (s : Processor) (mode : AddressingMode) (k : Shift) : Bus Processor := do
  let carry := s.flag .carry
  if mode = .single then
    let (v, out) := k.apply s.a carry
    pure (({ s with a := v }.setFlag .carry out).setZeroNegative v)
  else
    let (v, s) ← s.modify mode fun v ↦ (k.apply v carry).1
    let (v, out) := k.apply v carry
    pure ((s.setFlag .carry out).setZeroNegative v)

/-- The offset is taken in whether the branch is taken or not. -/
def branch (s : Processor) (f : Flag) (taken : Bool) : Bus Processor := do
  let (offset, s) ← s.fetch
  pure (if s.flag f = taken then { s with pc := branchTarget s.pc offset } else s)

def perform (s : Processor) (mode : AddressingMode) : Operation → Bus Processor
  | .load r => do
    let (v, s) ← s.operand mode
    pure (s.load r v)
  | .store r => do
    let (a, s) ← s.operandAddress mode
    Bus.put a (s.register r)
    pure s
  | .add => do
    let (v, s) ← s.operand mode
    pure (s.addWithCarry v)
  | .subtract => do
    let (v, s) ← s.operand mode
    pure (s.subtractWithCarry v)
  | .combine k => do
    let (v, s) ← s.operand mode
    pure (s.load .a (k.apply s.a v))
  | .compare r => do
    let (v, s) ← s.operand mode
    pure (s.compare (s.register r) v)
  | .bitTest => do
    let (v, s) ← s.operand mode
    pure (s.bitTest v)
  | .branch f taken => s.branch f taken
  | .shift k => s.shift mode k
  | .adjustMemory delta => do
    let (v, s) ← s.modify mode (· + delta)
    pure (s.setZeroNegative (v + delta))
  | .adjustRegister r delta => pure (s.load r (s.register r + delta))
  | .jump => do
    let (a, s) ← s.operandAddress mode
    pure { s with pc := a }
  | .call => do
    let (a, s) ← s.operandAddress mode
    let s ← s.pushWord (s.pc - 1)
    pure { s with pc := a }
  | .returnFromCall => do
    let (a, s) ← s.pullWord
    pure { s with pc := a + 1 }
  | .returnFromInterrupt => do
    let (v, s) ← s.pull
    let (a, s) ← (s.setStatus v).pullWord
    pure { s with pc := a }
  | .pushAccumulator => s.push s.a
  | .pushStatus => s.push s.status
  | .pullAccumulator => do
    let (v, s) ← s.pull
    pure (s.load .a v)
  | .pullStatus => do
    let (v, s) ← s.pull
    pure (s.setStatus v)
  | .setFlag f on => pure (s.setFlag f on)
  | .transfer source target => pure (s.load target (s.register source))
  | .readStackPointer => pure (s.load .x s.sp.toUInt8)
  | .writeStackPointer => pure { s with sp := s.x.toUInt16 }
  | .brk | .nothing => pure s

end Processor

end Micro6502
