import Seaweed.Library.MachineStack

/-! `boot/isr.s` and `struct registers` of `idt.h`: the 48 stubs that the CPU enters, as
instructions on its registers and its stack. A stub runs up to the call of its C handler,
and from the handler's return up to `iret`. -/

namespace Seaweed
open Library

inductive Reg where
  | eax | ecx | edx | ebx | esp | ebp | esi | edi
deriving DecidableEq

inductive Seg where
  | ds | es | fs | gs
deriving DecidableEq

structure Cpu where
  regs : Reg → UInt32
  segs : Seg → UInt16
  interrupts : Bool
  memory : Cells

section Stack

def Cpu.set (cpu : Cpu) (r : Reg) (value : UInt32) : Cpu := { cpu with regs := Function.update cpu.regs r value }

def Cpu.setSeg (cpu : Cpu) (seg : Seg) (value : UInt16) : Cpu := { cpu with segs := Function.update cpu.segs seg value }

def Cpu.push (cpu : Cpu) (value : UInt32) : Cpu :=
  { cpu.set .esp (cpu.regs .esp - 4) with memory := putWord cpu.memory (cpu.regs .esp - 4) value }

def Cpu.addEsp (cpu : Cpu) (bytes : UInt32) : Cpu := cpu.set .esp (cpu.regs .esp + bytes)

def Cpu.pop (cpu : Cpu) (r : Reg) : Cpu := (cpu.addEsp 4).set r (loadWord cpu.memory (cpu.regs .esp))

/-- The value of `esp` that it stores is the one before the first push. -/
def Cpu.pusha (cpu : Cpu) : Cpu :=
  [Reg.eax, .ecx, .edx, .ebx, .esp, .ebp, .esi, .edi].foldl (fun after r => after.push (cpu.regs r)) cpu

/-- The stored `esp` is passed over. -/
def Cpu.popa (cpu : Cpu) : Cpu :=
  [Reg.ebx, .edx, .ecx, .eax].foldl Cpu.pop (([Reg.edi, .esi, .ebp].foldl Cpu.pop cpu).addEsp 4)

def Cpu.setInterrupts (cpu : Cpu) (on : Bool) : Cpu := { cpu with interrupts := on }

/-- `ax` is the low half of `eax`. -/
def Cpu.setAx (cpu : Cpu) (value : UInt16) : Cpu := cpu.set .eax ((cpu.regs .eax &&& 0xFFFF0000) ||| value.toUInt32)

end Stack

inductive Handler where
  | isrHandler | irqHandler
deriving DecidableEq

inductive Instr where
  | cli | sti
  | pushImm (value : UInt32)
  | push (r : Reg)
  | pop (r : Reg)
  | pusha | popa
  | movSegAx (seg : Seg)
  | movImmAx (value : UInt16)
  | movAxSeg (seg : Seg)
  | addEsp (bytes : UInt32)
  | call (handler : Handler)
  | iret
deriving DecidableEq

/-- Where a run stops: in front of the first instruction of a handler, with the code that
follows the call, or in front of `iret`, or behind the last instruction. -/
inductive Outcome where
  | calls (handler : Handler) (cpu : Cpu) (rest : List Instr)
  | irets (cpu : Cpu)
  | fell (cpu : Cpu)

/-- `back` is the address behind the call. -/
def run (back : UInt32) : List Instr → Cpu → Outcome
  | [], cpu => .fell cpu
  | .cli :: rest, cpu => run back rest (cpu.setInterrupts false)
  | .sti :: rest, cpu => run back rest (cpu.setInterrupts true)
  | .pushImm value :: rest, cpu => run back rest (cpu.push value)
  | .push r :: rest, cpu => run back rest (cpu.push (cpu.regs r))
  | .pop r :: rest, cpu => run back rest (cpu.pop r)
  | .pusha :: rest, cpu => run back rest cpu.pusha
  | .popa :: rest, cpu => run back rest cpu.popa
  | .movSegAx seg :: rest, cpu => run back rest (cpu.setAx (cpu.segs seg))
  | .movImmAx value :: rest, cpu => run back rest (cpu.setAx value)
  | .movAxSeg seg :: rest, cpu => run back rest (cpu.setSeg seg (cpu.regs .eax).toUInt16)
  | .addEsp bytes :: rest, cpu => run back rest (cpu.addEsp bytes)
  | .call handler :: rest, cpu => .calls handler (cpu.push back) rest
  | .iret :: _, cpu => .irets cpu

section Stubs

inductive Label where
  | isr (num : ℕ)
  | irq (num : ℕ)
deriving DecidableEq

/-- From the handler's return on. -/
def leaveStub : List Instr :=
  [.addEsp 4,
   .pop .eax, .movAxSeg .ds, .movAxSeg .es, .movAxSeg .fs, .movAxSeg .gs,
   .popa, .addEsp 8, .sti, .iret]

/-- Both common stubs, which differ in the handler they call. -/
def commonStub (handler : Handler) : List Instr :=
  ([.pusha, .movSegAx .ds, .push .eax,
    .movImmAx 0x10, .movAxSeg .ds, .movAxSeg .es, .movAxSeg .fs, .movAxSeg .gs,
    .push .esp, .call handler] : List Instr) ++ leaveStub

def isrCommonStub : List Instr := commonStub .isrHandler

def irqCommonStub : List Instr := commonStub .irqHandler

/-- The code that a `jmp` goes to follows in the list. -/
def isrNoerr (num : ℕ) : Label × List Instr :=
  (.isr num, ([.cli, .pushImm 0, .pushImm (UInt32.ofNat num)] : List Instr) ++ isrCommonStub)

def isrErr (num : ℕ) : Label × List Instr :=
  (.isr num, ([.cli, .pushImm (UInt32.ofNat num)] : List Instr) ++ isrCommonStub)

def irq (num vec : ℕ) : Label × List Instr :=
  (.irq num, ([.cli, .pushImm 0, .pushImm (UInt32.ofNat vec)] : List Instr) ++ irqCommonStub)

def stubs : List (Label × List Instr) :=
  [isrNoerr 0, isrNoerr 1, isrNoerr 2, isrNoerr 3, isrNoerr 4, isrNoerr 5, isrNoerr 6, isrNoerr 7,
   isrErr 8, isrNoerr 9, isrErr 10, isrErr 11, isrErr 12, isrErr 13, isrErr 14, isrNoerr 15,
   isrNoerr 16, isrErr 17, isrNoerr 18, isrNoerr 19, isrNoerr 20, isrNoerr 21, isrNoerr 22, isrNoerr 23,
   isrNoerr 24, isrNoerr 25, isrNoerr 26, isrNoerr 27, isrNoerr 28, isrNoerr 29, isrNoerr 30, isrNoerr 31,
   irq 0 32, irq 1 33, irq 2 34, irq 3 35, irq 4 36, irq 5 37, irq 6 38, irq 7 39,
   irq 8 40, irq 9 41, irq 10 42, irq 11 43, irq 12 44, irq 13 45, irq 14 46, irq 15 47]

/-- The stub that `idt_init` puts into the gate of a vector. -/
def gate (vector : ℕ) : Label := if vector < 32 then .isr vector else .irq (vector - 32)

end Stubs

/-- The exceptions for which the CPU pushes an error code. -/
def pushesErrorCode (vector : ℕ) : Bool := vector = 8 || (10 ≤ vector && vector ≤ 14) || vector = 17

/-- What the CPU has to push, the error code for those exceptions only. -/
structure Pushed where
  eflags : UInt32
  cs : UInt32
  eip : UInt32
  error : UInt32

/-- What the CPU does before the first instruction of a stub, without a change of privilege. -/
def interrupt (vector : ℕ) (pushed : Pushed) (cpu : Cpu) : Cpu :=
  let cpu := (((cpu.setInterrupts false).push pushed.eflags).push pushed.cs).push pushed.eip
  if pushesErrorCode vector then cpu.push pushed.error else cpu

/-- `struct registers`. -/
structure Registers where
  ds : UInt32
  edi : UInt32
  esi : UInt32
  ebp : UInt32
  esp : UInt32
  ebx : UInt32
  edx : UInt32
  ecx : UInt32
  eax : UInt32
  intNo : UInt32
  errCode : UInt32
  eip : UInt32
  cs : UInt32
  eflags : UInt32
  useresp : UInt32
  ss : UInt32

/-- What the C code reads through a `struct registers *`: a field each 4 bytes. -/
def registersAt (m : Cells) (regs : UInt32) : Registers where
  ds := loadWord m regs
  edi := loadWord m (regs + 4)
  esi := loadWord m (regs + 8)
  ebp := loadWord m (regs + 12)
  esp := loadWord m (regs + 16)
  ebx := loadWord m (regs + 20)
  edx := loadWord m (regs + 24)
  ecx := loadWord m (regs + 28)
  eax := loadWord m (regs + 32)
  intNo := loadWord m (regs + 36)
  errCode := loadWord m (regs + 40)
  eip := loadWord m (regs + 44)
  cs := loadWord m (regs + 48)
  eflags := loadWord m (regs + 52)
  useresp := loadWord m (regs + 56)
  ss := loadWord m (regs + 60)

/-- The argument of a C function that was just called stands behind its return address. -/
def argument (cpu : Cpu) : UInt32 := loadWord cpu.memory (cpu.regs .esp + 4)

end Seaweed
