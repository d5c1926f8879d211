import Seaweed.Interrupts

/-! The stack of an interrupt, word by word. Each stub brings it to the one layout of
`struct registers`, and the way out takes the words back in the opposite order. -/

namespace Seaweed
open Library

variable {cpu : Cpu} {w back : UInt32} {ws : List UInt32} {r : Reg}

/-- The words on top of the stack, the topmost first. -/
def Cpu.Holds (cpu : Cpu) (ws : List UInt32) : Prop := Stacked cpu.memory (cpu.regs .esp) ws

section Steps

theorem Cpu.set_regs (cpu : Cpu) (r q : Reg) (value : UInt32) :
    (cpu.set r value).regs q = if q = r then value else cpu.regs q :=
  Function.update_apply _ _ _ _

theorem Cpu.addEsp_regs (cpu : Cpu) (bytes : UInt32) (q : Reg) :
    (cpu.addEsp bytes).regs q = if q = .esp then cpu.regs .esp + bytes else cpu.regs q :=
  Cpu.set_regs cpu .esp q _

theorem Cpu.push_regs (cpu : Cpu) (w : UInt32) (q : Reg) :
    (cpu.push w).regs q = if q = .esp then cpu.regs .esp - 4 else cpu.regs q :=
  Cpu.set_regs cpu .esp q _

theorem Cpu.pop_regs (holds : cpu.Holds (w :: ws)) (r q : Reg) :
    (cpu.pop r).regs q = if q = r then w else if q = .esp then cpu.regs .esp + 4 else cpu.regs q := by
  rw [Cpu.pop, Cpu.set_regs, Cpu.addEsp_regs, holds.1]

theorem Cpu.Holds.push (holds : cpu.Holds ws) (room : ws.length < 2 ^ 29) (w : UInt32) : (cpu.push w).Holds (w :: ws) := by
  rw [Cpu.Holds, Cpu.push_regs, if_pos rfl]
  exact Stacked.push holds (by omega) w

theorem Cpu.Holds.pop (holds : cpu.Holds (w :: ws)) (other : r ≠ .esp) : (cpu.pop r).Holds ws := by
  rw [Cpu.Holds, Cpu.pop_regs holds, if_neg (Ne.symm other), if_pos rfl]
  exact holds.2

theorem Cpu.Holds.skip (holds : cpu.Holds (w :: ws)) : (cpu.addEsp 4).Holds ws := by
  rw [Cpu.Holds, Cpu.addEsp_regs, if_pos rfl]
  exact holds.2

theorem Cpu.Holds.skipTwo {v : UInt32} (holds : cpu.Holds (v :: w :: ws)) : (cpu.addEsp 8).Holds ws := by
  have two : cpu.regs .esp + 8 = cpu.regs .esp + 4 + 4 := by
    rw [UInt32.add_assoc]
    rfl
  rw [Cpu.Holds, Cpu.addEsp_regs, if_pos rfl, two]
  exact holds.2.2

theorem Cpu.Holds.set (holds : cpu.Holds ws) (other : r ≠ .esp) (value : UInt32) : (cpu.set r value).Holds ws := by
  rw [Cpu.Holds, Cpu.set_regs, if_neg (Ne.symm other)]
  exact holds

theorem Cpu.Holds.setAx (holds : cpu.Holds ws) (value : UInt16) : (cpu.setAx value).Holds ws := holds.set (by decide) _

/-- All four segment registers from `ax`. -/
def Cpu.loadSegs (cpu : Cpu) : Cpu := { cpu with segs := fun _ => (cpu.regs .eax).toUInt16 }

theorem Cpu.Holds.loadSegs (holds : cpu.Holds ws) : cpu.loadSegs.Holds ws := holds

theorem run_loadSegs (back : UInt32) (cpu : Cpu) (rest : List Instr) :
    run back (.movAxSeg .ds :: .movAxSeg .es :: .movAxSeg .fs :: .movAxSeg .gs :: rest) cpu =
      run back rest cpu.loadSegs := by
  simp only [run, Cpu.setSeg, Cpu.loadSegs]
  congr 2
  funext seg
  cases seg <;> rfl

end Steps

section Blocks

/-- All eight registers, `eax` deepest, with `esp` as it was before. -/
theorem Cpu.Holds.pusha (holds : cpu.Holds ws) (room : ws.length < 2 ^ 28) :
    cpu.pusha.Holds (cpu.regs .edi :: cpu.regs .esi :: cpu.regs .ebp :: cpu.regs .esp :: cpu.regs .ebx ::
      cpu.regs .edx :: cpu.regs .ecx :: cpu.regs .eax :: ws) ∧
    ∀ q, cpu.pusha.regs q = if q = .esp then cpu.regs .esp - 32 else cpu.regs q := by
  constructor
  · have afterEax := holds.push (by omega) (cpu.regs .eax)
    have afterEcx := afterEax.push (by simp only [List.length_cons]; omega) (cpu.regs .ecx)
    have afterEdx := afterEcx.push (by simp only [List.length_cons]; omega) (cpu.regs .edx)
    have afterEbx := afterEdx.push (by simp only [List.length_cons]; omega) (cpu.regs .ebx)
    have afterEsp := afterEbx.push (by simp only [List.length_cons]; omega) (cpu.regs .esp)
    have afterEbp := afterEsp.push (by simp only [List.length_cons]; omega) (cpu.regs .ebp)
    have afterEsi := afterEbp.push (by simp only [List.length_cons]; omega) (cpu.regs .esi)
    exact afterEsi.push (by simp only [List.length_cons]; omega) (cpu.regs .edi)
  · intro q
    have sum (p : UInt32) : p - 4 - 4 - 4 - 4 - 4 - 4 - 4 - 4 = p - 32 := by
      simp only [down_down, UInt32.reduceAdd]
    simp only [Cpu.pusha, List.foldl_cons, List.foldl_nil, Cpu.push_regs]
    cases q <;> simp only [reduceCtorEq, if_true, if_false, sum]

/-- `popa` takes back the registers of some CPU, and passes over the word of `esp`. -/
theorem Cpu.Holds.popa {saved : Reg → UInt32}
    (holds : cpu.Holds (saved .edi :: saved .esi :: saved .ebp :: saved .esp :: saved .ebx ::
      saved .edx :: saved .ecx :: saved .eax :: ws)) :
    cpu.popa.Holds ws ∧ ∀ q, cpu.popa.regs q = if q = .esp then cpu.regs .esp + 32 else saved q := by
  have afterEdi := holds.pop (r := .edi) (by decide)
  have afterEsi := afterEdi.pop (r := .esi) (by decide)
  have afterEbp := afterEsi.pop (r := .ebp) (by decide)
  have afterEsp := afterEbp.skip
  have afterEbx := afterEsp.pop (r := .ebx) (by decide)
  have afterEdx := afterEbx.pop (r := .edx) (by decide)
  have afterEcx := afterEdx.pop (r := .ecx) (by decide)
  refine ⟨afterEcx.pop (r := .eax) (by decide), ?_⟩
  have sum (p : UInt32) : p + 4 + 4 + 4 + 4 + 4 + 4 + 4 + 4 = p + 32 := by
    simp only [UInt32.add_assoc]
    rfl
  intro q
  simp only [Cpu.popa, List.foldl_cons, List.foldl_nil, Cpu.pop_regs holds, Cpu.pop_regs afterEdi, Cpu.pop_regs afterEsi,
    Cpu.addEsp_regs, Cpu.pop_regs afterEsp, Cpu.pop_regs afterEbx, Cpu.pop_regs afterEdx, Cpu.pop_regs afterEcx]
  cases q <;> simp only [reduceCtorEq, if_true, if_false, sum]

/-- The handler's first moment. -/
def Cpu.entered (cpu : Cpu) (back : UInt32) : Cpu :=
  let saved := cpu.pusha
  let marked := saved.setAx (saved.segs .ds)
  let kernel := ((marked.push (marked.regs .eax)).setAx 0x10).loadSegs
  (kernel.push (kernel.regs .esp)).push back

theorem run_commonStub (handler : Handler) (cpu : Cpu) :
    run back (commonStub handler) cpu = .calls handler (cpu.entered back) leaveStub :=
  (run_loadSegs back _ (.push .esp :: .call handler :: leaveStub)).trans rfl

theorem low_half (high : UInt32) (low : UInt16) : ((high &&& 0xFFFF0000) ||| low.toUInt32).toUInt16 = low := by
  have mask : UInt32.toUInt16 0xFFFF0000 = 0 := rfl
  rw [UInt32.toUInt16_or, UInt32.toUInt16_and, UInt16.toUInt16_toUInt32, mask, UInt16.and_zero, UInt16.zero_or]

theorem Cpu.Holds.entered (holds : cpu.Holds ws) (room : ws.length < 2 ^ 20) (back : UInt32) :
    (cpu.entered back).regs .esp = cpu.regs .esp - 44 ∧ ∃ low : UInt32, low.toUInt16 = cpu.segs .ds ∧
      (cpu.entered back).Holds (back :: (cpu.regs .esp - 36) :: low :: cpu.regs .edi :: cpu.regs .esi :: cpu.regs .ebp ::
        cpu.regs .esp :: cpu.regs .ebx :: cpu.regs .edx :: cpu.regs .ecx :: cpu.regs .eax :: ws) := by
  obtain ⟨inSaved, regs⟩ := holds.pusha (by omega)
  let marked := cpu.pusha.setAx (cpu.pusha.segs .ds)
  let kernel := ((marked.push (marked.regs .eax)).setAx 0x10).loadSegs
  have inMarked := inSaved.setAx (cpu.pusha.segs .ds)
  have inStored := inMarked.push (by simp only [List.length_cons]; omega) (marked.regs .eax)
  have inKernel := (inStored.setAx 0x10).loadSegs
  have inArgument := inKernel.push (by simp only [List.length_cons]; omega) (kernel.regs .esp)
  have inCalled := inArgument.push (by simp only [List.length_cons]; omega) back
  have pointer : kernel.regs .esp = cpu.regs .esp - 32 - 4 := by
    simp only [kernel, marked, Cpu.loadSegs, Cpu.setAx, Cpu.set_regs, Cpu.push_regs, regs, reduceCtorEq, if_true, if_false]
  simp only [down_down, UInt32.reduceAdd] at pointer
  constructor
  · have twice : (cpu.entered back).regs .esp = kernel.regs .esp - 4 - 4 := by
      simp only [Cpu.entered, Cpu.push_regs, if_true, kernel, marked]
    rw [twice, pointer, down_down, down_down]
    rfl
  · refine ⟨marked.regs .eax, ?_, ?_⟩
    · have low : marked.regs .eax = (cpu.pusha.regs .eax &&& 0xFFFF0000) ||| (cpu.segs .ds).toUInt32 :=
        (Cpu.set_regs _ _ _ _).trans (if_pos rfl)
      rw [low, low_half]
    · rw [← pointer]
      exact inCalled

theorem Cpu.Holds.setInterrupts (holds : cpu.Holds ws) (on : Bool) : (cpu.setInterrupts on).Holds ws := holds

theorem Cpu.setInterrupts_regs (cpu : Cpu) (on : Bool) : (cpu.setInterrupts on).regs = cpu.regs := rfl

theorem Cpu.setInterrupts_segs (cpu : Cpu) (on : Bool) : (cpu.setInterrupts on).segs = cpu.segs := rfl

theorem Cpu.addEsp_segs (cpu : Cpu) (bytes : UInt32) : (cpu.addEsp bytes).segs = cpu.segs := rfl

theorem Cpu.popa_segs (cpu : Cpu) : cpu.popa.segs = cpu.segs := rfl

theorem Cpu.loadSegs_segs (cpu : Cpu) (seg : Seg) : cpu.loadSegs.segs seg = (cpu.regs .eax).toUInt16 := rfl

theorem Cpu.loadSegs_regs (cpu : Cpu) : cpu.loadSegs.regs = cpu.regs := rfl

/-- The last moment before `iret`. -/
def Cpu.left (cpu : Cpu) : Cpu := (((cpu.addEsp 4).pop .eax).loadSegs.popa.addEsp 8).setInterrupts true

theorem run_leaveStub (cpu : Cpu) : run back leaveStub cpu = .irets cpu.left :=
  (run_loadSegs back _ [.popa, .addEsp 8, .sti, .iret]).trans rfl

theorem Cpu.Holds.left {argument low intNo errCode : UInt32} {saved : Reg → UInt32}
    (holds : cpu.Holds (argument :: low :: saved .edi :: saved .esi :: saved .ebp :: saved .esp :: saved .ebx ::
      saved .edx :: saved .ecx :: saved .eax :: intNo :: errCode :: ws)) :
    cpu.left.Holds ws ∧ (∀ seg, cpu.left.segs seg = low.toUInt16) ∧
      ∀ q, cpu.left.regs q = if q = .esp then cpu.regs .esp + 48 else saved q := by
  have atData := holds.skip
  have atEdi := (atData.pop (r := .eax) (by decide)).loadSegs
  obtain ⟨atNumber, regs⟩ := atEdi.popa
  refine ⟨atNumber.skipTwo.setInterrupts true, fun seg => ?_, fun q => ?_⟩
  · rw [Cpu.left, Cpu.setInterrupts_segs, Cpu.addEsp_segs, Cpu.popa_segs, Cpu.loadSegs_segs, Cpu.pop_regs atData, if_pos rfl]
  · have pointer : ((cpu.addEsp 4).pop .eax).loadSegs.regs .esp = cpu.regs .esp + 4 + 4 := by
      simp only [Cpu.loadSegs_regs, Cpu.pop_regs atData, Cpu.addEsp_regs, reduceCtorEq, if_true, if_false]
    have sum (p : UInt32) : p + 4 + 4 + 32 + 8 = p + 48 := by
      simp only [UInt32.add_assoc]
      rfl
    rw [Cpu.left, Cpu.setInterrupts_regs, Cpu.addEsp_regs, regs, regs, if_pos rfl, pointer, sum]
    by_cases stack : q = .esp
    · rw [if_pos stack, if_pos stack]
    · rw [if_neg stack, if_neg stack, if_neg stack]

end Blocks

section Entries

def handlerOf (vector : ℕ) : Handler := if vector < 32 then .isrHandler else .irqHandler

/-- What a stub does before the common code. -/
def stubPushes (vector : ℕ) : List Instr :=
  if pushesErrorCode vector then [.cli, .pushImm (UInt32.ofNat vector)]
  else [.cli, .pushImm 0, .pushImm (UInt32.ofNat vector)]

theorem stub_found {vector : ℕ} (inside : vector < 48) :
    stubs.lookup (gate vector) = some (stubPushes vector ++ commonStub (handlerOf vector)) := by
  have table : ∀ v < 48, stubs.lookup (gate v) = some (stubPushes v ++ commonStub (handlerOf v)) := by decide +kernel
  exact table vector inside

/-- With or without an error code from the CPU, the common code finds the same five words. -/
theorem interrupt_common (vector : ℕ) (pushed : Pushed) (before : Cpu) (back : UInt32) :
    ∃ cpu, run back (stubPushes vector ++ commonStub (handlerOf vector)) (interrupt vector pushed before) =
        run back (commonStub (handlerOf vector)) cpu ∧
      cpu.Holds [UInt32.ofNat vector, if pushesErrorCode vector then pushed.error else 0,
        pushed.eip, pushed.cs, pushed.eflags] ∧
      (∀ q, cpu.regs q = if q = .esp then before.regs .esp - 20 else before.regs q) ∧ cpu.segs = before.segs := by
  have empty : (before.setInterrupts false).Holds [] := trivial
  have framed := ((empty.push (by decide) pushed.eflags).push (by simp) pushed.cs).push (by simp) pushed.eip
  have sum (p : UInt32) : p - 4 - 4 - 4 - 4 - 4 = p - 20 := by
    simp only [down_down, UInt32.reduceAdd]
  unfold stubPushes interrupt
  cases carried : pushesErrorCode vector with
  | true =>
    have failed := (framed.push (by simp) pushed.error).setInterrupts false
    refine ⟨_, rfl, failed.push (by simp) (UInt32.ofNat vector), fun q => ?_, rfl⟩
    cases q <;> simp only [Cpu.push_regs, Cpu.setInterrupts_regs, reduceCtorEq, if_true, if_false, sum]
  | false =>
    have padded := (framed.setInterrupts false).push (by simp) 0
    refine ⟨_, rfl, padded.push (by simp) (UInt32.ofNat vector), fun q => ?_, rfl⟩
    cases q <;> simp only [Cpu.push_regs, Cpu.setInterrupts_regs, reduceCtorEq, if_true, if_false, sum]

end Entries

/-- The handler's `struct registers` is the CPU when it was interrupted. -/
structure Snapshot (vector : ℕ) (pushed : Pushed) (before : Cpu) (regs : Registers) : Prop where
  ds : regs.ds.toUInt16 = before.segs .ds
  edi : regs.edi = before.regs .edi
  esi : regs.esi = before.regs .esi
  ebp : regs.ebp = before.regs .ebp
  esp : regs.esp = before.regs .esp - 20
  ebx : regs.ebx = before.regs .ebx
  edx : regs.edx = before.regs .edx
  ecx : regs.ecx = before.regs .ecx
  eax : regs.eax = before.regs .eax
  intNo : regs.intNo = UInt32.ofNat vector
  errCode : regs.errCode = if pushesErrorCode vector then pushed.error else 0
  eip : regs.eip = pushed.eip
  cs : regs.cs = pushed.cs
  eflags : regs.eflags = pushed.eflags

/-- The words below the argument, once all pushes are done. -/
def frameWords (vector : ℕ) (pushed : Pushed) (saved : Reg → UInt32) (low : UInt32) : List UInt32 :=
  [low, saved .edi, saved .esi, saved .ebp, saved .esp, saved .ebx, saved .edx, saved .ecx, saved .eax,
    UInt32.ofNat vector, if pushesErrorCode vector then pushed.error else 0, pushed.eip, pushed.cs, pushed.eflags]

theorem snapshot_of_frame {vector : ℕ} {pushed : Pushed} {before : Cpu} {saved : Reg → UInt32} {low regs : UInt32} {m : Cells}
    (frame : Stacked m regs (frameWords vector pushed saved low)) (half : low.toUInt16 = before.segs .ds)
    (kept : ∀ q, saved q = if q = .esp then before.regs .esp - 20 else before.regs q) :
    Snapshot vector pushed before (registersAt m regs) := by
  simp only [frameWords, Stacked, UInt32.add_assoc, UInt32.reduceAdd] at frame
  obtain ⟨ds, edi, esi, ebp, esp, ebx, edx, ecx, eax, intNo, errCode, eip, cs, eflags, _⟩ := frame
  exact ⟨(congrArg UInt32.toUInt16 ds).trans half, edi.trans (kept _), esi.trans (kept _), ebp.trans (kept _),
    esp.trans (kept _), ebx.trans (kept _), edx.trans (kept _), ecx.trans (kept _), eax.trans (kept _),
    intNo, errCode, eip, cs, eflags⟩

/-- The stub calls its handler with a pointer to a snapshot, and when the handler returns
with those bytes as they were, `iret` finds the registers of the interruption and the
words that the CPU pushed. -/
def ContextKept (vector : ℕ) (before : Cpu) (pushed : Pushed) (back : UInt32) : Prop :=
  ∃ code entered rest, stubs.lookup (gate vector) = some code ∧
    run back code (interrupt vector pushed before) = .calls (handlerOf vector) entered rest ∧
    Snapshot vector pushed before (registersAt entered.memory (argument entered)) ∧
    ∀ returned : Cpu, returned.regs .esp = entered.regs .esp + 4 →
      (∀ i, i < 56 → returned.memory (argument entered + UInt32.ofNat i) = entered.memory (argument entered + UInt32.ofNat i)) →
      ∃ final, run back rest returned = .irets final ∧
        (∀ r, r ≠ .esp → final.regs r = before.regs r) ∧ (∀ seg, final.segs seg = before.segs seg) ∧
        final.regs .esp = before.regs .esp - 12 ∧
        loadWord final.memory (final.regs .esp) = pushed.eip ∧
        loadWord final.memory (final.regs .esp + 4) = pushed.cs ∧
        loadWord final.memory (final.regs .esp + 8) = pushed.eflags

theorem interrupts_keep_context {vector : ℕ} (inside : vector < 48) (before : Cpu) {s : UInt16}
    (flat : ∀ seg, before.segs seg = s) (pushed : Pushed) (back : UInt32) : ContextKept vector before pushed back := by
  obtain ⟨cpu, ran, holds, kept, segs⟩ := interrupt_common vector pushed before back
  obtain ⟨esp, low, half, called⟩ := holds.entered (by simp) back
  rw [segs] at half
  have start : cpu.regs .esp = before.regs .esp - 20 := (kept .esp).trans (if_pos rfl)
  have pointer : argument (cpu.entered back) = cpu.regs .esp - 36 := called.2.1
  have place : (cpu.entered back).regs .esp + 4 + 4 = cpu.regs .esp - 36 := by
    rw [esp, UInt32.sub_eq_add_neg, UInt32.sub_eq_add_neg]
    simp only [UInt32.add_assoc]
    rfl
  have frame : Stacked (cpu.entered back).memory (argument (cpu.entered back)) (frameWords vector pushed cpu.regs low) := by
    rw [pointer, ← place]
    exact called.2.2
  refine ⟨_, cpu.entered back, leaveStub, stub_found inside, ran.trans (run_commonStub _ _), ?_, fun returned esp' same => ?_⟩
  · exact snapshot_of_frame frame half kept
  · have arguments : returned.regs .esp + 4 = argument (cpu.entered back) := by rw [esp', pointer, place]
    have held : returned.Holds (loadWord returned.memory (returned.regs .esp) :: frameWords vector pushed cpu.regs low) := by
      refine ⟨rfl, ?_⟩
      rw [arguments]
      exact frame.congr same
    obtain ⟨atEip, segments, regs⟩ := held.left
    have last : returned.left.regs .esp = before.regs .esp - 12 := by
      rw [regs, if_pos rfl, esp', esp, start]
      simp only [UInt32.sub_eq_add_neg, UInt32.add_assoc]
      rfl
    obtain ⟨eip, cs, eflags, _⟩ := atEip
    rw [UInt32.add_assoc] at eflags
    refine ⟨returned.left, run_leaveStub returned, fun r other => ?_, fun seg => ?_, last, eip, cs, eflags⟩
    · rw [regs, if_neg other, kept, if_neg other]
    · rw [segments, half, flat, flat]

/-- A page fault, which brings its error code, near the bottom of the address space. -/
theorem interrupts_keep_context_of_fault :
    ContextKept 14 ⟨fun _ => 8, fun _ => 0x10, true, fun _ => 0⟩ ⟨0x202, 8, 0x100000, 2⟩ 0x101000 :=
  interrupts_keep_context (by decide) _ (fun _ => rfl) _ _

end Seaweed
