import HotRegion.Machine.Execute
import HotRegion.Machine.Trace

/-! # Interpreting dynamic blocks

`step` runs the dynamic block at the program counter: instructions one after the other up to a
control transfer with its delay slot, or up to a limit. A fault leaves the program counter at the
faulting instruction and the effects of what ran before it. -/

namespace HotRegion.Machine

open Isa

namespace State

/-- Whether a control transfer is taken. -/
def taken (s : State) : Instr → Bool
  | .branch cond rs rt .. => cond.eval (s.reg rs) (s.reg rt)
  | .branchZero cond rs .. => cond.eval (s.reg rs)
  | .branchZeroLink cond rs _ => cond.eval (s.reg rs)
  | .branchFp onTrue cc .. => s.conditionCode cc == onTrue
  | _ => true

/-- Where a control transfer at `addr` goes when it is taken. -/
def target (s : State) (addr : UInt32) (insn : Instr) : UInt32 :=
  match insn, insn.control addr with
  | .jumpReg rs, _ | .jumpLinkReg _ rs, _ => s.reg rs
  | _, .branch taken _ _ => taken
  | _, .jump target => target
  | _, _ => 0

/-- Writes the return address of a linking transfer at `addr`. -/
def link (s : State) (addr : UInt32) : Instr → State
  | .branchZeroLink .. | .jumpLink _ => s.setReg .ra (addr + 8)
  | .jumpLinkReg rd _ => s.setReg rd (addr + 8)
  | _ => s

/-- Counts one retired instruction. The count wraps around after `2 ^ 64` instructions; a build that
checks for overflow panics there. -/
def retire (s : State) : State := { s with icnt := s.icnt + 1 }

end State

/-- Runs the control transfer `word` at the program counter and its delay slot. The transfer is
decided and linked before the delay slot runs, and the delay slot of a likely branch only runs if
the branch is taken. -/
def stepTransfer (s : State) (word : UInt32) : Except Fault (List UInt32) × State :=
  let addr := s.pc
  let insn := decode word
  let taken := s.taken insn
  let next := if taken then s.target addr insn else addr + 8
  let linked := { (s.link addr insn).retire with pc := addr + 4 }
  let delayWord := s.mem.readWord (addr + 4)
  let delay := decode delayWord
  if delay.hasDelaySlot then
    (.error (.unknown (addr + 4) delayWord), linked)
  else if insn.isLikelyBranch && !taken then
    (.ok [word, delayWord], { linked with pc := next })
  else
    match execute linked (addr + 4) delay with
    | .error fault => (.error fault, linked)
    | .ok s' => (.ok [word, delayWord], { s'.retire with pc := next })

/-- Runs at most `limit` instructions, or fewer and a control transfer with its delay slot. Gives
the words that ran. -/
def stepWords : Nat → State → Except Fault (List UInt32) × State
  | 0, s => (.ok [], s)
  | limit + 1, s =>
    let word := s.mem.readWord s.pc
    let insn := decode word
    if insn.hasDelaySlot then stepTransfer s word
    else
      match execute s s.pc insn with
      | .error fault => (.error fault, s)
      | .ok s' =>
        match stepWords limit { s'.retire with pc := s.pc + 4 } with
        | (.ok words, t) => (.ok (word :: words), t)
        | (.error fault, t) => (.error fault, t)

/-- The number of instructions without a control transfer after which a block ends. -/
def defaultLimit : Nat := 256

/-- Runs the dynamic block at the program counter, of at most `limit` instructions before a control
transfer but at least one. -/
def step (limit : Nat) (s : State) : Except Fault Trace × State :=
  match stepWords (max limit 1) s with
  | (.ok words, t) => (.ok ⟨s.pc, words⟩, t)
  | (.error fault, t) => (.error fault, t)

end HotRegion.Machine
