import HotRegion.Proofs.Lowering.Instruction
import HotRegion.Proofs.Lowering.Tables
import HotRegion.Proofs.Region.Passage

/-!
# The code of a block

The code that a block of the region gets, up to where control leaves it, does what passing through
the block does. `Ending` says what is known at its end about where control goes on: an address, one
of two addresses by a truth value, or the address in a value. Edges and exits are made from the
ending alone, by `Scope.leave`.

## Key results

- `yields_straight`: straight code
- `yields_bodyCode`: the code of a block, with its transfer and delay slot
- `lowerBlock_eq`, `lowerFallthrough_eq`: a block is its merges, its code and its ending
-/

namespace HotRegion.Lowering

open Isa Analysis Ssa Build
open Machine (State Memory execute wordAddr)
open Region (Tracked Slot Transfer Straight Departure)

variable {s s' : Site} {t t' : RegTable} {V : Value → UInt64} {m m' m₁ : Watched}
  {code rest : List (UInt32 × UInt32)} {b : Region.Block} {tr : Transfer} {c : Scope} {x : Slot}

/-! ## Straight code -/

/-- Memory is safe at every point between two machines. -/
def SafeBetween (safe : Memory → Prop) (m m' : Watched) : Prop :=
  ∀ m₁, m.Le m₁ → m₁.Le m' → safe m₁.state.mem

/-- A first part of a run is as safe as the whole. -/
theorem SafeBetween.left {safe : Memory → Prop} (h : SafeBetween safe m m') (hle : m₁.Le m') :
    SafeBetween safe m m₁ := fun m₂ h₁ h₂ => h m₂ h₁ (h₂.trans hle)

/-- The rest of a run is as safe as the whole. -/
theorem SafeBetween.right {safe : Memory → Prop} (h : SafeBetween safe m m') (hle : m.Le m₁) :
    SafeBetween safe m₁ m' := fun m₂ h₁ h₂ => h m₂ (hle.trans h₁) h₂

/-- The code for straight guest code does what that does. -/
def Follows (t : RegTable) (code : List (UInt32 × UInt32)) (t' : RegTable) (V : Value → UInt64)
    (m m' : Watched) : Prop :=
  ∀ safe : Memory → Prop, SafeBetween safe m m' → ∀ g : State, t.Agrees V g →
    g.mem = m.state.mem → ∃ g', Straight safe code g g' ∧ t'.Agrees V g' ∧
      m'.state = { m.state with mem := g'.mem }

/-- Code that the region compiler has a lowering for, none of which transfers control. -/
structure Plain (code : List (UInt32 × UInt32)) : Prop where
  can : ∀ p ∈ code, (decode p.1).canCompile = true
  flow : ∀ p ∈ code, (decode p.1).hasDelaySlot = false

/-- What is loaded for an instruction stays loaded. -/
theorem RegTable.Covers.of_keeps {insn : Instr} (h : t.Covers insn) (hk : t.Keeps t' s) :
    t'.Covers insn := fun ref href u hu => hk.loaded u (h ref href u hu)

/-- Lowering straight code. -/
theorem yields_straight (fold : Bool) (ht : t.Typed s) (hplain : Plain code)
    (hcovers : ∀ p ∈ code, t.Covers (decode p.1)) :
    Yields s (code.foldlM (fun t p => lower fold t p.2 (decode p.1)) t)
      (fun t' s' => t.Keeps t' s') (Follows t code) := by
  induction code generalizing s t with
  | nil =>
    refine Yields.pure (.refl ht) fun V m safe _ g hg hmem => ⟨g, rfl, hg, ?_⟩
    rw [hmem]
  | cons p code ih =>
    rw [List.foldlM_cons]
    have hp := List.mem_cons_self (a := p) (l := code)
    refine Yields.bind (yields_lower ht (hcovers p hp) (hplain.can p hp) (hplain.flow p hp)
      (decode_ne_convert p.1)).watch fun t₁ s₁ hle hk => ?_
    -- The rest starts from the table that the first instruction leaves.
    have hrest := ih hk.typed
      ⟨fun q hq => hplain.can q (List.mem_cons_of_mem _ hq),
        fun q hq => hplain.flow q (List.mem_cons_of_mem _ hq)⟩
      fun q hq => (hcovers q (List.mem_cons_of_mem _ hq)).of_keeps hk
    refine hrest.watch.imp (fun t' s' _ h => hk.trans h) ?_
    rintro t' V m₁ m' ⟨hfollows, hle'⟩ m ⟨hruns, hle⟩ safe hsafe g hg hmem
    obtain ⟨g₁, hok, hg₁, hm₁⟩ := hruns g hg hmem
    have hmem₁ : g₁.mem = m₁.state.mem := by rw [hm₁]
    obtain ⟨g', hrun, hg', hm'⟩ := hfollows safe (hsafe.right hle) g₁ hg₁ hmem₁
    -- The memory in between is safe too, since it has a part of the stores only.
    refine ⟨g', ⟨g₁, hok, ?_, hrun⟩, hg', ?_⟩
    · rw [hmem₁]
      exact hsafe m₁ hle hle'
    · rw [hm', hm₁]

/-! ## Counting -/

/-- The counters of the guest are not in the table, but for the count. -/
theorem RegTable.Agrees.clock_pc {g : State} (h : t.Agrees V g) (pc : UInt32) :
    t.Agrees V (g.clock pc g.icnt) := h.of_pc pc

/-- Counting the instructions of a block in table and state alike. -/
theorem yields_countInstructions (ht : t.Typed s)
    (hicnt : c.config.countInstructions = true → t.Loaded .icnt) :
    Yields s (c.countInstructions b t) (fun t' s' => t.Keeps t' s') fun t' V m m' =>
      m' = m ∧ ∀ g : State, t.Agrees V g →
        t'.Agrees V (b.counted c.config.countInstructions g) := by
  unfold Scope.countInstructions
  -- The count is added only where it is asked for and the block has instructions.
  cases hc : c.config.countInstructions with
  | false => exact Yields.pure (.refl ht) fun V m => ⟨rfl, fun g hg => hg⟩
  | true =>
    by_cases hpos : 0 < b.instructionCount
    · simp only [hpos, decide_true, Bool.and_self, if_true]
      refine Gives.bind (gives_const .i64 _) fun delta s₁ h₁ hd => ?_
      refine Gives.bind (RegTable.gives_getIcnt (ht.mono h₁) (hicnt hc)) fun old s₂ h₂ ho => ?_
      refine Gives.bind (gives_binary ho (hd.mono h₂) (by rfl)) fun new s₃ h₃ hn => ?_
      refine Yields.pure (RegTable.keeps_setIcnt (ht.mono (h₁.trans (h₂.trans h₃))) hn)
        fun V m e₃ e₂ e₁ => ⟨rfl, fun g hg u => ?_⟩
      rw [e₂ g hg, e₁, and_mask64 _ rfl, eval_add64] at e₃
      by_cases hu : u = .icnt
      · subst hu
        refine .of_bits ?_ (by simp)
        rw [RegTable.bits?_setIcnt, if_pos rfl, e₃]
        rfl
      · refine (hg u).of_unit (by rw [RegTable.bits?_setIcnt, if_neg hu]) ?_ fun r _ => rfl
        cases u with
        | icnt => exact absurd rfl hu
        | hiLo h => cases h <;> rfl
        | _ => rfl
    · have hzero : b.instructionCount = 0 := by omega
      simp only [hzero, Nat.lt_irrefl, decide_false, Bool.and_false, Bool.false_eq_true, if_false]
      refine Yields.pure (.refl ht) fun V m => ⟨rfl, fun g hg => ?_⟩
      have : b.counted true g = g := by
        simp only [Region.Block.counted, hzero, if_true]
        exact congrArg (g.clock g.pc) (UInt64.add_zero g.icnt)
      rw [this]
      exact hg

/-! ## Endings -/

/-- Control follows a transfer when it leaves for this reason. -/
def isTaken : ExitReason → Bool
  | .branchTarget | .indirectMiss => true
  | .fallthrough | .likelyUntaken => false

/-- What is known at the end of the code of a block about where control goes on. -/
inductive Ending where
  /-- At a known address; the reason is that of an exit there. -/
  | goto (addr : UInt32) (reason : ExitReason)
  /-- At one of two addresses by a truth value. A likely branch that is taken goes on at its delay
  slot. -/
  | fork (cond : Value) (taken notTaken : UInt32) (likely : Bool)
  /-- At the address that a value holds, which is none of those missed so far. -/
  | scan (target : Value) (missed : List UInt32)

namespace Ending

/-- The values of an ending may be read and have the types for them. -/
def Typed (s : Site) : Ending → Prop
  | goto .. => True
  | fork cond .. => s.Has cond .i1
  | scan target _ => s.Has target .i32

/-- The ending says where the guest goes on. -/
def Holds (V : Value → UInt64) (g : State) (out : Departure) : Ending → Prop
  | goto addr reason => g.pc = addr ∧ out = ⟨isTaken reason, false⟩
  | fork cond taken notTaken likely => V cond = out.taken.toUInt64 ∧
    out.pending = (likely && out.taken) ∧
    (out.pending = false → g.pc = if out.taken then taken else notTaken)
  | scan target missed => V target = g.pc.toUInt64 ∧ out = ⟨true, false⟩ ∧ g.pc ∉ missed

end Ending

namespace Scope

/-- The code of an instruction in a delay slot. -/
def delayCode (c : Scope) (tr : Transfer) (slot : Instr) (t : RegTable) : Emit RegTable :=
  lower c.config.foldConstants t (tr.addr + 4) slot

/-- The code of the link of a transfer and of its delay slot. -/
def linkedDelay (c : Scope) (tr : Transfer) (slot : Instr) (t : RegTable) : Emit RegTable := do
  c.delayCode tr slot (← linkCode tr t)

/-- The code of a transfer and its delay slot. -/
def transferCode (c : Scope) (tr : Transfer) (slot : Instr) (t : RegTable) :
    Emit (RegTable × Ending) :=
  match tr.control with
  | .branch taken notTaken likely => do
    let cond ← lowerCondition t tr.insn
    let t ← if likely then pure t else c.delayCode tr slot t
    return (t, .fork cond taken notTaken likely)
  | .jump target => do
    let t ← c.linkedDelay tr slot t
    return (t, .goto target .branchTarget)
  | .jumpReg =>
    match jumpOperands tr.insn with
    | none => throw (.notLowerable tr.insn)
    | some (rs, _) => do
      let target ← t.getGpr rs
      let known := if c.config.foldConstants then t.consts.constant? rs else none
      let t ← c.linkedDelay tr slot t
      return (t, match known with
        | some addr => .goto addr .branchTarget
        | none => .scan target [])
  | .none => throw (.notLowerable tr.insn)

/-- Where a block without a transfer goes on. -/
def onward (b : Region.Block) : Ending :=
  .goto (b.patchTarget.getD (b.exitAddr + 4)) (if b.isPatch then .branchTarget else .fallthrough)

/-- The code of a block after its merges. -/
def bodyCode (c : Scope) (b : Region.Block) (t : RegTable) : Emit (RegTable × Ending) := do
  let t ← c.countInstructions b t
  match b.transfer with
  | some tr => do
    let t ← (b.code.take tr.index).foldlM
      (fun t p => lower c.config.foldConstants t p.2 (decode p.1)) t
    c.transferCode tr (← delaySlot b tr) t
  | none => do
    let t ← b.code.foldlM (fun t p => lower c.config.foldConstants t p.2 (decode p.1)) t
    return (t, onward b)

end Scope

/-- The ending is one that the code of the block `b` in slot `x` has. A register jump only ends at a
known address if the walk takes the register for a constant. -/
def Ending.Of (c : Scope) (x : Slot) (b : Region.Block) : Ending → Prop
  | goto addr reason => b.transfer = none ∧ Ending.goto addr reason = Scope.onward b ∨
    ∃ tr, b.transfer = some tr ∧ reason = .branchTarget ∧
      (tr.control = .jump addr ∨ tr.control = .jumpReg ∧ c.config.foldConstants = true ∧
        ∃ rs rd, Scope.jumpOperands tr.insn = some (rs, rd) ∧ c.Knows x (.before tr.index) rs addr)
  | fork _ taken notTaken likely =>
    ∃ tr, b.transfer = some tr ∧ tr.control = .branch taken notTaken likely
  | scan _ missed => missed = [] ∧ ∃ tr, b.transfer = some tr ∧ tr.control = .jumpReg

/-- The code of a block does what passing through the block does, and its ending says where the
guest goes on. -/
def Passing (c : Scope) (b : Region.Block) (t : RegTable) (p : RegTable × Ending)
    (V : Value → UInt64) (m m' : Watched) : Prop :=
  ∀ safe : Memory → Prop, SafeBetween safe m m' → ∀ g : State, t.Agrees V g →
    g.mem = m.state.mem → ∃ g' out, b.Passes c.config.countInstructions safe g g' out ∧
      p.1.Agrees V g' ∧ m'.state = { m.state with mem := g'.mem } ∧ p.2.Holds V g' out

/-! ## Transfers -/

/-- The delay slot of a transfer is the word after it. -/
theorem delaySlot_eq_ok {d : UInt32} (hd : b.words[tr.index + 1]? = some d) :
    Scope.delaySlot b tr = .ok (decode d) := by
  have hinstr : b.instrs[tr.index + 1]? = some (decode d) := by
    rw [b.decoded, List.getElem?_map, hd]
    rfl
  unfold Scope.delaySlot
  rw [hinstr]

/-- The code of a delay slot does what its instruction does. -/
theorem yields_delayCode {d : UInt32} (ht : t.Typed s)
    (hplain : Plain [(d, tr.addr + 4)]) (hcovers : t.Covers (decode d)) :
    Yields s (c.delayCode tr (decode d) t) (fun t' s' => t.Keeps t' s')
      (Follows t [(d, tr.addr + 4)]) := by
  have := yields_straight c.config.foldConstants ht hplain
    (by simpa using hcovers)
  simpa [Scope.delayCode] using this

/-- Writing a return address in table and state alike. -/
private theorem yields_link (ht : t.Typed s) (r : Gpr) (addr : UInt32) :
    Yields s (liftM (Scope.link r addr t)) (fun t' s' => t.Keeps t' s') fun t' V m m' =>
      m' = m ∧ ∀ g : State, t.Agrees V g → t'.Agrees V (g.setReg r (addr + 8)) := by
  simp only [Scope.link, liftBuild_bind, liftBuild_pure]
  refine Gives.bind (gives_word _) fun v s₁ h₁ hv => ?_
  refine Yields.pure (RegTable.keeps_setGpr (ht.mono h₁) r _ hv) fun V m e => ⟨rfl, fun g hg => ?_⟩
  refine hg.setGpr r e fun c hc => ?_
  exact Option.some.inj hc

/-- The code of a link writes the return address, if there is one to write. -/
theorem yields_linkCode (ht : t.Typed s) (hcan : tr.insn.canCompile = true) :
    Yields s (liftM (Scope.linkCode tr t)) (fun t' s' => t.Keeps t' s') fun t' V m m' =>
      m' = m ∧ ∀ g : State, t.Agrees V g → t'.Agrees V (g.link tr.addr tr.insn) := by
  unfold Scope.linkCode
  cases hi : tr.insn with
  | jumpLink index => exact yields_link ht .ra tr.addr
  | jumpLinkReg rd rs => exact yields_link ht rd tr.addr
  | branchZeroLink =>
    rw [hi] at hcan
    cases hcan
  | _ => exact Yields.pure (.refl ht) fun V m => ⟨rfl, fun g hg => hg⟩

/-- A branch goes on at its target or after its delay slot, and links nothing. -/
theorem branch_facts {insn : Instr} {addr taken notTaken : UInt32} {likely : Bool}
    (h : insn.control addr = .branch taken notTaken likely) (hcan : insn.canCompile = true) :
    insn.isLikelyBranch = likely ∧ notTaken = addr + 8 ∧
      ∀ g : State, g.target addr insn = taken ∧ g.link addr insn = g := by
  cases insn <;> cases h <;> first | exact ⟨rfl, rfl, fun _ => ⟨rfl, rfl⟩⟩ | cases hcan

/-- A jump goes on at its target. -/
theorem jump_facts {insn : Instr} {addr target : UInt32}
    (h : insn.control addr = .jump target) :
    insn.isLikelyBranch = false ∧
      ∀ g : State, g.target addr insn = target ∧ g.taken insn = true := by
  obtain ⟨index, rfl | rfl, rfl⟩ := Instr.control_eq_jump_iff.1 h
  · exact ⟨rfl, fun _ => ⟨rfl, rfl⟩⟩
  · exact ⟨rfl, fun _ => ⟨rfl, rfl⟩⟩

/-- A register jump goes on at the address in its register. -/
theorem jumpReg_facts {insn : Instr} {addr : UInt32} (h : insn.control addr = .jumpReg) :
    insn.isLikelyBranch = false ∧ ∃ rs rd, Scope.jumpOperands insn = some (rs, rd) ∧
      .gpr rs ∈ insn.uses ∧ ∀ g : State, g.target addr insn = g.reg rs ∧ g.taken insn = true := by
  obtain ⟨rs, rfl | ⟨rd, rfl⟩⟩ := Instr.control_eq_jumpReg_iff.1 h
  · exact ⟨rfl, rs, _, rfl, by simp [Instr.uses], fun _ => ⟨rfl, rfl⟩⟩
  · exact ⟨rfl, rs, _, rfl, by simp [Instr.uses], fun _ => ⟨rfl, rfl⟩⟩

/-- The code of a transfer does what leaving the block does. -/
def Leaving (b : Region.Block) (tr : Transfer) (t : RegTable) (p : RegTable × Ending)
    (V : Value → UInt64) (m m' : Watched) : Prop :=
  ∀ safe : Memory → Prop, SafeBetween safe m m' → ∀ g : State, t.Agrees V g →
    g.mem = m.state.mem → ∃ g' out, b.Leaves safe tr g g' out ∧ p.1.Agrees V g' ∧
      m'.state = { m.state with mem := g'.mem } ∧ p.2.Holds V g' out

/-- A transfer of block `b` that the compiler has a lowering for, with `d` in its delay slot. All
that is read is in the table `t`; the delay slot is read here only if it is part of the block. -/
structure Departing (b : Region.Block) (tr : Transfer) (d : UInt32) (t : RegTable) : Prop where
  transfer : b.transfer = some tr
  can : tr.insn.canCompile = true
  covers : t.Covers tr.insn
  drop : b.code.drop (tr.index + 1) = [(d, tr.addr + 4)]
  plain : Plain [(d, tr.addr + 4)]
  delay : tr.insn.isLikelyBranch = false → t.Covers (decode d)

namespace Departing

variable {d : UInt32} {taken notTaken target : UInt32} {likely : Bool}

/-- How the transfer goes on is decided by its instruction. -/
theorem control_eq (h : Departing b tr d t) : tr.control = tr.insn.control tr.addr :=
  have ⟨_, _, _, _, _, hcontrol, _⟩ := Region.Block.transfer_eq_some h.transfer
  hcontrol

/-- A transfer that always runs its delay slot: the code of the link and of the delay slot. -/
theorem yields_linkedDelay (h : Departing b tr d t) (ht : t.Typed s)
    (hlikely : tr.insn.isLikelyBranch = false) :
    Yields s (c.linkedDelay tr (decode d) t) (fun t' s' => t.Keeps t' s')
      fun t' V m m' => ∀ safe : Memory → Prop, SafeBetween safe m m' → ∀ g : State,
        t.Agrees V g → g.mem = m.state.mem → ∃ g', b.Leaves safe tr g g' ⟨g.taken tr.insn, false⟩ ∧
          g'.pc = (if g.taken tr.insn then g.target tr.addr tr.insn else tr.addr + 8) ∧
          t'.Agrees V g' ∧ m'.state = { m.state with mem := g'.mem } := by
  refine Yields.bind (yields_linkCode ht h.can) fun t₁ s₁ h₁ hk₁ => ?_
  refine (yields_delayCode hk₁.typed h.plain ((h.delay hlikely).of_keeps hk₁)).imp
    (fun t' s' _ hk => hk₁.trans hk) ?_
  rintro t' V m₁ m' hfollows m ⟨rfl, hlink⟩ safe hsafe g hg hmem
  obtain ⟨g', hrun, hg', hm'⟩ := hfollows safe hsafe (g.link tr.addr tr.insn) (hlink g hg)
    (by rw [Machine.mem_link, hmem])
  rw [← h.drop] at hrun
  exact ⟨_, .transfer hlikely hrun, rfl, hg'.clock_pc _, hm'⟩

/-- The code of a branch: its condition, and its delay slot unless the patch block has that. -/
theorem yields_branch (h : Departing b tr d t) (ht : t.Typed s)
    (hctl : tr.control = .branch taken notTaken likely) :
    Yields s (c.transferCode tr (decode d) t)
      (fun p s' => t.Keeps p.1 s' ∧ p.2.Typed s' ∧ p.2.Of c x b) (Leaving b tr t) := by
  have hbr : tr.insn.control tr.addr = .branch taken notTaken likely := h.control_eq.symm.trans hctl
  obtain ⟨hlikely, hnot, hfacts⟩ := branch_facts hbr h.can
  simp only [Scope.transferCode, hctl]
  refine Gives.bind (gives_lowerCondition ht h.covers h.can hbr) fun cond s₁ h₁ hc => ?_
  cases likely with
  | true =>
    refine Yields.pure ⟨.refl (ht.mono h₁), hc, tr, h.transfer, hctl⟩
      fun V m hcond safe _ g hg hmem => ?_
    refine ⟨_, _, .likely hlikely, hg.clock_pc _, with_mem m.state hmem, hcond g hg, rfl,
      fun hpend => ?_⟩
    simp only at hpend ⊢
    rw [hpend, if_neg (by simp), if_neg (by simp), hnot]
    rfl
  | false =>
    have hlink : Scope.linkCode tr t = pure t := by
      unfold Scope.linkCode
      revert hbr
      cases tr.insn <;> intro hbr <;> first | rfl | cases hbr
    have hdone := h.yields_linkedDelay (c := c) (ht.mono h₁) hlikely
    rw [Scope.linkedDelay, hlink] at hdone
    refine Yields.bind hdone fun t₁ s₂ h₂ hk => ?_
    refine Yields.pure ⟨hk, hc.mono h₂, tr, h.transfer, hctl⟩
      fun V m' m hleave hcond safe hsafe g hg hmem => ?_
    obtain ⟨g', hout, hpc, hg', hm'⟩ := hleave safe hsafe g hg hmem
    refine ⟨g', _, hout, hg', hm', hcond g hg, rfl, fun _ => ?_⟩
    rw [hpc, (hfacts g).1, hnot]

/-- The code of a jump is that of its link and its delay slot. -/
theorem yields_jump (h : Departing b tr d t) (ht : t.Typed s) (hctl : tr.control = .jump target) :
    Yields s (c.transferCode tr (decode d) t)
      (fun p s' => t.Keeps p.1 s' ∧ p.2.Typed s' ∧ p.2.Of c x b) (Leaving b tr t) := by
  have hj : tr.insn.control tr.addr = .jump target := h.control_eq.symm.trans hctl
  obtain ⟨hlikely, hfacts⟩ := jump_facts hj
  simp only [Scope.transferCode, hctl]
  refine Yields.bind (h.yields_linkedDelay ht hlikely) fun t₁ s₁ h₁ hk => ?_
  refine Yields.pure ⟨hk, trivial, .inr ⟨tr, h.transfer, rfl, .inl hctl⟩⟩
    fun V m' m hleave safe hsafe g hg hmem => ?_
  obtain ⟨g', hout, hpc, hg', hm'⟩ := hleave safe hsafe g hg hmem
  refine ⟨g', _, hout, hg', hm', ?_, ?_⟩
  · rw [hpc, (hfacts g).2, if_pos rfl, (hfacts g).1]
  · rw [(hfacts g).2]
    rfl

/-- The code of a register jump, which goes to one address if that is known and else looks for the
block at the address. -/
theorem yields_jumpReg (h : Departing b tr d t) (ht : t.Typed s) (hctl : tr.control = .jumpReg)
    (hknown : ∀ r v, t.consts.constant? r = some v → c.Knows x (.before tr.index) r v) :
    Yields s (c.transferCode tr (decode d) t)
      (fun p s' => t.Keeps p.1 s' ∧ p.2.Typed s' ∧ p.2.Of c x b) (Leaving b tr t) := by
  have hj : tr.insn.control tr.addr = .jumpReg := h.control_eq.symm.trans hctl
  obtain ⟨hlikely, rs, rd, hops, huse, hfacts⟩ := jumpReg_facts hj
  simp only [Scope.transferCode, hctl, hops]
  have hrs : t.Loaded (.gpr rs) := h.covers.use ht huse
  -- The target is read before the delay slot, which may overwrite its register.
  refine Gives.bind (RegTable.gives_getGpr ht hrs) fun target s₁ h₁ hv => ?_
  refine Yields.bind (h.yields_linkedDelay (ht.mono h₁) hlikely) fun t₁ s₂ h₂ hk => ?_
  refine Yields.pure ⟨hk, ?_⟩ fun V m' m hleave htarget safe hsafe g hg hmem => ?_
  · split
    · rename_i addr hconst
      split at hconst
      · rename_i hfold
        exact ⟨trivial, .inr ⟨tr, h.transfer, rfl, .inr ⟨hctl, hfold, rs, rd, hops,
          hknown rs addr hconst⟩⟩⟩
      · cases hconst
    · exact ⟨hv.mono h₂, rfl, tr, h.transfer, hctl⟩
  · obtain ⟨g', hout, hpc, hg', hm'⟩ := hleave safe hsafe g hg hmem
    rw [(hfacts g).2, if_pos rfl, (hfacts g).1] at hpc
    rw [(hfacts g).2] at hout
    refine ⟨g', _, hout, hg', hm', ?_⟩
    split
    · rename_i addr hconst
      refine ⟨?_, rfl⟩
      split at hconst
      · rw [hpc]
        exact (hg (.gpr rs)).known rs addr rfl hconst
      · cases hconst
    · refine ⟨?_, rfl, List.not_mem_nil⟩
      rw [hpc]
      exact htarget g hg

end Departing

/-- Lowering a transfer and its delay slot. -/
theorem yields_transferCode (ht : t.Typed s) (htr : b.transfer = some tr) (hb : b.Shaped)
    (hcan : ∀ w ∈ b.words, (decode w).canCompile = true)
    (hcovers : ∀ insn ∈ b.body, t.Covers insn)
    (hknown : ∀ r v, t.consts.constant? r = some v → c.Knows x (.before tr.index) r v) :
    Yields s (do c.transferCode tr (← Scope.delaySlot b tr) t)
      (fun p s' => t.Keeps p.1 s' ∧ p.2.Typed s' ∧ p.2.Of c x b)
      (Leaving b tr t) := by
  obtain ⟨w, hw, hlen, _, hinsn, hcontrol, hslot⟩ := Region.Block.transfer_eq_some htr
  obtain ⟨_, d, _, hdrop, _, _, hd, _⟩ := Region.Block.code_of_transfer htr
  have hdword := List.mem_of_getElem? hd
  have h : Departing b tr d t := {
    transfer := htr
    can := hinsn ▸ hcan w (List.mem_of_getElem? hw)
    covers := hcovers _ (hinsn ▸ Region.Block.decode_mem_body htr (Nat.le_refl _) hw)
    drop := hdrop
    plain := ⟨by simpa using hcan d hdword, by simpa using hb.delay htr hd⟩
    delay := fun hlikely => hcovers _ <|
      Region.Block.body_of_unlikely htr hlikely ▸ Region.Block.decode_mem_instrs hdword }
  rw [delaySlot_eq_ok hd]
  change Yields s (c.transferCode tr (decode d) t) _ _
  cases hctl : tr.control with
  | none =>
    rw [← Instr.isTransfer_control tr.insn tr.addr, ← hcontrol, hctl] at hslot
    cases hslot
  | branch => exact h.yields_branch ht hctl
  | jump => exact h.yields_jump ht hctl
  | jumpReg => exact h.yields_jumpReg ht hctl hknown

/-! ## Blocks -/

/-- Lowering a block after its merges. -/
theorem yields_bodyCode (ht : t.Typed s) (hb : b.Shaped)
    (hcan : ∀ w ∈ b.words, (decode w).canCompile = true)
    (hcovers : ∀ insn ∈ b.body, t.Covers insn)
    (hicnt : c.config.countInstructions = true → t.Loaded .icnt)
    (hknown : ∀ i t' s', c.codeUpTo b i t s.builder = .ok (t', s') → ∀ r v,
      t'.consts.constant? r = some v → c.Knows x (.before i) r v) :
    Yields s (c.bodyCode b t)
      (fun p s' => t.Keeps p.1 s' ∧ p.2.Typed s' ∧ p.2.Of c x b)
      (Passing c b t) := by
  have hword : ∀ p ∈ b.code, p.1 ∈ b.words := by
    intro p hp
    obtain ⟨i, w, hw, rfl⟩ := Region.Block.mem_code.1 hp
    exact List.mem_of_getElem? hw
  unfold Scope.bodyCode
  refine Yields.bind (yields_countInstructions ht hicnt).ran ?_
  rintro t₁ s₁ _ ⟨hk₁, hrun₁⟩
  cases htr : b.transfer with
  | none =>
    have hplain : Plain b.code :=
      ⟨fun p hp => hcan _ (hword p hp), fun p hp => hb.through htr hp⟩
    have hcov : ∀ p ∈ b.code, t₁.Covers (decode p.1) := fun p hp =>
      (hcovers _ (Region.Block.body_of_none htr ▸ Region.Block.mem_instrs hp)).of_keeps hk₁
    refine Yields.bind (yields_straight _ hk₁.typed hplain hcov) fun t₂ s₂ _ hk₂ => ?_
    refine Yields.pure ⟨hk₁.trans hk₂, trivial, .inl ⟨htr, rfl⟩⟩ ?_
    rintro V m' m₁ hfollows m ⟨rfl, hcount⟩ safe hsafe g hg hmem
    obtain ⟨g', hrun, hg', hm'⟩ := hfollows safe hsafe _ (hcount g hg) hmem
    have hnext : b.fallthrough = some (b.patchTarget.getD (b.exitAddr + 4)) := by
      simp [Region.Block.fallthrough, Region.Block.endsInTransfer, htr]
    refine ⟨_, _, .through htr hrun hnext, hg'.clock_pc _, hm', rfl, ?_⟩
    cases b.isPatch <;> rfl
  | some tr =>
    have hplain : Plain (b.code.take tr.index) :=
      ⟨fun p hp => hcan _ (hword p (List.mem_of_mem_take hp)), fun p hp => hb.straight htr hp⟩
    have hcov : ∀ p ∈ b.code.take tr.index, t₁.Covers (decode p.1) := fun p hp =>
      (hcovers _ (Region.Block.mem_body_of_take htr
        (List.take_subset_take_left _ (Nat.le_succ _) hp))).of_keeps hk₁
    refine Yields.bind (yields_straight _ hk₁.typed hplain hcov).watch.ran ?_
    rintro t₂ s₂ _ ⟨hk₂, hrun₂⟩
    have hupTo : c.codeUpTo b tr.index t s.builder = .ok (t₂, s₂.builder) := by
      change (c.countInstructions b t s.builder >>= fun p => _) = _
      rw [hrun₁]
      exact hrun₂
    refine (yields_transferCode hk₂.typed htr hb hcan (fun insn hi =>
      ((hcovers insn hi).of_keeps hk₁).of_keeps hk₂) (hknown _ _ _ hupTo)).watch.imp
      (fun p s' _ h => ⟨hk₁.trans (hk₂.trans h.1), h.2⟩) ?_
    rintro p V m₂ m' ⟨hleaving, hle'⟩ m₁ ⟨hfollows, hle⟩ m ⟨rfl, hcount⟩ safe hsafe g hg hmem
    obtain ⟨g₁, hrun, hg₁, hm₂⟩ := hfollows safe (hsafe.left hle') _ (hcount g hg) hmem
    obtain ⟨g', out, hleave, hg', hm', hends⟩ := hleaving safe (hsafe.right hle) g₁ hg₁ (by rw [hm₂])
    refine ⟨g', out, hleave.passes htr hrun, hg', ?_, hends⟩
    rw [hm', hm₂]

/-! ## Blocks as code and ending -/

variable {α β : Type}

/-- What emitting code does to a draft. -/
theorem liftEmit_run (x : Emit α) (d : Draft) :
    (liftM x : Walk α) d = (x d.builder).map fun p => (p.1, { d with builder := p.2 }) := by
  change (x d.builder >>= fun p => _) = _
  cases x d.builder <;> rfl

/-- Emitting code in the walk goes step by step. -/
theorem liftEmit_bind (x : Emit α) (k : α → Emit β) :
    (liftM (x >>= k) : Walk β) = (liftM x : Walk α) >>= fun a => (liftM (k a) : Walk β) := by
  funext d
  change (liftM (x >>= k) : Walk β) d = (liftM x : Walk α) d >>= fun p => (liftM (k p.1) : Walk β) p.2
  rw [liftEmit_run, liftEmit_run]
  change (x d.builder >>= fun p => k p.1 p.2).map _ = _
  cases x d.builder with
  | error e => rfl
  | ok p => exact (liftEmit_run (k p.1) { d with builder := p.2 }).symm

/-- A value alone emits nothing. -/
theorem liftEmit_pure (a : α) : (liftM (pure a : Emit α) : Walk α) = pure a := rfl

/-- A lookup that succeeds is a value alone. -/
theorem liftExcept_ok (a : α) : (liftM (.ok a : Except Breakdown α) : Walk α) = pure a := rfl

/-- A lookup may be made by the generator or by the walk. -/
theorem liftEmit_except (e : Except Breakdown α) :
    (liftM (liftM e : Emit α) : Walk α) = (liftM e : Walk α) := by
  cases e <;> rfl

namespace Scope

/-- Goes on at one of two blocks by a truth value. -/
def forkTo (c : Scope) (cond : Value) (takenSucc notTakenSucc : Option Slot)
    (taken notTaken : UInt32) (likely : Bool) (t : RegTable) : Walk Unit := do
  let ifTrue ← c.edgeTo takenSucc t taken .branchTarget
  let ifFalse ← c.edgeTo notTakenSucc t notTaken (if likely then .likelyUntaken else .fallthrough)
  let weights := if takenSucc.isNone then (5, 95) else (95, 5)
  terminate (.branch cond ifTrue ifFalse (some weights))

/-- Ends a block: the edges and exits that its ending needs, and its terminator. -/
def leave (c : Scope) (b : Region.Block) (e : Ending) (t : RegTable) : Walk Unit :=
  match e with
  | .goto addr reason => do
    terminate (.jump (← c.edgeTo (← c.succAt b addr) t addr reason))
  | .fork cond taken notTaken likely => do
    let takenSucc ← c.takenSucc b taken likely
    let notTakenSucc ← c.succAt b notTaken
    match takenSucc, notTakenSucc with
    | some x, some y =>
      if x = y then c.jumpTo x t
      else c.forkTo cond (some x) (some y) taken notTaken likely t
    | takenSucc, notTakenSucc => c.forkTo cond takenSucc notTakenSucc taken notTaken likely t
  | .scan target _ => do
    c.dispatch target t (← c.dispatchTargets b)
    terminate (.jump (← c.exitBlock t (.held target) .indirectMiss))

end Scope

/-- A branch is its condition, its delay slot unless it is likely, and a fork. -/
theorem lowerBranch_eq (insn : Instr) (taken notTaken : UInt32) (likely : Bool)
    (delay : RegTable → Emit RegTable) :
    c.lowerBranch b insn taken notTaken likely delay t = (do
      let cond ← (lowerCondition t insn : Emit Value)
      let t ← (if likely then pure t else delay t : Emit RegTable)
      c.leave b (.fork cond taken notTaken likely) t
      return t) := by
  unfold Scope.lowerBranch
  refine bind_congr fun cond => ?_
  cases likely
  case' true => simp only [if_true, liftEmit_pure, pure_bind]
  case' false => refine bind_congr fun t' => ?_
  all_goals
    simp only [Scope.leave, bind_assoc]
    refine bind_congr fun x => bind_congr fun y => ?_
    rcases x with _ | x <;> rcases y with _ | y
    case some.some => by_cases hxy : x = y <;> simp [Scope.forkTo, hxy]
    all_goals simp [Scope.forkTo]

/-- A transfer is its code and its ending. -/
theorem lowerTransfer_eq (hcontrol : tr.control = tr.insn.control tr.addr) :
    c.lowerTransfer b tr t = (do
      let slot ← Scope.delaySlot b tr
      let p ← (c.transferCode tr slot t : Emit (RegTable × Ending))
      c.leave b p.2 p.1
      return p.1) := by
  unfold Scope.lowerTransfer Scope.transferCode
  refine bind_congr fun slot => ?_
  -- For each way to leave a block, the emitted code and the end of the block are the two halves of
  -- lowering.
  cases hctl : tr.control with
  | none => rfl
  | branch taken notTaken likely =>
    simp only [lowerBranch_eq, liftEmit_bind, bind_assoc]
    refine bind_congr fun cond => ?_
    cases likely with
    | true => rfl
    | false =>
      simp only [Bool.false_eq_true, if_false, liftEmit_bind, liftEmit_pure, bind_assoc, pure_bind]
      rfl
  | jump target =>
    obtain ⟨index, hinsn, -⟩ := Instr.control_eq_jump_iff.1 (hcontrol.symm.trans hctl)
    simp only [Scope.linkedDelay, Scope.linkCode, Scope.leave, liftEmit_bind, liftEmit_pure,
      bind_assoc, pure_bind]
    rcases hinsn with hinsn | hinsn
    · rw [hinsn]
      rfl
    · rw [hinsn]
      rfl
  | jumpReg =>
    obtain ⟨rs, hinsn⟩ := Instr.control_eq_jumpReg_iff.1 (hcontrol.symm.trans hctl)
    simp only [Scope.lowerJumpReg, Scope.linkedDelay, Scope.linkCode, Scope.delayCode]
    rcases hinsn with hinsn | ⟨rd, hinsn⟩
    · simp only [hinsn, Scope.jumpOperands, liftBuild_pure, liftEmit_bind, liftEmit_pure,
        liftEmit_except, bind_assoc, pure_bind]
      refine bind_congr fun target => bind_congr fun t' => ?_
      cases (if c.config.foldConstants then t.consts.constant? rs else none) with
      | some addr => simp [Scope.leave]
      | none => simp [Scope.leave]
    · simp only [hinsn, Scope.jumpOperands, liftEmit_bind, liftEmit_pure, liftEmit_except, bind_assoc,
        pure_bind]
      refine bind_congr fun target => bind_congr fun t₁ => bind_congr fun t' => ?_
      cases (if c.config.foldConstants then t.consts.constant? rs else none) with
      | some addr => simp [Scope.leave]
      | none => simp [Scope.leave]

/-- A block is its merges, its code and, if a transfer ends it, its ending. -/
theorem lowerBlock_eq (x : Slot) :
    c.lowerBlock x b t = (do
      setBlockComment (← c.blockOf x)
        (some s!"guest {Text.hex8 b.entry.toNat}..{Text.hex8 b.exitAddr.toNat}")
      let t ← c.addPhis x b t
      let p ← (c.bodyCode b t : Emit (RegTable × Ending))
      if b.endsInTransfer then c.leave b p.2 p.1
      return p.1) := by
  unfold Scope.lowerBlock Scope.bodyCode
  refine bind_congr fun id => bind_congr fun _ => bind_congr fun t => ?_
  simp only [liftEmit_bind, bind_assoc]
  refine bind_congr fun t => ?_
  cases htr : b.transfer with
  | none =>
    simp only [liftEmit_bind, liftEmit_pure, bind_assoc, pure_bind]
    simp [Region.Block.endsInTransfer, htr]
  | some tr =>
    obtain ⟨_, _, _, _, _, hcontrol, _⟩ := Region.Block.transfer_eq_some htr
    simp [Region.Block.endsInTransfer, htr, liftEmit_bind, liftEmit_except, lowerTransfer_eq hcontrol]

/-- A block without a transfer leaves at its fallthrough. -/
theorem lowerFallthrough_eq :
    c.lowerFallthrough b t =
      if b.endsInTransfer then pure () else c.leave b (Scope.onward b) t := by
  unfold Scope.lowerFallthrough Region.Block.fallthrough
  by_cases h : b.endsInTransfer = true
  · simp [h]
  · simp [h, Scope.onward, Scope.leave]

end HotRegion.Lowering
