import HotRegion.Proofs.Machine.BlockRun
import HotRegion.Proofs.Region.Patched

/-!
# Passing through blocks

What running a block of a region does to the guest state, and that this is a run of single steps of
the machine. A block that ends in a likely branch that is taken stops before the delay slot, which
the patch block runs: the machine still stands at the branch then, and takes branch and delay slot
in one step.

Memory is required to be `safe` after every instruction. It has to hold the words of the block
wherever it is, so that the machine fetches what the block runs.

## Key results

- `Block.Passes.reaches`: a guest block as single steps
- `Block.Passes.reaches_patch`: a patch block as the step of its branch
-/

namespace HotRegion.Region

open Isa Machine

/-- How control leaves a block. -/
structure Departure where
  /-- Control goes on at the target of a transfer. -/
  taken : Bool
  /-- The delay slot of a likely branch that is taken is still to run. -/
  pending : Bool

variable {safe : Memory → Prop} {g g' g₁ h : State} {code rest : List (UInt32 × UInt32)}
  {a b : Block} {counting : Bool} {out : Departure} {addr : UInt32}

/-! ## Straight code -/

/-- Runs words from their addresses one after the other; memory is safe after each of them. -/
def Straight (safe : Memory → Prop) : List (UInt32 × UInt32) → State → State → Prop
  | [], g, g' => g' = g
  | (word, addr) :: rest, g, g' =>
    ∃ g₁, execute g addr (decode word) = .ok g₁ ∧ safe g₁.mem ∧ Straight safe rest g₁ g'

/-- The words lie one after the other from `addr` on. -/
def Consecutive : UInt32 → List (UInt32 × UInt32) → Prop
  | _, [] => True
  | addr, p :: rest => p.2 = addr ∧ Consecutive (addr + 4) rest

/-- Consecutive code is so in both parts. -/
theorem Consecutive.append (h : Consecutive addr (code ++ rest)) :
    Consecutive addr code ∧ Consecutive (wordAddr addr code.length) rest := by
  induction code generalizing addr with
  | nil => exact ⟨trivial, by simpa using h⟩
  | cons p code ih =>
    obtain ⟨hcode, hrest⟩ := ih h.2
    refine ⟨⟨h.1, hcode⟩, ?_⟩
    rw [List.length_cons, Nat.add_comm, wordAddr_add]
    exact hrest

/-- The code of a block is consecutive. -/
theorem Block.consecutive_code (b : Block) : Consecutive b.entry b.code := by
  have hgo : ∀ (words : List UInt32) (i : Nat), Consecutive (wordAddr b.entry i)
      ((words.zipIdx i).map fun p => (p.1, wordAddr b.entry p.2)) := by
    intro words
    induction words with
    | nil => exact fun _ => trivial
    | cons w words ih =>
      intro i
      refine ⟨rfl, ?_⟩
      rw [← wordAddr_succ]
      exact ih (i + 1)
  have := hgo b.words 0
  rwa [wordAddr_zero] at this

/-- Straight code does not look at the clock. -/
theorem Straight.clock (h : Straight safe code g g') (pc : UInt32) (icnt : UInt64) :
    Straight safe code (g.clock pc icnt) (g'.clock pc icnt) := by
  induction code generalizing g with
  | nil => exact congrArg (·.clock pc icnt) h
  | cons p code ih =>
    obtain ⟨g₁, hok, hsafe, hrest⟩ := h
    refine ⟨g₁.clock pc icnt, ?_, hsafe, ih hrest⟩
    rw [execute_clock, hok]
    rfl

/-- Nor does it change it. -/
theorem Straight.clock_eq (h : Straight safe code g g') : g'.pc = g.pc ∧ g'.icnt = g.icnt := by
  induction code generalizing g with
  | nil =>
    rw [show g' = g from h]
    exact ⟨rfl, rfl⟩
  | cons p code ih =>
    obtain ⟨g₁, hok, _, hrest⟩ := h
    have hpc := clock_execute hok
    have := ih hrest
    exact ⟨this.1.trans hpc.1, this.2.trans hpc.2⟩

/-- Straight code ends in a safe memory if it begins in one. -/
theorem Straight.safe_end (h : Straight safe code g g') (hg : safe g.mem) : safe g'.mem := by
  induction code generalizing g with
  | nil =>
    rw [show g' = g from h]
    exact hg
  | cons p code ih =>
    obtain ⟨g₁, _, hsafe, hrest⟩ := h
    exact ih hrest hsafe

/-- Straight code that memory holds is a run of single steps. -/
theorem Straight.reaches (h : Straight safe code g g') (hcode : Consecutive addr code)
    (hflow : ∀ p ∈ code, (decode p.1).hasDelaySlot = false)
    (hfetch : ∀ mem, safe mem → ∀ p ∈ code, mem.readWord p.2 = p.1) (hg : safe g.mem) (n : UInt64) :
    Reaches code.length (g.clock addr n)
      (g'.clock (wordAddr addr code.length) (n + UInt64.ofNat code.length)) := by
  induction code generalizing g addr n with
  | nil =>
    rw [show g' = g from h]
    simpa using Reaches.refl (g.clock addr n)
  | cons p code ih =>
    obtain ⟨g₁, hok, hsafe, hrest⟩ := h
    obtain ⟨hp, hcode⟩ := hcode
    -- The word is the one at this address, and it runs the same under other counters.
    have hword : (g.clock addr n).mem.readWord (g.clock addr n).pc = p.1 := by
      have := hfetch g.mem hg p List.mem_cons_self
      rwa [hp] at this
    have hstep : execute (g.clock addr n) (g.clock addr n).pc (decode p.1) =
        .ok (g₁.clock addr n) := by
      have := execute_clock g addr n addr (decode p.1)
      rw [hp] at hok
      rw [hok] at this
      exact this
    have hone := step_one_of_straight (s := g.clock addr n) (t := g₁.clock addr n)
      (by rw [hword]; exact hflow p List.mem_cons_self) (by rw [hword]; exact hstep)
    have hrun := ih hrest hcode (fun q hq => hflow q (List.mem_cons_of_mem _ hq))
      (fun mem hmem q hq => hfetch mem hmem q (List.mem_cons_of_mem _ hq)) hsafe (n + 1)
    refine .head hone ?_
    -- Address and count go on by one instruction.
    have haddr : wordAddr addr (code.length + 1) = wordAddr (addr + 4) code.length := by
      rw [Nat.add_comm, wordAddr_add]
      rfl
    have hcount : n + UInt64.ofNat (code.length + 1) = n + 1 + UInt64.ofNat code.length := by
      rw [UInt64.ofNat_add, UInt64.add_comm (UInt64.ofNat code.length), UInt64.add_assoc]
      rfl
    rw [List.length_cons, haddr, hcount]
    exact hrun

/-! ## Blocks -/

namespace Block

/-- Memory holds the words of the block. -/
def In (b : Block) (mem : Memory) : Prop := ∀ p ∈ b.code, mem.readWord p.2 = p.1

/-- The state with the instructions of the block counted ahead, if they are counted at all. -/
def counted (counting : Bool) (b : Block) (g : State) : State :=
  g.clock g.pc (if counting then g.icnt + UInt64.ofNat b.instructionCount else g.icnt)

/-- Running the block from `g` leads to `g'`. The count of instructions stays as it is if they are
not counted. The last argument says how control leaves the block; a patch block is the target of its
branch. -/
inductive Passes (counting : Bool) (safe : Memory → Prop) (b : Block)
    (g : State) : State → Departure → Prop where
  | through {g₁ : State} {next : UInt32} (transfer : b.transfer = none)
      (run : Straight safe b.code (b.counted counting g) g₁) (goes : b.fallthrough = some next) :
      Passes counting safe b g (g₁.clock next g₁.icnt) ⟨b.isPatch, false⟩
  | likely {g₁ : State} {tr : Transfer} (transfer : b.transfer = some tr)
      (isLikely : tr.insn.isLikelyBranch = true)
      (run : Straight safe (b.code.take tr.index) (b.counted counting g) g₁) :
      Passes counting safe b g
        (g₁.clock (if g₁.taken tr.insn then tr.addr + 4 else tr.addr + 8) g₁.icnt)
        ⟨g₁.taken tr.insn, g₁.taken tr.insn⟩
  | transfer {g₁ g₂ : State} {tr : Transfer} (transfer : b.transfer = some tr)
      (isLikely : tr.insn.isLikelyBranch = false)
      (run : Straight safe (b.code.take tr.index) (b.counted counting g) g₁)
      (delay : Straight safe (b.code.drop (tr.index + 1)) (g₁.link tr.addr tr.insn) g₂) :
      Passes counting safe b g (g₂.clock
        (if g₁.taken tr.insn then g₁.target tr.addr tr.insn else tr.addr + 8) g₂.icnt)
        ⟨g₁.taken tr.insn, false⟩

/-- Leaving the block by its transfer from `g`, with the delay slot unless that is still to run. -/
inductive Leaves (safe : Memory → Prop) (b : Block) (tr : Transfer) (g : State) :
    State → Departure → Prop where
  | likely (isLikely : tr.insn.isLikelyBranch = true) :
      Leaves safe b tr g (g.clock (if g.taken tr.insn then tr.addr + 4 else tr.addr + 8) g.icnt)
        ⟨g.taken tr.insn, g.taken tr.insn⟩
  | transfer {g₂ : State} (isLikely : tr.insn.isLikelyBranch = false)
      (delay : Straight safe (b.code.drop (tr.index + 1)) (g.link tr.addr tr.insn) g₂) :
      Leaves safe b tr g (g₂.clock
        (if g.taken tr.insn then g.target tr.addr tr.insn else tr.addr + 8) g₂.icnt)
        ⟨g.taken tr.insn, false⟩

/-- Straight code and then the transfer pass through the block. -/
theorem Leaves.passes {tr : Transfer} (htr : b.transfer = some tr)
    (run : Straight safe (b.code.take tr.index) (b.counted counting g) g₁)
    (h : b.Leaves safe tr g₁ g' out) : b.Passes counting safe g g' out := by
  cases h with
  | likely isLikely => exact .likely htr isLikely run
  | transfer isLikely delay => exact .transfer htr isLikely run delay

/-- Passing through a block with a transfer is straight code and then the transfer. -/
theorem Passes.leaves {tr : Transfer} (h : b.Passes counting safe g g' out)
    (htr : b.transfer = some tr) :
    ∃ g₁, Straight safe (b.code.take tr.index) (b.counted counting g) g₁ ∧
      b.Leaves safe tr g₁ g' out := by
  cases h with
  | through transfer =>
    rw [htr] at transfer
    cases transfer
  | likely transfer isLikely run =>
    obtain rfl := Option.some.inj (htr.symm.trans transfer)
    exact ⟨_, run, .likely isLikely⟩
  | transfer transfer isLikely run delay =>
    obtain rfl := Option.some.inj (htr.symm.trans transfer)
    exact ⟨_, run, .transfer isLikely delay⟩

/-- The code before a transfer, the transfer and its delay slot. -/
theorem code_of_transfer {tr : Transfer} (h : b.transfer = some tr) :
    ∃ w d, b.code = b.code.take tr.index ++ [(w, tr.addr), (d, tr.addr + 4)] ∧
      b.code.drop (tr.index + 1) = [(d, tr.addr + 4)] ∧ (b.code.take tr.index).length = tr.index ∧
      tr.insn = decode w ∧ b.words[tr.index + 1]? = some d ∧ tr.addr = wordAddr b.entry tr.index := by
  obtain ⟨w, hw, hlen, haddr, hinsn, _, _⟩ := transfer_eq_some h
  obtain ⟨d, hd⟩ : ∃ d, b.words[tr.index + 1]? = some d :=
    ⟨_, List.getElem?_eq_getElem (by omega)⟩
  -- Behind the transfer there is its delay slot and nothing else.
  have hlast : b.code.drop (tr.index + 1) = [(d, tr.addr + 4)] := by
    apply List.ext_getElem?
    intro i
    rw [List.getElem?_drop, getElem?_code]
    cases i with
    | zero =>
      rw [haddr, ← wordAddr_succ]
      simp [hd]
    | succ i =>
      rw [List.getElem?_eq_none (by omega)]
      simp
  refine ⟨w, d, ?_, hlast, ?_, hinsn, hd, haddr⟩
  · have hmid : b.code.drop tr.index = (w, tr.addr) :: b.code.drop (tr.index + 1) := by
      have hget : b.code[tr.index]? = some (w, tr.addr) := by
        rw [getElem?_code, hw, haddr]
        rfl
      rw [List.drop_eq_getElem_cons (by rw [length_code]; omega)]
      rw [List.getElem?_eq_some_iff] at hget
      rw [hget.2]
    rw [hlast] at hmid
    rw [← hmid, List.take_append_drop]
  · rw [List.length_take, length_code]
    omega

/-- There is no transfer before the one that a block ends in. -/
theorem Shaped.straight (hb : b.Shaped) {p : UInt32 × UInt32} {tr : Transfer}
    (h : b.transfer = some tr) (hp : p ∈ b.code.take tr.index) :
    (decode p.1).hasDelaySlot = false := by
  obtain ⟨i, hi⟩ := List.mem_iff_getElem?.1 hp
  rw [List.getElem?_take] at hi
  split at hi
  · rename_i hlt
    rw [getElem?_code] at hi
    obtain ⟨w, hw, rfl⟩ := Option.map_eq_some_iff.1 hi
    cases hd : (decode w).hasDelaySlot with
    | false => rfl
    | true =>
      have := hb.position i w hw hd
      obtain ⟨_, _, hlen, _⟩ := transfer_eq_some h
      omega
  · cases hi

/-- The delay slot does not transfer control. -/
theorem Shaped.delay (hb : b.Shaped) {d : UInt32} {tr : Transfer} (h : b.transfer = some tr)
    (hd : b.words[tr.index + 1]? = some d) : (decode d).hasDelaySlot = false := by
  cases hslot : (decode d).hasDelaySlot with
  | false => rfl
  | true =>
    have := hb.position _ d hd hslot
    obtain ⟨_, _, hlen, _⟩ := transfer_eq_some h
    omega

/-- There is no transfer in a block that falls through. -/
theorem Shaped.through (hb : b.Shaped) (h : b.transfer = none) {p : UInt32 × UInt32}
    (hp : p ∈ b.code) : (decode p.1).hasDelaySlot = false := by
  obtain ⟨i, w, hw, rfl⟩ := mem_code.1 hp
  cases hd : (decode w).hasDelaySlot with
  | false => rfl
  | true =>
    have := transfer_eq_none_iff.1 h i w (hb.position i w hw hd) hw
    rw [hd] at this
    cases this

end Block

/-! ## Single steps -/

namespace Block

/-- The machine at `h` stands at the likely branch that ends the block and takes it; the branch
alone leads to `g`, where its delay slot is to run. -/
structure Pending (b : Block) (tr : Transfer) (h g : State) : Prop where
  transfer : b.transfer = some tr
  likely : tr.insn.isLikelyBranch = true
  pc : h.pc = tr.addr
  taken : h.taken tr.insn = true
  next : g = h.retire.clock (tr.addr + 4) h.retire.icnt

/-- A block ends in a likely branch if its transfer is one. -/
theorem endsInLikely_eq {tr : Transfer} (h : b.transfer = some tr) :
    b.endsInLikely = tr.insn.isLikelyBranch := by
  obtain ⟨_, _, _, _, _, hcontrol, _⟩ := transfer_eq_some h
  rw [Bool.eq_iff_iff, endsInLikely_iff, Instr.isLikelyBranch_iff tr.insn tr.addr, ← hcontrol]
  constructor
  · rintro ⟨tr', taken, notTaken, htr, hc⟩
    rw [h] at htr
    cases htr
    exact ⟨taken, notTaken, hc⟩
  · rintro ⟨taken, notTaken, hc⟩
    exact ⟨tr, taken, notTaken, h, hc⟩

/-- All instructions of a block are run if it falls through. -/
theorem body_of_none (h : b.transfer = none) : b.body = b.instrs := by
  simp [body, endsInLikely, h]

/-- They are too if the transfer always runs its delay slot. -/
theorem body_of_unlikely {tr : Transfer} (h : b.transfer = some tr)
    (hlikely : tr.insn.isLikelyBranch = false) : b.body = b.instrs := by
  rw [body, endsInLikely_eq h, hlikely]
  rfl

/-- The instructions up to the transfer are run in any case, and the transfer with them. -/
theorem decode_mem_body {tr : Transfer} (h : b.transfer = some tr) {i : Nat} {w : UInt32}
    (hi : i ≤ tr.index) (hw : b.words[i]? = some w) : decode w ∈ b.body := by
  obtain ⟨_, _, hlen, _⟩ := transfer_eq_some h
  have hget : b.instrs[i]? = some (decode w) := by simp [b.decoded, hw]
  unfold body
  split
  · refine List.mem_of_getElem? (i := i) ?_
    rw [List.getElem?_dropLast, if_pos (by simp [b.decoded]; omega), hget]
  · exact List.mem_of_getElem? hget

/-- The code up to the transfer is run in any case. -/
theorem mem_body_of_take {tr : Transfer} (htr : b.transfer = some tr) {p : UInt32 × UInt32}
    (h : p ∈ b.code.take (tr.index + 1)) : decode p.1 ∈ b.body := by
  obtain ⟨i, hi⟩ := List.getElem?_of_mem h
  rw [List.getElem?_take] at hi
  split at hi
  · next hlt =>
    rw [getElem?_code] at hi
    obtain ⟨w, hw, rfl⟩ := Option.map_eq_some_iff.1 hi
    exact decode_mem_body htr (Nat.le_of_lt_succ hlt) hw
  · cases hi

/-- All instructions of a block count if it falls through. -/
theorem instructionCount_of_none (h : b.transfer = none) : b.instructionCount = b.code.length := by
  simp [instructionCount, body_of_none h, b.decoded, length_code]

/-- The transfer counts, and its delay slot does unless that may be skipped. -/
theorem instructionCount_of_transfer {tr : Transfer} (h : b.transfer = some tr) :
    b.instructionCount = tr.index + if tr.insn.isLikelyBranch then 1 else 2 := by
  obtain ⟨_, _, hlen, _⟩ := transfer_eq_some h
  unfold instructionCount body
  rw [endsInLikely_eq h]
  split <;> simp [b.decoded] <;> omega

/-- The machine on a transfer that memory holds: straight code leads up to it. -/
private theorem reaches_transfer (hb : b.Shaped) {tr : Transfer} (htr : b.transfer = some tr)
    (hsafe : ∀ mem, safe mem → b.In mem) (hpc : g.pc = b.entry) (hg : safe g.mem)
    (hrun : Straight safe (b.code.take tr.index) (b.counted true g) g₁) :
    Reaches tr.index g (g₁.clock tr.addr (g.icnt + UInt64.ofNat tr.index)) := by
  obtain ⟨w, d, hcode, _, hlen, _, _, haddr⟩ := code_of_transfer htr
  have hcons : Consecutive b.entry (b.code.take tr.index) := by
    have := b.consecutive_code
    rw [hcode] at this
    exact this.append.1
  have hreach := hrun.reaches hcons (fun p hp => hb.straight htr hp)
    (fun mem hmem p hp => hsafe mem hmem p (List.mem_of_mem_take hp)) hg g.icnt
  rw [hlen, ← haddr] at hreach
  have hstart : (b.counted true g).clock b.entry g.icnt = g := by
    rw [counted, State.clock_clock, ← hpc]
    rfl
  rwa [hstart] at hreach

/-- What the machine does at a transfer that memory holds. -/
private theorem stepTransfer_eq (hb : b.Shaped) {tr : Transfer} (htr : b.transfer = some tr)
    (hmem : b.In h.mem) (hpc : h.pc = tr.addr) {d : UInt32}
    (hd : b.words[tr.index + 1]? = some d) :
    (decode (h.mem.readWord h.pc)).hasDelaySlot = true ∧
      stepTransfer h (h.mem.readWord h.pc) =
        if tr.insn.isLikelyBranch && !h.taken tr.insn then
          (.ok [h.mem.readWord h.pc, d], h.retire.clock (tr.addr + 8) h.retire.icnt)
        else
          match execute ((h.link tr.addr tr.insn).retire.clock (tr.addr + 4)
              (h.link tr.addr tr.insn).retire.icnt) (tr.addr + 4) (decode d) with
          | .error fault => (.error fault, (h.link tr.addr tr.insn).retire.clock (tr.addr + 4)
              (h.link tr.addr tr.insn).retire.icnt)
          | .ok t => (.ok [h.mem.readWord h.pc, d], t.retire.clock
              (if h.taken tr.insn then h.target tr.addr tr.insn else tr.addr + 8) t.retire.icnt) := by
  obtain ⟨w, d', hcode, _, _, hinsn, hd', _⟩ := code_of_transfer htr
  obtain rfl : d = d' := Option.some.inj (hd.symm.trans hd')
  have hw : h.mem.readWord tr.addr = w := hmem (w, tr.addr) (by rw [hcode]; simp)
  have hdw : h.mem.readWord (tr.addr + 4) = d := hmem (d, tr.addr + 4) (by rw [hcode]; simp)
  obtain ⟨_, _, _, _, _, _, hslot⟩ := transfer_eq_some htr
  rw [hpc, hw, ← hinsn]
  refine ⟨hslot, ?_⟩
  have hdelay := hb.delay htr hd
  unfold stepTransfer
  simp only [hpc, hdw, ← hinsn, hdelay, Bool.false_eq_true, if_false]
  -- Only a likely branch that is not taken skips its delay slot.
  by_cases hlikely : tr.insn.isLikelyBranch = true
  · cases htaken : h.taken tr.insn with
    | false => simp [hlikely, link_of_likely hlikely, State.clock]
    | true =>
      simp only [hlikely, Bool.not_true, Bool.and_false, Bool.false_eq_true, if_false, if_true]
      rfl
  · simp only [hlikely, Bool.false_and, Bool.false_eq_true, if_false]
    rfl

/-- Memory stays safe. -/
theorem Passes.safe_end (hp : b.Passes counting safe g g' out) (hg : safe g.mem) :
    safe g'.mem := by
  cases hp with
  | through _ run _ => exact run.safe_end hg
  | likely _ _ run => exact run.safe_end hg
  | @transfer g₁ _ _ _ _ run delay =>
    refine delay.safe_end ?_
    rw [mem_link]
    exact run.safe_end hg

/-- Whether instructions are counted makes no difference but in the count. -/
theorem Passes.recount (hp : b.Passes counting safe g g' out) (n : UInt64) :
    b.Passes true safe (g.clock g.pc n)
      (g'.clock g'.pc (n + UInt64.ofNat b.instructionCount)) out := by
  have hstart : ∀ {code g₁}, Straight safe code (b.counted counting g) g₁ →
      Straight safe code (b.counted true (g.clock g.pc n))
        (g₁.clock g.pc (n + UInt64.ofNat b.instructionCount)) :=
    fun h => h.clock g.pc (n + UInt64.ofNat b.instructionCount)
  cases hp with
  | through htr run goes => exact .through htr (hstart run) goes
  | @likely g₁ tr htr hlikely run =>
    have := Passes.likely htr hlikely (hstart run)
    rw [taken_clock] at this
    exact this
  | @transfer g₁ g₂ tr htr hlikely run delay =>
    have hdelay := delay.clock g.pc (n + UInt64.ofNat b.instructionCount)
    rw [← link_clock] at hdelay
    have := Passes.transfer htr hlikely (hstart run) hdelay
    rw [taken_clock, target_clock] at this
    exact this

/-- The count after a block. -/
theorem Passes.icnt_eq (hp : b.Passes counting safe g g' out) :
    g'.icnt = if counting then g.icnt + UInt64.ofNat b.instructionCount else g.icnt := by
  cases hp with
  | through _ run _ => exact run.clock_eq.2
  | likely _ _ run => exact run.clock_eq.2
  | transfer _ _ run delay => exact delay.clock_eq.2.trans ((clock_link ..).2.trans run.clock_eq.2)

/-- A block without a transfer is one step for each of its words. -/
private theorem reaches_through {next : UInt32} (hb : b.Shaped) (hnone : b.patchTarget = none)
    (hsafe : ∀ mem, safe mem → b.In mem) (hpc : g.pc = b.entry) (hg : safe g.mem)
    (htr : b.transfer = none) (run : Straight safe b.code (b.counted true g) g₁)
    (goes : b.fallthrough = some next) :
    Reaches b.code.length g (g₁.clock next g₁.icnt) := by
  have hreach := run.reaches b.consecutive_code (fun p => hb.through htr)
    (fun mem hmem => hsafe mem hmem) hg g.icnt
  have hstart : (b.counted true g).clock b.entry g.icnt = g := by
    rw [counted, State.clock_clock, ← hpc]
    rfl
  have hnext : next = wordAddr b.entry b.code.length := by
    rw [length_code, ← exitAddr_add hb.ne_nil]
    simpa [fallthrough, endsInTransfer, htr, hnone] using goes.symm
  have hicnt : g₁.icnt = g.icnt + UInt64.ofNat b.code.length := by
    rw [run.clock_eq.2, ← instructionCount_of_none htr]
    rfl
  rw [hstart] at hreach
  rw [hnext, hicnt]
  exact hreach

/-- The count where a likely branch stands, with the branch itself. -/
private theorem icnt_likely {tr : Transfer} (htr : b.transfer = some tr)
    (hlikely : tr.insn.isLikelyBranch = true)
    (run : Straight safe (b.code.take tr.index) (b.counted true g) g₁) :
    g₁.icnt = g.icnt + UInt64.ofNat tr.index + 1 := by
  rw [run.clock_eq.2]
  simp only [counted, instructionCount_of_transfer htr, hlikely, if_true, UInt64.ofNat_add]
  exact (UInt64.add_assoc ..).symm

/-- A likely branch that is not taken is one step, without its delay slot. -/
private theorem step_likely_untaken {tr : Transfer} (hb : b.Shaped) (htr : b.transfer = some tr)
    (hsafe : ∀ mem, safe mem → b.In mem) (hg : safe g.mem)
    (hlikely : tr.insn.isLikelyBranch = true) (hnot : g₁.taken tr.insn = false)
    (run : Straight safe (b.code.take tr.index) (b.counted true g) g₁) :
    Reaches 1 (g₁.clock tr.addr (g.icnt + UInt64.ofNat tr.index))
      (g₁.clock (tr.addr + 8) g₁.icnt) := by
  obtain ⟨w, d, _, _, _, _, hd, _⟩ := code_of_transfer htr
  have hmem : safe g₁.mem := run.safe_end hg
  obtain ⟨hslot, hstep⟩ := stepTransfer_eq hb htr
    (h := g₁.clock tr.addr (g.icnt + UInt64.ofNat tr.index)) (hsafe _ hmem) rfl hd
  rw [taken_clock, hlikely, hnot, Bool.not_false, Bool.and_self, if_pos rfl] at hstep
  rw [icnt_likely htr hlikely run]
  exact Reaches.one (step_one_of_transfer hslot hstep)

/-- A transfer and its delay slot are one step. -/
private theorem step_delayed {g₂ : State} {tr : Transfer} (hb : b.Shaped)
    (htr : b.transfer = some tr) (hsafe : ∀ mem, safe mem → b.In mem) (hg : safe g.mem)
    (hlikely : tr.insn.isLikelyBranch = false)
    (run : Straight safe (b.code.take tr.index) (b.counted true g) g₁)
    (delay : Straight safe (b.code.drop (tr.index + 1)) (g₁.link tr.addr tr.insn) g₂) :
    Reaches 1 (g₁.clock tr.addr (g.icnt + UInt64.ofNat tr.index)) (g₂.clock
      (if g₁.taken tr.insn then g₁.target tr.addr tr.insn else tr.addr + 8) g₂.icnt) := by
  obtain ⟨w, d, _, hdrop, _, _, hd, _⟩ := code_of_transfer htr
  have hicnt : g₂.icnt = g.icnt + UInt64.ofNat tr.index + 1 + 1 := by
    rw [delay.clock_eq.2, (clock_link ..).2, run.clock_eq.2]
    simp only [counted, instructionCount_of_transfer htr, hlikely, Bool.false_eq_true, if_false,
      UInt64.ofNat_add]
    rw [UInt64.add_assoc, UInt64.add_assoc]
    rfl
  have hmem : safe g₁.mem := run.safe_end hg
  obtain ⟨hslot, hstep⟩ := stepTransfer_eq hb htr
    (h := g₁.clock tr.addr (g.icnt + UInt64.ofNat tr.index)) (hsafe _ hmem) rfl hd
  -- The delay slot runs from the state after the link, at its own address and count.
  rw [hdrop] at delay
  obtain ⟨g₃, hok, _, hend⟩ := delay
  obtain rfl : g₂ = g₃ := hend
  have hexec : execute ((g₁.link tr.addr tr.insn).clock (tr.addr + 4)
      (g.icnt + UInt64.ofNat tr.index + 1)) (tr.addr + 4) (decode d) =
      .ok (g₂.clock (tr.addr + 4) (g.icnt + UInt64.ofNat tr.index + 1)) := by
    rw [execute_clock, hok]
    rfl
  have hlinked : ((g₁.clock tr.addr (g.icnt + UInt64.ofNat tr.index)).link tr.addr
      tr.insn).retire.clock (tr.addr + 4) ((g₁.clock tr.addr
        (g.icnt + UInt64.ofNat tr.index)).link tr.addr tr.insn).retire.icnt =
      (g₁.link tr.addr tr.insn).clock (tr.addr + 4) (g.icnt + UInt64.ofNat tr.index + 1) := by
    rw [link_clock]
    rfl
  rw [hlikely, Bool.false_and, if_neg (by simp), hlinked, hexec, taken_clock, target_clock]
    at hstep
  rw [hicnt]
  exact Reaches.one (step_one_of_transfer hslot hstep)

/-- A guest block is a run of single steps, up to the likely branch if its delay slot is still to
run. -/
theorem Passes.reaches (hb : b.Shaped) (hnone : b.patchTarget = none)
    (hsafe : ∀ mem, safe mem → b.In mem) (hpc : g.pc = b.entry) (hg : safe g.mem)
    (hp : b.Passes true safe g g' out) :
    (out.pending = false → ∃ k, 0 < k ∧ Reaches k g g') ∧
      (out.pending = true → ∃ k h tr, Reaches k g h ∧ safe h.mem ∧ b.Pending tr h g') := by
  cases hp with
  | through htr run goes =>
    refine ⟨fun _ => ⟨b.code.length, ?_, ?_⟩, by simp⟩
    · rw [length_code]
      exact hb.length_pos
    · exact reaches_through hb hnone hsafe hpc hg htr run goes
  | @likely g₁ tr htr hlikely run =>
    have hreach := reaches_transfer hb htr hsafe hpc hg run
    -- A likely branch skips its delay slot here, or leaves it to the patch block.
    cases htaken : g₁.taken tr.insn with
    | false =>
      have hstep := step_likely_untaken hb htr hsafe hg hlikely htaken run
      exact ⟨fun _ => ⟨tr.index + 1, by simp, hreach.trans hstep⟩, by simp⟩
    | true =>
      refine ⟨by simp, fun _ => ⟨_, _, tr, hreach, run.safe_end hg, htr, hlikely, rfl, ?_, ?_⟩⟩
      · rw [taken_clock, htaken]
      · rw [icnt_likely htr hlikely run]
        rfl
  | transfer htr hlikely run delay =>
    have hreach := reaches_transfer hb htr hsafe hpc hg run
    have hstep := step_delayed hb htr hsafe hg hlikely run delay
    exact ⟨fun _ => ⟨_, by simp, hreach.trans hstep⟩, by simp⟩

/-- A patch block holds the delay slot of its branch. -/
theorem PatchOf.delay_word {tr : Transfer} {taken notTaken w : UInt32}
    (h : a.PatchOf b tr taken notTaken w) : a.words[tr.index + 1]? = some w := by
  obtain ⟨_, _, hindex, _⟩ := transfer_eq_some h.transfer
  have hlast := h.delay
  rwa [List.getLast?_eq_getElem?, show a.words.length - 1 = tr.index + 1 by omega] at hlast

/-- A patch block is one instruction, which is no transfer. -/
theorem PatchOf.shaped {tr : Transfer} {taken notTaken w : UInt32} (ha : a.Shaped)
    (h : a.PatchOf b tr taken notTaken w) : b.Shaped := by
  refine ⟨by simp [h.words], fun i w' hi hslot => ?_⟩
  rw [h.words] at hi
  obtain rfl : w' = w := List.mem_singleton.1 (List.mem_of_getElem? hi)
  rw [ha.delay h.transfer h.delay_word] at hslot
  cases hslot

/-- A patch block is the step of its branch. -/
theorem Passes.reaches_patch {tr tr' : Transfer} {taken notTaken w : UInt32} (ha : a.Shaped)
    (hpatch : a.PatchOf b tr taken notTaken w) (hsafe : ∀ mem, safe mem → a.In mem)
    (hpend : a.Pending tr' h g) (hh : safe h.mem) (hp : b.Passes true safe g g' out) :
    out.pending = false ∧ Reaches 1 h g' := by
  obtain rfl : tr = tr' := Option.some.inj (hpatch.transfer.symm.trans hpend.transfer)
  -- A patch block is one instruction, too short to end in a transfer.
  have hlen : b.words.length = 1 := by simp [hpatch.words]
  have hnone : b.transfer = none := by
    cases hb : b.transfer with
    | none => rfl
    | some tr₂ =>
      obtain ⟨_, _, hindex, _⟩ := transfer_eq_some hb
      omega
  cases hp with
  | likely htr => simp [hnone] at htr
  | transfer htr => simp [hnone] at htr
  | @through g₁ next _ run goes =>
    refine ⟨rfl, ?_⟩
    obtain ⟨_, d, _, _, _, _, hd, haddr⟩ := code_of_transfer hpend.transfer
    obtain ⟨_, _, hindex, _, _, hcontrol, _⟩ := transfer_eq_some hpend.transfer
    obtain rfl : d = w := Option.some.inj (hd.symm.trans hpatch.delay_word)
    have hcode : b.code = [(d, tr.addr + 4)] := by
      simp [code, hpatch.words, hpatch.entry, wordAddr_zero]
    have hnext : next = taken := by
      simpa [fallthrough, endsInTransfer, hnone, hpatch.target] using goes.symm
    rw [hcode] at run
    obtain ⟨g₂, hok, _, hend⟩ := run
    obtain rfl : g₁ = g₂ := hend
    obtain ⟨hslot, hstep⟩ := stepTransfer_eq ha hpend.transfer (hsafe _ hh) hpend.pc hd
    have hone : b.instructionCount = 1 := by
      rw [instructionCount_of_none hnone, hcode]
      rfl
    -- It counts one, where the branch has counted itself already.
    have hcounted : b.counted true g = g.clock g.pc (g.icnt + 1) := by
      rw [counted, hone]
      rfl
    have hicnt : g₁.icnt = g.icnt + 1 := (clock_execute hok).2.trans (by rw [hcounted]; rfl)
    have hexec : execute g (tr.addr + 4) (decode d) = .ok (g₁.clock g.pc g.icnt) := by
      have := execute_clock (b.counted true g) g.pc g.icnt (tr.addr + 4) (decode d)
      rw [hok, hcounted] at this
      exact this
    -- The branch is taken, so one step of the guest runs it with its delay slot.
    rw [hpend.taken, Bool.not_true, Bool.and_false, if_neg (by simp), link_of_likely hpend.likely,
      ← hpend.next, hexec] at hstep
    have htarget : h.target tr.addr tr.insn = taken := by
      have hbranch : tr.insn.control tr.addr = .branch taken notTaken true :=
        hcontrol.symm.trans hpatch.control
      have hlikely := hpend.likely
      unfold State.target
      rw [hbranch]
      revert hlikely
      cases tr.insn <;> intro hlikely <;> first | rfl | cases hlikely
    have hrun := Reaches.one (step_one_of_transfer hslot hstep)
    rw [htarget] at hrun
    rw [hnext, hicnt]
    exact hrun

end Block

end HotRegion.Region
