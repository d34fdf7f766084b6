import HotRegion.Proofs.Lowering.Constants
import HotRegion.Proofs.Lowering.Ends

/-!
# Code that goes back to the entry

The synthetic entry of a region is told by its address, and so its patch blocks are, whose addresses
are those of delay slots. If the delay slot of a likely branch has the address of the synthetic entry,
the code of its patch block is taken for that of the entry, and the branch goes back there. Validation
does not let that pass.

## Key results

- `keeps_visit`: the branch keeps its end
- `generate_returns`: the function goes back to its entry
- `unmarked_of_validate`: no block of a region with a valid function has the address of the synthetic
  entry
-/

namespace HotRegion.Lowering

open Isa Analysis Ssa Build
open Region (Tracked Slot)

variable {α : Type} {c : Scope} {b : Region.Block} {t t' : RegTable} {d d' : Draft}

/-! ## Ways back to the entry -/

/-- The entry of the function is among the blocks that block `k` goes on at, if that has an end. -/
def Draft.Returns (d : Draft) (k : BlockId) : Prop :=
  ∀ term, d.term k.index = some term → Function.entry ∈ term.successors

/-- A likely branch whose patch block has the entry of the function for its code. -/
structure Scope.Reenters (c : Scope) (b : Region.Block) (tr : Region.Transfer) (x : Slot) : Prop where
  transfer : b.transfer = some tr
  likely : ∃ taken notTaken, tr.control = .branch taken notTaken true
  patch : c.succ? b (·.isPatch) = some x
  entry : c.blockOf x = .ok Function.entry

variable {n : Nat} {k : BlockId} {l x : Slot} {tr : Region.Transfer}

/-- The block of the function for a slot, as a step of the walk. -/
theorem run_blockOf {s : Slot} (h : c.blockOf s = .ok k) :
    (liftM (c.blockOf s) : Walk BlockId) d = .ok (k, d) := by
  rw [h]
  rfl

/-- Looking something up gives what is there, in the same draft. -/
theorem run_except_eq_ok {e : Except Breakdown α} {a : α} (h : (liftM e : Walk α) d = .ok (a, d')) :
    e = .ok a ∧ d' = d := by
  cases e with
  | error e => cases h
  | ok a =>
    cases h
    exact ⟨rfl, rfl⟩

/-- A block that is ended with the entry among its successors goes back there. -/
theorem returns_finish {term : Terminator} (hcur : d.cur = k.index) (hlt : d.cur < d.size)
    (h : Function.entry ∈ term.successors) : (d.finish term).Returns k := by
  intro term' hterm
  rw [← hcur, term_finish_cur hlt] at hterm
  cases hterm
  exact h

/-- A likely branch is left for its patch block or for what follows it. -/
theorem returns_leave (h : c.Reenters b tr x) {cond : Value} {taken notTaken : UInt32}
    (hcur : d.cur = k.index) (hlt : d.cur < d.size) {u : Unit}
    (hrun : c.leave b (.fork cond taken notTaken true) t d = .ok (u, d')) : d'.Returns k := by
  have hjump : ∀ {d'}, c.jumpTo x t d = .ok (u, d') → d'.Returns k := by
    intro d' hrun
    rw [Scope.jumpTo, run_bind (noteEdge_run x t), run_bind (run_blockOf h.entry),
      terminate_run] at hrun
    cases hrun
    exact returns_finish hcur hlt List.mem_cons_self
  have hfork : ∀ {y : Option Slot} {d'}, c.forkTo cond (some x) y taken notTaken true t d = .ok (u, d') →
      d'.Returns k := by
    intro y d' hrun
    obtain ⟨k₁, d₁, hd₁, hrun⟩ := run_bind_eq_ok hrun
    obtain ⟨k₂, d₂, hd₂, hrun⟩ := run_bind_eq_ok hrun
    -- The side that leads to the entry of the region has the edge back.
    have hk₁ : k₁ = Function.entry := by
      rw [Scope.edgeTo, run_bind (noteEdge_run x t), run_blockOf h.entry] at hd₁
      cases hd₁
      rfl
    have hstays : Stays d d₂ := trans_of Aside (aside_edgeTo _ _ _ hd₁) (aside_edgeTo _ _ _ hd₂) hlt
    rw [terminate_run] at hrun
    cases hrun
    refine returns_finish (hstays.cur.trans hcur) ?_ ?_
    · rw [hstays.cur]
      exact Nat.lt_of_lt_of_le hlt hstays.size
    · simp only [Terminator.successors, hk₁]
      split <;> exact List.mem_cons_self
  -- Taken leads to `x`; the other side may be the same block, another one, or an exit.
  obtain ⟨taken?, _, htaken, hrun⟩ := run_bind_eq_ok hrun
  obtain ⟨hpatch, rfl⟩ := run_except_eq_ok htaken
  obtain rfl : taken? = some x := (Scope.succ?_of_findSucc hpatch).symm.trans h.patch
  obtain ⟨next?, _, hnext, hrun⟩ := run_bind_eq_ok hrun
  obtain ⟨-, rfl⟩ := run_except_eq_ok hnext
  cases next? with
  | none => exact hfork hrun
  | some y =>
    simp only at hrun
    split at hrun
    · exact hjump hrun
    · exact hfork hrun

/-- The code of a block with a likely branch ends in a fork. -/
theorem results_likely (h : c.Reenters b tr x) :
    Results (c.bodyCode b t) fun p => ∃ cond taken notTaken, p.2 = .fork cond taken notTaken true := by
  obtain ⟨taken, notTaken, hcontrol⟩ := h.likely
  unfold Scope.bodyCode
  rw [h.transfer]
  refine .after fun _ => .after fun _ => .after fun _ => ?_
  unfold Scope.transferCode
  rw [hcontrol]
  refine .after fun cond => .after fun t => .pure ⟨cond, taken, notTaken, rfl⟩

/-- The code of a block that reenters goes back to the entry. -/
theorem returns_lowerBlock (h : c.Reenters b tr x) {s : Slot} (hcur : d.cur = k.index)
    (hlt : d.cur < d.size) (hrun : c.lowerBlock s b t d = .ok (t', d')) : d'.Returns k := by
  rw [lowerBlock_eq] at hrun
  obtain ⟨_, d₁, hd₁, hrun⟩ := run_bind_eq_ok hrun
  obtain ⟨_, d₂, hd₂, hrun⟩ := run_bind_eq_ok hrun
  obtain ⟨t₂, d₃, hd₃, hrun⟩ := run_bind_eq_ok hrun
  obtain ⟨p, d₄, hd₄, hrun⟩ := run_bind_eq_ok hrun
  have hstays : Stays d d₄ :=
    trans_of Aside (trans_of Aside (trans_of Aside (aside_except _ _ _ hd₁)
      (calm_setBlockComment.emit.lift _ _ _ hd₂)) (aside_addPhis _ _ _ hd₃))
      (calm_bodyCode.lift _ _ _ hd₄) hlt
  obtain ⟨cond, taken, notTaken, hfork⟩ := (results_likely h).lift _ _ _ hd₄
  have hends : b.endsInTransfer = true := by simp [Region.Block.endsInTransfer, h.transfer]
  rw [if_pos hends, hfork] at hrun
  obtain ⟨_, d₅, hd₅, hrun⟩ := run_bind_eq_ok hrun
  cases hrun
  refine returns_leave h (hstays.cur.trans hcur) ?_ hd₅
  rw [hstays.cur]
  exact Nat.lt_of_lt_of_le hlt hstays.size

/-! ### The whole walk -/

/-- No block is lost from a function of `n` blocks or more, and what ends block `k` is a way back to
the entry if it was before. -/
def Keeps (n : Nat) (k : BlockId) (d d' : Draft) : Prop :=
  n ≤ d.size → d.size ≤ d'.size ∧ (d.Returns k → d'.Returns k)

instance : IsPreorder Draft (Keeps n k) where
  refl _ _ := ⟨Nat.le_refl _, id⟩
  trans _ _ _ h h' hn :=
    have h₁ := h hn
    have h₂ := h' (Nat.le_trans hn h₁.1)
    ⟨Nat.le_trans h₁.1 h₂.1, h₂.2 ∘ h₁.2⟩

/-- A step that ends no block keeps the ways back. -/
theorem keeps_of_term (hsize : d.size ≤ d'.size) (hterm : d'.term k.index = d.term k.index) :
    Keeps n k d d' := fun _ =>
  ⟨hsize, fun h term ht => h term (hterm ▸ ht)⟩

/-- Ending the current block keeps the ways back of the others. -/
theorem Moves.keeps (h : Moves d d') (hk : k.index < n) (hne : k.index ≠ d.cur) : Keeps n k d d' :=
  fun hn => keeps_of_term h.size (h.term _ (Nat.lt_of_lt_of_le hk hn) hne) hn

/-- Where the walk stands is no end of a block. -/
theorem keeps_switchTo {j : BlockId} : Along (Keeps n k) (liftM (switchTo j) : Walk Unit) := by
  intro d u d' hrun
  obtain ⟨-, rfl⟩ := switchTo_eq_ok.1 hrun
  exact keeps_of_term (Nat.le_refl _) rfl

/-- The steps of the walk at a block. -/
theorem visit_eq_ok {fuel : Nat} {s : Slot} {u : Unit}
    (hrun : c.visit (fuel + 1) s t d = .ok (u, d')) :
    ∃ a j t' d₀ d₁ d₂, c.region.block? s = some a ∧ c.blockOf s = .ok j ∧
      (liftM (switchTo j) : Walk Unit) d = .ok ((), d₀) ∧
      (if a.isRegionEntry then c.enterRegion t else c.lowerBlock s a t) d₀ = .ok (t', d₁) ∧
      ((c.children s).forM fun child => c.visit fuel child t') d₁ = .ok ((), d₂) ∧
      (if a.isRegionEntry then pure () else do
        switchTo d₁.builder.current
        c.lowerFallthrough a t' : Walk Unit) d₂ = .ok (u, d') := by
  unfold Scope.visit at hrun
  -- The steps of a visit are taken apart one by one.
  obtain ⟨a, _, ha, hrun₁⟩ := run_bind_eq_ok hrun
  obtain ⟨hguest, rfl⟩ := run_except_eq_ok ha
  obtain ⟨j, _, hj, hrun₂⟩ := run_bind_eq_ok hrun₁
  obtain ⟨hplace, rfl⟩ := run_except_eq_ok hj
  obtain ⟨_, d₀, hd₀, hrun₃⟩ := run_bind_eq_ok hrun₂
  have hblock : c.region.block? s = some a := Scope.block?_of_guestBlock hguest
  have hsplit : ∃ t' d₁, (if a.isRegionEntry then c.enterRegion t else c.lowerBlock s a t) d₀ =
      .ok (t', d₁) ∧ (do
        let tail := (← get).builder.current
        (c.children s).forM fun child => c.visit fuel child t'
        if !a.isRegionEntry then
          switchTo tail
          c.lowerFallthrough a t' : Walk Unit) d₁ = .ok (u, d') := by
    dsimp only at hrun₃
    split at hrun₃
    · next hentry =>
      rw [if_pos hentry]
      exact run_bind_eq_ok hrun₃
    · next hentry =>
      rw [if_neg hentry]
      exact run_bind_eq_ok hrun₃
  obtain ⟨t', d₁, hd₁, hrun₄⟩ := hsplit
  obtain ⟨_, _, hget, hrun₅⟩ := run_bind_eq_ok hrun₄
  cases hget
  obtain ⟨_, d₂, hd₂, hrun₆⟩ := run_bind_eq_ok hrun₅
  refine ⟨a, j, t', d₀, d₁, d₂, hblock, hplace, hd₀, hd₁, hd₂, ?_⟩
  cases hentry : a.isRegionEntry <;> simpa [hentry] using hrun₆

/-- What the walk makes for a block of the region, and for all blocks below it, is no other end of
the block that goes back to the entry. -/
theorem keeps_visit (hk : k.index < n)
    (hplace : ∀ s j, c.blockOf s = .ok j → j.index < n ∧ (j.index = k.index → s = l))
    (hb : c.region.block? l = some b) (hbody : b.isRegionEntry = false) (h : c.Reenters b tr x)
    (fuel : Nat) (s : Slot) (t : RegTable) : Along (Keeps n k) (c.visit fuel s t) := by
  -- Induction on the fuel of the walk, which is the depth that is left of the dominator tree.
  induction fuel generalizing s t with
  | zero => exact .throw _
  | succ fuel ih =>
    intro d u d' hrun hn
    obtain ⟨a, j, t', d₀, d₁, d₂, ha, hj, hd₀, hd₁, hd₂, hrest⟩ := visit_eq_ok hrun
    obtain ⟨hjn, hjk⟩ := hplace s j hj
    rw [switchTo_run (Nat.lt_of_lt_of_le hjn hn)] at hd₀
    cases hd₀
    have hlt : (d.goTo j).cur < (d.goTo j).size := Nat.lt_of_lt_of_le hjn hn
    have hmoves : Moves (d.goTo j) d₁ := by
      split at hd₁
      · exact onward_enterRegion _ _ _ hd₁ hlt
      · exact onward_lowerBlock _ _ _ hd₁ hlt
    have hsize₁ : d.size ≤ d₁.size := hmoves.size
    have hbelow : Keeps n k d₁ d₂ := Along.forM (fun child => ih child t') _ _ _ _ hd₂
    have hsize₂ := (hbelow (Nat.le_trans hn hsize₁)).1
    by_cases hjk' : j.index = k.index
    · -- Here the block gets its end, and there is no other step that could give it one.
      obtain rfl := hjk hjk'
      cases hb.symm.trans ha
      rw [hbody] at hd₁ hrest
      have hreturns : d₁.Returns k := returns_lowerBlock (d := d.goTo j) h hjk' hlt hd₁
      have hends : b.endsInTransfer = true := by simp [Region.Block.endsInTransfer, h.transfer]
      rw [lowerFallthrough_eq, if_pos hends] at hrest
      have hlast : Keeps n k d₂ d' := Along.bind keeps_switchTo (fun _ => .pure ()) _ _ _ hrest
      have hkeeps := trans_of (Keeps n k) hbelow hlast (Nat.le_trans hn hsize₁)
      exact ⟨Nat.le_trans hsize₁ hkeeps.1, fun _ => hkeeps.2 hreturns⟩
    · have hlast : Keeps n k d₂ d' := by
        split at hrest
        · cases hrest
          exact refl_of (Keeps n k) _
        · obtain ⟨_, d₃, hd₃, hrest⟩ := run_bind_eq_ok hrest
          have hcur : d₁.cur < d₂.size := Nat.lt_of_lt_of_le hmoves.lt hsize₂
          rw [switchTo_run hcur] at hd₃
          cases hd₃
          refine (onward_lowerFallthrough _ _ _ hrest hcur).keeps hk fun heq => ?_
          have heq : k.index = d₁.cur := heq
          rcases hmoves.cur with hcur' | hcur'
          · exact hjk' (hcur'.symm.trans heq.symm)
          · have hcur' : d.size ≤ d₁.cur := hcur'
            omega
      have hfirst : Keeps n k (d.goTo j) d₁ := hmoves.keeps hk (Ne.symm hjk')
      exact trans_of (Keeps n k) (trans_of (Keeps n k) hfirst hbelow) hlast hn

/-- Emitting code keeps the ways back. -/
theorem Along.keeps {x : Emit α} (h : Along Calm x) (hk : k.index < n) :
    Along (Keeps n k) (liftM x : Walk α) := fun _ _ _ hrun hn =>
  have hstays := h.stays hrun
  keeps_of_term hstays.size (hstays.term _ (Nat.lt_of_lt_of_le hk hn)) hn

/-- The inputs of phis keep the ways back. -/
theorem keeps_fillPhis (hk : k.index < n) : Along (Keeps n k) c.fillPhis := by
  intro d u d' hrun
  obtain ⟨_, _, hget, hrun⟩ := run_bind_eq_ok hrun
  cases hget
  refine Along.forM (fun p => .forM (fun e => .bind keeps_switchTo fun _ =>
    .forM (fun q => ?_) _) _) _ _ _ _ hrun
  exact .bind (calm_get.keeps hk) fun v => calm_addIncoming.emit.keeps hk

/-! ## Functions that go back to their entry -/

variable {r : Region} {u : Region.Usage} {config : Config} {f : Function}

/-- In the function of a region with a likely branch whose patch block stands at the address of the
synthetic entry, there is a block that can only end by going back to the entry. -/
theorem generate_returns (hgenerate : generate r u config = .ok f) {b a : Region.Block}
    {taken notTaken : UInt32} (hb : r.block? l = some b) (hbody : b.isRegionEntry = false)
    (htr : b.transfer = some tr) (hcontrol : tr.control = .branch taken notTaken true)
    (hpatch : (b.succs.find? fun s => (r.block? s).any (·.isPatch)) = some x)
    (ha : r.block? x = some a) (hentry : a.isRegionEntry = true) :
    ∃ k blk, f.block? k = some blk ∧
      ∀ term, blk.terminator = some term → Function.entry ∈ term.successors := by
  obtain ⟨builder, hdeclare, hblank, hsize⟩ :=
    declareBlocks_run r s!"region_{Text.hexDigits8 r.entryAddr.toNat}"
  let c : Scope := ⟨r, u, config, placesFrom 1 r.blocks⟩
  have hblockOf : ∀ {s j}, c.blockOf s = .ok j ↔ (s, j) ∈ placesFrom 1 r.blocks := by
    intro s j
    rw [← lookup_placesFrom, Scope.blockOf]
    cases (placesFrom 1 r.blocks).lookup s <;> simp
  have hplace : ∀ {s j}, (s, j) ∈ placesFrom 1 r.blocks → ∃ b, r.block? s = some b ∧
      (b.isRegionEntry = true ∧ j = Function.entry ∨
        b.isRegionEntry = false ∧ 1 ≤ j.index ∧ j.index < builder.function.blocks.size) := by
    intro s j hsj
    obtain ⟨b, hmem, h⟩ := mem_placesFrom hsj
    exact ⟨b, Region.mem_blocks.1 hmem, hsize ▸ h⟩
  -- The branch has a block of its own, and the code of its patch block is at the entry.
  obtain ⟨k, hk⟩ := exists_place hb
  obtain ⟨hkpos, hkn⟩ : 1 ≤ k.index ∧ k.index < builder.function.blocks.size := by
    obtain ⟨b', hb', ⟨hentry', -⟩ | ⟨-, hk⟩⟩ := hplace hk
    · cases hb.symm.trans hb'
      rw [hbody] at hentry'
      cases hentry'
    · exact hk
  have hreenters : c.Reenters b tr x := by
    refine ⟨htr, ⟨taken, notTaken, hcontrol⟩, hpatch, hblockOf.2 ?_⟩
    obtain ⟨j, hj⟩ := exists_place ha
    obtain ⟨a', ha', ⟨-, rfl⟩ | ⟨hbody', -⟩⟩ := hplace hj
    · exact hj
    · cases ha.symm.trans ha'
      rw [hentry] at hbody'
      cases hbody'
  have hkeeps : Along (Keeps builder.function.blocks.size k) (do
      let zero ← word 0
      c.visit (r.slots.size + 1) Region.entrySlot (.new zero)
      c.fillPhis : Walk Unit) := by
    refine .bind (still_word.lift.keeps hkn) fun zero => .bind (keeps_visit hkn ?_ hb hbody hreenters
      _ _ _) fun _ => keeps_fillPhis hkn
    intro s j hj
    obtain ⟨b', -, ⟨-, rfl⟩ | ⟨-, -, hj'⟩⟩ := hplace (hblockOf.1 hj)
    · refine ⟨Nat.lt_of_le_of_lt (Nat.zero_le _) hkn, fun heq => ?_⟩
      exact absurd heq (Nat.ne_of_lt hkpos)
    · refine ⟨hj', fun heq => ?_⟩
      have heq : j = k := congrArg BlockId.mk heq
      have hne : k ≠ Function.entry := by
        rintro rfl
        cases hkpos
      exact placesFrom_inj Nat.one_pos hne (heq ▸ hblockOf.1 hj) hk
  unfold generate at hgenerate
  rw [hdeclare] at hgenerate
  obtain ⟨⟨_, d⟩, hrun, hf⟩ := bind_eq_ok.1 hgenerate
  cases hf
  obtain ⟨hle, hreturns⟩ := hkeeps _ _ _ hrun (Nat.le_refl _)
  have hlt : k.index < d.builder.function.blocks.size := Nat.lt_of_lt_of_le hkn hle
  have hfresh : (Draft.ofBuilder builder).Returns k := by
    intro term hterm
    rw [Draft.term, hblank.view hkn] at hterm
    cases hterm
  refine ⟨k, _, Array.getElem?_eq_getElem hlt, fun term hterm => hreturns hfresh term ?_⟩
  simp [Draft.term, Draft.view, hlt, hterm]

/-- No block of a ready region with a valid function stands at the address of the synthetic entry. -/
theorem unmarked_of_validate {K : UInt32 × UInt32 → Prop}
    (hready : Region.Ready K config.countInstructions r u) (hgenerate : generate r u config = .ok f)
    (hvalid : f.validate = .ok ()) {s : Slot} {b : Region.Block} (hs : s ≠ Region.entrySlot)
    (hb : r.block? s = some b) : b.isRegionEntry = false := by
  rw [← Bool.not_eq_true]
  intro hentry
  have hmark : b.entry = Region.entryMark := by simpa [Region.Block.isRegionEntry] using hentry
  -- Code does not start there, so it is the delay slot of a likely branch.
  have hpatch : b.patchTarget ≠ none := by
    rcases hready.block s b hs hb with hguest | ⟨_, _, _, _, _, -, hpatch⟩
    · exact absurd hmark hguest.entry_ne
    · simp [hpatch.target]
  obtain ⟨l, hedge, -⟩ := Flow.Graph.Rooted.exists_pred_not_dominated
    (hready.rooted.reachable s (Region.mem_nodes.2 ⟨b, hb⟩)) hs
  have hedge : s ∈ r.succs l := hedge
  have hl : l ≠ Region.entrySlot := by
    rintro rfl
    obtain ⟨first, b', -, hsuccs, hb', hguest, -⟩ := hready.first
    obtain rfl := (hsuccs s).1 hedge
    cases hb.symm.trans hb'
    exact hguest.entry_ne hmark
  cases ha : r.block? l with
  | none =>
    rw [Region.succs_of_none ha] at hedge
    cases hedge
  | some a =>
    -- Whatever patch block the branch has, it stands at the delay slot.
    obtain ⟨hnone, -⟩ | ⟨hguest, tr, taken, notTaken, w, hpatchOf⟩ :=
      hready.edge l s a b hl hedge ha hb
    · exact hpatch hnone
    rw [Region.succs_of_block ha] at hedge
    obtain ⟨x, hx⟩ : ∃ x, (a.succs.find? fun y => (r.block? y).any (·.isPatch)) = some x := by
      refine Option.isSome_iff_exists.1 (List.find?_isSome.2 ⟨s, hedge, ?_⟩)
      simp [hb, Region.Block.isPatch, hpatchOf.target]
    have hsucc : x ∈ r.succs l := Region.succs_of_block ha ▸ List.mem_of_find?_eq_some hx
    obtain ⟨b', hb', hispatch⟩ : ∃ b', r.block? x = some b' ∧ b'.isPatch = true := by
      simpa [Option.any_eq_true] using List.find?_some hx
    obtain ⟨hnone, -⟩ | ⟨-, tr', _, _, _, hpatchOf'⟩ := hready.edge l x a b' hl hsucc ha hb'
    · simp [Region.Block.isPatch, hnone] at hispatch
    cases hpatchOf.transfer.symm.trans hpatchOf'.transfer
    obtain ⟨k, blk, hblk, hback⟩ := generate_returns hgenerate ha
      (by simpa [Region.Block.isRegionEntry] using hguest.entry_ne) hpatchOf.transfer hpatchOf.control
      hx hb' (by rw [Region.Block.isRegionEntry, hpatchOf'.entry, ← hpatchOf.entry, hmark]; rfl)
    obtain ⟨hpreds, hends⟩ := Ssa.Function.ends_of_validate hvalid
    obtain ⟨term, hterm⟩ := hends k.index blk hblk
    have hmem : k ∈ f.predecessors Function.entry := Ssa.Function.mem_predecessors.2
      ⟨blk, hblk, by simpa [Ssa.Block.successors, hterm] using hback term hterm⟩
    rw [hpreds] at hmem
    cases hmem

end HotRegion.Lowering
