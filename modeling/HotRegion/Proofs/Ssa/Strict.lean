import HotRegion.Proofs.Flow.Dominance
import HotRegion.Proofs.Ssa.Safety

/-!
# Strict functions

A function is strict if every read is dominated by the definition of what it reads. Validation asks
for a definition somewhere; in a strict function no path can go around it. The accesses of a run to
values are listed in order, and in a run of a strict function no value is read before it is assigned.

## Key results

- `Function.Strict`: definitions dominate their uses
- `ordered_accesses`: a run of a strict function only reads values assigned before
-/

namespace HotRegion.Ssa

open HotRegion.Flow (Graph)

namespace Function

/-- The control-flow graph of a function. Its nodes are the numbers of the blocks. -/
def flowGraph (f : Function) : Graph where
  entry := Function.entry.index
  nodes := List.range f.blocks.size
  preds i := (f.predecessors ⟨i⟩).map BlockId.index
  succs i := match f.blocks[i]? with
    | some b => b.successors.map BlockId.index
    | none => []

/-- An instruction of block `i` defines the value. -/
def DefinedIn (f : Function) (i : Nat) (v : Value) : Prop :=
  ∃ b, f.blocks[i]? = some b ∧ v ∈ dsts b.insts.toList

/-- Definitions dominate their uses: what an instruction reads is defined before it in its block, or
in another block that dominates its block, and a phi reads at the end of the predecessor that the
input belongs to. This concerns the blocks that control can reach. -/
structure Strict (f : Function) : Prop where
  operand : ∀ (i : Nat) (b : Block), f.blocks[i]? = some b → f.flowGraph.Reachable i →
    ∀ pre inst post, b.insts.toList = pre ++ inst :: post → inst.isPhi = false →
      ∀ v ∈ inst.operands, v ∈ dsts pre ∨ ∃ a, f.flowGraph.StrictlyDominates a i ∧ f.DefinedIn a v
  terminator : ∀ (i : Nat) (b : Block) (t : Terminator), f.blocks[i]? = some b →
    f.flowGraph.Reachable i → b.terminator = some t →
    ∀ v ∈ t.operands, ∃ a, f.flowGraph.Dominates a i ∧ f.DefinedIn a v
  input : ∀ (i : Nat) (b : Block), f.blocks[i]? = some b →
    ∀ dst incoming, .phi dst incoming ∈ b.insts.toList →
    ∀ (p : BlockId) (v : Value), (p, v) ∈ incoming → f.flowGraph.Reachable p.index →
      ∃ a, f.flowGraph.Dominates a p.index ∧ f.DefinedIn a v

end Function

/-! ## Accesses -/

/-- An access of a run to a value. -/
inductive Access where
  | read (v : Value)
  | assign (v : Value)

/-- Every read comes after an assignment, or is of a value in `done`. -/
def Ordered (done : Value → Prop) (log : List Access) : Prop :=
  ∀ l v r, log = l ++ .read v :: r → done v ∨ .assign v ∈ l

/-- An instruction other than a phi reads its operands and then assigns the value it defines. -/
def Inst.accesses (inst : Inst) : List Access :=
  inst.operands.map .read ++ inst.dst?.toList.map .assign

/-- The value that a phi reads when control comes from `pred`. -/
def Inst.input? (pred : BlockId) : Inst → Option Value
  | .phi _ incoming => (incoming.find? (·.1 == pred)).map Prod.snd
  | _ => none

/-- The phis of a block read their inputs before any of them is assigned. Then the other
instructions run, and the end of the block reads its operands. -/
def Block.accesses (b : Block) (pred : Option BlockId) : List Access :=
  (b.phis.filterMap fun inst => pred.bind inst.input?).map .read ++ (dsts b.phis).map .assign ++
    (b.body.flatMap Inst.accesses ++ (b.terminator.toList.flatMap Terminator.operands).map .read)

section

variable {σ : Type} [GuestMachine σ]

/-- The accesses of the run that `runFrom` describes, in order. -/
def accesses (f : Function) : Nat → Frame σ → Option BlockId → BlockId → List Access
  | 0, _, _, _ => []
  | fuel + 1, fr, pred, id =>
    match f.block? id with
    | none => []
    | some b => b.accesses pred ++
      match runBlock f fr pred id with
      | .ok (fr, .block next) => accesses f fuel fr (some id) next
      | _ => []

end

/-! ## Order -/

variable {f : Function} {b : Block} {done : Value → Prop} {log log' : List Access}
  {pre insts : List Inst} {i : Nat}

/-- No accesses are in order. -/
theorem Ordered.nil : Ordered done [] := fun l v r h => by simp at h

/-- Accesses in order go on with accesses in order. -/
theorem Ordered.append (h : Ordered done log)
    (h' : Ordered (fun v => done v ∨ .assign v ∈ log) log') : Ordered done (log ++ log') := by
  intro l v r heq
  rcases List.append_eq_append_iff.1 heq with ⟨m, rfl, hm⟩ | ⟨m, rfl, hm⟩
  · rcases h' m v r hm with (hv | hv) | hv
    · exact .inl hv
    · exact .inr (List.mem_append_left _ hv)
    · exact .inr (List.mem_append_right _ hv)
  · cases m with
    | nil =>
      rcases h' [] v r hm.symm with (hv | hv) | hv
      · exact .inl hv
      · exact .inr (by simpa using hv)
      · cases hv
    | cons a m =>
      cases hm
      exact h l v m rfl

/-- Values that are assigned may be read. -/
theorem ordered_reads {vs : List Value} (h : ∀ v ∈ vs, done v) :
    Ordered done (vs.map .read) := by
  intro l v r heq
  have hmem : Access.read v ∈ vs.map .read := by
    rw [heq]
    exact List.mem_append_right _ List.mem_cons_self
  obtain ⟨w, hw, hwv⟩ := List.mem_map.1 hmem
  cases hwv
  exact .inl (h v hw)

/-- Values may be assigned at any time. -/
theorem ordered_assigns (vs : List Value) : Ordered done (vs.map .assign) := by
  intro l v r heq
  have hmem : Access.read v ∈ vs.map .assign := by
    rw [heq]
    exact List.mem_append_right _ List.mem_cons_self
  obtain ⟨w, -, hwv⟩ := List.mem_map.1 hmem
  cases hwv

/-- The assignments of a list of values are those of its values. -/
theorem assign_mem_map {vs : List Value} {v : Value} : .assign v ∈ vs.map Access.assign ↔ v ∈ vs := by
  simp

/-- Code assigns what it defines. -/
theorem assign_mem_accesses {v : Value} :
    .assign v ∈ insts.flatMap Inst.accesses ↔ v ∈ dsts insts := by
  simp [Inst.accesses, mem_dsts]

/-! ## Runs -/

/-- Instructions that read what is done or defined before them. -/
theorem ordered_insts (insts : List Inst)
    (h : ∀ front inst back, insts = front ++ inst :: back → ∀ v ∈ inst.operands,
      done v ∨ v ∈ dsts front) : Ordered done (insts.flatMap Inst.accesses) := by
  induction insts generalizing done with
  | nil => exact .nil
  | cons inst insts ih =>
    rw [List.flatMap_cons]
    refine Ordered.append ?_ (ih fun front next back heq v hv => ?_)
    · refine (ordered_reads fun v hv => ?_).append (ordered_assigns _)
      simpa using h [] inst insts rfl v hv
    · rcases h (inst :: front) next back (by rw [heq]; rfl) v hv with hv | hv
      · exact .inl (.inl hv)
      · obtain ⟨i, hi, hd⟩ := mem_dsts.1 hv
        rcases List.mem_cons.1 hi with rfl | hi
        · refine .inl (.inr (List.mem_append_right _ ?_))
          simp [hd]
        · exact .inr (mem_dsts.2 ⟨i, hi, hd⟩)

/-- A block of a strict function, entered from the end of a path over blocks that are done. -/
theorem ordered_block (hf : f.Strict) (hvalid : f.Valid) (hb : f.blocks[i]? = some b)
    {pred : Option BlockId} {l : List Flow.Node}
    (hpath : Graph.Path f.flowGraph f.flowGraph.entry i (i :: l))
    (hpred : ∀ p, pred = some p → Graph.Path f.flowGraph f.flowGraph.entry p.index l)
    (hdone : ∀ a ∈ l, ∀ v, f.DefinedIn a v → done v) : Ordered done (b.accesses pred) := by
  have hreach : f.flowGraph.Reachable i := ⟨_, hpath⟩
  have hvb := hvalid.block i b hb
  have hinsts := b.insts_eq
  -- The merges read and then assign, the body follows, and the terminator reads last.
  refine ((ordered_reads fun v hv => ?_).append (ordered_assigns _)).append
    ((ordered_insts _ fun front inst back heq v hv => ?_).append (ordered_reads fun v hv => ?_))
  · obtain ⟨inst, hi, hin⟩ := List.mem_filterMap.1 hv
    obtain ⟨p, hp, hin⟩ := Option.bind_eq_some_iff.1 hin
    cases inst with
    | phi dst incoming =>
      obtain ⟨⟨q, w⟩, hfind, rfl⟩ := Option.map_eq_some_iff.1 hin
      obtain rfl : q = p := by simpa using List.find?_some hfind
      have hpl := hpred q hp
      obtain ⟨a, ha, hdef⟩ := hf.input i b hb dst incoming
        (hinsts ▸ List.mem_append_left _ hi) q w (List.mem_of_find?_eq_some hfind) ⟨l, hpl⟩
      exact hdone a (ha l hpl) w hdef
    | _ => cases Block.phi_of_mem hi
  · have hsplit : b.insts.toList = (b.phis ++ front) ++ inst :: back := by
      rw [hinsts, heq, List.append_assoc]
    have hbody : inst ∈ b.body := by
      rw [heq]
      exact List.mem_append_right _ List.mem_cons_self
    rcases hf.operand i b hb hreach _ inst back hsplit (hvb.body inst hbody) v hv with hv | ⟨a, ha, hdef⟩
    · rw [dsts_append] at hv
      rcases List.mem_append.1 hv with hv | hv
      · exact .inl (.inr (List.mem_append_right _ (assign_mem_map.2 hv)))
      · exact .inr hv
    · rcases List.mem_cons.1 (ha.1 _ hpath) with h | hal
      · exact absurd h ha.2
      · exact .inl (.inl (hdone a hal v hdef))
  · obtain ⟨t, ht, hv⟩ := List.mem_flatMap.1 hv
    obtain ⟨a, ha, hdef⟩ := hf.terminator i b t hb hreach (Option.mem_toList.1 ht) v hv
    rcases List.mem_cons.1 (ha _ hpath) with rfl | hal
    · obtain ⟨b', hb', hv'⟩ := hdef
      obtain rfl : b = b' := Option.some.inj (hb.symm.trans hb')
      rw [hinsts, dsts_append] at hv'
      rcases List.mem_append.1 hv' with hv' | hv'
      · exact .inl (.inr (List.mem_append_right _ (assign_mem_map.2 hv')))
      · exact .inr (assign_mem_accesses.2 hv')
    · exact .inl (.inl (hdone a hal v hdef))

/-- A block assigns all that it defines. -/
theorem Block.assign_mem {v : Value} (hv : v ∈ dsts b.insts.toList) (pred : Option BlockId) :
    .assign v ∈ b.accesses pred := by
  rw [b.insts_eq, dsts_append] at hv
  rcases List.mem_append.1 hv with hv | hv
  · exact List.mem_append_left _ (List.mem_append_right _ (assign_mem_map.2 hv))
  · exact List.mem_append_right _ (List.mem_append_left _ (assign_mem_accesses.2 hv))

variable {σ : Type} [GuestMachine σ]

/-- Control goes on at a successor of the block. -/
theorem mem_successors_of_runBlock {fr fr' : Frame σ} {pred : Option BlockId} {id next : BlockId}
    (hvalid : f.Valid) (hb : f.block? id = some b)
    (h : runBlock f fr pred id = .ok (fr', .block next)) : next ∈ b.successors := by
  cases henter : enterBlock fr pred b with
  | error cause =>
    simp only [runBlock, hb, henter] at h
    cases h
  | ok fr₁ =>
    obtain ⟨fr₂, next', hrun, hnext⟩ := runBlock_ok hvalid hb henter
    rw [hrun] at h
    obtain ⟨b', hb', hmem⟩ :=
      Function.mem_predecessors.1 (hnext next (congrArg Prod.snd (Except.ok.inj h))).1
    obtain rfl : b = b' := Option.some.inj (hb.symm.trans hb')
    exact hmem

/-- A run of a strict function only reads values assigned before. -/
theorem ordered_accesses (hf : f.Strict) (hvalid : f.Valid) {fuel : Nat} {fr : Frame σ}
    {pred : Option BlockId} {id : BlockId} {l : List Flow.Node}
    (hpath : Graph.Path f.flowGraph f.flowGraph.entry id.index (id.index :: l))
    (hpred : ∀ p, pred = some p → Graph.Path f.flowGraph f.flowGraph.entry p.index l)
    (hdone : ∀ a ∈ l, ∀ v, f.DefinedIn a v → done v) :
    Ordered done (accesses f fuel fr pred id) := by
  -- Along the run, all blocks of the path so far are done.
  induction fuel generalizing fr pred id l done with
  | zero => exact .nil
  | succ fuel ih =>
    rw [accesses]
    cases hb : f.block? id with
    | none => exact .nil
    | some b =>
      refine (ordered_block hf hvalid hb hpath hpred hdone).append ?_
      split
      · next fr' next hrun =>
        have hedge : next.index ∈ f.flowGraph.succs id.index := by
          have hb' : f.blocks[id.index]? = some b := hb
          simp only [Function.flowGraph, hb']
          exact List.mem_map.2 ⟨next, mem_successors_of_runBlock hvalid hb hrun, rfl⟩
        refine ih (hpath.step hedge) (fun p hp => ?_) fun a ha v hdef => ?_
        · cases hp
          exact hpath
        · rcases List.mem_cons.1 ha with rfl | ha
          · obtain ⟨b', hb', hv⟩ := hdef
            obtain rfl : b = b' := Option.some.inj (hb.symm.trans hb')
            exact .inr (b.assign_mem hv pred)
          · exact .inl (hdone a ha v hdef)
      · exact .nil

end HotRegion.Ssa
