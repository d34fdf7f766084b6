import HotRegion.Proofs.Lowering.Boundary
import HotRegion.Proofs.Lowering.Instruction

/-!
# Lowering one instruction

The code that lowering adds for an instruction does to the values of the register table and to
memory what the instruction does to the guest. The code is run here as the evaluator runs it, on a
frame of values and any machine; only the memory of that machine is touched.

## Key results

- `lower_simulates`: running the code that is added keeps table and guest in agreement
-/

namespace HotRegion.Lowering

open Isa Ssa
open Machine (State execute)

variable {t : RegTable} {b : Builder} {addr word : UInt32} {fold : Bool}

/-- A function under construction with all the values made so far. -/
def Site.whole (b : Builder) : Site := ⟨b, fun v => v.index < b.function.types.size⟩

/-- There every value may be read. -/
theorem Site.has_whole {v : Value} {ty : Ty} :
    (Site.whole b).Has v ty ↔ b.function.types[v.index]? = some ty :=
  ⟨fun h => h.typed, fun h => ⟨h, (Array.getElem?_eq_some_iff.1 h).1⟩⟩

/-- What is at hand after code that starts with all values at hand is one of the values made. -/
theorem Grows.le_whole {s' : Site} {code : List Inst} (h : Grows (Site.whole b) code s') :
    s'.Le (Site.whole s'.builder) := by
  refine ⟨fun _ _ hi => hi, fun v hv => ?_⟩
  rcases h.ordered.avail_cases hv with hold | ⟨inst, hi, hd⟩
  · exact Nat.lt_of_lt_of_le hold h.ordered.size_le
  · exact (h.ordered.dst_range hi hd).2

/-- Lowering an instruction that can be compiled and transfers no control simulates it. Let all
registers that the instruction reads or writes be loaded in a well-typed table. Then lowering
succeeds and adds code to the current block. For every assignment of values and every guest state
that agree by the table and have the same memory, running the code succeeds, and so does executing
the instruction; afterwards values and guest state agree by the new table, the memory is the same
again, and nothing else of the machine that ran the code has changed. -/
theorem lower_simulates (ht : t.Typed (Site.whole b)) (hcovers : t.Covers (decode word))
    (hcan : (decode word).canCompile = true) (hflow : (decode word).hasDelaySlot = false) :
    ∃ t' b' code, lower fold t addr (decode word) b = .ok (t', b') ∧
      b' = appendCode b b'.function.types code ∧ t.Keeps t' (Site.whole b') ∧
      ∀ (f : Function) (fr : Frame State) (g : State),
        (∀ (i : Nat) (ty : Ty), b'.function.types[i]? = some ty → f.types[i]? = some ty) →
        b'.function.types.size ≤ fr.values.size →
        t.Agrees fr.get g → g.reg .zero = 0 → fr.machine.mem = g.mem →
        ∃ fr' g', code.foldlM (stepInst f) fr = .ok fr' ∧ execute g addr (decode word) = .ok g' ∧
          t'.Agrees fr'.get g' ∧ g'.reg .zero = 0 ∧
          fr'.machine = { fr.machine with mem := g'.mem } := by
  have hyields : Yields (Site.whole b) (lower fold t addr (decode word)) _ _ :=
    yields_lower ht hcovers hcan hflow (decode_ne_convert word)
  obtain ⟨t', s', code, hrun, hgrows, hkeeps, hsem⟩ := hyields
  refine ⟨t', s'.builder, code, hrun, hgrows.builder,
    ⟨hkeeps.typed.mono hgrows.le_whole, hkeeps.loaded⟩, fun f fr g hfits hsize hg hzero hmem => ?_⟩
  obtain ⟨fr', hok, -, hkeep, hsat⟩ :=
    hgrows.ordered.run (f := f) ⟨fr.values, ⟨fr.machine, []⟩⟩ hsize
  -- The values of the old table are not defined again, so they agree with the guest still.
  have hold : ∀ v, (Site.whole b).avail v → fr'.get v = fr.get v := fun v hv =>
    hkeep v fun inst hi hd => Nat.not_lt.2 (hgrows.ordered.dst_range hi hd).1 hv
  have hagrees : t.Agrees fr'.get g := fun u => (hg u).congr ht hold rfl
  obtain ⟨g', hexec, hg', hmachine⟩ := hsem f fr'.get _ fr'.machine hfits hsat g hagrees hmem.symm
  refine ⟨fr'.forget, g', ?_, hexec, hg', ?_, hmachine⟩
  · have hforget := foldlM_forget (f := f) ⟨fr.values, ⟨fr.machine, []⟩⟩ code
    rw [hok] at hforget
    exact hforget
  · have hunit := Machine.unit_execute hexec (Machine.untouched_zero (decode word))
    have hreg : g'.reg .zero = g.reg .zero := toUInt64_inj.1 hunit
    rw [hreg, hzero]

/-- A function with two values, the first for `$0` and the second for `$8`. -/
def twoValues : Builder :=
  { Builder.new "two values" with
    function := { (Builder.new "two values").function with types := #[.i32, .i32] } }

/-- The table that goes with it. -/
def twoRegisters : RegTable := (RegTable.new ⟨0⟩).setGpr (.ofNat 8) ⟨1⟩ .variant

/-- `addiu $8, $8, -1`, which writes the register it reads. -/
theorem lower_simulates_decrement :
    ∃ (t' : RegTable) (b' : Builder) (code : List Inst),
      lower true twoRegisters 0x100 (decode 0x2508ffff) twoValues = .ok (t', b') ∧
      ∀ (fr : Frame State) (g : State), b'.function.types.size ≤ fr.values.size →
        twoRegisters.Agrees fr.get g → g.reg .zero = 0 → fr.machine.mem = g.mem →
        ∃ fr' g', code.foldlM (stepInst b'.function) fr = .ok fr' ∧
          execute g 0x100 (decode 0x2508ffff) = .ok g' ∧ t'.Agrees fr'.get g' := by
  have ht : twoRegisters.Typed (Site.whole twoValues) :=
    (RegTable.keeps_setGpr (typed_new (Site.has_whole.2 rfl)) _ .variant
      (Site.has_whole.2 rfl)).typed
  have hinsn : decode 0x2508ffff = .imm .addU (.ofNat 8) (.ofNat 8) 0xffff := by decide
  have hcovers : twoRegisters.Covers (decode 0x2508ffff) := by
    intro ref href u hu
    obtain rfl : ref = .gpr (.ofNat 8) := by
      rw [hinsn] at href
      have href : ref ∈ [RegRef.gpr (.ofNat 8), .gpr (.ofNat 8)] := href
      simpa using href
    obtain rfl : u = .gpr (.ofNat 8) := List.mem_singleton.1 hu
    rfl
  obtain ⟨t', b', code, hrun, -, -, hsem⟩ := lower_simulates ht hcovers (by decide) (by decide)
  refine ⟨t', b', code, hrun, fun fr g hsize hg hzero hmem => ?_⟩
  obtain ⟨fr', g', hok, hexec, hg', -⟩ := hsem b'.function fr g (fun _ _ h => h) hsize hg hzero hmem
  exact ⟨fr', g', hok, hexec, hg'⟩

end HotRegion.Lowering
