import HotRegion.Proofs.Compile.Refinement
import HotRegion.Proofs.Lowering.Exits

/-!
# Exits of compiled regions

A run of a compiled region that exits has left a guest block of the region, for an address that no
successor of it starts at, and the reason that it gives is the right one.

## Key results

- `invoke_exits_precisely`: where and why a compiled region is left
-/

namespace HotRegion

open Machine (State)
open Region (entryMark)
open Lowering (Comes)
open Ssa (Exit)

variable {config : Config} {profile : Profile} {entry : UInt32} {p : Prepared} {s s' : State}
  {e : Exit} {fuel : Nat} {region : Compiled}

/-- Exits of a compiled region are precise. The run takes the guest to a guest block of the region and
out of it, or out of its patch block if a likely branch is taken; no successor that is a guest block
starts where it goes on. The reason says how it leaves the block. The final state is that of the guest,
but that `$0` is not written. -/
theorem invoke_exits_precisely (hp : profile.Interpreted)
    (hmark : ∀ i, profile.Seen i → i.2 ≠ entryMark)
    (hcompile : compile config .eval profile entry = .ok region)
    (hprepare : prepare config profile entry = .ok p)
    (hrun : region.invoke fuel s = .exited e s') :
    ∃ first x b h g, p.region.firstBlock? = some first ∧
      Comes (p.scope config) (fun _ => True) first (s.enter entry) x h ∧
      (p.scope config).Leaves x b h g e.reason ∧ e.pc = g.pc ∧ s'.pc = g.pc ∧ s'.mem = g.mem ∧
      ∀ u, u ≠ .gpr .zero → s'.unit u = g.unit u := by
  have hprepares := prepares_of_prepare hp hmark hprepare
  obtain ⟨f, ⟨g⟩⟩ := hprepares.generated rfl
  rw [invoke_eq hprepare g.generate hcompile] at hrun
  obtain ⟨m, hwatched, rfl⟩ := evaluate_eq_exited hrun
  obtain ⟨first, y, b, h₁, g', out, hfirst, hb, hleft, -, hcross⟩ :=
    g.laid.crosses_of_run g.sound g.supplied s (g.function ▸ hwatched)
  obtain ⟨hcomes, hdeparts⟩ := hcross (fun _ => True) fun _ _ _ => trivial
  obtain ⟨ending, V, hfinal, hhold⟩ := hleft.final
  obtain ⟨x, a, h, hway, hleaves⟩ :=
    g.sound.leaves_of_departs hfirst hcomes hb hdeparts hfinal hhold
  rw [p.scope_region, hprepares.entryAddr] at hway
  refine ⟨first, x, a, h, g', hfirst, hway, hleaves, hleft.pc, hleft.pc, hleft.mem, fun u hu => ?_⟩
  exact (State.unit_pc _ _ u).trans ((hleft.unit u).trans (if_neg hu))

/-- The compiled loop leaves its block by the branch that is not taken in the end. -/
theorem invoke_exits_precisely_countdown : ∃ p region e s' first x b h g,
    prepare .standard .countdown 0x20 = .ok p ∧
      compile .standard .eval .countdown 0x20 = .ok region ∧
      region.invoke 10 Profile.countdownStart = .exited e s' ∧ e = ⟨0x2c, .fallthrough⟩ ∧
      p.region.firstBlock? = some first ∧
      Comes (p.scope .standard) (fun _ => True) first (Profile.countdownStart.enter 0x20) x h ∧
      (p.scope .standard).Leaves x b h g e.reason ∧ e.pc = g.pc := by
  obtain ⟨p, region, s', hprepare, hcompile, hinvoke⟩ := countdown_invoke
  obtain ⟨first, x, b, h, g, hfirst, hcomes, hleaves, hpc, -⟩ :=
    invoke_exits_precisely Profile.interpreted_countdown Profile.unmarked_countdown hcompile hprepare
      hinvoke
  exact ⟨p, region, _, s', first, x, b, h, g, hprepare, hcompile, hinvoke, rfl, hfirst, hcomes,
    hleaves, hpc⟩

end HotRegion
