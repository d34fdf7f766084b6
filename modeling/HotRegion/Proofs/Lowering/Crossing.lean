import HotRegion.Proofs.Lowering.Run

/-!
# Crossing the region

The guest goes from block to block of the region until it comes to none. The function of the region
does the same: its run exits exactly if the guest leaves the region, where and as it leaves it. Which
blocks the guest passes through does not depend on the function.

## Key results

- `Laid.crosses_of_run`: a run of the function that exits is one of the guest through the region
- `Laid.run_of_crosses`: where the guest leaves the region, the run of the function exits
-/

namespace HotRegion.Lowering

open Isa Analysis Ssa Build
open Machine (State Memory)
open Region (Tracked Slot Departure)

variable {c c' : Scope} {K : UInt32 × UInt32 → Prop} {n k : Nat} {d : Draft} {x y z : Slot} {book : Book}
  {fr : Frame Watched} {g g' h₁ h₂ origin : State} {out out' : Departure} {safe : Memory → Prop}
  {b b' : Region.Block} {fuel : Nat} {e : Exit} {m : Watched}

/-! ## Ways of the guest -/

/-- The guest that enters block `x` at `g` comes to enter block `y` at `h`. -/
inductive Comes (c : Scope) (safe : Memory → Prop) : Slot → State → Slot → State → Prop where
  | here {x : Slot} {g : State} : Comes c safe x g x g
  | hop {x y z : Slot} {b : Region.Block} {g g' h : State} {out : Departure}
      (block : c.region.block? x = some b)
      (pass : b.Passes c.config.countInstructions safe g g' out) (next : c.next b g' out = some y)
      (rest : Comes c safe y g' z h) : Comes c safe x g z h

/-- The guest that enters the block at `h` leaves the region at `g'`. -/
structure Departs (c : Scope) (safe : Memory → Prop) (b : Region.Block) (h g' : State)
    (out : Departure) : Prop where
  pass : b.Passes c.config.countInstructions safe h g' out
  leaves : c.next b g' out = none

/-- The way of the guest depends on the region and on whether instructions are counted alone. -/
theorem Comes.congr (h : Comes c safe x g y g') (hregion : c'.region = c.region)
    (hcount : c'.config.countInstructions = c.config.countInstructions) :
    Comes c' safe x g y g' := by
  induction h with
  | here => exact .here
  | @hop x y z b g g' h out block pass next _ ih =>
    refine .hop (hregion ▸ block) (hcount ▸ pass) ?_ ih
    rw [← next]
    unfold Scope.next Scope.succAt? Scope.succ?
    rw [hregion]

/-- The last block on the way of a guest that has come somewhere else. -/
theorem Comes.last (h : Comes c safe x g z g') : x = z ∧ g = g' ∨ ∃ y b h₁ out,
    Comes c safe x g y h₁ ∧ c.region.block? y = some b ∧
      b.Passes c.config.countInstructions safe h₁ g' out ∧ c.next b g' out = some z := by
  induction h with
  | here => exact .inl ⟨rfl, rfl⟩
  | hop block pass next _ ih =>
    rcases ih with ⟨rfl, rfl⟩ | ⟨y, b, h₁, out, rest, hb, hpass, hnext⟩
    · exact .inr ⟨_, _, _, _, .here, block, pass, next⟩
    · exact .inr ⟨y, b, h₁, out, .hop block pass next rest, hb, hpass, hnext⟩

theorem Scope.succ?_spec {p : Region.Block → Bool} (h : c.succ? b p = some y) :
    y ∈ b.succs ∧ ∃ b', c.region.block? y = some b' ∧ p b' = true := by
  have hp := List.find?_some h
  exact ⟨List.mem_of_find?_eq_some h, (Option.any_eq_true _ _).1 hp⟩

/-- The guest goes on at successors. -/
theorem Scope.mem_of_next (h : c.next b g out = some y) : y ∈ b.succs := by
  unfold Scope.next at h
  split at h
  · exact (Scope.succ?_spec h).1
  · exact (Scope.succ?_spec h).1

theorem Comes.ne_entry (hc : c.Sound K n) (h : Comes c safe x g y g') (hx : x ≠ Region.entrySlot) :
    y ≠ Region.entrySlot := by
  induction h with
  | here => exact hx
  | hop block _ next _ ih => exact ih (hc.live_succ block (Scope.mem_of_next next)).2.1

/-- The count of instructions stays where they are not counted. -/
theorem Comes.icnt_eq (h : Comes c safe x g y g') (hcount : c.config.countInstructions = false) :
    g'.icnt = g.icnt := by
  induction h with
  | here => rfl
  | hop _ pass _ _ ih => rw [ih, pass.icnt_eq, hcount, if_neg (by simp)]

/-- No block writes to `$0`. -/
theorem reg_zero_of_passes (hpass : b.Passes c.config.countInstructions safe g g' out) :
    g'.reg .zero = g.reg .zero :=
  toUInt64_inj.1 (hpass.unit_eq (fun insn _ => Machine.untouched_zero insn) (by simp))

theorem Comes.reg_zero (h : Comes c safe x g y g') : g'.reg .zero = g.reg .zero := by
  induction h with
  | here => rfl
  | hop _ pass _ _ ih => rw [ih, reg_zero_of_passes pass]

/-- The guest leaves the region in one place. -/
theorem Departs.unique {safe' : Memory → Prop} (hc₁ : Comes c safe x g y h₁)
    (hb : c.region.block? y = some b) (hd₁ : Departs c safe b h₁ g' out)
    (hc₂ : Comes c safe' x g z h₂) (hb' : c.region.block? z = some b') {g'' : State}
    (hd₂ : Departs c safe' b' h₂ g'' out') : y = z ∧ h₁ = h₂ ∧ g' = g'' ∧ out = out' := by
  -- Both ways pass the same blocks in the same states, so neither is left before the other.
  induction hc₁ with
  | here =>
    cases hc₂ with
    | here =>
      obtain rfl := Option.some.inj (hb.symm.trans hb')
      obtain ⟨rfl, rfl⟩ := hd₁.pass.unique hd₂.pass
      exact ⟨rfl, rfl, rfl, rfl⟩
    | hop block pass next rest =>
      obtain rfl := Option.some.inj (hb.symm.trans block)
      obtain ⟨rfl, rfl⟩ := hd₁.pass.unique pass
      cases hd₁.leaves.symm.trans next
  | hop block pass next rest ih =>
    cases hc₂ with
    | here =>
      obtain rfl := Option.some.inj (hb'.symm.trans block)
      obtain ⟨rfl, rfl⟩ := hd₂.pass.unique pass
      cases hd₂.leaves.symm.trans next
    | hop block' pass' next' rest' =>
      obtain rfl := Option.some.inj (block.symm.trans block')
      obtain ⟨rfl, rfl⟩ := pass.unique pass'
      obtain rfl := Option.some.inj (next.symm.trans next')
      exact ih hb hd₁ rest'

/-! ## Runs of the function -/

namespace Laid

variable (hc : c.Sound K n) (h : Laid c n d book) (hs : Supplied c book fun y _ => d.sourcesOf y)

include hc h hs

/-- From edge to edge: the guest passes through one block, and control comes to the next one or leaves
the region. -/
theorem hop (hend : Ended c d book origin k fr g) (hway : .edge x ∈ (book k).out.ways) :
    ∃ b g' out fr' j, c.region.block? x = some b ∧ fr.machine.Le fr'.machine ∧
      (∀ safe, SafeBetween safe fr.machine fr'.machine →
        b.Passes c.config.countInstructions safe g g' out) ∧
      ((∃ k' y, Ended c d book origin k' fr' g' ∧ .edge y ∈ (book k').out.ways ∧
          c.next b g' out = some y ∧ ∀ fuel,
          runFrom d.builder.function (fuel + (j + 1)) fr (some ⟨k⟩) (c.place x) =
            runFrom d.builder.function fuel fr' (some ⟨k'⟩) (c.place y)) ∨
        ∃ e, Left c origin x b g' out e fr'.machine ∧ c.next b g' out = none ∧ ∀ fuel,
          runFrom d.builder.function (fuel + (j + 1)) fr (some ⟨k⟩) (c.place x) =
            .exited e fr'.machine) := by
  obtain ⟨fr₁, b, g', out, hrun, hle, hb, hblock, hend₁, hleads, hout, hpass⟩ :=
    h.enter_body hc hs hend hway
  -- Entering the block is one step of the machine, and going on to the next one takes `j`.
  have hstep : ∀ fuel j, runFrom d.builder.function (fuel + (j + 1)) fr (some ⟨k⟩) (c.place x) =
      resume d.builder.function (fuel + j) fr₁ (c.place x)
        (endBlock fr₁ ((book.body c x).out.term c)) := fun fuel j => runFrom_succ hrun _
  subst hblock
  obtain ⟨j, ⟨k', y, fr', hend', hway', hnext, hle', hgo⟩ | ⟨e, m, hleft, hle', hgo⟩⟩ :=
    h.follow hc hend₁ hleads hout
  · exact ⟨_, g', out, fr', j, hb, hle.trans hle', fun safe hsafe => hpass safe (hsafe.left hle'),
      .inl ⟨k', y, hend', hway', hnext, fun fuel => (hstep fuel j).trans (hgo fuel)⟩⟩
  · obtain ⟨ending, V, hfinal, hhold⟩ := hleft.final
    rw [show (book (c.place x).index).slot = x from h.slot_eq hc ⟨_, hb⟩] at hleft
    exact ⟨_, g', out, ⟨#[], m⟩, j, hb, hle.trans hle', fun safe hsafe => hpass safe (hsafe.left hle'),
      .inr ⟨e, hleft, (hfinal.next_eq hhold).2, fun fuel => (hstep fuel j).trans (hgo fuel)⟩⟩

/-- A run that exits takes the guest through the region. -/
theorem comes_of_runFrom (hend : Ended c d book origin k fr g) (hway : .edge x ∈ (book k).out.ways)
    (hrun : runFrom d.builder.function fuel fr (some ⟨k⟩) (c.place x) = .exited e m) :
    ∃ y b g₁ g' out, c.region.block? y = some b ∧ Left c origin y b g' out e m ∧ fr.machine.Le m ∧
      ∀ safe, SafeBetween safe fr.machine m → Comes c safe x g y g₁ ∧ Departs c safe b g₁ g' out := by
  induction fuel using Nat.strongRecOn generalizing k fr g x with
  | ind fuel ih =>
    obtain ⟨b, g', out, fr', j, hb, hle, hpass, hrest⟩ := h.hop hc hs hend hway
    rcases hrest with ⟨k', y, hend', hway', hnext, hgo⟩ | ⟨e', hleft, hnext, hgo⟩
    · -- With less fuel the run would not come to the next edge.
      have hlt : j + 1 ≤ fuel := by
        refine Nat.le_of_not_lt fun hlt => ?_
        have hexit := runFrom_mono hrun (Nat.le_of_lt hlt)
        rw [show j + 1 = 0 + (j + 1) by omega, hgo 0] at hexit
        cases hexit
      have hrest := hgo (fuel - (j + 1))
      rw [Nat.sub_add_cancel hlt, hrun] at hrest
      obtain ⟨z, b', g₁, g₂, out', hb', hleft, hle', hsafe'⟩ :=
        ih (fuel - (j + 1)) (by omega) hend' hway' hrest.symm
      refine ⟨z, b', g₁, g₂, out', hb', hleft, hle.trans hle', fun safe hsafe => ?_⟩
      obtain ⟨hcomes, hdeparts⟩ := hsafe' safe (hsafe.right hle)
      exact ⟨.hop hb (hpass safe (hsafe.left hle')) hnext hcomes, hdeparts⟩
    · have hexit := runFrom_mono hrun (Nat.le_add_right fuel (j + 1))
      rw [hgo fuel] at hexit
      cases hexit
      exact ⟨x, b, g, g', out, hb, hleft, hle, fun safe hsafe => ⟨.here, hpass safe hsafe, hnext⟩⟩

/-- Where the guest comes to a block, control comes to it too. -/
theorem exists_ended (hcomes : Comes c safe x g y g')
    (hend : Ended c d book origin k fr g) (hway : .edge x ∈ (book k).out.ways) :
    ∃ j k' fr', Ended c d book origin k' fr' g' ∧ .edge y ∈ (book k').out.ways ∧
      ∀ fuel, runFrom d.builder.function (fuel + j) fr (some ⟨k⟩) (c.place x) =
        runFrom d.builder.function fuel fr' (some ⟨k'⟩) (c.place y) := by
  induction hcomes generalizing k fr with
  | here => exact ⟨0, k, fr, hend, hway, fun _ => rfl⟩
  | @hop x y z b g g' g'' out block pass next _ ih =>
    obtain ⟨b', g₁, out', fr₁, j, hb, -, hpass, hrest⟩ := h.hop hc hs hend hway
    obtain rfl := Option.some.inj (block.symm.trans hb)
    obtain ⟨rfl, rfl⟩ := pass.unique (hpass (fun _ => True) fun _ _ _ => trivial)
    rcases hrest with ⟨k', y', hend', hway', hnext, hgo⟩ | ⟨_, -, hnext, -⟩
    · obtain rfl := Option.some.inj (next.symm.trans hnext)
      obtain ⟨j', k'', fr'', hend'', hway'', hgo'⟩ := ih hend' hway'
      refine ⟨j' + (j + 1), k'', fr'', hend'', hway'', fun fuel => ?_⟩
      rw [← Nat.add_assoc, hgo, hgo']
    · cases next.symm.trans hnext

variable (s : State)

omit hs in
/-- The run of the function starts with the guest at the entry of the region. -/
theorem exists_start : ∃ fr first, c.region.firstBlock? = some first ∧
    .edge first ∈ (book Function.entry.index).out.ways ∧ fr.machine = ⟨s, []⟩ ∧
    Ended c d book s Function.entry.index fr (s.enter c.region.entryAddr) ∧
    ∀ fuel, run (fuel + 1) d.builder.function (⟨s, []⟩ : Watched) =
      runFrom d.builder.function fuel fr (some Function.entry) (c.place first) := by
  obtain ⟨fr, first, hfirst, hrun, hmachine, hway, hend⟩ := h.run_start hc ⟨s, []⟩ c.region.entryAddr
  exact ⟨fr, first, hfirst, hway, hmachine, hend, fun fuel => runFrom_succ hrun fuel⟩

/-- A run of the function that exits is one of the guest through the region. -/
theorem crosses_of_run (hrun : run fuel d.builder.function (⟨s, []⟩ : Watched) = .exited e m) :
    ∃ first y b g₁ g' out, c.region.firstBlock? = some first ∧ c.region.block? y = some b ∧
      Left c s y b g' out e m ∧ (⟨s, []⟩ : Watched).Le m ∧ ∀ safe, SafeBetween safe ⟨s, []⟩ m →
        Comes c safe first (s.enter c.region.entryAddr) y g₁ ∧ Departs c safe b g₁ g' out := by
  obtain ⟨fr, first, hfirst, hway, hmachine, hend, hstart⟩ := h.exists_start hc s
  cases fuel with
  | zero => cases hrun
  | succ fuel =>
    rw [hstart] at hrun
    obtain ⟨y, b, g₁, g', out, hb, hleft, hle, hsafe⟩ := h.comes_of_runFrom hc hs hend hway hrun
    rw [hmachine] at hle hsafe
    exact ⟨first, y, b, g₁, g', out, hfirst, hb, hleft, hle, hsafe⟩

/-- Where the guest leaves the region, the run of the function exits. -/
theorem run_of_crosses {first : Slot} (hfirst : c.region.firstBlock? = some first)
    (hcomes : Comes c safe first (s.enter c.region.entryAddr) y h₁)
    (hb : c.region.block? y = some b) (hdeparts : Departs c safe b h₁ g' out) :
    ∃ fuel e m, run fuel d.builder.function (⟨s, []⟩ : Watched) = .exited e m := by
  obtain ⟨fr, first', hfirst', hway, -, hend, hstart⟩ := h.exists_start hc s
  obtain rfl := Option.some.inj (hfirst.symm.trans hfirst')
  obtain ⟨j, k', fr', hend', hway', hgo⟩ := h.exists_ended hc hs hcomes hend hway
  obtain ⟨b', g₁, out', fr₁, j', hb', -, hpass, hrest⟩ := h.hop hc hs hend' hway'
  obtain rfl := Option.some.inj (hb.symm.trans hb')
  obtain ⟨rfl, rfl⟩ := hdeparts.pass.unique (hpass (fun _ => True) fun _ _ _ => trivial)
  rcases hrest with ⟨_, _, -, -, hnext, -⟩ | ⟨e, -, -, hexit⟩
  · cases hdeparts.leaves.symm.trans hnext
  · exact ⟨0 + (j' + 1) + j + 1, e, fr₁.machine, by rw [hstart, hgo, hexit]⟩

end Laid

end HotRegion.Lowering
