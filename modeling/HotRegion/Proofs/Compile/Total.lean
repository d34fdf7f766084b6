import HotRegion.Proofs.Compile.Prepared
import HotRegion.Proofs.Lowering.Flow

/-!
# Building regions from interpreted code

On a profile that interpretation has filled the compiler never breaks down, and the back end that
evaluates functions takes whatever it makes. The functions it makes are strict.

## Key results

- `compile_total`: a build is refused only for reasons of the code and the configuration
- `generate_strict`: definitions dominate their uses, so no run reads a value before it is assigned
-/

namespace HotRegion

open Isa
open Machine (State)
open Region (entrySlot entryMark Ready)
open Lowering (Laid Supplied Scope)
open Ssa (mapError_eq_ok)

variable {config config' : Config} {profile : Profile} {entry : UInt32} {p : Prepared}

/-- The scope of the code of a prepared region. -/
def Prepared.scope (p : Prepared) (config : Config) : Scope := .of p.region p.usage config

@[simp] theorem Prepared.scope_region (p : Prepared) (config : Config) :
    (p.scope config).region = p.region := rfl

@[simp] theorem Prepared.scope_config (p : Prepared) (config : Config) :
    (p.scope config).config = config := rfl

/-- The code that is generated for a prepared region, with its layout. -/
structure Generated (p : Prepared) (config : Config) (K : UInt32 × UInt32 → Prop)
    (f : Ssa.Function) where
  size : Nat
  draft : Lowering.Draft
  book : Nat → Lowering.Chunk
  generate : p.generate config = .ok f
  function : f = draft.builder.function
  sound : (p.scope config).Sound K size
  laid : Laid (p.scope config) size draft book
  supplied : Supplied (p.scope config) book fun y _ => draft.sourcesOf y

/-- A prepared region has a function, also under other configurations that count alike. -/
theorem Prepares.generated (h : Prepares config profile entry p)
    (hcount : config'.countInstructions = config.countInstructions) :
    ∃ f, Nonempty (Generated p config' (fun i => profile.Compilable i ∧ p.region.HasCode i) f) := by
  have hready := h.ready
  rw [← hcount] at hready
  obtain ⟨n, d, book, hgenerate, hsound, hlaid, hsupplied⟩ := Lowering.generate_spec hready
    (fun s b hs hb w hw => by
      obtain ⟨addr, hcode⟩ := Region.Block.Coded.word (hready.block s b hs hb) hw
      exact hcode.1.2)
    h.unmarked
  exact ⟨_, ⟨n, d, book, mapError_eq_ok.2 hgenerate, rfl, hsound, hlaid, hsupplied⟩⟩

namespace Generated

variable {K : UInt32 × UInt32 → Prop} {f : Ssa.Function}

/-- The function of a region is valid. -/
theorem valid (g : Generated p config K f) : f.Valid := by
  rw [g.function]
  exact g.laid.valid g.sound g.supplied

/-- The function of a region passes validation. -/
theorem validate (g : Generated p config K f) : f.validate = .ok () := by
  rw [g.function]
  exact g.laid.validate_eq_ok g.sound g.supplied

/-- The function of a region assigns values before it reads them. -/
theorem strict (g : Generated p config K f) : f.Strict := by
  rw [g.function]
  exact g.laid.strict g.sound g.supplied

/-- The back end that evaluates functions takes the function. -/
theorem compile (g : Generated p config K f) (h : Prepares config profile entry p) :
    compile config .eval profile entry = .ok ⟨p.info, Backend.evaluate f⟩ := by
  refine compile_eq_ok.2 ⟨p, f, _, h.prepare, g.generate, ?_, rfl⟩
  simp only [Backend.eval, g.validate]
  rfl

end Generated

/-! ## Totality -/

/-- The compiler does not break down on interpreted code. -/
theorem compile_ne_broken (hp : profile.Interpreted) (hmark : ∀ i, profile.Seen i → i.2 ≠ entryMark)
    (config : Config) (entry : UInt32) (cause : Breakdown) :
    compile config .eval profile entry ≠ .error (.broken cause) := by
  rcases prepare_spec hp hmark config entry with
    ⟨-, hrefused⟩ | ⟨_, _, -, -, ⟨-, _, hrefused, -⟩ | ⟨-, p, hprepares⟩⟩
  · rw [compile, hrefused]
    simp
  · rw [compile, hrefused]
    simp
  · obtain ⟨f, ⟨g⟩⟩ := hprepares.generated rfl
    rw [g.compile hprepares]
    simp

/-- The compiler does not break down on interpreted code, whatever the configuration and the entry.
Every region that can be prepared has a function, validation accepts it, and the back end takes it. A
build succeeds exactly if its entry was recorded and the configuration admits the code. -/
theorem compile_total (hp : profile.Interpreted) (hmark : ∀ i, profile.Seen i → i.2 ≠ entryMark)
    (config : Config) (entry : UInt32) :
    (∀ cause, compile config .eval profile entry ≠ .error (.broken cause)) ∧
    (∀ e, compile config .eval profile entry ≠ .error (.refused (.backend e))) ∧
    (∀ p, prepare config profile entry = .ok p →
      ∃ f, p.generate config = .ok f ∧ f.validate = .ok ()) ∧
    ((∃ region, compile config .eval profile entry = .ok region) ↔
      profile.trace? entry ≠ none ∧
        ∃ traces r, Discovers config profile entry traces r ∧ Admits config traces r) := by
  have hgenerates : ∀ p, prepare config profile entry = .ok p →
      ∃ f, p.generate config = .ok f ∧ f.validate = .ok () := by
    intro p hprepare
    obtain ⟨f, ⟨g⟩⟩ := (prepares_of_prepare hp hmark hprepare).generated rfl
    exact ⟨f, g.generate, g.validate⟩
  -- Not profiled, refused by a check, or prepared: in the last case the backend gets a valid
  -- function.
  rcases prepare_spec hp hmark config entry with
    ⟨hseen, hrefused⟩ | ⟨traces, r, hseen, hdiscovers, ⟨hnot, error, hrefused, hbackend⟩ |
      ⟨hadmits, p, hprepares⟩⟩
  · have hcompile : compile config .eval profile entry = .error (.refused (.notProfiled entry)) := by
      rw [compile, hrefused]
      rfl
    simp only [hcompile]
    refine ⟨by simp, by simp, hgenerates, by simp [hseen]⟩
  · have hcompile : compile config .eval profile entry = .error (.refused error) := by
      rw [compile, hrefused]
      rfl
    refine ⟨by simp [hcompile], ?_, hgenerates, ?_⟩
    · intro e he
      rw [hcompile] at he
      cases he
      exact hbackend e rfl
    · constructor
      · rintro ⟨region, hok⟩
        rw [hcompile] at hok
        cases hok
      · rintro ⟨-, traces', r', hdiscovers', hadmits⟩
        obtain ⟨rfl, rfl⟩ := hdiscovers.unique hdiscovers'
        exact absurd hadmits hnot
  · obtain ⟨f, ⟨g⟩⟩ := hprepares.generated rfl
    have hcompile := g.compile hprepares
    refine ⟨by simp [hcompile], by simp [hcompile], hgenerates, ?_⟩
    exact ⟨fun _ => ⟨hseen, traces, r, hdiscovers, hadmits⟩, fun _ => ⟨_, hcompile⟩⟩

/-- The region of a recorded loop is built, and what admits it is its code. -/
theorem compile_total_countdown :
    (∃ region, compile .standard .eval .countdown 0x20 = .ok region) ∧
      ∃ traces r, Discovers .standard .countdown 0x20 traces r ∧ Admits .standard traces r := by
  have hok : ∃ region, compile .standard .eval .countdown 0x20 = .ok region := by
    have hbuilt : (compile .standard .eval .countdown 0x20).isOk = true := by decide +kernel
    cases hcompile : compile .standard .eval .countdown 0x20 with
    | ok region => exact ⟨region, rfl⟩
    | error failure =>
      rw [hcompile] at hbuilt
      cases hbuilt
  have htotal := compile_total Profile.interpreted_countdown Profile.unmarked_countdown .standard 0x20
  exact ⟨hok, (htotal.2.2.2.1 hok).2⟩

/-! ## Strictness -/

/-- The function of a region that was prepared from interpreted code is strict, under every
configuration. So no run of it, from any machine, reads a value that was not assigned before. -/
theorem generate_strict (hp : profile.Interpreted) (hmark : ∀ i, profile.Seen i → i.2 ≠ entryMark)
    (hprepare : prepare config profile entry = .ok p) :
    ∃ f, p.generate config = .ok f ∧ f.Strict ∧
      ∀ (fuel : Nat) (s : State),
        Ssa.Ordered (fun _ => False)
          (Ssa.accesses f fuel ⟨Array.replicate f.types.size 0, s⟩ none Ssa.Function.entry) := by
  obtain ⟨f, ⟨g⟩⟩ := (prepares_of_prepare hp hmark hprepare).generated rfl
  refine ⟨f, g.generate, g.strict, fun fuel s => ?_⟩
  exact Ssa.ordered_accesses g.strict g.valid .refl (by simp) (by simp)

/-- A run of the function of a recorded loop reads no value before it is assigned. -/
theorem generate_strict_countdown : ∃ p f, prepare .standard .countdown 0x20 = .ok p ∧
    p.generate .standard = .ok f ∧ f.Strict ∧
    Ssa.Ordered (fun _ => False) (Ssa.accesses f 100
      ⟨Array.replicate f.types.size 0, Profile.countdownState⟩ none Ssa.Function.entry) := by
  have hbuilt : (prepare .standard .countdown 0x20).isOk = true := by decide +kernel
  cases hprepare : prepare .standard .countdown 0x20 with
  | error failure =>
    rw [hprepare] at hbuilt
    cases hbuilt
  | ok p =>
    obtain ⟨f, hf, hstrict, hordered⟩ :=
      generate_strict Profile.interpreted_countdown Profile.unmarked_countdown hprepare
    exact ⟨p, f, rfl, hf, hstrict, hordered 100 Profile.countdownState⟩

end HotRegion
