/-! # Engine configuration

`Settings` are the choices a client makes; a `Config` is settings whose limits are not zero. -/

namespace HotRegion

/-- The choices that govern when and how regions are compiled. -/
structure Settings where
  enableCompilation : Bool := true
  /-- Number of executions of a block after which a region is built from it. -/
  hotThreshold : UInt64 := 500
  /-- Number of compiled regions kept. -/
  cacheCapacity : Nat := 8
  maxRegionBlocks : Nat := 64
  /-- Compiled code keeps the count of retired instructions up to date. -/
  countInstructions : Bool := true
  foldConstants : Bool := true
  splitBlocks : Bool := true
  allowIndirectJumps : Bool := true
  allowFp : Bool := true
  allowMixedPrecision : Bool := true
  dumpIr : Bool := false
  deriving DecidableEq

/-- Which limit is zero. -/
inductive ConfigError where
  | zeroHotThreshold
  | zeroCacheCapacity
  | zeroRegionBlocks
  deriving DecidableEq

def ConfigError.message : ConfigError → String
  | zeroHotThreshold => "the hot threshold must be at least 1"
  | zeroCacheCapacity => "the region cache must hold at least one region"
  | zeroRegionBlocks => "regions must be allowed at least one block"

/-- Settings whose limits are not zero. -/
structure Config extends Settings where
  hotThreshold_ne : hotThreshold ≠ 0
  cacheCapacity_ne : cacheCapacity ≠ 0
  maxRegionBlocks_ne : maxRegionBlocks ≠ 0

/-- Checks the limits in order. -/
def Settings.validate (s : Settings) : Except ConfigError Config :=
  if h₁ : s.hotThreshold = 0 then .error .zeroHotThreshold
  else if h₂ : s.cacheCapacity = 0 then .error .zeroCacheCapacity
  else if h₃ : s.maxRegionBlocks = 0 then .error .zeroRegionBlocks
  else .ok ⟨s, h₁, h₂, h₃⟩

/-- The configuration with every feature on. -/
def Config.standard : Config := ⟨{}, by decide, by decide, by decide⟩

end HotRegion
