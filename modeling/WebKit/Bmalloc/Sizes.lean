/-!
# Sizes and addresses of bmalloc

The constants of `Sizes.h` and the two page sizes of `VMAllocate.h`. An address is a natural number; `mask(p, ~(n - 1))`
with `n` a power of two is `roundDown n p`.
-/

namespace WebKit.Bmalloc

/-- The two values of `BPLATFORM(IOS)`. -/
inductive Platform
  | iOS
  | other
  deriving DecidableEq, Repr

/-- `vmPageSize`. -/
def Platform.vmPageSize : Platform → Nat
  | .iOS => 16 * 1024
  | .other => 4 * 1024

def alignment : Nat := 8
def superChunkSize : Nat := 32 * 1048576
def smallMax : Nat := 256
def smallLineSize : Nat := 512
def smallChunkSize : Nat := superChunkSize / 4
def smallChunkOffset : Nat := superChunkSize * 3 / 4
def mediumMax : Nat := 1024
def mediumLineSize : Nat := 2048
def mediumChunkSize : Nat := superChunkSize / 4
def mediumChunkOffset : Nat := superChunkSize * 2 / 4
def largeChunkSize : Nat := superChunkSize / 2
def largeChunkOffset : Nat := 0
def largeAlignment : Nat := 64
def largeMax : Nat := largeChunkSize * 99 / 100
def largeMin : Nat := 1024
def segregatedFreeListSearchDepth : Nat := 16
def deallocatorLogCapacity : Nat := 256
def smallLineCacheCapacity : Nat := 16
def mediumLineCacheCapacity : Nat := 8
def smallAllocatorLogCapacity : Nat := 16
def mediumAllocatorLogCapacity : Nat := 8

/-- The number of small size classes, `smallMax / alignment`. -/
def smallSizeClasses : Nat := smallMax / alignment

/-- `smallSizeClassFor`: the mask keeps the low five bits. -/
def smallSizeClassFor (size : Nat) : Nat := (size - 1) / alignment % smallSizeClasses

/-- `roundUpToMultipleOf`. -/
def roundUp (divisor x : Nat) : Nat := (x + (divisor - 1)) / divisor * divisor

/-- `roundDownToMultipleOf`. -/
def roundDown (divisor x : Nat) : Nat := x / divisor * divisor

end WebKit.Bmalloc
