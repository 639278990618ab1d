import Mathlib

/-!
# Reading the host's GPU memory

The probe is an external command whose output is parsed here; how long it may
run is the one fact about it that other parts of the broker rely on. Instants
and durations count nanoseconds.
-/

namespace AivyxBroker.Gpu

/-- A duration in milliseconds. -/
def millis (n : ℕ) : ℕ := n*1000000

/-- The host's VRAM as the broker reports it. -/
structure Vram where
  /-- Memory of all GPUs. -/
  totalBytes : UInt64
  /-- The part in use. -/
  usedBytes : UInt64
  deriving DecidableEq

/-- How long `nvidia-smi` may run before it is killed. -/
def nvidiaSmiTimeout : ℕ := millis 2000

end AivyxBroker.Gpu
