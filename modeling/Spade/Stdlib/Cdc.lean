import Spade.Lib.GrayCode

/-!
# The synchronizers of the standard library

The entities `sync2` and `sync2_bool` of `cdc.spade`, and the functions of `ops.spade` that
`sync_uint_counter` uses around `sync2`.
-/

namespace Spade.Stdlib

/-- The registers of `sync2`. -/
structure Sync2 (T : Type) where
  sync1 : T
  sync2 : T

namespace Sync2

variable {T : Type}

/-- What the registers hold after an edge at which the input was sampled as `input`. -/
def edge (s : Sync2 T) (input : T) : Sync2 T where
  sync1 := input
  sync2 := s.sync1

def output (s : Sync2 T) : T := s.sync2

/-- Both registers hold what the input carries. -/
def Shows (s : Sync2 T) (input : T) : Prop := s.sync1 = input ∧ s.sync2 = input

end Sync2

/-- `sync2_bool`. -/
abbrev Sync2Bool : Type := Sync2 Bool

def binToGray {N : ℕ} (x : BitVec N) : BitVec N := GrayCode.encode x

def grayToBin {N : ℕ} (x : BitVec N) : BitVec N := GrayCode.decode x

end Spade.Stdlib
