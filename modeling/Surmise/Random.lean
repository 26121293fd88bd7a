import Surmise.Number.Integer

/-! Streams of random numbers. -/

namespace Surmise

abbrev Randoms := Nat → Float

namespace Randoms

def nextSeed (seed : Nat) : Nat :=
  (seed * 6364136223846793005 + 1442695040888963407) % 18446744073709551616

/-- A stream of numbers from 0 to 1 that is always the same. -/
def standard : Randoms := fun n =>
  Number.ofNat (Nat.repeat nextSeed (n + 1) 0 / 2048) / 9007199254740992.0

def tail (randoms : Randoms) : Randoms := fun n => randoms (n + 1)

end Randoms
end Surmise
