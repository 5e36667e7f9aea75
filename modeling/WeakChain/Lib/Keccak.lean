import Mathlib.Data.List.Basic

/-!
# Keccak-256

The sponge with the permutation `keccakF1600`, the rate of 136 bytes and the original padding
(`0x01 … 0x80`).  A state is a list of 25 lanes; lane `x + 5 * y` is in column `x` and row `y`.
-/

namespace WeakChain

namespace Sponge

/-- Rotate a lane to the left. -/
def rotl (x n : UInt64) : UInt64 := (x <<< n) ||| (x >>> (64 - n))

/-- The round constants. -/
def roundConstants : List UInt64 :=
  [0x0000000000000001, 0x0000000000008082, 0x800000000000808a, 0x8000000080008000,
    0x000000000000808b, 0x0000000080000001, 0x8000000080008081, 0x8000000000008009,
    0x000000000000008a, 0x0000000000000088, 0x0000000080008009, 0x000000008000000a,
    0x000000008000808b, 0x800000000000008b, 0x8000000000008089, 0x8000000000008003,
    0x8000000000008002, 0x8000000000000080, 0x000000000000800a, 0x800000008000000a,
    0x8000000080008081, 0x8000000000008080, 0x0000000080000001, 0x8000000080008008]

/-- The rotation offsets, by lane. -/
def offsets : List UInt64 :=
  [0, 1, 62, 28, 27, 36, 44, 6, 55, 20, 3, 10, 43, 25, 39, 41, 45, 15, 21, 8, 18, 2, 61, 56, 14]

/-- A state from its lanes. -/
def lanes (f : ℕ → ℕ → UInt64) : List UInt64 := (List.range 25).map fun i => f (i % 5) (i / 5)

/-- The lane in column `x` and row `y`. -/
def lane (a : List UInt64) (x y : ℕ) : UInt64 := a.getD (x % 5 + 5 * (y % 5)) 0

/-- Add to every lane the parities of two columns. -/
def theta (a : List UInt64) : List UInt64 :=
  let c := (List.range 5).map fun x =>
    lane a x 0 ^^^ lane a x 1 ^^^ lane a x 2 ^^^ lane a x 3 ^^^ lane a x 4
  let d := (List.range 5).map fun x => c.getD ((x + 4) % 5) 0 ^^^ rotl (c.getD ((x + 1) % 5) 0) 1
  lanes fun x y => lane a x y ^^^ d.getD x 0

/-- Rotate the lanes and move them around. -/
def rhoPi (a : List UInt64) : List UInt64 :=
  let r := lanes fun x y => rotl (lane a x y) (lane offsets x y)
  lanes fun x y => lane r (x + 3 * y) x

/-- The non-linear step. -/
def chi (a : List UInt64) : List UInt64 :=
  lanes fun x y => lane a x y ^^^ (~~~lane a (x + 1) y &&& lane a (x + 2) y)

/-- Break the symmetry. -/
def iota (rc : UInt64) (a : List UInt64) : List UInt64 :=
  lanes fun x y => if x = 0 ∧ y = 0 then lane a 0 0 ^^^ rc else lane a x y

/-- The permutation. -/
def keccakF1600 (a : List UInt64) : List UInt64 :=
  roundConstants.foldl (fun a rc => iota rc (chi (rhoPi (theta a)))) a

/-- Eight bytes as a lane, lowest first. -/
def ofBytes (bs : List UInt8) : UInt64 := bs.foldr (fun b n => n <<< 8 ||| b.toUInt64) 0

/-- A lane as eight bytes. -/
def toBytes (x : UInt64) : List UInt8 :=
  (List.range 8).map fun i => (x >>> (8 * UInt64.ofNat i)).toUInt8

/-- Pad to a multiple of the rate. -/
def pad (bs : List UInt8) : List UInt8 :=
  let n := 136 - bs.length % 136
  if n = 1 then bs ++ [0x81] else bs ++ 0x01 :: List.replicate (n - 2) 0 ++ [0x80]

/-- Take in a block. -/
def absorb (a : List UInt64) (block : List UInt8) : List UInt64 :=
  keccakF1600 (lanes fun x y =>
    let i := x + 5 * y
    if i < 17 then lane a x y ^^^ ofBytes ((block.drop (8 * i)).take 8) else lane a x y)

/-- Take in `n` blocks. -/
def absorbAll : ℕ → List UInt64 → List UInt8 → List UInt64
  | 0, a, _ => a
  | n + 1, a, bs => absorbAll n (absorb a (bs.take 136)) (bs.drop 136)

/-- The hash: the first four lanes after the last block. -/
def keccak256 (bs : List UInt8) : List UInt8 :=
  let p := pad bs
  let a := absorbAll (p.length / 136) (List.replicate 25 0) p
  (List.range 4).flatMap fun i => toBytes (lane a i 0)

theorem length_keccak256 (bs : List UInt8) : (keccak256 bs).length = 32 := by
  simp [keccak256, toBytes]

end Sponge

end WeakChain
