/-
  File:      Dbs/Lib/Base32.lean
  Subject:   BASE32 with padding: eight characters for five bytes.

  * `value` -- the alphabet;
  * `decode` -- it counts the padding and refuses what is no text of the encoding.
-/
import Dbs.Lib.Octets
import Mathlib.Data.List.DropRight

namespace Base32

open Octets

/-! ## 1. The alphabet -/

def pad : Char := '='

def value (c : Char) : Option Nat :=
  if 65 ≤ c.toNat ∧ c.toNat ≤ 90 then some (c.toNat - 65)
  else if 50 ≤ c.toNat ∧ c.toNat ≤ 55 then some (c.toNat - 24)
  else none

/-! ## 2. The decoding -/

def ofDigits (ds : List Nat) : Nat := ds.foldl (fun n d => n * 32 + d) 0

/-- Five bytes for every eight digits. -/
def bytes : List Nat → Bytes
  | a :: b :: c :: d :: e :: f :: g :: h :: rest =>
    toBe 5 (ofDigits [a, b, c, d, e, f, g, h]) ++ bytes rest
  | _ => []

/-- What is missing of the last group counts as zeros, and their bytes are cut off. -/
def decode (text : List Char) : Option Bytes :=
  if text.length % 8 ≠ 0 then none
  else
    let body := text.rdropWhile (· = pad)
    let pads := text.length - body.length
    (body.mapM value).bind fun ds =>
      if pads ∈ [0, 1, 3, 4, 6] then
        let decoded := bytes (ds ++ List.replicate pads 0)
        some (decoded.take (decoded.length - (5 - (43 - 5 * pads) / 8)))
      else none

end Base32
