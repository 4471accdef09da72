/-
  File:      Dbs/Lib/Addresses.lean
  Subject:   INTERNET ADDRESSES AND NETWORKS as Python's `ipaddress` reads and writes them.

  An IPv4-mapped address is written like any other IPv6 address, as Python does before 3.13.

  * `ipAddress` -- `ip_address(text)`; nothing where it raises;
  * `Address.text` -- `str(address)`;
  * `ipNetwork` -- `ip_network(text, strict=False)`;
  * `Network.contains` -- `address in network`; `version_of_contains` -- never across the versions.
-/
import Mathlib.Data.List.Basic
import Mathlib.Algebra.Group.Nat.Defs

namespace Addresses

abbrev Text := List Char

/-- `scope`: the zone behind `%`. -/
inductive Address
  | v4 (ip : BitVec 32)
  | v6 (ip : BitVec 128) (scope : Option Text)

inductive Network
  | v4 (address : BitVec 32) (prefixlen : Fin 33)
  | v6 (address : BitVec 128) (prefixlen : Fin 129)

inductive Version
  | four
  | six
deriving DecidableEq

def Address.version : Address → Version
  | v4 _ => .four
  | v6 _ _ => .six

def Network.version : Network → Version
  | v4 _ _ => .four
  | v6 _ _ => .six

/-! ## 1. Addresses -/

/-- `str.join`. -/
def join (separator : Text) (parts : List Text) : Text := separator.intercalate parts

def decimal (t : Text) : Nat := Nat.ofDigitChars 10 t 0

/-- `_parse_octet`; no zero in front. -/
def parseOctet (t : Text) : Option Nat :=
  if t ≠ [] ∧ t.all Char.isDigit ∧ t.length ≤ 3 ∧ (t = ['0'] ∨ t.head? ≠ some '0') ∧
    decimal t ≤ 255 then
    some (decimal t)
  else none

def ipv4Address (t : Text) : Option (BitVec 32) :=
  match (t.splitOn '.').mapM parseOctet with
  | some [a, b, c, d] => some (BitVec.ofNat 32 (((a * 256 + b) * 256 + c) * 256 + d))
  | _ => none

def hexValue (c : Char) : Option Nat :=
  if c.isDigit then some (c.toNat - '0'.toNat)
  else if 'a' ≤ c ∧ c ≤ 'f' then some (c.toNat - 'a'.toNat + 10)
  else if 'A' ≤ c ∧ c ≤ 'F' then some (c.toNat - 'A'.toNat + 10)
  else none

def parseHextet (t : Text) : Option Nat :=
  if t ≠ [] ∧ t.length ≤ 4 then
    (t.mapM hexValue).map fun digits => digits.foldl (fun n digit => n * 16 + digit) 0
  else none

/-- `fe80::1%eth0` -/
def splitScope (t : Text) : Option (Text × Option Text) :=
  match t.span (· ≠ '%') with
  | (address, []) => some (address, none)
  | (address, _ :: scope) => if scope = [] ∨ '%' ∈ scope then none else some (address, some scope)

/-- The last 32 bits may be written as an IPv4 address. -/
def withoutEmbedded (parts : List Text) : Option (List Text) :=
  match parts.getLast? with
  | none => none
  | some last =>
    if '.' ∈ last then
      (ipv4Address last).map fun ip =>
        parts.dropLast ++ [Nat.toDigits 16 (ip.toNat / 65536), Nat.toDigits 16 (ip.toNat % 65536)]
    else some parts

/-- The places of `::`, an empty part that is neither the first nor the last. -/
def skips (parts : List Text) : List Nat :=
  (List.range parts.length).filter fun i => 1 ≤ i && i + 1 < parts.length && parts[i]? == some []

/-- A colon at the very beginning or end belongs to `::`. -/
def outer (parts : List Text) : List Text := if parts = [[]] then [] else parts

def hextets (parts : List Text) : Option (List Nat) :=
  match skips parts with
  | [] => if parts.length = 8 then parts.mapM parseHextet else none
  | [skip] => do
    let hi ← (outer (parts.take skip)).mapM parseHextet
    let lo ← (outer (parts.drop (skip + 1))).mapM parseHextet
    if hi.length + lo.length < 8 then
      some (hi ++ List.replicate (8 - (hi.length + lo.length)) 0 ++ lo)
    else none
  | _ => none

def ipv6Address (t : Text) : Option (BitVec 128 × Option Text) :=
  if '/' ∈ t then none
  else do
    let (address, scope) ← splitScope t
    let parts := address.splitOn ':'
    if parts.length < 3 then none
    else
      let parts ← withoutEmbedded parts
      if parts.length ≤ 9 then
        let numbers ← hextets parts
        some (BitVec.ofNat 128 (numbers.foldl (fun n part => n * 65536 + part) 0), scope)
      else none

def ipAddress (t : Text) : Option Address :=
  match ipv4Address t with
  | some ip => some (.v4 ip)
  | none => (ipv6Address t).map fun found => .v6 found.1 found.2

/-! ## 2. Their texts -/

def octets (ip : BitVec 32) : List Nat :=
  [ip.toNat / 16777216, ip.toNat / 65536 % 256, ip.toNat / 256 % 256, ip.toNat % 256]

def groups (ip : BitVec 128) : List Nat :=
  (List.range 8).map fun i => ip.toNat / 65536 ^ (7 - i) % 65536

/-- How many groups from this one on are zero. -/
def zerosFrom (groups : List Nat) (i : Nat) : Nat := ((groups.drop i).takeWhile (· = 0)).length

/-- Where the first of the longest runs of zeros begins. -/
def longestZeros (groups : List Nat) : Nat :=
  (List.range groups.length).foldl
    (fun best i => if zerosFrom groups best < zerosFrom groups i then i else best) 0

/-- `_compress_hextets` -/
def compressed (groups : List Nat) : Text :=
  let start := longestZeros groups
  let length := zerosFrom groups start
  let written := fun numbers => join [':'] (numbers.map fun n => Nat.toDigits 16 n)
  if 1 < length then written (groups.take start) ++ [':', ':'] ++ written (groups.drop (start + length))
  else written groups

/-- `str(address)` -/
def Address.text : Address → Text
  | v4 ip => join ['.'] ((octets ip).map fun n => Nat.toDigits 10 n)
  | v6 ip none => compressed (groups ip)
  | v6 ip (some scope) => compressed (groups ip) ++ '%' :: scope

/-! ## 3. Networks -/

def netmask (w n : Nat) : BitVec w := BitVec.allOnes w <<< (w - n)

/-- The length as a number. -/
def prefixOfText (longest : Nat) (t : Text) : Option (Fin (longest + 1)) :=
  if h : t ≠ [] ∧ t.all Char.isDigit ∧ decimal t < longest + 1 then some ⟨decimal t, h.2.2⟩ else none

/-- The length of a netmask. -/
def prefixOfMask (mask : BitVec 32) : Option (Fin 33) :=
  (List.finRange 33).find? fun n => netmask 32 n = mask

/-- A length, a netmask or a hostmask. -/
def ipv4Prefix (t : Text) : Option (Fin 33) :=
  prefixOfText 32 t <|> (ipv4Address t).bind fun mask => prefixOfMask mask <|> prefixOfMask (~~~mask)

def ipv4Network (address : Text) (mask : Option Text) : Option Network := do
  let ip ← ipv4Address address
  let n ← match mask with
    | some mask => ipv4Prefix mask
    | none => some 32
  some (.v4 (ip &&& netmask 32 n) n)

def ipv6Network (address : Text) (mask : Option Text) : Option Network := do
  let (ip, _) ← ipv6Address address
  let n ← match mask with
    | some mask => prefixOfText 128 mask
    | none => some 128
  some (.v6 (ip &&& netmask 128 n) n)

def ipNetwork (t : Text) : Option Network :=
  match t.splitOn '/' with
  | [address] => ipv4Network address none <|> ipv6Network address none
  | [address, mask] => ipv4Network address (some mask) <|> ipv6Network address (some mask)
  | _ => none

/-- `address in network` -/
def Network.contains : Network → Address → Bool
  | v4 address n, .v4 ip => ip &&& netmask 32 n == address
  | v6 address n, .v6 ip _ => ip &&& netmask 128 n == address
  | v4 _ _, .v6 _ _ => false
  | v6 _ _, .v4 _ => false

/-- **A network has addresses of its own version only.** -/
theorem version_of_contains {network : Network} {address : Address}
    (h : network.contains address = true) : address.version = network.version := by
  cases network <;> cases address <;> first | rfl | exact absurd h Bool.false_ne_true

example : (ipAddress "::ffff:10.0.0.1".toList).map Address.text = some "::ffff:a00:1".toList := by
  decide +kernel

end Addresses
