/-
  File:      Dbs/Primitives.lean
  Subject:   WHAT THE PROGRAM TAKES FROM OUTSIDE: hash functions, authenticated encryption, the key
             derivation and the Reed-Solomon decoder, as parameters; and what the program raises.

  * `Primitives` -- the functions, with the output sizes their documentation fixes;
  * `Primitives.OpensWhatItSeals` -- the AEAD's round trip; `SealedOnly` -- the ideal AEAD: nothing
    but what was sealed opens;
  * `Raised` -- the exceptions, each with its message;
  * `Primitives.plain` -- an instance of them all; `idealised` -- over any instance that opens what it
    seals, an ideal AEAD under one key.
-/
import Dbs.Container.Repair
import Mathlib.Data.UInt

namespace Dbs

open Octets

/-- The text's characters as bytes (the source's byte literals are ASCII). -/
def ascii (text : String) : Bytes := text.toList.map fun c => UInt8.ofNat c.toNat

inductive Raised
  | containerError (message : String)
  | corruptionError (message : String)
  | cryptoError (message : String)
  | invalidPassphrase (message : String)
  | valueError (message : String)
  | sinkError
deriving DecidableEq, Repr

/-- `blake2b(data, digest_size, key, person)`, `sha256`, AES-GCM, Argon2id, `reedsolo`, and the
    recognition of other container formats. -/
structure Primitives where
  blake2b : (digestSize : Nat) → (key person data : Bytes) → Bytes
  blake2b_length : ∀ n key person data, (blake2b n key person data).length = n
  sha256 : Bytes → Bytes
  sha256_length : ∀ data, (sha256 data).length = 32
  encrypt : (key nonce associatedData plaintext : Bytes) → Bytes
  encrypt_length : ∀ key nonce ad plaintext, (encrypt key nonce ad plaintext).length =
    plaintext.length + 16
  decrypt : (key nonce associatedData ciphertext : Bytes) → Option Bytes
  argon2id : (secret salt : Bytes) → (timeCost memoryCost parallelism hashLen : Nat) → Bytes
  codec : Rs.Codec
  /-- The version of the first readable header of any format (container/format.py,
      `first_verified_header`); a reader that finds no header of its own asks it for the text of its
      error. -/
  firstVerifiedVersion : Bytes → Option Nat

namespace Primitives

variable (P : Primitives)

/-- AES-GCM opens what it sealed. -/
def OpensWhatItSeals : Prop :=
  ∀ key nonce ad plaintext, P.decrypt key nonce ad (P.encrypt key nonce ad plaintext) =
    some plaintext

/-- **The ideal AEAD**: under `key` exactly the ciphertexts that were sealed open, each under the
    nonce and the associated data it was sealed with. -/
def SealedOnly (key : Bytes) (sealedOnes : List (Bytes × Bytes × Bytes)) : Prop :=
  ∀ nonce ad ciphertext plaintext, P.decrypt key nonce ad ciphertext = some plaintext ↔
    (nonce, ad, plaintext) ∈ sealedOnes ∧ ciphertext = P.encrypt key nonce ad plaintext

/-- An instance in the plain: sixteen zeros stand for an authentication tag, a hash shows its person and
    the sum of its data, and the decoder is one of bounded distance. -/
noncomputable def plain : Primitives where
  blake2b n _ person data := (UInt8.ofNat person.length :: List.replicate n data.sum).take n
  blake2b_length n _ person data := by simp
  sha256 _ := zeros 32
  sha256_length _ := zeros_length 32
  encrypt _ _ _ plaintext := plaintext ++ zeros 16
  encrypt_length _ _ _ plaintext := by rw [List.length_append, zeros_length]
  decrypt _ _ _ ciphertext :=
    if ciphertext.drop (ciphertext.length - 16) = zeros 16 then
      some (ciphertext.take (ciphertext.length - 16))
    else none
  argon2id _ _ _ _ _ hashLen := zeros hashLen
  codec := Rs.exists_boundedDistance_codec.choose
  firstVerifiedVersion _ := none

theorem plain_opens : plain.OpensWhatItSeals := by
  intro key nonce ad plaintext
  have hl : (plaintext ++ zeros 16).length - 16 = plaintext.length := by
    rw [List.length_append, zeros_length, Nat.add_sub_cancel]
  show (if (plaintext ++ zeros 16).drop ((plaintext ++ zeros 16).length - 16) = zeros 16 then
    some ((plaintext ++ zeros 16).take ((plaintext ++ zeros 16).length - 16)) else none) = _
  rw [hl, List.drop_left, List.take_left, if_pos rfl]

theorem plain_boundedDistance : plain.codec.BoundedDistance :=
  Rs.exists_boundedDistance_codec.choose_spec

/-- The same functions, but under `key` only `sealedOnes` open. -/
def idealised (key : Bytes) (sealedOnes : List (Bytes × Bytes × Bytes)) : Primitives :=
  { P with
    decrypt := fun k nonce ad ciphertext =>
      if k = key then (P.decrypt key nonce ad ciphertext).filter fun plaintext =>
        decide ((nonce, ad, plaintext) ∈ sealedOnes ∧ ciphertext = P.encrypt key nonce ad plaintext)
      else P.decrypt k nonce ad ciphertext }

theorem idealised_decrypt_of_ne (key : Bytes) (sealedOnes : List (Bytes × Bytes × Bytes))
    {k : Bytes} (h : k ≠ key) (nonce ad ciphertext : Bytes) :
    (P.idealised key sealedOnes).decrypt k nonce ad ciphertext =
      P.decrypt k nonce ad ciphertext := if_neg h

theorem idealised_sealedOnly_of_opens {key : Bytes}
    (h : ∀ nonce ad plaintext,
    P.decrypt key nonce ad (P.encrypt key nonce ad plaintext) = some plaintext)
    (sealedOnes : List (Bytes × Bytes × Bytes)) :
    (P.idealised key sealedOnes).SealedOnly key sealedOnes := by
  intro nonce ad ciphertext plaintext
  show (if key = key then (P.decrypt key nonce ad ciphertext).filter fun plaintext =>
    decide ((nonce, ad, plaintext) ∈ sealedOnes ∧ ciphertext = P.encrypt key nonce ad plaintext)
    else P.decrypt key nonce ad ciphertext) = some plaintext ↔
      (nonce, ad, plaintext) ∈ sealedOnes ∧ ciphertext = P.encrypt key nonce ad plaintext
  rw [if_pos rfl, Option.filter_eq_some_iff, decide_eq_true_iff]
  refine ⟨fun hd => hd.2, fun hd => ⟨?_, hd⟩⟩
  rw [hd.2, h]

/-- **The idealised functions are an ideal AEAD** under the key. -/
theorem idealised_sealedOnly (h : P.OpensWhatItSeals) (key : Bytes)
    (sealedOnes : List (Bytes × Bytes × Bytes)) :
    (P.idealised key sealedOnes).SealedOnly key sealedOnes :=
  P.idealised_sealedOnly_of_opens (h key) sealedOnes

/-- Other keys stay ideal. -/
theorem SealedOnly.idealised {P : Primitives} {k : Bytes} {l : List (Bytes × Bytes × Bytes)}
    (hs : P.SealedOnly k l) {key : Bytes} (h : k ≠ key) (sealedOnes : List (Bytes × Bytes × Bytes)) :
    (P.idealised key sealedOnes).SealedOnly k l := by
  intro nonce ad ciphertext plaintext
  rw [idealised_decrypt_of_ne P key sealedOnes h]
  exact hs nonce ad ciphertext plaintext

end Primitives

end Dbs
