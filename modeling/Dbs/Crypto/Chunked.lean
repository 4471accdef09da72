/-
  File:      Dbs/Crypto/Chunked.lean
  Subject:   KEYS AND CHUNKS (crypto/kdf.py, crypto/chunked.py): the limits of the key derivation, the
             wrapped data key, and one chunk sealed under its index and its final flag.

  * `KDFParams.validate`, `validateUntrusted`, `deriveKey`;
  * `chunkNonce`, `ChunkCipher.seal`, `ChunkCipher.open`; `chunkNonce_inj` -- the nonce tells the
    index and the flag apart;
  * `wrapKey`, `unwrapKey`; `unwrapKey_wrapKey` -- the key comes back.
-/
import Dbs.Primitives
import Dbs.Lib.Struct

namespace Dbs

open Octets

/-! ## 1. Key derivation -/

/-- An AES-256 key. -/
def keyLength : Nat := 32

/-- The salt of a key derivation. -/
def saltLength : Nat := 16

/-- Most passes over the memory. -/
def maxTimeCost : Nat := 16

/-- 1 GiB, in KiB. -/
def maxMemoryCost : Nat := 1024 * 1024

/-- Most lanes. -/
def maxParallelism : Nat := 16

/-- The shortest derived key. -/
def minKeyLength : Nat := 16

/-- The longest derived key. -/
def maxKeyLength : Nat := 64

/-- Most passes a file may ask for. -/
def untrustedMaxTimeCost : Nat := 10

/-- 256 MiB, in KiB. -/
def untrustedMaxMemoryCost : Nat := 256 * 1024

/-- Most lanes a file may ask for. -/
def untrustedMaxParallelism : Nat := 16

/-- The costs of one key derivation, with their defaults. -/
structure KDFParams where
  timeCost : Nat := 3
  memoryCost : Nat := 64 * 1024
  parallelism : Nat := 4
  keyLength : Nat := 32

namespace KDFParams

variable (p : KDFParams)

/-- Every parameter with its range and its name. -/
def checks : List (Nat × Nat × Nat × String) :=
  [(p.timeCost, 1, maxTimeCost, "time_cost"),
   (p.memoryCost, 8, maxMemoryCost, "memory_cost"),
   (p.parallelism, 1, maxParallelism, "parallelism"),
   (p.keyLength, minKeyLength, maxKeyLength, "key_length")]

/-- One check of `validate`. -/
def inRange : Nat × Nat × Nat × String → Except Raised Unit
  | (value, lower, upper, name) =>
    if lower ≤ value ∧ value ≤ upper then .ok ()
    else .error (.cryptoError (s!"KDF parameter {name}={value} is outside the accepted " ++
      s!"range [{lower}, {upper}]."))

/-- The limits every derivation keeps. -/
def validate : Except Raised Unit := p.checks.forM inRange

/-- What a backup file may ask for at most. -/
def ceilings : List (Nat × Nat × String) :=
  [(p.timeCost, untrustedMaxTimeCost, "time_cost"),
   (p.memoryCost, untrustedMaxMemoryCost, "memory_cost"),
   (p.parallelism, untrustedMaxParallelism, "parallelism")]

/-- One check of `validate_untrusted`. -/
def underCeiling : Nat × Nat × String → Except Raised Unit
  | (value, ceiling, name) =>
    if ceiling < value then
      .error (.cryptoError (s!"KDF parameter {name}={value} exceeds {ceiling}, the most a " ++
        "backup file may ask for."))
    else .ok ()

/-- The stricter limits, for parameters read from a file. -/
def validateUntrusted : Except Raised Unit := do
  p.validate
  p.ceilings.forM underCeiling
  if p.memoryCost < 8 * p.parallelism then
    .error (.cryptoError (s!"KDF memory_cost={p.memoryCost} is below 8 KiB per lane " ++
      s!"for parallelism={p.parallelism}."))
  if p.keyLength ≠ Dbs.keyLength then
    .error (.cryptoError s!"KDF key_length must be {Dbs.keyLength} for AES-256.")

theorem forM_ok {α : Type} {f : α → Except Raised Unit} {l : List α} :
    l.forM f = .ok () ↔ ∀ x ∈ l, f x = .ok () := by
  induction l with
  | nil => simp [List.forM, pure, Except.pure]
  | cons x l ih =>
    rw [List.forall_mem_cons, ← ih, List.forM]
    cases f x <;> simp [bind, Except.bind]

/-- What passing the stricter check says. -/
theorem validateUntrusted_ok {p : KDFParams} (h : p.validateUntrusted = .ok ()) :
    p.validate = .ok () ∧ p.timeCost ≤ 10 ∧ p.memoryCost ≤ 262144 ∧ p.parallelism ≤ 16 ∧
      p.keyLength = 32 := by
  unfold validateUntrusted at h
  cases hv : p.validate with
  | error e => rw [hv] at h; cases h
  | ok u =>
    cases hc : p.ceilings.forM underCeiling with
    | error e => rw [hv, hc] at h; cases h
    | ok u' =>
      have hle : ∀ x ∈ p.ceilings, x.1 ≤ x.2.1 := fun x hx => by
        obtain ⟨value, ceiling, name⟩ := x
        have hx' : underCeiling (value, ceiling, name) = .ok () := forM_ok.mp hc _ hx
        by_contra hlt
        rw [underCeiling, if_pos (Nat.lt_of_not_le hlt)] at hx'
        cases hx'
      simp only [ceilings, List.forall_mem_cons, untrustedMaxTimeCost,
        untrustedMaxMemoryCost, untrustedMaxParallelism] at hle
      rw [hv, hc] at h
      by_cases h4 : p.memoryCost < 8 * p.parallelism
      · simp [bind, Except.bind, h4] at h
      by_cases h5 : p.keyLength ≠ 32
      · simp [bind, Except.bind, h4, h5, Dbs.keyLength] at h
      exact ⟨rfl, hle.1, hle.2.1, hle.2.2.1, by omega⟩

end KDFParams

variable (P : Primitives)

/-- Argon2id over the passphrase, once the parameters pass. -/
def deriveKey (passphrase salt : Bytes) (params : KDFParams) : Except Raised Bytes := do
  params.validate
  return P.argon2id passphrase salt params.timeCost params.memoryCost params.parallelism
    params.keyLength

/-! ## 2. Chunks -/

/-- A nonce of AES-GCM. -/
def nonceLength : Nat := 12

/-- The random part of a nonce. -/
def noncePrefixLength : Nat := 7

/-- A data key and its tag. -/
def wrappedKeyLength : Nat := 48

/-- `>IB`: the chunk's index and its final flag. -/
def counter : Struct.Format := [.uint 4, .uint 1]

/-- The index check of the source bounds the index below 2^32; every caller stays below it. -/
def chunkNonce (noncePrefix : Bytes) (index : Nat) (final : Bool) : Bytes :=
  noncePrefix ++ Struct.pack counter (index, if final then 1 else 0, ())

theorem chunkNonce_inj {p q : Bytes} {i j : Nat} {f g : Bool} (hpq : p.length = q.length)
    (hi : i < 2 ^ 32) (hj : j < 2 ^ 32) (h : chunkNonce p i f = chunkNonce q j g) :
    i = j ∧ f = g := by
  have hv := (List.append_inj h hpq).2
  have hfit : ∀ n b, n < 2 ^ 32 → Struct.Fits counter (n, (if b = true then 1 else 0), ()) := by
    intro n b hn
    refine ⟨hn, ?_, trivial⟩
    split <;> decide
  have he := Struct.pack_inj (hfit i f hi) (hfit j g hj) hv
  obtain ⟨h1, h2⟩ := Prod.mk.inj he
  refine ⟨h1, ?_⟩
  have h3 := (Prod.mk.inj h2).1
  cases f <;> cases g <;> simp_all

/-- What every chunk of one container shares. -/
structure ChunkCipher where
  key : Bytes
  noncePrefix : Bytes
  associatedData : Bytes

namespace ChunkCipher

variable (c : ChunkCipher)

/-- Encrypts one chunk. -/
def «seal» (index : Nat) (plaintext : Bytes) (final : Bool) : Bytes :=
  P.encrypt c.key (chunkNonce c.noncePrefix index final) c.associatedData plaintext

/-- Decrypts one chunk, or says that it was changed. -/
def «open» (index : Nat) (ciphertext : Bytes) (final : Bool) : Except Raised Bytes :=
  match P.decrypt c.key (chunkNonce c.noncePrefix index final) c.associatedData ciphertext with
  | some plaintext => .ok plaintext
  | none => .error (.corruptionError (s!"Chunk {index} failed authentication: the backup was " ++
      "altered, reordered or cut short."))

theorem seal_length (index : Nat) (plaintext : Bytes) (final : Bool) :
    (c.seal P index plaintext final).length = plaintext.length + 16 := P.encrypt_length _ _ _ _

theorem open_ok {c : ChunkCipher} {index : Nat} {ciphertext plaintext : Bytes} {final : Bool} :
    c.open P index ciphertext final = .ok plaintext ↔
      P.decrypt c.key (chunkNonce c.noncePrefix index final) c.associatedData ciphertext =
        some plaintext := by
  unfold ChunkCipher.open
  split <;> simp_all

theorem open_seal (h : P.OpensWhatItSeals) (index : Nat) (plaintext : Bytes) (final : Bool) :
    c.open P index (c.seal P index plaintext final) final = .ok plaintext :=
  (open_ok P).mpr (h _ _ _ _)

end ChunkCipher

/-! ## 3. The wrapped data key -/

/-- Keeps a wrapped key apart from a chunk. -/
def wrapLabel : Bytes := ascii "dbs/v2/key-wrap\x00"

/-- The wrapped key under a nonce the caller drew. -/
def wrapKey (kek nonce dek associatedData : Bytes) : Bytes :=
  P.encrypt kek nonce (wrapLabel ++ associatedData) dek

/-- Opens the wrapped key. -/
def unwrapKey (kek nonce wrapped associatedData : Bytes) : Except Raised Bytes :=
  match P.decrypt kek nonce (wrapLabel ++ associatedData) wrapped with
  | none => .error (.invalidPassphrase
      "Could not unwrap the data key: wrong passphrase or tampered key material.")
  | some dek =>
    if dek.length ≠ keyLength then
      .error (.invalidPassphrase "The unwrapped data key has the wrong length.")
    else .ok dek

theorem unwrapKey_wrapKey (h : P.OpensWhatItSeals) (kek nonce ad : Bytes) {dek : Bytes}
    (hd : dek.length = keyLength) :
    unwrapKey P kek nonce (wrapKey P kek nonce dek ad) ad = .ok dek := by
  rw [unwrapKey, wrapKey, h]
  simp [hd]

end Dbs
