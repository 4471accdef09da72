/-
  File:      Dbs/Lib/Base64.lean
  Subject:   BASE64 with padding: four characters for three bytes.

  * `digit`, `value` -- the alphabet, there and back;
  * `encode`, `decode` -- `decode` refuses what is no text of the encoding: another character, a length
    that is no multiple of four, padding that is not at the end;
  * `decode_encode` -- the round trip; `encode_append` -- whole groups in front;
  * `take_encode` -- a text cut behind a whole group is the text of the bytes cut.
-/
import Dbs.Lib.Octets

namespace Base64

open Octets

/-! ## 1. The alphabet -/

def digit (n : Nat) : UInt8 :=
  UInt8.ofNat (if n < 26 then 65 + n else if n < 52 then 71 + n else if n < 62 then n - 4
    else if n = 62 then 43 else 47)

def pad : UInt8 := 61

def value (c : UInt8) : Option Nat :=
  if 65 ≤ c ∧ c ≤ 90 then some (c.toNat - 65)
  else if 97 ≤ c ∧ c ≤ 122 then some (c.toNat - 71)
  else if 48 ≤ c ∧ c ≤ 57 then some (c.toNat + 4)
  else if c = 43 then some 62
  else if c = 47 then some 63
  else none

theorem value_digit : ∀ n < 64, value (digit n) = some n := by decide

theorem digit_ne_pad : ∀ n < 64, digit n ≠ pad := by decide

/-! ## 2. The encoding -/

/-- Four characters for a number of 24 bits. -/
def quad (n : Nat) : Bytes :=
  [digit (n / 2 ^ 18 % 64), digit (n / 2 ^ 12 % 64), digit (n / 64 % 64), digit (n % 64)]

def join (a b c : UInt8) : Nat := a.toNat * 2 ^ 16 + b.toNat * 2 ^ 8 + c.toNat

def encode : Bytes → Bytes
  | a :: b :: c :: rest => quad (join a b c) ++ encode rest
  | [a, b] => (quad (join a b 0)).take 3 ++ [pad]
  | [a] => (quad (join a 0 0)).take 2 ++ [pad, pad]
  | [] => []

def ofQuad (w x y z : Nat) : Bytes :=
  let n := w * 2 ^ 18 + x * 2 ^ 12 + y * 64 + z
  [UInt8.ofNat (n / 2 ^ 16), UInt8.ofNat (n / 2 ^ 8), UInt8.ofNat n]

/-- The last group, padded. -/
def decodeLast (a b c : UInt8) : Option Bytes := do
  if c = pad then return (ofQuad (← value a) (← value b) 0 0).take 1
  return (ofQuad (← value a) (← value b) (← value c) 0).take 2

def decode : Bytes → Option Bytes
  | [] => some []
  | a :: b :: c :: d :: rest =>
    if d = pad then if rest = [] then decodeLast a b c else none
    else do
      let group := ofQuad (← value a) (← value b) (← value c) (← value d)
      return group ++ (← decode rest)
  | _ => none

/-! ## 3. The round trip -/

theorem join_lt (a b c : UInt8) : join a b c < 2 ^ 24 := by
  have ha := a.toNat_lt
  have hb := b.toNat_lt
  have hc := c.toNat_lt
  unfold join
  omega

theorem ofQuad_join (a b c : UInt8) :
    ofQuad (join a b c / 2 ^ 18 % 64) (join a b c / 2 ^ 12 % 64) (join a b c / 64 % 64)
      (join a b c % 64) = [a, b, c] := by
  have hn := join_lt a b c
  have hb := b.toNat_lt
  have hc := c.toNat_lt
  have hsum : join a b c / 2 ^ 18 % 64 * 2 ^ 18 + join a b c / 2 ^ 12 % 64 * 2 ^ 12 +
      join a b c / 64 % 64 * 64 + join a b c % 64 = join a b c := by omega
  have h1 : join a b c / 2 ^ 16 = a.toNat := by unfold join; omega
  have h2 : join a b c / 2 ^ 8 % 256 = b.toNat := by unfold join; omega
  have h3 : join a b c % 256 = c.toNat := by unfold join; omega
  have hof : ∀ (n : Nat) (x : UInt8), n % 256 = x.toNat → UInt8.ofNat n = x := fun n x h =>
    UInt8.toNat_inj.mp (by rw [UInt8.toNat_ofNat', h])
  unfold ofQuad
  simp only [hsum]
  rw [hof _ a (by rw [h1]; exact Nat.mod_eq_of_lt a.toNat_lt), hof _ b h2, hof _ c h3]

theorem digit_mod_ne_pad (n : Nat) : digit (n % 64) ≠ pad := digit_ne_pad _ (Nat.mod_lt _ (by decide))

theorem value_digit_mod (n : Nat) : value (digit (n % 64)) = some (n % 64) :=
  value_digit _ (Nat.mod_lt _ (by decide))

theorem decode_quad (n : Nat) (rest : Bytes) : decode (quad n ++ rest) = (decode rest).map fun data =>
    ofQuad (n / 2 ^ 18 % 64) (n / 2 ^ 12 % 64) (n / 64 % 64) (n % 64) ++ data := by
  show (if digit (n % 64) = pad then _ else _) = _
  rw [if_neg (digit_mod_ne_pad n), value_digit_mod, value_digit_mod, value_digit_mod, value_digit_mod]
  show (do
    let data ← decode rest
    some (_ ++ data)) = _
  cases decode rest <;> rfl

/-- **What was encoded is decoded.** -/
theorem decode_encode (data : Bytes) : decode (encode data) = some data := by
  induction data using encode.induct with
  | case1 a b c rest ih =>
    rw [encode, decode_quad, ih, Option.map_some, ofQuad_join]
    rfl
  | case2 a b =>
    have hlast : join a b 0 % 64 = 0 := by
      have := join_lt a b 0
      unfold join
      have h0 : (0 : UInt8).toNat = 0 := rfl
      omega
    show (if pad = pad then if _ then _ else _ else _) = _
    rw [if_pos rfl, if_pos rfl, decodeLast, if_neg (digit_mod_ne_pad _), value_digit_mod,
      value_digit_mod, value_digit_mod]
    have hgroup := ofQuad_join a b 0
    rw [hlast] at hgroup
    exact congrArg (fun l => some (l.take 2)) hgroup
  | case3 a =>
    have hlast : join a 0 0 % 64 = 0 ∧ join a 0 0 / 64 % 64 = 0 := by
      unfold join
      have h0 : (0 : UInt8).toNat = 0 := rfl
      omega
    show (if pad = pad then if _ then _ else _ else _) = _
    rw [if_pos rfl, if_pos rfl, decodeLast, if_pos rfl, value_digit_mod, value_digit_mod]
    have hgroup := ofQuad_join a 0 0
    rw [hlast.1, hlast.2] at hgroup
    exact congrArg (fun l => some (l.take 1)) hgroup
  | case4 => rfl

/-- What holds of the alphabet and of the padding holds of a text. -/
theorem forall_encode {P : UInt8 → Prop} (hdigit : ∀ n < 64, P (digit n)) (hpad : P pad)
    (data : Bytes) : ∀ c ∈ encode data, P c := by
  have hquad : ∀ n, ∀ c ∈ quad n, P c := by
    intro n c hc
    simp only [quad, List.mem_cons, List.not_mem_nil, or_false] at hc
    rcases hc with rfl | rfl | rfl | rfl
    all_goals exact hdigit _ (Nat.mod_lt _ (by decide))
  induction data using encode.induct with
  | case1 a b c rest ih =>
    intro d hd
    rw [encode, List.mem_append] at hd
    rcases hd with hd | hd
    · exact hquad _ d hd
    · exact ih d hd
  | case2 a b =>
    intro d hd
    rw [encode, List.mem_append, List.mem_singleton] at hd
    rcases hd with hd | rfl
    · exact hquad _ d (List.mem_of_mem_take hd)
    · exact hpad
  | case3 a =>
    intro d hd
    rw [encode, List.mem_append, List.mem_cons, List.mem_singleton] at hd
    rcases hd with hd | rfl | rfl
    · exact hquad _ d (List.mem_of_mem_take hd)
    · exact hpad
    · exact hpad
  | case4 => exact fun d hd => absurd hd List.not_mem_nil

/-! ## 4. Texts cut short -/

@[simp] theorem quad_length (n : Nat) : (quad n).length = 4 := rfl

theorem exists_group {front : Bytes} {groups : Nat} (h : front.length = 3 * (groups + 1)) :
    ∃ a b c more, front = a :: b :: c :: more ∧ more.length = 3 * groups := by
  match front, h with
  | a :: b :: c :: more, h =>
    simp only [List.length_cons] at h
    exact ⟨a, b, c, more, rfl, by omega⟩

theorem encode_append {front : Bytes} {groups : Nat} (h : front.length = 3 * groups) (rest : Bytes) :
    encode (front ++ rest) = encode front ++ encode rest := by
  induction groups generalizing front with
  | zero => rw [List.length_eq_zero_iff.mp h]; rfl
  | succ groups ih =>
    obtain ⟨a, b, c, front, rfl, hlen⟩ := exists_group h
    show quad _ ++ encode (front ++ rest) = quad _ ++ encode front ++ encode rest
    rw [ih hlen, List.append_assoc]

theorem encode_length (groups : Nat) {front : Bytes} (h : front.length = 3 * groups) :
    (encode front).length = 4 * groups := by
  induction groups generalizing front with
  | zero => rw [List.length_eq_zero_iff.mp h]; rfl
  | succ groups ih =>
    obtain ⟨a, b, c, front, rfl, hlen⟩ := exists_group h
    rw [encode, List.length_append, quad_length, ih hlen]
    omega

/-- **Cut behind a whole group**, a text is that of the bytes up to there. -/
theorem take_encode {data : Bytes} {groups : Nat} (h : 3 * groups ≤ data.length) :
    (encode data).take (4 * groups) = encode (data.take (3 * groups)) := by
  have hfront : (data.take (3 * groups)).length = 3 * groups := List.length_take_of_le h
  have hall := encode_append hfront (data.drop (3 * groups))
  rw [List.take_append_drop] at hall
  rw [hall]
  exact List.take_left' (encode_length groups hfront)

theorem encode_length_le (data : Bytes) : (encode data).length ≤ 4 * ((data.length + 2) / 3) := by
  induction data using encode.induct with
  | case1 a b c rest ih =>
    rw [encode, List.length_append, quad_length]
    simp only [List.length_cons]
    omega
  | case2 a b =>
    have hlen : (encode [a, b]).length = 4 := rfl
    rw [hlen, List.length_cons, List.length_singleton]
  | case3 a =>
    have hlen : (encode [a]).length = 4 := rfl
    rw [hlen, List.length_singleton]
  | case4 => exact Nat.le_refl 0

end Base64
