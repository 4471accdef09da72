/-
  File:      Dbs/Lib/Struct.lean
  Subject:   FIXED-SIZE BINARY RECORDS: a format is a list of field codes, as in `>8sHHI16x`.

  * `Values` -- the tuple a format carries (pad bytes carry nothing);
  * `pack` -- big-endian and without alignment;
  * `fields_pack` -- every tuple that fits comes back; `pack_inj` -- so packing loses nothing.
-/
import Dbs.Lib.Octets

namespace Struct

open Octets

inductive Code
  | uint (width : Nat)
  | raw (length : Nat)
  | pad (length : Nat)

abbrev Format := List Code

def Code.size : Code → Nat
  | .uint w => w
  | .raw n => n
  | .pad n => n

def size (f : Format) : Nat := (f.map Code.size).sum

/-- The tuple of a format, ended by `Unit`. -/
def Values : Format → Type
  | [] => Unit
  | .uint _ :: f => Nat × Values f
  | .raw _ :: f => Bytes × Values f
  | .pad _ :: f => Values f

/-- Every number is below its width's bound and every byte string has its field's length. -/
def Fits : (f : Format) → Values f → Prop
  | [], _ => True
  | .uint w :: f, (v, vs) => v < 256 ^ w ∧ Fits f vs
  | .raw n :: f, (b, vs) => b.length = n ∧ Fits f vs
  | .pad _ :: f, vs => Fits f vs

def pack : (f : Format) → Values f → Bytes
  | [], _ => []
  | .uint w :: f, (v, vs) => toBe w v ++ pack f vs
  | .raw n :: f, (b, vs) => b.take n ++ zeros (n - b.length) ++ pack f vs
  | .pad n :: f, vs => zeros n ++ pack f vs

/-- The fields of a byte string of the right length, read one behind the other. -/
def fields : (f : Format) → Bytes → Values f
  | [], _ => ()
  | .uint w :: f, b => (ofBe (b.take w), fields f (b.drop w))
  | .raw n :: f, b => (b.take n, fields f (b.drop n))
  | .pad n :: f, b => fields f (b.drop n)

theorem pack_length (f : Format) (v : Values f) : (pack f v).length = size f := by
  induction f with
  | nil => rfl
  | cons c f ih =>
    cases c with
    | uint w => obtain ⟨x, vs⟩ := v; simp [pack, size, Code.size, ih vs]
    | raw n =>
      obtain ⟨b, vs⟩ := v
      have := ih vs
      simp only [pack, List.length_append, List.length_take, zeros_length, this, size,
        List.map_cons, List.sum_cons, Code.size]
      omega
    | pad n => simp [pack, size, Code.size, ih v]

variable {f : Format}

/-- Reading does not look behind the record. -/
theorem fields_pack_append {v : Values f} (h : Fits f v) (rest : Bytes) :
    fields f (pack f v ++ rest) = v := by
  induction f with
  | nil => rfl
  | cons c f ih =>
    cases c with
    | uint w =>
      obtain ⟨x, vs⟩ := v
      have hl : (toBe w x).length = w := toBe_length w x
      rw [pack, fields, List.append_assoc, List.take_left' hl, List.drop_left' hl,
        ofBe_toBe h.1, ih h.2]
    | raw n =>
      obtain ⟨b, vs⟩ := v
      have hb : b.take n ++ zeros (n - b.length) = b := by
        rw [List.take_of_length_le (by rw [h.1]), h.1, Nat.sub_self]
        exact List.append_nil b
      rw [pack, hb, fields, List.append_assoc, List.take_left' h.1, List.drop_left' h.1, ih h.2]
    | pad n => rw [pack, fields, List.append_assoc, List.drop_left' (zeros_length n), ih h]

theorem fields_pack {v : Values f} (h : Fits f v) : fields f (pack f v) = v := by
  have := fields_pack_append h []
  rwa [List.append_nil] at this

/-- Behind the first field come the others. -/
theorem slice_pack_uint {w : Nat} (x : Nat) (vs : Values f) {i : Nat} (n : Nat)
    (h : w ≤ i) : slice (pack (.uint w :: f) (x, vs)) i n = slice (pack f vs) (i - w) n := by
  have hl := toBe_length w x
  show slice (toBe w x ++ pack f vs) i n = _
  rw [slice_append_right _ _ _ (by omega), hl]

theorem slice_pack_raw {m : Nat} (b : Bytes) (vs : Values f) {i : Nat} (n : Nat)
    (h : m ≤ i) : slice (pack (.raw m :: f) (b, vs)) i n = slice (pack f vs) (i - m) n := by
  have hl : (b.take m ++ zeros (m - b.length)).length = m := by
    rw [List.length_append, List.length_take, zeros_length]; omega
  show slice (b.take m ++ zeros (m - b.length) ++ pack f vs) i n = _
  rw [slice_append_right _ _ _ (by omega), hl]

/-- Pad bytes are zero. -/
theorem slice_pack_pad (n : Nat) (vs : Values f) : slice (pack (.pad n :: f) vs) 0 n = zeros n := by
  show slice (zeros n ++ pack f vs) 0 n = _
  exact List.take_left' (zeros_length n)

/-- The front of a record does not depend on the fields behind it: one field at a time. -/
theorem take_pack_uint {w : Nat} (x : Nat) (vs us : Values f) {n : Nat}
    (he : (pack f vs).take (n - w) = (pack f us).take (n - w)) :
    (pack (.uint w :: f) (x, vs)).take n = (pack (.uint w :: f) (x, us)).take n := by
  show (toBe w x ++ pack f vs).take n = (toBe w x ++ pack f us).take n
  rw [List.take_append, List.take_append, toBe_length, he]

theorem take_pack_raw {m : Nat} (b : Bytes) (vs us : Values f) {n : Nat}
    (he : (pack f vs).take (n - m) = (pack f us).take (n - m)) :
    (pack (.raw m :: f) (b, vs)).take n = (pack (.raw m :: f) (b, us)).take n := by
  have hl : (b.take m ++ zeros (m - b.length)).length = m := by
    rw [List.length_append, List.length_take, zeros_length]; omega
  have hv : ∀ ws : Values f, (pack (.raw m :: f) (b, ws)).take n =
      (b.take m ++ zeros (m - b.length)).take n ++ (pack f ws).take (n - m) := by
    intro ws
    show (b.take m ++ zeros (m - b.length) ++ pack f ws).take n = _
    generalize b.take m ++ zeros (m - b.length) = front at hl ⊢
    rw [List.take_append, hl]
  rw [hv, hv, he]

theorem take_pack_pad {m : Nat} (vs us : Values f) {n : Nat}
    (he : (pack f vs).take (n - m) = (pack f us).take (n - m)) :
    (pack (.pad m :: f) vs).take n = (pack (.pad m :: f) us).take n := by
  show (zeros m ++ pack f vs).take n = (zeros m ++ pack f us).take n
  rw [List.take_append, List.take_append, zeros_length, he]

theorem pack_inj {v w : Values f} (hv : Fits f v) (hw : Fits f w)
    (h : pack f v = pack f w) : v = w := by
  rw [← fields_pack hv, h, fields_pack hw]

theorem fits_fields (f : Format) (b : Bytes) (h : b.length = size f) : Fits f (fields f b) := by
  induction f generalizing b with
  | nil => trivial
  | cons c f ih =>
    have hs : size (c :: f) = c.size + size f := rfl
    have hd : (b.drop c.size).length = size f := by rw [List.length_drop]; omega
    have ht : (b.take c.size).length = c.size := by rw [List.length_take]; omega
    cases c with
    | uint w =>
      refine ⟨?_, ih _ hd⟩
      have := ofBe_lt (b.take w)
      rwa [show (b.take w).length = w from ht] at this
    | raw n => exact ⟨ht, ih _ hd⟩
    | pad n => exact ih _ hd

/-- The padding of a stored record is zero. -/
def PadsClear : (f : Format) → Bytes → Prop
  | [], _ => True
  | .uint w :: f, b => PadsClear f (b.drop w)
  | .raw n :: f, b => PadsClear f (b.drop n)
  | .pad n :: f, b => b.take n = zeros n ∧ PadsClear f (b.drop n)

/-- **Packing what was read** gives the stored record back, if its padding is zero. -/
theorem pack_fields {b : Bytes} (h : b.length = size f) (hz : PadsClear f b) :
    pack f (fields f b) = b := by
  induction f generalizing b with
  | nil => exact (List.length_eq_zero_iff.mp h).symm
  | cons c f ih =>
    have hs : size (c :: f) = c.size + size f := rfl
    have hd : (b.drop c.size).length = size f := by rw [List.length_drop]; omega
    have ht : (b.take c.size).length = c.size := by rw [List.length_take]; omega
    cases c with
    | uint w =>
      have hv : toBe w (ofBe (b.take w)) = b.take w := by
        have he := toBe_ofBe (b.take w)
        rwa [show (b.take w).length = w from ht] at he
      have hrest : pack f (fields f (b.drop w)) = b.drop w := ih hd hz
      show toBe w (ofBe (b.take w)) ++ pack f (fields f (b.drop w)) = b
      rw [hv, hrest, List.take_append_drop]
    | raw n =>
      have hv : (b.take n).take n ++ zeros (n - (b.take n).length) = b.take n := by
        rw [show (b.take n).length = n from ht, Nat.sub_self, List.take_take, Nat.min_self]
        exact List.append_nil _
      have hrest : pack f (fields f (b.drop n)) = b.drop n := ih hd hz
      show (b.take n).take n ++ zeros (n - (b.take n).length) ++ pack f (fields f (b.drop n)) = b
      rw [hv, hrest, List.take_append_drop]
    | pad n =>
      have hrest : pack f (fields f (b.drop n)) = b.drop n := ih hd hz.2
      show zeros n ++ pack f (fields f (b.drop n)) = b
      rw [hrest, ← hz.1, List.take_append_drop]

end Struct
