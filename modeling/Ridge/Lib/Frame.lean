import Mathlib.Algebra.GroupWithZero.Nat
import Mathlib.Data.Nat.Basic
import Mathlib.Tactic.Common

/-!
# Length-prefixed frames

A frame is a tag, a length in four bytes that counts itself and the payload, and the payload. Frames
written one after another read back one by one: the header says where the payload ends.
-/

namespace Ridge

open List

abbrev Binary := List UInt8

/-! ## Numbers -/

/-- The `k` low bytes of a number, the most significant first. -/
def bigEndian : Nat → Nat → Binary
  | 0, _ => []
  | k + 1, n => bigEndian k (n / 256) ++ [UInt8.ofNat n]

def ofBigEndian (bytes : Binary) : Nat := bytes.foldl (fun n b => n * 256 + b.toNat) 0

@[simp] theorem length_bigEndian (k n : Nat) : (bigEndian k n).length = k := by
  induction k generalizing n with
  | zero => rfl
  | succ k ih => rw [bigEndian, length_append, ih, length_singleton]

theorem ofBigEndian_concat (bytes : Binary) (b : UInt8) :
    ofBigEndian (bytes ++ [b]) = ofBigEndian bytes * 256 + b.toNat := by
  rw [ofBigEndian, foldl_append]
  rfl

theorem ofBigEndian_bigEndian (k n : Nat) : ofBigEndian (bigEndian k n) = n % 256 ^ k := by
  induction k generalizing n with
  | zero => rw [Nat.pow_zero, Nat.mod_one]; rfl
  | succ k ih =>
    have hbyte : (UInt8.ofNat n).toNat = n % 256 := UInt8.toNat_ofNat'
    have hpow : 256 ^ (k + 1) = 256 * 256 ^ k := Nat.pow_succ'
    rw [bigEndian, ofBigEndian_concat, ih, hbyte, hpow, Nat.mod_mul]
    omega

/-! ## Frames -/

structure Frame where
  tag : UInt8
  payload : Binary
  deriving DecidableEq

namespace Frame

/-- The length of the frame, its tag aside, is a number of four bytes. -/
def Fits (m : Frame) : Prop := m.payload.length + 4 < 256 ^ 4

instance (m : Frame) : Decidable m.Fits := inferInstanceAs (Decidable (_ < _))

def bytes (m : Frame) : Binary := m.tag :: (bigEndian 4 (m.payload.length + 4) ++ m.payload)

/-- Frames one after another. -/
def stream (ms : List Frame) : Binary := ms.flatMap bytes

theorem stream_cons (m : Frame) (ms : List Frame) : stream (m :: ms) = m.bytes ++ stream ms :=
  flatMap_cons

/-! The header, and what it says of the rest. -/

section Header

variable (m : Frame) (rest : Binary)

theorem header_le : 5 ≤ (m.bytes ++ rest).length := by
  show 5 ≤ (bigEndian 4 (m.payload.length + 4) ++ m.payload ++ rest).length + 1
  rw [length_append, length_append, length_bigEndian]
  omega

theorem take_header : (m.bytes ++ rest).take 5 = m.tag :: bigEndian 4 (m.payload.length + 4) := by
  show m.tag :: ((bigEndian 4 (m.payload.length + 4) ++ m.payload) ++ rest).take 4 = _
  rw [append_assoc, take_left' (length_bigEndian _ _)]

theorem drop_header : (m.bytes ++ rest).drop 5 = m.payload ++ rest := by
  show ((bigEndian 4 (m.payload.length + 4) ++ m.payload) ++ rest).drop 4 = _
  rw [append_assoc, drop_left' (length_bigEndian _ _)]

end Header

theorem ofBigEndian_header {m : Frame} (h : m.Fits) :
    ofBigEndian (bigEndian 4 (m.payload.length + 4)) = m.payload.length + 4 := by
  rw [ofBigEndian_bigEndian, Nat.mod_eq_of_lt h]

end Frame

end Ridge
