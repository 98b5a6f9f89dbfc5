/-
  Stepwise.Key.Bytes
  ────────────────────────────────────────────────────────────────────────────
  **THE BYTES BY WHICH A VALUE IS KEYED.**

  Numbers and lengths are eight bytes with the least significant one first;
  strings and lists are closed, so that several in a row can be told apart.
-/
import Stepwise.ConsList.Basic

namespace Stepwise

universe u

/-! ## §1. Little-endian bytes. -/

/-- The `width` lowest bytes of `n`, the least significant first. -/
def littleEndian : Nat → Nat → List UInt8
  | 0, _ => []
  | width + 1, n => UInt8.ofNat n :: littleEndian width (n / 256)

@[simp] theorem length_littleEndian (width n : Nat) : (littleEndian width n).length = width := by
  induction width generalizing n with
  | zero => rfl
  | succ width ih => simp [littleEndian, ih]

/-! ## §2. Key bytes. -/

/-- Values that can be part of a key. -/
class KeyBytes (α : Type u) where
  /-- The bytes of a value in a key. -/
  keyBytes : α → List UInt8

export KeyBytes (keyBytes)

instance : KeyBytes Unit := ⟨fun _ => []⟩

instance : KeyBytes Bool := ⟨fun b => [if b then 1 else 0]⟩

/-- A number is keyed by its 64 bits. -/
instance : KeyBytes Int64 := ⟨fun n => littleEndian 8 n.toUInt64.toNat⟩

/-- A string is keyed by its encoding, with a byte behind it that no encoding holds. -/
instance : KeyBytes String := ⟨fun text => text.toUTF8.toList ++ [0xff]⟩

/-! ## §3. Lists. -/

namespace ConsList

variable {α : Type u}

/-- The key of a list that is being written. -/
structure Keying where
  /-- What is written already. -/
  bytes : Array UInt8
  /-- How many elements are in it. -/
  count : Nat

/-- Writes the key of one more element, and counts it. -/
def Keying.element [KeyBytes α] (k : Keying) (a : α) : Keying :=
  ⟨k.bytes ++ keyBytes a, k.count + 1⟩

/-- The keys of the elements, written and counted in one pass. -/
def keyed [KeyBytes α] (l : ConsList α) : Keying := l.foldLeft (fun a k => k.element a) ⟨#[], 0⟩

/-- Behind its elements a list has their number, in case the bytes of two lists' elements run
together in the same way. -/
instance [KeyBytes α] : KeyBytes (ConsList α) where
  keyBytes l := l.keyed.bytes.toList ++ littleEndian 8 l.keyed.count

theorem foldLeft_element [KeyBytes α] (l : ConsList α) (k : Keying) :
    l.foldLeft (fun a k => k.element a) k =
      ⟨k.bytes ++ l.toList.flatMap keyBytes, k.count + l.length⟩ := by
  induction l generalizing k with
  | nil => simp
  | cons a l ih =>
    have hbytes : k.bytes ++ keyBytes a ++ l.toList.flatMap keyBytes
        = k.bytes ++ (cons a l).toList.flatMap keyBytes := Array.ext' (by simp)
    have hcount : k.count + 1 + l.length = k.count + (cons a l).length := by
      rw [length_cons]
      omega
    rw [foldLeft_cons, ih, Keying.element, hbytes, hcount]

/-- The key of a list is the keys of its elements in order, and then their number. -/
theorem keyBytes_eq [KeyBytes α] (l : ConsList α) :
    keyBytes l = l.toList.flatMap keyBytes ++ littleEndian 8 l.length := by
  show l.keyed.bytes.toList ++ littleEndian 8 l.keyed.count = _
  rw [keyed, foldLeft_element]
  simp

end ConsList

end Stepwise
