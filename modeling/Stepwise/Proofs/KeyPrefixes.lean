/-
  Stepwise.Proofs.KeyPrefixes
  ────────────────────────────────────────────────────────────────────────────
  **KEYS OF LISTS AT THE BEGINNING OF LARGER KEYS.**

  A number has as many bytes as a length, so the length at the end of one key may
  be an element in another:

      keyBytes l = (l.toList ++ [Int64.ofNat l.length]).flatMap keyBytes
-/
import Stepwise.Proofs.KeySeparation

namespace Stepwise

open KeyBytes (length_keyBytes_int64 eq_of_keyBytes_int64_eq)

universe u

/-! ## §1. Keys one behind the other. -/

theorem isPrefix_flatMap_keyBytes_iff {α : Type u} [KeyBytes α] {width : Nat} (hpos : 0 < width)
    (hlength : ∀ a : α, (keyBytes a).length = width)
    (hinj : ∀ a b : α, keyBytes a = keyBytes b → a = b) (s : List α) :
    ∀ t : List α, s.flatMap keyBytes <+: t.flatMap keyBytes ↔ s <+: t := by
  induction s with
  | nil => intro t; simp
  | cons a s ih =>
      intro t
      cases t with
      | nil =>
          -- no key is empty
          have hkey : keyBytes a ≠ [] := by
            rw [← List.length_pos_iff, hlength]
            exact hpos
          simp [hkey]
      | cons b t =>
          rw [List.cons_prefix_cons, ← ih t, List.flatMap_cons, List.flatMap_cons]
          constructor
          · intro h
            obtain ⟨rest, heq⟩ := h
            rw [List.append_assoc] at heq
            obtain ⟨hkey, hrest⟩ := List.append_inj heq (by rw [hlength, hlength])
            exact ⟨hinj a b hkey, rest, hrest⟩
          · intro h
            rw [h.1]
            exact (List.prefix_append_right_inj _).mpr h.2

/-- The bytes of a number count from its end, so they are those of the word it stands for. -/
theorem keyBytes_ofNat (n : Nat) : keyBytes (Int64.ofNat n) = littleEndian 8 n := by
  show littleEndian 8 (UInt64.ofNat n).toNat = littleEndian 8 n
  rw [littleEndian_eq_iff, UInt64.toNat_ofNat']
  exact Nat.mod_mod n _

namespace ConsList

/-! ## §2. The length at the end, and an element that looks like it. -/

/-- The list `r` has the elements of `l`, then the length of `l` as an element, and then what it
may. -/
def GoesOnWithLength (l r : ConsList Int64) : Prop :=
  ∃ rest : List Int64, r.toList = l.toList ++ Int64.ofNat l.length :: rest

/-- The key of a list is that of its elements with the length as one element more. -/
theorem keyBytes_eq_flatMap_concat (l : ConsList Int64) :
    keyBytes l = (l.toList ++ [Int64.ofNat l.length]).flatMap keyBytes := by
  rw [List.flatMap_append, List.flatMap_singleton, keyBytes_ofNat, keyBytes_eq]

theorem isPrefix_keyBytes_iff (l r : ConsList Int64) :
    keyBytes l <+: keyBytes r ↔ l = r ∨ l.GoesOnWithLength r := by
  rw [keyBytes_eq_flatMap_concat, keyBytes_eq_flatMap_concat,
    isPrefix_flatMap_keyBytes_iff (by decide) length_keyBytes_int64 eq_of_keyBytes_int64_eq,
    List.prefix_concat_iff]
  -- the length of `l` is met by that of `r`, or by an element of `r`
  refine or_congr ?_ ?_
  · constructor
    · intro heq
      exact toList_injective (List.append_inj' heq rfl).1
    · intro heq
      rw [heq]
  · constructor
    · intro h
      obtain ⟨rest, heq⟩ := h
      exact ⟨rest, by rw [← heq, List.append_assoc]; rfl⟩
    · intro h
      obtain ⟨rest, heq⟩ := h
      exact ⟨rest, by rw [heq, List.append_assoc]; rfl⟩

/-- **KEYS BEGIN ALIKE WHERE A LENGTH MEETS AN ELEMENT**, and nowhere else: of two lists of
numbers, neither key begins the other just when the lists differ and neither goes on behind the
other with the other's length.  In larger keys that begin with the two keys, the rest can make up
for the difference just when one of the keys begins the other. -/
theorem keys_begin_alike_where_length_meets_element (l r : ConsList Int64) :
    (keyBytes l <+: keyBytes r ↔ l = r ∨ l.GoesOnWithLength r)
    ∧ ((¬ keyBytes l <+: keyBytes r ∧ ¬ keyBytes r <+: keyBytes l)
        ↔ l ≠ r ∧ ¬ l.GoesOnWithLength r ∧ ¬ r.GoesOnWithLength l)
    ∧ ((∃ x y : List UInt8, keyBytes l ++ x = keyBytes r ++ y)
        ↔ l = r ∨ l.GoesOnWithLength r ∨ r.GoesOnWithLength l) := by
  have hlr := isPrefix_keyBytes_iff l r
  have hrl := isPrefix_keyBytes_iff r l
  refine ⟨hlr, ?_, ?_⟩
  · rw [hlr, hrl, eq_comm (a := r), not_or, not_or]
    constructor
    · intro h
      exact ⟨h.1.1, h.1.2, h.2.2⟩
    · intro h
      exact ⟨⟨h.1, h.2.1⟩, h.1, h.2.2⟩
  · constructor
    · intro h
      obtain ⟨x, y, heq⟩ := h
      -- both keys begin one larger key, so the shorter of them begins the longer
      have hl : keyBytes l <+: keyBytes r ++ y := ⟨x, heq⟩
      rcases List.prefix_or_prefix_of_prefix hl (List.prefix_append _ y) with h | h
      · rcases hlr.mp h with h | h
        · exact .inl h
        · exact .inr (.inl h)
      · rcases hrl.mp h with h | h
        · exact .inl h.symm
        · exact .inr (.inr h)
    · intro h
      rcases h with h | h | h
      · exact ⟨[], [], by rw [h]⟩
      · obtain ⟨x, hx⟩ := hlr.mpr (.inr h)
        exact ⟨x, [], by rw [hx, List.append_nil]⟩
      · obtain ⟨y, hy⟩ := hrl.mpr (.inr h)
        exact ⟨[], y, by rw [hy, List.append_nil]⟩

/-- The empty list ends in the length zero, and the list `[0]` begins with the number: the key of
the first begins that of the second.  With a string behind each list the keys are the same. -/
theorem key_of_nil_begins_key_of_zero :
    ((nil : ConsList Int64) == singleton 0) = false
      ∧ keyBytes (nil : ConsList Int64) <+: keyBytes (singleton (0 : Int64))
      ∧ keyBytes (nil : ConsList Int64) ++ keyBytes "\x01\x00\x00\x00\x00\x00\x00\x00"
          = keyBytes (singleton (0 : Int64)) ++ keyBytes "" := by
  refine ⟨by decide, by decide, by decide +kernel⟩

end ConsList

end Stepwise
