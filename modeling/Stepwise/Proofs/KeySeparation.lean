/-
  Stepwise.Proofs.KeySeparation
  ────────────────────────────────────────────────────────────────────────────
  **WHAT THE KEY OF A LIST TELLS ABOUT THE LIST.**

  A key is read from its end: the length comes first and says how many elements
  are to be split off (`SplitsOff`), the last one first.
-/
import Mathlib.Algebra.Ring.Nat
import Mathlib.Data.List.Forall2
import Mathlib.Data.Set.Basic
import Stepwise.ConsList.Nested
import Stepwise.Proofs.Equality

namespace Stepwise

open ConsList (Nested)

universe u

/-! ## §1. Little-endian bytes. -/

/-- The bytes tell two numbers apart as far as they reach. -/
theorem littleEndian_eq_iff (width : Nat) :
    ∀ m n : Nat,
      littleEndian width m = littleEndian width n ↔ m % 256 ^ width = n % 256 ^ width := by
  induction width with
  | zero => intro m n; simp [littleEndian, Nat.mod_one]
  | succ width ih =>
      intro m n
      -- the lowest byte, and the bytes above it
      have hsplit : ∀ j, j % 256 ^ (width + 1) = j % 256 + 256 * (j / 256 % 256 ^ width) := by
        intro j
        rw [Nat.pow_succ', Nat.mod_mul]
      rw [littleEndian, littleEndian, List.cons.injEq, UInt8.ofNat_eq_iff_mod_eq_toNat,
        UInt8.toNat_ofNat', ih, hsplit, hsplit]
      generalize m / 256 % 256 ^ width = a, n / 256 % 256 ^ width = b
      omega

theorem littleEndian_eight_inj {m n : Nat} (hm : m < UInt64.size) (hn : n < UInt64.size)
    (h : littleEndian 8 m = littleEndian 8 n) : m = n := by
  have hmod : m % UInt64.size = n % UInt64.size := (littleEndian_eq_iff 8 m n).mp h
  rwa [Nat.mod_eq_of_lt hm, Nat.mod_eq_of_lt hn] at hmod

/-! ## §2. Keys one behind the other. -/

namespace KeyBytes

variable {α : Type u} [KeyBytes α]

theorem flatMap_eq_of_forall₂ {R : α → α → Prop} (h : ∀ a b, R a b → keyBytes a = keyBytes b)
    {us vs : List α} (hall : List.Forall₂ R us vs) :
    us.flatMap keyBytes = vs.flatMap keyBytes := by
  induction hall with
  | nil => rfl
  | cons hab _ ih => rw [List.flatMap_cons, List.flatMap_cons, h _ _ hab, ih]

/-- The key of a value in `s` can be split off at the end: the bytes determine the value, and what
stands in front of its key. -/
def SplitsOff (s : Set α) : Prop :=
  ∀ (x y : List UInt8) (a b : α), a ∈ s → b ∈ s → x ++ keyBytes a = y ++ keyBytes b →
    a = b ∧ x = y

theorem SplitsOff.eq_of_keyBytes_eq {s : Set α} (h : SplitsOff s) {a b : α} (ha : a ∈ s)
    (hb : b ∈ s) (heq : keyBytes a = keyBytes b) : a = b :=
  (h [] [] a b ha hb heq).1

/-- Keys of one length are split off by counting bytes. -/
theorem splitsOff_of_length_eq {width : Nat} (hlength : ∀ a : α, (keyBytes a).length = width)
    (hinj : ∀ a b : α, keyBytes a = keyBytes b → a = b) : SplitsOff (Set.univ : Set α) := by
  intro x y a b _ _ heq
  have hwidth : (keyBytes a).length = (keyBytes b).length := by rw [hlength, hlength]
  obtain ⟨hfront, hkey⟩ := List.append_inj' heq hwidth
  exact ⟨hinj a b hkey, hfront⟩

/-- As many keys as there are on either side are split off one by one. -/
theorem SplitsOff.flatMap {s : Set α} (h : SplitsOff s) (us : List α) :
    ∀ (vs : List α) (x y : List UInt8), us.length = vs.length → (∀ a ∈ us, a ∈ s) →
      (∀ b ∈ vs, b ∈ s) → x ++ us.flatMap keyBytes = y ++ vs.flatMap keyBytes →
        us = vs ∧ x = y := by
  induction us with
  | nil =>
      intro vs x y hlength _ _ heq
      obtain rfl : vs = [] := List.length_eq_zero_iff.mp hlength.symm
      exact ⟨rfl, by simpa using heq⟩
  | cons a us ih =>
      intro vs x y hlength hus hvs heq
      cases vs with
      | nil => exact absurd hlength (by simp)
      | cons b vs =>
          rw [List.forall_mem_cons] at hus hvs
          -- the first key counts as what stands in front of the others
          have hrest : (x ++ keyBytes a) ++ us.flatMap keyBytes
              = (y ++ keyBytes b) ++ vs.flatMap keyBytes := by
            simpa only [List.flatMap_cons, List.append_assoc] using heq
          obtain ⟨rfl, hfront⟩ := ih vs _ _ (Nat.succ.inj hlength) hus.2 hvs.2 hrest
          obtain ⟨rfl, rfl⟩ := h x y a b hus.1 hvs.1 hfront
          exact ⟨rfl, rfl⟩

theorem eq_of_keyBytes_int64_eq (a b : Int64) (h : keyBytes a = keyBytes b) : a = b := by
  have hnat : a.toUInt64.toNat = b.toUInt64.toNat :=
    littleEndian_eight_inj a.toUInt64.toNat_lt b.toUInt64.toNat_lt h
  have hword : a.toUInt64 = b.toUInt64 := UInt64.toNat_inj.mp hnat
  exact Int64.toBitVec_inj.mp (congrArg UInt64.toBitVec hword)

theorem length_keyBytes_int64 (a : Int64) : (keyBytes a).length = 8 := length_littleEndian 8 _

theorem splitsOff_int64 : SplitsOff (Set.univ : Set Int64) :=
  splitsOff_of_length_eq length_keyBytes_int64 eq_of_keyBytes_int64_eq

theorem splitsOff_bool : SplitsOff (Set.univ : Set Bool) :=
  splitsOff_of_length_eq (fun _ => rfl) (by decide)

end KeyBytes

open KeyBytes (SplitsOff)

/-! ## §3. Lists. -/

namespace ConsList

variable {α : Type u}

/-- The lists of elements of `s` whose length fits in eight bytes. -/
def fitting (s : Set α) : Set (ConsList α) :=
  { l | l.length < UInt64.size ∧ ∀ a ∈ l.toList, a ∈ s }

/-- The length comes off first, and then as many elements. -/
theorem splitsOff_fitting [KeyBytes α] {s : Set α} (h : SplitsOff s) : SplitsOff (fitting s) := by
  intro x y l r hl hr heq
  rw [keyBytes_eq, keyBytes_eq, ← List.append_assoc, ← List.append_assoc] at heq
  obtain ⟨helements, hbytes⟩ := List.append_inj' heq (by simp)
  have hlength : l.length = r.length := littleEndian_eight_inj hl.1 hr.1 hbytes
  rw [length_eq, length_eq] at hlength
  obtain ⟨hlist, hfront⟩ := h.flatMap l.toList r.toList x y hlength hl.2 hr.2 helements
  exact ⟨toList_injective hlist, hfront⟩

theorem keyBytes_eq_of_beq [BEq α] [KeyBytes α]
    (h : ∀ a b : α, (a == b) = true → keyBytes a = keyBytes b) (l r : ConsList α)
    (hbeq : (l == r) = true) : keyBytes l = keyBytes r := by
  have hall := (beq_iff_forall₂ l r).mp hbeq
  rw [keyBytes_eq, keyBytes_eq, KeyBytes.flatMap_eq_of_forall₂ h hall, length_eq, length_eq,
    hall.length_eq]

/-! ## §4. Lists of lists. -/

namespace Nested

/-- The nested lists of which each level has its length in eight bytes. -/
def fitting : (n : Nat) → Set (Nested α n)
  | 0 => Set.univ
  | n + 1 => ConsList.fitting (fitting n)

theorem splitsOff_fitting [KeyBytes α] (h : SplitsOff (Set.univ : Set α)) (n : Nat) :
    SplitsOff (fitting n : Set (Nested α n)) := by
  induction n with
  | zero => exact h
  | succ n ih => exact ConsList.splitsOff_fitting ih

theorem keyBytes_eq_of_beq [BEq α] [KeyBytes α]
    (h : ∀ a b : α, (a == b) = true → keyBytes a = keyBytes b) (n : Nat) :
    ∀ l r : Nested α n, (l == r) = true → keyBytes l = keyBytes r := by
  induction n with
  | zero => exact h
  | succ n ih => exact ConsList.keyBytes_eq_of_beq ih

instance instLawfulBEq [BEq α] [LawfulBEq α] : (n : Nat) → LawfulBEq (Nested α n)
  | 0 => inferInstanceAs (LawfulBEq α)
  | n + 1 =>
    let _ : LawfulBEq (Nested α n) := instLawfulBEq n
    inferInstanceAs (LawfulBEq (ConsList (Nested α n)))

/-- Where equality is that of the values, keys that can be split off are equal just for equal
lists. -/
theorem keyBytes_eq_iff_beq [BEq α] [LawfulBEq α] [KeyBytes α]
    (h : SplitsOff (Set.univ : Set α)) (n : Nat) {l r : Nested α n} (hl : l ∈ fitting n)
    (hr : r ∈ fitting n) : keyBytes l = keyBytes r ↔ (l == r) = true := by
  rw [beq_iff_eq]
  constructor
  · intro heq
    exact (splitsOff_fitting h n).eq_of_keyBytes_eq hl hr heq
  · intro heq
    rw [heq]

end Nested

/-! ## §5. Keys and equality. -/

/-- **KEYS AGREE WITH EQUALITY AND TELL LISTS APART, AT EVERY DEPTH.**  The key of a list is that
of its elements in order and their number in eight bytes.  Where equal elements have equal keys,
equal lists do, and lists of any depth.  Where the keys of elements can be split off at the end,
whatever stands before them, so can those of lists shorter than 2^64, and of nested lists with
such lengths at each level.  Both are so for numbers and for truth values: of them, nested lists
have the same key exactly when they are equal. -/
theorem keys_tell_lists_apart_at_every_depth {α : Type u} [BEq α] [KeyBytes α] :
    (∀ l : ConsList α, keyBytes l = l.toList.flatMap keyBytes ++ littleEndian 8 l.length)
    ∧ ((∀ a b : α, (a == b) = true → keyBytes a = keyBytes b) →
        (∀ l r : ConsList α, (l == r) = true → keyBytes l = keyBytes r)
        ∧ ∀ (n : Nat) (l r : Nested α n), (l == r) = true → keyBytes l = keyBytes r)
    ∧ (SplitsOff (Set.univ : Set α) →
        SplitsOff { l : ConsList α | l.length < UInt64.size }
        ∧ ∀ n : Nat, SplitsOff (Nested.fitting n : Set (Nested α n)))
    ∧ (SplitsOff (Set.univ : Set Int64) ∧ SplitsOff (Set.univ : Set Bool))
    ∧ (∀ (n : Nat) (l r : Nested Int64 n), l ∈ Nested.fitting n → r ∈ Nested.fitting n →
        (keyBytes l = keyBytes r ↔ (l == r) = true))
    ∧ (∀ (n : Nat) (l r : Nested Bool n), l ∈ Nested.fitting n → r ∈ Nested.fitting n →
        (keyBytes l = keyBytes r ↔ (l == r) = true)) := by
  refine ⟨keyBytes_eq, ?_, ?_, ⟨KeyBytes.splitsOff_int64, KeyBytes.splitsOff_bool⟩, ?_, ?_⟩
  · intro h
    exact ⟨keyBytes_eq_of_beq h, Nested.keyBytes_eq_of_beq h⟩
  · intro h
    refine ⟨?_, Nested.splitsOff_fitting h⟩
    intro x y l r hl hr
    exact splitsOff_fitting h x y l r ⟨hl, fun _ _ => trivial⟩ ⟨hr, fun _ _ => trivial⟩
  · intro n l r hl hr
    exact Nested.keyBytes_eq_iff_beq KeyBytes.splitsOff_int64 n hl hr
  · intro n l r hl hr
    exact Nested.keyBytes_eq_iff_beq KeyBytes.splitsOff_bool n hl hr

/-- The lists `[[1], [2]]` and `[[1, 2], []]` have the same numbers in the same order, and
`[[0]]` has the length of an inner list where `[[], [1]]` has an element: their keys differ. -/
theorem keys_tell_lists_of_lists_apart :
    let l : Nested Int64 2 := ofList [ofList [(1 : Int64)], ofList [(2 : Int64)]]
    let r : Nested Int64 2 := ofList [ofList [(1 : Int64), (2 : Int64)], nil]
    let s : Nested Int64 2 := ofList [ofList [(0 : Int64)]]
    let t : Nested Int64 2 := ofList [nil, ofList [(1 : Int64)]]
    (l ∈ Nested.fitting 2 ∧ r ∈ Nested.fitting 2 ∧ s ∈ Nested.fitting 2 ∧ t ∈ Nested.fitting 2)
      ∧ keyBytes l ≠ keyBytes r ∧ keyBytes s ≠ keyBytes t
      ∧ (∀ a b : Int64, (a == b) = true → keyBytes a = keyBytes b)
      ∧ (l == cons (singleton (1 : Int64)) (singleton (singleton (2 : Int64)))) = true
      ∧ keyBytes l = keyBytes (cons (singleton (1 : Int64)) (singleton (singleton (2 : Int64))))
      ∧ SplitsOff { l : ConsList Int64 | l.length < UInt64.size } := by
  intro l r s t
  have hfits : ∀ m : ConsList (ConsList Int64), m.length < UInt64.size →
      (∀ a ∈ m.toList, a.length < UInt64.size) → (m : Nested Int64 2) ∈ Nested.fitting 2 := by
    intro m hm hinner
    exact ⟨hm, fun a ha => ⟨hinner a ha, fun _ _ => trivial⟩⟩
  have hl : l ∈ Nested.fitting 2 := hfits l (by decide) (by decide)
  have hr : r ∈ Nested.fitting 2 := hfits r (by decide) (by decide)
  have hs : s ∈ Nested.fitting 2 := hfits s (by decide) (by decide)
  have ht : t ∈ Nested.fitting 2 := hfits t (by decide) (by decide)
  have hagree : ∀ a b : Int64, (a == b) = true → keyBytes a = keyBytes b := by
    intro a b hab
    rw [eq_of_beq hab]
  have hbeq : (l == cons (singleton (1 : Int64)) (singleton (singleton (2 : Int64)))) = true := by
    decide
  obtain ⟨-, equal, splits, ⟨hsplits, -⟩, apart, -⟩ :=
    keys_tell_lists_apart_at_every_depth (α := Int64)
  refine ⟨⟨hl, hr, hs, ht⟩, ?_, ?_, hagree, hbeq, (equal hagree).2 2 _ _ hbeq, (splits hsplits).1⟩
  · rw [Ne, apart 2 l r hl hr]
    decide
  · rw [Ne, apart 2 s t hs ht]
    decide

end ConsList

end Stepwise
