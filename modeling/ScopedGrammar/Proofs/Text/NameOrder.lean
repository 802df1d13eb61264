import Mathlib.Data.String.Basic
import ScopedGrammar.Proofs.NameSupply
import ScopedGrammar.Proofs.Text.Marks

/-!
# The order of issued names

Names are compared as texts. Two issued names of the same length compare as their numbers do; of
different lengths they need not, since the one with the smaller first digit comes first. A plain
name holds no digit, so it comes before all issued names or behind all of them.
-/
namespace ScopedGrammar

section Characters

variable {xs ys pre ds es : List Char} {a b : Char}

theorem append_lt_append_left_iff (pre : List Char) : pre ++ xs < pre ++ ys ↔ xs < ys := by
  induction pre with
  | nil => rfl
  | cons c pre ih => simp [ih]

/-- The last characters decide if all the others are the same. -/
theorem concat_lt_concat_iff (h : xs.length = ys.length) :
    xs ++ [a] < ys ++ [b] ↔ xs < ys ∨ xs = ys ∧ a < b := by
  induction xs generalizing ys with
  | nil =>
    obtain rfl := List.length_eq_zero_iff.mp h.symm
    simp [List.cons_lt_cons_iff]
  | cons x xs ih =>
    cases ys with
    | nil => cases h
    | cons y ys =>
      rw [List.cons_append, List.cons_append, List.cons_lt_cons_iff, List.cons_lt_cons_iff,
        ih (Nat.succ.inj h), List.cons.injEq]
      tauto

theorem lt_digit_iff {c : Char} (hc : c.isDigit = false) (ha : a.isDigit = true)
    (hb : b.isDigit = true) : c < a ↔ c < b := by
  simp only [Char.isDigit, Bool.and_eq_true, Bool.and_eq_false_iff, decide_eq_true_eq,
    decide_eq_false_iff_not, ge_iff_le, UInt32.le_iff_toNat_le] at hc ha hb
  rw [Char.lt_def, Char.lt_def, UInt32.lt_iff_toNat_lt, UInt32.lt_iff_toNat_lt]
  omega

/-- A text without digits is on the same side of all numbers behind a common text. -/
theorem lt_append_digits_iff (hxs : ∀ c ∈ xs, c.isDigit = false) (hds : ∀ c ∈ ds, c.isDigit = true)
    (hes : ∀ c ∈ es, c.isDigit = true) (hds' : ds ≠ []) (hes' : es ≠ []) :
    xs < pre ++ ds ↔ xs < pre ++ es := by
  induction xs generalizing pre with
  | nil =>
    obtain ⟨d, ds, rfl⟩ := List.exists_cons_of_ne_nil hds'
    obtain ⟨e, es, rfl⟩ := List.exists_cons_of_ne_nil hes'
    cases pre <;> simp
  | cons x xs ih =>
    obtain ⟨hx, hxs⟩ := List.forall_mem_cons.mp hxs
    cases pre with
    | cons p pre =>
      rw [List.cons_append, List.cons_append, List.cons_lt_cons_iff, List.cons_lt_cons_iff, ih hxs]
    | nil =>
      obtain ⟨d, ds, rfl⟩ := List.exists_cons_of_ne_nil hds'
      obtain ⟨e, es, rfl⟩ := List.exists_cons_of_ne_nil hes'
      have hd := hds d List.mem_cons_self
      have he := hes e List.mem_cons_self
      have hne : ∀ c : Char, c.isDigit = true → x ≠ c := by
        rintro c hc rfl
        simp [hx] at hc
      rw [List.nil_append, List.nil_append, List.cons_lt_cons_iff, List.cons_lt_cons_iff,
        lt_digit_iff hx hd he]
      simp [hne d hd, hne e he]

end Characters

theorem digitChar_lt_iff : ∀ a < 10, ∀ b < 10, (Nat.digitChar a < Nat.digitChar b ↔ a < b) := by
  decide

/-- Numbers of the same length are ordered as their digits are. -/
theorem toDigits_lt_iff {m n : ℕ} (h : (Nat.toDigits 10 m).length = (Nat.toDigits 10 n).length) :
    Nat.toDigits 10 m < Nat.toDigits 10 n ↔ m < n := by
  induction m using Nat.strong_induction_on generalizing n with
  | _ m ih =>
    have hlong : ∀ k, 10 ≤ k → 1 < (Nat.toDigits 10 k).length := by
      intro k hk
      rw [Nat.toDigits_of_base_le (by decide) hk, List.length_append, List.length_singleton]
      exact Nat.succ_lt_succ Nat.length_toDigits_pos
    have hshort : ∀ k < 10, (Nat.toDigits 10 k).length = 1 := by
      intro k hk
      rw [Nat.toDigits_of_lt_base hk, List.length_singleton]
    by_cases hm : m < 10
    · have hn : n < 10 := by
        by_contra hn
        have := hlong n (by omega)
        have := hshort m hm
        omega
      rw [Nat.toDigits_of_lt_base hm, Nat.toDigits_of_lt_base hn, List.cons_lt_cons_iff]
      simpa using digitChar_lt_iff m hm n hn
    · have hn : 10 ≤ n := by
        by_contra hn
        have := hlong m (by omega)
        have := hshort n (by omega)
        omega
      have hm : 10 ≤ m := by omega
      -- the last digit is taken off both, and decides where the others are the same
      rw [Nat.toDigits_of_base_le (by decide) hm, Nat.toDigits_of_base_le (by decide) hn] at h ⊢
      have hfront : (Nat.toDigits 10 (m / 10)).length = (Nat.toDigits 10 (n / 10)).length := by
        simpa using h
      have heq : Nat.toDigits 10 (m / 10) = Nat.toDigits 10 (n / 10) ↔ m / 10 = n / 10 := by
        refine ⟨fun h => Nat.repr_injective (String.toList_inj.mp ?_), fun h => by rw [h]⟩
        simpa using h
      rw [concat_lt_concat_iff hfront, ih (m / 10) (by omega) hfront, heq,
        digitChar_lt_iff _ (Nat.mod_lt _ (by decide)) _ (Nat.mod_lt _ (by decide))]
      omega

namespace NameSupply

theorem toList_nameOf (n : ℕ) : (nameOf n).toList = "bv__".toList ++ Nat.toDigits 10 n := by
  rw [nameOf, String.toList_append, toList_toString]

/-- Names of the same length are ordered as their numbers are. -/
theorem nameOf_lt_nameOf_iff {m n : ℕ} (h : (nameOf m).length = (nameOf n).length) :
    nameOf m < nameOf n ↔ m < n := by
  rw [← String.length_toList, ← String.length_toList, toList_nameOf, toList_nameOf,
    List.length_append, List.length_append] at h
  rw [String.lt_iff_toList_lt, toList_nameOf, toList_nameOf, append_lt_append_left_iff,
    toDigits_lt_iff (Nat.add_left_cancel h)]

variable {s : String}

theorem plain_lt_nameOf_iff (hs : PlainName s) (m n : ℕ) : s < nameOf m ↔ s < nameOf n := by
  rw [String.lt_iff_toList_lt, String.lt_iff_toList_lt, toList_nameOf, toList_nameOf]
  have hdigits : ∀ k, ∀ c ∈ Nat.toDigits 10 k, c.isDigit = true := fun k c hc =>
    isDigit_of_mem_toString (toList_toString k ▸ hc)
  exact lt_append_digits_iff (fun c hc => (hs c hc).1) (hdigits m) (hdigits n)
    Nat.toDigits_ne_nil Nat.toDigits_ne_nil

theorem nameOf_lt_plain_iff (hs : PlainName s) (m n : ℕ) : nameOf m < s ↔ nameOf n < s := by
  have hnot : ∀ k, nameOf k < s ↔ ¬ s < nameOf k := fun k =>
    ⟨fun h => h.asymm, fun h => lt_of_le_of_ne (not_lt.mp h) (nameOf_ne_of_plain hs k).symm⟩
  rw [hnot m, hnot n, plain_lt_nameOf_iff hs m n]

end NameSupply

end ScopedGrammar
