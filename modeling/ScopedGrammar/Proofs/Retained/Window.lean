import Mathlib.Data.List.DropRight
import ScopedGrammar.Proofs.Lists
import ScopedGrammar.Proofs.Scalar.Exact
import ScopedGrammar.Retained.Window

/-!
# What a window holds

A window of positive size that has been added to holds the latest items, as many as its size allows,
however many there were. A window of size zero has nothing to drop when it is as full as its size
says, and from then on it is never as full again: it holds every item there was. The mean is that of
the items held, and the rate of a window is the share of its successes.
-/
namespace ScopedGrammar.Window

variable {α : Type} {n : ℕ}

/-- The window that holds the latest of some items, which come the latest first. -/
def ofLatest (n : ℕ) (items : List α) : Window α := ⟨n, (items.take n).reverse⟩

theorem add_ofLatest (hn : 0 < n) (items : List α) (a : α) :
    (ofLatest n items).add a = ofLatest n (a :: items) := by
  obtain ⟨n, rfl⟩ : ∃ m, n = m + 1 := ⟨n - 1, by omega⟩
  unfold add ofLatest
  dsimp only
  rw [List.length_reverse, List.length_take, List.take_succ_cons, List.reverse_cons]
  split
  · next hfull =>
    have hlen : n + 1 ≤ items.length := by omega
    have hoff : items.take (n + 1) = items.take n ++ [items[n]] := List.take_succ_eq_append_getElem hlen
    rw [hoff, List.reverse_append]
    rfl
  · next hroom =>
    have hlen : items.length ≤ n := by omega
    rw [List.take_of_length_le hlen, List.take_of_length_le (by omega)]

/-- The window that a stream of items leaves, which come the oldest first. -/
def ofStream (size : ℕ) (items : List α) : Window α := items.foldl add (empty size)

theorem foldl_add_ofLatest (hn : 0 < n) (before items : List α) :
    items.foldl add (ofLatest n before) = ofLatest n (items.reverse ++ before) := by
  induction items generalizing before with
  | nil => rfl
  | cons a items ih =>
    rw [List.foldl_cons, add_ofLatest hn, ih, List.reverse_cons, List.append_assoc]
    rfl

theorem ofStream_eq (hn : 0 < n) (items : List α) : ofStream n items = ⟨n, items.rtake n⟩ := by
  have hempty : (empty n : Window α) = ofLatest n [] := by simp [empty, ofLatest]
  rw [ofStream, hempty, foldl_add_ofLatest hn, ofLatest, List.append_nil,
    List.rtake_eq_reverse_take_reverse]

theorem length_rtake (items : List α) : (items.rtake n).length = min n items.length := by
  rw [List.rtake_eq_reverse_take_reverse, List.length_reverse, List.length_take, List.length_reverse]

theorem rtake_eq_nil_iff (hn : 0 < n) {items : List α} : items.rtake n = [] ↔ items = [] := by
  rw [← List.length_eq_zero_iff, ← List.length_eq_zero_iff, length_rtake]
  omega

/-- Nothing is dropped from a window of size zero: without items there is none to drop, and with
items it holds more than its size. -/
theorem add_of_size_eq_zero (items : List α) (a : α) :
    (⟨0, items⟩ : Window α).add a = ⟨0, items ++ [a]⟩ := by
  cases items with
  | nil => rfl
  | cons b items => rfl

theorem ofStream_zero (items : List α) : ofStream 0 items = ⟨0, items⟩ := by
  have hgrows : ∀ before : List α, items.foldl add ⟨0, before⟩ = ⟨0, before ++ items⟩ := by
    induction items with
    | nil => simp
    | cons a items ih =>
      intro before
      rw [List.foldl_cons, add_of_size_eq_zero, ih, List.append_assoc]
      rfl
  exact hgrows []

theorem mean_ofStream {K : Type} [Scalar K] (hn : 0 < n) (items : List α) (value : α → K) :
    (ofStream n items).mean value =
      if items = [] then Scalar.nan
      else Scalar.sum ((items.rtake n).map value) / Scalar.ofNat (min n items.length) := by
  rw [ofStream_eq hn, mean]
  simp only [List.isEmpty_iff, rtake_eq_nil_iff hn, length_rtake]

/-- Over exact numbers the mean is the average. -/
theorem mean_ofStream_real (hn : 0 < n) {items : List α} (h : items ≠ []) (value : α → ℝ) :
    ((ofStream n items).mean fun a => .real (value a) : Exact) =
      .real (((items.rtake n).map value).sum / (min n items.length : ℕ)) := by
  have hlength : ((min n items.length : ℕ) : ℝ) ≠ 0 := by
    have := List.length_pos_iff.mpr h
    exact Nat.cast_ne_zero.mpr (by omega)
  rw [mean_ofStream hn, if_neg h, Exact.sum_map_real, Exact.ofNat_eq, Exact.real_div hlength]

/-- A window of positive size holds the latest items of a stream, as many as its size allows, with
the oldest first, and its mean is that of just these. So it never holds more than its size. A window
of size zero holds the whole stream instead, and more than its size as soon as there is an item. -/
theorem ofStream_holds_latest {K : Type} [Scalar K] (size : ℕ) (items : List α) :
    (0 < size →
      (ofStream size items).items = items.rtake size ∧
      (ofStream size items).count = min size items.length ∧
      (∀ value : α → K, (ofStream size items).mean value =
        if items = [] then Scalar.nan
        else Scalar.sum ((items.rtake size).map value) / Scalar.ofNat (min size items.length)) ∧
      (items ≠ [] → ∀ value : α → ℝ,
        ((ofStream size items).mean fun a => .real (value a) : Exact) =
          .real (((items.rtake size).map value).sum / (min size items.length : ℕ)))) ∧
    (size = 0 → (ofStream size items).items = items ∧ (ofStream size items).count = items.length) ∧
    ((ofStream size items).count ≤ size ↔ 0 < size ∨ items = []) := by
  have hpositive : 0 < size → (ofStream size items).count = min size items.length := by
    intro hsize
    rw [count, ofStream_eq hsize, length_rtake]
  have hzero : size = 0 →
      (ofStream size items).items = items ∧ (ofStream size items).count = items.length := by
    rintro rfl
    rw [ofStream_zero]
    exact ⟨rfl, rfl⟩
  refine ⟨fun hsize => ⟨?_, hpositive hsize, ?_, ?_⟩, hzero, ?_⟩
  · rw [ofStream_eq hsize]
  · exact mean_ofStream hsize items
  · exact fun h => mean_ofStream_real hsize h
  · rcases Nat.eq_zero_or_pos size with hsize | hsize
    · rw [(hzero hsize).2, hsize]
      simp
    · rw [hpositive hsize]
      simp [hsize]

/-- Of three swaps a window of size two holds the last two, and a window of size zero all of them.
-/
theorem ofStream_holds_latest_swaps :
    (ofStream 2 [false, true, true]).items = [true, true] ∧
      (ofStream 2 [false, true, true]).count = 2 ∧
      ((ofStream 2 [false, true, true]).mean fun b => .real (if b then 1 else 0) : Exact) =
        .real 1 ∧
      (ofStream 0 [false, true, true]).count = 3 := by
  obtain ⟨hitems, hcount, -, hmean⟩ :=
    (ofStream_holds_latest (K := Exact) 2 [false, true, true]).1 (by decide)
  refine ⟨hitems, hcount, ?_, ((ofStream_holds_latest (K := Exact) 0 _).2.1 rfl).2⟩
  rw [hmean (by decide)]
  norm_num [List.rtake]

/-- A window of size zero holds the first item that it is given. -/
theorem not_count_le_of_size_zero : (ofStream 0 [true]).count ≠ min 0 [true].length ∧
    (ofStream 0 [true]).items ≠ [true].rtake (min 0 [true].length) := by
  constructor <;> decide

theorem sum_successes (items : List Bool) :
    Scalar.sum (items.map fun b => if b then (1 : Exact) else 0) = .real (items.count true) := by
  have hreal : (fun b : Bool => if b then (1 : Exact) else 0) =
      fun b => .real (if b then 1 else 0) := by
    funext b
    cases b <;> rfl
  have hcount : items.filter (fun b => b = true) = items.filter (· == true) :=
    List.filter_congr fun b _ => by cases b <;> rfl
  rw [hreal, Exact.sum_map_real, sum_map_ite_one, hcount, List.count_eq_length_filter]

theorem rate_eq {w : Window Bool} (h : w.items ≠ []) :
    (w.rate : Exact) = .real (w.items.count true / w.items.length) := by
  have hlength : (w.items.length : ℝ) ≠ 0 := by simpa using h
  unfold rate mean
  rw [if_neg (by simpa using h), sum_successes, Exact.ofNat_eq, Exact.real_div hlength]

end ScopedGrammar.Window
