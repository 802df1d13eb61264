import Mathlib.Algebra.BigOperators.Group.List.Basic
import Mathlib.Algebra.Order.BigOperators.Group.List
import Mathlib.Data.List.Forall2
import Mathlib.Data.List.Nodup
import Mathlib.Data.Nat.Cast.Defs

/-!
# Lists

Facts about lists that the theory of trees and scopes uses in several places: lists that are related
member by member, and members that are told apart by one of their features.
-/
namespace ScopedGrammar

variable {α β γ : Type}

section Forall₂

variable {R S : α → β → Prop} {xs : List α} {ys : List β}

theorem exists_of_forall₂ (h : List.Forall₂ R xs ys) : ∀ y ∈ ys, ∃ x ∈ xs, R x y := by
  induction h with
  | nil => simp
  | cons hxy _ ih =>
    intro y hy
    rcases List.mem_cons.mp hy with rfl | hy
    · exact ⟨_, List.mem_cons_self, hxy⟩
    · obtain ⟨x, hx, hR⟩ := ih y hy
      exact ⟨x, List.mem_cons_of_mem _ hx, hR⟩

theorem exists_forall₂ (h : ∀ y ∈ ys, ∃ x, R x y) : ∃ xs, List.Forall₂ R xs ys := by
  induction ys with
  | nil => exact ⟨[], .nil⟩
  | cons y ys ih =>
    obtain ⟨x, hx⟩ := h y List.mem_cons_self
    obtain ⟨xs, hxs⟩ := ih fun z hz => h z (List.mem_cons_of_mem _ hz)
    exact ⟨x :: xs, .cons hx hxs⟩

theorem forall₂_imp_of_mem (h : List.Forall₂ R xs ys)
    (himp : ∀ x ∈ xs, ∀ y ∈ ys, R x y → S x y) : List.Forall₂ S xs ys := by
  induction h with
  | nil => exact .nil
  | cons hxy _ ih =>
    exact .cons (himp _ List.mem_cons_self _ List.mem_cons_self hxy)
      (ih fun x hx y hy => himp x (List.mem_cons_of_mem _ hx) y (List.mem_cons_of_mem _ hy))

theorem forall₂_trans {T : β → γ → Prop} {U : α → γ → Prop} {zs : List γ}
    (h : List.Forall₂ R xs ys) (h' : List.Forall₂ T ys zs)
    (himp : ∀ x ∈ xs, ∀ y z, R x y → T y z → U x z) : List.Forall₂ U xs zs := by
  induction h generalizing zs with
  | nil =>
    cases h'
    exact .nil
  | cons hxy _ ih =>
    cases h' with
    | cons hyz hrest =>
      exact .cons (himp _ List.mem_cons_self _ _ hxy hyz)
        (ih hrest fun x hx => himp x (List.mem_cons_of_mem _ hx))

theorem forall₂_iff_getElem? :
    List.Forall₂ R xs ys ↔ ∀ i : ℕ, Option.Rel R xs[i]? ys[i]? := by
  induction xs generalizing ys with
  | nil =>
    cases ys with
    | nil => simp
    | cons y ys =>
      constructor
      · intro h
        cases h
      · intro h
        cases h 0
  | cons x xs ih =>
    cases ys with
    | nil =>
      constructor
      · intro h
        cases h
      · intro h
        cases h 0
    | cons y ys =>
      rw [List.forall₂_cons, ih]
      constructor
      · rintro ⟨hxy, hrest⟩ i
        cases i with
        | zero => exact .some hxy
        | succ i => exact hrest i
      · intro h
        refine ⟨?_, fun i => h (i + 1)⟩
        cases h 0 with
        | some hxy => exact hxy

/-- Lists that are related to a common one are related to each other where the common members relate
theirs. -/
theorem forall₂_of_common {T : α → γ → Prop} {U : β → γ → Prop} {zs : List γ}
    (h : List.Forall₂ R xs ys) (h' : List.Forall₂ T xs zs)
    (himp : ∀ (i : ℕ) x y z, xs[i]? = some x → ys[i]? = some y → zs[i]? = some z →
      R x y → T x z → U y z) : List.Forall₂ U ys zs := by
  rw [forall₂_iff_getElem?] at *
  intro i
  have hy := h i
  have hz := h' i
  have himp := himp i
  revert hy hz himp
  generalize xs[i]? = x?
  generalize ys[i]? = y?
  generalize zs[i]? = z?
  rintro (⟨hR⟩ | _) hz himp
  · cases hz with
    | some hT => exact .some (himp _ _ _ rfl rfl rfl hR hT)
  · cases hz
    exact .none

theorem exists_append_of_forall₂ {ys' : List β} (h : List.Forall₂ R xs (ys ++ ys')) :
    ∃ us us', xs = us ++ us' ∧ List.Forall₂ R us ys ∧ List.Forall₂ R us' ys' :=
  ⟨_, _, (List.take_append_drop ys.length xs).symm, List.forall₂_take_append xs ys ys' h,
    List.forall₂_drop_append xs ys ys' h⟩

/-- Lists with an exchanged member are related if the other members are and the new one is. -/
theorem forall₂_set_iff {i : ℕ} {x : α} (hi : i < xs.length) : List.Forall₂ R (xs.set i x) ys ↔
    (∀ j, j ≠ i → Option.Rel R xs[j]? ys[j]?) ∧ ∃ y, ys[i]? = some y ∧ R x y := by
  rw [forall₂_iff_getElem?]
  constructor
  · intro h
    refine ⟨fun j hj => ?_, ?_⟩
    · have hother := h j
      rwa [List.getElem?_set_ne (Ne.symm hj)] at hother
    · have hhere := h i
      rw [List.getElem?_set_self hi] at hhere
      revert hhere
      generalize ys[i]? = y?
      rintro ⟨hxy⟩
      exact ⟨_, rfl, hxy⟩
  · rintro ⟨hothers, y, hy, hxy⟩ j
    by_cases hj : j = i
    · subst hj
      rw [List.getElem?_set_self hi, hy]
      exact .some hxy
    · rw [List.getElem?_set_ne (Ne.symm hj)]
      exact hothers j hj

theorem map_eq_of_forall₂ {f : α → γ} {f' : β → γ} (h : List.Forall₂ R xs ys)
    (hf : ∀ x y, R x y → f x = f' y) : xs.map f = ys.map f' := by
  induction h with
  | nil => rfl
  | cons hxy _ ih => rw [List.map_cons, List.map_cons, hf _ _ hxy, ih]

theorem forall₂_filter {q : α → Bool} {q' : β → Bool} (h : List.Forall₂ R xs ys)
    (hq : ∀ x y, R x y → q x = q' y) : List.Forall₂ R (xs.filter q) (ys.filter q') := by
  induction h with
  | nil => exact .nil
  | @cons x y xs ys hxy _ ih =>
    rw [List.filter_cons, List.filter_cons, hq x y hxy]
    split
    · exact .cons hxy ih
    · exact ih

theorem isSome_eq_of_rel {x : Option α} {y : Option β} (h : Option.Rel R x y) :
    x.isSome = y.isSome := by
  cases h <;> rfl

end Forall₂

theorem sum_map_eq_zero {M : Type} [AddMonoid M] {f : α → M} {xs : List α}
    (h : ∀ x ∈ xs, f x = 0) : (xs.map f).sum = 0 := by
  refine List.sum_eq_zero fun z hz => ?_
  obtain ⟨x, hx, rfl⟩ := List.mem_map.mp hz
  exact h x hx

theorem sum_map_eq_single {M : Type} [AddMonoid M] {f : α → M} {xs : List α} {x : α} (hx : x ∈ xs)
    (hnodup : xs.Nodup) (h : ∀ y ∈ xs, y ≠ x → f y = 0) : (xs.map f).sum = f x := by
  induction xs with
  | nil => simp at hx
  | cons y xs ih =>
    obtain ⟨hy, hxs⟩ := List.nodup_cons.mp hnodup
    rw [List.map_cons, List.sum_cons]
    rcases List.mem_cons.mp hx with rfl | hx
    · rw [sum_map_eq_zero fun z hz => ?_, add_zero]
      exact h z (List.mem_cons_of_mem _ hz) fun heq => hy (heq ▸ hz)
    · rw [h y List.mem_cons_self fun heq => hy (heq ▸ hx), zero_add]
      exact ih hx hxs fun z hz => h z (List.mem_cons_of_mem _ hz)

theorem sum_map_pos_iff {M : Type} [AddCommMonoid M] [LinearOrder M] [IsOrderedAddMonoid M]
    {f : α → M} {xs : List α} (h : ∀ x ∈ xs, 0 ≤ f x) :
    0 < (xs.map f).sum ↔ ∃ x ∈ xs, 0 < f x := by
  constructor
  · intro hpos
    by_contra hno
    push Not at hno
    exact hpos.ne' (sum_map_eq_zero fun x hx => le_antisymm (hno x hx) (h x hx))
  · rintro ⟨x, hx, hpos⟩
    refine hpos.trans_le (List.single_le_sum (fun z hz => ?_) _ (List.mem_map_of_mem hx))
    obtain ⟨y, hy, rfl⟩ := List.mem_map.mp hz
    exact h y hy

theorem sum_map_ite_one {M : Type} [AddCommMonoidWithOne M] (P : α → Prop) [DecidablePred P]
    (xs : List α) :
    (xs.map fun x => if P x then (1 : M) else 0).sum = (xs.filter fun x => P x).length := by
  induction xs with
  | nil => simp
  | cons x xs ih =>
    by_cases hx : P x
    · simp [hx, ih, add_comm]
    · simp [hx, ih]

theorem sum_set_add {M : Type} [AddCommMonoid M] {ns : List M} {i : ℕ} {m : M}
    (h : ns[i]? = some m) (k : M) : (ns.set i (m + k)).sum = ns.sum + k := by
  induction ns generalizing i with
  | nil => cases h
  | cons n ns ih =>
    cases i with
    | zero =>
      cases h
      rw [List.set_cons_zero, List.sum_cons, List.sum_cons, add_right_comm]
    | succ i => rw [List.set_cons_succ, List.sum_cons, List.sum_cons, ih h, add_assoc]

/-- If one member passes a test, it stands at one position. -/
theorem existsUnique_of_countP {q : α → Bool} {xs : List α} (h : xs.countP q = 1) :
    ∃! i : ℕ, ∃ x, xs[i]? = some x ∧ q x = true := by
  induction xs with
  | nil => simp at h
  | cons x xs ih =>
    by_cases hx : q x = true
    · rw [List.countP_cons_of_pos hx, Nat.add_eq_right, List.countP_eq_zero] at h
      refine ⟨0, ⟨x, rfl, hx⟩, ?_⟩
      rintro (_ | i) ⟨y, hy, hqy⟩
      · rfl
      · exact absurd hqy (h y (List.mem_of_getElem? hy))
    · rw [List.countP_cons_of_neg hx] at h
      obtain ⟨i, hi, hunique⟩ := ih h
      refine ⟨i + 1, hi, ?_⟩
      rintro (_ | j) ⟨y, hy, hqy⟩
      · obtain rfl : x = y := Option.some.inj hy
        exact absurd hqy hx
      · exact congrArg (· + 1) (hunique j ⟨y, hy, hqy⟩)

section Features

variable [DecidableEq β] {f : α → β}

theorem filter_eq_singleton {xs : List α} {x : α} (hnodup : (xs.map f).Nodup) (hx : x ∈ xs) :
    (xs.filter fun y => f y = f x) = [x] := by
  induction xs with
  | nil => simp at hx
  | cons y xs ih =>
    obtain ⟨hy, hxs⟩ := List.nodup_cons.mp hnodup
    rcases List.mem_cons.mp hx with rfl | hx
    · have hnone : (xs.filter fun z => f z = f x) = [] := by
        simp only [List.filter_eq_nil_iff, decide_eq_true_eq]
        exact fun z hz heq => hy (heq ▸ List.mem_map_of_mem hz)
      simp [hnone]
    · have hne : f y ≠ f x := fun heq => hy (heq ▸ List.mem_map_of_mem hx)
      simp [hne, ih hxs hx]

end Features

section Association

variable [BEq α] [LawfulBEq α] {pairs : List (α × β)} {a : α}

theorem lookup_of_mem {b : β} (hnodup : (pairs.map (·.1)).Nodup) (h : (a, b) ∈ pairs) :
    pairs.lookup a = some b := by
  induction pairs with
  | nil => simp at h
  | cons pair pairs ih =>
    obtain ⟨hpair, hpairs⟩ := List.nodup_cons.mp hnodup
    rcases List.mem_cons.mp h with rfl | h
    · simp
    · have hne : (a == pair.1) = false := by
        rw [beq_eq_false_iff_ne]
        rintro rfl
        exact hpair (List.mem_map.mpr ⟨_, h, rfl⟩)
      rw [List.lookup_cons, hne, ih hpairs h]

theorem lookup_filter (q : α → Bool) (ha : q a = true) :
    (pairs.filter fun pair => q pair.1).lookup a = pairs.lookup a := by
  induction pairs with
  | nil => rfl
  | cons pair pairs ih =>
    rw [List.filter_cons]
    by_cases heq : a = pair.1
    · rw [← heq, if_pos ha, List.lookup_cons, List.lookup_cons, ← heq, beq_self_eq_true]
    · have hne : (a == pair.1) = false := beq_eq_false_iff_ne.mpr heq
      split
      · rw [List.lookup_cons, List.lookup_cons, hne, ih]
      · rw [List.lookup_cons, hne, ih]

end Association

theorem getElem?_concat_eq_some {xs : List α} {x y : α} {i : ℕ} :
    (xs ++ [x])[i]? = some y ↔ xs[i]? = some y ∨ i = xs.length ∧ y = x := by
  rcases Nat.lt_trichotomy i xs.length with hi | rfl | hi
  · simp [List.getElem?_append_left hi, Nat.ne_of_lt hi]
  · simp [eq_comm]
  · have hout : (xs ++ [x])[i]? = none :=
      List.getElem?_eq_none (by rw [List.length_append]; exact hi)
    simp [hout, List.getElem?_eq_none hi.le, Nat.ne_of_gt hi]

theorem eraseDups_concat [DecidableEq α] (xs : List α) (x : α) :
    (xs ++ [x]).eraseDups = if x ∈ xs then xs.eraseDups else xs.eraseDups ++ [x] := by
  rw [List.eraseDups_append]
  by_cases hx : x ∈ xs
  · simp [hx, List.removeAll]
  · simp [hx, List.removeAll, List.eraseDups_cons]

theorem filter_zipIdx_getElem? (q : α → Bool) (pre xs : List α) :
    (((xs.zipIdx pre.length).filter fun p => q p.1).map (·.2)).filterMap
      (fun i => (pre ++ xs)[i]?) = xs.filter q := by
  induction xs generalizing pre with
  | nil => rfl
  | cons x xs ih =>
    have hrest := ih (pre ++ [x])
    rw [List.length_append, List.length_singleton, List.append_assoc, List.singleton_append]
      at hrest
    rw [List.zipIdx_cons, List.filter_cons, List.filter_cons]
    cases q x
    · simpa using hrest
    · simpa using hrest

end ScopedGrammar
