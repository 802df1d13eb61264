import ScopedGrammar.Listing
import ScopedGrammar.Proofs.Lists

/-!
# Reading listings

Whoever reads a listing may take names between two items, so a listing has as many readings as there
are ways to do so. What is shown here holds of all of them: the supply of names grows from a first
state on, each item has a property in view of the names issued when it comes up, and the number of
items with another property is always the same.
-/
namespace ScopedGrammar

variable {α β : Type}

namespace Listing

/-- The items of a listing, read to its end. -/
inductive Reads : Listing α → List α → Prop
  | done (s : NameSupply) : Reads (.done s) []
  | item {a : α} {s s' : NameSupply} {rest : NameSupply → Listing α} {as : List α}
      (taken : s.issued ≤ s'.issued) (others : Reads (rest s') as) :
      Reads (.item a s rest) (a :: as)

theorem reads_toList (l : Listing α) : l.Reads l.toList := by
  induction l with
  | done s => exact .done s
  | item a s rest ih => exact .item (Nat.le_refl _) (ih s)

theorem reads_append {l : Listing α} {next : Lister α} {as : List α}
    (h : (l.append next).Reads as) :
    ∃ xs ys s, as = xs ++ ys ∧ l.Reads xs ∧ (next s).Reads ys := by
  induction l generalizing as with
  | done s => exact ⟨[], as, s, rfl, .done s, h⟩
  | item a s rest ih =>
    cases h with
    | item taken others =>
      obtain ⟨xs, ys, s', rfl, hxs, hys⟩ := ih _ others
      exact ⟨a :: xs, ys, s', rfl, .item taken hxs, hys⟩

/-- However the listing is read, the supply grows from `lo` on, `P` holds of each item, and `Q`
holds of as many as given. -/
inductive Meets (P : α → NameSupply → Prop) (Q : α → Prop) :
    NameSupply → ℕ → Listing α → Prop
  | done {lo s : NameSupply} (grown : lo.issued ≤ s.issued) : Meets P Q lo 0 (.done s)
  | hit {lo s : NameSupply} {n : ℕ} {a : α} {rest : NameSupply → Listing α}
      (grown : lo.issued ≤ s.issued) (holds : P a s) (counted : Q a)
      (others : ∀ s', s.issued ≤ s'.issued → Meets P Q s' n (rest s')) :
      Meets P Q lo (n + 1) (.item a s rest)
  | miss {lo s : NameSupply} {n : ℕ} {a : α} {rest : NameSupply → Listing α}
      (grown : lo.issued ≤ s.issued) (holds : P a s) (skipped : ¬ Q a)
      (others : ∀ s', s.issued ≤ s'.issued → Meets P Q s' n (rest s')) :
      Meets P Q lo n (.item a s rest)

namespace Meets

variable {P P' : α → NameSupply → Prop} {Q Q' : α → Prop} {R : β → NameSupply → Prop}
  {T : β → Prop} {lo lo' s : NameSupply} {m n : ℕ} {l : Listing α}

theorem mono (h : Meets P Q lo n l) (hlo : lo'.issued ≤ lo.issued) : Meets P Q lo' n l := by
  cases h with
  | done grown => exact .done (Nat.le_trans hlo grown)
  | hit grown holds counted others => exact .hit (Nat.le_trans hlo grown) holds counted others
  | miss grown holds skipped others => exact .miss (Nat.le_trans hlo grown) holds skipped others

theorem never (h : Meets P Q lo n l) (hnot : ∀ a s, P a s → ¬ Q' a) : Meets P Q' lo 0 l := by
  induction h with
  | done grown => exact .done grown
  | hit grown holds _ _ ih => exact .miss grown holds (hnot _ _ holds) ih
  | miss grown holds _ _ ih => exact .miss grown holds (hnot _ _ holds) ih

theorem imp (h : Meets P Q lo n l) (himp : ∀ a s, lo.issued ≤ s.issued → P a s → P' a s) :
    Meets P' Q lo n l := by
  induction h with
  | done grown => exact .done grown
  | hit grown holds counted _ ih =>
    exact .hit grown (himp _ _ grown holds) counted fun s' hs' =>
      ih s' hs' fun a u hu => himp a u (by omega)
  | miss grown holds skipped _ ih =>
    exact .miss grown (himp _ _ grown holds) skipped fun s' hs' =>
      ih s' hs' fun a u hu => himp a u (by omega)

theorem append {next : Lister α} (h : Meets P Q lo n l)
    (hnext : ∀ s, lo.issued ≤ s.issued → Meets P Q s m (next s)) :
    Meets P Q lo (n + m) (l.append next) := by
  induction h with
  | done grown =>
    rw [Nat.zero_add]
    exact (hnext _ grown).mono grown
  | hit grown holds counted _ ih =>
    rw [Nat.add_right_comm]
    exact .hit grown holds counted fun s' hs' => ih s' hs' fun u hu => hnext u (by omega)
  | miss grown holds skipped _ ih =>
    exact .miss grown holds skipped fun s' hs' => ih s' hs' fun u hu => hnext u (by omega)

theorem zero_append {next : Lister α} (h : Meets P Q lo 0 l)
    (hnext : ∀ s, lo.issued ≤ s.issued → Meets P Q s m (next s)) :
    Meets P Q lo m (l.append next) := by
  have happend := h.append hnext
  rwa [Nat.zero_add] at happend

theorem map {f : α → β} (h : Meets P Q lo n l) (hf : ∀ a s, P a s → R (f a) s)
    (hiff : ∀ a s, P a s → (Q a ↔ T (f a))) : Meets R T lo n (l.map f) := by
  induction h with
  | done grown => exact .done grown
  | hit grown holds counted _ ih =>
    exact .hit grown (hf _ _ holds) ((hiff _ _ holds).mp counted) ih
  | miss grown holds skipped _ ih =>
    exact .miss grown (hf _ _ holds) (mt (hiff _ _ holds).mpr skipped) ih

end Meets

theorem flatMap_item (a : α) (s : NameSupply) (rest : NameSupply → Listing α) (f : α → Lister β) :
    (item a s rest).flatMap f = (f a s).append fun s => (rest s).flatMap f := by
  rw [flatMap]
  cases f a s <;> rfl

/-- However the listing is read, the supply grows, and each item has the property. -/
abbrev Always (P : α → NameSupply → Prop) (lo : NameSupply) (l : Listing α) : Prop :=
  Meets P (fun _ => False) lo 0 l

theorem Always.map {P : α → NameSupply → Prop} {R : β → NameSupply → Prop} {lo : NameSupply}
    {l : Listing α} {f : α → β} (h : Always P lo l) (hf : ∀ a s, P a s → R (f a) s) :
    Always R lo (l.map f) :=
  Meets.map h hf fun _ _ _ => Iff.rfl

/-- Each item is followed by a listing of its own, in which one is counted if the item is. -/
theorem Meets.flatMap {P : α → NameSupply → Prop} {Q : α → Prop} {R : β → NameSupply → Prop}
    {T : β → Prop} {lo : NameSupply} {n : ℕ} {l : Listing α} {f : α → Lister β}
    (h : Meets P Q lo n l)
    (hf : ∀ a s, lo.issued ≤ s.issued → P a s →
      (Q a → Meets R T s 1 (f a s)) ∧ (¬ Q a → Meets R T s 0 (f a s))) :
    Meets R T lo n (l.flatMap f) := by
  induction h with
  | done grown => exact .done grown
  | @hit lo s n a rest grown holds counted _ ih =>
    rw [flatMap_item, Nat.add_comm]
    refine (((hf a s grown holds).1 counted).append fun s' hs' => ?_).mono grown
    exact ih s' hs' fun b u hu => hf b u (by omega)
  | @miss lo s n a rest grown holds skipped _ ih =>
    rw [flatMap_item]
    refine (((hf a s grown holds).2 skipped).zero_append fun s' hs' => ?_).mono grown
    exact ih s' hs' fun b u hu => hf b u (by omega)

/-- What is shown of all readings holds of each. -/
theorem Meets.of_reads {P : α → NameSupply → Prop} {Q : α → Prop} [DecidablePred Q]
    {lo : NameSupply} {n : ℕ} {l : Listing α} {as : List α} (h : Meets P Q lo n l)
    (hreads : l.Reads as) :
    (∀ a ∈ as, ∃ s, lo.issued ≤ s.issued ∧ P a s) ∧ as.countP (Q ·) = n := by
  induction h generalizing as with
  | done grown =>
    cases hreads
    exact ⟨by simp, rfl⟩
  | @hit lo s n a rest grown holds counted _ ih =>
    cases hreads with
    | @item _ _ s' _ as taken others =>
      obtain ⟨hall, hcount⟩ := ih s' taken others
      refine ⟨List.forall_mem_cons.mpr ⟨⟨s, grown, holds⟩, fun b hb => ?_⟩, ?_⟩
      · obtain ⟨u, hu, hP⟩ := hall b hb
        exact ⟨u, by omega, hP⟩
      · rw [List.countP_cons_of_pos (by simpa using counted), hcount]
  | @miss lo s n a rest grown holds skipped _ ih =>
    cases hreads with
    | @item _ _ s' _ as taken others =>
      obtain ⟨hall, hcount⟩ := ih s' taken others
      refine ⟨List.forall_mem_cons.mpr ⟨⟨s, grown, holds⟩, fun b hb => ?_⟩, ?_⟩
      · obtain ⟨u, hu, hP⟩ := hall b hb
        exact ⟨u, by omega, hP⟩
      · rw [List.countP_cons_of_neg (by simpa using skipped), hcount]

end Listing

namespace Lister

theorem ascending_succ (f : ℕ → Lister β) (first count : ℕ) (s : NameSupply) :
    ascending f first (count + 1) s = (f first s).append (ascending f (first + 1) count) := by
  rw [ascending]
  cases f first s <;> rfl

variable {P : β → NameSupply → Prop} {Q : β → Prop} {lo s : NameSupply}

theorem concat_congr {f f' : α → Lister β} {as : List α} (h : ∀ a ∈ as, f a = f' a) :
    concat f as = concat f' as := by
  induction as with
  | nil => rfl
  | cons a as ih =>
    have hrest := ih fun b hb => h b (List.mem_cons_of_mem _ hb)
    funext s
    rw [concat_cons, concat_cons, hrest, h a List.mem_cons_self]

theorem meets_nil (s : NameSupply) : Listing.Meets P Q s 0 (nil s) := .done (Nat.le_refl _)

theorem meets_singleton {b : β} (hb : P b s) (hQ : Q b) : Listing.Meets P Q s 1 (singleton b s) :=
  .hit (Nat.le_refl _) hb hQ fun _ _ => .done (Nat.le_refl _)

theorem always_singleton {b : β} (hb : P b s) : Listing.Always P s (singleton b s) :=
  .miss (Nat.le_refl _) hb id fun _ _ => .done (Nat.le_refl _)

theorem meets_concat_zero {f : α → Lister β} {as : List α}
    (h : ∀ a ∈ as, ∀ s, lo.issued ≤ s.issued → Listing.Meets P Q s 0 (f a s))
    (hs : lo.issued ≤ s.issued) : Listing.Meets P Q s 0 (concat f as s) := by
  induction as generalizing s with
  | nil => exact .done (Nat.le_refl _)
  | cons a as ih =>
    rw [concat_cons]
    refine (h a List.mem_cons_self s hs).zero_append fun s' hs' => ?_
    exact ih (fun b hb => h b (List.mem_cons_of_mem a hb)) (Nat.le_trans hs hs')

/-- If the listing of one member counts one and no other counts any, all together count one. -/
theorem meets_concat_one {f : α → Lister β} {as : List α} {a : α} (ha : a ∈ as) (hnodup : as.Nodup)
    (hone : ∀ s, lo.issued ≤ s.issued → Listing.Meets P Q s 1 (f a s))
    (hnone : ∀ b ∈ as, b ≠ a → ∀ s, lo.issued ≤ s.issued → Listing.Meets P Q s 0 (f b s))
    (hs : lo.issued ≤ s.issued) : Listing.Meets P Q s 1 (concat f as s) := by
  induction as generalizing s with
  | nil => cases ha
  | cons b as ih =>
    obtain ⟨hb, hnodup⟩ := List.nodup_cons.mp hnodup
    have hothers : ∀ c ∈ as, c ≠ a → ∀ s, lo.issued ≤ s.issued →
        Listing.Meets P Q s 0 (f c s) := fun c hc => hnone c (List.mem_cons_of_mem b hc)
    rw [concat_cons]
    rcases List.mem_cons.mp ha with rfl | ha
    · exact (hone s hs).append fun s' hs' => meets_concat_zero
        (fun c hc => hothers c hc (ne_of_mem_of_not_mem hc hb)) (Nat.le_trans hs hs')
    · refine (hnone b List.mem_cons_self (ne_of_mem_of_not_mem ha hb).symm s hs).zero_append
        fun s' hs' => ?_
      exact ih ha hnodup hothers (Nat.le_trans hs hs')

end Lister

end ScopedGrammar
