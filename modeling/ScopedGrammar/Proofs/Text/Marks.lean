import Mathlib.Data.List.Basic
import Std.Data.String.ToNat
import ScopedGrammar.Tree.Canonical

/-!
# Plain names and marks

A plain name holds no digit and none of the characters that canonical texts are punctuated with;
letters and underscores are all plain. The printed name of a variable is a plain stem, a number and
possibly a prime. So a text can be cut where the first character of another class begins, in only
one way, and the parts of a printed name can be told apart.
-/
namespace ScopedGrammar

/-- The characters between the parts of a canonical text. -/
def separators : List Char := ['<', '>', '(', ')', ':', ',', ' ']

/-- Neither a digit nor a separator nor a prime. -/
def PlainChar (c : Char) : Prop := c.isDigit = false ∧ c ∉ separators ∧ c ≠ '\''

/-- A name of plain characters only. -/
def PlainName (s : String) : Prop := ∀ c ∈ s.toList, PlainChar c

section Cutting

variable {α : Type} {P : α → Prop} {xs xs' ys ys' : List α}

/-- The list is at its end, or its next member is of the class. -/
def Begins (P : α → Prop) (ys : List α) : Prop := ∀ y ∈ ys.head?, P y

/-- Two texts cut where a class of characters begins are the same in both parts. -/
theorem append_cancel_begins (h : xs ++ ys = xs' ++ ys') (hxs : ∀ x ∈ xs, ¬ P x)
    (hxs' : ∀ x ∈ xs', ¬ P x) (hys : Begins P ys) (hys' : Begins P ys') : xs = xs' ∧ ys = ys' := by
  induction xs generalizing xs' with
  | nil =>
    cases xs' with
    | nil => exact ⟨rfl, h⟩
    | cons x xs' =>
      obtain rfl : ys = x :: xs' ++ ys' := h
      exact absurd (hys x rfl) (hxs' x List.mem_cons_self)
  | cons x xs ih =>
    cases xs' with
    | nil =>
      obtain rfl : x :: xs ++ ys = ys' := h
      exact absurd (hys' x rfl) (hxs x List.mem_cons_self)
    | cons x' xs' =>
      obtain ⟨rfl, hrest⟩ := List.cons.inj h
      obtain ⟨rfl, rfl⟩ := ih hrest (fun y hy => hxs y (List.mem_cons_of_mem _ hy))
        fun y hy => hxs' y (List.mem_cons_of_mem _ hy)
      exact ⟨rfl, rfl⟩

end Cutting

/-- The printed name of a variable: a stem, the depth of its binder, and a prime if the binder is
outside of what is printed. -/
def markText (stem : String) (depth : Nat) (outer : Bool) : String :=
  stem ++ toString depth ++ if outer then "'" else ""

theorem toList_markText (stem : String) (depth : Nat) (outer : Bool) :
    (markText stem depth outer).toList =
      stem.toList ++ (toString depth).toList ++ if outer then ['\''] else [] := by
  cases outer <;> simp [markText]

theorem toList_toString (n : Nat) : (toString n).toList = Nat.toDigits 10 n := by
  simp

theorem isDigit_of_mem_toString {n : Nat} {c : Char} (h : c ∈ (toString n).toList) :
    c.isDigit = true := by
  rw [toList_toString] at h
  exact Nat.isDigit_of_mem_toDigits (by decide) (by decide) h

theorem begins_toString (n : Nat) (cs : List Char) :
    Begins (fun c => c.isDigit = true) ((toString n).toList ++ cs) := by
  intro c hc
  have hne : (toString n).toList ≠ [] := by
    rw [toList_toString]
    exact Nat.toDigits_ne_nil
  rw [List.head?_append_of_ne_nil _ hne] at hc
  exact isDigit_of_mem_toString (List.mem_of_mem_head? hc)

/-- The parts of a printed name can be read off it. -/
theorem markText_inj {stem stem' : String} {depth depth' : Nat} {outer outer' : Bool}
    (hstem : PlainName stem) (hstem' : PlainName stem')
    (h : markText stem depth outer = markText stem' depth' outer') :
    stem = stem' ∧ depth = depth' ∧ outer = outer' := by
  have hchars := congrArg String.toList h
  rw [toList_markText, toList_markText, List.append_assoc, List.append_assoc] at hchars
  have hplain : ∀ {s : String}, PlainName s → ∀ c ∈ s.toList, ¬ c.isDigit = true :=
    fun hs c hc => by simp [(hs c hc).1]
  obtain ⟨hs, hrest⟩ := append_cancel_begins hchars (hplain hstem) (hplain hstem')
    (begins_toString _ _) (begins_toString _ _)
  have hdigits : ∀ {n : Nat}, ∀ c ∈ (toString n).toList, ¬ c = '\'' := by
    rintro n c hc rfl
    exact absurd (isDigit_of_mem_toString hc) (by decide)
  have hprime : ∀ {b : Bool}, Begins (fun c => c = '\'') (if b then ['\''] else []) := by
    intro b
    cases b <;> simp [Begins]
  obtain ⟨hn, hp⟩ := append_cancel_begins hrest hdigits hdigits hprime hprime
  refine ⟨String.toList_inj.mp hs, Nat.repr_injective (String.toList_inj.mp hn), ?_⟩
  cases outer <;> cases outer' <;> simp_all

/-- A printed name holds a digit, so it is no plain name. -/
theorem markText_ne_of_plain {stem s : String} {depth : Nat} {outer : Bool} (hs : PlainName s) :
    markText stem depth outer ≠ s := by
  rintro rfl
  obtain ⟨c, hc⟩ := List.exists_mem_of_ne_nil _ (Nat.toDigits_ne_nil (b := 10) (n := depth))
  have hmem : c ∈ (markText stem depth outer).toList := by
    rw [toList_markText, toList_toString]
    simp [hc]
  have hdigit : c.isDigit = true := isDigit_of_mem_toString (toList_toString depth ▸ hc)
  simp [(hs c hmem).1] at hdigit

/-- A printed name holds no separator. -/
theorem mem_markText {stem : String} {depth : Nat} {outer : Bool} (hstem : PlainName stem) {c : Char}
    (hc : c ∈ (markText stem depth outer).toList) : c ∉ separators := by
  rw [toList_markText, List.mem_append, List.mem_append] at hc
  rcases hc with (hc | hc) | hc
  · exact (hstem c hc).2.1
  · have hdigit := isDigit_of_mem_toString hc
    intro hmem
    simp only [separators, List.mem_cons, List.not_mem_nil, or_false] at hmem
    rcases hmem with rfl | rfl | rfl | rfl | rfl | rfl | rfl <;> exact absurd hdigit (by decide)
  · cases outer
    · simp at hc
    · obtain rfl : c = '\'' := by simpa using hc
      decide

/-- No name of the supply is plain. -/
theorem nameOf_ne_of_plain {s : String} (hs : PlainName s) (n : Nat) :
    s ≠ NameSupply.nameOf n := by
  rintro rfl
  obtain ⟨c, hc⟩ := List.exists_mem_of_ne_nil _ (Nat.toDigits_ne_nil (b := 10) (n := n))
  have hmem : c ∈ (NameSupply.nameOf n).toList := by
    rw [NameSupply.nameOf, String.toList_append, toList_toString]
    exact List.mem_append_right _ hc
  have hdigit : c.isDigit = true := isDigit_of_mem_toString (toList_toString n ▸ hc)
  simp [(hs c hmem).1] at hdigit

end ScopedGrammar
