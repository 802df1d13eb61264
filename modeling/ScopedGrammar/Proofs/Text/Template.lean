import Mathlib.Data.List.Infix
import ScopedGrammar.Tree.Rendering

/-!
# How templates are filled

A template is cut into pieces at its marks. Filled as it is meant to be, each mark has been
exchanged for the text of one argument and the pieces are as they were. The texts are put in one
after the other, each at the first mark of what is there by then. So a text gets to the mark of its
own as long as there is no mark in front of it, and the first time that there is one it gets there
instead.
-/
namespace ScopedGrammar

namespace Text

variable {pattern filling text front rest : List Char}

theorem occurs_iff : occurs pattern text = true ↔ pattern <:+: text := by
  induction text with
  | nil => simp [occurs]
  | cons c cs ih => simp [occurs, ih, List.infix_cons_iff]

theorem replaceFirstChars_of_not_infix (h : ¬ pattern <:+: text) :
    replaceFirstChars pattern filling text = text := by
  induction text with
  | nil => rfl
  | cons c cs ih =>
    rw [List.infix_cons_iff, not_or, ← List.isPrefixOf_iff_prefix] at h
    rw [replaceFirstChars, if_neg h.1, ih h.2]

theorem append_dropLast_isPrefix (pattern front rest : List Char) :
    front ++ pattern.dropLast <+: front ++ pattern ++ rest := by
  have hshort : pattern.dropLast <+: pattern := List.dropLast_prefix pattern
  rw [List.append_assoc, List.prefix_append_right_inj]
  exact hshort.trans (List.prefix_append pattern rest)

/-- An occurrence is exchanged if no other one ends before it does. -/
theorem replaceFirstChars_append (hne : pattern ≠ []) (h : ¬ pattern <:+: front ++ pattern.dropLast) :
    replaceFirstChars pattern filling (front ++ pattern ++ rest) = front ++ filling ++ rest := by
  induction front with
  | nil =>
    obtain ⟨c, cs, rfl⟩ := List.exists_cons_of_ne_nil hne
    rw [List.nil_append, List.cons_append, replaceFirstChars, if_pos (by simp)]
    simp
  | cons c front ih =>
    rw [List.cons_append, List.infix_cons_iff, not_or] at h
    have hlater : ¬ pattern <+: c :: (front ++ pattern ++ rest) := by
      intro hpre
      have hshort := append_dropLast_isPrefix pattern (c :: front) rest
      refine h.1 (List.prefix_of_prefix_length_le hpre hshort ?_)
      rw [List.length_cons, List.length_append, List.length_dropLast]
      omega
    rw [List.cons_append, List.cons_append, replaceFirstChars,
      if_neg (by rwa [List.isPrefixOf_iff_prefix]), ih h.2]
    rfl

/-- A text with an occurrence can be taken apart at the first one. -/
theorem exists_first_infix (hne : pattern ≠ []) (h : pattern <:+: text) :
    ∃ front rest, text = front ++ pattern ++ rest ∧ ¬ pattern <:+: front ++ pattern.dropLast := by
  induction text with
  | nil => exact absurd (List.eq_nil_of_infix_nil h) hne
  | cons c cs ih =>
    by_cases hpre : pattern <+: c :: cs
    · obtain ⟨rest, hrest⟩ := hpre
      refine ⟨[], rest, hrest.symm, fun hinfix => ?_⟩
      have hlength := hinfix.length_le
      have hpos := List.length_pos_iff.mpr hne
      rw [List.nil_append, List.length_dropLast] at hlength
      omega
    · obtain ⟨front, rest, rfl, hfirst⟩ := ih ((List.infix_cons_iff.mp h).resolve_left hpre)
      refine ⟨c :: front, rest, rfl, fun hinfix => ?_⟩
      rw [List.cons_append, List.infix_cons_iff] at hinfix
      exact hinfix.elim
        (fun hshort => hpre (hshort.trans (append_dropLast_isPrefix pattern (c :: front) rest))) hfirst

end Text

namespace Template

/-- The mark of an argument, by its characters. -/
def mark : List Char := ['%', 's']

/-- The pieces of a template, cut at its marks. -/
def pieces : List Char → List (List Char)
  | [] => [[]]
  | '%' :: 's' :: cs => [] :: pieces cs
  | c :: cs => (pieces cs).modifyHead (c :: ·)

/-- Put one text between any two pieces. If there are not enough of them the other marks stay, and
if there are more they are left out. -/
def interleave : List (List Char) → List (List Char) → List Char
  | [], _ => []
  | [p], _ => p
  | p :: q :: ps, [] => p ++ mark ++ interleave (q :: ps) []
  | p :: q :: ps, a :: as => p ++ a ++ interleave (q :: ps) as

/-- What is in front of the mark of number `k`, counted from zero, or in front of the end if there
is no such mark, when the texts for the marks before it have been put in. -/
def inFrontOf (ps texts : List (List Char)) (k : ℕ) : List Char :=
  interleave (ps.take (k + 1)) (texts.take k)

/-- The mark of number `k`, if there is one, and what is behind it. -/
def fromMark (ps : List (List Char)) (k : ℕ) : List Char := (ps.drop (k + 1)).flatMap (mark ++ ·)

variable {text front piece : List Char} {ps texts : List (List Char)} {k : ℕ}

section Pieces

theorem pieces_ne_nil (cs : List Char) : pieces cs ≠ [] := by
  induction cs using pieces.induct with
  | case1 => simp [pieces]
  | case2 cs ih => simp [pieces]
  | case3 c cs h ih =>
    rw [pieces.eq_3 c cs h]
    cases hps : pieces cs with
    | nil => exact absurd hps ih
    | cons p ps => simp

/-- Put together with its marks a template is what it was. -/
theorem interleave_pieces (cs : List Char) : interleave (pieces cs) [] = cs := by
  induction cs using pieces.induct with
  | case1 => rfl
  | case2 cs ih =>
    obtain ⟨p, ps, hps⟩ := List.exists_cons_of_ne_nil (pieces_ne_nil cs)
    rw [pieces, hps, interleave, ← hps, ih]
    rfl
  | case3 c cs h ih =>
    obtain ⟨p, ps, hps⟩ := List.exists_cons_of_ne_nil (pieces_ne_nil cs)
    rw [pieces.eq_3 c cs h, hps]
    rw [hps] at ih
    cases ps with
    | nil => simpa [interleave] using ih
    | cons q ps => simpa [interleave] using ih

theorem not_infix_of_mem_pieces {cs : List Char} (h : piece ∈ pieces cs) : ¬ mark <:+: piece := by
  induction cs using pieces.induct generalizing piece with
  | case1 =>
    obtain rfl : piece = [] := by simpa [pieces] using h
    simp [mark]
  | case2 cs ih =>
    rw [pieces, List.mem_cons] at h
    rcases h with rfl | h
    · simp [mark]
    · exact ih h
  | case3 c cs hne ih =>
    obtain ⟨p, ps, hps⟩ := List.exists_cons_of_ne_nil (pieces_ne_nil cs)
    rw [pieces.eq_3 c cs hne, hps, List.modifyHead_cons, List.mem_cons] at h
    rw [hps] at ih
    rcases h with rfl | h
    · rw [List.infix_cons_iff, not_or]
      refine ⟨fun hpre => ?_, ih List.mem_cons_self⟩
      -- The piece begins as the rest of the text does, so a mark here would have been cut out.
      obtain ⟨rfl, p', rfl⟩ : '%' = c ∧ ∃ p', p = 's' :: p' := by
        obtain ⟨hc, htail⟩ := List.cons_prefix_cons.mp hpre
        obtain ⟨p', rfl⟩ := htail
        exact ⟨hc, p', rfl⟩
      have hcs := interleave_pieces cs
      rw [hps] at hcs
      cases ps with
      | nil => exact hne _ rfl hcs.symm
      | cons q ps => exact hne _ rfl hcs.symm
    · exact ih (List.mem_cons_of_mem p h)

theorem pieces_eq_singleton {cs : List Char} (h : ¬ mark <:+: cs) : pieces cs = [cs] := by
  have hcs := interleave_pieces cs
  match hps : pieces cs with
  | [] => exact absurd hps (pieces_ne_nil cs)
  | [p] =>
    rw [hps] at hcs
    rw [show p = cs from hcs]
  | p :: q :: ps =>
    rw [hps] at hcs
    exact absurd ⟨p, interleave (q :: ps) [], hcs⟩ h

/-- An occurrence of the mark in a text does not end in the first half of another mark. -/
theorem infix_of_infix_concat (h : mark <:+: front ++ ['%']) : mark <:+: front := by
  refine (List.infix_concat_iff.mp h).resolve_left fun hsuffix => ?_
  obtain ⟨before, heq⟩ := hsuffix
  have hlast := congrArg List.getLast? heq
  simp [mark] at hlast

end Pieces

section Filling

/-- Put the texts in, each at the first mark that is there by then. -/
def fill (text : List Char) (texts : List (List Char)) : List Char :=
  texts.foldl (fun text a => Text.replaceFirstChars mark a text) text

theorem fill_cons (text a : List Char) (texts : List (List Char)) :
    fill text (a :: texts) = fill (Text.replaceFirstChars mark a text) texts := rfl

theorem fill_append (text : List Char) (texts texts' : List (List Char)) :
    fill text (texts ++ texts') = fill (fill text texts) texts' := List.foldl_append

theorem fill_of_not_infix (h : ¬ mark <:+: text) (texts : List (List Char)) : fill text texts = text := by
  induction texts with
  | nil => rfl
  | cons a texts ih => rw [fill_cons, Text.replaceFirstChars_of_not_infix h, ih]

theorem replaceFirstChars_mark (a rest : List Char) (h : ¬ mark <:+: front) :
    Text.replaceFirstChars mark a (front ++ mark ++ rest) = front ++ a ++ rest :=
  Text.replaceFirstChars_append (by simp [mark]) fun hmark => h (infix_of_infix_concat hmark)

/-- As long as there is no mark in front of it, each text gets to the mark of its own. -/
theorem fill_interleave (front : List Char) (ps texts : List (List Char))
    (h : ∀ k < texts.length, ¬ mark <:+: front ++ inFrontOf ps texts k) :
    fill (front ++ interleave ps []) texts = front ++ interleave ps texts := by
  induction texts generalizing front ps with
  | nil => rfl
  | cons a texts ih =>
    have hfirst := h 0 (by simp)
    match ps with
    | [] => exact fill_of_not_infix hfirst _
    | [p] => exact fill_of_not_infix hfirst _
    | p :: q :: ps =>
      have hlater : ∀ k < texts.length, ¬ mark <:+: front ++ p ++ a ++ inFrontOf (q :: ps) texts k := by
        intro k hk
        have := h (k + 1) (by simpa using hk)
        simpa [inFrontOf, interleave] using this
      have hstep : Text.replaceFirstChars mark a (front ++ interleave (p :: q :: ps) []) =
          front ++ p ++ a ++ interleave (q :: ps) [] := by
        rw [← replaceFirstChars_mark a _ (show ¬ mark <:+: front ++ p from hfirst)]
        simp [interleave]
      rw [fill_cons, hstep, ih _ _ hlater]
      simp [interleave]

theorem interleave_cons_nil (p : List Char) (ps : List (List Char)) :
    interleave (p :: ps) [] = p ++ ps.flatMap (mark ++ ·) := by
  induction ps generalizing p with
  | nil => simp [interleave]
  | cons q ps ih => simp [interleave, ih]

/-- The marks for which there are no texts stay behind what has been put in. -/
theorem interleave_eq_append (ps texts : List (List Char)) (h : texts.length ≤ k) :
    interleave ps texts = interleave (ps.take (k + 1)) texts ++ fromMark ps k := by
  induction texts generalizing ps k with
  | nil =>
    cases ps with
    | nil => rfl
    | cons p ps =>
      rw [List.take_succ_cons, interleave_cons_nil, interleave_cons_nil, fromMark,
        List.drop_succ_cons, List.append_assoc, ← List.flatMap_append, List.take_append_drop]
  | cons a texts ih =>
    obtain ⟨k, rfl⟩ : ∃ j, k = j + 1 := ⟨k - 1, by simp at h; omega⟩
    match ps with
    | [] => rfl
    | [p] => simp [interleave, fromMark]
    | p :: q :: ps =>
      have hrest : interleave (q :: ps) texts = _ ++ fromMark (q :: ps) k :=
        ih (q :: ps) (by simpa using h)
      simpa [interleave, fromMark] using hrest

/-- The first text that finds a mark in front of its own is put there. -/
theorem fill_of_infix {a : List Char} {cs : List Char} (ha : texts[k]? = some a)
    (hmark : mark <:+: inFrontOf (pieces cs) texts k)
    (hbefore : ∀ j < k, ¬ mark <:+: inFrontOf (pieces cs) texts j) :
    ∃ before after, inFrontOf (pieces cs) texts k = before ++ mark ++ after ∧
      ¬ mark <:+: before ∧
      fill cs texts = fill (before ++ a ++ after ++ fromMark (pieces cs) k) (texts.drop (k + 1)) := by
  obtain ⟨hk, hget⟩ := List.getElem?_eq_some_iff.mp ha
  have hlength : (texts.take k).length = k := by rw [List.length_take]; omega
  have hundisturbed : ∀ j < (texts.take k).length,
      ¬ mark <:+: [] ++ inFrontOf (pieces cs) (texts.take k) j := by
    intro j hj
    rw [hlength] at hj
    rw [List.nil_append, inFrontOf, List.take_take, min_eq_left hj.le]
    exact hbefore j hj
  have hfilled : fill cs (texts.take k) =
      inFrontOf (pieces cs) texts k ++ fromMark (pieces cs) k := by
    have hput := fill_interleave [] (pieces cs) (texts.take k) hundisturbed
    rw [List.nil_append, List.nil_append, interleave_pieces] at hput
    rw [hput, interleave_eq_append _ _ hlength.le, inFrontOf]
  obtain ⟨before, after, heq, hfirst⟩ := Text.exists_first_infix (by simp [mark]) hmark
  have hnone : ¬ mark <:+: before := fun h => hfirst (h.trans (List.prefix_append _ _).isInfix)
  refine ⟨before, after, heq, hnone, ?_⟩
  calc fill cs texts
      = fill (fill cs (texts.take k)) (texts.drop k) := by
        rw [← fill_append, List.take_append_drop]
    _ = fill (Text.replaceFirstChars mark a (before ++ mark ++ (after ++ fromMark (pieces cs) k)))
          (texts.drop (k + 1)) := by
        rw [hfilled, heq, List.drop_eq_getElem_cons hk, hget, fill_cons, List.append_assoc]
    _ = _ := by rw [replaceFirstChars_mark _ _ hnone, ← List.append_assoc]

/-- What is put together of texts without a character, with a text for every mark, is without it. -/
theorem not_mem_interleave {c : Char} (hps : ∀ p ∈ ps, c ∉ p) (htexts : ∀ a ∈ texts, c ∉ a)
    (hlength : ps.length ≤ texts.length + 1) : c ∉ interleave ps texts := by
  induction texts generalizing ps with
  | nil =>
    match ps with
    | [] => simp [interleave]
    | [p] => simpa [interleave] using hps p List.mem_cons_self
  | cons a texts ih =>
    match ps with
    | [] => simp [interleave]
    | [p] => simpa [interleave] using hps p List.mem_cons_self
    | p :: q :: ps =>
      have hrest : c ∉ interleave (q :: ps) texts :=
        ih (fun x hx => hps x (List.mem_cons_of_mem p hx))
          (fun x hx => htexts x (List.mem_cons_of_mem a hx)) (by simpa using hlength)
      simp [interleave, hps p List.mem_cons_self, htexts a List.mem_cons_self, hrest]

end Filling

/-- What is in front of the mark of number `k` of a template when the texts for the marks before it
have been put in. -/
def lead (template : String) (texts : List String) (k : ℕ) : List Char :=
  inFrontOf (pieces template.toList) (texts.map String.toList) k

/-- No text finds a mark in front of its own when it is put in. -/
def Undisturbed (template : String) (texts : List String) : Prop :=
  ∀ k < texts.length, ¬ mark <:+: lead template texts k

/-- The template with each of its marks exchanged for the text of its own. -/
def filled (template : String) (texts : List String) : String :=
  String.ofList (interleave (pieces template.toList) (texts.map String.toList))

theorem toList_fillTemplate (template : String) (texts : List String) :
    (Tree.fillTemplate template texts).toList =
      fill template.toList (texts.map String.toList) := by
  unfold Tree.fillTemplate
  induction texts generalizing template with
  | nil => rfl
  | cons a texts ih =>
    have hstep : (Text.replaceFirst template Tree.argumentMark a).toList =
        Text.replaceFirstChars mark a.toList template.toList := String.toList_ofList
    rw [List.foldl_cons, ih, hstep, List.map_cons, fill_cons]

/-- Undisturbed a template is filled as it is meant to be. -/
theorem fillTemplate_eq_filled {template : String} {texts : List String}
    (h : Undisturbed template texts) : Tree.fillTemplate template texts = filled template texts := by
  have hput := fill_interleave [] (pieces template.toList) (texts.map String.toList)
    fun k hk => h k (by simpa using hk)
  rw [List.nil_append, List.nil_append, interleave_pieces, ← toList_fillTemplate] at hput
  rw [filled, ← hput, String.ofList_toList]

/-- The first text that finds a mark in front of its own is put there, and the others go on from
there. -/
theorem fillTemplate_of_infix {template a : String} {texts : List String} (ha : texts[k]? = some a)
    (hmark : mark <:+: lead template texts k) (hbefore : ∀ j < k, ¬ mark <:+: lead template texts j) :
    ∃ before after, lead template texts k = before ++ mark ++ after ∧ ¬ mark <:+: before ∧
      Tree.fillTemplate template texts = Tree.fillTemplate
        (String.ofList (before ++ a.toList ++ after ++ fromMark (pieces template.toList) k))
        (texts.drop (k + 1)) := by
  have hchars : (texts.map String.toList)[k]? = some a.toList := by rw [List.getElem?_map, ha]; rfl
  obtain ⟨before, after, heq, hnone, hfill⟩ := fill_of_infix hchars hmark hbefore
  refine ⟨before, after, heq, hnone, String.toList_inj.mp ?_⟩
  rw [toList_fillTemplate, toList_fillTemplate, hfill, String.toList_ofList, List.map_drop]

/-- If only the last text may hold a percent sign, and the template none outside of its marks, then
no text is disturbed. -/
theorem undisturbed_of_not_mem {template : String} {texts : List String}
    (hpieces : ∀ p ∈ pieces template.toList, '%' ∉ p) (htexts : ∀ a ∈ texts.dropLast, '%' ∉ a.toList) :
    Undisturbed template texts := by
  intro k hk hmark
  refine not_mem_interleave (fun p hp => hpieces p (List.mem_of_mem_take hp)) ?_ ?_
    (hmark.subset (List.mem_cons_self : '%' ∈ mark))
  · intro a ha
    rw [← List.map_take, List.mem_map] at ha
    obtain ⟨b, hb, rfl⟩ := ha
    refine htexts b ?_
    rw [List.dropLast_eq_take]
    exact (List.take_subset_take_left _ (by omega)) hb
  · simp only [List.length_take, List.length_map]
    omega

end Template

end ScopedGrammar
