import Mathlib.Data.List.Perm.Basic
import Mathlib.Data.List.Sort
import ScopedGrammar.Proofs.Scalar.Exact
import ScopedGrammar.Retained.Leaderboard

/-!
# What a leaderboard holds

However many items are offered to a board, it holds the best of them: of the distinct items with a
defined score, ranked by score and among equals by their first offer, the first ones that it has
room for. An item that was dropped or held off once is held off ever after, since the entries only
get better. The set of items beside the entries agrees with them all the time.
-/
namespace ScopedGrammar

/-- Scores are in a total order, apart from undefined ones. -/
structure Scalar.Ordered (K : Type) [Scalar K] : Prop where
  trans : ∀ {x y z : K}, le x y = true → le y z = true → le x z = true
  total : ∀ {x y : K}, isNaN x = false → isNaN y = false → le x y = true ∨ le y x = true

theorem Exact.ordered : Scalar.Ordered Exact where
  trans := Exact.le_trans
  total {x y} hx hy := by
    have hx : x ≠ nan := mt (isNaN_iff x).mpr (Bool.eq_false_iff.mp hx)
    have hy : y ≠ nan := mt (isNaN_iff y).mpr (Bool.eq_false_iff.mp hy)
    cases hlt : Scalar.lt x y with
    | true => exact .inl (Exact.le_of_lt hlt)
    | false => exact .inr ((lt_eq_false_iff hx hy).mp hlt)

namespace Leaderboard

variable {α K : Type}

section Placing

variable [Scalar K] {x y : α × K} {es : List (α × K)} {b : Leaderboard α K} {a : α} {score : K}

theorem place_perm (x : α × K) (es : List (α × K)) : (place x es).Perm (x :: es) := by
  induction es with
  | nil => simp [place]
  | cons e es ih =>
    rw [place]
    split
    · exact (ih.cons e).trans (.swap x e es)
    · exact .refl _

@[simp] theorem length_place (x : α × K) (es : List (α × K)) :
    (place x es).length = es.length + 1 := (place_perm x es).length_eq

theorem place_eq_append (h : ∀ e ∈ es, Scalar.le x.2 e.2 = true) : place x es = es ++ [x] := by
  induction es with
  | nil => simp [place]
  | cons e es ih =>
    simp only [List.mem_cons, forall_eq_or_imp] at h
    simp [place, h.1, ih h.2]

/-- Where an entry goes among the first ones does not depend on those behind. -/
theorem take_place (x : α × K) (es : List (α × K)) (n : ℕ) :
    (place x es).take n = (place x (es.take n)).take n := by
  induction es generalizing n with
  | nil => simp
  | cons e es ih =>
    cases n with
    | zero => simp
    | succ n =>
      rw [List.take_succ_cons, place, place]
      split
      · rw [List.take_succ_cons, List.take_succ_cons, ih n]
      · cases n with
        | zero => simp
        | succ n => simp [List.take_take]

theorem place_concat (hy : Scalar.le x.2 y.2 = false) (es : List (α × K)) :
    place x (es ++ [y]) = place x es ++ [y] := by
  induction es with
  | nil => simp [place, hy]
  | cons e es ih =>
    rw [List.cons_append, place, place, ih]
    split <;> simp

/-- An entry that is put in its place leaves the entries in order. -/
theorem pairwise_place (hK : Scalar.Ordered K) (hx : Scalar.isNaN x.2 = false)
    (hes : ∀ e ∈ es, Scalar.isNaN e.2 = false)
    (h : es.Pairwise fun o p => Scalar.le p.2 o.2 = true) :
    (place x es).Pairwise fun o p => Scalar.le p.2 o.2 = true := by
  induction es with
  | nil => simp [place]
  | cons e es ih =>
    simp only [List.mem_cons, forall_eq_or_imp] at hes
    obtain ⟨hlater, hpairwise⟩ := List.pairwise_cons.mp h
    rw [place]
    split
    · next hle =>
      refine List.pairwise_cons.mpr ⟨fun p hp => ?_, ih hes.2 hpairwise⟩
      rcases List.mem_cons.mp ((place_perm x es).mem_iff.mp hp) with rfl | hp
      · exact hle
      · exact hlater p hp
    · next hle =>
      have hbetter := (hK.total hx hes.1).resolve_left hle
      refine List.pairwise_cons.mpr ⟨fun p hp => ?_, h⟩
      rcases List.mem_cons.mp hp with rfl | hp
      · exact hbetter
      · exact hK.trans (hlater p hp) hbetter

/-- To rank is to put the entries in their places one after another. -/
theorem insertionSort_concat (hK : Scalar.Ordered K) (es : List (α × K))
    (hes : ∀ e ∈ es, Scalar.isNaN e.2 = false) (x : α × K) :
    (es ++ [x]).insertionSort (fun o p => Scalar.le p.2 o.2 = true) =
      place x (es.insertionSort fun o p => Scalar.le p.2 o.2 = true) := by
  -- an earlier entry and the last one go to the same places, whichever goes first
  have hswap : ∀ (y : α × K) (ranked : List (α × K)), Scalar.isNaN y.2 = false →
      (∀ e ∈ ranked, Scalar.isNaN e.2 = false) →
      (place x ranked).orderedInsert (fun o p => Scalar.le p.2 o.2 = true) y =
        place x (ranked.orderedInsert (fun o p => Scalar.le p.2 o.2 = true) y) := by
    intro y ranked hy hranked
    induction ranked with
    | nil => by_cases hxy : Scalar.le x.2 y.2 = true <;> simp [place, hxy]
    | cons e ranked ih =>
      simp only [List.mem_cons, forall_eq_or_imp] at hranked
      by_cases hey : Scalar.le e.2 y.2 = true
      · by_cases hxe : Scalar.le x.2 e.2 = true
        · simp [place, hey, hxe, hK.trans hxe hey]
        · by_cases hxy : Scalar.le x.2 y.2 = true <;> simp [place, hey, hxe, hxy]
      · by_cases hxe : Scalar.le x.2 e.2 = true
        · simp [place, hey, hxe, ih hranked.2]
        · have hye := (hK.total hranked.1 hy).resolve_left hey
          have hxy : ¬ Scalar.le x.2 y.2 = true := fun hxy => hxe (hK.trans hxy hye)
          simp [place, hey, hxe, hxy]
  induction es with
  | nil => simp [place]
  | cons e es ih =>
    simp only [List.mem_cons, forall_eq_or_imp] at hes
    rw [List.cons_append, List.insertionSort_cons, ih hes.2, List.insertionSort_cons]
    exact hswap e _ hes.1 fun e' he' => hes.2 e' (List.mem_insertionSort _ |>.mp he')

/-- A board is held off for a reason: it holds as many as it may, and all of them are as good. -/
theorem of_holdsOff (hK : Scalar.Ordered K) (hsorted : b.entries.Pairwise fun o p =>
    Scalar.le p.2 o.2 = true) (h : b.holdsOff score = true) :
    b.entries.length = b.capacity ∧ ∀ e ∈ b.entries, Scalar.le score e.2 = true := by
  obtain ⟨hfull, hworst⟩ := Bool.and_eq_true_iff.mp h
  refine ⟨by simpa using hfull, ?_⟩
  rcases List.eq_nil_or_concat b.entries with hes | ⟨es, worst, hes⟩
  · simp [hes]
  · rw [List.concat_eq_append] at hes
    rw [hes] at hsorted hworst ⊢
    rw [List.getLast?_concat] at hworst
    obtain ⟨-, -, hbetter⟩ := List.pairwise_append.mp hsorted
    intro e he
    rcases List.mem_append.mp he with he | he
    · exact hK.trans hworst (hbetter e he worst (List.mem_singleton_self worst))
    · obtain rfl := List.mem_singleton.mp he
      exact hworst

theorem holdsOff_of_full (hpos : 0 < b.capacity) (hfull : b.entries.length = b.capacity)
    (h : ∀ e ∈ b.entries, Scalar.le score e.2 = true) : b.holdsOff score = true := by
  have hne : b.entries ≠ [] := List.ne_nil_of_length_pos (by omega)
  simp [holdsOff, hfull, List.getLast?_eq_some_getLast hne, h _ (List.getLast_mem hne)]

/-- An entry that is not held off is among those that there is room for. -/
theorem mem_take_place (hpos : 0 < b.capacity) (hlength : b.entries.length ≤ b.capacity)
    (h : b.holdsOff score = false) :
    (a, score) ∈ (place (a, score) b.entries).take b.capacity := by
  have hmem : ∀ es, (a, score) ∈ place (a, score) es := fun es =>
    (place_perm (a, score) es).mem_iff.mpr List.mem_cons_self
  rcases hlength.lt_or_eq with hroom | hfull
  · rw [List.take_of_length_le (by simpa using hroom)]
    exact hmem b.entries
  · rcases List.eq_nil_or_concat b.entries with hes | ⟨es, worst, hes⟩
    · simp [hes] at hfull
      omega
    · rw [List.concat_eq_append] at hes
      have hworst : Scalar.le score worst.2 = false := by
        rw [holdsOff, hfull, hes] at h
        simpa using h
      have hplace : (place (a, score) es).length = b.capacity := by
        rw [← hfull, hes]
        simp
      rw [hes, place_concat hworst, List.take_append_of_le_length hplace.ge, ← hplace,
        List.take_length]
      exact hmem es

end Placing

section Ranking

variable [BEq α] [Scalar K]

/-- Of the offers with a defined score the first of each item. -/
def distinct (offers : List (α × K)) : List (α × K) :=
  (offers.filter fun o => !Scalar.isNaN o.2).eraseDupsBy fun o p => o.1 == p.1

/-- The distinct items by falling score; of equal scores the one offered first comes first. -/
def ranking (offers : List (α × K)) : List (α × K) :=
  (distinct offers).insertionSort fun o p => Scalar.le p.2 o.2 = true

/-- Equal items always come with the same score. -/
def Consistent (offers : List (α × K)) : Prop :=
  ∀ o ∈ offers, ∀ p ∈ offers, o.1 == p.1 → o.2 = p.2

omit [Scalar K] in
/-- One more offer is kept if no offer of its item is kept already. -/
theorem eraseDupsBy_concat (offers : List (α × K)) (o : α × K) :
    (offers ++ [o]).eraseDupsBy (fun o p => o.1 == p.1) =
      if (offers.eraseDupsBy fun o p => o.1 == p.1).any (o.1 == ·.1) then
        offers.eraseDupsBy fun o p => o.1 == p.1
      else (offers.eraseDupsBy fun o p => o.1 == p.1) ++ [o] := by
  have hloop : ∀ kept : List (α × K),
      List.eraseDupsBy.loop (fun o p => o.1 == p.1) (offers ++ [o]) kept =
        if (List.eraseDupsBy.loop (fun o p => o.1 == p.1) offers kept).any (o.1 == ·.1) then
          List.eraseDupsBy.loop (fun o p => o.1 == p.1) offers kept
        else List.eraseDupsBy.loop (fun o p => o.1 == p.1) offers kept ++ [o] := by
    induction offers with
    | nil =>
      intro kept
      cases h : kept.any (o.1 == ·.1) <;> simp [List.eraseDupsBy.loop, h]
    | cons p offers ih =>
      intro kept
      rw [List.cons_append, List.eraseDupsBy.loop, List.eraseDupsBy.loop]
      split <;> exact ih _
  exact hloop []

variable {offers : List (α × K)} {o : α × K}

theorem distinct_concat_of_isNaN (ho : Scalar.isNaN o.2 = true) :
    distinct (offers ++ [o]) = distinct offers := by
  simp [distinct, ho]

theorem distinct_concat (ho : Scalar.isNaN o.2 = false) :
    distinct (offers ++ [o]) =
      if (distinct offers).any (o.1 == ·.1) then distinct offers else distinct offers ++ [o] := by
  rw [distinct, List.filter_append, List.filter_singleton, ho]
  exact eraseDupsBy_concat _ o

/-- The distinct items are offers with a defined score, and no two of them are equal. -/
theorem distinct_spec [PartialEquivBEq α] (offers : List (α × K)) :
    (∀ o ∈ distinct offers, o ∈ offers ∧ Scalar.isNaN o.2 = false) ∧
      (distinct offers).Pairwise fun o p => (o.1 == p.1) = false := by
  induction offers using List.reverseRecOn with
  | nil => simp [distinct]
  | append_singleton offers o ih =>
    obtain ⟨hmem, hpairwise⟩ := ih
    have hold : ∀ p ∈ distinct offers, p ∈ offers ++ [o] ∧ Scalar.isNaN p.2 = false :=
      fun p hp => ⟨List.mem_append_left _ (hmem p hp).1, (hmem p hp).2⟩
    cases ho : Scalar.isNaN o.2 with
    | true =>
      rw [distinct_concat_of_isNaN ho]
      exact ⟨hold, hpairwise⟩
    | false =>
      rw [distinct_concat ho]
      split
      · exact ⟨hold, hpairwise⟩
      · next hnew =>
        simp only [List.any_eq_true, not_exists, not_and, Bool.not_eq_true] at hnew
        refine ⟨fun p hp => ?_, List.pairwise_append.mpr ⟨hpairwise, by simp, ?_⟩⟩
        · rcases List.mem_append.mp hp with hp | hp
          · exact hold p hp
          · obtain rfl := List.mem_singleton.mp hp
            exact ⟨by simp, ho⟩
        · intro p hp q hq
          obtain rfl := List.mem_singleton.mp hq
          rw [BEq.comm]
          exact hnew p hp

theorem ranking_perm (offers : List (α × K)) : (ranking offers).Perm (distinct offers) :=
  List.perm_insertionSort _ _

/-- A distinct item that is new takes its place in the ranking. -/
theorem ranking_concat [PartialEquivBEq α] (hK : Scalar.Ordered K) (ho : Scalar.isNaN o.2 = false)
    (hnew : (distinct offers).any (o.1 == ·.1) = false) :
    ranking (offers ++ [o]) = place o (ranking offers) := by
  rw [ranking, distinct_concat ho, hnew, if_neg Bool.false_ne_true]
  exact insertionSort_concat hK _ (fun e he => ((distinct_spec offers).1 e he).2) o

theorem pairwise_ranking [PartialEquivBEq α] (hK : Scalar.Ordered K) (offers : List (α × K)) :
    (ranking offers).Pairwise fun o p => Scalar.le p.2 o.2 = true := by
  induction offers using List.reverseRecOn with
  | nil => simp [ranking, distinct]
  | append_singleton offers o ih =>
    cases ho : Scalar.isNaN o.2 with
    | true => rwa [ranking, distinct_concat_of_isNaN ho]
    | false =>
      cases hnew : (distinct offers).any (o.1 == ·.1) with
      | true => rwa [ranking, distinct_concat ho, hnew, if_pos rfl]
      | false =>
        rw [ranking_concat hK ho hnew]
        refine pairwise_place hK ho (fun e he => ?_) ih
        exact ((distinct_spec offers).1 e ((ranking_perm offers).mem_iff.mp he)).2

/-- Of equally good items the one that was offered first comes first. -/
theorem sublist_ranking {p : α × K} (h : [o, p].Sublist (distinct offers))
    (hle : Scalar.le p.2 o.2 = true) : [o, p].Sublist (ranking offers) :=
  List.pair_sublist_insertionSort hle h

end Ranking

section Boards

variable [BEq α] [Scalar K] {b : Leaderboard α K} {offers : List (α × K)} {a : α} {score : K}

omit [Scalar K] in
theorem entries_trim (b : Leaderboard α K) (hlength : b.entries.length ≤ b.capacity + 1) :
    b.trim.entries = b.entries.take b.capacity := by
  unfold trim
  split
  · next hover =>
    have hne : b.entries ≠ [] := List.ne_nil_of_length_pos (by omega)
    rw [List.getLast?_eq_some_getLast hne]
    simp only [List.dropLast_eq_take]
    congr 1
    omega
  · next hroom => rw [List.take_of_length_le (by omega)]

omit [Scalar K] in
/-- With the last entry its item is forgotten, and no other. -/
theorem contains_trim [EquivBEq α] (hdistinct : b.entries.Pairwise fun o p => (o.1 == p.1) = false)
    (h : ∀ a, b.contains a = b.entries.any (·.1 == a)) (a : α) :
    b.trim.contains a = b.trim.entries.any (·.1 == a) := by
  unfold trim
  split
  · next hover =>
    obtain ⟨es, worst, hes⟩ : ∃ es worst, b.entries = es ++ [worst] := by
      rcases List.eq_nil_or_concat b.entries with hes | ⟨es, worst, hes⟩
      · simp [hes] at hover
      · exact ⟨es, worst, by rw [hes, List.concat_eq_append]⟩
    rw [hes] at hdistinct
    obtain ⟨-, -, hothers⟩ := List.pairwise_append.mp hdistinct
    have hseen := h a
    simp only [hes, List.getLast?_concat, List.dropLast_concat, contains, List.any_filter,
      List.any_append, List.any_cons, List.any_nil, Bool.or_false] at hseen ⊢
    -- only what equals the last entry is affected, and no other entry equals it
    cases hworst : worst.1 == a with
    | true =>
      have hleft : b.seen.any (fun s => !(s == worst.1) && s == a) = false := by
        simp only [List.any_eq_false, Bool.and_eq_true, Bool.not_eq_true', not_and, Bool.not_eq_true]
        intro s _ hs
        rw [← hs]
        exact BEq.congr_right (BEq.symm hworst)
      have hright : es.any (fun e => e.1 == a) = false := by
        simp only [List.any_eq_false, Bool.not_eq_true]
        intro e he
        rw [← hothers e he worst (List.mem_singleton_self worst)]
        exact BEq.congr_right (BEq.symm hworst)
      rw [hleft, hright]
    | false =>
      rw [hworst, Bool.or_false] at hseen
      rw [← hseen]
      refine List.any_congr rfl fun s => ?_
      cases hs : s == a with
      | true => simp [BEq.congr_left hs, BEq.comm (a := a), hworst]
      | false => rw [Bool.and_false]
  · exact h a

/-- A board holds what it should after some offers. -/
structure Holds (b : Leaderboard α K) (offers : List (α × K)) : Prop where
  entries_eq : b.entries = (ranking offers).take b.capacity
  contains_eq : ∀ a, b.contains a = b.entries.any (·.1 == a)

/-- An offer that is refused would not be among the best. -/
theorem take_ranking_of_refused [EquivBEq α] (hK : Scalar.Ordered K) (h : Holds b offers)
    (hrefused : (b.capacity == 0 || Scalar.isNaN score || b.contains a || b.holdsOff score) = true) :
    (ranking (offers ++ [(a, score)])).take b.capacity = (ranking offers).take b.capacity := by
  cases hnan : Scalar.isNaN score with
  | true => rw [ranking, distinct_concat_of_isNaN hnan, ranking]
  | false =>
    cases hnew : (distinct offers).any (a == ·.1) with
    | true => rw [ranking, distinct_concat hnan, hnew, if_pos rfl, ranking]
    | false =>
      rw [ranking_concat hK hnan hnew, take_place]
      simp only [Bool.or_eq_true, beq_iff_eq] at hrefused
      rcases hrefused with ((hzero | hrefused) | hheld) | hheldOff
      · rw [hzero, List.take_zero, List.take_zero]
      · rw [hnan] at hrefused
        cases hrefused
      -- an item that is on the board was offered before
      · rw [h.contains_eq, h.entries_eq, List.any_eq_true] at hheld
        obtain ⟨e, he, hea⟩ := hheld
        have hoffered := (ranking_perm offers).mem_iff.mp (List.mem_of_mem_take he)
        rw [List.any_eq_false] at hnew
        exact absurd (BEq.symm hea) (hnew e hoffered)
      · have hsorted := (pairwise_ranking hK offers).take (i := b.capacity)
        rw [← h.entries_eq] at hsorted ⊢
        obtain ⟨hfull, hall⟩ := of_holdsOff hK hsorted hheldOff
        rw [place_eq_append hall, List.take_append_of_le_length hfull.ge, ← hfull, List.take_length]

/-- An item that is accepted was not offered before: where it was dropped or held off all entries
are as good. -/
theorem any_distinct_of_accepted [EquivBEq α] (hK : Scalar.Ordered K) (h : Holds b offers)
    (hsame : Consistent (offers ++ [(a, score)])) (hpos : 0 < b.capacity)
    (hcontains : b.contains a = false) (hholdsOff : b.holdsOff score = false) :
    (distinct offers).any (a == ·.1) = false := by
  refine List.any_eq_false.mpr fun o ho hao => ?_
  have hranked := (ranking_perm offers).mem_iff.mpr ho
  rw [← List.take_append_drop b.capacity (ranking offers), ← h.entries_eq] at hranked
  rw [h.contains_eq, List.any_eq_false] at hcontains
  rcases List.mem_append.mp hranked with hentry | hdropped
  · exact hcontains o hentry (BEq.symm hao)
  have hscore : score = o.2 := hsame (a, score) (by simp) o
    (List.mem_append_left _ ((distinct_spec offers).1 o ho).1) hao
  have hfull : b.entries.length = b.capacity := by
    have := List.length_pos_of_mem hdropped
    rw [List.length_drop] at this
    rw [h.entries_eq, List.length_take]
    omega
  have hsorted := pairwise_ranking hK offers
  rw [← List.take_append_drop b.capacity (ranking offers), ← h.entries_eq] at hsorted
  obtain ⟨-, -, hbetter⟩ := List.pairwise_append.mp hsorted
  have hheldOff : b.holdsOff score = true :=
    holdsOff_of_full hpos hfull fun e he => hscore ▸ hbetter e he o hdropped
  rw [hholdsOff] at hheldOff
  cases hheldOff

theorem Holds.pairwise_insert [EquivBEq α] (h : Holds b offers) (hcontains : b.contains a = false) :
    (b.insert (a, score)).entries.Pairwise fun o p => (o.1 == p.1) = false := by
  have hsymm : ∀ {o p : α × K}, (o.1 == p.1) = false → (p.1 == o.1) = false :=
    fun h => by rwa [BEq.comm]
  have hranked := ((ranking_perm offers).pairwise_iff hsymm).mpr (distinct_spec offers).2
  rw [h.contains_eq, List.any_eq_false] at hcontains
  refine ((place_perm (a, score) b.entries).pairwise_iff hsymm).mpr
    (List.pairwise_cons.mpr ⟨fun e he => hsymm ?_, h.entries_eq ▸ hranked.take⟩)
  simpa using hcontains e he

theorem Holds.contains_insert (h : Holds b offers) (a' : α) :
    (b.insert (a, score)).contains a' = (b.insert (a, score)).entries.any (·.1 == a') := by
  have hany := (place_perm (a, score) b.entries).any_eq (f := fun e => e.1 == a')
  rw [Leaderboard.insert, contains, List.any_cons, hany, List.any_cons]
  exact congrArg _ (h.contains_eq a')

omit [Scalar K] in
theorem capacity_trim (b : Leaderboard α K) : b.trim.capacity = b.capacity := by
  unfold trim
  split
  · split <;> rfl
  · rfl

/-- An offer leaves a board with what it should hold then, and the answer tells whether the item
came onto the board. -/
theorem Holds.add [EquivBEq α] (hK : Scalar.Ordered K) (h : Holds b offers)
    (hsame : Consistent (offers ++ [(a, score)])) :
    Holds (b.add a score).1 (offers ++ [(a, score)]) ∧ (b.add a score).1.capacity = b.capacity ∧
      ((b.add a score).2 = true ↔ b.contains a = false ∧ (b.add a score).1.contains a = true) := by
  rw [Leaderboard.add]
  split
  · next hrefused =>
    refine ⟨⟨?_, h.contains_eq⟩, rfl, by simp⟩
    rw [take_ranking_of_refused hK h hrefused, h.entries_eq]
  · next haccepted =>
    simp only [Bool.or_eq_true, beq_iff_eq, not_or, Bool.not_eq_true] at haccepted
    obtain ⟨⟨⟨hpos, hnan⟩, hcontains⟩, hholdsOff⟩ := haccepted
    replace hpos : 0 < b.capacity := Nat.pos_of_ne_zero hpos
    have hnew := any_distinct_of_accepted hK h hsame hpos hcontains hholdsOff
    have hlength : b.entries.length ≤ b.capacity := by
      rw [h.entries_eq]
      exact List.length_take_le ..
    have hentries : (b.insert (a, score)).trim.entries =
        (place (a, score) b.entries).take b.capacity :=
      entries_trim _ (by simpa [Leaderboard.insert] using hlength)
    have hagree : ∀ a', (b.insert (a, score)).trim.contains a' =
        (b.insert (a, score)).trim.entries.any (·.1 == a') :=
      contains_trim (h.pairwise_insert hcontains) h.contains_insert
    refine ⟨⟨?_, hagree⟩, capacity_trim _, ?_⟩
    · rw [hentries, capacity_trim, ranking_concat hK hnan hnew, h.entries_eq, ← take_place]
      rfl
    · have hmem := mem_take_place (a := a) hpos hlength hholdsOff
      rw [← hentries] at hmem
      simp only [hcontains, hagree, true_and, List.any_eq_true, true_iff]
      exact ⟨_, hmem, BEq.rfl⟩

/-- What a board holds after being offered some items in turn. -/
def offerAll (b : Leaderboard α K) (offers : List (α × K)) : Leaderboard α K :=
  offers.foldl (fun b o => (b.add o.1 o.2).1) b

theorem offerAll_concat (b : Leaderboard α K) (offers : List (α × K)) (o : α × K) :
    b.offerAll (offers ++ [o]) = ((b.offerAll offers).add o.1 o.2).1 := by
  simp [offerAll]

omit [Scalar K] in
theorem Consistent.left {later : List (α × K)} (h : Consistent (offers ++ later)) :
    Consistent offers := fun o ho p hp =>
  h o (List.mem_append_left later ho) p (List.mem_append_left later hp)

theorem holds_offerAll [EquivBEq α] (hK : Scalar.Ordered K) (n : ℕ) (hsame : Consistent offers) :
    Holds ((empty n).offerAll offers) offers ∧ ((empty n).offerAll offers).capacity = n := by
  induction offers using List.reverseRecOn with
  | nil => exact ⟨⟨by simp [offerAll, empty, ranking, distinct], by simp [offerAll, empty, contains]⟩, rfl⟩
  | append_singleton offers o ih =>
    obtain ⟨hholds, hcapacity⟩ := ih hsame.left
    obtain ⟨hafter, hcapacity', -⟩ := hholds.add hK hsame
    rw [offerAll_concat]
    exact ⟨hafter, hcapacity'.trans hcapacity⟩

/-- After any offers in which equal items have equal scores, a board holds the first ones that it
has room for in the ranking of the distinct items with a defined score: the better before the worse,
and of equally good ones the one that was offered first. What is looked up on the board agrees with
its entries, and one more offer is answered by whether its item comes onto the board. -/
theorem best_offers_retained [EquivBEq α] (hK : Scalar.Ordered K) (n : ℕ) {offers : List (α × K)}
    (hsame : Consistent offers) :
    let b := (empty n).offerAll offers
    b.entries = (ranking offers).take n ∧
    (ranking offers).Perm (distinct offers) ∧
    (ranking offers).Pairwise (fun o p => Scalar.le p.2 o.2 = true) ∧
    (∀ o p, [o, p].Sublist (distinct offers) → Scalar.le p.2 o.2 = true →
      [o, p].Sublist (ranking offers)) ∧
    (∀ a, b.contains a = true ↔ ∃ e ∈ b.entries, e.1 == a) ∧
    ∀ a score, Consistent (offers ++ [(a, score)]) →
      ((b.add a score).2 = true ↔ ¬ (∃ e ∈ b.entries, e.1 == a) ∧
        ∃ e ∈ ((empty n).offerAll (offers ++ [(a, score)])).entries, e.1 == a) := by
  intro b
  obtain ⟨hholds, hcapacity⟩ := holds_offerAll hK n hsame
  have hcontains : ∀ a, b.contains a = true ↔ ∃ e ∈ b.entries, e.1 == a := fun a => by
    rw [hholds.contains_eq, List.any_eq_true]
  refine ⟨?_, ranking_perm offers, pairwise_ranking hK offers, fun o p => sublist_ranking, hcontains,
    fun a score hnext => ?_⟩
  · rw [hholds.entries_eq, hcapacity]
  · obtain ⟨hafter, -, hanswer⟩ := hholds.add hK hnext
    rw [offerAll_concat, hanswer, ← hcontains, Bool.not_eq_true, hafter.contains_eq, List.any_eq_true]

end Boards

/-- Of two items with the same score and one that is worse, offered first and once more in the end,
a board for two holds the better ones, the one that was offered first before the other. -/
theorem best_offers_retained_three :
    let offers : List (ℕ × Exact) := [(0, .real 1), (1, .real 3), (2, .nan), (3, .real 3)]
    let b : Leaderboard ℕ Exact := (empty 2).offerAll offers
    Scalar.Ordered Exact ∧ Consistent (offers ++ [(0, .real 1)]) ∧
      b.entries = [(1, .real 3), (3, .real 3)] ∧ b.contains 0 = false ∧
      (b.add 0 (.real 1)).2 = false := by
  intro offers b
  have hsame : Consistent (offers ++ [(0, .real 1)]) := by
    simp [Consistent, offers]
  have hnan : Scalar.isNaN Exact.nan = true := (Exact.isNaN_iff _).mpr rfl
  have hreal : ∀ x : ℝ, Scalar.isNaN (Exact.real x) = false := fun x =>
    Bool.eq_false_iff.mpr (mt (Exact.isNaN_iff _).mp nofun)
  obtain ⟨hentries, -, -, -, hcontains, hanswer⟩ := best_offers_retained Exact.ordered 2 hsame.left
  obtain ⟨hlater, -⟩ := best_offers_retained Exact.ordered 2 hsame
  have hbest : b.entries = [(1, .real 3), (3, .real 3)] := by
    have hdistinct : distinct offers = [(0, .real 1), (1, .real 3), (3, .real 3)] := by
      simp [distinct, offers, hnan, hreal, List.eraseDupsBy, List.eraseDupsBy.loop]
    refine hentries.trans ?_
    rw [ranking, hdistinct]
    simp
  have hbest' : ((empty 2).offerAll (offers ++ [(0, .real 1)])).entries =
      [(1, .real 3), (3, .real 3)] := by
    have hdistinct : distinct (offers ++ [(0, .real 1)]) =
        [(0, .real 1), (1, .real 3), (3, .real 3)] := by
      simp [distinct, offers, hnan, hreal, List.eraseDupsBy, List.eraseDupsBy.loop]
    rw [hlater, ranking, hdistinct]
    simp
  refine ⟨Exact.ordered, hsame, hbest, ?_, ?_⟩
  · rw [← Bool.not_eq_true, hcontains, hbest]
    simp
  · rw [← Bool.not_eq_true, hanswer 0 (.real 1) hsame, hbest']
    simp

end Leaderboard

end ScopedGrammar
