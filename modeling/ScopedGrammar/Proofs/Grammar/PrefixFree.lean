import ScopedGrammar.Proofs.Grammar.Unpacking

/-!
# Where a packed tree ends

A packed text says itself where it ends: the reader takes a character for each node and looks at no
other. So it comes to the end of the tree whatever stands behind, which is reported as so many
unread characters, and it misses a character if the text is cut anywhere.
-/
namespace ScopedGrammar

variable {K : Type}

namespace Unpacking

variable {α β : Type} {s s' : NameSupply} {x : Grammar.Unpacking α} {f : α → Grammar.Unpacking β}

theorem bind_of_ok {a : α} (hx : x s = (.ok a, s')) : (x >>= f) s = f a s' := by
  change ExceptT.bindCont f (x s).1 (x s).2 = _
  rw [hx]
  rfl

theorem bind_of_error {e : GrammarError} (hx : x s = (.error e, s')) :
    (x >>= f) s = (.error e, s') := by
  change ExceptT.bindCont f (x s).1 (x s).2 = _
  rw [hx]
  rfl

/-- The text ends before the reader has come to an end. -/
def EndsEarly (x : Grammar.Unpacking α) (s : NameSupply) : Prop :=
  ∃ s', x s = (.error (.pack .truncated), s')

theorem EndsEarly.bind (h : EndsEarly x s) : EndsEarly (x >>= f) s := by
  obtain ⟨s', hx⟩ := h
  exact ⟨s', bind_of_error hx⟩

theorem EndsEarly.behind {a : α} (hx : x s = (.ok a, s')) (h : EndsEarly (f a) s') :
    EndsEarly (x >>= f) s := by
  obtain ⟨s'', hf⟩ := h
  exact ⟨s'', (bind_of_ok hx).trans hf⟩

end Unpacking

namespace Grammar

open Unpacking

variable {g : Grammar K} {M : Matching} {S T : Scope K} {s s' names : NameSupply} {t : Tree K}
  {levels : ℕ} {nt : String} {as : List (Arg K)} {cs front back : List Char}

/-- Arguments whose text is cut are not read to the end: either the first of them is cut, or it is
read and the others are cut. -/
theorem endsEarly_unpackArgs
    (hread : ∀ c, .subtree c ∈ as → ∀ (s : NameSupply) (cs rest : List Char), S.WellNamed s →
      g.Spelled T c cs → cs.length ≤ levels → ∃ c' s', S.WellNamed s' ∧
        g.unpackNode levels (g.numbered S) c.nonterminal (cs ++ rest) s = (.ok (c', rest), s'))
    (hcut : ∀ c, .subtree c ∈ as → ∀ (s : NameSupply) (front back : List Char), S.WellNamed s →
      g.Spelled T c (front ++ back) → back ≠ [] → front.length < levels →
        EndsEarly (g.unpackNode levels (g.numbered S) c.nonterminal front) s)
    (hfilled : ∀ a ∈ as, a.asTree?.isSome = g.isNonterminal a.symbol) (hS : S.WellNamed s)
    (hcs : g.SpelledArgs T as (front ++ back)) (hback : back ≠ [])
    (hlevels : front.length < levels) :
    EndsEarly (unpackNode.unpackArgs g (g.unpackNode levels (g.numbered S)) (as.map Arg.symbol)
      front) s := by
  induction as generalizing s front with
  | nil => exact absurd (List.append_eq_nil_iff.mp (spelledArgs_nil.mp hcs)).2 hback
  | cons a as ih =>
    have hrest {s : NameSupply} {front : List Char} :=
      @ih s front (fun c hc => hread c (List.mem_cons_of_mem a hc))
        (fun c hc => hcut c (List.mem_cons_of_mem a hc))
        fun b hb => hfilled b (List.mem_cons_of_mem a hb)
    have hnt := hfilled a List.mem_cons_self
    rw [List.map_cons, unpackNode.unpackArgs, ← hnt]
    cases a with
    | terminal x => exact (hrest hS (spelledArgs_terminal.mp hcs) hlevels).bind
    | subtree c =>
      obtain ⟨first, others, heq, hfirst, hothers⟩ := spelledArgs_subtree.mp hcs
      rw [show (Arg.subtree c).asTree?.isSome = true from rfl, if_pos rfl]
      rcases List.append_eq_append_iff.mp heq with ⟨cut, rfl, rfl⟩ | ⟨front', rfl, rfl⟩
      · rcases eq_or_ne cut [] with rfl | hne
        · rw [List.append_nil] at hfirst
          obtain ⟨c', s', hS', hc'⟩ := hread c List.mem_cons_self s front [] hS hfirst hlevels.le
          rw [List.append_nil] at hc'
          have hlater := @hrest s' [] hS' hothers (Nat.lt_of_le_of_lt (Nat.zero_le _) hlevels)
          exact .behind hc' hlater.bind
        · exact (hcut c List.mem_cons_self s front cut hS hfirst hne hlevels).bind
      · rw [List.length_append] at hlevels
        obtain ⟨c', s', hS', hc'⟩ :=
          hread c List.mem_cons_self s first front' hS hfirst (by omega)
        exact .behind hc' (hrest hS' hothers (by omega)).bind

/-- A complete tree whose text is cut is not read to the end. -/
theorem endsEarly_unpackNode (ht : g.Derived names T t) (hcomplete : g.Complete t)
    (hal : Scope.Aligned M S T) (hS : S.WellNamed s) (hcs : g.Spelled T t (front ++ back))
    (hback : back ≠ []) (hlevels : front.length < levels) :
    EndsEarly (g.unpackNode levels (g.numbered S) t.nonterminal front) s := by
  induction levels generalizing M S T t s front back with
  | zero => cases hlevels
  | succ levels ih =>
    cases front with
    | nil => exact ⟨s, rfl⟩
    | cons c front =>
      obtain ⟨hfilled, hcompletes⟩ := hcomplete
      obtain ⟨nt, name, kind, args?⟩ := t
      obtain ⟨i, _, cs', heq, ⟨r', hr', hinst⟩, hc, hargs⟩ := spelled_node.mp hcs
      obtain ⟨rfl, rfl⟩ := List.cons.inj heq
      obtain ⟨r, hr, hcounter⟩ := exists_numbered_counterpart hal ht.wellNamed hr'
      have hnt : r.nonterminal = nt := hcounter.same.nonterminal_eq.trans hinst.nonterminal_eq
      have hexp : r.expansion = args?.map (·.map Arg.symbol) :=
        hcounter.same.expansion_eq.trans (congrArg Signature.expansion hinst.signature_eq)
      have hrule : unpackRule (g.numbered S) nt (c :: front) = .ok (r, front) :=
        unpackRule_eq_ok.mpr ⟨c, i, rfl, hc, hr, hnt⟩
      rw [unpackNode]
      refine .behind (ofExcept_eq_ok.mpr ⟨hrule, rfl⟩) (.behind (ofNaming_eq_ok.mpr rfl) ?_)
      cases args? with
      | none => exact absurd (List.append_eq_nil_iff.mp (spelledArgs_nil.mp hargs)).2 hback
      | some as =>
        obtain ⟨hal', hbelow⟩ := ht.aligned_read hinst hcounter hal hS
        rw [hexp]
        refine EndsEarly.bind ?_
        rw [← numbered_below]
        -- the arguments before the cut are read in full, and the one that is cut ends early
        refine endsEarly_unpackArgs (fun d hd s cs rest hS hcs hlevels => ?_)
          (fun d hd s front back hS => ?_) hfilled hbelow hargs hback
          (Nat.lt_of_succ_lt_succ hlevels)
        · have hdepth : d.depth < levels := by
            have := d.depth_lt_countNodes
            have := hcs.length_eq
            omega
          obtain ⟨d', s', -, hread⟩ :=
            exists_unpackNode rest (ht.child hd) (hcompletes d hd) hdepth hal' hS hcs
          obtain ⟨rules, -, hexpanded, -⟩ := of_unpackNode hread
          exact ⟨d', s', hS.mono hexpanded.issued_le, hread⟩
        · exact ih (ht.child hd) (hcompletes d hd) hal' hS

/-- Packed texts are a prefix-free code. If a text is read, then at any time the same text with
something behind it is reported to have so many characters too many, and whatever the text begins
with, short of the text itself, is reported to end too early. -/
theorem unpackFrom_prefixFree {text : String} (h : g.unpackFrom nt text s = (.ok t, s'))
    (names : NameSupply) :
    (∀ u, u ≠ "" → ∃ names',
      g.unpackFrom nt (text ++ u) names = (.error (.pack (.trailing u.length)), names')) ∧
    ∀ p u, p ++ u = text → u ≠ "" → ∃ names',
      g.unpackFrom nt p names = (.error (.pack .truncated), names') := by
  obtain ⟨levels, rules, hexpanded, hspelled⟩ := of_unpackFrom h
  have ht : g.Derived s' [] t := hexpanded.derived .nil
  have hrules : g.table.allRules = g.numbered [] := (List.append_nil _).symm
  obtain rfl := hexpanded.nonterminal_eq
  constructor
  · intro u hu
    have hdepth : t.depth < (text ++ u).toList.length + 1 := by
      have := t.depth_lt_countNodes
      have := hspelled.length_eq
      rw [String.toList_append, List.length_append]
      omega
    obtain ⟨t', names', -, hread⟩ := exists_unpackNode u.toList ht hexpanded.complete hdepth
      (.nil Eq) (.nil : Scope.WellNamed _ names) hspelled
    rw [← hrules, ← String.toList_append] at hread
    have hrest : ¬u.toList.isEmpty = true := by simpa using hu
    refine ⟨names', (bind_of_ok hread).trans ?_⟩
    simp only [if_neg hrest, String.length_toList]
    rfl
  · rintro p u rfl hu
    have hcut : u.toList ≠ [] := by simpa using hu
    rw [String.toList_append] at hspelled
    have hend := endsEarly_unpackNode ht hexpanded.complete (.nil Eq)
      (.nil : Scope.WellNamed _ names) hspelled hcut (Nat.lt_add_one p.toList.length)
    rw [← hrules] at hend
    exact hend.bind

/-- Behind the function that returns its argument two more characters are two too many, and without
its body the function is not complete. -/
theorem unpackFrom_prefixFree_identityTerm :
    let g : Grammar Float := terms
    g.unpackFrom "T" "13" .initial = (.ok identityTerm, ⟨1⟩) ∧ "!é" ≠ "" ∧ "1" ++ "3" = "13" ∧
      (∃ names, g.unpackFrom "T" ("13" ++ "!é") ⟨7⟩ = (.error (.pack (.trailing 2)), names)) ∧
      ∃ names, g.unpackFrom "T" "1" ⟨7⟩ = (.error (.pack .truncated), names) := by
  intro g
  have hread : g.unpackFrom "T" "13" .initial = (.ok identityTerm, ⟨1⟩) := unpackFrom_identityTerm
  obtain ⟨hlonger, hshorter⟩ := unpackFrom_prefixFree hread ⟨7⟩
  exact ⟨hread, by decide, by decide, hlonger "!é" (by decide),
    hshorter "1" "3" (by decide) (by decide)⟩

end Grammar

end ScopedGrammar
