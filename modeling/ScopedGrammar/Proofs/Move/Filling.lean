import ScopedGrammar.Move.Insertion
import ScopedGrammar.Proofs.Grammar.Distribution

/-!
# Filling in the arguments of an inserted node

An inserted node takes a subtree over at one slot and generates its other arguments. What is
generated has names of its own, and comes to variants of given arguments with the product of their
probabilities, the slot apart.
-/
namespace ScopedGrammar.Insertion

section Outcomes

variable {K : Type} [Scalar K] {g : Grammar K} {scope : Scope K} {inner : Tree K} {slot : ℕ}

/-- What fills a symbol in away from the slot. -/
def fillSymbol (g : Grammar K) (scope : Scope K) (symbol : String) : Sampler K (Arg K) :=
  if g.isNonterminal symbol then do
    let t ← g.generateIn scope symbol
    pure (.subtree t)
  else pure (.terminal symbol)

theorem fillArgs_cons (g : Grammar K) (scope : Scope K) (slot : ℕ) (inner : Tree K) (k : ℕ)
    (symbol : String) (symbols : List String) :
    fillArgs g scope slot inner k (symbol :: symbols) =
      (if k = slot then pure (.subtree inner) else fillSymbol g scope symbol) >>= fun a =>
        fillArgs g scope slot inner (k + 1) symbols >>= fun as => pure (a :: as) := by
  rw [fillArgs]
  by_cases h : k = slot
  · simp [h]
  · simp only [h, fillSymbol, beq_iff_eq, if_false]
    split_ifs <;> simp

/-- What an inserted node has been given as arguments from a position on: the subtree at the slot,
and elsewhere trees that are complete and have names just taken. -/
structure Filled (g : Grammar K) (scope : Scope K) (slot : ℕ) (inner : Tree K) (k : ℕ)
    (symbols : List String) (s : NameSupply) (as : List (Arg K)) (s' : NameSupply) : Prop where
  symbols_eq : as.map Arg.symbol = symbols
  issued_le : s.issued ≤ s'.issued
  nodup : (Tree.introducedNamesArgs as).Nodup
  names : ∀ x ∈ Tree.introducedNamesArgs as,
    (k ≤ slot ∧ x ∈ inner.introducedNames) ∨ x ∈ s.taken s'
  filled : ∀ a ∈ as, a = .subtree inner ∨ a.asTree?.isSome = g.isNonterminal a.symbol
  subtrees : ∀ c, .subtree c ∈ as → c = inner ∨ g.Complete c ∧ g.Derived s' scope c
  slot_eq : ∀ j a, as[j]? = some a → k + j = slot → a = .subtree inner

omit [Scalar K] in
theorem Filled.terminals {k : ℕ} {symbols : List String} {s s' : NameSupply} {as : List (Arg K)}
    (h : Filled g scope slot inner k symbols s as s') {z : String} (hz : .terminal z ∈ as) :
    z ∈ symbols ∧ g.isNonterminal z = false := by
  refine ⟨h.symbols_eq ▸ List.mem_map_of_mem hz, ?_⟩
  exact ((h.filled _ hz).resolve_left (by simp)).symm

/-- What a generated argument is like. -/
theorem of_yields_fillSymbol {symbol : String} {s s' : NameSupply} {a : Arg K}
    (hscope : scope.WellNamed s) (h : (fillSymbol g scope symbol).Yields s (.ok a) s') :
    a.symbol = symbol ∧ s.issued ≤ s'.issued ∧ Tree.introducedNamesArgs [a] = s.taken s' ∧
      a.asTree?.isSome = g.isNonterminal a.symbol ∧
        ∀ c, a = .subtree c → g.Complete c ∧ g.Derived s' scope c := by
  unfold fillSymbol at h
  split at h
  · next hnt =>
    obtain ⟨t, s₁, ht, heq⟩ := (Sampler.yields_bind_ok ..).mp h
    obtain ⟨heq, rfl⟩ := (Sampler.yields_pure ..).mp heq
    cases heq
    obtain ⟨rules, hexp⟩ := Grammar.of_yields_generateIn ht
    refine ⟨hexp.nonterminal_eq, hexp.issued_le, ?_, ?_, fun c hc => ?_⟩
    · rw [Tree.introducedNamesArgs, Tree.introducedNamesArgs, List.append_nil,
        hexp.introducedNames_eq]
    · rw [Arg.symbol, hexp.nonterminal_eq, hnt]
      rfl
    · cases hc
      exact ⟨hexp.complete, hexp.derived hscope⟩
  · next hnt =>
    obtain ⟨heq, rfl⟩ := (Sampler.yields_pure ..).mp h
    cases heq
    refine ⟨rfl, Nat.le_refl _, (NameSupply.taken_self _).symm, ?_, by simp⟩
    rw [Arg.symbol, eq_false_of_ne_true hnt]
    rfl

section Cons

variable {k : ℕ} {symbol : String} {symbols : List String} {s s₁ s' : NameSupply}
  {a : Arg K} {as : List (Arg K)}

omit [Scalar K] in
/-- The subtree goes to its slot, so what comes later has names just taken. -/
theorem Filled.cons_inner (h : Filled g scope slot inner (slot + 1) symbols s as s')
    (hnodup : inner.introducedNames.Nodup) (hissued : ∀ x ∈ inner.introducedNames, s.Issued x) :
    Filled g scope slot inner slot (inner.nonterminal :: symbols) s (.subtree inner :: as) s' := by
  have hlater : ∀ x ∈ Tree.introducedNamesArgs as, x ∈ s.taken s' := fun x hx =>
    (h.names x hx).resolve_left fun hno => by omega
  refine ⟨?_, h.issued_le, ?_, fun x hx => ?_, fun b hb => ?_, fun c hc => ?_, fun j b hb hj => ?_⟩
  · rw [List.map_cons, h.symbols_eq]
    rfl
  · rw [Tree.introducedNamesArgs]
    refine List.nodup_append'.mpr ⟨hnodup, h.nodup, fun x hx hx' => ?_⟩
    exact NameSupply.not_issued_of_mem_taken (hlater x hx') (hissued x hx)
  · rw [Tree.introducedNamesArgs, List.mem_append] at hx
    rcases hx with hx | hx
    · exact .inl ⟨le_rfl, hx⟩
    · exact .inr (hlater x hx)
  · rcases List.mem_cons.mp hb with hb | hb
    · exact .inl hb
    · exact h.filled b hb
  · rcases List.mem_cons.mp hc with hc | hc
    · cases hc
      exact .inl rfl
    · exact h.subtrees c hc
  · obtain rfl : j = 0 := by omega
    simpa using hb.symm

/-- Away from the slot an argument is generated, and takes its names before those that follow. -/
theorem Filled.cons_generated (h : Filled g scope slot inner (k + 1) symbols s₁ as s')
    (hk : k ≠ slot) (hscope : scope.WellNamed s)
    (hissued : ∀ x ∈ inner.introducedNames, s.Issued x)
    (ha : (fillSymbol g scope symbol).Yields s (.ok a) s₁) :
    Filled g scope slot inner k (symbol :: symbols) s (a :: as) s' := by
  obtain ⟨hsymbol, hle, hnew, hfill, hsub⟩ := of_yields_fillSymbol hscope ha
  have hnames : Tree.introducedNamesArgs (a :: as) = s.taken s₁ ++ Tree.introducedNamesArgs as := by
    rw [← hnew]
    cases a <;> simp [Tree.introducedNamesArgs]
  refine ⟨?_, Nat.le_trans hle h.issued_le, ?_, fun x hx => ?_, fun b hb => ?_, fun c hc => ?_,
    fun j b hb hj => ?_⟩
  · rw [List.map_cons, h.symbols_eq, hsymbol]
  · rw [hnames]
    refine List.nodup_append'.mpr ⟨NameSupply.nodup_taken .., h.nodup, fun x hx hx' => ?_⟩
    rcases h.names x hx' with ⟨-, hin⟩ | hin
    · exact NameSupply.not_issued_of_mem_taken hx (hissued x hin)
    · exact NameSupply.not_issued_of_mem_taken hin (NameSupply.issued_of_mem_taken hx)
  · rw [hnames, List.mem_append] at hx
    rw [← NameSupply.taken_append hle h.issued_le, List.mem_append]
    rcases hx with hx | hx
    · exact .inr (.inl hx)
    · rcases h.names x hx with ⟨hlater, hin⟩ | hin
      · exact .inl ⟨by omega, hin⟩
      · exact .inr (.inr hin)
  · rcases List.mem_cons.mp hb with rfl | hb
    · exact .inr hfill
    · exact h.filled b hb
  · rcases List.mem_cons.mp hc with rfl | hc
    · obtain ⟨hcomplete, hderived⟩ := hsub c rfl
      exact .inr ⟨hcomplete, hderived.mono h.issued_le⟩
    · exact h.subtrees c hc
  · cases j with
    | zero => omega
    | succ j => exact h.slot_eq j b (by simpa using hb) (by omega)

end Cons

/-- Whatever the arguments come to is as it should be. -/
theorem filled_of_yields {k : ℕ} {symbols : List String} {s s' : NameSupply} {as : List (Arg K)}
    (hscope : scope.WellNamed s) (hnodup : inner.introducedNames.Nodup)
    (hissued : ∀ x ∈ inner.introducedNames, s.Issued x)
    (hslot : ∀ j symbol, symbols[j]? = some symbol → k + j = slot → inner.nonterminal = symbol)
    (h : (fillArgs g scope slot inner k symbols).Yields s (.ok as) s') :
    Filled g scope slot inner k symbols s as s' := by
  induction symbols generalizing k s as with
  | nil =>
    rw [fillArgs] at h
    obtain ⟨heq, rfl⟩ := (Sampler.yields_pure ..).mp h
    cases heq
    exact ⟨rfl, Nat.le_refl _, .nil, by simp [Tree.introducedNamesArgs], by simp, by simp, by simp⟩
  | cons symbol symbols ih =>
    rw [fillArgs_cons] at h
    obtain ⟨a, s₁, ha, hrest⟩ := (Sampler.yields_bind_ok ..).mp h
    obtain ⟨as, s₂, has, heq⟩ := (Sampler.yields_bind_ok ..).mp hrest
    obtain ⟨heq, rfl⟩ := (Sampler.yields_pure ..).mp heq
    cases heq
    have hnext : ∀ j z, symbols[j]? = some z → k + 1 + j = slot → inner.nonterminal = z := by
      intro j z hz hj
      exact hslot (j + 1) z (by simpa using hz) (by omega)
    by_cases hk : k = slot
    · rw [if_pos hk] at ha
      obtain ⟨heq, rfl⟩ := (Sampler.yields_pure ..).mp ha
      cases heq
      subst hk
      obtain rfl := hslot 0 symbol rfl (Nat.add_zero k)
      exact (ih hscope hissued hnext has).cons_inner hnodup hissued
    · rw [if_neg hk] at ha
      have hle := (of_yields_fillSymbol hscope ha).2.1
      exact (ih (hscope.mono hle) (fun x hx => (hissued x hx).mono hle) hnext has).cons_generated hk
        hscope hissued ha

end Outcomes

section Probability

open Exact

variable {g : Grammar Exact} {S T : Scope Exact} {M : Matching} {names : NameSupply}
  {inner : Tree Exact} {slot : ℕ}

/-- The arguments from a position on, except for the one at the slot. -/
def siblings (slot k : ℕ) (as : List (Arg Exact)) : List (Arg Exact) :=
  ((as.zipIdx k).filter fun a => a.2 != slot).map (·.1)

theorem siblings_cons_of_eq (as : List (Arg Exact)) (a : Arg Exact) :
    siblings slot slot (a :: as) = siblings slot (slot + 1) as := by
  simp [siblings, List.zipIdx_cons]

theorem siblings_cons_of_ne {k : ℕ} (h : k ≠ slot) (as : List (Arg Exact)) (a : Arg Exact) :
    siblings slot k (a :: as) = a :: siblings slot (k + 1) as := by
  simp [siblings, List.zipIdx_cons, h]

theorem mem_of_mem_siblings {k : ℕ} {as : List (Arg Exact)} {a : Arg Exact}
    (h : a ∈ siblings slot k as) : a ∈ as := by
  obtain ⟨⟨b, i⟩, hb, rfl⟩ := List.mem_map.mp h
  exact List.fst_mem_of_mem_zipIdx (List.mem_filter.mp hb).1

/-- A member is drawn first, and the others with a probability that does not depend on it. -/
theorem prob_cons {R : Arg Exact → Arg Exact → Prop} {b : Arg Exact} {bs : List (Arg Exact)}
    {first : Sampler Exact (Arg Exact)} {rest : Sampler Exact (List (Arg Exact))} {s : NameSupply}
    {v : ℝ} (hrest : ∀ a s', first.Yields s (.ok a) s' →
      rest.prob s' (fun as => List.Forall₂ R as bs) = v) :
    (first >>= fun a => rest >>= fun as => pure (a :: as)).prob s
      (fun as => List.Forall₂ R as (b :: bs)) = first.prob s (fun a => R a b) * v := by
  classical
  rw [Sampler.prob_bind, ← Sampler.mean_ite_const]
  refine Sampler.mean_congr fun a s' ha => ?_
  rw [← hrest a s' ha, ← Sampler.prob_and, Sampler.prob_bind_pure]
  exact Sampler.prob_congr fun as s'' _ => List.forall₂_cons

/-- A symbol is filled in by a variant of an argument with the probability of the argument. -/
theorem prob_fillSymbol (hg : g.Proper) (hal : Scope.Aligned M S T) {a : Arg Exact}
    (ha : ∀ c, a = .subtree c → g.Weighted names T c) {s : NameSupply} (hS : S.WellNamed s) :
    (fillSymbol g S a.symbol).prob s (fun b => b.VariantOver M a) =
      g.argChance (g.maxDepth + 1) T a := by
  unfold fillSymbol
  split_ifs with hnt
  · rw [Sampler.prob_bind_pure]
    cases a with
    | terminal z =>
      have hzero : g.argChance (g.maxDepth + 1) T (.terminal z) = 0 := if_pos hnt
      rw [hzero]
      refine Sampler.prob_eq_zero fun t s' _ h => ?_
      cases h
    | subtree c =>
      have hsub : ∀ t : Tree Exact, Arg.VariantOver M (.subtree t) (.subtree c) ↔ t.VariantOver M c := by
        refine fun t => ⟨fun h => ?_, .subtree⟩
        cases h with
        | subtree h => exact h
      have hvalue : g.argChance (g.maxDepth + 1) T (.subtree c) = g.chance (g.maxDepth + 1) T c :=
        if_pos hnt
      rw [hvalue, ← Grammar.prob_generateIn_aligned hg hS hal (ha c rfl)]
      exact Sampler.prob_congr fun t s' _ => hsub t
  · classical
    rw [Sampler.prob_pure]
    cases a with
    | terminal z =>
      have hvalue : g.argChance (g.maxDepth + 1) T (.terminal z) = 1 := if_neg hnt
      rw [hvalue, if_pos]
      exact .terminal z
    | subtree c =>
      have hvalue : g.argChance (g.maxDepth + 1) T (.subtree c) = 0 := if_neg hnt
      rw [hvalue, if_neg]
      intro h
      cases h

/-- The arguments are filled in by variants of given ones with the product of the probabilities of
those that are generated, if the subtree at the slot is one. -/
theorem prob_fillArgs (hg : g.Proper) (hal : Scope.Aligned M S T) {k : ℕ} {as : List (Arg Exact)}
    (hargs : ∀ c, .subtree c ∈ as → g.Weighted names T c)
    (hslot : ∀ j a, as[j]? = some a → k + j = slot → Arg.VariantOver M (.subtree inner) a)
    {s : NameSupply} (hS : S.WellNamed s) :
    (fillArgs g S slot inner k (as.map Arg.symbol)).prob s
      (fun bs => List.Forall₂ (Arg.VariantOver M) bs as) =
        ((siblings slot k as).map (g.argChance (g.maxDepth + 1) T)).prod := by
  classical
  induction as generalizing k s with
  | nil =>
    rw [List.map_nil, fillArgs, Sampler.prob_pure]
    simp [siblings]
  | cons a as ih =>
    have hrest := fun {s : NameSupply} (hS : S.WellNamed s) =>
      ih (k := k + 1) (fun c hc => hargs c (List.mem_cons_of_mem a hc))
        (fun j b hb hj => hslot (j + 1) b (by simpa using hb) (by omega)) hS
    rw [List.map_cons, fillArgs_cons]
    by_cases hk : k = slot
    · subst hk
      rw [prob_cons fun b s' hb => ?_, if_pos rfl, Sampler.prob_pure,
        if_pos (hslot 0 a rfl (by omega)), one_mul, siblings_cons_of_eq]
      rw [if_pos rfl] at hb
      obtain ⟨-, rfl⟩ := (Sampler.yields_pure ..).mp hb
      exact hrest hS
    · rw [prob_cons fun b s' hb => ?_, if_neg hk, siblings_cons_of_ne hk, List.map_cons,
        List.prod_cons]
      · congr 1
        refine prob_fillSymbol hg hal (fun c hc => hargs c ?_) hS
        exact hc ▸ List.mem_cons_self
      · rw [if_neg hk] at hb
        exact hrest (hS.mono (of_yields_fillSymbol hS hb).2.1)

end Probability

end ScopedGrammar.Insertion
