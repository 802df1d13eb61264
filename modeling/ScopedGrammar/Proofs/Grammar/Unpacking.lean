import ScopedGrammar.Proofs.Grammar.Generated
import ScopedGrammar.Proofs.Grammar.Packing
import ScopedGrammar.Proofs.Tree.Printed

/-!
# Reading packed trees

The reader keeps the list of rules that can be named, where the writer keeps an index. What it reads
is a tree whose nodes are made by rules visible in their scopes, and the characters it has taken
spell that tree. Conversely the text of any complete tree is read, whatever stands behind it, and
what comes out is a variant of the tree, for the reader gives each binder a fresh name.
-/
namespace ScopedGrammar

variable {K : Type}

namespace Unpacking

variable {α β : Type} {s s' : NameSupply} {a a' : α} {b : β}

theorem bind_eq_ok {x : Grammar.Unpacking α} {f : α → Grammar.Unpacking β} :
    (x >>= f) s = (.ok b, s') ↔ ∃ a s₁, x s = (.ok a, s₁) ∧ f a s₁ = (.ok b, s') := by
  have hbind : (x >>= f) s = ExceptT.bindCont f (x s).1 (x s).2 := rfl
  rw [hbind]
  rcases x s with ⟨e | a, s₁⟩
  · constructor
    · intro h
      cases h
    · rintro ⟨a, s₂, h, -⟩
      cases h
  · constructor
    · exact fun h => ⟨a, s₁, rfl, h⟩
    · rintro ⟨_, _, h, hrest⟩
      cases h
      exact hrest

theorem bind_congr {x : Grammar.Unpacking α} {f f' : α → Grammar.Unpacking β}
    (h : ∀ a s', x s = (.ok a, s') → f a s' = f' a s') : (x >>= f) s = (x >>= f') s := by
  change ExceptT.bindCont f (x s).1 (x s).2 = ExceptT.bindCont f' (x s).1 (x s).2
  rcases hx : x s with ⟨e | a, s'⟩
  · rfl
  · exact h a s' hx

theorem pure_eq_ok : (pure a : Grammar.Unpacking α) s = (.ok a', s') ↔ a = a' ∧ s = s' := by
  constructor
  · intro h
    cases h
    exact ⟨rfl, rfl⟩
  · rintro ⟨rfl, rfl⟩
    rfl

theorem ofExcept_eq_ok {x : Except GrammarError α} :
    (liftM x : Grammar.Unpacking α) s = (.ok a, s') ↔ x = .ok a ∧ s = s' := by
  have hlift : (liftM x : Grammar.Unpacking α) s = (x, s) := rfl
  rw [hlift, Prod.mk.injEq]

theorem ofNaming_eq_ok {x : Naming α} :
    (liftM x : Grammar.Unpacking α) s = (.ok a, s') ↔ x s = (a, s') := by
  have hlift : (liftM x : Grammar.Unpacking α) s = (.ok (x s).1, (x s).2) := rfl
  rw [hlift, Prod.mk.injEq, Except.ok.injEq, Prod.ext_iff]

end Unpacking

namespace Grammar

variable {g : Grammar K} {M : Matching} {S T : Scope K} {s s' : NameSupply} {t : Tree K}
  {levels : ℕ} {nt symbol : String} {symbols : List String} {rules : List (Rule K)} {r : Rule K}
  {as : List (Arg K)} {cs rest : List Char}

section Equations

variable {read : String → List Char → Unpacking (Tree K × List Char)}

theorem unpackRule_eq_ok : unpackRule rules nt cs = .ok (r, rest) ↔ ∃ c i, cs = c :: rest ∧
    Spells i c ∧ rules[i]? = some r ∧ r.nonterminal = nt := by
  constructor
  · intro h
    cases cs with
    | nil => cases h
    | cons c cs =>
      simp only [unpackRule, bind, Except.bind] at h
      split at h
      · cases h
      · next i hi =>
        split at h
        · cases h
        · next q hq =>
          split at h
          · next hnt =>
            cases h
            exact ⟨c, i, rfl, unpackIndex_eq_ok.mp hi, hq, by simpa using hnt⟩
          · cases h
  · rintro ⟨c, i, rfl, hi, hr, rfl⟩
    simp [unpackRule, unpackIndex_eq_ok.mpr hi, hr, bind, Except.bind]

theorem unpackArgs_nil : unpackNode.unpackArgs g read [] cs s = (.ok (as, rest), s') ↔
    as = [] ∧ rest = cs ∧ s' = s := by
  rw [unpackNode.unpackArgs, Unpacking.pure_eq_ok, Prod.mk.injEq]
  simp only [eq_comm, and_assoc]

theorem unpackArgs_subtree (hnt : g.isNonterminal symbol = true) :
    unpackNode.unpackArgs g read (symbol :: symbols) cs s = (.ok (as, rest), s') ↔
      ∃ t cs₁ s₁ as', read symbol cs s = (.ok (t, cs₁), s₁) ∧
        unpackNode.unpackArgs g read symbols cs₁ s₁ = (.ok (as', rest), s') ∧
          as = .subtree t :: as' := by
  rw [unpackNode.unpackArgs, if_pos hnt, Unpacking.bind_eq_ok]
  constructor
  · rintro ⟨⟨t, cs₁⟩, s₁, ht, h⟩
    obtain ⟨⟨as', rest'⟩, s₂, has, h⟩ := Unpacking.bind_eq_ok.mp h
    obtain ⟨heq, rfl⟩ := Unpacking.pure_eq_ok.mp h
    cases heq
    exact ⟨t, cs₁, s₁, as', ht, has, rfl⟩
  · rintro ⟨t, cs₁, s₁, as', ht, has, rfl⟩
    exact ⟨(t, cs₁), s₁, ht, Unpacking.bind_eq_ok.mpr ⟨(as', rest), s', has, rfl⟩⟩

theorem unpackArgs_terminal (hnt : ¬ g.isNonterminal symbol = true) :
    unpackNode.unpackArgs g read (symbol :: symbols) cs s = (.ok (as, rest), s') ↔
      ∃ as', unpackNode.unpackArgs g read symbols cs s = (.ok (as', rest), s') ∧
        as = .terminal symbol :: as' := by
  rw [unpackNode.unpackArgs, if_neg hnt, Unpacking.bind_eq_ok]
  constructor
  · rintro ⟨⟨as', rest'⟩, s₁, has, h⟩
    obtain ⟨heq, rfl⟩ := Unpacking.pure_eq_ok.mp h
    cases heq
    exact ⟨as', has, rfl⟩
  · rintro ⟨as', has, rfl⟩
    exact ⟨(as', rest), s', has, rfl⟩

/-- A node is read as its first character says; what is below it is read from the others. -/
theorem unpackNode_eq_ok : g.unpackNode (levels + 1) rules nt cs s = (.ok (t, rest), s') ↔
    ∃ c i cs' r, cs = c :: cs' ∧ Spells i c ∧ rules[i]? = some r ∧ r.nonterminal = nt ∧
      ((r.expansion = none ∧ t = .node r.nonterminal r.name (g.kindOf r s).1 none ∧ rest = cs' ∧
          s' = (g.kindOf r s).2) ∨
        ∃ symbols as, r.expansion = some symbols ∧
          unpackNode.unpackArgs g (g.unpackNode levels (Scope.below rules (g.kindOf r s).1)) symbols
              cs' (g.kindOf r s).2 = (.ok (as, rest), s') ∧
            t = .node r.nonterminal r.name (g.kindOf r s).1 (some as)) := by
  rw [unpackNode, Unpacking.bind_eq_ok]
  constructor
  · rintro ⟨⟨r, cs'⟩, s₁, hlift, hnode⟩
    obtain ⟨hrule, rfl⟩ := Unpacking.ofExcept_eq_ok.mp hlift
    obtain ⟨c, i, rfl, hc, hi, hnt⟩ := unpackRule_eq_ok.mp hrule
    obtain ⟨kind, s₂, hlift', hfill⟩ := Unpacking.bind_eq_ok.mp hnode
    have hkind := Unpacking.ofNaming_eq_ok.mp hlift'
    refine ⟨c, i, cs', r, rfl, hc, hi, hnt, ?_⟩
    rw [hkind]
    cases hexp : r.expansion with
    | none =>
      rw [hexp] at hfill
      obtain ⟨heq, rfl⟩ := Unpacking.pure_eq_ok.mp hfill
      cases heq
      exact .inl ⟨rfl, rfl, rfl, rfl⟩
    | some symbols =>
      rw [hexp] at hfill
      obtain ⟨⟨as, rest'⟩, s₃, has, hpure⟩ := Unpacking.bind_eq_ok.mp hfill
      obtain ⟨heq, rfl⟩ := Unpacking.pure_eq_ok.mp hpure
      cases heq
      exact .inr ⟨symbols, as, rfl, has, rfl⟩
  · rintro ⟨c, i, cs', r, rfl, hc, hi, hnt, h⟩
    have hrule : unpackRule rules nt (c :: cs') = .ok (r, cs') :=
      unpackRule_eq_ok.mpr ⟨c, i, rfl, hc, hi, hnt⟩
    refine ⟨(r, cs'), s, Unpacking.ofExcept_eq_ok.mpr ⟨hrule, rfl⟩, Unpacking.bind_eq_ok.mpr ?_⟩
    refine ⟨(g.kindOf r s).1, (g.kindOf r s).2, Unpacking.ofNaming_eq_ok.mpr rfl, ?_⟩
    dsimp only
    rcases h with ⟨hexp, rfl, rfl, rfl⟩ | ⟨symbols, as, hexp, has, rfl⟩
    · rw [hexp]
      rfl
    · rw [hexp]
      exact Unpacking.bind_eq_ok.mpr ⟨(as, rest), s', has, rfl⟩

end Equations

section Soundness

/-- Read arguments are filled in as they should be, and spelled by what was taken. -/
theorem of_unpackArgs
    (ih : ∀ {nt cs s t rest s'}, g.unpackNode levels (g.numbered S) nt cs s = (.ok (t, rest), s') →
      ∃ rules front, g.Expanded levels S nt s t rules s' ∧ cs = front ++ rest ∧
        g.Spelled S t front)
    (h : unpackNode.unpackArgs g (g.unpackNode levels (g.numbered S)) symbols cs s =
      (.ok (as, rest), s')) :
    ∃ rules front, g.ExpandedArgs levels S symbols s as rules s' ∧ cs = front ++ rest ∧
      g.SpelledArgs S as front := by
  induction symbols generalizing cs s as with
  | nil =>
    obtain ⟨rfl, rfl, rfl⟩ := unpackArgs_nil.mp h
    exact ⟨[], [], .nil, rfl, spelledArgs_nil.mpr rfl⟩
  | cons symbol symbols ihs =>
    by_cases hnt : g.isNonterminal symbol = true
    · obtain ⟨t, cs₁, s₁, as', ht, has, rfl⟩ := (unpackArgs_subtree hnt).mp h
      obtain ⟨rules, front, hexpanded, rfl, hfront⟩ := ih ht
      obtain ⟨rules', front', hargs, rfl, hfront'⟩ := ihs has
      exact ⟨_, front ++ front', .subtree hnt hexpanded hargs, (List.append_assoc ..).symm,
        spelledArgs_subtree.mpr ⟨front, front', rfl, hfront, hfront'⟩⟩
    · obtain ⟨as', has, rfl⟩ := (unpackArgs_terminal hnt).mp h
      obtain ⟨rules, front, hargs, rfl, hfront⟩ := ihs has
      exact ⟨_, front, .terminal hnt hargs, rfl, spelledArgs_terminal.mpr hfront⟩

/-- A tree that was read is expanded by rules visible in its scope, and spelled by what was taken.
-/
theorem of_unpackNode
    (h : g.unpackNode levels (g.numbered S) nt cs s = (.ok (t, rest), s')) :
    ∃ rules front, g.Expanded levels S nt s t rules s' ∧ cs = front ++ rest ∧
      g.Spelled S t front := by
  induction levels generalizing S nt cs s t rest s' with
  | zero => cases h
  | succ levels ih =>
    obtain ⟨c, i, cs', r, rfl, hc, hi, rfl, hnode⟩ := unpackNode_eq_ok.mp h
    have hvisible : r ∈ g.visibleRules r.nonterminal S :=
      mem_visibleRules_iff_numbered.mpr ⟨List.mem_of_getElem? hi, rfl⟩
    have hmakes := (g.kindOf_spec r s).1
    rcases hnode with ⟨hexp, rfl, rfl, rfl⟩ | ⟨symbols, as, hexp, has, rfl⟩
    · have hinst : g.IsInstance r (.node r.nonterminal r.name (g.kindOf r s).1 none) :=
        ⟨by simp [Rule.signature, hexp], hmakes⟩
      exact ⟨_, [c], .leaf hvisible hexp, rfl, spelled_node.mpr
        ⟨i, c, [], rfl, ⟨r, hi, hinst⟩, hc, spelledArgs_nil.mpr rfl⟩⟩
    · rw [← numbered_below] at has
      obtain ⟨rules, front, hargs, rfl, hfront⟩ := of_unpackArgs ih has
      have hinst : g.IsInstance r (.node r.nonterminal r.name (g.kindOf r s).1 (some as)) :=
        ⟨by simp [Rule.signature, hexp, hargs.symbols_eq], hmakes⟩
      exact ⟨_, c :: front, .node hvisible hexp hargs, rfl, spelled_node.mpr
        ⟨i, c, front, rfl, ⟨r, hi, hinst⟩, hc, hfront⟩⟩

/-- A whole text that is read spells the tree. -/
theorem of_unpackFrom {text : String} (h : g.unpackFrom nt text s = (.ok t, s')) :
    ∃ levels rules, g.Expanded levels [] nt s t rules s' ∧ g.Spelled [] t text.toList := by
  obtain ⟨⟨u, rest⟩, s₁, hu, h⟩ := Unpacking.bind_eq_ok.mp h
  have hrules : g.table.allRules = g.numbered [] := (List.append_nil _).symm
  rw [hrules] at hu
  obtain ⟨rules, front, hexpanded, hfront, hspelled⟩ := of_unpackNode hu
  dsimp only at h
  split at h
  · next hrest =>
    obtain ⟨rfl, rfl⟩ := Unpacking.pure_eq_ok.mp h
    rw [List.isEmpty_iff.mp hrest, List.append_nil] at hfront
    exact ⟨_, rules, hexpanded, hfront ▸ hspelled⟩
  · cases h

end Soundness

section Completeness

variable {names : NameSupply}

/-- Below a node that is read as the counterpart of another the scopes are aligned again. -/
theorem Derived.aligned_read {r' : Rule K} (ht : g.Derived names T t) (hinst : g.IsInstance r' t)
    (hcounter : r.CounterpartOver M r') (hal : Scope.Aligned M S T) (hS : S.WellNamed s) :
    Scope.Aligned (M.below (g.kindOf r s).1 t.kind) (S.below (g.kindOf r s).1) (T.below t.kind) ∧
      (S.below (g.kindOf r s).1).WellNamed (g.kindOf r s).2 := by
  obtain ⟨hnew, hbelow⟩ := g.kindOf_fresh r hS
  have hintro : Option.Rel Rule.SameUpToName (g.kindOf r s).1.introduced? t.kind.introduced? :=
    (hinst.headOver hcounter (g.kindOf_spec r s).1 t.args? rfl).introduced?
  exact ⟨hal.below hintro hnew fun w hw =>
    ht.fresh.disjoint _ (Tree.mem_introducedNames_of_introduced? hw), hbelow⟩

/-- The text of arguments is read as corresponding arguments. -/
theorem exists_unpackArgs (rest : List Char)
    (ih : ∀ c, .subtree c ∈ as → ∀ (s : NameSupply) (front rest : List Char), S.WellNamed s →
      g.Spelled T c front → ∃ c' s', c'.VariantOver M c ∧
        g.unpackNode levels (g.numbered S) c.nonterminal (front ++ rest) s = (.ok (c', rest), s'))
    (hfilled : ∀ a ∈ as, a.asTree?.isSome = g.isNonterminal a.symbol) (hS : S.WellNamed s)
    (hcs : g.SpelledArgs T as cs) :
    ∃ as' s', List.Forall₂ (Arg.VariantOver M) as' as ∧
      unpackNode.unpackArgs g (g.unpackNode levels (g.numbered S)) (as.map Arg.symbol) (cs ++ rest)
        s = (.ok (as', rest), s') := by
  induction as generalizing s cs with
  | nil =>
    obtain rfl := spelledArgs_nil.mp hcs
    exact ⟨[], s, .nil, unpackArgs_nil.mpr ⟨rfl, rfl, rfl⟩⟩
  | cons a as iha =>
    have hrest := fun c hc => ih c (List.mem_cons_of_mem a hc)
    have hfilled' := fun b hb => hfilled b (List.mem_cons_of_mem a hb)
    have hnt := hfilled a List.mem_cons_self
    cases a with
    | subtree c =>
      obtain ⟨front, cs', rfl, hfront, hcs'⟩ := spelledArgs_subtree.mp hcs
      obtain ⟨c', s₁, hvariant, hread⟩ := ih c (by simp) s front (cs' ++ rest) hS hfront
      obtain ⟨rules, -, hexpanded, -⟩ := of_unpackNode hread
      obtain ⟨as', s', hvariants, hreads⟩ :=
        iha hrest hfilled' (hS.mono hexpanded.issued_le) hcs'
      refine ⟨.subtree c' :: as', s', .cons (.subtree hvariant) hvariants, ?_⟩
      rw [List.append_assoc]
      exact (unpackArgs_subtree hnt.symm).mpr ⟨c', _, s₁, as', hread, hreads, rfl⟩
    | terminal x =>
      have hx : ¬ g.isNonterminal x = true := by
        have hfalse : false = g.isNonterminal x := hnt
        rw [← hfalse]
        exact Bool.false_ne_true
      obtain ⟨as', s', hvariants, hreads⟩ :=
        iha hrest hfilled' hS (spelledArgs_terminal.mp hcs)
      exact ⟨.terminal x :: as', s', .cons (.terminal x) hvariants,
        (unpackArgs_terminal hx).mpr ⟨as', hreads, rfl⟩⟩

/-- The text of a complete tree is read as a variant of the tree. -/
theorem exists_unpackNode (rest : List Char) (ht : g.Derived names T t) (hcomplete : g.Complete t)
    (hdepth : t.depth < levels) (hal : Scope.Aligned M S T) (hS : S.WellNamed s)
    (hcs : g.Spelled T t cs) : ∃ t' s', t'.VariantOver M t ∧
      g.unpackNode levels (g.numbered S) t.nonterminal (cs ++ rest) s = (.ok (t', rest), s') := by
  induction levels generalizing M S T t s cs rest with
  | zero => cases hdepth
  | succ levels ih =>
    have hdepths := Tree.depth_lt_succ_iff.mp hdepth
    obtain ⟨hfilled, hcompletes⟩ := hcomplete
    obtain ⟨nt, name, kind, args?⟩ := t
    obtain ⟨i, c, cs', rfl, ⟨r', hr', hinst⟩, hc, hargs⟩ := spelled_node.mp hcs
    -- The rule of the same number makes the root of the variant.
    obtain ⟨r, hr, hcounter⟩ := exists_numbered_counterpart hal ht.wellNamed hr'
    have hmakes := (g.kindOf_spec r s).1
    have hnt : r.nonterminal = nt := hcounter.same.nonterminal_eq.trans hinst.nonterminal_eq
    have hexp : r.expansion = args?.map (·.map Arg.symbol) :=
      hcounter.same.expansion_eq.trans (congrArg Signature.expansion hinst.signature_eq)
    cases args? with
    | none =>
      obtain rfl := spelledArgs_nil.mp hargs
      have hhead := hinst.headOver hcounter hmakes none rfl
      exact ⟨_, _, Tree.variantOver_iff.mpr ⟨hhead, .nil⟩, unpackNode_eq_ok.mpr
        ⟨c, i, rest, r, rfl, hc, hr, hnt, .inl ⟨hexp, rfl, rfl, rfl⟩⟩⟩
    | some as =>
      obtain ⟨hal', hbelow⟩ := ht.aligned_read hinst hcounter hal hS
      obtain ⟨as', s', hvariants, hreads⟩ := exists_unpackArgs rest
        (fun c hc s front rest hS hfront =>
          ih rest (ht.child hc) (hcompletes c hc) (hdepths c hc) hal' hS hfront) hfilled hbelow hargs
      have hhead := hinst.headOver hcounter hmakes (some as') rfl
      rw [numbered_below] at hreads
      exact ⟨_, s', Tree.variantOver_iff.mpr ⟨hhead, hvariants⟩, unpackNode_eq_ok.mpr
        ⟨c, i, cs' ++ rest, r, rfl, hc, hr, hnt, .inr ⟨_, as', hexp, hreads, rfl⟩⟩⟩

/-- The text of a closed complete tree is read to its end. -/
theorem exists_unpackFrom {text : String} (ht : g.Derived names [] t) (hcomplete : g.Complete t)
    (hcs : g.Spelled [] t text.toList) (s : NameSupply) :
    ∃ t' s', g.unpackFrom t.nonterminal text s = (.ok t', s') ∧ t'.Variant t := by
  have hdepth : t.depth < text.toList.length + 1 := by
    rw [hcs.length_eq]
    exact Nat.lt_succ_of_lt t.depth_lt_countNodes
  obtain ⟨t', s', hvariant, hread⟩ := exists_unpackNode [] ht hcomplete hdepth
    (.nil Eq) (.nil : Scope.WellNamed _ s) hcs
  rw [List.append_nil, numbered, List.append_nil] at hread
  exact ⟨t', s', Unpacking.bind_eq_ok.mpr ⟨_, s', hread, rfl⟩, hvariant⟩

end Completeness

/-- Reading undoes writing. A closed tree has a packed text unless the index of some node is `62` or
more. The text has a character for each node, and whatever names have been issued, it is read as a
variant of the tree. -/
theorem unpackFrom_pack {names : NameSupply} (hdist : g.DistinctSignatures)
    (hres : g.NoReservedNames) (ht : g.Derived names [] t) (hcomplete : g.Complete t) :
    (∀ p n, t.get? p = some n → ∃! i, g.NodeIndex t p i) ∧
      ((∃ text, g.pack t = .ok text) ∨ ∃ i, g.pack t = .error (.pack (.overflow i))) ∧
      ((∃ e, g.pack t = .error e) ↔ ∃ p i, g.NodeIndex t p i ∧ 62 ≤ i) ∧
      ∀ text, g.pack t = .ok text → text.length = t.countNodes ∧
        ∀ s, ∃ t' s', g.unpackFrom t.nonterminal text s = (.ok t', s') ∧ t'.Variant t ∧
          t'.alike t = true := by
  refine ⟨fun p n hn => ht.existsUnique_nodeIndex hdist hres hn, ?_, ?_, fun text htext => ?_⟩
  · by_cases hlarge : ∃ p i, g.NodeIndex t p i ∧ 62 ≤ i
    · obtain ⟨p, i, -, -, herror⟩ := pack_eq_error hdist hres ht hlarge
      exact .inr ⟨i, herror⟩
    · exact .inl (exists_pack_eq_ok hdist hres ht fun p i hi =>
        Nat.lt_of_not_le fun h => hlarge ⟨p, i, hi, h⟩)
  · constructor
    · rintro ⟨e, he⟩
      by_contra hlarge
      obtain ⟨text, htext⟩ := exists_pack_eq_ok hdist hres ht fun p i hi =>
        Nat.lt_of_not_le fun h => hlarge ⟨p, i, hi, h⟩
      cases he.symm.trans htext
    · intro hlarge
      obtain ⟨p, i, -, -, herror⟩ := pack_eq_error hdist hres ht hlarge
      exact ⟨_, herror⟩
  · have hspelled := (pack_eq_ok hdist hres ht).mp htext
    refine ⟨by rw [← String.length_toList, hspelled.length_eq], fun s => ?_⟩
    obtain ⟨t', s', hread, hvariant⟩ := exists_unpackFrom ht hcomplete hspelled s
    obtain ⟨levels, rules, hexpanded, -⟩ := of_unpackFrom hread
    refine ⟨t', s', hread, hvariant, beq_iff_eq.mpr ?_⟩
    exact Tree.canonicalFrom_eq_of_variantOver (hexpanded.derived .nil) ht (by simp) (by simp)
      hvariant (by simp)

/-- Writing undoes reading. A text that is read gives a closed tree of the nonterminal asked for, in
which each node is made by exactly one visible rule, and the tree is written as that text. No other
text is read as a variant of the tree. -/
theorem pack_unpackFrom [Scalar K] (hdist : g.DistinctSignatures) (hres : g.NoReservedNames)
    {text : String} (h : g.unpackFrom nt text s = (.ok t, s')) :
    t.nonterminal = nt ∧
      (∀ p n, t.get? p = some n → ∃ r, g.ruleForNode (t.variablesAbove p) n = .ok r) ∧
      (∃ lp, g.logProbability t = .ok lp) ∧ t.freeVariables = [] ∧ g.pack t = .ok text ∧
      ∀ nt' text' names names' u, g.unpackFrom nt' text' names = (.ok u, names') → u.Variant t →
        text' = text := by
  obtain ⟨levels, rules, hexpanded, hspelled⟩ := of_unpackFrom h
  have ht : g.Derived s' [] t := hexpanded.derived .nil
  refine ⟨hexpanded.nonterminal_eq, fun p n hn => ?_, ht.exists_logProbabilityIn hdist hres,
    ht.freeVariables_eq_nil, (pack_eq_ok hdist hres ht).mpr hspelled,
    fun nt' text' names names' u hu hvariant => ?_⟩
  · obtain ⟨r, -, -, hr⟩ := (ht.at_place hn).exists_rule hdist hres
    exact ⟨r, hr⟩
  · obtain ⟨levels', rules', hexpanded', hspelled'⟩ := of_unpackFrom hu
    have hchars := hspelled'.eq_of_variant hdist hres (hexpanded'.derived .nil) ht hvariant hspelled
    exact String.toList_inj.mp hchars

section Terms

variable [Scalar K]

theorem pack_identityTerm : (terms : Grammar K).pack identityTerm = .ok "13" := by rfl

theorem unpackFrom_identityTerm :
    (terms : Grammar K).unpackFrom "T" "13" .initial = (.ok identityTerm, ⟨1⟩) := by rfl

/-- The function that returns its argument is written as two characters and read again. -/
theorem unpackFrom_pack_identityTerm :
    let t : Tree Float := identityTerm
    (terms : Grammar Float).DistinctSignatures ∧ (terms : Grammar Float).NoReservedNames ∧
      terms.Derived ⟨1⟩ [] t ∧ terms.Complete t ∧ terms.pack t = .ok "13" ∧
      ∃ t' s', terms.unpackFrom "T" "13" ⟨7⟩ = (.ok t', s') ∧ t'.Variant t ∧ t'.alike t = true := by
  intro t
  obtain ⟨-, -, -, hread⟩ := unpackFrom_pack distinctSignatures_terms noReservedNames_terms
    derived_identityTerm (complete_identityTerm (K := Float))
  exact ⟨distinctSignatures_terms, noReservedNames_terms, derived_identityTerm,
    complete_identityTerm, pack_identityTerm, (hread "13" pack_identityTerm).2 ⟨7⟩⟩

/-- The text of the function that returns its argument is the only one that stands for it. -/
theorem pack_unpackFrom_identityTerm :
    let t : Tree Float := identityTerm
    (terms : Grammar Float).DistinctSignatures ∧ (terms : Grammar Float).NoReservedNames ∧
      terms.unpackFrom "T" "13" .initial = (.ok t, ⟨1⟩) ∧ t.freeVariables = [] ∧
      ∀ nt text names names' u, terms.unpackFrom nt text names = (.ok u, names') → u.Variant t →
        text = "13" := by
  intro t
  obtain ⟨-, -, -, hclosed, -, hunique⟩ := pack_unpackFrom distinctSignatures_terms
    noReservedNames_terms (unpackFrom_identityTerm (K := Float))
  exact ⟨distinctSignatures_terms, noReservedNames_terms, unpackFrom_identityTerm, hclosed, hunique⟩

end Terms

end Grammar

end ScopedGrammar
