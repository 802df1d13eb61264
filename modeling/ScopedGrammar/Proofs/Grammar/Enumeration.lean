import ScopedGrammar.Grammar.Enumeration
import ScopedGrammar.Proofs.Grammar.Alignment
import ScopedGrammar.Proofs.Grammar.Generated
import ScopedGrammar.Proofs.Listing

/-!
# Every tree is listed once

The trees of a depth are listed rule by rule and, for each rule, by the depths of its arguments.
What is listed is a tree of that depth, made by rules visible in their scopes, with names taken on
the way. Conversely a tree of that depth has one counterpart among the visible rules that can make
its root, and one assignment of depths that its arguments fit, so exactly one variant of it is
listed. The tree may be derived in another scope, as long as the two are aligned.
-/
namespace ScopedGrammar

variable {K : Type}

section Slots

variable {g : Grammar K} {n : ℕ} {symbols : List String}
  {slots slots' : List (String × Option (Fin n))} {as : List (Arg K)}

namespace Tree

theorem depth_lt_heightArgs {c : Tree K} (hc : .subtree c ∈ as) : c.depth < heightArgs as :=
  heightArgs_le_iff.mp (Nat.le_refl _) c hc

/-- Some argument is just below its node, unless all are terminals. -/
theorem exists_depth_of_heightArgs (h : heightArgs as ≠ 0) :
    ∃ c, .subtree c ∈ as ∧ c.depth + 1 = heightArgs as := by
  by_contra hnone
  push Not at hnone
  have hle : heightArgs as ≤ heightArgs as - 1 := heightArgs_le_iff.mpr fun c hc => by
    have hlt := depth_lt_heightArgs hc
    have hne := hnone c hc
    omega
  omega

end Tree

/-- An argument is what a slot says: it has the symbol, and a subtree has the depth. -/
def Fits (slot : String × Option (Fin n)) (a : Arg K) : Prop :=
  slot.1 = a.symbol ∧ slot.2.map Fin.val = a.asTree?.map Tree.depth

theorem Fits.unique {slot slot' : String × Option (Fin n)} {a : Arg K} (h : Fits slot a)
    (h' : Fits slot' a) : slot = slot' :=
  Prod.ext (h.1.trans h'.1.symm)
    (Option.map_injective (fun _ _ => Fin.ext) (h.2.trans h'.2.symm))

theorem slots_unique (h : List.Forall₂ Fits slots as) (h' : List.Forall₂ Fits slots' as) :
    slots = slots' := by
  rw [← List.forall₂_eq_eq_eq]
  exact forall₂_trans h h'.flip fun _ _ _ _ h h' => h.unique h'

theorem Fits.of_variantOver {M : Matching} {slot : String × Option (Fin n)} {a b : Arg K}
    (h : Fits slot a) (hab : a.VariantOver M b) : Fits slot b := by
  refine ⟨h.1.trans (Tree.symbol_eq_of_variantOver hab), h.2.trans ?_⟩
  cases hab with
  | subtree hcd => exact congrArg some hcd.depth_eq
  | terminal s => rfl

/-- The arguments reach as deep as their slots say. -/
theorem reachesDepth_iff (h : List.Forall₂ Fits slots as) :
    Grammar.reachesDepth slots = true ↔ ∃ c, .subtree c ∈ as ∧ c.depth + 1 = n := by
  induction h with
  | nil => simp [Grammar.reachesDepth]
  | @cons slot a slots as hfits _ ih =>
    obtain ⟨s, d⟩ := slot
    obtain ⟨-, hd⟩ := hfits
    rw [Grammar.reachesDepth_cons, Bool.or_eq_true, ih]
    cases a with
    | terminal x =>
      cases d with
      | none => simp
      | some d => cases hd
    | subtree c =>
      cases d with
      | none => cases hd
      | some d =>
        have hdepth : d.val = c.depth := Option.some.inj hd
        simp [hdepth]

theorem depth_lt_of_fits (h : List.Forall₂ Fits slots as) {c : Tree K} (hc : .subtree c ∈ as) :
    c.depth < n := by
  obtain ⟨⟨s, d⟩, -, -, hd⟩ := exists_of_forall₂ h _ hc
  cases d with
  | none => cases hd
  | some d =>
    have hdepth : d.val = c.depth := Option.some.inj hd
    exact hdepth ▸ d.isLt

theorem heightArgs_eq_of_fits (h : List.Forall₂ Fits slots as)
    (hreach : Grammar.reachesDepth slots = true) : Tree.heightArgs as = n := by
  obtain ⟨c, hc, hdepth⟩ := (reachesDepth_iff h).mp hreach
  have hle : Tree.heightArgs as ≤ n := Tree.heightArgs_le_iff.mpr fun _ => depth_lt_of_fits h
  have hlt := Tree.depth_lt_heightArgs hc
  omega

namespace Grammar

/-- A nonterminal is given a depth, and a terminal is given none. -/
theorem mem_depthAssignments : slots ∈ g.depthAssignments n symbols ↔
    List.Forall₂ (fun slot s => slot.1 = s ∧ slot.2.isSome = g.isNonterminal s) slots symbols := by
  induction symbols generalizing slots with
  | nil => simp [depthAssignments]
  | cons s symbols ih =>
    rw [depthAssignments, List.forall₂_cons_right_iff]
    split
    · next hnt =>
      simp only [List.mem_flatMap, List.mem_finRange, true_and, List.mem_map, ih, hnt]
      constructor
      · rintro ⟨d, others, hothers, rfl⟩
        exact ⟨_, others, ⟨rfl, rfl⟩, hothers, rfl⟩
      · rintro ⟨⟨_, d⟩, others, ⟨rfl, hd⟩, hothers, rfl⟩
        obtain ⟨d, rfl⟩ := Option.isSome_iff_exists.mp hd
        exact ⟨d, others, hothers, rfl⟩
    · next hnt =>
      simp only [List.mem_map, ih]
      constructor
      · rintro ⟨others, hothers, rfl⟩
        exact ⟨_, others, ⟨rfl, by simpa using hnt⟩, hothers, rfl⟩
      · rintro ⟨⟨_, d⟩, others, ⟨rfl, hd⟩, hothers, rfl⟩
        have hnone : d = none := by simpa [hnt] using hd
        exact ⟨others, hothers, by rw [hnone]⟩

theorem nodup_depthAssignments (g : Grammar K) (n : ℕ) (symbols : List String) :
    (g.depthAssignments n symbols).Nodup := by
  induction symbols with
  | nil => exact List.nodup_singleton _
  | cons s symbols ih =>
    rw [depthAssignments]
    split
    · refine List.nodup_flatMap.mpr ⟨fun d _ => ih.map List.cons_injective, ?_⟩
      refine (List.nodup_finRange n).imp fun {d e} hne => ?_
      rintro _ hd he
      obtain ⟨_, -, rfl⟩ := List.mem_map.mp hd
      obtain ⟨_, -, heq⟩ := List.mem_map.mp he
      cases heq
      exact hne rfl
    · exact ih.map List.cons_injective

/-- The arguments of an assignment have the symbols, and a nonterminal is filled in by a tree. -/
theorem filled_of_fits (hassign : slots ∈ g.depthAssignments n symbols)
    (h : List.Forall₂ Fits slots as) : as.map Arg.symbol = symbols ∧
      ∀ a ∈ as, a.asTree?.isSome = g.isNonterminal a.symbol := by
  have hall : List.Forall₂ (fun (a : Arg K) s => a.symbol = s ∧
      a.asTree?.isSome = g.isNonterminal s) as symbols := by
    refine forall₂_trans h.flip (mem_depthAssignments.mp hassign) ?_
    rintro a - slot s ⟨hsymbol, hdepth⟩ ⟨rfl, hsome⟩
    refine ⟨hsymbol.symm, ?_⟩
    have heq := congrArg Option.isSome hdepth
    rw [Option.isSome_map, Option.isSome_map] at heq
    rw [← heq, hsome]
  refine ⟨(map_eq_of_forall₂ hall fun _ _ h => h.1).trans (List.map_id _), fun a ha => ?_⟩
  obtain ⟨s, -, rfl, hsome⟩ := exists_of_forall₂ hall.flip a ha
  exact hsome

theorem mem_deepAssignments : slots ∈ g.deepAssignments n symbols ↔
    slots ∈ g.depthAssignments n symbols ∧ reachesDepth slots = true := by
  rw [deepAssignments_eq_filter, List.mem_filter]

end Grammar

end Slots

namespace Grammar

variable {g : Grammar K} {S T : Scope K} {nt : String} {depth n : ℕ} {lo s : NameSupply}
  {t : Tree K} {r : Rule K}

section Soundness

/-- What a tree is like that is listed when the supply of names has gone from `lo` to `s`. -/
structure Listed (g : Grammar K) (S : Scope K) (nt : String) (depth : ℕ) (lo : NameSupply)
    (t : Tree K) (s : NameSupply) : Prop where
  nonterminal_eq : t.nonterminal = nt
  depth_eq : t.depth = depth
  complete : g.Complete t
  derives : g.Derives S t
  issued_le : lo.issued ≤ s.issued
  nodup : t.introducedNames.Nodup
  issued : ∀ x ∈ t.introducedNames, s.Issued x
  new : ∀ x ∈ t.introducedNames, ¬ lo.Issued x

/-- What a list of arguments is like that is listed for some slots. -/
structure ListedArgs (g : Grammar K) (S : Scope K) (slots : List (String × Option (Fin n)))
    (lo : NameSupply) (as : List (Arg K)) (s : NameSupply) : Prop where
  fits : List.Forall₂ Fits slots as
  complete : ∀ c, .subtree c ∈ as → g.Complete c
  derives : ∀ c, .subtree c ∈ as → g.Derives S c
  issued_le : lo.issued ≤ s.issued
  nodup : (Tree.introducedNamesArgs as).Nodup
  issued : ∀ x ∈ Tree.introducedNamesArgs as, s.Issued x
  new : ∀ x ∈ Tree.introducedNamesArgs as, ¬ lo.Issued x

theorem Listed.mono {lo' : NameSupply} (h : g.Listed S nt depth lo t s)
    (hle : lo'.issued ≤ lo.issued) : g.Listed S nt depth lo' t s :=
  { h with
    issued_le := Nat.le_trans hle h.issued_le
    new := fun x hx hissued => h.new x hx (hissued.mono hle) }

/-- A listed tree is derived. -/
theorem Listed.derived (h : g.Listed S nt depth lo t s) (hS : S.WellNamed lo) :
    g.Derived s S t := by
  refine ⟨h.derives, ⟨h.nodup, h.issued, fun x hx hmem => ?_⟩, hS.mono h.issued_le⟩
  obtain ⟨v, hv, rfl⟩ := List.mem_map.mp hmem
  exact h.new _ hx (hS.issued v hv)

theorem ListedArgs.mono {slots : List (String × Option (Fin n))} {as : List (Arg K)}
    {lo' : NameSupply} (h : g.ListedArgs S slots lo as s) (hle : lo'.issued ≤ lo.issued) :
    g.ListedArgs S slots lo' as s :=
  { h with
    issued_le := Nat.le_trans hle h.issued_le
    new := fun x hx hissued => h.new x hx (hissued.mono hle) }

theorem ListedArgs.nil : g.ListedArgs (n := n) S [] lo [] lo :=
  ⟨.nil, by simp, by simp, Nat.le_refl _, .nil, by simp [Tree.introducedNamesArgs],
    by simp [Tree.introducedNamesArgs]⟩

theorem ListedArgs.terminal {slots : List (String × Option (Fin n))} {as : List (Arg K)} {x : String}
    (h : g.ListedArgs S slots lo as s) :
    g.ListedArgs S ((x, none) :: slots) lo (.terminal x :: as) s :=
  ⟨.cons ⟨rfl, rfl⟩ h.fits, by simpa using h.complete, by simpa using h.derives, h.issued_le,
    h.nodup, h.issued, h.new⟩

theorem ListedArgs.subtree {slots : List (String × Option (Fin n))} {as : List (Arg K)} {d : Fin n}
    {s₁ : NameSupply} (ht : g.Listed S nt d.val lo t s₁) (h : g.ListedArgs S slots s₁ as s) :
    g.ListedArgs S ((nt, some d) :: slots) lo (.subtree t :: as) s := by
  refine ⟨.cons ⟨ht.nonterminal_eq.symm, congrArg some ht.depth_eq.symm⟩ h.fits, ?_, ?_,
    Nat.le_trans ht.issued_le h.issued_le, ?_, fun x hx => ?_, fun x hx => ?_⟩
  · simpa using ⟨ht.complete, h.complete⟩
  · simpa using ⟨ht.derives, h.derives⟩
  · exact List.nodup_append'.mpr ⟨ht.nodup, h.nodup, fun x hx hx' => h.new x hx' (ht.issued x hx)⟩
  · rcases List.mem_append.mp hx with hx | hx
    · exact (ht.issued x hx).mono h.issued_le
    · exact h.issued x hx
  · rcases List.mem_append.mp hx with hx | hx
    · exact ht.new x hx
    · exact fun hissued => h.new x hx (hissued.mono ht.issued_le)

theorem ListedArgs.terminals (symbols : List String) :
    g.ListedArgs (n := n) S (symbols.map (·, none)) lo (symbols.map .terminal) lo := by
  induction symbols with
  | nil => exact .nil
  | cons x symbols ih => exact ih.terminal

/-- The node that a rule makes over listed arguments. -/
theorem ListedArgs.node {slots : List (String × Option (Fin n))} {args? : Option (List (Arg K))}
    (hr : r ∈ g.visibleRules nt S) (hexp : r.expansion = args?.map (·.map Arg.symbol))
    (hfilled : ∀ a ∈ args?.getD [], a.asTree?.isSome = g.isNonterminal a.symbol)
    (h : g.ListedArgs (S.below (g.kindOf r lo).1) slots (g.kindOf r lo).2 (args?.getD []) s) :
    g.Listed S nt (Tree.heightArgs (args?.getD [])) lo
        (.node r.nonterminal r.name (g.kindOf r lo).1 args?) s ∧
      g.IsInstance r (.node r.nonterminal r.name (g.kindOf r lo).1 args?) := by
  obtain ⟨hmakes, hissued, hnames⟩ := g.kindOf_spec r lo
  have hnt := nonterminal_of_mem_visibleRules hr
  have hinst : g.IsInstance r (.node r.nonterminal r.name (g.kindOf r lo).1 args?) :=
    ⟨by rw [Tree.signature_node, Rule.signature, hexp], hmakes⟩
  refine ⟨⟨hnt, Tree.depth_node .., .node hfilled h.complete,
    .node r (by rwa [Tree.nonterminal_node, hnt]) hinst h.derives,
    Nat.le_trans hissued h.issued_le, ?_, fun x hx => ?_, fun x hx => ?_⟩, hinst⟩
  · rw [Tree.introducedNames_node, hnames]
    refine List.nodup_append'.mpr ⟨NameSupply.nodup_taken _ _, h.nodup, fun x hx hx' => ?_⟩
    exact h.new x hx' (NameSupply.issued_of_mem_taken hx)
  · rw [Tree.introducedNames_node, hnames, List.mem_append] at hx
    rcases hx with hx | hx
    · exact (NameSupply.issued_of_mem_taken hx).mono h.issued_le
    · exact h.issued x hx
  · rw [Tree.introducedNames_node, hnames, List.mem_append] at hx
    rcases hx with hx | hx
    · exact NameSupply.not_issued_of_mem_taken hx
    · exact fun hold => h.new x hx (hold.mono hissued)

theorem leafArgs_eq (r : Rule K) : (r.expansion.map (·.map .terminal)).getD [] =
    r.symbols.map (Arg.terminal : String → Arg K) := by
  rw [Rule.symbols]
  cases r.expansion <;> rfl

/-- A rule without nonterminal arguments makes leaves. -/
theorem listed_leaf (hr : r ∈ g.visibleRules nt S) (hterm : g.isTerminalRule r = true) :
    let leaf := .node r.nonterminal r.name (g.kindOf r lo).1 (r.expansion.map (·.map .terminal))
    g.Listed S nt 0 lo leaf (g.kindOf r lo).2 ∧ g.IsInstance r leaf := by
  have hargs := leafArgs_eq r
  have hexp : r.expansion = (r.expansion.map (·.map (Arg.terminal : String → Arg K))).map
      (·.map Arg.symbol) := by
    cases r.expansion <;> simp [Function.comp_def, Arg.symbol]
  have hheight : Tree.heightArgs (r.symbols.map (Arg.terminal : String → Arg K)) = 0 :=
    Nat.le_zero.mp (Tree.heightArgs_le_iff.mpr fun c hc => by simp at hc)
  have hall : ∀ x ∈ r.symbols, g.isNonterminal x = false := by simpa [isTerminalRule] using hterm
  have hfilled : ∀ a ∈ r.symbols.map (Arg.terminal : String → Arg K),
      a.asTree?.isSome = g.isNonterminal a.symbol := by
    intro a ha
    obtain ⟨x, hx, rfl⟩ := List.mem_map.mp ha
    exact (hall x hx).symm
  have hlisted : g.ListedArgs (n := 0) (S.below (g.kindOf r lo).1)
      (r.symbols.map (·, none)) (g.kindOf r lo).2 (r.symbols.map .terminal) (g.kindOf r lo).2 :=
    .terminals r.symbols
  have hnode := ListedArgs.node hr hexp (hargs ▸ hfilled) (hargs ▸ hlisted)
  rwa [hargs, hheight] at hnode

theorem expansion_of_not_isTerminalRule (h : ¬ g.isTerminalRule r = true) :
    r.expansion = some r.symbols := by
  cases hexp : r.expansion with
  | none => simp [isTerminalRule, Rule.symbols, hexp] at h
  | some symbols => rw [Rule.symbols, hexp, Option.getD_some]

/-- Listed arguments fit their slots. -/
theorem always_listArgs {subtrees : Fin n → String → Lister (Tree K)}
    (ih : ∀ d nt lo, S.WellNamed lo →
      Listing.Always (g.Listed S nt d.val lo) lo (subtrees d nt lo))
    (slots : List (String × Option (Fin n))) (hS : S.WellNamed lo) :
    Listing.Always (g.ListedArgs S slots lo) lo (listArgs subtrees slots lo) := by
  induction slots generalizing lo with
  | nil => exact Lister.always_singleton .nil
  | cons slot slots ihs =>
    obtain ⟨x, d⟩ := slot
    cases d with
    | none => exact (ihs hS).map fun as s h => h.terminal
    | some d =>
      refine (ih d x lo hS).flatMap fun t s hs ht => ⟨False.elim, fun _ => ?_⟩
      exact (ihs (hS.mono hs)).map fun as s' h => .subtree ht h

/-- A rule lists trees of the depth that it has made. -/
theorem always_listRule {subtrees : Scope K → Fin depth → String → Lister (Tree K)}
    (ih : ∀ S d nt lo, S.WellNamed lo →
      Listing.Always (g.Listed S nt d.val lo) lo (subtrees S d nt lo))
    (hr : r ∈ g.visibleRules nt S) (hS : S.WellNamed lo) :
    Listing.Always (fun t s => g.Listed S nt depth lo t s ∧ g.IsInstance r t) lo
      (g.listRule depth S subtrees r lo) := by
  obtain ⟨-, hbelow⟩ := g.kindOf_fresh r hS
  have hissued := (g.kindOf_spec r lo).2.1
  rw [listRule, Lister.naming]
  refine Listing.Meets.mono ?_ hissued
  split
  · next hterm =>
    split
    · next hzero =>
      subst hzero
      exact Lister.always_singleton (listed_leaf hr hterm)
    · exact Lister.meets_nil _
  · next hterm =>
    refine Lister.meets_concat_zero (fun slots hslots s hs => ?_) (Nat.le_refl _)
    obtain ⟨hassign, hreach⟩ := mem_deepAssignments.mp hslots
    refine (always_listArgs (ih _) slots (hbelow.mono hs)).map fun as s' h => ?_
    obtain ⟨hsymbols, hfilled⟩ := filled_of_fits hassign h.fits
    have hexp : r.expansion = (some as).map (·.map Arg.symbol) := by
      rw [expansion_of_not_isTerminalRule hterm, Option.map_some, hsymbols]
    have hnode := (h.mono hs).node hr hexp hfilled
    rwa [Option.getD_some, heightArgs_eq_of_fits h.fits hreach] at hnode

theorem always_listIn (depth : ℕ) (nt : String) (hS : S.WellNamed lo) :
    Listing.Always (g.Listed S nt depth lo) lo (g.listIn depth S nt lo) := by
  induction depth using Nat.strong_induction_on generalizing S nt lo with
  | _ depth ih =>
    rw [listIn]
    refine Lister.meets_concat_zero (fun r hr s hs => ?_) (Nat.le_refl lo.issued)
    have hrule := always_listRule (fun S d nt lo hS => ih d.val d.isLt nt hS) hr (hS.mono hs)
    exact hrule.imp fun t s' _ h => h.1.mono hs

end Soundness

section Counting

variable {M : Matching} {names : NameSupply}

/-- Of the argument lists for the slots that some arguments fit, one corresponds to them. -/
theorem meets_listArgs {subtrees : Fin n → String → Lister (Tree K)}
    {slots : List (String × Option (Fin n))} {bs : List (Arg K)} (hfits : List.Forall₂ Fits slots bs)
    (ih : ∀ c, .subtree c ∈ bs → ∀ (d : Fin n) lo, c.depth = d.val → S.WellNamed lo →
      Listing.Meets (fun _ _ => True) (·.VariantOver M c) lo 1 (subtrees d c.nonterminal lo))
    (hS : S.WellNamed lo) :
    Listing.Meets (fun _ _ => True) (List.Forall₂ (Arg.VariantOver M) · bs) lo 1
      (listArgs subtrees slots lo) := by
  induction hfits generalizing lo with
  | nil => exact Lister.meets_singleton trivial .nil
  | @cons slot b slots bs hslot _ ihs =>
    have hrest : ∀ lo, S.WellNamed lo → Listing.Meets (fun _ _ => True)
        (List.Forall₂ (Arg.VariantOver M) · bs) lo 1 (listArgs subtrees slots lo) :=
      fun lo hS => ihs (fun c hc => ih c (List.mem_cons_of_mem b hc)) hS
    obtain ⟨x, d⟩ := slot
    obtain ⟨hx, hd⟩ := hslot
    cases b with
    | terminal y =>
      cases d with
      | some d => cases hd
      | none =>
        obtain rfl : x = y := hx
        refine (hrest lo hS).map (fun _ _ _ => trivial) fun as _ _ => ?_
        rw [List.forall₂_cons]
        exact (and_iff_right (.terminal x)).symm
    | subtree c =>
      cases d with
      | none => cases hd
      | some d =>
        obtain rfl : x = c.nonterminal := hx
        refine (ih c List.mem_cons_self d lo (Option.some.inj hd).symm hS).flatMap
          fun t s hs _ => ⟨fun ht => ?_, fun ht => ?_⟩
        · refine (hrest s (hS.mono hs)).map (fun _ _ _ => trivial) fun as _ _ => ?_
          rw [List.forall₂_cons]
          exact (and_iff_right (.subtree ht)).symm
        · have hnone : Listing.Always (fun _ _ => True) s (listArgs subtrees slots s) :=
            (hrest s (hS.mono hs)).never fun _ _ _ => id
          refine Listing.Meets.map hnone (fun _ _ _ => trivial) fun as _ _ =>
            ⟨False.elim, fun h => ?_⟩
          cases (List.forall₂_cons.mp h).1 with
          | subtree h => exact ht h

/-- The slots that the arguments of a complete tree fit. -/
theorem exists_deepAssignment (hcomplete : g.Complete t)
    (hne : t.depth ≠ 0) : ∃ slots ∈ g.deepAssignments t.depth (t.args.map Arg.symbol),
      List.Forall₂ Fits slots t.args := by
  obtain ⟨hfilled, -⟩ := hcomplete
  obtain ⟨slots, hslots⟩ : ∃ slots, List.Forall₂ (fun (slot : String × Option (Fin t.depth)) a =>
      Fits slot a ∧ slot.2.isSome = g.isNonterminal a.symbol) slots t.args := by
    refine exists_forall₂ fun a ha => ?_
    cases a with
    | terminal x => exact ⟨(x, none), ⟨rfl, rfl⟩, hfilled _ ha⟩
    | subtree c =>
      have hlt : c.depth < t.depth := by
        rw [Tree.depth_eq t]
        exact Tree.depth_lt_heightArgs ha
      exact ⟨(c.nonterminal, some ⟨c.depth, hlt⟩), ⟨rfl, rfl⟩, hfilled _ ha⟩
  have hfits : List.Forall₂ Fits slots t.args := hslots.imp fun _ _ h => h.1
  refine ⟨slots, mem_deepAssignments.mpr ⟨mem_depthAssignments.mpr ?_, ?_⟩, hfits⟩
  · exact List.forall₂_map_right_iff.mpr (hslots.imp fun _ _ h => ⟨h.1.1, h.2⟩)
  · rw [reachesDepth_iff hfits]
    rw [Tree.depth_eq t] at hne ⊢
    exact Tree.exists_depth_of_heightArgs hne

/-- The rule of a complete tree has no nonterminal arguments exactly if the tree is a leaf. -/
theorem isTerminalRule_iff (hsymbols : r.symbols = t.args.map Arg.symbol)
    (hcomplete : g.Complete t) : g.isTerminalRule r = true ↔ t.depth = 0 := by
  obtain ⟨hfilled, -⟩ := hcomplete
  rw [isTerminalRule, hsymbols, Tree.depth_eq]
  simp only [List.all_map, List.all_eq_true, Function.comp_apply, Bool.not_eq_true']
  constructor
  · intro hall
    by_contra hne
    obtain ⟨c, hc, -⟩ := Tree.exists_depth_of_heightArgs hne
    have hnt : true = g.isNonterminal (Arg.subtree c).symbol := hfilled _ hc
    simp [hall _ hc] at hnt
  · intro hzero a ha
    rw [← hfilled a ha]
    cases a with
    | terminal x => rfl
    | subtree c =>
      have hlt := Tree.depth_lt_heightArgs ha
      omega

theorem forall₂_terminals (hzero : t.depth = 0) :
    List.Forall₂ (Arg.VariantOver M) ((t.args.map Arg.symbol).map Arg.terminal) t.args := by
  rw [List.map_map, List.forall₂_map_left_iff, List.forall₂_same]
  intro a ha
  cases a with
  | terminal x => exact .terminal x
  | subtree c =>
    have hlt := Tree.depth_lt_heightArgs ha
    rw [← Tree.depth_eq, hzero] at hlt
    exact absurd hlt (Nat.not_lt_zero _)

/-- The counterpart of the rule of a tree lists one variant of it. -/
theorem meets_listRule (hal : Scope.Aligned M S T) (hS : S.WellNamed lo)
    (hhead : ∀ kind args?, g.Makes r kind → args?.isSome = t.args?.isSome →
      Tree.HeadOver M (.node r.nonterminal r.name kind args?) t)
    (hexp : r.expansion = t.args?.map (·.map Arg.symbol)) (ht : t.DistinctIn T)
    (hcomplete : g.Complete t)
    (ih : ∀ c, .subtree c ∈ t.args → ∀ (M : Matching) (S : Scope K) (lo : NameSupply),
      Scope.Aligned M S (T.below t.kind) → S.WellNamed lo →
        Listing.Meets (fun _ _ => True) (·.VariantOver M c) lo 1
          (g.listIn c.depth S c.nonterminal lo)) :
    Listing.Meets (fun _ _ => True) (·.VariantOver M t) lo 1
      (g.listRule t.depth S (fun S d s => g.listIn d.val S s) r lo) := by
  obtain ⟨hmakes, hissued, -⟩ := g.kindOf_spec r lo
  obtain ⟨hnew, hbelow⟩ := g.kindOf_fresh r hS
  have hal' : Scope.Aligned (M.below (g.kindOf r lo).1 t.kind) (S.below (g.kindOf r lo).1)
      (T.below t.kind) := hal.below (hhead _ t.args? hmakes rfl).introduced? hnew fun w hw =>
    ht.disjoint _ (Tree.mem_introducedNames_of_introduced? hw)
  have hsymbols : r.symbols = t.args.map Arg.symbol := by
    rw [Rule.symbols, hexp, Tree.args]
    cases t.args? <;> rfl
  rw [listRule, Lister.naming]
  refine Listing.Meets.mono ?_ hissued
  split
  · next hterm =>
    have hzero := (isTerminalRule_iff hsymbols hcomplete).mp hterm
    rw [if_pos hzero]
    refine Lister.meets_singleton trivial (Tree.variantOver_iff.mpr ⟨?_, ?_⟩)
    · exact hhead _ _ hmakes (by rw [hexp, Option.isSome_map, Option.isSome_map])
    · rw [Tree.args_node, leafArgs_eq, hsymbols]
      exact forall₂_terminals hzero
  · next hterm =>
    have hne := mt (isTerminalRule_iff hsymbols hcomplete).mpr hterm
    have hsome : t.args?.isSome = true := by
      have hrule := congrArg Option.isSome (expansion_of_not_isTerminalRule hterm)
      rwa [hexp, Option.isSome_map] at hrule
    have hroot := fun as => hhead _ (some as) hmakes hsome.symm
    obtain ⟨slots, hslots, hfits⟩ := exists_deepAssignment hcomplete hne
    have hnodup : (g.deepAssignments t.depth r.symbols).Nodup := by
      rw [deepAssignments_eq_filter]
      exact (nodup_depthAssignments g _ _).filter _
    -- the depths of the arguments tell which assignment of depths lists the variant
    refine Lister.meets_concat_one (hsymbols ▸ hslots) hnodup (fun s hs => ?_)
      (fun slots' _ hother s hs => ?_) (Nat.le_refl _)
    · refine (meets_listArgs hfits (fun c hc d lo hd hS => hd ▸ ih c hc _ _ lo hal' hS)
        (hbelow.mono hs)).map (fun _ _ _ => trivial) fun as _ _ => ?_
      exact ⟨fun h => Tree.variantOver_iff.mpr ⟨hroot as, h⟩, fun h => h.args⟩
    · have hargs : Listing.Always (g.ListedArgs (S.below (g.kindOf r lo).1) slots' s) s
          (listArgs (fun d nt => g.listIn d.val (S.below (g.kindOf r lo).1) nt) slots' s) :=
        always_listArgs (fun d nt lo hS => always_listIn d.val nt hS) slots' (hbelow.mono hs)
      have hnot : Listing.Always (fun u _ => ¬ u.VariantOver M t) s ((listArgs (fun d nt =>
          g.listIn d.val (S.below (g.kindOf r lo).1) nt) slots' s).map fun as =>
            Tree.node r.nonterminal r.name (g.kindOf r lo).1 (some as)) :=
        hargs.map fun as s h hvar => hother (slots_unique (forall₂_trans h.fits hvar.args
          fun _ _ _ _ h h' => h.of_variantOver h') hfits)
      exact (hnot.never fun _ _ => id).imp fun _ _ _ _ => trivial

/-- Of the trees of a depth, one is a variant of a complete tree that is derived in an aligned
scope. -/
theorem meets_listIn (hdist : g.DistinctSignatures) (hal : Scope.Aligned M S T)
    (hS : S.WellNamed lo) (hT : ∀ w ∈ T, w.isVariableUse = true) (hder : g.Derives T t)
    (ht : t.DistinctIn T) (hcomplete : g.Complete t) :
    Listing.Meets (fun _ _ => True) (·.VariantOver M t) lo 1
      (g.listIn t.depth S t.nonterminal lo) := by
  induction t using Tree.induction generalizing M S T lo with
  | node nt name kind args? ih =>
    obtain ⟨⟨r', hr', hinst⟩, hchildren⟩ := derives_iff.mp hder
    obtain ⟨-, hcompletes⟩ := id hcomplete
    obtain ⟨r, hr, hsame, hhead, hunique⟩ := exists_counterpart hdist hS hal hr' hinst hT
    have hexp : r.expansion = args?.map (·.map Arg.symbol) :=
      hsame.expansion_eq.trans (congrArg Signature.expansion hinst.signature_eq)
    have huses : ∀ w ∈ T.below kind, w.isVariableUse = true := by
      intro w hw
      rw [Scope.below_eq, List.mem_append, Option.mem_toList] at hw
      exact hw.elim (hT w) hinst.makes.isVariableUse_introduced
    rw [listIn]
    refine Lister.meets_concat_one hr (nodup_visibleRules hdist hS) (fun s hs => ?_)
      (fun q hq hne s hs => ?_) (Nat.le_refl lo.issued)
    · exact meets_listRule hal (hS.mono hs) hhead hexp ht hcomplete fun c hc M S lo hal hS =>
        ih c hc hal hS huses (hchildren c hc) (ht.child hc) (hcompletes c hc)
    · have hrule : Listing.Always (fun u s' => g.Listed S nt _ s u s' ∧ g.IsInstance q u) s
          (g.listRule (Tree.node nt name kind args?).depth S (fun S d s => g.listIn d.val S s) q s) :=
        always_listRule (fun S d nt lo hS => always_listIn d.val nt hS) hq (hS.mono hs)
      refine (hrule.never fun u s' h hvar => hne ?_).imp fun _ _ _ _ => trivial
      exact hunique q hq u h.2 hvar

end Counting

/-- A closed tree of a nonterminal: every argument that can be expanded has been, each node is an
instance of a rule visible in its scope, and different binders introduce different names. -/
structure ClosedTree (g : Grammar K) (nt : String) (t : Tree K) : Prop where
  nonterminal_eq : t.nonterminal = nt
  complete : g.Complete t
  derives : g.Derives [] t
  nodup : t.introducedNames.Nodup

/-- Exactly one member is a variant of a tree. -/
def ListsOnce (ts : List (Tree K)) (u : Tree K) : Prop :=
  ∃! i : ℕ, ∃ t, ts[i]? = some t ∧ t.Variant u

section Listings

theorem exists_listed {ts : List (Tree K)} {t : Tree K} (h : (g.listAtDepth depth nt s).Reads ts)
    (ht : t ∈ ts) : ∃ s', g.Listed [] nt depth s t s' := by
  classical
  obtain ⟨s', -, hlisted⟩ := ((always_listIn depth nt .nil).of_reads h).1 t ht
  exact ⟨s', hlisted⟩

theorem exists_reads_listAtDepth {first count : ℕ} {ts : List (Tree K)} {t : Tree K}
    (h : (Lister.ascending (fun depth => g.listAtDepth depth nt) first count s).Reads ts)
    (ht : t ∈ ts) : ∃ depth s' ts', (g.listAtDepth depth nt s').Reads ts' ∧ t ∈ ts' := by
  induction count generalizing first s ts with
  | zero =>
    cases h
    cases ht
  | succ count ih =>
    rw [Lister.ascending_succ] at h
    obtain ⟨xs, ys, s', rfl, hxs, hys⟩ := Listing.reads_append h
    rcases List.mem_append.mp ht with ht | ht
    · exact ⟨first, s, xs, hxs, ht⟩
    · exact ih hys ht

open Classical in
/-- At one depth every closed tree of this depth is counted once. -/
theorem of_reads_listAtDepth (hdist : g.DistinctSignatures) {ts : List (Tree K)}
    (h : (g.listAtDepth depth nt s).Reads ts) :
    (∀ t ∈ ts, g.ClosedTree nt t ∧ t.freeVariables = [] ∧ t.depth = depth) ∧
      ∀ u, g.ClosedTree nt u →
        ts.countP (fun t => t.Variant u) = if u.depth = depth then 1 else 0 := by
  have hall : ∀ t ∈ ts, g.ClosedTree nt t ∧ t.freeVariables = [] ∧ t.depth = depth := by
    intro t ht
    obtain ⟨s', hlisted⟩ := exists_listed h ht
    exact ⟨⟨hlisted.nonterminal_eq, hlisted.complete, hlisted.derives, hlisted.nodup⟩,
      (hlisted.derived .nil).freeVariables_eq_nil, hlisted.depth_eq⟩
  refine ⟨hall, ?_⟩
  rintro u ⟨rfl, hcomplete, hder, hnodup⟩
  split
  · next hdepth =>
    subst hdepth
    exact ((meets_listIn hdist (.nil Eq) (.nil : Scope.WellNamed _ s) (by simp) hder
      ⟨hnodup, by simp⟩ hcomplete).of_reads h).2
  · next hdepth =>
    rw [List.countP_eq_zero]
    intro t ht hvar
    have hvar : t.Variant u := by simpa using hvar
    exact hdepth ((Tree.VariantOver.depth_eq hvar).symm.trans (hall t ht).2.2)

open Classical in
/-- The listings of some depths, in ascending order. -/
theorem of_reads_ascending (hdist : g.DistinctSignatures) {first count : ℕ} {ts : List (Tree K)}
    (h : (Lister.ascending (fun depth => g.listAtDepth depth nt) first count s).Reads ts) :
    (∀ t ∈ ts, g.ClosedTree nt t ∧ t.freeVariables = [] ∧ first ≤ t.depth ∧
      t.depth < first + count) ∧
      (∀ u, g.ClosedTree nt u → ts.countP (fun t => t.Variant u) =
        if first ≤ u.depth ∧ u.depth < first + count then 1 else 0) ∧
      (ts.map Tree.depth).Pairwise (· ≤ ·) := by
  induction count generalizing first s ts with
  | zero =>
    cases h
    refine ⟨by simp, fun u _ => ?_, .nil⟩
    rw [if_neg (by omega), List.countP_nil]
  | succ count ih =>
    rw [Lister.ascending_succ] at h
    obtain ⟨xs, ys, s', rfl, hxs, hys⟩ := Listing.reads_append h
    obtain ⟨hall, hone⟩ := of_reads_listAtDepth hdist hxs
    obtain ⟨hall', hone', hsorted⟩ := ih hys
    refine ⟨fun t ht => ?_, fun u hu => ?_, ?_⟩
    · rcases List.mem_append.mp ht with ht | ht
      · obtain ⟨hclosed, hfree, hdepth⟩ := hall t ht
        exact ⟨hclosed, hfree, by omega, by omega⟩
      · obtain ⟨hclosed, hfree, hfirst, hlast⟩ := hall' t ht
        exact ⟨hclosed, hfree, by omega, by omega⟩
    · rw [List.countP_append, hone u hu, hone' u hu]
      split_ifs <;> omega
    · rw [List.map_append, List.pairwise_append]
      refine ⟨?_, hsorted, ?_⟩
      · refine List.pairwise_map.mpr (List.pairwise_of_forall_mem_list fun t ht u hu => ?_)
        exact Nat.le_of_eq ((hall t ht).2.2.trans (hall u hu).2.2.symm)
      · simp only [List.mem_map]
        rintro _ ⟨t, ht, rfl⟩ _ ⟨u, hu, rfl⟩
        rw [(hall t ht).2.2]
        exact Nat.le_of_succ_le (hall' u hu).2.2.1

theorem listsOnce_of_countP {ts : List (Tree K)} {u : Tree K}
    [DecidablePred fun t : Tree K => t.Variant u]
    (h : ts.countP (fun t => t.Variant u) = 1) : ListsOnce ts u := by
  have hunique := existsUnique_of_countP h
  unfold ListsOnce
  simpa only [decide_eq_true_eq] using hunique

/-- Enumeration is sound and complete, and lists nothing twice. Whatever names are taken while the
listing of a depth is read, it lists closed trees of that depth, and each of them once, up to the
names of bound variables. The listing up to a depth does so for every lower depth as well, in
ascending order. -/
theorem enumeration_exact (hdist : g.DistinctSignatures) (nt : String) (s : NameSupply) :
    (∀ depth ts, (g.listAtDepth depth nt s).Reads ts →
      (∀ t ∈ ts, g.ClosedTree nt t ∧ t.freeVariables = [] ∧ t.depth = depth) ∧
        ∀ u, g.ClosedTree nt u → u.depth = depth → ListsOnce ts u) ∧
      ∀ maxDepth ts, (g.list maxDepth nt s).Reads ts →
        (∀ t ∈ ts, g.ClosedTree nt t ∧ t.freeVariables = [] ∧ t.depth ≤ maxDepth) ∧
          (∀ u, g.ClosedTree nt u → u.depth ≤ maxDepth → ListsOnce ts u) ∧
            (ts.map Tree.depth).Pairwise (· ≤ ·) := by
  classical
  refine ⟨fun depth ts h => ?_, fun maxDepth ts h => ?_⟩
  · obtain ⟨hall, hone⟩ := of_reads_listAtDepth hdist h
    exact ⟨hall, fun u hu hdepth => listsOnce_of_countP (by rw [hone u hu, if_pos hdepth])⟩
  · obtain ⟨hall, hone, hsorted⟩ := of_reads_ascending hdist h
    refine ⟨fun t ht => ?_, fun u hu hdepth => listsOnce_of_countP ?_, hsorted⟩
    · obtain ⟨hclosed, hfree, -, hlast⟩ := hall t ht
      exact ⟨hclosed, hfree, by omega⟩
    · rw [hone u hu, if_pos (by omega)]

end Listings

section Terms

variable [Scalar K]

theorem closedTree_identityTerm : (terms : Grammar K).ClosedTree "T" identityTerm :=
  ⟨rfl, complete_identityTerm, derived_identityTerm.derives, derived_identityTerm.fresh.nodup⟩

/-- The function that returns its argument is listed once among the terms of depth one, and once
among those up to depth two. -/
theorem enumeration_exact_terms :
    let u : Tree Float := identityTerm
    (terms : Grammar Float).DistinctSignatures ∧ terms.ClosedTree "T" u ∧
      ListsOnce (terms.listAtDepth 1 "T" .initial).toList u ∧
        ListsOnce (terms.list 2 "T" .initial).toList u := by
  intro u
  obtain ⟨hat, hupTo⟩ := enumeration_exact (g := (terms : Grammar Float)) distinctSignatures_terms
    "T" .initial
  have hu : (terms : Grammar Float).ClosedTree "T" u := closedTree_identityTerm
  have hdepth : u.depth = 1 := by simp [u, identityTerm, Tree.depth, Tree.heightArgs]
  exact ⟨distinctSignatures_terms, hu, (hat 1 _ (Listing.reads_toList _)).2 u hu hdepth,
    (hupTo 2 _ (Listing.reads_toList _)).2.1 u hu (by omega)⟩

end Terms

end Grammar

end ScopedGrammar
