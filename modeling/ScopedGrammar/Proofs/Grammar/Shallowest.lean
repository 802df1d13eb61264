import Mathlib.Data.Set.Basic
import Mathlib.Order.Bounds.Basic
import ScopedGrammar.Proofs.Grammar.Generated
import ScopedGrammar.Proofs.Grammar.Numbering
import ScopedGrammar.Proofs.Grammar.Replacement

/-!
# Shallowest trees

The depths of the shallowest trees that fixed rules make are found by looking at the rules of each
nonterminal again and again. Each noted depth is that of some tree, so none is too low. When a whole
sweep notes nothing, no tree is shallower than what is noted for its nonterminal. In whatever order
the nonterminals are looked at, the sweeps come to an end and leave the same depths.
-/
namespace ScopedGrammar

variable {K : Type}

theorem Rows.mem_of_mem_rulesFor {rows : Rows K} (hnodup : rows.nonterminals.Nodup) {nt : String}
    {r : Rule K} (h : r ∈ rows.rulesFor nt) : (nt, rows.rulesFor nt) ∈ rows := by
  obtain ⟨row, hrow, rfl⟩ := List.mem_map.mp (Rows.mem_nonterminals_of_mem_rulesFor h)
  rwa [Rows.rulesFor_of_mem hnodup hrow]

theorem Depths.improvedBy_eq_false {known : Depths} {nt : String} {d : ℕ} :
    known.improvedBy nt d = false ↔ ∃ e, known nt = some e ∧ e ≤ d := by
  rw [improvedBy]
  cases known nt <;> simp

namespace Grammar

variable {g : Grammar K} {known : Depths} {state : Depths × Bool} {rows : Rows K}
  {row : String × List (Rule K)} {symbols : List String} {as : List (Arg K)} {t : Tree K}
  {nt : String} {d : ℕ}

/-- A finished tree in which every node is an instance of a fixed rule. -/
inductive FixedTree (g : Grammar K) : Tree K → Prop
  | node {t : Tree K} (r : Rule K) (fixed : r ∈ g.table.rulesFor t.nonterminal)
      (instance_of : g.IsInstance r t)
      (filled : ∀ a ∈ t.args, a.asTree?.isSome = g.isNonterminal a.symbol)
      (args : ∀ c, .subtree c ∈ t.args → g.FixedTree c) : g.FixedTree t

/-- The trees for a nonterminal that fixed rules can make. -/
def fixedTrees (g : Grammar K) (nt : String) : Set (Tree K) :=
  {t | g.FixedTree t ∧ t.nonterminal = nt}

section Attained

/-- Every known depth is that of some tree. -/
def Attains (g : Grammar K) (known : Depths) : Prop :=
  ∀ nt d, known nt = some d → d ∈ Tree.depth '' g.fixedTrees nt

/-- The arguments of a rule can be filled in up to the depth that is found for them. -/
theorem exists_args_of_depthOver (hknown : g.Attains known)
    (h : g.depthOver known symbols = some d) : ∃ as : List (Arg K), as.map Arg.symbol = symbols ∧
      (∀ a ∈ as, a.asTree?.isSome = g.isNonterminal a.symbol) ∧
      (∀ c, .subtree c ∈ as → g.FixedTree c) ∧ Tree.heightArgs as = d := by
  induction symbols generalizing d with
  | nil =>
    obtain rfl : 0 = d := Option.some.inj h
    exact ⟨[], by simp [Tree.heightArgs]⟩
  | cons s symbols ih =>
    rw [depthOver] at h
    split at h
    · next hs =>
      obtain ⟨e, he, h⟩ := Option.bind_eq_some_iff.mp h
      obtain ⟨e', he', h⟩ := Option.bind_eq_some_iff.mp h
      obtain rfl : max (e + 1) e' = d := Option.some.inj h
      obtain ⟨c, ⟨hc, rfl⟩, rfl⟩ := hknown s e he
      obtain ⟨as, rfl, hfilled, has, rfl⟩ := ih he'
      refine ⟨.subtree c :: as, rfl, ?_, ?_, rfl⟩
      · exact List.forall_mem_cons.mpr ⟨hs.symm, hfilled⟩
      · simpa [forall_and] using ⟨hc, has⟩
    · next hs =>
      obtain ⟨as, rfl, hfilled, has, rfl⟩ := ih h
      refine ⟨.terminal s :: as, rfl, ?_, by simpa using has, rfl⟩
      exact List.forall_mem_cons.mpr ⟨(Bool.eq_false_of_not_eq_true hs).symm, hfilled⟩

/-- A rule makes a tree over the arguments that are filled in for it. -/
theorem fixedTree_of_args {r : Rule K} (hr : r ∈ g.table.rulesFor nt)
    (hsymbols : as.map Arg.symbol = r.symbols)
    (hfilled : ∀ a ∈ as, a.asTree?.isSome = g.isNonterminal a.symbol)
    (has : ∀ c, .subtree c ∈ as → g.FixedTree c) :
    Tree.heightArgs as ∈ Tree.depth '' g.fixedTrees nt := by
  obtain rfl := g.table.nonterminal_eq nt r hr
  let t : Tree K :=
    .node r.nonterminal r.name (g.kindOf r .initial).1 (r.expansion.map fun _ => as)
  have hargs : t.args = as := by
    simp only [t, Tree.args_node]
    cases hexp : r.expansion with
    | none =>
      rw [Rule.symbols, hexp] at hsymbols
      exact (List.map_eq_nil_iff.mp hsymbols).symm
    | some => rfl
  have hsignature : r.signature = t.signature := by
    simp only [t, Tree.signature_node, Rule.signature, Option.map_map]
    cases hexp : r.expansion with
    | none => rfl
    | some => simp [hsymbols, Rule.symbols, hexp]
  have hinst : g.IsInstance r t := ⟨hsignature, (g.kindOf_spec r .initial).1⟩
  refine ⟨t, ⟨.node r hr hinst (hargs ▸ hfilled) (hargs ▸ has), rfl⟩, ?_⟩
  rw [t.depth_eq, hargs]

theorem attains_depthByRules (hknown : g.Attains known) (hrow : row ∈ g.table.rows)
    (h : g.depthByRules known row.2 = some d) : d ∈ Tree.depth '' g.fixedTrees row.1 := by
  obtain ⟨r, hr, hd⟩ := List.mem_filterMap.mp (List.min?_mem h)
  obtain ⟨as, hsymbols, hfilled, has, rfl⟩ := exists_args_of_depthOver hknown hd
  have hfixed : r ∈ g.table.rulesFor row.1 := by
    rwa [RuleTable.rulesFor, Rows.rulesFor_of_mem g.table.nodup hrow]
  exact fixedTree_of_args hfixed hsymbols hfilled has

theorem attains_relax (hstate : g.Attains state.1) (hrow : row ∈ g.table.rows) :
    g.Attains (g.relax state row).1 := by
  obtain ⟨heq, -⟩ | ⟨d, hd, -, heq⟩ := g.relax_cases state row
  · rwa [heq]
  · rw [heq]
    intro nt e he
    simp only [Depths.note] at he
    split_ifs at he with hnt
    · obtain rfl : d = e := Option.some.inj he
      exact hnt ▸ attains_depthByRules hstate hrow hd
    · exact hstate nt e he

theorem attains_sweep (hknown : g.Attains known) (hrows : rows ⊆ g.table.rows) :
    g.Attains (g.sweep rows known).1 :=
  List.foldlRecOn (motive := fun state => g.Attains state.1) rows g.relax hknown
    fun _ hstate _ hrow => attains_relax hstate (hrows hrow)

theorem attains_settle (hknown : g.Attains known) (hrows : rows ⊆ g.table.rows) :
    g.Attains (g.settle rows known) := by
  induction known using settle.induct g rows with
  | case1 known hmore ih =>
    rw [settle, if_pos hmore]
    exact ih (attains_sweep hknown hrows)
  | case2 known hdone =>
    rw [settle, if_neg hdone]
    exact attains_sweep hknown hrows

end Attained

section Settled

/-- No rule makes a tree, over those of known depths, that is shallower than what is known. -/
def Settled (g : Grammar K) (rows : Rows K) (known : Depths) : Prop :=
  ∀ row ∈ rows, ∀ d, g.depthByRules known row.2 = some d → known.improvedBy row.1 d = false

theorem foldl_relax_snd (h : state.2 = true) (rows : Rows K) :
    (rows.foldl g.relax state).2 = true :=
  List.foldlRecOn (motive := fun state => state.2 = true) rows g.relax h
    fun state hstate row _ => by
    obtain ⟨heq, -⟩ | ⟨d, -, -, heq⟩ := g.relax_cases state row
    · rwa [heq]
    · rw [heq]

/-- If nothing is noted, everything stays as it is, and there was nothing to note. -/
theorem settled_of_foldl_relax (h : (rows.foldl g.relax state).2 = false) :
    rows.foldl g.relax state = state ∧ g.Settled rows state.1 := by
  induction rows with
  | nil => exact ⟨rfl, by simp [Settled]⟩
  | cons row rows ih =>
    rw [List.foldl_cons] at h ⊢
    obtain ⟨heq, hrow⟩ | ⟨d, -, -, heq⟩ := g.relax_cases state row
    · rw [heq] at h ⊢
      exact ⟨(ih h).1, List.forall_mem_cons.mpr ⟨hrow, (ih h).2⟩⟩
    · have hnoted : (rows.foldl g.relax (g.relax state row)).2 = true :=
        foldl_relax_snd (by rw [heq]) rows
      rw [hnoted] at h
      cases h

theorem settled_settle (g : Grammar K) (rows : Rows K) (known : Depths) :
    g.Settled rows (g.settle rows known) := by
  induction known using settle.induct g rows with
  | case1 known hmore ih => rwa [settle, if_pos hmore]
  | case2 known hdone =>
    obtain ⟨heq, hsettled⟩ := settled_of_foldl_relax (Bool.eq_false_of_not_eq_true hdone)
    rw [settle, if_neg hdone, sweep, heq]
    exact hsettled

/-- Over subtrees that are not shallower than what is known, the depth found for the arguments of a
rule is at most the height of the subtrees. -/
theorem depthOver_le (hfilled : ∀ a ∈ as, a.asTree?.isSome = g.isNonterminal a.symbol)
    (has : ∀ c, .subtree c ∈ as → ∃ d, known c.nonterminal = some d ∧ d ≤ c.depth) :
    ∃ d, g.depthOver known (as.map Arg.symbol) = some d ∧ d ≤ Tree.heightArgs as := by
  induction as with
  | nil => exact ⟨0, rfl, Nat.le_refl 0⟩
  | cons a as ih =>
    obtain ⟨ha, hfilled⟩ := List.forall_mem_cons.mp hfilled
    obtain ⟨d, hd, hle⟩ := ih hfilled fun c hc => has c (List.mem_cons_of_mem a hc)
    rw [List.map_cons, depthOver, ← ha]
    cases a with
    | terminal s => exact ⟨d, hd, hle⟩
    | subtree c =>
      obtain ⟨e, he, hle'⟩ := has c List.mem_cons_self
      refine ⟨max (e + 1) d, ?_, max_le_max (Nat.succ_le_succ hle') hle⟩
      simp [Arg.asTree?, Arg.symbol, he, hd]

/-- Once nothing is left to note, every tree of fixed rules is at least as deep as what is known for
its nonterminal. -/
theorem Settled.le_depth (hsettled : g.Settled rows known) (hrows : g.table.rows ⊆ rows)
    (ht : g.FixedTree t) : ∃ d, known t.nonterminal = some d ∧ d ≤ t.depth := by
  induction ht with
  | @node t r hfixed hinst hfilled _ ih =>
    have hrow := hrows (Rows.mem_of_mem_rulesFor g.table.nodup hfixed)
    obtain ⟨d, hd, hle⟩ := depthOver_le hfilled ih
    rw [hinst.symbols_eq] at hd
    have hmem : d ∈ (g.table.rulesFor t.nonterminal).filterMap fun r =>
        g.depthOver known r.symbols := List.mem_filterMap.mpr ⟨r, hfixed, hd⟩
    obtain ⟨best, hbest⟩ := Option.isSome_iff_exists.mp (List.isSome_min?_of_mem hmem)
    have hbest_le : best ≤ d := (List.min?_eq_some_iff.mp hbest).2 d hmem
    obtain ⟨e, he, he_le⟩ := Depths.improvedBy_eq_false.mp (hsettled _ hrow best hbest)
    rw [← t.depth_eq] at hle
    exact ⟨e, he, he_le.trans (hbest_le.trans hle)⟩

end Settled

section Settle

theorem attains_settle_nothing (hrows : rows.Perm g.table.rows) :
    g.Attains (g.settle rows fun _ => none) :=
  attains_settle (fun _ _ h => by simp at h) hrows.subset

theorem settle_le_depth (hrows : rows.Perm g.table.rows) (ht : t ∈ g.fixedTrees nt) :
    ∃ d, g.settle rows (fun _ => none) nt = some d ∧ d ≤ t.depth :=
  ht.2 ▸ (g.settled_settle rows _).le_depth hrows.symm.subset ht.1

/-- What is known in the end is the depth of the shallowest tree. -/
theorem settle_eq_some_iff (hrows : rows.Perm g.table.rows) :
    g.settle rows (fun _ => none) nt = some d ↔ IsLeast (Tree.depth '' g.fixedTrees nt) d := by
  constructor
  · intro hd
    refine ⟨attains_settle_nothing hrows nt d hd, ?_⟩
    rintro _ ⟨t, ht, rfl⟩
    obtain ⟨e, he, hle⟩ := settle_le_depth hrows ht
    obtain rfl : e = d := Option.some.inj (he.symm.trans hd)
    exact hle
  · rintro ⟨⟨t, ht, rfl⟩, hleast⟩
    obtain ⟨e, he, hle⟩ := settle_le_depth hrows ht
    rw [he, Nat.le_antisymm hle (hleast (attains_settle_nothing hrows nt e he))]

theorem settle_eq_none_iff (hrows : rows.Perm g.table.rows) :
    g.settle rows (fun _ => none) nt = none ↔ g.fixedTrees nt = ∅ := by
  rw [Set.eq_empty_iff_forall_notMem]
  constructor
  · intro hnone t ht
    obtain ⟨d, hd, -⟩ := settle_le_depth hrows ht
    rw [hnone] at hd
    cases hd
  · intro hempty
    cases hd : g.settle rows (fun _ => none) nt with
    | none => rfl
    | some d =>
      obtain ⟨t, ht, -⟩ := attains_settle_nothing hrows nt d hd
      exact absurd ht (hempty t)

/-- What is known after some sweeps, with nothing known at first. -/
def afterSweeps (g : Grammar K) (rows : Rows K) (n : ℕ) : Depths :=
  (fun known => (g.sweep rows known).1)^[n] fun _ => none

/-- Some sweep notes nothing, and what is known then is what is known in the end. -/
theorem exists_last_sweep (g : Grammar K) (rows : Rows K) (known : Depths) :
    ∃ n, (g.sweep rows ((fun known => (g.sweep rows known).1)^[n] known)).2 = false ∧
      (fun known => (g.sweep rows known).1)^[n] known = g.settle rows known := by
  induction known using settle.induct g rows with
  | case1 known hmore ih =>
    obtain ⟨n, hn, heq⟩ := ih
    refine ⟨n + 1, hn, ?_⟩
    rw [settle, if_pos hmore]
    exact heq
  | case2 known hdone =>
    have hdone := Bool.eq_false_of_not_eq_true hdone
    refine ⟨0, hdone, ?_⟩
    rw [settle, hdone, sweep, (settled_of_foldl_relax hdone).1]
    rfl

end Settle

/-- In whatever order the rows are looked at, some sweep notes nothing, and what is known by then is
the answer. It is the same for every order: a terminal has depth `0`, and a nonterminal the least
depth of the trees that fixed rules make, or none if there is no such tree. -/
theorem depthToTerminal_isLeast (g : Grammar K) (symbol : String) (hrows : rows.Perm g.table.rows) :
    (∃ n, (g.sweep rows (g.afterSweeps rows n)).2 = false ∧
      g.settle rows (fun _ => none) = g.afterSweeps rows n) ∧
    g.depthInOrder rows symbol = g.depthToTerminal symbol ∧
    (g.isNonterminal symbol = false → g.depthToTerminal symbol = some 0) ∧
    (g.isNonterminal symbol = true →
      (∀ d, g.depthToTerminal symbol = some d ↔
        IsLeast (Tree.depth '' g.fixedTrees symbol) d) ∧
      (g.depthToTerminal symbol = none ↔ g.fixedTrees symbol = ∅)) := by
  have hsame : g.settle rows (fun _ => none) symbol =
      g.settle g.table.rows (fun _ => none) symbol :=
    Option.ext fun d => (settle_eq_some_iff hrows).trans (settle_eq_some_iff (.refl _)).symm
  refine ⟨?_, ?_, fun hterminal => ?_, fun hnt => ⟨fun d => ?_, ?_⟩⟩
  · obtain ⟨n, hlast, heq⟩ := g.exists_last_sweep rows fun _ => none
    exact ⟨n, hlast, heq.symm⟩
  · rw [depthToTerminal, depthInOrder, depthInOrder, hsame]
  · rw [depthToTerminal, depthInOrder, hterminal]
    rfl
  · rw [depthToTerminal, depthInOrder, if_pos hnt, settle_eq_some_iff (.refl _)]
  · rw [depthToTerminal, depthInOrder, if_pos hnt, settle_eq_none_iff (.refl _)]

section Detour

/-- A grammar with a short tree behind a longer one, and a nonterminal that leads to itself only. -/
def detour [Scalar K] : Grammar K where
  start := "S"
  table :=
    (((((RuleTable.empty.insert ⟨"B", "b", none, 1, .plain⟩ rfl).insert
      ⟨"A", "over", some ["B"], 1, .plain⟩ rfl).insert
      ⟨"S", "far", some ["A"], 1, .plain⟩ rfl).insert
      ⟨"S", "near", some ["C"], 1, .plain⟩ rfl).insert
      ⟨"C", "c", none, 1, .plain⟩ rfl).insert
      ⟨"L", "again", some ["L"], 1, .plain⟩ rfl
  variableWeight := 1
  maxDepth := 4

/-- The first sweep notes a depth of `2` for the start, the second lowers it, and the third notes
nothing. -/
theorem settle_detour :
    let g : Grammar Float := detour
    g.afterSweeps g.table.rows 1 "S" = some 2 ∧
      g.settle g.table.rows (fun _ => none) = g.afterSweeps g.table.rows 3 := by
  intro g
  refine ⟨by decide +kernel, ?_⟩
  have hfirst : (g.sweep g.table.rows fun _ => none).2 = true := by decide +kernel
  have hsecond : (g.sweep g.table.rows (g.afterSweeps g.table.rows 1)).2 = true := by
    decide +kernel
  have hthird : ¬(g.sweep g.table.rows (g.afterSweeps g.table.rows 2)).2 = true := by
    decide +kernel
  rw [settle, if_pos hfirst, settle]
  refine (if_pos hsecond).trans ?_
  rw [settle]
  exact if_neg hthird

/-- In the reverse order the same depths come out. -/
theorem depthToTerminal_isLeast_detour :
    let g : Grammar Float := detour
    let rows := g.table.rows.reverse
    rows.Perm g.table.rows ∧ g.depthInOrder rows "S" = some 1 ∧
      IsLeast (Tree.depth '' g.fixedTrees "S") 1 ∧
      g.depthInOrder rows "L" = none ∧ g.fixedTrees "L" = ∅ := by
  intro g rows
  have hrows : rows.Perm g.table.rows := g.table.rows.reverse_perm
  have hsettle := settle_detour.2
  have hstart : g.depthToTerminal "S" = some 1 := by
    rw [depthToTerminal, depthInOrder, hsettle]
    decide +kernel
  have hloop : g.depthToTerminal "L" = none := by
    rw [depthToTerminal, depthInOrder, hsettle]
    decide +kernel
  obtain ⟨-, hsame, -, hleast⟩ := g.depthToTerminal_isLeast "S" hrows
  obtain ⟨-, hsame', -, hnone⟩ := g.depthToTerminal_isLeast "L" hrows
  exact ⟨hrows, hsame.trans hstart, ((hleast rfl).1 1).mp hstart, hsame'.trans hloop,
    (hnone rfl).2.mp hloop⟩

end Detour

end Grammar

end ScopedGrammar
