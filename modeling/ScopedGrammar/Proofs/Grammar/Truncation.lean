import ScopedGrammar.Proofs.Grammar.Generated
import ScopedGrammar.Proofs.Random.Truncation

/-!
# Generation within a limit

The budget is looked at before each draw, when neither the size nor the depth of the tree to be is
known. Still, what is left of it at each node says whether the tree fits: an expansion is given up
only where every tree that it may still come to is too large, and else makes the same draws as
without a limit. So a limit rejects trees and does not change them.
-/
namespace ScopedGrammar

variable {K : Type}

namespace GenerationLimit

/-- The limit lets a tree pass. -/
def Admits (t : Tree K) : GenerationLimit → Prop
  | .totalSize nodes => t.countNodes ≤ nodes
  | .depth d => t.depth ≤ d

/-- The number of levels that a tree may have. -/
def levels (maxDepth : Nat) : GenerationLimit → Nat
  | .totalSize _ => maxDepth + 1
  | .depth d => min d maxDepth + 1

/-- The number of nodes that a tree may have, if that is limited. -/
def room : GenerationLimit → Option Nat
  | .totalSize nodes => some nodes
  | .depth _ => none

end GenerationLimit

namespace Tree

variable {levels : Nat} {room : Option Nat} {nt name : String} {kind : NodeKind K}
  {args? : Option (List (Arg K))} {t : Tree K} {as : List (Arg K)}

/-- The tree has no more levels than are left, and no more nodes than there is room for. -/
structure Within (levels : Nat) (room : Option Nat) (t : Tree K) : Prop where
  depth_lt : t.depth < levels
  countNodes_le : ∀ n ∈ room, t.countNodes ≤ n

/-- The arguments together keep to the levels and the room that are left. -/
structure WithinArgs (levels : Nat) (room : Option Nat) (as : List (Arg K)) : Prop where
  height_le : heightArgs as ≤ levels
  countNodes_le : ∀ n ∈ room, countNodesArgs as ≤ n

/-- The root takes a level and the room for a node. -/
theorem within_node : (node nt name kind args?).Within (levels + 1) room ↔
    room ≠ some 0 ∧ WithinArgs levels (room.map (· - 1)) (args?.getD []) := by
  have hlevels : (node nt name kind args?).depth < levels + 1 ↔
      heightArgs (args?.getD []) ≤ levels := by
    rw [depth_node, Nat.lt_succ_iff]
  have hnodes : (∀ n ∈ room, (node nt name kind args?).countNodes ≤ n) ↔
      room ≠ some 0 ∧ ∀ n ∈ room.map (· - 1), countNodesArgs (args?.getD []) ≤ n := by
    rw [countNodes_node]
    cases room with
    | none => simp
    | some n =>
      simp only [Option.mem_def, Option.some.injEq, forall_eq', ne_eq, Option.map_some]
      omega
  constructor
  · rintro ⟨hdepth, hcount⟩
    exact ⟨(hnodes.mp hcount).1, hlevels.mp hdepth, (hnodes.mp hcount).2⟩
  · rintro ⟨hroom, hheight, hcount⟩
    exact ⟨hlevels.mpr hheight, hnodes.mpr ⟨hroom, hcount⟩⟩

theorem withinArgs_nil : WithinArgs levels room ([] : List (Arg K)) :=
  ⟨Nat.zero_le _, fun _ _ => Nat.zero_le _⟩

/-- What a subtree takes is no longer there for the arguments behind it. -/
theorem withinArgs_subtree : WithinArgs levels room (.subtree t :: as) ↔
    t.Within levels room ∧ WithinArgs levels (room.map (· - t.countNodes)) as := by
  have hnodes : (∀ n ∈ room, t.countNodes + countNodesArgs as ≤ n) ↔
      (∀ n ∈ room, t.countNodes ≤ n) ∧
        ∀ n ∈ room.map (· - t.countNodes), countNodesArgs as ≤ n := by
    cases room with
    | none => simp
    | some n =>
      simp only [Option.mem_def, Option.some.injEq, forall_eq', Option.map_some]
      omega
  constructor
  · rintro ⟨hheight, hcount⟩
    obtain ⟨hdepth, hheight⟩ := Nat.max_le.mp hheight
    obtain ⟨hcount, hcounts⟩ := hnodes.mp hcount
    exact ⟨⟨hdepth, hcount⟩, ⟨hheight, hcounts⟩⟩
  · rintro ⟨⟨hdepth, hcount⟩, ⟨hheight, hcounts⟩⟩
    exact ⟨Nat.max_le.mpr ⟨hdepth, hheight⟩, hnodes.mpr ⟨hcount, hcounts⟩⟩

theorem withinArgs_terminal {x : String} :
    WithinArgs levels room (.terminal x :: as) ↔ WithinArgs levels room as :=
  ⟨fun h => ⟨h.height_le, h.countNodes_le⟩, fun h => ⟨h.height_le, h.countNodes_le⟩⟩

/-- The budget for a limit is that of the grammar's greatest depth and of the limit. -/
theorem within_limit {limit : GenerationLimit} {maxDepth : Nat} :
    t.Within (limit.levels maxDepth) limit.room ↔ t.depth ≤ maxDepth ∧ limit.Admits t := by
  cases limit with
  | totalSize nodes =>
    refine ⟨fun h => ⟨Nat.le_of_lt_succ h.depth_lt, h.countNodes_le nodes rfl⟩, fun h => ?_⟩
    exact ⟨Nat.lt_succ_of_le h.1, fun _ hn => Option.some.inj hn ▸ h.2⟩
  | depth depth =>
    rw [GenerationLimit.levels, GenerationLimit.Admits]
    refine ⟨fun h => ?_, fun h => ⟨by omega, fun _ hn => nomatch hn⟩⟩
    have hlt := h.depth_lt
    omega

end Tree

namespace Grammar

variable {g : Grammar K} {levels levels' : Nat} {room : Option Nat} {scope : Scope K}

/-- A tree that keeps to the budget, with the room behind it, and the same tree made without a limit
on the number of nodes. -/
inductive Spent (levels : Nat) (room : Option Nat) : Tree K × Option Nat → Tree K × Option Nat → Prop
  | intro {t : Tree K} (h : t.Within levels room) :
      Spent levels room (t, room.map (· - t.countNodes)) (t, none)

/-- Arguments that keep to the budget, with the room behind them, and the same arguments made
without a limit on the number of nodes. -/
inductive SpentArgs (levels : Nat) (room : Option Nat) :
    List (Arg K) × Option Nat → List (Arg K) × Option Nat → Prop
  | intro {as : List (Arg K)} (h : Tree.WithinArgs levels room as) :
      SpentArgs levels room (as, room.map (· - Tree.countNodesArgs as)) (as, none)

theorem room_behind (room : Option Nat) (m n : Nat) :
    (room.map (· - m)).map (· - n) = room.map (· - (m + n)) := by
  cases room <;> simp [Nat.sub_sub]

theorem room_behind_nil (room : Option Nat) :
    room.map (· - Tree.countNodesArgs ([] : List (Arg K))) = room := by
  cases room <;> rfl

/-- A node takes room for itself and for what is below it. -/
theorem Spent.node (nt name : String) (kind : NodeKind K) (args? : Option (List (Arg K)))
    (hroom : room ≠ some 0) (has : Tree.WithinArgs levels (room.map (· - 1)) (args?.getD [])) :
    Spent (levels + 1) room
      (.node nt name kind args?, (room.map (· - 1)).map (· - Tree.countNodesArgs (args?.getD [])))
      (.node nt name kind args?, none) := by
  have hfit : (Tree.node nt name kind args?).Within (levels + 1) room :=
    Tree.within_node.mpr ⟨hroom, has⟩
  have hspent := Spent.intro hfit
  rw [Tree.countNodes_node, ← room_behind] at hspent
  exact hspent

theorem expandArgs_truncates
    {fill fill' : Option Nat → Scope K → String → Sampler K (Tree K × Option Nat)}
    (h : ∀ room x s, Sampler.Truncates (fill room scope x) (fill' none scope x) s
      (Spent levels room) fun full => ¬ full.1.Within levels room)
    (symbols : List String) (room : Option Nat) (s : NameSupply) :
    Sampler.Truncates (expand.expandArgs g fill scope room symbols)
      (expand.expandArgs g fill' scope none symbols) s (SpentArgs levels room)
      fun full => ¬ Tree.WithinArgs levels room full.1 := by
  induction symbols generalizing room s with
  | nil =>
    have hspent : SpentArgs levels room ([], _) _ := .intro (K := K) Tree.withinArgs_nil
    rw [room_behind_nil] at hspent
    exact .pure hspent
  | cons x symbols ih =>
    rw [expand.expandArgs, expand.expandArgs]
    split
    · refine (h room x s).bind ?_ ?_
      · rintro _ _ s₁ ⟨ht⟩
        refine (ih _ s₁).bind_pure ?_ ?_
        · rintro _ _ s₂ ⟨has⟩
          have hspent := SpentArgs.intro (Tree.withinArgs_subtree.mpr ⟨ht, has⟩)
          rw [Tree.countNodesArgs, ← room_behind] at hspent
          exact .pure hspent
        · rintro ⟨as, _⟩ has
          exact ⟨_, rfl, fun hfit => has (Tree.withinArgs_subtree.mp hfit).2⟩
      · rintro ⟨t, _⟩ ht s₁ _ s₃ hout hfit
        obtain ⟨⟨as, _⟩, s₂, -, hout⟩ := (Sampler.yields_bind_ok ..).mp hout
        obtain ⟨hout, -⟩ := (Sampler.yields_pure ..).mp hout
        cases hout
        exact ht (Tree.withinArgs_subtree.mp hfit).1
    · refine (ih room s).bind_pure ?_ ?_
      · rintro _ _ s₁ ⟨has⟩
        exact .pure (.intro (Tree.withinArgs_terminal.mpr has))
      · rintro ⟨as, _⟩ has
        exact ⟨_, rfl, fun hfit => has (Tree.withinArgs_terminal.mp hfit)⟩

variable [Scalar K]

/-- With fewer levels and limited room an expansion makes the same draws, and is given up only where
it can come to no tree that keeps to the budget. -/
theorem expand_truncates (hle : levels ≤ levels') (room : Option Nat) (scope : Scope K)
    (nt : String) (s : NameSupply) :
    Sampler.Truncates (g.expand levels room scope nt) (g.expand levels' none scope nt) s
      (Spent levels room) fun full => ¬ full.1.Within levels room := by
  induction levels' generalizing levels room scope nt s with
  | zero =>
    obtain rfl := Nat.le_zero.mp hle
    exact .throw _
  | succ levels' ih =>
    cases levels with
    | zero => exact .stop fun _ _ _ hfit => Nat.not_lt_zero _ hfit.depth_lt
    | succ levels =>
      by_cases hroom : room = some 0
      · rw [hroom, expand_full]
        refine .stop ?_
        rintro ⟨⟨nt, name, kind, args?⟩, _⟩ - - hfit
        exact (Tree.within_node.mp hfit).1 rfl
      · rw [expand_succ g levels hroom, expand_succ g levels' (by simp)]
        refine (Sampler.Truncates.refl _).bind ?_ fun _ h => h.elim
        rintro r _ s₁ rfl
        refine (Sampler.Truncates.refl _).bind ?_ fun _ h => h.elim
        rintro kind _ s₂ rfl
        cases r.expansion with
        | none =>
          have hleaf : Tree.WithinArgs levels (room.map (· - 1)) ([] : List (Arg K)) :=
            Tree.withinArgs_nil
          have hspent := Spent.node r.nonterminal r.name kind none hroom hleaf
          rw [Option.getD_none, room_behind_nil] at hspent
          exact .pure hspent
        | some symbols =>
          have hfill := fun room x s => ih (Nat.le_of_succ_le_succ hle) room (scope.below kind) x s
          refine (expandArgs_truncates hfill symbols (room.map (· - 1)) s₂).bind_pure ?_ ?_
          · rintro _ _ s₃ ⟨has⟩
            exact .pure (.node _ _ _ (some _) hroom has)
          · rintro ⟨as, _⟩ has
            exact ⟨_, rfl, fun hfit => has (Tree.within_node.mp hfit).2⟩

theorem generateLimited_eq (g : Grammar K) (limit : GenerationLimit) (nt : String) :
    g.generateLimited limit nt =
      g.expand (limit.levels g.maxDepth) limit.room [] nt >>= fun x => pure x.1 := by
  cases limit <;> rfl

/-- Generation within a limit is generation without one, given up where no tree can come of it that
the limit lets pass. -/
theorem generateLimited_truncates (g : Grammar K) (limit : GenerationLimit) (nt : String)
    (s : NameSupply) :
    Sampler.Truncates (g.generateLimited limit nt) (g.generate nt) s
      (fun cut full => cut = full ∧ limit.Admits full)
      fun full => full.depth ≤ g.maxDepth → ¬ limit.Admits full := by
  have hle : limit.levels g.maxDepth ≤ g.maxDepth + 1 := by
    cases limit <;> simp [GenerationLimit.levels]
  rw [generateLimited_eq]
  refine (expand_truncates hle limit.room [] nt s).bind_pure ?_ ?_
  · rintro _ _ s₁ ⟨ht⟩
    exact .pure ⟨rfl, (Tree.within_limit.mp ht).2⟩
  · rintro ⟨t, _⟩ ht
    exact ⟨t, rfl, fun hdepth hadmits => ht (Tree.within_limit.mpr ⟨hdepth, hadmits⟩)⟩

/-- On any stream of words a limit only rejects trees. A tree is generated within the limit exactly
if it is generated without one and the limit lets it pass, with the same words drawn and the same
names taken. Else generation within the limit fails: for the size of the tree if there is one
without the limit, and if there is none, then for the same reason, unless it has been given up
before. -/
theorem generateLimited_eq_ok_iff (g : Grammar Float) (limit : GenerationLimit) (nt : String)
    (names : NameSupply) (words : Words) :
    let full := Rand.run (g.generate nt names) words
    let cut := Rand.run (g.generateLimited limit nt names) words
    (∀ t, cut.1.1 = .ok t ↔ full.1.1 = .ok t ∧ limit.Admits t) ∧
      (∀ t, cut.1.1 = .ok t → cut = full) ∧
      (∀ t, full.1.1 = .ok t → ¬ limit.Admits t → cut.1.1 = .error .sizeExceeded) ∧
      ∀ e, full.1.1 = .error e → cut = full ∨ cut.1.1 = .error .sizeExceeded := by
  intro full cut
  have hdepth : ∀ t, full.1.1 = .ok t → t.depth ≤ g.maxDepth := by
    intro t ht
    have hyields : (g.generate nt).Yields names (.ok t) full.1.2 := by
      rw [← ht]
      exact Rand.yields_run (g.generate nt names) words
    obtain ⟨rules, hexpanded⟩ := of_yields_generateIn hyields
    exact Nat.le_of_lt_succ hexpanded.depth_lt
  rcases (generateLimited_truncates g limit nt names).run words with ⟨hsame, hkept⟩ | ⟨hgone, hlost⟩
  · have hsame : cut = full := hsame
    refine ⟨fun t => ?_, fun _ _ => hsame, fun t ht hnot => absurd (hkept t ht) hnot,
      fun _ _ => .inl hsame⟩
    rw [hsame]
    exact (and_iff_left_of_imp (hkept t)).symm
  · have hgone : cut.1.1 = .error .sizeExceeded := hgone
    have hrejected : ∀ t, full.1.1 = .ok t → ¬ limit.Admits t := fun t ht =>
      hlost t ht (hdepth t ht)
    rw [hgone]
    exact ⟨fun t => ⟨nofun, fun h => absurd h.2 (hrejected t h.1)⟩, nofun, fun _ _ _ => rfl,
      fun _ _ => .inr rfl⟩

end Grammar

end ScopedGrammar
