import ScopedGrammar.Proofs.Grammar.Alignment
import ScopedGrammar.Proofs.Text.Marks

/-!
# Canonical texts

The canonical text of a tree with distinct names, part by part. Variables in scope are printed by
marks: those bound within the text by the depth of their binders, and those bound further up with a
prime. So trees that correspond have the same text if corresponding variables are printed in the
same way.
-/
namespace ScopedGrammar

variable {K : Type}

namespace Tree

section Equations

/-- The text of an argument at a depth. -/
def argText (depth : Nat) (r : Renaming) : Arg K → String
  | .subtree t => canonicalFrom depth r t
  | .terminal s => s

/-- The part of a heading that shows the variable introduced. -/
def binderText (depth : Nat) (kind : NodeKind K) : String :=
  match kind with
  | .binder v => " " ++ displayName v depth ++ ":"
  | _ => ""

/-- The arguments of a node in brackets. -/
def argsText (depth : Nat) (r : Renaming) : Option (List (Arg K)) → String
  | none => ""
  | some as => "(" ++ ", ".intercalate (as.map (argText depth r)) ++ ")"

/-- What a subtree introduces is not among the names of a renaming, so nothing is forgotten behind
it. -/
theorem Renaming.without_eq_self {r : Renaming} {names : List String}
    (h : ∀ pair ∈ r, pair.1 ∉ names) : r.without names = r := by
  rw [without, List.filter_eq_self]
  simpa using h

theorem canonicalArgs_eq_map {depth : Nat} {r : Renaming} {as : List (Arg K)}
    (h : ∀ t, .subtree t ∈ as → ∀ pair ∈ r, pair.1 ∉ t.introducedNames) :
    canonicalArgs depth r as = as.map (argText depth r) := by
  induction as with
  | nil => rfl
  | cons a as ih =>
    have hrest := ih fun t ht => h t (List.mem_cons_of_mem a ht)
    cases a with
    | subtree t =>
      rw [canonicalArgs_subtree, Renaming.without_eq_self (h t List.mem_cons_self), hrest]
      rfl
    | terminal s =>
      rw [canonicalArgs, hrest]
      rfl

theorem keys_entered {depth : Nat} {r : Renaming} {kind : NodeKind K} {S : Scope K}
    (h : ∀ pair ∈ r, pair.1 ∈ S.map (·.name)) :
    ∀ pair ∈ entered depth r kind, pair.1 ∈ (S.below kind).map (·.name) := by
  intro pair hpair
  cases kind with
  | plain => exact h pair hpair
  | variableUse => exact h pair hpair
  | binder v =>
    rcases List.mem_cons.mp hpair with rfl | hpair
    · simp [Scope.below]
    · rw [Scope.below, List.map_append]
      exact List.mem_append_left _ (h pair hpair)

/-- The canonical text of a tree whose binders have distinct names, part by part. -/
theorem canonicalFrom_eq {S : Scope K} {t : Tree K} {r : Renaming} (ht : t.DistinctIn S)
    (hr : ∀ pair ∈ r, pair.1 ∈ S.map (·.name)) (depth : Nat) : t.canonicalFrom depth r =
      shownName r t.name t.kind ++ "<" ++ t.nonterminal ++ ">" ++ binderText depth t.kind ++
        argsText (depth + 1) (entered depth r t.kind) t.args? := by
  have hargs : ∀ c, .subtree c ∈ t.args → ∀ pair ∈ entered depth r t.kind,
      pair.1 ∉ c.introducedNames :=
    fun c hc pair hpair hmem => (ht.child hc).disjoint _ hmem (keys_entered hr pair hpair)
  obtain ⟨nt, name, kind, args?⟩ := t
  cases args? with
  | none =>
    rw [canonicalFrom, args?_node, argsText, String.append_empty]
    cases kind <;> rfl
  | some as =>
    have hmap : canonicalArgs (depth + 1) (entered depth r kind) as =
        as.map (argText (depth + 1) (entered depth r kind)) := canonicalArgs_eq_map hargs
    rw [canonicalFrom, hmap, args?_node, argsText]
    rw [name_node, kind_node, nonterminal_node]
    cases kind <;> simp only [canonicalFrom.heading, binderText, String.append_assoc]

end Equations

/-- Every variable of the scope is printed by a mark of a depth above the given one, or of one
outside of what is printed. -/
structure Renaming.Shows (r : Renaming) (depth : Nat) (S : Scope K) : Prop where
  keys : ∀ pair ∈ r, pair.1 ∈ S.map (·.name)
  marks : ∀ x ∈ S.map (·.name), ∃ stem level outer, PlainName stem ∧
    r.apply x = markText stem level outer ∧ (outer = false → level < depth)

theorem apply_cons (x y z : String) (r : Renaming) :
    Renaming.apply ((x, y) :: r) z = if z = x then y else r.apply z := by
  unfold Renaming.apply
  rw [List.lookup_cons]
  by_cases h : z = x
  · simp [h]
  · have hne : (z == x) = false := by simpa using h
    simp [h, hne]

theorem displayName_eq_markText (v : Rule K) (depth : Nat) :
    displayName v depth = markText v.stem depth false := by
  simp [displayName, markText]

theorem Renaming.Shows.entered {r : Renaming} {depth : Nat} {S : Scope K} {t : Tree K}
    (h : r.Shows depth S) (hstem : ∀ v, t.kind.introduced? = some v → PlainName v.stem) :
    Renaming.Shows (entered depth r t.kind) (depth + 1) (S.below t.kind) := by
  refine ⟨keys_entered h.keys, fun x hx => ?_⟩
  have hold : ∀ x ∈ S.map (·.name), ∃ stem level outer, PlainName stem ∧
      r.apply x = markText stem level outer ∧ (outer = false → level < depth + 1) := by
    intro x hx
    obtain ⟨stem, level, outer, hstem, heq, hlevel⟩ := h.marks x hx
    exact ⟨stem, level, outer, hstem, heq, fun ho => Nat.lt_succ_of_lt (hlevel ho)⟩
  cases hk : t.kind with
  | plain => exact hold x (by simpa [Scope.below, hk] using hx)
  | variableUse => exact hold x (by simpa [Scope.below, hk] using hx)
  | binder v =>
    have hv : t.kind.introduced? = some v := by rw [hk]; rfl
    change ∃ stem level outer, PlainName stem ∧
      Renaming.apply ((v.name, displayName v depth) :: r) x = markText stem level outer ∧ _
    rw [apply_cons]
    by_cases hxv : x = v.name
    · refine ⟨v.stem, depth, false, hstem v hv, ?_, fun _ => Nat.lt_succ_self depth⟩
      rw [if_pos hxv, displayName_eq_markText]
    · rw [if_neg hxv]
      rw [hk, Scope.below, List.map_append, List.mem_append] at hx
      exact hold x (hx.resolve_right (by simpa using hxv))

theorem entered_apply (depth : Nat) (r : Renaming) (kind : NodeKind K) (x : String) :
    (entered depth r kind).apply x =
      match kind.introduced? with
      | some v => if x = v.name then markText v.stem depth false else r.apply x
      | none => r.apply x := by
  cases kind with
  | plain => rfl
  | variableUse => rfl
  | binder v =>
    change Renaming.apply ((v.name, displayName v depth) :: r) x = _
    rw [apply_cons, displayName_eq_markText]
    rfl

section Correspondence

variable {g : Grammar K} {names names' : NameSupply} {S T : Scope K} {r r' : Renaming}
  {depth : Nat} {s t : Tree K}

theorem binderText_congr {kind kind' : NodeKind K}
    (h : Option.Rel Rule.SameUpToName kind.introduced? kind'.introduced?) :
    binderText depth kind = binderText depth kind' := by
  have htext : ∀ kind : NodeKind K, binderText depth kind =
      match kind.introduced? with
      | some v => " " ++ displayName v depth ++ ":"
      | none => "" := by
    intro kind
    cases kind <;> rfl
  rw [htext, htext]
  revert h
  generalize kind.introduced? = v?
  generalize kind'.introduced? = w?
  rintro (⟨h⟩ | _)
  · simp only [displayName, h.stem_eq]
  · rfl

theorem argsText_congr {args? args?' : Option (List (Arg K))} (hsome : args?.isSome = args?'.isSome)
    (h : List.Forall₂ (fun a b => argText depth r a = argText depth r' b) (args?.getD [])
      (args?'.getD [])) : argsText depth r args? = argsText depth r' args?' := by
  cases args? with
  | none =>
    cases args?' with
    | none => rfl
    | some bs => simp at hsome
  | some as =>
    cases args?' with
    | none => simp at hsome
    | some bs =>
      have hmap : as.map (argText depth r) = bs.map (argText depth r') := by
        rw [← List.forall₂_eq_eq_eq, List.forall₂_map_left_iff, List.forall₂_map_right_iff]
        exact h
      rw [argsText, argsText, hmap]

/-- What matches below two nodes is printed there in one way. -/
theorem apply_eq_of_below {M : Matching} {kind kind' : NodeKind K}
    (hrel : Option.Rel Rule.SameUpToName kind.introduced? kind'.introduced?) {x y : String}
    (hM : (∀ v, kind.introduced? = some v → x ≠ v.name) →
      (∀ w, kind'.introduced? = some w → y ≠ w.name) → M x y → r.apply x = r'.apply y)
    (h : M.below kind kind' x y) :
    (entered depth r kind).apply x = (entered depth r' kind').apply y := by
  rw [entered_apply, entered_apply]
  unfold Matching.below at h
  revert h hM hrel
  generalize kind.introduced? = v?
  generalize kind'.introduced? = w?
  rintro (⟨hvw⟩ | _) hM h
  · next v w =>
    rcases h with ⟨rfl, rfl⟩ | ⟨hv, hw, h⟩
    · simp [hvw.stem_eq]
    · simp only [if_neg hv, if_neg hw]
      exact hM (by simpa using hv) (by simpa using hw) h
  · exact hM (by simp) (by simp) h

/-- Corresponding trees have the same text if corresponding free variables are printed in the same
way. -/
theorem VariantOver.canonicalFrom_eq {M : Matching} (hs : s.DistinctIn S) (ht : t.DistinctIn T)
    (hr : ∀ pair ∈ r, pair.1 ∈ S.map (·.name)) (hr' : ∀ pair ∈ r', pair.1 ∈ T.map (·.name))
    (h : s.VariantOver M t)
    (hM : ∀ x ∈ s.freeUses [], ∀ y ∈ t.freeUses [], M x y → r.apply x = r'.apply y) :
    s.canonicalFrom depth r = t.canonicalFrom depth r' := by
  induction s using Tree.induction generalizing depth r r' S T M t with
  | node nt name kind args? ih =>
    rw [Tree.canonicalFrom_eq hs hr, Tree.canonicalFrom_eq ht hr', ← h.nonterminal_eq]
    have hkind := h.head.kind
    have hsome : args?.isSome = t.args?.isSome := h.head.isSome_eq
    have hintro : Option.Rel Rule.SameUpToName kind.introduced? t.kind.introduced? :=
      h.head.introduced?
    have hshown : shownName r name kind = shownName r' t.name t.kind := by
      cases kind with
      | plain =>
        cases hk : t.kind <;> rw [hk] at hkind <;> try exact hkind.elim
        exact hkind
      | binder v =>
        cases hk : t.kind <;> rw [hk] at hkind <;> try exact hkind.elim
        exact hkind.1
      | variableUse =>
        cases hk : t.kind <;> rw [hk] at hkind <;> try exact hkind.elim
        exact hM name (mem_freeUses_iff.mpr (.inl ⟨rfl, rfl⟩)) t.name
          (mem_freeUses_iff.mpr (.inl ⟨hk, rfl⟩)) hkind
    -- what matches below the root is printed alike there: the new variables, and all from above
    have hargs : ∀ a ∈ args?.getD [], ∀ b ∈ t.args?.getD [],
        a.VariantOver (M.below kind t.kind) b →
          argText (depth + 1) (entered depth r kind) a =
            argText (depth + 1) (entered depth r' t.kind) b := by
      intro a ha b hb hab
      cases hab with
      | terminal x => rfl
      | @subtree c d hcd =>
        refine ih c ha (hs.child ha) (ht.child hb) (keys_entered hr) (keys_entered hr') hcd ?_
        intro x hx y hy hxy
        refine apply_eq_of_below hintro (fun hv hw hM' => hM x ?_ y ?_ hM') hxy
        · exact mem_freeUses_iff.mpr (.inr ⟨by simpa using hv, c, ha, hx⟩)
        · exact mem_freeUses_iff.mpr (.inr ⟨by simpa [introduced?_eq] using hw, d, hb, hy⟩)
    rw [name_node, kind_node, nonterminal_node, args?_node, hshown, binderText_congr hintro,
      argsText_congr hsome (forall₂_imp_of_mem h.args hargs)]

/-- Corresponding derived trees have the same text if corresponding variables in scope are printed
in the same way. -/
theorem canonicalFrom_eq_of_variantOver {M : Matching} (hs : g.Derived names S s)
    (ht : g.Derived names' T t) (hr : ∀ pair ∈ r, pair.1 ∈ S.map (·.name))
    (hr' : ∀ pair ∈ r', pair.1 ∈ T.map (·.name)) (h : s.VariantOver M t)
    (hM : ∀ x ∈ S.map (·.name), ∀ y ∈ T.map (·.name), M x y → r.apply x = r'.apply y) :
    s.canonicalFrom depth r = t.canonicalFrom depth r' :=
  h.canonicalFrom_eq hs.fresh.distinctIn ht.fresh.distinctIn hr hr' fun x hx y hy =>
    hM x (hs.mem_scope_of_mem_freeUses hx) y (ht.mem_scope_of_mem_freeUses hy)

/-- Variants have the same canonical text, whatever the rules of the grammar are named. -/
theorem canonical_eq_of_variant (hs : s.introducedNames.Nodup) (ht : t.introducedNames.Nodup)
    (h : s.Variant t) : s.canonical = t.canonical :=
  VariantOver.canonicalFrom_eq (S := []) (T := []) ⟨hs, by simp⟩ ⟨ht, by simp⟩ (by simp) (by simp) h
    fun _ _ _ _ heq => congrArg _ heq

end Correspondence

end Tree

end ScopedGrammar
