import ScopedGrammar.Proofs.Grammar.Numbering

/-!
# Writing packed trees

The writer carries an index from signatures to numbers. On the way down a binder adds its variable
under the next number, and behind a subtree all that it introduced is forgotten. So the index always
knows the numbers of the rules that can be named, and a derived tree is written as the characters
for the numbers of its nodes. There are characters for the numbers below `62` only; a tree that
needs another one has no packed text.
-/
namespace ScopedGrammar

variable {K : Type}

section Alphabet

/-- The character stands for the number. -/
def Spells (i : ℕ) (c : Char) : Prop := packAlphabet[i]? = some c

theorem length_packAlphabet : packAlphabet.length = 62 := by decide

theorem nodup_packAlphabet : packAlphabet.Nodup := by decide

theorem packIndex_eq_ok {i : ℕ} {c : Char} : packIndex i = .ok c ↔ Spells i c := by
  unfold packIndex Spells
  cases packAlphabet[i]? <;> simp

theorem packIndex_eq_error {i : ℕ} (h : 62 ≤ i) :
    packIndex i = .error (.pack (.overflow i)) := by
  rw [packIndex, List.getElem?_eq_none (length_packAlphabet ▸ h)]

theorem exists_spells {i : ℕ} (h : i < 62) : ∃ c, Spells i c :=
  ⟨_, List.getElem?_eq_getElem (length_packAlphabet ▸ h)⟩

/-- Reading a character gives the number for which it stands. -/
theorem unpackIndex_eq_ok {i : ℕ} {c : Char} : unpackIndex c = .ok i ↔ Spells i c := by
  have hfind : packAlphabet.idxOf? c = some i ↔ Spells i c := by
    rw [List.idxOf?_eq_some_iff, Spells, List.getElem?_eq_some_iff]
    refine exists_congr fun hi => and_iff_left_of_imp ?_
    rintro rfl j hj heq
    exact Nat.ne_of_lt hj (nodup_packAlphabet.getElem_inj_iff.mp heq)
  unfold unpackIndex
  rw [← hfind]
  cases packAlphabet.idxOf? c <;> simp

/-- Numbers are written one by one, if there are characters for all of them. -/
theorem mapM_packIndex_eq_ok {indices : List ℕ} {cs : List Char} :
    indices.mapM packIndex = .ok cs ↔ List.Forall₂ Spells indices cs := by
  induction indices generalizing cs with
  | nil => cases cs <;> simp [pure, Except.pure]
  | cons i indices ih =>
    rw [List.mapM_cons, List.forall₂_cons_left_iff]
    cases hc : packIndex i with
    | error e =>
      have hnone : ∀ c, ¬ Spells i c := fun c h => by simp [packIndex_eq_ok.mpr h] at hc
      simp [bind, Except.bind, hnone]
    | ok c =>
      have hspells : ∀ d, Spells i d ↔ d = c := fun d => by
        rw [← packIndex_eq_ok, hc]
        simp [eq_comm]
      simp only [hspells, ← ih]
      cases indices.mapM packIndex <;> simp [bind, Except.bind, pure, Except.pure, eq_comm]

/-- Writing fails at the first number for which there is no character. -/
theorem mapM_packIndex_eq_error {indices : List ℕ} (h : ∃ i ∈ indices, 62 ≤ i) :
    ∃ i ∈ indices, 62 ≤ i ∧ indices.mapM packIndex = .error (.pack (.overflow i)) := by
  induction indices with
  | nil => simp at h
  | cons i indices ih =>
    rw [List.mapM_cons]
    by_cases hi : 62 ≤ i
    · exact ⟨i, List.mem_cons_self, hi, by rw [packIndex_eq_error hi]; rfl⟩
    · obtain ⟨c, hc⟩ := exists_spells (Nat.lt_of_not_le hi)
      obtain ⟨j, hj, hlarge, herror⟩ := ih (by simpa [hi] using h)
      refine ⟨j, List.mem_cons_of_mem _ hj, hlarge, ?_⟩
      rw [packIndex_eq_ok.mpr hc, herror]
      rfl

end Alphabet

namespace Tree

theorem introducedSignatures_node (nt name : String) (kind : NodeKind K)
    (args? : Option (List (Arg K))) : (node nt name kind args?).introducedSignatures =
      (kind.introduced?.map Rule.signature).toList ++ introducedSignaturesArgs (args?.getD []) := by
  cases args? <;> cases kind <;> rfl

theorem introducedSignaturesArgs_eq (as : List (Arg K)) :
    introducedSignaturesArgs as = (as.filterMap Arg.asTree?).flatMap introducedSignatures := by
  induction as with
  | nil => rfl
  | cons a as ih =>
    cases a <;> simp [introducedSignaturesArgs, Arg.asTree?, List.filterMap_cons, ih]

/-- The signatures that a tree introduces are named after its binders. -/
theorem name_mem_introducedNames {t : Tree K} {sig : Signature}
    (h : sig ∈ t.introducedSignatures) : sig.name ∈ t.introducedNames := by
  induction t using induction with
  | node nt name kind args? ih =>
    rw [introducedSignatures_node, List.mem_append, Option.mem_toList] at h
    rw [introducedNames_node, List.mem_append, Option.mem_toList]
    rcases h with h | h
    · obtain ⟨v, hv, rfl⟩ := Option.map_eq_some_iff.mp h
      exact .inl (Option.map_eq_some_iff.mpr ⟨v, hv, rfl⟩)
    · rw [introducedSignaturesArgs_eq, List.mem_flatMap] at h
      obtain ⟨c, hc, hsig⟩ := h
      obtain ⟨a, ha, hac⟩ := List.mem_filterMap.mp hc
      cases a with
      | terminal s => cases hac
      | subtree d =>
        cases hac
        exact .inr (mem_introducedNamesArgs.mpr ⟨c, ha, ih c ha hsig⟩)

end Tree

variable {g : Grammar K} {names : NameSupply} {S : Scope K} {t : Tree K} {ix : PackIndex}

/-- The index leads from the signature of each rule that can be named in the scope to its number. -/
def PackIndex.Knows (ix : PackIndex) (g : Grammar K) (S : Scope K) : Prop :=
  ∀ i r, (g.numbered S)[i]? = some r → ix.lookup r.signature = some i

namespace PackIndex.Knows

theorem initial (hdist : g.DistinctSignatures) : g.packIndex.Knows g [] := by
  intro i r hr
  have hkeys : (g.packIndex.map (·.1)).Nodup := by
    have heq : g.packIndex.map (·.1) = g.table.allRules.map Rule.signature := by
      rw [Grammar.packIndex, List.map_map]
      conv_rhs => rw [← List.zipIdx_map_fst 0 g.table.allRules, List.map_map]
      rfl
    rw [heq]
    exact hdist
  refine lookup_of_mem hkeys (List.mem_map.mpr ⟨(r, i), ?_, rfl⟩)
  rw [List.mem_zipIdx_iff_getElem?]
  simpa [Grammar.numbered] using hr

/-- Below a node the variable that it introduces can be named, too. -/
theorem below {kind : NodeKind K} (h : ix.Knows g S)
    (hnodup : ((g.numbered (S.below kind)).map Rule.signature).Nodup) :
    PackIndex.Knows (Tree.packBelow ix (g.ruleCount + S.length) kind).1 g (S.below kind) ∧
      (Tree.packBelow ix (g.ruleCount + S.length) kind).2 = g.ruleCount + (S.below kind).length := by
  cases kind with
  | plain => exact ⟨h, rfl⟩
  | variableUse => exact ⟨h, rfl⟩
  | binder v =>
    have hv : (g.numbered (S.below (.binder v)))[g.ruleCount + S.length]? = some v :=
      Grammar.numbered_variable (by simp [Scope.below])
    refine ⟨fun i r hr => ?_, by simp [Tree.packBelow, Scope.below, Nat.add_assoc]⟩
    rw [Tree.packBelow, List.lookup_cons]
    by_cases hsig : r.signature = v.signature
    · rw [hsig, beq_self_eq_true, Grammar.number_unique hnodup hr hv hsig]
    · rw [beq_eq_false_iff_ne.mpr hsig]
      refine h i r ?_
      rw [Grammar.numbered_below, Scope.below] at hr
      rcases getElem?_concat_eq_some.mp hr with hr | ⟨-, rfl⟩
      · exact hr
      · exact absurd rfl hsig

/-- What a subtree introduced can be forgotten behind it. -/
theorem without (h : ix.Knows g S) (hres : g.NoReservedNames) (ht : g.Derived names S t) :
    (ix.without t.introducedSignatures).Knows g S := by
  intro i r hr
  have hnew : r.signature ∉ t.introducedSignatures := by
    intro hmem
    have hname : r.name ∈ t.introducedNames := Tree.name_mem_introducedNames hmem
    rcases List.mem_append.mp (List.mem_of_getElem? hr) with hr | hr
    · obtain ⟨k, -, hk⟩ := ht.fresh.issued _ hname
      exact hres r hr k hk
    · exact ht.fresh.disjoint _ hname (List.mem_map_of_mem hr)
  have hlookup : (ix.without t.introducedSignatures).lookup r.signature = ix.lookup r.signature :=
    lookup_filter (fun sig => !t.introducedSignatures.contains sig) (by simpa using hnew)
  exact hlookup.trans (h i r hr)

end PackIndex.Knows

namespace Tree

theorem packRoot_eq (h : ix.Knows g S) {i : ℕ} (hi : g.Numbers i ([], t, S)) :
    t.packRoot ix = packIndex i := by
  obtain ⟨r, hr, hinst⟩ := hi
  rw [packRoot, packedIndex, ← hinst.signature_eq, h i r hr]
  rfl

theorem packFrom_node (ix : PackIndex) (next : ℕ) (nt name : String) (kind : NodeKind K)
    (args? : Option (List (Arg K))) : (node nt name kind args?).packFrom ix next =
      (node nt name kind args?).packRoot ix >>= fun c =>
        packArgs (packBelow ix next kind).1 (packBelow ix next kind).2 (args?.getD []) >>= fun cs =>
          pure (c :: cs) := by
  cases args? <;> rfl

theorem packArgs_eq (hres : g.NoReservedNames) {as : List (Arg K)}
    (ih : ∀ c, .subtree c ∈ as → g.Derived names S c ∧ ∀ (ix : PackIndex) (indices : List ℕ),
      ix.Knows g S → List.Forall₂ g.Numbers indices (c.nodesInScope S) →
        c.packFrom ix (g.ruleCount + S.length) = indices.mapM packIndex)
    (hix : ix.Knows g S) {indices : List ℕ} {k : ℕ}
    (h : List.Forall₂ g.Numbers indices (nodesInScopeFrom S k as)) :
    packArgs ix (g.ruleCount + S.length) as = indices.mapM packIndex := by
  induction as generalizing ix indices k with
  | nil =>
    cases h
    rfl
  | cons a as iha =>
    have hrest := fun c hc => ih c (List.mem_cons_of_mem a hc)
    cases a with
    | terminal s => exact iha hrest hix h
    | subtree t =>
      obtain ⟨ht, hpack⟩ := ih t (by simp)
      obtain ⟨is, js, rfl, hi, hj⟩ := exists_append_of_forall₂ h
      rw [packArgs, List.mapM_append, hpack ix is hix (List.forall₂_map_right_iff.mp hi :),
        iha hrest (hix.without hres ht) hj]

/-- A derived tree is written as the characters for the numbers of its nodes. -/
theorem packFrom_eq (hdist : g.DistinctSignatures) (hres : g.NoReservedNames)
    (ht : g.Derived names S t) (hix : ix.Knows g S) {indices : List ℕ}
    (h : List.Forall₂ g.Numbers indices (t.nodesInScope S)) :
    t.packFrom ix (g.ruleCount + S.length) = indices.mapM packIndex := by
  induction t using induction generalizing S ix indices with
  | node nt name kind args? ih =>
    rw [nodesInScope_node] at h
    cases h with
    | @cons i _ indices _ hi hargs =>
      have hnodup : ((g.numbered (S.below kind)).map Rule.signature).Nodup :=
        Grammar.nodup_numbered hdist hres ht.wellNamed_below
      have hchild : ∀ c, .subtree c ∈ args?.getD [] → g.Derived names (S.below kind) c :=
        fun c hc => ht.child hc
      obtain ⟨hknows, hnext⟩ := hix.below hnodup
      have hbelow := packArgs_eq hres
        (fun c hc => ⟨hchild c hc, fun ix is hix his => ih c hc (hchild c hc) hix his⟩) hknows hargs
      rw [packFrom_node, packRoot_eq hix hi, List.mapM_cons, hnext, hbelow]

end Tree

namespace Grammar

variable {nt name : String} {kind : NodeKind K} {args? : Option (List (Arg K))} {as : List (Arg K)}
  {c : Char} {cs : List Char}

/-- The text of a tree that was made in a scope: a character for the number of each node. -/
def Spelled (g : Grammar K) (S : Scope K) (t : Tree K) (cs : List Char) : Prop :=
  ∃ indices, List.Forall₂ g.Numbers indices (t.nodesInScope S) ∧ List.Forall₂ Spells indices cs

/-- The text of a list of arguments. -/
def SpelledArgs (g : Grammar K) (S : Scope K) (as : List (Arg K)) (cs : List Char) : Prop :=
  ∃ indices, List.Forall₂ g.Numbers indices (Tree.nodesInScopeFrom S 0 as) ∧
    List.Forall₂ Spells indices cs

/-- The numbers of nodes do not depend on where the first argument stands. -/
theorem forall₂_nodesInScopeFrom {indices : List ℕ} (j k : ℕ)
    (h : List.Forall₂ g.Numbers indices (Tree.nodesInScopeFrom S j as)) :
    List.Forall₂ g.Numbers indices (Tree.nodesInScopeFrom S k as) := by
  induction as generalizing indices j k with
  | nil => exact h
  | cons a as ih =>
    cases a with
    | terminal s => exact ih (j + 1) (k + 1) h
    | subtree t =>
      obtain ⟨is, js, rfl, hi, hj⟩ := exists_append_of_forall₂ h
      refine List.rel_append (List.forall₂_map_right_iff.mpr ?_) (ih (j + 1) (k + 1) hj)
      exact (List.forall₂_map_right_iff.mp hi :)

theorem spelled_node : g.Spelled S (.node nt name kind args?) cs ↔ ∃ i c cs', cs = c :: cs' ∧
    g.Numbers i ([], .node nt name kind args?, S) ∧ Spells i c ∧
      g.SpelledArgs (S.below kind) (args?.getD []) cs' := by
  rw [Spelled, Tree.nodesInScope_node]
  constructor
  · rintro ⟨_, hnumbers, hspells⟩
    cases hnumbers with
    | cons hi hnumbers =>
      cases hspells with
      | cons hc hspells => exact ⟨_, _, _, rfl, hi, hc, _, hnumbers, hspells⟩
  · rintro ⟨i, c, cs', rfl, hi, hc, indices, hnumbers, hspells⟩
    exact ⟨i :: indices, .cons hi hnumbers, .cons hc hspells⟩

theorem spelledArgs_nil : g.SpelledArgs S [] cs ↔ cs = [] := by
  constructor
  · rintro ⟨_, ⟨⟩, ⟨⟩⟩
    rfl
  · rintro rfl
    exact ⟨[], .nil, .nil⟩

theorem spelledArgs_terminal {s : String} :
    g.SpelledArgs S (.terminal s :: as) cs ↔ g.SpelledArgs S as cs :=
  exists_congr fun _ => and_congr_left fun _ =>
    ⟨forall₂_nodesInScopeFrom 1 0, forall₂_nodesInScopeFrom 0 1⟩

theorem spelledArgs_subtree : g.SpelledArgs S (.subtree t :: as) cs ↔ ∃ front cs',
    cs = front ++ cs' ∧ g.Spelled S t front ∧ g.SpelledArgs S as cs' := by
  constructor
  · rintro ⟨_, hnumbers, hspells⟩
    obtain ⟨is, js, rfl, hi, hj⟩ := exists_append_of_forall₂ hnumbers
    obtain ⟨front, cs', rfl, hfront, hcs⟩ := exists_append_of_forall₂ hspells.flip
    exact ⟨front, cs', rfl, ⟨is, (List.forall₂_map_right_iff.mp hi :), hfront.flip⟩, js,
      forall₂_nodesInScopeFrom 1 0 hj, hcs.flip⟩
  · rintro ⟨front, cs', rfl, ⟨is, hi, hfront⟩, js, hj, hcs⟩
    refine ⟨is ++ js, List.rel_append ?_ (forall₂_nodesInScopeFrom 0 1 hj),
      List.rel_append hfront hcs⟩
    exact List.forall₂_map_right_iff.mpr hi

/-- Variants have one text. -/
theorem Spelled.eq_of_variant {names' : NameSupply} {u : Tree K} {cs' : List Char}
    (hdist : g.DistinctSignatures) (hres : g.NoReservedNames) (ht : g.Derived names [] t)
    (hu : g.Derived names' [] u) (h : t.Variant u) (hcs : g.Spelled [] t cs)
    (hcs' : g.Spelled [] u cs') : cs = cs' := by
  obtain ⟨is, his, hcs⟩ := hcs
  obtain ⟨js, hjs, hcs'⟩ := hcs'
  obtain rfl := numbers_eq_of_variant hdist hres ht hu h his hjs
  exact Except.ok.inj ((mapM_packIndex_eq_ok.mpr hcs).symm.trans (mapM_packIndex_eq_ok.mpr hcs'))

theorem length_nodesInScopeFrom (as : List (Arg K)) (i : ℕ)
    (h : ∀ c, .subtree c ∈ as → (c.nodesInScope S).length = c.countNodes) :
    (Tree.nodesInScopeFrom S i as).length = Tree.countNodesArgs as := by
  induction as generalizing i with
  | nil => rfl
  | cons a as ih =>
    have hrest := ih (i + 1) fun c hc => h c (by simp [hc])
    cases a with
    | subtree c =>
      simp [Tree.nodesInScopeFrom, Tree.countNodesArgs, h c (by simp), hrest]
    | terminal s => simpa [Tree.nodesInScopeFrom, Tree.countNodesArgs] using hrest

theorem length_nodesInScope (t : Tree K) (S : Scope K) :
    (t.nodesInScope S).length = t.countNodes := by
  induction t using Tree.induction generalizing S with
  | node nt name kind args? ih =>
    rw [Tree.nodesInScope_node, Tree.countNodes_node, List.length_cons,
      length_nodesInScopeFrom _ _ fun c hc => ih c hc _, Nat.add_comm]

theorem Spelled.length_eq (h : g.Spelled S t cs) : cs.length = t.countNodes := by
  obtain ⟨indices, hnumbers, hspells⟩ := h
  rw [← length_nodesInScope t S, ← hnumbers.length_eq, hspells.length_eq]

variable (hdist : g.DistinctSignatures) (hres : g.NoReservedNames) (ht : g.Derived names [] t)
include hdist hres ht

theorem pack_eq {indices : List ℕ} (h : List.Forall₂ g.Numbers indices (t.nodesInScope [])) :
    g.pack t = (indices.mapM ScopedGrammar.packIndex).map String.ofList := by
  have hfrom : t.packFrom g.packIndex g.ruleCount = indices.mapM ScopedGrammar.packIndex :=
    Tree.packFrom_eq hdist hres ht (PackIndex.Knows.initial hdist) h
  rw [pack, hfrom]
  cases indices.mapM ScopedGrammar.packIndex <;> rfl

/-- A closed tree has its text for its packed form. -/
theorem pack_eq_ok {text : String} : g.pack t = .ok text ↔ g.Spelled [] t text.toList := by
  obtain ⟨indices, h⟩ := ht.exists_numbers
  rw [pack_eq hdist hres ht h]
  constructor
  · intro heq
    refine ⟨indices, h, mapM_packIndex_eq_ok.mp ?_⟩
    cases hcs : indices.mapM ScopedGrammar.packIndex with
    | error e => simp [hcs, Except.map] at heq
    | ok cs =>
      obtain rfl : String.ofList cs = text := by simpa [hcs, Except.map] using heq
      rw [String.toList_ofList]
  · rintro ⟨js, hjs, hspells⟩
    obtain rfl := numbers_eq_of_variant hdist hres ht ht (.refl t) h hjs
    rw [mapM_packIndex_eq_ok.mpr hspells, Except.map, String.ofList_toList]

/-- A tree is written if there is a character for the index of each node. -/
theorem exists_pack_eq_ok (h : ∀ p i, g.NodeIndex t p i → i < 62) :
    ∃ text, g.pack t = .ok text := by
  obtain ⟨indices, hnumbers⟩ := ht.exists_numbers
  have hspells : ∃ cs, List.Forall₂ (fun c i => Spells i c) cs indices := by
    refine exists_forall₂ fun i hi => ?_
    obtain ⟨p, hp⟩ := (ht.mem_indices_iff hdist hres hnumbers).mp hi
    exact exists_spells (h p i hp)
  obtain ⟨cs, hcs⟩ := hspells
  exact ⟨_, by rw [pack_eq hdist hres ht hnumbers, mapM_packIndex_eq_ok.mpr hcs.flip]; rfl⟩

/-- A tree cannot be written if a node has an index for which there is no character. -/
theorem pack_eq_error (h : ∃ p i, g.NodeIndex t p i ∧ 62 ≤ i) :
    ∃ p i, g.NodeIndex t p i ∧ 62 ≤ i ∧ g.pack t = .error (.pack (.overflow i)) := by
  obtain ⟨indices, hnumbers⟩ := ht.exists_numbers
  obtain ⟨p, i, hi, hlarge⟩ := h
  have hmem := (ht.mem_indices_iff hdist hres hnumbers).mpr ⟨p, hi⟩
  obtain ⟨j, hj, hlarge, herror⟩ := mapM_packIndex_eq_error ⟨i, hmem, hlarge⟩
  obtain ⟨q, hq⟩ := (ht.mem_indices_iff hdist hres hnumbers).mp hj
  exact ⟨q, j, hq, hlarge, by rw [pack_eq hdist hres ht hnumbers, herror]; rfl⟩

end Grammar

end ScopedGrammar
