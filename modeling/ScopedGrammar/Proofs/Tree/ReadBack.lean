import ScopedGrammar.Proofs.Tree.Printed

/-!
# Reading canonical texts back

Where all names are plain, a canonical text can be read back: trees of one text correspond to each
other, and so do their free variables if they are printed in the same way. The names of binders do
not show, and neither do the rules of their variables; but nodes of equal signature are made by one
rule, which fixes these.
-/
namespace ScopedGrammar

variable {K : Type}

namespace Tree

/-- All names of a tree other than those of variables are plain, and its terminals are not empty. -/
inductive PlainNames : Tree K → Prop
  | node {t : Tree K} (nonterminal : PlainName t.nonterminal)
      (name : t.kind ≠ .variableUse → PlainName t.name)
      (stem : ∀ v, t.kind.introduced? = some v → PlainName v.stem)
      (terminals : ∀ s, .terminal s ∈ t.args → PlainName s ∧ s ≠ "")
      (args : ∀ c, .subtree c ∈ t.args → PlainNames c) : PlainNames t

section Cancelling

/-- The characters that may follow a text among arguments. -/
def Stop (c : Char) : Prop := c = ',' ∨ c = ')'

theorem begins_cons {α : Type} {P : α → Prop} {x : α} {xs : List α} : Begins P (x :: xs) ↔ P x := by
  simp [Begins]

theorem begins_separators {cs : List Char} (h : Begins Stop cs) : Begins (· ∈ separators) cs := by
  intro c hc
  rcases h c hc with rfl | rfl <;> decide

theorem heading_cancel {x x' nt nt' ys ys' : List Char}
    (hx : ∀ c ∈ x, c ∉ separators) (hx' : ∀ c ∈ x', c ∉ separators)
    (hnt : ∀ c ∈ nt, c ∉ separators) (hnt' : ∀ c ∈ nt', c ∉ separators)
    (h : x ++ '<' :: (nt ++ '>' :: ys) = x' ++ '<' :: (nt' ++ '>' :: ys')) :
    x = x' ∧ nt = nt' ∧ ys = ys' := by
  have hsep : ∀ {cs : List Char}, (∀ c ∈ cs, c ∉ separators) → ∀ c ∈ cs, ¬ c ∈ separators :=
    fun h => h
  obtain ⟨rfl, h₁⟩ := append_cancel_begins h (hsep hx) (hsep hx')
    (begins_cons.mpr (by decide)) (begins_cons.mpr (by decide))
  obtain ⟨rfl, h₂⟩ := append_cancel_begins (List.cons.inj h₁).2 (hsep hnt) (hsep hnt')
    (begins_cons.mpr (by decide)) (begins_cons.mpr (by decide))
  exact ⟨rfl, rfl, (List.cons.inj h₂).2⟩

/-- Whether a node is a binder, and the stem of its variable, can be read off its heading. -/
theorem binderText_cancel {depth : Nat} {kind kind' : NodeKind K} {ys ys' : List Char}
    (hstem : ∀ v, kind.introduced? = some v → PlainName v.stem)
    (hstem' : ∀ v, kind'.introduced? = some v → PlainName v.stem)
    (hys : Begins (· ≠ ' ') ys) (hys' : Begins (· ≠ ' ') ys')
    (h : (binderText depth kind).toList ++ ys = (binderText depth kind').toList ++ ys') :
    Option.Rel (fun v w => v.stem = w.stem) kind.introduced? kind'.introduced? ∧ ys = ys' := by
  have htext : ∀ kind : NodeKind K, (binderText depth kind).toList =
      kind.introduced?.elim [] fun v => ' ' :: ((displayName v depth).toList ++ [':']) := by
    intro kind
    cases kind <;> simp [binderText, NodeKind.introduced?]
  rw [htext, htext] at h
  revert h hstem hstem'
  generalize kind.introduced? = v?
  generalize kind'.introduced? = w?
  cases v? with
  | none =>
    cases w? with
    | none => exact fun _ _ h => ⟨.none, h⟩
    | some w =>
      intro _ _ h
      obtain rfl : ys = ' ' :: ((displayName w depth).toList ++ [':']) ++ ys' := h
      exact absurd rfl (hys _ rfl)
  | some v =>
    cases w? with
    | none =>
      intro _ _ h
      obtain rfl : ' ' :: ((displayName v depth).toList ++ [':']) ++ ys = ys' := h
      exact absurd rfl (hys' _ rfl)
    | some w =>
      intro hv hw h
      have hv := hv v rfl
      have hw := hw w rfl
      simp only [Option.elim_some, List.cons_append, List.append_assoc, List.cons.injEq, true_and,
        displayName_eq_markText] at h
      obtain ⟨hmark, hrest⟩ := append_cancel_begins h (P := (· ∈ separators))
        (fun c hc => mem_markText hv hc) (fun c hc => mem_markText hw hc)
        (begins_cons.mpr (by decide)) (begins_cons.mpr (by decide))
      obtain ⟨hstem, -, -⟩ := markText_inj hv hw (String.toList_inj.mp hmark)
      exact ⟨.some hstem, (List.cons.inj hrest).2⟩

theorem intercalate_cons_append (x : List Char) (xs : List (List Char)) (rest : List Char) :
    [',', ' '].intercalate (x :: xs) ++ rest =
      x ++ if xs = [] then rest else ',' :: ' ' :: ([',', ' '].intercalate xs ++ rest) := by
  cases xs with
  | nil => simp
  | cons y ys => simp [List.intercalate_cons_cons]

/-- Argument lists can be read back if their members can. -/
theorem args_cancel {R : Arg K → Arg K → Prop} {text text' : Arg K → List Char}
    {as bs : List (Arg K)}
    (hcancel : ∀ a ∈ as, ∀ b ∈ bs, ∀ ys ys', Begins Stop ys → Begins Stop ys' →
      text a ++ ys = text' b ++ ys' → R a b ∧ ys = ys')
    (ha : ∀ a ∈ as, ∃ c cs, text a = c :: cs ∧ c ≠ ')')
    (hb : ∀ b ∈ bs, ∃ c cs, text' b = c :: cs ∧ c ≠ ')') {rest rest' : List Char}
    (h : [',', ' '].intercalate (as.map text) ++ ')' :: rest =
      [',', ' '].intercalate (bs.map text') ++ ')' :: rest') :
    List.Forall₂ R as bs ∧ rest = rest' := by
  induction as generalizing bs with
  | nil =>
    cases bs with
    | nil => exact ⟨.nil, (List.cons.inj h).2⟩
    | cons b bs =>
      obtain ⟨c, cs, hc, hne⟩ := hb b List.mem_cons_self
      rw [List.map_cons, intercalate_cons_append, hc] at h
      exact absurd (List.cons.inj h).1.symm hne
  | cons a as ih =>
    cases bs with
    | nil =>
      obtain ⟨c, cs, hc, hne⟩ := ha a List.mem_cons_self
      rw [List.map_cons, intercalate_cons_append, hc] at h
      exact absurd (List.cons.inj h).1 hne
    | cons b bs =>
      rw [List.map_cons, List.map_cons, intercalate_cons_append, intercalate_cons_append] at h
      -- behind an argument stands a comma or the closing parenthesis, and both stop its text
      have hstop : ∀ {xs : List (List Char)} {rest : List Char}, Begins Stop
          (if xs = [] then ')' :: rest
            else ',' :: ' ' :: ([',', ' '].intercalate xs ++ ')' :: rest)) := by
        intro xs rest
        split
        · exact begins_cons.mpr (.inr rfl)
        · exact begins_cons.mpr (.inl rfl)
      obtain ⟨hab, htail⟩ := hcancel a List.mem_cons_self b List.mem_cons_self _ _ hstop hstop h
      cases as with
      | nil =>
        cases bs with
        | nil => exact ⟨.cons hab .nil, (List.cons.inj htail).2⟩
        | cons b' bs => simp at htail
      | cons a' as =>
        cases bs with
        | nil => simp at htail
        | cons b' bs =>
          simp only [List.map_cons, List.cons_ne_nil, if_false, List.cons.injEq, true_and] at htail
          obtain ⟨hrest, heq⟩ := ih
            (fun x hx y hy => hcancel x (List.mem_cons_of_mem _ hx) y (List.mem_cons_of_mem _ hy))
            (fun x hx => ha x (List.mem_cons_of_mem _ hx))
            (fun y hy => hb y (List.mem_cons_of_mem _ hy)) htail
          exact ⟨.cons hab hrest, heq⟩

end Cancelling

section Injectivity

variable {g : Grammar K} {names names' : NameSupply} {S T : Scope K} {r r' : Renaming}
  {depth : Nat} {s t : Tree K}

theorem PlainName.not_mem_separators {x : String} (h : PlainName x) : ∀ c ∈ x.toList, c ∉ separators :=
  fun c hc => (h c hc).2.1

theorem toList_argsText (depth : Nat) (r : Renaming) (args? : Option (List (Arg K))) :
    (argsText depth r args?).toList =
      match args? with
      | none => []
      | some as => '(' :: ([',', ' '].intercalate (as.map fun a => (argText depth r a).toList) ++ [')']) := by
  cases args? with
  | none => rfl
  | some as => simp [argsText, Function.comp_def]

/-- A node is shown without separators. -/
theorem shownName_spec (hs : g.Derived names S s) (hplain : s.PlainNames) (hr : r.Shows depth S) :
    ∀ c ∈ (shownName r s.name s.kind).toList, c ∉ separators := by
  obtain ⟨-, hname, -, -, -⟩ := hplain
  cases hk : s.kind with
  | plain => exact PlainName.not_mem_separators (hname (by simp [hk]))
  | binder v => exact PlainName.not_mem_separators (hname (by simp [hk]))
  | variableUse =>
    have hmem := hs.name_mem_scope (Grammar.isVariableUse_iff_kind.mpr hk)
    obtain ⟨stem, level, outer, hstem, heq, -⟩ := hr.marks _ hmem
    intro c hc
    rw [shownName, heq] at hc
    exact mem_markText hstem hc

theorem toList_canonicalFrom (hs : g.Derived names S s) (hr : r.Shows depth S) (rest : List Char) :
    (s.canonicalFrom depth r).toList ++ rest =
      (shownName r s.name s.kind).toList ++ '<' :: (s.nonterminal.toList ++ '>' ::
        ((binderText depth s.kind).toList ++
          ((argsText (depth + 1) (entered depth r s.kind) s.args?).toList ++ rest))) := by
  rw [canonicalFrom_eq hs.fresh.distinctIn hr.keys]
  simp

/-- What is printed in one way below two nodes was introduced by both, or was so above. -/
theorem below_of_apply_eq {kind kind' : NodeKind K} (hr : r.Shows depth S) (hr' : r'.Shows depth T)
    (hstem : ∀ v, kind.introduced? = some v → PlainName v.stem)
    (hstem' : ∀ v, kind'.introduced? = some v → PlainName v.stem)
    (hrel : Option.Rel (fun v w => v.stem = w.stem) kind.introduced? kind'.introduced?)
    {x y : String} (hx : x ∈ (S.below kind).map (·.name)) (hy : y ∈ (T.below kind').map (·.name))
    (h : (entered depth r kind).apply x = (entered depth r' kind').apply y) :
    Matching.below (fun x y => r.apply x = r'.apply y) kind kind' x y := by
  rw [Scope.below_eq, List.map_append, List.mem_append] at hx hy
  rw [entered_apply, entered_apply] at h
  unfold Matching.below
  revert h hx hy hstem hstem' hrel
  generalize kind.introduced? = v?
  generalize kind'.introduced? = w?
  rintro hstem hstem' (_ | _) hx hy h
  · next v w hvw =>
    have hv := hstem v rfl
    have hw := hstem' w rfl
    -- A variable of the outer scope is printed with a depth that this one does not have.
    have hold : ∀ {r : Renaming} {S : Scope K}, r.Shows depth S → ∀ x ∈ S.map (·.name),
        ∀ stem, PlainName stem → r.apply x ≠ markText stem depth false := by
      intro r S hr x hx stem hplain heq
      obtain ⟨stem', level, outer, hplain', heq', hlevel⟩ := hr.marks x hx
      obtain ⟨-, rfl, rfl⟩ := markText_inj hplain' hplain (heq'.symm.trans heq)
      exact absurd (hlevel rfl) (Nat.lt_irrefl _)
    simp only at h
    by_cases hxv : x = v.name
    · by_cases hyw : y = w.name
      · exact .inl ⟨hxv, hyw⟩
      · rw [if_pos hxv, if_neg hyw] at h
        have hyT := hy.resolve_right (by simpa using hyw)
        exact absurd h.symm (hold hr' y hyT _ hv)
    · have hxS := hx.resolve_right (by simpa using hxv)
      by_cases hyw : y = w.name
      · rw [if_neg hxv, if_pos hyw] at h
        exact absurd h (hold hr x hxS _ hw)
      · rw [if_neg hxv, if_neg hyw] at h
        exact .inr ⟨hxv, hyw, h⟩
  · exact h

/-- Binders of one signature introduce the same variable, up to its name. -/
theorem sameUpToName_of_signature_eq (hdist : g.DistinctSignatures) (hs : g.Derived names S s)
    (ht : g.Derived names' T t) (hsig : s.signature = t.signature) {v w : Rule K}
    (hv : s.kind = .binder v) (hw : t.kind = .binder w) : v.SameUpToName w := by
  have hfixed : ∀ {names : NameSupply} {S : Scope K} {s : Tree K} {v : Rule K},
      g.Derived names S s → s.kind = .binder v → ∃ q ∈ g.table.rulesFor s.nonterminal,
        g.IsInstance q s := by
    intro names S s v hs hv
    obtain ⟨⟨q, hq, hinst⟩, -⟩ := Grammar.derives_iff.mp hs.derives
    rcases Grammar.mem_visibleRules.mp hq with hq | ⟨hq, -⟩
    · exact ⟨q, hq, hinst⟩
    · have huse := hinst.makes.isVariableUse_eq.mp (hs.wellNamed.isVariableUse q hq)
      rw [hv] at huse
      cases huse
  obtain ⟨q, hq, hinst⟩ := hfixed hs hv
  obtain ⟨q', hq', hinst'⟩ := hfixed ht hw
  have hnt : s.nonterminal = t.nonterminal := congrArg Signature.nonterminal hsig
  rw [← hnt] at hq'
  have heq : q.signature = q'.signature := by rw [hinst.signature_eq, hinst'.signature_eq, hsig]
  obtain rfl := List.inj_on_of_nodup_map (hdist.nodup_rulesFor _) hq hq' heq
  have hkinds : s.kind.VariantOver Eq s.name s.name t.kind :=
    hinst.makes.variantOver hinst'.makes (g.table.not_variableUse _ q hq)
  rw [hv, hw] at hkinds
  exact hkinds.2

/-- The text of an argument does not begin with a closing bracket. -/
theorem argText_eq_cons (hr : r.Shows depth S) {a : Arg K}
    (hsub : ∀ c, a = .subtree c → g.Derived names S c ∧ c.PlainNames)
    (hterm : ∀ x, a = .terminal x → PlainName x ∧ x ≠ "") :
    ∃ c cs, (argText depth r a).toList = c :: cs ∧ c ≠ ')' := by
  cases a with
  | subtree c =>
    obtain ⟨hc, hplain⟩ := hsub c rfl
    have htext := toList_canonicalFrom hc hr []
    have hshown := shownName_spec hc hplain hr
    rw [List.append_nil] at htext
    rw [argText, htext]
    cases hcs : (shownName r c.name c.kind).toList with
    | nil => exact ⟨'<', _, rfl, by decide⟩
    | cons d ds =>
      refine ⟨d, _, rfl, ?_⟩
      rintro rfl
      exact hshown ')' (by simp [hcs]) (by decide)
  | terminal x =>
    obtain ⟨hplain, hne⟩ := hterm x rfl
    rw [argText]
    cases hcs : x.toList with
    | nil => exact absurd (String.toList_eq_nil_iff.mp hcs) hne
    | cons d ds =>
      refine ⟨d, ds, rfl, ?_⟩
      rintro rfl
      exact PlainName.not_mem_separators hplain ')' (by simp [hcs]) (by decide)

/-- Texts of arguments can be read back if those of the subtrees among them can. -/
theorem argsText_cancel {R : Arg K → Arg K → Prop} {args? args?' : Option (List (Arg K))}
    (hcancel : ∀ a ∈ args?.getD [], ∀ b ∈ args?'.getD [], ∀ ys ys', Begins Stop ys →
      Begins Stop ys' → (argText depth r a).toList ++ ys = (argText depth r' b).toList ++ ys' →
        R a b ∧ ys = ys')
    (ha : ∀ a ∈ args?.getD [], ∃ c cs, (argText depth r a).toList = c :: cs ∧ c ≠ ')')
    (hb : ∀ b ∈ args?'.getD [], ∃ c cs, (argText depth r' b).toList = c :: cs ∧ c ≠ ')')
    {ys ys' : List Char} (hys : Begins Stop ys) (hys' : Begins Stop ys')
    (h : (argsText depth r args?).toList ++ ys = (argsText depth r' args?').toList ++ ys') :
    args?.isSome = args?'.isSome ∧ List.Forall₂ R (args?.getD []) (args?'.getD []) ∧ ys = ys' := by
  have hopen : ∀ {zs zs' : List Char}, Begins Stop zs → zs ≠ '(' :: zs' := by
    rintro zs zs' hzs rfl
    exact absurd (begins_cons.mp hzs) (by simp [Stop])
  rw [toList_argsText, toList_argsText] at h
  cases args? with
  | none =>
    cases args?' with
    | none => exact ⟨rfl, .nil, h⟩
    | some bs => exact absurd h (hopen hys)
  | some as =>
    cases args?' with
    | none => exact absurd h.symm (hopen hys')
    | some bs =>
      simp only [List.cons_append, List.append_assoc, List.cons.injEq, true_and] at h
      obtain ⟨hargs, hrest⟩ := args_cancel hcancel ha hb h
      exact ⟨rfl, hargs, hrest⟩

theorem begins_argsText (depth : Nat) (r : Renaming) (args? : Option (List (Arg K)))
    {ys : List Char} (hys : Begins Stop ys) :
    Begins (· ≠ ' ') ((argsText depth r args?).toList ++ ys) := by
  rw [toList_argsText]
  cases args? with
  | none =>
    intro c hc
    rcases hys c hc with rfl | rfl <;> decide
  | some as => exact begins_cons.mpr (by decide)

theorem subtree_text_ne (hs : g.Derived names S s) (ps : s.PlainNames) (hr : r.Shows depth S)
    {x : String} (hx : PlainName x) {ys ys' : List Char} (hys' : Begins Stop ys') :
    (s.canonicalFrom depth r).toList ++ ys ≠ x.toList ++ ys' := by
  intro h
  rw [toList_canonicalFrom hs hr] at h
  obtain ⟨-, hrest⟩ := append_cancel_begins h (P := (· ∈ separators)) (shownName_spec hs ps hr)
    (PlainName.not_mem_separators hx) (begins_cons.mpr (by decide)) (begins_separators hys')
  exact absurd (begins_cons.mp (hrest ▸ hys')) (by simp [Stop])

/-- A terminal can be read back if it ends where an argument may end. -/
theorem terminal_cancel {x y : String} (hx : PlainName x) (hy : PlainName y) {ys ys' : List Char}
    (hys : Begins Stop ys) (hys' : Begins Stop ys') (h : x.toList ++ ys = y.toList ++ ys') :
    x = y ∧ ys = ys' := by
  obtain ⟨hxy, hrest⟩ := append_cancel_begins h (P := (· ∈ separators))
    (PlainName.not_mem_separators hx) (PlainName.not_mem_separators hy) (begins_separators hys)
    (begins_separators hys')
  exact ⟨String.toList_inj.mp hxy, hrest⟩

/-- Nodes that show the same name and the same variable correspond to each other. -/
theorem headOver_of_text (hdist : g.DistinctSignatures) (hs : g.Derived names S s)
    (ht : g.Derived names' T t) (hname : s.kind ≠ .variableUse → PlainName s.name)
    (hname' : t.kind ≠ .variableUse → PlainName t.name) (hr : r.Shows depth S)
    (hr' : r'.Shows depth T) (hnt : s.nonterminal = t.nonterminal)
    (hshown : shownName r s.name s.kind = shownName r' t.name t.kind)
    (hbinder : s.kind.introduced?.isSome = t.kind.introduced?.isSome)
    (hsymbols : s.args?.map (·.map Arg.symbol) = t.args?.map (·.map Arg.symbol)) :
    HeadOver (fun x y => r.apply x = r'.apply y) s t := by
  -- a printed variable is never a plain name, so uses of variables are not taken for other nodes
  have hmark : ∀ {names : NameSupply} {S : Scope K} {s : Tree K} {r : Renaming},
      g.Derived names S s → r.Shows depth S → s.kind = .variableUse → ¬ PlainName (r.apply s.name) := by
    intro names S s r hs hr hk hplain
    obtain ⟨stem, level, outer, -, heq, -⟩ :=
      hr.marks _ (hs.name_mem_scope (Grammar.isVariableUse_iff_kind.mpr hk))
    exact markText_ne_of_plain hplain heq.symm
  refine ⟨hnt, ?_, by simpa using congrArg Option.isSome hsymbols⟩
  cases hk : s.kind with
  | plain =>
    cases hk' : t.kind with
    | plain =>
      rw [hk, hk'] at hshown
      exact hshown
    | binder w => simp [hk, hk', NodeKind.introduced?] at hbinder
    | variableUse =>
      simp only [hk, hk', shownName] at hshown
      exact hmark ht hr' hk' (hshown ▸ hname (by simp [hk]))
  | binder v =>
    cases hk' : t.kind with
    | plain => simp [hk, hk', NodeKind.introduced?] at hbinder
    | binder w =>
      have heq : s.name = t.name := by simpa [hk, hk', shownName] using hshown
      have hsig : s.signature = t.signature := by
        unfold signature
        rw [hnt, heq, hsymbols]
      exact ⟨heq, sameUpToName_of_signature_eq hdist hs ht hsig hk hk'⟩
    | variableUse => simp [hk, hk', NodeKind.introduced?] at hbinder
  | variableUse =>
    cases hk' : t.kind with
    | plain =>
      simp only [hk, hk', shownName] at hshown
      exact hmark hs hr hk (hshown ▸ hname' (by simp [hk']))
    | binder w => simp [hk, hk', NodeKind.introduced?] at hbinder
    | variableUse =>
      rw [hk, hk'] at hshown
      exact hshown

/-- A canonical text within a longer one can be read back, up to the names that it does not show. -/
theorem variantOver_of_text (hdist : g.DistinctSignatures) (hs : g.Derived names S s)
    (ht : g.Derived names' T t) (ps : s.PlainNames) (pt : t.PlainNames) (hr : r.Shows depth S)
    (hr' : r'.Shows depth T) {ys ys' : List Char} (hys : Begins Stop ys) (hys' : Begins Stop ys')
    (h : (s.canonicalFrom depth r).toList ++ ys = (t.canonicalFrom depth r').toList ++ ys') :
    s.VariantOver (fun x y => r.apply x = r'.apply y) t ∧ ys = ys' := by
  induction s using Tree.induction generalizing depth r r' S T t ys ys' with
  | node nt name kind args? ih =>
    rw [toList_canonicalFrom hs hr, toList_canonicalFrom ht hr'] at h
    have hshown := shownName_spec hs ps hr
    have hshown' := shownName_spec ht pt hr'
    obtain ⟨hnt, hname, hstem, hterm, hargs⟩ := ps
    obtain ⟨hnt', hname', hstem', hterm', hargs'⟩ := pt
    have hbelow := hr.entered hstem
    have hbelow' := hr'.entered hstem'
    obtain ⟨hnames, hnts, hrest⟩ := heading_cancel hshown hshown'
      (PlainName.not_mem_separators hnt) (PlainName.not_mem_separators hnt') h
    obtain ⟨hstems, hrest⟩ := binderText_cancel hstem hstem' (begins_argsText _ _ _ hys)
      (begins_argsText _ _ _ hys') hrest
    -- the text of a subtree is never that of a terminal, so the arguments are read off one by one
    have hcancel : ∀ a ∈ args?.getD [], ∀ b ∈ t.args?.getD [], ∀ zs zs', Begins Stop zs →
        Begins Stop zs' →
        (argText (depth + 1) (entered depth r kind) a).toList ++ zs =
          (argText (depth + 1) (entered depth r' t.kind) b).toList ++ zs' →
        a.VariantOver (fun x y => (entered depth r kind).apply x =
          (entered depth r' t.kind).apply y) b ∧ zs = zs' := by
      intro a ha b hb zs zs' hzs hzs' heq
      cases a with
      | subtree c =>
        cases b with
        | subtree d =>
          obtain ⟨hcd, hzz⟩ := ih c ha (hs.child ha) (ht.child hb) (hargs c ha) (hargs' d hb) hbelow
            hbelow' hzs hzs' heq
          exact ⟨.subtree hcd, hzz⟩
        | terminal x =>
          exact absurd heq (subtree_text_ne (hs.child ha) (hargs c ha) hbelow (hterm' x hb).1 hzs')
      | terminal x =>
        cases b with
        | subtree d =>
          exact absurd heq.symm
            (subtree_text_ne (ht.child hb) (hargs' d hb) hbelow' (hterm x ha).1 hzs)
        | terminal y =>
          obtain ⟨rfl, hzz⟩ := terminal_cancel (hterm x ha).1 (hterm' y hb).1 hzs hzs' heq
          exact ⟨.terminal x, hzz⟩
    obtain ⟨hsome, hforall, hend⟩ := argsText_cancel hcancel
      (fun a ha => argText_eq_cons hbelow (fun c hc => ⟨hs.child (hc ▸ ha), hargs c (hc ▸ ha)⟩)
        fun x hx => hterm x (hx ▸ ha))
      (fun b hb => argText_eq_cons hbelow' (fun c hc => ⟨ht.child (hc ▸ hb), hargs' c (hc ▸ hb)⟩)
        fun x hx => hterm' x (hx ▸ hb)) hys hys' hrest
    have hbinder : kind.introduced?.isSome = t.kind.introduced?.isSome := isSome_eq_of_rel hstems
    have hhead := headOver_of_text hdist hs ht hname hname' hr hr' (String.toList_inj.mp hnts)
      (String.toList_inj.mp hnames) hbinder (map_args_eq hsome (symbols_eq_of_forall₂ hforall))
    refine ⟨variantOver_iff.mpr ⟨hhead, forall₂_imp_of_mem hforall fun a ha b hb hab => ?_⟩, hend⟩
    cases hab with
    | terminal x => exact .terminal x
    | subtree hcd =>
      refine .subtree (hcd.imp fun x hx y hy hxy => ?_)
      exact below_of_apply_eq hr hr' hstem hstem' hstems ((hs.child ha).mem_scope_of_mem_freeUses hx)
        ((ht.child hb).mem_scope_of_mem_freeUses hy) hxy

end Injectivity

end Tree

end ScopedGrammar
