import ScopedGrammar.Proofs.Text.Marks
import ScopedGrammar.Proofs.Text.Template
import ScopedGrammar.Proofs.Tree.Structure

/-!
# Expressions within a tree

The expression of a tree is put together from those of its subtrees, each rendered at its place: at
its depth, and with the printed names that the way to it has left. A node that is a template shows
what its arguments are rendered to as long as they disturb no mark. If every percent sign in a tree
belongs to a mark that has an argument, none is left in any of its expressions.
-/
namespace ScopedGrammar.Tree

variable {K : Type}

/-- The printed names that are in use where the subtree at a place is rendered. What an earlier
argument introduces has been forgotten by then. -/
def namesAt (depth : ℕ) (r : Renaming) : Tree K → Place → Renaming
  | _, [] => r
  | t, i :: p =>
      match t.child? i with
      | some c => namesAt (depth + 1)
          ((entered depth r t.kind).without (introducedNamesArgs (t.args.take i))) c p
      | none => r

/-- The expression of the subtree at a place, as part of that of the tree. -/
def expressionAt (t : Tree K) (p : Place) : Option String :=
  (t.get? p).map fun n => n.renderFrom p.length (namesAt 0 [] t p)

/-- What an argument of the node at a place is shown as: the expression of a subtree at its place,
or a terminal as it is. -/
def argumentAt (t : Tree K) (p : Place) (i : ℕ) : Option String :=
  (t.get? p).bind fun n => n.args[i]?.bind fun
    | .subtree _ => t.expressionAt (p ++ [i])
    | .terminal s => some s

/-- The arguments of a node `n` as they are shown, if it stands at the place. -/
def textsAt (t : Tree K) (p : Place) (n : Tree K) : List String :=
  renderArgs (p.length + 1) (entered p.length (namesAt 0 [] t p) n.kind) n.args

variable {t c n : Tree K} {p q : Place} {as : List (Arg K)} {r : Renaming} {depth i : ℕ}

section Parts

@[simp] theorem namesAt_nil (depth : ℕ) (r : Renaming) (t : Tree K) : namesAt depth r t [] = r := by
  cases t; rfl

theorem namesAt_cons (hc : t.child? i = some c) (depth : ℕ) (r : Renaming) (p : Place) :
    namesAt depth r t (i :: p) = namesAt (depth + 1)
      ((entered depth r t.kind).without (introducedNamesArgs (t.args.take i))) c p := by
  cases t
  simp [namesAt, hc]

theorem namesAt_append (hn : t.get? p = some n) (depth : ℕ) (r : Renaming) (q : Place) :
    namesAt depth r t (p ++ q) = namesAt (depth + p.length) (namesAt depth r t p) n q := by
  induction p generalizing t depth r with
  | nil =>
    obtain rfl : t = n := by simpa using hn
    simp
  | cons i p ih =>
    obtain ⟨c, hc, hcn⟩ := get?_cons_eq_some.mp hn
    rw [List.cons_append, namesAt_cons hc, namesAt_cons hc, ih hcn, List.length_cons,
      show depth + 1 + p.length = depth + (p.length + 1) by omega]

theorem Renaming.without_append (r : Renaming) (names names' : List String) :
    (r.without names).without names' = r.without (names ++ names') := by
  unfold Renaming.without
  rw [List.filter_filter]
  refine List.filter_congr fun pair _ => ?_
  rw [List.contains_append, Bool.not_or, Bool.and_comm]

/-- The arguments are rendered in their order, and what an argument introduces is forgotten behind
it. -/
theorem getElem?_renderArgs (depth : ℕ) (r : Renaming) (as : List (Arg K)) (i : ℕ) :
    (renderArgs depth r as)[i]? = as[i]?.map fun
      | .subtree t => t.renderFrom depth (r.without (introducedNamesArgs (as.take i)))
      | .terminal s => s := by
  induction as generalizing r i with
  | nil => rfl
  | cons a as ih =>
    cases a with
    | terminal s =>
      cases i with
      | zero => rfl
      | succ i =>
        rw [renderArgs, List.getElem?_cons_succ, List.getElem?_cons_succ, ih]
        rfl
    | subtree t =>
      rw [renderArgs_subtree]
      cases i with
      | zero => simp [introducedNamesArgs, Renaming.without]
      | succ i =>
        rw [List.getElem?_cons_succ, List.getElem?_cons_succ, ih]
        simp only [Renaming.without_append, List.take_succ_cons, introducedNamesArgs]

theorem getElem?_textsAt (hn : t.get? p = some n) (i : ℕ) :
    (t.textsAt p n)[i]? = t.argumentAt p i := by
  rw [textsAt, getElem?_renderArgs, argumentAt, hn, Option.bind_some]
  cases ha : n.args[i]? with
  | none => rfl
  | some a =>
    cases a with
    | terminal s => rfl
    | subtree c =>
      have hc : n.child? i = some c := child?_eq_some.mpr ha
      rw [Option.map_some, Option.bind_some, expressionAt, get?_concat hn hc, Option.map_some,
        namesAt_append hn, namesAt_cons hc, namesAt_nil, Nat.zero_add, List.length_append]
      rfl

theorem expressionAt_nil (t : Tree K) : t.expressionAt [] = some t.render := by
  simp [expressionAt, render]

end Parts

section PercentSigns

open Template

/-- Every percent sign of a node belongs to a mark, and every mark has an argument. -/
structure TidyNode (n : Tree K) : Prop where
  outside : ∀ piece ∈ pieces n.name.toList, '%' ∉ piece
  marks : (pieces n.name.toList).length ≤ n.args.length + 1
  terminals : ∀ s, .terminal s ∈ n.args → '%' ∉ s.toList
  stem : ∀ v, n.introduced? = some v → '%' ∉ v.stem.toList

/-- Every node of the tree is tidy. -/
def Tidy (t : Tree K) : Prop := ∀ p n, t.get? p = some n → n.TidyNode

theorem Tidy.root (h : t.Tidy) : t.TidyNode := h [] t (get?_nil t)

theorem Tidy.at_place (h : t.Tidy) (hn : t.get? p = some n) : n.Tidy :=
  fun q m hm => h (p ++ q) m (get?_trans hn hm)

theorem Tidy.child (h : t.Tidy) (hc : .subtree c ∈ t.args) : c.Tidy := by
  obtain ⟨i, hi⟩ := List.getElem?_of_mem hc
  exact h.at_place (get?_concat (get?_nil t) (child?_eq_some.mpr hi))

/-- No printed name has a percent sign. -/
def Unmarked (r : Renaming) : Prop := ∀ pair ∈ r, '%' ∉ pair.2.toList

theorem Unmarked.without (hr : Unmarked r) (names : List String) : Unmarked (r.without names) :=
  fun pair hpair => hr pair (List.mem_of_mem_filter hpair)

theorem not_mem_displayName {v : Rule K} (hv : '%' ∉ v.stem.toList) (depth : ℕ) :
    '%' ∉ (displayName v depth).toList := by
  rw [displayName, String.toList_append, List.mem_append, not_or]
  exact ⟨hv, fun hdigit => absurd (isDigit_of_mem_toString hdigit) (by decide)⟩

theorem TidyNode.ownName (h : t.TidyNode) (depth : ℕ) :
    ∀ own ∈ ownName depth t.kind, '%' ∉ own.toList := by
  have hstem := h.stem
  rw [introduced?_eq] at hstem
  cases hkind : t.kind with
  | binder v =>
    rintro own ⟨⟩
    exact not_mem_displayName (hstem v (by rw [hkind]; rfl)) depth
  | plain => rintro own ⟨⟩
  | variableUse => rintro own ⟨⟩

theorem Unmarked.entered (hr : Unmarked r) (h : t.TidyNode) (depth : ℕ) :
    Unmarked (entered depth r t.kind) := by
  have hown := h.ownName depth
  cases hkind : t.kind with
  | binder v =>
    rintro pair (- | hpair)
    · exact hown _ (by rw [hkind]; rfl)
    · exact hr pair (by assumption)
  | plain => exact hr
  | variableUse => exact hr

theorem Unmarked.shownName (hr : Unmarked r) (name : String) (kind : NodeKind K) :
    shownName r name kind = name ∨ '%' ∉ (Tree.shownName r name kind).toList := by
  cases kind with
  | plain => exact .inl rfl
  | binder v => exact .inl rfl
  | variableUse =>
    change r.apply name = name ∨ '%' ∉ (r.apply name).toList
    unfold Renaming.apply
    cases h : r.lookup name with
    | none => exact .inl rfl
    | some shown =>
      obtain ⟨before, after, rfl, -⟩ := List.lookup_eq_some_iff.mp h
      exact .inr (hr (name, shown) (by simp))

theorem mem_replaceAllChars {pattern filling text : List Char} {skip : ℕ} {x : Char}
    (h : x ∈ Text.replaceAllChars pattern filling skip text) : x ∈ text ∨ x ∈ filling := by
  induction text generalizing skip with
  | nil => cases skip <;> exact .inl h
  | cons c cs ih =>
    have hlater {skip : ℕ} (hx : x ∈ Text.replaceAllChars pattern filling skip cs) :
        x ∈ c :: cs ∨ x ∈ filling := (ih hx).imp_left (List.mem_cons_of_mem c)
    cases skip with
    | succ skip => exact hlater h
    | zero =>
      rw [Text.replaceAllChars] at h
      split at h
      · rcases List.mem_append.mp h with h | h
        · exact .inr h
        · exact hlater h
      · rcases List.mem_cons.mp h with rfl | h
        · exact .inl List.mem_cons_self
        · exact hlater h

theorem not_mem_markVariable {own : Option String} {text : String} {x : Char}
    (hown : ∀ v ∈ own, x ∉ v.toList) (htext : x ∉ text.toList) :
    x ∉ (markVariable own text).toList := by
  cases own with
  | none => exact htext
  | some v =>
    intro hx
    rw [markVariable, Text.replaceAll, String.toList_ofList] at hx
    exact (mem_replaceAllChars hx).elim htext (hown v rfl)

theorem not_mem_intercalate {separator : String} {texts : List String} {x : Char}
    (hseparator : x ∉ separator.toList) (htexts : ∀ a ∈ texts, x ∉ a.toList) :
    x ∉ (separator.intercalate texts).toList := by
  rw [String.toList_intercalate]
  induction texts with
  | nil => simp
  | cons a texts ih =>
    have ha := htexts a List.mem_cons_self
    have hrest := ih fun b hb => htexts b (List.mem_cons_of_mem a hb)
    cases texts with
    | nil => simpa using ha
    | cons b texts =>
      rw [List.map_cons, List.map_cons, List.intercalate_cons_cons]
      simp only [List.map_cons] at hrest
      simp [ha, hseparator, hrest]

/-- The expression of a node has no percent sign if its name has none outside of the marks of its
arguments, and nothing else that is shown has one. -/
theorem not_mem_expressionOf {name shown : String} {own : Option String} {texts : List String}
    (hpieces : ∀ piece ∈ pieces name.toList, '%' ∉ piece)
    (hmarks : (pieces name.toList).length ≤ texts.length + 1)
    (hshown : shown = name ∨ '%' ∉ shown.toList) (hown : ∀ v ∈ own, '%' ∉ v.toList)
    (htexts : ∀ a ∈ texts, '%' ∉ a.toList) :
    '%' ∉ (expressionOf name shown own texts).toList := by
  have hfilled : '%' ∉ (fillTemplate shown texts).toList := by
    rcases hshown with rfl | hshown
    · rw [fillTemplate_eq_filled (undisturbed_of_not_mem hpieces fun a ha => htexts a
        (List.mem_of_mem_dropLast ha)), filled, String.toList_ofList]
      exact not_mem_interleave hpieces (by simpa using htexts) (by simpa using hmarks)
    · rwa [toList_fillTemplate, fill_of_not_infix fun h => hshown (h.subset (by simp [mark]))]
  have hcall : ¬ Text.contains name argumentMark = true → '%' ∉ shown.toList := by
    intro hnone
    refine hshown.elim (fun heq => heq ▸ hpieces _ ?_) id
    rw [pieces_eq_singleton fun h => hnone (Text.occurs_iff.mpr h)]
    exact List.mem_singleton_self _
  unfold expressionOf
  split
  · exact htexts _ List.mem_cons_self
  · split
    · exact hfilled
    · next hnone =>
      split
      · have ha := htexts _ List.mem_cons_self
        have hvariable : '%' ∉ (own.getD "").toList := by
          cases own with
          | none => simp
          | some v => exact hown v rfl
        simp [ha, hvariable]
      · have hlist : '%' ∉ (", ".intercalate texts).toList := not_mem_intercalate (by simp) htexts
        simp only [String.toList_append, List.mem_append, not_or]
        exact ⟨⟨⟨hcall hnone, by simp⟩, hlist⟩, by simp⟩

theorem renderFrom_node (depth : ℕ) (r : Renaming) (t : Tree K) :
    t.renderFrom depth r = markVariable (ownName depth t.kind)
      (if t.args?.isSome then expressionOf t.name (shownName r t.name t.kind) (ownName depth t.kind)
          (renderArgs (depth + 1) (entered depth r t.kind) t.args)
        else shownName r t.name t.kind) := by
  obtain ⟨nt, name, kind, args?⟩ := t
  cases args? <;> rfl

theorem not_mem_renderArgs {x : Char} {as : List (Arg K)}
    (hterminals : ∀ s, .terminal s ∈ as → x ∉ s.toList)
    (hsubtrees : ∀ t, .subtree t ∈ as → ∀ r, Unmarked r → x ∉ (t.renderFrom depth r).toList)
    (hr : Unmarked r) : ∀ a ∈ renderArgs depth r as, x ∉ a.toList := by
  intro a ha
  obtain ⟨i, hi⟩ := List.getElem?_of_mem ha
  rw [getElem?_renderArgs, Option.map_eq_some_iff] at hi
  obtain ⟨arg, harg, rfl⟩ := hi
  have hmem := List.mem_of_getElem? harg
  cases arg with
  | terminal s => exact hterminals s hmem
  | subtree t => exact hsubtrees t hmem _ (hr.without _)

theorem length_renderArgs (depth : ℕ) (r : Renaming) (as : List (Arg K)) :
    (renderArgs depth r as).length = as.length := by
  induction as generalizing r with
  | nil => rfl
  | cons a as ih =>
    cases a with
    | terminal s => rw [renderArgs, List.length_cons, List.length_cons, ih]
    | subtree t => rw [renderArgs_subtree, List.length_cons, List.length_cons, ih]

/-- No percent sign is left in an expression of a tidy tree. -/
theorem Tidy.not_mem_renderFrom (h : t.Tidy) (hr : Unmarked r) (depth : ℕ) :
    '%' ∉ (t.renderFrom depth r).toList := by
  induction t using induction generalizing depth r with
  | node nt name kind args? ih =>
    have hroot := h.root
    have hargs : ∀ a ∈ renderArgs (depth + 1) (entered depth r kind) (args?.getD []),
        '%' ∉ a.toList :=
      not_mem_renderArgs hroot.terminals (fun c hc r hr => ih c hc (h.child hc) hr (depth + 1))
        (hr.entered hroot depth)
    have hshown := hr.shownName name kind
    rw [renderFrom_node]
    refine not_mem_markVariable (hroot.ownName depth) ?_
    split
    · refine not_mem_expressionOf hroot.outside ?_ hshown (hroot.ownName depth) hargs
      rw [length_renderArgs]
      exact hroot.marks
    · next hnone =>
      obtain rfl : args? = none := by simpa using hnone
      refine hshown.elim (fun heq => ?_) id
      have hname : '%' ∉ interleave (pieces name.toList) [] :=
        not_mem_interleave hroot.outside (by simp) hroot.marks
      rw [interleave_pieces] at hname
      rwa [name_node, kind_node, heq]

end PercentSigns

open Template

section Templates

theorem Tidy.unmarked_namesAt (h : t.Tidy) (hr : Unmarked r) (depth : ℕ) (p : Place) :
    Unmarked (namesAt depth r t p) := by
  induction p generalizing t depth r with
  | nil => rwa [namesAt_nil]
  | cons i p ih =>
    cases hc : t.child? i with
    | none =>
      cases t
      rwa [namesAt, hc]
    | some c =>
      rw [namesAt_cons hc]
      exact ih (h.child (mem_args_of_child? hc)) ((hr.entered h.root depth).without _) (depth + 1)

theorem Tidy.not_mem_textsAt (h : t.Tidy) (hn : t.get? p = some n) :
    ∀ a ∈ t.textsAt p n, '%' ∉ a.toList := by
  have htidy := h.at_place hn
  have hnames : Unmarked (namesAt 0 [] t p) := h.unmarked_namesAt (by simp [Unmarked]) 0 p
  exact not_mem_renderArgs htidy.root.terminals
    (fun c hc r hr => (htidy.child hc).not_mem_renderFrom hr _) (hnames.entered htidy.root _)

theorem expressionAt_eq_fillTemplate (hn : t.get? p = some n) (hkind : n.kind = .plain)
    (hsome : n.args?.isSome = true) (hmark : Text.contains n.name argumentMark = true) :
    t.expressionAt p = some (fillTemplate n.name (t.textsAt p n)) := by
  have hname : n.name ≠ "" := by
    intro hempty
    rw [hempty] at hmark
    exact absurd hmark (by decide)
  rw [expressionAt, hn, Option.map_some, renderFrom_node, if_pos hsome, hkind]
  change some (expressionOf n.name n.name none _) = _
  unfold expressionOf
  split
  · next hempty _ => exact absurd hempty hname
  · rw [if_pos hmark, textsAt, hkind]

/-- A plain template shows each of its arguments in the mark of its own and as it is, if the
arguments before it put no mark in front of that, as is so in a tidy tree. The first argument that
finds a mark in front of its own is put there, and the arguments after it go on from there. -/
theorem expressionAt_template (hn : t.get? p = some n) (hkind : n.kind = .plain)
    (has : n.args? = some as) (hmark : Text.contains n.name argumentMark = true) :
    interleave (pieces n.name.toList) [] = n.name.toList ∧
      (∀ piece ∈ pieces n.name.toList, ¬ mark <:+: piece) ∧
      t.expressionAt [] = some t.render ∧
      ∃ texts : List String, texts.length = as.length ∧ (∀ i, texts[i]? = t.argumentAt p i) ∧
        (Undisturbed n.name texts → t.expressionAt p = some (filled n.name texts)) ∧
        (t.Tidy → Undisturbed n.name texts) ∧
        ∀ k a, texts[k]? = some a → mark <:+: lead n.name texts k →
          (∀ j < k, ¬ mark <:+: lead n.name texts j) →
          ∃ before after, lead n.name texts k = before ++ mark ++ after ∧ ¬ mark <:+: before ∧
            t.expressionAt p = some (fillTemplate
              (String.ofList (before ++ a.toList ++ after ++ fromMark (pieces n.name.toList) k))
              (texts.drop (k + 1))) := by
  have hargs : n.args = as := by rw [args, has]; rfl
  have hfill := expressionAt_eq_fillTemplate hn hkind (by rw [has]; rfl) hmark
  refine ⟨interleave_pieces _, fun piece => not_infix_of_mem_pieces, expressionAt_nil t, t.textsAt p n,
    by rw [textsAt, length_renderArgs, hargs], getElem?_textsAt hn, fun h => ?_, fun h => ?_, ?_⟩
  · rw [hfill, fillTemplate_eq_filled h]
  · exact undisturbed_of_not_mem (h p n hn).outside fun a ha =>
      h.not_mem_textsAt hn a (List.mem_of_mem_dropLast ha)
  · intro k a ha hmark hbefore
    obtain ⟨before, after, heq, hnone, hput⟩ := fillTemplate_of_infix ha hmark hbefore
    exact ⟨before, after, heq, hnone, by rw [hfill, hput]⟩

/-- A sum below a binder shows the printed name of the variable and a terminal. -/
theorem expressionAt_template_sum :
    let v : Rule ℕ := ⟨"T", "v", none, 1, .variableUse "y"⟩
    let sum : Tree ℕ := .node "T" "%s + %s" .plain
      (some [.subtree (.node "T" "v" .variableUse none), .terminal "one"])
    let scope : Tree ℕ := .node "T" "let <BV> in %s" (.binder v) (some [.subtree sum])
    scope.get? [0] = some sum ∧ Text.contains sum.name argumentMark = true ∧
      scope.expressionAt [0] = some "y0 + one" ∧ scope.render = "let y0 in y0 + one" := by
  intro v sum scope
  have hget : scope.get? [0] = some sum := rfl
  have hmark : Text.contains sum.name argumentMark = true := by decide
  obtain ⟨-, -, -, texts, hlength, htexts, hfilled, -⟩ := expressionAt_template hget rfl rfl hmark
  obtain ⟨a, b, rfl⟩ := List.length_eq_two.mp hlength
  obtain rfl : "y0" = a := Option.some.inj (htexts 0).symm
  obtain rfl : "one" = b := Option.some.inj (htexts 1).symm
  have hundisturbed : Undisturbed sum.name ["y0", "one"] :=
    undisturbed_of_not_mem (by decide) (by decide)
  have hsum : filled sum.name ["y0", "one"] = "y0 + one" := by decide
  exact ⟨hget, hmark, hsum ▸ hfilled hundisturbed, by decide⟩

/-- A text with a mark takes the argument after it, whose own mark is left open. -/
theorem render_ne_filled_pair :
    let quoted : Tree ℕ := .node "T" "'%s'" .plain none
    let constant : Tree ℕ := .node "T" "x" .plain none
    let pair : Tree ℕ := .node "T" "pair(%s, %s)" .plain (some [.subtree quoted, .subtree constant])
    pair.argumentAt [] 0 = some "'%s'" ∧ pair.argumentAt [] 1 = some "x" ∧
      filled "pair(%s, %s)" ["'%s'", "x"] = "pair('%s', x)" ∧
      pair.render = "pair('x', %s)" ∧ pair.render ≠ filled "pair(%s, %s)" ["'%s'", "x"] := by
  refine ⟨?_, ?_, ?_, ?_, ?_⟩ <;> decide

end Templates

end ScopedGrammar.Tree
