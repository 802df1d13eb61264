import ScopedGrammar.Proofs.Grammar.Outcomes
import ScopedGrammar.Proofs.Grammar.Replacement
import ScopedGrammar.Proofs.Move.Kernel

/-!
# What moves keep

Whatever a kernel makes of a derivable tree is derivable again and expands the same nonterminal: a
generated subtree has names of its own, a promoted argument does not use the variable that is
dropped, an inserted node is above a subtree that was there before, and a copy is put only where its
variables are visible. Nothing is asked of the weights that a kernel draws by, or of their number
type.
-/
namespace ScopedGrammar

open ScopedGrammar.Tree

variable {K : Type} {g : Grammar K} {s s' : NameSupply} {x x' m r : Tree K} {p : Place}

namespace Grammar

theorem Derivable.mono (h : g.Derivable s x) (hle : s.issued ≤ s'.issued) : g.Derivable s' x :=
  ⟨h.toDerived.mono hle, h.terminals⟩

theorem Derivable.plainVariables (h : g.Derivable s x) (hplain : g.PlainNames)
    (hm : x.get? p = some m) : ∀ v ∈ x.variablesAbove p, g.PlainVariable v := by
  simpa using h.toDerived.plainVariables_above hplain (by simp) hm

/-- What a move keeps of a tree: it comes to a derivable tree of the same nonterminal, and to a
complete one if the tree was complete. -/
structure Kept (g : Grammar K) (x : Tree K) (t : Tree K) (s : NameSupply) : Prop where
  derivable : g.Derivable s t
  nonterminal_eq : t.nonterminal = x.nonterminal
  complete : g.Complete x → g.Complete t

/-- An edit keeps a tree derivable if what it puts in is derived in the scope of the place and has
names that are old or new. -/
theorem Derivable.edit (h : g.Derivable s x) (hle : s.issued ≤ s'.issued)
    (hm : x.get? p = some m) (hr : g.Derived s' (x.variablesAbove p) r)
    (hnt : r.nonterminal = m.nonterminal)
    (hnew : ∀ z ∈ r.introducedNames, z ∈ m.introducedNames ∨ ¬ s.Issued z)
    (hterm : r.NonemptyTerminals) (hcomplete : g.Complete x → g.Complete r)
    (hx' : x.replace? p r = some x') : g.Kept x x' s' := by
  refine ⟨⟨h.toDerived.replace? hle hm (by simpa using hr) hnt hnew hx', ?_⟩, ?_, fun hx => ?_⟩
  · exact h.terminals.replace? hterm hx'
  · exact Tree.nonterminal_replace? hm hnt hx'
  · exact hx.replace? hm (hcomplete hx) hnt hx'

end Grammar

section Sites

variable [Scalar K] {weight : Place → Tree K → K}

theorem Tree.leads_drawSite (s : NameSupply) : (x.drawSite weight).Leads s fun site s' => s' = s ∧
    ∀ y, site = some y → x.get? y.1 = some y.2.1 := by
  unfold drawSite
  split
  · refine Sampler.Leads.weightedChoice.bind fun site s' _ hsite => ?_
    obtain ⟨rfl, hmem⟩ := hsite
    refine .pure ⟨rfl, fun y hy => ?_⟩
    obtain ⟨z, hz, rfl⟩ := Option.map_eq_some_iff.mp hy
    exact mem_subnodes.mp (hmem z hz)
  · exact .pure ⟨rfl, by simp⟩

theorem Tree.leads_of_sites {P : Tree K → NameSupply → Prop}
    {f : Option (Place × Tree K × K) → Sampler K (Tree K)} (hnone : (f none).Leads s P)
    (hsome : ∀ p m l, x.get? p = some m → (f (some (p, m, l))).Leads s P) :
    (x.drawSite weight >>= f).Leads s P := by
  refine (leads_drawSite s).bind fun site s' _ hsite => ?_
  obtain ⟨rfl, hget⟩ := hsite
  cases site with
  | none => exact hnone
  | some y => exact hsome y.1 y.2.1 y.2.2 (hget y rfl)

end Sites

theorem Regeneration.leads_derived [Scalar K] {w : SiteWeights K} (hx : g.Derived s [] x) :
    (propose g w x).Leads s fun t s' => g.Derived s' [] t := by
  refine leads_of_sites .throw fun p m l hm => ?_
  have hdm := hx.at_place hm
  refine (Grammar.leads_generateIn hdm.wellNamed).bind fun r s' hle hr => ?_
  obtain ⟨hnt, -, hnames, hderived⟩ := hr
  refine .getOrFail fun x' hx' => ?_
  refine hx.replace? hle hm hderived hnt (fun z hz => .inr ?_) hx'
  exact NameSupply.not_issued_of_mem_taken (hnames ▸ hz)

theorem Regeneration.leads_propose [Scalar K] {w : SiteWeights K} (hplain : g.PlainNames)
    (hx : g.Derivable s x) :
    (propose g w x).Leads s (g.Kept x) := by
  refine leads_of_sites .throw fun p m l hm => ?_
  have hdm := hx.derived_at hm
  refine (Grammar.leads_generateIn hdm.wellNamed).bind fun r s' hle hr => ?_
  obtain ⟨hnt, hcomplete, hnames, hderived⟩ := hr
  refine .getOrFail fun x' hx' => ?_
  refine hx.edit hle hm hderived hnt (fun z hz => .inr ?_) ?_ (fun _ => hcomplete) hx'
  · exact NameSupply.not_issued_of_mem_taken (hnames ▸ hz)
  · exact hderived.nonemptyTerminals hplain (hx.plainVariables hplain hm) hcomplete

/-- A promoted argument keeps a tree derivable. -/
theorem Deletion.kept_of_promoted (hx : g.Derivable s x) (hm : x.get? p = some m) {i : ℕ}
    (hi : i ∈ promotableSlots m) {c : Tree K} (hci : m.child? i = some c)
    (hx' : x.replace? p c = some x') : g.Kept x x' s := by
  obtain ⟨d, hd, hnt, hfree⟩ := mem_promotableSlots.mp hi
  obtain rfl : c = d := Option.some.inj (hci.symm.trans hd)
  have hdm := hx.derived_at hm
  have hchild := hdm.child (mem_args_of_child? hd)
  rw [Scope.below_kind] at hchild
  have hderived : g.Derived s (x.variablesAbove p) c := by
    refine hchild.rescope (Nat.le_refl _) hdm.wellNamed (fun v hv huse => ?_) fun z hz => ?_
    · rw [List.mem_append, Option.mem_toList] at hv
      exact hv.resolve_right fun hv => hfree v hv huse
    · have hdisjoint := hchild.fresh.disjoint z hz
      rw [List.map_append, List.mem_append, not_or] at hdisjoint
      exact hdisjoint.1
  have hget : m.get? [i] = some c := by simp [hd]
  refine hx.edit (Nat.le_refl _) hm hderived hnt (fun z hz => .inl ?_) ?_ (fun hcomplete => ?_) hx'
  · exact (sublist_introducedNames hget).subset hz
  · exact (hx.terminals.at_place hm).at_place hget
  · exact (hcomplete.at_place hm).at_place hget

theorem Deletion.leads_of_promoted [Scalar K] {w : SiteWeights K} {P : Tree K → NameSupply → Prop}
    (h : ∀ p m i c t, x.get? p = some m → i ∈ promotableSlots m → m.child? i = some c →
      x.replace? p c = some t → P t s) : (propose w x).Leads s P := by
  refine leads_of_sites .throw fun p m l hm => ?_
  refine Sampler.Leads.uniformChoice.bind fun slot s' _ hslot => ?_
  obtain ⟨rfl, hmem⟩ := hslot
  refine .getOrFail fun x' hx' => ?_
  obtain ⟨c, hc, hx'⟩ := Option.bind_eq_some_iff.mp hx'
  obtain ⟨i, hi, hci⟩ := Option.bind_eq_some_iff.mp hc
  exact h p m i c x' hm (hmem i hi) hci hx'

theorem Deletion.leads_propose [Scalar K] {w : SiteWeights K} (hx : g.Derivable s x) :
    (propose w x).Leads s (g.Kept x) :=
  leads_of_promoted fun _ _ _ _ _ hm hi hci => kept_of_promoted hx hm hi hci

namespace Copying

/-- A copy that fits keeps a tree derivable. -/
theorem leads_graftCopy {n : Tree K} {q : Place} (hx : g.Derivable s x) (hm : x.get? p = some m)
    (hn : x.get? q = some n) (hfits : (spotAt x p m).fits (spotAt x q n) = true) :
    (Sampler.ofNamingExcept (x.graftCopy p q) : Sampler K _).Leads s (g.Kept x) := by
  obtain ⟨x', hx', hgraft⟩ := graftCopy_eq hx (Nat.le_refl _) hm hn hfits
  obtain ⟨hnt, hnames⟩ := fits_iff_of_spots hfits
  have hdm := hx.derived_at hm
  have hdn := hx.derived_at hn
  obtain ⟨hcopy, hvar, hle, hfresh⟩ := hdm.uniquify (Nat.le_refl s.issued)
  have hderived : g.Derived (m.uniquify s).2 (x.variablesAbove q) (m.uniquify s).1 := by
    refine hcopy.rescope (Nat.le_refl _) (hdn.wellNamed.mono hle) (fun v hv _ => ?_)
      fun z hz hmem => ?_
    · exact mem_above_of_names hx.toDerived hm hn hnames hv
    · obtain ⟨v, hv, rfl⟩ := List.mem_map.mp hmem
      exact NameSupply.not_issued_of_mem_taken (hfresh ▸ hz) (hdn.wellNamed.issued v hv)
  intro r s' hr
  rw [Sampler.yields_ofNamingExcept, hgraft] at hr
  obtain ⟨rfl, rfl⟩ := hr
  refine ⟨hle, fun t ht => ?_⟩
  cases ht
  refine hx.edit hle hn hderived (hvar.nonterminal_eq.symm.trans hnt.symm) (fun z hz => .inr ?_) ?_
    (fun hcomplete => ?_) hx'
  · exact NameSupply.not_issued_of_mem_taken (hfresh ▸ hz)
  · exact hvar.nonemptyTerminals (hx.terminals.at_place hm)
  · exact (hcomplete.at_place hm).of_variantOver hvar

theorem exists_target {q : Place} (hm : x.get? p = some m) (hq : q ∈ targets x p) :
    ∃ n, x.get? q = some n ∧ (spotAt x p m).fits (spotAt x q n) = true := by
  rw [targets_eq hm] at hq
  obtain ⟨spot, hspot, rfl⟩ := List.mem_map.mp hq
  obtain ⟨hspot, hfits⟩ := List.mem_filter.mp hspot
  obtain ⟨n, hn, heq⟩ := mem_spots.mp hspot
  exact ⟨n, hn, heq ▸ hfits⟩

theorem leads_propose [Scalar K] {w : SiteWeights K} (hx : g.Derivable s x) :
    (propose w x).Leads s (g.Kept x) := by
  refine leads_of_sites .throw fun p m l hm => ?_
  refine Sampler.Leads.uniformChoice.bind fun target s' _ htarget => ?_
  obtain ⟨rfl, hmem⟩ := htarget
  refine (Sampler.Leads.getOrFail (P := fun q s'' => s'' = s' ∧ q ∈ targets x p)
    fun q hq => ⟨rfl, hmem q hq⟩).bind fun q s'' _ hq => ?_
  obtain ⟨rfl, hq⟩ := hq
  obtain ⟨n, hn, hfits⟩ := exists_target hm hq
  exact leads_graftCopy hx hm hn hfits

end Copying

namespace Insertion

variable {S : Scope K} {q : Rule K} {slot k : ℕ} {inner : Tree K}

/-- A node around a subtree is derived where the subtree is. -/
theorem derived_of_filled {kind : NodeKind K} {as : List (Arg K)} {s₁ s₂ : NameSupply}
    (hm : g.Derived s S m) (hr : q ∈ g.visibleRules m.nonterminal S)
    (hslot : slot ∈ q.replicatingSlots) (hmakes : g.Makes q kind) (hle : s.issued ≤ s₁.issued)
    (hnames : (kind.introduced?.map (·.name)).toList = s.taken s₁)
    (hfilled : Filled g (S.below kind) slot m 0 q.symbols s₁ as s₂) :
    g.Derived s₂ S (.node q.nonterminal q.name kind (some as)) ∧
      ∀ z ∈ (Tree.node q.nonterminal q.name kind (some as)).introducedNames,
        z ∈ m.introducedNames ∨ ¬ s.Issued z := by
  have hnt := Grammar.nonterminal_of_mem_visibleRules hr
  have hinst := isInstance_of_filled hmakes hslot hfilled
  have hle' := hfilled.issued_le
  -- names of the node are old below the slot, and taken from the supply elsewhere
  have hall : ∀ z ∈ (Tree.node q.nonterminal q.name kind (some as)).introducedNames,
      z ∈ m.introducedNames ∨ z ∈ s.taken s₂ := by
    intro z hz
    rw [introducedNames_node, hnames, Option.getD_some, List.mem_append] at hz
    rw [← NameSupply.taken_append hle hle', List.mem_append]
    rcases hz with hz | hz
    · exact .inr (.inl hz)
    · rcases hfilled.names z hz with ⟨-, hz⟩ | hz
      · exact .inl hz
      · exact .inr (.inr hz)
  refine ⟨⟨?_, ⟨?_, fun z hz => ?_, fun z hz => ?_⟩, hm.wellNamed.mono (Nat.le_trans hle hle')⟩,
    fun z hz => ?_⟩
  · refine .node q (by rwa [nonterminal_node, hnt]) hinst fun c hc => ?_
    rcases hfilled.subtrees c hc with rfl | ⟨-, hc⟩
    · refine hm.derives_of_uses fun v hv _ => ?_
      rw [Scope.below_eq]
      exact List.mem_append_left _ hv
    · exact hc.derives
  · rw [introducedNames_node, hnames]
    refine List.nodup_append'.mpr ⟨NameSupply.nodup_taken .., hfilled.nodup, fun z hz hz' => ?_⟩
    rcases hfilled.names z hz' with ⟨-, hz'⟩ | hz'
    · exact NameSupply.not_issued_of_mem_taken hz (hm.fresh.issued z hz')
    · exact NameSupply.not_issued_of_mem_taken hz' (NameSupply.issued_of_mem_taken hz)
  · rcases hall z hz with hz | hz
    · exact (hm.fresh.issued z hz).mono (Nat.le_trans hle hle')
    · exact NameSupply.issued_of_mem_taken hz
  · rcases hall z hz with hz | hz
    · exact hm.fresh.disjoint z hz
    · intro hmem
      obtain ⟨v, hv, rfl⟩ := List.mem_map.mp hmem
      exact NameSupply.not_issued_of_mem_taken hz (hm.wellNamed.issued v hv)
  · exact (hall z hz).imp_right NameSupply.not_issued_of_mem_taken

/-- No terminal beside the slot is empty. -/
theorem nonemptyTerminals_of_filled (hplain : g.PlainNames) (hS : ∀ v ∈ S, g.PlainVariable v)
    (hwell : S.WellNamed s) (hm : m.NonemptyTerminals) {kind : NodeKind K}
    {as : List (Arg K)} {s₁ s₂ : NameSupply} (hr : q ∈ g.visibleRules m.nonterminal S)
    (hmakes : g.Makes q kind)
    (hfilled : Filled g (S.below kind) slot m 0 q.symbols s₁ as s₂) :
    (Tree.node q.nonterminal q.name kind (some as)).NonemptyTerminals := by
  have hsymbols : g.PlainSymbols q.symbols := by
    rcases Grammar.mem_visibleRules.mp hr with hr | ⟨hr, -⟩
    · exact (hplain.rules q (Grammar.mem_allRules_of_mem_rulesFor hr)).2.2
    · exact (hS q hr).symbols
  refine .node (fun z hz => ?_) fun c hc => ?_
  · obtain ⟨hmem, hnt⟩ := hfilled.terminals hz
    exact (hsymbols z hmem).2 hnt
  · rcases hfilled.subtrees c hc with rfl | ⟨hcomplete, hderived⟩
    · exact hm
    · refine hderived.nonemptyTerminals hplain (fun v hv => ?_) hcomplete
      rw [Scope.below_eq, List.mem_append, Option.mem_toList] at hv
      rcases hv with hv | hv
      · exact hS v hv
      · exact hplain.introduced hr hwell.isVariableUse hmakes hv

theorem complete_of_filled (hm : g.Complete m) (hnt : g.isNonterminal m.nonterminal = true)
    {kind : NodeKind K} {as : List (Arg K)} {s₁ s₂ : NameSupply} (nt name : String)
    (hfilled : Filled g S slot m k q.symbols s₁ as s₂) :
    g.Complete (.node nt name kind (some as)) := by
  refine .node (fun a ha => ?_) fun c hc => ?_
  · rcases hfilled.filled a ha with rfl | hfill
    · exact hnt.symm
    · exact hfill
  · rcases hfilled.subtrees c hc with rfl | ⟨hcomplete, -⟩
    · exact hm
    · exact hcomplete

variable [Scalar K]

theorem leads_fillArgs (symbols : List String) (hS : S.WellNamed s) :
    (fillArgs g S slot inner k symbols).Leads s fun _ _ => True := by
  induction symbols generalizing k s with
  | nil =>
    rw [fillArgs]
    exact .pure trivial
  | cons symbol symbols ih =>
    rw [fillArgs_cons]
    have hfirst : (if k = slot then pure (.subtree inner) else fillSymbol g S symbol :
        Sampler K (Arg K)).Leads s fun _ _ => True := by
      unfold fillSymbol
      split
      · exact .pure trivial
      · split
        · exact (Grammar.leads_generateIn hS).bind fun t s' _ _ => .pure trivial
        · exact .pure trivial
    exact hfirst.bind fun a s' hle _ => (ih (hS.mono hle)).bind fun as s'' _ _ => .pure trivial

/-- A new node is made by its rule around the subtree, and takes the subtree's place. -/
theorem leads_around_filled (hx : g.Derivable s x) (hm : x.get? p = some m)
    (hr : q ∈ g.visibleRules m.nonterminal (x.variablesAbove p))
    (hslot : slot ∈ q.replicatingSlots) :
    (around g x p m q slot).Leads s fun t s' => ∃ as,
      Filled g (Scope.below (x.variablesAbove p) (g.kindOf q s).1) slot m 0 q.symbols
        (g.kindOf q s).2 as s' ∧
      x.replace? p (.node q.nonterminal q.name (g.kindOf q s).1 (some as)) = some t := by
  have hdm := hx.derived_at hm
  have hnt := Grammar.nonterminal_of_mem_visibleRules hr
  obtain ⟨-, hle, -⟩ := Grammar.kindOf_spec g q s
  obtain ⟨-, hwell⟩ := Grammar.kindOf_fresh g q hdm.wellNamed
  refine (Sampler.Leads.ofNaming (P := fun kind s₁ => kind = (g.kindOf q s).1 ∧
    s₁ = (g.kindOf q s).2) hle ⟨rfl, rfl⟩).bind fun kind s₁ _ hkind => ?_
  obtain ⟨rfl, rfl⟩ := hkind
  have hfill : (fillArgs g (Scope.below (x.variablesAbove p) (g.kindOf q s).1) slot m 0
      q.symbols).Leads (g.kindOf q s).2 (Filled g _ slot m 0 q.symbols (g.kindOf q s).2) :=
    (leads_fillArgs q.symbols hwell).imp fun as s₂ has _ _ =>
      filled_of_yields hwell hdm.fresh.nodup (fun z hz => (hdm.fresh.issued z hz).mono hle)
        (nonterminal_eq_slot hnt hslot) has
  exact hfill.bind fun as s₂ _ hfilled => .getOrFail fun x' hx' => ⟨as, hfilled, hx'⟩

/-- A new node keeps a tree derivable. -/
theorem leads_around (hplain : g.PlainNames) (hx : g.Derivable s x) (hm : x.get? p = some m)
    (hr : q ∈ g.visibleRules m.nonterminal (x.variablesAbove p))
    (hslot : slot ∈ q.replicatingSlots) : (around g x p m q slot).Leads s (g.Kept x) := by
  have hdm := hx.derived_at hm
  obtain ⟨hmakes, hle, hnames⟩ := Grammar.kindOf_spec g q s
  refine (leads_around_filled hx hm hr hslot).imp fun x' s' _ hle' hx' => ?_
  obtain ⟨as, hfilled, hx'⟩ := hx'
  obtain ⟨hderived, hnew⟩ := derived_of_filled hdm hr hslot hmakes hle hnames hfilled
  refine hx.edit hle' hm hderived (Grammar.nonterminal_of_mem_visibleRules hr) hnew ?_
    (fun hcomplete => ?_) hx'
  · exact nonemptyTerminals_of_filled hplain (hx.plainVariables hplain hm) hdm.wellNamed
      (hx.terminals.at_place hm) hr hmakes hfilled
  · exact complete_of_filled (hcomplete.at_place hm) (hx.toDerived.isNonterminal_at hcomplete hm)
      _ _ hfilled

/-- Insertion leads where every new node leads. -/
theorem leads_of_around {w : SiteWeights K} {P : Tree K → NameSupply → Prop}
    (h : ∀ p m r slot, x.get? p = some m →
      r ∈ g.visibleRules m.nonterminal (x.variablesAbove p) → slot ∈ r.replicatingSlots →
        (around g x p m r slot).Leads s P) : (propose g w x).Leads s P := by
  rw [propose_eq]
  refine leads_of_sites .throw fun p m l hm => ?_
  refine Sampler.Leads.uniformChoice.bind fun r? s' _ hr => ?_
  obtain ⟨rfl, hmem⟩ := hr
  refine (Sampler.Leads.getOrFail (P := fun r s'' => s'' = s' ∧ r ∈ replicatingRules g x p)
    fun r hr => ⟨rfl, hmem r hr⟩).bind fun r s'' _ hr => ?_
  obtain ⟨rfl, hr⟩ := hr
  refine Sampler.Leads.uniformChoice.bind fun slot? s' _ hslot => ?_
  obtain ⟨rfl, hmem⟩ := hslot
  refine (Sampler.Leads.getOrFail (P := fun i s'' => s'' = s' ∧ i ∈ r.replicatingSlots)
    fun i hi => ⟨rfl, hmem i hi⟩).bind fun slot s'' _ hslot => ?_
  obtain ⟨rfl, hslot⟩ := hslot
  exact h p m r slot hm ((mem_replicatingRules hm).mp hr).1 hslot

theorem leads_propose {w : SiteWeights K} (hplain : g.PlainNames) (hx : g.Derivable s x) :
    (propose g w x).Leads s (g.Kept x) :=
  leads_of_around fun _ _ _ _ hm hr hslot => leads_around hplain hx hm hr hslot

end Insertion

namespace Kernel

variable [Scalar K] {w : SiteWeights K}

mutual

/-- Every kernel keeps trees derivable. -/
theorem leads_propose (hplain : g.PlainNames) (hx : g.Derivable s x) :
    (k : Kernel K) → (k.propose g w x).Leads s (g.Kept x)
  | .regeneration => Regeneration.leads_propose hplain hx
  | .insert => Insertion.leads_propose hplain hx
  | .delete => Deletion.leads_propose hx
  | .copy => Copying.leads_propose hx
  | .mixture components => by
    rw [propose]
    refine Sampler.Leads.weightedIndex.bind fun i s' _ hs' => ?_
    rw [hs']
    cases i with
    | none => exact .throw
    | some i => exact leads_proposeNth hplain hx i.val components

theorem leads_proposeNth (hplain : g.PlainNames) (hx : g.Derivable s x) :
    (i : ℕ) → (components : List (K × Kernel K)) →
      (proposeNth g w x i components).Leads s (g.Kept x)
  | _, [] => .throw
  | 0, (_, k) :: _ => leads_propose hplain hx k
  | i + 1, _ :: components => leads_proposeNth hplain hx i components

end

end Kernel

end ScopedGrammar
