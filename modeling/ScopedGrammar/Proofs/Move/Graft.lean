import ScopedGrammar.Move.Copying
import ScopedGrammar.Proofs.Tree.Binding
import ScopedGrammar.Proofs.Tree.Renewal

/-!
# Grafting a copy

A copy of a subtree may be put at any place that sees the variables which the subtree uses. Its own
binders get fresh names, so they capture nothing, and those of the rest are found as before: every
variable denotes the binder that it denoted, or the copy of it. Nothing is asked of where the two
places lie, so one may be below the other.
-/
namespace ScopedGrammar.Tree

variable {K : Type} {t t' n c : Tree K} {source target p q : Place} {s : NameSupply} {x : String}

/-- Both places exist, and what the subtree at the source uses freely is bound above the target. -/
def Graftable (t : Tree K) (source target : Place) : Prop :=
  ∃ n, t.get? source = some n ∧ (t.get? target).isSome ∧
    ∀ x ∈ n.freeVariables, x ∈ (t.variablesAbove target).map (·.name)

/-- Where a binder is found from a copy that has been moved to a target: with the copy if the copied
subtree holds it, and where it was otherwise. -/
def movedBinder (source target b : Place) : Place :=
  if source <+: b then target ++ b.drop source.length else b

/-- A tree is another one with a copy of the subtree from a source at a target, and no variable
denotes another binder than before. -/
structure Grafted (t : Tree K) (source target : Place) (t' : Tree K) : Prop where
  closed : t'.freeVariables = []
  distinct : t'.introducedNames.Nodup
  copied : ∃ n c, t.get? source = some n ∧ t'.get? target = some c ∧ n.Variant c
  binders : ∀ q, t'.binderOf? (target ++ q) =
    (t.binderOf? (source ++ q)).map (movedBinder source target)
  kept : ∀ q, ¬ target <+: q →
    (t'.get? q).map root = (t.get? q).map root ∧ t'.binderOf? q = t.binderOf? q

/-- What grafting does, given the subtree at the source. -/
theorem graftCopy_apply (hn : t.get? source = some n) (s : NameSupply) :
    t.graftCopy source target s =
      (if (n.uniquify s).1.freeVariables.all ((t.variablesAbove target).map (·.name)).contains then
        match t.replace? target (n.uniquify s).1 with
        | some t' => .ok t'
        | none => .error .proposalFailed
      else .error .proposalFailed, (n.uniquify s).2) := by
  have hcopy : ∀ f : Tree K → ExceptT SampleError Naming (Tree K),
      (liftM n.uniquify >>= f) s = f (n.uniquify s).1 (n.uniquify s).2 := fun _ => rfl
  rw [graftCopy, hn]
  dsimp only
  rw [hcopy]
  split
  · cases t.replace? target (n.uniquify s).1 <;> rfl
  · rfl

theorem graftCopy_eq_error (hn : t.get? source = none) :
    (t.graftCopy source target s).1 = .error .proposalFailed := by
  rw [graftCopy, hn]
  rfl

/-- Grafting exchanges the subtree at the target for the copy, if this uses only what is bound
above. -/
theorem graftCopy_eq_ok_iff : (t.graftCopy source target s).1 = .ok t' ↔
    ∃ n, t.get? source = some n ∧ t.replace? target (n.uniquify s).1 = some t' ∧
      ∀ x ∈ (n.uniquify s).1.freeUses [], x ∈ (t.variablesAbove target).map (·.name) := by
  cases hn : t.get? source with
  | none => simp [graftCopy_eq_error hn]
  | some n =>
    have hvisible : (n.uniquify s).1.freeVariables.all
        ((t.variablesAbove target).map (·.name)).contains = true ↔
          ∀ x ∈ (n.uniquify s).1.freeUses [], x ∈ (t.variablesAbove target).map (·.name) := by
      simp only [List.all_eq_true, List.contains_iff_mem, freeVariables, List.mem_eraseDups]
    simp only [Option.some.injEq, exists_eq_left']
    rw [graftCopy_apply hn, ← hvisible]
    split
    · next hall => cases t.replace? target (n.uniquify s).1 <;> simp [hall]
    · next hall => simp [hall]

theorem eq_proposalFailed_of_graftCopy {e : SampleError}
    (h : (t.graftCopy source target s).1 = .error e) : e = .proposalFailed := by
  cases hn : t.get? source with
  | none => exact (Except.error.inj ((graftCopy_eq_error hn).symm.trans h)).symm
  | some n =>
    rw [graftCopy_apply hn] at h
    dsimp only at h
    split at h
    · split at h
      · cases h
      · exact (Except.error.inj h).symm
    · exact (Except.error.inj h).symm

section Binders

theorem movedBinder_append (source target b : Place) :
    movedBinder source target (source ++ b) = target ++ b := by
  simp [movedBinder]

theorem movedBinder_of_above {b : Place} {i : ℕ} (h : source = b ++ i :: q) :
    movedBinder source target b = b := by
  refine if_neg fun hle => ?_
  have := hle.length_le
  rw [h, List.length_append, List.length_cons] at this
  omega

/-- The variables of a copy denote the binders that those of the copied subtree denote, or their
copies. -/
theorem binderOf?_copied (ht' : t.replace? target c = some t') (hn : t.get? source = some n)
    (hvar : n.Variant c) (hfree : ∀ x ∈ n.freeUses [],
      t.binderFor x target = (t.binderFor x source).map (movedBinder source target)) (q : Place) :
    t'.binderOf? (target ++ q) =
      (t.binderOf? (source ++ q)).map (movedBinder source target) := by
  have hc := get?_replace? ht'
  have hrel := VariantOver.rel_get? hvar q
  unfold binderOf?
  rw [get?_append, get?_append, hc, hn, Option.bind_some, Option.bind_some]
  cases hm : n.get? q <;> cases hm' : c.get? q <;> rw [hm, hm'] at hrel
  · rfl
  · cases hrel
  · cases hrel
  · next m m' =>
    obtain ⟨huses, hbinders⟩ := VariantOver.uses_match hvar hm hm'
    rw [Option.bind_some, Option.bind_some, ← huses]
    split
    · next huse =>
      obtain ⟨hsame, heq⟩ := hbinders huse
      rw [binderFor_append hc (by simp [hm']), binderFor_append hn (by simp [hm]), ← hsame]
      cases hb : n.binderFor m.name q with
      | some b => simp [movedBinder_append]
      | none =>
        have hmem : m.name ∈ n.freeUses [] := mem_freeUses_iff_binderFor.mpr
          ⟨q, m, hm, Grammar.isVariableUse_iff_kind.mp huse, rfl, hb⟩
        rw [← heq hb, binderFor_here ht', hfree _ hmem]
        rfl
    · rfl

end Binders

section Grafts

/-- A closed tree whose binders have distinct names, none of which the supply will issue. -/
structure Sealed (t : Tree K) (s : NameSupply) : Prop where
  closed : ∀ x, x ∉ t.freeUses []
  nodup : t.introducedNames.Nodup
  avoids : ∀ x ∈ t.introducedNames, s.Avoids x

/-- A copy of a subtree is a variant of it, and its names are new to the tree. -/
theorem Sealed.uniquify_at (h : t.Sealed s) (hn : t.get? p = some n) :
    n.Variant (n.uniquify s).1 ∧ (n.uniquify s).1.introducedNames.Nodup ∧
      ∀ x ∈ (n.uniquify s).1.introducedNames, x ∉ t.introducedNames := by
  have hapart : t.Apart := ⟨h.nodup, fun x hx => absurd hx (h.closed x)⟩
  obtain ⟨hvar, -, hnames⟩ := (hapart.at_place hn).uniquify fun x hx =>
    h.avoids x (mem_introducedNames_of_free h.closed hn hx)
  rw [hnames]
  exact ⟨hvar, NameSupply.nodup_taken s _, fun x hx hmem =>
    NameSupply.not_avoids_of_mem_taken hx (h.avoids x hmem)⟩

/-- A name that is free at the source and bound at the target has one binder, above both. -/
theorem Sealed.binderFor_target (h : t.Sealed s) (hn : t.get? source = some n)
    (htarget : t.get? target = some c) (hx : x ∈ n.freeUses [])
    (hbound : x ∈ (t.variablesAbove target).map (·.name)) :
    t.binderFor x target = (t.binderFor x source).map (movedBinder source target) := by
  obtain ⟨b, hb⟩ := exists_binderFor_of_free h.closed hn hx
  obtain ⟨b', hb'⟩ := Option.ne_none_iff_exists'.mp
    ((binderFor_eq_none_iff htarget).not_left.mpr hbound)
  obtain rfl := binderFor_unique h.nodup hn htarget hb hb'
  obtain ⟨-, i, q, habove⟩ := of_binderFor_eq_some hn hb
  rw [hb', hb, Option.map_some, movedBinder_of_above habove]

/-- Grafting succeeds where a copy can be put. -/
theorem Sealed.exists_graftCopy_iff (h : t.Sealed s) :
    (∃ t', (t.graftCopy source target s).1 = .ok t') ↔ t.Graftable source target := by
  simp only [graftCopy_eq_ok_iff, Graftable, freeVariables, List.mem_eraseDups]
  constructor
  · rintro ⟨t', n, hn, hrep, hfree⟩
    obtain ⟨hvar, -, -⟩ := h.uniquify_at hn
    refine ⟨n, hn, ?_, fun x hx => hfree x (hvar.mem_freeUses_iff.mp hx)⟩
    rw [← isSome_replace? t (n.uniquify s).1, hrep]
    rfl
  · rintro ⟨n, hn, htarget, hfree⟩
    obtain ⟨hvar, -, -⟩ := h.uniquify_at hn
    rw [← isSome_replace? t (n.uniquify s).1] at htarget
    obtain ⟨t', hrep⟩ := Option.isSome_iff_exists.mp htarget
    exact ⟨t', n, hn, hrep, fun x hx => hfree x (hvar.mem_freeUses_iff.mpr hx)⟩

/-- What grafting makes keeps every variable at its binder. -/
theorem Sealed.grafted (h : t.Sealed s) (ht' : (t.graftCopy source target s).1 = .ok t') :
    t.Grafted source target t' := by
  obtain ⟨n, hn, hrep, hfree⟩ := graftCopy_eq_ok_iff.mp ht'
  obtain ⟨hvar, hdistinct, hnew⟩ := h.uniquify_at hn
  have htarget : (t.get? target).isSome := by
    rw [← isSome_replace? t (n.uniquify s).1, hrep]
    rfl
  obtain ⟨k, hk⟩ := Option.isSome_iff_exists.mp htarget
  refine ⟨?_, ?_, ⟨n, _, hn, get?_replace? hrep, hvar⟩, fun q => ?_, fun q hq => ?_⟩
  · exact freeVariables_eq_nil_iff.mpr (not_mem_freeUses_replace? hrep h.closed fun x hx hnone =>
      (binderFor_eq_none_iff hk).mp hnone (hfree x hx))
  · exact nodup_introducedNames_replace? h.nodup hdistinct hk (fun x hx => .inr (hnew x hx)) hrep
  · exact binderOf?_copied hrep hn hvar (fun x hx => h.binderFor_target hn hk hx
      (hfree x (hvar.mem_freeUses_iff.mp hx))) q
  · have hroot := root_replace? hrep hq
    exact ⟨hroot, binderOf?_congr hroot (binderFor_off hrep hq)⟩

/-- In a closed tree whose binders have distinct names that the supply does not issue again, a
subtree is copied to a target exactly if both exist and what the subtree uses is bound above the
target; otherwise the proposal has failed. No variable of the result is captured or escapes: the
variables of the copy denote the binders that they denoted at the source, or the copies of these,
and off the target everything is as it was. -/
theorem graftCopy_scopeSafe (t : Tree K) (source target : Place) (s : NameSupply)
    (hclosed : t.freeVariables = []) (hnodup : t.introducedNames.Nodup)
    (hissued : ∀ k, NameSupply.nameOf k ∈ t.introducedNames → k < s.issued) :
    ((∃ t', (t.graftCopy source target s).1 = .ok t') ↔ t.Graftable source target) ∧
      (∀ e, (t.graftCopy source target s).1 = .error e → e = .proposalFailed) ∧
        ∀ t', (t.graftCopy source target s).1 = .ok t' → t.Grafted source target t' := by
  have hsealed : t.Sealed s := by
    refine ⟨freeVariables_eq_nil_iff.mp hclosed, hnodup, ?_⟩
    rintro x hx k rfl
    exact hissued k hx
  exact ⟨hsealed.exists_graftCopy_iff, fun e => eq_proposalFailed_of_graftCopy,
    fun t' => hsealed.grafted⟩

/-- The term `fn x (both (fn y (both x y)) c)`. -/
def nestedTerm : Tree Float :=
  let binder k : NodeKind Float := .binder ⟨"T", NameSupply.nameOf k, none, 1, .variableUse "y"⟩
  let use k : Arg Float := .subtree (.node "T" (NameSupply.nameOf k) .variableUse none)
  let both as : Arg Float := .subtree (.node "T" "both" .plain (some as))
  .node "T" "fn" (binder 0) (some [both [
    .subtree (.node "T" "fn" (binder 1) (some [both [use 0, use 1]])),
    .subtree (.node "T" "c" .plain none)]])

/-- The inner function may be copied over the constant: there it uses the same `x`, and a `y` of its
own. -/
theorem graftCopy_scopeSafe_nestedTerm :
    nestedTerm.freeVariables = [] ∧ nestedTerm.introducedNames.Nodup ∧
      (∀ k, NameSupply.nameOf k ∈ nestedTerm.introducedNames → k < 2) ∧
      ∃ t', (nestedTerm.graftCopy [0, 0] [0, 1] ⟨2⟩).1 = .ok t' ∧
        nestedTerm.Grafted [0, 0] [0, 1] t' ∧ t'.binderOf? [0, 1, 0, 0] = some [] ∧
        t'.binderOf? [0, 1, 0, 1] = some [0, 1] := by
  have hclosed : nestedTerm.freeVariables = [] := by
    simp [nestedTerm, freeVariables, freeUses, freeUsesArgs]
  have hnames : nestedTerm.introducedNames = [0, 1].map NameSupply.nameOf := by rfl
  have hnodup : nestedTerm.introducedNames.Nodup :=
    hnames ▸ List.Nodup.map (fun _ _ => NameSupply.nameOf_injective) (by decide)
  have hissued : ∀ k, NameSupply.nameOf k ∈ nestedTerm.introducedNames → k < 2 := by
    intro k hk
    rw [hnames] at hk
    obtain ⟨j, hj, heq⟩ := List.mem_map.mp hk
    obtain rfl := NameSupply.nameOf_injective heq
    simp only [List.mem_cons, List.not_mem_nil, or_false] at hj
    omega
  obtain ⟨-, -, hgrafted⟩ :=
    graftCopy_scopeSafe nestedTerm [0, 0] [0, 1] ⟨2⟩ hclosed hnodup hissued
  exact ⟨hclosed, hnodup, hissued, _, rfl, hgrafted _ rfl, by rfl, by rfl⟩

end Grafts

end ScopedGrammar.Tree
