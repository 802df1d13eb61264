import ScopedGrammar.Proofs.Grammar.Derivation

/-!
# Looking rules up

A grammar keeps its nonterminals in the order of first mention, the rules of each in the order of
addition, and an index from signatures to positions. Calls may add rules, be rejected, or change all
weights: what a grammar holds is always what its calls, read from the first to the last, have put
there. So the three structures stay in step, and what is found through the index is what a scan of
all visible rules finds.
-/
namespace ScopedGrammar

variable {K : Type}

/-- A rule without its weight. -/
def Rule.form (r : Rule K) : Signature × RuleKind K := (r.signature, r.kind)

namespace Rows

variable {nt : String} {rows : Rows K} {r : Rule K}

theorem nonterminals_mention : (rows.mention nt).nonterminals =
    if nt ∈ rows.nonterminals then rows.nonterminals else rows.nonterminals ++ [nt] := by
  induction rows with
  | nil => rfl
  | cons row rows ih =>
    rw [mention]
    by_cases hrow : row.1 = nt
    · simp [hrow, nonterminals]
    · have hmem : nt ∈ nonterminals (row :: rows) ↔ nt ∈ nonterminals rows := by
        simp [nonterminals, Ne.symm hrow]
      rw [if_neg hrow]
      refine (congrArg (row.1 :: ·) ih).trans ?_
      by_cases hnt : nt ∈ nonterminals rows
      · rw [if_pos hnt, if_pos (hmem.mpr hnt)]
        rfl
      · rw [if_neg hnt, if_neg (hmem.not.mpr hnt)]
        rfl

theorem mention_of_mem (h : nt ∈ rows.nonterminals) : rows.mention nt = rows := by
  induction rows with
  | nil => cases h
  | cons row rows ih =>
    rw [mention]
    split
    · rfl
    · next hne => rw [ih ((List.mem_cons.mp h).resolve_left (Ne.symm hne))]

theorem nonterminals_insert :
    (rows.insert r).nonterminals = (rows.mention r.nonterminal).nonterminals := by
  induction rows with
  | nil => rfl
  | cons row rows ih =>
    rw [insert, mention]
    split
    · rfl
    · exact congrArg (row.1 :: ·) ih

end Rows

namespace RuleTable

variable {t : RuleTable K} {mentioned : List String}

theorem nonterminals_mention (h : t.nonterminals = mentioned.eraseDups) (nt : String) :
    (t.mention nt).nonterminals = (mentioned ++ [nt]).eraseDups := by
  have hmem : nt ∈ t.rows.nonterminals ↔ nt ∈ mentioned := by
    rw [← nonterminals, h, List.mem_eraseDups]
  rw [nonterminals, mention, Rows.nonterminals_mention, eraseDups_concat, ← h]
  simp only [hmem]
  rfl

theorem nonterminals_insert (h : t.nonterminals = mentioned.eraseDups) {r : Rule K}
    (hr : r.isVariableUse = false) :
    (t.insert r hr).nonterminals = (mentioned ++ [r.nonterminal]).eraseDups := by
  rw [← nonterminals_mention h]
  exact Rows.nonterminals_insert

theorem rows_mapWeights (t : RuleTable K) (f : List (Rule K) → Rule K → K) : (t.mapWeights f).rows =
    t.rows.mapRow fun rules => rules.map fun r => { r with weight := f rules r } :=
  rfl

theorem nonterminals_mapWeights (t : RuleTable K) (f : List (Rule K) → Rule K → K) :
    (t.mapWeights f).nonterminals = t.nonterminals := by
  rw [nonterminals, rows_mapWeights, Rows.nonterminals_mapRow, nonterminals]

theorem forms_mapWeights (t : RuleTable K) (f : List (Rule K) → Rule K → K) (nt : String) :
    ((t.mapWeights f).rulesFor nt).map Rule.form = (t.rulesFor nt).map Rule.form := by
  rw [rulesFor, rows_mapWeights, Rows.rulesFor_mapRow (by rfl), List.map_map]
  rfl

/-- The positions found through the index ascend, and at them stand exactly the rules that have the
signature. -/
theorem positions_spec (t : RuleTable K) (s : Signature) :
    (t.index.positions s).Pairwise (· < ·) ∧ ∀ i, i ∈ t.index.positions s ↔
      ∃ r, (t.rulesFor s.nonterminal)[i]? = some r ∧ r.signature = s := by
  rw [t.positions_eq, positionsOf]
  constructor
  · refine List.Pairwise.map _ (fun _ _ h => h) (List.Pairwise.filter _ ?_)
    rw [← List.pairwise_map (f := Prod.snd), List.zipIdx_map_snd]
    exact List.pairwise_lt_range'
  · intro i
    simp only [List.mem_map, List.mem_filter, List.mem_zipIdx_iff_getElem?, decide_eq_true_eq,
      Prod.exists, exists_eq_right]
    rfl

end RuleTable

namespace Grammar

/-- What may be called on a grammar to change its rules. -/
inductive Call (K : Type) where
  | addRule (nt name : String) (expansion : Option (List String)) (weight : K)
  | addBinder (nt name : String) (expansion : Option (List String)) (weight : K)
      (spec : BinderSpec K)
  | renormalize

variable [Scalar K]

/-- A rule that is offered to a grammar, if its weight is valid. -/
def accepted? (r : Rule K) : Option (Rule K) := if validWeight r.weight then some r else none

namespace Call

/-- The grammar behind a call, whether it was accepted or not. -/
def make : Call K → Grammar K → Grammar K
  | addRule nt name expansion weight, g => (g.addRule nt name expansion weight).1
  | addBinder nt name expansion weight spec, g => (g.addBinder nt name expansion weight spec).1
  | renormalize, g => g.renormalize

/-- The rule that a call adds, if it is accepted. -/
def added? : Call K → Option (Rule K)
  | addRule nt name expansion weight => accepted? ⟨nt, name, expansion, weight, .plain⟩
  | addBinder nt name expansion weight spec =>
      accepted? ⟨nt, name, expansion, weight, .binder spec⟩
  | renormalize => none

/-- The nonterminals that a call mentions. The type of a binder's variable comes first, and counts
also if the rule is rejected. -/
def mentions (c : Call K) : List String :=
  (match c with
    | addBinder _ _ _ _ spec => [spec.boundType]
    | _ => []) ++
  c.added?.toList.map (·.nonterminal)

end Call

/-- The grammar behind calls, one after the other. -/
def after (calls : List (Call K)) (g : Grammar K) : Grammar K :=
  calls.foldl (fun g c => c.make g) g

section Push

variable {g : Grammar K} {r : Rule K} (hr : r.isVariableUse = false)

theorem push_nonterminals {mentioned : List String} (h : g.nonterminals = mentioned.eraseDups) :
    (g.push r hr).1.nonterminals =
      (mentioned ++ (accepted? r).toList.map (·.nonterminal)).eraseDups := by
  rw [push, accepted?]
  split
  · exact RuleTable.nonterminals_insert h hr
  · simpa using h

theorem push_forms (nt : String) : ((g.push r hr).1.table.rulesFor nt).map Rule.form =
    (g.table.rulesFor nt).map Rule.form ++
      ((accepted? r).toList.filter fun r => r.nonterminal = nt).map Rule.form := by
  rw [push, accepted?, ← List.map_append]
  split
  · refine congrArg _ (Rows.rulesFor_insert.trans ?_)
    by_cases hnt : nt = r.nonterminal
    · simp [hnt, RuleTable.rulesFor]
    · simp [hnt, Ne.symm hnt, RuleTable.rulesFor]
  · simp

end Push

/-- The grammar holds what the calls have put there: their nonterminals by first mention, and the
rules that were accepted, of which only the weights may have changed since. -/
structure Records (g : Grammar K) (calls : List (Call K)) : Prop where
  nonterminals_eq : g.nonterminals = (calls.flatMap Call.mentions).eraseDups
  forms_eq : ∀ nt, (g.table.rulesFor nt).map Rule.form =
    ((calls.filterMap Call.added?).filter fun r => r.nonterminal = nt).map Rule.form

namespace Records

variable {g : Grammar K} {calls : List (Call K)}

theorem empty (start : String) : (Grammar.empty start : Grammar K).Records [] :=
  ⟨rfl, fun _ => rfl⟩

/-- Every call is put on record behind those before it. -/
theorem make (h : g.Records calls) (c : Call K) : (c.make g).Records (calls ++ [c]) := by
  have hmentions : (calls ++ [c]).flatMap Call.mentions =
      calls.flatMap Call.mentions ++ c.mentions := by
    simp
  have hadded : (calls ++ [c]).filterMap Call.added? =
      calls.filterMap Call.added? ++ c.added?.toList := by
    rw [List.filterMap_append]
    cases hc : c.added? <;> simp [hc]
  constructor
  · rw [hmentions]
    cases c with
    | addRule nt name expansion weight => exact push_nonterminals rfl h.nonterminals_eq
    | addBinder nt name expansion weight spec =>
      rw [Call.mentions, ← List.append_assoc]
      exact push_nonterminals rfl (RuleTable.nonterminals_mention h.nonterminals_eq _)
    | renormalize =>
      have hsame : g.renormalize.nonterminals = g.nonterminals := g.table.nonterminals_mapWeights _
      simpa [Call.make, Call.mentions, Call.added?, hsame] using h.nonterminals_eq
  · intro nt
    rw [hadded, List.filter_append, List.map_append, ← h.forms_eq]
    cases c with
    | addRule nt' name expansion weight => exact push_forms rfl nt
    | addBinder nt' name expansion weight spec =>
      refine (push_forms rfl nt).trans (congrArg (· ++ _) (congrArg (List.map Rule.form) ?_))
      exact Rows.rulesFor_mention
    | renormalize =>
      exact (g.table.forms_mapWeights _ nt).trans (by simp [Call.added?])

theorem after {past : List (Call K)} (h : g.Records past) (calls : List (Call K)) :
    (after calls g).Records (past ++ calls) := by
  induction calls generalizing g past with
  | nil => simpa [Grammar.after] using h
  | cons c calls ih => simpa [Grammar.after] using ih (h.make c)

end Records

section Scan

variable {K : Type} (g : Grammar K) (scope : Scope K) (t : Tree K)

/-- The visible rules with the signature of a node, found by a scan. -/
def matching : List (Rule K) :=
  (g.visibleRules t.nonterminal scope).filter fun r => r.signature = t.signature

/-- What the index finds among the fixed rules, and the scope among its variables, is what a scan of
both finds. -/
theorem withSignature_eq_matching :
    g.table.withSignature t.signature ++ scope.withSignature t.signature = g.matching scope t := by
  rw [matching, visibleRules, List.filter_append, RuleTable.withSignature_eq, Scope.rulesOf,
    List.filter_filter]
  refine congrArg _ (List.filter_congr fun r _ => ?_)
  by_cases hr : r.signature = t.signature
  · have hnt : r.nonterminal = t.nonterminal := congrArg Signature.nonterminal hr
    simp [hr, hnt]
  · simp [hr]

end Scan

/-- Whatever has been called on a grammar, its nonterminals are those mentioned, each once, in the
order of first mention, its rules are those accepted, in the order of the calls, and the index leads
from a signature to the ascending positions of exactly the rules that have it. So the rule of a node
is the only visible one with its signature, and if there is none or more than one, the error says
how many there are. A variable out of scope has no rule in any case. -/
theorem ruleForNode_after (start : String) (calls : List (Call K)) :
    let g : Grammar K := after calls (empty start)
    g.nonterminals = (calls.flatMap Call.mentions).eraseDups ∧
      (∀ nt, (g.table.rulesFor nt).map Rule.form =
        ((calls.filterMap Call.added?).filter fun r => r.nonterminal = nt).map Rule.form) ∧
      (∀ s, (g.table.index.positions s).Pairwise (· < ·) ∧ ∀ i, i ∈ g.table.index.positions s ↔
        ∃ r, (g.table.rulesFor s.nonterminal)[i]? = some r ∧ r.signature = s) ∧
      ∀ scope t,
        if t.isVariableUse = true ∧ scope.binds t.name = false then
          g.ruleForNode scope t = .error (.scopeViolation t.name)
        else
          (∀ r, g.ruleForNode scope t = .ok r ↔ g.matching scope t = [r]) ∧
            ((∀ r, g.matching scope t ≠ [r]) → g.ruleForNode scope t =
              .error (.noUniqueRule t.signature (g.matching scope t).length)) := by
  intro g
  have hg : g.Records calls := (Records.empty start).after calls
  refine ⟨hg.nonterminals_eq, hg.forms_eq, g.table.positions_spec, fun scope t => ?_⟩
  split
  · next hout => simp [ruleForNode, hout]
  · next hin =>
    have hguard : (t.isVariableUse && !scope.binds t.name) = false := by
      simpa using hin
    rw [ruleForNode, hguard, withSignature_eq_matching, if_neg Bool.false_ne_true]
    generalize g.matching scope t = found
    split
    · next r => simp
    · next hnot => exact ⟨fun r => by simpa using hnot r, fun _ => rfl⟩

end Grammar

end ScopedGrammar
