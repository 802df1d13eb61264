import ScopedGrammar.Rule

/-!
# Rule tables

The fixed rules of a grammar stand in rows, one for each nonterminal in the order in which the
nonterminals were first mentioned; within a row rules keep the order in which they were added. An
index leads from a signature to the positions of its rules in their row. It is kept up to date as
rules are added (`positions_eq`), so a look-up by signature finds what a scan of the row would.
-/
namespace ScopedGrammar

/-- For each nonterminal its rules. -/
abbrev Rows (K : Type) := List (String × List (Rule K))

namespace Rows

variable {K : Type}

/-- The rules of a nonterminal, none if it has no row. -/
def rulesFor : Rows K → String → List (Rule K)
  | [], _ => []
  | row :: rows, nt => if row.1 = nt then row.2 else rulesFor rows nt

/-- The nonterminals in the order of first mention. -/
def nonterminals (rows : Rows K) : List String := rows.map (·.1)

/-- Give a nonterminal a row if it has none yet. -/
def mention (nt : String) : Rows K → Rows K
  | [] => [(nt, [])]
  | row :: rows => if row.1 = nt then row :: rows else row :: mention nt rows

/-- Add a rule at the end of its row, which is begun if needed. -/
def insert (r : Rule K) : Rows K → Rows K
  | [] => [(r.nonterminal, [r])]
  | row :: rows =>
      if row.1 = r.nonterminal then (row.1, row.2 ++ [r]) :: rows else row :: insert r rows

/-- Change every rule. -/
def mapRow (f : List (Rule K) → List (Rule K)) (rows : Rows K) : Rows K :=
  rows.map fun row => (row.1, f row.2)

theorem mem_nonterminals_mention {nt k : String} {rows : Rows K} :
    k ∈ (rows.mention nt).nonterminals ↔ k ∈ rows.nonterminals ∨ k = nt := by
  induction rows with
  | nil => simp [mention, nonterminals]
  | cons row rows ih =>
    simp only [mention, nonterminals] at *
    split <;> grind

theorem mem_nonterminals_insert {r : Rule K} {k : String} {rows : Rows K} :
    k ∈ (rows.insert r).nonterminals ↔ k ∈ rows.nonterminals ∨ k = r.nonterminal := by
  induction rows with
  | nil => simp [insert, nonterminals]
  | cons row rows ih =>
    simp only [insert, nonterminals] at *
    split <;> grind

theorem nodup_mention {nt : String} {rows : Rows K} (h : rows.nonterminals.Nodup) :
    (rows.mention nt).nonterminals.Nodup := by
  induction rows with
  | nil => simp [mention, nonterminals]
  | cons row rows ih =>
    have ⟨hrow, hrows⟩ := List.nodup_cons.mp h
    simp only [mention]
    split
    · exact h
    · rename_i hne
      exact List.nodup_cons.mpr
        ⟨fun hm => (mem_nonterminals_mention.mp hm).elim hrow hne, ih hrows⟩

theorem nodup_insert {r : Rule K} {rows : Rows K} (h : rows.nonterminals.Nodup) :
    (rows.insert r).nonterminals.Nodup := by
  induction rows with
  | nil => simp [insert, nonterminals]
  | cons row rows ih =>
    have ⟨hrow, hrows⟩ := List.nodup_cons.mp h
    simp only [insert]
    split
    · exact h
    · rename_i hne
      exact List.nodup_cons.mpr
        ⟨fun hm => (mem_nonterminals_insert.mp hm).elim hrow hne, ih hrows⟩

@[simp] theorem nonterminals_mapRow {f : List (Rule K) → List (Rule K)} {rows : Rows K} :
    (rows.mapRow f).nonterminals = rows.nonterminals := by
  simp [mapRow, nonterminals]

@[simp] theorem rulesFor_mention {nt k : String} {rows : Rows K} :
    (rows.mention nt).rulesFor k = rows.rulesFor k := by
  induction rows with
  | nil => simp [mention, rulesFor]
  | cons row rows ih =>
    simp only [mention]
    split
    · rfl
    · simp only [rulesFor, ih]

theorem rulesFor_insert {r : Rule K} {k : String} {rows : Rows K} :
    (rows.insert r).rulesFor k =
      if k = r.nonterminal then rows.rulesFor k ++ [r] else rows.rulesFor k := by
  induction rows with
  | nil => simp [insert, rulesFor, eq_comm]
  | cons row rows ih =>
    simp only [insert]
    split <;> by_cases h : row.1 = k <;> simp_all [rulesFor, eq_comm]

theorem rulesFor_mapRow {f : List (Rule K) → List (Rule K)} (hf : f [] = []) {k : String}
    {rows : Rows K} : (rows.mapRow f).rulesFor k = f (rows.rulesFor k) := by
  induction rows with
  | nil => simp [mapRow, rulesFor, hf]
  | cons row rows ih => by_cases h : row.1 = k <;> simp_all [rulesFor, mapRow]

end Rows

/-- For each signature the positions of its rules in their row. -/
abbrev SignatureIndex := List (Signature × List Nat)

namespace SignatureIndex

/-- The positions recorded for a signature. -/
def positions : SignatureIndex → Signature → List Nat
  | [], _ => []
  | entry :: ix, s => if entry.1 = s then entry.2 else positions ix s

/-- Record one more position for a signature. -/
def record (s : Signature) (i : Nat) : SignatureIndex → SignatureIndex
  | [] => [(s, [i])]
  | entry :: ix =>
      if entry.1 = s then (entry.1, entry.2 ++ [i]) :: ix else entry :: record s i ix

theorem positions_record {s s' : Signature} {i : Nat} {ix : SignatureIndex} :
    (ix.record s i).positions s' = if s' = s then ix.positions s' ++ [i] else ix.positions s' := by
  induction ix with
  | nil => simp [record, positions, eq_comm]
  | cons entry ix ih =>
    simp only [record]
    split <;> by_cases h : entry.1 = s' <;> simp_all [positions, eq_comm]

end SignatureIndex

/-- The positions in a row at which rules have the signature, ascending. -/
def positionsOf {K : Type} (s : Signature) (rules : List (Rule K)) : List Nat :=
  (rules.zipIdx.filter fun p => p.1.signature = s).map (·.2)

theorem positionsOf_append {K : Type} {s : Signature} {rules : List (Rule K)} {r : Rule K} :
    positionsOf s (rules ++ [r]) =
      if r.signature = s then positionsOf s rules ++ [rules.length] else positionsOf s rules := by
  by_cases h : r.signature = s <;> simp [positionsOf, List.zipIdx_append, h]

/-- The fixed rules of a grammar with their index. -/
structure RuleTable (K : Type) where
  rows : Rows K
  index : SignatureIndex
  /-- A nonterminal has one row. -/
  nodup : rows.nonterminals.Nodup
  /-- A rule stands in the row of the nonterminal that it expands. -/
  nonterminal_eq : ∀ nt, ∀ r ∈ rows.rulesFor nt, r.nonterminal = nt
  /-- The uses of variables are no fixed rules. -/
  not_variableUse : ∀ nt, ∀ r ∈ rows.rulesFor nt, r.isVariableUse = false
  /-- The index holds the positions that a scan of the row would find. -/
  positions_eq : ∀ s, index.positions s = positionsOf s (rows.rulesFor s.nonterminal)

namespace RuleTable

variable {K : Type}

/-- The table without rows. -/
def empty : RuleTable K where
  rows := []
  index := []
  nodup := by simp [Rows.nonterminals]
  nonterminal_eq := by simp [Rows.rulesFor]
  not_variableUse := by simp [Rows.rulesFor]
  positions_eq := by simp [SignatureIndex.positions, positionsOf, Rows.rulesFor]

/-- Give a nonterminal a row if it has none yet. -/
def mention (t : RuleTable K) (nt : String) : RuleTable K where
  rows := t.rows.mention nt
  index := t.index
  nodup := Rows.nodup_mention t.nodup
  nonterminal_eq := by simpa using t.nonterminal_eq
  not_variableUse := by simpa using t.not_variableUse
  positions_eq := by simpa using t.positions_eq

/-- Add a rule at the end of its row. -/
def insert (t : RuleTable K) (r : Rule K) (hr : r.isVariableUse = false) : RuleTable K where
  rows := t.rows.insert r
  index := t.index.record r.signature (t.rows.rulesFor r.nonterminal).length
  nodup := Rows.nodup_insert t.nodup
  nonterminal_eq := by
    intro nt r' h
    rw [Rows.rulesFor_insert] at h
    split at h
    · rcases List.mem_append.mp h with h | h
      · exact t.nonterminal_eq nt r' h
      · simp_all
    · exact t.nonterminal_eq nt r' h
  not_variableUse := by
    intro nt r' h
    rw [Rows.rulesFor_insert] at h
    split at h
    · rcases List.mem_append.mp h with h | h
      · exact t.not_variableUse nt r' h
      · simp_all
    · exact t.not_variableUse nt r' h
  positions_eq := by
    intro s
    rw [SignatureIndex.positions_record, Rows.rulesFor_insert, t.positions_eq]
    by_cases hs : s = r.signature
    · subst hs
      simp [positionsOf_append, Rule.signature]
    · have hs' : r.signature ≠ s := fun h => hs h.symm
      by_cases hn : s.nonterminal = r.nonterminal <;> simp [positionsOf_append, hs, hs', hn]

/-- Change the weights of the rules of each row. -/
def mapWeights (t : RuleTable K) (f : List (Rule K) → Rule K → K) : RuleTable K :=
  let reweigh := fun rs : List (Rule K) => rs.map fun r => { r with weight := f rs r }
  have hr : reweigh [] = [] := rfl
  have hpos : ∀ s rs, positionsOf s (reweigh rs) = positionsOf s rs := by
    intro s rs
    simp only [reweigh, positionsOf, List.zipIdx_map, List.filter_map, List.map_map]
    rfl
  { rows := t.rows.mapRow reweigh
    index := t.index
    nodup := by simpa using t.nodup
    nonterminal_eq := by
      intro nt r h
      rw [Rows.rulesFor_mapRow hr] at h
      obtain ⟨r', h', rfl⟩ := List.mem_map.mp h
      exact t.nonterminal_eq nt r' h'
    not_variableUse := by
      intro nt r h
      rw [Rows.rulesFor_mapRow hr] at h
      obtain ⟨r', h', rfl⟩ := List.mem_map.mp h
      exact t.not_variableUse nt r' h'
    positions_eq := by
      intro s
      rw [Rows.rulesFor_mapRow hr, hpos]
      exact t.positions_eq s }

/-- The nonterminals in the order of first mention. -/
def nonterminals (t : RuleTable K) : List String := t.rows.nonterminals

/-- The rules of a nonterminal in the order in which they were added. -/
def rulesFor (t : RuleTable K) (nt : String) : List (Rule K) := t.rows.rulesFor nt

/-- All rules, row by row. -/
def allRules (t : RuleTable K) : List (Rule K) := t.rows.flatMap (·.2)

/-- The rules with a signature, found through the index. -/
def withSignature (t : RuleTable K) (s : Signature) : List (Rule K) :=
  (t.index.positions s).filterMap fun i => (t.rulesFor s.nonterminal)[i]?

end RuleTable

end ScopedGrammar
