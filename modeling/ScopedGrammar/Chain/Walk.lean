import ScopedGrammar.Decimal.Shortest
import ScopedGrammar.Posterior.Model
import ScopedGrammar.Random.Sampler

/-!
# Walks

A walk is a random computation on a changing subject, such as a chain. It may take fresh names and
evaluate a model, and it leaves records of what happened. A failure ends the walk; what has
changed until then stays changed.
-/
namespace ScopedGrammar

/-- Something that happened on a walk. -/
inductive Record (K : Type) where
  /-- No tree was proposed, for a cause that a fresh draw may avoid. -/
  | proposalFailed (cause : SampleError)
  /-- A state or a move could not be compared. -/
  | pathological (current candidate forwardBackward : K)
  | decided (accepted : Bool) (candidate : Sample K)
  | restarting (stepsWithoutImprovement : Nat)
  /-- No tree was found to restart from. -/
  | restartFailed (cause : SampleError)
  | progress (samples : Nat) (acceptanceRate : K) (current : Sample K)
  | swap (lower upper : Nat) (accepted : Bool)

namespace Record

/-- How much a record matters. -/
def level {K : Type} : Record K → String
  | proposalFailed _ | restarting _ | restartFailed _ => "debug"
  | pathological _ _ _ => "warn"
  | decided _ _ | swap _ _ _ => "trace"
  | progress _ _ _ => "info"

def text : Record Float → String
  | proposalFailed cause => "proposal failed: " ++ cause.message
  | pathological current candidate fb =>
      "pathological proposal: current " ++ Decimal.shortest current ++ ", candidate " ++
        Decimal.shortest candidate ++ ", fb " ++ Decimal.shortest fb
  | decided accepted s => (if accepted then "accepted " else "rejected ") ++ s.render
  | restarting n => "restarting after " ++ toString n ++ " steps without improvement"
  | restartFailed cause => "restart failed, keeping the current sample: " ++ cause.message
  | progress n rate s =>
      toString n ++ "\tacceptance " ++ Decimal.fixed 3 rate ++ "\t" ++ s.render
  | swap lower upper accepted =>
      "swap " ++ toString lower ++ " <-> " ++ toString upper ++ ": " ++ toString accepted

end Record

/-- Where a walk stands. -/
structure Stage (K σ : Type) where
  subject : σ
  names : NameSupply
  tally : Tally
  /-- What happened, the latest first. -/
  records : List (Record K)

/-- A computation on a subject of type `σ`. -/
abbrev Walk (K σ : Type) := ExceptT SampleError (StateT (Stage K σ) (Rand K))

/-- A walk that cannot fail. -/
abbrev SafeWalk (K σ : Type) := StateT (Stage K σ) (Rand K)

namespace Walk

variable {K σ τ α : Type}

/-- Draw, without taking names. -/
def ofRand (x : Rand K α) : Walk K σ α := fun stage => x.bind fun a => .done (.ok a, stage)

def ofSampler (x : Sampler K α) : Walk K σ α := fun stage =>
  (x stage.names).bind fun (a, names) => .done (a, { stage with names })

def subject : Walk K σ σ := do
  let stage ← get
  pure stage.subject

def update (f : σ → σ) : Walk K σ Unit :=
  modify fun stage => { stage with subject := f stage.subject }

def record (r : Record K) : Walk K σ Unit :=
  modify fun stage => { stage with records := r :: stage.records }

/-- Score a tree. -/
def assess [Scalar K] {D : Type} (m : Model K D) (g : Grammar K) (t : Tree K) (data : List D) :
    Walk K σ (Score K) := do
  let stage ← get
  let (score, tally) := m.assess g t data stage.tally
  set { stage with tally }
  match score with
  | .ok score => pure score
  | .error e => throw (.grammar e)

/-- Walk on a part of the subject, which is put back in the end. -/
def onPart (part : σ → τ) (putBack : τ → σ → σ) (x : SafeWalk K τ α) : SafeWalk K σ α :=
  fun stage =>
    (x ⟨part stage.subject, stage.names, stage.tally, stage.records⟩).bind fun (a, inner) =>
      .done (a, ⟨putBack inner.subject stage.subject, inner.names, inner.tally, inner.records⟩)

/-- Walk on a subject of one's own, of which only the answer is kept. -/
def onOwn (a : τ) (x : Walk K τ α) : Walk K σ α := fun stage =>
  (x ⟨a, stage.names, stage.tally, stage.records⟩).bind fun (outcome, inner) =>
    .done (outcome, ⟨stage.subject, inner.names, inner.tally, inner.records⟩)

/-- The outcome of a walk as a value. -/
def attempt (x : Walk K σ α) : SafeWalk K σ (Except SampleError α) := x

/-- A walk that cannot fail among those that can. -/
def ofSafe (x : SafeWalk K σ α) : Walk K σ α := fun stage =>
  (x stage).bind fun (a, stage) => .done (.ok a, stage)

end Walk

/-- What a run has come to: the items reported in order, and the failure that ended it, if one
did. -/
structure Report (α : Type) where
  reported : List α
  failure : Option SampleError

/-- Walk on and collect what is reported, until nothing more is; `collected` has the latest
first. -/
def SafeWalk.collect {K σ α : Type} (next : Walk K σ (Option α)) :
    Nat → List α → SafeWalk K σ (Report α)
  | 0, collected => pure ⟨collected.reverse, none⟩
  | bound + 1, collected => do
      match ← Walk.attempt next with
      | .error e => pure ⟨collected.reverse, some e⟩
      | .ok none => pure ⟨collected.reverse, none⟩
      | .ok (some a) => collect next bound (a :: collected)

end ScopedGrammar
