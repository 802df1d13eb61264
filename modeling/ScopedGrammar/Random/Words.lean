import ScopedGrammar.Random.Basic

/-!
# Running on random words

A stream of 64-bit words turns a random computation over binary floating point into its outcome.
The stream hands out a given list of words first and continues with SplitMix64. A uniform draw
multiplies a word by the number of outcomes and takes the upper half of the product, drawing again
where the lower half lies in the incomplete last round; a weighted draw scales a fraction of 52
bits by the total weight and looks it up among the partial sums.
-/
namespace ScopedGrammar

/-- A source of random words: the words still to come, the state of the generator that takes over
after them, and the number of words taken so far. -/
structure Words where
  queued : List UInt64
  state : UInt64
  taken : Nat

namespace Words

/-- Words from a list, continued by SplitMix64 from a seed. -/
def ofList (queued : List UInt64) (seed : UInt64) : Words := ⟨queued, seed, 0⟩

/-- Spread the state of SplitMix64 over all bits of a word. -/
def scramble (state : UInt64) : UInt64 :=
  let z := (state ^^^ (state >>> 30)) * 0xBF58476D1CE4E5B9
  let z := (z ^^^ (z >>> 27)) * 0x94D049BB133111EB
  z ^^^ (z >>> 31)

/-- Take the next word. -/
def next : Words → UInt64 × Words
  | ⟨w :: ws, s, n⟩ => (w, ⟨ws, s, n + 1⟩)
  | ⟨[], s, n⟩ =>
      let s := s + 0x9E3779B97F4A7C15
      (scramble s, ⟨[], s, n + 1⟩)

/-- SplitMix64 visits every word within this many steps, so that a draw which is repeated until
its word falls into an accepting range is over by then. -/
def period : Nat := Nat.pow 2 64

/-- A word of `bits` bits: the upper part of a full one. -/
def truncate (bits : Nat) (w : UInt64) : Nat := w.toNat >>> (64 - bits)

/-- The largest lower half of a product that belongs to a complete round of `n` outcomes: `n` is
shifted up until its top bit is the top bit of the word. -/
def zone (bits n : Nat) : Nat := (n <<< (bits - 1 - n.log2)) % Nat.pow 2 bits - 1

/-- Draw below `n` from words of `bits` bits, repeating until the product falls into the zone. -/
def below (bits n : Nat) : Nat → Words → Nat × Words
  | 0, s => (0, s)
  | fuel + 1, s =>
      let (w, s) := s.next
      let product := truncate bits w * n
      if product % Nat.pow 2 bits ≤ zone bits n then (product / Nat.pow 2 bits, s) else below bits n fuel s

/-- The partial sums of a list of weights. -/
def partialSums : Float → List Float → List Float
  | _, [] => []
  | acc, w :: ws => (acc + w) :: partialSums (acc + w) ws

/-- The next float toward zero of a positive one. -/
def nextBelow (x : Float) : Float := Float.ofBits (x.toBits - 1)

/-- The factor for fractions of 52 bits whose largest multiple stays below the total. -/
def scale (total : Float) : Nat → Float → Float
  | 0, s => s
  | fuel + 1, s =>
      if s * (1.0 - Float.scaleB 1.0 (-52)) ≥ total then scale total fuel (nextBelow s) else s

/-- The index whose share of the total weight a word falls into. The last index takes what lies
above every partial sum but its own. -/
def locate (weights : List Float) (w : UInt64) : Nat :=
  let total := Scalar.sum weights
  let point := Float.ofNat (w >>> 12).toNat * Float.scaleB 1.0 (-52) * scale total 64 total
  ((partialSums 0.0 weights).dropLast.filter (· ≤ point)).length

/-- A fraction in `[0, 1)` of 53 bits. -/
def fraction (w : UInt64) : Float := Float.ofNat (w >>> 11).toNat * Float.scaleB 1.0 (-53)

/-- The number of bits of a word that a uniform draw uses. -/
def width : Reduction → Nat
  | .halfWord => 32
  | .fullWord => 64

/-- Decide a trial; certainty costs no word. -/
def decideTrial (how : Trial) (p : Float) (s : Words) : Bool × Words :=
  match how with
  | .fraction =>
      let (w, s) := s.next
      (fraction w < p, s)
  | .bias =>
      if p == 1.0 then (true, s)
      else
        let (w, s) := s.next
        (w < (p * Float.scaleB 1.0 64).toUInt64, s)

end Words

/-- Run a computation on a stream of words. -/
def Rand.run {α : Type} : Rand Float α → Words → α × Words
  | .done a, s => (a, s)
  | .weighted ws h next, s =>
      let (w, s) := s.next
      have : 0 < ws.length := List.length_pos_iff.mpr h
      (next ⟨min (Words.locate ws w) (ws.length - 1), by omega⟩).run s
  | .uniform how n h next, s =>
      let (i, s) := Words.below (Words.width how) n Words.period s
      (next ⟨i % n, Nat.mod_lt i h⟩).run s
  | .chance how p next, s =>
      let (b, s) := Words.decideTrial how p s
      (next b).run s

end ScopedGrammar
