/-! # Random draws

A generator is a seed and the number of draws made so far. Draw number `i` is a pure function of both:
two consecutive words of the ChaCha stream with eight rounds whose key is expanded from the seed.
-/
namespace TextAdventure.Random

def rotateLeft (w k : UInt32) : UInt32 :=
  (w <<< k) ||| (w >>> (32 - k))

def rotateRight (w k : UInt32) : UInt32 :=
  (w >>> k) ||| (w <<< (32 - k))

abbrev Block := Vector UInt32 16

def quarterRound (a b c d : Fin 16) (s : Block) : Block :=
  let s := s.set a (s[a] + s[b])
  let s := s.set d (rotateLeft (s[d] ^^^ s[a]) 16)
  let s := s.set c (s[c] + s[d])
  let s := s.set b (rotateLeft (s[b] ^^^ s[c]) 12)
  let s := s.set a (s[a] + s[b])
  let s := s.set d (rotateLeft (s[d] ^^^ s[a]) 8)
  let s := s.set c (s[c] + s[d])
  s.set b (rotateLeft (s[b] ^^^ s[c]) 7)

def doubleRound (s : Block) : Block :=
  let s := quarterRound 0 4 8 12 s
  let s := quarterRound 1 5 9 13 s
  let s := quarterRound 2 6 10 14 s
  let s := quarterRound 3 7 11 15 s
  let s := quarterRound 0 5 10 15 s
  let s := quarterRound 1 6 11 12 s
  let s := quarterRound 2 7 8 13 s
  quarterRound 3 4 9 14 s

/-- Eight words from a seed, by a linear congruential generator with permuted output. -/
def keyWords (state : UInt64) : Nat → List UInt32
  | 0 => []
  | n + 1 =>
    let next : UInt64 := state * 6364136223846793005 + 11634580027462260723
    let mixed := (((next >>> 18) ^^^ next) >>> 27).toUInt32
    rotateRight mixed (next >>> 59).toUInt32 :: keyWords next n

/-- The four constant words of the cipher, `expand 32-byte k` in little-endian order. -/
def constants : List UInt32 := [0x61707865, 0x3320646e, 0x79622d32, 0x6b206574]

/-- The state the rounds start from: constants, key, block counter and an empty nonce. -/
def initialBlock (seed : UInt64) (counter : Nat) : Block :=
  let words := constants ++ keyWords seed 8 ++ [counter.toUInt32, (counter / Nat.pow 2 32).toUInt32]
  Vector.ofFn fun i => words.getD i.val 0

/-- The block of the stream with the given number, counted modulo `2 ^ 64`. -/
def streamBlock (seed : UInt64) (counter : Nat) : Block :=
  let start := initialBlock seed (counter % Nat.pow 2 64)
  let mixed := doubleRound (doubleRound (doubleRound (doubleRound start)))
  Vector.zipWith (· + ·) start mixed

structure Generator where
  seed : UInt64
  /-- How many draws have been made. -/
  drawn : Nat
  deriving DecidableEq

def Generator.ofSeed (seed : UInt64) : Generator := ⟨seed, 0⟩

/-- Draw number `i`: two words of the stream, the low one first. -/
def draw (seed : UInt64) (i : Nat) : UInt64 :=
  let block := streamBlock seed (i / 8)
  let low := block[2 * (i % 8)]
  let high := block[2 * (i % 8) + 1]
  low.toUInt64 ||| (high.toUInt64 <<< 32)

def Generator.next (g : Generator) : UInt64 × Generator :=
  (draw g.seed g.drawn, { g with drawn := g.drawn + 1 })

/-- Every draw is repeated after this many, when the block counter has gone round. -/
def period : Nat := Nat.pow 2 67

/-- The high word of `draw · n` for the first of `attempts` draws whose low word is at most `zone`. -/
def Generator.accept (n zone : Nat) : Nat → Generator → Nat × Generator
  | 0, g => (0, g)
  | attempts + 1, g =>
    let product := g.next.1.toNat * n
    if product % Nat.pow 2 64 ≤ zone then (product / Nat.pow 2 64, g.next.2)
    else accept n zone attempts g.next.2

/-- A uniformly distributed index below `n`, for `n` up to `2 ^ 64`; zero without a draw if `n` is
zero. Draws that would favour some index are rejected. The search ends after one period, when no
draw can be accepted any more. -/
def Generator.index (n : Nat) (g : Generator) : Nat × Generator :=
  if n = 0 then (0, g) else g.accept n (n * Nat.pow 2 (63 - n.log2) - 1) period

def Generator.unit (g : Generator) : Float × Generator :=
  ((g.next.1 >>> 11).toFloat / 9007199254740992, g.next.2)

theorem Generator.accept_lt {n : Nat} (h : 0 < n) (zone attempts : Nat) (g : Generator) :
    (g.accept n zone attempts).1 < n := by
  induction attempts generalizing g with
  | zero => exact h
  | succ attempts ih =>
    simp only [accept]
    split
    · exact Nat.div_lt_of_lt_mul (Nat.mul_lt_mul_of_pos_right g.next.1.toNat_lt h)
    · exact ih g.next.2

end TextAdventure.Random
