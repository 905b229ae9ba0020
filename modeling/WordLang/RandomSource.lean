/-!
# Random words

A shift-register generator whose output is scrambled by a multiplication.
-/
namespace WordLang

structure RandomSource where
  state : UInt64
  deriving DecidableEq, Repr

namespace RandomSource

def defaultSeed : UInt64 := 0x9E3779B97F4A7C15

def multiplier : UInt64 := 0x2545F4914F6CDD1D

/-- The state zero would never change, so it is replaced. -/
def ofSeed (seed : UInt64) : RandomSource :=
  let state := seed ^^^ defaultSeed
  ⟨if state = 0 then defaultSeed else state⟩

/-- The successor of a state. -/
def step (x : UInt64) : UInt64 :=
  let x := x ^^^ (x >>> 12)
  let x := x ^^^ (x <<< 25)
  x ^^^ (x >>> 27)

def next (r : RandomSource) : UInt64 × RandomSource :=
  let state := step r.state
  (state * multiplier, ⟨state⟩)

/-- The top 31 bits of the next word. -/
def nextRandom (r : RandomSource) : Int64 × RandomSource :=
  let (word, r) := r.next
  ((word >>> 33).toInt64, r)

end RandomSource

end WordLang
