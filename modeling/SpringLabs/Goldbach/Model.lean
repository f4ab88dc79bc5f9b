import Mathlib.Data.Nat.Sqrt
import SpringLabs.Arrays

/-!
# The Goldbach pairs of the lab quiz

`goldbach.c` for any bound `maxN`, with mathematical integers.  The arrays hold anything at first.
-/

namespace SpringLabs.Goldbach

open Arrays

variable {maxN : ℕ}

/-- The loop that fills both arrays. -/
def fill (arrays : Vector Bool (maxN + 1) × Vector ℕ (maxN + 1)) :
    Except Fault (Vector Bool (maxN + 1) × Vector ℕ (maxN + 1)) :=
  forUpTo 1 maxN (fun (primes, gbCount) i => do
    let primes ← store primes i true
    let gbCount ← store gbCount i 0
    return (primes, gbCount)) 0 arrays

/-- The multiples of `p` from `p * p` on are no primes. -/
def crossOut (primes : Vector Bool (maxN + 1)) (p : ℕ) : Except Fault (Vector Bool (maxN + 1)) :=
  forUpTo p maxN (fun primes i => store primes i false) (p * p) primes

/-- One value of `p` of the sieve. -/
def sieveBy (primes : Vector Bool (maxN + 1)) (p : ℕ) : Except Fault (Vector Bool (maxN + 1)) := do
  if ← load primes p then crossOut primes p else return primes

/-- `primes[0] = primes[1] = false` and the sieve, `p <= sqrt(maxN)` taken for integers. -/
def sieve (primes : Vector Bool (maxN + 1)) : Except Fault (Vector Bool (maxN + 1)) := do
  let primes ← store primes 1 false
  let primes ← store primes 0 false
  forUpTo 1 maxN.sqrt sieveBy 2 primes

def countPrimes (primes : Vector Bool (maxN + 1)) : Except Fault ℕ :=
  forUpTo 1 maxN (fun primeCount p => do
    if ← load primes p then return primeCount + 1 else return primeCount) 2 0

/-- The body of the loop over `p1`; `p1 <= n / 2`, so `p2` is not negative. -/
def countPair (primes : Vector Bool (maxN + 1)) (n : ℕ) (gbCount : Vector ℕ (maxN + 1)) (p1 : ℕ) :
    Except Fault (Vector ℕ (maxN + 1)) := do
  let p2 := n - p1
  if ← load primes p1 then
    if ← load primes p2 then
      let count ← load gbCount n
      store gbCount n (count + 1)
    else return gbCount
  else return gbCount

def countPairs (primes : Vector Bool (maxN + 1)) (gbCount : Vector ℕ (maxN + 1)) (n : ℕ) :
    Except Fault (Vector ℕ (maxN + 1)) :=
  forUpTo 1 (n / 2) (countPair primes n) 2 gbCount

/-- The lines of `output.txt`. -/
def printPairs (gbCount : Vector ℕ (maxN + 1)) : Except Fault (List (ℕ × ℕ)) :=
  forUpTo 2 maxN (fun lines i => do
    let count ← load gbCount i
    return lines ++ [(i, count)]) 4 []

/-- What `main` leaves and prints. -/
structure Result (maxN : ℕ) where
  primes : Vector Bool (maxN + 1)
  gbCount : Vector ℕ (maxN + 1)
  primeCount : ℕ
  output : List (ℕ × ℕ)

def main (primes : Vector Bool (maxN + 1)) (gbCount : Vector ℕ (maxN + 1)) :
    Except Fault (Result maxN) := do
  let (primes, gbCount) ← fill (primes, gbCount)
  let primes ← sieve primes
  let primeCount ← countPrimes primes
  let gbCount ← forUpTo 2 maxN (countPairs primes) 4 gbCount
  let output ← printPairs gbCount
  return { primes, gbCount, primeCount, output }

end SpringLabs.Goldbach
