/-
  CoreCalculus/Supply.lean
  ========================
  **Fresh ids and fresh names**, minted from one counter.

  A fresh name is a stem, an apostrophe and the counter in decimal.  The stem is
  the old name up to its first apostrophe, so renaming twice does not pile up
  suffixes.  The counter moves at every attempt, also at one that hits a name to
  avoid; since the candidates differ, a name is found after at most one more
  attempt than there are names to avoid.

  Evaluation starts a supply of its own at `0`, and counts without a bound.  Type
  checking starts after the ids of a context, which may be any words, and so says
  how it counts.
-/

namespace CoreCalculus

/-- There are `2 ^ 64` machine words. -/
def wordCount : Nat := 18446744073709551616

/-- How a counter goes on: without a bound, or over the machine words of 64 bits, where the largest
    word is followed by `0`. -/
inductive Counting where
  | unbounded
  | word
deriving DecidableEq, Inhabited

/-- The number after `n`. -/
def Counting.succ (counting : Counting) (n : Nat) : Nat :=
  match counting with
  | .unbounded => n + 1
  | .word => (n + 1) % wordCount

/-- The next id that has not been used.  A supply counts without a bound if nothing else is said.  A
    program counts in words, which is the same as long as its counter stays below `2 ^ 64`; it goes
    beyond only from a start that is near, since so many ids cannot be drawn. -/
structure Supply where
  next : Nat
deriving DecidableEq, Inhabited

namespace Supply

/-- Take one id. -/
def draw (s : Supply) (counting : Counting := .unbounded) : Nat × Supply :=
  (s.next, ⟨counting.succ s.next⟩)

/-- A name up to its first apostrophe. -/
def stem (name : String) : String :=
  String.ofList (name.toList.takeWhile (· ≠ '\x27'))

/-- The `n`-th name made from a stem. -/
def candidate (stem : String) (n : Nat) : String := stem ++ "'" ++ Nat.repr n

/-- The first number from `n` on whose candidate is not to be avoided; after
    `attempts` failures the number reached is taken as it is. -/
def firstFree (stem : String) (avoid : List String) (attempts n : Nat)
    (counting : Counting := .unbounded) : Nat :=
  match attempts with
  | 0 => n
  | attempts + 1 =>
    if candidate stem n ∈ avoid then firstFree stem avoid attempts (counting.succ n) counting
    else n

/-- A name made from `base` that is not in `avoid`. -/
def freshName (s : Supply) (base : String) (avoid : List String)
    (counting : Counting := .unbounded) : String × Supply :=
  let n := firstFree (stem base) avoid avoid.length s.next counting
  (candidate (stem base) n, ⟨counting.succ n⟩)

end Supply

end CoreCalculus
