/-! # Fresh names

Names for signals, ports and cells come from a generator that knows which names are reserved and
what it was asked for before.  Which names it makes is its own affair; `NameGenerator.counting` is
one that gives the stem itself for the first request and the stem with a running number for later
ones, where a candidate that is taken becomes the stem of the next attempt. -/

namespace ControlStore

/-- A way to make names. -/
structure NameGenerator where
  /-- The name for a stem, by the reserved names and the stems asked for before, the latest first. -/
  name : (reserved asked : List String) → (stem : String) → String

/-- A generator in use. -/
structure NameSupply where
  generator : NameGenerator
  reserved : List String
  /-- The stems asked for so far, the latest first. -/
  asked : List String

namespace NameSupply

/-- The supply in which only the given names are taken. -/
def reserving (g : NameGenerator) (names : List String) : NameSupply := ⟨g, names, []⟩

/-- The next name for `stem`. -/
def fresh (s : NameSupply) (stem : String) : String × NameSupply :=
  (s.generator.name s.reserved s.asked stem, { s with asked := stem :: s.asked })

end NameSupply

/-- The names that are taken, and how often each stem was tried. -/
structure NameCounter where
  taken : List String
  tried : List (String × Nat)

namespace NameCounter

/-- How often `stem` was tried. -/
def tries (s : NameCounter) (stem : String) : Nat := (s.tried.lookup stem).getD 0

/-- The name to try next for `stem`. -/
def candidate (s : NameCounter) (stem : String) : String :=
  match s.tries stem with
  | 0 => stem
  | n + 1 => stem ++ toString n

/-- Counts one more attempt for `stem`. -/
def bump (s : NameCounter) (stem : String) : NameCounter :=
  { s with tried := (stem, s.tries stem + 1) :: s.tried }

/-- Makes at most `fuel` attempts and takes the last candidate. -/
def nextWithin (s : NameCounter) (stem : String) : (fuel : Nat) → String × NameCounter
  | 0 => (s.candidate stem, s)
  | fuel + 1 =>
    let name := s.candidate stem
    let s := s.bump stem
    if s.taken.contains name then s.nextWithin name fuel
    else (name, { s with taken := name :: s.taken })

/-- A name that is not taken, and the counter in which it is.  Candidates grow at every second
attempt and every failed one is taken, so the number of taken names bounds the attempts. -/
def next (s : NameCounter) (stem : String) : String × NameCounter :=
  s.nextWithin stem (2 * s.taken.length + 2)

/-- The counter after the given requests, the latest first. -/
def after (reserved : List String) : List String → NameCounter
  | [] => ⟨reserved, []⟩
  | stem :: asked => ((after reserved asked).next stem).2

end NameCounter

/-- The generator that numbers the repetitions of a stem. -/
def NameGenerator.counting : NameGenerator where
  name reserved asked stem := ((NameCounter.after reserved asked).next stem).1

end ControlStore
