import LeanBbg.KeyedRefinement

/-! The committed adjacency index: insertion-ordered axon lists for reads, a histogram of their lengths, a
member trie for every list, and an outer trie over the particles that catches up lazily. As for tries, an
operation returns `none` where the source panics. -/

set_option linter.unusedSectionVars false

namespace LeanBbg

variable {F C : Type} [Hemera F] [DecidableEq F]

structure AxonIndex (F C : Type) where
  map : OrdMap Particle (List Particle)
  /-- How many particles have each degree; the last key is the largest degree. -/
  degrees : OrdMap Nat Nat
  sets : OrdMap Particle (Trie F)
  trie : Trie F
  /-- The particles whose outer leaf the trie has not seen yet. -/
  dirty : OrdMap Particle Unit
  legacy : Option C

namespace AxonIndex

def new : AxonIndex F C := ⟨∅, ∅, ∅, Trie.empty, ∅, none⟩

def memberDigest (axon : Particle) : Digest F := leafDigest axon []

/-- The outer leaf of a particle: its degree and the root of its member trie. -/
def leaf (particle : Particle) (degree : UInt64) (setRoot : Digest F) : Digest F :=
  leafDigest particle (u64Limbs degree ++ setRoot.toList)

/-- Take one particle out of a degree of the histogram. -/
def degreeLeft (degrees : OrdMap Nat Nat) (old : Nat) : Option (OrdMap Nat Nat) :=
  match degrees[old]? with
  | none => none
  | some 0 => none
  | some (n + 1) => some (if n = 0 then degrees.erase old else degrees.insert old n)

/-- Move one particle between two degrees of the histogram; degree 0 is not counted. -/
def degreeMoved (degrees : OrdMap Nat Nat) (old new : Nat) : Option (OrdMap Nat Nat) :=
  if old = new then some degrees
  else do
    let degrees ← (if 0 < old then degreeLeft degrees old else some degrees)
    some (if 0 < new then degrees.insert new (degrees[new]?.getD 0 + 1) else degrees)

def degree (x : AxonIndex F C) (particle : Particle) : Nat := (x.map[particle]?.map List.length).getD 0

def touched (x : AxonIndex F C) (particle : Particle) : AxonIndex F C :=
  { x with legacy := none, dirty := x.dirty.insert particle () }

/-- Bring the outer leaf of one particle up to date. -/
def flushParticle (x : AxonIndex F C) (particle : Particle) : Option (AxonIndex F C) :=
  match x.map[particle]?, x.sets[particle]? with
  | some list, some set => do
      let (root, set) ← set.root
      let trie ← x.trie.put particle (some (leaf particle (UInt64.ofNat list.length) root))
      some { x with sets := x.sets.insert particle set, trie }
  | _, _ => do
      let trie ← x.trie.put particle none
      some { x with trie }

/-- Bring the outer trie up to date with every touched particle. -/
def flush (x : AxonIndex F C) : Option (AxonIndex F C) := do
  let x ← x.dirty.keys.foldlM flushParticle x
  some { x with dirty := ∅ }

/-- Add an axon to a particle's list; `true` if it was new. -/
def add (x : AxonIndex F C) (particle axon : Particle) : Option (Bool × AxonIndex F C) := do
  let (new, set) ← (x.sets[particle]?.getD Trie.empty).set axon (memberDigest axon)
  let x := { x with sets := x.sets.insert particle set }
  if !new then some (false, x)
  else
    let list := x.map[particle]?.getD [] ++ [axon]
    let degrees ← degreeMoved x.degrees (list.length - 1) list.length
    let x := { x with map := x.map.insert particle list, degrees }
    some (true, x.touched particle)

/-- Remove a particle's whole list. -/
def remove (x : AxonIndex F C) (particle : Particle) : Option (Option (List Particle) × AxonIndex F C) :=
  match x.map[particle]? with
  | none => some (none, x)
  | some old => do
      let degrees ← degreeMoved x.degrees old.length 0
      let x := { x with map := x.map.erase particle, sets := x.sets.erase particle, degrees }
      some (some old, x.touched particle)

/-- The filter of `insert`: the axons that are new to the set being built, and the set. -/
def insertLoop : Trie F → List Particle → Option (List Particle × Trie F)
  | set, [] => some ([], set)
  | set, axon :: list => do
      let (new, set) ← set.set axon (memberDigest axon)
      let (rest, set) ← insertLoop set list
      some (if new then axon :: rest else rest, set)

/-- Replace a particle's whole list, a repeated axon keeping its first position. -/
def insert (x : AxonIndex F C) (particle : Particle) (list : List Particle) :
    Option (Option (List Particle) × AxonIndex F C) := do
  let (old, x) ← x.remove particle
  let (list, set) ← insertLoop Trie.empty list
  if list.isEmpty then some (old, x)
  else
    let degrees ← degreeMoved x.degrees 0 list.length
    let x := { x with map := x.map.insert particle list, sets := x.sets.insert particle set, degrees }
    some (old, x.touched particle)

/-- Remove an axon from a particle's list, dropping the list when it empties. -/
def removeAxon (x : AxonIndex F C) (particle axon : Particle) : Option (Bool × AxonIndex F C) :=
  match x.sets[particle]? with
  | none => some (false, x)
  | some set => do
      let (present, set) ← set.remove axon
      let x := { x with sets := x.sets.insert particle set }
      if !present then some (false, x)
      else
        let list ← x.map[particle]?
        let rest := list.filter (· != axon)
        let degrees ← degreeMoved x.degrees list.length rest.length
        let x := if rest.isEmpty then
            { x with map := x.map.erase particle, sets := x.sets.erase particle, degrees }
          else { x with map := x.map.insert particle rest, degrees }
        some (true, x.touched particle)

/-- Keep the first `len` axons of a particle's list; how many were dropped. -/
def truncate (x : AxonIndex F C) (particle : Particle) (len : Nat) : Option (Nat × AxonIndex F C) :=
  if x.degree particle ≤ len then some (0, x)
  else if len = 0 then do
    let (old, x) ← x.remove particle
    some ((old.map List.length).getD 0, x)
  else do
    let list ← x.map[particle]?
    let dropped := list.drop len
    let set ← x.sets[particle]?
    let set ← dropped.foldlM (fun set axon => (Trie.remove set axon).map Prod.snd) set
    let degrees ← degreeMoved x.degrees list.length len
    let x := { x with map := x.map.insert particle (list.take len), sets := x.sets.insert particle set, degrees }
    some (dropped.length, x.touched particle)

def clear (_ : AxonIndex F C) : AxonIndex F C := new

/-- The longest list, from the histogram. -/
def maxDegree (x : AxonIndex F C) : Nat := x.degrees.maxKey?.getD 0

/-- The v2 commitment: the outer trie root. -/
def commitment (x : AxonIndex F C) : Option (Digest F × AxonIndex F C) := do
  let x ← x.flush
  let (d, trie) ← x.trie.root
  some (d, { x with trie })

/-- The root of a particle's member trie. -/
def setRoot (x : AxonIndex F C) (particle : Particle) : Option (Option (Digest F) × AxonIndex F C) :=
  match x.sets[particle]? with
  | none => some (none, x)
  | some set => do
      let (root, set) ← set.root
      some (some root, { x with sets := x.sets.insert particle set })

def legacyCommitment (x : AxonIndex F C) (f : OrdMap Particle (List Particle) → C) : C × AxonIndex F C :=
  match x.legacy with
  | some c => (c, x)
  | none => (f x.map, { x with legacy := some (f x.map) })

/-- A proof of a particle's outer leaf against the commitment. -/
def prove (x : AxonIndex F C) (particle : Particle) : Option (TrieProof F × AxonIndex F C) := do
  let x ← x.flush
  let (p, trie) ← x.trie.prove particle
  some (p, { x with trie })

/-- A proof of an axon against a particle's set root. -/
def proveMember (x : AxonIndex F C) (particle axon : Particle) :
    Option (Option (TrieProof F) × AxonIndex F C) :=
  match x.sets[particle]? with
  | none => some (none, x)
  | some set => do
      let (p, set) ← set.prove axon
      some (some p, { x with sets := x.sets.insert particle set })

end AxonIndex

end LeanBbg
