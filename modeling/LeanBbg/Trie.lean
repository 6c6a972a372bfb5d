import LeanBbg.Field

/-! The keyed trie: an arena of nodes with a free list, cached branch digests and dirty flags. Every
operation of the source that can panic (an index out of bounds, an `expect`, an `unreachable!`, the
debug assertion of `replace_child`) returns an `Option` whose `none` is that panic. An index is a
`u32` in the source: `alloc` casts the length of the arena to it, and the cast wraps. -/

namespace LeanBbg

variable {F : Type} [Hemera F] [DecidableEq F]

inductive Node (F : Type) where
  | leaf (key : Bytes32) (digest : Digest F)
  | branch (bit : UInt16) (left right : Nat) (digest : Digest F) (dirty : Bool)
  deriving DecidableEq

namespace Node

def digest : Node F → Digest F
  | leaf _ d => d
  | branch _ _ _ d _ => d

/-- The node is a leaf or a branch whose cached digest is current. -/
def clean : Node F → Bool
  | leaf _ _ => true
  | branch _ _ _ _ dirty => !dirty

def setDigest (d : Digest F) : Node F → Node F
  | leaf k _ => leaf k d
  | branch i l r _ dirty => branch i l r d dirty

/-- A branch with a freshly computed digest. -/
def rehashed (d : Digest F) : Node F → Node F
  | leaf k d₀ => leaf k d₀
  | branch i l r _ _ => branch i l r d false

def markDirty : Node F → Node F
  | leaf k d => leaf k d
  | branch i l r d _ => branch i l r d true

end Node

structure Trie (F : Type) where
  nodes : Array (Node F)
  /-- The released indices, the last one released first. -/
  free : List Nat
  rootIndex : Option Nat
  len : Nat
  deriving DecidableEq

/-- A path from the root to the node a key resolves to. -/
structure TrieProof (F : Type) where
  steps : List (UInt16 × Digest F)
  terminal : Option (Bytes32 × Digest F)
  deriving DecidableEq

namespace TrieProof

/-- The loop of `verify`, over the steps from the leaf up: `some none` is its `return false`. -/
def verifyLoop (key : Bytes32) : List (UInt16 × Digest F) → Option UInt16 → Digest F →
    Option (Option (Digest F))
  | [], _, cur => some (some cur)
  | (bit, sibling) :: rest, last, cur =>
      if last.any (fun l => decide (l ≤ bit)) then some none
      else do
        let b ← keyBit key bit
        verifyLoop key rest (some bit)
          (if b then branchDigest bit sibling cur else branchDigest bit cur sibling)

/-- The end of `verify`: whether the steps lead from `d` to `root`. -/
def reaches (p : TrieProof F) (root : Digest F) (key : Bytes32) (d : Digest F) : Option Bool := do
  match ← verifyLoop key p.steps.reverse none d with
  | none => some false
  | some cur => some (decide (cur = root))

/-- Check a proof against `root` for `key`: `some d` claims the key is present with leaf digest `d`,
`none` claims it is absent. -/
def verify (p : TrieProof F) (root : Digest F) (key : Bytes32) (expected : Option (Digest F)) :
    Option Bool :=
  match p.terminal, expected with
  | none, none => some (p.steps.isEmpty && decide (root = EMPTY))
  | none, some _ => some false
  | some (k, d), some e => if k ≠ key ∨ d ≠ e then some false else p.reaches root key d
  | some (k, d), none => if k = key then some false else p.reaches root key d

end TrieProof

namespace Trie

/-- A walk passes at most one branch for each of the 256 key bits. -/
def maxDepth : Nat := 257

def empty : Trie F := ⟨#[], [], none, 0⟩

def hash : Nat → Array (Node F) → Nat → Option (Digest F × Array (Node F))
  | 0, _, _ => none
  | fuel + 1, nodes, idx =>
      match nodes[idx]? with
      | none => none
      | some (.leaf _ d) => some (d, nodes)
      | some (.branch bit left right d dirty) =>
          if dirty then do
            let (l, nodes) ← hash fuel nodes left
            let (r, nodes) ← hash fuel nodes right
            let d := branchDigest bit l r
            some (d, nodes.modify idx (Node.rehashed d))
          else some (d, nodes)

/-- The commitment: the root digest, after hashing the branches changed since the last call. -/
def root (t : Trie F) : Option (Digest F × Trie F) :=
  match t.rootIndex with
  | none => some (EMPTY, t)
  | some r => do
      let (d, nodes) ← hash maxDepth t.nodes r
      some (d, { t with nodes })

/-- Whether a call of `root` would hash. -/
def isDirty (t : Trie F) : Option Bool :=
  match t.rootIndex with
  | none => some false
  | some r => t.nodes[r]?.map fun n => !n.clean

def alloc (t : Trie F) (node : Node F) : Option (Nat × Trie F) :=
  match t.free with
  | i :: free =>
      if i < t.nodes.size then some (i, { t with nodes := t.nodes.setIfInBounds i node, free }) else none
  | [] => some (t.nodes.size % 2 ^ 32, { t with nodes := t.nodes.push node })

def release (t : Trie F) (i : Nat) : Trie F := { t with free := i :: t.free }

/-- Walk `key`'s path: the branch indices passed and the leaf reached. -/
def descend (nodes : Array (Node F)) (key : Bytes32) : Nat → Nat → Option (List Nat × Nat)
  | 0, _ => none
  | fuel + 1, cur =>
      match nodes[cur]? with
      | none => none
      | some (.leaf _ _) => some ([], cur)
      | some (.branch bit left right _ _) => do
          let b ← keyBit key bit
          let (path, leaf) ← descend nodes key fuel (if b then right else left)
          some (cur :: path, leaf)

def mark (nodes : Array (Node F)) (path : List Nat) : Array (Node F) :=
  path.foldl (fun nodes idx => nodes.modify idx Node.markDirty) nodes

def replaceChild (nodes : Array (Node F)) (parent old new : Nat) : Option (Array (Node F)) :=
  match nodes[parent]? with
  | none => none
  | some (.leaf _ _) => some nodes
  | some (.branch bit left right d dirty) =>
      if left = old then some (nodes.setIfInBounds parent (.branch bit new right d dirty))
      else if right = old then some (nodes.setIfInBounds parent (.branch bit left new d dirty))
      else none

/-- How many ancestors on the path decide on bits before `j`. -/
def keepLoop (nodes : Array (Node F)) (path : List Nat) (j : UInt16) : Nat → Option Nat
  | 0 => some 0
  | keep + 1 => do
      let idx ← path[keep]?
      match ← nodes[idx]? with
      | .branch bit _ _ _ _ => if bit < j then some (keep + 1) else keepLoop nodes path j keep
      | .leaf _ _ => none

/-- The tail of `set` for a new key: split below the ancestors deciding on bits before `j`. -/
def splitAt (t : Trie F) (key : Bytes32) (digest : Digest F) (path : List Nat) (leaf : Nat) (j : UInt16) :
    Option (Trie F) := do
  let keep ← keepLoop t.nodes path j path.length
  let split ← (if keep = path.length then some leaf else path[keep]?)
  let (newLeaf, t) ← t.alloc (.leaf key digest)
  let (left, right) := if ← keyBit key j then (split, newLeaf) else (newLeaf, split)
  let (branch, t) ← t.alloc (.branch j left right EMPTY true)
  if keep = 0 then
    some { t with rootIndex := some branch, len := t.len + 1 }
  else do
    let parent ← path[keep - 1]?
    let nodes ← replaceChild t.nodes parent split branch
    some { t with nodes := mark nodes (path.take keep), len := t.len + 1 }

/-- Set `key`'s leaf digest, inserting the key if absent; `true` if the key was new. -/
def set (t : Trie F) (key : Bytes32) (digest : Digest F) : Option (Bool × Trie F) :=
  match t.rootIndex with
  | none => do
      let (leaf, t) ← t.alloc (.leaf key digest)
      some (true, { t with rootIndex := some leaf, len := 1 })
  | some r => do
      let (path, leaf) ← descend t.nodes key maxDepth r
      match ← t.nodes[leaf]? with
      | .branch _ _ _ _ _ => none
      | .leaf leafKey d =>
          if leafKey = key then
            if d = digest then some (false, t)
            else some (false, { t with nodes := mark (t.nodes.modify leaf (Node.setDigest digest)) path })
          else do
            let j ← firstDiffBit key leafKey
            let t ← t.splitAt key digest path leaf j
            some (true, t)

/-- Remove `key`; `true` if it was present. -/
def remove (t : Trie F) (key : Bytes32) : Option (Bool × Trie F) :=
  match t.rootIndex with
  | none => some (false, t)
  | some r => do
      let (path, leaf) ← descend t.nodes key maxDepth r
      match ← t.nodes[leaf]? with
      | .branch _ _ _ _ _ => some (false, t)
      | .leaf k _ =>
          if k ≠ key then some (false, t)
          else
            let t := { t.release leaf with len := t.len - 1 }
            match path.getLast? with
            | none => some (true, { t with rootIndex := none })
            | some parent => do
                match ← t.nodes[parent]? with
                | .leaf _ _ => none
                | .branch _ left right _ _ =>
                    let sibling := if left = leaf then right else left
                    let t := t.release parent
                    let rest := path.dropLast
                    match rest.getLast? with
                    | none => some (true, { t with rootIndex := some sibling })
                    | some grand => do
                        let nodes ← replaceChild t.nodes grand parent sibling
                        some (true, { t with nodes := mark nodes rest })

/-- The leaf digest stored for `key`. -/
def get (t : Trie F) (key : Bytes32) : Option (Option (Digest F)) :=
  match t.rootIndex with
  | none => some none
  | some r => do
      let (_, leaf) ← descend t.nodes key maxDepth r
      match ← t.nodes[leaf]? with
      | .leaf k d => some (if k = key then some d else none)
      | .branch _ _ _ _ _ => some none

/-- The step of a proof at one branch of the path. -/
def proofStep (nodes : Array (Node F)) (key : Bytes32) (idx : Nat) : Option (UInt16 × Digest F) := do
  match ← nodes[idx]? with
  | .leaf _ _ => none
  | .branch bit left right _ _ => do
      let sibling ← nodes[if ← keyBit key bit then left else right]?
      some (bit, sibling.digest)

/-- An inclusion or non-inclusion proof for `key` against `root`. -/
def prove (t : Trie F) (key : Bytes32) : Option (TrieProof F × Trie F) :=
  match t.rootIndex with
  | none => some (⟨[], none⟩, t)
  | some r => do
      let (_, t) ← t.root
      let (path, leaf) ← descend t.nodes key maxDepth r
      let steps ← path.mapM (proofStep t.nodes key)
      match ← t.nodes[leaf]? with
      | .branch _ _ _ _ _ => none
      | .leaf k d => some (⟨steps, some (k, d)⟩, t)

/-- Build from scratch. -/
def fromEntries (entries : List (Bytes32 × Digest F)) : Option (Trie F) :=
  entries.foldlM (fun t e => (t.set e.1 e.2).map Prod.snd) empty

end Trie

end LeanBbg
