import LeanBbg.Bbg
import LeanBbg.LibCells

/-! The records of the graph as addressed cells. An address is a record domain that transitions write and
a key in it; every primitive write of the state is a write of one cell. -/

set_option linter.unusedSectionVars false

namespace LeanBbg

variable {F : Type} [Hemera F] [DecidableEq F]

/-- The record domains that a transition writes. -/
inductive Cell where
  | particle (p : Particle)
  | axonsOut (p : Particle)
  | axonsIn (p : Particle)
  | neuron (id : NeuronId)
  | time (height : UInt64)
  | signal (key : Particle)
  | commitment (point : Bytes32)
  | nullifier (key : Bytes32)
  | balance (key : Bytes32)
  | intent (key : Particle)
  | axonEdge (axon : Particle)
  | lastTouched (axon : Particle)
  deriving DecidableEq

namespace Cell

/-- The record type of a domain. -/
def Val (F : Type) : Cell → Type
  | particle _ => ParticleRecord
  | axonsOut _ => AxonList
  | axonsIn _ => AxonList
  | neuron _ => NeuronRecord
  | time _ => Particle
  | signal _ => SignalRecord
  | commitment _ => F
  | nullifier _ => Unit
  | balance _ => UInt64
  | intent _ => IntentRecord
  | axonEdge _ => Particle × Particle
  | lastTouched _ => UInt64

def get (b : Bbg F) : (c : Cell) → Option (c.Val F)
  | particle p => b.state.particles[p]?
  | axonsOut p => b.state.axonsOut[p]?
  | axonsIn p => b.state.axonsIn[p]?
  | neuron id => b.state.neurons[id]?
  | time h => b.state.time[h]?
  | signal k => b.state.signals[k]?
  | commitment k => b.state.commitments[k]?
  | nullifier k => b.state.nullifiers[k]?
  | balance k => b.state.balances[k]?
  | intent k => b.state.intents[k]?
  | axonEdge a => b.state.axonEdges[a]?
  | lastTouched a => b.lastTouched[a]?

def put (b : Bbg F) : (c : Cell) → Option (c.Val F) → Bbg F
  | particle p, v => { b with state := { b.state with particles := b.state.particles.put p v } }
  | axonsOut p, v => { b with state := { b.state with axonsOut := OrdMap.put b.state.axonsOut p v } }
  | axonsIn p, v => { b with state := { b.state with axonsIn := OrdMap.put b.state.axonsIn p v } }
  | neuron id, v => { b with state := { b.state with neurons := b.state.neurons.put id v } }
  | time h, v => { b with state := { b.state with time := b.state.time.put h v } }
  | signal k, v => { b with state := { b.state with signals := b.state.signals.put k v } }
  | commitment k, v => { b with state := { b.state with commitments := b.state.commitments.put k v } }
  | nullifier k, v => { b with state := { b.state with nullifiers := b.state.nullifiers.put k v } }
  | balance k, v => { b with state := { b.state with balances := b.state.balances.put k v } }
  | intent k, v => { b with state := { b.state with intents := b.state.intents.put k v } }
  | axonEdge a, v => { b with state := { b.state with axonEdges := b.state.axonEdges.put a v } }
  | lastTouched a, v => { b with lastTouched := OrdMap.put b.lastTouched a v }

end Cell

instance : Cells (Bbg F) Cell (Cell.Val F) where
  get c b := Cell.get b c
  put c v b := Cell.put b c v
  get_put_self c v b := by
    cases c <;> exact (OrdMap.getElem?_put ..).trans (if_pos rfl)
  get_put_other c c' v b hne := by
    cases c <;> cases c' <;> first
      | rfl
      | exact (OrdMap.getElem?_put ..).trans (if_neg fun h => hne (congrArg _ h))

/-! ### What is not a cell -/

/-- The parts of the graph that no transition writes. -/
structure Fixed where
  locations : OrdMap Particle LocationRecord
  coins : OrdMap Particle CoinRecord
  cards : OrdMap Particle CardRecord
  files : OrdMap Particle FileRecord
  diameterOverride : Option UInt64
  rootVersion : RootVersion
  pruneConfig : PruneConfig

namespace Bbg

def fixed (b : Bbg F) : Fixed :=
  ⟨b.state.locations, b.state.coins, b.state.cards, b.state.files, b.state.diameterOverride, b.state.rootVersion,
    b.pruneConfig⟩

@[simp] theorem fixed_put (c : Cell) (v : Option (c.Val F)) (b : Bbg F) : (Cells.put c v b).fixed = b.fixed := by
  cases c <;> rfl

@[simp] theorem height_put (c : Cell) (v : Option (c.Val F)) (b : Bbg F) :
    (Cells.put c v b).state.height = b.state.height := by
  cases c <;> rfl

@[simp] theorem checkpoint_put (c : Cell) (v : Option (c.Val F)) (b : Bbg F) :
    (Cells.put c v b).checkpoint = b.checkpoint := by
  cases c <;> rfl

/-- A graph is its cells, its fixed parts, its height and its checkpoint. -/
theorem ext_cells {b b' : Bbg F} (hcell : ∀ c : Cell, Cells.get c b = Cells.get c b') (hfixed : b.fixed = b'.fixed)
    (hheight : b.state.height = b'.state.height) (hcheckpoint : b.checkpoint = b'.checkpoint) : b = b' := by
  obtain ⟨⟨_, _, _, _, _, _, _, _, _, _, _, _, _, _, _, _, _, _⟩, _, _, _⟩ := b
  obtain ⟨⟨_, _, _, _, _, _, _, _, _, _, _, _, _, _, _, _, _, _⟩, _, _, _⟩ := b'
  simp only [fixed, Fixed.mk.injEq] at hfixed hheight hcheckpoint
  obtain ⟨rfl, rfl, rfl, rfl, rfl, rfl, rfl⟩ := hfixed
  subst hheight hcheckpoint
  congr 1
  · congr 1
    · exact Std.ExtTreeMap.ext_getElem? fun k => hcell (.particle k)
    · exact Std.ExtTreeMap.ext_getElem? fun k => hcell (.axonsOut k)
    · exact Std.ExtTreeMap.ext_getElem? fun k => hcell (.axonsIn k)
    · exact Std.ExtTreeMap.ext_getElem? fun k => hcell (.neuron k)
    · exact Std.ExtTreeMap.ext_getElem? fun k => hcell (.time k)
    · exact Std.ExtTreeMap.ext_getElem? fun k => hcell (.signal k)
    · exact Std.ExtTreeMap.ext_getElem? fun k => hcell (.commitment k)
    · exact Std.ExtTreeMap.ext_getElem? fun k => hcell (.nullifier k)
    · exact Std.ExtTreeMap.ext_getElem? fun k => hcell (.balance k)
    · exact Std.ExtTreeMap.ext_getElem? fun k => hcell (.intent k)
    · exact Std.ExtTreeMap.ext_getElem? fun k => hcell (.axonEdge k)
  · exact Std.ExtTreeMap.ext_getElem? fun k => hcell (.lastTouched k)

end Bbg

end LeanBbg
