/-
Blocks and states of the beacon chain.

A chain starts from `State.genesis` and `Block.genesis`.  `Block.header` is what stands for a block
where its body is not needed, and `verifyStateRoot` checks that a block commits to a state.
-/
import SimpleSerialize.Beacon.Models
import SimpleSerialize.Model.Codec

namespace SimpleSerialize.Beacon

/-- Slots, epochs, amounts and counts. -/
abbrev Word := Fin UInt64.size

/-- The header of a block: the root of the body in place of the body. -/
structure BlockHeader where
  slot : Word
  parentRoot : Root
  stateRoot : Root
  bodyRoot : Root
  signature : FixedBytes 96

structure Block where
  slot : Word
  parentRoot : Root
  stateRoot : Root
  body : blockBody.Instance
  signature : FixedBytes 96

structure State where
  genesisTime : Word
  slot : Word
  fork : fork.Instance
  latestBlockHeader : BlockHeader
  blockRoots : List Root
  stateRoots : List Root
  historicalRoots : List Root
  eth1Data : eth1Data.Instance
  validators : List validator.Instance
  balances : List Word
  randaoMixes : List Root
  previousJustified : checkpoint.Instance
  currentJustified : checkpoint.Instance
  finalized : checkpoint.Instance

/-- A checkpoint that is zero throughout. -/
def noCheckpoint : checkpoint.Instance := ((0 : Word), .zero 32, ())

/-- The data of a deposit contract without deposits. -/
def noDeposits : eth1Data.Instance := (.zero 32, (0 : Word), .zero 32, ())

namespace BlockHeader

/-- The header that is zero throughout. -/
def zero : BlockHeader := ⟨0, .zero 32, .zero 32, .zero 32, .zero 96⟩

def toInstance (h : BlockHeader) : blockHeader.Instance :=
  (h.slot, h.parentRoot, h.stateRoot, h.bodyRoot, h.signature, ())

def ofInstance : blockHeader.Instance → BlockHeader :=
  fun (slot, parentRoot, stateRoot, bodyRoot, signature, _) =>
    ⟨slot, parentRoot, stateRoot, bodyRoot, signature⟩

end BlockHeader

namespace Block

def toInstance (b : Block) : block.Instance :=
  (b.slot, b.parentRoot, b.stateRoot, b.body, b.signature, ())

def ofInstance : block.Instance → Block :=
  fun (slot, parentRoot, stateRoot, body, signature, _) =>
    ⟨slot, parentRoot, stateRoot, body, signature⟩

/-- The block that a chain starts from, zero throughout. -/
def genesis : Block where
  slot := 0
  parentRoot := .zero 32
  stateRoot := .zero 32
  body := (.zero 96, noDeposits, .zero 32, [], [], [], ())
  signature := .zero 96

/-- The header of a block, given the root of its body. -/
def header (b : Block) (bodyRoot : Root) : BlockHeader :=
  ⟨b.slot, b.parentRoot, b.stateRoot, bodyRoot, b.signature⟩

end Block

namespace State

def toInstance (s : State) : state.Instance :=
  (s.genesisTime, s.slot, s.fork, s.latestBlockHeader.toInstance, s.blockRoots, s.stateRoots,
    s.historicalRoots, s.eth1Data, s.validators, s.balances, s.randaoMixes, s.previousJustified,
    s.currentJustified, s.finalized, ())

def ofInstance : state.Instance → State :=
  fun (genesisTime, slot, fork, header, blockRoots, stateRoots, historicalRoots, eth1Data,
      validators, balances, randaoMixes, previousJustified, currentJustified, finalized, _) =>
    ⟨genesisTime, slot, fork, .ofInstance header, blockRoots, stateRoots, historicalRoots, eth1Data,
      validators, balances, randaoMixes, previousJustified, currentJustified, finalized⟩

/-- A history of zero roots, as long as a size variable says. -/
def history (sizes : String → Option UInt64) (name : String) : Except SchemaError (List Root) := do
  let length ← SizeVars.require sizes state.shapeName name
  return List.replicate length.toNat (.zero 32)

/-- The state that a chain starts from: empty lists, histories of zero roots, and zero elsewhere. -/
def genesis (sizes : String → Option UInt64) (time : Word) : Except SchemaError State := do
  return {
    genesisTime := time
    slot := 0
    fork := (.zero 4, .zero 4, (0 : Word), ())
    latestBlockHeader := .zero
    blockRoots := ← history sizes slotsPerHistoricalRoot
    stateRoots := ← history sizes slotsPerHistoricalRoot
    historicalRoots := []
    eth1Data := noDeposits
    validators := []
    balances := []
    randaoMixes := ← history sizes epochsPerHistoricalVector
    previousJustified := noCheckpoint
    currentJustified := noCheckpoint
    finalized := noCheckpoint }

end State

/-- Why a block does not stand for a state. -/
inductive VerifyError
  | stateRoot (expected actual : Root)
  | codec (error : CodecError)
  deriving DecidableEq

namespace VerifyError

def message : VerifyError → String
  | stateRoot expected actual =>
    "state root doesn't match, expected " ++ expected.display ++ " but got " ++ actual.display
  | codec error => "cannot hash state: " ++ error.message

def sources : VerifyError → List String
  | stateRoot _ _ => []
  | codec error => error.message :: error.sources

end VerifyError

/-- Checks that the state root of a block is the root of a state. -/
def verifyStateRoot (s : State) (b : Block) : CodecM VerifyError Unit := do
  let actual ← (Codec.rootOfModel state s.toInstance).adapt .codec
  if actual = b.stateRoot then return ()
  else throw (.stateRoot b.stateRoot actual)

/-- Messages between nodes are known by their roots. -/
def messageId (m : Model) (x : m.Instance) : CodecM CodecError Root := Codec.rootOfModel m x

/-- A request for the roots of some blocks in a row. -/
structure BlockRootsRequest where
  startSlot : Word
  count : Word

namespace BlockRootsRequest

/-- What requests for block roots are called by on the wire. -/
def methodId : Nat := 0x0f

def toInstance (r : BlockRootsRequest) : blockRootsRequest.Instance := (r.startSlot, r.count, ())

end BlockRootsRequest

end SimpleSerialize.Beacon
