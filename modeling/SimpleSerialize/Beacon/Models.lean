/-
The models of the beacon chain.
-/
import SimpleSerialize.Beacon.Preset
import SimpleSerialize.Model.Lift

namespace SimpleSerialize.Beacon

/-- A record whose fields have no hints. -/
abbrev record (name : String) (fields : List (String × Model)) : Model :=
  .record name (ModelFields.ofList fields)

/-- A subclass that accepts every value of its target. -/
abbrev newtype (name : String) (inner : Model) : Model := .newtype name inner .ok

abbrev word : Model := .uint .eight

abbrev root : Model := .bytes 32

abbrev slot : Model := newtype "Slot" word

abbrev epoch : Model := newtype "Epoch" word

abbrev gwei : Model := newtype "Gwei" word

abbrev validatorIndex : Model := newtype "ValidatorIndex" word

abbrev publicKey : Model := newtype "BlsPubkey" (.bytes 48)

abbrev signature : Model := newtype "BlsSignature" (.bytes 96)

abbrev version : Model := newtype "Version" (.bytes 4)

abbrev checkpoint : Model := record "Checkpoint" [("epoch", epoch), ("root", root)]

abbrev fork : Model :=
  record "Fork" [("previous_version", version), ("current_version", version), ("epoch", epoch)]

abbrev eth1Data : Model :=
  record "Eth1Data" [("deposit_root", root), ("deposit_count", word), ("block_hash", root)]

abbrev blockHeader : Model :=
  record "BeaconBlockHeader" [("slot", slot), ("parent_root", root), ("state_root", root),
    ("body_root", root), ("signature", signature)]

abbrev attestationData : Model :=
  record "AttestationData" [("slot", slot), ("index", word), ("beacon_block_root", root),
    ("source", checkpoint), ("target", checkpoint)]

abbrev attestation : Model :=
  record "Attestation" [("aggregation_bits", .sizedList .bool maxValidatorsPerCommittee),
    ("data", attestationData), ("signature", signature)]

abbrev proposerSlashing : Model :=
  record "ProposerSlashing" [("proposer_index", validatorIndex), ("header_1", blockHeader),
    ("header_2", blockHeader)]

abbrev voluntaryExit : Model :=
  record "VoluntaryExit" [("epoch", epoch), ("validator_index", validatorIndex),
    ("signature", signature)]

abbrev blockBody : Model :=
  record "BeaconBlockBody" [("randao_reveal", signature), ("eth1_data", eth1Data),
    ("graffiti", root), ("proposer_slashings", .sizedList proposerSlashing maxProposerSlashings),
    ("attestations", .sizedList attestation maxAttestations),
    ("voluntary_exits", .sizedList voluntaryExit maxVoluntaryExits)]

abbrev block : Model :=
  record "BeaconBlock" [("slot", slot), ("parent_root", root), ("state_root", root),
    ("body", blockBody), ("signature", signature)]

abbrev validator : Model :=
  record "Validator" [("pubkey", publicKey), ("withdrawal_credentials", root),
    ("effective_balance", gwei), ("slashed", .bool), ("activation_eligibility_epoch", epoch),
    ("activation_epoch", epoch), ("exit_epoch", epoch), ("withdrawable_epoch", epoch)]

abbrev state : Model :=
  record "BeaconState" [("genesis_time", word), ("slot", slot), ("fork", fork),
    ("latest_block_header", blockHeader),
    ("block_roots", .sizedVector root slotsPerHistoricalRoot),
    ("state_roots", .sizedVector root slotsPerHistoricalRoot),
    ("historical_roots", .sizedList root historicalRootsLimit), ("eth1_data", eth1Data),
    ("validators", .sizedList validator validatorRegistryLimit),
    ("balances", .sizedList gwei validatorRegistryLimit),
    ("randao_mixes", .sizedVector root epochsPerHistoricalVector),
    ("previous_justified_checkpoint", checkpoint), ("current_justified_checkpoint", checkpoint),
    ("finalized_checkpoint", checkpoint)]

abbrev blockRootsRequest : Model :=
  record "BlockRootsRequestMessage" [("start_slot", slot), ("count", word)]

abbrev blockBodiesResponse : Model :=
  record "BlockBodiesResponseMessage" [("block_bodies", .list blockBody)]

/-- All models of the beacon chain. -/
def models : List Model := [
  slot, epoch, gwei, validatorIndex, publicKey, signature, version, checkpoint, fork, eth1Data,
  blockHeader, attestationData, attestation, proposerSlashing, voluntaryExit, blockBody, block,
  validator, state, blockRootsRequest, blockBodiesResponse]

/-- The table of all shapes of the beacon chain. -/
def schema : Except SchemaError Schema :=
  Declare.build do
    let _ ← state.declare
    let _ ← block.declare
    let _ ← blockHeader.declare
    let _ ← blockRootsRequest.declare
    blockBodiesResponse.declare

end SimpleSerialize.Beacon
