/-
The size variables of the beacon chain and their values on the main network.
-/
import SimpleSerialize.SizeVars

namespace SimpleSerialize.Beacon

def slotsPerHistoricalRoot : String := "SLOTS_PER_HISTORICAL_ROOT"

def epochsPerHistoricalVector : String := "EPOCHS_PER_HISTORICAL_VECTOR"

def historicalRootsLimit : String := "HISTORICAL_ROOTS_LIMIT"

def validatorRegistryLimit : String := "VALIDATOR_REGISTRY_LIMIT"

def maxValidatorsPerCommittee : String := "MAX_VALIDATORS_PER_COMMITTEE"

def maxProposerSlashings : String := "MAX_PROPOSER_SLASHINGS"

def maxAttestations : String := "MAX_ATTESTATIONS"

def maxVoluntaryExits : String := "MAX_VOLUNTARY_EXITS"

/-- The values on the main network. -/
def mainnet : SizeVars := .ofList [
  (slotsPerHistoricalRoot, 8192),
  (epochsPerHistoricalVector, 65536),
  (historicalRootsLimit, 0x1000000),
  (validatorRegistryLimit, 0x10000000000),
  (maxValidatorsPerCommittee, 2048),
  (maxProposerSlashings, 16),
  (maxAttestations, 128),
  (maxVoluntaryExits, 16)]

end SimpleSerialize.Beacon
