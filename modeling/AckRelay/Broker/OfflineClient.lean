import AckRelay.Broker.Client

namespace AckRelay

structure OfflineClient where
  topics : List String := []
  assigned : List Partition := []
  deriving DecidableEq, Repr

namespace OfflineClient

def fault : ClientCode := .brokerTransportFailure

def invalidArgument : String := "Local: Invalid argument or configuration"

def conflict : String := "Local: Conflicting use"

end OfflineClient

open OfflineClient in
instance : GroupClient OfflineClient where
  subscribe topics := do
    if topics = [] ∨ "" ∈ topics ∨ ¬topics.Nodup then throw (.subscription invalidArgument)
    modify fun c => { c with topics }
  unsubscribe c := { c with topics := [] }
  assign ps := do
    unless ps.Nodup do throw (.subscription invalidArgument)
    modify fun c => { c with assigned := ps }
  unassign := modify fun c => { c with assigned := [] }
  assignment := return (← get).assigned
  pause _ := pure ()
  resume _ := pure ()
  store positions :=
    throw (.consumerCommit (if positions = [] then .noOffset else fault))
  stored _ _ := throw (.metadataFetch fault)
  endOffset _ _ := throw (.metadataFetch fault)
  metadata _ _ := throw (.metadataFetch fault)
  poll _ c := (.nothing, [], c)
  cooperative _ := false
  incrementalAssign ps := do
    unless ps.Nodup do throw (.subscription invalidArgument)
    let assigned := (← get).assigned
    if ∃ p ∈ ps, p ∈ assigned then throw (.subscription conflict)
    modify fun c => { c with assigned := assigned ++ ps }
  incrementalUnassign ps := do
    let assigned := (← get).assigned
    unless ps.Nodup ∧ ∀ p ∈ ps, p ∈ assigned do throw (.subscription invalidArgument)
    modify fun c => { c with assigned := assigned.filter (fun p => p ∉ ps) }

end AckRelay
