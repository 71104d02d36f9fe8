/-
# The client of the configuration server (`client/configd_client.cc`)

`OnMessage` writes the endpoint of each node to the shards of the node, in a dictionary that it
never empties, and moves the one endpoint object into each of these writes.  `onMessage_spec`
says what a response writes to the dictionary as a partial function from shards to endpoints.
-/
import Mmkvc.ComparatorUtil
import Mmkvc.DictionaryRuns
import Mmkvc.KeyedWrites

namespace Mmkvc

/-- `shard_id_t`. -/
abbrev ShardId := BitVec 64

/-- `NodeEndPoint`. -/
structure NodeEndPoint where
  nodeId : BitVec 64
  host : Bytes
  port : BitVec 16
  deriving DecidableEq, Repr

/-- What is left of an endpoint that was moved from: its string is empty. -/
def NodeEndPoint.movedFrom (ep : NodeEndPoint) : NodeEndPoint := { ep with host := [] }

@[simp] theorem NodeEndPoint.movedFrom_movedFrom (ep : NodeEndPoint) :
    ep.movedFrom.movedFrom = ep.movedFrom := rfl

/-- `NodeConf`. -/
structure NodeConf where
  port : BitVec 32
  host : Bytes
  shardIds : List ShardId
  deriving DecidableEq, Repr

/-- `map<uint64, NodeConf>`, its entries in the order of an iteration. -/
structure NodeConfMap where
  entries : List (BitVec 64 × NodeConf)
  nodup : (entries.map Prod.fst).Nodup

def NodeConfMap.empty : NodeConfMap := ⟨[], List.nodup_nil⟩

/-- `ConfigStatusCode`. -/
inductive ConfigStatusCode where
  | CONF_STATUS_OK
  | CONF_INVALID_REQ
  deriving DecidableEq, Repr

/-- `ConfigResponse`. -/
structure ConfigResponse where
  status : ConfigStatusCode
  conf : Option NodeConfMap

/-- `ConfigdClient`: the endpoints of the shards, and the latest configuration. -/
structure ConfigdClient where
  shardEndpointDict : AvlDictionary ShardId NodeEndPoint
  nodeConfMap : NodeConfMap

namespace ConfigdClient

open AvlDictionary KeyedWrites

/-- A program over the client. -/
abbrev ConfigdM := StateT ConfigdClient Option

/-- A call of the dictionary. -/
def onDict {α : Type} (p : HtM (KeyValue ShardId NodeEndPoint) α) : ConfigdM α := fun c =>
  (p.run c.shardEndpointDict).map fun r => (r.1, { c with shardEndpointDict := r.2 })

/-- The constructor. -/
def construct : Option ConfigdClient :=
  TreeHashTable.construct.map fun dict => ⟨dict, NodeConfMap.empty⟩

section

variable (hf : ShardId → BitVec 64)

/-- `QueryNodeEndpoint`: the result, and what is then at `p_ep`. -/
def queryNodeEndpoint (shardId : ShardId) (pEp : NodeEndPoint) :
    ConfigdM (Bool × NodeEndPoint) := do
  match ← onDict (find Comparator.compareUint hf shardId) with
  | none => return (false, pEp)
  | some pShardEndPoint => do
    let endPoint ← onDict (valueAt pShardEndPoint)
    return (true, { host := endPoint.host, port := endPoint.port, nodeId := endPoint.nodeId })

/-- The loop over the shards of a node. -/
def storeShards (nodeEndPoint : NodeEndPoint) : List ShardId →
    HtM (KeyValue ShardId NodeEndPoint) Unit
  | [] => return ()
  | shardId :: shardIds => do
    -- the entry is made of the endpoint before the dictionary looks for the shard
    match ← insertKvWithDuplicate Comparator.compareUint hf shardId nodeEndPoint with
    | (true, _) => storeShards nodeEndPoint.movedFrom shardIds
    | (false, some depKeyValue) => do
      setValue depKeyValue nodeEndPoint.movedFrom
      storeShards nodeEndPoint.movedFrom.movedFrom shardIds
    | (false, none) => failure

/-- The endpoint of a node. -/
def nodeEndPoint (idNodeConf : BitVec 64 × NodeConf) : NodeEndPoint where
  nodeId := idNodeConf.1
  host := idNodeConf.2.host
  port := idNodeConf.2.port.setWidth 16

/-- The loop over the nodes. -/
def storeNodes : List (BitVec 64 × NodeConf) → HtM (KeyValue ShardId NodeEndPoint) Unit
  | [] => return ()
  | idNodeConf :: entries => do
    storeShards hf (nodeEndPoint idNodeConf) idNodeConf.2.shardIds
    storeNodes entries

/-- `OnMessage`. -/
def onMessage (resp : ConfigResponse) : ConfigdM Unit := do
  match resp.status with
  | .CONF_STATUS_OK => do
    let conf := resp.conf.getD NodeConfMap.empty
    onDict (storeNodes hf conf.entries)
    modify fun c => { c with nodeConfMap := conf }
  -- `LOG_FATAL`
  | .CONF_INVALID_REQ => failure

/-- `ShardNum`. -/
def shardNum (c : ConfigdClient) : ℕ := c.nodeConfMap.entries.length

end

/-! ## What a configuration writes -/

/-- The first shard of a node is written the endpoint, the others what is left of it. -/
def shardWrites (ep : NodeEndPoint) : List ShardId → List (ShardId × NodeEndPoint)
  | [] => []
  | shardId :: shardIds => (shardId, ep) :: shardWrites ep.movedFrom shardIds

/-- The writes of a configuration. -/
def writes (conf : NodeConfMap) : List (ShardId × NodeEndPoint) :=
  conf.entries.flatMap fun e => shardWrites (nodeEndPoint e) e.2.shardIds

/-- A shard that has an endpoint already is given a moved one. -/
def stored (there : Bool) (ep : NodeEndPoint) : NodeEndPoint := if there then ep.movedFrom else ep

/-- The dictionary has the endpoints `D`. -/
def HasEndpoints (hf : ShardId → BitVec 64) (D : ShardId → Option NodeEndPoint)
    (c : ConfigdClient) : Prop :=
  Holding (traits NodeEndPoint Comparator.compareUint hf) c.shardEndpointDict D

section

variable {hf : ShardId → BitVec 64} {D : ShardId → Option NodeEndPoint}

/-- A call of the dictionary leaves the rest of the client alone. -/
theorem run_onDict {α : Type} {p : HtM (KeyValue ShardId NodeEndPoint) α} {c : ConfigdClient}
    {a : α} {s : AvlDictionary ShardId NodeEndPoint}
    (h : p.run c.shardEndpointDict = some (a, s)) :
    (onDict p).run c = some (a, { c with shardEndpointDict := s }) := by
  show Option.map _ _ = _
  rw [h]
  rfl

theorem lawfulHash_shard (hf : ShardId → BitVec 64) :
    LawfulHash (traits NodeEndPoint Comparator.compareUint hf) :=
  lawfulHash Comparator.lawfulCompare_uint (fun _ _ => Comparator.compareUint_eq_zero) hf

/-- A new client knows no endpoint. -/
theorem exists_hasEndpoints (hf : ShardId → BitVec 64) :
    ∃ c, construct = some c ∧ HasEndpoints hf (fun _ => none) c := by
  obtain ⟨s, hs, h⟩ := exists_holding (V := NodeEndPoint) Comparator.compareUint hf
  exact ⟨⟨s, NodeConfMap.empty⟩, by rw [construct, hs]; rfl, h⟩

/-- The shards of a node are stored one after the other. -/
theorem storeShards_spec (ep : NodeEndPoint) (shardIds : List ShardId) :
    Triple (Holding (traits NodeEndPoint Comparator.compareUint hf) · D)
      (storeShards hf ep shardIds)
      fun _ s => Holding (traits NodeEndPoint Comparator.compareUint hf) s
        (writeAll stored D (shardWrites ep shardIds)) := by
  have heq : ∀ x y : ShardId, Comparator.compareUint x y = 0 ↔ x = y :=
    fun _ _ => Comparator.compareUint_eq_zero
  induction shardIds generalizing ep D with
  | nil => exact triple_pure fun s hs => hs
  | cons shardId shardIds ih =>
    intro s hs
    obtain ⟨_, s₁, hinsert, a, rfl, h₁⟩ :=
      insertKvWithDuplicate_spec heq (lawfulHash_shard hf) shardId ep s hs
    cases hD : D shardId with
    | none =>
      have hput : put D shardId ep = write stored D (shardId, ep) := by
        unfold put write
        rw [hD]
        rfl
      rw [hD] at hinsert
      rw [hput] at h₁
      obtain ⟨u, s₂, hrest, h₂⟩ := ih ep.movedFrom s₁ h₁.holding
      exact ⟨u, s₂, run_bind_eq hinsert hrest, h₂⟩
    | some ep' =>
      obtain ⟨u₁, s₂, hset, h₂⟩ := setValue_spec heq ep.movedFrom s₁ h₁
      have hput : Function.update (put D shardId ep) shardId (some ep.movedFrom)
          = write stored D (shardId, ep) := by
        unfold put write
        rw [Function.update_idem, hD]
        rfl
      rw [hD] at hinsert
      rw [hput] at h₂
      obtain ⟨u, s₃, hrest, h₃⟩ := ih ep.movedFrom s₂ h₂.holding
      exact ⟨u, s₃, run_bind_eq hinsert (run_bind_eq hset hrest), h₃⟩

/-- The nodes are stored in the order in which the iteration gives them. -/
theorem storeNodes_spec (entries : List (BitVec 64 × NodeConf)) :
    Triple (Holding (traits NodeEndPoint Comparator.compareUint hf) · D) (storeNodes hf entries)
      fun _ s => Holding (traits NodeEndPoint Comparator.compareUint hf) s
        (writeAll stored D
          (entries.flatMap fun e => shardWrites (nodeEndPoint e) e.2.shardIds)) := by
  induction entries generalizing D with
  | nil => exact triple_pure fun s hs => hs
  | cons e entries ih =>
    rw [List.flatMap_cons, writeAll_append]
    exact (storeShards_spec (nodeEndPoint e) e.2.shardIds).bind fun _ => ih

/-- **What a response does** to the endpoints. -/
theorem onMessage_spec (conf : Option NodeConfMap) :
    Triple (HasEndpoints hf D) (onMessage hf ⟨.CONF_STATUS_OK, conf⟩)
      fun _ c => HasEndpoints hf (writeAll stored D (writes (conf.getD NodeConfMap.empty))) c
        ∧ c.nodeConfMap = conf.getD NodeConfMap.empty := by
  intro c hc
  obtain ⟨u, s, hrun, hs⟩ := storeNodes_spec (conf.getD NodeConfMap.empty).entries _ hc
  exact ⟨(), _, run_bind_eq (run_onDict hrun) rfl, hs, rfl⟩

/-- **What a query answers.** -/
theorem queryNodeEndpoint_spec (shardId : ShardId) (pEp : NodeEndPoint) :
    Triple (HasEndpoints hf D) (queryNodeEndpoint hf shardId pEp)
      fun r c => r = ((D shardId).isSome, (D shardId).getD pEp) ∧ HasEndpoints hf D c := by
  intro c hc
  obtain ⟨p, s, hfind, ⟨hD, rfl, h⟩ | ⟨a, v, hD, rfl, h⟩⟩ :=
    find_spec (lawfulHash_shard hf) shardId _ hc
  · exact ⟨_, _, run_bind_eq (run_onDict hfind) rfl, by rw [hD]; rfl, h⟩
  · obtain ⟨w, s', hread, hw, h'⟩ := valueAt_spec s h
    rw [hD] at hw
    obtain rfl := Option.some.inj hw
    refine ⟨_, { c with shardEndpointDict := s' },
      run_bind_eq (run_onDict hfind) (run_bind_eq (run_onDict hread) rfl), ?_, h'.holding⟩
    rw [hD]
    rfl

end

end ConfigdClient

end Mmkvc
