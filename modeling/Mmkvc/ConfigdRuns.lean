/-
# Runs of the configuration client

Responses and queries in any order.  What a query answers is decided by the nodes that the
client has heard of: the endpoint is that of the last of them that lists the shard, never of an
earlier one, and its host is there only as long as the shard was listed once, first of its node.
-/
import Mmkvc.ShardAssignments

namespace Mmkvc

namespace ConfigdClient

open AvlDictionary KeyedWrites Transition

/-- What happens to a client: an OK response, a query with what is at `p_ep` before it, and a
call of `ShardNum`. -/
inductive ConfigdOp where
  | response (conf : Option NodeConfMap)
  | query (shardId : ShardId) (pEp : NodeEndPoint)
  | shardNum

inductive ConfigdAnswer where
  | handled
  | endPoint (found : Bool) (pEp : NodeEndPoint)
  | num (n : ℕ)
  deriving DecidableEq, Repr

def exec (hf : ShardId → BitVec 64) : ConfigdOp → ConfigdM ConfigdAnswer
  | .response conf => do
    onMessage hf ⟨.CONF_STATUS_OK, conf⟩
    return .handled
  | .query shardId pEp => do
    let r ← queryNodeEndpoint hf shardId pEp
    return .endPoint r.1 r.2
  | .shardNum => do return .num (← get).shardNum

/-! ## The client as its callers see it -/

/-- The nodes that a client has heard of, and the latest configuration. -/
structure Heard where
  nodes : List (BitVec 64 × NodeConf)
  latest : NodeConfMap

namespace Heard

def nothing : Heard := ⟨[], NodeConfMap.empty⟩

def hear (h : Heard) (conf : NodeConfMap) : Heard := ⟨h.nodes ++ conf.entries, conf⟩

/-- The last node that lists the shard. -/
def lister (h : Heard) (s : ShardId) : Option (BitVec 64 × NodeConf) :=
  (h.nodes.filter fun e => s ∈ e.2.shardIds).getLast?

/-- The shard was listed once ever, and first of its node. -/
def KeepsHost (h : Heard) (s : ShardId) (e : BitVec 64 × NodeConf) : Prop :=
  (h.nodes.flatMap fun e => e.2.shardIds).count s = 1 ∧ e.2.shardIds.head? = some s

instance (h : Heard) (s : ShardId) (e : BitVec 64 × NodeConf) : Decidable (h.KeepsHost s e) :=
  inferInstanceAs (Decidable (_ ∧ _))

/-- The endpoint of a shard. -/
def endPoint (h : Heard) (s : ShardId) : Option NodeEndPoint :=
  (h.lister s).map fun e =>
    if h.KeepsHost s e then nodeEndPoint e else (nodeEndPoint e).movedFrom

def answer (h : Heard) : ConfigdOp → ConfigdAnswer
  | .response _ => .handled
  | .query shardId pEp => .endPoint (h.endPoint shardId).isSome ((h.endPoint shardId).getD pEp)
  | .shardNum => .num h.latest.entries.length

def after (h : Heard) : ConfigdOp → Heard
  | .response conf => h.hear (conf.getD NodeConfMap.empty)
  | _ => h

def answers (h : Heard) : List ConfigdOp → List ConfigdAnswer
  | [] => []
  | op :: ops => h.answer op :: (h.after op).answers ops

end Heard

/-! ## Endpoints and writes -/

section

variable {h : Heard} {conf : NodeConfMap} {s : ShardId} {v : NodeEndPoint}
  {nodes : List (BitVec 64 × NodeConf)} {e : BitVec 64 × NodeConf}

/-- The writes that the nodes came with. -/
def nodeWrites (nodes : List (BitVec 64 × NodeConf)) : List (ShardId × NodeEndPoint) :=
  nodes.flatMap fun e => shardWrites (nodeEndPoint e) e.2.shardIds

theorem nodeWrites_append (nodes nodes' : List (BitVec 64 × NodeConf)) :
    nodeWrites (nodes ++ nodes') = nodeWrites nodes ++ nodeWrites nodes' := List.flatMap_append

theorem nodeWrites_singleton (e : BitVec 64 × NodeConf) :
    nodeWrites [e] = shardWrites (nodeEndPoint e) e.2.shardIds := List.flatMap_singleton _ _

/-- Every shard that a node lists is written once for each time it is listed. -/
theorem map_fst_nodeWrites (nodes : List (BitVec 64 × NodeConf)) :
    (nodeWrites nodes).map Prod.fst = nodes.flatMap fun e => e.2.shardIds := by
  unfold nodeWrites
  rw [List.map_flatMap]
  congr 1
  funext e
  exact map_fst_shardWrites _ _

theorem length_writesTo_nodeWrites : (writesTo s (nodeWrites nodes)).length
    = (nodes.flatMap fun e => e.2.shardIds).count s := by
  rw [length_writesTo, map_fst_nodeWrites]

/-- What is written last is the endpoint of the last node that lists the shard, whole or
without its host. -/
theorem getLast?_writesTo_nodeWrites (nodes : List (BitVec 64 × NodeConf)) (s : ShardId) :
    Option.Rel (fun e v => (s, v) ∈ shardWrites (nodeEndPoint e) e.2.shardIds)
      (nodes.filter fun e => s ∈ e.2.shardIds).getLast? (writesTo s (nodeWrites nodes)).getLast? := by
  induction nodes using List.reverseRecOn with
  | nil => exact Option.Rel.none
  | append_singleton nodes e ih =>
    rw [nodeWrites_append, nodeWrites_singleton, writesTo_append, List.filter_append]
    by_cases hs : s ∈ e.2.shardIds
    · have hfilter : [e].filter (fun e => s ∈ e.2.shardIds) = [e] := by
        rw [List.filter_singleton, decide_eq_true hs]
        rfl
      have hkey : s ∈ (shardWrites (nodeEndPoint e) e.2.shardIds).map Prod.fst := by
        rwa [map_fst_shardWrites]
      obtain ⟨⟨s', w⟩, hw, rfl⟩ := List.mem_map.mp hkey
      have hmem : w ∈ writesTo s' (shardWrites (nodeEndPoint e) e.2.shardIds) := mem_writesTo.mpr hw
      obtain ⟨v, hv⟩ := Option.ne_none_iff_exists'.mp fun hnone =>
        List.ne_nil_of_mem hmem (List.getLast?_eq_none_iff.mp hnone)
      rw [hfilter, List.getLast?_concat, List.getLast?_append, hv]
      exact Option.Rel.some (mem_writesTo.mp (List.mem_of_getLast? hv))
    · have hfilter : [e].filter (fun e => s ∈ e.2.shardIds) = [] := by
        rw [List.filter_singleton, decide_eq_false hs]
        rfl
      have hnone : writesTo s (shardWrites (nodeEndPoint e) e.2.shardIds) = [] := by
        rw [← List.length_eq_zero_iff, length_writesTo, map_fst_shardWrites, List.count_eq_zero]
        exact hs
      rw [hfilter, List.append_nil, hnone, List.append_nil]
      exact ih

/-- A shard that was listed once is listed once by its node. -/
theorem notMem_tail_of_count (he : e ∈ nodes) (hhead : e.2.shardIds.head? = some s)
    (hone : (nodes.flatMap fun e => e.2.shardIds).count s = 1) : s ∉ e.2.shardIds.tail := by
  intro htail
  have hsub : e.2.shardIds.Sublist (nodes.flatMap fun e => e.2.shardIds) := by
    rw [List.flatMap_def]
    exact List.sublist_flatten_of_mem (List.mem_map_of_mem he)
  have hle := hsub.count_le s
  rw [hone, List.eq_cons_of_mem_head? hhead, List.count_cons_self] at hle
  have hpos := List.count_pos_iff.mpr htail
  omega

/-- **The endpoints after some nodes** are those of the last nodes that list the shards. -/
theorem writeAll_nodeWrites (h : Heard) (s : ShardId) :
    writeAll stored (fun _ => none) (nodeWrites h.nodes) s = h.endPoint s := by
  have hlast : Option.Rel _ (h.lister s) _ := getLast?_writesTo_nodeWrites h.nodes s
  have hlength : (writesTo s (nodeWrites h.nodes)).length
      = (h.nodes.flatMap fun e => e.2.shardIds).count s := length_writesTo_nodeWrites
  rw [writeAll_apply, hlength]
  unfold Heard.endPoint
  generalize hv : (writesTo s (nodeWrites h.nodes)).getLast? = w at hlast
  cases hlister : h.lister s with
  | none =>
    rw [hlister] at hlast
    cases hlast
    rfl
  | some e =>
    rw [hlister] at hlast
    cases hlast with
    | some hmem =>
      rename_i v
      have he : e ∈ h.nodes := List.mem_of_mem_filter (List.mem_of_getLast? hlister)
      rw [Option.map_some]
      show some (stored (_ || _) v) = _
      refine congrArg some ?_
      rw [Option.isSome_none, Bool.false_or]
      by_cases hone : (h.nodes.flatMap fun e => e.2.shardIds).count s = 1
      · -- written once: the endpoint as the shards of its node are written
        rw [hone]
        rcases mem_shardWrites.mp hmem with ⟨hhead, rfl⟩ | ⟨htail, rfl⟩
        · rw [if_pos ⟨hone, hhead⟩]
          rfl
        · rw [if_neg fun hkeeps => notMem_tail_of_count he hkeeps.2 hone htail]
          rfl
      · have hpos : 0 < (h.nodes.flatMap fun e => e.2.shardIds).count s := by
          rw [← hlength]
          exact List.length_pos_of_mem (List.mem_of_getLast? hv)
        rw [decide_eq_true (by omega), if_neg fun hkeeps => hone hkeeps.1]
        rcases mem_shardWrites.mp hmem with ⟨-, rfl⟩ | ⟨-, rfl⟩ <;> rfl

/-! ## Runs -/

/-- The client has heard of these nodes, and the latest configuration is this one. -/
structure Knows (hf : ShardId → BitVec 64) (c : ConfigdClient) (h : Heard) : Prop where
  endpoints : HasEndpoints hf h.endPoint c
  latest : c.nodeConfMap = h.latest

variable {hf : ShardId → BitVec 64}

/-- Another configuration is written over what the client knew. -/
theorem Heard.endPoint_hear (h : Heard) (conf : NodeConfMap) :
    (h.hear conf).endPoint = writeAll stored h.endPoint (writes conf) := by
  have hbefore : h.endPoint = writeAll stored (fun _ => none) (nodeWrites h.nodes) := by
    funext s
    exact (writeAll_nodeWrites h s).symm
  have hwrites : nodeWrites (h.hear conf).nodes = nodeWrites h.nodes ++ writes conf :=
    nodeWrites_append _ _
  funext s
  rw [← writeAll_nodeWrites, hwrites, writeAll_append, ← hbefore]

/-- The dictionary does not touch the configuration. -/
theorem nodeConfMap_onDict {α : Type} {p : HtM (KeyValue ShardId NodeEndPoint) α} {a : α}
    {c c' : ConfigdClient} (h : (onDict p).run c = some (a, c')) :
    c'.nodeConfMap = c.nodeConfMap := by
  obtain ⟨r, -, hr⟩ := Option.map_eq_some_iff.mp h
  rw [← (Prod.mk.inj hr).2]

/-- A query leaves the configuration alone. -/
theorem nodeConfMap_query {pEp : NodeEndPoint} {r : Bool × NodeEndPoint} {c c' : ConfigdClient}
    (h : (queryNodeEndpoint hf s pEp).run c = some (r, c')) : c'.nodeConfMap = c.nodeConfMap := by
  obtain ⟨⟨p, c₁⟩, hfind, h⟩ := Option.bind_eq_some_iff.mp h
  have h₁ := nodeConfMap_onDict hfind
  cases p with
  | none =>
    cases h
    exact h₁
  | some a =>
    obtain ⟨⟨ep, c₂⟩, hread, h⟩ := Option.bind_eq_some_iff.mp h
    cases h
    exact (nodeConfMap_onDict hread).trans h₁

/-- A call answers from what the client has heard. -/
theorem exec_spec (h : Heard) (op : ConfigdOp) :
    Triple (Knows hf · h) (exec hf op) fun r c => r = h.answer op ∧ Knows hf c (h.after op) := by
  intro c hc
  cases op with
  | response conf =>
    obtain ⟨⟨⟩, c', hrun, hends, hlatest⟩ := onMessage_spec conf c hc.endpoints
    rw [← Heard.endPoint_hear] at hends
    exact ⟨_, c', run_bind_eq hrun rfl, rfl, hends, hlatest⟩
  | query s pEp =>
    obtain ⟨r, c', hrun, rfl, hends⟩ := queryNodeEndpoint_spec s pEp c hc.endpoints
    exact ⟨_, c', run_bind_eq hrun rfl, rfl, hends, (nodeConfMap_query hrun).trans hc.latest⟩
  | shardNum => exact ⟨_, c, rfl, by rw [Heard.answer, ← hc.latest]; rfl, hc⟩

/-- A run answers from what the client has heard up to each call. -/
theorem outputs_answers (ops : List ConfigdOp) {c : ConfigdClient} {h : Heard}
    (hc : Knows hf c h) :
    ∃ c', outputs (fun c op => (exec hf op).run c) c ops = some (h.answers ops, c') := by
  induction ops generalizing c h with
  | nil => exact ⟨c, rfl⟩
  | cons op ops ih =>
    obtain ⟨_, c₁, hrun, rfl, hc₁⟩ := exec_spec h op c hc
    obtain ⟨c', hrest⟩ := ih hc₁
    exact ⟨c', outputs_cons.mpr ⟨_, c₁, _, hrun, hrest, rfl⟩⟩

/-- **What a configuration client answers.**  After any responses and queries, in any order, a
query finds the shard exactly if some node that the client has heard of lists it, and gives
the node number and port of the last one that does; the host is empty unless the shard was
listed once ever, first of its node.  `ShardNum` is the number of nodes of the latest
configuration. -/
theorem outputs_configd_eq (hf : ShardId → BitVec 64) (ops : List ConfigdOp) :
    ∃ c c', construct = some c
      ∧ outputs (fun c op => (exec hf op).run c) c ops = some (Heard.nothing.answers ops, c') := by
  obtain ⟨c, hc, hnone⟩ := exists_hasEndpoints hf
  have hlatest : c.nodeConfMap = NodeConfMap.empty := by
    obtain ⟨dict, -, rfl⟩ := Option.map_eq_some_iff.mp hc
    rfl
  obtain ⟨c', h⟩ := outputs_answers ops (Knows.mk (h := Heard.nothing) hnone hlatest)
  exact ⟨c, c', hc, h⟩

/-- A shard that moves to another node is answered with the other node, without its host. -/
example : Heard.nothing.answers [.response (some oneShard), .query 1 ⟨0, [], 0⟩,
    .response (some ⟨[(8, ⟨90, [98], [1]⟩)], by decide⟩), .query 1 ⟨0, [], 0⟩]
    = [.handled, .endPoint true ⟨7, [97], 80⟩, .handled, .endPoint true ⟨8, [], 90⟩] := by decide

end

end ConfigdClient

end Mmkvc
