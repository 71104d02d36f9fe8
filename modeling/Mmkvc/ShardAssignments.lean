/-
# The endpoints that a client answers with

A node's endpoint keeps its host only in the write to the first shard of the node, and only if
the shard was in the dictionary of no earlier write.  So the answers of a client follow its
configurations under conditions on these alone: `endpointsMatch_iff` for one configuration, and
`latestWins_iff` for the last one after others, in whichever order a client goes through its map.
-/
import Mmkvc.ConfigdClient

namespace Mmkvc

/-- The map with its entries in another order, as another object may have it. -/
def NodeConfMap.Reorders (conf' conf : NodeConfMap) : Prop := conf'.entries.Perm conf.entries

namespace ConfigdClient

open AvlDictionary KeyedWrites

variable {hf : ShardId → BitVec 64} {s : ShardId} {ep v : NodeEndPoint} {ss : List ShardId}
  {conf : NodeConfMap} {D D' : ShardId → Option NodeEndPoint}

/-! ## Writes of a configuration -/

/-- The shards that a configuration lists, with repetitions. -/
def listed (conf : NodeConfMap) : List ShardId := conf.entries.flatMap fun e => e.2.shardIds

/-- The first shard of a node has its endpoint, the others have it without a host. -/
theorem mem_shardWrites : (s, v) ∈ shardWrites ep ss
    ↔ (ss.head? = some s ∧ v = ep) ∨ (s ∈ ss.tail ∧ v = ep.movedFrom) := by
  have hmoved : ∀ ss, (s, v) ∈ shardWrites ep.movedFrom ss ↔ s ∈ ss ∧ v = ep.movedFrom := by
    intro ss
    induction ss with
    | nil => simp [shardWrites]
    | cons s' ss ih =>
      rw [shardWrites, List.mem_cons, List.mem_cons, Prod.mk.injEq, NodeEndPoint.movedFrom_movedFrom,
        ih, or_and_right]
  cases ss with
  | nil => simp [shardWrites]
  | cons s' ss =>
    rw [shardWrites, List.mem_cons, hmoved, Prod.mk.injEq, List.head?_cons, List.tail_cons,
      Option.some.injEq, eq_comm (a := s)]

/-- Every shard of a node is written once for each time it is listed. -/
theorem map_fst_shardWrites (ep : NodeEndPoint) (ss : List ShardId) :
    (shardWrites ep ss).map Prod.fst = ss := by
  induction ss generalizing ep with
  | nil => rfl
  | cons s ss ih => rw [shardWrites, List.map_cons, ih]

@[simp] theorem stored_movedFrom (there : Bool) (ep : NodeEndPoint) :
    stored there ep.movedFrom = ep.movedFrom := by
  cases there <;> rfl

/-- A node whose endpoint was moved writes the moved one each time. -/
theorem writesTo_shardWrites_movedFrom : writesTo s (shardWrites ep.movedFrom ss)
    = List.replicate (ss.count s) ep.movedFrom := by
  rw [List.eq_replicate_iff, length_writesTo, map_fst_shardWrites]
  refine ⟨rfl, fun v hv => ?_⟩
  rcases mem_shardWrites.mp (mem_writesTo.mp hv) with ⟨-, rfl⟩ | ⟨-, rfl⟩ <;> rfl

/-- A shard behind the first one gets a moved endpoint. -/
theorem getLast?_writesTo_of_mem_tail {s' : ShardId} (hs : s ∈ ss) :
    (writesTo s (shardWrites ep (s' :: ss))).getLast? = some ep.movedFrom := by
  have hlast : (writesTo s (shardWrites ep.movedFrom ss)).getLast? = some ep.movedFrom := by
    rw [writesTo_shardWrites_movedFrom, List.getLast?_replicate,
      if_neg (List.count_pos_iff.mpr hs).ne']
  rw [shardWrites, writesTo_cons]
  split_ifs
  · rw [List.getLast?_cons, hlast, Option.getD_some]
  · exact hlast

/-- Every shard is written once for each time it is listed. -/
theorem map_fst_writes (conf : NodeConfMap) : (writes conf).map Prod.fst = listed conf := by
  unfold writes listed
  rw [List.map_flatMap]
  congr 1
  funext e
  exact map_fst_shardWrites _ _

theorem length_writesTo_writes : (writesTo s (writes conf)).length = (listed conf).count s := by
  rw [length_writesTo, map_fst_writes]

/-- The first shard of a node gets its endpoint, the others get what is left of it. -/
theorem mem_writes : (s, v) ∈ writes conf
    ↔ ∃ e ∈ conf.entries, (e.2.shardIds.head? = some s ∧ v = nodeEndPoint e)
      ∨ (s ∈ e.2.shardIds.tail ∧ v = (nodeEndPoint e).movedFrom) := by
  unfold writes
  rw [List.mem_flatMap]
  exact exists_congr fun e => and_congr_right fun _ => mem_shardWrites

theorem mem_listed : s ∈ listed conf ↔ ∃ e ∈ conf.entries, s ∈ e.2.shardIds := List.mem_flatMap

/-! ## Runs of a client -/

/-- The answers to queries that are asked in turn. -/
def answers (hf : ShardId → BitVec 64) :
    List (ShardId × NodeEndPoint) → ConfigdM (List (Bool × NodeEndPoint))
  | [] => return []
  | (shardId, pEp) :: queries => do
    let r ← queryNodeEndpoint hf shardId pEp
    return r :: (← answers hf queries)

/-- The OK responses with these configurations, in turn. -/
def respond (hf : ShardId → BitVec 64) : List (Option NodeConfMap) → ConfigdM Unit
  | [] => return ()
  | conf :: responses => do
    onMessage hf ⟨.CONF_STATUS_OK, conf⟩
    respond hf responses

/-- Queries are answered from the table and leave it alone. -/
theorem answers_spec (queries : List (ShardId × NodeEndPoint)) :
    Triple (HasEndpoints hf D) (answers hf queries)
      fun rs c => rs = queries.map (fun q => ((D q.1).isSome, (D q.1).getD q.2))
        ∧ HasEndpoints hf D c := by
  induction queries with
  | nil => exact triple_pure fun c hc => ⟨rfl, hc⟩
  | cons q queries ih =>
    refine (queryNodeEndpoint_spec q.1 q.2).bind_eq (ih.bind fun rs => triple_pure fun c hc => ?_)
    obtain ⟨rfl, hc⟩ := hc
    exact ⟨rfl, hc⟩

/-- The writes of OK responses. -/
def writesOf (responses : List (Option NodeConfMap)) : List (ShardId × NodeEndPoint) :=
  responses.flatMap fun conf => writes (conf.getD NodeConfMap.empty)

/-- Responses are stored one after the other. -/
theorem respond_spec (responses : List (Option NodeConfMap)) :
    Triple (HasEndpoints hf D) (respond hf responses)
      fun _ c => HasEndpoints hf (writeAll stored D (writesOf responses)) c := by
  induction responses generalizing D with
  | nil => exact triple_pure fun c hc => hc
  | cons conf responses ih =>
    have hcons : writesOf (conf :: responses)
        = writes (conf.getD NodeConfMap.empty) ++ writesOf responses := List.flatMap_cons
    rw [hcons, writeAll_append]
    exact (onMessage_spec conf).bind fun _ => ih.pre fun c hc => hc.1

/-! ## The table of one configuration -/

/-- An endpoint is that of a node. -/
def Matches (ep : NodeEndPoint) (e : BitVec 64 × NodeConf) : Prop :=
  ep.nodeId = e.1 ∧ ep.host = e.2.host ∧ ep.port.toNat = e.2.port.toNat

/-- A new client that handled the configuration answers each query of a listed shard, whatever
was queried before, with the endpoint of a node that lists it. -/
def EndpointsMatch (hf : ShardId → BitVec 64) (conf : NodeConfMap) : Prop :=
  ∃ c c', construct = some c ∧ (onMessage hf ⟨.CONF_STATUS_OK, some conf⟩).run c = some ((), c')
    ∧ ∀ e ∈ conf.entries, ∀ s ∈ e.2.shardIds, ∀ earlier pEp, ∃ rs ep c'',
      (answers hf (earlier ++ [(s, pEp)])).run c' = some (rs ++ [(true, ep)], c'') ∧ Matches ep e

/-- Each shard is listed by one node. -/
def ListedOnce (conf : NodeConfMap) : Prop :=
  ∀ e ∈ conf.entries, ∀ e' ∈ conf.entries, ∀ s ∈ e.2.shardIds, s ∈ e'.2.shardIds → e = e'

/-- The ports are 16-bit numbers. -/
def PortsFit (conf : NodeConfMap) : Prop := ∀ e ∈ conf.entries, e.2.port.toNat < 2 ^ 16

/-- The endpoints of a client that handled one configuration. -/
def table (conf : NodeConfMap) : ShardId → Option NodeEndPoint :=
  writeAll stored (fun _ => none) (writes conf)

/-- The last write to a shard decides what the table has for it. -/
theorem table_apply (conf : NodeConfMap) (s : ShardId) :
    table conf s = ((writesTo s (writes conf)).getLast?).map
      fun v => stored (decide (1 < (writesTo s (writes conf)).length)) v := by
  unfold table
  rw [writeAll_apply]
  cases (writesTo s (writes conf)).getLast? <;> rfl

/-- The endpoints match if the entries of the table do. -/
theorem endpointsMatch_iff_table (hf : ShardId → BitVec 64) (conf : NodeConfMap) :
    EndpointsMatch hf conf
      ↔ ∀ e ∈ conf.entries, ∀ s ∈ e.2.shardIds, ∃ ep, table conf s = some ep ∧ Matches ep e := by
  obtain ⟨c, hc, hnone⟩ := exists_hasEndpoints hf
  obtain ⟨⟨⟩, c', hrun, hc', -⟩ := onMessage_spec (some conf) c hnone
  have htable : HasEndpoints hf (table conf) c' := hc'
  constructor
  · rintro ⟨d, d', hd, hrun', h⟩ e he s hs
    obtain rfl := Option.some.inj (hc.symm.trans hd)
    obtain rfl := (Prod.mk.inj (Option.some.inj (hrun.symm.trans hrun'))).2
    obtain ⟨rs, ep, c₁, hquery, hep⟩ := h e he s hs [] (nodeEndPoint e)
    obtain ⟨rs', c₂, hquery', hrs', -⟩ := answers_spec ([] ++ [(s, nodeEndPoint e)]) c' htable
    have hanswer := (Prod.mk.inj (Option.some.inj (hquery.symm.trans hquery'))).1
    rw [hrs'] at hanswer
    obtain ⟨-, hlast⟩ := List.append_inj' (show rs ++ [(true, ep)] = [] ++ [_] from hanswer) rfl
    obtain ⟨hsome, hval⟩ := Prod.mk.inj (List.singleton_inj.mp hlast)
    refine ⟨ep, ?_, hep⟩
    obtain ⟨ep', hep'⟩ := Option.isSome_iff_exists.mp hsome.symm
    rw [hep'] at hval ⊢
    rw [hval]
    rfl
  · intro h
    refine ⟨c, c', hc, hrun, fun e he s hs earlier pEp => ?_⟩
    obtain ⟨ep, hep, hmatches⟩ := h e he s hs
    obtain ⟨rs, c₁, hquery, rfl, -⟩ := answers_spec (earlier ++ [(s, pEp)]) c' htable
    rw [List.map_append, List.map_singleton, hep] at hquery
    exact ⟨_, ep, c₁, hquery, hmatches⟩

/-- The endpoint of a node is that of its entry if the port is one. -/
theorem matches_nodeEndPoint {e : BitVec 64 × NodeConf} (hport : e.2.port.toNat < 2 ^ 16) :
    Matches (nodeEndPoint e) e := by
  refine ⟨rfl, rfl, ?_⟩
  show (e.2.port.setWidth 16).toNat = _
  rw [BitVec.toNat_setWidth, Nat.mod_eq_of_lt hport]

/-- The writes to a shard that one node lists are those of the node. -/
theorem writesTo_writes_eq (hone : ListedOnce conf) {e : BitVec 64 × NodeConf}
    (he : e ∈ conf.entries) (hs : s ∈ e.2.shardIds) :
    writesTo s (writes conf) = writesTo s (shardWrites (nodeEndPoint e) e.2.shardIds) := by
  obtain ⟨before, after, hsplit⟩ := List.append_of_mem he
  have hnodup : (before ++ e :: after).Nodup := hsplit ▸ conf.nodup.of_map
  have hout : e ∉ before ++ after := (List.nodup_cons.mp (List.nodup_middle.mp hnodup)).1
  have hother : ∀ l : List (BitVec 64 × NodeConf), (∀ e' ∈ l, e' ∈ before ++ after) →
      writesTo s (l.flatMap fun e => shardWrites (nodeEndPoint e) e.2.shardIds) = [] := by
    intro l hl
    refine List.eq_nil_iff_forall_not_mem.mpr fun v hv => ?_
    obtain ⟨e', he', hmem⟩ := List.mem_flatMap.mp (mem_writesTo.mp hv)
    have hs' : s ∈ e'.2.shardIds := by
      rw [← map_fst_shardWrites (nodeEndPoint e') e'.2.shardIds]
      exact List.mem_map_of_mem (f := Prod.fst) hmem
    have hentry : e' ∈ conf.entries := by
      rw [hsplit, List.mem_append, List.mem_cons]
      rcases List.mem_append.mp (hl e' he') with h | h
      · exact Or.inl h
      · exact Or.inr (Or.inr h)
    rw [hone e' hentry e he s hs' hs] at he'
    exact hout (hl e he')
  unfold writes
  rw [hsplit, List.flatMap_append, List.flatMap_cons, writesTo_append, writesTo_append,
    hother before fun _ => List.mem_append_left _, hother after fun _ => List.mem_append_right _,
    List.nil_append, List.append_nil]

/-- **When the table is that of the configuration**: no node with a host lists a second shard. -/
theorem endpointsMatch_iff (hf : ShardId → BitVec 64) (conf : NodeConfMap)
    (hone : ListedOnce conf) (hports : PortsFit conf) :
    EndpointsMatch hf conf
      ↔ ∀ e ∈ conf.entries, e.2.host = [] ∨ e.2.shardIds.length ≤ 1 := by
  rw [endpointsMatch_iff_table]
  constructor
  · intro h e he
    cases hss : e.2.shardIds with
    | nil => exact Or.inr (Nat.zero_le 1)
    | cons s₁ ss =>
      cases ss with
      | nil => exact Or.inr (Nat.le_refl 1)
      | cons s₂ ss =>
        -- the second shard is written what the first one left
        have hs : s₂ ∈ e.2.shardIds := hss ▸ List.mem_cons_of_mem _ List.mem_cons_self
        obtain ⟨ep, hep, -, hhost, -⟩ := h e he s₂ hs
        rw [table_apply, writesTo_writes_eq hone he hs, hss,
          getLast?_writesTo_of_mem_tail List.mem_cons_self, Option.map_some,
          stored_movedFrom] at hep
        obtain rfl := Option.some.inj hep
        exact Or.inl hhost.symm
  · intro h e he s hs
    rw [table_apply, writesTo_writes_eq hone he hs]
    rcases h e he with hhost | hlen
    · have hmoved : (nodeEndPoint e).movedFrom = nodeEndPoint e := by
        unfold NodeEndPoint.movedFrom nodeEndPoint
        rw [hhost]
      rw [← hmoved, writesTo_shardWrites_movedFrom, List.getLast?_replicate,
        if_neg (List.count_pos_iff.mpr hs).ne', Option.map_some, stored_movedFrom, hmoved]
      exact ⟨_, rfl, matches_nodeEndPoint (hports e he)⟩
    · obtain ⟨s', hss⟩ := List.length_eq_one_iff.mp
        (Nat.le_antisymm hlen (List.length_pos_of_mem hs))
      obtain rfl : s = s' := List.mem_singleton.mp (hss ▸ hs)
      rw [hss, shardWrites, shardWrites, writesTo_cons, if_pos rfl]
      exact ⟨nodeEndPoint e, rfl, matches_nodeEndPoint (hports e he)⟩

/-- One node that lists the shard `1`. -/
def oneShard : NodeConfMap := ⟨[(7, ⟨80, [97], [1]⟩)], by decide⟩

theorem endpointsMatch_oneShard : EndpointsMatch id oneShard :=
  (endpointsMatch_iff id oneShard (by simp [ListedOnce, oneShard])
    (by simp [PortsFit, oneShard])).mpr (by simp [oneShard])

/-- One node that lists the shards `1` and `2`. -/
def twoShards : NodeConfMap := ⟨[(7, ⟨80, [97], [1, 2]⟩)], by decide⟩

/-- The second shard has no host. -/
theorem not_endpointsMatch_twoShards :
    ListedOnce twoShards ∧ PortsFit twoShards ∧ ¬ EndpointsMatch id twoShards := by
  refine ⟨by simp [ListedOnce, twoShards], by simp [PortsFit, twoShards], fun h => ?_⟩
  rw [endpointsMatch_iff_table] at h
  obtain ⟨ep, hep, -, hhost, -⟩ := h _ List.mem_cons_self 2 (by decide)
  have hsecond : table twoShards 2 = some ⟨7, [], 80⟩ := by decide
  rw [hsecond] at hep
  obtain rfl := Option.some.inj hep
  cases hhost

/-! ## The latest configuration -/

/-- A client that handled earlier configurations before the last one answers all queries as one
that handled the last one only; `last₁` and `last₂` are the last one as the two have it. -/
def SameAnswers (hf : ShardId → BitVec 64) (earlier : List (Option NodeConfMap))
    (last₁ last₂ : Option NodeConfMap) : Prop :=
  ∃ c c₁ c₂, construct = some c ∧ (respond hf (earlier ++ [last₁])).run c = some ((), c₁)
    ∧ (respond hf [last₂]).run c = some ((), c₂)
    ∧ ∀ queries, ∃ rs c₁' c₂', (answers hf queries).run c₁ = some (rs, c₁')
      ∧ (answers hf queries).run c₂ = some (rs, c₂')

/-- The latest configuration wins: the two clients answer alike, in whichever order each of them
goes through its own map. -/
def LatestWins (hf : ShardId → BitVec 64) (earlier : List (Option NodeConfMap))
    (last : Option NodeConfMap) : Prop :=
  ∀ last₁ last₂, Option.Rel NodeConfMap.Reorders last₁ last →
    Option.Rel NodeConfMap.Reorders last₂ last → SameAnswers hf earlier last₁ last₂

/-- The shard stands behind another one in the list of a node, or its node has no host: it is
given an endpoint without a host, whether it had one or not. -/
def Hostless (conf : NodeConfMap) (s : ShardId) : Prop :=
  ∃ e ∈ conf.entries, s ∈ e.2.shardIds.tail ∨ (s ∈ e.2.shardIds ∧ e.2.host = [])

/-- Some earlier configuration lists the shard. -/
def ListedIn (responses : List (Option NodeConfMap)) (s : ShardId) : Prop :=
  ∃ conf ∈ responses, s ∈ listed (conf.getD NodeConfMap.empty)

/-- Clients answer alike exactly if they have the same endpoints. -/
theorem answers_eq_iff {c₁ c₂ : ConfigdClient} (h₁ : HasEndpoints hf D c₁)
    (h₂ : HasEndpoints hf D' c₂) :
    (∀ queries, ∃ rs c₁' c₂', (answers hf queries).run c₁ = some (rs, c₁')
      ∧ (answers hf queries).run c₂ = some (rs, c₂')) ↔ D = D' := by
  constructor
  · intro h
    funext s
    have hquery : ∀ pEp, ((D s).isSome, (D s).getD pEp) = ((D' s).isSome, (D' s).getD pEp) := by
      intro pEp
      obtain ⟨rs, c₁', c₂', hrun₁, hrun₂⟩ := h [(s, pEp)]
      obtain ⟨rs₁, d₁, hrun₁', hrs₁, -⟩ := answers_spec [(s, pEp)] c₁ h₁
      obtain ⟨rs₂, d₂, hrun₂', hrs₂, -⟩ := answers_spec [(s, pEp)] c₂ h₂
      have heq₁ := (Prod.mk.inj (Option.some.inj (hrun₁.symm.trans hrun₁'))).1
      have heq₂ := (Prod.mk.inj (Option.some.inj (hrun₂.symm.trans hrun₂'))).1
      exact List.singleton_inj.mp (hrs₁.symm.trans (heq₁.symm.trans (heq₂.trans hrs₂)))
    obtain ⟨hsome, hval⟩ := Prod.mk.inj (hquery ⟨0, [], 0⟩)
    cases hD : D s with
    | none =>
      rw [hD] at hsome
      exact (Option.isNone_iff_eq_none.mp (Option.isSome_eq_false_iff.mp hsome.symm)).symm
    | some ep =>
      rw [hD] at hsome hval
      obtain ⟨ep', hep'⟩ := Option.isSome_iff_exists.mp hsome.symm
      rw [hep'] at hval ⊢
      exact congrArg some hval
  · rintro rfl queries
    obtain ⟨rs₁, c₁', hrun₁, rfl, -⟩ := answers_spec queries c₁ h₁
    obtain ⟨rs₂, c₂', hrun₂, rfl, -⟩ := answers_spec queries c₂ h₂
    exact ⟨_, c₁', c₂', hrun₁, hrun₂⟩

/-- A shard is written if one of the responses lists it. -/
theorem mem_map_fst_writesOf (responses : List (Option NodeConfMap)) :
    s ∈ (writesOf responses).map Prod.fst ↔ ListedIn responses s := by
  unfold writesOf ListedIn
  rw [List.map_flatMap, List.mem_flatMap]
  refine exists_congr fun conf => and_congr_right fun _ => ?_
  rw [map_fst_writes]

/-- A shard has an endpoint once it was listed. -/
theorem writeAll_eq_none_iff (responses : List (Option NodeConfMap)) :
    writeAll stored (fun _ => none) (writesOf responses) s = none ↔ ¬ ListedIn responses s := by
  rw [writeAll_apply, ← mem_map_fst_writesOf, ← List.count_pos_iff, ← length_writesTo,
    List.length_pos_iff]
  cases hlast : (writesTo s (writesOf responses)).getLast? with
  | none => simp [List.getLast?_eq_none_iff.mp hlast]
  | some v =>
    have hne : writesTo s (writesOf responses) ≠ [] := by
      rintro hnil
      rw [hnil] at hlast
      cases hlast
    simp [hne]

/-- An endpoint that is written once is without a host where its node has none, or is not the
first shard of it. -/
theorem host_eq_nil_iff (hwrites : writesTo s (writes conf) = [v]) :
    v.host = [] ↔ ∃ e ∈ conf.entries, s ∈ e.2.shardIds.tail
      ∨ (s ∈ e.2.shardIds ∧ e.2.host = []) := by
  have hmem : ∀ w, (s, w) ∈ writes conf ↔ w = v := by
    intro w
    rw [← mem_writesTo, hwrites, List.mem_singleton]
  constructor
  · intro hhost
    obtain ⟨e, he, ⟨hs, rfl⟩ | ⟨hs, -⟩⟩ := mem_writes.mp ((hmem v).mpr rfl)
    · exact ⟨e, he, Or.inr ⟨List.mem_of_head? hs, hhost⟩⟩
    · exact ⟨e, he, Or.inl hs⟩
  · rintro ⟨e, he, hs | ⟨hs, hhost⟩⟩
    · have hv := (hmem _).mp (mem_writes.mpr ⟨e, he, Or.inr ⟨hs, rfl⟩⟩)
      rw [← hv]
      rfl
    · have hkey : s ∈ (shardWrites (nodeEndPoint e) e.2.shardIds).map Prod.fst := by
        rwa [map_fst_shardWrites]
      obtain ⟨⟨s', w⟩, hw, rfl⟩ := List.mem_map.mp hkey
      obtain rfl := (hmem w).mp (List.mem_flatMap.mpr ⟨e, he, hw⟩)
      rcases mem_shardWrites.mp hw with ⟨-, rfl⟩ | ⟨-, rfl⟩
      · exact hhost
      · rfl

theorem Hostless.listed (h : Hostless conf s) : s ∈ listed conf := by
  obtain ⟨e, he, hs⟩ := h
  exact mem_listed.mpr ⟨e, he, hs.elim List.mem_of_mem_tail And.left⟩

/-- A shard that one node lists twice is written what the first write left. -/
theorem hostless_of_two (hone : ListedOnce conf) (h : 1 < (listed conf).count s) :
    Hostless conf s := by
  obtain ⟨e, he, hs⟩ := mem_listed.mp (List.count_pos_iff.mp (Nat.zero_lt_of_lt h))
  rw [← length_writesTo_writes, writesTo_writes_eq hone he hs, length_writesTo,
    map_fst_shardWrites] at h
  refine ⟨e, he, Or.inl ?_⟩
  cases hss : e.2.shardIds with
  | nil => simp [hss] at hs
  | cons s' ss =>
    rw [hss, List.count_cons] at h
    refine List.count_pos_iff.mp ?_
    rw [List.tail_cons]
    split_ifs at h <;> omega

/-- The last configuration leaves the same endpoint whether there was one or not exactly if this
has no host. -/
theorem writeAll_writes_eq_iff (hone : ListedOnce conf) :
    writeAll stored D (writes conf) s = table conf s ↔ (D s ≠ none → Hostless conf s) := by
  have hcount : (writesTo s (writes conf)).length = (listed conf).count s := length_writesTo_writes
  rw [writeAll_apply, table_apply]
  cases hlast : (writesTo s (writes conf)).getLast? with
  | none =>
    have hnot : s ∉ listed conf := by
      rw [← List.count_eq_zero, ← hcount, List.getLast?_eq_none_iff.mp hlast]
      rfl
    refine ⟨fun h hD => absurd h hD, fun h => ?_⟩
    by_contra hD
    exact hnot (h hD).listed
  | some v =>
    show some (stored ((D s).isSome || _) v) = some (stored _ v) ↔ _
    cases hD : D s with
    | none => simp
    | some ep =>
      by_cases hlen : 1 < (writesTo s (writes conf)).length
      · have htwice : Hostless conf s := hostless_of_two hone (hcount ▸ hlen)
        simp [hlen, htwice]
      · obtain ⟨w, hw⟩ : ∃ w, writesTo s (writes conf) = [w] := by
          refine List.length_eq_one_iff.mp (Nat.le_antisymm (not_lt.mp hlen) ?_)
          exact List.length_pos_of_mem (List.mem_of_getLast? hlast)
        obtain rfl : w = v := by
          rw [hw] at hlast
          exact Option.some.inj hlast
        have hstored : stored true w = stored false w ↔ w.host = [] :=
          ⟨fun h => (congrArg NodeEndPoint.host h).symm, fun h => by
            show NodeEndPoint.mk _ [] _ = w
            rw [← h]⟩
        have hHostless : Hostless conf s ↔ w.host = [] := (host_eq_nil_iff hw).symm
        rw [hHostless, ← hstored, decide_eq_false hlen]
        simp

/-! ## Other orders of the same configuration -/

theorem ListedOnce.reorders {conf' : NodeConfMap} (h : conf'.Reorders conf)
    (hone : ListedOnce conf) : ListedOnce conf' := fun e he e' he' =>
  hone e (h.mem_iff.mp he) e' (h.mem_iff.mp he')

/-- Where one node lists a shard, the order of the nodes does not matter to it. -/
theorem writesTo_writes_reorders {conf' : NodeConfMap} (h : conf'.Reorders conf)
    (hone : ListedOnce conf) : writesTo s (writes conf') = writesTo s (writes conf) := by
  by_cases hs : s ∈ listed conf
  · obtain ⟨e, he, hs⟩ := mem_listed.mp hs
    rw [writesTo_writes_eq hone he hs,
      writesTo_writes_eq (hone.reorders h) (h.mem_iff.mpr he) hs]
  · have hs' : s ∉ listed conf' := fun hmem => by
      obtain ⟨e, he, hmem⟩ := mem_listed.mp hmem
      exact hs (mem_listed.mpr ⟨e, h.mem_iff.mp he, hmem⟩)
    rw [← List.count_eq_zero, ← length_writesTo_writes, List.length_eq_zero_iff] at hs hs'
    rw [hs, hs']

/-- Any node can come last. -/
theorem exists_reorders_last {e : BitVec 64 × NodeConf} (he : e ∈ conf.entries) :
    ∃ conf' : NodeConfMap, conf'.Reorders conf ∧ ∃ es, conf'.entries = es ++ [e] := by
  obtain ⟨before, after, hsplit⟩ := List.append_of_mem he
  have hperm : (before ++ after ++ [e]).Perm conf.entries := by
    rw [hsplit]
    exact (List.perm_append_singleton e _).trans List.perm_middle.symm
  exact ⟨⟨before ++ after ++ [e], (hperm.map Prod.fst).nodup_iff.mpr conf.nodup⟩, hperm, _, rfl⟩

/-- The node that comes last has the shards that it lists. -/
theorem nodeId_of_last {e : BitVec 64 × NodeConf} {es : List (BitVec 64 × NodeConf)}
    (hlast : conf.entries = es ++ [e]) (hs : s ∈ e.2.shardIds) :
    ∃ ep, writeAll stored D (writes conf) s = some ep ∧ ep.nodeId = e.1 := by
  have hwrites : writes conf = (es.flatMap fun e => shardWrites (nodeEndPoint e) e.2.shardIds)
      ++ shardWrites (nodeEndPoint e) e.2.shardIds := by
    unfold writes
    rw [hlast, List.flatMap_append, List.flatMap_singleton]
  have hne : writesTo s (shardWrites (nodeEndPoint e) e.2.shardIds) ≠ [] := by
    rw [ne_eq, ← List.length_eq_zero_iff, length_writesTo, map_fst_shardWrites,
      List.count_eq_zero]
    exact not_not.mpr hs
  obtain ⟨v, hv⟩ : ∃ v,
      (writesTo s (shardWrites (nodeEndPoint e) e.2.shardIds)).getLast? = some v :=
    ⟨_, List.getLast?_eq_some_getLast hne⟩
  have hnode : v.nodeId = e.1 := by
    rcases mem_shardWrites.mp (mem_writesTo.mp (List.mem_of_getLast? hv)) with ⟨-, rfl⟩ | ⟨-, rfl⟩
      <;> rfl
  rw [writeAll_apply, hwrites, writesTo_append, List.getLast?_append, hv, Option.some_or]
  refine ⟨_, rfl, ?_⟩
  unfold stored
  split_ifs
  · exact hnode
  · exact hnode

/-- Where the latest configuration wins in every order, no shard has two nodes: with either of
them last in the map of a client, that client has it at this node. -/
theorem listedOnce_of_reorders
    (h : ∀ conf₁ conf₂ : NodeConfMap, conf₁.Reorders conf → conf₂.Reorders conf →
      writeAll stored D (writes conf₁) = table conf₂) : ListedOnce conf := by
  intro e he e' he' s hs hs'
  obtain ⟨conf₁, hperm₁, es₁, hlast₁⟩ := exists_reorders_last he
  obtain ⟨conf₂, hperm₂, es₂, hlast₂⟩ := exists_reorders_last he'
  obtain ⟨ep, hep, hnode⟩ := nodeId_of_last (D := D) hlast₁ hs
  obtain ⟨ep', hep', hnode'⟩ := nodeId_of_last (D := fun _ => none) hlast₂ hs'
  have heq : ep = ep' := Option.some.inj
    (hep.symm.trans ((congrFun (h conf₁ conf₂ hperm₁ hperm₂) s).trans hep'))
  refine List.inj_on_of_nodup_map conf.nodup he he' ?_
  rw [← hnode, ← hnode', heq]

/-- The two clients, by the writes of their responses. -/
theorem sameAnswers_iff_table (hf : ShardId → BitVec 64) (earlier : List (Option NodeConfMap))
    (last₁ last₂ : Option NodeConfMap) :
    SameAnswers hf earlier last₁ last₂
      ↔ writeAll stored (writeAll stored (fun _ => none) (writesOf earlier))
          (writes (last₁.getD NodeConfMap.empty)) = table (last₂.getD NodeConfMap.empty) := by
  obtain ⟨c, hc, hnone⟩ := exists_hasEndpoints hf
  obtain ⟨⟨⟩, c₁, hrun₁, hc₁⟩ := respond_spec (earlier ++ [last₁]) c hnone
  obtain ⟨⟨⟩, c₂, hrun₂, hc₂⟩ := respond_spec [last₂] c hnone
  have hlast : ∀ last, writesOf [last] = writes (last.getD NodeConfMap.empty) := fun _ =>
    List.flatMap_singleton _ _
  have hsplit : writesOf (earlier ++ [last₁])
      = writesOf earlier ++ writes (last₁.getD NodeConfMap.empty) := by
    rw [← hlast]
    exact List.flatMap_append
  rw [hsplit, writeAll_append] at hc₁
  rw [hlast] at hc₂
  rw [show table _ = writeAll _ _ _ from rfl, ← answers_eq_iff hc₁ hc₂]
  constructor
  · rintro ⟨d, d₁, d₂, hd, hrun₁', hrun₂', h⟩
    obtain rfl := Option.some.inj (hc.symm.trans hd)
    obtain rfl := (Prod.mk.inj (Option.some.inj (hrun₁.symm.trans hrun₁'))).2
    obtain rfl := (Prod.mk.inj (Option.some.inj (hrun₂.symm.trans hrun₂'))).2
    exact h
  · intro h
    exact ⟨c, c₁, c₂, hc, hrun₁, hrun₂, h⟩

/-- **When the latest configuration wins.** -/
theorem latestWins_iff (hf : ShardId → BitVec 64) (earlier : List (Option NodeConfMap))
    (last : Option NodeConfMap) :
    LatestWins hf earlier last
      ↔ ListedOnce (last.getD NodeConfMap.empty)
        ∧ ∀ s, ListedIn earlier s → Hostless (last.getD NodeConfMap.empty) s := by
  constructor
  · intro h
    -- the answers are equal exactly if the tables are
    have hall : ∀ conf₁ conf₂ : NodeConfMap, conf₁.Reorders (last.getD NodeConfMap.empty) →
        conf₂.Reorders (last.getD NodeConfMap.empty) →
        writeAll stored (writeAll stored (fun _ => none) (writesOf earlier)) (writes conf₁)
          = table conf₂ := by
      intro conf₁ conf₂ h₁ h₂
      cases last with
      | none =>
        have hnil : ∀ conf : NodeConfMap, conf.Reorders NodeConfMap.empty →
            conf = NodeConfMap.empty := by
          rintro ⟨entries, hnodup⟩ hperm
          obtain rfl : entries = [] := List.perm_nil.mp hperm
          rfl
        rw [hnil conf₁ h₁, hnil conf₂ h₂]
        exact (sameAnswers_iff_table hf earlier none none).mp (h none none .none .none)
      | some conf =>
        exact (sameAnswers_iff_table hf earlier (some conf₁) (some conf₂)).mp
          (h (some conf₁) (some conf₂) (.some h₁) (.some h₂))
    have hone := listedOnce_of_reorders hall
    refine ⟨hone, fun s hs => (writeAll_writes_eq_iff hone).mp
      (congrFun (hall _ _ (List.Perm.refl _) (List.Perm.refl _)) s) ?_⟩
    rw [ne_eq, writeAll_eq_none_iff, not_not]
    exact hs
  · rintro ⟨hone, hhostless⟩ last₁ last₂ h₁ h₂
    have hgetD : ∀ last', Option.Rel NodeConfMap.Reorders last' last →
        (last'.getD NodeConfMap.empty).Reorders (last.getD NodeConfMap.empty) := by
      intro last' hrel
      cases hrel with
      | some hperm => exact hperm
      | none => exact List.Perm.refl _
    rw [sameAnswers_iff_table]
    funext s
    -- in one order the condition decides, and no other order writes anything else
    have hsame := (writeAll_writes_eq_iff (s := s) hone).mpr fun hne => by
      rw [ne_eq, writeAll_eq_none_iff (earlier), not_not] at hne
      exact hhostless s hne
    rw [writeAll_apply, writesTo_writes_reorders (hgetD _ h₁) hone, ← writeAll_apply, hsame,
      table_apply, table_apply, writesTo_writes_reorders (hgetD _ h₂) hone]

/-- A shard that stays with its node loses its host. -/
theorem not_latestWins_oneShard : ¬ LatestWins id [some oneShard] (some oneShard) := by
  intro h
  have hrefl : Option.Rel NodeConfMap.Reorders (some oneShard) (some oneShard) :=
    .some (List.Perm.refl _)
  have hsame := congrFun ((sameAnswers_iff_table _ _ _ _).mp (h _ _ hrefl hrefl)) 1
  have hfirst : writeAll stored (writeAll stored (fun _ => none) (writesOf [some oneShard]))
      (writes oneShard) 1 = some ⟨7, [], 80⟩ := by decide
  have hsecond : table oneShard 1 = some ⟨7, [97], 80⟩ := by decide
  rw [show (some oneShard).getD NodeConfMap.empty = oneShard from rfl, hfirst, hsecond] at hsame
  cases hsame

end ConfigdClient

end Mmkvc
