import NoSqlStore.Model.Wire
import NoSqlStore.Store.LastWrite
/-!
# What is written to the wire is what is read from it

A cluster state whose ids are UUIDs and whose partition numbers fit in
sixteen bits is read back as it was written, by a manager and by a worker,
in whatever orders the hash tables are iterated on either side. A page of
a store that goes from one worker to another leaves each of its mutations
at a recipient that has nothing under the key.
-/

namespace NoSqlStore

namespace Wire

open LastWrite

variable {uuid : Uuid}

/-! ## Node ids -/

/-- A node id that is the value of a UUID. -/
def IsUuid (id : NodeId) : Prop := id.uuid < 2 ^ 128

instance (id : NodeId) : Decidable (IsUuid id) := inferInstanceAs (Decidable (id.uuid < 2 ^ 128))

theorem fromString_toString (huuid : uuid.Lawful) {id : NodeId} (hid : IsUuid id) :
    uuid.fromString (uuid.toString id) = some id := by
  rw [Uuid.fromString, Uuid.toString, huuid id.uuid hid, Option.map_some]

theorem grpcNodeTypeToDomain_domainNodeTypeToGrpc (nodeType : NodeType) :
    grpcNodeTypeToDomain (domainNodeTypeToGrpc nodeType) = nodeType := by
  cases nodeType <;> decide

/-- **A set of nodes is read back**, none lost and none merged. -/
theorem nodesToDomain_nodesToGrpc (huuid : uuid.Lawful) {nodes : Finset NodeId}
    (hnodes : ∀ id ∈ nodes, IsUuid id) (order : Iteration) :
    nodesToDomain uuid (nodesToGrpc uuid order nodes) = some nodes := by
  have hread : ∀ id ∈ order.run (nodes.sort (· ≤ ·)),
      uuid.fromString (uuid.toString id) = some id := fun id hid =>
    fromString_toString huuid (hnodes id ((Finset.mem_sort _).mp ((order.perm _).mem_iff.mp hid)))
  obtain ⟨back, hback, hperm⟩ := mapM_of_perm hread (List.Perm.refl _)
  have hset : back.toFinset = nodes := by
    rw [List.toFinset_eq_of_perm _ _ (hperm.trans (order.perm _)), Finset.sort_toFinset]
  rw [nodesToDomain, nodesToGrpc, hback, Option.map_some, hset]

/-! ## The partition table -/

/-- A table all of whose numbers fit in sixteen bits and all of whose ids
are UUIDs. -/
structure CanonicalTable (table : Partitions) : Prop where
  mapping : ∀ (p : PartitionId) (entry : Partition), table.mapping[p]? = some entry →
    p.id < 2 ^ 16 ∧ ∀ id ∈ entry.holders, IsUuid id
  oldReplicas : ∀ (p : PartitionId) (old : Finset NodeId), table.oldReplicas[p]? = some old →
    p.id < 2 ^ 16 ∧ ∀ id ∈ old, IsUuid id
  newReplicas : ∀ (p : PartitionId) (new : Finset NodeId), table.newReplicas[p]? = some new →
    p.id < 2 ^ 16 ∧ ∀ id ∈ new, IsUuid id

theorem narrow_id {p : PartitionId} (hp : p.id < 2 ^ 16) : narrow p.id = p := by
  rw [narrow, Nat.mod_eq_of_lt hp]

/-- **A map of the table is read back** where its numbers fit and its
entries do. -/
theorem tableToDomain_tableToGrpc {α β : Type} {encode : PartitionId → α → β}
    {decode : β → Option α} {table : Map PartitionId α}
    (hnumbers : ∀ (p : PartitionId) (v : α), table[p]? = some v → p.id < 2 ^ 16)
    (hread : ∀ (p : PartitionId) (v : α), table[p]? = some v → decode (encode p v) = some v)
    (out back : Iteration) :
    tableToDomain back decode (tableToGrpc out encode table) = some table := by
  refine Map.rekeyed_read out back (fun e _ e' _ hid => ?_) fun ⟨p, v⟩ he => ?_
  · have hid : e.1.id = e'.1.id := hid
    calc e.1 = ⟨e.1.id⟩ := rfl
      _ = ⟨e'.1.id⟩ := by rw [hid]
  · have hv := Map.mem_toList.mp he
    have hdecode := hread p v hv
    have hp := narrow_id (hnumbers p v hv)
    simp only [hdecode, Option.map_some, hp]

theorem partitionToDomain_partitionToGrpc (huuid : uuid.Lawful) {partition : Partition}
    (hids : ∀ id ∈ partition.holders, IsUuid id) (order : Iteration) :
    partitionToDomain uuid (partitionToGrpc uuid order partition) = some partition := by
  have hmaster := fromString_toString huuid (hids _ (Partition.mem_holders.mpr (Or.inl rfl)))
  have hreplicas := nodesToDomain_nodesToGrpc huuid
    (fun id hid => hids id (Partition.mem_holders.mpr (Or.inr hid))) order
  simp only [partitionToDomain, partitionToGrpc, hmaster, hreplicas, Option.bind_some,
    Option.map_some]

theorem grpcOldReplicasToDomain_domainOldReplicasToGrpc (huuid : uuid.Lawful)
    {table : Map PartitionId (Finset NodeId)}
    (htable : ∀ (p : PartitionId) (nodes : Finset NodeId), table[p]? = some nodes →
      p.id < 2 ^ 16 ∧ ∀ id ∈ nodes, IsUuid id)
    (out : TableOrder) (back : Iteration) :
    grpcOldReplicasToDomain uuid back (domainOldReplicasToGrpc uuid out table) = some table := by
  refine tableToDomain_tableToGrpc (fun p nodes hp => (htable p nodes hp).1) (fun p nodes hp => ?_)
    out.entries back
  exact nodesToDomain_nodesToGrpc huuid (htable p nodes hp).2 (out.elements p)

/-- **The table is read back**, each of its three maps into its own place. -/
theorem grpcPartitionsToDomain_domainPartitionsToGrpc (huuid : uuid.Lawful) {table : Partitions}
    (htable : CanonicalTable table) (out : WriteOrder) (back : ReadOrder) :
    grpcPartitionsToDomain uuid back (domainPartitionsToGrpc uuid out table) = some table := by
  have hmapping : grpcPartitionMappingToDomain uuid back.mapping
      (domainPartitionMappingToGrpc uuid out.mapping table.mapping) = some table.mapping :=
    tableToDomain_tableToGrpc (fun p entry hp => (htable.mapping p entry hp).1)
      (fun p entry hp => partitionToDomain_partitionToGrpc huuid (htable.mapping p entry hp).2 _)
      out.mapping.entries back.mapping
  have hold := grpcOldReplicasToDomain_domainOldReplicasToGrpc huuid htable.oldReplicas
    out.oldReplicas back.oldReplicas
  have hnew := grpcOldReplicasToDomain_domainOldReplicasToGrpc huuid htable.newReplicas
    out.newReplicas back.newReplicas
  simp only [grpcPartitionsToDomain, domainPartitionsToGrpc, hmapping, hold, hnew]
  rfl

/-! ## Cluster states -/

/-- A state whose node ids are UUIDs and whose partition numbers fit in
sixteen bits. -/
structure Canonical (state : ClusterState) : Prop where
  leader : IsUuid state.leaderId
  nodes : ∀ node ∈ state.nodes, IsUuid node.id
  partitions : CanonicalTable state.partitions

theorem nodesOf_handleOutputClusterState (huuid : uuid.Lawful) {state : ClusterState}
    (hnodes : ∀ node ∈ state.nodes, IsUuid node.id) (out : WriteOrder) :
    nodesOf uuid (handleOutputClusterState uuid out state).nodes = some state.nodes := by
  have hread : ∀ node ∈ state.nodes, nodeToDomain uuid ⟨uuid.toString node.id,
      some ⟨node.host, node.port⟩, node.lastHeartbeat, domainNodeTypeToGrpc node.nodeType⟩ =
        some (some node) := by
    intro node hnode
    simp only [nodeToDomain, fromString_toString huuid (hnodes node hnode), Option.map_some,
      grpcNodeTypeToDomain_domainNodeTypeToGrpc]
  have hall : (handleOutputClusterState uuid out state).nodes.mapM (nodeToDomain uuid) =
      some (state.nodes.map some) := by
    rw [mapM_of_isSome, handleOutputClusterState, List.filterMap_map]
    · have heach := List.filterMap_congr hread
      exact congrArg some (heach.trans (congrFun List.filterMap_eq_map state.nodes))
    · intro node hnode
      obtain ⟨node, hin, rfl⟩ := List.mem_map.mp hnode
      rw [hread node hin]
      rfl
  rw [nodesOf, hall, Option.map_some, List.reduceOption, List.filterMap_map]
  exact congrArg some List.filterMap_some

/-- What a manager reads. -/
theorem manager_reads (huuid : uuid.Lawful) {state : ClusterState} (hstate : Canonical state)
    (out : WriteOrder) (back : ReadOrder) (me : Me) :
    Manager.inputFromManager uuid back me (handleOutputClusterState uuid out state) =
      some (.clusterState me.id state) := by
  have hleader := fromString_toString huuid hstate.leader
  have htable := grpcPartitionsToDomain_domainPartitionsToGrpc huuid hstate.partitions out back
  have hnodes := nodesOf_handleOutputClusterState huuid hstate.nodes out
  rw [Manager.inputFromManager, hnodes]
  simp only [handleOutputClusterState, Option.bind_eq_bind, Option.bind_some, hleader, htable]
  rfl

/-- What a worker reads. -/
theorem worker_reads (huuid : uuid.Lawful) {state : ClusterState} (hstate : Canonical state)
    (out : WriteOrder) (back : ReadOrder) (id : NodeId) :
    Worker.inputFromManager uuid back id (handleOutputClusterState uuid out state) =
      some (.clusterState state) := by
  have hleader := fromString_toString huuid hstate.leader
  have htable := grpcPartitionsToDomain_domainPartitionsToGrpc huuid hstate.partitions out back
  have hnodes := nodesOf_handleOutputClusterState huuid hstate.nodes out
  rw [Worker.inputFromManager, managerPayload, hnodes]
  simp only [handleOutputClusterState, hleader, Option.mapM_some, htable]
  rfl

/-! ## Records -/

theorem recordToDomain_recordToGrpc (r : Worker.SyncRecord) :
    recordToDomain (recordToGrpc r) = r := rfl

/-- The mutation a record stands for is the one it was made of. -/
theorem mutation_mutationToDomain (key : Key) (mutation : Mutation) :
    (Worker.mutationToDomain key mutation).mutation = mutation := by
  cases mutation <;> rfl

theorem key_mutationToDomain (key : Key) (mutation : Mutation) :
    (Worker.mutationToDomain key mutation).key = key := by
  cases mutation <;> rfl

/-- What worker `recipient` receives of a page worker `sender` sends it. -/
def carried (out back : Iteration) (sender recipient : Me) (page : List (Key × Mutation)) :
    Option Worker.WorkerProtocol :=
  (workerOutput out (.syncBatch recipient.id
    ⟨sender.id, page.map fun e => Worker.mutationToDomain e.1 e.2⟩)).bind
      (Worker.inputFromWorker back recipient sender.id)

/-- **A batch is received as it was sent.** -/
theorem carried_eq (out back : Iteration) (sender recipient : Me) (page : List (Key × Mutation)) :
    carried out back sender recipient page = some (.syncBatch recipient.id
      ⟨sender.id, page.map fun e => Worker.mutationToDomain e.1 e.2⟩) := by
  simp only [carried, workerOutput, Option.bind_some, Worker.inputFromWorker, workerPayload,
    List.map_map, Worker.workerMessage]
  rfl

/-- **An answer is received as it was sent** where the partition numbers
fit in sixteen bits. -/
theorem answer_carried (out back : Iteration) (sender recipient : Me) {keys : Map PartitionId Key}
    (hkeys : ∀ (p : PartitionId) (key : Key), keys[p]? = some key → p.id < 2 ^ 16) :
    (workerOutput out (.syncBatchResponse recipient.id keys)).bind
      (Worker.inputFromWorker back recipient sender.id) =
        some (.syncBatchResponse sender.id keys) := by
  have htable : tableToDomain back (fun key => some ⟨key⟩)
      (tableToGrpc out (fun _ (key : Key) => key.val) keys) = some keys := by
    refine tableToDomain_tableToGrpc hkeys (fun _ _ _ => ?_) out back
    rfl
  simp only [workerOutput, Option.bind_some, Worker.inputFromWorker, workerPayload, htable,
    Option.map_some, Worker.workerMessage]

/-- **A page leaves its mutation of a key** at a store that has nothing
under it. -/
theorem stored_handleSyncBatch {store : RuntimeStore} {key : Key} {mutation : Mutation}
    {page : List (Key × Mutation)} (hnothing : store.stored key = none)
    (hpage : ∀ m, (key, m) ∈ page ↔ m = mutation) (sender : NodeId) :
    (Worker.handleSyncBatch store
      ⟨sender, page.map fun e => Worker.mutationToDomain e.1 e.2⟩).1.stored key =
        some mutation := by
  let request : Worker.SyncBatchRequest :=
    ⟨sender, page.map fun e => Worker.mutationToDomain e.1 e.2⟩
  have hmutations : (Write.syncBatch request).mutations = page := by
    simp only [Write.mutations, request, List.map_map]
    refine (List.map_congr_left fun e _ => ?_).trans (List.map_id page)
    exact Prod.ext (key_mutationToDomain e.1 e.2) (mutation_mutationToDomain e.1 e.2)
  have hmem : ∀ m, m ∈ RuntimeStore.mutationsOf key page ↔ m = mutation := by
    intro m
    rw [← hpage m]
    simp [RuntimeStore.mutationsOf]
  have hstored := RuntimeStore.stored_applyAll store page key
  rw [← hmutations, ← RuntimeStore.write_eq_applyAll, hnothing, hmutations] at hstored
  refine hstored.trans (foldl_write_eq_some.mpr ?_)
  exact winner_of_forall_eq ((hmem mutation).mpr rfl) fun m hm => (hmem m).mp hm

/-- **What is written is what is read.** Every canonical cluster state
reaches a manager's service and a worker's service as it was sent. Of every
page a worker sends, every mutation that is the page's only one of its key
is what a recipient stores that had nothing under the key. -/
theorem wire_fidelity (uuid : Uuid) (huuid : uuid.Lawful) (out : WriteOrder) (back : ReadOrder)
    (batchOut batchBack : Iteration) :
    (∀ (state : ClusterState) (me : Me) (id : NodeId), Canonical state →
      Manager.inputFromManager uuid back me (handleOutputClusterState uuid out state) =
        some (.clusterState me.id state) ∧
      Worker.inputFromManager uuid back id (handleOutputClusterState uuid out state) =
        some (.clusterState state)) ∧
    ∀ (key : Key) (mutation : Mutation) (page : List (Key × Mutation)) (sender recipient : Me)
      (store : RuntimeStore), store.stored key = none → (∀ m, (key, m) ∈ page ↔ m = mutation) →
      ∃ request, carried batchOut batchBack sender recipient page =
          some (.syncBatch recipient.id request) ∧
        (Worker.handleSyncBatch store request).1.stored key = some mutation :=
  ⟨fun _ me id hstate => ⟨manager_reads huuid hstate out back me,
      worker_reads huuid hstate out back id⟩,
    fun _ _ page sender recipient _ hnothing hpage =>
      ⟨_, carried_eq batchOut batchBack sender recipient page,
        stored_handleSyncBatch hnothing hpage sender.id⟩⟩

/-! ## The hyphenated form of a UUID -/

/-- The last `n` hexadecimal digits of a number. -/
def hexDigits : ℕ → ℕ → List Char
  | 0, _ => []
  | n + 1, u => hexDigits n (u / 16) ++ [Nat.digitChar (u % 16)]

/-- The value of a lower-case hexadecimal digit. -/
def hexValue (c : Char) : Option ℕ := (List.range 16).find? fun d => Nat.digitChar d = c

/-- Groups of eight, four, four, four and twelve digits. -/
def hyphenate (digits : List Char) : List Char :=
  digits.take 8 ++ '-' :: ((digits.drop 8).take 4 ++ '-' :: ((digits.drop 12).take 4 ++
    '-' :: ((digits.drop 16).take 4 ++ '-' :: digits.drop 20)))

/-- The texts of the crate's `Display`; of the texts its parser takes, those. -/
def hyphenated : Uuid where
  text u := String.ofList (hyphenate (hexDigits 32 u))
  parseStr id :=
    let digits := id.toList.filter (· ≠ '-')
    if id.toList = hyphenate digits then
      digits.foldlM (fun u c => (hexValue c).map (16 * u + ·)) 0
    else none

theorem hexValue_digitChar {d : ℕ} (hd : d < 16) : hexValue (Nat.digitChar d) = some d := by
  interval_cases d <;> decide

theorem foldlM_hexDigits (n u acc : ℕ) :
    (hexDigits n u).foldlM (fun u c => (hexValue c).map (16 * u + ·)) acc =
      some (16 ^ n * acc + u % 16 ^ n) := by
  induction n generalizing u with
  | zero => simp [hexDigits, Nat.mod_one]
  | succ n ih =>
    have hdigit : hexValue (Nat.digitChar (u % 16)) = some (u % 16) :=
      hexValue_digitChar (Nat.mod_lt u (by omega))
    have hsplit : 16 * (u / 16 % 16 ^ n) + u % 16 = u % 16 ^ (n + 1) := by
      rw [Nat.pow_succ', Nat.mod_mul, Nat.add_comm]
    rw [hexDigits, List.foldlM_append, ih]
    simp only [Option.bind_eq_bind, Option.bind_some, List.foldlM_cons, List.foldlM_nil, hdigit,
      Option.map_some]
    rw [← hsplit]
    exact congrArg some (by ring)

theorem hyphen_not_mem_hexDigits (n u : ℕ) : '-' ∉ hexDigits n u := by
  induction n generalizing u with
  | zero => exact List.not_mem_nil
  | succ n ih =>
    have hdigit : ∀ d < 16, '-' ≠ Nat.digitChar d := by decide
    rw [hexDigits, List.mem_append, List.mem_singleton]
    rintro (hin | heq)
    · exact ih _ hin
    · exact hdigit _ (Nat.mod_lt u (by omega)) heq

/-- The digits are what is left without the hyphens. -/
theorem filter_hyphenate {digits : List Char} (h : '-' ∉ digits) :
    (hyphenate digits).filter (· ≠ '-') = digits := by
  have hself : ∀ l ⊆ digits, l.filter (· ≠ '-') = l := by
    intro l hl
    rw [List.filter_eq_self]
    intro c hc
    exact decide_eq_true fun heq => h (heq ▸ hl hc)
  have hdrop : ∀ n, digits.drop n ⊆ digits := fun n => List.drop_subset n digits
  have htake : ∀ m n, (digits.drop n).take m ⊆ digits := fun m n c hc =>
    hdrop n (List.take_subset m _ hc)
  have hgroup : ∀ m n, (digits.drop n).take m ++ digits.drop (n + m) = digits.drop n := by
    intro m n
    rw [← List.drop_drop, List.take_append_drop]
  simp only [hyphenate, List.filter_append, ne_eq, not_true_eq_false, decide_false,
    Bool.false_eq_true, not_false_eq_true, List.filter_cons_of_neg]
  rw [hself _ (List.take_subset 8 digits), hself _ (htake 4 8), hself _ (htake 4 12),
    hself _ (htake 4 16), hself _ (hdrop 20), hgroup 4 16, hgroup 4 12, hgroup 4 8,
    List.take_append_drop]

theorem hyphenated_lawful : hyphenated.Lawful := by
  intro u hu
  have hvalue := foldlM_hexDigits 32 u 0
  have hfilter := filter_hyphenate (hyphen_not_mem_hexDigits 32 u)
  have hu : u % 16 ^ 32 = u := Nat.mod_eq_of_lt (by omega)
  simp only [hyphenated, String.toList_ofList, hfilter, if_true, hvalue, hu, Nat.mul_zero,
    Nat.zero_add]

/-- Every table backwards. -/
def backwards : Iteration := ⟨List.reverse, List.reverse_perm⟩

/-- A state of two workers. -/
def handover : ClusterState where
  epoch := 3
  leaderId := ⟨9⟩
  nodes := [⟨⟨9⟩, "manager-9", 9000, 100, .manager⟩, ⟨⟨1⟩, "worker-1", 9001, 90, .worker⟩]
  partitions :=
    { mapping := (∅ : Map PartitionId Partition).insert ⟨7⟩ ⟨⟨1⟩, {⟨2⟩, ⟨3⟩}⟩
      oldReplicas := (∅ : Map PartitionId (Finset NodeId)).insert ⟨7⟩ {⟨4⟩}
      newReplicas := (∅ : Map PartitionId (Finset NodeId)).insert ⟨7⟩ {⟨2⟩} }

theorem getElem?_insert_empty {α : Type} {p q : PartitionId} {v w : α}
    (h : ((∅ : Map PartitionId α).insert p v)[q]? = some w) : q = p ∧ w = v :=
  (Map.getElem?_insert_cases h).resolve_right (by simp)

theorem canonical_handover : Canonical handover where
  leader := by decide
  nodes := by decide
  partitions :=
    { mapping := fun p entry hp => by
        obtain ⟨rfl, rfl⟩ := getElem?_insert_empty hp
        decide
      oldReplicas := fun p old hp => by
        obtain ⟨rfl, rfl⟩ := getElem?_insert_empty hp
        decide
      newReplicas := fun p new hp => by
        obtain ⟨rfl, rfl⟩ := getElem?_insert_empty hp
        decide }

theorem wire_fidelity_handover :
    Worker.inputFromManager hyphenated ⟨backwards, backwards, backwards⟩ ⟨9⟩
      (handleOutputClusterState hyphenated ⟨⟨backwards, fun _ => backwards⟩,
        ⟨backwards, fun _ => backwards⟩, ⟨backwards, fun _ => backwards⟩⟩ handover) =
          some (.clusterState handover) ∧
    ∃ request, carried backwards backwards ⟨⟨1⟩, "worker-1", 9001⟩ ⟨⟨2⟩, "worker-2", 9002⟩
        [(⟨5⟩, .delete 40)] = some (.syncBatch ⟨2⟩ request) ∧
      (Worker.handleSyncBatch default request).1.stored ⟨5⟩ = some (.delete 40) := by
  have hfidelity := wire_fidelity hyphenated hyphenated_lawful
    ⟨⟨backwards, fun _ => backwards⟩, ⟨backwards, fun _ => backwards⟩,
      ⟨backwards, fun _ => backwards⟩⟩ ⟨backwards, backwards, backwards⟩ backwards backwards
  refine ⟨(hfidelity.1 handover ⟨⟨1⟩, "worker-1", 9001⟩ ⟨9⟩ canonical_handover).2,
    hfidelity.2 ⟨5⟩ (.delete 40) _ _ _ default rfl fun m => ?_⟩
  simp

end Wire

end NoSqlStore
