import NoSqlStore.Manager.Effects
/-!
# Adopting a snapshot

What a manager holds after it has taken over the cluster state another one
answers with. The node table is described node by node (`adopted`): the
pruning keeps the manager itself and the nodes listed, the merge raises
heartbeats and adds workers, and a manager it does not know is dialled
and not added. A second arrival of the same snapshot changes nothing, and
a snapshot that is not accepted changes nothing at all
(`snapshot_adoption`).
-/

namespace NoSqlStore

namespace Manager

variable {nodes : Map NodeId Node} {n : NodeId}

/-! ## The merge, node by node -/

/-- A node of the table as a cluster state lists it. -/
def listed (e : NodeId × Node) : ClusterNode :=
  ⟨e.1, e.2.host, e.2.port, e.2.lastHeartbeat, e.2.nodeType⟩

/-- The dial of a listed manager. -/
def dial (e : NodeId × Node) : ManagerProtocol := .newConnection none e.2.host e.2.port true

/-- What the merge makes of what the table has of a node and what is
listed of it. -/
def merged : Option Node → Option Node → Option Node
  | some a, some b => some { a with lastHeartbeat := max a.lastHeartbeat b.lastHeartbeat }
  | some a, none => some a
  | none, some b => if b.isWorker then some b else none
  | none, none => none

theorem listNodes_eq : listNodes nodes = nodes.toList.map listed := rfl

variable {acc : Map NodeId Node × List ManagerProtocol} {e : NodeId × Node}

/-- **What the merge of one listed node can do**: raise the heartbeat of a
node the table has, dial a manager it does not have, or add a worker. -/
theorem mergeNode_cases :
    (∃ a, acc.1[e.1]? = some a ∧ e.2.lastHeartbeat ≤ a.lastHeartbeat ∧
      mergeNode acc (listed e) = acc) ∨
    (∃ a, acc.1[e.1]? = some a ∧ a.lastHeartbeat ≤ e.2.lastHeartbeat ∧
      mergeNode acc (listed e) =
        (acc.1.insert e.1 { a with lastHeartbeat := e.2.lastHeartbeat }, acc.2)) ∨
    (acc.1[e.1]? = none ∧ e.2.nodeType = .manager ∧
      mergeNode acc (listed e) = (acc.1, acc.2 ++ [dial e])) ∨
    (acc.1[e.1]? = none ∧ e.2.nodeType = .worker ∧
      mergeNode acc (listed e) = (acc.1.insert e.1 e.2, acc.2)) := by
  unfold mergeNode
  cases h : acc.1[e.1]? with
  | some a =>
    simp only [listed, h]
    by_cases hlt : a.lastHeartbeat < e.2.lastHeartbeat
    · exact Or.inr (Or.inl ⟨a, rfl, hlt.le, if_pos hlt⟩)
    · exact Or.inl ⟨a, rfl, not_lt.mp hlt, if_neg hlt⟩
  | none =>
    simp only [listed, h]
    cases ht : e.2.nodeType with
    | manager => exact Or.inr (Or.inr (Or.inl ⟨trivial, rfl, rfl⟩))
    | worker =>
      refine Or.inr (Or.inr (Or.inr ⟨trivial, rfl, ?_⟩))
      dsimp only
      rw [← ht]

theorem getElem?_mergeNode_self : (mergeNode acc (listed e)).1[e.1]? = merged acc.1[e.1]? e.2 := by
  rcases @mergeNode_cases acc e with
    ⟨a, ha, hle, heq⟩ | ⟨a, ha, hle, heq⟩ | ⟨ha, ht, heq⟩ | ⟨ha, ht, heq⟩
  · rw [heq, ha, merged, max_eq_left hle]
  · rw [heq, ha, merged, max_eq_right hle, Std.ExtTreeMap.getElem?_insert_self]
  · simp [heq, ha, merged, Node.isWorker, ht]
  · simp [heq, ha, merged, Node.isWorker, ht]

theorem getElem?_mergeNode_of_ne (h : n ≠ e.1) : (mergeNode acc (listed e)).1[n]? = acc.1[n]? := by
  have hne : e.1 ≠ n := h.symm
  rcases @mergeNode_cases acc e with
    ⟨a, -, -, heq⟩ | ⟨a, -, -, heq⟩ | ⟨-, -, heq⟩ | ⟨-, -, heq⟩ <;>
  simp [heq, Std.ExtTreeMap.getElem?_insert, hne]

/-- The merge dials the managers the table does not have. -/
theorem output_mergeNode : (mergeNode acc (listed e)).2 =
    acc.2 ++ ([e].filter fun e => e.2.isManager ∧ e.1 ∉ acc.1).map dial := by
  have hmem : e.1 ∈ acc.1 ↔ (acc.1[e.1]?).isSome := Std.ExtTreeMap.mem_iff_isSome_getElem?
  rcases @mergeNode_cases acc e with
    ⟨a, ha, -, heq⟩ | ⟨a, ha, -, heq⟩ | ⟨ha, ht, heq⟩ | ⟨ha, ht, heq⟩
  · rw [ha] at hmem
    simp [heq, hmem]
  · rw [ha] at hmem
    simp [heq, hmem]
  · rw [ha] at hmem
    simp [heq, hmem, Node.isManager, ht]
  · simp [heq, Node.isManager, ht]

/-- **The merge of a list, node by node.** -/
theorem getElem?_foldl_mergeNode {l : List (NodeId × Node)}
    (hl : l.Pairwise fun a b => a.1 ≠ b.1) (acc : Map NodeId Node × List ManagerProtocol) :
    (∀ n, n ∉ l.map Prod.fst → ((l.map listed).foldl mergeNode acc).1[n]? = acc.1[n]?) ∧
    ∀ e ∈ l, ((l.map listed).foldl mergeNode acc).1[e.1]? = merged acc.1[e.1]? e.2 := by
  induction l generalizing acc with
  | nil => exact ⟨fun _ _ => rfl, fun _ he => absurd he List.not_mem_nil⟩
  | cons x l ih =>
    rw [List.pairwise_cons] at hl
    obtain ⟨hout, hin⟩ := ih hl.2 (mergeNode acc (listed x))
    refine ⟨fun n hn => ?_, fun e he => ?_⟩ <;> rw [List.map_cons, List.foldl_cons]
    · rw [List.map_cons, List.mem_cons, not_or] at hn
      rw [hout n hn.2, getElem?_mergeNode_of_ne hn.1]
    · rcases List.mem_cons.mp he with rfl | he
      · have hfresh : e.1 ∉ l.map Prod.fst := by
          intro hmem
          obtain ⟨y, hy, heq⟩ := List.mem_map.mp hmem
          exact hl.1 y hy heq.symm
        rw [hout _ hfresh, getElem?_mergeNode_self]
      · rw [hin e he, getElem?_mergeNode_of_ne fun heq => hl.1 e he heq.symm]

/-- **The dials of a merge**: one for each listed manager the table does
not have. -/
theorem output_foldl_mergeNode {l : List (NodeId × Node)}
    (hl : l.Pairwise fun a b => a.1 ≠ b.1) (acc : Map NodeId Node × List ManagerProtocol) :
    ((l.map listed).foldl mergeNode acc).2 =
      acc.2 ++ (l.filter fun e => e.2.isManager ∧ e.1 ∉ acc.1).map dial := by
  induction l generalizing acc with
  | nil => simp
  | cons x l ih =>
    rw [List.pairwise_cons] at hl
    have hrest : l.filter (fun e => e.2.isManager ∧ e.1 ∉ (mergeNode acc (listed x)).1) =
        l.filter fun e => e.2.isManager ∧ e.1 ∉ acc.1 := by
      refine List.filter_congr fun e he => ?_
      have hsame : e.1 ∈ (mergeNode acc (listed x)).1 ↔ e.1 ∈ acc.1 := by
        rw [Std.ExtTreeMap.mem_iff_isSome_getElem?, Std.ExtTreeMap.mem_iff_isSome_getElem?,
          getElem?_mergeNode_of_ne fun heq : e.1 = x.1 => hl.1 e he heq.symm]
      simp only [hsame]
    rw [List.map_cons, List.foldl_cons, ih hl.2, output_mergeNode, hrest, List.append_assoc,
      ← List.map_append, ← List.filter_append, List.singleton_append]

/-! ## The node table after a snapshot -/

/-- The nodes a manager keeps of a snapshot that lists others. -/
def adopted (f s : Map NodeId Node) (me n : NodeId) : Option Node :=
  merged (if n = me ∨ n ∈ s then f[n]? else none) s[n]?

theorem mem_listNodes : n ∈ (listNodes nodes).map ClusterNode.id ↔ n ∈ nodes := by
  rw [listNodes, List.map_map, ← Std.ExtTreeMap.mem_keys, ← Std.ExtTreeMap.map_fst_toList_eq_keys]
  rfl

theorem distinct_toList (s : Map NodeId Node) : s.toList.Pairwise fun a b => a.1 ≠ b.1 :=
  (Map.sorted_toList s).imp fun h => ne_of_lt h

theorem getElem?_retainListed {f s : Map NodeId Node} (me : Me) (hne : listNodes s ≠ []) :
    (retainListed f (listNodes s) me)[n]? = if n = me.id ∨ n ∈ s then f[n]? else none := by
  rw [retainListed, if_neg hne, Std.ExtTreeMap.getElem?_filter']
  simp only [mem_listNodes]
  split
  · rename_i h
    cases f[n]? <;> simp [h]
  · rename_i h
    cases f[n]? <;> simp [h]

/-- **The node table after a snapshot, node by node.** -/
theorem getElem?_adopted {f s : Map NodeId Node} (me : Me) (hne : listNodes s ≠ []) (n : NodeId) :
    ((listNodes s).foldl mergeNode (retainListed f (listNodes s) me, [])).1[n]? =
      adopted f s me.id n := by
  obtain ⟨hout, hin⟩ := getElem?_foldl_mergeNode (distinct_toList s)
    (retainListed f (listNodes s) me, [])
  rw [adopted, ← getElem?_retainListed me hne]
  cases hs : s[n]? with
  | some b => exact hin (n, b) (Map.mem_toList.mpr hs)
  | none =>
    have hnot : n ∉ s.toList.map Prod.fst := by
      rw [Std.ExtTreeMap.map_fst_toList_eq_keys, Std.ExtTreeMap.mem_keys,
        Std.ExtTreeMap.mem_iff_isSome_getElem?, hs]
      exact Bool.false_ne_true
    refine (hout n hnot).trans ?_
    dsimp only
    cases (retainListed f (listNodes s) me)[n]? <;> rfl

/-- **What a snapshot dials**: the managers listed that are not known. -/
theorem output_adopted {f s : Map NodeId Node} (me : Me) (hne : listNodes s ≠ []) :
    ((listNodes s).foldl mergeNode (retainListed f (listNodes s) me, [])).2 =
      (s.toList.filter fun e => e.2.isManager ∧ e.1 ∉ f).map dial := by
  rw [listNodes_eq, output_foldl_mergeNode (distinct_toList s), List.nil_append]
  congr 1
  refine List.filter_congr fun e he => ?_
  have hlisted : e.1 ∈ s := by
    rw [Std.ExtTreeMap.mem_iff_isSome_getElem?, Map.mem_toList.mp he]
    rfl
  have hkept : e.1 ∈ retainListed f (s.toList.map listed) me ↔ e.1 ∈ f := by
    rw [Std.ExtTreeMap.mem_iff_isSome_getElem?, Std.ExtTreeMap.mem_iff_isSome_getElem?,
      ← listNodes_eq, getElem?_retainListed me hne, if_pos (Or.inr hlisted)]
  simp only [hkept]

/-- Adopting twice is adopting once. -/
theorem adopted_adopted {f f' s : Map NodeId Node} {me : NodeId}
    (h : ∀ n, f'[n]? = adopted f s me n) (n : NodeId) : adopted f' s me n = f'[n]? := by
  rw [h n]
  unfold adopted
  rw [h n, adopted]
  have hmem : n ∈ s ↔ s[n]?.isSome := Std.ExtTreeMap.mem_iff_isSome_getElem?
  cases hs : s[n]? with
  | some b =>
    rw [hs] at hmem
    simp only [hmem, Option.isSome_some, or_true, if_true]
    cases f[n]? with
    | some a => simp [merged]
    | none =>
      cases hw : b.isWorker <;> simp [merged, hw]
  | none =>
    rw [hs] at hmem
    simp only [hmem, Option.isSome_none, Bool.false_eq_true, or_false]
    by_cases hme : n = me
    · rw [if_pos hme, if_pos hme]
      cases f[n]? <;> rfl
    · rw [if_neg hme, if_neg hme]

/-! ## The snapshot -/

/-- A manager handles a cluster state. -/
def State.take (f : State) (me : Me) (snapshot : ClusterState) : State × List ManagerProtocol :=
  handleClusterState f me snapshot.epoch snapshot.leaderId snapshot.nodes snapshot.partitions

/-- **A manager `f` has become `f'` by adopting the snapshot of `s`**, and
has put out `output`. -/
structure Adopts (s f f' : State) (me : Me) (output : List ManagerProtocol) : Prop where
  epoch : f'.epoch = s.epoch
  leader : f'.electedLeaderId = s.electedLeaderId
  partitions : f'.partitions = s.partitions
  workers : ∀ n, n ∈ f'.workers ↔ n ∈ s.workers
  managers : ∀ n, f'.nodes[n]?.map Node.nodeType = some .manager ↔
    f.nodes[n]?.map Node.nodeType = some .manager ∧ (n = me.id ∨ n ∈ s.nodes)
  common : ∀ (n : NodeId) (a b : Node), f.nodes[n]? = some a → s.nodes[n]? = some b →
    f'.nodes[n]? = some { a with lastHeartbeat := max a.lastHeartbeat b.lastHeartbeat }
  added : ∀ (n : NodeId) (b : Node), f.nodes[n]? = none → s.nodes[n]? = some b → b.isWorker →
    f'.nodes[n]? = some b
  dials : output = (s.nodes.toList.filter fun e => e.2.isManager ∧ e.1 ∉ f.nodes).map dial

/-- The states agree on the type of the nodes both know, and the manager
does not list itself as a worker. -/
structure Agree (s f : State) (me : Me) : Prop where
  own : f.nodes[me.id]?.map Node.nodeType ≠ some .worker
  types : ∀ (n : NodeId) (a b : Node), f.nodes[n]? = some a → s.nodes[n]? = some b →
    a.nodeType = b.nodeType

variable {s f : State} {me : Me}

/-- The types of the nodes adopted. -/
theorem adopted_nodeType (h : Agree s f me) (n : NodeId) :
    ((adopted f.nodes s.nodes me.id n).map Node.nodeType = some .worker ↔
      s.nodes[n]?.map Node.nodeType = some .worker) ∧
    ((adopted f.nodes s.nodes me.id n).map Node.nodeType = some .manager ↔
      f.nodes[n]?.map Node.nodeType = some .manager ∧ (n = me.id ∨ n ∈ s.nodes)) := by
  have hmem : n ∈ s.nodes ↔ s.nodes[n]?.isSome := Std.ExtTreeMap.mem_iff_isSome_getElem?
  unfold adopted
  cases hs : s.nodes[n]? with
  | some b =>
    rw [hs] at hmem
    cases hf : f.nodes[n]? with
    | some a =>
      have htype := h.types n a b hf hs
      simp [hmem, merged, htype]
    | none =>
      cases hw : b.isWorker
      · have hb : b.nodeType ≠ .worker := by simpa [Node.isWorker] using hw
        simp [merged, hw, hb]
      · have hb : b.nodeType = .worker := by simpa [Node.isWorker] using hw
        simp [merged, hw, hb]
  | none =>
    rw [hs] at hmem
    simp only [hmem, Option.isSome_none, Bool.false_eq_true, or_false]
    by_cases hn : n = me.id
    · subst hn
      have hown := h.own
      cases hf : f.nodes[me.id]? with
      | some a =>
        rw [hf] at hown
        have ha : a.nodeType ≠ .worker := by simpa using hown
        simp [merged, ha]
      | none => simp [merged]
    · simp [hn, merged]

/-- **A snapshot of a higher epoch is adopted.** -/
theorem adopts_take {snapshot : ClusterState} (hagree : Agree s f me)
    (hepoch : s.epoch = some snapshot.epoch) (hleader : s.electedLeaderId = some snapshot.leaderId)
    (hnodes : snapshot.nodes = listNodes s.nodes) (hne : listNodes s.nodes ≠ [])
    (hpartitions : snapshot.partitions = s.partitions)
    (hbelow : epochBelow f.epoch snapshot.epoch = true) :
    Adopts s f (f.take me snapshot).1 me (f.take me snapshot).2 := by
  have haccepts : accepts f snapshot.epoch snapshot.leaderId = true := by
    rw [accepts, hbelow]
    rfl
  have htake : f.take me snapshot =
      ({ f with
          epoch := some snapshot.epoch, electedLeaderId := some snapshot.leaderId
          partitions := s.partitions
          nodes := ((listNodes s.nodes).foldl mergeNode
            (retainListed f.nodes (listNodes s.nodes) me, [])).1 },
        ((listNodes s.nodes).foldl mergeNode
          (retainListed f.nodes (listNodes s.nodes) me, [])).2) := by
    rw [State.take, handleClusterState, if_pos haccepts, if_pos hbelow, hnodes, hpartitions]
  have htable : ∀ n, (f.take me snapshot).1.nodes[n]? = adopted f.nodes s.nodes me.id n := by
    intro n
    rw [htake]
    exact getElem?_adopted me hne n
  refine ⟨?_, ?_, ?_, fun n => ?_, fun n => ?_, fun n a b hf hs => ?_, fun n b hf hs hb => ?_, ?_⟩
  · rw [htake, hepoch]
  · rw [htake, hleader]
  · rw [htake]
  · rw [mem_workers, mem_workers, htable]
    exact (adopted_nodeType hagree n).1
  · rw [htable]
    exact (adopted_nodeType hagree n).2
  · have hmem : n ∈ s.nodes := by
      rw [Std.ExtTreeMap.mem_iff_isSome_getElem?, hs]
      rfl
    rw [htable, adopted, if_pos (Or.inr hmem), hf, hs, merged]
  · rw [htable, adopted, hf, ite_self, hs, merged, if_pos hb]
  · rw [htake]
    exact output_adopted me hne

/-- **Handling the same snapshot again leaves the state unchanged.** -/
theorem take_take {snapshot : ClusterState} (hnodes : snapshot.nodes = listNodes s.nodes)
    (hne : listNodes s.nodes ≠ []) (hbelow : epochBelow f.epoch snapshot.epoch = true) :
    ((f.take me snapshot).1.take me snapshot).1 = (f.take me snapshot).1 := by
  have haccepts : accepts f snapshot.epoch snapshot.leaderId = true := by
    rw [accepts, hbelow]
    rfl
  have htake : (f.take me snapshot).1 =
      { f with
          epoch := some snapshot.epoch, electedLeaderId := some snapshot.leaderId
          partitions := snapshot.partitions
          nodes := ((listNodes s.nodes).foldl mergeNode
            (retainListed f.nodes (listNodes s.nodes) me, [])).1 } := by
    rw [State.take, handleClusterState, if_pos haccepts, if_pos hbelow, hnodes]
  have hsecond : accepts (f.take me snapshot).1 snapshot.epoch snapshot.leaderId = true ∧
      epochBelow (f.take me snapshot).1.epoch snapshot.epoch = false := by
    rw [htake]
    simp [accepts, epochBelow]
  have htable : ∀ n, (f.take me snapshot).1.nodes[n]? = adopted f.nodes s.nodes me.id n := by
    intro n
    rw [htake]
    exact getElem?_adopted me hne n
  have hsame : ((listNodes s.nodes).foldl mergeNode
      (retainListed (f.take me snapshot).1.nodes (listNodes s.nodes) me, [])).1 =
      (f.take me snapshot).1.nodes := by
    refine Std.ExtTreeMap.ext_getElem? fun n => ?_
    rw [getElem?_adopted me hne, adopted_adopted htable]
  have hpartitions : (f.take me snapshot).1.partitions = snapshot.partitions := by rw [htake]
  generalize (f.take me snapshot).1 = f' at hsecond hsame hpartitions
  rw [State.take, handleClusterState, if_pos hsecond.1, hsecond.2, hnodes]
  simp only [Bool.false_eq_true, if_false]
  rw [hsame, ← hpartitions]

/-- **Snapshot adoption.** A manager of a lower epoch, or of none, that
handles what another one answers to `GetClusterState` adopts it, and
handling it again changes nothing; one of a higher epoch, or of the same
under another leader or none, is left as it was. -/
theorem snapshot_adoption (s f : State) (owner me : Me) (id : NodeId) (epoch : ℕ) (leader : NodeId)
    (hepoch : s.epoch = some epoch) (hleader : s.electedLeaderId = some leader)
    (hself : owner.id ∈ s.nodes) (hagree : Agree s f me) :
    ∃ snapshot, handleGetClusterState s id = [.clusterState id snapshot] ∧
      (epochBelow f.epoch epoch = true →
        Adopts s f (f.take me snapshot).1 me (f.take me snapshot).2 ∧
        ((f.take me snapshot).1.take me snapshot).1 = (f.take me snapshot).1) ∧
      ∀ epoch', f.epoch = some epoch' →
        epoch < epoch' ∨ (epoch' = epoch ∧ f.electedLeaderId ≠ some leader) →
        f.take me snapshot = (f, []) := by
  have hne : listNodes s.nodes ≠ [] := by
    intro hnil
    have hlisted := mem_listNodes.mpr hself
    rw [hnil] at hlisted
    cases hlisted
  refine ⟨⟨epoch, leader, listNodes s.nodes, s.partitions⟩, ?_, fun hbelow =>
    ⟨adopts_take hagree hepoch hleader rfl hne rfl hbelow, take_take rfl hne hbelow⟩,
    fun epoch' hf hrejects => ?_⟩
  · rw [handleGetClusterState, hepoch, hleader]
  · have haccepts : accepts f epoch leader = false := by
      rw [accepts, hf]
      rcases hrejects with hlt | ⟨rfl, hother⟩
      · have hne : epoch' ≠ epoch := by omega
        have hnot : ¬ epoch' < epoch := by omega
        simp [epochBelow, hne, hnot]
      · simp [epochBelow, hother]
    rw [State.take, handleClusterState, haccepts]
    rfl

/-- A leader with worker 3. -/
def elected : State :=
  { State.new (((∅ : Map NodeId Node).insert ⟨9⟩ ⟨"m", 9, 50, .manager⟩).insert ⟨3⟩
      ⟨"c", 3, 40, .worker⟩) (some 2) with electedLeaderId := some ⟨9⟩ }

/-- A manager that has just started. -/
def started : State := State.new ((∅ : Map NodeId Node).insert ⟨8⟩ ⟨"f", 8, 10, .manager⟩) none

theorem snapshot_adoption_started : ∃ snapshot,
    handleGetClusterState elected ⟨8⟩ = [.clusterState ⟨8⟩ snapshot] ∧
    (started.take ⟨⟨8⟩, "f", 8⟩ snapshot).1.epoch = some 2 ∧
    (⟨3⟩ : NodeId) ∈ (started.take ⟨⟨8⟩, "f", 8⟩ snapshot).1.workers ∧
    (started.take ⟨⟨8⟩, "f", 8⟩ snapshot).2 = [.newConnection none "m" 9 true] := by
  have hagree : Agree elected started ⟨⟨8⟩, "f", 8⟩ := by
    refine ⟨by decide +kernel, fun n a b hf hs => ?_⟩
    -- the two have no node in common
    have hn : n = ⟨8⟩ := by
      simp only [started, State.new, Std.ExtTreeMap.getElem?_insert, compare_eq_iff_eq] at hf
      split at hf
      · rename_i h
        exact h.symm
      · simp at hf
    subst hn
    exact absurd hs (by rw [show elected.nodes[(⟨8⟩ : NodeId)]? = none by decide +kernel]; simp)
  obtain ⟨snapshot, hanswer, hadopts, -⟩ := snapshot_adoption elected started ⟨⟨9⟩, "m", 9⟩
    ⟨⟨8⟩, "f", 8⟩ ⟨8⟩ 2 ⟨9⟩ rfl rfl (by decide +kernel) hagree
  have hadopts := (hadopts rfl).1
  refine ⟨snapshot, hanswer, hadopts.epoch, (hadopts.workers _).mpr (by decide +kernel), ?_⟩
  rw [hadopts.dials]
  decide +kernel

end Manager

end NoSqlStore
