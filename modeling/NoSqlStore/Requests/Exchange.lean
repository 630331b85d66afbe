import NoSqlStore.Requests.World
/-!
# A call gets the answer to its own request

As long as no request is sent under an id that somebody waits under on its
connection, the table of a connection agrees with what is in transit, and
so a call that is done has the answer a worker gave to its request. A
write that returns has then been applied by all its workers, and a read
that returns has asked the master.
-/

namespace NoSqlStore

namespace Requests

open Correlation Runs

/-! ## What an operation asks for -/

/-- The mutation an operation writes. -/
def Operation.mutation : Operation → Option (Key × Mutation)
  | .get _ => none
  | .put key value ttl (some creationTime) =>
    (expirationTime creationTime ttl).toOption.map fun expirationTime =>
      (key, .put ⟨expirationTime.getD 0, creationTime, value⟩)
  | .delete key (some deletionTime) => some (key, .delete deletionTime)
  | .put _ _ _ none | .delete _ none => none

/-- The workers an operation writes to. -/
def Operation.writeTargets (topology : Client.Topology) : Operation → Option (Finset NodeId)
  | .get _ => none
  | .put key _ _ _ | .delete key _ => (Client.writeTargets topology key).toOption

/-- **A write is dispatched as the mutation it stands for.** -/
theorem mutations_requestEvent {operation : Operation} {q : ClientRequest} {e : Key × Mutation}
    (hq : operation.request = .ok q) (he : operation.mutation = some e) (now id : ℕ) :
    (Use.event (requestEvent now { q with id })).mutations = [e] := by
  cases operation with
  | get key => cases he
  | delete key reading =>
    cases reading with
    | none => cases he
    | some deletionTime =>
      cases hq
      cases he
      rfl
  | put key value ttl reading =>
    cases reading with
    | none => cases he
    | some creationTime =>
      simp only [Operation.request, Operation.mutation] at hq he
      cases hexp : expirationTime creationTime ttl with
      | error failure =>
        rw [hexp] at hq
        cases hq
      | ok expiration =>
        rw [hexp] at hq he
        cases hq
        cases he
        rfl

/-- And a read as a read of its key. -/
theorem openClientConnection_get {key : Key} {q : ClientRequest}
    (hq : (Operation.get key).request = .ok q) (store : RuntimeStore) (now id : ℕ) :
    requestEvent now { q with id } = .getVersioned key now ∧
      (openClientConnection store now { q with id }).2 =
        getResponse id key.val (store.getVersioned key now).1 := by
  cases hq
  exact ⟨rfl, rfl⟩

/-- What a request does to the store is one of its events. -/
theorem openClientConnection_store (store : RuntimeStore) (now : ℕ) (request : ClientRequest) :
    (openClientConnection store now request).1 = store.apply (requestEvent now request) := by
  obtain ⟨id, requestType, key, creationTime, value, ttl⟩ := request
  simp only [openClientConnection, requestEvent]
  generalize decide (requestType = RequestType.put.toInt) = isPut
  by_cases hdelete : requestType = RequestType.delete.toInt
  · cases value <;> cases creationTime <;> cases isPut <;> simp only [hdelete, if_true] <;> rfl
  · cases value <;> cases creationTime <;> cases isPut <;> simp only [hdelete, if_false] <;> rfl

theorem getResponse_requestId (id key : ℕ) (mutation : Option Mutation) :
    (getResponse id key mutation).requestId = id := by
  unfold getResponse
  split <;> rfl

/-- A response carries the id of its request. -/
theorem openClientConnection_requestId (store : RuntimeStore) (now : ℕ) (request : ClientRequest) :
    (openClientConnection store now request).2.requestId = request.id := by
  unfold openClientConnection
  split
  · rfl
  · split
    · rfl
    · exact getResponse_requestId _ _ _

namespace World

variable {w w' w'' : World} {a : Asker} {n : NodeId} {topology : Client.Topology}
variable {record : Option Wire.GrpcRecord}

/-! ## What time keeps -/

/-- **What a step keeps**: what has been served and applied, and the
operations of the tasks there are. -/
structure Later (w w' : World) : Prop where
  served : ∀ e ∈ w.served, e ∈ w'.served
  answers : ∀ e ∈ w.answers, e ∈ w'.answers
  applied : ∀ e ∈ w.applied, e ∈ w'.applied
  nextTask : w.nextTask ≤ w'.nextTask
  operation : ∀ (i : ℕ) (t' : Task), w'.tasks[i]? = some t' → i < w.nextTask →
    ∃ t, w.tasks[i]? = some t ∧ t'.operation = t.operation

theorem Later.of_same (hserved : w'.served = w.served) (hanswers : w'.answers = w.answers)
    (happlied : w'.applied = w.applied)
    (hnext : w'.nextTask = w.nextTask) (htasks : w'.tasks = w.tasks) : Later w w' where
  served := by simp [hserved]
  answers := by simp [hanswers]
  applied := by simp [happlied]
  nextTask := hnext.ge
  operation i t' ht _ := ⟨t', htasks ▸ ht, rfl⟩

/-- A worker's answer to the asker, with this record, has arrived. -/
def Answered (w : World) (a : Asker) (n : NodeId) (record : Option Wire.GrpcRecord) : Prop :=
  ∃ e ∈ w.answers, e.asker = a ∧ e.node = n ∧ e.record = record

theorem Answered.later (h : w.Answered a n record) (hl : Later w w') : w'.Answered a n record := by
  obtain ⟨e, he, hasker⟩ := h
  exact ⟨e, hl.answers e he, hasker⟩

/-- An asker whose task, if it is still there, performs its operation. -/
def Known (w : World) (a : Asker) : Prop :=
  a.task < w.nextTask ∧ ∀ t : Task, w.tasks[a.task]? = some t → t.operation = a.operation

theorem Known.later (h : w.Known a) (hl : Later w w') : w'.Known a := by
  refine ⟨h.1.trans_le hl.nextTask, fun t' ht' => ?_⟩
  obtain ⟨t, ht, hop⟩ := hl.operation _ t' ht' h.1
  exact hop.trans (h.2 t ht)

/-! ## The invariant -/

/-- A connection carries requests of known askers and answers to them, and
its table agrees with them as long as it is open. -/
structure SoundConnection (w : World) (x : Connection) : Prop where
  matched : x.closed = false → x.toChannel.Matched ClientRequest.id (·.response.requestId)
  outbound : ∀ e ∈ x.outbound, w.Known e.1 ∧
    ∃ q, e.1.operation.request = .ok q ∧ e.2 = { q with id := e.2.id }
  inbound : ∀ e ∈ x.inbound, w.Known e.1 ∧ e.2.served ∈ w.served ∧ e.2.served.asker = e.1 ∧
    e.2.served.node = x.node ∧ e.2.served.record = responseRecord e.2.response

/-- The stage of a task is the one its operation asks for. -/
def Staged (topology : Client.Topology) (t : Task) : Prop :=
  match t.stage with
  | .write targets =>
    ∃ nodes, t.operation.writeTargets topology = some nodes ∧ ∀ node ∈ nodes, node ∈ targets
  | .primary node _ | .fallback node _ =>
    ∃ key fallback, t.operation = .get key ∧
      Client.readTargets topology key = .ok (node, fallback)

/-- A task asks what its operation says, and its calls that are done have
been answered. -/
structure SoundTask (topology : Client.Topology) (w : World) (i : ℕ) (t : Task) : Prop where
  lt : i < w.nextTask
  request : t.operation.request = .ok t.request
  staged : Staged topology t
  fell : ∀ node fallback, t.stage = .fallback node fallback → w.Answered (askerOf i t) node none
  done : ∀ (node : NodeId) (attempt : ℕ) record,
    t.calls[node]? = some ⟨attempt, .done (.ok record)⟩ → w.Answered (askerOf i t) node record

/-- An operation that has returned: a write has been answered by all its
workers, a read has the value its master has shown it. -/
structure SoundReturn (topology : Client.Topology) (w : World) (r : Returned) : Prop where
  lt : r.asker.task < w.nextTask
  written : r.outcome = .written → ∀ targets, r.asker.operation.writeTargets topology =
    some targets → ∀ node ∈ targets, ∃ record, w.Answered r.asker node record
  read : ∀ value, r.outcome = .read value → ∃ key node fallback record,
    r.asker.operation = .get key ∧ Client.readTargets topology key = .ok (node, fallback) ∧
      w.Answered r.asker node record ∧ ∀ shows, record = some shows → value = shown shows

/-- A write that was served is applied. -/
structure SoundServed (w : World) (e : Served) : Prop where
  lt : e.asker.task < w.nextTask
  applied : ∀ m, e.asker.operation.mutation = some m → (e.node, m) ∈ w.applied

structure Inv (topology : Client.Topology) (w : World) : Prop where
  connections : ∀ (c : ℕ) (x : Connection), w.connections[c]? = some x → SoundConnection w x
  tasks : ∀ (i : ℕ) (t : Task), w.tasks[i]? = some t → SoundTask topology w i t
  returned : ∀ r ∈ w.returned, SoundReturn topology w r
  served : ∀ e ∈ w.served, SoundServed w e
  answers : ∀ e ∈ w.answers, e ∈ w.served

theorem SoundConnection.later {x : Connection} (h : SoundConnection w x) (hl : Later w w') :
    SoundConnection w' x where
  matched := h.matched
  outbound e he := ⟨(h.outbound e he).1.later hl, (h.outbound e he).2⟩
  inbound e he := by
    obtain ⟨hknown, hserved, hanswer⟩ := h.inbound e he
    exact ⟨hknown.later hl, hl.served _ hserved, hanswer⟩

theorem SoundTask.later {i : ℕ} {t : Task} (h : SoundTask topology w i t) (hl : Later w w') :
    SoundTask topology w' i t where
  lt := h.lt.trans_le hl.nextTask
  request := h.request
  staged := h.staged
  fell node fallback hstage := (h.fell node fallback hstage).later hl
  done node attempt record hcall := (h.done node attempt record hcall).later hl

theorem SoundReturn.later {r : Returned} (h : SoundReturn topology w r) (hl : Later w w') :
    SoundReturn topology w' r where
  lt := h.lt.trans_le hl.nextTask
  written hw targets htargets node hnode :=
    (h.written hw targets htargets node hnode).imp fun _ hans => hans.later hl
  read value hread := by
    obtain ⟨key, node, fallback, record, hop, htargets, hans, hshown⟩ := h.read value hread
    exact ⟨key, node, fallback, record, hop, htargets, hans.later hl, hshown⟩

theorem SoundServed.later {e : Served} (h : SoundServed w e) (hl : Later w w') :
    SoundServed w' e where
  lt := h.lt.trans_le hl.nextTask
  applied m hm := hl.applied (e.node, m) (h.applied m hm)

/-- **The rule of a step**: what is there stays sound, so only what the
step brings has to be. -/
theorem Inv.of_later (h : Inv topology w) (hl : Later w w')
    (hconnections : ∀ (c : ℕ) (x : Connection), w'.connections[c]? = some x →
      w.connections[c]? = some x ∨ SoundConnection w' x)
    (htasks : ∀ (i : ℕ) (t : Task), w'.tasks[i]? = some t →
      w.tasks[i]? = some t ∨ SoundTask topology w' i t)
    (hreturned : ∀ r ∈ w'.returned, r ∈ w.returned ∨ SoundReturn topology w' r)
    (hserved : ∀ e ∈ w'.served, e ∈ w.served ∨ SoundServed w' e)
    (hanswers : ∀ e ∈ w'.answers, e ∈ w.answers ∨ e ∈ w'.served) : Inv topology w' where
  connections c x hx :=
    (hconnections c x hx).elim (fun hold => (h.connections c x hold).later hl) id
  tasks i t ht := (htasks i t ht).elim (fun hold => (h.tasks i t hold).later hl) id
  returned r hr := (hreturned r hr).elim (fun hold => (h.returned r hold).later hl) id
  served e he := (hserved e he).elim (fun hold => (h.served e hold).later hl) id
  answers e he := (hanswers e he).elim (fun hold => hl.served e (h.answers e hold)) id

/-! ## The parts of a step -/

/-- A part of a step that brings nothing. -/
theorem Inv.of_same (h : Inv topology w) (hconnections : w'.connections = w.connections)
    (htasks : w'.tasks = w.tasks) (hreturned : w'.returned = w.returned)
    (hserved : w'.served = w.served) (hanswers : w'.answers = w.answers)
    (hnext : w'.nextTask = w.nextTask)
    (happlied : ∀ e ∈ w.applied, e ∈ w'.applied) : Inv topology w' := by
  have hl : Later w w' :=
    ⟨by simp [hserved], by simp [hanswers], happlied, hnext.ge,
      fun i t ht _ => ⟨t, htasks ▸ ht, rfl⟩⟩
  refine h.of_later hl (fun c x hx => Or.inl ?_) (fun i t ht => Or.inl ?_)
    (fun r hr => Or.inl ?_) (fun e he => Or.inl ?_) fun e he => Or.inl ?_
  · rwa [hconnections] at hx
  · rwa [htasks] at ht
  · rwa [hreturned] at hr
  · rwa [hserved] at he
  · rwa [hanswers] at he

theorem inv_setClient (h : Inv topology w) (client : ℕ) (state : ClientState) :
    Inv topology (w.setClient client state) :=
  h.of_same rfl rfl rfl rfl rfl rfl fun _ he => he

theorem inv_useStore (h : Inv topology w) (node : NodeId) (store : RuntimeStore) (u : Use) :
    Inv topology (w.useStore node store u) :=
  h.of_same rfl rfl rfl rfl rfl rfl fun _ he => List.mem_append_right _ he

theorem inv_setConnection {x : Connection} (h : Inv topology w) (c : ℕ)
    (hx : SoundConnection w x) : Inv topology (w.setConnection c x) := by
  have hl : Later w (w.setConnection c x) := .of_same rfl rfl rfl rfl rfl
  refine h.of_later hl (fun c' x' hx' => ?_) (fun _ _ => Or.inl) (fun _ => Or.inl)
    (fun _ => Or.inl) fun _ => Or.inl
  rw [setConnection, Std.ExtTreeMap.getElem?_insert] at hx'
  split at hx'
  · cases hx'
    exact Or.inr (hx.later hl)
  · exact Or.inl hx'

theorem inv_connectTo (h : Inv topology w) (client : ℕ) (node : NodeId) :
    Inv topology (w.connectTo client node) := by
  have hempty : SoundConnection w ⟨⟨∅, [], []⟩, node, false⟩ :=
    ⟨fun _ => ⟨List.nodup_nil, fun e he => absurd he List.not_mem_nil⟩,
      fun e he => absurd he List.not_mem_nil, fun e he => absurd he List.not_mem_nil⟩
  exact (inv_setConnection h w.nextConnection hempty).of_same rfl rfl rfl rfl rfl rfl fun _ he => he

theorem getElem?_setCall (w : World) (task i : ℕ) (node : NodeId) (call : Call) :
    (w.setCall task node call).tasks[i]? =
      if task = i then
        w.tasks[i]?.map fun t => { t with calls := t.calls.insert node call }
      else w.tasks[i]? := by
  simp only [setCall, Std.ExtTreeMap.getElem?_alter, compare_eq_iff_eq]
  split
  · rename_i heq
    rw [heq]
  · rfl

theorem later_setCall (w : World) (task : ℕ) (node : NodeId) (call : Call) :
    Later w (w.setCall task node call) := by
  refine ⟨fun _ he => he, fun _ he => he, fun _ he => he, le_rfl, fun i t' ht' _ => ?_⟩
  rw [getElem?_setCall] at ht'
  split at ht'
  · obtain ⟨t, ht, rfl⟩ := Option.map_eq_some_iff.mp ht'
    exact ⟨t, ht, rfl⟩
  · exact ⟨t', ht', rfl⟩

/-- A call moves on; if it is done, it has been answered. -/
theorem inv_setCall (h : Inv topology w) {task : ℕ} {node : NodeId} {call : Call}
    (hdone : ∀ (t : Task) record, w.tasks[task]? = some t → call.phase = .done (.ok record) →
      w.Answered (askerOf task t) node record) : Inv topology (w.setCall task node call) := by
  have hl := later_setCall w task node call
  refine h.of_later hl (fun _ _ => Or.inl) (fun i t' ht' => ?_) (fun _ => Or.inl)
    (fun _ => Or.inl) fun _ => Or.inl
  rw [getElem?_setCall] at ht'
  split at ht'
  · rename_i heq
    subst heq
    obtain ⟨t, ht, rfl⟩ := Option.map_eq_some_iff.mp ht'
    have hsound := (h.tasks task t ht).later hl
    refine Or.inr ⟨hsound.lt, hsound.request, hsound.staged, hsound.fell,
      fun node' attempt record hcall => ?_⟩
    simp only [Std.ExtTreeMap.getElem?_insert, compare_eq_iff_eq] at hcall
    split at hcall
    · rename_i heq
      subst heq
      cases hcall
      exact (hdone t record ht rfl).later hl
    · exact hsound.done node' attempt record hcall
  · exact Or.inl ht'

/-- A call that is not done. -/
theorem inv_setCall_of_not_done (h : Inv topology w) (task : ℕ) (node : NodeId) {call : Call}
    (hcall : ∀ record, call.phase ≠ .done (.ok record)) : Inv topology (w.setCall task node call) :=
  inv_setCall h fun _ record _ hphase => absurd hphase (hcall record)

theorem inv_failAttempt (h : Inv topology w) (attempts task : ℕ) (node : NodeId) (attempt : ℕ)
    (reason : Reason) : Inv topology (w.failAttempt attempts task node attempt reason) := by
  refine inv_setCall_of_not_done (inv_setClient h _ _) task node fun record => ?_
  split
  · exact nofun
  · exact nofun

/-! ## The steps of a call -/

theorem inv_draw (h : Inv topology w) (task : ℕ) (node : NodeId) :
    Inv topology (w.draw task node) := by
  unfold draw
  split
  · exact inv_setCall_of_not_done (inv_setClient h _ _) task node nofun
  · exact h

theorem inv_lookup (h : Inv topology w) (attempts task : ℕ) (node : NodeId) :
    Inv topology (w.lookup topology attempts task node) := by
  unfold lookup
  split
  · split
    · exact inv_setCall_of_not_done h task node nofun
    · split
      · exact inv_setCall_of_not_done h task node nofun
      · exact inv_failAttempt h _ _ _ _ _
  · exact h

theorem inv_dial (h : Inv topology w) (attempts task : ℕ) (node : NodeId)
    (dialled : Except String Unit) : Inv topology (w.dial attempts task node dialled) := by
  unfold dial
  split
  · split
    · exact inv_setCall_of_not_done (inv_connectTo h _ _) task node nofun
    · exact inv_failAttempt h _ _ _ _ _
  · exact h

theorem inv_fail (h : Inv topology w) (attempts task : ℕ) (node : NodeId) (reason : Reason) :
    Inv topology (w.fail attempts task node reason) := by
  unfold fail
  split
  · exact inv_failAttempt h _ _ _ _ _
  · exact inv_failAttempt h _ _ _ _ _
  · exact h

/-- The asker of a task that is there. -/
theorem Inv.known (h : Inv topology w) {task : ℕ} {t : Task} (ht : w.tasks[task]? = some t) :
    w.Known (askerOf task t) := by
  refine ⟨(h.tasks task t ht).lt, fun t' ht' => ?_⟩
  have hsame : w.tasks[task]? = some t' := ht'
  rw [ht] at hsame
  cases hsame
  rfl

/-- **A request is sent under an id nobody waits under**, so the table
goes on agreeing. -/
theorem inv_send (h : Inv topology w) (attempts task : ℕ) (node : NodeId) (taken : Bool)
    (hapart : w.awaited task node = false) : Inv topology (w.send attempts task node taken) := by
  unfold send
  split
  · rename_i t attempt c id ht hcall
    split
    · rename_i x hx
      have hsound := h.connections c x hx
      have hfree : id ∉ x.pending := by
        intro hmem
        simp [awaited, hcall, hx, Std.ExtTreeMap.mem_iff_contains.mp hmem] at hapart
      split
      · refine inv_setCall_of_not_done (inv_setConnection h c ?_) task node nofun
        refine ⟨fun hopen => (hsound.matched hopen).send hfree rfl, fun e he => ?_, hsound.inbound⟩
        rcases List.mem_append.mp he with hin | hin
        · exact hsound.outbound e hin
        · rw [List.mem_singleton.mp hin]
          exact ⟨h.known ht, t.request, (h.tasks task t ht).request, rfl⟩
      · refine inv_failAttempt (inv_setConnection h c ?_) _ _ _ _ _
        refine ⟨fun hopen => ?_, hsound.outbound, hsound.inbound⟩
        -- nobody waits under the id, so the table is as before
        simp only [Map.erase_of_not_mem hfree]
        exact hsound.matched hopen
    · exact h
  · exact h

/-! ## The steps of a connection -/

/-- The worker's answer belongs to the request it serves. -/
theorem inv_serve (h : Inv topology w) (c now : ℕ) : Inv topology (w.serve c now) := by
  unfold serve
  split
  · rename_i x hx
    split
    · rename_i asker request rest hout
      have hhead : (asker, request) ∈ x.outbound := hout ▸ List.mem_cons_self
      have hused := inv_useStore h x.node (openClientConnection (w.stores x.node) now request).1
        (.event (requestEvent now request))
      have hsound := hused.connections c x hx
      obtain ⟨hknown, q, hq, hrequest⟩ := hsound.outbound _ hhead
      refine hused.of_later ⟨fun e he => List.mem_cons_of_mem _ he, fun _ he => he,
        fun _ he => he, le_rfl, fun i t ht _ => ⟨t, ht, rfl⟩⟩ (fun c' x' hx' => ?_)
        (fun _ _ => Or.inl) (fun _ => Or.inl) (fun e he => ?_) fun _ => Or.inl
      · simp only [setConnection, Std.ExtTreeMap.getElem?_insert] at hx'
        split at hx'
        · cases hx'
          refine Or.inr ⟨fun hopen => ?_, fun e he => ?_, fun e he => ?_⟩
          · exact (hsound.matched hopen).answer hout (openClientConnection_requestId _ _ _)
          · exact hsound.outbound e (hout ▸ List.mem_cons_of_mem _ he)
          · rcases List.mem_append.mp he with hin | hin
            · obtain ⟨hasker, hserved, hanswer⟩ := hsound.inbound e hin
              exact ⟨hasker, List.mem_cons_of_mem _ hserved, hanswer⟩
            · rw [List.mem_singleton.mp hin]
              exact ⟨hknown, List.mem_cons_self, rfl, rfl, rfl⟩
        · exact Or.inl hx'
      · rcases List.mem_cons.mp he with rfl | he
        · refine Or.inr ⟨hknown.1, fun m hm => ?_⟩
          have hmutations := mutations_requestEvent hq hm now request.id
          rw [← hrequest] at hmutations
          simp only [setConnection, useStore, hmutations]
          exact List.mem_cons_self
        · exact Or.inl he
    · exact h
  · exact h

theorem later_wake (w : World) (c : ℕ) (node : NodeId) (reply : Reply) (a : Asker) :
    Later w (w.wake c node reply a) := by
  unfold wake
  split
  · split
    · obtain ⟨hserved, -, happlied, hnext, hop⟩ := later_setCall w a.task node
        ⟨_, .done (.ok (responseRecord reply.response))⟩
      exact ⟨hserved, fun _ he => List.mem_cons_of_mem _ he, happlied, hnext, hop⟩
    · exact .of_same rfl rfl rfl rfl rfl
  · exact .of_same rfl rfl rfl rfl rfl

/-- The call of the one who asked is woken. -/
theorem inv_wake (h : Inv topology w) {c : ℕ} {node : NodeId} {reply : Reply} (hknown : w.Known a)
    (hserved : reply.served ∈ w.served) (hasker : reply.served.asker = a)
    (hnode : reply.served.node = node)
    (hrecord : reply.served.record = responseRecord reply.response) :
    Inv topology (w.wake c node reply a) := by
  unfold wake
  split
  · split
    · -- the answer is noted first, so that the call may be done
      have hnoted : Inv topology { w with answers := reply.served :: w.answers } := by
        refine h.of_later ⟨fun _ he => he, fun _ he => List.mem_cons_of_mem _ he,
          fun _ he => he, le_rfl, fun i t ht _ => ⟨t, ht, rfl⟩⟩ (fun _ _ => Or.inl)
          (fun _ _ => Or.inl) (fun _ => Or.inl) (fun _ => Or.inl) fun e he => ?_
        rcases List.mem_cons.mp he with rfl | he
        · exact Or.inr hserved
        · exact Or.inl he
      refine inv_setCall hnoted fun t record ht hphase => ?_
      cases hphase
      have hsame : askerOf a.task t = a := by rw [askerOf, hknown.2 t ht]
      rw [hsame]
      exact ⟨_, List.mem_cons_self, hasker, hnode, hrecord⟩
    · exact h
  · exact h

/-- **A call is woken by the answer to its own request.** -/
theorem inv_receive (h : Inv topology w) (c : ℕ) : Inv topology (w.receive c) := by
  unfold receive
  split
  · rename_i x hx
    split
    · exact h
    · rename_i hopen
      split
      · rename_i asker reply rest hin
        have hsound := h.connections c x hx
        have hmatched := hsound.matched (Bool.eq_false_iff.mpr hopen)
        obtain ⟨hknown, hserved, hasker, hnode, hrecord⟩ :=
          hsound.inbound _ (hin ▸ List.mem_cons_self)
        -- whoever waits under the id of the response has asked for it
        have hwaits : x.pending[reply.response.requestId]? = some asker := hmatched.asker hin
        dsimp only
        rw [hwaits]
        refine inv_setConnection (inv_wake h hknown hserved hasker hnode hrecord) c ?_
        have hsound := hsound.later (later_wake w c x.node reply asker)
        exact ⟨fun _ => hmatched.receive hin, hsound.outbound,
          fun e he => hsound.inbound e (hin ▸ List.mem_cons_of_mem _ he)⟩
      · exact h
  · exact h

theorem inv_close (h : Inv topology w) (c : ℕ) : Inv topology (w.close c) := by
  unfold close
  split
  · rename_i x hx
    have hsound := h.connections c x hx
    exact inv_setConnection h c ⟨nofun, hsound.outbound, hsound.inbound⟩
  · exact h

/-! ## Tasks -/

theorem getElem?_addCalls (calls : Map NodeId Call) (nodes : List NodeId) (n : NodeId) :
    (addCalls calls nodes)[n]? = if n ∈ nodes then some ⟨0, .idle⟩ else calls[n]? := by
  unfold addCalls
  induction nodes generalizing calls with
  | nil => simp
  | cons node nodes ih =>
    rw [List.foldl_cons, ih, Std.ExtTreeMap.getElem?_insert]
    by_cases hn : n ∈ nodes
    · simp [hn]
    · by_cases heq : n = node
      · simp [heq]
      · simp [hn, heq, Ne.symm heq]

/-- A new call is not done. -/
theorem done_of_addCalls {calls : Map NodeId Call} {nodes : List NodeId} {attempt : ℕ}
    {result : CallResult} (h : (addCalls calls nodes)[n]? = some ⟨attempt, .done result⟩) :
    calls[n]? = some ⟨attempt, .done result⟩ := by
  rw [getElem?_addCalls] at h
  split at h
  · cases h
  · exact h

/-- **How a task begins**: with the request and the stage of its operation
and no call done. -/
structure Begun (topology : Client.Topology) (operation : Operation) (t : Task) : Prop where
  operation_eq : t.operation = operation
  request : operation.request = .ok t.request
  staged : Staged topology t
  first : ∀ node fallback, t.stage ≠ .fallback node fallback
  calls : ∀ (node : NodeId) (attempt : ℕ) result,
    t.calls[node]? ≠ some ⟨attempt, .done result⟩

theorem begun_of_begin {client : ℕ} {operation : Operation} {order : Worker.Enumeration} {t : Task}
    (h : Requests.begin topology client operation order = .ok t) :
    Begun topology operation t := by
  have hempty : ∀ (nodes : List NodeId) (node : NodeId) (attempt : ℕ) result,
      (addCalls ∅ nodes)[node]? ≠ some ⟨attempt, .done result⟩ := by
    intro nodes node attempt result hcall
    have hnone := done_of_addCalls hcall
    simp at hnone
  unfold Requests.begin at h
  cases hq : operation.request with
  | error failure =>
    rw [hq] at h
    cases h
  | ok q =>
    rw [hq] at h
    -- a put and a deletion begin alike
    have hwrite : ∀ key, operation.writeTargets topology =
        (Client.writeTargets topology key).toOption → (do
          let targets ← (Client.writeTargets topology key).mapError Failure.routing
          return ⟨client, operation, q, .write (order.toList targets),
            addCalls ∅ (order.toList targets)⟩) = Except.ok t → Begun topology operation t := by
      intro key htargets hbegin
      cases hkey : Client.writeTargets topology key with
      | error error =>
        rw [hkey] at hbegin
        cases hbegin
      | ok targets =>
        rw [hkey] at hbegin htargets
        cases hbegin
        exact ⟨rfl, hq, ⟨targets, htargets, fun node => (order.mem_toList targets node).mpr⟩, nofun,
          hempty _⟩
    cases operation with
    | get key =>
      dsimp only [Bind.bind, Except.bind] at h
      cases htargets : Client.readTargets topology key with
      | error error =>
        rw [htargets] at h
        cases h
      | ok targets =>
        rw [htargets] at h
        cases h
        exact ⟨rfl, hq, ⟨key, _, rfl, htargets⟩, nofun, hempty _⟩
    | put key value ttl reading => exact hwrite key rfl h
    | delete key reading => exact hwrite key rfl h

theorem inv_begin (h : Inv topology w) (client : ℕ) (operation : Operation)
    (order : Worker.Enumeration) : Inv topology (w.begin topology client operation order) := by
  unfold World.begin
  split
  · rename_i t hbegin
    obtain ⟨rfl, hrequest, hstaged, hstage, hcalls⟩ := begun_of_begin hbegin
    have hother : ∀ (i : ℕ) (t' : Task), (w.tasks.insert w.nextTask t)[i]? = some t' →
        (i = w.nextTask ∧ t' = t) ∨ w.tasks[i]? = some t' := fun i t' => Map.getElem?_insert_cases
    refine h.of_later ⟨fun _ he => he, fun _ he => he, fun _ he => he, Nat.le_succ _,
      fun i t' ht' hlt => ?_⟩ (fun _ _ => Or.inl) (fun i t' ht' => ?_) (fun _ => Or.inl)
      (fun _ => Or.inl) fun _ => Or.inl
    · rcases hother i t' ht' with ⟨rfl, -⟩ | hold
      · exact absurd hlt (lt_irrefl _)
      · exact ⟨t', hold, rfl⟩
    · rcases hother i t' ht' with ⟨rfl, rfl⟩ | hold
      · refine Or.inr ⟨Nat.lt_succ_self _, hrequest, hstaged, fun node fallback hfell => ?_,
          fun node attempt record hcall => ?_⟩
        · exact absurd hfell (hstage node fallback)
        · exact absurd hcall (hcalls node attempt _)
      · exact Or.inl hold
  · refine h.of_later ⟨fun _ he => he, fun _ he => he, fun _ he => he, Nat.le_succ _,
      fun i t ht _ => ⟨t, ht, rfl⟩⟩ (fun _ _ => Or.inl) (fun _ _ => Or.inl) (fun r hr => ?_)
      (fun _ => Or.inl) fun _ => Or.inl
    rcases List.mem_cons.mp hr with rfl | hr
    · exact Or.inr ⟨Nat.lt_succ_self _, nofun, nofun⟩
    · exact Or.inl hr

theorem result_eq_some {t : Task} {node : NodeId} {result : CallResult}
    (h : t.result node = some result) :
    ∃ attempt, t.calls[node]? = some ⟨attempt, .done result⟩ := by
  obtain ⟨⟨attempt, phase⟩, hcall, hphase⟩ := Option.bind_eq_some_iff.mp h
  cases phase with
  | done result' =>
    cases hphase
    exact ⟨attempt, hcall⟩
  | idle | drawn | dialling | connected | waiting => cases hphase

/-- A write succeeds only if all its calls do. -/
theorem writeOutcome_written {results : List CallResult} (h : writeOutcome results = .written) :
    ∀ result ∈ results, ∃ record, result = .ok record := by
  induction results with
  | nil => exact fun _ hin => absurd hin List.not_mem_nil
  | cons first results ih =>
    cases first with
    | error failure => cases h
    | ok record =>
      intro result hin
      rcases List.mem_cons.mp hin with rfl | hin
      · exact ⟨record, rfl⟩
      · exact ih h result hin

theorem writeOutcome_ne_read (results : List CallResult) (value : Option (List UInt8)) :
    writeOutcome results ≠ .read value := by
  induction results with
  | nil => exact nofun
  | cons first results ih =>
    cases first with
    | error failure => exact nofun
    | ok record => exact ih

theorem readOutcome_ne_written (results : List CallResult) : readOutcome results ≠ .written := by
  unfold readOutcome
  split <;> exact nofun

/-- **What a task returns**: a write has the answers of all its workers, a
read that of its master. -/
theorem soundReturn_of_continue {i : ℕ} {t : Task} {outcome : Outcome}
    (hsound : SoundTask topology w i t) (h : t.continue = some (.returns outcome)) :
    SoundReturn topology w ⟨askerOf i t, outcome⟩ := by
  have hstaged := hsound.staged
  unfold Task.continue at h
  unfold Staged at hstaged
  cases hstage : t.stage with
  | write targets =>
    rw [hstage] at h hstaged
    obtain ⟨nodes, hnodes, hmem⟩ := hstaged
    obtain ⟨results, hresults, houtcome⟩ := Option.map_eq_some_iff.mp h
    cases houtcome
    refine ⟨hsound.lt, fun hwritten nodes' hnodes' node hnode => ?_, fun value hread => ?_⟩
    · have hsame : nodes = nodes' := Option.some.inj (hnodes.symm.trans hnodes')
      obtain ⟨result, hin, hresult⟩ := exists_of_mapM hresults (hmem node (hsame ▸ hnode))
      obtain ⟨record, rfl⟩ := writeOutcome_written hwritten result hin
      obtain ⟨attempt, hcall⟩ := result_eq_some hresult
      exact ⟨record, hsound.done node attempt record hcall⟩
    · exact absurd hread (writeOutcome_ne_read results value)
  | primary node fallback =>
    rw [hstage] at h hstaged
    obtain ⟨key, others, hop, htargets⟩ := hstaged
    obtain ⟨result, hresult, houtcome⟩ := Option.map_eq_some_iff.mp h
    obtain ⟨attempt, hcall⟩ := result_eq_some hresult
    cases result with
    | error failure =>
      cases houtcome
      exact ⟨hsound.lt, nofun, nofun⟩
    | ok record =>
      have hanswered := hsound.done node attempt record hcall
      cases record with
      | some shows =>
        cases houtcome
        refine ⟨hsound.lt, nofun, fun value hread => ?_⟩
        cases hread
        refine ⟨key, node, others, some shows, hop, htargets, hanswered, fun shows' heq => ?_⟩
        cases heq
        rfl
      | none =>
        dsimp only at houtcome
        split at houtcome
        · cases houtcome
          exact ⟨hsound.lt, nofun,
            fun value _ => ⟨key, node, others, none, hop, htargets, hanswered, nofun⟩⟩
        · cases houtcome
  | fallback node fallback =>
    rw [hstage] at h hstaged
    obtain ⟨key, others, hop, htargets⟩ := hstaged
    obtain ⟨results, hresults, houtcome⟩ := Option.map_eq_some_iff.mp h
    cases houtcome
    refine ⟨hsound.lt, fun hwritten => absurd hwritten (readOutcome_ne_written results),
      fun value _ => ⟨key, node, others, none, hop, htargets, hsound.fell node fallback hstage,
        nofun⟩⟩

/-- **How a read goes on**: its master had nothing. -/
theorem soundTask_of_continue {i : ℕ} {t t' : Task} (hsound : SoundTask topology w i t)
    (h : t.continue = some (.asks t')) :
    t'.operation = t.operation ∧ SoundTask topology w i t' := by
  have hstaged := hsound.staged
  unfold Task.continue at h
  unfold Staged at hstaged
  cases hstage : t.stage with
  | write targets =>
    rw [hstage] at h
    obtain ⟨results, -, houtcome⟩ := Option.map_eq_some_iff.mp h
    cases houtcome
  | fallback node fallback =>
    rw [hstage] at h
    obtain ⟨results, -, houtcome⟩ := Option.map_eq_some_iff.mp h
    cases houtcome
  | primary node fallback =>
    rw [hstage] at h hstaged
    obtain ⟨result, hresult, houtcome⟩ := Option.map_eq_some_iff.mp h
    obtain ⟨attempt, hcall⟩ := result_eq_some hresult
    cases result with
    | error failure => cases houtcome
    | ok record =>
      cases record with
      | some shows => cases houtcome
      | none =>
        dsimp only at houtcome
        split at houtcome
        · cases houtcome
        · cases houtcome
          refine ⟨rfl, hsound.lt, hsound.request, hstaged, fun node' fallback' hfell => ?_,
            fun node' attempt' record hcall' => ?_⟩
          · cases hfell
            exact hsound.done node attempt none hcall
          · exact hsound.done node' attempt' record (done_of_addCalls hcall')

theorem inv_resume (h : Inv topology w) (task : ℕ) : Inv topology (w.resume task) := by
  unfold resume
  split
  · rename_i t ht
    have hsound := h.tasks task t ht
    split
    · rename_i outcome hreturns
      have hkept : ∀ (i : ℕ) (t' : Task),
          (w.returns (askerOf task t) outcome).tasks[i]? = some t' → w.tasks[i]? = some t' := by
        intro i t' ht'
        simp only [returns, Std.ExtTreeMap.getElem?_erase] at ht'
        split at ht'
        · cases ht'
        · exact ht'
      have hl : Later w (w.returns (askerOf task t) outcome) :=
        ⟨fun _ he => he, fun _ he => he, fun _ he => he, le_rfl,
          fun i t' ht' _ => ⟨t', hkept i t' ht', rfl⟩⟩
      refine h.of_later hl (fun _ _ => Or.inl) (fun i t' ht' => Or.inl (hkept i t' ht'))
        (fun r hr => ?_) (fun _ => Or.inl) fun _ => Or.inl
      rcases List.mem_cons.mp hr with rfl | hr
      · exact Or.inr ((soundReturn_of_continue hsound hreturns).later hl)
      · exact Or.inl hr
    · rename_i t' hasks
      obtain ⟨hop, hsound'⟩ := soundTask_of_continue hsound hasks
      have hother : ∀ (i : ℕ) (t'' : Task), (w.tasks.insert task t')[i]? = some t'' →
          (i = task ∧ t'' = t') ∨ w.tasks[i]? = some t'' := fun i t'' => Map.getElem?_insert_cases
      have hl : Later w { w with tasks := w.tasks.insert task t' } := by
        refine ⟨fun _ he => he, fun _ he => he, fun _ he => he, le_rfl, fun i t'' ht'' _ => ?_⟩
        rcases hother i t'' ht'' with ⟨rfl, rfl⟩ | hold
        · exact ⟨t, ht, hop⟩
        · exact ⟨t'', hold, rfl⟩
      refine h.of_later hl (fun _ _ => Or.inl) (fun i t'' ht'' => ?_) (fun _ => Or.inl)
        (fun _ => Or.inl) fun _ => Or.inl
      rcases hother i t'' ht'' with ⟨rfl, rfl⟩ | hold
      · exact Or.inr (hsound'.later hl)
      · exact Or.inl hold
    · exact h
  · exact h

/-! ## Every step -/

theorem inv_start : Inv topology start where
  connections c x hx := by simp [start] at hx
  tasks i t ht := by simp [start] at ht
  returned r hr := absurd hr List.not_mem_nil
  served e he := absurd he List.not_mem_nil
  answers e he := absurd he List.not_mem_nil

theorem inv_step (attempts : ℕ) (h : Inv topology w) (a : Action) (hapart : w.Apart a) :
    Inv topology (step topology attempts w a) := by
  cases a with
  | begin client operation order => exact inv_begin h client operation order
  | draw task node => exact inv_draw h task node
  | lookup task node => exact inv_lookup h attempts task node
  | dial task node dialled => exact inv_dial h attempts task node dialled
  | send task node taken => exact inv_send h attempts task node taken hapart
  | fail task node reason => exact inv_fail h attempts task node reason
  | resume task => exact inv_resume h task
  | ensure client node => exact inv_connectTo h client node
  | serve c now => exact inv_serve h c now
  | receive c => exact inv_receive h c
  | close c => exact inv_close h c
  | use node u => exact inv_useStore h node _ u
  | prune node p throughRevision => exact h.of_same rfl rfl rfl rfl rfl rfl fun _ he => he
  | removePartition node p =>
    simp only [step]
    split
    · exact h
    · exact h.of_same rfl rfl rfl rfl rfl rfl fun _ he => he

/-- **Every run that keeps its ids apart is sound.** -/
theorem inv_run (attempts : ℕ) {actions : List Action}
    (hapart : Along (step topology attempts) Apart start actions) :
    Inv topology (run (step topology attempts) start actions) :=
  run_inv (I := Inv topology) (fun _ a h hok => inv_step attempts h a hok) inv_start hapart

end World

end Requests

end NoSqlStore
