import Mathlib.Algebra.BigOperators.Intervals
import NoSqlStore.Requests.Attempts
/-!
# The requests of a call are served once

A connection carries a request to the worker it leads to, and the worker
takes it off when it serves it. So the requests a call has sent are those
the worker has served and those in transit, and with the bound on the
attempts, a worker serves a call no more often than the call has attempts
(`served_at_most_attempts`): an operation started over may be applied
again, but not without end, and not without having been sent.
-/

namespace NoSqlStore

namespace Requests

open Correlation Runs

namespace World

variable {topology : Client.Topology} {attempts : ℕ} {w w' : World} {i task : ℕ} {n node : NodeId}
  {call : Call} {c : ℕ} {x x' : Connection}

/-! ## Where connections lead -/

/-- The connection leads to the worker. -/
def LeadsTo (w : World) (c : ℕ) (n : NodeId) : Prop :=
  ∃ x, w.connections[c]? = some x ∧ x.node = n

/-- **Connections lead where they are used**: those a client keeps for a
worker lead there, and so do those its calls have found. -/
structure Located (w : World) : Prop where
  lt : ∀ c x, w.connections[c]? = some x → c < w.nextConnection
  workers : ∀ client n c, (w.clients client).workers[n]? = some c → w.LeadsTo c n
  calls : ∀ i n k c id, w.call i n = some ⟨k, .connected c id⟩ → w.LeadsTo c n

/-! ## Counting requests -/

/-- The requests of a call that are on the connection. -/
def carried (i : ℕ) (n : NodeId) (x : Connection) : ℕ :=
  if x.node = n then x.outbound.countP fun e => e.1.task = i else 0

/-- Those on all connections. -/
def inTransit (i : ℕ) (n : NodeId) (w : World) : ℕ :=
  ∑ c ∈ Finset.range w.nextConnection, w.connections[c]?.elim 0 (carried i n)

/-- Those the worker has served. -/
def servedTo (i : ℕ) (n : NodeId) (w : World) : ℕ :=
  w.served.countP fun e => e.asker.task = i ∧ e.node = n

/-- The requests of a call there are. -/
def delivered (i : ℕ) (n : NodeId) (w : World) : ℕ := servedTo i n w + inTransit i n w

theorem inTransit_of_same (hconnections : w'.connections = w.connections)
    (hnext : w'.nextConnection = w.nextConnection) (i : ℕ) (n : NodeId) :
    inTransit i n w' = inTransit i n w := by
  rw [inTransit, inTransit, hconnections, hnext]

/-- Changing one connection. -/
theorem inTransit_setConnection (hx : w.connections[c]? = some x) (hc : c < w.nextConnection)
    (x' : Connection) (i : ℕ) (n : NodeId) :
    inTransit i n (w.setConnection c x') + carried i n x = inTransit i n w + carried i n x' := by
  have hmem : c ∈ Finset.range w.nextConnection := Finset.mem_range.2 hc
  have hsame : ∀ c' ∈ (Finset.range w.nextConnection).erase c,
      (w.setConnection c x').connections[c']?.elim 0 (carried i n) =
        w.connections[c']?.elim 0 (carried i n) := by
    intro c' hc'
    have hne := (Finset.mem_erase.1 hc').1
    rw [setConnection, Std.ExtTreeMap.getElem?_insert, if_neg]
    rw [compare_eq_iff_eq]
    exact Ne.symm hne
  have hself : (w.setConnection c x').connections[c]? = some x' :=
    Std.ExtTreeMap.getElem?_insert_self
  have hnew : inTransit i n (w.setConnection c x') = carried i n x' +
      ∑ c' ∈ (Finset.range w.nextConnection).erase c,
        w.connections[c']?.elim 0 (carried i n) := by
    rw [← Finset.sum_congr rfl hsame, inTransit]
    show ∑ c' ∈ Finset.range w.nextConnection, _ = _
    rw [← Finset.add_sum_erase _ _ hmem, hself]
    rfl
  have hold : inTransit i n w = carried i n x +
      ∑ c' ∈ (Finset.range w.nextConnection).erase c,
        w.connections[c']?.elim 0 (carried i n) := by
    rw [inTransit, ← Finset.add_sum_erase _ _ hmem, hx]
    rfl
  omega

/-- A new connection carries nothing. -/
theorem inTransit_connectTo (w : World) (client : ℕ) (node : NodeId) (i : ℕ) (n : NodeId) :
    inTransit i n (w.connectTo client node) = inTransit i n w := by
  have hsame : ∀ c ∈ Finset.range w.nextConnection,
      (w.connectTo client node).connections[c]?.elim 0 (carried i n) =
        w.connections[c]?.elim 0 (carried i n) := by
    intro c hc
    have hlt := Finset.mem_range.1 hc
    rw [connectTo, Std.ExtTreeMap.getElem?_insert, if_neg]
    rw [compare_eq_iff_eq]
    omega
  have hnew : (w.connectTo client node).connections[w.nextConnection]? =
      some ⟨⟨∅, [], []⟩, node, false⟩ := Std.ExtTreeMap.getElem?_insert_self
  have hempty : carried i n ⟨⟨∅, [], []⟩, node, false⟩ = 0 := by
    simp [carried]
  show ∑ c ∈ Finset.range (w.nextConnection + 1), _ = _
  rw [Finset.sum_range_succ, Finset.sum_congr rfl hsame, hnew]
  show _ + carried i n _ = _
  rw [hempty]
  rfl

/-! ## What keeps the connections located -/

theorem LeadsTo.of_connections (h : w.LeadsTo c n) (hsame : w'.connections = w.connections) :
    w'.LeadsTo c n := by
  obtain ⟨x, hx, hnode⟩ := h
  exact ⟨x, hsame ▸ hx, hnode⟩

theorem LeadsTo.setConnection (h : w.LeadsTo c n) {c' : ℕ} (hx : w.connections[c']? = some x)
    (hnode : x'.node = x.node) : (w.setConnection c' x').LeadsTo c n := by
  obtain ⟨y, hy, hleads⟩ := h
  rw [LeadsTo, World.setConnection, Std.ExtTreeMap.getElem?_insert]
  split
  · rename_i heq
    rw [compare_eq_iff_eq] at heq
    subst heq
    rw [hx] at hy
    cases hy
    exact ⟨x', rfl, hnode.trans hleads⟩
  · exact ⟨y, hy, hleads⟩

/-- The tasks change, and the calls that have found a connection are those
there were. -/
theorem Located.of_calls (h : w.Located) (hconnections : w'.connections = w.connections)
    (hnext : w'.nextConnection = w.nextConnection) (hclients : w'.clients = w.clients)
    (hcalls : ∀ i n k c id, w'.call i n = some ⟨k, .connected c id⟩ →
      w.call i n = some ⟨k, .connected c id⟩) : w'.Located where
  lt c x hx := hnext ▸ h.lt c x (hconnections ▸ hx)
  workers client n c hc := (h.workers client n c (hclients ▸ hc)).of_connections hconnections
  calls i n k c id hcall := (h.calls i n k c id (hcalls i n k c id hcall)).of_connections
    hconnections

theorem Located.of_same (h : w.Located) (hconnections : w'.connections = w.connections)
    (hnext : w'.nextConnection = w.nextConnection) (hclients : w'.clients = w.clients)
    (htasks : w'.tasks = w.tasks) : w'.Located :=
  h.of_calls hconnections hnext hclients fun i n _ _ _ hcall =>
    (call_eq_of_tasks htasks i n).symm.trans hcall

theorem Located.setCall (h : w.Located) (task : ℕ) (node : NodeId)
    (hnew : ∀ k c id, call = ⟨k, .connected c id⟩ → w.LeadsTo c node) :
    (w.setCall task node call).Located := by
  refine ⟨h.lt, h.workers, fun i n k c id hcall => ?_⟩
  obtain ⟨t, ht, hfound⟩ := task_of_call hcall
  rw [getElem?_setCall] at ht
  split at ht
  · obtain ⟨t', ht', rfl⟩ := Option.map_eq_some_iff.1 ht
    rcases Map.getElem?_insert_cases hfound with ⟨rfl, hsame⟩ | hold
    · exact hnew k c id hsame.symm
    · refine h.calls i n k c id ?_
      rw [World.call, ht']
      exact hold
  · refine h.calls i n k c id ?_
    rw [World.call, ht]
    exact hfound

theorem Located.setClient (h : w.Located) (client : ℕ) {state : ClientState}
    (hworkers : ∀ n c, state.workers[n]? = some c → w.LeadsTo c n) :
    (w.setClient client state).Located := by
  refine ⟨h.lt, fun client' n c hc => ?_, h.calls⟩
  simp only [World.setClient, Function.update_apply] at hc
  split at hc
  · exact hworkers n c hc
  · exact h.workers client' n c hc

theorem Located.setConnection (h : w.Located) (hx : w.connections[c]? = some x)
    (hnode : x'.node = x.node) : (w.setConnection c x').Located := by
  refine ⟨fun c' y hy => ?_,
    fun client n c' hc => (h.workers client n c' hc).setConnection hx hnode,
    fun i n k c' id hcall => (h.calls i n k c' id hcall).setConnection hx hnode⟩
  rcases Map.getElem?_insert_cases hy with ⟨rfl, -⟩ | hold
  · exact h.lt c' x hx
  · exact h.lt c' y hold

theorem LeadsTo.connectTo (h : w.LeadsTo c n) (hw : w.Located) (client : ℕ) (node : NodeId) :
    (w.connectTo client node).LeadsTo c n := by
  obtain ⟨x, hx, hnode⟩ := h
  refine ⟨x, ?_, hnode⟩
  have hlt := hw.lt c x hx
  rw [World.connectTo, Std.ExtTreeMap.getElem?_insert, if_neg]
  · exact hx
  · rw [compare_eq_iff_eq]
    omega

theorem leadsTo_connectTo (w : World) (client : ℕ) (node : NodeId) :
    (w.connectTo client node).LeadsTo w.nextConnection node :=
  ⟨_, Std.ExtTreeMap.getElem?_insert_self, rfl⟩

theorem Located.connectTo (h : w.Located) (client : ℕ) (node : NodeId) :
    (w.connectTo client node).Located := by
  refine ⟨fun c x hx => ?_, fun client' n c hc => ?_,
    fun i n k c id hcall => (h.calls i n k c id hcall).connectTo h client node⟩
  · show c < w.nextConnection + 1
    rcases Map.getElem?_insert_cases hx with ⟨rfl, -⟩ | hold
    · omega
    · have := h.lt c x hold
      omega
  · simp only [World.connectTo, Function.update_apply] at hc
    split at hc
    · rcases Map.getElem?_insert_cases hc with ⟨rfl, rfl⟩ | hold
      · exact leadsTo_connectTo w client n
      · exact (h.workers client n c hold).connectTo h client node
    · exact (h.workers client' n c hc).connectTo h client node

/-! ## One step -/

/-- **A step that sends nothing**: the connections stay located, and the
requests of a call are those there were. -/
structure Delivers (i : ℕ) (n : NodeId) (w w' : World) : Prop where
  located : w'.Located
  delivered : delivered i n w' = delivered i n w

variable {i : ℕ} {n : NodeId}

theorem Delivers.refl (h : w.Located) : Delivers i n w w := ⟨h, rfl⟩

theorem Delivers.trans {w'' : World} (h : Delivers i n w w') (h' : Delivers i n w' w'') :
    Delivers i n w w'' :=
  ⟨h'.located, h'.delivered.trans h.delivered⟩

theorem Delivers.of_located (h : w'.Located) (hconnections : w'.connections = w.connections)
    (hnext : w'.nextConnection = w.nextConnection) (hserved : w'.served = w.served) :
    Delivers i n w w' := by
  refine ⟨h, ?_⟩
  rw [World.delivered, World.delivered, servedTo, servedTo, hserved,
    inTransit_of_same hconnections hnext]

theorem delivers_setCall (h : w.Located) (task : ℕ) (node : NodeId)
    (hnew : ∀ k c id, call = ⟨k, .connected c id⟩ → w.LeadsTo c node) :
    Delivers i n w (w.setCall task node call) :=
  .of_located (h.setCall task node hnew) rfl rfl rfl

theorem delivers_setClient (h : w.Located) (client : ℕ) {state : ClientState}
    (hworkers : ∀ n c, state.workers[n]? = some c → w.LeadsTo c n) :
    Delivers i n w (w.setClient client state) :=
  .of_located (h.setClient client hworkers) rfl rfl rfl

/-- The other end of the connection has its requests. -/
theorem delivers_setConnection (h : w.Located) (hx : w.connections[c]? = some x)
    (hnode : x'.node = x.node) (hout : x'.outbound = x.outbound) :
    Delivers i n w (w.setConnection c x') := by
  refine ⟨h.setConnection hx hnode, ?_⟩
  have htransit := inTransit_setConnection hx (h.lt c x hx) x' i n
  have hcarried : carried i n x' = carried i n x := by
    rw [carried, carried, hnode, hout]
  have hserved : servedTo i n (w.setConnection c x') = servedTo i n w := rfl
  rw [World.delivered, World.delivered, hserved]
  omega

theorem delivers_connectTo (h : w.Located) (client : ℕ) (node : NodeId) :
    Delivers i n w (w.connectTo client node) := by
  refine ⟨h.connectTo client node, ?_⟩
  rw [World.delivered, World.delivered, inTransit_connectTo]
  rfl

theorem delivers_failAttempt (h : w.Located) (attempts task : ℕ) (node : NodeId) (k : ℕ)
    (reason : Reason) : Delivers i n w (w.failAttempt attempts task node k reason) := by
  have hforgotten : ∀ m c, ((w.clients (w.clientOf task)).workers.erase node)[m]? = some c →
      w.LeadsTo c m := by
    intro m c hc
    rw [Std.ExtTreeMap.getElem?_erase] at hc
    split at hc
    · cases hc
    · exact h.workers _ m c hc
  have hclient : Delivers i n w (w.setClient (w.clientOf task) { w.clients (w.clientOf task) with
      workers := (w.clients (w.clientOf task)).workers.erase node }) :=
    delivers_setClient h _ hforgotten
  refine hclient.trans (delivers_setCall hclient.located task node fun k' c id hnew => ?_)
  split at hnew
  · cases hnew
  · cases hnew

theorem delivers_draw (h : w.Located) (task : ℕ) (node : NodeId) :
    Delivers i n w (w.draw task node) := by
  unfold World.draw
  split
  · have hclient : Delivers i n w (w.setClient (w.clientOf task) { w.clients (w.clientOf task) with
        nextRequestId := ((w.clients (w.clientOf task)).nextRequestId + 1) % 2 ^ 32 }) :=
      delivers_setClient h _ (h.workers _)
    refine hclient.trans (delivers_setCall hclient.located task node fun k c id hnew => ?_)
    cases hnew
  · exact .refl h

theorem delivers_lookup (h : w.Located) (task : ℕ) (node : NodeId) :
    Delivers i n w (w.lookup topology attempts task node) := by
  unfold World.lookup
  split
  · split
    · rename_i c hc
      refine delivers_setCall h task node fun k c' id hnew => ?_
      cases hnew
      exact h.workers _ node c hc
    · split
      · refine delivers_setCall h task node fun k c id hnew => ?_
        cases hnew
      · exact delivers_failAttempt h _ _ _ _ _
  · exact .refl h

theorem delivers_dial (h : w.Located) (task : ℕ) (node : NodeId) (dialled : Except String Unit) :
    Delivers i n w (w.dial attempts task node dialled) := by
  unfold World.dial
  split
  · cases dialled with
    | ok _ =>
      have hconnected := delivers_connectTo (i := i) (n := n) h (w.clientOf task) node
      refine hconnected.trans
        (delivers_setCall hconnected.located task node fun k c id hnew => ?_)
      cases hnew
      exact leadsTo_connectTo w _ node
    | error reason => exact delivers_failAttempt h _ _ _ _ _
  · exact .refl h

theorem delivers_fail (h : w.Located) (task : ℕ) (node : NodeId) (reason : Reason) :
    Delivers i n w (w.fail attempts task node reason) := by
  unfold World.fail
  split
  · exact delivers_failAttempt h _ _ _ _ _
  · exact delivers_failAttempt h _ _ _ _ _
  · exact .refl h

theorem delivers_wake (h : w.Located) (c : ℕ) (node : NodeId) (reply : Reply) (asker : Asker) :
    Delivers i n w (w.wake c node reply asker) := by
  unfold World.wake
  split
  · rename_i k c' id hcall
    split
    · have hdone : Delivers i n w (w.setCall asker.task node
          ⟨k, .done (.ok (responseRecord reply.response))⟩) :=
        delivers_setCall h asker.task node fun k c id hnew => by cases hnew
      exact ⟨hdone.located.of_same rfl rfl rfl rfl, hdone.delivered⟩
    · exact .refl h
  · exact .refl h

theorem connections_wake (w : World) (c : ℕ) (node : NodeId) (reply : Reply) (asker : Asker) :
    (w.wake c node reply asker).connections = w.connections := by
  unfold World.wake
  split
  · split
    · rfl
    · rfl
  · rfl

theorem delivers_receive (h : w.Located) (c : ℕ) : Delivers i n w (w.receive c) := by
  unfold World.receive
  split
  · rename_i x hx
    split
    · exact .refl h
    · split
      · rename_i reply rest hinbound
        dsimp only
        cases x.pending[reply.response.requestId]? with
        | none => exact delivers_setConnection h hx rfl rfl
        | some asker =>
          have hwoken := delivers_wake (i := i) (n := n) h c x.node reply asker
          have hx' : (w.wake c x.node reply asker).connections[c]? = some x := by
            rw [connections_wake]
            exact hx
          exact hwoken.trans (delivers_setConnection hwoken.located hx' rfl rfl)
      · exact .refl h
  · exact .refl h

theorem delivers_begin (h : w.Located) (client : ℕ) (operation : Operation)
    (order : Worker.Enumeration) : Delivers i n w (w.begin topology client operation order) := by
  unfold World.begin
  split
  · rename_i t hbegin
    refine .of_located (h.of_calls rfl rfl rfl fun j m k c id hcall => ?_) rfl rfl rfl
    obtain ⟨t', ht', hfound⟩ := task_of_call hcall
    rcases Map.getElem?_insert_cases ht' with ⟨rfl, rfl⟩ | hold
    · -- a task begins with no connection
      rcases (fresh_begin hbegin).calls m with hnone | hidle
      · rw [hnone] at hfound
        cases hfound
      · rw [hidle] at hfound
        cases hfound
    · rw [World.call, hold]
      exact hfound
  · exact .of_located (h.of_same rfl rfl rfl rfl) rfl rfl rfl

theorem delivers_resume (h : w.Located) (task : ℕ) : Delivers i n w (w.resume task) := by
  unfold World.resume
  split
  · rename_i t ht
    split
    · refine .of_located (h.of_calls rfl rfl rfl fun j m k c id hcall => ?_) rfl rfl rfl
      obtain ⟨t', ht', hfound⟩ := task_of_call hcall
      simp only [World.returns, Std.ExtTreeMap.getElem?_erase] at ht'
      split at ht'
      · cases ht'
      · rw [World.call, ht']
        exact hfound
    · rename_i t' hasks
      obtain ⟨master, fallback, -, rfl⟩ := continue_asks hasks
      refine .of_located (h.of_calls rfl rfl rfl fun j m k c id hcall => ?_) rfl rfl rfl
      obtain ⟨t'', ht'', hfound⟩ := task_of_call hcall
      rcases Map.getElem?_insert_cases ht'' with ⟨rfl, rfl⟩ | hold
      · -- the calls that are added have no connection
        rw [getElem?_addCalls] at hfound
        split at hfound
        · cases hfound
        · rw [World.call, ht]
          exact hfound
      · rw [World.call, hold]
        exact hfound
    · exact .refl h
  · exact .refl h

/-- A request that is answered has been on the connection. -/
theorem delivers_answer (h : w.Located) (hx : w.connections[c]? = some x) {asker : Asker}
    {q : ClientRequest} {rest : List (Asker × ClientRequest)}
    (hout : x.outbound = (asker, q) :: rest) (r : WorkerResponse) {e : Served}
    (hasker : e.asker = asker) (hnode : e.node = x.node) :
    Delivers i n w { w.setConnection c { x with
      toChannel := x.toChannel.answer asker rest ⟨r, e⟩ } with served := e :: w.served } := by
  have hset := h.setConnection (c := c) hx (show ({ x with
    toChannel := x.toChannel.answer asker rest ⟨r, e⟩ } : Connection).node = x.node from rfl)
  refine ⟨hset.of_same rfl rfl rfl rfl, ?_⟩
  have htransit := inTransit_setConnection hx (h.lt c x hx) { x with
    toChannel := x.toChannel.answer asker rest ⟨r, e⟩ } i n
  have hcarried : carried i n x = carried i n { x with
      toChannel := x.toChannel.answer asker rest ⟨r, e⟩ } +
        if asker.task = i ∧ x.node = n then 1 else 0 := by
    simp only [carried, Channel.answer, hout, List.countP_cons, decide_eq_true_eq]
    by_cases hleads : x.node = n
    · simp [hleads]
    · simp [hleads]
  have hserved : servedTo i n { w.setConnection c { x with
      toChannel := x.toChannel.answer asker rest ⟨r, e⟩ } with served := e :: w.served } =
        servedTo i n w + if asker.task = i ∧ x.node = n then 1 else 0 := by
    simp only [servedTo, List.countP_cons, decide_eq_true_eq, hasker, hnode]
  have hsame : inTransit i n { w.setConnection c { x with
      toChannel := x.toChannel.answer asker rest ⟨r, e⟩ } with served := e :: w.served } =
        inTransit i n (w.setConnection c { x with
          toChannel := x.toChannel.answer asker rest ⟨r, e⟩ }) :=
    inTransit_of_same rfl rfl i n
  rw [World.delivered, World.delivered, hserved, hsame]
  omega

theorem delivers_serve (h : w.Located) (c now : ℕ) : Delivers i n w (w.serve c now) := by
  unfold World.serve
  split
  · rename_i x hx
    split
    · rename_i asker q rest hout
      have hused : Delivers i n w (w.useStore x.node
          (openClientConnection (w.stores x.node) now q).1 (.event (requestEvent now q))) :=
        .of_located (h.of_same rfl rfl rfl rfl) rfl rfl rfl
      exact hused.trans (delivers_answer hused.located hx hout _ rfl rfl)
    · exact .refl h
  · exact .refl h

/-- A request that a connection takes is on it. -/
theorem delivered_carry (h : w.Located) (hx : w.connections[c]? = some x) {a : Asker}
    {q : ClientRequest} (hnode : x'.node = x.node) (hout : x'.outbound = x.outbound ++ [(a, q)]) :
    (w.setConnection c x').Located ∧ delivered i n (w.setConnection c x') =
      delivered i n w + if a.task = i ∧ x.node = n then 1 else 0 := by
  refine ⟨h.setConnection hx hnode, ?_⟩
  have htransit := inTransit_setConnection hx (h.lt c x hx) x' i n
  have hcarried : carried i n x' =
      carried i n x + if a.task = i ∧ x.node = n then 1 else 0 := by
    simp only [carried, hnode, hout, List.countP_append, List.countP_singleton,
      decide_eq_true_eq]
    by_cases hleads : x.node = n
    · simp [hleads]
    · simp [hleads]
  have hserved : servedTo i n (w.setConnection c x') = servedTo i n w := rfl
  rw [World.delivered, World.delivered, hserved]
  omega

theorem delivered_send (h : w.Located) (task : ℕ) (node : NodeId) (taken : Bool) :
    (w.send attempts task node taken).Located ∧
      delivered i n (w.send attempts task node taken) =
        delivered i n w + if sendsFor i n w (.send task node taken) then 1 else 0 := by
  have hquiet : ∀ {w' : World}, Delivers i n w w' → w'.Located ∧
      delivered i n w' = delivered i n w + if false = true then 1 else 0 :=
    fun hw' => ⟨hw'.located, hw'.delivered⟩
  unfold World.send
  split
  · rename_i t k c id ht hcall
    split
    · rename_i x hx
      -- the connection of the call leads to the worker it asks
      have hnode : x.node = node := by
        obtain ⟨y, hy, hleads⟩ := h.calls task node k c id hcall
        rw [hx] at hy
        cases hy
        exact hleads
      cases taken with
      | true =>
        rw [sendsFor_of_connected hcall hx]
        generalize hx' : ({ x with
          toChannel := x.toChannel.send id (askerOf task t) { t.request with id } } :
            Connection) = x'
        rw [if_pos rfl]
        have hleads : x'.node = x.node := hx' ▸ rfl
        have hout : x'.outbound = x.outbound ++ [(askerOf task t, { t.request with id })] :=
          hx' ▸ rfl
        obtain ⟨hset, hsent⟩ := delivered_carry (i := i) (n := n) h hx hleads hout
        have hwaits : Delivers i n (w.setConnection c x')
            ((w.setConnection c x').setCall task node ⟨k, .waiting c id⟩) :=
          delivers_setCall hset task node fun k' c' id' hnew => by cases hnew
        refine ⟨hwaits.located, ?_⟩
        rw [hwaits.delivered, hsent]
        simp only [askerOf, hnode, decide_eq_true_eq]
      | false =>
        rw [sendsFor_eq_false fun _ _ _ _ _ _ => rfl, if_neg Bool.false_ne_true]
        have hset : Delivers i n w (w.setConnection c { x with pending := x.pending.erase id }) :=
          delivers_setConnection h hx rfl rfl
        exact hquiet (hset.trans (delivers_failAttempt hset.located _ _ _ _ _))
    · rename_i hnone
      obtain ⟨y, hy, -⟩ := h.calls task node k c id hcall
      rw [hnone] at hy
      cases hy
  · rename_i hnot
    rw [sendsFor_eq_false fun k c id x hcall hx => by
      obtain ⟨t, ht, -⟩ := task_of_call hcall
      exact (hnot t k c id ht hcall).elim]
    exact hquiet (.refl h)

/-- **A step sends what it adds to the requests of a call.** -/
theorem delivered_step (h : w.Located) (a : Action) (i : ℕ) (n : NodeId) :
    (step topology attempts w a).Located ∧
      delivered i n (step topology attempts w a) =
        delivered i n w + if sendsFor i n w a then 1 else 0 := by
  have hquiet : ∀ {w' : World}, Delivers i n w w' → w'.Located ∧
      delivered i n w' = delivered i n w + if false = true then 1 else 0 :=
    fun hw' => ⟨hw'.located, hw'.delivered⟩
  cases a with
  | begin client operation order => exact hquiet (delivers_begin h client operation order)
  | draw task node => exact hquiet (delivers_draw h task node)
  | lookup task node => exact hquiet (delivers_lookup h task node)
  | dial task node dialled => exact hquiet (delivers_dial h task node dialled)
  | send task node taken => exact delivered_send h task node taken
  | fail task node reason => exact hquiet (delivers_fail h task node reason)
  | resume task => exact hquiet (delivers_resume h task)
  | ensure client node => exact hquiet (delivers_connectTo h client node)
  | serve c now => exact hquiet (delivers_serve h c now)
  | receive c => exact hquiet (delivers_receive h c)
  | close c =>
    refine hquiet ?_
    show Delivers i n w (w.close c)
    unfold World.close
    split
    · rename_i x hx
      exact delivers_setConnection h hx rfl rfl
    · exact .refl h
  | use node u => exact hquiet (.of_located (h.of_same rfl rfl rfl rfl) rfl rfl rfl)
  | prune node p throughRevision =>
    exact hquiet (.of_located (h.of_same rfl rfl rfl rfl) rfl rfl rfl)
  | removePartition node p =>
    refine hquiet ?_
    simp only [step]
    split
    · exact .refl h
    · exact .of_located (h.of_same rfl rfl rfl rfl) rfl rfl rfl

theorem located_start : start.Located where
  lt c x hx := by simp [start] at hx
  workers client n c hc := by simp [start] at hc
  calls i n k c id hcall := by simp [World.call, start] at hcall

theorem located_run (topology : Client.Topology) (attempts : ℕ) (actions : List Action) :
    (run (step topology attempts) start actions).Located :=
  run_keeps (I := Located) (fun _ a h => (delivered_step h a 0 ⟨0⟩).1) located_start actions

/-- **What has been sent** has been served or is in transit. -/
theorem delivered_run (topology : Client.Topology) (attempts : ℕ) (actions : List Action) (i : ℕ)
    (n : NodeId) :
    delivered i n (run (step topology attempts) start actions) =
      count (step topology attempts) (fun w a => sendsFor i n w a) start actions := by
  induction actions using List.reverseRecOn with
  | nil => rfl
  | append_singleton actions a ih =>
    rw [count_concat, run_append, run_cons, run_nil, ← ih]
    exact (delivered_step (located_run topology attempts actions) a i n).2

/-- **A worker serves a call no more often than the call has attempts.**
Whatever the tasks, the connections and the workers do, and in whichever
order: the requests a task has sent to a worker are those the worker has
served and those in transit; they are no more than `retry_attempts`, and no
more than the attempts the call has begun. -/
theorem served_at_most_attempts (topology : Client.Topology) (retryAttempts : ℕ)
    (actions : List Action) (i : ℕ) (n : NodeId) :
    let attempts := max retryAttempts 1
    let w := run (step topology attempts) start actions
    let sent := count (step topology attempts) (fun w a => sendsFor i n w a) start actions
    servedTo i n w + inTransit i n w = sent ∧ sent ≤ attempts ∧
      ∀ k phase, w.call i n = some ⟨k, phase⟩ → sent ≤ k + 1 := by
  intro attempts w sent
  have hspent : Spent attempts _ sent (w.stand i n) :=
    spent_run topology (Nat.lt_of_lt_of_le Nat.zero_lt_one (le_max_right _ _)) i n actions
  refine ⟨delivered_run topology attempts actions i n, hspent.le.2.trans hspent.le.1,
    fun k phase hcall => ?_⟩
  rw [stand_of_call hcall] at hspent
  obtain ⟨-, -, hsent, -⟩ := hspent
  exact hsent.trans (Nat.add_le_add_left ((requestsOf_le phase).trans (idsOf_le phase)) k)

end World

end Requests

end NoSqlStore
