import NoSqlStore.Requests.Deliveries
import NoSqlStore.Sync.Idle
/-!
# The ids of a client's requests

The ids come from one counter of the client, which comes round after
`2 ^ 32` of them. An id is held by the call that has drawn it until it is
sent, and awaited on a connection from then on, where it may stay long
after its call has given up. As long as a client has drawn no more than
`2 ^ 32` ids, those it holds and awaits are all different, so no request
is sent under an id that somebody waits under, and a call that is done has
the answer to its own request (`answers_find_their_askers`).
-/

namespace NoSqlStore

namespace Requests

open Correlation Runs

namespace World

variable {topology : Client.Topology} {attempts : ℕ} {w w' : World} {i i' task client k id : ℕ}
  {n n' node : NodeId} {call call' new : Call} {c : ℕ} {x x' : Connection} {a : Action}
  {owner drawn : ℕ → ℕ}

/-! ## The ids in use -/

/-- The id of the `j`-th draw, `AtomicI32::new(1)` with `fetch_add(1)`. -/
def number (j : ℕ) : ℕ := (1 + j) % 2 ^ 32

/-- The first `2 ^ 32` ids are different. -/
theorem number_ne {j total : ℕ} (hj : j < total) (htotal : total < 2 ^ 32) :
    number total ≠ number j := by
  unfold number
  omega

/-- Whether the step draws an id of the client. -/
def drawsOf (k : ℕ) (w : World) : Action → Bool
  | .draw task node => w.clientOf task = k ∧ w.drawing task node
  | _ => false

/-- The id a call has drawn and not sent. -/
def heldId : Phase → Option ℕ
  | .drawn id | .dialling id | .connected _ id => some id
  | _ => none

/-- A call of the client holds the id. -/
def Holds (w : World) (i : ℕ) (n : NodeId) (k id : ℕ) : Prop :=
  w.clientOf i = k ∧ ∃ call, w.call i n = some call ∧ heldId call.phase = some id

/-- Somebody waits under the id on the connection. -/
def Awaits (w : World) (c id : ℕ) : Prop := ∃ x, w.connections[c]? = some x ∧ id ∈ x.pending

/-- **The ids of each client are apart.** A connection has an owner, the
one client that uses it; `drawn` counts the ids each client has drawn. -/
structure Spaced (owner drawn : ℕ → ℕ) (w : World) : Prop where
  next : ∀ k, (w.clients k).nextRequestId = number (drawn k)
  workers : ∀ (k : ℕ) (n : NodeId) (c : ℕ), (w.clients k).workers[n]? = some c → owner c = k
  found : ∀ i n a c id, w.call i n = some ⟨a, .connected c id⟩ → owner c = w.clientOf i
  held : ∀ i n k id, w.Holds i n k id → ∃ j < drawn k, id = number j
  awaited : ∀ c id, w.Awaits c id → ∃ j < drawn (owner c), id = number j
  apart : ∀ c id, w.Awaits c id → ∀ i n, ¬ w.Holds i n (owner c) id
  unique : ∀ k id i n i' n', w.Holds i n k id → w.Holds i' n' k id → i = i' ∧ n = n'

/-- A world that holds and awaits no more than there was. -/
theorem Spaced.of_fewer (h : Spaced owner drawn w)
    (hnext : ∀ k, (w'.clients k).nextRequestId = (w.clients k).nextRequestId)
    (hworkers : ∀ (k : ℕ) (n : NodeId) (c : ℕ), (w'.clients k).workers[n]? = some c → owner c = k)
    (hfound : ∀ i n a c id, w'.call i n = some ⟨a, .connected c id⟩ → owner c = w'.clientOf i)
    (hheld : ∀ i n k id, w'.Holds i n k id → w.Holds i n k id)
    (hawaited : ∀ c id, w'.Awaits c id → w.Awaits c id) : Spaced owner drawn w' where
  next k := (hnext k).trans (h.next k)
  workers := hworkers
  found := hfound
  held i n k id hh := h.held i n k id (hheld i n k id hh)
  awaited c id ha := h.awaited c id (hawaited c id ha)
  apart c id ha i n hh := h.apart c id (hawaited c id ha) i n (hheld i n _ id hh)
  unique k id i n i' n' hh hh' := h.unique k id i n i' n' (hheld i n k id hh)
    (hheld i' n' k id hh')

theorem Spaced.of_same (h : Spaced owner drawn w) (hclients : w'.clients = w.clients)
    (htasks : w'.tasks = w.tasks) (hconnections : w'.connections = w.connections) :
    Spaced owner drawn w' := by
  have hcall : ∀ i n, w'.call i n = w.call i n := call_eq_of_tasks htasks
  have hclient : ∀ i, w'.clientOf i = w.clientOf i := fun i => by
    rw [World.clientOf, World.clientOf, htasks]
  refine h.of_fewer (fun k => by rw [hclients]) (fun k n c hc => h.workers k n c (hclients ▸ hc))
    (fun i n a c id hc => ?_) (fun i n k id hh => ?_) fun c id ha => ?_
  · rw [hclient]
    exact h.found i n a c id ((hcall i n).symm.trans hc)
  · obtain ⟨hk, call, hc, hid⟩ := hh
    exact ⟨(hclient i).symm.trans hk, call, (hcall i n).symm.trans hc, hid⟩
  · obtain ⟨x, hx, hin⟩ := ha
    exact ⟨x, hconnections ▸ hx, hin⟩

theorem clientOf_setCall (w : World) (task : ℕ) (node : NodeId) (new : Call) (i : ℕ) :
    (w.setCall task node new).clientOf i = w.clientOf i := by
  rw [World.clientOf, getElem?_setCall, World.clientOf]
  split
  · rw [Option.map_map]
    rfl
  · rfl

/-- A call after one of them was rewritten. -/
theorem call_setCall_cases (hcall : w.call i n = some call)
    (h : (w.setCall i n new).call i' n' = some call') :
    (i = i' ∧ n = n' ∧ call' = new) ∨ w.call i' n' = some call' := by
  by_cases hsame : i = i' ∧ n = n'
  · obtain ⟨rfl, rfl⟩ := hsame
    rw [call_setCall_self hcall] at h
    exact Or.inl ⟨rfl, rfl, (Option.some.inj h).symm⟩
  · rw [call_setCall_of_ne hsame] at h
    exact Or.inr h

/-- A call that goes on holds its id or none. -/
theorem Spaced.setCall (h : Spaced owner drawn w) (hcall : w.call task node = some call)
    (hheld : ∀ id, heldId new.phase = some id → heldId call.phase = some id)
    (hnew : ∀ a c id, new = ⟨a, .connected c id⟩ → owner c = w.clientOf task) :
    Spaced owner drawn (w.setCall task node new) := by
  refine h.of_fewer (fun _ => rfl) h.workers (fun i n a c id hc => ?_) (fun i n k id hh => ?_)
    fun _ _ ha => ha
  · rw [clientOf_setCall]
    rcases call_setCall_cases hcall hc with ⟨rfl, rfl, heq⟩ | hold
    · exact hnew a c id heq.symm
    · exact h.found i n a c id hold
  · obtain ⟨hk, call', hc, hid⟩ := hh
    rw [clientOf_setCall] at hk
    rcases call_setCall_cases hcall hc with ⟨rfl, rfl, rfl⟩ | hold
    · exact ⟨hk, call, hcall, hheld id hid⟩
    · exact ⟨hk, call', hold, hid⟩

/-- A connection on which no more is awaited. -/
theorem Spaced.setConnection (h : Spaced owner drawn w) (hx : w.connections[c]? = some x)
    (hpending : ∀ id ∈ x'.pending, id ∈ x.pending) :
    Spaced owner drawn (w.setConnection c x') := by
  refine h.of_fewer (fun _ => rfl) h.workers h.found (fun _ _ _ _ hh => hh) fun c' id ha => ?_
  obtain ⟨y, hy, hin⟩ := ha
  rcases Map.getElem?_insert_cases hy with ⟨rfl, rfl⟩ | hold
  · exact ⟨x, hx, hpending id hin⟩
  · exact ⟨y, hold, hin⟩

/-- A client keeps fewer connections. -/
theorem Spaced.setClient (h : Spaced owner drawn w) (client : ℕ) {state : ClientState}
    (hnext : state.nextRequestId = (w.clients client).nextRequestId)
    (hworkers : ∀ (n : NodeId) (c : ℕ), state.workers[n]? = some c → owner c = client) :
    Spaced owner drawn (w.setClient client state) := by
  refine h.of_fewer (fun k => ?_) (fun k n c hc => ?_) h.found (fun _ _ _ _ hh => hh)
    fun _ _ ha => ha
  · simp only [World.setClient, Function.update_apply]
    split
    · rename_i heq
      rw [heq]
      exact hnext
    · rfl
  · simp only [World.setClient, Function.update_apply] at hc
    split at hc
    · rename_i heq
      rw [heq]
      exact hworkers n c hc
    · exact h.workers k n c hc

theorem Spaced.failAttempt (h : Spaced owner drawn w) (hcall : w.call task node = some call)
    (attempts k : ℕ) (reason : Reason) :
    Spaced owner drawn (w.failAttempt attempts task node k reason) := by
  have hforgotten : ∀ (m : NodeId) (c : ℕ),
      ((w.clients (w.clientOf task)).workers.erase node)[m]? = some c →
      owner c = w.clientOf task := by
    intro m c hc
    rw [Std.ExtTreeMap.getElem?_erase] at hc
    split at hc
    · cases hc
    · exact h.workers _ m c hc
  have hclient : Spaced owner drawn (w.setClient (w.clientOf task)
      { w.clients (w.clientOf task) with
        workers := (w.clients (w.clientOf task)).workers.erase node }) :=
    h.setClient _ rfl hforgotten
  refine hclient.setCall hcall (fun id hid => ?_) fun a c id hnew => ?_
  · split at hid
    · cases hid
    · cases hid
  · split at hnew
    · cases hnew
    · cases hnew

/-- A new connection belongs to the client that makes it. -/
theorem Spaced.connectTo (h : Spaced owner drawn w) (hw : w.Located) (client : ℕ)
    (node : NodeId) :
    Spaced (Function.update owner w.nextConnection client) drawn (w.connectTo client node) := by
  have hold : ∀ {c n}, w.LeadsTo c n →
      Function.update owner w.nextConnection client c = owner c := by
    rintro c n ⟨x, hx, -⟩
    exact Function.update_of_ne (hw.lt c x hx).ne _ _
  have hawaited : ∀ c id, (w.connectTo client node).Awaits c id → w.Awaits c id ∧
      Function.update owner w.nextConnection client c = owner c := by
    rintro c id ⟨y, hy, hin⟩
    rcases Map.getElem?_insert_cases hy with ⟨rfl, rfl⟩ | hold'
    · exact absurd hin Std.ExtTreeMap.not_mem_empty
    · exact ⟨⟨y, hold', hin⟩, hold ⟨y, hold', rfl⟩⟩
  refine ⟨fun k => ?_, fun k n c hc => ?_, fun i n a c id hc => ?_, h.held, fun c id ha => ?_,
    fun c id ha i n hh => ?_, h.unique⟩
  · simp only [World.connectTo, Function.update_apply]
    split
    · rename_i heq
      rw [heq]
      exact h.next client
    · exact h.next k
  · simp only [World.connectTo, Function.update_apply] at hc
    split at hc
    · rename_i heq
      subst heq
      rcases Map.getElem?_insert_cases hc with ⟨rfl, rfl⟩ | hkept
      · exact Function.update_self _ _ _
      · rw [hold (hw.workers k n c hkept)]
        exact h.workers k n c hkept
    · rw [hold (hw.workers k n c hc)]
      exact h.workers k n c hc
  · rw [hold (hw.calls i n a c id hc)]
    exact h.found i n a c id hc
  · obtain ⟨ha', hsame⟩ := hawaited c id ha
    rw [hsame]
    exact h.awaited c id ha'
  · obtain ⟨ha', hsame⟩ := hawaited c id ha
    rw [hsame] at hh
    exact h.apart c id ha' i n hh

/-- **A draw takes an id that is not in use**, if the client has not drawn
`2 ^ 32` before. -/
theorem Spaced.draw (h : Spaced owner drawn w) {k : ℕ}
    (hcall : w.call task node = some ⟨k, .idle⟩) (hfew : drawn (w.clientOf task) < 2 ^ 32) :
    Spaced owner (Function.update drawn (w.clientOf task) (drawn (w.clientOf task) + 1))
      (w.draw task node) := by
  have hdraw : w.draw task node = (w.setClient (w.clientOf task)
      { w.clients (w.clientOf task) with
        nextRequestId := ((w.clients (w.clientOf task)).nextRequestId + 1) % 2 ^ 32 }).setCall task
          node ⟨k, .drawn (w.clients (w.clientOf task)).nextRequestId⟩ := by
    rw [World.draw, hcall]
  have hid := h.next (w.clientOf task)
  generalize hclient : w.clientOf task = client at hdraw hid hfew
  have hgrows : ∀ k, drawn k ≤ Function.update drawn client (drawn client + 1) k := by
    intro k
    rw [Function.update_apply]
    split
    · rename_i heq
      rw [heq]
      omega
    · exact le_rfl
  have hmore : ∀ {k id}, (∃ j < drawn k, id = number j) →
      ∃ j < Function.update drawn client (drawn client + 1) k, id = number j := by
    rintro k id ⟨j, hj, hnumber⟩
    exact ⟨j, hj.trans_le (hgrows k), hnumber⟩
  -- the new id is none that has been drawn
  have hnew : ∀ {id}, (∃ j < drawn client, id = number j) → id ≠ number (drawn client) := by
    rintro id ⟨j, hj, rfl⟩
    exact (number_ne hj hfew).symm
  have hholds : ∀ {i n k id}, (w.draw task node).Holds i n k id →
      (i = task ∧ n = node ∧ k = client ∧ id = number (drawn client)) ∨ w.Holds i n k id := by
    rintro i n k' id ⟨hk, call, hc, hheld⟩
    rw [hdraw] at hk hc
    rw [clientOf_setCall] at hk
    rcases call_setCall_cases hcall hc with ⟨rfl, rfl, rfl⟩ | hold
    · exact Or.inl ⟨rfl, rfl, hk.symm.trans hclient, (Option.some.inj hheld).symm.trans hid⟩
    · exact Or.inr ⟨hk, call, hold, hheld⟩
  rw [hdraw] at hholds ⊢
  refine ⟨fun k => ?_, fun k n c hc => ?_, fun i n a c id hc => ?_, fun i n k id hh => ?_,
    fun c id ha => hmore (h.awaited c id ha), fun c id ha i n hh => ?_,
    fun k id i n i' n' hh hh' => ?_⟩
  · show ((Function.update w.clients client _) k).nextRequestId = _
    rw [Function.update_apply, Function.update_apply]
    split
    · show (_ + 1) % 2 ^ 32 = _
      rw [hid, number, number]
      omega
    · exact h.next k
  · simp only [World.setCall, World.setClient, Function.update_apply] at hc
    split at hc
    · rename_i heq
      rw [heq]
      exact h.workers client n c hc
    · exact h.workers k n c hc
  · rw [clientOf_setCall]
    rcases call_setCall_cases hcall hc with ⟨rfl, rfl, heq⟩ | hold
    · cases heq
    · exact h.found i n a c id hold
  · rcases hholds hh with ⟨-, -, rfl, rfl⟩ | hold
    · exact ⟨drawn k, by rw [Function.update_self]; omega, rfl⟩
    · exact hmore (h.held i n k id hold)
  · have ha' : w.Awaits c id := ha
    rcases hholds hh with ⟨-, -, heq, rfl⟩ | hold
    · have hdrawn := h.awaited c _ ha'
      rw [heq] at hdrawn
      exact hnew hdrawn rfl
    · exact h.apart c id ha' i n hold
  · rcases hholds hh with ⟨rfl, rfl, rfl, rfl⟩ | hold
    · rcases hholds hh' with ⟨rfl, rfl, -, -⟩ | hold'
      · exact ⟨rfl, rfl⟩
      · exact absurd rfl (hnew (h.held i' n' k _ hold'))
    · rcases hholds hh' with ⟨rfl, rfl, rfl, rfl⟩ | hold'
      · exact absurd rfl (hnew (h.held i n k _ hold))
      · exact h.unique k id i n i' n' hold hold'

/-- An id that is sent is awaited, and held no longer. -/
theorem Spaced.send (h : Spaced owner drawn w) {k : ℕ}
    (hcall : w.call task node = some ⟨k, .connected c id⟩) (hx : w.connections[c]? = some x)
    (hpending : ∀ id' ∈ x'.pending, id' = id ∨ id' ∈ x.pending) :
    Spaced owner drawn ((w.setConnection c x').setCall task node ⟨k, .waiting c id⟩) := by
  have howner := h.found task node k c id hcall
  have hheld : w.Holds task node (owner c) id := ⟨howner.symm, _, hcall, rfl⟩
  have hcall' : (w.setConnection c x').call task node = some ⟨k, .connected c id⟩ := hcall
  have hholds : ∀ {i n k' id'}, ((w.setConnection c x').setCall task node
      ⟨k, .waiting c id⟩).Holds i n k' id' →
        w.Holds i n k' id' ∧ ¬ (i = task ∧ n = node) := by
    rintro i n k' id' ⟨hk, call, hc, hid⟩
    rw [clientOf_setCall] at hk
    by_cases hsame : task = i ∧ node = n
    · obtain ⟨rfl, rfl⟩ := hsame
      rw [call_setCall_self hcall'] at hc
      cases hc
      cases hid
    · rw [call_setCall_of_ne hsame] at hc
      exact ⟨⟨hk, call, hc, hid⟩, fun heq => hsame ⟨heq.1.symm, heq.2.symm⟩⟩
  have hawaited : ∀ {c' id'}, ((w.setConnection c x').setCall task node
      ⟨k, .waiting c id⟩).Awaits c' id' → (c' = c ∧ id' = id) ∨ w.Awaits c' id' := by
    rintro c' id' ⟨y, hy, hin⟩
    rcases Map.getElem?_insert_cases hy with ⟨rfl, rfl⟩ | hold
    · rcases hpending id' hin with rfl | hwas
      · exact Or.inl ⟨rfl, rfl⟩
      · exact Or.inr ⟨x, hx, hwas⟩
    · exact Or.inr ⟨y, hold, hin⟩
  refine ⟨h.next, h.workers, fun i n a c' id' hc => ?_, fun i n k' id' hh => ?_,
    fun c' id' ha => ?_, fun c' id' ha i n hh => ?_, fun k' id' i n i' n' hh hh' => ?_⟩
  · rw [clientOf_setCall]
    rcases call_setCall_cases hcall' hc with ⟨rfl, rfl, heq⟩ | hold
    · cases heq
    · exact h.found i n a c' id' hold
  · exact h.held i n k' id' (hholds hh).1
  · rcases hawaited ha with ⟨rfl, rfl⟩ | hold
    · exact h.held task node _ id' hheld
    · exact h.awaited c' id' hold
  · obtain ⟨hwas, hother⟩ := hholds hh
    rcases hawaited ha with ⟨rfl, rfl⟩ | hold
    · exact hother (h.unique _ id' i n task node hwas hheld)
    · exact h.apart c' id' hold i n hwas
  · exact h.unique k' id' i n i' n' (hholds hh).1 (hholds hh').1

/-! ## One step -/

/-- The ids each client has drawn, after a step. -/
def drawnBy (drawn : ℕ → ℕ) (w : World) (a : Action) (k : ℕ) : ℕ :=
  drawn k + if drawsOf k w a then 1 else 0

/-- A step that draws nothing. -/
theorem Spaced.quiet (h : Spaced owner drawn w') (hquiet : ∀ k, drawsOf k w a = false) :
    ∃ owner, Spaced owner (drawnBy drawn w a) w' := by
  refine ⟨owner, ?_⟩
  have hsame : drawnBy drawn w a = drawn := funext fun k => by simp [drawnBy, hquiet k]
  rw [hsame]
  exact h

theorem Spaced.lookup (h : Spaced owner drawn w) (task : ℕ) (node : NodeId) :
    Spaced owner drawn (w.lookup topology attempts task node) := by
  unfold World.lookup
  split
  · rename_i k id hcall
    split
    · rename_i c hc
      refine h.setCall hcall (fun id' hid => hid) fun a c' id' hnew => ?_
      cases hnew
      exact h.workers _ node c hc
    · split
      · exact h.setCall hcall (fun id' hid => hid) fun a c' id' hnew => by cases hnew
      · exact h.failAttempt hcall _ _ _
  · exact h

theorem Spaced.fail (h : Spaced owner drawn w) (task : ℕ) (node : NodeId) (reason : Reason) :
    Spaced owner drawn (w.fail attempts task node reason) := by
  unfold World.fail
  split
  · rename_i k c id hcall
    exact h.failAttempt hcall _ _ _
  · rename_i k c id hcall
    exact h.failAttempt hcall _ _ _
  · exact h

theorem Spaced.wake (h : Spaced owner drawn w) (c : ℕ) (node : NodeId) (reply : Reply)
    (asker : Asker) : Spaced owner drawn (w.wake c node reply asker) := by
  unfold World.wake
  split
  · rename_i k c' id hcall
    split
    · have hdone : Spaced owner drawn (w.setCall asker.task node
          ⟨k, .done (.ok (responseRecord reply.response))⟩) :=
        h.setCall hcall (fun id' hid => by cases hid) fun a c' id' hnew => by cases hnew
      exact hdone.of_same rfl rfl rfl
    · exact h
  · exact h

theorem Spaced.receive (h : Spaced owner drawn w) (c : ℕ) :
    Spaced owner drawn (w.receive c) := by
  have herase : ∀ {x : Connection} {number id : ℕ} {rest : List (Asker × Reply)},
      id ∈ (x.toChannel.receive number rest).pending → id ∈ x.pending := fun hin =>
    (Std.ExtTreeMap.mem_erase.1 hin).2
  unfold World.receive
  split
  · rename_i x hx
    split
    · exact h
    · split
      · rename_i reply rest hinbound
        dsimp only
        cases x.pending[reply.response.requestId]? with
        | none => exact h.setConnection hx fun id hin => herase hin
        | some asker =>
          have hx' : (w.wake c x.node reply asker).connections[c]? = some x := by
            rw [connections_wake]
            exact hx
          exact (h.wake c x.node reply asker).setConnection hx' fun id hin => herase hin
      · exact h
  · exact h

/-- The tasks change, and the calls that are under way are those there
were. -/
theorem Spaced.of_tasks (h : Spaced owner drawn w) (hclients : w'.clients = w.clients)
    (hconnections : w'.connections = w.connections)
    (hcalls : ∀ i n call, w'.call i n = some call → call ≠ ⟨0, .idle⟩ →
      w.call i n = some call ∧ w'.clientOf i = w.clientOf i) : Spaced owner drawn w' := by
  refine h.of_fewer (fun k => by rw [hclients]) (fun k n c hc => h.workers k n c (hclients ▸ hc))
    (fun i n a c id hc => ?_) (fun i n k id hh => ?_) fun c id ha => ?_
  · obtain ⟨hold, hclient⟩ := hcalls i n _ hc (by rintro ⟨⟩)
    rw [hclient]
    exact h.found i n a c id hold
  · obtain ⟨hk, call, hc, hid⟩ := hh
    obtain ⟨hold, hclient⟩ := hcalls i n call hc (by rintro rfl; cases hid)
    exact ⟨hclient.symm.trans hk, call, hold, hid⟩
  · obtain ⟨x, hx, hin⟩ := ha
    exact ⟨x, hconnections ▸ hx, hin⟩

theorem Spaced.begin (h : Spaced owner drawn w) (client : ℕ) (operation : Operation)
    (order : Worker.Enumeration) :
    Spaced owner drawn (w.begin topology client operation order) := by
  unfold World.begin
  split
  · rename_i t hbegin
    refine h.of_tasks rfl rfl fun i n call hcall hunder => ?_
    obtain ⟨t', ht', hfound⟩ := task_of_call hcall
    by_cases hi : i = w.nextTask
    · subst hi
      rw [Std.ExtTreeMap.getElem?_insert_self] at ht'
      cases ht'
      rcases (fresh_begin hbegin).calls n with hnone | hidle
      · rw [hnone] at hfound
        cases hfound
      · rw [hidle] at hfound
        cases hfound
        exact absurd rfl hunder
    · have hsame : (w.tasks.insert w.nextTask t)[i]? = w.tasks[i]? := by
        rw [Std.ExtTreeMap.getElem?_insert, if_neg]
        rw [compare_eq_iff_eq]
        exact Ne.symm hi
      rw [hsame] at ht'
      refine ⟨?_, ?_⟩
      · rw [World.call, ht']
        exact hfound
      · simp only [World.clientOf, hsame]
  · exact h.of_same rfl rfl rfl

theorem Spaced.resume (h : Spaced owner drawn w) (task : ℕ) :
    Spaced owner drawn (w.resume task) := by
  unfold World.resume
  split
  · rename_i t ht
    split
    · refine h.of_tasks rfl rfl fun i n call hcall _ => ?_
      obtain ⟨t', ht', hfound⟩ := task_of_call hcall
      simp only [World.returns, askerOf, Std.ExtTreeMap.getElem?_erase] at ht'
      split at ht'
      · cases ht'
      · rename_i hne
        refine ⟨?_, ?_⟩
        · rw [World.call, ht']
          exact hfound
        · simp only [World.clientOf, World.returns, askerOf, Std.ExtTreeMap.getElem?_erase,
            if_neg hne]
    · rename_i t' hasks
      obtain ⟨master, fallback, -, rfl⟩ := continue_asks hasks
      refine h.of_tasks rfl rfl fun i n call hcall hunder => ?_
      obtain ⟨t'', ht'', hfound⟩ := task_of_call hcall
      by_cases hi : i = task
      · subst hi
        rw [Std.ExtTreeMap.getElem?_insert_self] at ht''
        cases ht''
        refine ⟨?_, ?_⟩
        · rw [getElem?_addCalls] at hfound
          split at hfound
          · cases hfound
            exact absurd rfl hunder
          · rw [World.call, ht]
            exact hfound
        · simp only [World.clientOf, Std.ExtTreeMap.getElem?_insert_self, ht]
          rfl
      · have hsame : ∀ t₀, (w.tasks.insert task t₀)[i]? = w.tasks[i]? := by
          intro t₀
          rw [Std.ExtTreeMap.getElem?_insert, if_neg]
          rw [compare_eq_iff_eq]
          exact Ne.symm hi
        rw [hsame] at ht''
        refine ⟨?_, ?_⟩
        · rw [World.call, ht'']
          exact hfound
        · simp only [World.clientOf, hsame]
    · exact h
  · exact h

end World

end Requests

end NoSqlStore
