import NoSqlStore.Requests.Exchange
/-!
# The attempts of a call

`request_with_retry` makes a bounded number of attempts, and gives up only
when they are spent. An attempt begins by drawing an id and sends at most
one request. `Moves` says what one step of the world, whoever takes it,
does to the call of one task to one worker; from it follow, over every
run, that the ids drawn for the call are its attempts and that the
requests sent are no more (`attempts_are_spent`). A task asks a worker in
one stage only: those a read falls back to do not include its master.
-/

namespace NoSqlStore

namespace Requests

open Runs

namespace World

variable {topology : Client.Topology} {attempts : ℕ} {w w' : World} {i task : ℕ} {n node : NodeId}
  {call : Call} {a : Action}

/-! ## The steps of one call -/

/-- Whether the call is about to draw an id. -/
def drawing (w : World) (task : ℕ) (node : NodeId) : Bool :=
  (w.call task node).any fun call => match call.phase with
    | .idle => true
    | _ => false

/-- Whether the step draws an id for the call. -/
def drawsFor (i : ℕ) (n : NodeId) (w : World) : Action → Bool
  | .draw task node => task = i ∧ node = n ∧ w.drawing task node
  | _ => false

/-- Whether the step sends a request of the call. -/
def sendsFor (i : ℕ) (n : NodeId) (w : World) : Action → Bool
  | .send task node taken => task = i ∧ node = n ∧ taken ∧
    (w.call i n).any fun call => match call.phase with
      | .connected c _ => w.connections.contains c
      | _ => false
  | _ => false

/-- A phase before a request is sent, with an id drawn. -/
def seeking : Phase → Bool
  | .drawn _ | .dialling _ | .connected _ _ => true
  | _ => false

/-- Where a call stands: its task may not ask the worker yet, or have
returned. -/
inductive Stand
  | unasked
  | asked (call : Call)
  | finished

def stand (w : World) (i : ℕ) (n : NodeId) : Stand :=
  match w.tasks[i]? with
  | some t => t.calls[n]?.elim .unasked .asked
  | none => if i < w.nextTask then .finished else .unasked

/-- **What a step does to a call**, whether it draws an id for it, and
whether it sends a request. -/
inductive Moves (attempts : ℕ) : Stand → Stand → Bool → Bool → Prop
  | stays (o : Stand) : Moves attempts o o false false
  | begins : Moves attempts .unasked (.asked ⟨0, .idle⟩) false false
  | draws (k id : ℕ) : Moves attempts (.asked ⟨k, .idle⟩) (.asked ⟨k, .drawn id⟩) true false
  | finds (k : ℕ) (phase phase' : Phase) (h : seeking phase = true) (h' : seeking phase' = true) :
      Moves attempts (.asked ⟨k, phase⟩) (.asked ⟨k, phase'⟩) false false
  | sends (k c id : ℕ) :
      Moves attempts (.asked ⟨k, .connected c id⟩) (.asked ⟨k, .waiting c id⟩) false true
  | fails (k : ℕ) (phase : Phase) (failure : Failure)
      (h : seeking phase = true ∨ ∃ c id, phase = .waiting c id) :
      Moves attempts (.asked ⟨k, phase⟩)
        (.asked (if k + 1 < attempts then ⟨k + 1, .idle⟩ else ⟨k, .done (.error failure)⟩))
        false false
  | answers (k c id : ℕ) (record : Option Wire.GrpcRecord) :
      Moves attempts (.asked ⟨k, .waiting c id⟩) (.asked ⟨k, .done (.ok record)⟩) false false
  | ends (o : Stand) : Moves attempts o .finished false false

/-! ## Reading a call back -/

theorem call_eq_of_tasks (h : w'.tasks = w.tasks) (i : ℕ) (n : NodeId) :
    w'.call i n = w.call i n := by
  rw [World.call, World.call, h]

theorem stand_eq_of_tasks (h : w'.tasks = w.tasks) (hnext : w'.nextTask = w.nextTask) (i : ℕ)
    (n : NodeId) : w'.stand i n = w.stand i n := by
  rw [stand, stand, h, hnext]

theorem task_of_call (h : w.call task node = some call) :
    ∃ t, w.tasks[task]? = some t ∧ t.calls[node]? = some call :=
  Option.bind_eq_some_iff.1 h

theorem stand_of_call (h : w.call task node = some call) : w.stand task node = .asked call := by
  obtain ⟨t, ht, hcall⟩ := task_of_call h
  rw [stand, ht]
  show t.calls[node]?.elim _ _ = _
  rw [hcall]
  rfl

theorem call_setCall_self (h : w.call task node = some call) (new : Call) :
    (w.setCall task node new).call task node = some new := by
  obtain ⟨t, ht, -⟩ := task_of_call h
  rw [World.call, getElem?_setCall, if_pos rfl, ht]
  exact Std.ExtTreeMap.getElem?_insert_self

/-- The other calls are as they were, and so are the tasks there are. -/
theorem calls_setCall_of_ne (h : ¬ (task = i ∧ node = n)) (w : World) (new : Call) :
    ((w.setCall task node new).tasks[i]?.map fun t => t.calls[n]?) =
      w.tasks[i]?.map fun t => t.calls[n]? := by
  rw [getElem?_setCall]
  by_cases htask : task = i
  · rw [if_pos htask, Option.map_map]
    refine Option.map_congr fun t _ => ?_
    show (t.calls.insert node new)[n]? = t.calls[n]?
    rw [Std.ExtTreeMap.getElem?_insert, if_neg]
    rw [compare_eq_iff_eq]
    exact fun hnode => h ⟨htask, hnode⟩
  · rw [if_neg htask]

theorem call_eq_join (w : World) (i : ℕ) (n : NodeId) :
    w.call i n = (w.tasks[i]?.map fun t => t.calls[n]?).join := by
  rw [World.call]
  cases w.tasks[i]? with
  | none => rfl
  | some t => rfl

theorem call_setCall_of_ne (h : ¬ (task = i ∧ node = n)) (w : World) (new : Call) :
    (w.setCall task node new).call i n = w.call i n := by
  rw [call_eq_join, call_eq_join, calls_setCall_of_ne h]

theorem stand_setCall_of_ne (h : ¬ (task = i ∧ node = n)) (w : World) (new : Call) :
    (w.setCall task node new).stand i n = w.stand i n := by
  have hsame := calls_setCall_of_ne h w new
  have hnext : (w.setCall task node new).nextTask = w.nextTask := rfl
  rw [stand, stand, hnext]
  cases ht : w.tasks[i]? with
  | none =>
    rw [ht] at hsame
    rw [Option.map_eq_none_iff.1 hsame]
  | some t =>
    rw [ht] at hsame
    obtain ⟨t', ht', hcalls⟩ := Option.map_eq_some_iff.1 hsame
    rw [ht']
    show t'.calls[n]?.elim _ _ = _
    rw [hcalls]

/-- **Rewriting one call** is a move of that call, and none of another. -/
theorem moves_setCall {new : Call} {d s : Bool} (hcall : w.call task node = some call)
    (hstep : Moves attempts (.asked call) (.asked new) d s) (htasks : w'.tasks = w.tasks)
    (hnext : w'.nextTask = w.nextTask) (i : ℕ) (n : NodeId) {d' s' : Bool}
    (hd : d' = (d && decide (task = i ∧ node = n)))
    (hs : s' = (s && decide (task = i ∧ node = n))) :
    Moves attempts (w.stand i n) ((w'.setCall task node new).stand i n) d' s' := by
  have hcall' : w'.call task node = some call := (call_eq_of_tasks htasks task node).trans hcall
  by_cases hsame : task = i ∧ node = n
  · obtain ⟨rfl, rfl⟩ := hsame
    rw [hd, hs, stand_of_call hcall, stand_of_call (call_setCall_self hcall' new)]
    simpa using hstep
  · rw [hd, hs, stand_setCall_of_ne hsame, stand_eq_of_tasks htasks hnext]
    simpa [hsame] using Moves.stays _

/-! ## The tasks -/

/-- **The tasks are in order**: their numbers have been given out, and a
read has not asked the workers it may fall back to. -/
structure InOrder (w : World) : Prop where
  lt : ∀ (i : ℕ) (t : Task), w.tasks[i]? = some t → i < w.nextTask
  unasked : ∀ (i : ℕ) (t : Task), w.tasks[i]? = some t → ∀ master fallback,
    t.stage = .primary master fallback → ∀ m ∈ fallback, t.calls[m]? = none

theorem InOrder.of_tasks (h : w.InOrder) (htasks : w'.tasks = w.tasks)
    (hnext : w'.nextTask = w.nextTask) : w'.InOrder := by
  refine ⟨fun i t ht => ?_, fun i t ht => ?_⟩
  · rw [htasks] at ht
    rw [hnext]
    exact h.lt i t ht
  · rw [htasks] at ht
    exact h.unasked i t ht

theorem InOrder.setCall (h : w.InOrder) (hcall : w.call task node = some call) (new : Call) :
    (w.setCall task node new).InOrder := by
  refine ⟨fun i t ht => ?_, fun i t ht master fallback hstage m hm => ?_⟩
  · rw [getElem?_setCall] at ht
    split at ht
    · obtain ⟨t', ht', -⟩ := Option.map_eq_some_iff.1 ht
      exact h.lt i t' ht'
    · exact h.lt i t ht
  · rw [getElem?_setCall] at ht
    split at ht
    · rename_i htask
      subst htask
      obtain ⟨t', ht', rfl⟩ := Option.map_eq_some_iff.1 ht
      have hnone := h.unasked task t' ht' master fallback hstage m hm
      obtain ⟨t'', ht'', hold⟩ := task_of_call hcall
      rw [ht'] at ht''
      cases ht''
      show (t'.calls.insert node new)[m]? = none
      rw [Std.ExtTreeMap.getElem?_insert, if_neg]
      · exact hnone
      · rw [compare_eq_iff_eq]
        rintro rfl
        rw [hnone] at hold
        cases hold
    · exact h.unasked i t ht master fallback hstage m hm

/-- A read does not fall back to its master. -/
theorem master_not_fallback {key : Key} {targets : NodeId × Finset NodeId}
    (h : Client.readTargets topology key = .ok targets) : targets.1 ∉ targets.2 := by
  unfold Client.readTargets at h
  split at h
  · cases h
  · cases h
    exact Finset.notMem_erase _ _

theorem calls_addCalls_empty (nodes : List NodeId) (m : NodeId) :
    (addCalls ∅ nodes)[m]? = none ∨ (addCalls ∅ nodes)[m]? = some ⟨0, .idle⟩ := by
  rw [getElem?_addCalls]
  split
  · exact Or.inr rfl
  · exact Or.inl (by simp)

/-- What a task begins with. -/
structure Fresh (t : Task) : Prop where
  calls : ∀ m : NodeId, t.calls[m]? = none ∨ t.calls[m]? = some ⟨0, .idle⟩
  unasked : ∀ master fallback, t.stage = .primary master fallback →
    ∀ m ∈ fallback, t.calls[m]? = none

theorem fresh_begin {client : ℕ} {operation : Operation} {order : Worker.Enumeration} {t : Task}
    (h : Requests.begin topology client operation order = .ok t) : Fresh t := by
  unfold Requests.begin at h
  cases hq : operation.request with
  | error failure =>
    rw [hq] at h
    cases h
  | ok q =>
    rw [hq] at h
    have hwrite : ∀ key, (do
          let targets ← (Client.writeTargets topology key).mapError Failure.routing
          return ⟨client, operation, q, .write (order.toList targets),
            addCalls ∅ (order.toList targets)⟩) = Except.ok t → Fresh t := by
      intro key hbegin
      cases hkey : Client.writeTargets topology key with
      | error error =>
        rw [hkey] at hbegin
        cases hbegin
      | ok targets =>
        rw [hkey] at hbegin
        cases hbegin
        exact ⟨calls_addCalls_empty _, fun _ _ hstage => by cases hstage⟩
    cases operation with
    | get key =>
      dsimp only [Bind.bind, Except.bind] at h
      cases htargets : Client.readTargets topology key with
      | error error =>
        rw [htargets] at h
        cases h
      | ok targets =>
        rw [htargets] at h
        cases h
        refine ⟨calls_addCalls_empty _, fun master fallback hstage m hm => ?_⟩
        cases hstage
        have hne : m ≠ targets.1 := by
          rintro rfl
          exact master_not_fallback htargets ((order.mem_toList _ _).1 hm)
        rw [getElem?_addCalls, if_neg (by simpa using hne)]
        simp
    | put key value ttl reading => exact hwrite key h
    | delete key reading => exact hwrite key h

theorem InOrder.begin (h : w.InOrder) (client : ℕ) (operation : Operation)
    (order : Worker.Enumeration) : (w.begin topology client operation order).InOrder := by
  unfold World.begin
  split
  · rename_i t hbegin
    have hfresh := fresh_begin hbegin
    have hcases : ∀ {i : ℕ} {t' : Task}, (w.tasks.insert w.nextTask t)[i]? = some t' →
        (i = w.nextTask ∧ t' = t) ∨ w.tasks[i]? = some t' := fun ht =>
      Map.getElem?_insert_cases ht
    refine ⟨fun i t' ht => ?_, fun i t' ht => ?_⟩
    · show i < w.nextTask + 1
      rcases hcases ht with ⟨rfl, -⟩ | hold
      · omega
      · have := h.lt i t' hold
        omega
    · rcases hcases ht with ⟨-, rfl⟩ | hold
      · exact hfresh.unasked
      · exact h.unasked i t' hold
  · refine ⟨fun i t ht => ?_, h.unasked⟩
    have := h.lt i t ht
    show i < w.nextTask + 1
    omega

/-- A task that goes on has asked nobody it falls back to before. -/
theorem continue_asks {t t' : Task} (h : t.continue = some (.asks t')) :
    ∃ master fallback, t.stage = .primary master fallback ∧
      t' = { t with stage := .fallback master fallback, calls := addCalls t.calls fallback } := by
  unfold Task.continue at h
  split at h
  · obtain ⟨results, -, heq⟩ := Option.map_eq_some_iff.1 h
    cases heq
  · rename_i master fallback hstage
    obtain ⟨result, -, heq⟩ := Option.map_eq_some_iff.1 h
    refine ⟨master, fallback, hstage, ?_⟩
    split at heq
    · cases heq
    · cases heq
    · split at heq
      · cases heq
      · cases heq
        rfl
  · obtain ⟨results, -, heq⟩ := Option.map_eq_some_iff.1 h
    cases heq

theorem InOrder.resume (h : w.InOrder) (task : ℕ) : (w.resume task).InOrder := by
  unfold World.resume
  split
  · rename_i t ht
    split
    · rename_i outcome hreturns
      have herase : ∀ {i : ℕ} {t' : Task}, (w.tasks.erase task)[i]? = some t' →
          w.tasks[i]? = some t' := by
        intro i t' ht'
        rw [Std.ExtTreeMap.getElem?_erase] at ht'
        split at ht'
        · cases ht'
        · exact ht'
      exact ⟨fun i t' ht' => h.lt i t' (herase ht'), fun i t' ht' => h.unasked i t' (herase ht')⟩
    · rename_i t' hasks
      obtain ⟨master, fallback, -, rfl⟩ := continue_asks hasks
      have hcases : ∀ {i : ℕ} {t' : Task}, (w.tasks.insert task
          { t with
            stage := .fallback master fallback
            calls := addCalls t.calls fallback })[i]? = some t' → (i = task ∧ t' = _) ∨
              w.tasks[i]? = some t' := fun ht' => Map.getElem?_insert_cases ht'
      refine ⟨fun i t' ht' => ?_, fun i t' ht' master' fallback' hstage => ?_⟩
      · rcases hcases ht' with ⟨rfl, -⟩ | hold
        · exact h.lt i t ht
        · exact h.lt i t' hold
      · rcases hcases ht' with ⟨-, rfl⟩ | hold
        · cases hstage
        · exact h.unasked i t' hold master' fallback' hstage
    · exact h
  · exact h

/-! ## One step -/

/-- The end of an attempt. -/
theorem moves_failAttempt {k : ℕ} {phase : Phase}
    (hcall : w.call task node = some ⟨k, phase⟩)
    (hphase : seeking phase = true ∨ ∃ c id, phase = .waiting c id) (htasks : w'.tasks = w.tasks)
    (hnext : w'.nextTask = w.nextTask) (reason : Reason) (i : ℕ) (n : NodeId) :
    Moves attempts (w.stand i n) ((w'.failAttempt attempts task node k reason).stand i n)
      false false :=
  moves_setCall hcall (.fails k phase (.workerRequest node reason) hphase) htasks hnext i n
    rfl rfl

theorem InOrder.failAttempt (h : w.InOrder) {k : ℕ} (hcall : w.call task node = some call)
    (reason : Reason) : (w.failAttempt attempts task node k reason).InOrder :=
  InOrder.setCall (w := w.setClient _ _) (h.of_tasks rfl rfl) hcall _

/-- A call that does not draw is not idle. -/
theorem drawing_eq_false (hnot : ∀ k, w.call task node ≠ some ⟨k, .idle⟩) :
    w.drawing task node = false := by
  rw [drawing]
  cases hcall : w.call task node with
  | none => rfl
  | some call =>
    obtain ⟨k, phase⟩ := call
    cases phase with
    | idle => exact absurd hcall (hnot k)
    | _ => rfl

theorem moves_draw (hw : w.InOrder) (task : ℕ) (node : NodeId) (i : ℕ) (n : NodeId) :
    Moves attempts (w.stand i n) ((w.draw task node).stand i n) (drawsFor i n w (.draw task node))
      false ∧ (w.draw task node).InOrder := by
  unfold World.draw
  split
  · rename_i k hcall
    refine ⟨moves_setCall hcall (.draws k _) rfl rfl i n ?_ rfl,
      InOrder.setCall (w := w.setClient _ _) (hw.of_tasks rfl rfl) hcall _⟩
    simp [drawsFor, drawing, hcall]
  · rename_i hnot
    have hflag : drawsFor i n w (.draw task node) = false := by
      simp [drawsFor, drawing_eq_false hnot]
    rw [hflag]
    exact ⟨.stays _, hw⟩

theorem moves_lookup (hw : w.InOrder) (task : ℕ) (node : NodeId) (i : ℕ) (n : NodeId) :
    Moves attempts (w.stand i n) ((w.lookup topology attempts task node).stand i n) false false ∧
      (w.lookup topology attempts task node).InOrder := by
  unfold World.lookup
  split
  · rename_i k id hcall
    split
    · rename_i c hc
      exact ⟨moves_setCall hcall (.finds k _ _ rfl rfl) rfl rfl i n rfl rfl, hw.setCall hcall _⟩
    · split
      · exact ⟨moves_setCall hcall (.finds k _ _ rfl rfl) rfl rfl i n rfl rfl, hw.setCall hcall _⟩
      · exact ⟨moves_failAttempt hcall (Or.inl rfl) rfl rfl _ i n, hw.failAttempt hcall _⟩
  · exact ⟨.stays _, hw⟩

theorem moves_dial (hw : w.InOrder) (task : ℕ) (node : NodeId) (dialled : Except String Unit)
    (i : ℕ) (n : NodeId) :
    Moves attempts (w.stand i n) ((w.dial attempts task node dialled).stand i n) false false ∧
      (w.dial attempts task node dialled).InOrder := by
  unfold World.dial
  split
  · rename_i k id hcall
    cases dialled with
    | ok _ =>
      exact ⟨moves_setCall hcall (.finds k _ _ rfl rfl) rfl rfl i n rfl rfl,
        InOrder.setCall (w := w.connectTo _ _) (hw.of_tasks rfl rfl) hcall _⟩
    | error reason =>
      exact ⟨moves_failAttempt hcall (Or.inl rfl) rfl rfl _ i n, hw.failAttempt hcall _⟩
  · exact ⟨.stays _, hw⟩

theorem moves_fail (hw : w.InOrder) (task : ℕ) (node : NodeId) (reason : Reason) (i : ℕ)
    (n : NodeId) :
    Moves attempts (w.stand i n) ((w.fail attempts task node reason).stand i n) false false ∧
      (w.fail attempts task node reason).InOrder := by
  unfold World.fail
  split
  · rename_i k c id hcall
    exact ⟨moves_failAttempt hcall (Or.inl rfl) rfl rfl _ i n, hw.failAttempt hcall _⟩
  · rename_i k c id hcall
    exact ⟨moves_failAttempt hcall (Or.inr ⟨c, id, rfl⟩) rfl rfl _ i n, hw.failAttempt hcall _⟩
  · exact ⟨.stays _, hw⟩

/-- A request is sent where the call has a connection and the stream takes
it. -/
theorem sendsFor_of_connected {k c id : ℕ} {x : Connection}
    (hcall : w.call task node = some ⟨k, .connected c id⟩) (hx : w.connections[c]? = some x)
    (i : ℕ) (n : NodeId) :
    sendsFor i n w (.send task node true) = decide (task = i ∧ node = n) := by
  by_cases hsame : task = i ∧ node = n
  · obtain ⟨rfl, rfl⟩ := hsame
    have hmem : c ∈ w.connections := by
      rw [Std.ExtTreeMap.mem_iff_isSome_getElem?, hx]
      rfl
    simp [sendsFor, hcall, hmem]
  · simp only [hsame, decide_false, sendsFor, decide_eq_false_iff_not]
    exact fun h => hsame ⟨h.1, h.2.1⟩

/-- And nowhere else. -/
theorem sendsFor_eq_false {taken : Bool}
    (hnot : ∀ k c id x, w.call task node = some ⟨k, .connected c id⟩ →
      w.connections[c]? = some x → taken = false) (i : ℕ) (n : NodeId) :
    sendsFor i n w (.send task node taken) = false := by
  simp only [sendsFor, decide_eq_false_iff_not]
  rintro ⟨rfl, rfl, rfl, hany⟩
  cases hcall : w.call task node with
  | none => simp [hcall] at hany
  | some call =>
    obtain ⟨k, phase⟩ := call
    cases phase with
    | connected c id =>
      rw [hcall] at hany
      have hmem : c ∈ w.connections := by simpa using hany
      obtain ⟨x, hx⟩ := Option.isSome_iff_exists.1
        (Std.ExtTreeMap.mem_iff_isSome_getElem?.1 hmem)
      cases hnot k c id x hcall hx
    | _ => simp [hcall] at hany

theorem moves_send (hw : w.InOrder) (task : ℕ) (node : NodeId) (taken : Bool) (i : ℕ)
    (n : NodeId) :
    Moves attempts (w.stand i n) ((w.send attempts task node taken).stand i n) false
      (sendsFor i n w (.send task node taken)) ∧ (w.send attempts task node taken).InOrder := by
  unfold World.send
  split
  · rename_i t k c id ht hcall
    split
    · rename_i x hx
      cases taken with
      | true =>
        rw [sendsFor_of_connected hcall hx, if_pos rfl]
        exact ⟨moves_setCall hcall (.sends k c id) rfl rfl i n rfl
          (Bool.true_and _).symm,
          InOrder.setCall (w := w.setConnection _ _) (hw.of_tasks rfl rfl) hcall _⟩
      | false =>
        rw [sendsFor_eq_false fun _ _ _ _ _ _ => rfl, if_neg Bool.false_ne_true]
        exact ⟨moves_failAttempt hcall (Or.inl rfl) rfl rfl _ i n,
          InOrder.failAttempt (w := w.setConnection _ _) (hw.of_tasks rfl rfl) hcall _⟩
    · rename_i hnone
      rw [sendsFor_eq_false fun k' c' id' x' hcall' hx' => by
        rw [hcall] at hcall'
        cases hcall'
        rw [hnone] at hx'
        cases hx']
      exact ⟨.stays _, hw⟩
  · rename_i hnot
    rw [sendsFor_eq_false fun k c id x hcall hx => by
      obtain ⟨t, ht, -⟩ := task_of_call hcall
      exact (hnot t k c id ht hcall).elim]
    exact ⟨.stays _, hw⟩

theorem moves_wake (hw : w.InOrder) (c : ℕ) (node : NodeId) (reply : Reply) (asker : Asker)
    (i : ℕ) (n : NodeId) :
    Moves attempts (w.stand i n) ((w.wake c node reply asker).stand i n) false false ∧
      (w.wake c node reply asker).InOrder := by
  unfold World.wake
  split
  · rename_i k c' id hcall
    split
    · have hmoves : Moves attempts (w.stand i n) ((w.setCall asker.task node
          ⟨k, .done (.ok (responseRecord reply.response))⟩).stand i n) false false :=
        moves_setCall hcall (.answers k c' id _) rfl rfl i n rfl rfl
      exact ⟨hmoves, (hw.setCall hcall _).of_tasks rfl rfl⟩
    · exact ⟨.stays _, hw⟩
  · exact ⟨.stays _, hw⟩

theorem moves_receive (hw : w.InOrder) (c : ℕ) (i : ℕ) (n : NodeId) :
    Moves attempts (w.stand i n) ((w.receive c).stand i n) false false ∧
      (w.receive c).InOrder := by
  unfold World.receive
  split
  · rename_i x hx
    split
    · exact ⟨.stays _, hw⟩
    · split
      · rename_i reply rest hinbound
        dsimp only
        cases x.pending[reply.response.requestId]? with
        | none => exact ⟨.stays _, hw.of_tasks rfl rfl⟩
        | some asker =>
          obtain ⟨hmoves, hw'⟩ : Moves attempts (w.stand i n)
              ((w.wake c x.node reply asker).stand i n) false false ∧
                (w.wake c x.node reply asker).InOrder := moves_wake hw c x.node reply asker i n
          exact ⟨hmoves, hw'.of_tasks rfl rfl⟩
      · exact ⟨.stays _, hw⟩
  · exact ⟨.stays _, hw⟩

theorem moves_begin (hw : w.InOrder) (client : ℕ) (operation : Operation)
    (order : Worker.Enumeration) (i : ℕ) (n : NodeId) :
    Moves attempts (w.stand i n) ((w.begin topology client operation order).stand i n)
      false false := by
  have hlast : w.tasks[w.nextTask]? = none := by
    by_contra hsome
    obtain ⟨t, ht⟩ := Option.ne_none_iff_exists'.1 hsome
    exact absurd (hw.lt _ t ht) (lt_irrefl _)
  have hbefore : w.stand w.nextTask n = .unasked := by
    rw [stand, hlast]
    exact if_neg (lt_irrefl _)
  -- the number of another task is given out before the step if it is after
  have hother : i ≠ w.nextTask → (i < w.nextTask + 1 ↔ i < w.nextTask) := by omega
  unfold World.begin
  split
  · rename_i t hbegin
    by_cases hi : i = w.nextTask
    · subst hi
      rw [hbefore, stand, Std.ExtTreeMap.getElem?_insert_self]
      show Moves _ _ (t.calls[n]?.elim _ _) _ _
      rcases (fresh_begin hbegin).calls n with hcall | hcall
      · rw [hcall]
        exact .stays _
      · rw [hcall]
        exact .begins
    · have hsame : (w.tasks.insert w.nextTask t)[i]? = w.tasks[i]? := by
        rw [Std.ExtTreeMap.getElem?_insert, if_neg]
        rw [compare_eq_iff_eq]
        exact Ne.symm hi
      simp only [stand, hsame, hother hi]
      exact .stays _
  · by_cases hi : i = w.nextTask
    · subst hi
      simp only [stand, hlast, Nat.lt_succ_self, if_true]
      exact .ends _
    · simp only [stand, hother hi]
      exact .stays _

theorem moves_resume (hw : w.InOrder) (task : ℕ) (i : ℕ) (n : NodeId) :
    Moves attempts (w.stand i n) ((w.resume task).stand i n) false false := by
  unfold World.resume
  split
  · rename_i t ht
    split
    · rename_i outcome hreturns
      by_cases hi : i = task
      · subst hi
        have hfinished : (w.returns (askerOf i t) outcome).stand i n = .finished := by
          simp only [stand, World.returns, askerOf, Std.ExtTreeMap.getElem?_erase_self]
          exact if_pos (hw.lt i t ht)
        rw [hfinished]
        exact .ends _
      · have hsame : (w.tasks.erase task)[i]? = w.tasks[i]? := by
          rw [Std.ExtTreeMap.getElem?_erase, if_neg]
          rw [compare_eq_iff_eq]
          exact Ne.symm hi
        simp only [stand, World.returns, askerOf, hsame]
        exact .stays _
    · rename_i t' hasks
      obtain ⟨master, fallback, hstage, rfl⟩ := continue_asks hasks
      by_cases hi : i = task
      · subst hi
        simp only [stand, ht, Std.ExtTreeMap.getElem?_insert_self, getElem?_addCalls]
        split
        · rename_i hin
          rw [hw.unasked i t ht master fallback hstage n hin]
          exact .begins
        · exact .stays _
      · have hsame : ∀ t'', (w.tasks.insert task t'')[i]? = w.tasks[i]? := by
          intro t''
          rw [Std.ExtTreeMap.getElem?_insert, if_neg]
          rw [compare_eq_iff_eq]
          exact Ne.symm hi
        simp only [stand, hsame]
        exact .stays _
    · exact .stays _
  · exact .stays _

/-- **One step, whoever takes it, moves a call as `Moves` says.** -/
theorem moves_step (hw : w.InOrder) (a : Action) (i : ℕ) (n : NodeId) :
    Moves attempts (w.stand i n) ((step topology attempts w a).stand i n) (drawsFor i n w a)
      (sendsFor i n w a) ∧ (step topology attempts w a).InOrder := by
  cases a with
  | begin client operation order =>
    exact ⟨moves_begin hw client operation order i n, hw.begin client operation order⟩
  | draw task node => exact moves_draw hw task node i n
  | lookup task node => exact moves_lookup hw task node i n
  | dial task node dialled => exact moves_dial hw task node dialled i n
  | send task node taken => exact moves_send hw task node taken i n
  | fail task node reason => exact moves_fail hw task node reason i n
  | resume task => exact ⟨moves_resume hw task i n, hw.resume task⟩
  | ensure client node => exact ⟨.stays _, hw.of_tasks rfl rfl⟩
  | serve c now =>
    show Moves _ _ ((w.serve c now).stand i n) _ _ ∧ (w.serve c now).InOrder
    unfold World.serve
    split
    · split
      · exact ⟨.stays _, hw.of_tasks rfl rfl⟩
      · exact ⟨.stays _, hw⟩
    · exact ⟨.stays _, hw⟩
  | receive c => exact moves_receive hw c i n
  | close c =>
    show Moves _ _ ((w.close c).stand i n) _ _ ∧ (w.close c).InOrder
    unfold World.close
    split
    · exact ⟨.stays _, hw.of_tasks rfl rfl⟩
    · exact ⟨.stays _, hw⟩
  | use node u => exact ⟨.stays _, hw.of_tasks rfl rfl⟩
  | prune node p throughRevision => exact ⟨.stays _, hw.of_tasks rfl rfl⟩
  | removePartition node p =>
    simp only [step]
    split
    · exact ⟨.stays _, hw⟩
    · exact ⟨.stays _, hw.of_tasks rfl rfl⟩

theorem inOrder_start : start.InOrder where
  lt i t ht := by simp [start] at ht
  unasked i t ht := by simp [start] at ht

theorem inOrder_run (topology : Client.Topology) (attempts : ℕ) (actions : List Action) :
    (run (step topology attempts) start actions).InOrder :=
  run_keeps (I := InOrder) (fun _ a hw => (moves_step hw a 0 ⟨0⟩).2) inOrder_start actions

/-! ## What an attempt spends -/

/-- Whether the attempt has drawn its id. -/
def idsOf : Phase → ℕ
  | .idle => 0
  | _ => 1

/-- Whether it may have sent its request. -/
def requestsOf : Phase → ℕ
  | .waiting _ _ | .done _ => 1
  | _ => 0

/-- **What a call has spent**: an id for each of its attempts, at most a
request for each, and all its attempts if it has given up. -/
def Spent (attempts drawn sent : ℕ) : Stand → Prop
  | .unasked => drawn = 0 ∧ sent = 0
  | .asked call =>
    call.attempt < attempts ∧ drawn = call.attempt + idsOf call.phase ∧
      sent ≤ call.attempt + requestsOf call.phase ∧
      ∀ failure, call.phase = .done (.error failure) → call.attempt + 1 = attempts
  | .finished => drawn ≤ attempts ∧ sent ≤ drawn

theorem requestsOf_le (phase : Phase) : requestsOf phase ≤ idsOf phase := by
  cases phase <;> simp [requestsOf, idsOf]

theorem idsOf_le (phase : Phase) : idsOf phase ≤ 1 := by
  cases phase <;> simp [idsOf]

theorem idsOf_of_seeking {phase : Phase} (h : seeking phase = true) :
    idsOf phase = 1 ∧ requestsOf phase = 0 := by
  cases phase <;> first | exact ⟨rfl, rfl⟩ | cases h

theorem Spent.le {drawn sent : ℕ} {o : Stand} (h : Spent attempts drawn sent o) :
    drawn ≤ attempts ∧ sent ≤ drawn := by
  cases o with
  | unasked =>
    obtain ⟨rfl, rfl⟩ := h
    exact ⟨Nat.zero_le _, le_rfl⟩
  | asked call =>
    obtain ⟨hlt, rfl, hsent, -⟩ := h
    have hone := idsOf_le call.phase
    have hrequest := requestsOf_le call.phase
    exact ⟨by omega, by omega⟩
  | finished => exact h

/-- A move spends what it draws and sends. -/
theorem Spent.moves {drawn sent : ℕ} {o o' : Stand} {d s : Bool} (hpos : 0 < attempts)
    (h : Spent attempts drawn sent o) (hm : Moves attempts o o' d s) :
    Spent attempts (drawn + if d then 1 else 0) (sent + if s then 1 else 0) o' := by
  cases hm with
  | stays => exact h
  | begins =>
    obtain ⟨rfl, rfl⟩ := h
    exact ⟨hpos, rfl, le_rfl, fun failure hphase => by cases hphase⟩
  | draws k id =>
    obtain ⟨hlt, rfl, hsent, -⟩ := h
    exact ⟨hlt, rfl, hsent, fun failure hphase => by cases hphase⟩
  | finds k phase phase' hseeking hseeking' =>
    obtain ⟨hlt, rfl, hsent, -⟩ := h
    obtain ⟨hone, hnone⟩ := idsOf_of_seeking hseeking
    obtain ⟨hone', hnone'⟩ := idsOf_of_seeking hseeking'
    refine ⟨hlt, ?_, ?_, fun failure hphase => ?_⟩
    · show k + idsOf phase = k + idsOf phase'
      rw [hone, hone']
    · show sent ≤ k + requestsOf phase'
      rw [hnone', ← hnone]
      exact hsent
    · rw [show phase' = _ from hphase] at hseeking'
      cases hseeking'
  | sends k c id =>
    obtain ⟨hlt, rfl, hsent, -⟩ := h
    exact ⟨hlt, rfl, Nat.succ_le_succ hsent, fun failure hphase => by cases hphase⟩
  | fails k phase failure hphase =>
    obtain ⟨hlt, rfl, hsent, -⟩ := h
    have hdrawn : idsOf phase = 1 := by
      rcases hphase with hseeking | ⟨c, id, rfl⟩
      · exact (idsOf_of_seeking hseeking).1
      · rfl
    have hone := hdrawn ▸ requestsOf_le phase
    -- the next attempt begins with as many ids drawn as attempts were made
    by_cases hmore : k + 1 < attempts
    · rw [if_pos hmore]
      refine ⟨hmore, ?_, ?_, fun failure hphase => by cases hphase⟩
      · show k + idsOf phase = k + 1
        rw [hdrawn]
      · show sent ≤ k + 1
        exact hsent.trans (Nat.add_le_add_left hone k)
    · rw [if_neg hmore]
      refine ⟨hlt, ?_, ?_, fun failure _ => ?_⟩
      · show k + idsOf phase = k + 1
        rw [hdrawn]
      · show sent ≤ k + 1
        exact hsent.trans (Nat.add_le_add_left hone k)
      · show k + 1 = attempts
        have hlast : k < attempts := hlt
        omega
  | answers k c id record =>
    obtain ⟨hlt, rfl, hsent, -⟩ := h
    exact ⟨hlt, rfl, hsent, fun failure hphase => by cases hphase⟩
  | ends => exact h.le

/-- **What a run spends on a call.** -/
theorem spent_run (topology : Client.Topology) (hpos : 0 < attempts) (i : ℕ) (n : NodeId)
    (actions : List Action) :
    Spent attempts
      (count (step topology attempts) (fun w a => drawsFor i n w a) start actions)
      (count (step topology attempts) (fun w a => sendsFor i n w a) start actions)
      ((run (step topology attempts) start actions).stand i n) := by
  induction actions using List.reverseRecOn with
  | nil => exact ⟨rfl, rfl⟩
  | append_singleton actions a ih =>
    rw [count_concat, count_concat, run_append, run_cons, run_nil]
    exact ih.moves hpos (moves_step (inOrder_run topology attempts actions) a i n).1

/-- **A call spends its attempts.** Whatever the tasks, the connections and
the workers do, and in whichever order: for each task and each worker, at
most `retry_attempts` ids are drawn and no more requests than ids are sent,
a call that returns has drawn an id for each attempt it has made, and one
that returns an error has made all of them. -/
theorem attempts_are_spent (topology : Client.Topology) (retryAttempts : ℕ)
    (actions : List Action) (i : ℕ) (n : NodeId) :
    let attempts := max retryAttempts 1
    let w := run (step topology attempts) start actions
    let drawn := count (step topology attempts) (fun w a => drawsFor i n w a) start actions
    let sent := count (step topology attempts) (fun w a => sendsFor i n w a) start actions
    sent ≤ drawn ∧ drawn ≤ attempts ∧
      ∀ k result, w.call i n = some ⟨k, .done result⟩ → drawn = k + 1 ∧
        ∀ failure, result = .error failure → drawn = attempts := by
  intro attempts w drawn sent
  have hspent : Spent attempts drawn sent (w.stand i n) :=
    spent_run topology (Nat.lt_of_lt_of_le Nat.zero_lt_one (le_max_right _ _)) i n actions
  refine ⟨hspent.le.2, hspent.le.1, fun k result hcall => ?_⟩
  rw [stand_of_call hcall] at hspent
  obtain ⟨-, hdrawn, -, hgiven⟩ := hspent
  refine ⟨hdrawn, fun failure herror => ?_⟩
  rw [← hgiven failure (by rw [herror])]
  exact hdrawn

end World

end Requests

end NoSqlStore
