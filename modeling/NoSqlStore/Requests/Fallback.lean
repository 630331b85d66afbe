import NoSqlStore.Requests.Exchange
/-!
# Reads that fall back

When the master has no record of a key, a read asks the other holders and
combines what they return. The loop keeps the first record of the greatest
creation time, which is `List.argmax` of the records returned
(`newest_eq`), so that neither errors nor absences count and the order
matters between records of one creation time only (`fallback_newest`). A
deletion is a record like any other here, made by the connection of the
deletion time of the response, and hides what is older
(`fallback_deletion`).
-/

namespace NoSqlStore

namespace Requests

open Wire

variable {results results' : List CallResult} {record : GrpcRecord}

/-- The record a call returned. -/
def returnedRecord : CallResult → Option GrpcRecord
  | .ok record => record
  | .error _ => none

/-- The records returned. -/
def returnedRecords (results : List CallResult) : List GrpcRecord :=
  results.filterMap returnedRecord

theorem mem_returnedRecords : record ∈ returnedRecords results ↔ .ok (some record) ∈ results := by
  rw [returnedRecords, List.mem_filterMap]
  constructor
  · rintro ⟨result, hin, hrecord⟩
    cases result with
    | ok returned =>
      cases hrecord
      exact hin
    | error failure => cases hrecord
  · exact fun hin => ⟨_, hin, rfl⟩

/-- Whether a call returned at all. -/
def succeeded : CallResult → Bool
  | .ok _ => true
  | .error _ => false

/-- The error of a call. -/
def failureOf : CallResult → Option Failure
  | .ok _ => none
  | .error failure => some failure

/-- A record replaces one that is older. -/
theorem argAux_creationTime (best : Option GrpcRecord) (record : GrpcRecord) :
    List.argAux (fun b c => c.creationTime < b.creationTime) best record =
      if best.all fun current => current.creationTime < record.creationTime then some record
        else best := by
  cases best with
  | none => rfl
  | some current => simp [List.argAux]

/-- **The loop of a read**, from any point on. -/
theorem foldl_newest (results : List CallResult) (best : Option GrpcRecord) (successful : Bool)
    (lastError : Option Failure) :
    results.foldl (fun acc result =>
      match result with
      | .ok (some record) =>
        (if acc.1.all fun current => current.creationTime < record.creationTime then some record
          else acc.1, true, acc.2.2)
      | .ok none => (acc.1, true, acc.2.2)
      | .error failure => (acc.1, acc.2.1, some failure)) (best, successful, lastError) =
    ((returnedRecords results).foldl
        (List.argAux fun b c => c.creationTime < b.creationTime) best,
      successful || results.any succeeded,
      (results.filterMap failureOf).getLast?.or lastError) := by
  induction results generalizing best successful lastError with
  | nil => simp [returnedRecords]
  | cons result results ih =>
    rw [List.foldl_cons]
    match result with
    | .error failure =>
      -- a later error takes the place of this one
      have hlast : ((failure :: results.filterMap failureOf).getLast?.or lastError) =
          (results.filterMap failureOf).getLast?.or (some failure) := by
        rw [List.getLast?_cons]
        cases (results.filterMap failureOf).getLast? <;> rfl
      have hcons : (.error failure :: results).filterMap failureOf =
          failure :: results.filterMap failureOf := rfl
      rw [ih, hcons, hlast]
      rfl
    | .ok none =>
      have hcons : returnedRecords (.ok none :: results) = returnedRecords results := rfl
      rw [ih, List.any_cons, hcons]
      simp [succeeded, failureOf]
    | .ok (some record) =>
      rw [ih, List.any_cons, ← argAux_creationTime]
      simp [returnedRecords, returnedRecord, succeeded, failureOf]

/-- **What the loop computes**: the first record of the greatest creation
time, whether a call returned, and the last error. -/
theorem newest_eq (results : List CallResult) :
    newest results = ((returnedRecords results).argmax GrpcRecord.creationTime,
      results.any succeeded, (results.filterMap failureOf).getLast?) := by
  refine (foldl_newest results none false none).trans ?_
  rw [Bool.false_or, Option.or_none]
  rfl

/-- A read succeeds if one call has. -/
theorem readOutcome_of_succeeded (h : results.any succeeded = true) :
    readOutcome results =
      .read (((returnedRecords results).argmax GrpcRecord.creationTime).bind shown) := by
  rw [readOutcome, newest_eq, h]

theorem readOutcome_of_failed (h : results.any succeeded = false) :
    readOutcome results = .failed ((results.filterMap failureOf).getLast?.getD .timeout) := by
  rw [readOutcome, newest_eq, h]

/-- The record a read decides by. -/
def Newest (record : GrpcRecord) (results : List CallResult) : Prop :=
  .ok (some record) ∈ results ∧
    ∀ other, .ok (some other) ∈ results → other.creationTime ≤ record.creationTime

theorem newest_of_argmax
    (h : (returnedRecords results).argmax GrpcRecord.creationTime = some record) :
    Newest record results := by
  refine ⟨mem_returnedRecords.mp (List.argmax_mem h), fun other hin => ?_⟩
  exact List.le_of_mem_argmax (mem_returnedRecords.mpr hin) h

/-- The order matters between records of one creation time only. -/
theorem argmax_of_unique (hnewest : Newest record results)
    (hunique : ∀ other, Newest other results → other = record) :
    (returnedRecords results).argmax GrpcRecord.creationTime = some record := by
  cases hmax : (returnedRecords results).argmax GrpcRecord.creationTime with
  | none =>
    rw [List.argmax_eq_none] at hmax
    have hin := mem_returnedRecords.mpr hnewest.1
    rw [hmax] at hin
    cases hin
  | some other => rw [hunique other (newest_of_argmax hmax)]

/-- **A read that falls back is shown the newest record.** Whatever the
calls returned: if one of them succeeded, so does the read, and it returns
what a record of the greatest creation time shows, or nothing if there is
no record; if one record alone has that creation time, the order of the
calls does not matter; and if no call succeeded, the read fails. -/
theorem fallback_newest (results : List CallResult) :
    ((∃ returned, .ok returned ∈ results) →
      ((∀ record, .ok (some record) ∉ results) ∧ readOutcome results = .read none) ∨
      ∃ record, Newest record results ∧ readOutcome results = .read (shown record)) ∧
    (∀ record results', results.Perm results' → Newest record results →
      (∀ other, Newest other results → other = record) →
      readOutcome results = .read (shown record) ∧
        readOutcome results' = .read (shown record)) ∧
    ((∀ result ∈ results, ∃ failure, result = .error failure) →
      ∃ failure, readOutcome results = .failed failure) := by
  refine ⟨?_, ?_, ?_⟩
  · rintro ⟨returned, hin⟩
    have hsucceeded : results.any succeeded = true := List.any_eq_true.mpr ⟨_, hin, rfl⟩
    rw [readOutcome_of_succeeded hsucceeded]
    cases hmax : (returnedRecords results).argmax GrpcRecord.creationTime with
    | none =>
      rw [List.argmax_eq_none] at hmax
      refine Or.inl ⟨fun record hrecord => ?_, rfl⟩
      rw [← mem_returnedRecords, hmax] at hrecord
      cases hrecord
    | some record => exact Or.inr ⟨record, newest_of_argmax hmax, rfl⟩
  · intro record results' hperm hnewest hunique
    have hother : ∀ other, Newest other results' ↔ Newest other results := by
      intro other
      simp only [Newest, hperm.mem_iff]
    have hsucceeded : results.any succeeded = true := List.any_eq_true.mpr ⟨_, hnewest.1, rfl⟩
    have hsucceeded' : results'.any succeeded = true :=
      List.any_eq_true.mpr ⟨_, hperm.mem_iff.mp hnewest.1, rfl⟩
    have hmax := argmax_of_unique hnewest hunique
    have hmax' := argmax_of_unique ((hother record).mpr hnewest)
      fun other h => hunique other ((hother other).mp h)
    rw [readOutcome_of_succeeded hsucceeded, readOutcome_of_succeeded hsucceeded', hmax, hmax']
    exact ⟨rfl, rfl⟩
  · intro hfailed
    have hnone : results.any succeeded = false := by
      rw [List.any_eq_false]
      intro result hin
      obtain ⟨failure, rfl⟩ := hfailed result hin
      exact Bool.false_ne_true
    exact ⟨_, readOutcome_of_failed hnone⟩

/-- An error, an absence, a deletion and an older record, in two orders. -/
theorem fallback_newest_deleted :
    readOutcome [.error .timeout, .ok (some ⟨7, [1], 0, 5, false⟩), .ok none,
      .ok (some ⟨0, [], 0, 9, true⟩)] = .read none ∧
    readOutcome [.ok (some ⟨0, [], 0, 9, true⟩), .ok none,
      .ok (some ⟨7, [1], 0, 5, false⟩), .error .timeout] = .read none := by
  have hnewest : Newest ⟨0, [], 0, 9, true⟩ [.error .timeout,
      .ok (some ⟨7, [1], 0, 5, false⟩), .ok none, .ok (some ⟨0, [], 0, 9, true⟩)] := by
    refine ⟨by decide, fun other hin => ?_⟩
    simp only [List.mem_cons, Except.ok.injEq, Option.some.injEq, reduceCtorEq, false_or,
      List.not_mem_nil, or_false] at hin
    rcases hin with rfl | rfl <;> decide
  obtain ⟨-, hunique, -⟩ := fallback_newest [.error .timeout,
    .ok (some ⟨7, [1], 0, 5, false⟩), .ok none, .ok (some ⟨0, [], 0, 9, true⟩)]
  refine hunique _ _ (by decide) hnewest fun other hother => ?_
  have hin := hother.1
  have hle := hother.2 _ hnewest.1
  simp only [List.mem_cons, Except.ok.injEq, Option.some.injEq, reduceCtorEq, false_or,
    List.not_mem_nil, or_false] at hin
  rcases hin with rfl | rfl
  · exact absurd hle (by decide)
  · rfl

/-- The record a connection makes of an answer has the version of the
mutation. -/
theorem creationTime_responseRecord {id key : ℕ} {m : Mutation}
    (h : responseRecord (getResponse id key (some m)) = some record) :
    record.creationTime = m.version := by
  cases m <;> cases h <;> rfl

/-- **A deletion hides what is older**, at whichever of the workers. -/
theorem fallback_deletion {key deletionTime : ℕ} {answers : List (ℕ × Option Mutation)} {id : ℕ}
    (hin : (id, some (.delete deletionTime)) ∈ answers)
    (hothers : ∀ e ∈ answers, ∀ m, e.2 = some m → m = .delete deletionTime ∨
      m.version < deletionTime) :
    readOutcome (answers.map fun e => .ok (responseRecord (getResponse e.1 key e.2))) =
      .read none := by
  have hdeletion : .ok (some ⟨0, [], 0, deletionTime, true⟩) ∈
      answers.map fun e => (.ok (responseRecord (getResponse e.1 key e.2)) : CallResult) :=
    List.mem_map.mpr ⟨_, hin, rfl⟩
  rw [readOutcome_of_succeeded (List.any_eq_true.mpr ⟨_, hdeletion, rfl⟩)]
  cases hmax : (returnedRecords (answers.map fun e =>
      .ok (responseRecord (getResponse e.1 key e.2)))).argmax GrpcRecord.creationTime with
  | none => rfl
  | some record =>
    obtain ⟨hrecord, hnewest⟩ := newest_of_argmax hmax
    -- the record decided by is as recent as the deletion, so it is the deletion
    have hle : deletionTime ≤ record.creationTime := hnewest _ hdeletion
    obtain ⟨e, he, heq⟩ := List.mem_map.mp hrecord
    have hresponse : responseRecord (getResponse e.1 key e.2) = some record := Except.ok.inj heq
    cases hm : e.2 with
    | none =>
      rw [hm] at hresponse
      cases hresponse
    | some m =>
      rw [hm] at hresponse
      rcases hothers e he m hm with rfl | hlt
      · cases hresponse
        rfl
      · rw [creationTime_responseRecord hresponse] at hle
        omega

end Requests

end NoSqlStore
