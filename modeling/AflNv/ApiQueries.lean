import AflNv.FuzzApi
import AflNv.Lib.JsonPlace
import AflNv.Lib.Unicode
import AflNv.Python
import AflNv.PythonJson

/-!
# The queries of the fuzz API

`fuzz_test_query`, `fuzz_test_stop` and `fuzz_test_report_query` (`integration/fuzz_api.py`) answer
a JSON request with a dictionary.  A call may also raise, or wait for `TASK_LOCK` while it holds the
lock itself: `Failure` is what happens instead of an answer.

* `fuzzTestQuery_returns_iff` says for which files of the task the first one answers: they are read
  as UTF-8, and a report that can be parsed is an object.
* `collect_cases` says when the loops of the filters by name and by time range come to an end: no
  task may match, and no time without a zone may be compared.
* `queries_total` puts the three together.
-/

namespace AflNv.ApiQueries

open AflNv.Lib AflNv.PythonJson
open AflNv.Lib.JsonCodec (Text Value chars)

/-! ## Requests, tasks and files -/

variable {F : Type}

/-- The members of a JSON object; `F` holds the floats. -/
abbrev Dict (F : Type) := List (Text × Value F)

/-- What `datetime.fromisoformat` gives: microseconds, with a zone (then they are those of UTC) or
without one. -/
inductive Timestamp where
  | naive (t : ℤ)
  | aware (t : ℤ)
  deriving DecidableEq

/-- The host: JSON, and the texts of times; `fromisoformat` raises a `ValueError` with a message. -/
structure Host (F : Type) where
  interp : Interp F
  floatTruthy : F → Bool
  fromisoformat : Text → Except Text Timestamp
  isoformat : ℕ → Text

/-- A task; the times in its job are microseconds. -/
structure Record where
  job : Job
  targetEndpoint : Text
  outDir : Text
  /-- `_out_dir` -/
  outDirAbs : Text

def Record.taskName (r : Record) : Text := r.job.task.taskName.map UInt8.toNat

/-- `TASKS` -/
abbrev Table := List (Text × Record)

/-- A file, with the time of its last change as an ISO text. -/
structure File where
  content : Bytes
  generateTime : Text

structure Dir where
  evalReport : Option File
  fuzzerStats : Option File

/-- The directories of the tasks. -/
abbrev Files := Text → Option Dir

/-- What happens instead of a return. -/
inductive Failure where
  | valueError (message : Text)
  | raised (e : PyError)
  /-- The thread waits for a lock that it holds itself. -/
  | blocked
  deriving DecidableEq

/-- `with TASK_LOCK` -/
def withLock {α : Type} (held : Bool) (body : Except Failure α) : Except Failure α :=
  if held then .error .blocked else body

theorem withLock_free {α : Type} (body : Except Failure α) : withLock false body = body := rfl

/-- `request.get(key)` -/
def get (d : Dict F) (key : String) : Value F := (d.lookup (chars key)).getD .null

/-- `bool(v)` -/
def truthy (H : Host F) : Value F → Bool
  | .null => false
  | .bool b => b
  | .int i => i ≠ 0
  | .float x => H.floatTruthy x
  | .str s => s ≠ []
  | .list items => !items.isEmpty
  | .dict members => !members.isEmpty

def errorResponse (message : Text) : Dict F :=
  [(chars "process_result", .str (chars "error")), (chars "error", .str message)]

def textOrNull : Option Text → Value F
  | none => .null
  | some s => .str s

/-! ## The query of a task -/

section Query

variable (H : Host F)

def statusText : TaskStatus → Text
  | .created => chars "created"
  | .running => chars "running"
  | .completed => chars "completed"
  | .failed => chars "failed"
  | .stopped => chars "stopped"

/-- One line of `fuzzer_stats`. -/
def statsLine (stats : List (Text × Text)) (line : Text) : List (Text × Text) :=
  let line := Unicode.strip line
  if line = [] ∨ 58 ∉ line then stats
  else
    let key := line.takeWhile (· ≠ 58)
    let value := (line.dropWhile (· ≠ 58)).drop 1
    JsonCodec.setItem stats (Unicode.strip key) (Unicode.strip value)

/-- `read_text(encoding="utf-8")` -/
def readText (f : File) : Except Failure Text :=
  match Utf8.decode f.content with
  | none => .error (.raised .unicodeDecodeError)
  | some text => .ok (Unicode.universalNewlines text)

/-- `parse_fuzzer_stats` of a file that exists. -/
def parseFuzzerStats (f : File) : Except Failure (List (Text × Text)) := do
  let text ← readText f
  return (Unicode.splitlines text).foldl statsLine []

/-- A text between single quotes. -/
def quoted (text : Text) : Text := [39] ++ text ++ [39]

/-- `derive_query_description`; `str(None)` is `None`. -/
def deriveQueryDescription (r : Record) : Text :=
  let endpoint := chars "endpoint " ++ quoted r.targetEndpoint
  match r.job.task.status with
  | .created => chars "Task created for " ++ endpoint ++ chars ", not yet started"
  | .running => chars "Task running for " ++ endpoint ++ chars ", started at " ++
      (r.job.task.startedAt.map H.isoformat).getD (chars "None")
  | .completed => chars "Task completed successfully for " ++ endpoint
  | .stopped => chars "Task stopped by user for " ++ endpoint
  | .failed => chars "Task failed for " ++ endpoint ++ chars " with exit code " ++
      (r.job.task.returncode.map JsonCodec.showInt).getD (chars "None")

/-- `response["metrics"]` -/
def metrics (stats : List (Text × Text)) : Value F :=
  let metric (key default : String) : Value F :=
    .str ((stats.lookup (chars key)).getD (chars default))
  .dict [(chars "execs_done", metric "execs_done" "0"),
    (chars "bitmap_cvg", metric "bitmap_cvg" "0.00%"),
    (chars "valid_exec", metric "nv_total_valid_exec" "0"),
    (chars "err_count", metric "nv_err_exec" "0"),
    (chars "rec_count", metric "nv_rec_success" "0")]

/-- `response["evaluation"]` -/
def evaluation (report : Dict F) : Value F :=
  let part (key : String) : Value F := (report.lookup (chars key)).getD (.dict [])
  .dict [(chars "coverage", part "security_state_cov"), (chars "validity", part "validity"),
    (chars "error", part "err"), (chars "recovery", part "rec")]

/-- `fuzzer_stats` in the response. -/
def addMetrics (stats : Option File) (response : Dict F) : Except Failure (Dict F) :=
  match stats with
  | none => .ok response
  | some f => do
    let stats ← parseFuzzerStats f
    return response ++ [(chars "metrics", metrics stats)]

/-- `eval_report.json` in the response.  `json.loads` raises a `JSONDecodeError`, which is caught,
or, for a text that is too deep or holds too long a number, another error. -/
def addEvaluation (report : Option File) (response : Dict F) : Except Failure (Dict F) :=
  match report with
  | none => .ok response
  | some f => do
    let text ← readText f
    if H.interp.refuses text then .error (.raised .recursionError)
    else
      match JsonCodec.read H.interp.floats text with
      | none => .ok response
      | some (.dict members) => .ok (response ++ [(chars "evaluation", evaluation members)])
      | some _ => .error (.raised .attributeError)

/-- The id that the first two functions accept. -/
def requiredTaskId (request : Dict F) : Option Text :=
  match get request "task_id" with
  | .str id => if Unicode.strip id = [] then none else some id
  | _ => none

/-- The response for a task that exists, without what its files tell. -/
def taskResponse (id : Text) (r : Record) : Dict F :=
  let task := r.job.task
  [(chars "process_result", .str (chars "success")), (chars "task_id", .str id),
    (chars "status", .str (statusText task.status)),
    (chars "query_description", .str (deriveQueryDescription H r)),
    (chars "created_at", .str (H.isoformat task.createdAt)),
    (chars "started_at", textOrNull (task.startedAt.map H.isoformat)),
    (chars "finished_at", textOrNull (task.finishedAt.map H.isoformat)),
    (chars "out_dir", .str r.outDir)]

def notFoundResponse (id : Text) : Dict F :=
  [(chars "process_result", .str (chars "success")), (chars "task_id", .str id),
    (chars "status", .str (chars "not_found")),
    (chars "query_description", .str (chars "Task " ++ id ++ chars " not found"))]

def fuzzTestQuery (table : Table) (files : Files) (request : Dict F) : Except Failure (Dict F) :=
  match requiredTaskId request with
  | none => .ok (errorResponse (chars "task_id is required"))
  | some id =>
    withLock false <|
      match table.lookup id with
      | none => .ok (notFoundResponse id)
      | some r => do
        let dir := files r.outDirAbs
        let response ← addMetrics (dir.bind Dir.fuzzerStats) (taskResponse H id r)
        addEvaluation H (dir.bind Dir.evalReport) response

end Query

/-! ## The stop request -/

/-- The text of an exception. -/
def excText : StopOutcome → Text
  | .exits _ => []
  | .raises exc _ => exc.map UInt8.toNat

def fuzzTestStop (table : Table) (request : Dict F) (outcome : StopOutcome) (now : ℕ) :
    Except Failure (Dict F × Table) :=
  match requiredTaskId request with
  | none => .ok (errorResponse (chars "task_id is required"), table)
  | some id =>
    withLock false <|
      match table.lookup id with
      | none => .ok (errorResponse (chars "task not found: " ++ id), table)
      | some r =>
        let success (status : TaskStatus) : Dict F :=
          [(chars "process_result", .str (chars "success")), (chars "task_id", .str id),
            (chars "status", .str (statusText status))]
        if r.job.task.status.isTerminal then
          .ok (success r.job.task.status ++
            [(chars "message", .str (chars "task already in terminal state"))], table)
        else
          let (answer, job) := r.job.stop outcome now
          let table := JsonCodec.setItem table id { r with job := job }
          match answer with
          | .error => .ok (errorResponse (chars "failed to stop task: " ++ excText outcome), table)
          | .success status => .ok (success status, table)

/-! ## The query of the reports -/

section Reports

variable (H : Host F) (table : Table) (files : Files)

/-- One item of `report_list`. -/
def reportItem (id : Text) (r : Record) (name : String) (f : File) : Value F :=
  .dict [(chars "task_id", .str id), (chars "task_name", .str r.taskName),
    (chars "report_name", .str (chars name)), (chars "generate_time", .str f.generateTime),
    (chars "download_url",
      .str (chars "/api/reports/download/" ++ id ++ chars "/" ++ chars name))]

/-- The reports of a task: the files that exist in its directory. -/
def reportsOf (id : Text) (r : Record) : List (Value F) :=
  match files r.outDirAbs with
  | none => []
  | some dir =>
    (dir.evalReport.map (reportItem id r "eval_report.json")).toList ++
      (dir.fuzzerStats.map (reportItem id r "fuzzer_stats")).toList

def filterReportsByTaskId (held : Bool) (id : Text) : Except Failure (List (Value F)) := do
  let task ← withLock held (.ok (table.lookup id))
  match task with
  | none => return []
  | some r => return reportsOf files id r

/-- One task in the loop of the other two filters, which holds the lock. -/
def collectTask (accepts : Record → Except Failure Bool) (reports : List (Value F))
    (entry : Text × Record) : Except Failure (List (Value F)) := do
  if ← accepts entry.2 then
    let more ← filterReportsByTaskId table files true entry.1
    return reports ++ more
  else return reports

/-- The loop over `TASKS`. -/
def collect (accepts : Record → Except Failure Bool) : Except Failure (List (Value F)) :=
  withLock false <| table.foldlM (collectTask table files accepts) []

def filterReportsByTaskName (name : Text) : Except Failure (List (Value F)) :=
  collect table files fun r => .ok (r.taskName = name)

/-- `a <= b`; a time with a zone and one without are not compared. -/
def Timestamp.le : Timestamp → Timestamp → Except Failure Bool
  | .naive s, .naive t => .ok (s ≤ t)
  | .aware s, .aware t => .ok (s ≤ t)
  | _, _ => .error (.raised .typeError)

/-- `start_dt <= created_dt <= end_dt`.  What `utc_now` wrote is read back with its zone. -/
def inRange (first last : Timestamp) (r : Record) : Except Failure Bool := do
  let created := Timestamp.aware r.job.task.createdAt
  if ← first.le created then created.le last else return false

/-- The name of a type in the message of an `AttributeError`. -/
def typeName : Value F → Text
  | .null => chars "NoneType"
  | .bool _ => chars "bool"
  | .int _ => chars "int"
  | .float _ => chars "float"
  | .str _ => chars "str"
  | .list _ => chars "list"
  | .dict _ => chars "dict"

/-- `datetime.fromisoformat(v.replace("Z", "+00:00"))`; the message of the exception. -/
def readTimestamp : Value F → Except Text Timestamp
  | .str s => H.fromisoformat (s.flatMap fun c => if c = 90 then chars "+00:00" else [c])
  | v => .error (quoted (typeName v) ++ chars " object has no attribute " ++
      quoted (chars "replace"))

/-- The `try` of `filter_reports_by_time_range`. -/
def readRange (range : Dict F) : Except Text (Timestamp × Timestamp) := do
  let start := get range "start"
  let last := get range "end"
  if !truthy H start || !truthy H last then
    .error (chars "time_range requires both " ++ quoted (chars "start") ++ chars " and " ++
      quoted (chars "end"))
  else
    let first ← readTimestamp H start
    let last ← readTimestamp H last
    return (first, last)

def filterReportsByTimeRange (range : Dict F) : Except Failure (List (Value F)) :=
  match readRange H range with
  | .error message => .error (.valueError (chars "invalid time_range format: " ++ message))
  | .ok (first, last) => collect table files (inRange first last)

/-- The reports that `fuzz_test_report_query` finds. -/
def findReports (request : Dict F) : Except Failure (List (Value F)) :=
  let taskId := get request "task_id"
  let taskName := get request "task_name"
  let timeRange := get request "time_range"
  if truthy H taskId then
    match taskId with
    | .str id => filterReportsByTaskId table files false id
    | _ => .error (.valueError (chars "task_id must be a string"))
  else if truthy H taskName then
    match taskName with
    | .str name => filterReportsByTaskName table files name
    | _ => .error (.valueError (chars "task_name must be a string"))
  else
    match timeRange with
    | .dict range => filterReportsByTimeRange H table files range
    | _ => .error (.valueError (chars "time_range must be an object"))

def reportResponse (reports : List (Value F)) : Dict F :=
  [(chars "process_result", .str (chars "success")),
    (chars "total_count", .int reports.length), (chars "report_list", .list reports)]

/-- `except ValueError`, and the response. -/
def answerReports : Except Failure (List (Value F)) → Except Failure (Dict F)
  | .ok reports => .ok (reportResponse reports)
  | .error (.valueError message) => .ok (errorResponse message)
  | .error failure => .error failure

def fuzzTestReportQuery (request : Dict F) : Except Failure (Dict F) :=
  if !(truthy H (get request "task_id") || truthy H (get request "task_name") ||
      truthy H (get request "time_range")) then
    .ok (errorResponse
      (chars "at least one filter required: task_id, task_name, or time_range"))
  else answerReports (findReports H table files request)

end Reports

/-! ## What is promised -/

/-- The response says whether the call succeeded. -/
def Answers (response : Dict F) : Prop :=
  get response "process_result" = .str (chars "success") ∨
    get response "process_result" = .str (chars "error")

theorem answers_success (members : Dict F) :
    Answers ((chars "process_result", .str (chars "success")) :: members) := by
  left
  rw [get, List.lookup_cons_self]
  rfl

theorem answers_error (message : Text) : Answers (errorResponse message : Dict F) := by
  right
  rw [errorResponse, get, List.lookup_cons_self]
  rfl

section Promises

variable (H : Host F) (table : Table) (files : Files)

/-- The filter of a request that is not refused. -/
inductive Filter where
  | taskId (id : Text)
  | taskName (name : Text)
  | timeRange (first last : Timestamp)

def filterOf (request : Dict F) : Option Filter :=
  if truthy H (get request "task_id") then
    match get request "task_id" with
    | .str id => some (.taskId id)
    | _ => none
  else if truthy H (get request "task_name") then
    match get request "task_name" with
    | .str name => some (.taskName name)
    | _ => none
  else
    match get request "time_range" with
    | .dict range =>
      match readRange H range with
      | .ok (first, last) => some (.timeRange first last)
      | .error _ => none
    | _ => none

/-- The instant of a time; one without a zone is in UTC. -/
def Timestamp.instant : Timestamp → ℤ
  | .naive t => t
  | .aware t => t

/-- The tasks of a filter. -/
def selected : Filter → Table
  | .taskId id => ((table.lookup id).map fun r => (id, r)).toList
  | .taskName name => table.filter fun entry => entry.2.taskName = name
  | .timeRange first last => table.filter fun entry =>
      first.instant ≤ entry.2.job.task.createdAt ∧ entry.2.job.task.createdAt ≤ last.instant

/-- The existing report files of the tasks of a filter. -/
def reportsFor (filter : Filter) : List (Value F) :=
  (selected table filter).flatMap fun entry => reportsOf files entry.1 entry.2

/-- A response to a report query; one that succeeds lists what the filter selects. -/
def Lists (request response : Dict F) : Prop :=
  Answers response ∧ (get response "process_result" = .str (chars "success") →
    ∃ filter, filterOf H request = some filter ∧
      response = reportResponse (reportsFor table files filter))

/-- The three calls return, each with a response. -/
structure Total (request : Dict F) (outcome : StopOutcome) (now : ℕ) : Prop where
  query : ∃ response, fuzzTestQuery H table files request = .ok response ∧ Answers response
  stop : ∃ response table', fuzzTestStop table request outcome now = .ok (response, table') ∧
    Answers response
  reports : ∃ response, fuzzTestReportQuery H table files request = .ok response ∧
    Lists H table files request response

/-! ## When the calls return -/

/-- The file is UTF-8. -/
def Readable (f : File) : Prop := (Utf8.decode f.content).isSome

/-- `json.loads` of the text of the file gives an object or raises a `JSONDecodeError`. -/
def ReportText (f : File) : Prop :=
  ∀ text, Utf8.decode f.content = some text →
    H.interp.refuses (Unicode.universalNewlines text) = false ∧
    ∀ v, JsonCodec.read H.interp.floats (Unicode.universalNewlines text) = some v →
      ∃ members, v = .dict members

/-- The files of the task that is asked for are well formed. -/
def FilesRead (request : Dict F) : Prop :=
  ∀ id r, requiredTaskId request = some id → table.lookup id = some r →
    (∀ f, (files r.outDirAbs).bind Dir.fuzzerStats = some f → Readable f) ∧
    (∀ f, (files r.outDirAbs).bind Dir.evalReport = some f → Readable f ∧ ReportText H f)

/-- A task that the loop of a time range passes by: it was created before the first time, which has
a zone, or after the last one, which has a zone too. -/
def Outside (first last : Timestamp) (created : ℕ) : Prop :=
  ∃ s, first = .aware s ∧ (created < s ∨ ∃ t, last = .aware t ∧ t < created)

/-- No task is found by its name or its time, and no time without a zone is compared. -/
def LoopsEnd (request : Dict F) : Prop :=
  match filterOf H request with
  | some (.taskName name) => ∀ entry ∈ table, entry.2.taskName ≠ name
  | some (.timeRange first last) => ∀ entry ∈ table, Outside first last entry.2.job.task.createdAt
  | _ => True

end Promises

/-! ## The query -/

section QueryProofs

variable {H : Host F} {table : Table} {files : Files} {request : Dict F}

theorem readText_of_decode {f : File} {text : Text} (h : Utf8.decode f.content = some text) :
    readText f = .ok (Unicode.universalNewlines text) := by
  rw [readText, h]

theorem readText_of_none {f : File} (h : Utf8.decode f.content = none) :
    readText f = .error (.raised .unicodeDecodeError) := by
  rw [readText, h]

theorem not_readable {f : File} (h : Utf8.decode f.content = none) : ¬ Readable f := by
  rw [Readable, h]
  exact Bool.false_ne_true

theorem readable {f : File} {text : Text} (h : Utf8.decode f.content = some text) :
    Readable f := by
  rw [Readable, h]
  rfl

/-- The call returns the response with more members when `P` holds, and does not return
otherwise. -/
def ReturnsWhen (P : Prop) (response : Dict F) (call : Except Failure (Dict F)) : Prop :=
  (P ∧ ∃ more, call = .ok (response ++ more)) ∨ (¬ P ∧ ∃ failure, call = .error failure)

theorem addMetrics_returnsWhen (stats : Option File) (response : Dict F) :
    ReturnsWhen (∀ f, stats = some f → Readable f) response (addMetrics stats response) := by
  cases stats with
  | none =>
    left
    exact ⟨fun f h => (Option.some_ne_none f h.symm).elim, [],
      congrArg Except.ok (List.append_nil _).symm⟩
  | some f =>
    cases h : Utf8.decode f.content with
    | none =>
      right
      refine ⟨fun hall => not_readable h (hall f rfl), .raised .unicodeDecodeError, ?_⟩
      rw [addMetrics, parseFuzzerStats, readText_of_none h]
      rfl
    | some text =>
      left
      refine ⟨fun f' hf => ?_, ?_⟩
      · cases hf
        exact readable h
      · rw [addMetrics, parseFuzzerStats, readText_of_decode h]
        exact ⟨_, rfl⟩

theorem addEvaluation_returnsWhen (report : Option File) (response : Dict F) :
    ReturnsWhen (∀ f, report = some f → Readable f ∧ ReportText H f) response
      (addEvaluation H report response) := by
  cases report with
  | none =>
    left
    exact ⟨fun f h => (Option.some_ne_none f h.symm).elim, [],
      congrArg Except.ok (List.append_nil _).symm⟩
  | some f =>
    cases h : Utf8.decode f.content with
    | none =>
      right
      refine ⟨fun hall => not_readable h (hall f rfl).1, .raised .unicodeDecodeError, ?_⟩
      rw [addEvaluation, readText_of_none h]
      rfl
    | some text =>
      -- what `json.loads` makes of the text
      have hcall : addEvaluation H (some f) response =
          if H.interp.refuses (Unicode.universalNewlines text) then
            .error (.raised .recursionError)
          else
            match JsonCodec.read H.interp.floats (Unicode.universalNewlines text) with
            | none => .ok response
            | some (.dict members) => .ok (response ++ [(chars "evaluation", evaluation members)])
            | some _ => .error (.raised .attributeError) := by
        rw [addEvaluation, readText_of_decode h]
        rfl
      rw [hcall]
      by_cases hrefuses : H.interp.refuses (Unicode.universalNewlines text) = true
      · right
        rw [if_pos hrefuses]
        refine ⟨fun hall => ?_, _, rfl⟩
        have hfree := ((hall f rfl).2 text h).1
        rw [hrefuses] at hfree
        cases hfree
      rw [if_neg hrefuses]
      have hread (hobject : ∀ v, JsonCodec.read H.interp.floats (Unicode.universalNewlines text) =
          some v → ∃ members, v = .dict members) :
          ∀ f', some f = some f' → Readable f' ∧ ReportText H f' := by
        intro f' hf
        cases hf
        refine ⟨readable h, fun text' htext => ?_⟩
        rw [h] at htext
        cases htext
        exact ⟨Bool.eq_false_iff.mpr hrefuses, hobject⟩
      split
      · rename_i hnone
        left
        refine ⟨hread fun v hv => ?_, [], by rw [List.append_nil]⟩
        rw [hnone] at hv
        cases hv
      · rename_i members hdict
        left
        refine ⟨hread fun v hv => ?_, _, rfl⟩
        rw [hdict] at hv
        exact ⟨members, (Option.some.inj hv).symm⟩
      · rename_i v hother hv
        right
        refine ⟨fun hall => ?_, _, rfl⟩
        obtain ⟨members, hmembers⟩ := ((hall f rfl).2 text h).2 v hv
        exact hother members hmembers

theorem fuzzTestQuery_of_lookup {id : Text} (hid : requiredTaskId request = some id)
    {r : Record} (hr : table.lookup id = some r) :
    fuzzTestQuery H table files request =
      (addMetrics ((files r.outDirAbs).bind Dir.fuzzerStats) (taskResponse H id r)).bind
        (addEvaluation H ((files r.outDirAbs).bind Dir.evalReport)) := by
  simp only [fuzzTestQuery, hid, withLock, hr]
  rfl

/-- The query of a task answers exactly when the files of the task are well formed. -/
theorem fuzzTestQuery_returns_iff :
    (∃ response, fuzzTestQuery H table files request = .ok response ∧ Answers response) ↔
      FilesRead H table files request := by
  cases hid : requiredTaskId request with
  | none =>
    refine iff_of_true ⟨_, by simp only [fuzzTestQuery, hid]; rfl, answers_error _⟩ ?_
    intro id r h
    rw [hid] at h
    cases h
  | some id =>
    cases hr : table.lookup id with
    | none =>
      refine iff_of_true ⟨notFoundResponse id, ?_, answers_success _⟩ ?_
      · simp only [fuzzTestQuery, hid, withLock, hr]
        rfl
      · intro id' r h hr'
        rw [hid] at h
        cases h
        rw [hr] at hr'
        cases hr'
    | some r =>
      have hfiles : FilesRead H table files request ↔
          (∀ f, (files r.outDirAbs).bind Dir.fuzzerStats = some f → Readable f) ∧
          (∀ f, (files r.outDirAbs).bind Dir.evalReport = some f →
            Readable f ∧ ReportText H f) := by
        constructor
        · intro h
          exact h id r hid hr
        · intro h id' r' hid' hr'
          rw [hid] at hid'
          cases hid'
          rw [hr] at hr'
          cases hr'
          exact h
      rw [hfiles, fuzzTestQuery_of_lookup hid hr]
      rcases addMetrics_returnsWhen ((files r.outDirAbs).bind Dir.fuzzerStats)
        (taskResponse H id r) with ⟨hstats, more, hmore⟩ | ⟨hstats, failure, hfailure⟩
      · rw [hmore]
        show (∃ response, addEvaluation H _ _ = .ok response ∧ _) ↔ _
        rcases addEvaluation_returnsWhen (H := H) ((files r.outDirAbs).bind Dir.evalReport)
          (taskResponse H id r ++ more) with ⟨heval, last, hlast⟩ | ⟨heval, failure, hfailure⟩
        · rw [hlast]
          exact iff_of_true ⟨_, rfl, answers_success _⟩ ⟨hstats, heval⟩
        · rw [hfailure]
          exact iff_of_false (fun ⟨_, h, _⟩ => by cases h) fun h => heval h.2
      · rw [hfailure]
        exact iff_of_false (fun ⟨_, h, _⟩ => by cases h) fun h => hstats h.1

end QueryProofs

/-! ## The stop request -/

/-- A stop request is always answered. -/
theorem fuzzTestStop_returns (table : Table) (request : Dict F) (outcome : StopOutcome) (now : ℕ) :
    ∃ response table', fuzzTestStop table request outcome now = .ok (response, table') ∧
      Answers response := by
  unfold fuzzTestStop
  split
  · exact ⟨_, _, rfl, answers_error _⟩
  · rw [withLock_free]
    split
    · exact ⟨_, _, rfl, answers_error _⟩
    · dsimp only
      split
      · exact ⟨_, _, rfl, answers_success _⟩
      · split
        · exact ⟨_, _, rfl, answers_error _⟩
        · exact ⟨_, _, rfl, answers_success _⟩

/-! ## The loops of the report filters -/

section Loops

variable {H : Host F} {table : Table} {files : Files} {request : Dict F}

theorem filterReportsByTaskId_free (id : Text) :
    (filterReportsByTaskId table files false id : Except Failure (List (Value F))) =
      .ok (reportsFor table files (.taskId id)) := by
  show (match table.lookup id with | none => _ | some r => _) = _
  cases hr : table.lookup id with
  | none =>
    rw [reportsFor, selected, hr]
    rfl
  | some r =>
    rw [reportsFor, selected, hr]
    show _ = Except.ok (List.flatMap _ [(id, r)])
    rw [List.flatMap_singleton]
    rfl

/-- A task that is not accepted is passed by, and one that is accepted blocks the loop. -/
theorem collectTask_cases (accepts : Record → Except Failure Bool) (reports : List (Value F))
    (entry : Text × Record) :
    (accepts entry.2 = .ok false ∧ collectTask table files accepts reports entry = .ok reports) ∨
    (accepts entry.2 ≠ .ok false ∧
      ∃ failure, collectTask table files accepts reports entry = .error failure ∧
        (failure = .blocked ∨ accepts entry.2 = .error failure)) := by
  unfold collectTask
  cases h : accepts entry.2 with
  | error failure => exact Or.inr ⟨by simp, failure, rfl, Or.inr rfl⟩
  | ok accepted =>
    cases accepted with
    | false => exact Or.inl ⟨rfl, rfl⟩
    | true => exact Or.inr ⟨by simp, .blocked, rfl, Or.inl rfl⟩

/-- The loop comes to an end when it accepts no task.  Otherwise it raises what the test raises, or
waits for the lock. -/
theorem foldlM_collectTask (accepts : Record → Except Failure Bool) (entries : Table)
    (reports : List (Value F)) :
    ((∀ entry ∈ entries, accepts entry.2 = .ok false) ∧
      entries.foldlM (collectTask table files accepts) reports = .ok reports) ∨
    (¬ (∀ entry ∈ entries, accepts entry.2 = .ok false) ∧
      ∃ failure, entries.foldlM (collectTask table files accepts) reports = .error failure ∧
        (failure = .blocked ∨ ∃ entry ∈ entries, accepts entry.2 = .error failure)) := by
  induction entries with
  | nil => exact Or.inl ⟨fun entry h => absurd h List.not_mem_nil, rfl⟩
  | cons entry entries ih =>
    rw [List.foldlM_cons]
    rcases @collectTask_cases F table files accepts reports entry with
      ⟨hpass, hstep⟩ | ⟨hstop, failure, hstep, hfailure⟩
    · rw [hstep]
      rcases ih with ⟨hall, hrest⟩ | ⟨hsome, failure, hrest, hfailure⟩
      · exact Or.inl ⟨List.forall_mem_cons.mpr ⟨hpass, hall⟩, hrest⟩
      · refine Or.inr ⟨fun hall => hsome (List.forall_mem_cons.mp hall).2, failure, hrest, ?_⟩
        exact hfailure.imp_right fun ⟨e, he, h⟩ => ⟨e, List.mem_cons_of_mem _ he, h⟩
    · rw [hstep]
      refine Or.inr ⟨fun hall => hstop (List.forall_mem_cons.mp hall).1, failure, rfl, ?_⟩
      exact hfailure.imp_right fun h => ⟨entry, List.mem_cons_self, h⟩

/-- A filter by a loop returns exactly when it accepts no task; then nothing is listed.  It does not
raise a `ValueError` unless the test does. -/
theorem collect_cases {accepts : Record → Except Failure Bool}
    (hvalue : ∀ r message, accepts r ≠ .error (.valueError message)) :
    ((∀ entry ∈ table, accepts entry.2 = .ok false) ∧
      (collect table files accepts : Except Failure (List (Value F))) = .ok []) ∨
    (¬ (∀ entry ∈ table, accepts entry.2 = .ok false) ∧
      ∃ failure, (collect table files accepts : Except Failure (List (Value F))) =
        .error failure ∧
        ∀ message, failure ≠ .valueError message) := by
  rcases @foldlM_collectTask F table files accepts table [] with
    h | ⟨hsome, failure, hrun, hfailure⟩
  · exact Or.inl h
  · refine Or.inr ⟨hsome, failure, hrun, ?_⟩
    rintro message rfl
    rcases hfailure with hblocked | ⟨entry, -, hraised⟩
    · cases hblocked
    · exact hvalue _ _ hraised

theorem inRange_eq_ok_false {first last : Timestamp} {r : Record} :
    inRange first last r = .ok false ↔ Outside first last r.job.task.createdAt := by
  unfold inRange Outside
  cases first with
  | naive s =>
    refine iff_of_false (fun h => ?_) (fun ⟨s', h, _⟩ => ?_)
    · cases h
    · cases h
  | aware s =>
    show (if decide (s ≤ (r.job.task.createdAt : ℤ)) = true then
      Timestamp.le (.aware r.job.task.createdAt) last else .ok false) = .ok false ↔ _
    by_cases hle : s ≤ (r.job.task.createdAt : ℤ)
    · rw [if_pos (decide_eq_true hle)]
      cases last with
      | naive t =>
        refine iff_of_false (fun h => ?_) ?_
        · cases h
        · rintro ⟨s', hs, hlt | ⟨t', ht, _⟩⟩
          · cases hs
            omega
          · cases ht
      | aware t =>
        show Except.ok (decide ((r.job.task.createdAt : ℤ) ≤ t)) = Except.ok false ↔ _
        constructor
        · intro h
          have hlt : ¬ (r.job.task.createdAt : ℤ) ≤ t :=
            of_decide_eq_false (Except.ok.inj h)
          exact ⟨s, rfl, Or.inr ⟨t, rfl, by omega⟩⟩
        · rintro ⟨s', hs, hlt | ⟨t', ht, hlt⟩⟩
          · cases hs
            omega
          · cases ht
            exact congrArg Except.ok (decide_eq_false (by omega))
    · rw [if_neg (by simpa using hle)]
      exact iff_of_true rfl ⟨s, rfl, Or.inl (by omega)⟩

theorem Timestamp.le_ne_valueError (a b : Timestamp) (message : Text) :
    a.le b ≠ .error (.valueError message) := by
  cases a <;> cases b <;> simp [Timestamp.le]

theorem inRange_ne_valueError (first last : Timestamp) (r : Record) (message : Text) :
    inRange first last r ≠ .error (.valueError message) := by
  intro h
  unfold inRange at h
  dsimp only at h
  cases hfirst : first.le (.aware r.job.task.createdAt) with
  | error failure =>
    rw [hfirst] at h
    cases h
    exact first.le_ne_valueError _ message hfirst
  | ok before =>
    rw [hfirst] at h
    cases before with
    | false => cases h
    | true => exact Timestamp.le_ne_valueError _ last message h

/-! ## The query of the reports -/

/-- What the reports are, by the filter. -/
theorem findReports_eq :
    match filterOf H request with
    | none => ∃ message, findReports H table files request = .error (.valueError message)
    | some (.taskId id) =>
      findReports H table files request = .ok (reportsFor table files (.taskId id))
    | some (.taskName name) =>
      findReports H table files request = collect table files fun r => .ok (r.taskName = name)
    | some (.timeRange first last) =>
      findReports H table files request = collect table files (inRange first last) := by
  unfold filterOf findReports
  by_cases hid : truthy H (get request "task_id") = true
  · simp only [hid, if_true]
    cases get request "task_id" with
    | str id => exact filterReportsByTaskId_free id
    | _ => exact ⟨_, rfl⟩
  simp only [hid]
  by_cases hname : truthy H (get request "task_name") = true
  · simp only [hname, if_true]
    cases get request "task_name" with
    | str name => rfl
    | _ => exact ⟨_, rfl⟩
  simp only [hname]
  cases get request "time_range" with
  | dict range =>
    simp only [filterReportsByTimeRange]
    cases readRange H range with
    | error message => exact ⟨_, rfl⟩
    | ok times => rfl
  | _ => exact ⟨_, rfl⟩

/-- A request without a filter. -/
theorem filterOf_of_falsy (hany : (truthy H (get request "task_id") ||
    truthy H (get request "task_name") || truthy H (get request "time_range")) = false) :
    filterOf H request = none := by
  simp only [Bool.or_eq_false_iff] at hany
  obtain ⟨⟨hid, hname⟩, hrange⟩ := hany
  unfold filterOf
  rw [hid, hname]
  simp only [Bool.false_eq_true, if_false]
  cases hvalue : get request "time_range" with
  | dict range =>
    rw [hvalue] at hrange
    cases range with
    | nil => rfl
    | cons member members => cases hrange
  | _ => rfl

theorem reportsFor_taskName_nil {name : Text} (h : ∀ entry ∈ table, entry.2.taskName ≠ name) :
    (reportsFor table files (.taskName name) : List (Value F)) = [] := by
  have hnone : selected table (.taskName name) = [] :=
    List.filter_eq_nil_iff.mpr fun entry hentry => by simpa using h entry hentry
  rw [reportsFor, hnone]
  rfl

theorem reportsFor_timeRange_nil {first last : Timestamp}
    (h : ∀ entry ∈ table, Outside first last entry.2.job.task.createdAt) :
    (reportsFor table files (.timeRange first last) : List (Value F)) = [] := by
  have hnone : selected table (.timeRange first last) = [] := by
    refine List.filter_eq_nil_iff.mpr fun entry hentry hin => ?_
    obtain ⟨hfirst, hlast⟩ := of_decide_eq_true hin
    obtain ⟨s, rfl, hbefore | ⟨t, rfl, hafter⟩⟩ := h entry hentry
    · exact absurd hfirst (not_le.mpr hbefore)
    · exact absurd hlast (not_le.mpr hafter)
  rw [reportsFor, hnone]
  rfl

theorem get_errorResponse (message : Text) :
    get (errorResponse message : Dict F) "process_result" ≠ .str (chars "success") := by
  rw [errorResponse, get, List.lookup_cons_self]
  intro h
  have htext : chars "error" = chars "success" := Value.str.inj h
  exact absurd htext (by decide)

/-- A filter by a loop is answered exactly when it accepts no task. -/
theorem collect_answered_iff {accepts : Record → Except Failure Bool} {filter : Filter}
    (hfilter : filterOf H request = some filter)
    (hvalue : ∀ r message, accepts r ≠ .error (.valueError message))
    (hempty : (∀ entry ∈ table, accepts entry.2 = .ok false) →
      (reportsFor table files filter : List (Value F)) = []) :
    (∃ response, answerReports (collect table files accepts) = .ok response ∧
      Lists H table files request response) ↔ ∀ entry ∈ table, accepts entry.2 = .ok false := by
  rcases @collect_cases F table files accepts hvalue with
    ⟨hall, hrun⟩ | ⟨hsome, failure, hrun, hother⟩
  · rw [hrun]
    refine iff_of_true ⟨_, rfl, answers_success _, fun _ => ⟨filter, hfilter, ?_⟩⟩ hall
    rw [hempty hall]
  · rw [hrun]
    refine iff_of_false (fun ⟨response, h, _⟩ => ?_) hsome
    cases failure with
    | valueError message => exact hother message rfl
    | raised e => cases h
    | blocked => cases h

/-- The query of the reports returns, and lists what its filter selects, exactly when its loop comes
to an end. -/
theorem fuzzTestReportQuery_returns_iff :
    (∃ response, fuzzTestReportQuery H table files request = .ok response ∧
      Lists H table files request response) ↔ LoopsEnd H table request := by
  unfold fuzzTestReportQuery LoopsEnd
  cases hany : (truthy H (get request "task_id") || truthy H (get request "task_name") ||
      truthy H (get request "time_range")) with
  | false =>
    rw [filterOf_of_falsy hany]
    exact iff_of_true ⟨_, rfl, answers_error _, fun h => absurd h (get_errorResponse _)⟩ trivial
  | true =>
    show (∃ response, answerReports (findReports H table files request) = .ok response ∧ _) ↔ _
    have hfind := @findReports_eq F H table files request
    cases hfilter : filterOf H request with
    | none =>
      rw [hfilter] at hfind
      obtain ⟨message, hmessage⟩ := hfind
      rw [hmessage]
      exact iff_of_true ⟨_, rfl, answers_error _, fun h => absurd h (get_errorResponse _)⟩ trivial
    | some filter =>
      rw [hfilter] at hfind
      cases filter with
      | taskId id =>
        simp only at hfind
        rw [hfind]
        exact iff_of_true ⟨_, rfl, answers_success _, fun _ => ⟨_, hfilter, rfl⟩⟩ trivial
      | taskName name =>
        simp only at hfind
        have hpasses (r : Record) : (Except.ok (decide (r.taskName = name)) : Except Failure Bool) =
            .ok false ↔ r.taskName ≠ name := by simp
        rw [hfind, collect_answered_iff hfilter (fun r message h => by cases h)
          fun hall => reportsFor_taskName_nil fun entry he => (hpasses _).mp (hall entry he)]
        simp only [hpasses]
      | timeRange first last =>
        simp only at hfind
        rw [hfind, collect_answered_iff hfilter (inRange_ne_valueError first last)
          fun hall => reportsFor_timeRange_nil fun entry he =>
            inRange_eq_ok_false.mp (hall entry he)]
        simp only [inRange_eq_ok_false]

end Loops

/-! ## The three calls -/

/-- The three calls return a response, and the report query lists what its filter selects, exactly
when the files of the task that is asked for are well formed and the filter by name or by time
finds no task and compares no time without a zone. -/
theorem queries_total (H : Host F) (table : Table) (files : Files) (request : Dict F)
    (outcome : StopOutcome) (now : ℕ) :
    Total H table files request outcome now ↔
      FilesRead H table files request ∧ LoopsEnd H table request := by
  rw [← fuzzTestQuery_returns_iff, ← fuzzTestReportQuery_returns_iff]
  constructor
  · intro h
    exact ⟨h.query, h.reports⟩
  · intro h
    exact ⟨h.1, fuzzTestStop_returns table request outcome now, h.2⟩

/-! ## A task that makes the calls fail -/

/-- A task named `t` that has just been submitted. -/
def submitted : Record where
  job := ⟨⟨ascii "t", .created, 1767225600000000, none, none, none, none, false⟩, .start, .absent⟩
  targetEndpoint := chars "e"
  outDir := chars "out/api_a_t"
  outDirAbs := chars "/repo/out/api_a_t"

/-- A host that reads one time without a zone. -/
def plainHost : Host JsonCodec.Special where
  interp := plainInterp
  floatTruthy _ := true
  fromisoformat s :=
    if s = chars "2026-01-01" then .ok (.naive 1767225600000000)
    else .error (chars "Invalid isoformat string")
  isoformat _ := chars "2026-01-01T00:00:00+00:00"

/-- The four ways out: a byte in `fuzzer_stats` that is not UTF-8, a report that is no object, the
name of a task, and a time range without a zone. -/
theorem calls_fail :
    let table : Table := [(chars "a", submitted)]
    let query : Dict JsonCodec.Special := [(chars "task_id", .str (chars "a"))]
    let range : Dict JsonCodec.Special :=
      [(chars "start", .str (chars "2026-01-01")), (chars "end", .str (chars "2026-01-01"))]
    fuzzTestQuery plainHost table (fun _ => some ⟨none, some ⟨[0xFF], []⟩⟩) query =
      .error (.raised .unicodeDecodeError) ∧
    fuzzTestQuery plainHost table (fun _ => some ⟨some ⟨ascii "[]", []⟩, none⟩) query =
      .error (.raised .attributeError) ∧
    fuzzTestReportQuery plainHost table (fun _ => none) [(chars "task_name", .str (chars "t"))] =
      .error .blocked ∧
    fuzzTestReportQuery plainHost table (fun _ => none) [(chars "time_range", .dict range)] =
      .error (.raised .typeError) :=
  ⟨rfl, rfl, rfl, rfl⟩

end AflNv.ApiQueries
