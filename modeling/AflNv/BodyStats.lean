import AflNv.BodyValidate
import AflNv.HarnessRequest
import AflNv.Lib.Tally
import AflNv.MultipartUpload
import AflNv.RuntimeBinding

/-!
# The statistics of the body validation

`nv_http_harness.py` counts in a shared file what the rules and the scorer said about each body.
`bump_body_valid_stat` reads the file, adds one and writes the file again, without the lock that
`next_exec_seq` takes for the same purpose.

* `bodyOnly`, `fullHttp` and `multipart` are the bumps of one invocation in the three flows.
* `Accounted` is what the counters should say about an invocation, and `accounted_iff` when the
  bumps of an invocation say it: a flow that ends without a verdict or with two of them does not.
* `stats_accounting`: in every run of invocations whose bumps do not overlap, the counters hold what
  they held at first and all bumps.
* `stats_unaccounted`: an upload can go without a count or have two, and a bump can be lost.
-/

namespace AflNv

open AflNv.Lib

namespace BodyStats

open AflNv.Lib.JsonCodec (Text Value chars)
open AflNv.PythonJson
open AflNv.BodyRules (FloatEq)
open AflNv.BodyValidate (Rules Result Scoring Scenario bodyValidate)
open AflNv.DecisionEngine (Config pyLe)
open AflNv.RuntimeBinding (bindRuntimeBodyParameter resolveNamedEndpoint)

variable {F : Type}

/-! ## The counters -/

/-- The counters; `kind` of `bump_body_valid_stat`. -/
inductive Kind where
  | rulePass
  | ruleReject
  | scorePass
  | scoreReject
  | scoreRpcOk
  | scoreRpcFail
  deriving DecidableEq

def Kind.name : Kind → Text
  | .rulePass => chars "body_rule_pass"
  | .ruleReject => chars "body_rule_reject"
  | .scorePass => chars "body_score_pass"
  | .scoreReject => chars "body_score_reject"
  | .scoreRpcOk => chars "body_score_rpc_ok"
  | .scoreRpcFail => chars "body_score_rpc_fail"

/-- The keys of `stats`, in their order. -/
def kinds : List Kind :=
  [.rulePass, .ruleReject, .scorePass, .scoreReject, .scoreRpcOk, .scoreRpcFail]

abbrev Stats := Kind → ℤ

/-- The counters with one bump. -/
def bumped (k : Kind) : Stats := fun k' => if k' = k then 1 else 0

/-- Python with `int(v)`, which may raise. -/
structure Reader (F : Type) where
  interp : Interp F
  toInt : Value F → Option ℤ
  toInt_int : ∀ i, toInt (.int i) = some i

/-- The counters of a file; a file that cannot be read holds none. -/
def readStats (R : Reader F) (file : Option Bytes) : Stats := fun k =>
  match file.bind (loadsBytes R.interp) with
  | some (.dict ms) => ((ms.lookup k.name).bind R.toInt).getD 0
  | _ => 0

def statsValue (s : Stats) : Value F := .dict (kinds.map fun k => (k.name, .int (s k)))

def statsText (R : Reader F) (s : Stats) : Text :=
  JsonCodec.dumps R.interp.floats plainStyle (statsValue s)

/-- A write at the beginning of a file of which `n` bytes reach it. -/
def overwrite (new : Bytes) (n : ℕ) (old : Bytes) : Bytes :=
  new.take n ++ old.drop (min n new.length)

/-- The file as the shared cell. -/
def statsFile (R : Reader F) : Tally.Cell Kind (Option Bytes) Stats where
  load := readStats R
  clear := some []
  put s n file := some (overwrite (Utf8.encode (statsText R s)) n (file.getD []))
  amount := bumped

/-! ## The body of a request -/

/-- `line.split(b"\n", 1)[0].removesuffix(b"\r").split()` -/
def requestParts (data : Bytes) : List Bytes :=
  let line := data.takeWhile (· ≠ 10)
  let line := if line.getLast? = some 13 then line.dropLast else line
  (line.splitOnP isspace).filter (· ≠ [])

def hasHttpRequestLine (data : Bytes) : Bool :=
  match requestParts data with
  | _ :: target :: _ => target.head? = some 47
  | _ => false

/-- The place of the first blank line and of what is behind it. -/
def envelopeEnd (testcase : Bytes) : Option (Bytes × Bytes) :=
  match Substring.cut [13, 10, 13, 10] testcase, Substring.cut [10, 10] testcase with
  | some crlf, some lf => some (if crlf.1.length < lf.1.length then crlf else lf)
  | some crlf, none => some crlf
  | none, lf => lf

/-- `extract_http_body`; `none` is an `HttpBodyAdapterError`. -/
def extractHttpBody (testcase : Bytes) : Option Bytes :=
  match envelopeEnd testcase with
  | none => none
  | some (envelope, body) =>
    if envelope = [] ∨ hasHttpRequestLine envelope = false ∨ body = [] then none else some body

/-- The body that `main` validates in body-only mode. -/
def validationBody (data : Bytes) : Option Bytes :=
  if hasHttpRequestLine data then extractHttpBody data else some data

/-! ## The three flows -/

/-- The scorer, if one is configured: the score of what is sent to it, unless the call fails. -/
abbrev ScoreEndpoint (α : Type) := Option (α → Option (PyFloat ℚ))

/-- `score_threshold is not None and score >= score_threshold` -/
def reaches (threshold : Option (PyFloat ℚ)) (score : PyFloat ℚ) : Bool :=
  threshold.any fun t => pyLe t score

/-- An invocation in body-only mode. -/
structure BodyOnly (F : Type) where
  interp : Interp F
  floatEq : FloatEq F
  env : RuntimeBinding.Env F
  endpoints : List (Value F)
  endpointName : Text
  /-- The context of the run; without `NV_CTX_PATH` there is none. -/
  context : Option (Dict F)
  rules : Rules F
  scenario : Scenario
  scoreEndpoint : ScoreEndpoint Bytes
  decisionConfig : Option Config
  decisionEnv : DecisionEngine.Env
  data : Bytes

def BodyOnly.scoring (b : BodyOnly F) : Scoring where
  scorer body := b.scoreEndpoint.bind fun reply => reply body
  config := b.decisionConfig
  env := b.decisionEnv

/-- The endpoint that the invocation is for, with the context path that it needs. -/
def BodyOnly.endpoint (b : BodyOnly F) : Option (Dict F) :=
  if b.endpointName = [] then none
  else match resolveNamedEndpoint b.env b.endpoints b.context b.endpointName with
    | .error _ => none
    | .ok (_, ep) =>
      match ep.get (chars "capture_document_id"), b.context with
      | some (.bool true), none => none
      | _, _ => some ep

/-- What the validation says of a body, if it returns. -/
def BodyOnly.result (b : BodyOnly F) (ep : Dict F) (body : Bytes) : Option (Result F) :=
  match bindRuntimeBodyParameter b.interp b.env ep body with
  | .error _ => none
  | .ok body =>
    (bodyValidate b.interp b.floatEq b.rules b.scoring b.endpointName b.scenario body).toOption

/-- `endpoint_config.get("transport") == "url_query"` -/
def queryTransport (ep : Dict F) : Bool :=
  match ep.get (chars "transport") with
  | some (.str s) => s = chars "url_query"
  | _ => false

/-- A query object without a body. -/
def isQueryOnly (r : Result F) : Bool :=
  match r.query, r.body with
  | some (.dict _), none => true
  | _, _ => false

/-- The bumps that follow the validation. -/
def resultBumps (scored urlQuery : Bool) (r : Result F) : List Kind :=
  if r.ok then
    .rulePass ::
      ((if scored then
          if r.scoreRpcOk then [.scoreRpcOk, .scorePass] else [.scoreRpcFail]
        else []) ++
      if urlQuery ∧ isQueryOnly r = false then [.ruleReject] else [])
  else if r.reason = chars "score_reject" then [.rulePass, .scoreRpcOk, .scoreReject]
  else [.ruleReject]

/-- The branch of `main` for body-only mode. -/
def bodyOnly (b : BodyOnly F) : List Kind :=
  match b.endpoint with
  | none => []
  | some ep =>
    match validationBody b.data with
    | none => [.ruleReject]
    | some body =>
      match b.result ep body with
      | none => []
      | some r => resultBumps b.scoreEndpoint.isSome (queryTransport ep) r

/-- An invocation in full-HTTP mode. -/
structure FullHttp where
  scoreEndpoint : ScoreEndpoint Bytes
  threshold : Option (PyFloat ℚ)
  data : Bytes

/-- The branch of `main` for full-HTTP mode. -/
def fullHttp (h : FullHttp) : List Kind :=
  let body := (parseHttpSeed h.data).body
  match h.scoreEndpoint with
  | none => []
  | some reply =>
    if body = [] then []
    else match reply body with
      | none => [.scoreRpcFail]
      | some score =>
        [.scoreRpcOk, if reaches h.threshold score then .scoreReject else .scorePass]

/-- An invocation for a multipart upload.  `publishes` says that the record of a rejection can be
written, `uploads` that the upload and its record raise nothing; `scoreEndpoint` answers what is
sent to the scorer for an upload. -/
structure Multipart where
  parentConfigured : Bool
  scoreEndpoint : ScoreEndpoint MultipartSeed
  threshold : Option (PyFloat ℚ)
  publishes : Bool
  uploads : Bool
  data : Bytes

/-- The seed that `run_multipart_seed` does not reject on its own. -/
def admittedSeed (data : Bytes) : Option MultipartSeed :=
  match parseMultipartHttpSeed data with
  | .error _ => none
  | .ok seed =>
    if seed.fields.lookup (ascii "name") ≠ some (seed.filename.map UInt8.toNat) then none
    else if seed.fields.lookup (ascii "nodeType") ≠ some (chars "cm:content") then none
    else if seed.fileBytes = [] then none
    else if 4096 < seed.fileBytes.length ∨ 0 ∈ seed.fileBytes then none
    else if Utf8.decode seed.fileBytes = none then none
    else some seed

/-- `run_multipart_seed`: its bumps and the `validation_reject` of its result, unless it raises. -/
def runMultipartSeed (m : Multipart) : List Kind × Option Bool :=
  let rejected := if m.publishes then some true else none
  let uploaded := if m.uploads then some false else none
  match admittedSeed m.data with
  | none => ([], rejected)
  | some seed =>
    match m.scoreEndpoint with
    | none => ([], uploaded)
    | some reply =>
      match reply seed with
      | none => ([.scoreRpcFail], rejected)
      | some score =>
        if reaches m.threshold score then ([.rulePass, .scoreRpcOk, .scoreReject], rejected)
        else ([.rulePass, .scoreRpcOk, .scorePass], uploaded)

/-- The branch of `main` for multipart uploads. -/
def multipart (m : Multipart) : List Kind :=
  if m.parentConfigured then
    match runMultipartSeed m with
    | (bumps, some true) => bumps ++ [.ruleReject]
    | (bumps, _) => bumps
  else []

inductive Invocation (F : Type) where
  | bodyOnly (b : BodyOnly F)
  | fullHttp (h : FullHttp)
  | multipart (m : Multipart)

/-- The bumps of an invocation, in order. -/
def bumps : Invocation F → List Kind
  | .bodyOnly b => BodyStats.bodyOnly b
  | .fullHttp h => BodyStats.fullHttp h
  | .multipart m => BodyStats.multipart m

/-! ## What the counters should say -/

/-- The flows whose bodies the rules judge. -/
def Invocation.Ruled : Invocation F → Prop
  | .fullHttp _ => False
  | _ => True

/-- The score of a body that passes the rules is the one cause of its rejection. -/
def Invocation.ScoreRejects : Invocation F → Prop
  | .bodyOnly b => ∃ ep body r, b.endpoint = some ep ∧ validationBody b.data = some body ∧
      b.result ep body = some r ∧ r.ok = false ∧ r.reason = chars "score_reject"
  | .fullHttp _ => False
  | .multipart m => m.parentConfigured ∧ ∃ seed reply score, admittedSeed m.data = some seed ∧
      m.scoreEndpoint = some reply ∧ reply seed = some score ∧ reaches m.threshold score

/-- What an invocation should add to the counters. -/
structure Accounted (inv : Invocation F) (grew : Stats) : Prop where
  rule : inv.Ruled → (grew .rulePass = 1 ∧ grew .ruleReject = 0) ∨
    (grew .rulePass = 0 ∧ grew .ruleReject = 1)
  score : grew .scorePass + grew .scoreReject = grew .scoreRpcOk ∧
    (grew .scoreRpcOk = 0 ∨ grew .scoreRpcOk = 1)
  rpc : grew .scoreRpcOk = 0 ∨ grew .scoreRpcFail = 0
  onlyScore : inv.ScoreRejects → grew .ruleReject = 0

/-- The invocation comes to a verdict, and to one only. -/
def Invocation.Judged : Invocation F → Prop
  | .bodyOnly b => ∃ ep, b.endpoint = some ep ∧ ∀ body, validationBody b.data = some body →
      ∃ r, b.result ep body = some r ∧
        (r.ok = true → queryTransport ep = true → isQueryOnly r = true)
  | .fullHttp _ => True
  | .multipart m => m.parentConfigured = true ∧
      match admittedSeed m.data with
      | none => m.publishes = true
      | some seed => ∃ reply, m.scoreEndpoint = some reply ∧
          match reply seed with
          | none => m.publishes = true
          | some score => reaches m.threshold score = true → m.publishes = false

/-- What a list of bumps adds. -/
def tally (ks : List Kind) : Stats := (ks.map bumped).sum

@[simp] theorem tally_nil : tally [] = 0 := rfl

@[simp] theorem tally_cons (k : Kind) (ks : List Kind) (k' : Kind) :
    tally (k :: ks) k' = (if k' = k then 1 else 0) + tally ks k' := rfl

/-! ## One invocation -/

/-- The scorer is not asked, or it answers, or it fails. -/
theorem scored_cases (scored rpcOk : Bool) {ks : List Kind}
    (h : ks = if scored then if rpcOk then [.scoreRpcOk, .scorePass] else [.scoreRpcFail] else []) :
    ks = [] ∨ ks = [.scoreRpcOk, .scorePass] ∨ ks = [.scoreRpcFail] := by
  split_ifs at h
  · exact .inr (.inl h)
  · exact .inr (.inr h)
  · exact .inl h

/-- A body that the validation accepts and the transport rejects is counted twice. -/
theorem accounted_resultBumps {inv : Invocation F} (hruled : inv.Ruled) {scored urlQuery : Bool}
    {r : Result F} (hscore : inv.ScoreRejects → r.ok = false ∧ r.reason = chars "score_reject") :
    Accounted inv (tally (resultBumps scored urlQuery r)) ↔
      (r.ok = true → urlQuery = true → isQueryOnly r = true) := by
  rw [resultBumps]
  by_cases hok : r.ok = true
  · have honly : ¬ inv.ScoreRejects := fun h => Bool.false_ne_true ((hscore h).1.symm.trans hok)
    rw [if_pos hok]
    generalize hks : (if scored = true then if r.scoreRpcOk = true then
      [Kind.scoreRpcOk, .scorePass] else [.scoreRpcFail] else []) = ks
    have hcases := scored_cases scored r.scoreRpcOk hks.symm
    by_cases hreject : urlQuery = true ∧ isQueryOnly r = false
    · rw [if_pos hreject]
      refine iff_of_false (fun h => ?_) fun h => ?_
      · have htwice : tally (Kind.rulePass :: (ks ++ [.ruleReject])) .rulePass = 1 ∧
            tally (Kind.rulePass :: (ks ++ [.ruleReject])) .ruleReject = 1 := by
          rcases hcases with rfl | rfl | rfl <;> exact ⟨rfl, rfl⟩
        rcases h.rule hruled with ⟨-, h⟩ | ⟨h, -⟩
        · exact absurd (htwice.2.symm.trans h) (by decide)
        · exact absurd (htwice.1.symm.trans h) (by decide)
      · exact Bool.false_ne_true (hreject.2.symm.trans (h hok hreject.1))
    · rw [if_neg hreject, List.append_nil]
      refine iff_of_true ?_ fun _ hurl => ?_
      · rcases hcases with rfl | rfl | rfl
        · exact ⟨fun _ => .inl ⟨rfl, rfl⟩, ⟨rfl, .inl rfl⟩, .inl rfl, fun h => (honly h).elim⟩
        · exact ⟨fun _ => .inl ⟨rfl, rfl⟩, ⟨rfl, .inr rfl⟩, .inr rfl, fun h => (honly h).elim⟩
        · exact ⟨fun _ => .inl ⟨rfl, rfl⟩, ⟨rfl, .inl rfl⟩, .inl rfl, fun h => (honly h).elim⟩
      · exact eq_true_of_ne_false fun h => hreject ⟨hurl, h⟩
  · rw [if_neg hok]
    refine iff_of_true ?_ fun h => absurd h hok
    split_ifs with hreason
    · exact ⟨fun _ => .inl ⟨rfl, rfl⟩, ⟨rfl, .inr rfl⟩, .inr rfl, fun _ => rfl⟩
    · exact ⟨fun _ => .inr ⟨rfl, rfl⟩, ⟨rfl, .inl rfl⟩, .inl rfl,
        fun h => absurd (hscore h).2 hreason⟩

theorem accounted_bodyOnly (b : BodyOnly F) :
    Accounted (.bodyOnly b) (tally (bodyOnly b)) ↔ (Invocation.bodyOnly b).Judged := by
  have hnothing : ¬ Accounted (.bodyOnly b) (tally []) := fun h => by
    rcases h.rule trivial with ⟨h, -⟩ | ⟨-, h⟩ <;> exact absurd h (by decide)
  rw [bodyOnly]
  cases hep : b.endpoint with
  | none =>
    refine iff_of_false hnothing ?_
    rintro ⟨ep, h, -⟩
    exact nomatch hep.symm.trans h
  | some ep =>
    cases hbody : validationBody b.data with
    | none =>
      refine iff_of_true ⟨fun _ => .inr ⟨rfl, rfl⟩, ⟨rfl, .inl rfl⟩, .inl rfl, ?_⟩ ?_
      · rintro ⟨_, body, _, -, h, -⟩
        exact nomatch hbody.symm.trans h
      · exact ⟨ep, hep, fun body h => nomatch hbody.symm.trans h⟩
    | some body =>
      dsimp only
      cases hr : b.result ep body with
      | none =>
        refine iff_of_false hnothing ?_
        rintro ⟨ep', hep', h⟩
        obtain rfl := Option.some.inj (hep.symm.trans hep')
        obtain ⟨r, hr', -⟩ := h body hbody
        exact nomatch hr.symm.trans hr'
      | some r =>
        have hscore : (Invocation.bodyOnly b).ScoreRejects →
            r.ok = false ∧ r.reason = chars "score_reject" := by
          rintro ⟨ep', body', r', hep', hbody', hr', h⟩
          obtain rfl := Option.some.inj (hep.symm.trans hep')
          obtain rfl := Option.some.inj (hbody.symm.trans hbody')
          obtain rfl := Option.some.inj (hr.symm.trans hr')
          exact h
        dsimp only
        rw [accounted_resultBumps (show (Invocation.bodyOnly b).Ruled from trivial) hscore]
        refine ⟨fun h => ⟨ep, hep, fun body' hbody' => ?_⟩, ?_⟩
        · obtain rfl := Option.some.inj (hbody.symm.trans hbody')
          exact ⟨r, hr, h⟩
        · rintro ⟨ep', hep', h⟩
          obtain rfl := Option.some.inj (hep.symm.trans hep')
          obtain ⟨r', hr', h⟩ := h body hbody
          obtain rfl := Option.some.inj (hr.symm.trans hr')
          exact h

theorem accounted_fullHttp (h : FullHttp) :
    Accounted (Invocation.fullHttp h : Invocation F) (tally (fullHttp h)) := by
  have hnone : Accounted (Invocation.fullHttp h : Invocation F) (tally []) :=
    ⟨False.elim, ⟨rfl, .inl rfl⟩, .inl rfl, False.elim⟩
  rw [fullHttp]
  split
  · exact hnone
  · split_ifs
    · exact hnone
    · split
      · exact ⟨False.elim, ⟨rfl, .inl rfl⟩, .inl rfl, False.elim⟩
      · split_ifs
        · exact ⟨False.elim, ⟨rfl, .inr rfl⟩, .inr rfl, False.elim⟩
        · exact ⟨False.elim, ⟨rfl, .inr rfl⟩, .inr rfl, False.elim⟩

/-- The bumps of an upload, after the record of its rejection if that could be written. -/
theorem multipart_eq {m : Multipart} (hparent : m.parentConfigured = true) :
    multipart m =
      match admittedSeed m.data with
      | none => if m.publishes then [.ruleReject] else []
      | some seed =>
        match m.scoreEndpoint with
        | none => []
        | some reply =>
          match reply seed with
          | none => .scoreRpcFail :: if m.publishes then [.ruleReject] else []
          | some score =>
            if reaches m.threshold score then
              [.rulePass, .scoreRpcOk, .scoreReject] ++ if m.publishes then [.ruleReject] else []
            else [.rulePass, .scoreRpcOk, .scorePass] := by
  rw [multipart, if_pos hparent, runMultipartSeed]
  cases admittedSeed m.data with
  | none => cases m.publishes <;> rfl
  | some seed =>
    cases m.scoreEndpoint with
    | none => cases m.uploads <;> rfl
    | some reply =>
      dsimp only
      cases reply seed with
      | none => cases m.publishes <;> rfl
      | some score =>
        dsimp only
        split_ifs <;> rfl

theorem accounted_multipart (m : Multipart) :
    Accounted (Invocation.multipart m : Invocation F) (tally (multipart m)) ↔
      (Invocation.multipart m : Invocation F).Judged := by
  have hnot (ks : List Kind) (h : ¬ ((tally ks .rulePass = 1 ∧ tally ks .ruleReject = 0) ∨
      (tally ks .rulePass = 0 ∧ tally ks .ruleReject = 1))) :
      ¬ Accounted (Invocation.multipart m : Invocation F) (tally ks) := fun hacc =>
    h (hacc.rule trivial)
  by_cases hparent : m.parentConfigured = true
  · have hjudged : (Invocation.multipart m : Invocation F).Judged ↔ _ := and_iff_right hparent
    rw [multipart_eq hparent, hjudged]
    cases hseed : admittedSeed m.data with
    | none =>
      cases hpublishes : m.publishes with
      | false => exact iff_of_false (hnot [] (by decide)) Bool.false_ne_true
      | true =>
        refine iff_of_true ⟨fun _ => .inr ⟨rfl, rfl⟩, ⟨rfl, .inl rfl⟩, .inl rfl, ?_⟩ rfl
        rintro ⟨-, seed, _, _, h, -⟩
        exact nomatch hseed.symm.trans h
    | some seed =>
      cases hscorer : m.scoreEndpoint with
      | none => exact iff_of_false (hnot [] (by decide)) nofun
      | some reply =>
        have hreplied : (Invocation.multipart m : Invocation F).ScoreRejects →
            ∃ score, reply seed = some score ∧ reaches m.threshold score = true := by
          rintro ⟨-, seed', reply', score, hseed', hscorer', h⟩
          obtain rfl := Option.some.inj (hseed.symm.trans hseed')
          obtain rfl := Option.some.inj (hscorer.symm.trans hscorer')
          exact ⟨score, h⟩
        dsimp only
        cases hreply : reply seed with
        | none =>
          cases hpublishes : m.publishes with
          | false =>
            refine iff_of_false (hnot [.scoreRpcFail] (by decide)) ?_
            rintro ⟨reply', hreply', h⟩
            obtain rfl := Option.some.inj hreply'
            rw [hreply] at h
            exact nomatch h
          | true =>
            refine iff_of_true ⟨fun _ => .inr ⟨rfl, rfl⟩, ⟨rfl, .inl rfl⟩, .inl rfl, ?_⟩
              ⟨reply, rfl, by rw [hreply]⟩
            intro h
            obtain ⟨score, h, -⟩ := hreplied h
            exact nomatch hreply.symm.trans h
        | some score =>
          dsimp only
          cases hreaches : reaches m.threshold score with
          | false =>
            refine iff_of_true ⟨fun _ => .inl ⟨rfl, rfl⟩, ⟨rfl, .inr rfl⟩, .inr rfl, fun _ => rfl⟩
              ⟨reply, rfl, ?_⟩
            rw [hreply]
            exact fun h => nomatch hreaches.symm.trans h
          | true =>
            cases hpublishes : m.publishes with
            | false =>
              refine iff_of_true
                ⟨fun _ => .inl ⟨rfl, rfl⟩, ⟨rfl, .inr rfl⟩, .inr rfl, fun _ => rfl⟩
                ⟨reply, rfl, ?_⟩
              rw [hreply]
              exact fun _ => rfl
            | true =>
              refine iff_of_false
                (hnot [.rulePass, .scoreRpcOk, .scoreReject, .ruleReject] (by decide)) ?_
              rintro ⟨reply', hreply', h⟩
              obtain rfl := Option.some.inj hreply'
              rw [hreply] at h
              exact nomatch h hreaches
  · refine iff_of_false ?_ fun h => hparent h.1
    rw [multipart, if_neg hparent]
    exact hnot [] (by decide)

/-- The bumps of an invocation account for it exactly if it comes to one verdict. -/
theorem accounted_iff (inv : Invocation F) : Accounted inv (tally (bumps inv)) ↔ inv.Judged := by
  cases inv with
  | bodyOnly b => exact accounted_bodyOnly b
  | fullHttp h => exact iff_of_true (accounted_fullHttp h) trivial
  | multipart m => exact accounted_multipart m

/-! ## The file -/

/-- What was written is short enough to reach the file and is not refused when it is read. -/
def Stored (R : Reader F) (s : Stats) (n : ℕ) : Prop :=
  (Utf8.encode (statsText R s)).length ≤ n ∧ R.interp.refuses (statsText R s) = false

theorem statsValue_wf (s : Stats) : (statsValue s : Value F).Wf := by
  have hkeys : ∀ k : Kind, JsonCodec.IsStr k.name := by
    intro k
    cases k <;> exact ⟨by decide, by decide⟩
  exact ⟨by show (kinds.map Kind.name).Nodup; decide, hkeys _, trivial, hkeys _, trivial, hkeys _,
    trivial, hkeys _, trivial, hkeys _, trivial, hkeys _, trivial, trivial⟩

theorem encodable_statsValue (s : Stats) : encodable (statsValue s : Value F) = true := rfl

theorem lookup_statsValue (s : Stats) (k : Kind) :
    (kinds.map fun k => (k.name, (.int (s k) : Value F))).lookup k.name = some (.int (s k)) := by
  cases k <;> rfl

theorem load_statsFile (R : Reader F) : (statsFile R).load = readStats R := rfl

/-- The counters are read back. -/
theorem load_put (R : Reader F) (s : Stats) (n : ℕ) (h : Stored R s n) :
    (statsFile R).load ((statsFile R).put s n (statsFile R).clear) = s := by
  have hfile : overwrite (Utf8.encode (statsText R s)) n [] = Utf8.encode (statsText R s) := by
    rw [overwrite, List.drop_nil, List.append_nil]
    exact List.take_of_length_le h.1
  have hload : loadsBytes R.interp (Utf8.encode (statsText R s)) = some (statsValue s) :=
    (loadsBytes_dumps R.interp rfl (statsValue_wf s) (encodable_statsValue s)).trans
      (if_neg (Bool.eq_false_iff.mp h.2))
  show readStats R (some (overwrite (Utf8.encode (statsText R s)) n [])) = s
  funext k
  rw [hfile, readStats, Option.bind_some, hload]
  show (((kinds.map fun k => (k.name, (.int (s k) : Value F))).lookup k.name).bind
    R.toInt).getD 0 = _
  rw [lookup_statsValue, Option.bind_some, R.toInt_int]
  rfl

/-! ## Runs -/

abbrev World (F : Type) := Tally.World (Invocation F) Kind (Option Bytes) Stats

abbrev Event (F : Type) := Tally.Event (Invocation F)

/-- Any number of invocations with one file. -/
def step (R : Reader F) (w : World F) (e : Event F) : Unit × World F :=
  Tally.step (statsFile R) bumps w e

/-- No bump begins before the end of another one, every bump can read and write the file, and every
invocation comes to one verdict. -/
def Careful (R : Reader F) (w : World F) (e : Event F) : Prop :=
  Tally.Exclusive (Stored R) w e ∧ ∀ inv, e = .start inv → inv.Judged

theorem judged_of_meets {R : Reader F} {file : Option Bytes} {es : List (Event F)}
    (h : Machine.Meets (step R) (Careful R) ⟨file, []⟩ es) :
    ∀ p ∈ (Machine.run (step R) ⟨file, []⟩ es).procs, p.tag.Judged :=
  Machine.run_inv_of_meets (step R) (Careful R) (fun w => ∀ p ∈ w.procs, p.tag.Judged)
    (fun _ _ hw he => Tally.forall_tag_step hw he.2) (fun _ hp => absurd hp List.not_mem_nil) h

theorem inv_of_meets {R : Reader F} {file : Option Bytes} {es : List (Event F)}
    (h : Machine.Meets (step R) (Careful R) ⟨file, []⟩ es) :
    Tally.Inv (statsFile R) bumps (readStats R file) (Machine.run (step R) ⟨file, []⟩ es) :=
  Tally.run_inv (load_put R) file (Machine.meets_and_forall.mp h).1

theorem total_eq (R : Reader F) (w : World F) :
    w.total (statsFile R) = (w.procs.map fun p => tally p.done).sum := rfl

/-- In every run of careful steps each invocation that has ended is accounted for, the counters hold
the bumps of all invocations, and what they gained while one invocation ran alone accounts for
it. -/
theorem stats_accounting (R : Reader F) (file : Option Bytes) {es : List (Event F)}
    (h : Machine.Meets (step R) (Careful R) ⟨file, []⟩ es) :
    let w := Machine.run (step R) ⟨file, []⟩ es
    (∀ p ∈ w.procs, p.todo = [] → Accounted p.tag (tally p.done)) ∧
    (w.Quiet → readStats R w.cell =
      readStats R file + (w.procs.map fun p => tally p.done).sum) ∧
    ∀ es₁ es₂ p, es = es₁ ++ es₂ →
      let w₁ := Machine.run (step R) ⟨file, []⟩ es₁
      w₁.Quiet → w.Quiet → w.procs = w₁.procs ++ [p] → p.todo = [] →
        Accounted p.tag (readStats R w.cell - readStats R w₁.cell) := by
  dsimp only
  have hinv := inv_of_meets h
  have hended : ∀ p ∈ (Machine.run (step R) ⟨file, []⟩ es).procs, p.todo = [] →
      Accounted p.tag (tally p.done) := fun p hp htodo => by
    have hledger := hinv.ledger p hp
    rw [htodo, List.append_nil] at hledger
    rw [hledger]
    exact (accounted_iff p.tag).mpr (judged_of_meets h p hp)
  refine ⟨hended, hinv.load_cell, fun es₁ es₂ p hes hquiet₁ hquiet hprocs htodo => ?_⟩
  have hinv₁ : Tally.Inv (statsFile R) bumps (readStats R file)
      (Machine.run (step R) ⟨file, []⟩ es₁) := by
    rw [hes, Machine.meets_append] at h
    exact inv_of_meets h.1
  have hstats := hinv.load_cell hquiet
  rw [total_eq, hprocs, List.map_append, List.sum_append, List.map_singleton, List.sum_singleton,
    ← add_assoc] at hstats
  have hgrew : readStats R (Machine.run (step R) ⟨file, []⟩ es).cell -
      readStats R (Machine.run (step R) ⟨file, []⟩ es₁).cell = tally p.done := by
    rw [show readStats R (Machine.run (step R) ⟨file, []⟩ es₁).cell = _ from
      hinv₁.load_cell hquiet₁, show readStats R (Machine.run (step R) ⟨file, []⟩ es).cell = _ from
      hstats]
    exact add_sub_cancel_left _ _
  rw [hgrew]
  exact hended p (hprocs ▸ List.mem_append_right _ (List.mem_singleton_self p)) htodo

/-! ## What is not counted, and what is counted twice -/

/-- The integers are read, and nothing else is. -/
def plainReader : Reader JsonCodec.Special where
  interp := plainInterp
  toInt
    | .int i => some i
    | _ => none
  toInt_int _ := rfl

/-- A seed that is no request. -/
def noRequest : Multipart where
  parentConfigured := true
  scoreEndpoint := none
  threshold := none
  publishes := true
  uploads := true
  data := []

/-- The counters behind one rejection. -/
def oneRejected : Stats := readStats plainReader none + bumped .ruleReject

/-- How much of these counters is written. -/
def oneLength : ℕ := (Utf8.encode (statsText plainReader oneRejected)).length

/-- The fields of an upload. -/
def uploadFields : List (Bytes × List ℕ) :=
  [(ascii "name", [102]), (ascii "nodeType", chars "cm:content")]

/-- An upload of the file `f`. -/
def upload : Bytes :=
  uploadRequest (ascii "/x") (ascii "b") uploadFields (ascii "f") (ascii "x")

/-- What is read of it. -/
def uploadSeed : MultipartSeed where
  method := ascii "POST"
  path := ascii "/x"
  headers := [(ascii "content-type", multipartType (ascii "b"))]
  boundary := ascii "b"
  fields := uploadFields
  filename := ascii "f"
  fileBytes := ascii "x"

theorem forall_uploadFields {P : Bytes × List ℕ → Prop} (hname : P (ascii "name", [102]))
    (hnode : P (ascii "nodeType", chars "cm:content")) : ∀ f ∈ uploadFields, P f := by
  intro f hf
  rcases List.mem_cons.mp hf with rfl | hf
  · exact hname
  · exact List.mem_singleton.mp hf ▸ hnode

theorem wf_uploadFields : WfUpload uploadFields (ascii "f") where
  names := by
    apply forall_uploadFields
    · exact ⟨by decide, forall_mem_of_all (by decide), by decide, by decide,
        forall_mem_of_optionAll (by decide), forall_mem_of_optionAll (by decide)⟩
    · exact ⟨by decide, forall_mem_of_all (by decide), by decide, by decide,
        forall_mem_of_optionAll (by decide), forall_mem_of_optionAll (by decide)⟩
  nodup := by decide
  values := forall_uploadFields (by decide) (by decide)
  file := ⟨by decide, forall_mem_of_all (by decide), by decide, by decide,
    forall_mem_of_optionAll (by decide), forall_mem_of_optionAll (by decide)⟩
  fileValid := by decide

theorem parse_upload : parseMultipartHttpSeed upload = .ok uploadSeed := by
  have hb : PlainBoundary (ascii "b") := ⟨by decide, forall_mem_of_all (by decide)⟩
  have hfree : DelimiterFree (ascii "b") uploadFields (ascii "f") (ascii "x") :=
    ⟨forall_uploadFields (by decide) (by decide), forall_uploadFields (by decide) (by decide),
      by decide, by decide⟩
  rw [upload, parse_uploadRequest postPath_x hb, parseMultipartBody_uploadBody hb wf_uploadFields
    hfree (forall_uploadFields (by decide) (by decide))]
  rfl

theorem admitted_upload : admittedSeed upload = some uploadSeed := by
  rw [admittedSeed, parse_upload]
  decide

/-- An upload, with or without a scorer that finds it as bad as possible. -/
def uploaded (scored : Bool) : Multipart where
  parentConfigured := true
  scoreEndpoint := if scored then some fun _ => some (.finite 1) else none
  threshold := some (.finite 1)
  publishes := true
  uploads := true
  data := upload

/-- An upload that the scorer finds as good as possible. -/
def passed : Multipart :=
  { uploaded true with scoreEndpoint := some fun _ => some (.finite 0) }

/-- Two rejections at the same time, and behind them the upload, with three bumps. -/
def threeInvocations : List (Event JsonCodec.Special) :=
  Tally.serial (statsFile plainReader) bumps
    (fun s => (Utf8.encode (statsText plainReader s)).length) ⟨none, []⟩
    [.inl (.multipart noRequest), .inl (.multipart noRequest), .inr 1, .inr 0,
      .inl (.multipart passed), .inr 2, .inr 2, .inr 2]

theorem threeInvocations_meets :
    Machine.Meets (step plainReader) (Careful plainReader) ⟨none, []⟩ threeInvocations := by
  have hnobody : (⟨none, []⟩ : World JsonCodec.Special).Quiet := fun _ hp => by cases hp
  refine Machine.meets_and_forall.mpr ⟨Tally.meets_serial (fun s => ⟨le_rfl, rfl⟩) _ hnobody, ?_⟩
  rintro _ he inv rfl
  have hinv := Tally.start_mem_serial he
  simp only [List.mem_cons, Sum.inl.injEq, reduceCtorEq, List.not_mem_nil, or_false,
    false_or] at hinv
  obtain rfl | rfl | rfl := hinv
  · exact ⟨rfl, rfl⟩
  · exact ⟨rfl, rfl⟩
  · refine ⟨rfl, ?_⟩
    rw [show passed.data = upload from rfl, admitted_upload]
    exact ⟨_, rfl, fun h => absurd h (by decide)⟩

theorem three_accounted :
    let w := Machine.run (step plainReader) ⟨none, []⟩ threeInvocations
    (∀ p ∈ w.procs, p.todo = [] → Accounted p.tag (tally p.done)) ∧
    (w.Quiet → readStats plainReader w.cell =
      readStats plainReader none + (w.procs.map fun p => tally p.done).sum) ∧
    ∀ es₁ es₂ p, threeInvocations = es₁ ++ es₂ →
      let w₁ := Machine.run (step plainReader) ⟨none, []⟩ es₁
      w₁.Quiet → w.Quiet → w.procs = w₁.procs ++ [p] → p.todo = [] →
        Accounted p.tag (readStats plainReader w.cell - readStats plainReader w₁.cell) :=
  stats_accounting plainReader none threeInvocations_meets

/-- An upload that is accepted is not counted, one that the scorer rejects is counted for both
verdicts of the rules, and of two rejections at the same time one is lost. -/
theorem stats_unaccounted :
    multipart (uploaded false) = [] ∧
    multipart (uploaded true) = [.rulePass, .scoreRpcOk, .scoreReject, .ruleReject] ∧
    ∃ es : List (Event JsonCodec.Special),
      let w := Machine.run (step plainReader) ⟨none, []⟩ es
      w.Quiet ∧ (w.procs.map fun p => p.done) = [[.ruleReject], [.ruleReject]] ∧
        readStats plainReader none .ruleReject = 0 ∧
        readStats plainReader w.cell .ruleReject = 1 := by
  refine ⟨?_, ?_, Tally.overlapping (.multipart noRequest) oneLength, ?_⟩
  · rw [multipart_eq rfl, uploaded, admitted_upload]
    rfl
  · rw [multipart_eq rfl, uploaded, admitted_upload]
    rfl
  · have hamounts : bumps (.multipart noRequest : Invocation JsonCodec.Special) =
        [.ruleReject] := rfl
    have hrun : Machine.run (step plainReader) ⟨none, []⟩ _ = _ :=
      Tally.run_overlapping hamounts oneLength none
    have hstored : Stored plainReader ((statsFile plainReader).load none +
        (statsFile plainReader).amount .ruleReject) oneLength :=
      show Stored plainReader oneRejected oneLength from ⟨le_rfl, rfl⟩
    dsimp only
    rw [hrun]
    refine ⟨fun p hp hbusy => hbusy ?_, rfl, rfl, ?_⟩
    · rcases List.mem_cons.mp hp with rfl | hp
      · rfl
      · rw [List.mem_singleton.mp hp]
    · have hone : oneRejected .ruleReject = 1 := by decide
      rw [← load_statsFile, load_put _ _ _ hstored]
      exact hone

end BodyStats

end AflNv
