import AflNv.Observe

/-!
# The validity filter

`nv_validity_check` of `src/afl-fuzz-run.c` looks at a test case before it is
executed: the request line against the endpoint allowlist, the start of the
body, and then the score of an external model.  `nv_account_valid` and
`nv_account_invalid` count the verdicts.

`nvRequestCheck` is the part that depends on the bytes alone.  A buffer it
rejects is rejected every time (`nvValidityCheck_isReject_of_request`); only the
score can change from one call to the next.
-/

namespace AflNv

/-! ## The verdicts -/

/-- `nv_vreason_t`. -/
inductive NvVreason where
  | ok
  | rejParse
  | rejRule
  | rejRpcFail
  | rejAllow
  | rejDocid
  | rejBody
  | rejScore
  deriving DecidableEq

/-- `nv_v_is_reject`. -/
def NvVreason.isReject (r : NvVreason) : Bool := r ≠ .ok

/-- The fields of `nv_task` that the modelled functions read. -/
structure NvTask where
  enableValidity : Bool
  validityThreshold : CDouble
  /-- `validity_endpoint`; `none` is NULL. -/
  validityEndpoint : Option Bytes
  /-- `max_test_cases`; 0 is no limit. -/
  maxTestCases : ℕ

/-- What `nv_validity_rpc_score_unix` returns in one call. -/
inductive RpcReply where
  /-- `*ok` stays 0. -/
  | fail
  | score (value : CDouble)
  /-- A score that is not a number. -/
  | nan
  deriving DecidableEq

/-- `a >= b` on doubles that are numbers. -/
def CDouble.ge : CDouble → CDouble → Bool
  | .finite q, .finite r => r ≤ q
  | .inf false, _ => true
  | _, .inf true => true
  | _, _ => false

/-! ## The request -/

/-- `memmem`: the offset of the first occurrence. -/
def memmem (haystack needle : Bytes) : Option ℕ :=
  haystack.tails.findIdx? fun tail => needle.isPrefixOf tail

/-- `memchr`: the offset of the first such byte. -/
def memchr (buf : Bytes) (c : UInt8) : Option ℕ := buf.findIdx? fun b => b = c

/-- One `%<width>s` of `sscanf`: the word and the text behind it; `none` when
the text ends before a word. -/
def scanWord (width : ℕ) (text : Bytes) : Option (Bytes × Bytes) :=
  let text := text.dropWhile isspace
  let word := (text.takeWhile fun b => !isspace b).take width
  if word = [] then none else some (word, text.drop word.length)

/-- `sscanf(line, "%15s %255s", method, path)` with both words read. -/
def scanRequestLine (line : Bytes) : Option (Bytes × Bytes) :=
  match scanWord 15 (cstr line) with
  | none => none
  | some (method, rest) => (scanWord 255 rest).map fun word => (method, word.1)

/-- The white space that is skipped before a body. -/
def isBodyBlank (b : UInt8) : Bool := b = 32 || b = 9 || b = 13 || b = 10

/-- The headers declare `text/plain`, in a first `Content-Type` line that ends
before the separator. -/
def isTextPlain (headers : Bytes) : Bool :=
  match memmem headers (ascii "Content-Type:") with
  | none => false
  | some ct =>
    match memchr (headers.drop ct) nl with
    | none => false
    | some eol => (memmem ((headers.drop ct).take eol) (ascii "text/plain")).isSome

/-- The body check: there is a body, it must be JSON, and it does not start like
JSON.  Only a `text/plain` body of a path that ends in `/content` need not. -/
def bodyRejected (buf path : Bytes) : Bool :=
  let sep :=
    match memmem buf (ascii "\n\n") with
    | some sep => some (sep, 2)
    | none => (memmem buf (ascii "\r\n\r\n")).map fun sep => (sep, 4)
  match sep with
  | none => false
  | some (sep, sepLen) =>
    let body := (buf.drop (sep + sepLen)).dropWhile isBodyBlank
    let isJsonContent := !(isTextPlain (buf.take sep) && (ascii "/content").isSuffixOf path)
    isJsonContent && body.head?.any fun b => b ≠ 123 && b ≠ 91

/-- The checks of `nv_validity_check` on the bytes themselves. -/
def nvRequestCheck (cfg : NvTargetCfg) (buf : Bytes) : NvVreason :=
  if buf.length = 0 then .rejRule
  else if buf.length > 4096 then .rejRule
  else
    match memchr buf nl with
    | none => .rejParse
    | some lsz =>
      if lsz ≥ 512 then .rejRule
      else
        match scanRequestLine (buf.take lsz) with
        | none => .rejParse
        | some (method, path) =>
          if path.head? ≠ some 47 then .rejRule
          else
            let path := path.takeWhile (· ≠ 63)
            if !nvIsAllowedPair cfg (method.map toupper) path then .rejAllow
            else if bodyRejected buf path then .rejBody
            else .ok

/-- The check of the external score, when an endpoint is configured. -/
def nvScoreCheck (task : NvTask) (reply : RpcReply) : NvVreason :=
  match task.validityEndpoint with
  | some (_ :: _) =>
    match reply with
    | .fail => .rejRpcFail
    | .nan => .ok
    | .score value =>
      if task.validityThreshold.isPos && value.ge task.validityThreshold then .rejScore else .ok
  | _ => .ok

/-- `nv_validity_check`. -/
def nvValidityCheck (cfg : NvTargetCfg) (task : NvTask) (reply : RpcReply) (buf : Bytes) :
    NvVreason :=
  match nvRequestCheck cfg buf with
  | .ok => nvScoreCheck task reply
  | r => r

/-- A buffer whose bytes are rejected is rejected whatever the score. -/
theorem nvValidityCheck_isReject_of_request {cfg : NvTargetCfg} {buf : Bytes}
    (h : (nvRequestCheck cfg buf).isReject = true) (task : NvTask) (reply : RpcReply) :
    (nvValidityCheck cfg task reply buf).isReject = true := by
  rw [nvValidityCheck]
  cases hr : nvRequestCheck cfg buf with
  | ok =>
    rw [hr] at h
    exact absurd h (by decide)
  | _ => rfl

/-! ## Counting the verdicts -/

/-- The validity counters of `afl_state_t`. -/
structure ValidityCounters where
  nvValidCnt : ℕ
  nvInvalidCnt : ℕ
  nvInvalidParseCnt : ℕ
  nvInvalidRpcFailCnt : ℕ
  nvInvalidRuleCnt : ℕ
  nvInvalidAllowCnt : ℕ
  nvInvalidDocidCnt : ℕ
  nvInvalidBodyCnt : ℕ
  nvInvalidScoreCnt : ℕ
  deriving DecidableEq

def ValidityCounters.zero : ValidityCounters := ⟨0, 0, 0, 0, 0, 0, 0, 0, 0⟩

/-- `nv_account_invalid`. -/
def nvAccountInvalid (vr : NvVreason) (v : ValidityCounters) : ValidityCounters :=
  let v := { v with nvInvalidCnt := v.nvInvalidCnt + 1 }
  match vr with
  | .rejParse => { v with nvInvalidParseCnt := v.nvInvalidParseCnt + 1 }
  | .rejRpcFail => { v with nvInvalidRpcFailCnt := v.nvInvalidRpcFailCnt + 1 }
  | vr =>
    let v := { v with nvInvalidRuleCnt := v.nvInvalidRuleCnt + 1 }
    match vr with
    | .rejAllow => { v with nvInvalidAllowCnt := v.nvInvalidAllowCnt + 1 }
    | .rejDocid => { v with nvInvalidDocidCnt := v.nvInvalidDocidCnt + 1 }
    | .rejBody => { v with nvInvalidBodyCnt := v.nvInvalidBodyCnt + 1 }
    | .rejScore => { v with nvInvalidScoreCnt := v.nvInvalidScoreCnt + 1 }
    | _ => v

/-- `nv_account_valid`. -/
def nvAccountValid (v : ValidityCounters) : ValidityCounters :=
  { v with nvValidCnt := v.nvValidCnt + 1 }

/-- The counter of a verdict that was given. -/
def nvAccount (vr : NvVreason) (v : ValidityCounters) : ValidityCounters :=
  if vr.isReject then nvAccountInvalid vr v else nvAccountValid v

end AflNv
