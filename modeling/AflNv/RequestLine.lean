import AflNv.StateKeys
import AflNv.Validity

/-!
# One request line, three readers

`nv_validity_check` reads the request line of a test case and matches the method
and the path, without its query string, against the allowlist.  Two other
functions read the same request again.

`nv_validity_rpc_score_unix` of `src/afl-fuzz-run.c` chooses the scoring model by
the end of the path, and keeps the query string.  `scenarioAgrees_iff` says for
which requests it chooses as the validator does.

`nv_observe_security_state_once` gets the method and the path back in the status
document, with the query string.  `observer_label` says under which label it
files the request.
-/

namespace AflNv

/-! ## The words of the request line -/

/-- The path without its query string. -/
def stripQuery (path : Bytes) : Bytes := path.takeWhile (· ≠ 63)

/-- The first two words of a line, with at most `w₁` and `w₂` bytes. -/
def scanWords (w₁ w₂ : ℕ) (line : Bytes) : Option (Bytes × Bytes) :=
  match scanWord w₁ (cstr line) with
  | none => none
  | some (method, rest) => (scanWord w₂ rest).map fun word => (method, word.1)

/-- The words that `nv_validity_check` reads. -/
def validatorWords (buf : Bytes) : Option (Bytes × Bytes) :=
  match memchr buf nl with
  | none => none
  | some lsz => if lsz ≥ 512 then none else scanWords 15 255 (buf.take lsz)

/-- The words of the request line, however long they are. -/
def requestWords (buf : Bytes) : Option (Bytes × Bytes) :=
  match memchr buf nl with
  | none => none
  | some lsz => scanWords (lsz + 1) (lsz + 1) (buf.take lsz)

/-- What a request that passes the checks on its bytes has passed. -/
theorem nvRequestCheck_ok {cfg : NvTargetCfg} {buf : Bytes} (h : nvRequestCheck cfg buf = .ok) :
    ∃ method path, validatorWords buf = some (method, path) ∧ path.head? = some 47 ∧
      nvIsAllowedPair cfg (method.map toupper) (stripQuery path) = true ∧
      bodyRejected buf (stripQuery path) = false := by
  rw [nvRequestCheck] at h
  split_ifs at h
  cases hline : memchr buf nl with
  | none =>
    rw [hline] at h
    exact NvVreason.noConfusion h
  | some lsz =>
    rw [hline] at h
    dsimp only at h
    split_ifs at h with hlsz
    cases hwords : scanRequestLine (buf.take lsz) with
    | none =>
      rw [hwords] at h
      exact NvVreason.noConfusion h
    | some words =>
      obtain ⟨method, path⟩ := words
      rw [hwords] at h
      dsimp only at h
      split_ifs at h with hhead hallow hbody
      refine ⟨method, path, ?_, not_not.mp hhead, ?_, ?_⟩
      · rw [validatorWords, hline]
        dsimp only
        rw [if_neg hlsz]
        exact hwords
      · exact Bool.not_eq_false _ ▸ fun hfalse => hallow (by rw [← stripQuery, hfalse]; rfl)
      · exact Bool.eq_false_iff.mpr hbody

theorem nvRequestCheck_of_nvValidityCheck {cfg : NvTargetCfg} {task : NvTask} {reply : RpcReply}
    {buf : Bytes} (h : nvValidityCheck cfg task reply buf = .ok) : nvRequestCheck cfg buf = .ok := by
  rw [nvValidityCheck] at h
  cases hr : nvRequestCheck cfg buf with
  | ok => rfl
  | _ =>
    rw [hr] at h
    exact NvVreason.noConfusion h

/-! ## The scoring model -/

/-- The end of the headers, and the length of the blank line there. -/
def bodySeparator (buf : Bytes) : Option (ℕ × ℕ) :=
  match memmem buf (ascii "\n\n") with
  | some sep => some (sep, 2)
  | none => (memmem buf (ascii "\r\n\r\n")).map fun sep => (sep, 4)

/-- The path is that of the content-update endpoint. -/
def isContentPath (path : Bytes) : Bool := (ascii "/content").isSuffixOf path

/-- The scenario that `nv_validity_rpc_score_unix` sends. -/
def nvRpcScenario (buf : Bytes) : Bytes :=
  match bodySeparator buf with
  | none => ascii "metadata_update"
  | some _ =>
    match validatorWords buf with
    | none => ascii "metadata_update"
    | some (_, path) =>
      if isContentPath path then ascii "content_update" else ascii "metadata_update"

/-- The validator does not ask for a JSON body: it is declared `text/plain`, and
the path is that of the content-update endpoint. -/
def bodyExempt (buf path : Bytes) : Bool :=
  match bodySeparator buf with
  | none => false
  | some (sep, _) => isTextPlain (buf.take sep) && isContentPath path

theorem nvRpcScenario_eq_content {buf method path : Bytes}
    (hwords : validatorWords buf = some (method, path)) :
    nvRpcScenario buf = ascii "content_update" ↔
      (bodySeparator buf).isSome = true ∧ isContentPath path = true := by
  have hne : ascii "metadata_update" ≠ ascii "content_update" := by decide
  rw [nvRpcScenario, hwords]
  cases bodySeparator buf with
  | none => simp [hne]
  | some sep =>
    dsimp only
    split_ifs with hcontent
    · simp [hcontent]
    · simp [hne, hcontent]

/-- Only a body of the content-update endpoint is exempt. -/
theorem bodyExempt_content {buf path : Bytes} (h : bodyExempt buf path = true) :
    isContentPath path = true := by
  rw [bodyExempt] at h
  cases hs : bodySeparator buf with
  | none => simp [hs] at h
  | some sep =>
    simp only [hs, Bool.and_eq_true] at h
    exact h.2

/-- The scorer is asked for the model of the endpoint that the validator saw. -/
structure ScenarioAgrees (buf path : Bytes) : Prop where
  content_iff : nvRpcScenario buf = ascii "content_update" ↔ isContentPath (stripQuery path) = true
  otherwise : isContentPath (stripQuery path) = false → nvRpcScenario buf = ascii "metadata_update"
  exempt : bodyExempt buf (stripQuery path) = true → nvRpcScenario buf = ascii "content_update"

theorem nvRpcScenario_cases (buf : Bytes) :
    nvRpcScenario buf = ascii "content_update" ∨ nvRpcScenario buf = ascii "metadata_update" := by
  rw [nvRpcScenario]
  split
  · exact .inr rfl
  · split
    · exact .inr rfl
    · split_ifs
      · exact .inl rfl
      · exact .inr rfl

/-- For a request that reaches the scorer, the scenario is the validator's exactly
when the query string does not change whether the path ends in `/content`, and a
content path comes with the blank line that starts a body. -/
theorem scenarioAgrees_iff {cfg : NvTargetCfg} {buf : Bytes} (hok : nvRequestCheck cfg buf = .ok) :
    ∃ method path, validatorWords buf = some (method, path) ∧
      (ScenarioAgrees buf path ↔
        ((bodySeparator buf).isSome = true →
          (isContentPath path = true ↔ isContentPath (stripQuery path) = true)) ∧
        (isContentPath (stripQuery path) = true → (bodySeparator buf).isSome = true)) := by
  obtain ⟨method, path, hwords, -, -, -⟩ := nvRequestCheck_ok hok
  refine ⟨method, path, hwords, ?_⟩
  have hscenario := nvRpcScenario_eq_content hwords
  constructor
  · intro h
    have hiff := h.content_iff
    rw [hscenario] at hiff
    constructor
    · intro hsep
      rw [← hiff]
      simp [hsep]
    · intro hcontent
      exact (hiff.mpr hcontent).1
  · intro h
    obtain ⟨hquery, hsep⟩ := h
    have hiff : nvRpcScenario buf = ascii "content_update" ↔
        isContentPath (stripQuery path) = true := by
      rw [hscenario]
      constructor
      · intro hc
        exact (hquery hc.1).mp hc.2
      · intro hc
        exact ⟨hsep hc, (hquery (hsep hc)).mpr hc⟩
    refine ⟨hiff, ?_, ?_⟩
    · intro hc
      rcases nvRpcScenario_cases buf with hcontent | hmeta
      · exact absurd (hiff.mp hcontent) (by simp [hc])
      · exact hmeta
    · intro hexempt
      exact hiff.mpr (bodyExempt_content hexempt)

/-- The allowlist of the content-update endpoint alone. -/
def contentCfg : NvTargetCfg where
  nvTcfgLoaded := true
  nvAllowPairs := [some (ascii "PUT /x/content")]

/-- A text body for the content-update endpoint, behind a query string. -/
def contentWithQuery : Bytes :=
  ascii "PUT /x/content?y=1 HTTP/1.1\r\nContent-Type: text/plain\r\nHost: x\r\n\r\nhello"

/-- The allowlist with a second endpoint. -/
def nodeCfg : NvTargetCfg :=
  { contentCfg with nvAllowPairs := [some (ascii "PUT /x/content"), some (ascii "PUT /x/node")] }

/-- A text body for the content-update endpoint. -/
def plainContent : Bytes :=
  ascii "PUT /x/content HTTP/1.1\r\nContent-Type: text/plain\r\nHost: x\r\n\r\nhello"

/-- A JSON body for another endpoint, behind a query string. -/
def nodeWithQuery : Bytes := ascii "put /x/node?y=1 HTTP/1.1\r\nHost: x\r\n\r\n\x7b\x7d"

/-- Both are scored by the model of their endpoint. -/
theorem scenarioAgrees_both :
    ScenarioAgrees plainContent (ascii "/x/content") ∧
      nvRpcScenario plainContent = ascii "content_update" ∧
      ScenarioAgrees nodeWithQuery (ascii "/x/node?y=1") ∧
      nvRpcScenario nodeWithQuery = ascii "metadata_update" := by
  have hplain : nvRequestCheck nodeCfg plainContent = .ok := by decide
  have hnode : nvRequestCheck nodeCfg nodeWithQuery = .ok := by decide
  have hplainWords : validatorWords plainContent = some (ascii "PUT", ascii "/x/content") := by
    decide
  have hnodeWords : validatorWords nodeWithQuery = some (ascii "put", ascii "/x/node?y=1") := by
    decide
  refine ⟨?_, by decide, ?_, by decide⟩
  · obtain ⟨method, path, hwords, hiff⟩ := scenarioAgrees_iff hplain
    obtain ⟨-, rfl⟩ := Prod.mk.inj (Option.some.inj (hplainWords.symm.trans hwords))
    exact hiff.mpr ⟨by decide, by decide⟩
  · obtain ⟨method, path, hwords, hiff⟩ := scenarioAgrees_iff hnode
    obtain ⟨-, rfl⟩ := Prod.mk.inj (Option.some.inj (hnodeWords.symm.trans hwords))
    exact hiff.mpr ⟨by decide, by decide⟩

/-- The body is exempt from the JSON check, and the JSON model is asked to score
it. -/
theorem contentWithQuery_scored_as_metadata :
    nvRequestCheck contentCfg contentWithQuery = .ok ∧
      validatorWords contentWithQuery = some (ascii "PUT", ascii "/x/content?y=1") ∧
      bodyExempt contentWithQuery (stripQuery (ascii "/x/content?y=1")) = true ∧
      nvRpcScenario contentWithQuery = ascii "metadata_update" ∧
      ¬ ScenarioAgrees contentWithQuery (ascii "/x/content?y=1") := by
  have hexempt : bodyExempt contentWithQuery (stripQuery (ascii "/x/content?y=1")) = true := by
    decide
  have hmeta : nvRpcScenario contentWithQuery = ascii "metadata_update" := by decide
  refine ⟨by decide, by decide, hexempt, hmeta, ?_⟩
  intro h
  have hcontent := h.exempt hexempt
  rw [hmeta] at hcontent
  exact absurd hcontent (by decide)

/-! ## The label of the observer -/

/-- The status document of an execution of the request: the harness reports the
method in capitals, and the path as the request has it. -/
structure ReportsRequest (buf method path : Bytes) (d : NvStatusDoc) : Prop where
  words : requestWords buf = some (method, path)
  doc_method : d.method = method.map toupper
  doc_path : d.path = path

/-- The observer files the document under a label of an endpoint that admits the
request, and not under `unknown_path`. -/
def UnderEndpoint (cfg : NvTargetCfg) (method path : Bytes) (d : NvStatusDoc) : Prop :=
  let cmethod := nvCanonMethod (some d.method)
  let label := pathLabel cfg cmethod d.path
  label ≠ ascii "unknown_path" ∧
    ∃ rule, some rule ∈ cfg.nvAllowPairs ∧
      ruleAdmits rule (method.map toupper) (stripQuery path) = true ∧
      ruleAdmits rule cmethod label = true

/-- A word that two limits leave alone is the same word under both. -/
theorem scanWord_of_lt {w w' : ℕ} {text word rest : Bytes}
    (h : scanWord w text = some (word, rest)) (hlt : word.length < w) (hle : word.length ≤ w') :
    scanWord w' text = some (word, rest) := by
  rw [scanWord] at h ⊢
  generalize hfull : (text.dropWhile isspace).takeWhile (fun b => !isspace b) = full at h ⊢
  split_ifs at h with hnil
  obtain ⟨rfl, rfl⟩ := Prod.mk.inj (Option.some.inj h)
  have htake : full.take w = full := by
    apply List.take_of_length_le
    rw [List.length_take] at hlt
    omega
  rw [htake] at hle hnil ⊢
  rw [List.take_of_length_le hle, if_neg hnil]

theorem scanWord_length_lt {w : ℕ} {text word rest : Bytes}
    (h : scanWord w text = some (word, rest)) : word.length + rest.length ≤ text.length := by
  rw [scanWord] at h
  split_ifs at h with hnil
  obtain ⟨rfl, rfl⟩ := Prod.mk.inj (Option.some.inj h)
  have hdrop := List.Sublist.length_le (List.dropWhile_sublist (l := text) isspace)
  have hword := List.Sublist.length_le
    (List.takeWhile_sublist (l := text.dropWhile isspace) fun b => !isspace b)
  rw [List.length_drop, List.length_take]
  omega

/-- A word holds no white space. -/
theorem scanWord_no_space {w : ℕ} {text word rest : Bytes}
    (h : scanWord w text = some (word, rest)) : ∀ b ∈ word, isspace b = false := by
  rw [scanWord] at h
  split_ifs at h with hnil
  obtain ⟨rfl, -⟩ := Prod.mk.inj (Option.some.inj h)
  intro b hb
  have hword := List.mem_takeWhile_imp (List.mem_of_mem_take hb)
  simpa using hword

/-- Words that fit the buffers of the validator are the words it reads. -/
theorem validatorWords_of_requestWords {buf method path : Bytes}
    (hwords : requestWords buf = some (method, path)) (hline : (validatorWords buf).isSome = true)
    (hmethod : method.length ≤ 15) (hpath : path.length ≤ 255) :
    validatorWords buf = some (method, path) := by
  rw [validatorWords] at hline ⊢
  rw [requestWords] at hwords
  cases hnl : memchr buf nl with
  | none => simp [hnl] at hwords
  | some lsz =>
    rw [hnl] at hwords hline
    dsimp only at hwords hline ⊢
    have hlsz : ¬ lsz ≥ 512 := by
      intro hge
      simp [hge] at hline
    rw [if_neg hlsz]
    rw [scanWords] at hwords ⊢
    have htext : (cstr (buf.take lsz)).length ≤ lsz :=
      calc (cstr (buf.take lsz)).length
          ≤ (buf.take lsz).length := List.Sublist.length_le (List.takeWhile_sublist _)
        _ ≤ lsz := List.length_take_le _ _
    cases hfirst : scanWord (lsz + 1) (cstr (buf.take lsz)) with
    | none => simp [hfirst] at hwords
    | some first =>
      obtain ⟨word, rest⟩ := first
      rw [hfirst] at hwords
      dsimp only at hwords
      obtain ⟨⟨word', rest'⟩, hsecond, heq⟩ := Option.map_eq_some_iff.mp hwords
      obtain ⟨rfl, rfl⟩ := Prod.mk.inj heq
      have hlen := scanWord_length_lt hfirst
      have hlen' := scanWord_length_lt hsecond
      rw [scanWord_of_lt hfirst (by omega) hmethod]
      dsimp only
      rw [scanWord_of_lt hsecond (by omega) hpath]
      rfl

theorem toupper_toupper : ∀ b : UInt8, toupper (toupper b) = toupper b := by decide +kernel

theorem isspace_toupper : ∀ b : UInt8, isspace (toupper b) = isspace b := by decide +kernel

theorem trimSpace_of_no_space {s : Bytes} (h : ∀ b ∈ s, isspace b = false) : trimSpace s = s := by
  have hdrop : ∀ l : Bytes, (∀ b ∈ l, isspace b = false) → l.dropWhile isspace = l := by
    intro l hl
    cases l with
    | nil => rfl
    | cons b l => rw [List.dropWhile_cons, hl b List.mem_cons_self, if_neg Bool.false_ne_true]
  rw [trimSpace, hdrop s h, hdrop, List.reverse_reverse]
  intro b hb
  exact h b (List.mem_reverse.mp hb)

/-- A word in capitals that is no known method folds onto `INVALID`. -/
theorem nvCanonMethod_unknown {m : Bytes} (hspace : ∀ b ∈ m, isspace b = false)
    (hm : m.map toupper ∉ nvKnownMethods) :
    nvCanonMethod (some (m.map toupper)) = ascii "INVALID" := by
  have htrim : trimSpace (m.map toupper) = m.map toupper := by
    apply trimSpace_of_no_space
    intro b hb
    obtain ⟨c, hc, rfl⟩ := List.mem_map.mp hb
    rw [isspace_toupper]
    exact hspace c hc
  have hupper : (m.map toupper).map toupper = m.map toupper := by
    rw [List.map_map]
    exact List.map_congr_left fun b _ => toupper_toupper b
  rw [nvCanonMethod, htrim, hupper]
  split_ifs
  · rfl
  · rw [List.find?_eq_none.mpr]
    · rfl
    · intro known hknown heq
      exact hm (of_decide_eq_true heq ▸ hknown)

/-- What is before the query string is the start of the path. -/
theorem stripQuery_isPrefix (path : Bytes) : stripQuery path <+: path := List.takeWhile_prefix _

theorem stripQuery_of_no_query {path : Bytes} (h : (63 : UInt8) ∉ path) : stripQuery path = path := by
  rw [stripQuery, List.takeWhile_eq_self_iff]
  intro b hb
  have hne : b ≠ 63 := by
    rintro rfl
    exact h hb
  simpa using hne

/-- A prefix rule that admits a path admits every longer one. -/
theorem ruleAdmits_of_longer {m p q rule : Bytes} (hm : m ∈ methodLabels) (hpq : p <+: q)
    (hq : q.length ≤ 200) (hstar : rule.getLast? = some 42) (h : ruleAdmits rule m p = true) :
    ruleAdmits rule m q = true := by
  have hp : p.length ≤ 200 := hpq.length_le.trans hq
  have hkey : exactRule (m, p) <+: exactRule (m, q) :=
    (List.prefix_append_right_inj m).mpr ((List.prefix_cons_inj 32).mpr hpq)
  refine (ruleAdmits_iff hm hq rule).mpr (.inr ⟨hstar, ?_⟩)
  rcases (ruleAdmits_iff hm hp rule).mp h with hexact | ⟨-, hpre⟩
  · exact ( List.dropLast_prefix rule).trans (hexact ▸ hkey)
  · exact hpre.trans hkey

/-- The observer against the validator.  A known method and a printable path of
at most 200 bytes are kept, so the request is filed under the endpoint that
admitted it, when the path has no query string or a prefix rule admits it.  The
other requests have a label of their own by design: `malformed_path` for the
path, `INVALID` for the method. -/
theorem observer_label {cfg : NvTargetCfg} (hcfg : cfg.nvTcfgLoaded = true) {task : NvTask}
    {reply : RpcReply} {buf method path : Bytes} {d : NvStatusDoc}
    (hok : nvValidityCheck cfg task reply buf = .ok) (hd : ReportsRequest buf method path d) :
    (method.map toupper ∈ nvKnownMethods → FinePath path →
      ((63 : UInt8) ∉ path ∨ ∃ rule, some rule ∈ cfg.nvAllowPairs ∧ rule.getLast? = some 42 ∧
        ruleAdmits rule (method.map toupper) (stripQuery path) = true) →
      UnderEndpoint cfg method path d ∧
        nvStateKey cfg d = joinKey ((method.map toupper, path), nvCanonClass (some d.cls))) ∧
    (¬ FinePath path →
      nvStateKey cfg d =
        joinKey ((nvCanonMethod (some d.method), nvPathMalformed), nvCanonClass (some d.cls))) ∧
    (method.map toupper ∉ nvKnownMethods → nvCanonMethod (some d.method) = ascii "INVALID") := by
  obtain ⟨hwords, hmethod, hpath⟩ := hd
  have hspace : ∀ b ∈ method, isspace b = false := by
    rw [requestWords] at hwords
    cases hnl : memchr buf nl with
    | none => simp [hnl] at hwords
    | some lsz =>
      rw [hnl] at hwords
      dsimp only at hwords
      rw [scanWords] at hwords
      cases hfirst : scanWord (lsz + 1) (cstr (buf.take lsz)) with
      | none => simp [hfirst] at hwords
      | some first =>
        rw [hfirst] at hwords
        dsimp only at hwords
        obtain ⟨word, -, heq⟩ := Option.map_eq_some_iff.mp hwords
        rw [← (Prod.mk.inj heq).1]
        exact scanWord_no_space hfirst
  refine ⟨?_, ?_, ?_⟩
  · intro hknown hfine hquery
    have hlabel : method.map toupper ∈ methodLabels := List.mem_cons_of_mem _ hknown
    have hcanon : nvCanonMethod (some d.method) = method.map toupper := by
      rw [hmethod, nvCanonMethod_label _ hlabel]
    obtain ⟨m, p, hvalid, -, hallow, -⟩ :=
      nvRequestCheck_ok (nvRequestCheck_of_nvValidityCheck hok)
    have hmlen : method.length ≤ 15 := by
      have hlen := methodLabels_length_le _ hlabel
      rw [List.length_map] at hlen
      omega
    have hplen := hfine.length_le
    rw [validatorWords_of_requestWords hwords (by rw [hvalid]; rfl) hmlen (by omega)] at hvalid
    obtain ⟨rfl, rfl⟩ := Prod.mk.inj (Option.some.inj hvalid)
    -- The rule that admits the request admits the reported path.
    have hrule : ∃ rule, some rule ∈ cfg.nvAllowPairs ∧
        ruleAdmits rule (method.map toupper) (stripQuery path) = true ∧
        ruleAdmits rule (method.map toupper) path = true := by
      rcases hquery with hquery | ⟨rule, hmem, hstar, hadmits⟩
      · obtain ⟨rule, hmem, hadmits⟩ := (nvIsAllowedPair_iff_rule hcfg _ _).mp hallow
        refine ⟨rule, hmem, hadmits, ?_⟩
        rwa [stripQuery_of_no_query hquery] at hadmits
      · exact ⟨rule, hmem, hadmits,
          ruleAdmits_of_longer hlabel (stripQuery_isPrefix path) hplen hstar hadmits⟩
    obtain ⟨rule, hmem, hstrip, hadmits⟩ := hrule
    have hallowed : nvIsAllowedPair cfg (method.map toupper) path = true :=
      (nvIsAllowedPair_iff_rule hcfg _ _).mpr ⟨rule, hmem, hadmits⟩
    have hpathLabel : pathLabel cfg (method.map toupper) path = path := by
      rw [pathLabel_eq, if_pos hfine, if_pos hallowed]
    constructor
    · rw [UnderEndpoint, hcanon, hpath, hpathLabel]
      refine ⟨?_, rule, hmem, hstrip, hadmits⟩
      rintro rfl
      exact not_finePath_unknown hfine
    · rw [nvStateKey_eq, hcanon, hpath, hpathLabel]
  · intro hfine
    rw [nvStateKey_eq, hpath, pathLabel_eq, if_neg hfine]
  · intro hunknown
    rw [hmethod]
    exact nvCanonMethod_unknown hspace hunknown

/-- A short request below the prefix rule, with a query string. -/
def queryRequest : Bytes := ascii "get /api/a?x=1 HTTP/1.1\n"

/-- The status document of its execution. -/
def queryDoc : NvStatusDoc := docOf (ascii "GET") (ascii "/api/a?x=1") (ascii "2xx")

def noTask : NvTask where
  enableValidity := true
  validityThreshold := .finite 0
  validityEndpoint := none
  maxTestCases := 0

/-- A prefix rule keeps the query string in the label. -/
theorem observer_label_query :
    UnderEndpoint wildcardCfg (ascii "get") (ascii "/api/a?x=1") queryDoc := by
  have hreports : ReportsRequest queryRequest (ascii "get") (ascii "/api/a?x=1") queryDoc :=
    ⟨by decide, by decide, rfl⟩
  have hok : nvValidityCheck wildcardCfg noTask .fail queryRequest = .ok := by decide
  have hlabel := observer_label (show wildcardCfg.nvTcfgLoaded = true from rfl) hok hreports
  exact (hlabel.1 (by decide) (by decide)
    (.inr ⟨ascii "GET /api/*", List.mem_cons_self, by decide, by decide⟩)).1

/-- A path of 205 bytes. -/
def longPath : Bytes := ascii "/api/" ++ List.replicate 200 97

def longRequest : Bytes := ascii "GET " ++ longPath ++ [10]

/-- The validator admits a path of up to 255 bytes, and the observer files one of
more than 200 under `malformed_path`, which no rule admits. -/
theorem longPath_not_underEndpoint :
    nvValidityCheck wildcardCfg noTask .fail longRequest = .ok ∧
      ReportsRequest longRequest (ascii "GET") longPath (docOf (ascii "GET") longPath (ascii "2xx")) ∧
      ¬ UnderEndpoint wildcardCfg (ascii "GET") longPath
        (docOf (ascii "GET") longPath (ascii "2xx")) := by
  refine ⟨by decide +kernel, ⟨by decide +kernel, by decide +kernel, rfl⟩, ?_⟩
  rw [UnderEndpoint]
  rintro ⟨-, rule, hmem, -, hadmits⟩
  obtain rfl : rule = ascii "GET /api/*" := by simpa [wildcardCfg] using hmem
  exact absurd hadmits (by decide +kernel)

end AflNv
