import AflNv.BodyFraming
import AflNv.CFormat
import AflNv.Lib.Base64
import AflNv.Lib.Binary64
import AflNv.Lib.Codec
import AflNv.PythonJson
import AflNv.ScoreTransport

/-!
# The scoring protocol

Two clients send a request to the scorer: `nv_validity_rpc_score_unix` in C and `rpc_score_unix` of
`nv_body_valid.py`.  `recv_one` and `send_score` (`model_stage/nv_valid_server_real.py`) are the
server.  A stream delivers bytes in segments.

* `recvOne_request` says that the server decodes what the clients send, in any segmentation.
* `readsScore_iff` says which spellings of `NV_RPC_FMT` the C client and the server both take for
  the text format.
* `scoring_protocol` says when the two sides agree.
-/

namespace AflNv.ScoreProtocol

open AflNv.Lib AflNv.Lib.JsonCodec AflNv.PythonJson

variable {F : Type}

/-- The stream delivers the bytes in these segments. -/
structure Delivers (sent : Bytes) (segments : List Bytes) : Prop where
  nonempty : ∀ segment ∈ segments, segment ≠ []
  flatten : segments.flatten = sent

/-! ## The server receives -/

/-- `recv_exact`: what is received and what is left of the stream; `none` is an unexpected end. -/
def recvExact : ℕ → List Bytes → Option (Bytes × List Bytes)
  | 0, segments => some ([], segments)
  | _ + 1, [] => none
  | n + 1, chunk :: segments =>
    if chunk = [] then none
    else if n + 1 < chunk.length then some (chunk.take (n + 1), chunk.drop (n + 1) :: segments)
    else (recvExact (n + 1 - chunk.length) segments).map fun r => (chunk ++ r.1, r.2)

/-- `base64.b64decode(text)` -/
def b64decode (text : Text) : Option Bytes :=
  if text.all (· < 128) then Base64.decode (text.map UInt8.ofNat) else none

/-- What `recv_one` returns: an envelope that was decoded, or the bytes of the envelope. -/
inductive Received where
  | decoded (scenario endpoint : Text) (body : Bytes)
  | raw (envelope : Bytes)
  deriving DecidableEq

/-- The server: JSON, `str(v)`, and `MAX_IN`. -/
structure Server (F : Type) where
  interp : Interp F
  pyStr : Value F → Text
  maxIn : ℕ

variable (S : Server F)

/-- `str(envelope.get(key, default))` -/
def field (ms : List (Text × Value F)) (key default : String) : Text :=
  match ms.lookup (chars key) with
  | none => chars default
  | some (.str s) => s
  | some v => S.pyStr v

/-- The `try` block of `recv_one`. -/
def parseEnvelope (envelope : Bytes) : Option Received :=
  match loadsBytes S.interp envelope with
  | some (.dict ms) =>
    (b64decode (field S ms "body" "")).map
      (.decoded (field S ms "scenario" "metadata_update") (field S ms "endpoint" ""))
  | _ => none

/-- `recv_one`; `none` is an exception. -/
def recvOne (segments : List Bytes) : Option Received := do
  let (hdr, segments) ← recvExact 4 segments
  let n := Codec.getLE 4 hdr
  if n = 0 ∨ S.maxIn < n then none
  else
    let (envelope, _) ← recvExact n segments
    some ((parseEnvelope S envelope).getD (.raw envelope))

/-! ## The clients send -/

/-- The envelope, as both clients write it. -/
def envelopeText (N : Floats F) (w : Style) (scenario endpoint body : Text) : Text :=
  JsonCodec.dumps N w (.dict [(chars "scenario", .str scenario), (chars "endpoint", .str endpoint),
    (chars "body", .str body)])

/-- `json.dumps` with its defaults. -/
def pyStyle : Style := { ensureAscii := true, spaced := true }

/-- `cJSON_PrintUnformatted`, for texts of ASCII. -/
def cStyle : Style := { ensureAscii := false, spaced := false }

/-- The payload of `rpc_score_unix`. -/
def rpcPayload (N : Floats F) (scenario endpointName : Text) (normBody : Bytes) : Bytes :=
  Utf8.encode (envelopeText N pyStyle scenario endpointName
    ((Base64.encode normBody).map UInt8.toNat))

/-- What `rpc_score_unix` sends; `struct.pack` raises for a payload that is too long. -/
def rpcScoreUnixSends (N : Floats F) (scenario endpointName : Text) (normBody : Bytes) :
    Option Bytes :=
  let payload := rpcPayload N scenario endpointName normBody
  if payload.length < 2 ^ 32 then some (Codec.putLE 4 payload.length ++ payload) else none

/-- `json_str` of `nv_validity_rpc_score_unix`. -/
def nvRpcEnvelope (N : Floats F) (buf : Bytes) : Bytes :=
  Utf8.encode (envelopeText N cStyle ((nvRpcScenario buf).map UInt8.toNat) []
    ((sentBody buf).map UInt8.toNat))

/-- What `nv_validity_rpc_score_unix` sends; `json_len` has 32 bits. -/
def nvRpcSends (N : Floats F) (buf : Bytes) : Bytes :=
  let jsonLen := (nvRpcEnvelope N buf).length % 2 ^ 32
  Codec.putLE 4 jsonLen ++ (nvRpcEnvelope N buf).take jsonLen

/-! ## What the server decodes -/

theorem recvExact_eq {n : ℕ} {segments : List Bytes} (hne : ∀ segment ∈ segments, segment ≠ [])
    (hlen : n ≤ segments.flatten.length) :
    ∃ rest, recvExact n segments = some (segments.flatten.take n, rest) ∧
      Delivers (segments.flatten.drop n) rest := by
  induction segments generalizing n with
  | nil =>
    obtain rfl : n = 0 := Nat.le_zero.mp hlen
    exact ⟨[], rfl, hne, rfl⟩
  | cons chunk segments ih =>
    obtain ⟨hchunk, hrest⟩ := List.forall_mem_cons.mp hne
    cases n with
    | zero => exact ⟨chunk :: segments, rfl, hne, rfl⟩
    | succ n =>
      rw [List.flatten_cons, List.length_append] at hlen
      rw [recvExact, if_neg hchunk, List.flatten_cons]
      split_ifs with hlong
      · refine ⟨_, by rw [List.take_append_of_le_length (by omega)], ?_, ?_⟩
        · refine List.forall_mem_cons.mpr ⟨fun hnil => ?_, hrest⟩
          have hzero := congrArg List.length hnil
          rw [List.length_drop, List.length_nil] at hzero
          omega
        · rw [List.flatten_cons, List.drop_append_of_le_length (by omega)]
      · obtain ⟨rest, hrecv, hdelivers⟩ := ih hrest (n := n + 1 - chunk.length) (by omega)
        have htake : chunk.take (n + 1) = chunk := List.take_of_length_le (by omega)
        have hdrop : chunk.drop (n + 1) = [] := List.drop_eq_nil_of_le (by omega)
        refine ⟨rest, ?_, ?_⟩
        · rw [hrecv, Option.map_some, List.take_append, htake]
        · rw [List.drop_append, hdrop]
          exact hdelivers

/-- The limits of `json.loads` leave an envelope of three strings alone. -/
def AcceptsEnvelopes (I : Interp F) : Prop :=
  ∀ w scenario endpoint body, I.refuses (envelopeText I.floats w scenario endpoint body) = false

theorem b64decode_encode (body : Bytes) :
    b64decode ((Base64.encode body).map UInt8.toNat) = some body := by
  have hascii : ((Base64.encode body).map UInt8.toNat).all (· < 128) = true := by
    rw [List.all_eq_true]
    intro c hc
    obtain ⟨b, hb, rfl⟩ := List.mem_map.mp hc
    have hchar := Base64.encode_mem hb
    exact decide_eq_true (by omega)
  rw [b64decode, if_pos hascii, Response.map_ofNat_toNat, Base64.decode_encode]

theorem ascii_b64 (body : Bytes) : Ascii ((Base64.encode body).map UInt8.toNat) := by
  intro c hc
  obtain ⟨b, hb, rfl⟩ := List.mem_map.mp hc
  have hchar := Base64.encode_mem hb
  omega

/-- The members of an envelope. -/
def envelopeMembers (scenario endpoint body : Text) : List (Text × Value F) :=
  [(chars "scenario", .str scenario), (chars "endpoint", .str endpoint), (chars "body", .str body)]

theorem wf_envelope {scenario endpoint body : Text} (hscenario : IsStr scenario)
    (hendpoint : IsStr endpoint) (hbody : IsStr body) :
    (Value.dict (envelopeMembers scenario endpoint body) : Value F).Wf := by
  have hkeys : ∀ key ∈ [chars "scenario", chars "endpoint", chars "body"], encodes key = true := by
    decide
  have hnodup : [chars "scenario", chars "endpoint", chars "body"].Nodup := by decide
  simp only [List.forall_mem_cons] at hkeys
  obtain ⟨k₁, k₂, k₃, -⟩ := hkeys
  exact ⟨hnodup, isStr_of_encodes k₁, hscenario, isStr_of_encodes k₂, hendpoint,
    isStr_of_encodes k₃, hbody, trivial⟩

/-- An envelope that can be encoded is decoded. -/
theorem parseEnvelope_eq (haccepts : AcceptsEnvelopes S.interp) {w : Style}
    {scenario endpoint : Text} {body : Bytes} (hscenario : IsStr scenario)
    (hendpoint : IsStr endpoint)
    (henc : encodes (envelopeText S.interp.floats w scenario endpoint
      ((Base64.encode body).map UInt8.toNat)) = true) :
    parseEnvelope S (Utf8.encode (envelopeText S.interp.floats w scenario endpoint
      ((Base64.encode body).map UInt8.toNat))) = some (.decoded scenario endpoint body) := by
  have hloads : loadsBytes S.interp (Utf8.encode (envelopeText S.interp.floats w scenario endpoint
      ((Base64.encode body).map UInt8.toNat))) = some (.dict (envelopeMembers scenario endpoint
        ((Base64.encode body).map UInt8.toNat))) := by
    have hbody := isStr_of_encodes (encodes_of_ascii (ascii_b64 body))
    rw [loadsBytes, Utf8.decode_encode (encodes_iff.mp henc), Option.bind_some, loads, haccepts,
      if_neg Bool.false_ne_true]
    exact read_dumps _ w (wf_envelope hscenario hendpoint hbody)
  have hfield : field S (envelopeMembers scenario endpoint
      ((Base64.encode body).map UInt8.toNat)) "body" "" =
        (Base64.encode body).map UInt8.toNat := rfl
  rw [parseEnvelope, hloads]
  dsimp only
  rw [hfield, b64decode_encode]
  rfl

/-- The server decodes a frame that is not too long, however it arrives. -/
theorem recvOne_frame {envelope : Bytes} {r : Received} (hparse : parseEnvelope S envelope = some r)
    (hpos : envelope ≠ []) (hmax : envelope.length ≤ S.maxIn) (hlen : envelope.length < 2 ^ 32)
    {segments : List Bytes}
    (hdelivers : Delivers (Codec.putLE 4 envelope.length ++ envelope) segments) :
    recvOne S segments = some r := by
  have hhdr := Codec.length_putLE 4 envelope.length
  have htotal : segments.flatten.length = 4 + envelope.length := by
    rw [hdelivers.flatten, List.length_append, hhdr]
  obtain ⟨rest, hrecv, hrest⟩ := recvExact_eq (n := 4) hdelivers.nonempty (by omega)
  have htake : segments.flatten.take 4 = Codec.putLE 4 envelope.length := by
    rw [hdelivers.flatten, List.take_left' hhdr]
  have hdrop : segments.flatten.drop 4 = envelope := by
    rw [hdelivers.flatten, List.drop_left' hhdr]
  have hn : Codec.getLE 4 (Codec.putLE 4 envelope.length) = envelope.length := by
    have h := Codec.getLE_putLE [] 4 envelope.length
    rw [List.append_nil] at h
    rw [h]
    exact Nat.mod_eq_of_lt hlen
  rw [hdrop] at hrest
  obtain ⟨rest', hrecv', -⟩ := recvExact_eq (n := envelope.length) hrest.nonempty
    (by rw [hrest.flatten])
  rw [hrest.flatten, List.take_length] at hrecv'
  have hpos' : envelope.length ≠ 0 := fun h => hpos (List.eq_nil_of_length_eq_zero h)
  simp only [recvOne, hrecv, Option.bind_eq_bind, Option.bind_some, htake, hn]
  rw [if_neg (by omega), hrecv']
  simp only [Option.bind_some, hparse, Option.getD_some]

theorem encode_envelope_ne_nil {N : Floats F} {w : Style} {scenario endpoint body : Text} :
    Utf8.encode (envelopeText N w scenario endpoint body) ≠ [] :=
  Utf8.encode_ne_nil (List.ne_nil_of_length_pos (dumps_length_pos _ _ _))

/-- The server decodes the request of the Python client. -/
theorem recvOne_rpc (haccepts : AcceptsEnvelopes S.interp) {scenario endpointName : Text}
    {normBody : Bytes} (hscenario : IsStr scenario) (hendpoint : IsStr endpointName)
    (hmax : (rpcPayload S.interp.floats scenario endpointName normBody).length ≤ S.maxIn)
    {sent : Bytes} (hsent : rpcScoreUnixSends S.interp.floats scenario endpointName normBody =
      some sent) {segments : List Bytes} (hdelivers : Delivers sent segments) :
    recvOne S segments = some (.decoded scenario endpointName normBody) := by
  rw [rpcScoreUnixSends] at hsent
  split_ifs at hsent with hlen
  obtain rfl := Option.some.inj hsent
  have hbody := isStr_of_encodes (encodes_of_ascii (ascii_b64 normBody))
  have hascii := dumps_ascii S.interp.floats (w := pyStyle) rfl _
    (wf_envelope hscenario hendpoint hbody)
  exact recvOne_frame S (parseEnvelope_eq S haccepts hscenario hendpoint (encodes_of_ascii hascii))
    encode_envelope_ne_nil hmax hlen hdelivers

/-! ## The encoder of the C client -/

theorem nvB64Table_getD {n : ℕ} (hn : n < 64) : nvB64Table.getD n 0 = Base64.char n := by
  have htable : nvB64Table = (List.range 64).map Base64.char := by decide
  rw [htable, List.getD_eq_getElem _ _ (by simpa using hn), List.getElem_map, List.getElem_range]

theorem nvB64Group_eq (a b c : UInt8) :
    nvB64Group a b c = [Base64.char (a.toNat / 4), Base64.char (a.toNat % 4 * 16 + b.toNat / 16),
      Base64.char (b.toNat % 16 * 4 + c.toNat / 64), Base64.char (c.toNat % 64)] := by
  have ha := a.toNat_lt
  have hb := b.toNat_lt
  have hc := c.toNat_lt
  have hbits (n : ℕ) : n &&& 0x3f = n % 64 := Nat.and_two_pow_sub_one_eq_mod n 6
  have hchar (shift : ℕ) :
      nvB64Table.getD (((a.toNat <<< 16 + b.toNat <<< 8 + c.toNat) >>> shift) &&& 0x3f) 0 =
        Base64.char ((a.toNat * 2 ^ 16 + b.toNat * 2 ^ 8 + c.toNat) / 2 ^ shift % 64) := by
    rw [hbits, Nat.shiftLeft_eq, Nat.shiftLeft_eq, Nat.shiftRight_eq_div_pow]
    exact nvB64Table_getD (Nat.mod_lt _ (by decide))
  have h₁ : (a.toNat * 2 ^ 16 + b.toNat * 2 ^ 8 + c.toNat) / 2 ^ 18 % 64 = a.toNat / 4 := by omega
  have h₂ : (a.toNat * 2 ^ 16 + b.toNat * 2 ^ 8 + c.toNat) / 2 ^ 12 % 64 =
      a.toNat % 4 * 16 + b.toNat / 16 := by omega
  have h₃ : (a.toNat * 2 ^ 16 + b.toNat * 2 ^ 8 + c.toNat) / 2 ^ 6 % 64 =
      b.toNat % 16 * 4 + c.toNat / 64 := by omega
  have h₄ : (a.toNat * 2 ^ 16 + b.toNat * 2 ^ 8 + c.toNat) / 2 ^ 0 % 64 = c.toNat % 64 := by omega
  rw [nvB64Group]
  simp only [List.map_cons, List.map_nil, hchar, h₁, h₂, h₃, h₄]

theorem length_nvB64Loop (data : Bytes) :
    (nvB64Loop data).length = 4 * ((data.length + 2) / 3) := by
  induction data using nvB64Loop.induct with
  | case1 => rfl
  | case2 a => simp [nvB64Loop, nvB64Group]
  | case3 a b => simp [nvB64Loop, nvB64Group]
  | case4 a b c rest ih =>
    have hgroup : (nvB64Group a b c).length = 4 := rfl
    rw [nvB64Loop, List.length_append, hgroup, ih]
    simp only [List.length_cons]
    omega

/-- The end is padded behind the groups before it. -/
theorem nvBase64Encode_group (a b c : UInt8) (rest : Bytes) :
    nvBase64Encode (a :: b :: c :: rest) = nvB64Group a b c ++ nvBase64Encode rest := by
  have hgroup : (nvB64Group a b c).length = 4 := rfl
  have hmod : (a :: b :: c :: rest).length % 3 = rest.length % 3 := by
    simp only [List.length_cons]
    omega
  have htake {k : ℕ} (hk : k ≤ (nvB64Loop rest).length) :
      (nvB64Group a b c ++ nvB64Loop rest).take ((nvB64Group a b c ++ nvB64Loop rest).length - k) =
        nvB64Group a b c ++ (nvB64Loop rest).take ((nvB64Loop rest).length - k) := by
    rw [List.length_append, hgroup, Nat.add_sub_assoc hk, ← hgroup, List.take_length_add_append]
  have hlen := length_nvB64Loop rest
  simp only [nvBase64Encode, hmod, nvB64Loop]
  split
  · rw [htake (by omega), List.append_assoc]
  · rw [htake (by omega), List.append_assoc]
  · rfl

/-- The C client writes the base64 of the standard. -/
theorem nvBase64Encode_eq (data : Bytes) : nvBase64Encode data = Base64.encode data := by
  induction data using Base64.encode.induct with
  | case1 => rfl
  | case2 a =>
    simp only [nvBase64Encode, nvB64Loop, nvB64Group_eq]
    rfl
  | case3 a b =>
    simp only [nvBase64Encode, nvB64Loop, nvB64Group_eq]
    rfl
  | case4 a b c rest ih =>
    rw [nvBase64Encode_group, nvB64Group_eq, ih]
    rfl

/-- The text of the C client: four characters for three bytes, of the alphabet of the standard with
the pads of an incomplete group at the end, read back by the strict and by the lenient reader, and
another text for other data. -/
theorem nvBase64Encode_round_trip (data : Bytes) :
    (nvBase64Encode data).length = 4 * ((data.length + 2) / 3) ∧
    (∃ body, nvBase64Encode data = body ++ List.replicate ((3 - data.length % 3) % 3) 61 ∧
      ∀ ch ∈ body, ∃ n < 64, ch = Base64.char n) ∧
    Base64.decodeStrict (nvBase64Encode data) = some data ∧
    Base64.decode (nvBase64Encode data) = some data ∧
    ∀ other : Bytes, other ≠ data → nvBase64Encode other ≠ nvBase64Encode data := by
  simp only [nvBase64Encode_eq]
  refine ⟨Base64.length_encode data, Base64.encode_eq_append data, Base64.decodeStrict_encode data,
    Base64.decode_encode data, fun other hother heq => hother ?_⟩
  have hread := Base64.decodeStrict_encode other
  rw [heq, Base64.decodeStrict_encode data] at hread
  exact (Option.some.inj hread).symm

/-- The server decodes the request of the C client. -/
theorem recvOne_nvRpc (haccepts : AcceptsEnvelopes S.interp) {buf : Bytes}
    (hmax : (nvRpcEnvelope S.interp.floats buf).length ≤ S.maxIn)
    (hlen : (nvRpcEnvelope S.interp.floats buf).length < 2 ^ 32) {segments : List Bytes}
    (hdelivers : Delivers (nvRpcSends S.interp.floats buf) segments) :
    recvOne S segments =
      some (.decoded ((nvRpcScenario buf).map UInt8.toNat) [] (scoredBody buf)) := by
  have hscenario : encodes ((nvRpcScenario buf).map UInt8.toNat) = true := by
    rcases nvRpcScenario_cases buf with h | h <;> (rw [h]; decide)
  have hbody : encodes ((Base64.encode (scoredBody buf)).map UInt8.toNat) = true :=
    encodes_of_ascii (ascii_b64 _)
  have hwf := wf_envelope (F := F) (isStr_of_encodes hscenario) (isStr_of_encodes encodes_nil)
    (isStr_of_encodes hbody)
  have hkeys : encodes (chars "scenario") = true ∧ encodes (chars "endpoint") = true ∧
      encodes (chars "body") = true := by decide
  have henc : encodes (envelopeText S.interp.floats cStyle ((nvRpcScenario buf).map UInt8.toNat) []
      ((Base64.encode (scoredBody buf)).map UInt8.toNat)) = true := by
    rw [envelopeText, encodes_dumps rfl]
    simp only [encodable, encodableMembers, hscenario, hbody, hkeys, encodes_nil, Bool.and_self]
  rw [nvRpcSends, Nat.mod_eq_of_lt hlen, List.take_length] at hdelivers
  have hparse := parseEnvelope_eq S haccepts (isStr_of_encodes hscenario)
    (isStr_of_encodes encodes_nil) henc
  rw [nvRpcEnvelope, sentBody, nvBase64Encode_eq] at hdelivers hmax hlen
  exact recvOne_frame S hparse encode_envelope_ne_nil hmax hlen hdelivers

/-! ## The server answers -/

/-- A finite score, by the word of its double. -/
structure Score where
  bits : ℕ
  bits_lt : bits < 2 ^ 64
  finite : Binary64.exponentOf bits ≠ 2047

/-- Six digits of a number below a million. -/
def sixDigits (r : ℕ) : Bytes :=
  [100000, 10000, 1000, 100, 10, 1].map fun unit => UInt8.ofNat (48 + r / unit % 10)

theorem sixDigits_digit {r : ℕ} {b : UInt8} (h : b ∈ sixDigits r) : Numeral.isDigit b = true := by
  have hdigit (n : ℕ) : Numeral.isDigit (UInt8.ofNat (48 + n % 10)) = true := by
    have hlt := Nat.mod_lt n (show 0 < 10 by decide)
    have hcases : ∀ m < 10, Numeral.isDigit (UInt8.ofNat (48 + m)) = true := by decide
    exact hcases _ hlt
  obtain ⟨unit, -, rfl⟩ := List.mem_map.mp h
  exact hdigit _

namespace Score

variable (d : Score)

def value : ℚ := Binary64.valueOf d.bits

/-- The score in millionths, rounded. -/
def millionths : ℕ := Binary64.digits 6 d.bits

/-- The score with six digits behind the point. -/
def sixDecimals : ℚ := Binary64.decimals 6 d.bits

/-- `f"{float(score):.6f}"` -/
def numeral : Numeral where
  sign := if Binary64.isNegative d.bits then some true else none
  whole := AflNv.showNat (d.millionths / 10 ^ 6)
  frac := some (sixDigits (d.millionths % 10 ^ 6))
  exp := none
  whole_ok b hb := by
    have hdigit := AflNv.showNat_digit hb
    simp only [Numeral.isDigit, Bool.and_eq_true, decide_eq_true_eq, UInt8.le_iff_toNat_le]
    exact hdigit
  frac_ok _ hb := sixDigits_digit hb
  digits_ne h := by
    have hlen := congrArg List.length (List.append_eq_nil_iff.mp h).2
    simp [sixDigits] at hlen

/-- The text format: the number and a newline. -/
def response : Response where
  lead := []
  number := d.numeral
  trail := [10]
  lead_blank := nil_blank
  trail_blank := newline_blank

end Score

/-- `str.lower`, as far as it matters for what is compared with it. -/
def asciiLower (c : ℕ) : ℕ := if 65 ≤ c ∧ c ≤ 90 then c + 32 else c

/-- `FMT == "binary"`, for what `os.getenv` returns. -/
def isBinary (fmt : Option Text) : Bool :=
  (Unicode.strip (fmt.getD (chars "text"))).map asciiLower = chars "binary"

/-- `send_score` -/
def sendScore (fmt : Option Text) (d : Score) : Bytes :=
  if isBinary fmt then Codec.putLE 8 d.bits else d.response.text

/-! ## The C client reads the answer -/

/-- `!strcmp(fmt, "bin")`; the texts of the environment are compared as Python has them. -/
def wantBin (fmt : Option Text) : Bool := fmt = some (chars "bin")

/-- Eight bytes as a double. -/
def replyOf (bits : ℕ) : RpcReply :=
  if Binary64.exponentOf bits = 2047 then
    if bits % 2 ^ 52 = 0 then .score (.inf (Binary64.isNegative bits)) else .nan
  else .score (.finite (Binary64.valueOf bits))

/-- The end of `nv_validity_rpc_score_unix`. -/
def nvReadScore (lib : ScoreLib) (fmt : Option Text) (segments : List Bytes) : RpcReply :=
  if wantBin fmt then
    match recvExact 8 segments with
    | none => .fail
    | some (score, _) => replyOf (Codec.getLE 8 score)
  else nvRecvScore lib segments

/-- Both sides take the format for the text format. -/
def TextFormat (fmt : Option Text) : Prop := wantBin fmt = false ∧ isBinary fmt = false

/-- The score that is sent, as the client should have it. -/
def sentScore (lib : ScoreLib) (fmt : Option Text) (d : Score) : CDouble :=
  if isBinary fmt then .finite d.value else lib.round d.sixDecimals

/-- What is documented of the conversions: a double is left alone, the order is kept, and no number
with six decimals that comes from a double is out of range. -/
structure Rounds (lib : ScoreLib) : Prop where
  exact : ∀ d : Score, lib.round d.value = .finite d.value
  mono : ∀ p q, p ≤ q → (lib.round q).ge (lib.round p) = true
  range : ∀ d : Score, lib.erange d.sixDecimals = false

theorem natOf_sixDigits {r : ℕ} (hr : r < 10 ^ 6) : Numeral.natOf (sixDigits r) = r := by
  have hbyte (n : ℕ) : (UInt8.ofNat (48 + n % 10)).toNat - 48 = n % 10 := by
    rw [UInt8.toNat_ofNat']
    omega
  simp only [sixDigits, List.map_cons, List.map_nil, Numeral.natOf, List.foldl_cons,
    List.foldl_nil, hbyte]
  omega

theorem Score.numeral_whole (d : Score) :
    d.numeral.whole = AflNv.showNat (d.millionths / 10 ^ 6) := rfl

theorem Score.numeral_frac (d : Score) :
    d.numeral.frac.getD [] = sixDigits (d.millionths % 10 ^ 6) := rfl

/-- The text of a score. -/
theorem Score.text_eq (d : Score) : d.response.text =
    Numeral.Sign.text d.numeral.sign ++ (AflNv.showNat (d.millionths / 10 ^ 6) ++
      (46 :: sixDigits (d.millionths % 10 ^ 6))) ++ [10] := by
  show (Numeral.Sign.text d.numeral.sign ++ (AflNv.showNat (d.millionths / 10 ^ 6) ++
    ((46 :: sixDigits (d.millionths % 10 ^ 6)) ++ []))) ++ [10] = _
  rw [List.append_nil]

/-- The numeral denotes the rounded score. -/
theorem Score.numeral_value (d : Score) : d.numeral.value = d.sixDecimals := by
  have hwhole : Numeral.natOf (AflNv.showNat (d.millionths / 10 ^ 6)) = d.millionths / 10 ^ 6 :=
    AflNv.readNat_showNat _
  have hdigits : Numeral.natOf (AflNv.showNat (d.millionths / 10 ^ 6) ++
      sixDigits (d.millionths % 10 ^ 6)) = d.millionths := by
    have hlen : (sixDigits (d.millionths % 10 ^ 6)).length = 6 := rfl
    rw [Numeral.natOf_append, hwhole, natOf_sixDigits (Nat.mod_lt _ (by decide)), hlen]
    omega
  show Numeral.valueOf (Numeral.Sign.isMinus (if Binary64.isNegative d.bits then some true
    else none)) (AflNv.showNat (d.millionths / 10 ^ 6)) (sixDigits (d.millionths % 10 ^ 6)) 0 = _
  rw [Numeral.valueOf, Numeral.scale_zero, hdigits]
  have hlen : (sixDigits (d.millionths % 10 ^ 6)).length = 6 := rfl
  rw [hlen, Score.sixDecimals, Binary64.decimals, Binary64.signOf, ← Score.millionths]
  cases Binary64.isNegative d.bits
  · rfl
  · rfl

/-! ## What the client obtains -/

/-- In the text format the client obtains the rounded score exactly if the bytes of the first `recv`
hold it. -/
theorem nvReadScore_text (lib : ScoreLib) {fmt : Option Text} (hfmt : TextFormat fmt) (d : Score)
    {segment : Bytes} {segments : List Bytes}
    (hdelivers : Delivers (sendScore fmt d) (segment :: segments)) :
    nvReadScore lib fmt (segment :: segments) = .score (lib.round d.sixDecimals) ↔
      d.response.Delivered lib (min 63 segment.length) := by
  have hflatten := hdelivers.flatten
  rw [sendScore, hfmt.2, if_neg Bool.false_ne_true, List.flatten_cons] at hflatten
  have hstart : segment.take 63 = d.response.text.take (min 63 segment.length) := by
    rw [← hflatten, List.take_append_of_le_length (Nat.min_le_right _ _), ← List.take_take,
      List.take_length]
  have hfirst : nvRecvScore lib (segment :: segments) =
      nvRecvScore lib (segment.take 63 :: segments) := by
    rw [nvRecvScore, nvRecvScore, List.take_take, Nat.min_self]
  have hvalue : d.response.number.value = d.sixDecimals := d.numeral_value
  rw [nvReadScore, hfmt.1, if_neg Bool.false_ne_true, hfirst,
    d.response.nvRecvScore_eq lib hstart (Nat.min_le_left _ _), Response.Delivered, hvalue]
  cases d.response.number.cut (min 63 segment.length - d.response.lead.length) with
  | none => simp
  | some c =>
    cases herange : lib.erange c.value with
    | true => simp [herange]
    | false => simp [herange]

/-- A numeral of which only zeros are missing is delivered. -/
theorem delivered_of_missingZero {lib : ScoreLib} (hlib : Rounds lib) (d : Score) {k : ℕ}
    (hk : (Numeral.Sign.text d.numeral.sign).length < k) (hmissing : d.numeral.MissingZero k) :
    d.response.Delivered lib k := by
  have hwhole : d.numeral.whole ≠ [] := fun h => Nat.toDigits_ne_nil (List.map_eq_nil_iff.mp h)
  have hcut : ∃ c, d.numeral.cut k = some c := by
    have htake : d.numeral.whole.take (k - (Numeral.Sign.text d.numeral.sign).length) ≠ [] := by
      rw [ne_eq, List.take_eq_nil_iff]
      exact not_or.mpr ⟨by omega, hwhole⟩
    unfold Numeral.cut
    rw [dif_pos (List.append_ne_nil_of_left_ne_nil htake _)]
    exact ⟨_, rfl⟩
  obtain ⟨c, hc⟩ := hcut
  have hvalue : c.value = d.sixDecimals :=
    ((Numeral.cut_value_eq_iff rfl hc).mpr hmissing).trans d.numeral_value
  refine ⟨c, hc, ?_, ?_⟩
  · rw [hvalue]
    exact hlib.range d
  · rw [hvalue]
    exact congrArg lib.round d.numeral_value.symm

/-- A numeral that arrives as a whole is delivered. -/
theorem delivered_whole {lib : ScoreLib} (hlib : Rounds lib) (d : Score) {k : ℕ}
    (hk : d.response.text.length ≤ k) : d.response.Delivered lib k := by
  have hlen : d.response.text.length =
      (Numeral.Sign.text d.numeral.sign).length + (d.numeral.whole.length + 7) + 1 := by
    rw [Score.text_eq, List.length_append, List.length_append, List.length_append]
    rfl
  have hsix : (d.numeral.frac.getD []).length = 6 := rfl
  have hwhole : d.numeral.whole.drop (k - (Numeral.Sign.text d.numeral.sign).length) = [] :=
    List.drop_eq_nil_of_le (by omega)
  have hfrac : (d.numeral.frac.getD []).drop
      (k - (Numeral.Sign.text d.numeral.sign).length - d.numeral.whole.length - 1) = [] :=
    List.drop_eq_nil_of_le (by omega)
  apply delivered_of_missingZero hlib d (by omega)
  rw [Numeral.MissingZero, hwhole, hfrac]
  exact ⟨fun b hb => absurd hb List.not_mem_nil, fun h => absurd rfl h⟩

/-- The verdicts of a number are those of a score, up to the rounding to six digits. -/
structure VerdictsOf (v : CDouble) (d : Score) : Prop where
  accepts : ∀ t : Score, t.value + 1 / 2 * (1 / 10 ^ 6) ≤ d.value →
    v.ge (.finite t.value) = true
  rejects : ∀ p t : Score, d.value + 1 / 2 * (1 / 10 ^ 6) ≤ p.value → p.value < t.value →
    v.ge (.finite t.value) = false

theorem verdictsOf_sentScore {lib : ScoreLib} (hlib : Rounds lib) (fmt : Option Text) (d : Score) :
    VerdictsOf (sentScore lib fmt d) d := by
  have hhalf : (0 : ℚ) < 1 / 2 * (1 / 10 ^ 6) := by positivity
  obtain ⟨hlow, hhigh⟩ := abs_le.mp (Binary64.abs_decimals_sub 6 d.bits)
  have hsix : d.sixDecimals = Binary64.decimals 6 d.bits := rfl
  have hvalue : d.value = Binary64.valueOf d.bits := rfl
  rw [sentScore]
  split_ifs
  · refine ⟨fun t ht => decide_eq_true ?_, fun p t hp ht => decide_eq_false ?_⟩
    · linarith
    · linarith
  · constructor
    · intro t ht
      rw [← hlib.exact t]
      apply hlib.mono
      linarith
    · intro p t hp ht
      have hle : (lib.round p.value).ge (lib.round d.sixDecimals) = true := by
        apply hlib.mono
        linarith
      rw [hlib.exact p] at hle
      cases hround : lib.round d.sixDecimals with
      | finite q =>
        rw [hround] at hle
        have hq : q ≤ p.value := of_decide_eq_true hle
        exact decide_eq_false (by linarith)
      | inf neg =>
        rw [hround] at hle
        cases neg
        · exact absurd hle Bool.false_ne_true
        · rfl

/-! ## A score of 0.75 -/

def threeQuarterScore : Score where
  bits := 0x3FE8000000000000
  bits_lt := by decide
  finite := by decide

theorem units_threeQuarterScore : ∃ unit, 2 ^ 1021 ≤ unit ∧
    Binary64.units threeQuarterScore.bits = 3 * unit ∧ Binary64.one = 4 * unit := by
  have hexponent : Binary64.exponentOf threeQuarterScore.bits = 1021 + 1 := by decide
  have hrest : 2 ^ 52 + threeQuarterScore.bits % 2 ^ 52 = 3 * 2 ^ 51 := by decide
  refine ⟨2 ^ 51 * 2 ^ 1021, Nat.le_mul_of_pos_left _ (by decide), ?_, ?_⟩
  · rw [Binary64.units, hexponent, if_neg (by decide), hrest, Nat.add_sub_cancel, Nat.mul_assoc]
  · have hpow : 2 ^ 53 = 4 * 2 ^ 51 := by decide
    rw [Binary64.one_eq (show 53 + 1021 = 1074 by decide), hpow, Nat.mul_assoc]

theorem value_threeQuarterScore : threeQuarterScore.value = 3 / 4 := by
  obtain ⟨unit, hle, hunits, hone⟩ := units_threeQuarterScore
  have hpos : (0 : ℚ) < unit :=
    Nat.cast_pos.mpr ((Nat.pos_of_ne_zero (pow_ne_zero 1021 (by decide))).trans_le hle)
  have hsign : Binary64.signOf threeQuarterScore.bits = 1 := rfl
  rw [Score.value, Binary64.valueOf, hsign, hunits, hone, one_mul]
  push_cast
  field_simp

theorem millionths_threeQuarterScore : threeQuarterScore.millionths = 750000 := by
  obtain ⟨unit, -, hunits, hone⟩ := units_threeQuarterScore
  have hmul : Binary64.units threeQuarterScore.bits * 10 ^ 6 = 750000 * Binary64.one := by
    rw [hunits, hone]
    omega
  rw [Score.millionths, Binary64.digits, hmul, roundDiv_mul _ Binary64.one_pos]

theorem sixDecimals_threeQuarterScore :
    threeQuarterScore.sixDecimals = threeQuarterScore.value := by
  have hsign : Binary64.signOf threeQuarterScore.bits = 1 := rfl
  rw [value_threeQuarterScore, Score.sixDecimals, Binary64.decimals, hsign, ← Score.millionths,
    millionths_threeQuarterScore]
  norm_num

/-- The text, taken for a double, is a small number. -/
theorem replyOf_text :
    ∃ w, replyOf (Codec.getLE 8 (ascii "0.750000")) = .score (.finite w) ∧ w < 1 / 2 := by
  obtain ⟨unit, hle, -, hone⟩ := units_threeQuarterScore
  have hbits : Codec.getLE 8 (ascii "0.750000") = 0x3030303035372e30 := by decide
  have hexponent : Binary64.exponentOf 0x3030303035372e30 = 771 := by decide
  have hsign : Binary64.signOf 0x3030303035372e30 = 1 := rfl
  have hsmall := Binary64.units_lt hexponent.le (by decide)
  have hpow : 2 ^ (52 + 771) ≤ 2 ^ 1021 := by
    rw [Nat.pow_le_pow_iff_right (by omega)]
    decide
  have hlt := hsmall.trans_le (hpow.trans hle)
  refine ⟨_, by rw [hbits, replyOf, hexponent, if_neg (by decide)], ?_⟩
  have hhalf : Binary64.units 0x3030303035372e30 * 2 < 1 * Binary64.one := by omega
  have hpos : (0 : ℚ) < Binary64.one := Nat.cast_pos.mpr Binary64.one_pos
  rw [Binary64.valueOf, hsign, one_mul, div_lt_div_iff₀ hpos (by norm_num)]
  exact_mod_cast hhalf

theorem text_threeQuarterScore : threeQuarterScore.response.text = ascii "0.750000\n" := by
  have hsign : threeQuarterScore.numeral.sign = none := rfl
  rw [Score.text_eq, hsign, millionths_threeQuarterScore]
  decide

theorem sendScore_bin :
    sendScore (some (chars "bin")) threeQuarterScore = ascii "0.750000\n" := by
  have hfmt : isBinary (some (chars "bin")) = false := by decide
  rw [sendScore, hfmt, if_neg Bool.false_ne_true, text_threeQuarterScore]

/-- The client asks for a binary answer and gets a text. -/
theorem nvReadScore_bin (lib : ScoreLib) : ∃ w < 1 / 2,
    nvReadScore lib (some (chars "bin")) [ascii "0.750000\n"] = .score (.finite w) := by
  obtain ⟨w, hreply, hlt⟩ := replyOf_text
  have hwant : wantBin (some (chars "bin")) = true := rfl
  have hrecv : recvExact 8 [ascii "0.750000\n"] = some (ascii "0.750000", [[10]]) := by decide
  refine ⟨w, hlt, ?_⟩
  rw [nvReadScore, hwant, if_pos rfl, hrecv]
  exact hreply

/-- The server sends eight bytes, and the client reads a text. -/
theorem nvReadScore_binary (lib : ScoreLib) {fmt : Option Text} (hfmt : isBinary fmt = true) :
    nvReadScore lib fmt [sendScore fmt threeQuarterScore] = .fail := by
  have hwant : wantBin fmt = false := by
    apply decide_eq_false
    intro h
    rw [h] at hfmt
    exact absurd hfmt (by decide)
  have hbytes : Codec.putLE 8 threeQuarterScore.bits = [0, 0, 0, 0, 0, 0, 232, 63] := by decide
  rw [nvReadScore, hwant, if_neg Bool.false_ne_true, sendScore, hfmt, if_pos rfl, hbytes]
  rfl

/-! ## The two sides agree -/

/-- The client reads every score that arrives at once exactly if both sides take the format for the
text format. -/
theorem readsScore_iff {lib : ScoreLib} (hlib : Rounds lib) (fmt : Option Text) :
    (∀ d, (sendScore fmt d).length ≤ 63 →
      nvReadScore lib fmt [sendScore fmt d] = .score (sentScore lib fmt d)) ↔ TextFormat fmt := by
  constructor
  · intro h
    have hnotBinary : isBinary fmt = false := by
      rw [Bool.eq_false_iff]
      intro hfmt
      have hread := h threeQuarterScore (by
        rw [sendScore, if_pos hfmt, Codec.length_putLE]
        decide)
      rw [nvReadScore_binary lib hfmt] at hread
      cases hread
    refine ⟨?_, hnotBinary⟩
    rw [Bool.eq_false_iff]
    intro hwant
    obtain rfl : fmt = some (chars "bin") := of_decide_eq_true hwant
    obtain ⟨w, hlt, hreply⟩ := nvReadScore_bin lib
    have hread := h threeQuarterScore (by
      rw [sendScore_bin]
      decide)
    rw [sendScore_bin, hreply, sentScore, hnotBinary, if_neg Bool.false_ne_true,
      sixDecimals_threeQuarterScore, hlib.exact, value_threeQuarterScore, RpcReply.score.injEq,
      CDouble.finite.injEq] at hread
    rw [hread] at hlt
    exact absurd hlt (by norm_num)
  · intro hfmt d hlen
    have hsent : sendScore fmt d = d.response.text := by
      rw [sendScore, hfmt.2, if_neg Bool.false_ne_true]
    have hne : d.response.text ≠ [] := by
      rw [Score.text_eq]
      exact List.append_ne_nil_of_right_ne_nil _ (List.cons_ne_nil _ _)
    have hdelivers : Delivers (sendScore fmt d) [sendScore fmt d] :=
      ⟨List.forall_mem_singleton.mpr (hsent ▸ hne), List.flatten_singleton⟩
    rw [sentScore, hfmt.2, if_neg Bool.false_ne_true, nvReadScore_text lib hfmt d hdelivers,
      Nat.min_eq_right hlen]
    exact delivered_whole hlib d (hsent ▸ le_rfl)

/-- The server decodes what the clients send, in any segmentation.  The client reads the scores
exactly in the text format, and there exactly those whose digits arrive at once; their verdicts are
those of the scores that are not rounded. -/
theorem scoring_protocol (haccepts : AcceptsEnvelopes S.interp) {lib : ScoreLib}
    (hlib : Rounds lib) :
    (∀ scenario endpointName normBody sent segments, IsStr scenario → IsStr endpointName →
      (rpcPayload S.interp.floats scenario endpointName normBody).length ≤ S.maxIn →
      rpcScoreUnixSends S.interp.floats scenario endpointName normBody = some sent →
      Delivers sent segments →
      recvOne S segments = some (.decoded scenario endpointName normBody)) ∧
    (∀ buf segments, (nvRpcEnvelope S.interp.floats buf).length ≤ S.maxIn →
      (nvRpcEnvelope S.interp.floats buf).length < 2 ^ 32 →
      Delivers (nvRpcSends S.interp.floats buf) segments →
      recvOne S segments =
        some (.decoded ((nvRpcScenario buf).map UInt8.toNat) [] (scoredBody buf))) ∧
    (∀ fmt, (∀ d, (sendScore fmt d).length ≤ 63 →
      nvReadScore lib fmt [sendScore fmt d] = .score (sentScore lib fmt d)) ↔ TextFormat fmt) ∧
    (∀ fmt d segment segments, TextFormat fmt →
      Delivers (sendScore fmt d) (segment :: segments) →
      (nvReadScore lib fmt (segment :: segments) = .score (sentScore lib fmt d) ↔
        d.response.Delivered lib (min 63 segment.length))) ∧
    ∀ fmt d, VerdictsOf (sentScore lib fmt d) d := by
  refine ⟨?_, ?_, readsScore_iff hlib, ?_, verdictsOf_sentScore hlib⟩
  · intro scenario endpointName normBody sent segments hscenario hendpoint hmax hsent hdelivers
    exact recvOne_rpc S haccepts hscenario hendpoint hmax hsent hdelivers
  · intro buf segments hmax hlen hdelivers
    exact recvOne_nvRpc S haccepts hmax hlen hdelivers
  · intro fmt d segment segments hfmt hdelivers
    have hsent : sentScore lib fmt d = lib.round d.sixDecimals := by
      rw [sentScore, hfmt.2, if_neg Bool.false_ne_true]
    rw [hsent]
    exact nvReadScore_text lib hfmt d hdelivers

/-- A server with the default of `MAX_IN`. -/
def plainServer : Server Special where
  interp := plainInterp
  pyStr _ := []
  maxIn := 262144

theorem rounds_exactScoreLib : Rounds exactScoreLib where
  exact _ := rfl
  mono _ _ h := decide_eq_true h
  range _ := rfl

/-- A score of 0.75 in two pieces is read if its digits are in the first. -/
theorem scoring_protocol_pieces :
    Delivers (ascii "0.750000\n") [ascii "0.75", ascii "0000\n"] ∧
    sendScore none threeQuarterScore = ascii "0.750000\n" ∧
    nvReadScore exactScoreLib none [ascii "0.75", ascii "0000\n"] = .score (.finite (3 / 4)) := by
  have hfmt : TextFormat none := by unfold TextFormat; decide
  have hsent : sendScore none threeQuarterScore = ascii "0.750000\n" := by
    rw [sendScore, hfmt.2, if_neg Bool.false_ne_true, text_threeQuarterScore]
  have hdelivers : Delivers (ascii "0.750000\n") [ascii "0.75", ascii "0000\n"] :=
    ⟨by decide, by decide⟩
  have hagree := scoring_protocol plainServer (fun _ _ _ _ => rfl) rounds_exactScoreLib
  have hread := hagree.2.2.2.1 none threeQuarterScore (ascii "0.75") [ascii "0000\n"] hfmt
    (hsent ▸ hdelivers)
  have hscore : sentScore exactScoreLib none threeQuarterScore = .finite (3 / 4) := by
    rw [sentScore, hfmt.2, if_neg Bool.false_ne_true, sixDecimals_threeQuarterScore,
      value_threeQuarterScore]
    rfl
  have hmissing : threeQuarterScore.numeral.MissingZero 4 := by
    have hwhole : threeQuarterScore.numeral.whole = [48] := by
      rw [Score.numeral_whole, millionths_threeQuarterScore]
      decide
    have hfrac : threeQuarterScore.numeral.frac.getD [] = [55, 53, 48, 48, 48, 48] := by
      rw [Score.numeral_frac, millionths_threeQuarterScore]
      decide
    have hsign : threeQuarterScore.numeral.sign = none := rfl
    rw [Numeral.MissingZero, hwhole, hfrac, hsign]
    exact ⟨by simp [Numeral.Sign.text], by simp [Numeral.Sign.text]⟩
  refine ⟨hdelivers, hsent, ?_⟩
  rw [← hscore, hread]
  exact delivered_of_missingZero rounds_exactScoreLib _ (by decide) hmissing

/-- A score of 0.75: with `bin` the client reads a text as a double, with `binary` eight bytes as a
text, and in two pieces it reads the first. -/
theorem score_is_misread :
    sentScore exactScoreLib (some (chars "bin")) threeQuarterScore = .finite (3 / 4) ∧
    (∃ w < 1 / 2, nvReadScore exactScoreLib (some (chars "bin"))
      [sendScore (some (chars "bin")) threeQuarterScore] = .score (.finite w)) ∧
    nvReadScore exactScoreLib (some (chars "binary"))
      [sendScore (some (chars "binary")) threeQuarterScore] = .fail ∧
    Delivers (sendScore none threeQuarterScore) [ascii "0", ascii ".750000\n"] ∧
    nvReadScore exactScoreLib none [ascii "0", ascii ".750000\n"] = .score (.finite 0) := by
  have hbin : isBinary (some (chars "bin")) = false := by decide
  have hnone : isBinary none = false := by decide
  have hzero : Numeral.valueOf false [48] [] 0 = 0 := by
    rw [Numeral.valueOf, Numeral.scale_zero]
    simp [Numeral.natOf]
  refine ⟨?_, ?_, nvReadScore_binary _ (by decide), ⟨by decide, ?_⟩, ?_⟩
  · rw [sentScore, hbin, if_neg Bool.false_ne_true, sixDecimals_threeQuarterScore,
      value_threeQuarterScore]
    rfl
  · rw [sendScore_bin]
    exact nvReadScore_bin _
  · rw [sendScore, hnone, if_neg Bool.false_ne_true, text_threeQuarterScore]
    decide
  · rw [← hzero]
    rfl

end AflNv.ScoreProtocol
