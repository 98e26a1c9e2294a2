import AflNv.Python

/-!
# The status document

What `write_status` of `nv_http_harness.py` reports about one execution: the class of
the answer, the items of `st`, and their two texts, the one of the snapshot and the line
of the ledger.  `json.dumps` with `ensure_ascii=False` escapes the control characters,
so the line of the ledger has no line break (`ledgerBody_oneLine`).
-/

namespace AflNv

open AflNv.Lib

/-! ## JSON texts -/

/-- A digit of `{0:04x}`. -/
def hexDigit (n : UInt8) : UInt8 := if n < 10 then 48 + n else 87 + n

/-- What the encoder writes for a byte of a string, which is UTF-8. -/
def escapeByte (b : UInt8) : Bytes :=
  if b = 34 then [92, 34]
  else if b = 92 then [92, 92]
  else if b = 10 then [92, 110]
  else if b = 13 then [92, 114]
  else if b = 9 then [92, 116]
  else if b = 12 then [92, 102]
  else if b = 8 then [92, 98]
  else if b < 32 then [92, 117, 48, 48, hexDigit (b / 16), hexDigit (b % 16)]
  else [b]

def encodeString (s : Bytes) : Bytes := 34 :: (s.flatMap escapeByte ++ [34])

/-- A value of the document. -/
inductive StatusValue where
  | int (i : ℤ)
  | str (s : Bytes)

def StatusValue.text : StatusValue → Bytes
  | .int i => showInt i
  | .str s => encodeString s

def itemText (keySep : Bytes) (item : Bytes × StatusValue) : Bytes :=
  encodeString item.1 ++ keySep ++ item.2.text

def itemsText (itemSep keySep : Bytes) : List (Bytes × StatusValue) → Bytes
  | [] => []
  | [item] => itemText keySep item
  | item :: next :: rest =>
    itemText keySep item ++ itemSep ++ itemsText itemSep keySep (next :: rest)

/-- `json.dumps` of a dictionary, with its separators. -/
def dumps (itemSep keySep : Bytes) (items : List (Bytes × StatusValue)) : Bytes :=
  123 :: (itemsText itemSep keySep items ++ [125])

theorem oneLine_append {a b : Bytes} (ha : OneLine a) (hb : OneLine b) : OneLine (a ++ b) := by
  intro x hx
  rcases List.mem_append.mp hx with hx | hx
  · exact ha x hx
  · exact hb x hx

theorem isLineBreak_hexDigit {n : UInt8} (h : n < 16) : isLineBreak (hexDigit n) = false := by
  obtain ⟨k, hk, rfl⟩ : ∃ k < 16, n = UInt8.ofNat k :=
    ⟨n.toNat, UInt8.lt_iff_toNat_lt.mp h, (UInt8.ofNat_toNat).symm⟩
  interval_cases k <;> rfl

theorem oneLine_escapeByte (b : UInt8) : OneLine (escapeByte b) := by
  rw [escapeByte]
  split_ifs with hquote hback hnl hcr
  iterate 7 exact by decide
  · -- A control character: four digits behind `\u`.
    have hdiv : isLineBreak (hexDigit (b / 16)) = false := by
      apply isLineBreak_hexDigit
      rw [UInt8.lt_iff_toNat_lt, UInt8.toNat_div]
      exact Nat.div_lt_of_lt_mul b.toNat_lt
    have hmod : isLineBreak (hexDigit (b % 16)) = false := by
      apply isLineBreak_hexDigit
      rw [UInt8.lt_iff_toNat_lt, UInt8.toNat_mod]
      exact Nat.mod_lt _ (by decide)
    intro x hx
    simp only [List.mem_cons, List.not_mem_nil, or_false] at hx
    rcases hx with rfl | rfl | rfl | rfl | rfl | rfl
    iterate 4 rfl
    · exact hdiv
    · exact hmod
  · intro x hx
    rw [List.mem_singleton.mp hx]
    simp only [isLineBreak, nl, hnl, hcr, decide_false, Bool.or_false]

theorem oneLine_encodeString (s : Bytes) : OneLine (encodeString s) := by
  have hbody : OneLine (s.flatMap escapeByte) := by
    intro x hx
    obtain ⟨b, -, hb⟩ := List.mem_flatMap.mp hx
    exact oneLine_escapeByte b x hb
  exact oneLine_append (show OneLine [34] by decide) (oneLine_append hbody (by decide))

theorem oneLine_statusValue (v : StatusValue) : OneLine v.text := by
  cases v with
  | int i => exact oneLine_of_number (showInt_numberByte i)
  | str s => exact oneLine_encodeString s

theorem oneLine_itemsText {itemSep keySep : Bytes} (hitem : OneLine itemSep) (hkey : OneLine keySep)
    (items : List (Bytes × StatusValue)) : OneLine (itemsText itemSep keySep items) := by
  have hone : ∀ item, OneLine (itemText keySep item) := fun item =>
    oneLine_append (oneLine_append (oneLine_encodeString item.1) hkey) (oneLine_statusValue item.2)
  induction items with
  | nil => exact fun x hx => absurd hx List.not_mem_nil
  | cons item rest ih =>
    cases rest with
    | nil => exact hone item
    | cons next rest => exact oneLine_append (oneLine_append (hone item) hitem) ih

theorem oneLine_dumps {itemSep keySep : Bytes} (hitem : OneLine itemSep) (hkey : OneLine keySep)
    (items : List (Bytes × StatusValue)) : OneLine (dumps itemSep keySep items) :=
  oneLine_append (show OneLine [123] by decide)
    (oneLine_append (oneLine_itemsText hitem hkey items) (by decide))

/-! ## The document -/

/-- The arguments of `write_status`, with the legacy counter and the clock. -/
structure StatusArgs where
  method : Bytes
  path : Bytes
  httpCode : ℤ
  timeout : Bool
  recovered : Bool
  latencyMs : ℤ
  bodyHash16 : ℤ
  ncovDelta : ℤ
  ncovTotal : ℤ
  nall : ℤ
  isException : ℤ
  recoverMs : ℤ
  validationReject : Bool
  contentSha256 : Option Bytes
  contentLength : Option ℤ
  contentDisposition : Option Bytes
  /-- `SEQ`, behind its increment. -/
  legacySeq : ℤ
  tsMs : ℤ

namespace StatusArgs

variable (a : StatusArgs)

def code : ℤ := if a.timeout then -1 else a.httpCode

/-- `cls`. -/
def cls : Bytes :=
  if a.timeout then ascii "timeout"
  else if a.httpCode = -2 then ascii "conn_refused"
  else if 200 ≤ a.httpCode ∧ a.httpCode < 300 then ascii "2xx"
  else if 300 ≤ a.httpCode ∧ a.httpCode < 400 then ascii "3xx"
  else if 400 ≤ a.httpCode ∧ a.httpCode < 500 then ascii "4xx"
  else if 500 ≤ a.httpCode ∧ a.httpCode < 600 then ascii "5xx"
  else ascii "other"

/-- The content identity is given as a whole, or not at all. -/
def validIdentity : Bool :=
  match a.contentSha256, a.contentLength with
  | none, none => true
  | some sha, some length => (ascii "sha256:").isPrefixOf sha && 0 ≤ length
  | _, _ => false

/-- The items of `st`. -/
def items (execSeq : ℕ) : List (Bytes × StatusValue) :=
  let flag (b : Bool) : StatusValue := .int (if b then 1 else 0)
  [(ascii "seq", .int a.legacySeq), (ascii "exec_seq", .int execSeq),
    (ascii "method", .str a.method), (ascii "path", .str a.path),
    (ascii "http_code", .int a.code), (ascii "class", .str a.cls),
    (ascii "timeout", flag a.timeout), (ascii "recovered", flag a.recovered),
    (ascii "latency_ms", .int a.latencyMs), (ascii "body_hash16", .int a.bodyHash16),
    (ascii "ncov_delta", .int a.ncovDelta), (ascii "ncov_total", .int a.ncovTotal),
    (ascii "nall", .int a.nall), (ascii "ts_ms", .int a.tsMs),
    (ascii "is_exception", .int a.isException), (ascii "recover_ms", .int a.recoverMs),
    (ascii "validation_reject", flag a.validationReject)] ++
  (a.contentSha256.toList.map fun sha => (ascii "content_sha256", .str sha)) ++
  (a.contentLength.toList.map fun length => (ascii "content_length", .int length)) ++
  a.contentDisposition.toList.map fun text => (ascii "content_disposition", .str text)

/-- The snapshot: `json.dump(st, f, ensure_ascii=False)`. -/
def snapshotText (execSeq : ℕ) : Bytes := dumps (ascii ", ") (ascii ": ") (a.items execSeq)

/-- The line of the ledger, without its newline. -/
def ledgerBody (execSeq : ℕ) : Bytes := dumps (ascii ",") (ascii ":") (a.items execSeq)

theorem ledgerBody_oneLine (execSeq : ℕ) : OneLine (a.ledgerBody execSeq) :=
  oneLine_dumps (by decide) (by decide) _

end StatusArgs

end AflNv
