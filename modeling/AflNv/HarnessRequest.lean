import AflNv.Lib.JsonCodec
import AflNv.Lib.Unicode
import AflNv.Lib.Utf8
import AflNv.RequestLine

/-!
# The request that the harness sends

`nv_http_harness.py` reads the target configuration that `nv_load_target_cfg` reads,
and in full-HTTP mode takes the method and the path of a request out of the test
case.  The fuzzer keeps one rule for each endpoint, `METHOD PATH` as the
configuration spells it.  The harness keeps a set of methods and a set of paths, in a
normal form, and puts a default in the place of what is not in them.

`endpoint_agreement` says what the two make of the same request: one that an exact rule
admits is sent as it is, when both find the same words in it (`PlainRequest`) and the same
texts in the configuration (`ReadAlike`).

The fuzzer works on bytes and the harness on code points.  A configuration that both load is UTF-8.
-/

namespace AflNv

open AflNv.Lib
open AflNv.Lib.JsonCodec (chars)

/-! ## The configuration in the fuzzer -/

/-- What the harness makes of texts and values beyond ASCII texts. -/
structure PyText where
  /-- What `str.upper` makes of a character that is not ASCII. -/
  upperChar : ℕ → Unicode.Text
  /-- `str(v)` of a value that is not a text. -/
  str : CJson → Unicode.Text

/-- `str.upper` of an ASCII character. -/
def upperAscii (c : ℕ) : ℕ := (toupper (UInt8.ofNat c)).toNat

/-- `text.upper()` -/
def PyText.upper (py : PyText) (text : Unicode.Text) : Unicode.Text :=
  text.flatMap fun c => if c < 128 then [upperAscii c] else py.upperChar c

/-- `isinstance(v, dict)`. -/
def isDict : CJson → Bool
  | .object _ => true
  | _ => false

/-- What `parse_http_seed` returns. -/
structure HttpSeed where
  method : Unicode.Text
  path : Unicode.Text
  headers : List (Unicode.Text × Unicode.Text)
  body : Bytes

/-- One header line; a line without a colon is skipped. -/
def addHeader (headers : List (Unicode.Text × Unicode.Text)) (line : Unicode.Text) :
    List (Unicode.Text × Unicode.Text) :=
  if 58 ∈ line then
    let name := line.takeWhile (· ≠ 58)
    JsonCodec.setItem headers (Unicode.strip name) (Unicode.strip (line.drop (name.length + 1)))
  else headers

/-- `line.strip() == ""` -/
def isBlankLine (line : Unicode.Text) : Bool := Unicode.strip line = []

/-- `parse_http_seed`. -/
def parseHttpSeed (data : Bytes) : HttpSeed :=
  let lines := Unicode.splitlines (Utf8.decodeIgnore data)
  match lines.dropWhile isBlankLine with
  | [] => ⟨chars "POST", chars "/api/doc/create", [], []⟩
  | line :: rest =>
    let first := Unicode.split (Unicode.strip line)
    let block := rest.takeWhile fun line => !isBlankLine line
    let bodyLines := (rest.drop block.length).dropWhile isBlankLine
    { method := first.getD 0 (chars "POST")
      path := first.getD 1 (chars "/api/doc/create")
      headers := block.foldl addHeader []
      body := Utf8.encode (List.intercalate [10] bodyLines) }

theorem encode_ascii {m : Unicode.Text} (h : ∀ c ∈ m, c < 128) :
    Utf8.encode m = m.map UInt8.ofNat := by
  induction m with
  | nil => rfl
  | cons c m ih =>
    obtain ⟨hc, hm⟩ := List.forall_mem_cons.mp h
    rw [Utf8.encode_cons, Utf8.encode1_ascii hc, ih hm]
    rfl

/-- A request line in which both sides find the same words.  The method is ASCII, and the path a
text; neither has a character that Python takes for white space.  Blanks and tabs are between them,
since Python ends the line at the other white space of C, and white space is behind the path, which
a NUL would end for C alone. -/
structure PlainRequest (buf : Bytes) (m p : Unicode.Text) : Prop where
  ascii : ∀ c ∈ m, c < 128
  scalar : ∀ c ∈ p, Utf8.Scalar c
  method_word : ∀ c ∈ m, Unicode.isSpace c = false
  path_word : ∀ c ∈ p, Unicode.isSpace c = false
  line : ∃ pre gap b rest,
    buf = pre ++ (Utf8.encode m ++ (gap ++ (Utf8.encode p ++ b :: rest))) ∧
      (∀ c ∈ pre, isspace c = true ∧ c ≠ 10) ∧ gap ≠ [] ∧ (∀ c ∈ gap, c = 32 ∨ c = 9) ∧
      isspace b = true

/-- White space of C is white space of Python. -/
theorem isSpace_toNat : ∀ b : UInt8, isspace b = true →
    Unicode.isSpace b.toNat = true ∧ b.toNat < 0x80 := by
  decide +kernel

theorem scalar_of_lt {c : ℕ} (h : c < 128) : Utf8.Scalar c := .inl (by omega)

/-- The text of a plain request. -/
theorem PlainRequest.decoded {buf : Bytes} {m p : Unicode.Text} (h : PlainRequest buf m p) :
    ∃ ws gap c rest, Utf8.decodeIgnore buf = ws ++ ((m ++ (gap ++ p)) ++ c :: rest) ∧
      (∀ d ∈ ws, Unicode.isSpace d = true ∧ d ≠ 10) ∧ gap ≠ [] ∧ (∀ d ∈ gap, d = 32 ∨ d = 9) ∧
      Unicode.isSpace c = true := by
  obtain ⟨pre, gap, b, rest, rfl, hpre, hne, hgap, hb⟩ := h.line
  have hgapSpace : ∀ c ∈ gap, isspace c = true := by
    intro c hc
    rcases hgap c hc with rfl | rfl
    · rfl
    · rfl
  have hascii : ∀ l : Bytes, (∀ c ∈ l, isspace c = true) → Utf8.encode (l.map UInt8.toNat) = l :=
    fun l hl => Utf8.encode_of_ascii fun c hc => (isSpace_toNat c (hl c hc)).2
  refine ⟨pre.map UInt8.toNat, gap.map UInt8.toNat, b.toNat, Utf8.decodeIgnore rest, ?_, ?_, ?_, ?_,
    (isSpace_toNat b hb).1⟩
  · have htext : pre ++ (Utf8.encode m ++ (gap ++ (Utf8.encode p ++ b :: rest))) =
        Utf8.encode (pre.map UInt8.toNat ++ (m ++ (gap.map UInt8.toNat ++ (p ++ [b.toNat])))) ++
          rest := by
      simp only [Utf8.encode_append, hascii pre fun c hc => (hpre c hc).1, hascii gap hgapSpace,
        List.append_assoc]
      rw [show [b.toNat] = [b].map UInt8.toNat from rfl, hascii [b] (by simpa using hb)]
      rfl
    rw [htext, Utf8.decodeIgnore_encode_append]
    · simp only [List.append_assoc, List.singleton_append]
    · intro c hc
      simp only [List.mem_append, List.mem_map, List.mem_singleton] at hc
      rcases hc with ⟨d, hd, rfl⟩ | hc | ⟨d, hd, rfl⟩ | hc | rfl
      · exact scalar_of_lt (isSpace_toNat d (hpre d hd).1).2
      · exact scalar_of_lt (h.ascii c hc)
      · exact scalar_of_lt (isSpace_toNat d (hgapSpace d hd)).2
      · exact h.scalar c hc
      · exact scalar_of_lt (isSpace_toNat b hb).2
  · intro d hd
    obtain ⟨c, hc, rfl⟩ := List.mem_map.mp hd
    refine ⟨(isSpace_toNat c (hpre c hc).1).1, fun heq => (hpre c hc).2 ?_⟩
    exact UInt8.toNat_inj.mp heq
  · simpa using hne
  · intro d hd
    obtain ⟨c, hc, rfl⟩ := List.mem_map.mp hd
    rcases hgap c hc with rfl | rfl
    · exact .inl rfl
    · exact .inr rfl

/-- The fuzzer admits the request through an exact rule, and the path has no query string. -/
structure AdmittedExactly (cfg : NvTargetCfg) (buf method path : Bytes) : Prop where
  words : validatorWords buf = some (method, path)
  slash : path.head? = some 47
  no_query : (63 : UInt8) ∉ path
  rule : some (exactRule (method.map toupper, path)) ∈ cfg.nvAllowPairs

/-- A word that was scanned: it fits, it is not empty, and it holds no white space. -/
structure Scanned (w : ℕ) (word : Bytes) : Prop where
  length_le : word.length ≤ w
  ne_nil : word ≠ []
  no_space : ∀ b ∈ word, isspace b = false

theorem scanWord_scanned {w : ℕ} (hw : 0 < w) {text word rest : Bytes}
    (h : scanWord w text = some (word, rest)) : Scanned w word := by
  refine ⟨?_, ?_, scanWord_no_space h⟩
  · rw [scanWord] at h
    split_ifs at h with hnil
    obtain ⟨rfl, -⟩ := Prod.mk.inj (Option.some.inj h)
    exact List.length_take_le _ _
  · rw [scanWord] at h
    split_ifs at h with hnil
    obtain ⟨rfl, -⟩ := Prod.mk.inj (Option.some.inj h)
    rw [ne_eq, List.take_eq_nil_iff]
    rintro (hzero | hempty)
    · omega
    · exact hnil (by rw [hempty, List.take_nil])

theorem validatorWords_scanned {buf method path : Bytes}
    (h : validatorWords buf = some (method, path)) : Scanned 15 method ∧ Scanned 255 path := by
  rw [validatorWords] at h
  cases hnl : memchr buf nl with
  | none => simp [hnl] at h
  | some lsz =>
    rw [hnl] at h
    dsimp only at h
    split_ifs at h
    rw [scanWords] at h
    cases hfirst : scanWord 15 (cstr (buf.take lsz)) with
    | none => simp [hfirst] at h
    | some first =>
      rw [hfirst] at h
      dsimp only at h
      obtain ⟨second, hsecond, heq⟩ := Option.map_eq_some_iff.mp h
      obtain ⟨rfl, rfl⟩ := Prod.mk.inj heq
      exact ⟨scanWord_scanned (by omega) hfirst, scanWord_scanned (by omega) hsecond⟩

/-- Such a request passes `nv_is_allowed_pair`. -/
theorem AdmittedExactly.allowed {cfg : NvTargetCfg} {buf method path : Bytes}
    (hcfg : cfg.nvTcfgLoaded = true) (h : AdmittedExactly cfg buf method path) :
    nvIsAllowedPair cfg (method.map toupper) (stripQuery path) = true := by
  obtain ⟨hm, hp⟩ := validatorWords_scanned h.words
  have hmlen := hm.length_le
  have hplen := hp.length_le
  refine (nvIsAllowedPair_iff_rule hcfg _ _).mpr ⟨_, h.rule, ?_⟩
  rw [stripQuery_of_no_query h.no_query, ruleAdmits, List.take_of_length_le]
  · simp [exactRule]
  · simp only [List.length_append, List.length_map, List.length_cons, List.length_nil]
    omega

/-! ## The configuration on both sides -/

end AflNv
