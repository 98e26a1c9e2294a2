import AflNv.MultipartSeed

/-!
# The multipart body that is sent

`AlfrescoMultipartClient.upload_multipart` writes the fields and the file of a seed as a
multipart body of its own, with a boundary from a hash of the file.  Read again behind a
request line and the header that declares the boundary, the body gives the same fields and
the same file, except where a name holds a line feed or the delimiter.

* `uploadBody` is the body of the source, and `uploadRequest` the request around it.
* `Transparent` says of a seed that none of its names gets in the way.
* `upload_reread` says that the request is read back exactly for the transparent seeds.
-/

namespace AflNv

open Lib

/-- `hashlib.sha256(data).hexdigest()` -/
structure Sha256 where
  hexdigest : Bytes → Bytes
  length_eq : ∀ data, (hexdigest data).length = 64
  digits : ∀ data, ∀ b ∈ hexdigest data, (48 ≤ b && b ≤ 57) || (97 ≤ b && b ≤ 102)

/-- The boundary of `upload_multipart`. -/
def uploadBoundary (sha : Sha256) (filename fileBytes : Bytes) : Bytes :=
  ascii "----nv-alfresco-" ++ (sha.hexdigest (fileBytes ++ filename)).take 24

/-- `key="value"` -/
def quotedParam (param : Bytes × Bytes) : Bytes := param.1 ++ (61 :: 34 :: (param.2 ++ [34]))

/-- `form-data`, and `; key="value"` for each parameter. -/
def formData (params : List (Bytes × Bytes)) : Bytes :=
  ascii "form-data" ++ params.flatMap fun param => 59 :: 32 :: quotedParam param

/-- The line `Content-Disposition: form-data; …`. -/
def dispositionLine (params : List (Bytes × Bytes)) : Bytes :=
  ascii "Content-Disposition" ++ (58 :: 32 :: formData params)

def fieldParams (name : Bytes) : List (Bytes × Bytes) := [(ascii "name", name)]

def fileParams (filename : Bytes) : List (Bytes × Bytes) :=
  [(ascii "name", ascii "filedata"), (ascii "filename", filename)]

/-- What stands between two delimiters: the header lines of a part, and its content. -/
def piece (head content : Bytes) : Bytes := crlf ++ (head ++ (crlf ++ (crlf ++ (content ++ crlf))))

def fieldPiece (field : Bytes × List ℕ) : Bytes :=
  piece (dispositionLine (fieldParams field.1)) (Utf8.encode field.2)

/-- The header lines of the file. -/
def fileHead (filename : Bytes) : Bytes :=
  dispositionLine (fileParams filename) ++ (crlf ++ ascii "Content-Type: application/octet-stream")

/-- The chunks of one field. -/
def fieldChunks (boundary : Bytes) (field : Bytes × List ℕ) : Bytes :=
  delimiter boundary ++ fieldPiece field

/-- The chunks of the file, with the last delimiter. -/
def fileChunks (boundary filename fileBytes : Bytes) : Bytes :=
  delimiter boundary ++ (piece (fileHead filename) fileBytes ++
    (delimiter boundary ++ ([45, 45] ++ crlf)))

/-- The body of `upload_multipart`. -/
def uploadBody (boundary : Bytes) (fields : List (Bytes × List ℕ)) (filename fileBytes : Bytes) :
    Bytes :=
  fields.flatMap (fieldChunks boundary) ++ fileChunks boundary filename fileBytes

/-- `POST path HTTP/1.1` -/
def postLine (path : Bytes) : Bytes := ascii "POST" ++ 32 :: (path ++ 32 :: ascii "HTTP/1.1")

/-- `multipart/form-data; boundary=…` -/
def multipartType (boundary : Bytes) : Bytes :=
  ascii "multipart/form-data" ++ 59 :: 32 :: (ascii "boundary" ++ 61 :: boundary)

/-- A POST request line with this path, the header that declares the boundary, and the
body. -/
def uploadRequest (path boundary : Bytes) (fields : List (Bytes × List ℕ))
    (filename fileBytes : Bytes) : Bytes :=
  (postLine path ++ (crlf ++ (ascii "Content-Type" ++ 58 :: 32 :: multipartType boundary))) ++
    (crlf ++ (crlf ++ uploadBody boundary fields filename fileBytes))

/-- A path that a request line can hold. -/
structure PostPath (path : Bytes) : Prop where
  slash : path.head? = some 47
  printable : ∀ b ∈ path, 33 ≤ b ∧ b ≤ 126

/-! ## The boundary -/

/-- A dash, a digit or a small letter. -/
def isBoundaryByte (b : UInt8) : Bool := b = 45 || (48 ≤ b && b ≤ 57) || (97 ≤ b && b ≤ 122)

structure PlainBoundary (boundary : Bytes) : Prop where
  ne_nil : boundary ≠ []
  bytes : ∀ b ∈ boundary, isBoundaryByte b = true

theorem uploadBoundary_plain (sha : Sha256) (filename fileBytes : Bytes) :
    PlainBoundary (uploadBoundary sha filename fileBytes) where
  ne_nil h := absurd (List.append_eq_nil_iff.mp h).1 (by decide)
  bytes := by
    refine List.forall_mem_append.mpr ⟨forall_mem_of_all (by decide), fun b hb => ?_⟩
    have hdigit := sha.digits _ b (List.mem_of_mem_take hb)
    simp only [Bool.or_eq_true, Bool.and_eq_true, decide_eq_true_eq, isBoundaryByte,
      UInt8.le_iff_toNat_le, UInt8.reduceToNat] at hdigit ⊢
    omega

theorem boundaryByte_spec {b : UInt8} (h : isBoundaryByte b = true) :
    33 ≤ b ∧ b ≤ 126 ∧ b ∉ ([10, 13, 34, 58, 59, 61] : Bytes) ∧ isPySpace b = false := by
  simp only [isBoundaryByte, Bool.or_eq_true, Bool.and_eq_true, decide_eq_true_eq,
    UInt8.le_iff_toNat_le, ← UInt8.toNat_inj, UInt8.reduceToNat] at h
  simp only [isPySpace, Bool.or_eq_false_iff, Bool.and_eq_false_iff, decide_eq_false_iff_not,
    UInt8.le_iff_toNat_le, List.mem_cons, List.not_mem_nil, or_false, not_or, ← UInt8.toNat_inj,
    UInt8.reduceToNat]
  omega

namespace PlainBoundary

variable {boundary : Bytes} (h : PlainBoundary boundary)

theorem delimiter_ne_nil (boundary : Bytes) : delimiter boundary ≠ [] := List.cons_ne_nil _ _

include h

/-- The delimiter has no line break and none of the characters around a name. -/
theorem not_mem_delimiter {c : UInt8} (hc : c ∈ ([10, 13, 34, 58, 59, 61, 32] : Bytes)) :
    c ∉ delimiter boundary := by
  intro hmem
  rcases List.mem_append.mp hmem with hdash | hmem
  · have hcd : c = 45 := by simpa using hdash
    rw [hcd] at hc
    exact absurd hc (by decide)
  · obtain ⟨hlow, -, hother, -⟩ := boundaryByte_spec (h.bytes c hmem)
    rcases List.mem_append.mp (show c ∈ ([10, 13, 34, 58, 59, 61] : Bytes) ++ [32] from hc) with hc | hc
    · exact hother hc
    · rw [List.mem_singleton.mp hc] at hlow
      exact absurd hlow (by decide)

omit h in
/-- The delimiter starts with two dashes. -/
theorem not_infix_of_dashes {text : Bytes} (htext : ¬ [45, 45] <:+: text) :
    ¬ delimiter boundary <:+: text := fun hin =>
  htext ((List.prefix_append [45, 45] boundary).isInfix.trans hin)

end PlainBoundary

/-! ## Reading the header of a part -/

/-- The key of a parameter, as it is written. -/
structure PlainKey (key : Bytes) : Prop where
  ascii : ∀ b ∈ key, b < 128
  noEquals : (61 : UInt8) ∉ key
  noSemicolon : (59 : UInt8) ∉ key
  lower_strip : lower (strip key) = key
  head : ∀ b ∈ key.head?, isPySpace b = false

/-- A parameter that is read as it is written. -/
structure PlainParam (param : Bytes × Bytes) : Prop where
  key : PlainKey param.1
  value : HeaderText param.2

theorem plainKey_name : PlainKey (ascii "name") where
  ascii := forall_mem_of_all (by decide)
  noEquals := by decide
  noSemicolon := by decide
  lower_strip := by decide
  head := forall_mem_of_optionAll (by decide)

theorem plainKey_filename : PlainKey (ascii "filename") where
  ascii := forall_mem_of_all (by decide)
  noEquals := by decide
  noSemicolon := by decide
  lower_strip := by decide
  head := forall_mem_of_optionAll (by decide)

theorem getLast?_quotedParam (param : Bytes × Bytes) : (quotedParam param).getLast? = some 34 := by
  rw [quotedParam, ← List.cons_append, ← List.cons_append, ← List.append_assoc, List.getLast?_append_cons]
  rfl

theorem parameter_quotedParam {param : Bytes × Bytes} (h : PlainParam param) :
    parameter (quotedParam param) = some param := by
  obtain ⟨hkey, hvalue⟩ := h
  have hcut : Substring.cut [61] (quotedParam param) = some (param.1, 34 :: (param.2 ++ [34])) :=
    Substring.cut_single hkey.noEquals _
  have hstrip : strip (34 :: (param.2 ++ [34])) = 34 :: (param.2 ++ [34]) := by
    refine Substring.trim_eq_self _ (fun b hb => Option.some.inj hb ▸ rfl) fun b hb => ?_
    rw [← List.cons_append, List.getLast?_append_cons] at hb
    exact Option.some.inj hb ▸ rfl
  have hquote : unquote (34 :: (param.2 ++ [34])) = param.2 := by
    have hends : ∀ b ∈ [(34 : UInt8)], decide (b = 34) = true := fun b hb =>
      decide_eq_true (List.mem_singleton.mp hb)
    exact Substring.trim_append (fun b : UInt8 => decide (b = 34)) hends hends hvalue.ne_nil
      (fun b hb => decide_eq_false (hvalue.head b hb)) fun b hb => decide_eq_false (hvalue.last b hb)
  rw [parameter, hcut]
  show some (lower (strip param.1), unquote (strip (34 :: (param.2 ++ [34])))) = some param
  rw [hkey.lower_strip, hstrip, hquote]

theorem quotedParam_ascii {param : Bytes × Bytes} (h : PlainParam param) : ∀ b ∈ quotedParam param, b < 128 := by
  refine List.forall_mem_append.mpr ⟨h.key.ascii, List.forall_mem_cons.mpr ⟨by decide,
    List.forall_mem_cons.mpr ⟨by decide, List.forall_mem_append.mpr ⟨h.value.ascii, ?_⟩⟩⟩⟩
  exact fun b hb => List.mem_singleton.mp hb ▸ by decide

theorem strip_quotedParam {param : Bytes × Bytes} (h : PlainParam param) :
    strip (32 :: quotedParam param) = quotedParam param := by
  have hhead : ∀ b ∈ (quotedParam param).head?, isPySpace b = false := by
    intro b hb
    have hkey := h.key.head
    rw [quotedParam] at hb
    cases hk : param.1 with
    | nil =>
      rw [hk] at hb
      exact Option.some.inj hb ▸ rfl
    | cons c key =>
      rw [hk] at hb hkey
      exact hkey b hb
  have hlast : ∀ b ∈ (quotedParam param).getLast?, isPySpace b = false := by
    intro b hb
    rw [getLast?_quotedParam] at hb
    exact Option.some.inj hb ▸ rfl
  have hne : quotedParam param ≠ [] := by
    intro hnil
    have hl := getLast?_quotedParam param
    rw [hnil] at hl
    exact absurd hl nofun
  exact Substring.trim_cons isPySpace rfl hne hhead hlast

theorem semicolonParts_formData {params : List (Bytes × Bytes)} (h : ∀ p ∈ params, PlainParam p) :
    semicolonParts (formData params) = ascii "form-data" :: params.map quotedParam := by
  have hfree : ∀ p ∈ params, (59 : UInt8) ∉ 32 :: quotedParam p := by
    intro p hp hmem
    have hplain := h p hp
    simp only [quotedParam, List.mem_cons, List.mem_append, List.not_mem_nil, or_false] at hmem
    rcases hmem with h | h | h | h | h | h
    · exact absurd h (by decide)
    · exact hplain.key.noSemicolon h
    · exact absurd h (by decide)
    · exact absurd h (by decide)
    · exact hplain.value.noSemicolon h
    · exact absurd h (by decide)
  have hlit : (59 : UInt8) ∉ ascii "form-data" := by decide
  have hstrip : strip (ascii "form-data") = ascii "form-data" := by decide
  rw [semicolonParts, formData, Substring.splitOn_flatMap hlit hfree, List.map_cons, hstrip,
    List.map_map]
  exact congrArg _ (List.map_congr_left fun p hp => strip_quotedParam (h p hp))

theorem dispositionParams_map {params : List (Bytes × Bytes)} (h : ∀ p ∈ params, PlainParam p)
    (hnodup : (params.map Prod.fst).Nodup) : dispositionParams (params.map quotedParam) = params := by
  induction params using List.reverseRecOn with
  | nil => rfl
  | append_singleton params param ih =>
    rw [List.forall_mem_append] at h
    rw [List.map_append, List.nodup_append] at hnodup
    have hnew : param.1 ∉ params.map Prod.fst := fun hmem =>
      hnodup.2.2 _ hmem _ (List.mem_singleton.mpr rfl) rfl
    rw [List.map_append, dispositionParams, List.foldl_append, ← dispositionParams,
      ih h.1 hnodup.1, List.map_singleton, List.foldl_cons, List.foldl_nil,
      parameter_quotedParam (h.2 param (List.mem_singleton.mpr rfl))]
    exact Json.setItem_of_notMem hnew param.2

theorem getLast?_formData (params : List (Bytes × Bytes)) :
    ∀ b ∈ (formData params).getLast?, isPySpace b = false := by
  intro b hb
  induction params using List.reverseRecOn with
  | nil =>
    have hlast : (formData []).getLast? = some 97 := by decide
    rw [hlast] at hb
    exact Option.some.inj hb ▸ rfl
  | append_singleton params param _ =>
    have hlast : (formData (params ++ [param])).getLast? = some 34 := by
      have hparam : ([59, 32] ++ quotedParam param).getLast? = some 34 := by
        rw [List.getLast?_append, getLast?_quotedParam]
        rfl
      rw [formData, List.flatMap_append, List.flatMap_singleton, ← List.append_assoc,
        List.getLast?_append]
      show (([59, 32] ++ quotedParam param).getLast?).or _ = _
      rw [hparam]
      rfl
    rw [hlast] at hb
    exact Option.some.inj hb ▸ rfl

theorem headerLine_disposition {params : List (Bytes × Bytes)} (h : ∀ p ∈ params, PlainParam p) :
    headerLine (dispositionLine params) = some (ascii "content-disposition", formData params) := by
  have hcut : Substring.cut [58] (dispositionLine params) =
      some (ascii "Content-Disposition", 32 :: formData params) :=
    Substring.cut_single (by decide) _
  have hkey : decodeAscii (ascii "Content-Disposition") = some (ascii "Content-Disposition") ∧
      lower (strip (ascii "Content-Disposition")) = ascii "content-disposition" := by decide
  have hvalue : decodeAscii (32 :: formData params) = some (32 :: formData params) := by
    refine if_pos (List.all_eq_true.mpr fun b hb => decide_eq_true ?_)
    have hform : ∀ b ∈ ascii "form-data", b < 128 := forall_mem_of_all (by decide)
    rcases List.mem_cons.mp hb with rfl | hb
    · decide
    rcases List.mem_append.mp hb with hb | hb
    · exact hform b hb
    obtain ⟨p, hp, hb⟩ := List.mem_flatMap.mp hb
    rcases List.mem_cons.mp hb with rfl | hb
    · decide
    rcases List.mem_cons.mp hb with rfl | hb
    · decide
    exact quotedParam_ascii (h p hp) b hb
  have hstrip : strip (32 :: formData params) = formData params := by
    have hne : formData params ≠ [] := fun hnil =>
      absurd (List.append_eq_nil_iff.mp hnil).1 (by decide)
    have hhead : ∀ b ∈ (formData params).head?, isPySpace b = false := by
      intro b hb
      have hform : (ascii "form-data").head? = some 102 := by decide
      rw [formData, List.head?_append, hform] at hb
      exact Option.some.inj hb ▸ rfl
    exact Substring.trim_cons isPySpace rfl hne hhead (getLast?_formData params)
  rw [headerLine, hcut]
  dsimp only
  rw [hkey.1, hvalue]
  dsimp only
  rw [hkey.2, hstrip]

/-! ## Reading a part -/

theorem crlf_ne_nil : crlf ≠ [] := List.cons_ne_nil _ _

theorem blankLine_ne_nil : crlf ++ crlf ≠ [] := List.cons_ne_nil _ _

/-- The lines in front of the first blank line. -/
theorem cutHead_append {head : Bytes} (h : ¬ crlf ++ crlf <:+: head ++ [13, 10, 13]) (rest : Bytes) :
    cutHead (head ++ (crlf ++ (crlf ++ rest))) = some (head, rest) := by
  have hcut : Substring.cut (crlf ++ crlf) (head ++ (crlf ++ (crlf ++ rest))) = some (head, rest) := by
    rw [← List.append_assoc crlf]
    exact Substring.cut_append blankLine_ne_nil h rest
  rw [cutHead, chooseSep, hcut]
  exact hcut

theorem dropBreak_piece (head content : Bytes) :
    dropBreak (piece head content) = head ++ (crlf ++ (crlf ++ (content ++ crlf))) := rfl

theorem trimBreak_append (content : Bytes) : trimBreak (content ++ crlf) = content := by
  have hsuffix : crlf.isSuffixOf (content ++ crlf) = true :=
    List.isSuffixOf_iff_suffix.mpr (List.suffix_append content crlf)
  have hdrop : (content ++ crlf).dropLast.dropLast = content := by
    show (content ++ [13, 10]).dropLast.dropLast = content
    rw [show content ++ [13, 10] = (content ++ [13]) ++ [10] by simp, List.dropLast_concat,
      List.dropLast_concat]
  rw [trimBreak, if_pos hsuffix, hdrop]

/-- A part is read from its header lines. -/
theorem partText_piece {head : Bytes} (h : ¬ crlf ++ crlf <:+: head ++ [13, 10, 13])
    (content : Bytes) {headers : List (Bytes × Bytes)}
    (hheaders : partHeaders [] (headLines head) = .ok headers) :
    partText (piece head content) = partOfHeaders headers content := by
  rw [partText, dropBreak_piece, cutHead_append h]
  dsimp only
  rw [hheaders]
  dsimp only
  rw [trimBreak_append]

/-- A text that has none of the characters around the names, and that stands in neither of
the two words. -/
structure Foreign (sep : Bytes) : Prop where
  ne_nil : sep ≠ []
  chars : ∀ c ∈ ([34, 58, 59, 61, 32] : Bytes), c ∉ sep
  disposition : ¬ sep <:+: ascii "Content-Disposition"
  formData : ¬ sep <:+: ascii "form-data"

namespace Foreign

variable {sep : Bytes} (hsep : Foreign sep)

include hsep

theorem not_infix_cons {c : UInt8} (hc : c ∈ ([34, 58, 59, 61, 32] : Bytes)) {rest : Bytes}
    (hrest : ¬ sep <:+: rest) : ¬ sep <:+: c :: rest :=
  Substring.not_infix_guard (a := []) (hsep.chars c hc)
    (fun h => hsep.ne_nil (List.infix_nil.mp h)) hrest

theorem not_infix_params {params : List (Bytes × Bytes)} {rest : Bytes}
    (h : ∀ p ∈ params, ¬ sep <:+: p.1 ∧ ¬ sep <:+: p.2) (hrest : ¬ sep <:+: rest) :
    ¬ sep <:+: (params.flatMap fun p => 59 :: 32 :: quotedParam p) ++ rest := by
  induction params with
  | nil => exact hrest
  | cons p params ih =>
    obtain ⟨⟨hkey, hvalue⟩, hparams⟩ := List.forall_mem_cons.mp h
    have htail : ¬ sep <:+: p.2 ++ 34 :: ((params.flatMap fun p => 59 :: 32 :: quotedParam p) ++ rest) :=
      Substring.not_infix_guard (hsep.chars 34 (by simp)) hvalue (ih hparams)
    have hsplit : ((p :: params).flatMap fun p => 59 :: 32 :: quotedParam p) ++ rest =
        59 :: 32 :: (p.1 ++ 61 :: 34 :: (p.2 ++ 34 ::
          ((params.flatMap fun p => 59 :: 32 :: quotedParam p) ++ rest))) := by
      simp [quotedParam]
    rw [hsplit]
    refine hsep.not_infix_cons (by simp) (hsep.not_infix_cons (by simp) ?_)
    exact Substring.not_infix_guard (hsep.chars 61 (by simp)) hkey
      (hsep.not_infix_cons (by simp) htail)

/-- A text that stands in no name and not in what follows stands nowhere in the line. -/
theorem not_infix_line {params : List (Bytes × Bytes)} {rest : Bytes} (hne : params ≠ [])
    (h : ∀ p ∈ params, ¬ sep <:+: p.1 ∧ ¬ sep <:+: p.2) (hrest : ¬ sep <:+: rest) :
    ¬ sep <:+: dispositionLine params ++ rest := by
  have hall := hsep.not_infix_params h hrest
  cases params with
  | nil => exact absurd rfl hne
  | cons p params =>
    have hsplit : dispositionLine (p :: params) ++ rest = ascii "Content-Disposition" ++ 58 :: 32 ::
        (ascii "form-data" ++ 59 :: (32 :: (quotedParam p ++
          ((params.flatMap fun p => 59 :: 32 :: quotedParam p) ++ rest)))) := by
      simp [dispositionLine, AflNv.formData]
    have hparams : ¬ sep <:+: 32 :: (quotedParam p ++
        ((params.flatMap fun p => 59 :: 32 :: quotedParam p) ++ rest)) := by
      refine fun hin => hall (hin.trans ?_)
      have hcons : ((p :: params).flatMap fun p => 59 :: 32 :: quotedParam p) ++ rest =
          59 :: 32 :: (quotedParam p ++ ((params.flatMap fun p => 59 :: 32 :: quotedParam p) ++ rest)) := by
        simp
      rw [hcons]
      exact (List.suffix_cons _ _).isInfix
    rw [hsplit]
    refine Substring.not_infix_guard (hsep.chars 58 (by simp)) hsep.disposition
      (hsep.not_infix_cons (by simp) ?_)
    exact Substring.not_infix_guard (hsep.chars 59 (by simp)) hsep.formData hparams

theorem not_infix_dispositionLine {params : List (Bytes × Bytes)} (hne : params ≠ [])
    (h : ∀ p ∈ params, ¬ sep <:+: p.1 ∧ ¬ sep <:+: p.2) : ¬ sep <:+: dispositionLine params := by
  have hnil : ¬ sep <:+: [] := fun hin => hsep.ne_nil (List.infix_nil.mp hin)
  have hline := hsep.not_infix_line hne h hnil
  rwa [List.append_nil] at hline

end Foreign

theorem foreign_crlf : Foreign crlf :=
  ⟨crlf_ne_nil, forall_mem_of_all (by decide), by decide, by decide⟩

theorem foreign_blankLine : Foreign (crlf ++ crlf) :=
  ⟨blankLine_ne_nil, forall_mem_of_all (by decide), by decide, by decide⟩

theorem foreign_lf : Foreign lf :=
  ⟨List.cons_ne_nil _ _, forall_mem_of_all (by decide), by decide, by decide⟩

theorem not_blankLine {text : Bytes} (h : ¬ crlf <:+: text) : ¬ crlf ++ crlf <:+: text := fun hin =>
  h ((List.prefix_append crlf crlf).isInfix.trans hin)

/-- What is read from headers with these parameters. -/
theorem partOfHeaders_eq {headers params : List (Bytes × Bytes)} {name : Bytes}
    (hlookup : headers.lookup (ascii "content-disposition") = some (formData params))
    (hplain : ∀ p ∈ params, PlainParam p) (hnodup : (params.map Prod.fst).Nodup)
    (hname : params.lookup (ascii "name") = some name) (hne : name ≠ []) (content : Bytes) :
    partOfHeaders headers content =
      match params.lookup (ascii "filename") with
      | some filename =>
        if filenameInvalid filename then .error "MULTIPART_FILENAME_INVALID"
        else .ok ⟨name, some filename, content⟩
      | none => .ok ⟨name, none, content⟩ := by
  have hparams : partParams headers = params := by
    rw [partParams, hlookup, Option.getD_some, semicolonParts_formData hplain, List.tail_cons]
    exact dispositionParams_map hplain hnodup
  have hform : lower (ascii "form-data") = ascii "form-data" := by decide
  rw [partOfHeaders, hlookup, Option.getD_some, semicolonParts_formData hplain, hparams, hname]
  dsimp only
  rw [List.head?_cons, Option.map_some, hform, if_neg (by simp), Option.getD_some]
  exact if_neg hne

/-- The header of a part with these parameters, in front of further lines. -/
theorem blankLine_free {params : List (Bytes × Bytes)} {rest : Bytes} (hne : params ≠ [])
    (h : ∀ p ∈ params, ¬ crlf <:+: p.1 ∧ ¬ crlf <:+: p.2) (hrest : ¬ crlf ++ crlf <:+: rest) :
    ¬ crlf ++ crlf <:+: dispositionLine params ++ rest :=
  foreign_blankLine.not_infix_line hne (fun p hp => ⟨not_blankLine (h p hp).1,
    not_blankLine (h p hp).2⟩) hrest

theorem keys_free : ¬ crlf <:+: ascii "name" ∧ ¬ lf <:+: ascii "name" ∧ ¬ crlf <:+: ascii "filename" := by
  decide

/-! ### A field -/

theorem fieldParams_plain {name : Bytes} (h : HeaderText name) : ∀ p ∈ fieldParams name, PlainParam p :=
  fun _ hp => List.mem_singleton.mp hp ▸ ⟨plainKey_name, h⟩

theorem fieldParams_noBreak {name : Bytes} (h : HeaderText name) :
    ∀ p ∈ fieldParams name, ¬ crlf <:+: p.1 ∧ ¬ crlf <:+: p.2 :=
  fun _ hp => List.mem_singleton.mp hp ▸ ⟨keys_free.1, h.noBreak⟩

/-- The header of a field is one line, unless its name holds a line feed. -/
theorem cutHead_fieldPiece {name : Bytes} (h : HeaderText name) (content : Bytes) :
    cutHead (dropBreak (piece (dispositionLine (fieldParams name)) content)) =
      some (dispositionLine (fieldParams name), content ++ crlf) ∧
    ¬ crlf <:+: dispositionLine (fieldParams name) := by
  have hspec := fieldParams_noBreak h
  constructor
  · rw [dropBreak_piece]
    exact cutHead_append (blankLine_free (List.cons_ne_nil _ _) hspec (by decide)) _
  · exact foreign_crlf.not_infix_dispositionLine (List.cons_ne_nil _ _) hspec

/-- A field whose name has no line feed is read as it was written. -/
theorem partText_fieldPiece {name : Bytes} (h : HeaderText name) (hlf : (10 : UInt8) ∉ name)
    (content : Bytes) : partText (piece (dispositionLine (fieldParams name)) content) =
      .ok ⟨name, none, content⟩ := by
  have hplain := fieldParams_plain h
  have hnot := (cutHead_fieldPiece h content).2
  have hlfParams : ∀ p ∈ fieldParams name, ¬ lf <:+: p.1 ∧ ¬ lf <:+: p.2 := fun p hp =>
    List.mem_singleton.mp hp ▸
      ⟨keys_free.2.1, fun hin => hlf (hin.subset (List.mem_singleton.mpr rfl))⟩
  have hlfFree : ¬ lf <:+: dispositionLine (fieldParams name) :=
    foreign_lf.not_infix_dispositionLine (List.cons_ne_nil _ _) hlfParams
  have hsep : chooseSep crlf lf (dispositionLine (fieldParams name)) = lf :=
    if_neg fun hsome => hnot ((Substring.isSome_cut_iff crlf_ne_nil).mp hsome)
  have hheaders : partHeaders [] (headLines (dispositionLine (fieldParams name))) =
      .ok [(ascii "content-disposition", formData (fieldParams name))] := by
    have hsplit : Substring.split lf (dispositionLine (fieldParams name)) =
        [dispositionLine (fieldParams name)] :=
      Substring.split_of_free (List.cons_ne_nil _ _) hlfFree
    rw [headLines, hsep, hsplit, partHeaders, headerLine_disposition hplain]
    rfl
  have hrest : ¬ crlf ++ crlf <:+: [13, 10, 13] := by decide
  have hfree := blankLine_free (List.cons_ne_nil _ _) (fieldParams_noBreak h) hrest
  have hfile : (fieldParams name).lookup (ascii "filename") = none := by
    have hne : (ascii "filename" == ascii "name") = false := by decide
    simp [fieldParams, List.lookup_cons, hne]
  have hread := partText_piece hfree content hheaders
  rw [partOfHeaders_eq List.lookup_cons_self hplain (List.nodup_singleton _) List.lookup_cons_self
    h.ne_nil, hfile] at hread
  exact hread

/-! ### The file -/

theorem headerText_filedata : HeaderText (ascii "filedata") where
  ne_nil := by decide
  ascii := forall_mem_of_all (by decide)
  noSemicolon := by decide
  noBreak := by decide
  head := forall_mem_of_optionAll (by decide)
  last := forall_mem_of_optionAll (by decide)

theorem fileParams_ne_nil (filename : Bytes) : fileParams filename ≠ [] := List.cons_ne_nil _ _

/-- The file is read as it was written. -/
theorem partText_filePiece {filename : Bytes} (h : HeaderText filename)
    (hvalid : filenameInvalid filename = false) (content : Bytes) :
    partText (piece (fileHead filename) content) =
      .ok ⟨ascii "filedata", some filename, content⟩ := by
  have hplain : ∀ p ∈ fileParams filename, PlainParam p := by
    refine List.forall_mem_cons.mpr ⟨⟨plainKey_name, headerText_filedata⟩, fun p hp => ?_⟩
    exact List.mem_singleton.mp hp ▸ ⟨plainKey_filename, h⟩
  have hspec : ∀ p ∈ fileParams filename, ¬ crlf <:+: p.1 ∧ ¬ crlf <:+: p.2 := by
    refine List.forall_mem_cons.mpr ⟨⟨keys_free.1, headerText_filedata.noBreak⟩, fun p hp => ?_⟩
    exact List.mem_singleton.mp hp ▸ ⟨keys_free.2.2, h.noBreak⟩
  have hkeys : ((fileParams filename).map Prod.fst).Nodup := by
    show [ascii "name", ascii "filename"].Nodup
    decide
  have htype : headerLine (ascii "Content-Type: application/octet-stream") =
      some (ascii "content-type", ascii "application/octet-stream") := by decide
  have htypeKey : ascii "content-type" ∉ [ascii "content-disposition"] := by decide
  have htypeFree : ¬ crlf <:+: ascii "Content-Type: application/octet-stream" := by decide
  have hsep : chooseSep crlf lf (fileHead filename) = crlf :=
    if_pos ((Substring.isSome_cut_iff crlf_ne_nil).mpr ⟨_, _, List.append_assoc _ _ _⟩)
  have hsplit : Substring.split crlf (fileHead filename) =
      [dispositionLine (fileParams filename), ascii "Content-Type: application/octet-stream"] := by
    rw [fileHead, Substring.split_append crlf_ne_nil
      (foreign_crlf.not_infix_line (fileParams_ne_nil filename) hspec (by decide)),
      Substring.split_of_free crlf_ne_nil htypeFree]
  have hheaders : partHeaders [] (headLines (fileHead filename)) =
      .ok [(ascii "content-disposition", formData (fileParams filename)),
        (ascii "content-type", ascii "application/octet-stream")] := by
    rw [headLines, hsep, hsplit, partHeaders, headerLine_disposition hplain]
    dsimp only
    rw [partHeaders, htype]
    exact congrArg Except.ok (Json.setItem_of_notMem htypeKey _)
  have hfree : ¬ crlf ++ crlf <:+: fileHead filename ++ [13, 10, 13] := by
    rw [fileHead, List.append_assoc]
    exact blankLine_free (List.cons_ne_nil _ _) hspec (by decide)
  have hlookup : (fileParams filename).lookup (ascii "filename") = some filename := by
    have hne : (ascii "filename" == ascii "name") = false := by decide
    simp [fileParams, List.lookup_cons, hne]
  have hread := partText_piece hfree content hheaders
  rw [partOfHeaders_eq List.lookup_cons_self hplain hkeys List.lookup_cons_self
    headerText_filedata.ne_nil, hlookup] at hread
  rw [hread]
  dsimp only
  rw [if_neg (by simp [hvalid])]

/-! ## The body between its delimiters -/

section Body

variable {boundary : Bytes} (hb : PlainBoundary boundary)

include hb

theorem foreign_delimiter : Foreign (delimiter boundary) where
  ne_nil := PlainBoundary.delimiter_ne_nil boundary
  chars c hc := hb.not_mem_delimiter (by simp only [List.mem_cons] at hc ⊢; tauto)
  disposition := PlainBoundary.not_infix_of_dashes (by decide)
  formData := PlainBoundary.not_infix_of_dashes (by decide)

theorem not_infix_break {c : UInt8} (hc : c = 13 ∨ c = 10) {a rest : Bytes}
    (ha : ¬ delimiter boundary <:+: a) (hrest : ¬ delimiter boundary <:+: rest) :
    ¬ delimiter boundary <:+: a ++ c :: rest := by
  refine Substring.not_infix_guard (hb.not_mem_delimiter ?_) ha hrest
  rcases hc with rfl | rfl <;> simp

omit hb in
theorem not_infix_nil : ¬ delimiter boundary <:+: [] := fun h =>
  PlainBoundary.delimiter_ne_nil boundary (List.infix_nil.mp h)

/-- The delimiter is not in a part if it is neither in its header nor in its content. -/
theorem piece_free {head content rest : Bytes} (hhead : ¬ delimiter boundary <:+: head)
    (hcontent : ¬ delimiter boundary <:+: content) (hrest : ¬ delimiter boundary <:+: rest) :
    ¬ delimiter boundary <:+: piece head content ++ rest := by
  have hsplit : piece head content ++ rest =
      [] ++ 13 :: ([] ++ 10 :: (head ++ 13 :: ([] ++ 10 :: ([] ++ 13 :: ([] ++ 10 ::
        (content ++ 13 :: ([] ++ 10 :: rest))))))) := by
    simp [piece, crlf]
  rw [hsplit]
  have hnil : ¬ delimiter boundary <:+: [] := not_infix_nil
  refine not_infix_break hb (.inl rfl) hnil (not_infix_break hb (.inr rfl) hnil
    (not_infix_break hb (.inl rfl) hhead (not_infix_break hb (.inr rfl) hnil
      (not_infix_break hb (.inl rfl) hnil (not_infix_break hb (.inr rfl) hnil
        (not_infix_break hb (.inl rfl) hcontent (not_infix_break hb (.inr rfl) hnil hrest)))))))

theorem fieldHead_free {name : Bytes} (hname : ¬ delimiter boundary <:+: name) :
    ¬ delimiter boundary <:+: dispositionLine (fieldParams name) := by
  have hkey : ¬ delimiter boundary <:+: ascii "name" :=
    PlainBoundary.not_infix_of_dashes (by decide)
  have hparams : ∀ p ∈ fieldParams name,
      ¬ delimiter boundary <:+: p.1 ∧ ¬ delimiter boundary <:+: p.2 :=
    fun p hp => List.mem_singleton.mp hp ▸ ⟨hkey, hname⟩
  exact (foreign_delimiter hb).not_infix_dispositionLine (List.cons_ne_nil _ _) hparams

theorem fileHead_free {filename : Bytes} (hname : ¬ delimiter boundary <:+: filename) :
    ¬ delimiter boundary <:+: fileHead filename := by
  have hfiledata : ¬ delimiter boundary <:+: ascii "filedata" :=
    PlainBoundary.not_infix_of_dashes (by decide)
  have hkeys : ¬ delimiter boundary <:+: ascii "name" ∧ ¬ delimiter boundary <:+: ascii "filename" :=
    ⟨PlainBoundary.not_infix_of_dashes (by decide),
      PlainBoundary.not_infix_of_dashes (by decide)⟩
  have htype : ¬ delimiter boundary <:+: crlf ++ ascii "Content-Type: application/octet-stream" :=
    PlainBoundary.not_infix_of_dashes (by decide)
  have hparams : ∀ p ∈ fileParams filename,
      ¬ delimiter boundary <:+: p.1 ∧ ¬ delimiter boundary <:+: p.2 :=
    List.forall_mem_cons.mpr ⟨⟨hkeys.1, hfiledata⟩, fun p hp =>
      List.mem_singleton.mp hp ▸ ⟨hkeys.2, hname⟩⟩
  exact (foreign_delimiter hb).not_infix_line (fileParams_ne_nil filename) hparams htype

/-- The delimiter is neither in a field nor in the file. -/
structure DelimiterFree (boundary : Bytes) (fields : List (Bytes × List ℕ))
    (filename fileBytes : Bytes) : Prop where
  names : ∀ f ∈ fields, ¬ delimiter boundary <:+: f.1
  values : ∀ f ∈ fields, ¬ delimiter boundary <:+: Utf8.encode f.2
  filename : ¬ delimiter boundary <:+: filename
  fileBytes : ¬ delimiter boundary <:+: fileBytes

/-- The pieces between the delimiters are the parts. -/
theorem split_uploadBody {fields : List (Bytes × List ℕ)} {filename fileBytes : Bytes}
    (h : DelimiterFree boundary fields filename fileBytes) {start : Bytes}
    (hstart : ¬ delimiter boundary <:+: start ++ (delimiter boundary).dropLast) :
    Substring.split (delimiter boundary) (start ++ uploadBody boundary fields filename fileBytes) =
      start :: (fields.map fieldPiece ++
        [piece (fileHead filename) fileBytes, [45, 45] ++ crlf]) := by
  have hne := PlainBoundary.delimiter_ne_nil boundary
  have hlast := Substring.not_infix_dropLast hne
  obtain ⟨hnames, hvalues, hfilename, hbytes⟩ := h
  induction fields generalizing start with
  | nil =>
    have hend : ¬ delimiter boundary <:+: [45, 45] ++ crlf := by
      refine not_infix_break hb (.inl rfl) ?_ (not_infix_break hb (.inr rfl) not_infix_nil not_infix_nil)
      intro hin
      have hle := hin.length_le
      have hpos := List.length_pos_iff.mpr hb.ne_nil
      simp only [delimiter, List.length_append, List.length_cons, List.length_nil] at hle
      omega
    have hbody : start ++ uploadBody boundary [] filename fileBytes =
        start ++ (delimiter boundary ++ (piece (fileHead filename) fileBytes ++
          (delimiter boundary ++ ([45, 45] ++ crlf)))) := by
      rw [uploadBody, List.flatMap_nil, List.nil_append, fileChunks]
    rw [hbody, Substring.split_append hne hstart, Substring.split_append hne
      (piece_free hb (fileHead_free hb hfilename) hbytes hlast),
      Substring.split_of_free hne hend]
    rfl
  | cons f fields ih =>
    obtain ⟨hname, hnames⟩ := List.forall_mem_cons.mp hnames
    obtain ⟨hvalue, hvalues⟩ := List.forall_mem_cons.mp hvalues
    have hbody : start ++ uploadBody boundary (f :: fields) filename fileBytes =
        start ++ (delimiter boundary ++ (fieldPiece f ++
          uploadBody boundary fields filename fileBytes)) := by
      simp [uploadBody, fieldChunks]
    have hfree : ¬ delimiter boundary <:+: fieldPiece f ++ (delimiter boundary).dropLast :=
      piece_free hb (fieldHead_free hb hname) hvalue hlast
    rw [hbody, Substring.split_append hne hstart, ih hfree hnames hvalues]
    rfl

theorem bodySegments_uploadBody {fields : List (Bytes × List ℕ)} {filename fileBytes : Bytes}
    (h : DelimiterFree boundary fields filename fileBytes) :
    bodySegments boundary (uploadBody boundary fields filename fileBytes) =
      .ok (fields.map fieldPiece ++ [piece (fileHead filename) fileBytes]) := by
  have hne := PlainBoundary.delimiter_ne_nil boundary
  have hempty : ¬ delimiter boundary <:+: [] ++ (delimiter boundary).dropLast :=
    Substring.not_infix_dropLast hne
  have hsplit := split_uploadBody hb h hempty
  rw [List.nil_append] at hsplit
  have hstart : (delimiter boundary ++ crlf).isPrefixOf
      (uploadBody boundary fields filename fileBytes) = true := by
    have hpiece : ∀ head content rest, delimiter boundary ++ crlf <+:
        delimiter boundary ++ (piece head content ++ rest) := fun head content rest =>
      (List.prefix_append_right_inj _).mpr ((List.prefix_append crlf _).trans (List.prefix_append _ _))
    rw [List.isPrefixOf_iff_prefix]
    cases fields with
    | nil => exact hpiece _ _ _
    | cons f fields =>
      rw [uploadBody, List.flatMap_cons, fieldChunks, List.append_assoc, List.append_assoc]
      exact hpiece _ _ _
  set segments := [] :: (fields.map fieldPiece ++
    [piece (fileHead filename) fileBytes, [45, 45] ++ crlf]) with hsegments
  have hinit : fields.map fieldPiece ++ [piece (fileHead filename) fileBytes, [45, 45] ++ crlf] =
      (fields.map fieldPiece ++ [piece (fileHead filename) fileBytes]) ++ [[45, 45] ++ crlf] := by
    simp
  have hlast : segments.getLast? = some ([45, 45] ++ crlf) := by
    rw [hsegments, hinit, ← List.cons_append, List.getLast?_concat]
  have hmiddle : segments.tail.dropLast =
      fields.map fieldPiece ++ [piece (fileHead filename) fileBytes] := by
    rw [hsegments, List.tail_cons, hinit, List.dropLast_concat]
  have hshape : ¬ (segments.length < 3 ∨ segments.head? ≠ some []) := by
    simp [hsegments]
  rw [bodySegments, hstart, hsplit]
  simp only [Bool.not_true, Bool.false_and]
  rw [if_neg Bool.false_ne_true, if_neg hshape, hlast, hmiddle, if_neg (by simp)]

end Body

/-! ## The parts in order -/

/-- The fields are read in their order. -/
theorem parseParts_fields {fields : List (Bytes × List ℕ)} (hnames : ∀ f ∈ fields, HeaderText f.1)
    (hlf : ∀ f ∈ fields, (10 : UInt8) ∉ f.1) (hvalues : ∀ f ∈ fields, ∀ c ∈ f.2, Utf8.Scalar c)
    {parts : Parts} (hnodup : ((parts.fields ++ fields).map Prod.fst).Nodup) (rest : List Bytes) :
    parseParts parts (fields.map fieldPiece ++ rest) =
      parseParts { parts with fields := parts.fields ++ fields } rest := by
  induction fields generalizing parts with
  | nil => simp
  | cons f fields ih =>
    obtain ⟨hname, hnames⟩ := List.forall_mem_cons.mp hnames
    obtain ⟨hf, hlf⟩ := List.forall_mem_cons.mp hlf
    obtain ⟨hvalue, hvalues⟩ := List.forall_mem_cons.mp hvalues
    have hnew : (parts.fields.lookup f.1).isSome = false := by
      rw [Bool.eq_false_iff, ne_eq, List.lookup_isSome_iff]
      rintro ⟨g, hg, heq⟩
      rw [List.map_append, List.nodup_append] at hnodup
      exact hnodup.2.2 g.1 (List.mem_map_of_mem hg) f.1 (by simp) (eq_of_beq heq).symm
    have hread := partText_fieldPiece hname hf (Utf8.encode f.2)
    have hadd : addPart parts ⟨f.1, none, Utf8.encode f.2⟩ =
        .ok { parts with fields := parts.fields ++ [f] } := by
      rw [addPart]
      dsimp only
      rw [if_neg (by simp [hnew]), Utf8.decode_encode hvalue]
    rw [List.map_cons, List.cons_append, parseParts]
    show (partText (piece (dispositionLine (fieldParams f.1)) (Utf8.encode f.2)) >>= _) = _
    rw [hread]
    show (addPart parts ⟨f.1, none, Utf8.encode f.2⟩ >>= _) = _
    rw [hadd]
    show parseParts { parts with fields := parts.fields ++ [f] } (fields.map fieldPiece ++ rest) = _
    rw [ih hnames hlf hvalues (by simpa using hnodup)]
    simp

/-- The body is read back. -/
theorem parseMultipartBody_uploadBody {boundary : Bytes} (hb : PlainBoundary boundary)
    {fields : List (Bytes × List ℕ)} {filename fileBytes : Bytes}
    (hwf : WfUpload fields filename) (h : DelimiterFree boundary fields filename fileBytes)
    (hlf : ∀ f ∈ fields, (10 : UInt8) ∉ f.1) :
    parseMultipartBody boundary (uploadBody boundary fields filename fileBytes) =
      .ok (fields, filename, fileBytes) := by
  rw [parseMultipartBody, bodySegments_uploadBody hb h]
  show (parseParts ⟨[], []⟩ (fields.map fieldPiece ++ [piece (fileHead filename) fileBytes]) >>= _) = _
  rw [parseParts_fields hwf.names hlf hwf.values (by simpa using hwf.nodup), parseParts,
    partText_filePiece hwf.file hwf.fileValid]
  rfl

theorem mem_of_mem_bodySegments {boundary body segment : Bytes} {segments : List Bytes}
    (h : bodySegments boundary body = .ok segments) (hmem : segment ∈ segments) :
    segment ∈ Substring.split (delimiter boundary) body := by
  rw [bodySegments] at h
  split_ifs at h
  dsimp only at h
  split_ifs at h
  obtain rfl := Except.ok.inj h
  exact List.mem_of_mem_tail (List.mem_of_mem_dropLast hmem)

theorem infix_of_cutHead {segment head content : Bytes}
    (h : cutHead (dropBreak segment) = some (head, content)) : head <:+: segment := by
  have hdrop : dropBreak segment <:+ segment := by
    rw [dropBreak]
    split_ifs
    · exact List.drop_suffix 2 segment
    · exact List.drop_suffix 1 segment
    · exact List.suffix_rfl
  have hne : chooseSep (crlf ++ crlf) (lf ++ lf) (dropBreak segment) ≠ [] := by
    rw [chooseSep]
    split_ifs
    · exact blankLine_ne_nil
    · exact List.cons_ne_nil _ _
  have htext := (Substring.cut_eq_some hne h).1
  have hstarts : head <+: dropBreak segment := ⟨_, htext.symm⟩
  exact hstarts.isInfix.trans hdrop.isInfix

/-- What is read from the body has neither a line feed nor the delimiter in its names. -/
theorem transparent_of_parseMultipartBody {boundary : Bytes} (hb : PlainBoundary boundary)
    {fields : List (Bytes × List ℕ)} {filename fileBytes : Bytes}
    (hwf : WfUpload fields filename)
    (hvalues : ∀ f ∈ fields, ¬ delimiter boundary <:+: Utf8.encode f.2)
    (hbytes : ¬ delimiter boundary <:+: fileBytes)
    (h : parseMultipartBody boundary (uploadBody boundary fields filename fileBytes) =
      .ok (fields, filename, fileBytes)) :
    (∀ f ∈ fields, (10 : UInt8) ∉ f.1 ∧ ¬ delimiter boundary <:+: f.1) ∧
      ¬ delimiter boundary <:+: filename := by
  obtain ⟨segments, parts, hsegments, hparts, hfields, hfiles⟩ := parseMultipartBody_ok h
  obtain ⟨hmem, hfile, -⟩ := parseParts_spec hparts
  rw [hfields] at hmem
  have hfree : ∀ segment ∈ segments, ∀ part, partText segment = .ok part → ∀ text,
      text = part.name ∨ part.filename = some text → ¬ delimiter boundary <:+: text := by
    intro segment hsegment part hpart text htext hin
    obtain ⟨head, content, hcut, -, hspec, -⟩ := partText_spec hpart
    have hhead := (hspec text htext).2.1
    refine (Substring.mem_split (PlainBoundary.delimiter_ne_nil boundary)
      (mem_of_mem_bodySegments hsegments hsegment)).2 ?_
    exact hin.trans (hhead.trans (infix_of_cutHead hcut))
  have hnames : ∀ f ∈ fields, ¬ delimiter boundary <:+: f.1 := by
    intro f hf
    rcases hmem f hf with hnil | ⟨segment, hsegment, part, hpart, hname, -⟩
    · exact absurd hnil List.not_mem_nil
    · exact hfree segment hsegment part hpart f.1 (.inl hname.symm)
  have hfilename : ¬ delimiter boundary <:+: filename := by
    rcases hfile _ (hfiles ▸ List.mem_cons_self) with hnil | ⟨segment, hsegment, part, hpart, hname⟩
    · exact absurd hnil List.not_mem_nil
    · exact hfree segment hsegment part hpart filename (.inr hname)
  refine ⟨fun f hf => ⟨fun hlf => ?_, hnames f hf⟩, hfilename⟩
  -- The pieces are known, and the header of a field is one block without a CRLF.
  rw [bodySegments_uploadBody hb ⟨hnames, hvalues, hfilename, hbytes⟩] at hsegments
  obtain rfl := Except.ok.inj hsegments
  rcases hmem f hf with hnil | ⟨segment, hsegment, part, hpart, hname, hnofile, -⟩
  · exact absurd hnil List.not_mem_nil
  rcases List.mem_append.mp hsegment with hsegment | hsegment
  · obtain ⟨g, hg, rfl⟩ := List.mem_map.mp hsegment
    obtain ⟨hcut, hnot⟩ := cutHead_fieldPiece (hwf.names g hg) (Utf8.encode g.2)
    obtain ⟨head, content, hcut', -, hspec, -⟩ := partText_spec hpart
    rw [fieldPiece, hcut] at hcut'
    obtain ⟨rfl, -⟩ := Prod.mk.inj (Option.some.inj hcut')
    exact (hspec f.1 (.inl hname.symm)).2.2 hnot hlf
  · rw [List.mem_singleton.mp hsegment, partText_filePiece hwf.file hwf.fileValid] at hpart
    rw [← Except.ok.inj hpart] at hnofile
    exact absurd hnofile nofun

/-! ## The request around the body -/

section Request

variable {path boundary : Bytes} (hp : PostPath path) (hb : PlainBoundary boundary)

include hp

theorem path_spec {b : UInt8} (h : b ∈ path) : b < 128 ∧ b ≠ 13 ∧ isPySpace b = false := by
  obtain ⟨hlow, hhigh⟩ := hp.printable b h
  simp only [UInt8.le_iff_toNat_le, UInt8.reduceToNat] at hlow hhigh
  simp only [isPySpace, Bool.or_eq_false_iff, Bool.and_eq_false_iff, decide_eq_false_iff_not,
    UInt8.le_iff_toNat_le, UInt8.lt_iff_toNat_lt, ne_eq, ← UInt8.toNat_inj, UInt8.reduceToNat]
  omega

theorem postLine_noCr : (13 : UInt8) ∉ postLine path := by
  have hwords : (13 : UInt8) ∉ ascii "POST" ∧ (13 : UInt8) ∉ ascii "HTTP/1.1" := by decide
  simp only [postLine, List.mem_append, List.mem_cons, not_or]
  exact ⟨hwords.1, by decide, fun h => (path_spec hp h).2.1 rfl, by decide, hwords.2⟩

/-- The request line is read. -/
theorem requestLine_postLine : requestLine (postLine path) = .ok (ascii "POST", path) := by
  have hwords : (∀ b ∈ ascii "POST", b < 128 ∧ isPySpace b = false) ∧
      ∀ b ∈ ascii "HTTP/1.1", b < 128 ∧ isPySpace b = false :=
    ⟨forall_mem_of_all (by decide), forall_mem_of_all (by decide)⟩
  have hdecode : decodeAscii (postLine path) = some (postLine path) := by
    refine if_pos (List.all_eq_true.mpr fun b hb => decide_eq_true ?_)
    simp only [postLine, List.mem_append, List.mem_cons] at hb
    rcases hb with hb | rfl | hb | rfl | hb
    · exact (hwords.1 b hb).1
    · decide
    · exact (path_spec hp hb).1
    · decide
    · exact (hwords.2 b hb).1
  have hsplit : words (postLine path) = [ascii "POST", path, ascii "HTTP/1.1"] := by
    have hne : path ≠ [] := by
      intro h
      have hslash := hp.slash
      rw [h] at hslash
      cases hslash
    have hlits : ascii "POST" ≠ [] ∧ ascii "HTTP/1.1" ≠ [] := by decide
    rw [words, postLine, List.splitOnP_append_cons_of_forall_mem (fun b hb => (hwords.1 b hb).2) 32 rfl,
      List.splitOnP_append_cons_of_forall_mem (fun b hb => (path_spec hp hb).2.2) 32 rfl,
      List.splitOnP_eq_singleton fun b hb => (hwords.2 b hb).2]
    simp [hne, hlits]
  rw [requestLine, hdecode]
  dsimp only
  rw [hsplit]
  simp [hp.slash]

omit hp

include hb

theorem boundary_ends : (∀ b ∈ boundary.head?, isPySpace b = false ∧ b ≠ 34) ∧
    ∀ b ∈ boundary.getLast?, isPySpace b = false ∧ b ≠ 34 := by
  have hspec : ∀ b ∈ boundary, isPySpace b = false ∧ b ≠ 34 := by
    intro b hmem
    obtain ⟨-, -, hother, hspace⟩ := boundaryByte_spec (hb.bytes b hmem)
    exact ⟨hspace, fun h => hother (h ▸ by simp)⟩
  exact ⟨fun b h => hspec b (List.mem_of_mem_head? h), fun b h => hspec b (List.mem_of_mem_getLast? h)⟩

theorem multipartType_spec : (∀ b ∈ multipartType boundary, b < 128 ∧ b ≠ 13) ∧
    strip (32 :: multipartType boundary) = multipartType boundary := by
  have hlits : (∀ b ∈ ascii "multipart/form-data", b < 128 ∧ b ≠ 13) ∧
      (∀ b ∈ ascii "boundary", b < 128 ∧ b ≠ 13) ∧
      (ascii "multipart/form-data").head? = some 109 :=
    ⟨forall_mem_of_all (by decide), forall_mem_of_all (by decide), by decide⟩
  have hbytes : ∀ b ∈ multipartType boundary, b < 128 ∧ b ≠ 13 := by
    intro b hmem
    simp only [multipartType, List.mem_append, List.mem_cons] at hmem
    rcases hmem with hmem | rfl | rfl | hmem | rfl | hmem
    · exact hlits.1 b hmem
    · decide
    · decide
    · exact hlits.2.1 b hmem
    · decide
    · obtain ⟨-, hhigh, hother, -⟩ := boundaryByte_spec (hb.bytes b hmem)
      refine ⟨?_, fun h => hother (h ▸ by simp)⟩
      simp only [UInt8.le_iff_toNat_le, UInt8.lt_iff_toNat_lt, UInt8.reduceToNat] at hhigh ⊢
      omega
  refine ⟨hbytes, ?_⟩
  have hne : multipartType boundary ≠ [] := by simp [multipartType]
  have hhead : ∀ b ∈ (multipartType boundary).head?, isPySpace b = false := by
    intro b h
    rw [multipartType, List.head?_append, hlits.2.2] at h
    exact Option.some.inj h ▸ rfl
  have hlast : ∀ b ∈ (multipartType boundary).getLast?, isPySpace b = false := by
    intro b h
    have hsplit : multipartType boundary =
        (ascii "multipart/form-data" ++ 59 :: 32 :: (ascii "boundary" ++ [61])) ++ boundary := by
      simp [multipartType]
    rw [hsplit, List.getLast?_append_of_ne_nil _ hb.ne_nil] at h
    exact ((boundary_ends hb).2 b h).1
  exact Substring.trim_cons isPySpace rfl hne hhead hlast

/-- The header declares the boundary. -/
theorem headerLine_multipartType :
    headerLine (ascii "Content-Type" ++ 58 :: 32 :: multipartType boundary) =
      some (ascii "content-type", multipartType boundary) := by
  obtain ⟨hbytes, hstrip⟩ := multipartType_spec hb
  have hkey : (58 : UInt8) ∉ ascii "Content-Type" ∧
      decodeAscii (ascii "Content-Type") = some (ascii "Content-Type") ∧
      lower (strip (ascii "Content-Type")) = ascii "content-type" := by decide
  have hvalue : decodeAscii (32 :: multipartType boundary) = some (32 :: multipartType boundary) := by
    refine if_pos (List.all_eq_true.mpr (List.forall_mem_cons.mpr ⟨rfl, fun b h => ?_⟩))
    exact decide_eq_true (hbytes b h).1
  rw [headerLine, Substring.cut_single hkey.1]
  dsimp only
  rw [hkey.2.1, hvalue]
  dsimp only
  rw [hkey.2.2, hstrip]

theorem headerBoundary_multipartType :
    headerBoundary [(ascii "content-type", multipartType boundary)] = .ok boundary := by
  obtain ⟨hhead, hlast⟩ := boundary_ends hb
  have hlits : (59 : UInt8) ∉ ascii "multipart/form-data" ∧ (59 : UInt8) ∉ ascii "boundary" ∧
      (61 : UInt8) ∉ ascii "boundary" ∧ strip (ascii "multipart/form-data") = ascii "multipart/form-data" ∧
      lower (ascii "multipart/form-data") = ascii "multipart/form-data" ∧
      lower (strip (ascii "boundary")) = ascii "boundary" ∧
      (ascii "boundary").head? = some 98 := by decide
  have hsemi : (59 : UInt8) ∉ 32 :: (ascii "boundary" ++ 61 :: boundary) := by
    simp only [List.mem_cons, List.mem_append, not_or]
    refine ⟨by decide, hlits.2.1, by decide, fun hmem => ?_⟩
    exact absurd (boundaryByte_spec (hb.bytes 59 hmem)).2.2.1 (by simp)
  have hstrip : strip (32 :: (ascii "boundary" ++ 61 :: boundary)) = ascii "boundary" ++ 61 :: boundary := by
    have hsplit : ascii "boundary" ++ 61 :: boundary = (ascii "boundary" ++ [61]) ++ boundary := by simp
    refine Substring.trim_cons isPySpace rfl (by simp) (fun b h => ?_) (fun b h => ?_)
    · rw [List.head?_append, hlits.2.2.2.2.2.2] at h
      exact Option.some.inj h ▸ rfl
    · rw [hsplit, List.getLast?_append_of_ne_nil _ hb.ne_nil] at h
      exact (hlast b h).1
  have hparts : semicolonParts (multipartType boundary) =
      [ascii "multipart/form-data", ascii "boundary" ++ 61 :: boundary] := by
    rw [semicolonParts, multipartType, List.splitOn_append_cons_self,
      List.splitOn_eq_singleton hlits.1, List.splitOn_eq_singleton hsemi]
    show [strip (ascii "multipart/form-data"), strip (32 :: (ascii "boundary" ++ 61 :: boundary))] = _
    rw [hlits.2.2.2.1, hstrip]
  have hvalue : unquote (strip boundary) = boundary := by
    have hs : strip boundary = boundary :=
      Substring.trim_eq_self _ (fun b h => (hhead b h).1) fun b h => (hlast b h).1
    rw [hs]
    exact Substring.trim_eq_self _ (fun b h => decide_eq_false (hhead b h).2)
      fun b h => decide_eq_false (hlast b h).2
  have hfind : findBoundary [ascii "boundary" ++ 61 :: boundary] = boundary := by
    rw [findBoundary, parameter, Substring.cut_single hlits.2.2.1, Option.map_some]
    dsimp only
    rw [hlits.2.2.2.2.2.1, if_pos rfl, hvalue]
  have hvalid : ¬ (boundary = [] ∨ boundary.any (fun b => b < 33 || 126 < b) = true) := by
    rintro (hnil | hany)
    · exact hb.ne_nil hnil
    · obtain ⟨b, hmem, hbad⟩ := List.any_eq_true.mp hany
      obtain ⟨hlow, hhigh, -⟩ := boundaryByte_spec (hb.bytes b hmem)
      simp only [Bool.or_eq_true, decide_eq_true_eq] at hbad
      exact hbad.elim (fun h => absurd hlow (UInt8.not_le.mpr h)) fun h =>
        absurd hhigh (UInt8.not_le.mpr h)
  rw [headerBoundary, List.lookup_cons_self, Option.getD_some, hparts]
  dsimp only
  rw [List.head?_cons, Option.map_some, hlits.2.2.2.2.1, if_neg (by simp), List.tail_cons, hfind,
    if_neg hvalid]

include hp

/-- The request is read up to its body. -/
theorem parse_uploadRequest (fields : List (Bytes × List ℕ)) (filename fileBytes : Bytes) :
    parseMultipartHttpSeed (uploadRequest path boundary fields filename fileBytes) =
      (parseMultipartBody boundary (uploadBody boundary fields filename fileBytes)).map fun r =>
        { method := ascii "POST", path
          headers := [(ascii "content-type", multipartType boundary)]
          boundary, fields := r.1, filename := r.2.1, fileBytes := r.2.2 } := by
  have htype : (13 : UInt8) ∉ ascii "Content-Type" ++ 58 :: 32 :: multipartType boundary := by
    have hlit : (13 : UInt8) ∉ ascii "Content-Type" := by decide
    simp only [List.mem_append, List.mem_cons, not_or]
    exact ⟨hlit, by decide, by decide, fun h => ((multipartType_spec hb).1 13 h).2 rfl⟩
  have hpost := postLine_noCr hp
  set line := ascii "Content-Type" ++ 58 :: 32 :: multipartType boundary with hline
  have hfree : ¬ crlf ++ crlf <:+: (postLine path ++ (crlf ++ line)) ++ [13, 10, 13] := by
    have hsplit : (postLine path ++ (crlf ++ line)) ++ [13, 10, 13] =
        postLine path ++ (13 :: ((10 :: line) ++ [13, 10, 13])) := by
      simp [crlf]
    have hnot : (13 : UInt8) ∉ 10 :: line := by
      rw [List.mem_cons, not_or]
      exact ⟨by decide, htype⟩
    rw [hsplit]
    refine Substring.not_infix_of_head hpost ?_
    rw [List.infix_cons_iff, not_or]
    refine ⟨fun hstarts => ?_, Substring.not_infix_of_head hnot (by decide)⟩
    have htwo : [13, 10] <+: line ++ [13, 10, 13] :=
      (List.cons_prefix_cons.mp (List.cons_prefix_cons.mp hstarts).2).2
    cases hl : line with
    | nil => exact absurd (hline.symm.trans hl) (by simp)
    | cons c rest =>
      rw [hl] at htwo htype
      exact htype ((List.cons_prefix_cons.mp htwo).1 ▸ List.mem_cons_self)
  have hcut : cutHead (uploadRequest path boundary fields filename fileBytes) =
      some (postLine path ++ (crlf ++ line), uploadBody boundary fields filename fileBytes) :=
    cutHead_append hfree _
  have hnoCrlf : ∀ text : Bytes, (13 : UInt8) ∉ text → ¬ crlf <:+: text := fun text h hin =>
    h (hin.subset (by simp [crlf]))
  have hsplit : Substring.split crlf (postLine path ++ (crlf ++ line)) = [postLine path, line] := by
    rw [Substring.split_append crlf_ne_nil (Substring.not_infix_of_head hpost (by decide)),
      Substring.split_of_free crlf_ne_nil (hnoCrlf line htype)]
  have hlines : headLines (postLine path ++ (crlf ++ line)) = [postLine path, line] := by
    have hsep : chooseSep crlf lf (postLine path ++ (crlf ++ line)) = crlf :=
      if_pos ((Substring.isSome_cut_iff crlf_ne_nil).mpr ⟨_, _, List.append_assoc _ _ _⟩)
    rw [headLines, hsep, hsplit]
  have hheaders : requestHeaders [] [line] =
      .ok [(ascii "content-type", multipartType boundary)] := by
    have hkey : ascii "content-type" ≠ [] := by decide
    rw [requestHeaders, headerLine_multipartType hb]
    dsimp only
    rw [if_neg (by simp [hkey])]
    rfl
  rw [parseMultipartHttpSeed, hcut]
  dsimp only
  rw [hlines]
  show (requestLine (postLine path) >>= fun r => requestHeaders [] [line] >>= fun headers =>
    headerBoundary headers >>= fun boundary => parseMultipartBody boundary _ >>= _) = _
  rw [requestLine_postLine hp]
  show (requestHeaders [] [line] >>= fun headers => _) = _
  rw [hheaders]
  show (headerBoundary [(ascii "content-type", multipartType boundary)] >>= fun boundary => _) = _
  rw [headerBoundary_multipartType hb]
  cases hbody : parseMultipartBody boundary (uploadBody boundary fields filename fileBytes) with
  | error e =>
    show (parseMultipartBody boundary _ >>= _) = _
    rw [hbody]
    rfl
  | ok r =>
    show (parseMultipartBody boundary _ >>= _) = _
    rw [hbody]
    rfl

end Request

/-! ## Reading again what is sent -/

/-- No name holds a line feed or the delimiter. -/
structure Transparent (boundary : Bytes) (fields : List (Bytes × List ℕ)) (filename : Bytes) :
    Prop where
  names : ∀ f ∈ fields, (10 : UInt8) ∉ f.1 ∧ ¬ delimiter boundary <:+: f.1
  filename : ¬ delimiter boundary <:+: filename

/-- The seed that is read again has the same fields, file name and file. -/
def SameUpload (seed reread : MultipartSeed) : Prop :=
  reread.fields = seed.fields ∧ reread.filename = seed.filename ∧ reread.fileBytes = seed.fileBytes

/-- What is sent for a seed is read as the same fields and the same file exactly if none of
its names gets in the way. -/
theorem upload_reread (sha : Sha256) {data path : Bytes} {seed : MultipartSeed}
    (hseed : parseMultipartHttpSeed data = .ok seed) (hpath : PostPath path)
    (hvalues : ∀ f ∈ seed.fields,
      ¬ delimiter (uploadBoundary sha seed.filename seed.fileBytes) <:+: Utf8.encode f.2)
    (hbytes : ¬ delimiter (uploadBoundary sha seed.filename seed.fileBytes) <:+: seed.fileBytes) :
    (∃ reread, parseMultipartHttpSeed (uploadRequest path
        (uploadBoundary sha seed.filename seed.fileBytes) seed.fields seed.filename seed.fileBytes) =
      .ok reread ∧ SameUpload seed reread) ↔
      Transparent (uploadBoundary sha seed.filename seed.fileBytes) seed.fields seed.filename := by
  have hb := uploadBoundary_plain sha seed.filename seed.fileBytes
  obtain ⟨_, _, -, hread⟩ := parseMultipartHttpSeed_ok hseed
  have hwf := parseMultipartBody_wf hread
  rw [parse_uploadRequest hpath hb]
  constructor
  · rintro ⟨reread, hok, hfields, hfilename, hfile⟩
    cases hbody : parseMultipartBody (uploadBoundary sha seed.filename seed.fileBytes)
        (uploadBody (uploadBoundary sha seed.filename seed.fileBytes) seed.fields seed.filename
          seed.fileBytes) with
    | error e =>
      rw [hbody] at hok
      exact absurd hok nofun
    | ok r =>
      obtain ⟨fields, filename, fileBytes⟩ := r
      rw [hbody] at hok
      obtain rfl := Except.ok.inj hok
      obtain rfl : fields = seed.fields := hfields
      obtain rfl : filename = seed.filename := hfilename
      obtain rfl : fileBytes = seed.fileBytes := hfile
      obtain ⟨hnames, hname⟩ := transparent_of_parseMultipartBody hb hwf hvalues hbytes hbody
      exact ⟨hnames, hname⟩
  · rintro ⟨hnames, hname⟩
    have hfree : DelimiterFree (uploadBoundary sha seed.filename seed.fileBytes) seed.fields
        seed.filename seed.fileBytes := ⟨fun f hf => (hnames f hf).2, hvalues, hname, hbytes⟩
    rw [parseMultipartBody_uploadBody hb hwf hfree fun f hf => (hnames f hf).1]
    exact ⟨_, rfl, rfl, rfl, rfl⟩

/-- The hash of the file `x` with the name `f`. -/
def shaOfXf : Sha256 where
  hexdigest _ := ascii "450a76b3d2fdb24bca7cec592a748a5cf4ab4bac28f4c43a28d40c8435ef4e83"
  length_eq _ := by decide
  digits _ := forall_mem_of_all (by decide)

/-- A seed with the file `x`, named `f`, and a field `v` behind these header lines. -/
def seedWith (header : Bytes) : Bytes :=
  ascii "POST /x HTTP/1.1\r\nContent-Type: multipart/form-data; boundary=B\r\n\r\n--B\r\n" ++
    (header ++ ascii "\r\n\r\nv\r\n--B\r\nContent-Disposition: form-data; name=filedata; filename=f\r\n\r\nx\r\n--B--")

/-- What is read of such a seed whose field has this name. -/
def parsedWith (name : Bytes) : MultipartSeed where
  method := ascii "POST"
  path := ascii "/x"
  headers := [(ascii "content-type", ascii "multipart/form-data; boundary=B")]
  boundary := ascii "B"
  fields := [(name, [118])]
  filename := ascii "f"
  fileBytes := ascii "x"

theorem parse_seedWith :
    (parseMultipartHttpSeed (seedWith (ascii "Content-Disposition: form-data; name=a"))).toOption =
      some (parsedWith (ascii "a")) ∧
    (parseMultipartHttpSeed (seedWith
      (ascii "Content-Disposition: form-data; name=a\nb\r\nX: y"))).toOption =
      some (parsedWith (ascii "a\nb")) := by
  decide +kernel

theorem delimiter_shaOfXf :
    (¬ delimiter (uploadBoundary shaOfXf (ascii "f") (ascii "x")) <:+: ([118] : Bytes)) ∧
    ¬ delimiter (uploadBoundary shaOfXf (ascii "f") (ascii "x")) <:+: ascii "x" := by
  decide

theorem postPath_x : PostPath (ascii "/x") :=
  ⟨by decide, forall_mem_of_all (by decide)⟩

theorem upload_reread_plainName :
    ∃ reread, parseMultipartHttpSeed (uploadRequest (ascii "/x")
        (uploadBoundary shaOfXf (ascii "f") (ascii "x")) [(ascii "a", [118])] (ascii "f") (ascii "x")) =
      .ok reread ∧ SameUpload (parsedWith (ascii "a")) reread := by
  have hparse : parseMultipartHttpSeed (seedWith (ascii "Content-Disposition: form-data; name=a")) =
      .ok (parsedWith (ascii "a")) := by
    have hread := parse_seedWith.1
    cases h : parseMultipartHttpSeed (seedWith (ascii "Content-Disposition: form-data; name=a")) with
    | error e =>
      rw [h] at hread
      exact absurd hread nofun
    | ok seed =>
      rw [h] at hread
      exact congrArg Except.ok (Option.some.inj hread)
  have hvalues : ∀ f ∈ (parsedWith (ascii "a")).fields, ¬ delimiter (uploadBoundary shaOfXf
      (ascii "f") (ascii "x")) <:+: Utf8.encode f.2 :=
    fun f hf => List.mem_singleton.mp hf ▸ delimiter_shaOfXf.1
  exact (upload_reread shaOfXf hparse postPath_x hvalues delimiter_shaOfXf.2).mpr
    ⟨fun f hf => List.mem_singleton.mp hf ▸ by decide, by decide⟩

/-- A field name with a line feed, which a seed can hold, makes the request unreadable. -/
theorem lineFeed_name_is_refused :
    (parseMultipartHttpSeed (seedWith
      (ascii "Content-Disposition: form-data; name=a\nb\r\nX: y"))).toOption =
        some (parsedWith (ascii "a\nb")) ∧
    (∀ f ∈ (parsedWith (ascii "a\nb")).fields,
      ¬ delimiter (uploadBoundary shaOfXf (ascii "f") (ascii "x")) <:+: Utf8.encode f.2) ∧
    ¬ delimiter (uploadBoundary shaOfXf (ascii "f") (ascii "x")) <:+: ascii "x" ∧
    (parseMultipartHttpSeed (uploadRequest (ascii "/x")
      (uploadBoundary shaOfXf (ascii "f") (ascii "x")) [(ascii "a\nb", [118])] (ascii "f")
      (ascii "x"))).toOption = none :=
  ⟨parse_seedWith.2, fun f hf => List.mem_singleton.mp hf ▸ delimiter_shaOfXf.1,
    delimiter_shaOfXf.2, by decide +kernel⟩

end AflNv
