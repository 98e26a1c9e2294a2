import Mathlib.Data.List.Nodup
import AflNv.CBase
import AflNv.Lib.Json
import AflNv.Lib.Substring
import AflNv.Lib.Utf8

/-!
# Multipart seeds

`parse_multipart_http_seed` of `nv_http_harness.py` reads one multipart upload from a seed:
a POST request line, the headers, and a body of parts between delimiters.  Headers are
ASCII, and are kept as bytes here; the value of a field is a text, the file is bytes.

* `parseMultipartHttpSeed` is the function of the source; the errors are its messages.
* `PartText` is what the reader makes of one part, and `HeaderText` says what a name or a
  file name can be.
* `partText_spec` and `parseParts_spec` say what the parts of an accepted body are.
-/

namespace AflNv

open Lib

/-! ## Headers as text -/

def crlf : Bytes := [13, 10]

def lf : Bytes := [10]

/-- `text.decode("ascii")` -/
def decodeAscii (text : Bytes) : Option Bytes := if text.all (· < 128) then some text else none

/-- What holds of the bytes of a literal is checked byte by byte. -/
theorem forall_mem_of_optionAll {b? : Option UInt8} {P : UInt8 → Prop} [DecidablePred P]
    (h : (b?.all fun b => decide (P b)) = true) : ∀ b ∈ b?, P b := by
  intro b hb
  rw [hb] at h
  exact of_decide_eq_true h

/-- White space of Python in ASCII. -/
def isPySpace (b : UInt8) : Bool := (9 ≤ b && b ≤ 13) || (28 ≤ b && b ≤ 32)

/-- `text.strip()` -/
def strip (text : Bytes) : Bytes := Substring.trim isPySpace text

/-- `text.strip('"')` -/
def unquote (text : Bytes) : Bytes := Substring.trim (· = 34) text

def tolower (b : UInt8) : UInt8 := if 65 ≤ b && b ≤ 90 then b + 32 else b

/-- `text.lower()` -/
def lower (text : Bytes) : Bytes := text.map tolower

/-- `text.split()` -/
def words (text : Bytes) : List Bytes := (text.splitOnP isPySpace).filter (· ≠ [])

/-- `[part.strip() for part in text.split(";")]` -/
def semicolonParts (text : Bytes) : List Bytes := (text.splitOn 59).map strip

/-- `sep if sep in text else other` -/
def chooseSep (sep other text : Bytes) : Bytes := if (Substring.cut sep text).isSome then sep else other

/-- The text and the text behind the first of the blank lines that `text` is cut at. -/
def cutHead (text : Bytes) : Option (Bytes × Bytes) :=
  Substring.cut (chooseSep (crlf ++ crlf) (lf ++ lf) text) text

/-- The lines of a block of headers. -/
def headLines (text : Bytes) : List Bytes := Substring.split (chooseSep crlf lf text) text

/-- `key, value = line.split(b":", 1)`, decoded and stripped, the key in lower case. -/
def headerLine (line : Bytes) : Option (Bytes × Bytes) :=
  match Substring.cut [58] line with
  | none => none
  | some (key, value) =>
    match decodeAscii key, decodeAscii value with
    | some key, some value => some (lower (strip key), strip value)
    | _, _ => none

/-- `key, value = item.split("=", 1)`, stripped, the key in lower case and the value
without its quotes. -/
def parameter (item : Bytes) : Option (Bytes × Bytes) :=
  (Substring.cut [61] item).map fun r => (lower (strip r.1), unquote (strip r.2))

/-! ## The request -/

/-- The method and the path of the request line. -/
def requestLine (line : Bytes) : Except String (Bytes × Bytes) :=
  match decodeAscii line with
  | none => .error "MULTIPART_REQUEST_LINE_INVALID"
  | some line =>
    match words line with
    | [method, path, version] =>
      if version ≠ ascii "HTTP/1.1" then .error "MULTIPART_REQUEST_LINE_INVALID"
      else if method ≠ ascii "POST" ∨ path.head? ≠ some 47 then
        .error "MULTIPART_REQUEST_CONTRACT_INVALID"
      else .ok (method, path)
    | _ => .error "MULTIPART_REQUEST_LINE_INVALID"

/-- The headers behind those read. -/
def requestHeaders (headers : List (Bytes × Bytes)) : List Bytes → Except String (List (Bytes × Bytes))
  | [] => .ok headers
  | line :: lines =>
    match headerLine line with
    | none => .error "MULTIPART_HEADER_INVALID"
    | some (key, value) =>
      if key = [] ∨ (headers.lookup key).isSome then .error "MULTIPART_HEADER_INVALID"
      else requestHeaders (headers ++ [(key, value)]) lines

/-- The first parameter `boundary`. -/
def findBoundary : List Bytes → Bytes
  | [] => []
  | part :: parts =>
    match parameter part with
    | some (key, value) => if key = ascii "boundary" then value else findBoundary parts
    | none => findBoundary parts

/-- The boundary that the headers declare. -/
def headerBoundary (headers : List (Bytes × Bytes)) : Except String Bytes :=
  let parts := semicolonParts ((headers.lookup (ascii "content-type")).getD [])
  if parts.head?.map lower ≠ some (ascii "multipart/form-data") then
    .error "MULTIPART_CONTENT_TYPE_INVALID"
  else
    let boundary := findBoundary parts.tail
    if boundary = [] ∨ boundary.any (fun b => b < 33 || 126 < b) then
      .error "MULTIPART_BOUNDARY_INVALID"
    else .ok boundary

/-- `b"--" + boundary` -/
def delimiter (boundary : Bytes) : Bytes := [45, 45] ++ boundary

/-- What is between the delimiters of the body. -/
def bodySegments (boundary body : Bytes) : Except String (List Bytes) :=
  let delim := delimiter boundary
  if !(delim ++ crlf).isPrefixOf body && !(delim ++ lf).isPrefixOf body then
    .error "MULTIPART_BOUNDARY_MISMATCH"
  else
    let segments := Substring.split delim body
    if segments.length < 3 ∨ segments.head? ≠ some [] then .error "MULTIPART_BOUNDARY_MISMATCH"
    else if segments.getLast? ∉ [some [45, 45], some ([45, 45] ++ crlf), some ([45, 45] ++ lf)] then
      .error "MULTIPART_TERMINATOR_MISSING"
    else .ok segments.tail.dropLast

/-! ## The parts -/

/-- The text without one line break in front. -/
def dropBreak (text : Bytes) : Bytes :=
  if crlf.isPrefixOf text then text.drop 2 else if lf.isPrefixOf text then text.drop 1 else text

/-- The text without one line break at its end. -/
def trimBreak (text : Bytes) : Bytes :=
  if crlf.isSuffixOf text then text.dropLast.dropLast
  else if lf.isSuffixOf text then text.dropLast
  else text

/-- The headers of a part; a repeated one overwrites. -/
def partHeaders (headers : List (Bytes × Bytes)) : List Bytes → Except String (List (Bytes × Bytes))
  | [] => .ok headers
  | line :: lines =>
    match headerLine line with
    | none => .error "MULTIPART_PART_HEADER_INVALID"
    | some (key, value) => partHeaders (Json.setItem headers key value) lines

/-- The parameters of a disposition. -/
def dispositionParams (items : List Bytes) : List (Bytes × Bytes) :=
  items.foldl (fun params item =>
    match parameter item with
    | some (key, value) => Json.setItem params key value
    | none => params) []

/-- The name of a field, the file name if there is one, and the content. -/
structure PartText where
  name : Bytes
  filename : Option Bytes
  content : Bytes

def filenameInvalid (filename : Bytes) : Bool :=
  filename = [] || filename = [46] || filename = [46, 46] || filename.any fun b =>
    b = 47 || b = 92 || b < 32 || b = 127

/-- The parameters of the disposition that the headers of a part declare. -/
def partParams (headers : List (Bytes × Bytes)) : List (Bytes × Bytes) :=
  dispositionParams (semicolonParts ((headers.lookup (ascii "content-disposition")).getD [])).tail

/-- The part with these headers. -/
def partOfHeaders (headers : List (Bytes × Bytes)) (content : Bytes) : Except String PartText :=
  let disposition :=
    (semicolonParts ((headers.lookup (ascii "content-disposition")).getD [])).head?.map lower
  if disposition ≠ some (ascii "form-data") then .error "MULTIPART_DISPOSITION_INVALID"
  else
    let name := ((partParams headers).lookup (ascii "name")).getD []
    if name = [] then .error "MULTIPART_FIELD_NAME_MISSING"
    else
      match (partParams headers).lookup (ascii "filename") with
      | some filename =>
        if filenameInvalid filename then .error "MULTIPART_FILENAME_INVALID"
        else .ok ⟨name, some filename, content⟩
      | none => .ok ⟨name, none, content⟩

/-- The header and the content of one part. -/
def partText (segment : Bytes) : Except String PartText :=
  match cutHead (dropBreak segment) with
  | none => .error "MULTIPART_PART_HEADERS_MISSING"
  | some (head, content) =>
    match partHeaders [] (headLines head) with
    | .error e => .error e
    | .ok headers => partOfHeaders headers (trimBreak content)

/-- The fields and the files of the parts read. -/
structure Parts where
  fields : List (Bytes × List ℕ)
  files : List (Bytes × Bytes × Bytes)

def addPart (parts : Parts) (part : PartText) : Except String Parts :=
  match part.filename with
  | some filename =>
    .ok { parts with files := parts.files ++ [(part.name, filename, part.content)] }
  | none =>
    if (parts.fields.lookup part.name).isSome then .error "MULTIPART_FIELD_DUPLICATE"
    else match Utf8.decode part.content with
      | none => .error "MULTIPART_FIELD_INVALID_UTF8"
      | some value => .ok { parts with fields := parts.fields ++ [(part.name, value)] }

def parseParts (parts : Parts) : List Bytes → Except String Parts
  | [] => .ok parts
  | segment :: segments => do
    let part ← partText segment
    let parts ← addPart parts part
    parseParts parts segments

/-! ## The seed -/

structure MultipartSeed where
  method : Bytes
  path : Bytes
  headers : List (Bytes × Bytes)
  boundary : Bytes
  fields : List (Bytes × List ℕ)
  filename : Bytes
  fileBytes : Bytes
  deriving DecidableEq

/-- The fields and the file of a body. -/
def parseMultipartBody (boundary body : Bytes) :
    Except String (List (Bytes × List ℕ) × Bytes × Bytes) := do
  let segments ← bodySegments boundary body
  let parts ← parseParts ⟨[], []⟩ segments
  match parts.files with
  | [(name, filename, content)] =>
    if name = ascii "filedata" then .ok (parts.fields, filename, content)
    else .error "MULTIPART_FILEDATA_INVALID"
  | _ => .error "MULTIPART_FILEDATA_INVALID"

/-- `parse_multipart_http_seed` -/
def parseMultipartHttpSeed (data : Bytes) : Except String MultipartSeed :=
  match cutHead data with
  | none => .error "MULTIPART_HTTP_HEADERS_MISSING"
  | some (head, body) => do
    let lines := headLines head
    let (method, path) ← requestLine (lines.head?.getD [])
    let headers ← requestHeaders [] lines.tail
    let boundary ← headerBoundary headers
    let (fields, filename, fileBytes) ← parseMultipartBody boundary body
    .ok { method, path, headers, boundary, fields, filename, fileBytes }

/-! ## What a part can hold -/

/-- A text that stood between quotes in a header, or could. -/
structure HeaderText (text : Bytes) : Prop where
  ne_nil : text ≠ []
  ascii : ∀ b ∈ text, b < 128
  noSemicolon : (59 : UInt8) ∉ text
  noBreak : ¬ crlf <:+: text
  head : ∀ b ∈ text.head?, b ≠ 34
  last : ∀ b ∈ text.getLast?, b ≠ 34

theorem decodeAscii_eq_some {text out : Bytes} (h : decodeAscii text = some out) :
    out = text ∧ ∀ b ∈ text, b < 128 := by
  rw [decodeAscii] at h
  split_ifs at h with hall
  exact ⟨(Option.some.inj h).symm, fun b hb => of_decide_eq_true (List.all_eq_true.mp hall b hb)⟩

/-- A parameter is a part of its item, without quotes at its ends. -/
theorem parameter_spec {item key value : Bytes} (h : parameter item = some (key, value)) :
    value <:+: item ∧ (∀ b ∈ value.head?, b ≠ 34) ∧ ∀ b ∈ value.getLast?, b ≠ 34 := by
  obtain ⟨⟨k, v⟩, hcut, heq⟩ := Option.map_eq_some_iff.mp h
  obtain ⟨rfl, rfl⟩ := Prod.mk.inj heq
  have htext := (Substring.cut_eq_some (List.cons_ne_nil _ _) hcut).1
  refine ⟨?_, ?_, ?_⟩
  · have hv : v <:+: item := by
      rw [htext, ← List.append_assoc]
      exact (List.suffix_append _ v).isInfix
    exact (Substring.trim_infix _ _).trans ((Substring.trim_infix _ _).trans hv)
  · exact fun b hb => of_decide_eq_false (Substring.head?_trim (fun b : UInt8 => decide (b = 34)) _ b hb)
  · exact fun b hb => of_decide_eq_false (Substring.getLast?_trim (fun b : UInt8 => decide (b = 34)) _ b hb)

/-- The value of a header is ASCII, and a part of its line. -/
theorem headerLine_spec {line key value : Bytes} (h : headerLine line = some (key, value)) :
    value <:+: line ∧ ∀ b ∈ value, b < 128 := by
  rw [headerLine] at h
  split at h
  · exact absurd h nofun
  · rename_i k v hcut
    split at h
    · rename_i k' v' hk hv
      obtain ⟨rfl, rfl⟩ := Prod.mk.inj (Option.some.inj h)
      obtain ⟨rfl, hascii⟩ := decodeAscii_eq_some hv
      have htext := (Substring.cut_eq_some (List.cons_ne_nil _ _) hcut).1
      have hinfix : v' <:+: line := by
        rw [htext, ← List.append_assoc]
        exact (List.suffix_append _ v').isInfix
      exact ⟨(Substring.trim_infix _ _).trans hinfix,
        fun b hb => hascii b ((Substring.trim_infix _ _).subset hb)⟩
    · exact absurd h nofun

theorem mem_setItem {headers : List (Bytes × Bytes)} {key value k v : Bytes}
    (h : (k, v) ∈ Json.setItem headers key value) : (k, v) ∈ headers ∨ (k, v) = (key, value) := by
  rw [Json.setItem] at h
  split_ifs at h
  · obtain ⟨m, hm, heq⟩ := List.mem_map.mp h
    split_ifs at heq
    · exact .inr heq.symm
    · exact .inl (heq ▸ hm)
  · exact (List.mem_append.mp h).imp_right List.mem_singleton.mp

theorem mem_of_lookup {headers : List (Bytes × Bytes)} {key value : Bytes}
    (h : headers.lookup key = some value) : (key, value) ∈ headers := by
  obtain ⟨l, r, rfl, -⟩ := List.lookup_eq_some_iff.mp h
  simp

theorem mem_partHeaders {lines : List Bytes} {headers out : List (Bytes × Bytes)} {k v : Bytes}
    (h : partHeaders headers lines = .ok out) (hmem : (k, v) ∈ out) :
    (k, v) ∈ headers ∨ ∃ line ∈ lines, headerLine line = some (k, v) := by
  induction lines generalizing headers with
  | nil => exact .inl (Except.ok.inj h ▸ hmem)
  | cons line lines ih =>
    rw [partHeaders] at h
    cases hline : headerLine line with
    | none =>
      rw [hline] at h
      exact absurd h nofun
    | some r =>
      obtain ⟨key, value⟩ := r
      rw [hline] at h
      rcases ih h with hold | ⟨line', hline', hspec⟩
      · rcases mem_setItem hold with hold | heq
        · exact .inl hold
        · exact .inr ⟨line, List.mem_cons_self, heq ▸ hline⟩
      · exact .inr ⟨line', List.mem_cons_of_mem line hline', hspec⟩

theorem mem_dispositionParams {items : List Bytes} {k v : Bytes}
    (hmem : (k, v) ∈ dispositionParams items) : ∃ item ∈ items, parameter item = some (k, v) := by
  induction items using List.reverseRecOn with
  | nil => exact absurd hmem List.not_mem_nil
  | append_singleton items item ih =>
    rw [dispositionParams, List.foldl_append, ← dispositionParams, List.foldl_cons,
      List.foldl_nil] at hmem
    cases hitem : parameter item with
    | none =>
      rw [hitem] at hmem
      obtain ⟨item', hin, hspec⟩ := ih hmem
      exact ⟨item', List.mem_append_left _ hin, hspec⟩
    | some r =>
      obtain ⟨key, value⟩ := r
      rw [hitem] at hmem
      rcases mem_setItem hmem with hold | heq
      · obtain ⟨item', hin, hspec⟩ := ih hold
        exact ⟨item', List.mem_append_left _ hin, hspec⟩
      · exact ⟨item, List.mem_append_right _ (List.mem_singleton.mpr rfl), heq ▸ hitem⟩

/-- A line of headers has no line break; without a CRLF in the block it has no LF. -/
theorem mem_headLines {head line : Bytes} (h : line ∈ headLines head) :
    line <:+: head ∧ ¬ crlf <:+: line ∧ (¬ crlf <:+: head → (10 : UInt8) ∉ line) := by
  have hcrlf : crlf ≠ [] := List.cons_ne_nil _ _
  rw [headLines, chooseSep] at h
  split_ifs at h with hsep
  · obtain ⟨hpart, hfree⟩ := Substring.mem_split hcrlf h
    exact ⟨hpart, hfree, fun hnot => absurd ((Substring.isSome_cut_iff hcrlf).mp hsep) hnot⟩
  · have hnot : ¬ crlf <:+: head := fun hin => hsep ((Substring.isSome_cut_iff hcrlf).mpr hin)
    obtain ⟨hpart, hfree⟩ := Substring.mem_split (List.cons_ne_nil _ _) h
    refine ⟨hpart, fun hin => hnot (hin.trans hpart), fun _ hmem => hfree ?_⟩
    obtain ⟨l, r, heq⟩ := List.append_of_mem hmem
    exact ⟨l, r, by rw [heq, List.append_assoc]; rfl⟩

/-- What the parameters of a disposition are. -/
theorem param_spec {head : Bytes} {headers : List (Bytes × Bytes)} {k v : Bytes}
    (hheaders : partHeaders [] (headLines head) = .ok headers)
    (hparam : (k, v) ∈ partParams headers) (hne : v ≠ []) :
    HeaderText v ∧ v <:+: head ∧ (¬ crlf <:+: head → (10 : UInt8) ∉ v) := by
  obtain ⟨item, hitem, hspec⟩ := mem_dispositionParams hparam
  obtain ⟨hvalue, hhead, hlast⟩ := parameter_spec hspec
  obtain ⟨piece, hpiece, rfl⟩ := List.mem_map.mp (List.mem_of_mem_tail hitem)
  obtain ⟨hpart, hsemi⟩ := Substring.mem_splitOn hpiece
  have hvp : v <:+: piece := hvalue.trans (Substring.trim_infix _ _)
  cases hlookup : headers.lookup (ascii "content-disposition") with
  | none =>
    rw [hlookup] at hpart
    have hnil : piece = [] := List.infix_nil.mp hpart
    rw [hnil] at hvp
    exact absurd (List.infix_nil.mp hvp) hne
  | some value =>
    rw [hlookup] at hpart
    rcases mem_partHeaders hheaders (mem_of_lookup hlookup) with hnil | ⟨line, hline, hval⟩
    · exact absurd hnil List.not_mem_nil
    · obtain ⟨hvl, hascii⟩ := headerLine_spec hval
      obtain ⟨hlh, hbreak, hlf⟩ := mem_headLines hline
      have hv : v <:+: value := hvp.trans hpart
      have hvline : v <:+: line := hv.trans hvl
      exact ⟨⟨hne, fun b hb => hascii b (hv.subset hb), fun h => hsemi (hvp.subset h),
        fun h => hbreak (h.trans hvline), hhead, hlast⟩, hvline.trans hlh,
        fun hnot hmem => hlf hnot (hvline.subset hmem)⟩

theorem partOfHeaders_spec {headers : List (Bytes × Bytes)} {content : Bytes} {part : PartText}
    (h : partOfHeaders headers content = .ok part) :
    part.content = content ∧ part.name ≠ [] ∧ (ascii "name", part.name) ∈ partParams headers ∧
      ∀ filename, part.filename = some filename →
        (ascii "filename", filename) ∈ partParams headers ∧ filenameInvalid filename = false := by
  rw [partOfHeaders] at h
  split_ifs at h with hform
  dsimp only at h
  split_ifs at h with hname
  have hmem : (ascii "name", ((partParams headers).lookup (ascii "name")).getD []) ∈
      partParams headers := by
    cases hlookup : (partParams headers).lookup (ascii "name") with
    | none => exact absurd (by rw [hlookup]; rfl) hname
    | some v => exact mem_of_lookup hlookup
  cases hfile : (partParams headers).lookup (ascii "filename") with
  | none =>
    rw [hfile] at h
    obtain rfl := Except.ok.inj h
    exact ⟨rfl, hname, hmem, fun _ hf => absurd hf nofun⟩
  | some filename =>
    rw [hfile] at h
    dsimp only at h
    split_ifs at h with hinvalid
    obtain rfl := Except.ok.inj h
    refine ⟨rfl, hname, hmem, fun f hf => ?_⟩
    obtain rfl : filename = f := Option.some.inj hf
    exact ⟨mem_of_lookup hfile, Bool.eq_false_iff.mpr hinvalid⟩

/-- What is read of one part. -/
theorem partText_spec {segment : Bytes} {part : PartText} (h : partText segment = .ok part) :
    ∃ head content, cutHead (dropBreak segment) = some (head, content) ∧
      part.content = trimBreak content ∧
      (∀ text, text = part.name ∨ part.filename = some text →
        HeaderText text ∧ text <:+: head ∧ (¬ crlf <:+: head → (10 : UInt8) ∉ text)) ∧
      (∀ filename, part.filename = some filename → filenameInvalid filename = false) := by
  rw [partText] at h
  split at h
  · exact absurd h nofun
  · rename_i head content hcut
    split at h
    · exact absurd h nofun
    · rename_i headers hheaders
      obtain ⟨hcontent, hne, hname, hfile⟩ := partOfHeaders_spec h
      refine ⟨head, content, hcut, hcontent, ?_, fun f hf => (hfile f hf).2⟩
      rintro text (rfl | hf)
      · exact param_spec hheaders hname hne
      · obtain ⟨hmem, hvalid⟩ := hfile text hf
        refine param_spec hheaders hmem ?_
        rintro rfl
        exact absurd hvalid (by decide)

/-- What the parts of a body become. -/
theorem parseParts_spec {parts out : Parts} {segments : List Bytes}
    (h : parseParts parts segments = .ok out) :
    (∀ f ∈ out.fields, f ∈ parts.fields ∨ ∃ segment ∈ segments, ∃ part,
      partText segment = .ok part ∧ part.name = f.1 ∧ part.filename = none ∧
        Utf8.decode part.content = some f.2) ∧
    (∀ f ∈ out.files, f ∈ parts.files ∨ ∃ segment ∈ segments, ∃ part,
      partText segment = .ok part ∧ part.filename = some f.2.1) ∧
    ((parts.fields.map Prod.fst).Nodup → (out.fields.map Prod.fst).Nodup) := by
  induction segments generalizing parts with
  | nil =>
    obtain rfl := Except.ok.inj h
    exact ⟨fun _ hf => .inl hf, fun _ hf => .inl hf, id⟩
  | cons segment segments ih =>
    rw [parseParts] at h
    cases hpart : partText segment with
    | error e =>
      rw [hpart] at h
      exact absurd h nofun
    | ok part =>
      rw [hpart] at h
      cases hadd : addPart parts part with
      | error e =>
        simp only [bind, Except.bind, hadd] at h
        exact absurd h nofun
      | ok next =>
        simp only [bind, Except.bind, hadd] at h
        obtain ⟨hfields, hfiles, hnodup⟩ := ih h
        rw [addPart] at hadd
        cases hfile : part.filename with
        | some filename =>
          rw [hfile] at hadd
          obtain rfl := Except.ok.inj hadd
          refine ⟨fun f hf => ?_, fun f hf => ?_, hnodup⟩
          · exact (hfields f hf).imp_right fun ⟨s, hs, hspec⟩ =>
              ⟨s, List.mem_cons_of_mem segment hs, hspec⟩
          · rcases hfiles f hf with hold | ⟨s, hs, hspec⟩
            · rcases List.mem_append.mp hold with hold | hnew
              · exact .inl hold
              · obtain rfl := List.mem_singleton.mp hnew
                exact .inr ⟨segment, List.mem_cons_self, part, hpart, hfile⟩
            · exact .inr ⟨s, List.mem_cons_of_mem segment hs, hspec⟩
        | none =>
          rw [hfile] at hadd
          dsimp only at hadd
          split_ifs at hadd with hdup
          cases hdecode : Utf8.decode part.content with
          | none =>
            rw [hdecode] at hadd
            exact absurd hadd nofun
          | some value =>
            rw [hdecode] at hadd
            obtain rfl := Except.ok.inj hadd
            refine ⟨fun f hf => ?_, fun f hf => ?_, fun hold => hnodup ?_⟩
            · rcases hfields f hf with hold | ⟨s, hs, hspec⟩
              · rcases List.mem_append.mp hold with hold | hnew
                · exact .inl hold
                · obtain rfl := List.mem_singleton.mp hnew
                  exact .inr ⟨segment, List.mem_cons_self, part, hpart, rfl, hfile, hdecode⟩
              · exact .inr ⟨s, List.mem_cons_of_mem segment hs, hspec⟩
            · exact (hfiles f hf).imp_right fun ⟨s, hs, hspec⟩ =>
                ⟨s, List.mem_cons_of_mem segment hs, hspec⟩
            · rw [List.map_append, List.nodup_append]
              refine ⟨hold, List.nodup_singleton _, ?_⟩
              intro k hk k' hk' heq
              obtain rfl : k' = part.name := List.mem_singleton.mp hk'
              obtain ⟨⟨n, v⟩, hm, rfl⟩ := List.mem_map.mp hk
              refine hdup ?_
              rw [← heq, List.lookup_isSome_iff]
              exact ⟨(n, v), hm, beq_self_eq_true n⟩

/-- What a reader of multipart bodies returns. -/
structure WfUpload (fields : List (Bytes × List ℕ)) (filename : Bytes) : Prop where
  names : ∀ f ∈ fields, HeaderText f.1
  nodup : (fields.map Prod.fst).Nodup
  values : ∀ f ∈ fields, ∀ c ∈ f.2, Utf8.Scalar c
  file : HeaderText filename
  fileValid : filenameInvalid filename = false

theorem parseMultipartBody_ok {boundary body filename fileBytes : Bytes}
    {fields : List (Bytes × List ℕ)}
    (h : parseMultipartBody boundary body = .ok (fields, filename, fileBytes)) :
    ∃ segments parts, bodySegments boundary body = .ok segments ∧
      parseParts ⟨[], []⟩ segments = .ok parts ∧ parts.fields = fields ∧
        parts.files = [(ascii "filedata", filename, fileBytes)] := by
  rw [parseMultipartBody] at h
  cases hseg : bodySegments boundary body with
  | error e =>
    rw [hseg] at h
    exact absurd h nofun
  | ok segments =>
    rw [hseg] at h
    cases hparts : parseParts ⟨[], []⟩ segments with
    | error e =>
      simp only [bind, Except.bind, hparts] at h
      exact absurd h nofun
    | ok parts =>
      simp only [bind, Except.bind, hparts] at h
      refine ⟨segments, parts, rfl, hparts, ?_⟩
      split at h
      · rename_i name file content hfiles
        split_ifs at h with hname
        obtain ⟨rfl, rfl, rfl⟩ : _ ∧ _ ∧ _ := by simpa using h
        exact ⟨rfl, by rw [hfiles, hname]⟩
      · exact absurd h nofun

theorem parseMultipartBody_wf {boundary body filename fileBytes : Bytes}
    {fields : List (Bytes × List ℕ)}
    (h : parseMultipartBody boundary body = .ok (fields, filename, fileBytes)) :
    WfUpload fields filename := by
  obtain ⟨segments, parts, -, hparts, hfields, hfiles⟩ := parseMultipartBody_ok h
  obtain ⟨hmem, hfile, hnodup⟩ := parseParts_spec hparts
  rw [hfields] at hmem hnodup
  have hquot : ∀ f ∈ fields, HeaderText f.1 ∧ ∀ c ∈ f.2, Utf8.Scalar c := by
    intro f hf
    rcases hmem f hf with hnil | ⟨segment, -, part, hpart, hname, -, hvalue⟩
    · exact absurd hnil List.not_mem_nil
    · obtain ⟨_, _, -, -, hspec, -⟩ := partText_spec hpart
      exact ⟨(hspec f.1 (.inl hname.symm)).1, (Utf8.decode_eq_some hvalue).1⟩
  rcases hfile _ (hfiles ▸ List.mem_cons_self) with hnil | ⟨segment, -, part, hpart, hname⟩
  · exact absurd hnil List.not_mem_nil
  · obtain ⟨_, _, -, -, hspec, hvalid⟩ := partText_spec hpart
    exact ⟨fun f hf => (hquot f hf).1, hnodup List.nodup_nil, fun f hf => (hquot f hf).2,
      (hspec filename (.inr hname)).1, hvalid filename hname⟩

theorem parseMultipartHttpSeed_ok {data : Bytes} {seed : MultipartSeed}
    (h : parseMultipartHttpSeed data = .ok seed) : ∃ head body, cutHead data = some (head, body) ∧
      parseMultipartBody seed.boundary body = .ok (seed.fields, seed.filename, seed.fileBytes) := by
  rw [parseMultipartHttpSeed] at h
  split at h
  · exact absurd h nofun
  · rename_i head body hcut
    simp only [bind, Except.bind] at h
    split at h
    · exact absurd h nofun
    split at h
    · exact absurd h nofun
    split at h
    · exact absurd h nofun
    split at h
    · exact absurd h nofun
    rename_i hbody
    obtain rfl := Except.ok.inj h
    exact ⟨head, body, hcut, hbody⟩

end AflNv
