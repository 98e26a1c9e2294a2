import AflNv.BodyValidate
import AflNv.Lib.Percent

/-!
# The query of a URL

`nv_url_query.py` writes a validated query behind a path and reads the query part of a URL.  A list
becomes one parameter for each item, and a key that occurs once is read as its value, another
one as the list of its values.

* `lookup_parseQueryString` says what is read for a key: the values of its parameters.
* `constructUrl_spec`: for each key the values in the path are followed by those that the query has
  for it.  The values are texts in Python's notation, `True` for `true` (`boolean_notation`).
* `constructUrl_accepted` is this for the queries that the validation accepts.
-/

namespace AflNv

open AflNv.Lib

namespace UrlQuery

open AflNv.Lib.JsonCodec (Text Value chars)
open AflNv.Lib.Percent (quotePlus unquotePlusBytes)
open AflNv.PythonJson
open AflNv.BodyRules (FloatEq)
open AflNv.BodyValidate

variable {F : Type}

/-- What is used of Python: `str(v)` of a float, a list or an object, which writes no surrogate that
was not there, and the decoder that replaces what is no code point. -/
structure Library (F : Type) where
  str : Value F → Text
  encodes_str : ∀ v, encodable v = true → encodes (str v) = true
  decodeReplace : Bytes → Text
  decodeReplace_eq : ∀ bs text, Utf8.decode bs = some text → decodeReplace bs = text

/-! ## Writing -/

/-- `str(value) if value is not None else ""` -/
def valueText (L : Library F) : Value F → Text
  | .null => []
  | .bool true => chars "True"
  | .bool false => chars "False"
  | .int i => JsonCodec.showInt i
  | .str s => s
  | v => L.str v

/-- The texts of a value, one for each item of a list. -/
def texts (L : Library F) : Value F → List Text
  | .list vs => vs.map (valueText L)
  | v => [valueText L v]

def params (L : Library F) (query : List (Text × Value F)) : List (Text × Text) :=
  query.flatMap fun m => (texts L m.2).map fun text => (m.1, text)

def param (p : Text × Text) : Text := quotePlus p.1 ++ 61 :: quotePlus p.2

/-- `"&".join(items)` -/
def joinParams : List (Text × Text) → Text
  | [] => []
  | p :: ps => param p ++ ps.flatMap fun p => 38 :: param p

/-- `urllib.parse.urlencode` -/
def urlencode (ps : List (Text × Text)) : Except Raised Text :=
  if ps.all fun p => encodes p.1 && encodes p.2 then .ok (joinParams ps)
  else .error .unicodeEncodeError

def buildQueryString (L : Library F) (query : List (Text × Value F)) : Except Raised Text :=
  if query = [] then .ok [] else urlencode (params L query)

def constructUrl (L : Library F) (basePath : Text) (query : List (Text × Value F)) :
    Except Raised Text :=
  if query = [] then .ok basePath
  else do
    let queryString ← buildQueryString L query
    if queryString = [] then .ok basePath
    else
      let separator := if 63 ∈ basePath then 38 else 63
      .ok (basePath ++ separator :: queryString)

/-! ## Reading -/

def unquotePlus (L : Library F) (text : Text) : Text := L.decodeReplace (unquotePlusBytes text)

/-- A parameter, cut at the first `=`. -/
def readParam (L : Library F) (piece : Text) : Text × Text :=
  let name := piece.takeWhile (· ≠ 61)
  (unquotePlus L name, unquotePlus L (piece.drop (name.length + 1)))

/-- `urllib.parse.parse_qsl` -/
def parseQsl (L : Library F) (text : Text) : List (Text × Text) :=
  ((text.splitOn 38).filter (· ≠ [])).map (readParam L)

/-- A further value of a key. -/
def addValue (d : List (Text × List Text)) (p : Text × Text) : List (Text × List Text) :=
  if p.1 ∈ d.map Prod.fst then d.map fun e => if e.1 = p.1 then (e.1, e.2 ++ [p.2]) else e
  else d ++ [(p.1, [p.2])]

inductive QueryValue where
  | one (text : Text)
  | many (texts : List Text)
  deriving DecidableEq

def flatten : List Text → QueryValue
  | [text] => .one text
  | texts => .many texts

/-- Without a leading `?`. -/
def stripMark (text : Text) : Text := if text.head? = some 63 then text.tail else text

def parseQueryString (L : Library F) (text : Text) : List (Text × QueryValue) :=
  if text = [] then []
  else ((parseQsl L (stripMark text)).foldl addValue []).map fun e => (e.1, flatten e.2)

/-- What is behind the first `?` of a URL. -/
def queryPart (url : Text) : Text := (url.dropWhile (· ≠ 63)).tail

/-! ## What is read for a key -/

/-- The values of a key, in order. -/
def valuesFor (key : Text) (ps : List (Text × Text)) : List Text :=
  (ps.filter (·.1 = key)).map Prod.snd

/-- What stands for the values of a key. -/
def entry : List Text → Option QueryValue
  | [] => none
  | texts => some (flatten texts)

/-- The values that an entry stands for. -/
def entryTexts : Option QueryValue → List Text
  | none => []
  | some (.one text) => [text]
  | some (.many texts) => texts

theorem entryTexts_entry (ts : List Text) : entryTexts (entry ts) = ts := by
  match ts with
  | [] | [_] | _ :: _ :: _ => rfl

theorem lookup_map_add (d : List (Text × List Text)) (k value key : Text) :
    (d.map fun e => if e.1 = k then (e.1, e.2 ++ [value]) else e).lookup key =
      if key = k then (d.lookup key).map (· ++ [value]) else d.lookup key := by
  induction d with
  | nil => simp
  | cons e d ih =>
    rw [List.map_cons]
    obtain ⟨k', vs⟩ := e
    by_cases hk : k' = k
    · rw [if_pos hk, lookup_cons_ite, lookup_cons_ite, ih]
      by_cases hkey : key = k' <;> simp_all
    · rw [if_neg hk, lookup_cons_ite, lookup_cons_ite, ih]
      by_cases hkey : key = k'
      · rw [if_pos hkey, if_pos hkey, if_neg (fun h => hk (hkey.symm.trans h))]
      · rw [if_neg hkey, if_neg hkey]

theorem lookup_addValue (d : List (Text × List Text)) (p : Text × Text) (key : Text) :
    (addValue d p).lookup key =
      if key = p.1 then some ((d.lookup key).getD [] ++ [p.2]) else d.lookup key := by
  rw [addValue]
  split_ifs with hmem hkey hkey
  · rw [lookup_map_add, if_pos hkey]
    obtain ⟨e, he, hek⟩ := List.mem_map.mp hmem
    cases hlookup : d.lookup key with
    | none =>
      have hne := List.lookup_eq_none_iff.mp hlookup e he
      simp [hkey, hek] at hne
    | some vs => rfl
  · rw [lookup_map_add, if_neg hkey]
  · have hnone : d.lookup key = none := List.lookup_eq_none_iff.mpr fun e he => by
      rw [hkey, bne_iff_ne]
      exact fun h => hmem (List.mem_map.mpr ⟨e, he, h.symm⟩)
    rw [List.lookup_append, hnone, hkey]
    simp
  · rw [List.lookup_append]
    have hlast : [(p.1, [p.2])].lookup key = none := by simp [lookup_cons_ite, hkey]
    rw [hlast, Option.or_none]

/-- The values collected for a key, if there are any. -/
def collected : List Text → Option (List Text)
  | [] => none
  | texts => some texts

theorem collected_append (ts : List Text) (t : Text) :
    collected (ts ++ [t]) = some (ts ++ [t]) := by
  cases ts <;> rfl

theorem valuesFor_cons (key : Text) (p : Text × Text) (ps : List (Text × Text)) :
    valuesFor key (p :: ps) = if key = p.1 then p.2 :: valuesFor key ps else valuesFor key ps := by
  rw [valuesFor, List.filter_cons]
  by_cases h : key = p.1
  · rw [if_pos h, if_pos (decide_eq_true h.symm)]
    rfl
  · rw [if_neg h, if_neg (by simpa using fun h' => h h'.symm)]
    rfl

theorem valuesFor_append (key : Text) (ps qs : List (Text × Text)) :
    valuesFor key (ps ++ qs) = valuesFor key ps ++ valuesFor key qs := by
  rw [valuesFor, List.filter_append, List.map_append]
  rfl

theorem lookup_foldl_addValue (ps : List (Text × Text)) (key : Text)
    (d : List (Text × List Text)) (ts : List Text) (hd : d.lookup key = collected ts) :
    (ps.foldl addValue d).lookup key = collected (ts ++ valuesFor key ps) := by
  induction ps generalizing d ts with
  | nil => exact hd.trans (congrArg collected (List.append_nil ts).symm)
  | cons p ps ih =>
    rw [List.foldl_cons, valuesFor_cons]
    split_ifs with hkey
    · rw [← List.singleton_append, ← List.append_assoc]
      refine ih _ _ ?_
      rw [lookup_addValue, if_pos hkey, hd, collected_append]
      cases ts <;> rfl
    · refine ih _ _ ?_
      rw [lookup_addValue, if_neg hkey, hd]

theorem lookup_map_flatten (d : List (Text × List Text)) (key : Text) :
    (d.map fun e => (e.1, flatten e.2)).lookup key = (d.lookup key).map flatten := by
  induction d with
  | nil => rfl
  | cons e d ih =>
    obtain ⟨k, ts⟩ := e
    rw [List.map_cons, lookup_cons_ite, lookup_cons_ite, ih]
    split_ifs <;> rfl

/-- The entry of a key is made of the values of its parameters. -/
theorem lookup_parseQueryString (L : Library F) (text key : Text) :
    (parseQueryString L text).lookup key =
      entry (valuesFor key (parseQsl L (stripMark text))) := by
  have hentry (ts : List Text) : (collected ts).map flatten = entry ts := by cases ts <;> rfl
  rw [parseQueryString]
  split_ifs with hempty
  · rw [hempty]
    rfl
  · rw [lookup_map_flatten, lookup_foldl_addValue _ _ [] [] rfl, hentry, List.nil_append]

/-! ## What is written is read -/

theorem unquotePlus_quotePlus (L : Library F) {text : Text} (h : encodes text = true) :
    unquotePlus L (quotePlus text) = text := by
  rw [unquotePlus, Percent.unquotePlusBytes_quotePlus]
  exact L.decodeReplace_eq _ _ (Utf8.decode_encode (encodes_iff.mp h))

/-- No separator occurs in a quoted text. -/
theorem quotePlus_free {text : Text} {c : ℕ} (h : c ∈ quotePlus text) :
    c ≠ 38 ∧ c ≠ 61 ∧ c ≠ 63 := by
  have hc := Percent.mem_quotePlus h
  rw [Percent.unreserved_iff] at hc
  omega

theorem param_free {p : Text × Text} {c : ℕ} (h : c ∈ param p) : c ≠ 38 ∧ c ≠ 63 := by
  rcases List.mem_append.mp h with h | h
  · exact ⟨(quotePlus_free h).1, (quotePlus_free h).2.2⟩
  · rcases List.mem_cons.mp h with rfl | h
    · decide
    · exact ⟨(quotePlus_free h).1, (quotePlus_free h).2.2⟩

theorem readParam_param (L : Library F) {p : Text × Text} (hkey : encodes p.1 = true)
    (hvalue : encodes p.2 = true) : readParam L (param p) = p := by
  have hname : (param p).takeWhile (· ≠ 61) = quotePlus p.1 := by
    rw [param, List.takeWhile_append_of_pos]
    · simp
    · exact fun c hc => decide_eq_true (quotePlus_free hc).2.1
  have hdrop : (param p).drop ((quotePlus p.1).length + 1) = quotePlus p.2 := by
    rw [param, ← List.singleton_append, ← List.append_assoc]
    exact List.drop_left' (by simp)
  rw [readParam, hname, hdrop, unquotePlus_quotePlus L hkey, unquotePlus_quotePlus L hvalue]

/-- The parameters written are read back. -/
theorem parseQsl_joinParams (L : Library F) {ps : List (Text × Text)}
    (h : ∀ p ∈ ps, encodes p.1 = true ∧ encodes p.2 = true) : parseQsl L (joinParams ps) = ps := by
  cases ps with
  | nil => rfl
  | cons p ps =>
    have hfree (q : Text × Text) : 38 ∉ param q := fun hmem => (param_free hmem).1 rfl
    have hne (q : Text × Text) : param q ≠ [] := by simp [param]
    rw [parseQsl, joinParams, Substring.splitOn_flatMap (hfree p) fun q _ => hfree q,
      ← List.map_cons (f := param), List.filter_eq_self.mpr ?_, List.map_map]
    · refine (List.map_congr_left fun q hq => ?_).trans (List.map_id _)
      exact readParam_param L (h q hq).1 (h q hq).2
    · intro piece hpiece
      obtain ⟨q, -, rfl⟩ := List.mem_map.mp hpiece
      exact decide_eq_true (hne q)

theorem parseQsl_append (L : Library F) (a b : Text) :
    parseQsl L (a ++ 38 :: b) = parseQsl L a ++ parseQsl L b := by
  rw [parseQsl, List.splitOn_append_cons_self, List.filter_append, List.map_append]
  rfl

/-! ## The query behind a path -/

theorem encodes_valueText (L : Library F) {v : Value F} (h : encodable v = true) :
    encodes (valueText L v) = true := by
  match v with
  | .null | .bool true | .bool false => rfl
  | .int i => exact encodes_of_ascii (JsonCodec.ascii_number (JsonCodec.showInt_isNumberChar i))
  | .str s => exact h
  | .float _ | .list _ | .dict _ => exact L.encodes_str _ h

theorem encodes_texts (L : Library F) {v : Value F} (h : encodable v = true) :
    ∀ text ∈ texts L v, encodes text = true := by
  match v with
  | .list vs =>
    intro text htext
    obtain ⟨item, hitem, rfl⟩ := List.mem_map.mp htext
    exact encodes_valueText L (encodableItems_iff.mp h item hitem)
  | .null | .bool _ | .int _ | .str _ | .float _ | .dict _ =>
    intro text htext
    obtain rfl := List.mem_singleton.mp htext
    exact encodes_valueText L h

theorem encodes_params (L : Library F) {query : List (Text × Value F)}
    (h : encodableMembers query = true) :
    ∀ p ∈ params L query, encodes p.1 = true ∧ encodes p.2 = true := by
  intro p hp
  obtain ⟨m, hm, hp⟩ := List.mem_flatMap.mp hp
  obtain ⟨text, htext, rfl⟩ := List.mem_map.mp hp
  obtain ⟨hkey, hvalue⟩ := encodableMembers_iff.mp h m hm
  exact ⟨hkey, encodes_texts L hvalue text htext⟩

/-- The texts that a query has for a key. -/
def queryTexts (L : Library F) (query : List (Text × Value F)) (key : Text) : List Text :=
  match query.lookup key with
  | none => []
  | some v => texts L v

theorem valuesFor_map (key k : Text) (ts : List Text) :
    valuesFor key (ts.map fun t => (k, t)) = if key = k then ts else [] := by
  induction ts with
  | nil => exact (ite_self []).symm
  | cons t ts ih =>
    rw [List.map_cons, valuesFor_cons, ih]
    by_cases hkey : key = k
    · rw [if_pos hkey, if_pos hkey, if_pos hkey]
    · rw [if_neg hkey, if_neg hkey, if_neg hkey]

theorem valuesFor_params (L : Library F) {query : List (Text × Value F)}
    (hnodup : (query.map Prod.fst).Nodup) (key : Text) :
    valuesFor key (params L query) = queryTexts L query key := by
  induction query with
  | nil => rfl
  | cons m query ih =>
    obtain ⟨hm, hrest⟩ := List.nodup_cons.mp hnodup
    rw [params, List.flatMap_cons, valuesFor_append, valuesFor_map]
    have htail : valuesFor key (query.flatMap fun m => (texts L m.2).map fun text => (m.1, text)) =
        queryTexts L query key := ih hrest
    rw [htail, queryTexts, queryTexts]
    obtain ⟨k, v⟩ := m
    rw [lookup_cons_ite]
    split_ifs with hkey
    · have hnone : query.lookup key = none := List.lookup_eq_none_iff.mpr fun e he => by
        rw [hkey, bne_iff_ne]
        exact fun h => hm (List.mem_map.mpr ⟨e, he, h.symm⟩)
      rw [hnone, List.append_nil]
    · rfl

theorem urlencode_params (L : Library F) {query : List (Text × Value F)}
    (h : encodableMembers query = true) :
    urlencode (params L query) = .ok (joinParams (params L query)) := by
  refine if_pos (List.all_eq_true.mpr fun p hp => ?_)
  rw [Bool.and_eq_true]
  exact encodes_params L h p hp

theorem joinParams_head? (ps : List (Text × Text)) : (joinParams ps).head? ≠ some 63 := by
  cases ps with
  | nil => exact nofun
  | cons p ps =>
    have hne : param p ≠ [] := by simp [param]
    rw [joinParams, List.head?_append_of_ne_nil _ hne]
    exact fun h => (param_free (List.mem_of_mem_head? h)).2 rfl

theorem joinParams_eq_nil {ps : List (Text × Text)} : joinParams ps = [] ↔ ps = [] := by
  cases ps with
  | nil => exact iff_of_true rfl rfl
  | cons p ps => simp [joinParams, param]

theorem ne_mark {path : Text} (h : 63 ∉ path) : ∀ c ∈ path, decide (c ≠ 63) = true := by
  intro c hc
  refine decide_eq_true ?_
  rintro rfl
  exact h hc

theorem queryPart_mark {path : Text} (h : 63 ∉ path) (rest : Text) :
    queryPart (path ++ 63 :: rest) = rest := by
  rw [queryPart, List.dropWhile_append_of_pos (ne_mark h)]
  rfl

theorem queryPart_append {path : Text} (h : 63 ∈ path) (rest : Text) :
    queryPart (path ++ rest) = queryPart path ++ rest := by
  obtain ⟨before, after, hpath, hfree⟩ := List.eq_append_cons_of_mem h
  rw [hpath, List.append_assoc, List.cons_append, queryPart_mark hfree, queryPart_mark hfree]

theorem queryPart_eq_nil {path : Text} (h : 63 ∉ path) : queryPart path = [] := by
  rw [queryPart, List.dropWhile_eq_nil_iff.mpr (ne_mark h)]
  rfl

theorem stripMark_append (a b : Text) : stripMark (a ++ 38 :: b) = stripMark a ++ 38 :: b := by
  cases a with
  | nil => rfl
  | cons c a =>
    unfold stripMark
    show (if some c = some 63 then a ++ 38 :: b else c :: (a ++ 38 :: b)) =
      (if some c = some 63 then a else c :: a) ++ 38 :: b
    split_ifs <;> rfl

/-- The parameters of the URL are those of the path and those of the query. -/
theorem constructUrl_params (L : Library F) (path : Text) {query : List (Text × Value F)}
    (h : encodableMembers query = true) :
    ∃ url, constructUrl L path query = .ok url ∧ parseQsl L (stripMark (queryPart url)) =
      parseQsl L (stripMark (queryPart path)) ++ params L query := by
  rw [constructUrl]
  by_cases hempty : query = []
  · subst hempty
    exact ⟨path, rfl, (List.append_nil _).symm⟩
  rw [if_neg hempty, buildQueryString, if_neg hempty, urlencode_params L h]
  by_cases hparams : params L query = []
  · rw [hparams]
    exact ⟨path, rfl, (List.append_nil _).symm⟩
  have hjoin : joinParams (params L query) ≠ [] := fun h => hparams (joinParams_eq_nil.mp h)
  have hread := parseQsl_joinParams L (encodes_params L h)
  refine ⟨_, if_neg hjoin, ?_⟩
  by_cases hmark : 63 ∈ path
  · rw [if_pos hmark, queryPart_append hmark, stripMark_append, parseQsl_append, hread]
  · have hstrip : stripMark (joinParams (params L query)) = joinParams (params L query) :=
      if_neg (joinParams_head? _)
    rw [if_neg hmark, queryPart_mark hmark, queryPart_eq_nil hmark, hstrip, hread]
    rfl

/-- What is read for a key: the values that the path has for it, and the texts of its value in the
query. -/
theorem constructUrl_spec (L : Library F) (path : Text) {query : List (Text × Value F)}
    (hnodup : (query.map Prod.fst).Nodup) (h : encodableMembers query = true) :
    ∃ url, constructUrl L path query = .ok url ∧
      ∀ key, (parseQueryString L (queryPart url)).lookup key =
        entry (entryTexts ((parseQueryString L (queryPart path)).lookup key) ++
          queryTexts L query key) := by
  obtain ⟨url, hurl, hparams⟩ := constructUrl_params L path h
  refine ⟨url, hurl, fun key => ?_⟩
  rw [lookup_parseQueryString, lookup_parseQueryString, entryTexts_entry, hparams,
    valuesFor_append, valuesFor_params L hnodup]

/-! ## Accepted queries -/

theorem validateQueryEnvelope_query {E : FloatEq F} {norm : Bytes} {obj : Value F}
    {ep : EndpointRules F} {query : List (Text × Value F)}
    (h : (validateQueryEnvelope E norm obj ep).query = some (.dict query)) :
    ∃ ms, obj = .dict ms ∧ ms.lookup (chars "query") = some (.dict query) := by
  unfold validateQueryEnvelope at h
  split at h
  · rename_i ms
    split_ifs at h
    · cases h
    · split at h
      · rename_i q hq
        have hquery : q = query := by
          dsimp only at h
          split_ifs at h
          · cases h
          · split at h <;> exact Value.dict.inj (Option.some.inj h)
        exact ⟨ms, rfl, hquery ▸ hq⟩
      · cases h
  · cases h

/-- The value that is read back from a normalised body is well formed and has no surrogates. -/
theorem normalized_value {I : Interp F} {raw norm : Bytes} {obj : Value F}
    (hnorm : normalizeJsonBodyOrNone I raw = .ok (some norm))
    (hobj : loadsBytes I norm = some obj) : obj.Wf ∧ encodable obj = true := by
  refine ⟨loadsBytes_wf hobj, ?_⟩
  rw [normalizeJsonBodyOrNone_eq] at hnorm
  cases hvalue : bodyValue I raw with
  | none =>
    rw [hvalue] at hnorm
    exact nomatch Except.ok.inj hnorm
  | some v =>
    rw [hvalue] at hnorm
    obtain ⟨n, hdumps, hn⟩ := bind_eq_ok.mp hnorm
    obtain rfl := Option.some.inj (Except.ok.inj hn)
    obtain ⟨⟨-, henc⟩, rfl⟩ := dumpsBytes_eq_ok.mp hdumps
    rw [loadsBytes_encode I (bodyValue_spec hvalue).1 henc] at hobj
    split_ifs at hobj
    exact Option.some.inj hobj ▸ henc

/-- A query that the validation accepts is written behind any path, and read back from there. -/
theorem constructUrl_accepted (L : Library F) {I : Interp F} {E : FloatEq F} {raw norm : Bytes}
    {obj : Value F} {ep : EndpointRules F} {query : List (Text × Value F)}
    (hnorm : normalizeJsonBodyOrNone I raw = .ok (some norm))
    (hobj : loadsBytes I norm = some obj)
    (hquery : (validateQueryEnvelope E norm obj ep).query = some (.dict query)) (path : Text) :
    ∃ url, constructUrl L path query = .ok url ∧
      ∀ key, (parseQueryString L (queryPart url)).lookup key =
        entry (entryTexts ((parseQueryString L (queryPart path)).lookup key) ++
          queryTexts L query key) := by
  obtain ⟨hwf, henc⟩ := normalized_value hnorm hobj
  obtain ⟨ms, rfl, hlookup⟩ := validateQueryEnvelope_query hquery
  have hmem : (chars "query", Value.dict query) ∈ ms := by
    obtain ⟨l, r, rfl, -⟩ := List.lookup_eq_some_iff.mp hlookup
    exact List.mem_append_right l (List.mem_cons_self ..)
  have hquerywf := (JsonCodec.wfMembers_iff.mp hwf.2 _ hmem).2
  exact constructUrl_spec L path hquerywf.1 (encodableMembers_iff.mp henc _ hmem).2

/-! ## A list and a boolean -/

def plainLibrary : Library JsonCodec.Special where
  str _ := []
  encodes_str _ _ := rfl
  decodeReplace := Utf8.decodeIgnore
  decodeReplace_eq _ _ := Utf8.decodeIgnore_of_decode

def openEndpoint : EndpointRules JsonCodec.Special :=
  ⟨true, true, .mk .none [] none, .mk .none [] none⟩

/-- `{"query": query}` -/
def queryBody (query : List (Text × Value JsonCodec.Special)) : Value JsonCodec.Special :=
  .dict [(chars "query", .dict query)]

/-- `{"fileName": ["a", "b"]}` -/
def fileNames : List (Text × Value JsonCodec.Special) :=
  [(chars "fileName", .list [.str (chars "a"), .str (chars "b")])]

/-- `{"a": true}` -/
def flag : List (Text × Value JsonCodec.Special) := [(chars "a", .bool true)]

theorem fileNames_wf : (queryBody fileNames).Wf :=
  ⟨by decide, ⟨by decide, by decide⟩, ⟨by decide, ⟨by decide, by decide⟩,
    ⟨⟨by decide, by decide⟩, ⟨by decide, by decide⟩, trivial⟩, trivial⟩, trivial⟩

theorem flag_wf : (queryBody flag).Wf :=
  ⟨by decide, ⟨by decide, by decide⟩,
    ⟨by decide, ⟨by decide, by decide⟩, trivial, trivial⟩, trivial⟩

/-- A written body is its own normal form. -/
theorem normalize_queryBody (query : List (Text × Value JsonCodec.Special))
    (hwf : (queryBody query).Wf) (henc : encodable (queryBody query) = true) :
    normalizeJsonBodyOrNone plainInterp
        (normal plainInterp (queryBody query)) =
      .ok (some (normal plainInterp (queryBody query))) ∧
    loadsBytes plainInterp (normal plainInterp (queryBody query)) =
      some (queryBody query) := by
  have hloads : loadsBytes plainInterp
      (normal plainInterp (queryBody query)) = some (queryBody query) :=
    loadsBytes_encode plainInterp hwf henc
  have hvalue := bodyValue_normal hwf trivial henc (by rw [hloads]; exact nofun)
  refine ⟨?_, hloads⟩
  rw [normalizeJsonBodyOrNone_eq, hvalue]
  dsimp only
  rw [dumpsBytes_eq, henc]
  rfl

/-- The file names behind a path with a parameter of its own. -/
theorem fileNames_accepted : ∃ url, constructUrl plainLibrary (chars "/d?v=1") fileNames = .ok url ∧
    ∀ key, (parseQueryString plainLibrary (queryPart url)).lookup key =
      entry (entryTexts ((parseQueryString plainLibrary (queryPart (chars "/d?v=1"))).lookup key) ++
        queryTexts plainLibrary fileNames key) := by
  obtain ⟨hnorm, hloads⟩ := normalize_queryBody fileNames fileNames_wf (by decide)
  have hquery : (validateQueryEnvelope noFloats (normal plainInterp
      (queryBody fileNames)) (queryBody fileNames) openEndpoint).query =
        some (.dict fileNames) := rfl
  exact constructUrl_accepted plainLibrary hnorm hloads hquery (chars "/d?v=1")

/-- `true` is sent as `True`. -/
theorem boolean_notation : ∃ norm, normalizeJsonBodyOrNone plainInterp norm =
      .ok (some norm) ∧
    loadsBytes plainInterp norm = some (queryBody flag) ∧
    (validateQueryEnvelope noFloats norm (queryBody flag) openEndpoint).ok = true ∧
    (validateQueryEnvelope noFloats norm (queryBody flag) openEndpoint).query =
      some (.dict flag) ∧
    ∃ url, constructUrl plainLibrary (chars "/d") flag = .ok url ∧
      (parseQueryString plainLibrary (queryPart url)).lookup (chars "a") =
        some (.one (chars "True")) := by
  obtain ⟨hnorm, hloads⟩ := normalize_queryBody flag flag_wf (by decide)
  exact ⟨_, hnorm, hloads, rfl, rfl, _, rfl, by decide⟩

end UrlQuery

end AflNv
