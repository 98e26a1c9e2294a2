import AflNv.PythonJson

/-!
# The query and the body of a seed

`nv_url_query.py` keeps the query and the body of a request in one JSON text.  With a
query the text is an object with the members `query` and `body`; without one it is the
body itself, and the reader tells the two apart by the keys.

* `serializeSeed` and `parseSeed` are the functions of the source; an exception that they do
  not catch is `none`.
* `Faithful` says of a query and a body that no empty body is left out beside a query,
  and that a body on its own has neither of the two keys.
* `reparse_serializeSeed` computes what is read back in every case, and `serialized_iff` says
  that it is what was written exactly for the faithful pairs within the limits of `json`.
-/

namespace AflNv

open Lib Lib.JsonCodec PythonJson

variable {F : Type}

/-- A Python `dict` that JSON can hold. -/
abbrev Dict (F : Type) := List (Text × Value F)

/-- `d.get(key)` -/
def Dict.get (d : Dict F) (key : Text) : Option (Value F) := d.lookup key

/-- A value that is kept if it is a `dict`. -/
def dictOrNone : Option (Value F) → Option (Dict F)
  | some (.dict d) => some d
  | _ => none

def queryKey : Text := chars "query"

def bodyKey : Text := chars "body"

/-- What `parse_seed` takes from an object. -/
def splitEnvelope (data : Dict F) : Option (Dict F) × Option (Dict F) :=
  if (data.get queryKey).isSome || (data.get bodyKey).isSome then
    (dictOrNone (data.get queryKey), dictOrNone (data.get bodyKey))
  else (none, some data)

/-- `parse_seed` -/
def parseSeed (I : Interp F) (seed : Bytes) : Option (Option (Dict F) × Option (Dict F)) :=
  if seed = [] then some (none, none)
  else match Utf8.decode seed with
    | none => some (none, none)
    | some text =>
      -- what is beyond the limits raises no `JSONDecodeError`
      if I.refuses text then none
      else match JsonCodec.read I.floats text with
        | some (.dict data) => some (splitEnvelope data)
        | _ => some (none, none)

/-- `separators=(',', ':')` -/
def compactStyle : Style := { ensureAscii := true, spaced := false }

/-- `json.dumps(data, separators=(',', ':'))` -/
def dumpsText (I : Interp F) (data : Dict F) : Text := dumps I.floats compactStyle (.dict data)

/-- `json.dumps(data, separators=(',', ':')).encode('utf-8')` -/
def dumpsUtf8 (I : Interp F) (data : Dict F) : Option Bytes :=
  if I.overflows .seedDumps (.dict data) then none else some (Utf8.encode (dumpsText I data))

/-- The object of a seed with a query: an empty body is left out. -/
def envelope (query : Dict F) : Option (Dict F) → Dict F
  | some (m :: ms) => [(queryKey, .dict query), (bodyKey, .dict (m :: ms))]
  | _ => [(queryKey, .dict query)]

/-- `serialize_seed` -/
def serializeSeed (I : Interp F) : Option (Dict F) → Option (Dict F) → Option Bytes
  | some query, body => dumpsUtf8 I (envelope query body)
  | none, some body => dumpsUtf8 I body
  | none, none => some (Utf8.encode (chars "\x7b\x7d"))

/-! ## Reading back the text of an object -/

/-- `json` writes the object and reads its text. -/
def within (I : Interp F) (data : Dict F) : Bool :=
  !I.overflows .seedDumps (.dict data) && !I.refuses (dumpsText I data)

theorem decode_dumpsText (I : Interp F) {data : Dict F} (h : (Value.dict data).Wf) :
    Utf8.decode (Utf8.encode (dumpsText I data)) = some (dumpsText I data) := by
  refine Utf8.decode_encode fun c hc => ?_
  have hlt := dumps_ascii I.floats (w := compactStyle) rfl (.dict data) h c hc
  exact .inl (by omega)

theorem parseSeed_dumpsText (I : Interp F) {data : Dict F} (h : (Value.dict data).Wf) :
    parseSeed I (Utf8.encode (dumpsText I data)) =
      if I.refuses (dumpsText I data) then none else some (splitEnvelope data) := by
  have hread : JsonCodec.read I.floats (dumpsText I data) = some (.dict data) :=
    read_dumps I.floats compactStyle h
  have hne : Utf8.encode (dumpsText I data) ≠ [] :=
    Utf8.encode_ne_nil (opens_dumps I.floats compactStyle (.dict data)).ne_nil
  rw [parseSeed, if_neg hne, decode_dumpsText I h]
  simp only [hread]

theorem reparse_dumpsUtf8 (I : Interp F) {data : Dict F} (h : (Value.dict data).Wf) :
    (dumpsUtf8 I data).bind (parseSeed I) =
      if within I data then some (splitEnvelope data) else none := by
  rw [dumpsUtf8, within]
  cases I.overflows .seedDumps (.dict data) with
  | true => rfl
  | false =>
    rw [if_neg Bool.false_ne_true, Option.bind_some, parseSeed_dumpsText I h]
    cases I.refuses (dumpsText I data) <;> rfl

/-! ## The envelope -/

theorem bodyKey_ne_queryKey : bodyKey ≠ queryKey := by decide

theorem isStr_keys : IsStr queryKey ∧ IsStr bodyKey := by
  constructor
  · exact ⟨by decide, by decide⟩
  · exact ⟨by decide, by decide⟩

/-- The body beside a query, as it is read back. -/
def keptBody : Option (Dict F) → Option (Dict F)
  | some (m :: ms) => some (m :: ms)
  | _ => none

theorem splitEnvelope_envelope (query : Dict F) (body : Option (Dict F)) :
    splitEnvelope (envelope query body) = (some query, keptBody body) := by
  have hbody : (bodyKey == queryKey) = false := beq_false_of_ne bodyKey_ne_queryKey
  rcases body with _ | _ | ⟨m, ms⟩ <;>
    simp [splitEnvelope, envelope, Dict.get, dictOrNone, keptBody, List.lookup_cons, hbody]

theorem wf_envelope {query : Dict F} {body : Option (Dict F)} (hquery : (Value.dict query).Wf)
    (hbody : ∀ b ∈ body, (Value.dict b).Wf) : (Value.dict (envelope query body)).Wf := by
  obtain ⟨hq, hb⟩ := isStr_keys
  have hne := bodyKey_ne_queryKey.symm
  rcases body with _ | _ | ⟨m, ms⟩
  · exact ⟨List.nodup_singleton _, hq, hquery, trivial⟩
  · exact ⟨List.nodup_singleton _, hq, hquery, trivial⟩
  · refine ⟨?_, hq, hquery, hb, hbody _ rfl, trivial⟩
    show [queryKey, bodyKey].Nodup
    simp [hne]

/-- A body that is read as a body. -/
def Unkeyed (body : Dict F) : Prop := body.get queryKey = none ∧ body.get bodyKey = none

theorem splitEnvelope_of_unkeyed {body : Dict F} (h : Unkeyed body) :
    splitEnvelope body = (none, some body) := by
  rw [splitEnvelope, h.1, h.2]
  rfl

theorem sizeOf_of_get {d : Dict F} {key : Text} {v : Value F} (h : d.get key = some v) :
    sizeOf v < sizeOf d := by
  obtain ⟨l, r, rfl, -⟩ := List.lookup_eq_some_iff.mp h
  have hmem : (key, v) ∈ l ++ (key, v) :: r := by simp
  have hlt := List.sizeOf_lt_of_mem hmem
  have hpair : sizeOf (key, v) = 1 + sizeOf key + sizeOf v := rfl
  omega

/-- No object is a member of itself, so a body with one of the keys is read as something
else. -/
theorem splitEnvelope_eq_iff {body : Dict F} :
    splitEnvelope body = (none, some body) ↔ Unkeyed body := by
  refine ⟨fun h => ?_, splitEnvelope_of_unkeyed⟩
  by_contra hkeyed
  have hsome : ((body.get queryKey).isSome || (body.get bodyKey).isSome) = true := by
    rw [Bool.or_eq_true, Option.isSome_iff_ne_none, Option.isSome_iff_ne_none]
    by_contra hnone
    rw [not_or, not_not, not_not] at hnone
    exact hkeyed hnone
  rw [splitEnvelope, if_pos hsome, Prod.mk.injEq] at h
  obtain ⟨v, hget⟩ : ∃ v, body.get bodyKey = some v := by
    cases hget : body.get bodyKey with
    | none => exact absurd (hget ▸ h.2) nofun
    | some v => exact ⟨v, rfl⟩
  have hself : v = .dict body := by
    rw [hget] at h
    cases v with
    | dict d => exact congrArg _ (Option.some.inj h.2)
    | _ => exact absurd h.2 nofun
  have hlt := sizeOf_of_get hget
  rw [hself] at hlt
  have hsize := Value.dict.sizeOf_spec body
  omega

/-! ## The round trip -/

/-- The pairs that the two formats can tell apart: beside a query the body is not empty,
and a body on its own has no reserved key. -/
def Faithful (query body : Option (Dict F)) : Prop :=
  (query ≠ none → body ≠ some []) ∧ (query = none → ∀ b ∈ body, Unkeyed b)

/-- The object that is written. -/
def document : Option (Dict F) → Option (Dict F) → Dict F
  | some query, body => envelope query body
  | none, some body => body
  | none, none => []

/-- The query and the body are written, and read back as they were. -/
def RoundTrips (I : Interp F) (query body : Option (Dict F)) : Prop :=
  (serializeSeed I query body).bind (parseSeed I) = some (query, body)

/-- What is read back from a seed. -/
theorem reparse_serializeSeed (I : Interp F) {query body : Option (Dict F)}
    (hquery : ∀ q ∈ query, (Value.dict q).Wf) (hbody : ∀ b ∈ body, (Value.dict b).Wf)
    (hsome : query ≠ none ∨ body ≠ none) :
    (serializeSeed I query body).bind (parseSeed I) =
      if within I (document query body) then
        some (match query, body with
          | some q, b => (some q, keptBody b)
          | none, some b => splitEnvelope b
          | none, none => (none, none))
      else none := by
  match query, body with
  | some q, b =>
    rw [serializeSeed, reparse_dumpsUtf8 I (wf_envelope (hquery q rfl) hbody),
      splitEnvelope_envelope]
    rfl
  | none, some b => exact reparse_dumpsUtf8 I (hbody b rfl)
  | none, none => simp at hsome

/-- What is written is read back exactly if `json` can handle it and the two formats can tell it
apart. -/
theorem serialized_iff (I : Interp F) {query body : Option (Dict F)}
    (hquery : ∀ q ∈ query, (Value.dict q).Wf) (hbody : ∀ b ∈ body, (Value.dict b).Wf)
    (hsome : query ≠ none ∨ body ≠ none) :
    RoundTrips I query body ↔ Faithful query body ∧ within I (document query body) = true := by
  rw [RoundTrips, reparse_serializeSeed I hquery hbody hsome]
  by_cases hwithin : within I (document query body) = true
  · rw [if_pos hwithin, Option.some.injEq, and_iff_left hwithin]
    match query, body with
    | some q, none => simp [keptBody, Faithful]
    | some q, some [] => simp [keptBody, Faithful]
    | some q, some (m :: ms) => simp [keptBody, Faithful]
    | none, some b => simpa [Faithful] using splitEnvelope_eq_iff
    | none, none => simp at hsome
  · rw [if_neg hwithin]
    exact iff_of_false nofun fun h => hwithin h.2

/-- A seed whose query and body, where they are objects, can be told apart again; and `json` writes
them and reads what it wrote. -/
def Rewritable (I : Interp F) (seed : Bytes) : Prop :=
  ∀ data : Dict F, loadsBytes I seed = some (.dict data) →
    Faithful (dictOrNone (data.get queryKey)) (dictOrNone (data.get bodyKey)) ∧
    (splitEnvelope data ≠ (none, none) →
      within I (document (splitEnvelope data).1 (splitEnvelope data).2) = true)

theorem wf_of_loadsBytes {I : Interp F} {seed : Bytes} {v : Value F}
    (h : loadsBytes I seed = some v) : v.Wf := by
  obtain ⟨text, hdecode, hloads⟩ := Option.bind_eq_some_iff.mp h
  have hread : JsonCodec.read I.floats text = some v := by
    rw [loads] at hloads
    split_ifs at hloads
    exact hloads
  refine read_wf I.floats ?_ hread
  intro c hc
  have hscalar : c < 0xD800 ∨ (0xE000 ≤ c ∧ c < 0x110000) := (Utf8.decode_eq_some hdecode).1 c hc
  simp only [isHigh, isLow, Bool.and_eq_false_iff, decide_eq_false_iff_not]
  omega

/-- A seed is read as nothing, unless it is an object; or reading it raises. -/
theorem parseSeed_cases (I : Interp F) (seed : Bytes) :
    (∃ data : Dict F, loadsBytes I seed = some (.dict data) ∧
      parseSeed I seed = some (splitEnvelope data)) ∨
    (∀ data, loadsBytes I seed ≠ some (.dict data)) ∧
      ∀ pair, parseSeed I seed = some pair → pair = (none, none) := by
  by_cases hne : seed = []
  · subst hne
    have hnil : loadsBytes I [] = none := by
      show (if I.refuses [] then none else JsonCodec.read I.floats []) = none
      split_ifs <;> rfl
    rw [hnil]
    exact .inr ⟨fun _ => (Option.some_ne_none _).symm, fun _ h => (Option.some.inj h).symm⟩
  rw [parseSeed, loadsBytes, if_neg hne]
  cases Utf8.decode seed with
  | none =>
    exact .inr ⟨fun _ => (Option.some_ne_none _).symm, fun _ h => (Option.some.inj h).symm⟩
  | some text =>
    rw [Option.bind_some, loads]
    dsimp only
    split_ifs with hrefuses
    · exact .inr ⟨fun _ => (Option.some_ne_none _).symm, fun _ h => h.elim⟩
    · split
      · rename_i data hread
        exact .inl ⟨data, hread, rfl⟩
      · rename_i hread
        exact .inr ⟨hread, fun _ h => (Option.some.inj h).symm⟩

theorem dictOrNone_eq_some {o : Option (Value F)} {d : Dict F} (h : dictOrNone o = some d) :
    o = some (.dict d) := by
  cases o with
  | none => exact nomatch h
  | some v =>
    cases v with
    | dict d' => exact congrArg (fun d => some (Value.dict d)) (Option.some.inj h)
    | _ => exact nomatch h

theorem wf_of_dictOrNone {data d : Dict F} {key : Text} (hdata : (Value.dict data).Wf)
    (h : dictOrNone (data.get key) = some d) : (Value.dict d).Wf := by
  have hget : data.get key = some (.dict d) := dictOrNone_eq_some h
  obtain ⟨l, r, heq, -⟩ := List.lookup_eq_some_iff.mp hget
  have hmem : (key, Value.dict d) ∈ data := by
    rw [heq]
    simp
  exact (wfMembers_iff.mp hdata.2 _ hmem).2

theorem faithful_none : Faithful (none : Option (Dict F)) none :=
  ⟨fun h => absurd rfl h, fun _ _ h => (nomatch h)⟩

theorem splitEnvelope_cases (data : Dict F) :
    splitEnvelope data = (dictOrNone (data.get queryKey), dictOrNone (data.get bodyKey)) ∨
      Unkeyed data ∧ splitEnvelope data = (none, some data) := by
  by_cases hkeyed : (data.get queryKey).isSome || (data.get bodyKey).isSome
  · exact .inl (if_pos hkeyed)
  · have hunkeyed : Unkeyed data := by
      simpa [Unkeyed] using hkeyed
    exact .inr ⟨hunkeyed, splitEnvelope_of_unkeyed hunkeyed⟩

/-- What is read from an object survives being written exactly if its members can be told apart. -/
theorem resplit_iff (I : Interp F) {data : Dict F} (hwf : (Value.dict data).Wf)
    (hsome : splitEnvelope data ≠ (none, none)) :
    RoundTrips I (splitEnvelope data).1 (splitEnvelope data).2 ↔
      Faithful (dictOrNone (data.get queryKey)) (dictOrNone (data.get bodyKey)) ∧
        within I (document (splitEnvelope data).1 (splitEnvelope data).2) = true := by
  rcases splitEnvelope_cases data with hsplit | ⟨hunkeyed, hsplit⟩
  · rw [hsplit] at hsome ⊢
    refine serialized_iff I (fun q hq => wf_of_dictOrNone hwf hq)
      (fun b hb => wf_of_dictOrNone hwf hb) (not_and_or.mp fun h => hsome ?_)
    exact Prod.ext h.1 h.2
  · rw [hsplit, serialized_iff I (by simp) (fun b hb => Option.some.inj hb ▸ hwf) (.inr nofun),
      hunkeyed.1, hunkeyed.2]
    refine and_congr_left fun _ => iff_of_true ?_ faithful_none
    exact ⟨fun h => absurd rfl h, fun _ b hb => Option.some.inj hb ▸ hunkeyed⟩

/-- What is read from a seed survives being written exactly if the seed is rewritable. -/
theorem reread_iff (I : Interp F) (seed : Bytes) :
    (∀ query body, parseSeed I seed = some (query, body) → (query, body) ≠ (none, none) →
      RoundTrips I query body) ↔ Rewritable I seed := by
  obtain ⟨data, hloads, hparse⟩ | ⟨hloads, hparse⟩ := parseSeed_cases I seed
  · have hrew : Rewritable I seed ↔
        Faithful (dictOrNone (data.get queryKey)) (dictOrNone (data.get bodyKey)) ∧
        (splitEnvelope data ≠ (none, none) →
          within I (document (splitEnvelope data).1 (splitEnvelope data).2) = true) := by
      rw [Rewritable, hloads]
      exact ⟨fun h => h data rfl, fun h d hd => Value.dict.inj (Option.some.inj hd) ▸ h⟩
    rw [hrew, hparse]
    by_cases hnone : splitEnvelope data = (none, none)
    · refine iff_of_true (fun q b h hne => absurd ((Option.some.inj h).symm.trans hnone) hne)
        ⟨?_, fun hne => absurd hnone hne⟩
      rcases splitEnvelope_cases data with hsplit | ⟨-, hsplit⟩
      · rw [hsplit, Prod.mk.injEq] at hnone
        rw [hnone.1, hnone.2]
        exact faithful_none
      · exact absurd (hsplit.symm.trans hnone) nofun
    · have hiff := resplit_iff I (wf_of_loadsBytes hloads) hnone
      refine ⟨fun h => ?_, fun h q b hpair _ => ?_⟩
      · obtain ⟨hfaithful, hwithin⟩ := hiff.mp (h _ _ rfl hnone)
        exact ⟨hfaithful, fun _ => hwithin⟩
      · have hround := hiff.mpr ⟨h.1, h.2 hnone⟩
        rwa [Option.some.inj hpair] at hround
  · exact iff_of_true (fun q b h hne => absurd (hparse _ h) hne) fun data h => absurd h (hloads data)

/-- The codec of the seeds: what is written is read back exactly for the faithful pairs,
and what is read survives being written exactly for the rewritable seeds. -/
theorem seedCodec (I : Interp F) :
    (∀ query body : Option (Dict F), (∀ q ∈ query, (Value.dict q).Wf) →
      (∀ b ∈ body, (Value.dict b).Wf) → (query ≠ none ∨ body ≠ none) →
      (RoundTrips I query body ↔
        Faithful query body ∧ within I (document query body) = true)) ∧
    ∀ seed : Bytes, (∀ query body, parseSeed I seed = some (query, body) →
      (query, body) ≠ (none, none) → RoundTrips I query body) ↔ Rewritable I seed :=
  ⟨fun _ _ hquery hbody hsome => serialized_iff I hquery hbody hsome, reread_iff I⟩

theorem seedCodec_emptyQuery : RoundTrips plainInterp (some []) (some [(chars "a", .int 1)]) := by
  have hkey : IsStr (chars "a") := ⟨by decide, by decide⟩
  have hbody : (Value.dict [(chars "a", (.int 1 : Value Special))]).Wf :=
    ⟨List.nodup_singleton _, hkey, trivial, trivial⟩
  exact ((seedCodec plainInterp).1 (some []) (some [(chars "a", .int 1)])
    (fun q hq => Option.some.inj hq ▸ ⟨List.nodup_nil, trivial⟩)
    (fun b hb => Option.some.inj hb ▸ hbody) (.inl nofun)).mpr ⟨⟨nofun, nofun⟩, rfl⟩

/-- An empty body beside a query is lost, and a body with a reserved key, which a seed can
hold, is taken for an envelope. -/
theorem reserved_forms_are_lost :
    ¬ RoundTrips plainInterp (some []) (some []) ∧
    parseSeed plainInterp (ascii "\x7b\"body\":\x7b\"query\":1\x7d\x7d") =
      some (none, some [(queryKey, .int 1)]) ∧
    ¬ RoundTrips plainInterp none (some [(queryKey, .int 1)]) := by
  have hempty : (Value.dict ([] : Dict Special)).Wf := ⟨List.nodup_nil, trivial⟩
  have hkeyed : (Value.dict ([(queryKey, .int 1)] : Dict Special)).Wf :=
    ⟨List.nodup_singleton _, isStr_keys.1, trivial, trivial⟩
  have hnested : (Value.dict ([(bodyKey, .dict [(queryKey, .int 1)])] : Dict Special)).Wf :=
    ⟨List.nodup_singleton _, isStr_keys.2, hkeyed, trivial⟩
  have htext : ascii "\x7b\"body\":\x7b\"query\":1\x7d\x7d" =
      Utf8.encode (dumpsText plainInterp [(bodyKey, .dict [(queryKey, .int 1)])]) := by decide
  have hkey : (queryKey == bodyKey) = false := beq_false_of_ne bodyKey_ne_queryKey.symm
  refine ⟨fun h => ?_, ?_, fun h => ?_⟩
  · have hfaithful := ((serialized_iff plainInterp (fun q hq => Option.some.inj hq ▸ hempty)
      (fun b hb => Option.some.inj hb ▸ hempty) (.inl nofun)).mp h).1
    exact hfaithful.1 nofun rfl
  · rw [htext, parseSeed_dumpsText plainInterp hnested]
    simp [plainInterp, splitEnvelope, Dict.get, dictOrNone, List.lookup_cons, hkey]
  · have hfaithful := ((serialized_iff plainInterp (by simp)
      (fun b hb => Option.some.inj hb ▸ hkeyed) (.inr nofun)).mp h).1
    have hunkeyed := (hfaithful.2 rfl _ rfl).1
    simp [Dict.get] at hunkeyed

end AflNv
