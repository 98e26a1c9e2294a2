import AflNv.Validity
import AflNv.Lib.Numeral
import AflNv.Lib.Unicode
import AflNv.Lib.Utf8

/-!
# The score on its way from the scorer

The scorer writes a decimal number to a stream socket and closes it.  The stream delivers
the bytes in segments.  `nv_validity_rpc_score_unix` calls `recv` once and takes what
arrived for the whole number; `rpc_score_unix` of `nv_body_valid.py` reads to the end.

* `nvRecvScore` and `rpcScoreText` are the two readers on a list of segments.
* `Response` is a response of the scorer: a numeral between blanks.
* `Response.Delivered` says that what the first segment holds of the numeral is the same
  double as the numeral.
* `score_transport` says that the two clients obtain the number sent exactly then, and for
  a number without an exponent which digits may be missing.
-/

namespace AflNv

open Lib

/-! ## Numbers from texts -/

/-- What the two clients use of the C library and of Python for the conversion. -/
structure ScoreLib where
  /-- The double next to a number; both libraries round correctly. -/
  round : ℚ → CDouble
  /-- `strtod` sets `errno` for this number. -/
  erange : ℚ → Bool
  /-- `strtod` on a text that starts like an infinity, a NaN or a hexadecimal number, with
  `.fail` where the caller takes no value from it. -/
  strtodOther : Bytes → RpcReply
  /-- `float` of a text that is no decimal numeral, with `.fail` for an exception. -/
  floatOther : List ℕ → RpcReply

/-- The text starts like an infinity, a NaN or a hexadecimal number. -/
def isOtherForm (s : Bytes) : Bool :=
  match (Numeral.scanSign s).2 with
  | 48 :: b :: _ => toupper b = 88
  | b :: _ => toupper b = 73 || toupper b = 78
  | [] => false

/-- `strtod`, and the test `errno != 0 || endp == s` behind it. -/
def strtodScore (lib : ScoreLib) (s : Bytes) : RpcReply :=
  let s := s.dropWhile isspace
  if isOtherForm s then lib.strtodOther s
  else match Numeral.scan s with
    | none => .fail
    | some (v, _) => if lib.erange v then .fail else .score (lib.round v)

/-- `float(text)` -/
def floatOfText (lib : ScoreLib) (text : List ℕ) : RpcReply :=
  if text.all (· < 128) then
    match Numeral.scan (text.map UInt8.ofNat) with
    | some (v, []) => .score (lib.round v)
    | _ => lib.floatOther text
  else lib.floatOther text

/-! ## The two clients -/

/-- The text response in `nv_validity_rpc_score_unix`: one `recv` of at most 63 bytes. -/
def nvRecvScore (lib : ScoreLib) (segments : List Bytes) : RpcReply :=
  match segments with
  | [] => .fail
  | segment :: _ =>
    let resp := cstr (segment.take 63)
    let s := resp.dropWhile isspace
    strtodScore lib s

/-- The loop of `rpc_score_unix`. -/
def recvAll (resp : Bytes) : List Bytes → Bytes
  | [] => resp
  | chunk :: segments =>
    if chunk = [] then resp
    else
      let resp := resp ++ chunk.take 4096
      if 128 < resp.length then resp else recvAll resp segments

/-- The score that `rpc_score_unix` makes of the response, with `.fail` for
`(False, None)`. -/
def rpcScoreText (lib : ScoreLib) (segments : List Bytes) : RpcReply :=
  let text := Unicode.strip (Utf8.decodeIgnore (recvAll [] segments))
  if text = [] then .fail else floatOfText lib text

/-! ## Responses -/

/-- What the scorer sends: a numeral between blanks. -/
structure Response where
  lead : Bytes
  number : Numeral
  trail : Bytes
  lead_blank : ∀ b ∈ lead, isspace b = true
  trail_blank : ∀ b ∈ trail, isspace b = true

theorem nil_blank : ∀ b ∈ ([] : Bytes), isspace b = true := fun _ hb => absurd hb List.not_mem_nil

theorem newline_blank : ∀ b ∈ ([10] : Bytes), isspace b = true := fun _ hb =>
  List.mem_singleton.mp hb ▸ rfl

namespace Response

def text (r : Response) : Bytes := r.lead ++ (r.number.text ++ r.trail)

/-- The stream delivers the response in these segments. -/
structure Segmented (r : Response) (segments : List Bytes) : Prop where
  nonempty : ∀ segment ∈ segments, segment ≠ []
  flatten : segments.flatten = r.text

/-- What the first `k` bytes hold of the numeral is in range, and the same double. -/
def Delivered (lib : ScoreLib) (r : Response) (k : ℕ) : Prop :=
  ∃ c, r.number.cut (k - r.lead.length) = some c ∧ lib.erange c.value = false ∧
    lib.round c.value = lib.round r.number.value

end Response

/-! ## What the two clients read -/

/-- A byte that neither client takes for anything but itself. -/
structure Harmless (b : UInt8) : Prop where
  ne_nul : b ≠ 0
  ascii : b.toNat < 128
  noLetter : toupper b ≠ 88 ∧ toupper b ≠ 73 ∧ toupper b ≠ 78

/-- A numeral has no blank and no letter but its mark. -/
theorem numeralByte_spec {b : UInt8} (h : Numeral.isNumeralByte b = true) :
    Harmless b ∧ isspace b = false ∧ Unicode.isSpace b.toNat = false := by
  have hcases : b.toNat = 43 ∨ b.toNat = 45 ∨ b.toNat = 46 ∨ (48 ≤ b.toNat ∧ b.toNat ≤ 57) ∨
      b.toNat = 69 ∨ b.toNat = 101 := by
    simp only [Numeral.isNumeralByte, Numeral.isDigit, Bool.or_eq_true, Bool.and_eq_true,
      decide_eq_true_eq, UInt8.le_iff_toNat_le, ← UInt8.toNat_inj] at h
    simp only [UInt8.reduceToNat] at h
    omega
  have hle : b.toNat ≤ 101 := by omega
  have hge : 43 ≤ b.toNat := by omega
  obtain ⟨n, hn⟩ : ∃ n, n = b.toNat := ⟨_, rfl⟩
  have hb : b = UInt8.ofNat n := by rw [hn, UInt8.ofNat_toNat]
  rw [← hn] at hcases
  rcases hcases with rfl | rfl | rfl | ⟨hlo, hhi⟩ | rfl | rfl
  · exact hb ▸ ⟨⟨by decide, by decide, by decide⟩, rfl, rfl⟩
  · exact hb ▸ ⟨⟨by decide, by decide, by decide⟩, rfl, rfl⟩
  · exact hb ▸ ⟨⟨by decide, by decide, by decide⟩, rfl, rfl⟩
  · interval_cases n <;> exact hb ▸ ⟨⟨by decide, by decide, by decide⟩, rfl, rfl⟩
  · exact hb ▸ ⟨⟨by decide, by decide, by decide⟩, rfl, rfl⟩
  · exact hb ▸ ⟨⟨by decide, by decide, by decide⟩, rfl, rfl⟩

theorem blank_spec {b : UInt8} (h : isspace b = true) :
    Harmless b ∧ Unicode.isSpace b.toNat = true := by
  have hcases : b.toNat = 32 ∨ (9 ≤ b.toNat ∧ b.toNat ≤ 13) := by
    simp only [isspace, Bool.or_eq_true, Bool.and_eq_true, decide_eq_true_eq,
      UInt8.le_iff_toNat_le, ← UInt8.toNat_inj] at h
    simpa only [UInt8.reduceToNat] using h
  obtain ⟨n, hn⟩ : ∃ n, n = b.toNat := ⟨_, rfl⟩
  have hb : b = UInt8.ofNat n := by rw [hn, UInt8.ofNat_toNat]
  rw [← hn] at hcases
  rcases hcases with rfl | ⟨hlo, hhi⟩
  · exact hb ▸ ⟨⟨by decide, by decide, by decide⟩, rfl⟩
  · interval_cases n <;> exact hb ▸ ⟨⟨by decide, by decide, by decide⟩, rfl⟩

theorem isOtherForm_of_bytes {s : Bytes}
    (h : ∀ b ∈ s, toupper b ≠ 88 ∧ toupper b ≠ 73 ∧ toupper b ≠ 78) : isOtherForm s = false := by
  have hsub : ∀ b ∈ (Numeral.scanSign s).2, toupper b ≠ 88 ∧ toupper b ≠ 73 ∧ toupper b ≠ 78 := by
    intro b hb
    refine h b ?_
    cases s with
    | nil => exact hb
    | cons c s =>
      rw [Numeral.scanSign] at hb
      split_ifs at hb
      · exact List.mem_cons_of_mem c hb
      · exact List.mem_cons_of_mem c hb
      · exact hb
  rw [isOtherForm]
  split
  · rename_i b rest heq
    rw [heq] at hsub
    exact decide_eq_false (hsub b (by simp)).1
  · rename_i b rest _ heq
    rw [heq] at hsub
    obtain ⟨-, hi, hn⟩ := hsub b (by simp)
    simp [hi, hn]
  · rfl

namespace Response

variable (r : Response)

theorem text_bytes : ∀ b ∈ r.text, Harmless b :=
  List.forall_mem_append.mpr ⟨fun b hb => (blank_spec (r.lead_blank b hb)).1,
    List.forall_mem_append.mpr ⟨fun b hb => (numeralByte_spec (r.number.text_bytes b hb)).1,
      fun b hb => (blank_spec (r.trail_blank b hb)).1⟩⟩

theorem ends_trail : Numeral.Ends r.trail := by
  intro b hb
  have hblank := r.trail_blank b (List.mem_of_mem_head? hb)
  have hne : ∀ c : UInt8, isspace c = false → b ≠ c := by
    rintro c hc rfl
    exact Bool.false_ne_true (hc.symm.trans hblank)
  refine ⟨?_, hne 46 rfl, hne 101 rfl, hne 69 rfl⟩
  rw [Bool.eq_false_iff]
  intro hdigit
  have hspec := numeralByte_spec (Numeral.isNumeralByte_of_isDigit hdigit)
  exact Bool.false_ne_true (hspec.2.1.symm.trans hblank)

/-- The blanks before the numeral are skipped. -/
theorem dropWhile_take (k : ℕ) :
    (r.text.take k).dropWhile isspace = (r.number.text ++ r.trail).take (k - r.lead.length) := by
  have hhead : ∀ b ∈ (r.number.text ++ r.trail).head?, isspace b = false := by
    intro b hb
    cases htext : r.number.text with
    | nil => exact absurd htext r.number.text_ne_nil
    | cons c text =>
      rw [htext] at hb
      obtain rfl : c = b := Option.some.inj hb
      exact (numeralByte_spec (r.number.text_bytes c (htext ▸ List.mem_cons_self))).2.1
  rw [text, List.take_append, List.dropWhile_append_of_pos
    fun b hb => r.lead_blank b (List.mem_of_mem_take hb)]
  cases hs : (r.number.text ++ r.trail) with
  | nil => simp
  | cons c text =>
    rw [hs] at hhead
    cases k - r.lead.length with
    | zero => rfl
    | succ j => rw [List.take_succ_cons, List.dropWhile_cons_of_neg (by simp [hhead c rfl])]

/-- What the C client makes of the first `k` bytes. -/
theorem nvRecvScore_eq (lib : ScoreLib) {segment : Bytes} {segments : List Bytes} {k : ℕ}
    (hsegment : segment = r.text.take k) (hk : k ≤ 63) :
    nvRecvScore lib (segment :: segments) =
      match r.number.cut (k - r.lead.length) with
      | none => .fail
      | some c => if lib.erange c.value then .fail else .score (lib.round c.value) := by
  have htake : segment.take 63 = r.text.take k := by
    rw [hsegment, List.take_take, Nat.min_eq_right hk]
  have hcstr : cstr (r.text.take k) = r.text.take k := by
    rw [cstr, List.takeWhile_eq_self_iff]
    intro b hb
    exact decide_eq_true (r.text_bytes b (List.mem_of_mem_take hb)).ne_nul
  have hother : isOtherForm ((r.number.text ++ r.trail).take (k - r.lead.length)) = false := by
    refine isOtherForm_of_bytes fun b hb => (r.text_bytes b ?_).noLetter
    exact List.mem_append_right _ (List.mem_of_mem_take hb)
  have hscan := Numeral.scan_take r.number r.ends_trail (k - r.lead.length)
  rw [nvRecvScore, htake, hcstr, strtodScore, List.dropWhile_idempotent, r.dropWhile_take, hother]
  cases hread : Numeral.scan ((r.number.text ++ r.trail).take (k - r.lead.length)) with
  | none =>
    rw [hread] at hscan
    cases hcut : r.number.cut (k - r.lead.length) with
    | none => rfl
    | some c => rw [hcut] at hscan; exact absurd hscan nofun
  | some v =>
    rw [hread] at hscan
    cases hcut : r.number.cut (k - r.lead.length) with
    | none => rw [hcut] at hscan; exact absurd hscan nofun
    | some c =>
      obtain ⟨q, rest⟩ := v
      rw [hcut] at hscan
      obtain rfl : q = c.value := Option.some.inj hscan
      rfl

theorem recvAll_eq {resp : Bytes} {segments : List Bytes} (hne : ∀ segment ∈ segments, segment ≠ [])
    (hlen : resp.length + segments.flatten.length ≤ 128) :
    recvAll resp segments = resp ++ segments.flatten := by
  induction segments generalizing resp with
  | nil => exact (List.append_nil resp).symm
  | cons chunk segments ih =>
    obtain ⟨hchunk, hrest⟩ := List.forall_mem_cons.mp hne
    rw [List.flatten_cons, List.length_append] at hlen
    have htake : chunk.take 4096 = chunk := List.take_of_length_le (by omega)
    have hshort : ¬ 128 < (resp ++ chunk).length := by
      rw [List.length_append]
      omega
    rw [recvAll, if_neg hchunk, htake]
    dsimp only
    rw [if_neg hshort, ih hrest (by rw [List.length_append]; omega), List.append_assoc,
      List.flatten_cons]

theorem map_ofNat_toNat (bs : Bytes) : (bs.map UInt8.toNat).map UInt8.ofNat = bs := by
  rw [List.map_map]
  conv_rhs => rw [← List.map_id bs]
  exact List.map_congr_left fun b _ => UInt8.ofNat_toNat

/-- The numeral without its blanks. -/
theorem strip_text : Unicode.strip (Utf8.decodeIgnore r.text) = r.number.text.map UInt8.toNat := by
  rw [Utf8.decodeIgnore_of_ascii fun b hb => (r.text_bytes b hb).ascii, text, List.map_append,
    List.map_append]
  refine Substring.trim_append Unicode.isSpace ?_ ?_ ?_ ?_ ?_
  · intro c hc
    obtain ⟨b, hb, rfl⟩ := List.mem_map.mp hc
    exact (blank_spec (r.lead_blank b hb)).2
  · intro c hc
    obtain ⟨b, hb, rfl⟩ := List.mem_map.mp hc
    exact (blank_spec (r.trail_blank b hb)).2
  · exact fun h => r.number.text_ne_nil (List.map_eq_nil_iff.mp h)
  · intro c hc
    obtain ⟨b, hb, rfl⟩ := List.mem_map.mp (List.mem_of_mem_head? hc)
    exact (numeralByte_spec (r.number.text_bytes b hb)).2.2
  · intro c hc
    obtain ⟨b, hb, rfl⟩ := List.mem_map.mp (List.mem_of_mem_getLast? hc)
    exact (numeralByte_spec (r.number.text_bytes b hb)).2.2

/-- The Python client obtains the number, however it arrives. -/
theorem rpcScoreText_eq (lib : ScoreLib) {segments : List Bytes} (hseg : r.Segmented segments)
    (hlen : r.text.length ≤ 63) :
    rpcScoreText lib segments = .score (lib.round r.number.value) := by
  have hall : recvAll [] segments = r.text := by
    rw [recvAll_eq hseg.nonempty (by rw [hseg.flatten]; simp only [List.length_nil]; omega),
      hseg.flatten]
    rfl
  have hstops : r.number.Stops [] :=
    ⟨fun _ hb => (nomatch hb), fun _ _ _ hb => (nomatch hb), fun _ => rfl⟩
  have hscan := Numeral.scan_text hstops
  rw [List.append_nil] at hscan
  have hascii : ((r.number.text.map UInt8.toNat).all (· < 128)) = true := by
    rw [List.all_eq_true]
    intro c hc
    obtain ⟨b, hb, rfl⟩ := List.mem_map.mp hc
    exact decide_eq_true (numeralByte_spec (r.number.text_bytes b hb)).1.ascii
  rw [rpcScoreText, hall, r.strip_text,
    if_neg fun h => r.number.text_ne_nil (List.map_eq_nil_iff.mp h), floatOfText, if_pos hascii,
    map_ofNat_toNat, hscan]

/-- A numeral that arrives as a whole is delivered. -/
theorem delivered_of_length_le {lib : ScoreLib} (hexp : r.number.exp = none)
    (hrange : lib.erange r.number.value = false) {k : ℕ} (hk : r.text.length ≤ k) :
    r.Delivered lib k := by
  have hlen : r.number.text.length ≤ k - r.lead.length := by
    rw [text, List.length_append, List.length_append] at hk
    omega
  obtain ⟨c, hcut⟩ := r.number.exists_cut hlen
  have hvalue := (Numeral.cut_value_eq_iff hexp hcut).mpr (r.number.missingZero_of_length_le hlen)
  exact ⟨c, hcut, by rw [hvalue, hrange], by rw [hvalue]⟩

/-- The C client obtains a number that arrives at once. -/
theorem nvRecvScore_whole (lib : ScoreLib) (hexp : r.number.exp = none)
    (hrange : lib.erange r.number.value = false) (hlen : r.text.length ≤ 63) :
    nvRecvScore lib [r.text] = .score (lib.round r.number.value) := by
  obtain ⟨c, hcut, hrange', hround⟩ := r.delivered_of_length_le hexp hrange (le_refl r.text.length)
  rw [r.nvRecvScore_eq lib List.take_length.symm hlen, hcut, ← hround]
  exact if_neg (by rw [hrange']; exact Bool.false_ne_true)

end Response

/-! ## The transport -/

/-- The number that both clients obtain is the one sent exactly if the first segment holds
it.  For a number without an exponent whose digits all count, that is so if the digits that
are missing are zeros, and digits before the point are missing only from a zero. -/
theorem score_transport (lib : ScoreLib) (r : Response) {segment : Bytes} {segments : List Bytes}
    (hlen : r.text.length ≤ 63) (hseg : r.Segmented (segment :: segments)) :
    (nvRecvScore lib (segment :: segments) = .score (lib.round r.number.value) ∧
      rpcScoreText lib (segment :: segments) = nvRecvScore lib (segment :: segments) ↔
        r.Delivered lib segment.length) ∧
    (r.number.exp = none → ∀ c, r.number.cut (segment.length - r.lead.length) = some c →
      (c.value = r.number.value ↔ r.number.MissingZero (segment.length - r.lead.length))) := by
  have hstart : segment = r.text.take segment.length := by
    rw [← hseg.flatten, List.flatten_cons, List.take_left]
  have hshort : segment.length ≤ 63 := by
    have hle := congrArg List.length hstart
    rw [List.length_take] at hle
    omega
  refine ⟨?_, fun hexp c hcut => Numeral.cut_value_eq_iff hexp hcut⟩
  rw [r.rpcScoreText_eq lib hseg hlen, and_iff_left_of_imp fun h => h.symm,
    r.nvRecvScore_eq lib hstart hshort, Response.Delivered]
  cases r.number.cut (segment.length - r.lead.length) with
  | none => simp
  | some c =>
    cases herange : lib.erange c.value with
    | true => simp [herange]
    | false => simp [herange]

/-- Libraries for numbers that a double holds exactly. -/
def exactScoreLib : ScoreLib where
  round := .finite
  erange _ := false
  strtodOther _ := .fail
  floatOther _ := .fail

/-- The response `0.750000`, with its newline. -/
def threeQuarters : Response where
  lead := []
  number :=
    { sign := none
      whole := [48]
      frac := some [55, 53, 48, 48, 48, 48]
      exp := none
      whole_ok := List.all_eq_true.mp (by decide)
      frac_ok := List.all_eq_true.mp (by decide)
      digits_ne := by decide }
  trail := [10]
  lead_blank := List.all_eq_true.mp (by decide)
  trail_blank := List.all_eq_true.mp (by decide)

theorem score_transport_threeQuarters :
    threeQuarters.text = ascii "0.750000\n" ∧
    nvRecvScore exactScoreLib [ascii "0.75", ascii "0000\n"] = .score (.finite (3 / 4)) := by
  have hseg : threeQuarters.Segmented [ascii "0.75", ascii "0000\n"] :=
    ⟨by decide, by decide⟩
  have hvalue : threeQuarters.number.value = 3 / 4 := by decide +kernel
  have hdelivered : threeQuarters.Delivered exactScoreLib (ascii "0.75").length :=
    ⟨_, rfl, rfl, by decide +kernel⟩
  have hscore := ((score_transport exactScoreLib threeQuarters (by decide) hseg).1.mpr
    hdelivered).1
  rw [hvalue] at hscore
  exact ⟨by decide, hscore⟩

/-- A score of 0.75 that arrives in two pieces is 0 for one client. -/
theorem split_score_is_lost :
    threeQuarters.Segmented [ascii "0", ascii ".750000\n"] ∧
    nvRecvScore exactScoreLib [ascii "0", ascii ".750000\n"] = .score (.finite 0) ∧
    rpcScoreText exactScoreLib [ascii "0", ascii ".750000\n"] = .score (.finite (3 / 4)) := by
  exact ⟨⟨by decide +kernel, by decide +kernel⟩, by decide +kernel, by decide +kernel⟩

end AflNv
