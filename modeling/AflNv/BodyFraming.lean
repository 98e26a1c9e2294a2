import AflNv.RequestLine

/-!
# Where the body of a request starts

`nv_validity_check` and `nv_validity_rpc_score_unix` of `src/afl-fuzz-run.c` both look for
the end of the headers, and both prefer `\n\n` to `\r\n\r\n` wherever the two stand.
`body_framing` says for which bodies behind a `\r\n\r\n` they still find that end: the
bodies that neither start with a line feed nor hold two in a row.

`memmem_eq_some_iff` and `memmem_eq_none_iff` are the specification of `memmem`.
-/

namespace AflNv

/-! ## `memmem` -/

theorem memmem_eq_none_iff {buf needle : Bytes} : memmem buf needle = none ↔ ¬ needle <:+: buf := by
  simp only [memmem, List.findIdx?_eq_none_iff, List.mem_tails, List.isPrefixOf_iff_prefix,
    Bool.eq_false_iff, ne_eq, List.infix_iff_prefix_suffix]
  constructor
  · rintro h ⟨tail, hpre, hsuf⟩
    exact h tail hsuf hpre
  · intro h tail hsuf hpre
    exact h ⟨tail, hpre, hsuf⟩

/-- The first of the places where the needle stands. -/
theorem memmem_eq_some_iff {buf needle : Bytes} {k : ℕ} :
    memmem buf needle = some k ↔
      k ≤ buf.length ∧ needle <+: buf.drop k ∧ ∀ j < k, ¬ needle <+: buf.drop j := by
  simp only [memmem, List.findIdx?_eq_some_iff_getElem, List.length_tails, List.getElem_tails,
    List.isPrefixOf_iff_prefix]
  constructor
  · rintro ⟨hlt, hpre, hfirst⟩
    exact ⟨Nat.le_of_lt_succ hlt, hpre, fun j hj => hfirst j hj⟩
  · rintro ⟨hle, hpre, hfirst⟩
    exact ⟨Nat.lt_succ_of_le hle, hpre, fun j hj => hfirst j hj⟩

/-- Two bytes in a row, by their places. -/
theorem pair_prefix_drop {a b : UInt8} {buf : Bytes} {j : ℕ} :
    [a, b] <+: buf.drop j ↔ buf[j]? = some a ∧ buf[j + 1]? = some b := by
  have h0 : (buf.drop j)[0]? = buf[j]? := by rw [List.getElem?_drop, Nat.add_zero]
  have h1 : (buf.drop j)[1]? = buf[j + 1]? := List.getElem?_drop
  rw [← h0, ← h1]
  match buf.drop j with
  | [] => simp
  | [c] => simp
  | c :: d :: tail => simp [List.cons_prefix_cons, eq_comm]

theorem pair_infix_iff {a b : UInt8} {buf : Bytes} :
    [a, b] <:+: buf ↔ ∃ j, buf[j]? = some a ∧ buf[j + 1]? = some b := by
  constructor
  · intro h
    cases hm : memmem buf [a, b] with
    | none => exact absurd h (memmem_eq_none_iff.mp hm)
    | some j => exact ⟨j, pair_prefix_drop.mp (memmem_eq_some_iff.mp hm).2.1⟩
  · rintro ⟨j, hj⟩
    exact (pair_prefix_drop.mpr hj).isInfix.trans (List.drop_suffix j buf).isInfix

/-! ## The two readers -/

/-- The body that `nv_validity_check` inspects; `none` when it finds no end of the headers. -/
def inspectedBody (buf : Bytes) : Option Bytes :=
  (bodySeparator buf).map fun sep => buf.drop (sep.1 + sep.2)

/-- The body that `nv_validity_rpc_score_unix` takes. -/
def scoredBody (buf : Bytes) : Bytes :=
  match bodySeparator buf with
  | some (sep, sepLen) => buf.drop (sep + sepLen)
  | none => buf

/-- `nv_b64_table` -/
def nvB64Table : Bytes := ascii "ABCDEFGHIJKLMNOPQRSTUVWXYZabcdefghijklmnopqrstuvwxyz0123456789+/"

/-- The four characters of three bytes. -/
def nvB64Group (a b c : UInt8) : Bytes :=
  let triple := a.toNat <<< 16 + b.toNat <<< 8 + c.toNat
  [18, 12, 6, 0].map fun shift => nvB64Table.getD ((triple >>> shift) &&& 0x3f) 0

/-- The loop of `nv_base64_encode`; bytes behind the end are 0. -/
def nvB64Loop : Bytes → Bytes
  | [] => []
  | [a] => nvB64Group a 0 0
  | [a, b] => nvB64Group a b 0
  | a :: b :: c :: rest => nvB64Group a b c ++ nvB64Loop rest

/-- `nv_base64_encode`: the last characters are overwritten with padding. -/
def nvBase64Encode (data : Bytes) : Bytes :=
  let out := nvB64Loop data
  match data.length % 3 with
  | 1 => out.take (out.length - 2) ++ [61, 61]
  | 2 => out.take (out.length - 1) ++ [61]
  | _ => out

/-- The `body` of the envelope. -/
def sentBody (buf : Bytes) : Bytes := nvBase64Encode (scoredBody buf)

/-! ## When both find the end of the headers -/

/-- The headers end at `k`, with the first `\r\n\r\n`, and have no blank line before. -/
structure HeadersEnd (buf : Bytes) (k : ℕ) : Prop where
  first : memmem buf (ascii "\r\n\r\n") = some k
  noBlank : ¬ [10, 10] <:+: buf.take k

namespace HeadersEnd

variable {buf : Bytes} {k : ℕ} (h : HeadersEnd buf k)

include h

/-- The four bytes of the blank line. -/
theorem bytes : buf[k]? = some 13 ∧ buf[k + 1]? = some 10 ∧ buf[k + 2]? = some 13 ∧
    buf[k + 3]? = some 10 := by
  have hpre : [13, 10, 13, 10] <+: buf.drop k := (memmem_eq_some_iff.mp h.first).2.1
  obtain ⟨rest, hrest⟩ := hpre
  have hget : ∀ i, (buf.drop k)[i]? = buf[k + i]? := fun i => List.getElem?_drop
  rw [← hrest] at hget
  exact ⟨(hget 0).symm, (hget 1).symm, (hget 2).symm, (hget 3).symm⟩

/-- Two line feeds in a row stand behind the headers, the last line feed of the blank line
included. -/
theorem blank_ge {j : ℕ} (hj : buf[j]? = some 10 ∧ buf[j + 1]? = some 10) : k + 3 ≤ j := by
  obtain ⟨h0, -, h2, -⟩ := h.bytes
  have hout : ¬ j + 1 < k := by
    intro hlt
    apply h.noBlank
    refine pair_infix_iff.mpr ⟨j, ?_, ?_⟩
    · rw [List.getElem?_take_of_lt (by omega)]
      exact hj.1
    · rw [List.getElem?_take_of_lt hlt]
      exact hj.2
  have hne : ∀ i, buf[i]? = some 13 → i ≠ j ∧ i ≠ j + 1 := by
    refine fun i hi => ⟨?_, ?_⟩
    · rintro rfl
      exact absurd (hi.symm.trans hj.1) (by decide)
    · rintro rfl
      exact absurd (hi.symm.trans hj.2) (by decide)
  have hk := hne k h0
  have hk2 := hne (k + 2) h2
  omega

/-- Without such a pair the end of the headers is found. -/
theorem bodySeparator_of_free (hfree : ¬ [10, 10] <:+: buf.drop (k + 3)) :
    bodySeparator buf = some (k, 4) := by
  have hnone : memmem buf (ascii "\n\n") = none := by
    rw [memmem_eq_none_iff]
    intro hin
    obtain ⟨j, hj⟩ := pair_infix_iff.mp (show [10, 10] <:+: buf from hin)
    have hge := h.blank_ge hj
    apply hfree
    refine pair_infix_iff.mpr ⟨j - (k + 3), ?_, ?_⟩
    · rw [List.getElem?_drop, Nat.add_sub_cancel' hge]
      exact hj.1
    · rw [List.getElem?_drop, ← Nat.add_assoc, Nat.add_sub_cancel' hge]
      exact hj.2
  rw [bodySeparator, hnone]
  dsimp only
  rw [h.first]
  rfl

/-- With one, a place behind it is found. -/
theorem bodySeparator_of_blank (hblank : [10, 10] <:+: buf.drop (k + 3)) :
    ∃ j, bodySeparator buf = some (j, 2) ∧ k + 3 ≤ j ∧ j + 1 < buf.length := by
  have hin : [10, 10] <:+: buf := hblank.trans (List.drop_suffix _ _).isInfix
  cases hm : memmem buf (ascii "\n\n") with
  | none => exact absurd hin (memmem_eq_none_iff.mp hm)
  | some j =>
    have hj := pair_prefix_drop.mp (show [10, 10] <+: buf.drop j from (memmem_eq_some_iff.mp hm).2.1)
    refine ⟨j, ?_, h.blank_ge hj, (List.getElem?_eq_some_iff.mp hj.2).1⟩
    rw [bodySeparator, hm]

end HeadersEnd

/-- Both functions take what follows the `\r\n\r\n` exactly if the last line feed there
starts no other blank line, and none follows. -/
theorem body_framing {buf : Bytes} {k : ℕ} (h : HeadersEnd buf k) :
    (inspectedBody buf = some (buf.drop (k + 4)) ∧
        sentBody buf = nvBase64Encode (buf.drop (k + 4))) ↔
      ¬ [10, 10] <:+: buf.drop (k + 3) := by
  constructor
  · rintro ⟨hinspected, -⟩ hblank
    obtain ⟨j, hsep, hge, hlt⟩ := h.bodySeparator_of_blank hblank
    rw [inspectedBody, hsep] at hinspected
    have hlen := congrArg List.length (Option.some.inj hinspected)
    simp only [List.length_drop] at hlen
    omega
  · intro hfree
    have hsep := h.bodySeparator_of_free hfree
    rw [inspectedBody, sentBody, scoredBody, hsep]
    exact ⟨rfl, rfl⟩

/-- A JSON body without blank lines. -/
theorem body_framing_object :
    inspectedBody (ascii "POST /x HTTP/1.1\r\n\r\n\x7b\x7d") = some (ascii "\x7b\x7d") ∧
      sentBody (ascii "POST /x HTTP/1.1\r\n\r\n\x7b\x7d") = nvBase64Encode (ascii "\x7b\x7d") := by
  have hend : HeadersEnd (ascii "POST /x HTTP/1.1\r\n\r\n\x7b\x7d") 16 := ⟨by decide, by decide⟩
  exact (body_framing hend).mpr (by decide)

/-- The blank line in the middle of a JSON body is taken for the end of the headers. -/
theorem blank_line_in_body :
    HeadersEnd (ascii "POST /x HTTP/1.1\r\n\r\n\x7b\n\n\x7d") 16 ∧
      (ascii "POST /x HTTP/1.1\r\n\r\n\x7b\n\n\x7d").drop 20 = ascii "\x7b\n\n\x7d" ∧
      inspectedBody (ascii "POST /x HTTP/1.1\r\n\r\n\x7b\n\n\x7d") = some (ascii "\x7d") ∧
      sentBody (ascii "POST /x HTTP/1.1\r\n\r\n\x7b\n\n\x7d") = ascii "fQ==" :=
  ⟨⟨by decide, by decide⟩, by decide, by decide, by decide⟩

end AflNv
