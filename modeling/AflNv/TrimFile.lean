import AflNv.Trim

/-!
# The file of a trimmed entry

Behind its loops `trim_case` of `src/afl-fuzz-run.c` writes the trimmed input to the file
of the entry.  Under `AFL_NO_UNLINK` the file is truncated and written in place, by a loop
that counts the bytes written so far, and hands the start of the input to every `write`.

* `ShortWrites` is what the calls of `write` answer: each takes some of the bytes it was
  asked to write, and at least one.
* `noUnlinkLoop_eq` is the content of the file: a copy of the start of the input for each
  call.
* `trimmed_file_iff` says when that is the input.
-/

namespace AflNv

/-- The answers of `write`, by the number of the call and the bytes it is asked to write. -/
structure ShortWrites where
  answer : ℕ → ℕ → ℕ
  pos : ∀ i n, 0 < n → 0 < answer i n
  le : ∀ i n, answer i n ≤ n

/-- Each call takes two bytes, if it is asked to. -/
def ShortWrites.double : ShortWrites where
  answer _ n := min 2 n
  pos _ _ h := Nat.lt_min.mpr ⟨Nat.two_pos, h⟩
  le _ _ := Nat.min_le_right _ _

/-- Each call takes one byte. -/
def ShortWrites.single : ShortWrites where
  answer _ n := min 1 n
  pos _ _ h := Nat.lt_min.mpr ⟨Nat.one_pos, h⟩
  le _ _ := Nat.min_le_right _ _

section

variable (w : ShortWrites) (inBuf : Bytes) (len : ℕ)

/-- The loop of `trim_case` that writes the file: the number of the next call, the bytes
written so far and the content of the file. -/
def noUnlinkLoop (i written : ℕ) (file : Bytes) : Bytes :=
  if h : written < len then
    let result := w.answer i (len - written)
    have _hpos : 0 < result := w.pos i _ (Nat.sub_pos_of_lt h)
    noUnlinkLoop (i + 1) (written + result) (file ++ inBuf.take result)
  else file
termination_by len - written

/-- The file that `trim_case` leaves behind, with `q->len` as `len`. -/
def trimmedFile : Bytes := noUnlinkLoop w inBuf len 0 0 []

/-- The calls of the loop: where each starts, and how much it takes. -/
def writeCalls (i written : ℕ) : List (ℕ × ℕ) :=
  if h : written < len then
    let result := w.answer i (len - written)
    have _hpos : 0 < result := w.pos i _ (Nat.sub_pos_of_lt h)
    (written, result) :: writeCalls (i + 1) (written + result)
  else []
termination_by len - written

/-! ## What is in the file -/

/-- Each call writes the start of the input. -/
theorem noUnlinkLoop_eq (i written : ℕ) (file : Bytes) :
    noUnlinkLoop w inBuf len i written file =
      file ++ (writeCalls w len i written).flatMap fun c => inBuf.take c.2 := by
  fun_induction noUnlinkLoop w inBuf len i written file with
  | case1 i written file h result hpos ih =>
    rw [writeCalls, dif_pos h, ih, List.flatMap_cons, List.append_assoc]
  | case2 i written file h =>
    rw [writeCalls, dif_neg h, List.flatMap_nil, List.append_nil]

/-- Together the calls cover the rest of the input. -/
theorem writeCalls_cover (i written : ℕ) (h : written ≤ len) :
    ((writeCalls w len i written).flatMap fun c => (inBuf.drop c.1).take c.2) =
      (inBuf.drop written).take (len - written) := by
  fun_induction writeCalls w len i written with
  | case1 i written hlt result hpos ih =>
    have hle : result ≤ len - written := w.le i _
    have hsplit : len - written = result + (len - (written + result)) := by omega
    rw [List.flatMap_cons, ih (by omega), hsplit, List.take_add, List.drop_drop]
  | case2 i written hge =>
    obtain rfl : written = len := by omega
    rw [Nat.sub_self, List.take_zero, List.flatMap_nil]

/-- No call reaches behind the end. -/
theorem writeCalls_le (i written : ℕ) : ∀ c ∈ writeCalls w len i written, c.1 + c.2 ≤ len := by
  fun_induction writeCalls w len i written with
  | case1 i written hlt result hpos ih =>
    have hle : result ≤ len - written := w.le i _
    refine List.forall_mem_cons.mpr ⟨?_, ih⟩
    show written + result ≤ len
    omega
  | case2 i written hge => exact fun c hc => nomatch hc

end

/-- Two texts made of pieces of the same lengths are equal if the pieces are. -/
theorem flatMap_eq_iff {α β : Type} {f g : α → List β} {l : List α}
    (h : ∀ a ∈ l, (f a).length = (g a).length) :
    l.flatMap f = l.flatMap g ↔ ∀ a ∈ l, f a = g a := by
  induction l with
  | nil => exact iff_of_true rfl fun a ha => nomatch ha
  | cons a l ih =>
    obtain ⟨ha, hl⟩ := List.forall_mem_cons.mp h
    rw [List.flatMap_cons, List.flatMap_cons, List.forall_mem_cons, ← ih hl]
    constructor
    · exact fun heq => List.append_inj heq ha
    · rintro ⟨hfirst, hrest⟩
      rw [hfirst, hrest]

/-- The file holds the input exactly if each call finds at the start of the input what
stands at the place it writes. -/
theorem trimmed_file_iff (w : ShortWrites) (inBuf : Bytes) (len : ℕ) (hlen : len ≤ inBuf.length) :
    trimmedFile w inBuf len = inBuf.take len ↔
      ∀ c ∈ writeCalls w len 0 0, inBuf.take c.2 = (inBuf.drop c.1).take c.2 := by
  have hcover := writeCalls_cover w inBuf len 0 0 (Nat.zero_le len)
  rw [List.drop_zero, Nat.sub_zero] at hcover
  rw [trimmedFile, noUnlinkLoop_eq, List.nil_append, ← hcover]
  apply flatMap_eq_iff
  intro c hc
  have hle := writeCalls_le w len 0 0 c hc
  simp only [List.length_take, List.length_drop]
  omega

/-- Three calls, which write the same two bytes again and again, and in the end the first one. -/
theorem trimmed_file_periodic :
    writeCalls .double 5 0 0 = [(0, 2), (2, 2), (4, 1)] ∧
      trimmedFile .double (ascii "ababab") 5 = (ascii "ababab").take 5 := by
  have hcall {i written : ℕ} (h : written < 5) : writeCalls .double 5 i written =
      (written, min 2 (5 - written)) ::
        writeCalls .double 5 (i + 1) (written + min 2 (5 - written)) := by
    rw [writeCalls, dif_pos h]
    rfl
  have hend : writeCalls .double 5 3 5 = [] := by rw [writeCalls, dif_neg (by decide)]
  have hcalls : writeCalls .double 5 0 0 = [(0, 2), (2, 2), (4, 1)] := by
    rw [hcall (by decide), hcall (by decide), hcall (by decide)]
    exact congrArg ([(0, 2), (2, 2), (4, 1)] ++ ·) hend
  refine ⟨hcalls, (trimmed_file_iff .double (ascii "ababab") 5 (by decide)).mpr ?_⟩
  rw [hcalls]
  decide

/-- Two calls of one byte write the first byte twice. -/
theorem short_writes_repeat_start :
    trimmedFile .single (ascii "ab") 2 = ascii "aa" ∧ (ascii "ab").take 2 = ascii "ab" := by
  refine ⟨?_, by decide⟩
  rw [trimmedFile, noUnlinkLoop, dif_pos (by decide), noUnlinkLoop, dif_pos (by decide),
    noUnlinkLoop, dif_neg (by decide)]
  decide

end AflNv
