import AflNv.Python
import AflNv.Lib.History
import AflNv.Lib.Machine
import AflNv.Lib.Unicode
import AflNv.Lib.Utf8

/-!
# The identity of an execution

`next_exec_seq` of `nv_http_harness.py`, run by any number of processes that share one
`NV_STATUS_PATH`.  A call moves in steps, one for each call of the system, and between
two steps every other call may move, or a process may be killed.  `flock` excludes:
only one call holds the lock, and the lock of a killed process is free again.

The sidecar is the file of the lock.  It is emptied and then written, so a process that
is killed in between leaves no number in it.  A number is returned behind the release
of the lock, where a later call may be faster.

* `SeqInv` is what the steps keep while the sidecar is not disturbed.
* `seqs_increasing`: in such a run the returned values are strictly increasing.
* `seqs_not_increasing` are the two runs that break the order.
-/

namespace AflNv

open AflNv.Lib

/-! ## Reading the sidecar -/

/-- What the allocation uses of Python beside UTF-8: `int(text)`; `none` is a `ValueError`. -/
structure SeqText where
  intOfText : Unicode.Text → Option ℤ

/-- The documented behaviour of `int` on a printed number that fits the buffer of the read. -/
def SeqText.Decimal (txt : SeqText) : Prop :=
  ∀ n, (JsonCodec.showNat n).length ≤ 64 → txt.intOfText (JsonCodec.showNat n) = some (n : ℤ)

/-- `current`, from the text `raw`. -/
def SeqText.current (txt : SeqText) (raw : Unicode.Text) : ℕ :=
  match txt.intOfText (if raw = [] then JsonCodec.chars "0" else raw) with
  | some i => i.toNat
  | none => 0

/-- `current`, from the content of the sidecar. -/
def SeqText.stored (txt : SeqText) (content : Bytes) : ℕ :=
  txt.current (Unicode.strip (Utf8.decodeIgnore (content.take 64)))

/-- A printed number is decoded and stripped to its digits. -/
theorem strip_decodeIgnore_showNat (n : ℕ) :
    Unicode.strip (Utf8.decodeIgnore (showNat n)) = JsonCodec.showNat n := by
  have hascii : ∀ b ∈ showNat n, b.toNat < 0x80 := by
    intro b hb
    have hdigit := showNat_digit hb
    omega
  have hspace : ∀ c ∈ JsonCodec.showNat n, Unicode.isSpace c = false := by
    intro c hc
    have hdigit := JsonCodec.isDigit_iff.mp (JsonCodec.showNat_isDigit hc)
    rw [Unicode.isSpace]
    simp only [Bool.or_eq_false_iff, Bool.and_eq_false_iff, decide_eq_false_iff_not]
    omega
  rw [Utf8.decodeIgnore_of_ascii hascii, map_showNat, Unicode.strip_eq_self hspace]

theorem SeqText.Decimal.stored_showNat {txt : SeqText} (h : txt.Decimal) {n : ℕ}
    (hn : (showNat n).length ≤ 64) : txt.stored (showNat n) = n := by
  have hne : JsonCodec.showNat n ≠ [] := JsonCodec.showNat_ne_nil n
  have hlen : (JsonCodec.showNat n).length ≤ 64 := by
    rw [← map_showNat, List.length_map]
    exact hn
  rw [SeqText.stored, List.take_of_length_le hn, strip_decodeIgnore_showNat, SeqText.current,
    if_neg hne, h n hlen]
  exact Int.toNat_natCast n

/-! ## The calls -/

/-- Where a call of `next_exec_seq` is, with its local variables. -/
inductive SeqCall where
  | idle
  /-- The sidecar is open; the lock is next. -/
  | opened
  | locked
  /-- `current` is known. -/
  | parsed (current : ℕ)
  /-- Behind `lseek`. -/
  | rewound (nxt : ℕ)
  /-- Behind `ftruncate`: the sidecar is empty. -/
  | truncated (nxt : ℕ)
  /-- Behind `write`. -/
  | written (nxt : ℕ)
  /-- In `finally`, with the value that will be returned. -/
  | unlocking (ret : ℕ)
  | closing (ret : ℕ)
  | finishing (ret : ℕ)
  | returned (ret : ℕ)
  | killed
  deriving DecidableEq

namespace SeqCall

/-- The call is between `flock` and `finally`. -/
def inside : SeqCall → Bool
  | locked | parsed _ | rewound _ | truncated _ | written _ => true
  | _ => false

/-- The non-zero value that the call has settled on. -/
def issued : SeqCall → Option ℕ
  | unlocking v | closing v | finishing v | returned v => if v = 0 then none else some v
  | _ => none

/-- The non-zero value that the call has returned. -/
def result : SeqCall → Option ℕ
  | returned v => if v = 0 then none else some v
  | _ => none

/-- The call has not come to the lock. -/
def waiting : SeqCall → Bool
  | idle | opened => true
  | _ => false

end SeqCall

/-- What the operating system answers to one step of a call. -/
structure SeqIo where
  /-- The call of the system raises `OSError`. -/
  fails : Bool
  /-- The bytes that `write` takes. -/
  count : ℕ

/-- The sidecar, its lock and the calls of all processes. -/
structure SeqState where
  content : Bytes
  /-- The call that holds the lock. -/
  holder : Option ℕ
  call : ℕ → SeqCall
  /-- The calls that took the lock, in this order. -/
  lockOrder : List ℕ

/-- A sidecar with any content, and no call so far.  `O_CREAT` makes an empty one
where there is none. -/
def SeqState.init (content : Bytes) : SeqState where
  content := content
  holder := none
  call := fun _ => .idle
  lockOrder := []

/-- Call `c` moves on. -/
def SeqState.move (s : SeqState) (c : ℕ) (place : SeqCall) : SeqState :=
  { s with call := Function.update s.call c place }

/-- The lock is free again, if `c` held it. -/
def SeqState.release (s : SeqState) (c : ℕ) : SeqState :=
  { s with holder := if s.holder = some c then none else s.holder }

/-- One event of a run. -/
inductive SeqEvent where
  /-- Call `c` makes its next step. -/
  | step (c : ℕ) (io : SeqIo)
  /-- The process of call `c` is killed; its descriptor is closed, and the lock with
  it. -/
  | kill (c : ℕ)

/-- The next step of a call, with the value it returns. -/
def seqCallStep (txt : SeqText) (s : SeqState) (c : ℕ) (io : SeqIo) : Option ℕ × SeqState :=
  match s.call c with
  | .idle => (none, s.move c (if io.fails then .finishing 0 else .opened))
  | .opened =>
    if io.fails then (none, s.move c (.unlocking 0))
    else if s.holder.isSome then (none, s)
    else (none, { s.move c .locked with
      holder := some c
      lockOrder := s.lockOrder ++ [c] })
  | .locked =>
    let current := if io.fails then txt.current [] else txt.stored s.content
    (none, s.move c (.parsed current))
  | .parsed current =>
    (none, s.move c (if io.fails then .unlocking 0 else .rewound (current + 1)))
  | .rewound nxt =>
    if io.fails then (none, s.move c (.unlocking 0))
    else (none, { s.move c (.truncated nxt) with content := [] })
  | .truncated nxt =>
    if io.fails then (none, s.move c (.unlocking 0))
    else (none, { s.move c (.written nxt) with content := (showNat nxt).take io.count })
  | .written nxt => (none, s.move c (.unlocking (if io.fails then 0 else nxt)))
  | .unlocking ret =>
    (none, (if io.fails then s else s.release c).move c (.closing ret))
  | .closing ret => (none, (s.release c).move c (.finishing ret))
  | .finishing ret => (some ret, s.move c (.returned ret))
  | .returned _ | .killed => (none, s)

/-- One event. -/
def seqStep (txt : SeqText) (s : SeqState) : SeqEvent → Option ℕ × SeqState
  | .step c io => seqCallStep txt s c io
  | .kill c =>
    match s.call c with
    | .returned _ | .killed => (none, s)
    | _ => (none, (s.release c).move c .killed)

/-- The non-zero values that were returned, in order. -/
def returnedSeqs (outs : List (Option ℕ)) : List ℕ := (outs.filterMap id).filter (· ≠ 0)

theorem returnedSeqs_concat (outs : List (Option ℕ)) (o : Option ℕ) :
    returnedSeqs (outs ++ [o]) = returnedSeqs outs ++ (o.toList.filter (· ≠ 0)) := by
  cases o <;> simp [returnedSeqs]

/-! ## The condition on the steps -/

/-- The calls that took the lock after `c` have returned no value yet. -/
def SeqState.FirstToFinish (s : SeqState) (c : ℕ) : Prop :=
  ∀ d ∈ History.behind s.lockOrder c, (s.call d).result = none

instance (s : SeqState) (c : ℕ) : Decidable (s.FirstToFinish c) :=
  inferInstanceAs (Decidable (∀ d ∈ History.behind s.lockOrder c, (s.call d).result = none))

/-- The sidecar is read and written without a fault: the read does not fail, and
`ftruncate` is followed by a write of the whole number, which has at most 64 digits.
Calls finish in the order in which they took the lock. -/
def SeqState.undisturbed (s : SeqState) : SeqEvent → Bool
  | .step c io =>
    match s.call c with
    | .locked => !io.fails
    | .truncated nxt =>
      !io.fails && (showNat nxt).length ≤ io.count && (showNat nxt).length ≤ 64
    | .finishing ret => ret = 0 || s.FirstToFinish c
    | _ => true
  | .kill c =>
    match s.call c with
    | .truncated _ => false
    | _ => true

/-! ## The invariant -/

/-- What the place of a call says about the content and the mark `n`, the value that
was written last. -/
def AtMark (content : Bytes) (n : ℕ) : SeqCall → Prop
  | .parsed current => current = n
  | .rewound nxt => nxt = n + 1
  | .truncated nxt => nxt = n + 1
  | .written nxt => nxt = n + 1 ∧ content = showNat nxt ∧ (showNat nxt).length ≤ 64
  | _ => True

/-- The sidecar is being changed. -/
def SeqCall.writing : SeqCall → Bool
  | .truncated _ | .written _ => true
  | _ => false

/-- The sidecar holds the mark: every value settled on is at most `n`, the call in
the locked part knows `n`, and outside of the writing the content reads as `n`. -/
structure HoldsMark (txt : SeqText) (s : SeqState) (n : ℕ) : Prop where
  issued_le : ∀ c, ∀ v ∈ (s.call c).issued, v ≤ n
  at_mark : ∀ c, AtMark s.content n (s.call c)
  stored_eq : (∀ c, (s.call c).writing = false) → txt.stored s.content = n

/-- The invariant of an undisturbed run that has returned `vals`. -/
structure SeqInv (txt : SeqText) (s : SeqState) (vals : List ℕ) : Prop where
  holder_eq : ∀ c, (s.call c).inside = true → s.holder = some c
  last : ∀ c, (s.call c).inside = true → s.lockOrder.getLast? = some c
  nodup : s.lockOrder.Nodup
  entered : ∀ c ∈ s.lockOrder, (s.call c).waiting = false
  issued_mem : ∀ c, (s.call c).issued.isSome = true → c ∈ s.lockOrder
  sorted : s.lockOrder.Pairwise fun c d =>
    ∀ v ∈ (s.call c).issued, ∀ w ∈ (s.call d).issued, v < w
  mark : ∃ n, HoldsMark txt s n
  returned : ∀ v ∈ vals, v ≠ 0 ∧ ∃ c, s.call c = .returned v
  increasing : vals.Pairwise (· < ·)

theorem SeqInv.init (txt : SeqText) (content : Bytes) : SeqInv txt (.init content) [] where
  holder_eq := fun _ h => absurd h Bool.false_ne_true
  last := fun _ h => absurd h Bool.false_ne_true
  nodup := List.nodup_nil
  entered := fun _ h => absurd h List.not_mem_nil
  issued_mem := fun _ h => absurd h Bool.false_ne_true
  sorted := List.Pairwise.nil
  mark := ⟨txt.stored content, fun _ _ h => absurd h (Option.not_mem_none _), fun _ => trivial, fun _ => rfl⟩
  returned := fun _ h => absurd h List.not_mem_nil
  increasing := List.Pairwise.nil

/-! ## One step -/

theorem atMark_of_outside {content : Bytes} {n : ℕ} {place : SeqCall} (h : place.inside = false) :
    AtMark content n place := by
  cases place with
  | parsed _ | rewound _ | truncated _ | written _ => exact absurd h.symm Bool.false_ne_true
  | _ => trivial

theorem SeqCall.inside_of_writing {place : SeqCall} (h : place.writing = true) :
    place.inside = true := by
  cases place with
  | truncated _ | written _ => rfl
  | _ => exact absurd h Bool.false_ne_true

/-- Only one call is in the locked part. -/
theorem SeqInv.outside {txt : SeqText} {s : SeqState} {vals : List ℕ} (h : SeqInv txt s vals)
    {c d : ℕ} (hc : (s.call c).inside = true) (hd : d ≠ c) : (s.call d).inside = false := by
  cases hin : (s.call d).inside with
  | false => rfl
  | true => exact absurd (Option.some.inj ((h.holder_eq d hin).symm.trans (h.holder_eq c hc))) hd

section

variable {txt : SeqText} {s s' : SeqState} {vals : List ℕ} {c : ℕ} {p : SeqCall} {n : ℕ}

/-- A step that changes neither the content nor a settled value keeps the mark. -/
theorem HoldsMark.update (h : HoldsMark txt s n) (hcall : s'.call = Function.update s.call c p)
    (hcontent : s'.content = s.content)
    (hissued : ∀ v ∈ p.issued, v ∈ (s.call c).issued) (hat : AtMark s.content n p)
    (hwriting : (s.call c).writing = false) : HoldsMark txt s' n where
  issued_le := by
    intro d v hv
    rw [hcall] at hv
    by_cases hd : d = c
    · subst hd
      rw [Function.update_self] at hv
      exact h.issued_le d v (hissued v hv)
    · rw [Function.update_of_ne hd] at hv
      exact h.issued_le d v hv
  at_mark := by
    intro d
    rw [hcall, hcontent]
    by_cases hd : d = c
    · subst hd
      rw [Function.update_self]
      exact hat
    · rw [Function.update_of_ne hd]
      exact h.at_mark d
  stored_eq := by
    intro hquiet
    rw [hcontent]
    apply h.stored_eq
    intro d
    by_cases hd : d = c
    · rw [hd]
      exact hwriting
    · have hother := hquiet d
      rwa [hcall, Function.update_of_ne hd] at hother

/-- A step that settles no value keeps the invariant, if there is a mark behind it. -/
theorem SeqInv.update (h : SeqInv txt s vals) (hcall : s'.call = Function.update s.call c p)
    (horder : s'.lockOrder = s.lockOrder)
    (hheld : ∀ d, d ≠ c → s.holder = some d → s'.holder = some d)
    (hinside : p.inside = true → (s.call c).inside = true ∧ s'.holder = s.holder)
    (hissued : ∀ v ∈ p.issued, v ∈ (s.call c).issued)
    (hwaiting : p.waiting = true → (s.call c).waiting = true)
    (hreturned : ∀ v, s.call c = .returned v → p = .returned v)
    (hmark : ∃ n, HoldsMark txt s' n) : SeqInv txt s' vals := by
  have hself : s'.call c = p := by rw [hcall, Function.update_self]
  have hother : ∀ d, d ≠ c → s'.call d = s.call d := fun d hd => by
    rw [hcall, Function.update_of_ne hd]
  have hvalues : ∀ d, ∀ v ∈ (s'.call d).issued, v ∈ (s.call d).issued := by
    intro d v hv
    by_cases hd : d = c
    · subst hd
      rw [hself] at hv
      exact hissued v hv
    · rwa [hother d hd] at hv
  refine ⟨?_, ?_, horder ▸ h.nodup, ?_, ?_, ?_, hmark, ?_, h.increasing⟩
  · intro d hd
    by_cases hdc : d = c
    · subst hdc
      rw [hself] at hd
      obtain ⟨hin, hkeep⟩ := hinside hd
      rw [hkeep]
      exact h.holder_eq d hin
    · rw [hother d hdc] at hd
      exact hheld d hdc (h.holder_eq d hd)
  · intro d hd
    rw [horder]
    by_cases hdc : d = c
    · subst hdc
      rw [hself] at hd
      exact h.last d (hinside hd).1
    · rw [hother d hdc] at hd
      exact h.last d hd
  · intro d hd
    rw [horder] at hd
    by_cases hdc : d = c
    · subst hdc
      rw [hself]
      cases hw : p.waiting with
      | false => rfl
      | true => exact absurd (hwaiting hw) (by rw [h.entered d hd]; exact Bool.false_ne_true)
    · rw [hother d hdc]
      exact h.entered d hd
  · intro d hd
    rw [horder]
    obtain ⟨v, hv⟩ := Option.isSome_iff_exists.mp hd
    exact h.issued_mem d (Option.isSome_iff_exists.mpr ⟨v, hvalues d v hv⟩)
  · rw [horder]
    exact h.sorted.imp fun hlt v hv w hw => hlt v (hvalues _ v hv) w (hvalues _ w hw)
  · intro v hv
    obtain ⟨hne, d, hd⟩ := h.returned v hv
    refine ⟨hne, d, ?_⟩
    by_cases hdc : d = c
    · subst hdc
      rw [hself]
      exact hreturned v hd
    · rw [hother d hdc]
      exact hd

/-- Taking the lock. -/
theorem SeqInv.lock (h : SeqInv txt s vals) (hc : s.call c = .opened) (hfree : s.holder = none) :
    SeqInv txt { s.move c .locked with holder := some c, lockOrder := s.lockOrder ++ [c] } vals := by
  have hnew : c ∉ s.lockOrder := by
    intro hmem
    have hentered := h.entered c hmem
    rw [hc] at hentered
    exact absurd hentered.symm Bool.false_ne_true
  have hself : (s.move c .locked).call c = .locked := Function.update_self _ _ _
  have hother : ∀ d, d ≠ c → (s.move c .locked).call d = s.call d := fun d hd =>
    Function.update_of_ne hd _ _
  have houtside : ∀ d, d ≠ c → (s.call d).inside = false := by
    intro d _
    cases hin : (s.call d).inside with
    | false => rfl
    | true =>
      have hholder := h.holder_eq d hin
      rw [hfree] at hholder
      exact absurd hholder.symm (Option.some_ne_none d)
  obtain ⟨n, hn⟩ := h.mark
  refine ⟨?_, ?_, ?_, ?_, ?_, ?_, ⟨n, ?_⟩, ?_, h.increasing⟩
  · intro d hd
    by_cases hdc : d = c
    · rw [hdc]
    · change ((s.move c .locked).call d).inside = true at hd
      rw [hother d hdc, houtside d hdc] at hd
      exact absurd hd Bool.false_ne_true
  · intro d hd
    by_cases hdc : d = c
    · rw [hdc]
      exact List.getLast?_concat
    · change ((s.move c .locked).call d).inside = true at hd
      rw [hother d hdc, houtside d hdc] at hd
      exact absurd hd Bool.false_ne_true
  · exact List.nodup_append.mpr ⟨h.nodup, List.nodup_singleton c, fun a ha b hb heq => by
      rw [List.mem_singleton.mp hb] at heq
      exact hnew (heq ▸ ha)⟩
  · intro d hd
    change ((s.move c .locked).call d).waiting = false
    by_cases hdc : d = c
    · rw [hdc, hself]
      rfl
    · rw [hother d hdc]
      exact h.entered d ((List.mem_append.mp hd).resolve_right fun hmem =>
        hdc (List.mem_singleton.mp hmem))
  · intro d hd
    change ((s.move c .locked).call d).issued.isSome = true at hd
    by_cases hdc : d = c
    · rw [hdc, hself] at hd
      exact absurd hd Bool.false_ne_true
    · rw [hother d hdc] at hd
      exact List.mem_append_left _ (h.issued_mem d hd)
  · refine List.pairwise_append.mpr ⟨?_, List.pairwise_singleton _ c, ?_⟩
    · refine h.sorted.imp_of_mem ?_
      intro a b ha hb hlt
      change ∀ v ∈ ((s.move c .locked).call a).issued, ∀ w ∈ ((s.move c .locked).call b).issued, v < w
      rw [hother a fun heq => hnew (heq ▸ ha), hother b fun heq => hnew (heq ▸ hb)]
      exact hlt
    · intro a _ b hb v _ w hw
      change w ∈ ((s.move c .locked).call b).issued at hw
      rw [List.mem_singleton.mp hb, hself] at hw
      exact absurd hw (Option.not_mem_none w)
  · exact hn.update (p := .locked) rfl rfl (fun v hv => absurd hv (Option.not_mem_none v))
      trivial (by rw [hc]; rfl)
  · intro v hv
    obtain ⟨hne, d, hd⟩ := h.returned v hv
    refine ⟨hne, d, ?_⟩
    change (s.move c .locked).call d = .returned v
    rw [hother d fun heq => by rw [heq, hc] at hd; exact SeqCall.noConfusion hd]
    exact hd

/-- The value that is settled on behind a whole write. -/
theorem SeqInv.issue (h : SeqInv txt s vals) (htxt : txt.Decimal) {nxt : ℕ}
    (hc : s.call c = .written nxt) : SeqInv txt (s.move c (.unlocking nxt)) vals := by
  have hin : (s.call c).inside = true := by rw [hc]; rfl
  obtain ⟨n, hn⟩ := h.mark
  obtain ⟨hnxt, hcontent, hdigits⟩ : nxt = n + 1 ∧ s.content = showNat nxt ∧
      (showNat nxt).length ≤ 64 := by
    have hat := hn.at_mark c
    rw [hc] at hat
    exact hat
  have hself : (s.move c (.unlocking nxt)).call c = .unlocking nxt := Function.update_self _ _ _
  have hother : ∀ d, d ≠ c → (s.move c (.unlocking nxt)).call d = s.call d := fun d hd =>
    Function.update_of_ne hd _ _
  have hvalue : ∀ v ∈ (SeqCall.unlocking nxt).issued, v = nxt := by
    intro v hv
    rw [SeqCall.issued, if_neg (by omega)] at hv
    exact (Option.some.inj hv).symm
  have hout : ∀ d, d ≠ c → (s.call d).inside = false := fun d hd => h.outside hin hd
  have hmem : c ∈ s.lockOrder := List.mem_of_getLast? (h.last c hin)
  -- The call is the last one that took the lock.
  obtain ⟨earlier, hearlier⟩ : ∃ earlier, s.lockOrder = earlier ++ [c] :=
    List.getLast?_eq_some_iff.mp (h.last c hin)
  have hnotmem : c ∉ earlier := by
    have hnodup := h.nodup
    rw [hearlier] at hnodup
    intro hmem
    exact (List.nodup_append.mp hnodup).2.2 c hmem c (List.mem_singleton.mpr rfl) rfl
  refine ⟨?_, ?_, h.nodup, ?_, ?_, ?_, ⟨nxt, ?_, ?_, ?_⟩, ?_, h.increasing⟩
  · intro d hd
    by_cases hdc : d = c
    · rw [hdc, hself] at hd
      exact absurd hd Bool.false_ne_true
    · rw [hother d hdc, hout d hdc] at hd
      exact absurd hd Bool.false_ne_true
  · intro d hd
    by_cases hdc : d = c
    · rw [hdc, hself] at hd
      exact absurd hd Bool.false_ne_true
    · rw [hother d hdc, hout d hdc] at hd
      exact absurd hd Bool.false_ne_true
  · intro d hd
    by_cases hdc : d = c
    · rw [hdc, hself]
      rfl
    · rw [hother d hdc]
      exact h.entered d hd
  · intro d hd
    by_cases hdc : d = c
    · rw [hdc]
      exact hmem
    · rw [hother d hdc] at hd
      exact h.issued_mem d hd
  · show List.Pairwise _ s.lockOrder
    have hsorted := h.sorted
    rw [hearlier] at hsorted ⊢
    refine List.pairwise_append.mpr ⟨?_, List.pairwise_singleton _ c, ?_⟩
    · refine (List.pairwise_append.mp hsorted).1.imp_of_mem ?_
      intro a b ha hb hlt
      rw [hother a fun heq => hnotmem (heq ▸ ha), hother b fun heq => hnotmem (heq ▸ hb)]
      exact hlt
    · intro a ha b hb v hv w hw
      rw [List.mem_singleton.mp hb, hself] at hw
      rw [hother a fun heq => hnotmem (heq ▸ ha)] at hv
      have hle := hn.issued_le a v hv
      have hw := hvalue w hw
      omega
  · intro d v hv
    by_cases hdc : d = c
    · rw [hdc, hself] at hv
      exact (hvalue v hv).le
    · rw [hother d hdc] at hv
      have hle := hn.issued_le d v hv
      omega
  · intro d
    by_cases hdc : d = c
    · rw [hdc, hself]
      trivial
    · rw [hother d hdc]
      exact atMark_of_outside (hout d hdc)
  · intro _
    show txt.stored s.content = nxt
    rw [hcontent]
    exact htxt.stored_showNat hdigits
  · intro v hv
    obtain ⟨hne, d, hd⟩ := h.returned v hv
    refine ⟨hne, d, ?_⟩
    rw [hother d fun heq => by rw [heq, hc] at hd; exact SeqCall.noConfusion hd]
    exact hd

/-- A call that leaves the locked part behind its write, without the value: the number
in the sidecar is the mark now. -/
theorem SeqInv.mark_of_written (h : SeqInv txt s vals) (htxt : txt.Decimal) {nxt : ℕ}
    (hc : s.call c = .written nxt) (hcall : s'.call = Function.update s.call c p)
    (hcontent : s'.content = s.content) (hp : p.inside = false)
    (hissued : p.issued = none) : ∃ n, HoldsMark txt s' n := by
  have hin : (s.call c).inside = true := by rw [hc]; rfl
  obtain ⟨n, hn⟩ := h.mark
  have hat := hn.at_mark c
  rw [hc] at hat
  obtain ⟨hnxt, htext, hdigits⟩ := hat
  refine ⟨nxt, ?_, ?_, ?_⟩
  · intro d v hv
    rw [hcall] at hv
    by_cases hdc : d = c
    · rw [hdc, Function.update_self, hissued] at hv
      exact absurd hv (Option.not_mem_none v)
    · rw [Function.update_of_ne hdc] at hv
      have hle := hn.issued_le d v hv
      omega
  · intro d
    rw [hcall]
    by_cases hdc : d = c
    · rw [hdc, Function.update_self]
      exact atMark_of_outside hp
    · rw [Function.update_of_ne hdc]
      exact atMark_of_outside (h.outside hin hdc)
  · intro _
    rw [hcontent, htext]
    exact htxt.stored_showNat hdigits

/-- A step that changes the sidecar. -/
theorem SeqInv.mark_of_writing (h : SeqInv txt s vals) (hin : (s.call c).inside = true)
    (hcall : s'.call = Function.update s.call c p) (hp : p.writing = true)
    (hissued : p.issued = none)
    (hat : ∀ n, AtMark s.content n (s.call c) → AtMark s'.content n p) :
    ∃ n, HoldsMark txt s' n := by
  obtain ⟨n, hn⟩ := h.mark
  refine ⟨n, ?_, ?_, ?_⟩
  · intro d v hv
    rw [hcall] at hv
    by_cases hdc : d = c
    · rw [hdc, Function.update_self, hissued] at hv
      exact absurd hv (Option.not_mem_none v)
    · rw [Function.update_of_ne hdc] at hv
      exact hn.issued_le d v hv
  · intro d
    rw [hcall]
    by_cases hdc : d = c
    · rw [hdc, Function.update_self]
      exact hat n (hn.at_mark c)
    · rw [Function.update_of_ne hdc]
      exact atMark_of_outside (h.outside hin hdc)
  · intro hquiet
    have hc := hquiet c
    rw [hcall, Function.update_self, hp] at hc
    exact absurd hc.symm Bool.false_ne_true

/-- A value that is returned before the later ones. -/
theorem SeqInv.lt_of_first (h : SeqInv txt s vals) {ret : ℕ} (hc : s.call c = .finishing ret)
    (hne : ret ≠ 0) (hfirst : s.FirstToFinish c) : ∀ v ∈ vals, v < ret := by
  intro v hv
  obtain ⟨hv0, d, hd⟩ := h.returned v hv
  have hissued : (s.call d).issued = some v := by
    rw [hd, SeqCall.issued, if_neg hv0]
  have hret : (s.call c).issued = some ret := by
    rw [hc, SeqCall.issued, if_neg hne]
  have hdc : d ≠ c := by
    rintro rfl
    rw [hc] at hd
    exact SeqCall.noConfusion hd
  have hdmem := h.issued_mem d (by rw [hissued]; rfl)
  have hcmem := h.issued_mem c (by rw [hret]; rfl)
  rcases History.mem_behind_or_before hcmem hdmem hdc with hlater | hearlier
  · have hnone := hfirst d hlater
    rw [hd, SeqCall.result, if_neg hv0] at hnone
    exact absurd hnone (Option.some_ne_none v)
  · have hpair := h.sorted.sublist hearlier
    exact (List.pairwise_cons.mp hpair).1 c (List.mem_singleton.mpr rfl) v hissued ret hret

/-- Returning a value. -/
theorem SeqInv.returns (h : SeqInv txt s vals) {ret : ℕ} (hc : s.call c = .returned ret)
    (hlt : ret ≠ 0 → ∀ v ∈ vals, v < ret) : SeqInv txt s (vals ++ [ret].filter (· ≠ 0)) := by
  by_cases hne : ret = 0
  · subst hne
    have hnil : vals ++ [0].filter (· ≠ 0) = vals := by simp
    rw [hnil]
    exact h
  · have hone : [ret].filter (· ≠ 0) = [ret] := by simp [hne]
    rw [hone]
    refine { h with returned := ?_, increasing := ?_ }
    · intro v hv
      rcases List.mem_append.mp hv with hv | hv
      · exact h.returned v hv
      · rw [List.mem_singleton.mp hv]
        exact ⟨hne, c, hc⟩
    · refine List.pairwise_append.mpr ⟨h.increasing, List.pairwise_singleton _ ret, ?_⟩
      intro a ha b hb
      rw [List.mem_singleton.mp hb]
      exact hlt hne a ha

/-- A step of a call that is not writing, and that changes neither the content nor a
settled value. -/
theorem SeqInv.quiet (h : SeqInv txt s vals) (hwriting : (s.call c).writing = false)
    (hcall : s'.call = Function.update s.call c p) (horder : s'.lockOrder = s.lockOrder)
    (hcontent : s'.content = s.content)
    (hheld : ∀ d, d ≠ c → s.holder = some d → s'.holder = some d)
    (hinside : p.inside = true → (s.call c).inside = true ∧ s'.holder = s.holder)
    (hissued : ∀ v ∈ p.issued, v ∈ (s.call c).issued)
    (hwaiting : p.waiting = true → (s.call c).waiting = true)
    (hreturned : ∀ v, s.call c = .returned v → p = .returned v)
    (hat : ∀ n, HoldsMark txt s n → AtMark s.content n p) : SeqInv txt s' vals := by
  obtain ⟨n, hn⟩ := h.mark
  exact h.update hcall horder hheld hinside hissued hwaiting hreturned
    ⟨n, hn.update hcall hcontent hissued (hat n hn) hwriting⟩

theorem release_holder {d : ℕ} (hdc : d ≠ c) (hd : s.holder = some d) :
    (s.release c).holder = some d := by
  rw [SeqState.release]
  dsimp only
  rw [if_neg]
  · exact hd
  · rw [hd]
    exact fun heq => hdc (Option.some.inj heq)

theorem not_mem_issued_zero (v : ℕ) : v ∉ (SeqCall.unlocking 0).issued := Option.not_mem_none v

/-- The steps of a call in the locked part that go to `finally` without a value. -/
theorem SeqInv.giveUp (h : SeqInv txt s vals) (hwriting : (s.call c).writing = false)
    (hret : ∀ v, s.call c ≠ .returned v) : SeqInv txt (s.move c (.unlocking 0)) vals :=
  h.quiet (p := .unlocking 0) hwriting rfl rfl rfl (fun _ _ hd => hd)
    (fun hin => absurd hin Bool.false_ne_true) (fun v hv => absurd hv (not_mem_issued_zero v))
    (fun hw => absurd hw Bool.false_ne_true) (fun v hv => absurd hv (hret v)) fun _ _ => trivial

/-- Every undisturbed step keeps the invariant. -/
theorem SeqInv.callStep (h : SeqInv txt s vals) (htxt : txt.Decimal) (io : SeqIo)
    (hgood : s.undisturbed (.step c io) = true) :
    SeqInv txt (seqCallStep txt s c io).2
      (vals ++ (seqCallStep txt s c io).1.toList.filter (· ≠ 0)) := by
  have hnone : ∀ s' : SeqState, SeqInv txt s' vals →
      SeqInv txt s' (vals ++ (none : Option ℕ).toList.filter (· ≠ 0)) := by
    intro s' hs'
    simpa using hs'
  rw [SeqState.undisturbed] at hgood
  rw [seqCallStep]
  cases hc : s.call c with
  | idle =>
    apply hnone
    dsimp only
    split_ifs
    · exact h.quiet (p := .finishing 0) (by rw [hc]; rfl) rfl rfl rfl (fun _ _ hd => hd)
        (fun hin => absurd hin Bool.false_ne_true) (fun v hv => absurd hv (Option.not_mem_none v))
        (fun hw => absurd hw Bool.false_ne_true)
        (fun v hv => absurd (hc.symm.trans hv) SeqCall.noConfusion) fun _ _ => trivial
    · exact h.quiet (p := .opened) (by rw [hc]; rfl) rfl rfl rfl (fun _ _ hd => hd)
        (fun hin => absurd hin Bool.false_ne_true) (fun v hv => absurd hv (Option.not_mem_none v))
        (fun _ => by rw [hc]; rfl)
        (fun v hv => absurd (hc.symm.trans hv) SeqCall.noConfusion) fun _ _ => trivial
  | opened =>
    dsimp only
    split_ifs with hfail hheld
    · exact hnone _ (h.giveUp (by rw [hc]; rfl)
        fun v hv => absurd (hc.symm.trans hv) SeqCall.noConfusion)
    · exact hnone _ h
    · exact hnone _ (h.lock hc (by simpa using hheld))
  | locked =>
    rw [hc] at hgood
    apply hnone
    have hin : (s.call c).inside = true := by rw [hc]; rfl
    refine h.quiet (p := .parsed _) (by rw [hc]; rfl) rfl rfl rfl (fun _ _ hd => hd)
      (fun _ => ⟨hin, rfl⟩) (fun v hv => absurd hv (Option.not_mem_none v))
      (fun hw => absurd hw Bool.false_ne_true)
      (fun v hv => absurd (hc.symm.trans hv) SeqCall.noConfusion) ?_
    intro n hn
    show (if io.fails then txt.current [] else txt.stored s.content) = n
    rw [if_neg (by simpa using hgood)]
    apply hn.stored_eq
    intro d
    cases hw : (s.call d).writing with
    | false => rfl
    | true =>
      have hdin := SeqCall.inside_of_writing hw
      by_cases hdc : d = c
      · rw [hdc, hc] at hw
        exact absurd hw Bool.false_ne_true
      · exact absurd ((h.outside hin hdc).symm.trans hdin) Bool.false_ne_true
  | parsed current =>
    apply hnone
    dsimp only
    split_ifs
    · exact h.giveUp (by rw [hc]; rfl) fun v hv => absurd (hc.symm.trans hv) SeqCall.noConfusion
    · refine h.quiet (p := .rewound _) (by rw [hc]; rfl) rfl rfl rfl (fun _ _ hd => hd)
        (fun _ => ⟨by rw [hc]; rfl, rfl⟩) (fun v hv => absurd hv (Option.not_mem_none v))
        (fun hw => absurd hw Bool.false_ne_true)
        (fun v hv => absurd (hc.symm.trans hv) SeqCall.noConfusion) ?_
      intro n hn
      have hat := hn.at_mark c
      rw [hc] at hat
      exact congrArg (· + 1) hat
  | rewound nxt =>
    dsimp only
    split_ifs
    · exact hnone _ (h.giveUp (by rw [hc]; rfl)
        fun v hv => absurd (hc.symm.trans hv) SeqCall.noConfusion)
    · have hin : (s.call c).inside = true := by rw [hc]; rfl
      apply hnone
      refine h.update (p := .truncated nxt) rfl rfl (fun _ _ hd => hd) (fun _ => ⟨hin, rfl⟩)
        (fun v hv => absurd hv (Option.not_mem_none v)) (fun hw => absurd hw Bool.false_ne_true)
        (fun v hv => absurd (hc.symm.trans hv) SeqCall.noConfusion) ?_
      refine h.mark_of_writing hin rfl rfl rfl ?_
      intro n hat
      rw [hc] at hat
      exact hat
  | truncated nxt =>
    rw [hc] at hgood
    simp only [Bool.and_eq_true, Bool.not_eq_true', decide_eq_true_eq] at hgood
    obtain ⟨⟨hfail, hcount⟩, hdigits⟩ := hgood
    have hin : (s.call c).inside = true := by rw [hc]; rfl
    dsimp only
    rw [if_neg (by rw [hfail]; exact Bool.false_ne_true)]
    apply hnone
    refine h.update (p := .written nxt) rfl rfl (fun _ _ hd => hd) (fun _ => ⟨hin, rfl⟩)
      (fun v hv => absurd hv (Option.not_mem_none v)) (fun hw => absurd hw Bool.false_ne_true)
      (fun v hv => absurd (hc.symm.trans hv) SeqCall.noConfusion) ?_
    refine h.mark_of_writing hin rfl rfl rfl ?_
    intro n hat
    rw [hc] at hat
    exact ⟨hat, List.take_of_length_le hcount, hdigits⟩
  | written nxt =>
    apply hnone
    dsimp only
    split_ifs
    · exact h.update (p := .unlocking 0) rfl rfl (fun _ _ hd => hd)
        (fun hin => absurd hin Bool.false_ne_true) (fun v hv => absurd hv (not_mem_issued_zero v))
        (fun hw => absurd hw Bool.false_ne_true)
        (fun v hv => absurd (hc.symm.trans hv) SeqCall.noConfusion)
        (h.mark_of_written htxt hc rfl rfl rfl rfl)
    · exact h.issue htxt hc
  | unlocking ret =>
    apply hnone
    dsimp only
    refine h.quiet (p := .closing ret) (by rw [hc]; rfl) ?_ ?_ ?_ ?_
      (fun hin => absurd hin Bool.false_ne_true) (fun v hv => by rw [hc]; exact hv)
      (fun hw => absurd hw Bool.false_ne_true)
      (fun v hv => absurd (hc.symm.trans hv) SeqCall.noConfusion) fun _ _ => trivial
    · split_ifs <;> rfl
    · split_ifs <;> rfl
    · split_ifs <;> rfl
    · intro d hdc hd
      split_ifs
      · exact hd
      · exact release_holder hdc hd
  | closing ret =>
    apply hnone
    exact h.quiet (p := .finishing ret) (by rw [hc]; rfl) rfl rfl rfl
      (fun d hdc hd => release_holder hdc hd) (fun hin => absurd hin Bool.false_ne_true)
      (fun v hv => by rw [hc]; exact hv) (fun hw => absurd hw Bool.false_ne_true)
      (fun v hv => absurd (hc.symm.trans hv) SeqCall.noConfusion) fun _ _ => trivial
  | finishing ret =>
    rw [hc] at hgood
    have hmoved : SeqInv txt (s.move c (.returned ret)) vals :=
      h.quiet (p := .returned ret) (by rw [hc]; rfl) rfl rfl rfl (fun _ _ hd => hd)
        (fun hin => absurd hin Bool.false_ne_true) (fun v hv => by rw [hc]; exact hv)
        (fun hw => absurd hw Bool.false_ne_true)
        (fun v hv => absurd (hc.symm.trans hv) SeqCall.noConfusion) fun _ _ => trivial
    exact hmoved.returns (Function.update_self _ _ _) fun hne =>
      h.lt_of_first hc hne (by simpa [hne] using hgood)
  | returned ret => exact hnone _ h
  | killed => exact hnone _ h

theorem SeqInv.kill (h : SeqInv txt s vals) (htxt : txt.Decimal)
    (hgood : s.undisturbed (.kill c) = true) : SeqInv txt ((s.release c).move c .killed) vals ∨
      (∃ v, s.call c = .returned v) := by
  by_cases hret : ∃ v, s.call c = .returned v
  · exact .inr hret
  · refine .inl (h.update (p := .killed) rfl rfl (fun d hdc hd => release_holder hdc hd)
      (fun hin => absurd hin Bool.false_ne_true) (fun v hv => absurd hv (Option.not_mem_none v))
      (fun hw => absurd hw Bool.false_ne_true) (fun v hv => absurd ⟨v, hv⟩ hret) ?_)
    cases hw : (s.call c).writing with
    | false =>
      obtain ⟨n, hn⟩ := h.mark
      exact ⟨n, hn.update (p := .killed) rfl rfl (fun v hv => absurd hv (Option.not_mem_none v))
        trivial hw⟩
    | true =>
      cases hc : s.call c with
      | truncated nxt =>
        rw [SeqState.undisturbed, hc] at hgood
        exact absurd hgood Bool.false_ne_true
      | written nxt => exact h.mark_of_written htxt hc rfl rfl rfl rfl
      | _ =>
        rw [hc] at hw
        exact absurd hw Bool.false_ne_true

theorem SeqInv.step (h : SeqInv txt s vals) (htxt : txt.Decimal) {e : SeqEvent}
    (hgood : s.undisturbed e = true) :
    SeqInv txt (seqStep txt s e).2 (vals ++ (seqStep txt s e).1.toList.filter (· ≠ 0)) := by
  cases e with
  | step c io => exact h.callStep htxt io hgood
  | kill c =>
    rw [seqStep]
    split
    · simpa using h
    · simpa using h
    · rename_i hnot _
      rcases h.kill htxt hgood with hkill | ⟨v, hv⟩
      · simpa using hkill
      · exact absurd hv (hnot v)

end

/-! ## Whole runs -/

/-- In an undisturbed run the non-zero values are returned in strictly increasing
order, so no two calls return the same one. -/
theorem seqs_increasing {txt : SeqText} (htxt : txt.Decimal) (content : Bytes)
    {es : List SeqEvent}
    (hgood : Machine.Meets (seqStep txt) (fun s e => s.undisturbed e = true) (.init content) es) :
    (returnedSeqs (Machine.outs (seqStep txt) (.init content) es)).Pairwise (· < ·) ∧
      (returnedSeqs (Machine.outs (seqStep txt) (.init content) es)).Nodup := by
  have hinv : SeqInv txt (Machine.run (seqStep txt) (.init content) es)
      (returnedSeqs (Machine.outs (seqStep txt) (.init content) es)) := by
    induction es using List.reverseRecOn with
    | nil => exact SeqInv.init txt content
    | append_singleton es e ih =>
      obtain ⟨hes, he⟩ := (Machine.meets_concat _ _ _ es e).mp hgood
      rw [Machine.run_concat, Machine.outs_concat, returnedSeqs_concat]
      exact (ih hes).step htxt he
  exact ⟨hinv.increasing, hinv.increasing.imp fun hlt => hlt.ne⟩

/-! ## Three runs -/

/-- `int` on decimal digits. -/
def digitText : SeqText where
  intOfText := fun text =>
    if JsonCodec.isDigits text then some (JsonCodec.readNat text : ℤ) else none

theorem digitText_decimal : digitText.Decimal := by
  intro n _
  show (if JsonCodec.isDigits (JsonCodec.showNat n) then
    some (JsonCodec.readNat (JsonCodec.showNat n) : ℤ) else none) = some (n : ℤ)
  rw [if_pos (JsonCodec.isDigits_showNat n), JsonCodec.readNat_showNat]

/-- The next `n` steps of call `c`, without a fault. -/
def steps (c n : ℕ) : List SeqEvent := List.replicate n (.step c ⟨false, 64⟩)

/-- Two calls that wait for each other at the lock. -/
def twoCalls : List SeqEvent := steps 0 2 ++ steps 1 2 ++ steps 0 8 ++ steps 1 9

theorem seqs_twoCalls :
    (returnedSeqs (Machine.outs (seqStep digitText) (.init (ascii "41")) twoCalls)).Pairwise
      (· < ·) :=
  (seqs_increasing digitText_decimal (ascii "41") (by decide)).1

/-- A process that is killed between `ftruncate` and `write` leaves an empty sidecar,
and the next call starts again at 1. -/
def killedRun : List SeqEvent := steps 0 10 ++ steps 1 5 ++ [.kill 1] ++ steps 2 10

/-- The first call has released the lock when the second one runs. -/
def overtakenRun : List SeqEvent := steps 0 8 ++ steps 1 10 ++ steps 0 2

theorem seqs_not_increasing :
    returnedSeqs (Machine.outs (seqStep digitText) (.init []) killedRun) = [1, 1] ∧
      returnedSeqs (Machine.outs (seqStep digitText) (.init []) overtakenRun) = [2, 1] := by
  decide

end AflNv
