import AflNv.Covset
import AflNv.StatusRecord

/-!
# Publishing a status

`write_status` of `nv_http_harness.py`, run by any number of processes that share one
status path.  A call allocates an identity, opens and writes the temporary file, moves
it over the snapshot, and appends its line to the ledger; between two of these steps
every other call may move.

The temporary file has one name for all calls.  `os.replace` takes the name away, and a
descriptor stays with its file, so the files are numbered and the names point to numbers.
`append_status_record` holds the lock of the ledger while it writes.

* `PubInv` is what the steps keep while the calls keep the order of their identities.
* `published`: in such a run every call that returns has appended one line, no call
  raises because of another one, and the ledger and the snapshot are in order.
* `published_fails` are two runs of two calls that overlap.
-/

namespace AflNv

open AflNv.Lib

/-! ## The calls -/

/-- Why a call raised. -/
inductive PubError where
  /-- The content identity is invalid. -/
  | identity
  /-- The operating system refused a file before the ledger. -/
  | file
  /-- `os.replace` found no temporary file. -/
  | missingTmp
  /-- The append of the line. -/
  | ledger (seq : ℕ)
  deriving DecidableEq

/-- Where a call of `write_status` is, with its identity. -/
inductive PubCall where
  | idle
  | allocated (seq : ℕ)
  /-- The temporary file is open and empty. -/
  | opened (seq fd : ℕ)
  /-- The temporary file is written and closed. -/
  | written (seq : ℕ)
  /-- The snapshot is in place. -/
  | replaced (seq : ℕ)
  | returned (seq : ℕ)
  | raised (e : PubError)
  deriving DecidableEq

namespace PubCall

/-- The identity of a call that has not failed before its append. -/
def identity : PubCall → Option ℕ
  | allocated seq | opened seq _ | written seq | replaced seq | returned seq
  | raised (.ledger seq) => some seq
  | _ => none

/-- The identity of a call that has not put its snapshot in place. -/
def snapshotDue : PubCall → Option ℕ
  | allocated seq | opened seq _ | written seq => some seq
  | _ => none

/-- The identity of a call that has not appended its line. -/
def lineDue : PubCall → Option ℕ
  | allocated seq | opened seq _ | written seq | replaced seq => some seq
  | _ => none

/-- The identity of a call that uses the temporary file. -/
def usesTmp : PubCall → Option ℕ
  | opened seq _ | written seq => some seq
  | _ => none

/-- The identity of a call whose snapshot was put in place. -/
def placed : PubCall → Option ℕ
  | replaced seq | returned seq | raised (.ledger seq) => some seq
  | _ => none

/-- The identity of a call that is behind its append. -/
def appended : PubCall → Option ℕ
  | returned seq | raised (.ledger seq) => some seq
  | _ => none

end PubCall

/-- What the operating system answers to one step. -/
structure PubIo where
  /-- The step raises `OSError`; an allocation returns 0. -/
  fails : Bool
  /-- The bytes that were written before it raised. -/
  taken : ℕ

/-- The files of a status path and the calls of all processes. -/
structure PubState where
  /-- The identity that was allocated last. -/
  counter : ℕ
  file : ℕ → Bytes
  /-- The number of the next new file. -/
  fresh : ℕ
  tmp : Option ℕ
  status : Option ℕ
  ledger : Bytes
  call : ℕ → PubCall
  /-- The calls that have allocated an identity, in this order. -/
  started : List ℕ

/-- No call so far; a temporary file and a snapshot may be there. -/
def PubState.init (counter : ℕ) (tmp status : Option Bytes) : PubState where
  counter := counter
  file := fun n => if n = 0 then tmp.getD [] else status.getD []
  fresh := 2
  tmp := tmp.map fun _ => 0
  status := status.map fun _ => 1
  ledger := []
  call := fun _ => .idle
  started := []

/-- Call `c` moves on. -/
def PubState.move (s : PubState) (c : ℕ) (place : PubCall) : PubState :=
  { s with call := Function.update s.call c place }

/-- The content of file `fd` changes. -/
def PubState.setFile (s : PubState) (fd : ℕ) (content : Bytes) : PubState :=
  { s with file := Function.update s.file fd content }

/-- Writing at the beginning of a file. -/
def overwrite (text old : Bytes) : Bytes := text ++ old.drop text.length

/-- `open(tmp, "w")`: the state and the descriptor. -/
def PubState.openTmp (s : PubState) : ℕ × PubState :=
  match s.tmp with
  | some fd => (fd, s.setFile fd [])
  | none => (s.fresh, { s.setFile s.fresh [] with
      tmp := some s.fresh
      fresh := s.fresh + 1 })

/-- The next step of call `c`, with the arguments `a`; the first component is what it
returns. -/
def pubCallStep (a : StatusArgs) (s : PubState) (c : ℕ) (io : PubIo) : Option ℕ × PubState :=
  match s.call c with
  | .idle =>
    let seq := if io.fails then 0 else s.counter + 1
    let s := { s with
      counter := if io.fails then s.counter else s.counter + 1
      started := s.started ++ [c] }
    (none, s.move c (if a.validIdentity then .allocated seq else .raised .identity))
  | .allocated seq =>
    if io.fails then (none, s.move c (.raised .file))
    else (none, s.openTmp.2.move c (.opened seq s.openTmp.1))
  | .opened seq fd =>
    if io.fails then
      let text := (a.snapshotText seq).take io.taken
      (none, (s.setFile fd (overwrite text (s.file fd))).move c (.raised .file))
    else (none, (s.setFile fd (overwrite (a.snapshotText seq) (s.file fd))).move c (.written seq))
  | .written seq =>
    if io.fails then (none, s.move c (.raised .file))
    else
      match s.tmp with
      | none => (none, s.move c (.raised .missingTmp))
      | some fd => (none, { s.move c (.replaced seq) with
          status := some fd
          tmp := none })
  | .replaced seq =>
    let payload := a.ledgerBody seq ++ [nl]
    if io.fails then
      (none, { s.move c (.raised (.ledger seq)) with ledger := s.ledger ++ payload.take io.taken })
    else (some seq, { s.move c (.returned seq) with ledger := s.ledger ++ payload })
  | .returned _ | .raised _ => (none, s)

/-- A step of a call. -/
structure PubEvent where
  call : ℕ
  io : PubIo

/-- One event; `args c` are the arguments of call `c`. -/
def pubStep (args : ℕ → StatusArgs) (s : PubState) (e : PubEvent) : Option ℕ × PubState :=
  pubCallStep (args e.call) s e.call e.io

/-! ## The condition on the steps -/

/-- The calls keep the order of their identities: one opens the temporary file when the
snapshots of all smaller identities are in place (or their calls have raised), and appends
its line when the lines of all smaller identities are there.  An identity is allocated,
and an append that raises has written nothing of its line, or the whole line. -/
def PubState.inOrder (args : ℕ → StatusArgs) (s : PubState) (e : PubEvent) : Bool :=
  match s.call e.call with
  | .idle => !e.io.fails
  | .allocated seq => s.started.all fun d => (s.call d).snapshotDue.all (seq ≤ ·)
  | .replaced seq =>
    (s.started.all fun d => (s.call d).lineDue.all (seq ≤ ·)) &&
      (!e.io.fails || e.io.taken = 0 || ((args e.call).ledgerBody seq).length < e.io.taken)
  | _ => true

/-! ## What is published -/

/-- The snapshot file. -/
def PubState.snapshot (s : PubState) : Option Bytes := s.status.map s.file

/-- The lines of the ledger belong to the calls `order`, with their identities. -/
structure Published (args : ℕ → StatusArgs) (s : PubState) (order : List (ℕ × ℕ)) : Prop where
  lines : splitlines s.ledger = order.map fun p => (args p.1).ledgerBody p.2
  complete : hasPartialLine s.ledger = false
  /-- A call that returned has appended exactly one line. -/
  returned : ∀ c seq, s.call c = .returned seq →
    (c, seq) ∈ order ∧ (order.map Prod.fst).count c = 1
  unharmed : ∀ c, s.call c ≠ .raised .missingTmp
  increasing : (order.map Prod.snd).Pairwise (· < ·)
  /-- The C consumer takes every line for a new one. -/
  accepted : ∀ before seq rest stamp last, order.map Prod.snd = before ++ seq :: rest →
    (nvStatusIsFresh seq stamp (before.getLast?.getD 0) last).1 = .accept
  /-- The snapshot is the one of the greatest identity. -/
  snapshot : ∀ c, ∀ seq ∈ (s.call c).placed, ∃ d, ∃ top ∈ (s.call d).placed,
    s.snapshot = some ((args d).snapshotText top) ∧ ∀ e, ∀ k ∈ (s.call e).placed, k ≤ top

/-! ## The invariant -/

/-- The numbers that `f` reads from a call are below those that `g` reads from every
other call. -/
def Below (call : ℕ → PubCall) (f g : PubCall → Option ℕ) : Prop :=
  ∀ c, ∀ seq ∈ f (call c), ∀ d, d ≠ c → ∀ k ∈ g (call d), seq < k

/-- The calls keep the order of their identities. -/
structure Orders (call : ℕ → PubCall) (counter : ℕ) : Prop where
  le : ∀ c, ∀ seq ∈ (call c).identity, 0 < seq ∧ seq ≤ counter
  inj : ∀ c d, ∀ seq ∈ (call c).lineDue, seq ∈ (call d).lineDue → c = d
  placed_lt : Below call PubCall.placed PubCall.snapshotDue
  uses_lt : Below call PubCall.usesTmp PubCall.snapshotDue
  appended_lt : Below call PubCall.appended PubCall.lineDue

/-- What the place of a call says about the temporary file. -/
def TmpAt (a : StatusArgs) (s : PubState) : PubCall → Prop
  | .opened _ fd => s.tmp = some fd ∧ s.file fd = []
  | .written seq => ∃ fd, s.tmp = some fd ∧ s.file fd = a.snapshotText seq
  | _ => True

/-- The temporary file belongs to one call, and the snapshot is the last one that was
put in place. -/
structure Files (args : ℕ → StatusArgs) (s : PubState) : Prop where
  tmp_at : ∀ c, TmpAt (args c) s (s.call c)
  tmp_fresh : ∀ fd ∈ s.tmp, fd < s.fresh ∧ s.status ≠ some fd
  status_fresh : ∀ fd ∈ s.status, fd < s.fresh
  snapshot : ∀ c, ∀ seq ∈ (s.call c).placed, ∃ d, ∃ top ∈ (s.call d).placed,
    s.snapshot = some ((args d).snapshotText top) ∧ ∀ e, ∀ k ∈ (s.call e).placed, k ≤ top

/-- The ledger holds the lines of `order`. -/
structure Ledger (args : ℕ → StatusArgs) (s : PubState) (order : List (ℕ × ℕ)) : Prop where
  ledger_eq : s.ledger = lineFile (order.map fun p => (args p.1).ledgerBody p.2)
  order_mem : ∀ p ∈ order, p.2 ∈ (s.call p.1).appended
  returned_mem : ∀ c seq, s.call c = .returned seq → (c, seq) ∈ order
  increasing : (order.map Prod.snd).Pairwise (· < ·)

/-- The invariant of a run whose calls keep the order. -/
structure PubInv (args : ℕ → StatusArgs) (s : PubState) (order : List (ℕ × ℕ)) : Prop where
  started : ∀ c, s.call c ≠ .idle → c ∈ s.started
  orders : Orders s.call s.counter
  files : Files args s
  ledger : Ledger args s order
  unharmed : ∀ c, s.call c ≠ .raised .missingTmp

/-! ## The order of the identities -/

namespace PubCall

variable {p : PubCall} {seq : ℕ}

theorem lineDue_of_snapshotDue (h : seq ∈ p.snapshotDue) : seq ∈ p.lineDue := by
  cases p with
  | allocated _ | opened _ _ | written _ => exact h
  | _ => exact absurd h (Option.not_mem_none _)

theorem snapshotDue_of_usesTmp (h : seq ∈ p.usesTmp) : seq ∈ p.snapshotDue := by
  cases p with
  | opened _ _ | written _ => exact h
  | _ => exact absurd h (Option.not_mem_none _)

theorem identity_of_lineDue (h : seq ∈ p.lineDue) : seq ∈ p.identity := by
  cases p with
  | allocated _ | opened _ _ | written _ | replaced _ => exact h
  | _ => exact absurd h (Option.not_mem_none _)

theorem placed_of_appended (h : seq ∈ p.appended) : seq ∈ p.placed := by
  cases p with
  | returned _ => exact h
  | raised e =>
    cases e with
    | ledger _ => exact h
    | _ => exact absurd h (Option.not_mem_none _)
  | _ => exact absurd h (Option.not_mem_none _)

theorem identity_of_placed (h : seq ∈ p.placed) : seq ∈ p.identity := by
  cases p with
  | replaced _ | returned _ => exact h
  | raised e =>
    cases e with
    | ledger _ => exact h
    | _ => exact absurd h (Option.not_mem_none _)
  | _ => exact absurd h (Option.not_mem_none _)

end PubCall

section

variable {call : ℕ → PubCall} {counter counter' : ℕ} {c : ℕ} {p : PubCall}

/-- A call moves on: what `f` reads from it is in order, and what `g` reads from it is
above all identities, unless they read it before. -/
theorem Below.update {f g : PubCall → Option ℕ} (h : Below call f g)
    (hle : ∀ d, ∀ seq ∈ f (call d), seq ≤ counter)
    (hf : ∀ seq ∈ f p, seq ∈ f (call c) ∨ ∀ d, d ≠ c → ∀ k ∈ g (call d), seq < k)
    (hg : ∀ k ∈ g p, k ∈ g (call c) ∨ counter < k) : Below (Function.update call c p) f g := by
  intro d seq hseq e hed k hk
  by_cases hdc : d = c
  · rw [hdc] at hed
    rw [hdc, Function.update_self] at hseq
    rw [Function.update_of_ne hed] at hk
    rcases hf seq hseq with hold | hnew
    · exact h c seq hold e hed k hk
    · exact hnew e hed k hk
  · rw [Function.update_of_ne hdc] at hseq
    by_cases hec : e = c
    · rw [hec, Function.update_self] at hk
      rcases hg k hk with hold | hnew
      · exact h d seq hseq c (hec ▸ hed) k hold
      · have hseqle := hle d seq hseq
        omega
    · rw [Function.update_of_ne hec] at hk
      exact h d seq hseq e hed k hk

/-- A call moves on: what is new about it lies above all identities, or is in order. -/
theorem Orders.update (h : Orders call counter) (hcounter : counter ≤ counter')
    (hidentity : ∀ seq ∈ p.identity, seq ∈ (call c).identity ∨ counter < seq ∧ seq ≤ counter')
    (hline : ∀ seq ∈ p.lineDue, seq ∈ (call c).lineDue ∨ counter < seq)
    (hsnapshot : ∀ seq ∈ p.snapshotDue, seq ∈ (call c).snapshotDue ∨ counter < seq)
    (hplaced : ∀ seq ∈ p.placed, seq ∈ (call c).placed ∨
      ∀ d, d ≠ c → ∀ k ∈ (call d).snapshotDue, seq < k)
    (huses : ∀ seq ∈ p.usesTmp, seq ∈ (call c).usesTmp ∨
      ∀ d, d ≠ c → ∀ k ∈ (call d).snapshotDue, seq < k)
    (happended : ∀ seq ∈ p.appended, seq ∈ (call c).appended ∨
      ∀ d, d ≠ c → ∀ k ∈ (call d).lineDue, seq < k) :
    Orders (Function.update call c p) counter' := by
  have hline_le : ∀ d, ∀ seq ∈ (call d).lineDue, seq ≤ counter := fun d seq hseq =>
    (h.le d seq (PubCall.identity_of_lineDue hseq)).2
  have hplaced_le : ∀ d, ∀ seq ∈ (call d).placed, seq ≤ counter := fun d seq hseq =>
    (h.le d seq (PubCall.identity_of_placed hseq)).2
  refine ⟨?_, ?_, h.placed_lt.update hplaced_le hplaced hsnapshot,
    h.uses_lt.update (fun d seq hseq => ?_) huses hsnapshot,
    h.appended_lt.update (fun d seq hseq => ?_) happended hline⟩
  · intro d seq hseq
    by_cases hd : d = c
    · rw [hd, Function.update_self] at hseq
      rcases hidentity seq hseq with hold | hnew
      · have hle := h.le c seq hold
        omega
      · omega
    · rw [Function.update_of_ne hd] at hseq
      have hle := h.le d seq hseq
      omega
  · intro d e seq hd he
    by_cases hdc : d = c <;> by_cases hec : e = c
    · rw [hdc, hec]
    · rw [hdc, Function.update_self] at hd
      rw [Function.update_of_ne hec] at he
      rcases hline seq hd with hold | hnew
      · exact hdc.trans (h.inj c e seq hold he)
      · have hle := hline_le e seq he
        omega
    · rw [hec, Function.update_self] at he
      rw [Function.update_of_ne hdc] at hd
      rcases hline seq he with hold | hnew
      · exact (h.inj d c seq hd hold).trans hec.symm
      · have hle := hline_le d seq hd
        omega
    · rw [Function.update_of_ne hdc] at hd
      rw [Function.update_of_ne hec] at he
      exact h.inj d e seq hd he
  · exact hline_le d seq (PubCall.lineDue_of_snapshotDue (PubCall.snapshotDue_of_usesTmp hseq))
  · exact hplaced_le d seq (PubCall.placed_of_appended hseq)

/-- A call whose numbers are all known before. -/
theorem Orders.keep (h : Orders call counter) (hidentity : ∀ seq ∈ p.identity, seq ∈ (call c).identity)
    (hline : ∀ seq ∈ p.lineDue, seq ∈ (call c).lineDue)
    (hsnapshot : ∀ seq ∈ p.snapshotDue, seq ∈ (call c).snapshotDue)
    (hplaced : p.placed = none) (huses : ∀ seq ∈ p.usesTmp, seq ∈ (call c).usesTmp)
    (happended : p.appended = none) : Orders (Function.update call c p) counter :=
  h.update le_rfl (fun seq hseq => .inl (hidentity seq hseq)) (fun seq hseq => .inl (hline seq hseq))
    (fun seq hseq => .inl (hsnapshot seq hseq))
    (fun seq hseq => absurd hseq (by rw [hplaced]; exact Option.not_mem_none seq))
    (fun seq hseq => .inl (huses seq hseq))
    (fun seq hseq => absurd hseq (by rw [happended]; exact Option.not_mem_none seq))

/-- A call that raises before its append. -/
theorem Orders.raise (h : Orders call counter) {e : PubError} (he : ∀ seq, e ≠ .ledger seq) :
    Orders (Function.update call c (.raised e)) counter := by
  have hnone : (PubCall.raised e).identity = none ∧ (PubCall.raised e).placed = none ∧
      (PubCall.raised e).appended = none := by
    cases e with
    | ledger seq => exact absurd rfl (he seq)
    | _ => exact ⟨rfl, rfl, rfl⟩
  have hempty : ∀ {seq : ℕ} {P : Prop}, seq ∈ (none : Option ℕ) → P := fun hseq =>
    absurd hseq (Option.not_mem_none _)
  exact h.keep (fun seq hseq => hempty (hnone.1 ▸ hseq)) (fun _ => hempty) (fun _ => hempty)
    hnone.2.1 (fun _ => hempty) hnone.2.2

theorem Orders.start (h : Orders call counter) :
    Orders (Function.update call c (.allocated (counter + 1))) (counter + 1) := by
  have hnew : ∀ seq ∈ (PubCall.allocated (counter + 1)).identity,
      counter < seq ∧ seq ≤ counter + 1 := by
    intro seq hseq
    rw [← Option.some.inj hseq]
    omega
  exact h.update (by omega) (fun seq hseq => .inr (hnew seq hseq))
    (fun seq hseq => .inr (hnew seq hseq).1) (fun seq hseq => .inr (hnew seq hseq).1)
    (fun _ hseq => absurd hseq (Option.not_mem_none _))
    (fun _ hseq => absurd hseq (Option.not_mem_none _))
    (fun _ hseq => absurd hseq (Option.not_mem_none _))

/-- Opening the temporary file in order. -/
theorem Orders.open (h : Orders call counter) {seq fd : ℕ} (hc : call c = .allocated seq)
    (hfirst : ∀ d, d ≠ c → ∀ k ∈ (call d).snapshotDue, seq < k) :
    Orders (Function.update call c (.opened seq fd)) counter := by
  refine h.update le_rfl (fun k hk => .inl (by rw [hc]; exact hk))
    (fun k hk => .inl (by rw [hc]; exact hk)) (fun k hk => .inl (by rw [hc]; exact hk))
    (fun _ hk => absurd hk (Option.not_mem_none _)) (fun k hk => .inr ?_)
    (fun _ hk => absurd hk (Option.not_mem_none _))
  rw [← Option.some.inj hk]
  exact hfirst

theorem Orders.write (h : Orders call counter) {seq fd : ℕ} (hc : call c = .opened seq fd) :
    Orders (Function.update call c (.written seq)) counter :=
  h.keep (fun k hk => by rw [hc]; exact hk) (fun k hk => by rw [hc]; exact hk)
    (fun k hk => by rw [hc]; exact hk) rfl (fun k hk => by rw [hc]; exact hk) rfl

theorem Orders.replace (h : Orders call counter) {seq : ℕ} (hc : call c = .written seq) :
    Orders (Function.update call c (.replaced seq)) counter := by
  refine h.update le_rfl (fun k hk => .inl (by rw [hc]; exact hk))
    (fun k hk => .inl (by rw [hc]; exact hk)) (fun _ hk => absurd hk (Option.not_mem_none _))
    (fun k hk => .inr ?_) (fun _ hk => absurd hk (Option.not_mem_none _))
    (fun _ hk => absurd hk (Option.not_mem_none _))
  exact h.uses_lt c k (by rw [hc]; exact hk)

/-- Appending in order. -/
theorem Orders.append (h : Orders call counter) {seq : ℕ} (hc : call c = .replaced seq)
    (hfirst : ∀ d, d ≠ c → ∀ k ∈ (call d).lineDue, seq < k)
    (hp : p = .returned seq ∨ p = .raised (.ledger seq)) :
    Orders (Function.update call c p) counter := by
  have hids : p.identity = some seq ∧ p.placed = some seq ∧ p.appended = some seq ∧
      p.lineDue = none ∧ p.snapshotDue = none ∧ p.usesTmp = none := by
    rcases hp with rfl | rfl <;> exact ⟨rfl, rfl, rfl, rfl, rfl, rfl⟩
  refine h.update le_rfl (fun k hk => .inl ?_) (fun _ hk => absurd hk ?_)
    (fun _ hk => absurd hk ?_) (fun k hk => .inl ?_) (fun _ hk => absurd hk ?_)
    (fun k hk => .inr ?_)
  · rw [hids.1] at hk
    rw [hc]
    exact hk
  · rw [hids.2.2.2.1]
    exact Option.not_mem_none _
  · rw [hids.2.2.2.2.1]
    exact Option.not_mem_none _
  · rw [hids.2.1] at hk
    rw [hc]
    exact hk
  · rw [hids.2.2.2.2.2]
    exact Option.not_mem_none _
  · rw [hids.2.2.1] at hk
    rw [← Option.some.inj hk]
    exact hfirst

end

/-! ## The files -/

section

variable {args : ℕ → StatusArgs} {s s' : PubState} {c : ℕ} {p : PubCall}

theorem tmpAt_of_not_uses {a : StatusArgs} (h : p.usesTmp = none) : TmpAt a s p := by
  cases p with
  | opened _ _ | written _ => exact absurd h (Option.some_ne_none _)
  | _ => trivial

theorem placed_update (hp : p.placed = (s.call c).placed) (d : ℕ) :
    (Function.update s.call c p d).placed = (s.call d).placed := by
  by_cases hd : d = c
  · rw [hd, Function.update_self, hp]
  · rw [Function.update_of_ne hd]

/-- The snapshot stays where neither the calls behind it nor its file change. -/
theorem Files.of_snapshot (h : Files args s) (hcall : s'.call = Function.update s.call c p)
    (hp : p.placed = (s.call c).placed) (htmp_at : ∀ d, TmpAt (args d) s' (s'.call d))
    (htmp : ∀ fd ∈ s'.tmp, fd < s'.fresh ∧ s.status ≠ some fd) (hstatus : s'.status = s.status)
    (hfresh : s.fresh ≤ s'.fresh) (hfile : ∀ fd ∈ s.status, s'.file fd = s.file fd) :
    Files args s' := by
  have hplaced : ∀ d, (s'.call d).placed = (s.call d).placed := fun d => by
    rw [hcall, placed_update hp]
  have hsnapshot : s'.snapshot = s.snapshot := by
    rw [PubState.snapshot, PubState.snapshot, hstatus]
    cases hs : s.status with
    | none => rfl
    | some fd => exact congrArg some (hfile fd hs)
  refine ⟨htmp_at, ?_, ?_, ?_⟩
  · rw [hstatus]
    exact htmp
  · intro fd hfd
    rw [hstatus] at hfd
    exact (h.status_fresh fd hfd).trans_le hfresh
  · intro d seq hseq
    rw [hplaced] at hseq
    obtain ⟨e, top, htop, htext, hle⟩ := h.snapshot d seq hseq
    refine ⟨e, top, by rw [hplaced]; exact htop, hsnapshot.trans htext, ?_⟩
    intro i k hk
    rw [hplaced] at hk
    exact hle i k hk

/-- A call moves on and leaves the files alone. -/
theorem Files.stay (h : Files args s) (hcall : s'.call = Function.update s.call c p)
    (hp : p.placed = (s.call c).placed) (huses : p.usesTmp = none) (hfile : s'.file = s.file)
    (hfresh : s'.fresh = s.fresh) (htmp : s'.tmp = s.tmp) (hstatus : s'.status = s.status) :
    Files args s' := by
  refine h.of_snapshot hcall hp (fun d => ?_) ?_ hstatus hfresh.ge (fun fd _ => by rw [hfile])
  · by_cases hd : d = c
    · rw [hd, hcall, Function.update_self]
      exact tmpAt_of_not_uses huses
    · rw [hcall, Function.update_of_ne hd]
      have hat := h.tmp_at d
      cases hplace : s.call d with
      | opened seq fd =>
        rw [hplace] at hat
        rw [TmpAt, htmp, hfile]
        exact hat
      | written seq =>
        rw [hplace] at hat
        rw [TmpAt, htmp, hfile]
        exact hat
      | _ => trivial
  · rw [htmp, hfresh]
    exact h.tmp_fresh

/-- The only call that uses the temporary file changes it. -/
theorem Files.touch (h : Files args s) (hcall : s'.call = Function.update s.call c p)
    (hp : p.placed = (s.call c).placed) (hfree : ∀ d, d ≠ c → (s.call d).usesTmp = none)
    (hself : TmpAt (args c) s' p) (htmp : ∀ fd ∈ s'.tmp, fd < s'.fresh ∧ s.status ≠ some fd)
    (hstatus : s'.status = s.status) (hfresh : s.fresh ≤ s'.fresh)
    (hfile : ∀ fd ∈ s.status, s'.file fd = s.file fd) : Files args s' := by
  refine h.of_snapshot hcall hp (fun d => ?_) htmp hstatus hfresh hfile
  by_cases hd : d = c
  · rw [hd, hcall, Function.update_self]
    exact hself
  · rw [hcall, Function.update_of_ne hd]
    exact tmpAt_of_not_uses (hfree d hd)

/-- The temporary file becomes the snapshot. -/
theorem Files.replace (h : Files args s) {seq fd : ℕ} (hc : s.call c = .written seq)
    (htmp : s.tmp = some fd) (hfree : ∀ d, d ≠ c → (s.call d).usesTmp = none)
    (hplaced : ∀ d, ∀ k ∈ (s.call d).placed, k < seq) :
    Files args { s.move c (.replaced seq) with status := some fd, tmp := none } := by
  have hself : Function.update s.call c (.replaced seq) c = .replaced seq :=
    Function.update_self _ _ _
  refine ⟨fun d => ?_, fun _ hfd => absurd hfd (Option.not_mem_none _), ?_, ?_⟩
  · refine tmpAt_of_not_uses ?_
    show (Function.update s.call c (.replaced seq) d).usesTmp = none
    by_cases hd : d = c
    · rw [hd, hself]
      rfl
    · rw [Function.update_of_ne hd]
      exact hfree d hd
  · intro gd hgd
    rw [← Option.some.inj hgd]
    exact (h.tmp_fresh fd htmp).1
  · intro _ _ _
    refine ⟨c, seq, ?_, ?_, ?_⟩
    · show seq ∈ (Function.update s.call c (.replaced seq) c).placed
      rw [hself]
      rfl
    · have hat := h.tmp_at c
      rw [hc] at hat
      obtain ⟨gd, hgd, htext⟩ := hat
      rw [Option.some.inj (hgd.symm.trans htmp)] at htext
      exact congrArg some htext
    · intro e k hk
      change k ∈ (Function.update s.call c (.replaced seq) e).placed at hk
      by_cases he : e = c
      · rw [he, hself] at hk
        exact (Option.some.inj hk).ge
      · rw [Function.update_of_ne he] at hk
        exact (hplaced e k hk).le

end

/-! ## The ledger -/

section

variable {args : ℕ → StatusArgs} {s s' : PubState} {order : List (ℕ × ℕ)} {c : ℕ} {p : PubCall}

/-- A call that has not appended moves on and does not return. -/
theorem Ledger.stay (h : Ledger args s order) (hcall : s'.call = Function.update s.call c p)
    (hledger : s'.ledger = s.ledger) (hc : (s.call c).appended = none)
    (hp : ∀ seq, p ≠ .returned seq) : Ledger args s' order := by
  refine ⟨hledger.trans h.ledger_eq, ?_, ?_, h.increasing⟩
  · intro q hq
    have happended := h.order_mem q hq
    have hne : q.1 ≠ c := by
      intro heq
      rw [heq, hc] at happended
      exact absurd happended (Option.not_mem_none _)
    rw [hcall, Function.update_of_ne hne]
    exact happended
  · intro d seq hd
    rw [hcall] at hd
    by_cases hdc : d = c
    · rw [hdc, Function.update_self] at hd
      exact absurd hd (hp seq)
    · rw [Function.update_of_ne hdc] at hd
      exact h.returned_mem d seq hd

/-- A line is appended, in order. -/
theorem Ledger.append (h : Ledger args s order) {seq : ℕ}
    (hcall : s'.call = Function.update s.call c p)
    (hledger : s'.ledger = s.ledger ++ ((args c).ledgerBody seq ++ [nl]))
    (hc : (s.call c).appended = none) (hp : p = .returned seq ∨ p = .raised (.ledger seq))
    (hlast : ∀ d, d ≠ c → ∀ k ∈ (s.call d).appended, k < seq) :
    Ledger args s' (order ++ [(c, seq)]) := by
  have hne : ∀ q ∈ order, q.1 ≠ c := by
    intro q hq heq
    have happended := h.order_mem q hq
    rw [heq, hc] at happended
    exact absurd happended (Option.not_mem_none _)
  have hself : s'.call c = p := by rw [hcall, Function.update_self]
  have hother : ∀ d, d ≠ c → s'.call d = s.call d := fun d hd => by
    rw [hcall, Function.update_of_ne hd]
  refine ⟨?_, ?_, ?_, ?_⟩
  · rw [hledger, h.ledger_eq, List.map_append, List.map_singleton, lineFile_concat]
  · intro q hq
    rcases List.mem_append.mp hq with hq | hq
    · rw [hother q.1 (hne q hq)]
      exact h.order_mem q hq
    · rw [List.mem_singleton.mp hq, hself]
      rcases hp with rfl | rfl <;> rfl
  · intro d k hd
    by_cases hdc : d = c
    · rw [hdc, hself] at hd
      rcases hp with rfl | rfl
      · rw [hdc, ← PubCall.returned.inj hd]
        exact List.mem_append_right _ (List.mem_singleton.mpr rfl)
      · exact absurd hd PubCall.noConfusion
    · rw [hother d hdc] at hd
      exact List.mem_append_left _ (h.returned_mem d k hd)
  · rw [List.map_append, List.map_singleton]
    refine List.pairwise_append.mpr ⟨h.increasing, List.pairwise_singleton _ _, ?_⟩
    intro k hk m hm
    rw [List.mem_singleton.mp hm]
    obtain ⟨q, hq, rfl⟩ := List.mem_map.mp hk
    exact hlast q.1 (hne q hq) q.2 (h.order_mem q hq)

end

/-! ## One step -/

section

variable {args : ℕ → StatusArgs} {s s' : PubState} {order order' : List (ℕ × ℕ)} {c : ℕ}
  {p : PubCall}

/-- The pieces of the invariant behind a move. -/
theorem PubInv.update (h : PubInv args s order) (hcall : s'.call = Function.update s.call c p)
    (hstarted : c ∈ s'.started ∧ ∀ d ∈ s.started, d ∈ s'.started)
    (horders : Orders (Function.update s.call c p) s'.counter) (hfiles : Files args s')
    (hledger : Ledger args s' order') (hp : p ≠ .raised .missingTmp) : PubInv args s' order' := by
  refine ⟨fun d hd => ?_, hcall ▸ horders, hfiles, hledger, fun d => ?_⟩
  · by_cases hdc : d = c
    · rw [hdc]
      exact hstarted.1
    · rw [hcall, Function.update_of_ne hdc] at hd
      exact hstarted.2 d (h.started d hd)
  · rw [hcall]
    by_cases hdc : d = c
    · rw [hdc, Function.update_self]
      exact hp
    · rw [Function.update_of_ne hdc]
      exact h.unharmed d

/-- One call at a time uses the temporary file. -/
theorem PubInv.usesTmp_free (h : PubInv args s order) {seq : ℕ} (hc : (s.call c).usesTmp = some seq)
    {d : ℕ} (hd : d ≠ c) : (s.call d).usesTmp = none := by
  cases huses : (s.call d).usesTmp with
  | none => rfl
  | some k =>
    have hlt := h.orders.uses_lt c seq hc d hd k (PubCall.snapshotDue_of_usesTmp huses)
    have hgt := h.orders.uses_lt d k huses c hd.symm seq (PubCall.snapshotDue_of_usesTmp hc)
    omega

/-- What the condition says about the identities of the other calls. -/
theorem PubInv.first (h : PubInv args s order) {f : PubCall → Option ℕ}
    (hf : ∀ {q : PubCall} {k : ℕ}, k ∈ f q → k ∈ q.lineDue) {seq : ℕ} (hc : seq ∈ (s.call c).lineDue)
    (hall : (s.started.all fun d => (f (s.call d)).all (seq ≤ ·)) = true) :
    ∀ d, d ≠ c → ∀ k ∈ f (s.call d), seq < k := by
  intro d hd k hk
  have hstarted : d ∈ s.started := h.started d fun hidle => by
    have hline := hf hk
    rw [hidle] at hline
    exact absurd hline (Option.not_mem_none _)
  have hle : seq ≤ k := by
    have hthis := List.all_eq_true.mp hall d hstarted
    rw [Option.mem_def.mp hk] at hthis
    simpa using hthis
  have hne : seq ≠ k := by
    rintro rfl
    exact hd (h.orders.inj d c seq (hf hk) hc)
  omega

theorem PubInv.mem_started (h : PubInv args s order) (hc : s.call c ≠ .idle) :
    c ∈ s.started ∧ ∀ d ∈ s.started, d ∈ s.started :=
  ⟨h.started c hc, fun _ hd => hd⟩

/-- A call raises before its append, and touches no file. -/
theorem PubInv.raise (h : PubInv args s order) (hc : s.call c ≠ .idle)
    (hplaced : (s.call c).placed = none) {e : PubError} (he : ∀ seq, e ≠ .ledger seq)
    (hmissing : e ≠ .missingTmp) : PubInv args (s.move c (.raised e)) order := by
  have hnone : (PubCall.raised e).placed = none := by
    cases e with
    | ledger seq => exact absurd rfl (he seq)
    | _ => rfl
  have happended : (s.call c).appended = none := by
    cases happ : (s.call c).appended with
    | none => rfl
    | some k =>
      have hk := PubCall.placed_of_appended (Option.mem_def.mpr happ)
      rw [hplaced] at hk
      exact absurd hk (Option.not_mem_none k)
  refine h.update rfl (h.mem_started hc) (h.orders.raise he)
    (h.files.stay rfl (hnone.trans hplaced.symm) rfl rfl rfl rfl rfl)
    (h.ledger.stay rfl rfl happended fun seq => PubCall.noConfusion) ?_
  exact fun heq => hmissing (PubCall.raised.inj heq)

theorem PubInv.begin (h : PubInv args s order) (hc : s.call c = .idle) :
    PubInv args ({ s with counter := s.counter + 1, started := s.started ++ [c] }.move c
      (if (args c).validIdentity then .allocated (s.counter + 1) else .raised .identity)) order := by
  have hplaced : (s.call c).placed = none := by rw [hc]; rfl
  have happended : (s.call c).appended = none := by rw [hc]; rfl
  have hstarted : c ∈ s.started ++ [c] ∧ ∀ d ∈ s.started, d ∈ s.started ++ [c] :=
    ⟨List.mem_append_right _ (List.mem_singleton.mpr rfl), fun d hd => List.mem_append_left _ hd⟩
  split
  · exact h.update rfl hstarted h.orders.start
      (h.files.stay rfl hplaced.symm rfl rfl rfl rfl rfl)
      (h.ledger.stay rfl rfl happended fun seq => PubCall.noConfusion) PubCall.noConfusion
  · refine h.update rfl hstarted ?_ (h.files.stay rfl hplaced.symm rfl rfl rfl rfl rfl)
      (h.ledger.stay rfl rfl happended fun seq => PubCall.noConfusion) (by decide)
    have hraised : Orders (Function.update s.call c (.raised .identity)) s.counter :=
      h.orders.raise fun seq => PubError.noConfusion
    exact { hraised with le := fun d seq hseq =>
      ⟨(hraised.le d seq hseq).1, (hraised.le d seq hseq).2.trans (Nat.le_succ _)⟩ }

theorem PubInv.open (h : PubInv args s order) {seq : ℕ} (hc : s.call c = .allocated seq)
    (hfirst : ∀ d, d ≠ c → ∀ k ∈ (s.call d).snapshotDue, seq < k) :
    PubInv args (s.openTmp.2.move c (.opened seq s.openTmp.1)) order := by
  have hplaced : (s.call c).placed = none := by rw [hc]; rfl
  have happended : (s.call c).appended = none := by rw [hc]; rfl
  have hfree : ∀ d, d ≠ c → (s.call d).usesTmp = none := by
    intro d hd
    cases huses : (s.call d).usesTmp with
    | none => rfl
    | some k =>
      have hlt := hfirst d hd k (PubCall.snapshotDue_of_usesTmp huses)
      have hgt := h.orders.uses_lt d k huses c hd.symm seq (by rw [hc]; rfl)
      omega
  have hstarted := h.mem_started (c := c) (by rw [hc]; exact PubCall.noConfusion)
  rw [PubState.openTmp]
  cases htmp : s.tmp with
  | some fd =>
    have hfd := h.files.tmp_fresh fd htmp
    refine h.update rfl hstarted (h.orders.open hc hfirst)
      (h.files.touch rfl hplaced.symm hfree ⟨htmp, Function.update_self _ _ _⟩ ?_ rfl le_rfl ?_)
      (h.ledger.stay rfl rfl happended fun seq => PubCall.noConfusion) PubCall.noConfusion
    · intro gd hgd
      exact h.files.tmp_fresh gd hgd
    · intro gd hgd
      refine Function.update_of_ne (fun heq => hfd.2 ?_) _ _
      rw [← heq]
      exact hgd
  | none =>
    refine h.update rfl hstarted (h.orders.open hc hfirst)
      (h.files.touch rfl hplaced.symm hfree ⟨rfl, Function.update_self _ _ _⟩ ?_ rfl
        (Nat.le_succ _) ?_)
      (h.ledger.stay rfl rfl happended fun seq => PubCall.noConfusion) PubCall.noConfusion
    · intro gd hgd
      rw [← Option.some.inj hgd]
      refine ⟨Nat.lt_succ_self _, fun hstatus => ?_⟩
      exact absurd (h.files.status_fresh s.fresh hstatus) (lt_irrefl _)
    · intro gd hgd
      have hlt := h.files.status_fresh gd hgd
      exact Function.update_of_ne (by omega) _ _

theorem overwrite_nil (text : Bytes) : overwrite text [] = text := by
  rw [overwrite, List.drop_nil, List.append_nil]

/-- Writing the temporary file, or raising in it. -/
theorem PubInv.write (h : PubInv args s order) {seq fd : ℕ} (hc : s.call c = .opened seq fd)
    (text : Bytes) (hp : p = .raised .file ∨ p = .written seq ∧ text = (args c).snapshotText seq) :
    PubInv args ((s.setFile fd (overwrite text (s.file fd))).move c p) order := by
  have hplaced : (s.call c).placed = none := by rw [hc]; rfl
  have happended : (s.call c).appended = none := by rw [hc]; rfl
  have huses : (s.call c).usesTmp = some seq := by rw [hc]; rfl
  have hstarted := h.mem_started (c := c) (by rw [hc]; exact PubCall.noConfusion)
  obtain ⟨htmp, hempty⟩ : s.tmp = some fd ∧ s.file fd = [] := by
    have hat := h.files.tmp_at c
    rw [hc] at hat
    exact hat
  have hfd := h.files.tmp_fresh fd htmp
  have hfile : ∀ gd ∈ s.status, Function.update s.file fd (overwrite text (s.file fd)) gd = s.file gd := by
    intro gd hgd
    refine Function.update_of_ne (fun heq => hfd.2 ?_) _ _
    rw [← heq]
    exact hgd
  rcases hp with rfl | ⟨rfl, rfl⟩
  · refine h.update rfl hstarted (h.orders.raise fun seq => PubError.noConfusion)
      (h.files.touch rfl hplaced.symm (fun d hd => h.usesTmp_free huses hd) trivial
        h.files.tmp_fresh rfl le_rfl hfile)
      (h.ledger.stay rfl rfl happended fun seq => PubCall.noConfusion) (by decide)
  · refine h.update rfl hstarted (h.orders.write hc)
      (h.files.touch rfl hplaced.symm (fun d hd => h.usesTmp_free huses hd) ⟨fd, htmp, ?_⟩
        h.files.tmp_fresh rfl le_rfl hfile)
      (h.ledger.stay rfl rfl happended fun seq => PubCall.noConfusion) PubCall.noConfusion
    show Function.update s.file fd _ fd = _
    rw [Function.update_self, hempty, overwrite_nil]

theorem PubInv.replace (h : PubInv args s order) {seq fd : ℕ} (hc : s.call c = .written seq)
    (htmp : s.tmp = some fd) :
    PubInv args { s.move c (.replaced seq) with status := some fd, tmp := none } order := by
  have happended : (s.call c).appended = none := by rw [hc]; rfl
  have huses : (s.call c).usesTmp = some seq := by rw [hc]; rfl
  refine h.update rfl (h.mem_started (by rw [hc]; exact PubCall.noConfusion)) (h.orders.replace hc)
    (h.files.replace hc htmp (fun d hd => h.usesTmp_free huses hd) fun d k hk => ?_)
    (h.ledger.stay rfl rfl happended fun seq => PubCall.noConfusion) PubCall.noConfusion
  have hd : d ≠ c := by
    rintro rfl
    rw [hc] at hk
    exact absurd hk (Option.not_mem_none k)
  exact h.orders.placed_lt d k hk c hd.symm seq (by rw [hc]; rfl)

/-- The append, or raising in it. -/
theorem PubInv.append (h : PubInv args s order) {seq : ℕ} (hc : s.call c = .replaced seq)
    (hfirst : ∀ d, d ≠ c → ∀ k ∈ (s.call d).lineDue, seq < k)
    (hp : p = .returned seq ∨ p = .raised (.ledger seq)) {written : Bytes}
    (hwritten : written = (args c).ledgerBody seq ++ [nl] ∨ written = [] ∧ p = .raised (.ledger seq)) :
    ∃ order', PubInv args { s.move c p with ledger := s.ledger ++ written } order' := by
  have happended : (s.call c).appended = none := by rw [hc]; rfl
  have hplaced : p.placed = (s.call c).placed := by
    rw [hc]
    rcases hp with rfl | rfl <;> rfl
  have huses : p.usesTmp = none := by rcases hp with rfl | rfl <;> rfl
  have hmissing : p ≠ .raised .missingTmp := by rcases hp with rfl | rfl <;> simp
  have hstarted := h.mem_started (c := c) (by rw [hc]; exact PubCall.noConfusion)
  have hfiles : Files args { s.move c p with ledger := s.ledger ++ written } :=
    h.files.stay rfl hplaced huses rfl rfl rfl rfl
  rcases hwritten with rfl | ⟨rfl, rfl⟩
  · refine ⟨order ++ [(c, seq)], h.update rfl hstarted (h.orders.append hc hfirst hp) hfiles
      (h.ledger.append rfl rfl happended hp fun d hd k hk => ?_) hmissing⟩
    exact h.orders.appended_lt d k hk c hd.symm seq (by rw [hc]; rfl)
  · exact ⟨order, h.update rfl hstarted (h.orders.append hc hfirst hp) hfiles
      (h.ledger.stay rfl (List.append_nil _) happended fun seq => PubCall.noConfusion) hmissing⟩

/-- Every step in order keeps the invariant. -/
theorem PubInv.step (h : PubInv args s order) {e : PubEvent} (hgood : s.inOrder args e = true) :
    ∃ order', PubInv args (pubStep args s e).2 order' := by
  obtain ⟨c, io⟩ := e
  rw [PubState.inOrder] at hgood
  rw [pubStep, pubCallStep]
  dsimp only at hgood ⊢
  cases hc : s.call c with
  | idle =>
    rw [hc] at hgood
    have hio : io.fails = false := by simpa using hgood
    rw [hio]
    exact ⟨order, h.begin hc⟩
  | allocated seq =>
    rw [hc] at hgood
    dsimp only
    split
    · exact ⟨order, h.raise (by rw [hc]; exact PubCall.noConfusion) (by rw [hc]; rfl)
        (fun seq => PubError.noConfusion) (by decide)⟩
    · exact ⟨order, h.open hc (h.first PubCall.lineDue_of_snapshotDue (by rw [hc]; rfl) hgood)⟩
  | opened seq fd =>
    dsimp only
    split
    · exact ⟨order, h.write hc _ (.inl rfl)⟩
    · exact ⟨order, h.write hc _ (.inr ⟨rfl, rfl⟩)⟩
  | written seq =>
    dsimp only
    split
    · exact ⟨order, h.raise (by rw [hc]; exact PubCall.noConfusion) (by rw [hc]; rfl)
        (fun seq => PubError.noConfusion) (by decide)⟩
    · obtain ⟨fd, htmp, -⟩ : ∃ fd, s.tmp = some fd ∧ s.file fd = (args c).snapshotText seq := by
        have hat := h.files.tmp_at c
        rw [hc] at hat
        exact hat
      rw [htmp]
      exact ⟨order, h.replace hc htmp⟩
  | replaced seq =>
    rw [hc] at hgood
    simp only [Bool.and_eq_true, Bool.or_eq_true, Bool.not_eq_true', decide_eq_true_eq] at hgood
    have hfirst := h.first (c := c) (f := PubCall.lineDue) id (by rw [hc]; rfl) hgood.1
    dsimp only
    split
    · rename_i hfails
      refine h.append hc hfirst (.inr rfl) ?_
      rcases hgood.2 with (hnot | hzero) | hwhole
      · rw [hnot] at hfails
        exact absurd hfails Bool.false_ne_true
      · exact .inr ⟨by rw [hzero]; rfl, rfl⟩
      · refine .inl (List.take_of_length_le ?_)
        rw [List.length_append, List.length_singleton]
        omega
    · exact h.append hc hfirst (.inl rfl) (.inl rfl)
  | returned seq => exact ⟨order, h⟩
  | raised err => exact ⟨order, h⟩

end

/-! ## Whole runs -/

theorem PubInv.init (args : ℕ → StatusArgs) (counter : ℕ) (tmp status : Option Bytes) :
    PubInv args (.init counter tmp status) [] where
  started := fun _ h => absurd rfl h
  orders :=
    { le := fun _ _ h => absurd h (Option.not_mem_none _)
      inj := fun _ _ _ h => absurd h (Option.not_mem_none _)
      placed_lt := fun _ _ h => absurd h (Option.not_mem_none _)
      uses_lt := fun _ _ h => absurd h (Option.not_mem_none _)
      appended_lt := fun _ _ h => absurd h (Option.not_mem_none _) }
  files :=
    { tmp_at := fun _ => trivial
      tmp_fresh := fun fd hfd => by
        obtain ⟨_, _, rfl⟩ := Option.map_eq_some_iff.mp hfd
        refine ⟨Nat.zero_lt_two, fun hstatus => ?_⟩
        obtain ⟨_, _, heq⟩ := Option.map_eq_some_iff.mp hstatus
        exact absurd heq one_ne_zero
      status_fresh := fun fd hfd => by
        obtain ⟨_, _, rfl⟩ := Option.map_eq_some_iff.mp hfd
        exact one_lt_two
      snapshot := fun _ _ h => absurd h (Option.not_mem_none _) }
  ledger :=
    { ledger_eq := rfl
      order_mem := fun _ h => absurd h List.not_mem_nil
      returned_mem := fun _ _ h => absurd h PubCall.noConfusion
      increasing := List.Pairwise.nil }
  unharmed := fun _ => PubCall.noConfusion

/-- The calls of the lines are distinct. -/
theorem PubInv.nodup {args : ℕ → StatusArgs} {s : PubState} {order : List (ℕ × ℕ)}
    (h : PubInv args s order) : (order.map Prod.fst).Nodup := by
  have hpairs : order.Pairwise fun p q => p.2 < q.2 := List.pairwise_map.mp h.ledger.increasing
  refine List.pairwise_map.mpr (hpairs.imp_of_mem ?_)
  intro p q hp hq hlt heq
  have hp := h.ledger.order_mem p hp
  have hq := h.ledger.order_mem q hq
  rw [heq] at hp
  have hsame := Option.some.inj (hp.symm.trans hq)
  omega

/-- What the invariant says about the files. -/
theorem PubInv.toPublished {args : ℕ → StatusArgs} {s : PubState} {order : List (ℕ × ℕ)}
    (h : PubInv args s order) : Published args s order where
  lines := by
    rw [h.ledger.ledger_eq]
    refine splitlines_lineFile fun body hbody => ?_
    obtain ⟨p, -, rfl⟩ := List.mem_map.mp hbody
    exact (args p.1).ledgerBody_oneLine p.2
  complete := by
    rw [h.ledger.ledger_eq]
    exact hasPartialLine_lineFile _
  returned := fun c seq hc => by
    have hmem := h.ledger.returned_mem c seq hc
    exact ⟨hmem, List.count_eq_one_of_mem h.nodup (List.mem_map.mpr ⟨_, hmem, rfl⟩)⟩
  unharmed := h.unharmed
  increasing := h.ledger.increasing
  accepted := fun before seq rest stamp last heq => by
    have hincreasing := h.ledger.increasing
    have hpos : 0 < seq := by
      have hmem : seq ∈ order.map Prod.snd := by
        rw [heq]
        exact List.mem_append_right _ (List.mem_cons_self ..)
      obtain ⟨p, hp, rfl⟩ := List.mem_map.mp hmem
      have hplaced := PubCall.placed_of_appended (h.ledger.order_mem p hp)
      exact (h.orders.le p.1 p.2 (PubCall.identity_of_placed hplaced)).1
    have hmark : before.getLast?.getD 0 < seq := by
      cases hlast : before.getLast? with
      | none => exact hpos
      | some k =>
        rw [heq] at hincreasing
        exact (List.pairwise_append.mp hincreasing).2.2 k (List.mem_of_getLast? hlast) seq
          (List.mem_cons_self ..)
    rw [nvStatusIsFresh_of_pos hpos, if_neg (by omega)]
  snapshot := h.files.snapshot

/-- In every run whose calls keep the order of their identities, every call that returns
has appended exactly one line, no call raises because of another one, the ledger is in the
order of the identities, and the snapshot is the one of the greatest identity. -/
theorem published (args : ℕ → StatusArgs) (counter : ℕ) (tmp status : Option Bytes)
    (es : List PubEvent)
    (hgood : Machine.Meets (pubStep args) (fun s e => s.inOrder args e = true)
      (.init counter tmp status) es) :
    ∃ order, Published args (Machine.run (pubStep args) (.init counter tmp status) es) order := by
  have hinv : ∃ order, PubInv args (Machine.run (pubStep args) (.init counter tmp status) es) order :=
    Machine.run_inv_of_meets (pubStep args) (fun s e => s.inOrder args e = true)
      (fun s => ∃ order, PubInv args s order) (fun _ _ ⟨_, h⟩ he => h.step he)
      ⟨[], PubInv.init args counter tmp status⟩ hgood
  obtain ⟨order, h⟩ := hinv
  exact ⟨order, h.toPublished⟩

/-! ## Runs of two calls -/

/-- An answer to `GET /health`. -/
def healthArgs : StatusArgs where
  method := ascii "GET"
  path := ascii "/health"
  httpCode := 200
  timeout := false
  recovered := false
  latencyMs := 3
  bodyHash16 := 0
  ncovDelta := 0
  ncovTotal := 0
  nall := 0
  isException := 0
  recoverMs := 0
  validationReject := false
  contentSha256 := none
  contentLength := none
  contentDisposition := none
  legacySeq := 1
  tsMs := 0

/-- The next steps of the given calls, without a fault. -/
def pubSteps (calls : List ℕ) : List PubEvent := calls.map fun c => ⟨c, ⟨false, 0⟩⟩

/-- The second call starts while the first one is on its way. -/
theorem published_pipeline :
    ∃ order, Published (fun _ => healthArgs)
      (Machine.run (pubStep fun _ => healthArgs) (.init 41 none none)
        (pubSteps [0, 1, 0, 0, 0, 1, 1, 0, 1, 1])) order :=
  published (fun _ => healthArgs) 41 none none _ (by decide)

/-- Two calls that use the temporary file together, and two calls of which the second
overtakes the first. -/
theorem published_fails :
    (Machine.run (pubStep fun _ => healthArgs) (.init 0 none none)
        (pubSteps [0, 1, 0, 1, 0, 1, 0, 1])).call 1 = .raised .missingTmp ∧
      (Machine.run (pubStep fun _ => healthArgs) (.init 0 none none)
        (pubSteps [0, 1, 1, 1, 1, 1, 0, 0, 0, 0])).ledger =
          lineFile [healthArgs.ledgerBody 2, healthArgs.ledgerBody 1] ∧
      (Machine.run (pubStep fun _ => healthArgs) (.init 0 none none)
        (pubSteps [0, 1, 1, 1, 1, 1, 0, 0, 0, 0])).snapshot = some (healthArgs.snapshotText 1) := by
  decide +kernel

end AflNv
