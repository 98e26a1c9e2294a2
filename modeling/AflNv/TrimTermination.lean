import AflNv.TrimSchedule

/-!
# When trimming returns

The schedule of attempts is finite, so `trim_case` returns as soon as every
attempt of it gets through the validity filter.  On a rejection the inner loop
goes on without a change, and the same buffer is checked again: the call returns
exactly when each attempt in turn is accepted at some later check.
-/

namespace AflNv

open AflNv.Lib

section

variable {R : Type} (cfg : AflCfg R) (env : TrimEnv) (q : QueueEntry) (afl : Afl R)

/-- The loops of `trim_case` end exactly when the filter accepts the attempts of the
schedule, one after the other. -/
theorem loops_end_iff :
    (∃ n, ((trimStep cfg env q.execCksum)^[n] (.init q afl)).vars.pc = .done) ↔
      ∃ idx : ℕ → ℕ, StrictMono idx ∧ ∀ k,
        (trimSchedule q (env.same q.execCksum) k).pc ≠ .done →
          filterAccepts cfg env (idx k) (trimSchedule q (env.same q.execCksum) k) = true := by
  let L := trimLoop (env.same q.execCksum) (filterAccepts cfg env)
  have habs : (TrimState.init q afl).abs = ⟨0, 0, (TrimVars.init q).settle⟩ := rfl
  have hchain := chain_trimLoop q (env.same q.execCksum) (filterAccepts cfg env)
  have hhalts := Polling.Loop.halts_iff (L := L) (TrimVars.init q).settle
  have hfinite : ∃ m, L.done (L.chain (TrimVars.init q).settle m) = true := by
    obtain ⟨m, -, hm⟩ := trimSchedule_finite q (env.same q.execCksum)
    exact ⟨m, decide_eq_true (by rw [hchain]; exact hm)⟩
  have hserved : (∃ idx : ℕ → ℕ, StrictMono idx ∧ ∀ k,
      L.done (L.chain (TrimVars.init q).settle k) = false →
        L.accepts (idx k) (L.chain (TrimVars.init q).settle k) = true) ↔
      ∃ idx : ℕ → ℕ, StrictMono idx ∧ ∀ k,
        (trimSchedule q (env.same q.execCksum) k).pc ≠ .done →
          filterAccepts cfg env (idx k) (trimSchedule q (env.same q.execCksum) k) = true := by
    refine exists_congr fun idx => and_congr_right fun _ => forall_congr' fun k => ?_
    rw [hchain k]
    exact imp_congr_left decide_eq_false_iff_not
  rw [← hserved]
  refine Iff.trans ?_ (hhalts.trans (and_iff_right hfinite))
  rw [← habs]
  constructor
  · rintro ⟨n, hn⟩
    obtain ⟨m, hm⟩ := Polling.iterate_abs
      (fun s => (trimStep_abs cfg env q.execCksum s).imp_right And.left) (.init q afl) n
    refine ⟨m, ?_⟩
    rw [← hm]
    refine decide_eq_true ?_
    show ((trimStep cfg env q.execCksum)^[n] (.init q afl)).vars.settle.pc = .done
    rw [TrimVars.settle_of_settled (.inl hn)]
    exact hn
  · rintro ⟨m, hm⟩
    obtain ⟨n, hn⟩ := Polling.exists_iterate_abs (fun s : TrimState R => s.vars.rank)
      (trimStep_abs cfg env q.execCksum) (.init q afl) m
    rw [← hn] at hm
    have hover : ((trimStep cfg env q.execCksum)^[n] (.init q afl)).vars.settle.pc = .done :=
      of_decide_eq_true hm
    obtain ⟨n', hvars, -⟩ := exists_settled cfg env q.execCksum
      ((trimStep cfg env q.execCksum)^[n] (.init q afl))
    refine ⟨n' + n, ?_⟩
    rw [Function.iterate_add_apply, hvars]
    exact hover

/-- `trim_case` returns exactly when a custom mutator trims, the entry is too short
to trim, the filter is off, or there are increasing checks at which it accepts the
buffers of the successive attempts. -/
theorem trimCase_returns_iff :
    (∃ fuel, (trimCase cfg env q afl fuel).isSome = true) ↔
      cfg.testcase.customMutators.any CustomMutator.hasTrim = true ∨ q.inBuf.length < 5 ∨
        cfg.nvTask.enableValidity = false ∨
        ∃ idx : ℕ → ℕ, StrictMono idx ∧ ∀ k,
          let v := trimSchedule q (env.same q.execCksum) k
          v.pc ≠ .done →
            (nvValidityCheck cfg.target cfg.nvTask (env.replies (idx k)) v.inBuf).isReject =
              false := by
  by_cases hcustom : cfg.testcase.customMutators.any CustomMutator.hasTrim = true
  · exact iff_of_true ⟨0, by rw [trimCase, if_pos hcustom]; rfl⟩ (.inl hcustom)
  by_cases hshort : q.inBuf.length < 5
  · exact iff_of_true ⟨0, by rw [trimCase, if_neg hcustom, if_pos hshort]; rfl⟩
      (.inr (.inl hshort))
  have hloops : (∃ fuel, (trimCase cfg env q afl fuel).isSome = true) ↔
      ∃ n, ((trimStep cfg env q.execCksum)^[n] (.init q afl)).vars.pc = .done := by
    refine exists_congr fun n => ?_
    simp only [trimCase, if_neg hcustom, if_neg hshort]
    split_ifs with hdone
    · exact iff_of_true rfl hdone
    · exact iff_of_false (by simp) hdone
  rw [hloops, loops_end_iff, or_iff_right hcustom, or_iff_right hshort]
  cases henable : cfg.nvTask.enableValidity with
  | false =>
    refine iff_of_true ⟨id, strictMono_id, fun k _ => ?_⟩ (.inl rfl)
    simp [filterAccepts, henable]
  | true => simp [filterAccepts, henable]

/-- An entry whose bytes the filter rejects is never trimmed to an end: its first
attempt is checked again and again. -/
theorem trimCase_none_of_request
    (hcustom : cfg.testcase.customMutators.any CustomMutator.hasTrim = false)
    (hlen : 5 ≤ q.inBuf.length) (henable : cfg.nvTask.enableValidity = true)
    (hreq : (nvRequestCheck cfg.target q.inBuf).isReject = true) (fuel : ℕ) :
    trimCase cfg env q afl fuel = none := by
  have hloops : ¬ ∃ n, ((trimStep cfg env q.execCksum)^[n] (.init q afl)).vars.pc = .done := by
    rw [loops_end_iff]
    rintro ⟨idx, -, hidx⟩
    obtain ⟨hfirst, hattempt⟩ := TrimVars.settle_init hlen
    have hzero : trimSchedule q (env.same q.execCksum) 0 = (TrimVars.init q).advance := hfirst
    have hbuf : (TrimVars.init q).advance.inBuf = q.inBuf := by
      rw [← hfirst]
      exact (TrimVars.settled_settle (.init q)).inBuf
    have hpc : (TrimVars.init q).advance.pc ≠ .done := fun hdone => by
      simp [TrimVars.atAttempt, hdone] at hattempt
    have haccepts := hidx 0 (by rw [hzero]; exact hpc)
    rw [hzero, filterAccepts, hbuf, henable,
      nvValidityCheck_isReject_of_request hreq] at haccepts
    exact absurd haccepts (by decide)
  rw [trimCase, if_neg (by simp [hcustom]), if_neg (by omega)]
  exact if_neg fun hdone => hloops ⟨fuel, hdone⟩

end

/-! ## A seed without a request line -/

/-- A fuzzer without custom mutators and ledgers, with the filter on or off. -/
def trimCfg (enableValidity : Bool) : AflCfg ℚ where
  lib := .ofDocs []
  fmt := ratFmt
  target := ⟨false, []⟩
  nvTask := ⟨enableValidity, .finite 0, none, 0⟩
  testcase := .plain
  audit := ⟨none, none⟩
  nvStatusPath := none
  outDir := ascii "out"

/-- Every execution ends well, and `cksum` holds the same value behind all of
them. -/
def trimEnv (cksum : UInt64) : TrimEnv where
  replies := fun _ => .fail
  runs := fun _ => ⟨⟨.ok, .none, ⟨none, fun _ => none⟩⟩, cksum⟩

/-- Six bytes and no newline. -/
def seedEntry : QueueEntry := ⟨ascii "abcdef", 7, by decide⟩

/-- With the filter on, trimming such a seed does not return. -/
theorem trim_hangs :
    ¬ ∃ fuel, (trimCase (trimCfg true) (trimEnv 0) seedEntry (.init (.init none)) fuel).isSome =
      true := by
  have hnone := trimCase_none_of_request (trimCfg true) (trimEnv 0) seedEntry
    (.init (.init none)) (by decide) (by decide) rfl (by decide)
  simp [hnone]

end AflNv
