import AflNv.ForkServer

/-!
# The runs over a fork server

* `runs_isolated` is about all interleavings: what a run reports is an end of its own test case, and
  nothing else runs until the trace has been read.
* `run_completes` says that a run is over after 17 steps of all but the target, whatever the target
  does: `State.work` is what is left of it, and each of these steps does a part.
-/

namespace AflNv.ForkServer

/-! ## What is reported -/

/-- The test case of the current run. -/
def State.current (s : State T) : List T :=
  match s.fuzzer.pc with
  | .idle => []
  | _ => s.testcase.toList

section

variable {tgt : Target T} {s s' : State T} {kind : Kind T} {ts : List T}

theorem log_step (hstep : Step tgt kind s s') :
    s'.log.map Entry.testcase ++ s'.current =
      s.log.map Entry.testcase ++ s.current ++ kind.started := by
  cases hstep with
  | load t hpc => simp [State.current, hpc, Kind.started]
  | clear hpc => simp [State.current, hpc, Kind.started]
  | request hpc => simp [State.current, hpc, Kind.started]
  | readPid hpc hst => simp [State.current, hpc, Kind.started]
  | expire hpc hst => simp [State.current, hpc, Kind.started]
  | kill hpc hpid => simp [State.current, hpc, Kind.started]
  | readStatus hpc hst htestcase hpid =>
    obtain hpc | hpc := hpc <;> simp [State.current, hpc, Kind.started, htestcase]
  | proc hproc =>
    rw [hproc.started, List.append_nil]
    rfl
  | _ => exact (List.append_nil _).symm

theorem log_of_reached (h : Reached tgt ts s) : s.log.map Entry.testcase ++ s.current = ts := by
  induction h with
  | init => rfl
  | step _ hstep ih => rw [log_step hstep, ih]

theorem Inv.not_running (h : Inv tgt s) (hpc : s.fuzzer.pc.isBetween = true) (p : ℕ) :
    (s.proc p).isRunning = false := by
  by_cases hp : p = s.server.childPid
  · rw [hp]
    exact (h.between hpc).parked.not_running
  · rw [h.alone p hp]
    rfl

/-- The runs are reported once and in order.  What a run reports is a timeout or an end of its own
test case, and its trace is of that alone; between two runs nothing is under way in the pipes and no
process runs; and there is never a second process. -/
theorem runs_isolated (h : Reached tgt ts s) :
    s.log.map Entry.testcase ++ s.current = ts ∧
      (∀ e ∈ s.log, e.Ok tgt) ∧
      (s.fuzzer.pc.isBetween = true →
        s.ctl = [] ∧ s.st = [] ∧ ∀ p, (s.proc p).isRunning = false) ∧
      ∀ p q, s.proc p ≠ .free → s.proc q ≠ .free → p = q := by
  have hinv := inv_of_reached h
  refine ⟨log_of_reached h, hinv.log, fun hpc => ?_, fun p q hp hq => ?_⟩
  · have hbetween := hinv.between hpc
    exact ⟨hbetween.ctl, hbetween.st, hinv.not_running hpc⟩
  · rw [hinv.eq_childPid hp, hinv.eq_childPid hq]

end

/-! ## A run comes to an end -/

def FuzzerPc.work : FuzzerPc → ℕ
  | .idle => 0
  | .loaded => 16
  | .cleared => 15
  | .awaitPid => 5
  | .awaitStatus => 4
  | .expired => 3
  | .awaitKilled => 1

def ServerPc.work : ServerPc → ℕ
  | .awaitCmd => 0
  | .decide => 8
  | .reap => 7
  | .spawn => 6
  | .sendPid => 5
  | .waiting => 3
  | .sendStatus _ => 2

/-- A killed process has to die. -/
def Proc.work : Proc T → ℕ
  | .running _ _ true => 1
  | .stopped _ _ true => 1
  | _ => 0

/-- The steps that are left of a run, at most, the steps of the target aside. -/
def State.work (s : State T) : ℕ :=
  s.fuzzer.pc.work + s.server.pc.work + 9 * s.ctl.length + s.st.length +
    (s.proc s.server.childPid).work

/-- `n` steps of the system, and any number of steps of the target in between. -/
inductive Steps (tgt : Target T) : ℕ → State T → State T → Prop where
  | refl (s : State T) : Steps tgt 0 s s
  | system {n : ℕ} {s s' s'' : State T} (h : Steps tgt n s s') (hstep : Step tgt .system s' s'') :
    Steps tgt (n + 1) s s''
  | target {n : ℕ} {s s' s'' : State T} (h : Steps tgt n s s') (hstep : Step tgt .target s' s'') :
    Steps tgt n s s''

section

variable {tgt : Target T} {s s' : State T} {ts : List T}

theorem Proc.work_le_one (q : Proc T) : q.work ≤ 1 := by
  unfold Proc.work
  split <;> decide

theorem ProcStep.work_lt {testcase : Option T} {q q' : Proc T}
    (h : ProcStep tgt testcase .system q q') : q'.work < q.work := by
  cases h <;> exact Nat.one_pos

theorem ProcStep.work_le {testcase : Option T} {q q' : Proc T}
    (h : ProcStep tgt testcase .target q q') : q'.work ≤ q.work := by
  cases h with
  | @read t cycleCnt sigkill htestcase => cases sigkill <;> exact Nat.le_refl _
  | @finish t cycleCnt sigkill o hends =>
    cases o with
    | returned =>
      unfold Target.after
      split_ifs
      · cases sigkill <;> exact Nat.le_refl _
      · exact Nat.zero_le _
    | exited code => exact Nat.zero_le _
    | signaled sig => exact Nat.zero_le _

theorem Proc.work_kill (q : Proc T) : q.kill.work ≤ q.work + 1 :=
  (Proc.work_le_one _).trans (Nat.le_add_left 1 _)

theorem Proc.work_cont (q : Proc T) : q.cont.work ≤ q.work := by
  rcases q with _ | ⟨_, _, _⟩ | ⟨_, _, _ | _⟩ | _ <;> exact Nat.le_refl _

theorem work_lt (h : Inv tgt s) (hstep : Step tgt .system s s') : s'.work < s.work := by
  cases hstep with
  | clear hpc => simp [State.work, hpc, FuzzerPc.work]
  | request hpc =>
    simp only [State.work, hpc, FuzzerPc.work, List.length_append, List.length_singleton]
    omega
  | readPid hpc hst =>
    simp only [State.work, hpc, FuzzerPc.work, hst, List.length_cons]
    omega
  | expire hpc hst => simp [State.work, hpc, FuzzerPc.work]
  | @kill _ p hpc hpid =>
    have hkill : (Function.update s.proc p (s.proc p).kill s.server.childPid).work ≤
        (s.proc s.server.childPid).work + 1 := by
      rw [Function.update_apply]
      split_ifs with hp
      · rw [hp]
        exact Proc.work_kill _
      · exact Nat.le_succ _
    simp only [State.work, hpc, FuzzerPc.work]
    omega
  | readStatus hpc hst htestcase hpid =>
    obtain hpc | hpc := hpc <;>
      simp only [State.work, hpc, FuzzerPc.work, hst, List.length_cons] <;> omega
  | readCmd hpc hctl =>
    simp only [State.work, hpc, ServerPc.work, hctl, List.length_cons]
    omega
  | decideReap hpc hold => simp [State.work, hpc, ServerPc.work]
  | decideSpawn hpc hold => simp [State.work, hpc, ServerPc.work]
  | reap hpc hproc =>
    simp only [State.work, hpc, ServerPc.work, Function.update_self, Proc.work]
    omega
  | fork hpc hstopped hproc =>
    simp only [State.work, hpc, ServerPc.work, Function.update_self, Proc.work]
    omega
  | cont hpc hstopped =>
    have hcont := Proc.work_cont (s.proc s.server.childPid)
    simp only [State.work, hpc, ServerPc.work, Function.update_self]
    omega
  | sendPid hpc =>
    simp only [State.work, hpc, ServerPc.work, List.length_append, List.length_singleton]
    omega
  | waitDead hpc hproc =>
    simp only [State.work, hpc, ServerPc.work, Function.update_self, Proc.work]
    omega
  | @waitStopped _ cycleCnt sigkill hpc hpersistent hproc =>
    have hsame : (Proc.stopped (T := T) cycleCnt true sigkill).work =
        (s.proc s.server.childPid).work := by
      rw [hproc]
      cases sigkill <;> rfl
    simp only [State.work, hpc, ServerPc.work, Function.update_self]
    omega
  | sendStatus hpc =>
    simp only [State.work, hpc, ServerPc.work, List.length_append, List.length_singleton]
    omega
  | proc hproc =>
    obtain rfl := h.eq_childPid hproc.ne_free
    have hlt := hproc.work_lt
    simp only [State.work, Function.update_self]
    omega

theorem work_le (hstep : Step tgt .target s s') : s'.work ≤ s.work := by
  cases hstep with
  | @proc _ _ p q hproc =>
    have hle : (Function.update s.proc p q s.server.childPid).work ≤
        (s.proc s.server.childPid).work := by
      rw [Function.update_apply]
      split_ifs with hp
      · rw [hp]
        exact hproc.work_le
      · exact Nat.le_refl _
    simp only [State.work]
    omega
  | hit hproc => exact Nat.le_refl _

theorem AtServer.work_le {sent : List Msg} (h : AtServer tgt s sent) :
    s.server.pc.work + 9 * s.ctl.length + sent.length ≤ 9 := by
  unfold AtServer at h
  dsimp only at h
  split at h <;> rename_i hpc <;> rw [hpc]
  · obtain ⟨v, hctl, rfl, -⟩ | ⟨w, hctl, rfl, -⟩ := h <;> simp [hctl, ServerPc.work]
  all_goals
    obtain ⟨hctl, rfl, -⟩ := h
    simp [hctl, ServerPc.work]

theorem AtFuzzer.work_le {sent : List Msg} (h : AtFuzzer s sent) :
    s.fuzzer.pc.work + s.st.length ≤ 5 + sent.length := by
  unfold AtFuzzer at h
  split at h <;> rename_i hpc
  · rw [hpc, h.2]
    exact Nat.le_refl _
  · simp only [hpc, h.2.2, FuzzerPc.work, List.length_cons]
    omega
  · simp only [hpc, h.2.2, FuzzerPc.work, List.length_cons]
    omega
  · simp only [hpc, h.2, FuzzerPc.work, List.length_cons]
    omega
  · cases h

theorem Inv.work_le (h : Inv tgt s) : s.work ≤ 17 := by
  have hproc := Proc.work_le_one (s.proc s.server.childPid)
  unfold State.work
  obtain hbetween | ⟨sent, hserver, hfuzzer⟩ := h.phase
  · have hpc : s.fuzzer.pc.work ≤ 16 := by cases s.fuzzer.pc <;> decide
    simp only [hbetween.ctl, hbetween.st, hbetween.server, ServerPc.work, List.length_nil]
    omega
  · have hserver := hserver.work_le
    have hfuzzer := hfuzzer.work_le
    omega

/-- A killed process can die. -/
theorem enabled_of_dying {p : ℕ} {q : Proc T} (hproc : s.proc p = q)
    (hdie : ProcStep tgt s.testcase .system q (.zombie (.signaled 9))) :
    ∃ s', Step tgt .system s s' :=
  ⟨_, .proc (p := p) (hproc.symm ▸ hdie)⟩

/-- The status is in the pipe. -/
theorem AtFuzzer.enabled {w : WaitStatus}
    (h : AtFuzzer s [.pid s.server.childPid, .status w]) (htestcase : ∃ t, s.testcase = some t) :
    ∃ s', Step tgt .system s s' := by
  obtain ⟨t, htestcase⟩ := htestcase
  unfold AtFuzzer at h
  split at h <;> rename_i hpc
  · exact ⟨_, .readPid hpc h.2.symm⟩
  · exact ⟨_, .readStatus (.inl hpc) (List.cons.inj h.2.2).2.symm htestcase rfl⟩
  · exact ⟨_, .kill hpc h.2.1⟩
  · exact ⟨_, .readStatus (.inr hpc) (List.cons.inj h.2).2.symm htestcase rfl⟩
  · cases h

/-- The server waits for the process: it is told of, it dies, or the fuzzer waits no longer. -/
theorem AtFuzzer.enabled_of_busy (h : AtFuzzer s [.pid s.server.childPid])
    (hpc : s.server.pc = .waiting)
    (hbusy : Busy tgt s.testcase s.fuzzer.lastRunTimedOut (s.proc s.server.childPid)) :
    ∃ s', Step tgt .system s s' := by
  unfold AtFuzzer at h
  split at h <;> rename_i hfuzzer
  · exact ⟨_, .readPid hfuzzer h.2.symm⟩
  · exact ⟨_, .expire hfuzzer (List.cons.inj h.2.2).2.symm⟩
  · exact ⟨_, .kill hfuzzer h.2.1⟩
  · rw [h.1] at hbusy
    generalize hproc : s.proc s.server.childPid = q at hbusy
    cases hbusy with
    | started => exact enabled_of_dying hproc .dieRunning
    | reading htestcase => exact enabled_of_dying hproc .dieRunning
    | stopped hpersistent htestcase hends => exact ⟨_, .waitStopped hpc hpersistent hproc⟩
    | zombie hdead hstatus => exact ⟨_, .waitDead hpc hproc⟩
  · cases h

/-- While a run is under way the system can go on, whatever the target does. -/
theorem Inv.enabled (h : Inv tgt s) (hpc : s.fuzzer.pc ≠ .idle) : ∃ s', Step tgt .system s s' := by
  obtain hbetween | ⟨sent, hserver, hfuzzer⟩ := h.phase
  · have hpcs := hbetween.pc
    cases hfuzzer : s.fuzzer.pc <;> simp [hfuzzer, FuzzerPc.isBetween] at hpc hpcs
    · exact ⟨_, .clear hfuzzer⟩
    · exact ⟨_, .request hfuzzer⟩
  unfold AtServer at hserver
  dsimp only at hserver
  split at hserver <;> rename_i hpcs
  · obtain ⟨v, hctl, -⟩ | ⟨w, -, rfl, -⟩ := hserver
    · exact ⟨_, .readCmd hpcs hctl⟩
    · exact hfuzzer.enabled (h.testcase.resolve_left hpc)
  · by_cases hold : s.server.childStopped = true ∧ s.server.wasKilled = true
    · exact ⟨_, .decideReap hpcs hold⟩
    · exact ⟨_, .decideSpawn hpcs hold⟩
  · obtain ⟨-, -, -, hdying⟩ := hserver
    generalize hproc : s.proc s.server.childPid = q at hdying
    cases hdying with
    | stopped => exact enabled_of_dying hproc .dieStopped
    | zombie => exact ⟨_, .reap hpcs hproc⟩
  · obtain ⟨-, -, hparked⟩ := hserver
    cases hstopped : s.server.childStopped with
    | true => exact ⟨_, .cont hpcs hstopped⟩
    | false =>
      rw [hstopped] at hparked
      generalize hproc : s.proc s.server.childPid = q at hparked
      cases hparked
      exact ⟨_, .fork hpcs hstopped hproc⟩
  · exact ⟨_, .sendPid hpcs⟩
  · obtain ⟨-, rfl, -, hbusy⟩ := hserver
    exact hfuzzer.enabled_of_busy hpcs hbusy
  · exact ⟨_, .sendStatus hpcs⟩

theorem Steps.inv {n : ℕ} (h : Inv tgt s) (hsteps : Steps tgt n s s') :
    Inv tgt s' ∧ n + s'.work ≤ s.work := by
  induction hsteps with
  | refl => exact ⟨h, (Nat.zero_add _).le⟩
  | system _ hstep ih =>
    obtain ⟨hinv, hwork⟩ := ih h
    have hlt := work_lt hinv hstep
    exact ⟨inv_step hinv hstep, by omega⟩
  | target _ hstep ih =>
    obtain ⟨hinv, hwork⟩ := ih h
    have hle := work_le hstep
    exact ⟨inv_step hinv hstep, by omega⟩

/-- A run is over after at most 17 steps of the fuzzer, the server and the signals, in whatever
order they are taken and whatever the target does; and before that one of them can be taken. -/
theorem run_completes {n : ℕ} (h : Reached tgt ts s) (hsteps : Steps tgt n s s') :
    n ≤ 17 ∧ (s'.fuzzer.pc = .idle ∨ ∃ s'', Step tgt .system s' s'') := by
  obtain ⟨hinv, hwork⟩ := hsteps.inv (inv_of_reached h)
  have hle := (inv_of_reached h).work_le
  exact ⟨by omega, or_iff_not_imp_left.mpr hinv.enabled⟩

end

/-- A target with a loop, which a 7 crashes. -/
def crashOn7 : Target ℕ := ⟨true, 1000, fun t o => o = if t = 7 then .signaled 11 else .returned⟩

def loaded7 : State ℕ :=
  ⟨⟨.loaded, false, none⟩, ⟨.awaitCmd, false, 0, false⟩, [], [], fun _ => .free, some 7, [], []⟩

theorem reached_loaded7 : Reached crashOn7 [7] loaded7 := Reached.init.step (.load 7 rfl)

/-! ### Whole runs -/

section

variable {T : Type} {tgt : Target T} {ts : List T} {s s' : State T}

theorem Reached.system (h : Reached tgt ts s) (hstep : Step tgt .system s s') :
    Reached tgt ts s' := by
  have hs := h.step hstep
  rwa [show ts ++ (Kind.system : Kind T).started = ts from List.append_nil ts] at hs

theorem Reached.target (h : Reached tgt ts s) (hstep : Step tgt .target s s') :
    Reached tgt ts s' := by
  have hs := h.step hstep
  rwa [show ts ++ (Kind.target : Kind T).started = ts from List.append_nil ts] at hs

variable {timedOut stopped killed : Bool} {childPid : Option ℕ} {p : ℕ} {proc : ℕ → Proc T}
  {testcase : Option T} {trace : List T} {log : List (Entry T)} {t : T} {cycleCnt : UInt32}

/-- The fuzzer asks for a run. -/
theorem Reached.requested (h : Reached tgt ts ⟨⟨.idle, timedOut, childPid⟩,
      ⟨.awaitCmd, killed, p, stopped⟩, [], [], proc, testcase, trace, log⟩) (t : T) :
    Reached tgt (ts ++ [t]) ⟨⟨.awaitPid, false, childPid⟩, ⟨.decide, timedOut, p, stopped⟩,
      [], [], proc, some t, [], log⟩ :=
  (((h.step (.load t rfl)).system (.clear rfl)).system (.request rfl)).system (.readCmd rfl rfl)

/-- The process reads the test case, and hits an edge. -/
theorem Reached.hit (h : Reached tgt ts ⟨⟨.awaitPid, false, childPid⟩,
      ⟨.sendPid, killed, p, false⟩, [], [],
      Function.update proc p (.running none cycleCnt false), some t, [], log⟩) :
    Reached tgt ts ⟨⟨.awaitStatus, false, some p⟩, ⟨.waiting, killed, p, false⟩, [], [],
      Function.update proc p (.running (some t) cycleCnt false), some t, [t], log⟩ := by
  have hread : ProcStep tgt (some t) .target
      (Function.update proc p (.running none cycleCnt false) p)
      (.running (some t) cycleCnt false) := by
    rw [Function.update_self]
    exact .read rfl
  have hreads := ((h.system (.sendPid rfl)).system (.readPid rfl rfl)).target (.proc hread)
  rw [Function.update_idem] at hreads
  exact hreads.target (.hit (Function.update_self ..))

variable (h : Reached tgt ts ⟨⟨.awaitStatus, false, some p⟩, ⟨.waiting, killed, p, false⟩, [], [],
  Function.update proc p (.running (some t) cycleCnt false), some t, trace, log⟩)

include h

/-- It comes back to the loop, and stops. -/
theorem Reached.returned (hpersistent : tgt.isPersistent = true) (hcnt : cycleCnt - 1 ≠ 0)
    (hends : tgt.ends t .returned) :
    Reached tgt ts ⟨⟨.idle, false, some p⟩, ⟨.awaitCmd, killed, p, true⟩, [], [],
      Function.update proc p (.stopped (cycleCnt - 1) true false), some t, trace,
      log ++ [⟨t, .ok, trace⟩]⟩ := by
  have hfinish : ProcStep tgt (some t) .target
      (Function.update proc p (.running (some t) cycleCnt false) p)
      (.stopped (cycleCnt - 1) false false) := by
    have hafter : tgt.after cycleCnt false .returned = .stopped (cycleCnt - 1) false false :=
      if_pos ⟨hpersistent, hcnt⟩
    rw [Function.update_self, ← hafter]
    exact .finish hends
  have hstopped := (h.target (.proc hfinish)).system
    (.waitStopped rfl hpersistent (Function.update_self ..))
  simp only [Function.update_idem] at hstopped
  have hsent := hstopped.system (.sendStatus rfl)
  exact hsent.system (.readStatus (t := t) (w := .stopped) (.inl rfl) rfl rfl rfl)

/-- It crashes. -/
theorem Reached.crashed {sig : ℕ} (hends : tgt.ends t (.signaled sig)) :
    Reached tgt ts ⟨⟨.idle, false, none⟩, ⟨.awaitCmd, killed, p, false⟩, [], [],
      Function.update proc p .free, some t, trace, log ++ [⟨t, .crash, trace⟩]⟩ := by
  have hfinish : ProcStep tgt (some t) .target
      (Function.update proc p (.running (some t) cycleCnt false) p)
      (.zombie (.signaled sig)) := by
    rw [Function.update_self]
    exact .finish hends
  have hdead := (h.target (.proc hfinish)).system (.waitDead rfl (Function.update_self ..))
  simp only [Function.update_idem] at hdead
  have hsent := hdead.system (.sendStatus rfl)
  exact hsent.system (.readStatus (t := t) (w := .signaled sig) (.inl rfl) rfl rfl rfl)

/-- The time is over before it ends, and the fuzzer kills it. -/
theorem Reached.expired :
    Reached tgt ts ⟨⟨.idle, true, none⟩, ⟨.awaitCmd, killed, p, false⟩, [], [],
      Function.update proc p .free, some t, trace, log ++ [⟨t, .tmout, trace⟩]⟩ := by
  have hkilled := (h.system (.expire rfl rfl)).system (.kill rfl rfl)
  simp only [Function.update_self, Function.update_idem, Proc.kill] at hkilled
  have hdie : ProcStep tgt (some t) .system
      (Function.update proc p (.running (some t) cycleCnt true) p) (.zombie (.signaled 9)) := by
    rw [Function.update_self]
    exact .dieRunning
  have hdead := (hkilled.system (.proc hdie)).system (.waitDead rfl (Function.update_self ..))
  simp only [Function.update_idem] at hdead
  have hsent := hdead.system (.sendStatus rfl)
  exact hsent.system (.readStatus (t := t) (w := .signaled 9) (.inr rfl) rfl rfl rfl)

end

/-- A target with a loop, which a 7 crashes and a 9 hangs. -/
def moody : Target ℕ where
  isPersistent := true
  maxCnt := 1000
  ends t o := if t = 7 then o = .signaled 11 else t ≠ 9 ∧ o = .returned

/-- The process of the first run is continued for the second one and killed in it; a new one
crashes. -/
theorem threeRuns_isolated :
    ∃ s, Reached moody [1, 9, 7] s ∧
      s.log = [⟨1, .ok, [1]⟩, ⟨9, .tmout, [9]⟩, ⟨7, .crash, [7]⟩] ∧
      (∀ e ∈ s.log, e.Ok moody) ∧ ∀ p, (s.proc p).isRunning = false := by
  have hinit : Reached moody [] init := .init
  have hspawn := (hinit.requested 1).system (.decideSpawn rfl fun h => Bool.noConfusion h.1)
  have hfirst := (hspawn.system (.fork (p := 1) rfl rfl rfl)).hit.returned rfl (by decide)
    ⟨by decide, rfl⟩
  have hnext := (hfirst.requested 9).system (.decideSpawn rfl fun h => Bool.noConfusion h.2)
  have hcont := hnext.system (.cont rfl rfl)
  simp only [Function.update_self, Function.update_idem, Proc.cont] at hcont
  have hsecond := hcont.hit.expired
  have hagain := (hsecond.requested 7).system (.decideSpawn rfl fun h => Bool.noConfusion h.1)
  have hthird := (hagain.system (.fork (p := 1) rfl rfl rfl)).hit.crashed rfl
  obtain ⟨-, hok, hbetween, -⟩ := runs_isolated hthird
  exact ⟨_, hthird, rfl, hok, (hbetween rfl).2.2⟩

theorem loaded7_completes :
    ∃ s s', Reached crashOn7 [7] s ∧ Steps crashOn7 2 s s' ∧
      (s'.fuzzer.pc = .idle ∨ ∃ s'', Step crashOn7 .system s' s'') := by
  have hcleared : Steps crashOn7 1 _ ⟨⟨.cleared, false, none⟩, ⟨.awaitCmd, false, 0, false⟩,
      [], [], fun _ => .free, some 7, [], []⟩ := .system (.refl loaded7) (.clear rfl)
  have hrequested : Steps crashOn7 2 _ ⟨⟨.awaitPid, false, none⟩, ⟨.awaitCmd, false, 0, false⟩,
      [false], [], fun _ => .free, some 7, [], []⟩ := .system hcleared (.request rfl)
  exact ⟨_, _, reached_loaded7, hrequested, (run_completes reached_loaded7 hrequested).2⟩

end AflNv.ForkServer
