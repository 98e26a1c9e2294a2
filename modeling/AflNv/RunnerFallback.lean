import AflNv.RunnerTask

/-!
# The status of a runner task when it cannot be written

The supervisor of `runner/fuzz_test_runner.py` stores its document with `_save_supervisor_status`.
Where `status.json` cannot be replaced it writes a fallback document beside it, ends the child and
returns.  `_load_observable_status` prefers the fallback document; `query` reports what it loads.
`stop` begins with the same load, but what it reports and stores behind the signal comes from
`status.json` alone.

* `System` is a task of `RunnerTask` with its fallback document, and with what has been reported.
* `Settled` is what is promised behind the last document of the supervisor.
* `observable_status_settled` says when a run is settled all along.
-/

namespace AflNv.RunnerFallback

open AflNv.Lib AflNv.RunnerTask

/-! ## The two documents -/

/-- What becomes of the two writes of `_save_supervisor_status`. -/
inductive Write where
  | stored
  /-- Only the fallback document is written. -/
  | fellBack
  /-- Neither is. -/
  | lost
  deriving DecidableEq

/-- `_write_status_fallback`, without its reason `status_write_failed`. -/
def fallbackOf (d : Doc) : Doc :=
  { d with status := .failed, failureReason := none, recorded := false }

structure System (ι : Type) where
  world : RunnerTask.World ι
  /-- The document under `status_fallback_path`, which is in every document of a task. -/
  fallback : Option Doc
  /-- The last change of the supervisor, if it has been written. -/
  final : Option Doc
  /-- The requests that began behind the last change. -/
  late : ι → Bool
  /-- The statuses that these have reported. -/
  reports : List Status

variable {ι : Type}

def init : System ι := ⟨RunnerTask.init, none, none, fun _ => false, []⟩

/-- `_load_observable_status` -/
def System.observable (s : System ι) : Doc := s.fallback.getD s.world.doc

/-- The supervisor cannot store `d`; it returns when the child has ended. -/
def System.failSave (s : System ι) (d : Doc) (written : Bool) : System ι :=
  { s with
    world := { s.world with supervisor := .done }
    fallback := if written then some (fallbackOf d) else s.fallback
    final := if written then some (fallbackOf d) else none }

/-- `_save_supervisor_status`, where the supervisor calls it. -/
def System.save (s : System ι) (write : Write) : Option (System ι) :=
  match write, s.world.supervisor with
  | .stored, .launched _ => (s.world.supervisorStep .save).map fun w => { s with world := w }
  | .stored, .storing final =>
    (s.world.supervisorStep .save).map fun w => { s with world := w, final := some final }
  | write, .launched copy =>
    some (s.failSave { copy with childLaunchReturncode := some 0 } (write = .fellBack))
  | write, .storing final => some (s.failSave final (write = .fellBack))
  | _, _ => none

/-- What a request prints with the step that ends it. -/
def reported (w : RunnerTask.World ι) (i : ι) (e : RequestEvent) : Option Status :=
  match e, w.requests i with
  | .refresh reused, .loaded .query copy =>
    if copy.status.isTerminal || copy.pid = none || w.alive reused then some copy.status else none
  | .save, .storing .query final => some final.status
  | .reload, .reloading sent =>
    if sent && !w.doc.status.isTerminal then none else some w.doc.status
  | .poll, .polling _ => if w.doc.status.isTerminal then some w.doc.status else none
  | .save, .givingUp _ => some .stopped
  | _, _ => none

/-- The reports behind a step of a request. -/
def reportsAfter (s : System ι) (i : ι) (e : RequestEvent) : List Status :=
  if s.late i then (reported s.world i e).toList ++ s.reports else s.reports

inductive Event (ι : Type) where
  | submit (e : SubmitEvent)
  /-- A step of the supervisor that stores nothing. -/
  | supervisor (e : SupervisorEvent)
  | save (write : Write)
  | exit (returncode : ℤ)
  /-- A request begins. -/
  | load (i : ι) (kind : Kind)
  /-- A further step of a request. -/
  | request (i : ι) (e : RequestEvent)
  deriving DecidableEq

def stores : SupervisorEvent → Bool
  | .save => true
  | _ => false

def loads : RequestEvent → Bool
  | .load _ => true
  | _ => false

section

variable [DecidableEq ι]

def advance (s : System ι) : Event ι → Option (System ι)
  | .submit e => (s.world.submitStep e).map fun w => { s with world := w }
  | .supervisor e =>
    if stores e then none
    else (s.world.supervisorStep e).map fun w => { s with world := w }
  | .save write => s.save write
  | .exit returncode =>
    (RunnerTask.advance s.world (.exit returncode)).map fun w => { s with world := w }
  | .load i kind =>
    if s.world.requests i = .idle then
      some { s with
        world := s.world.become i (.loaded kind s.observable)
        late := Function.update s.late i s.final.isSome }
    else none
  | .request i e =>
    if loads e then none
    else (s.world.requestStep i e).map fun w => { s with
      world := w
      reports := reportsAfter s i e }

def step (s : System ι) (e : Event ι) : Bool × System ι :=
  match advance s e with
  | some s' => (true, s')
  | none => (false, s)

end

/-! ## What is promised -/

/-- The last change of the supervisor is a verdict, it is what is observed, and the requests that
began behind it have reported it. -/
def Settled (s : System ι) : Prop :=
  ∀ d, s.final = some d →
    d.status.isTerminal = true ∧ s.observable.status = d.status ∧ ∀ r ∈ s.reports, r = d.status

/-- What a step of a request must not do behind the last change: store another status, where
`status.json` is what is observed, or report what `status.json` holds, where the fallback document
is and the request began behind it. -/
def RequestClean (s : System ι) (i : ι) (e : RequestEvent) : Prop :=
  match e, s.world.requests i with
  | .save, .storing _ final => s.fallback = none → final.status = s.world.doc.status
  | .save, .marking _ => s.fallback ≠ none
  | .save, .givingUp _ =>
    (s.fallback = none → s.world.doc.status = .stopped) ∧
      (s.late i = true → s.fallback = none)
  | .reload, .reloading sent =>
    s.late i = true → s.fallback ≠ none → (sent && !s.world.doc.status.isTerminal) = false →
      s.world.doc.status = .failed
  | .poll, .polling _ =>
    s.late i = true → s.fallback ≠ none → s.world.doc.status.isTerminal = true →
      s.world.doc.status = .failed
  | _, _ => True

def Clean (s : System ι) : Event ι → Prop
  | .request i e => s.final ≠ none → RequestClean s i e
  | _ => True

/-! ## What the steps keep -/

/-- Where a request is that began behind the last change. -/
def LatePlace (s : System ι) : Request → Prop
  | .loaded _ copy => copy.status = s.observable.status
  | .storing _ _ => False
  | .marking _ | .polling _ | .checking _ | .givingUp _ => s.fallback ≠ none
  | _ => True

structure Inv (s : System ι) : Prop where
  settled : Settled s
  fallen : ∀ f, s.fallback = some f → f.status = .failed
  unfinished : s.final = none → s.fallback = none ∧ (∀ i, s.late i = false) ∧ s.reports = []
  finished : s.final ≠ none → s.world.supervisor = .done
  storing : ∀ d, s.world.supervisor = .storing d → d.status.isTerminal = true
  /-- Up to the start marker the supervisor stores nothing. -/
  marked : s.world.submit ≠ .returned →
    s.world.startMarker = false ∧ s.world.supervisor.early = true
  late : ∀ i, s.late i = true → LatePlace s (s.world.requests i)

theorem init_inv : Inv (init : System ι) where
  settled _ h := by cases h
  fallen _ h := by cases h
  unfinished _ := ⟨rfl, fun _ => rfl, rfl⟩
  finished h := absurd rfl h
  storing _ h := by cases h
  marked _ := ⟨rfl, rfl⟩
  late _ h := by cases h

/-- While the supervisor is at work its last change is still to come. -/
theorem Inv.unfinished_of_atWork {s : System ι} (h : Inv s)
    (hwork : s.world.supervisor.atWork = true) : s.final = none := by
  by_contra hfinal
  rw [h.finished hfinal] at hwork
  exact Bool.false_ne_true hwork

/-- A step before the last change. -/
theorem Inv.unfinished_step {s : System ι} (h : Inv s) (hfinal : s.final = none)
    {w : RunnerTask.World ι}
    (hstoring : ∀ d, w.supervisor = .storing d → d.status.isTerminal = true)
    (hmarked : w.submit ≠ .returned → w.startMarker = false ∧ w.supervisor.early = true) :
    Inv { s with world := w } where
  settled d hd := by
    rw [show s.final = _ from hd] at hfinal
    cases hfinal
  fallen := h.fallen
  unfinished := h.unfinished
  finished hd := absurd hfinal hd
  storing := hstoring
  marked := hmarked
  late i hi := absurd hi (Bool.eq_false_iff.mp ((h.unfinished hfinal).2.1 i))

/-! ### Submission and supervisor -/

theorem submitStep_inv {s : System ι} (h : Inv s) {e : SubmitEvent} {w : RunnerTask.World ι}
    (hstep : s.world.submitStep e = some w) : Inv { s with world := w } := by
  have hfinal (hsubmit : s.world.submit ≠ .returned) : s.final = none := by
    by_contra hfinal
    have hearly := (h.marked hsubmit).2
    rw [h.finished hfinal] at hearly
    exact Bool.false_ne_true hearly
  unfold RunnerTask.World.submitStep at hstep
  split at hstep <;> rename_i hat
  · have hmarked := h.marked (hat ▸ Submit.noConfusion)
    cases hstep
    exact h.unfinished_step (hfinal (hat ▸ Submit.noConfusion)) (fun _ hd => by cases hd)
      fun _ => ⟨hmarked.1, rfl⟩
  · have hmarked := h.marked (hat ▸ Submit.noConfusion)
    cases hstep
    exact h.unfinished_step (hfinal (hat ▸ Submit.noConfusion)) h.storing fun _ => hmarked
  · have hmarked := h.marked (hat ▸ Submit.noConfusion)
    cases hstep
    exact h.unfinished_step (hfinal (hat ▸ Submit.noConfusion)) h.storing fun _ => hmarked
  · have hmarked := h.marked (hat ▸ Submit.noConfusion)
    cases hstep
    exact h.unfinished_step (hfinal (hat ▸ Submit.noConfusion)) h.storing fun _ => hmarked
  · have hnot : s.final = none := hfinal (hat ▸ Submit.noConfusion)
    cases hstep
    exact h.unfinished_step hnot h.storing fun hsubmit => absurd rfl hsubmit
  · cases hstep

/-- What a step of the supervisor does to the rest of the task. -/
theorem supervisorStep_spec {w w' : RunnerTask.World ι} {e : SupervisorEvent}
    (hstep : w.supervisorStep e = some w') :
    w.supervisor.atWork = true ∧ w'.submit = w.submit ∧ w'.startMarker = w.startMarker ∧
      (w.startMarker = false → w.supervisor.early = true → w'.supervisor.early = true) ∧
      ∀ d, w'.supervisor = .storing d → d.status.isTerminal = true := by
  have hlate {p q : Supervisor} (heq : w.supervisor = p) (hp : p.early = false) :
      w.startMarker = false → w.supervisor.early = true → q.early = true := fun _ hearly =>
    absurd (heq ▸ hearly) (Bool.eq_false_iff.mp hp)
  have hwork {p : Supervisor} (heq : w.supervisor = p) (hp : p.atWork = true) :
      w.supervisor.atWork = true := by rwa [heq]
  unfold RunnerTask.World.supervisorStep at hstep
  split at hstep <;> rename_i hsupervisor
  case h_1 | h_2 =>
    cases hstep
    exact ⟨hwork hsupervisor rfl, rfl, rfl, fun _ _ => rfl, fun _ hd => by cases hd⟩
  case h_3 copy =>
    -- not without the start marker
    split_ifs at hstep with hunmarked hrequested
    all_goals
      have hmarked : w.startMarker ≠ false := fun hfalse => hunmarked (by rw [hfalse]; rfl)
      cases hstep
      refine ⟨hwork hsupervisor rfl, rfl, rfl, fun hfalse => absurd hfalse hmarked, ?_⟩
      intro d hd
      cases hd
    rfl
  case h_5 | h_18 =>
    -- a failure
    cases hstep
    refine ⟨hwork hsupervisor rfl, rfl, rfl, hlate hsupervisor rfl, fun d hd => ?_⟩
    cases hd
    rfl
  case h_9 expired copy =>
    cases hstep
    refine ⟨hwork hsupervisor rfl, rfl, rfl, hlate hsupervisor rfl, fun d hd => ?_⟩
    cases expired <;> cases hd
  case h_11 =>
    split at hstep
    · cases hstep
      exact ⟨hwork hsupervisor rfl, rfl, rfl, hlate hsupervisor rfl, fun _ hd => by cases hd⟩
    · cases hstep
  case h_12 =>
    split at hstep
    · cases hstep
      refine ⟨hwork hsupervisor rfl, rfl, rfl, hlate hsupervisor rfl, fun d hd => ?_⟩
      cases hd
      rfl
    · cases hstep
  case h_13 =>
    cases hstep
    refine ⟨hwork hsupervisor rfl, rfl, rfl, hlate hsupervisor rfl, fun d hd => ?_⟩
    cases hd
    exact classified_terminal ..
  case h_20 => cases hstep
  all_goals
    cases hstep
    exact ⟨hwork hsupervisor rfl, rfl, rfl, hlate hsupervisor rfl, fun _ hd => by cases hd⟩

theorem supervisorStep_inv {s : System ι} (h : Inv s) {e : SupervisorEvent} {w : RunnerTask.World ι}
    (hstep : s.world.supervisorStep e = some w) : Inv { s with world := w } := by
  obtain ⟨hwork, hsubmit, hmarker, hearly, hstoring⟩ := supervisorStep_spec hstep
  refine h.unfinished_step (h.unfinished_of_atWork hwork) hstoring fun hnot => ?_
  rw [hsubmit] at hnot
  obtain ⟨hunmarked, hplace⟩ := h.marked hnot
  exact ⟨hmarker.trans hunmarked, hearly hunmarked hplace⟩

/-- Behind the start marker `submit` has returned. -/
theorem Inv.submit_returned {s : System ι} (h : Inv s) (hlate : s.world.supervisor.early = false) :
    s.world.submit = .returned := by
  by_contra hsubmit
  exact absurd (h.marked hsubmit).2 (Bool.eq_false_iff.mp hlate)

theorem failSave_inv {s : System ι} (h : Inv s) (hwork : s.world.supervisor.atWork = true)
    (hlate : s.world.supervisor.early = false) (d : Doc) (written : Bool) :
    Inv (s.failSave d written) := by
  have hsubmit := h.submit_returned hlate
  obtain ⟨hfallback, hrequests, hreports⟩ := h.unfinished (h.unfinished_of_atWork hwork)
  cases written with
  | false =>
    exact {
      settled := fun _ hd => by cases hd
      fallen := h.fallen
      unfinished := fun _ => ⟨hfallback, hrequests, hreports⟩
      finished := fun hfinal => absurd rfl hfinal
      storing := fun _ hd => by cases hd
      marked := fun hnot => absurd hsubmit hnot
      late := fun i hi => absurd hi (Bool.eq_false_iff.mp (hrequests i)) }
  | true =>
    refine {
      settled := fun d' hd => ?_
      fallen := fun f hf => ?_
      unfinished := fun hfinal => by cases hfinal
      finished := fun _ => rfl
      storing := fun _ hd => by cases hd
      marked := fun hnot => absurd hsubmit hnot
      late := fun i hi => absurd hi (Bool.eq_false_iff.mp (hrequests i)) }
    · cases hd
      refine ⟨rfl, rfl, fun r hr => ?_⟩
      rw [show (s.failSave d true).reports = _ from hreports] at hr
      cases hr
    · cases hf
      rfl

/-- The last change is stored, or the fallback document is written, or neither. -/
theorem save_inv {s s' : System ι} (h : Inv s) {write : Write} (hstep : s.save write = some s') :
    Inv s' := by
  unfold System.save at hstep
  split at hstep
  · obtain ⟨w, hw, rfl⟩ := Option.map_eq_some_iff.mp hstep
    exact supervisorStep_inv h hw
  · rename_i final hsupervisor
    have hwork : s.world.supervisor.atWork = true := by rw [hsupervisor]; rfl
    have hlate : s.world.supervisor.early = false := by rw [hsupervisor]; rfl
    obtain ⟨hfallback, hrequests, hreports⟩ := h.unfinished (h.unfinished_of_atWork hwork)
    have hsubmit := h.submit_returned hlate
    simp only [RunnerTask.World.supervisorStep, hsupervisor, Option.map_some,
      Option.some.injEq] at hstep
    subst hstep
    refine {
      settled := fun d hd => ?_
      fallen := h.fallen
      unfinished := fun hfinal => by cases hfinal
      finished := fun _ => rfl
      storing := fun _ hd => by cases hd
      marked := fun hnot => absurd hsubmit hnot
      late := fun i hi => absurd hi (Bool.eq_false_iff.mp (hrequests i)) }
    cases hd
    refine ⟨h.storing _ hsupervisor, ?_, fun r hr => ?_⟩
    · rw [System.observable, show System.fallback _ = none from hfallback]
      rfl
    · rw [show System.reports _ = [] from hreports] at hr
      cases hr
  · rename_i hsupervisor
    cases hstep
    exact failSave_inv h (by rw [hsupervisor]; rfl) (by rw [hsupervisor]; rfl) _ _
  · rename_i hsupervisor
    cases hstep
    exact failSave_inv h (by rw [hsupervisor]; rfl) (by rw [hsupervisor]; rfl) _ _
  · cases hstep

/-! ### Requests -/

section

variable [DecidableEq ι]

theorem load_inv {s : System ι} (h : Inv s) (i : ι) (kind : Kind) :
    Inv { s with
      world := s.world.become i (.loaded kind s.observable)
      late := Function.update s.late i s.final.isSome } where
  settled := h.settled
  fallen := h.fallen
  unfinished hfinal := by
    obtain ⟨hfallback, hrequests, hreports⟩ := h.unfinished hfinal
    refine ⟨hfallback, fun j => ?_, hreports⟩
    dsimp only
    by_cases hij : j = i
    · subst hij
      rw [Function.update_self, show s.final = none from hfinal]
      rfl
    · rw [Function.update_of_ne hij]
      exact hrequests j
  finished := h.finished
  storing := h.storing
  marked := h.marked
  late j hj := by
    dsimp only [RunnerTask.World.become] at hj ⊢
    by_cases hij : j = i
    · subst hij
      rw [Function.update_self]
      rfl
    · rw [Function.update_of_ne hij] at hj ⊢
      exact h.late j hj

/-- What a step of a request does to the rest of the task. -/
theorem requestStep_spec {w w' : RunnerTask.World ι} {i : ι} {e : RequestEvent}
    (hstep : w.requestStep i e = some w') :
    w'.submit = w.submit ∧ w'.startMarker = w.startMarker ∧
      (w'.supervisor = w.supervisor ∨
        (w.supervisor.atWork = true ∧ w.supervisor.early = true ∧ w'.supervisor = .killed)) ∧
      ∀ j, j ≠ i → w'.requests j = w.requests j := by
  have hsame (w₀ : RunnerTask.World ι) (r : Request) (hsubmit : w₀.submit = w.submit)
      (hmarker : w₀.startMarker = w.startMarker) (hsupervisor : w₀.supervisor = w.supervisor)
      (hrequests : w₀.requests = w.requests) :
      (w₀.become i r).submit = w.submit ∧ (w₀.become i r).startMarker = w.startMarker ∧
      ((w₀.become i r).supervisor = w.supervisor ∨
        (w.supervisor.atWork = true ∧ w.supervisor.early = true ∧
          (w₀.become i r).supervisor = .killed)) ∧
      ∀ j, j ≠ i → (w₀.become i r).requests j = w.requests j :=
    ⟨hsubmit, hmarker, .inl hsupervisor, fun j hj =>
      (Function.update_of_ne hj ..).trans (congrFun hrequests j)⟩
  unfold RunnerTask.World.requestStep at hstep
  split at hstep
  case h_2 =>
    split at hstep <;> cases hstep <;> exact hsame w _ rfl rfl rfl rfl
  case h_6 =>
    split at hstep <;> rename_i hwork <;> cases hstep
    · unfold RunnerTask.World.interrupt
      split <;> rename_i hsupervisor
      · exact ⟨rfl, rfl, .inr ⟨hwork, by rw [hsupervisor]; rfl, rfl⟩,
          fun j hj => Function.update_of_ne hj ..⟩
      · exact ⟨rfl, rfl, .inr ⟨hwork, by rw [hsupervisor]; rfl, rfl⟩,
          fun j hj => Function.update_of_ne hj ..⟩
      · exact hsame _ _ rfl rfl rfl rfl
    · exact hsame w _ rfl rfl rfl rfl
  case h_13 => cases hstep
  all_goals
    cases hstep
    exact hsame _ _ rfl rfl rfl rfl

/-- Behind the last change a step of a request leaves what is observed, and one that began there
reports it. -/
theorem finished_request {s : System ι} (h : Inv s) {d : Doc} (hfinal : s.final = some d) {i : ι}
    {e : RequestEvent} (hloads : loads e = false) (hclean : RequestClean s i e)
    {w : RunnerTask.World ι}
    (hstep : s.world.requestStep i e = some w) :
    (s.fallback = none → w.doc.status = s.world.doc.status) ∧
      (s.late i = true →
        (∀ r, reported s.world i e = some r → r = d.status) ∧ LatePlace s (w.requests i)) := by
  obtain ⟨hterminal, hobservable, -⟩ := h.settled d hfinal
  have hwork : s.world.supervisor.atWork = false := by
    rw [h.finished (by rw [hfinal]; exact Option.some_ne_none d)]
    rfl
  have hprimary (hfallback : s.fallback = none) : s.world.doc.status = d.status := by
    rw [← hobservable, System.observable, hfallback]
    rfl
  have hfailed (hfallback : s.fallback ≠ none) : d.status = .failed := by
    obtain ⟨f, hf⟩ := Option.ne_none_iff_exists'.mp hfallback
    rw [← hobservable, System.observable, hf]
    exact h.fallen f hf
  have hlate := h.late i
  have hnone : ∀ r, (none : Option Status) = some r → r = d.status := fun _ hr => by cases hr
  have hbecome (w₀ : RunnerTask.World ι) (r : Request) : (w₀.become i r).requests i = r :=
    Function.update_self ..
  unfold RunnerTask.World.requestStep at hstep
  split at hstep <;> rename_i hrequest
  case h_1 => cases hloads
  case h_2 reused kind copy =>
    simp only [reported, hrequest]
    rw [hrequest] at hlate
    have hcopy (hi : s.late i = true) : copy.status = d.status := (hlate hi).trans hobservable
    split at hstep <;> rename_i hcond <;> cases hstep
    · refine ⟨fun _ => rfl, fun hi => ⟨fun r hr => ?_, ?_⟩⟩
      · cases kind with
        | query =>
          simp only [hcond, if_true, Option.some.injEq] at hr
          exact hr ▸ hcopy hi
        | stop => cases hr
      · rw [hbecome]
        cases kind <;> trivial
    · refine ⟨fun _ => rfl, fun hi => ?_⟩
      rw [hcopy hi, hterminal] at hcond
      exact absurd rfl hcond
  case h_3 kind final =>
    simp only [RequestClean, hrequest] at hclean
    rw [hrequest] at hlate
    cases hstep
    exact ⟨hclean, fun hi => (hlate hi).elim⟩
  case h_4 reused pid =>
    simp only [reported]
    cases hstep
    refine ⟨fun _ => rfl, fun _ => ⟨hnone, ?_⟩⟩
    rw [hbecome]
    split <;> trivial
  case h_5 =>
    simp only [reported]
    cases hstep
    refine ⟨fun _ => rfl, fun _ => ⟨hnone, ?_⟩⟩
    rw [hbecome]
    trivial
  case h_6 reused =>
    rw [hwork, if_neg Bool.false_ne_true] at hstep
    simp only [reported]
    cases hstep
    refine ⟨fun _ => rfl, fun _ => ⟨hnone, ?_⟩⟩
    rw [hbecome]
    trivial
  case h_7 sent =>
    simp only [RequestClean, hrequest] at hclean
    simp only [reported, hrequest]
    cases hstep
    refine ⟨fun _ => rfl, fun hi => ?_⟩
    rw [hbecome]
    by_cases hfallback : s.fallback = none
    · have hover : (sent && !s.world.doc.status.isTerminal) = false := by
        rw [hprimary hfallback, hterminal, Bool.not_true, Bool.and_false]
      rw [hover, if_neg Bool.false_ne_true, if_neg Bool.false_ne_true]
      exact ⟨fun r hr => (Option.some.inj hr).symm.trans (hprimary hfallback), trivial⟩
    · by_cases hover : (sent && !s.world.doc.status.isTerminal) = true
      · rw [if_pos hover, if_pos hover]
        exact ⟨hnone, hfallback⟩
      · rw [if_neg hover, if_neg hover]
        have hsame := hclean hi hfallback (Bool.eq_false_iff.mpr hover)
        exact ⟨fun r hr => (Option.some.inj hr).symm.trans (hsame.trans (hfailed hfallback).symm),
          trivial⟩
  case h_8 latest =>
    simp only [RequestClean, hrequest] at hclean
    simp only [reported, hrequest]
    cases hstep
    refine ⟨fun hfallback => absurd hfallback hclean, fun _ => ⟨hnone, ?_⟩⟩
    rw [hbecome]
    exact hclean
  case h_9 latest =>
    simp only [RequestClean, hrequest] at hclean
    simp only [reported, hrequest]
    rw [hrequest] at hlate
    cases hstep
    refine ⟨fun _ => rfl, fun hi => ?_⟩
    have hfallback : s.fallback ≠ none := hlate hi
    rw [hbecome]
    by_cases hover : s.world.doc.status.isTerminal = true
    · rw [if_pos hover, if_pos hover]
      have hsame := hclean hi hfallback hover
      exact ⟨fun r hr => (Option.some.inj hr).symm.trans (hsame.trans (hfailed hfallback).symm),
        trivial⟩
    · rw [if_neg hover, if_neg hover]
      exact ⟨hnone, hfallback⟩
  case h_10 reused latest =>
    simp only [reported]
    rw [hrequest] at hlate
    cases hstep
    refine ⟨fun _ => rfl, fun hi => ⟨hnone, ?_⟩⟩
    have hfallback : s.fallback ≠ none := hlate hi
    rw [hbecome]
    split <;> exact hfallback
  case h_11 latest =>
    simp only [reported]
    rw [hrequest] at hlate
    cases hstep
    refine ⟨fun _ => rfl, fun hi => ⟨hnone, ?_⟩⟩
    have hfallback : s.fallback ≠ none := hlate hi
    rw [hbecome]
    exact hfallback
  case h_12 latest =>
    simp only [RequestClean, hrequest] at hclean
    rw [hrequest] at hlate
    cases hstep
    exact ⟨fun hfallback => (hclean.1 hfallback).symm,
      fun hi => absurd (hclean.2 hi) (hlate hi)⟩
  case h_13 => cases hstep

theorem request_inv {s : System ι} (h : Inv s) {i : ι} {e : RequestEvent} (hloads : loads e = false)
    (hclean : s.final ≠ none → RequestClean s i e) {w : RunnerTask.World ι}
    (hstep : s.world.requestStep i e = some w) :
    Inv { s with world := w, reports := reportsAfter s i e } := by
  obtain ⟨hsubmit, hmarker, hsupervisor, hothers⟩ := requestStep_spec hstep
  have hstoring : ∀ d, w.supervisor = .storing d → d.status.isTerminal = true := by
    intro d hd
    obtain hsame | ⟨-, -, hkilled⟩ := hsupervisor
    · exact h.storing d (hsame ▸ hd)
    · rw [hkilled] at hd
      cases hd
  have hmarked : w.submit ≠ .returned → w.startMarker = false ∧ w.supervisor.early = true := by
    intro hnot
    rw [hsubmit] at hnot
    obtain ⟨hunmarked, hearly⟩ := h.marked hnot
    refine ⟨hmarker.trans hunmarked, ?_⟩
    obtain hsame | ⟨-, -, hkilled⟩ := hsupervisor
    · rwa [hsame]
    · rw [hkilled]
      rfl
  by_cases hfinal : s.final = none
  · have hreports : reportsAfter s i e = s.reports := by
      rw [reportsAfter, (h.unfinished hfinal).2.1 i, if_neg Bool.false_ne_true]
    rw [hreports]
    exact h.unfinished_step hfinal hstoring hmarked
  · obtain ⟨d, hd⟩ := Option.ne_none_iff_exists'.mp hfinal
    obtain ⟨hterminal, hobservable, hreports⟩ := h.settled d hd
    obtain ⟨hdoc, hlate⟩ := finished_request h hd hloads (hclean hfinal) hstep
    have hkept : (System.observable { s with world := w, reports := reportsAfter s i e }).status =
        s.observable.status := by
      unfold System.observable
      dsimp only
      cases hfallback : s.fallback with
      | none => exact hdoc hfallback
      | some f => rfl
    exact {
      settled := by
        intro d' hd'
        cases hd.symm.trans hd'
        refine ⟨hterminal, hkept.trans hobservable, fun r hr => ?_⟩
        unfold reportsAfter at hr
        split_ifs at hr with hi
        · rcases List.mem_append.mp hr with hnew | hold
          · exact (hlate hi).1 r (Option.mem_toList.mp hnew)
          · exact hreports r hold
        · exact hreports r hr
      fallen := h.fallen
      unfinished := fun hnone => absurd hnone hfinal
      finished := fun _ => by
        obtain hsame | ⟨hwork, -, -⟩ := hsupervisor
        · exact hsame.trans (h.finished hfinal)
        · rw [h.finished hfinal] at hwork
          exact absurd hwork Bool.false_ne_true
      storing := hstoring
      marked := hmarked
      late := by
        intro j hj
        have hplace : LatePlace s (w.requests j) := by
          by_cases hij : j = i
          · subst hij
            exact (hlate hj).2
          · rw [hothers j hij]
            exact h.late j hj
        cases hrequest : w.requests j with
        | loaded kind copy =>
          rw [hrequest] at hplace
          exact hplace.trans hkept.symm
        | _ =>
          rw [hrequest] at hplace
          exact hplace }

/-! ## Runs -/

theorem step_inv {s : System ι} {e : Event ι} (h : Inv s) (hclean : Clean s e) :
    Inv (step s e).2 := by
  unfold step
  cases hadvance : advance s e with
  | none => exact h
  | some s' =>
    cases e with
    | submit e =>
      obtain ⟨w, hw, rfl⟩ := Option.map_eq_some_iff.mp hadvance
      exact submitStep_inv h hw
    | supervisor e =>
      rw [advance] at hadvance
      split_ifs at hadvance
      obtain ⟨w, hw, rfl⟩ := Option.map_eq_some_iff.mp hadvance
      exact supervisorStep_inv h hw
    | save write => exact save_inv h hadvance
    | exit returncode =>
      obtain ⟨w, hw, rfl⟩ := Option.map_eq_some_iff.mp hadvance
      rw [RunnerTask.advance] at hw
      split_ifs at hw
      cases hw
      exact ⟨h.settled, h.fallen, h.unfinished, h.finished, h.storing, h.marked, h.late⟩
    | load i kind =>
      rw [advance] at hadvance
      split_ifs at hadvance
      cases hadvance
      exact load_inv h i kind
    | request i e =>
      rw [advance] at hadvance
      split_ifs at hadvance with hloads
      obtain ⟨w, hw, rfl⟩ := Option.map_eq_some_iff.mp hadvance
      exact request_inv h (Bool.eq_false_iff.mpr hloads) hclean hw

/-- What a settled state says of the step of a request that led to it. -/
theorem settled_request {s : System ι} {d : Doc} (hd : s.final = some d) {i : ι}
    {e : RequestEvent} (hloads : loads e = false) {w : RunnerTask.World ι}
    (hstep : s.world.requestStep i e = some w) (hsettled : Settled (step s (.request i e)).2) :
    (s.fallback = none → w.doc.status = d.status) ∧
      (s.late i = true → ∀ r, reported s.world i e = some r → r = d.status) := by
  have hafter : step s (.request i e) =
      (true, { s with world := w, reports := reportsAfter s i e }) := by
    rw [step, advance, hloads, if_neg Bool.false_ne_true, hstep]
    rfl
  rw [hafter] at hsettled
  obtain ⟨-, hobservable, hreports⟩ := hsettled d hd
  refine ⟨fun hfallback => ?_, fun hi r hr => hreports r ?_⟩
  · rw [System.observable, show System.fallback _ = none from hfallback] at hobservable
    exact hobservable
  · show r ∈ reportsAfter s i e
    rw [reportsAfter, if_pos hi, hr]
    exact List.mem_append_left _ (List.mem_singleton.mpr rfl)

/-- A step of a request that is not clean leaves a state that is not settled. -/
theorem clean_of_settled {s : System ι} {e : Event ι} (h : Inv s)
    (hsettled : Settled (step s e).2) : Clean s e := by
  cases e with
  | request i e =>
    intro hfinal
    obtain ⟨d, hd⟩ := Option.ne_none_iff_exists'.mp hfinal
    obtain ⟨hterminal, hobservable, -⟩ := h.settled d hd
    have hfailed (hfallback : s.fallback ≠ none) : d.status = .failed := by
      obtain ⟨f, hf⟩ := Option.ne_none_iff_exists'.mp hfallback
      rw [← hobservable, System.observable, hf]
      exact h.fallen f hf
    have hprimary (hfallback : s.fallback = none) : s.world.doc.status = d.status := by
      rw [← hobservable, System.observable, hfallback]
      rfl
    unfold RequestClean
    split <;> rename_i hrequest
    · have hstep := show s.world.requestStep i .save = some _ by
        unfold RunnerTask.World.requestStep
        rw [hrequest]
      obtain ⟨hdoc, -⟩ := settled_request hd rfl hstep hsettled
      exact fun hfallback => (hdoc hfallback).trans (hprimary hfallback).symm
    · have hstep := show s.world.requestStep i .save = some _ by
        unfold RunnerTask.World.requestStep
        rw [hrequest]
      obtain ⟨hdoc, -⟩ := settled_request hd rfl hstep hsettled
      intro hfallback
      rw [← hdoc hfallback] at hterminal
      exact Bool.false_ne_true hterminal
    · have hstep := show s.world.requestStep i .save = some _ by
        unfold RunnerTask.World.requestStep
        rw [hrequest]
      obtain ⟨hdoc, hreports⟩ := settled_request hd rfl hstep hsettled
      refine ⟨fun hfallback => (hprimary hfallback).trans (hdoc hfallback).symm, fun hi => ?_⟩
      by_contra hfallback
      have hstopped := hreports hi .stopped (by
        unfold reported
        rw [hrequest])
      rw [hfailed hfallback] at hstopped
      cases hstopped
    · have hstep := show s.world.requestStep i .reload = some _ by
        unfold RunnerTask.World.requestStep
        rw [hrequest]
      obtain ⟨-, hreports⟩ := settled_request hd rfl hstep hsettled
      intro hi hfallback hover
      have hreport := hreports hi s.world.doc.status (by
        simp only [reported, hrequest]
        exact if_neg (Bool.eq_false_iff.mp hover))
      rw [hreport, hfailed hfallback]
    · have hstep := show s.world.requestStep i .poll = some _ by
        unfold RunnerTask.World.requestStep
        rw [hrequest]
      obtain ⟨-, hreports⟩ := settled_request hd rfl hstep hsettled
      intro hi hfallback hover
      have hreport := hreports hi s.world.doc.status (by
        simp only [reported, hrequest]
        exact if_pos hover)
      rw [hreport, hfailed hfallback]
    · trivial
  | _ => trivial

/-- A run is settled all along exactly when its steps are clean: behind the last change no request
stores another status where `status.json` is what is observed, and no stop request that began
behind a fallback document reports what `status.json` holds. -/
theorem observable_status_settled (es : List (Event ι)) :
    (∀ p, p <+: es → Settled (Machine.run step init p)) ↔ Machine.Meets step Clean init es :=
  Machine.forall_prefix_iff_meets step Clean (fun _ h => h.settled) (fun _ _ h => step_inv h)
    (fun _ _ h => clean_of_settled h) init_inv es

end

end AflNv.RunnerFallback
