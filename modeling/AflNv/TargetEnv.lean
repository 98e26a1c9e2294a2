import Mathlib.Data.List.Induction
import Mathlib.Data.List.TakeWhile
import AflNv.CBase

/-!
# Environment variables for the target

The variable `AFL_TARGET_ENV` carries a list of them.  `quote_for_afl_target_env` of
`scripts/run_alfresco_bounded_feedback.py` writes a value, and `extract_and_set_env` of
`src/afl-common.c` reads the list back.

The writer follows the shell: a quote inside a value ends the quoted text, and an
escaped quote stands between two quoted texts.  The reader knows no escapes, so it
stops at such a value (`envLoop_quoted_quote`), and by then the variables in front
of it are set.  `targetEnv_iff` says which lists survive, and which texts are set
either as a whole or not at all.
-/

namespace AflNv

/-! ## The writer -/

/-- `'`. -/
def quoteByte : UInt8 := 39

/-- `val.replace("'", "'\\''")`. -/
def escapeQuotes (val : Bytes) : Bytes :=
  val.flatMap fun b => if b = quoteByte then [39, 92, 39, 39] else [b]

/-- `quote_for_afl_target_env`. -/
def quoteForAflTargetEnv (val : Bytes) : Bytes :=
  [quoteByte] ++ escapeQuotes val ++ [quoteByte]

/-- `f"{key}={quote_for_afl_target_env(val)}"`. -/
def envAssignment (p : Bytes × Bytes) : Bytes := p.1 ++ 61 :: quoteForAflTargetEnv p.2

/-- The assignments, joined with spaces. -/
def aflTargetEnv (ps : List (Bytes × Bytes)) : Bytes :=
  List.intercalate [32] (ps.map envAssignment)

/-! ## The reader -/

/-- The environment of the process. -/
abbrev Environ := Bytes → Option Bytes

/-- `setenv(key, val, 1)`. -/
def setenv (key val : Bytes) (env : Environ) : Environ := Function.update env key (some val)

def isDigitByte (b : UInt8) : Bool := 48 ≤ b && b ≤ 57

/-- A byte of a variable name. -/
def isNameByte (b : UInt8) : Bool :=
  (65 ≤ b && b ≤ 90) || (97 ≤ b && b ≤ 122) || isDigitByte b || b = 95

/-- The loop over the name: the name and the text from its `=` or space on; `none` is a
byte that no name has. -/
def scanName : Bytes → Option (Bytes × Bytes)
  | [] => some ([], [])
  | c :: rest =>
    if c = 61 || c = 32 then some ([], c :: rest)
    else if !isNameByte c then none
    else (scanName rest).map fun r => (c :: r.1, r.2)

/-- One round of the loop over the text. -/
inductive PairScan where
  /-- `break`: at most one byte is left. -/
  | stop
  /-- `goto free_and_return`. -/
  | fail
  /-- A pair, and the text behind it. -/
  | pair (name val rest : Bytes)
  deriving DecidableEq

/-- The value behind the `=`. -/
def scanValue (name : Bytes) : Bytes → PairScan
  | [] => .fail
  | c :: rest =>
    if c = 32 then .fail
    else if c = 39 || c = 34 then
      if rest = [] then .fail
      else
        match rest.dropWhile (· ≠ c) with
        | [] => .fail
        | _ :: tail => .pair name (rest.takeWhile (· ≠ c)) tail
    else .pair name ((c :: rest).takeWhile (· ≠ 32)) ((c :: rest).dropWhile (· ≠ 32)).tail

/-- The body of the loop of `extract_and_set_env`, on the text from `rest` to `end`. -/
def scanPair (rest : Bytes) : PairScan :=
  match rest.dropWhile (· = 32) with
  | [] => .stop
  | [_] => .stop
  | c :: d :: tail =>
    if c = 61 || isDigitByte c then .fail
    else
      match scanName (c :: d :: tail) with
      | none => .fail
      | some (_, []) => .fail
      | some (name, e :: value) => if e ≠ 61 then .fail else scanValue name value

theorem length_scanName {text name rest : Bytes} (h : scanName text = some (name, rest)) :
    text = name ++ rest := by
  induction text generalizing name rest with
  | nil => cases h; rfl
  | cons c text ih =>
    rw [scanName] at h
    split_ifs at h with hstop hname
    · cases h
      rfl
    · obtain ⟨⟨name', rest'⟩, hrec, heq⟩ := Option.map_eq_some_iff.mp h
      cases heq
      rw [List.cons_append, ← ih hrec]

theorem length_scanValue {name value name' val rest : Bytes}
    (h : scanValue name value = .pair name' val rest) : rest.length < value.length := by
  cases value with
  | nil => cases h
  | cons c value =>
    rw [scanValue] at h
    split_ifs at h with hspace hquote hnil
    · split at h
      · cases h
      · rename_i tail htail
        cases h
        have hle := (List.dropWhile_sublist (p := (· ≠ c)) (l := value)).length_le
        rw [htail] at hle
        simp only [List.length_cons] at hle ⊢
        omega
    · cases h
      have hle := (List.dropWhile_sublist (p := (· ≠ 32)) (l := c :: value)).length_le
      rw [List.length_tail]
      simp only [List.length_cons] at hle ⊢
      omega

/-- The text behind a pair is shorter. -/
theorem length_scanPair {text name val rest : Bytes} (h : scanPair text = .pair name val rest) :
    rest.length < text.length := by
  have hle := (List.dropWhile_sublist (p := (· = 32)) (l := text)).length_le
  rw [scanPair] at h
  split at h
  · cases h
  · cases h
  · rename_i c d tail htail
    rw [htail] at hle
    split_ifs at h with hbad
    split at h
    · cases h
    · cases h
    · rename_i name' e value hname
      split_ifs at h with he
      have hvalue := length_scanValue h
      have hlen := congrArg List.length (length_scanName hname)
      simp only [List.length_append, List.length_cons] at hlen hle
      omega

/-- The loop of `extract_and_set_env`. -/
def envLoop (rest : Bytes) (numPairs : ℕ) (env : Environ) : Bool × Environ :=
  if rest = [] then (numPairs ≠ 0, env)
  else
    match h : scanPair rest with
    | .stop => (numPairs ≠ 0, env)
    | .fail => (false, env)
    | .pair name val tail => envLoop tail (numPairs + 1) (setenv name val env)
termination_by rest.length
decreasing_by exact length_scanPair h

/-- `extract_and_set_env`; `none` is NULL. -/
def extractAndSetEnv (envStr : Option Bytes) (env : Environ) : Bool × Environ :=
  match envStr with
  | none => (false, env)
  | some s => envLoop (cstr s) 0 env

theorem envLoop_nil (n : ℕ) (env : Environ) : envLoop [] n env = (decide (n ≠ 0), env) := by
  rw [envLoop, if_pos rfl]

/-- The rounds of the loop, by what the scan finds. -/
theorem envLoop_stop {rest : Bytes} (h : scanPair rest = .stop) (n : ℕ) (env : Environ) :
    envLoop rest n env = (decide (n ≠ 0), env) := by
  rw [envLoop]
  split_ifs with hnil
  · rfl
  · split <;> simp_all

theorem envLoop_fail {rest : Bytes} (h : scanPair rest = .fail) (n : ℕ) (env : Environ) :
    envLoop rest n env = (false, env) := by
  rw [envLoop]
  split_ifs with hnil
  · rw [hnil] at h
    cases h
  · split <;> simp_all

theorem envLoop_pair {rest name val tail : Bytes} (h : scanPair rest = .pair name val tail) (n : ℕ)
    (env : Environ) : envLoop rest n env = envLoop tail (n + 1) (setenv name val env) := by
  rw [envLoop]
  split_ifs with hnil
  · rw [hnil] at h
    cases h
  · split <;> simp_all

/-! ## Reading what was written -/

/-- The name of a variable. -/
structure IsEnvName (name : Bytes) : Prop where
  ne_nil : name ≠ []
  bytes : ∀ b ∈ name, isNameByte b = true
  head : ∀ b, name.head? = some b → isDigitByte b = false

theorem isNameByte_ne {b : UInt8} (h : isNameByte b = true) : b ≠ 61 ∧ b ≠ 32 ∧ b ≠ 0 := by
  refine ⟨?_, ?_, ?_⟩ <;>
  · intro hb
    rw [hb] at h
    exact absurd h (by decide)

/-- The name ends at the `=`. -/
theorem scanName_append {name : Bytes} (h : ∀ b ∈ name, isNameByte b = true) (rest : Bytes) :
    scanName (name ++ 61 :: rest) = some (name, 61 :: rest) := by
  induction name with
  | nil => rfl
  | cons c name ih =>
    rw [List.forall_mem_cons] at h
    obtain ⟨hne, hspace, -⟩ := isNameByte_ne h.1
    rw [List.cons_append, scanName, if_neg (by simp [hne, hspace]), if_neg (by simp [h.1]), ih h.2]
    rfl

/-- A pair is found behind any spaces, and its value is what `scanValue` finds. -/
theorem scanPair_append {spaces name value : Bytes} (hspaces : ∀ b ∈ spaces, b = 32)
    (h : IsEnvName name) :
    scanPair (spaces ++ (name ++ 61 :: value)) = scanValue name value := by
  obtain ⟨c, tail, rfl⟩ := List.exists_cons_of_ne_nil h.ne_nil
  have hc := h.bytes c (by simp)
  obtain ⟨hne, hspace, -⟩ := isNameByte_ne hc
  have hdrop : (spaces ++ (c :: tail ++ 61 :: value)).dropWhile (· = 32) =
      c :: tail ++ 61 :: value := by
    rw [List.dropWhile_append_of_pos (by simpa using hspaces), List.cons_append,
      List.dropWhile_cons_of_neg (by simpa using hspace)]
  have hlen : ∃ d rest, tail ++ 61 :: value = d :: rest :=
    List.exists_cons_of_ne_nil (by simp)
  obtain ⟨d, rest, hrest⟩ := hlen
  have hdigit : isDigitByte c = false := h.head c rfl
  have hname := scanName_append h.bytes value
  rw [scanPair, hdrop]
  rw [List.cons_append, hrest] at hname ⊢
  simp only [hne, hdigit, decide_false, Bool.or_self, Bool.false_eq_true, if_false, hname, ne_eq,
    not_true_eq_false]

theorem takeWhile_ne_append {q : UInt8} {val : Bytes} (h : q ∉ val) (rest : Bytes) :
    (val ++ q :: rest).takeWhile (· ≠ q) = val ∧ (val ++ q :: rest).dropWhile (· ≠ q) = q :: rest := by
  have hall : ∀ b ∈ val, (decide (b ≠ q)) = true := by
    intro b hb
    rw [decide_eq_true_eq]
    rintro rfl
    exact h hb
  constructor
  · rw [List.takeWhile_append_of_pos hall, List.takeWhile_cons_of_neg (by simp), List.append_nil]
  · rw [List.dropWhile_append_of_pos hall, List.dropWhile_cons_of_neg (by simp)]

/-- A quoted value ends at the next quote. -/
theorem scanValue_quoted {q : UInt8} (hq : q = 39 ∨ q = 34) {val : Bytes} (h : q ∉ val)
    (name rest : Bytes) : scanValue name (q :: (val ++ q :: rest)) = .pair name val rest := by
  obtain ⟨htake, hdrop⟩ := takeWhile_ne_append h rest
  have hspace : q ≠ 32 := by rcases hq with rfl | rfl <;> decide
  rw [scanValue, if_neg hspace, if_pos (by simpa using hq), if_neg (by simp), hdrop, htake]

theorem escapeQuotes_of_notMem {val : Bytes} (h : quoteByte ∉ val) : escapeQuotes val = val := by
  induction val with
  | nil => rfl
  | cons b val ih =>
    rw [List.mem_cons, not_or] at h
    rw [escapeQuotes, List.flatMap_cons, if_neg (Ne.symm h.1), ← escapeQuotes, ih h.2]
    rfl

/-- A value without quotes is read as it is. -/
theorem scanPair_plain {spaces : Bytes} (hspaces : ∀ b ∈ spaces, b = 32) {p : Bytes × Bytes}
    (hname : IsEnvName p.1) (hval : quoteByte ∉ p.2) (rest : Bytes) :
    scanPair (spaces ++ (envAssignment p ++ rest)) = .pair p.1 p.2 rest := by
  have htext : envAssignment p ++ rest = p.1 ++ 61 :: 39 :: (p.2 ++ 39 :: rest) := by
    simp [envAssignment, quoteForAflTargetEnv, escapeQuotes_of_notMem hval, quoteByte]
  rw [htext, scanPair_append hspaces hname, scanValue_quoted (.inl rfl) hval]

/-- A value with a quote is cut there, and the next round fails. -/
theorem envLoop_quoted_quote {spaces : Bytes} (hspaces : ∀ b ∈ spaces, b = 32) {p : Bytes × Bytes}
    (hname : IsEnvName p.1) (hval : quoteByte ∈ p.2) (rest : Bytes) (n : ℕ) (env : Environ) :
    (envLoop (spaces ++ (envAssignment p ++ rest)) n env).1 = false := by
  obtain ⟨front, back, hsplit, hfront⟩ := List.eq_append_cons_of_mem hval
  have htext : envAssignment p ++ rest = p.1 ++ 61 :: 39 ::
      (front ++ 39 :: (92 :: 39 :: (39 :: (escapeQuotes back ++ 39 :: rest)))) := by
    have hescape : escapeQuotes p.2 = front ++ [39, 92, 39, 39] ++ escapeQuotes back := by
      rw [hsplit, escapeQuotes, List.flatMap_append, List.flatMap_cons, if_pos rfl, ← escapeQuotes,
        ← escapeQuotes, escapeQuotes_of_notMem hfront, List.append_assoc]
    simp [envAssignment, quoteForAflTargetEnv, hescape, quoteByte]
  rw [htext, envLoop_pair ((scanPair_append hspaces hname).trans
    (scanValue_quoted (.inl rfl) hfront _ _))]
  -- What follows starts with a backslash, which no name has.
  rw [envLoop_fail]
  rfl

/-- The assignments behind the first one. -/
def assignmentsFrom (ps : List (Bytes × Bytes)) : Bytes := ps.flatMap fun p => 32 :: envAssignment p

theorem aflTargetEnv_cons (p : Bytes × Bytes) (ps : List (Bytes × Bytes)) :
    aflTargetEnv (p :: ps) = envAssignment p ++ assignmentsFrom ps := by
  induction ps generalizing p with
  | nil => simp [aflTargetEnv, assignmentsFrom]
  | cons q ps ih =>
    have hq := ih q
    rw [aflTargetEnv] at hq ⊢
    rw [List.map_cons, List.map_cons, List.intercalate_cons_cons, ← List.map_cons, hq]
    simp [assignmentsFrom]

/-- Set the variables one after the other. -/
def setAll (ps : List (Bytes × Bytes)) (env : Environ) : Environ :=
  ps.foldl (fun env p => setenv p.1 p.2 env) env

/-- Values without quotes are all set. -/
theorem envLoop_assignments {ps : List (Bytes × Bytes)}
    (h : ∀ p ∈ ps, IsEnvName p.1 ∧ quoteByte ∉ p.2) (n : ℕ) (env : Environ) :
    envLoop (assignmentsFrom ps) n env = (decide (n + ps.length ≠ 0), setAll ps env) := by
  induction ps generalizing n env with
  | nil => exact envLoop_nil n env
  | cons p ps ih =>
    rw [List.forall_mem_cons] at h
    have hscan := @scanPair_plain [32] (by simp) p h.1.1 h.1.2 (assignmentsFrom ps)
    have hrest : assignmentsFrom (p :: ps) = [32] ++ (envAssignment p ++ assignmentsFrom ps) := by
      simp [assignmentsFrom]
    rw [hrest, envLoop_pair hscan, ih h.2, List.length_cons]
    simp [setAll, show n + 1 + ps.length = n + (ps.length + 1) by omega]

/-- A value with a quote makes the reader give up. -/
theorem envLoop_assignments_quote {ps : List (Bytes × Bytes)} (h : ∀ p ∈ ps, IsEnvName p.1)
    (hquote : ∃ p ∈ ps, quoteByte ∈ p.2) (n : ℕ) (env : Environ) :
    (envLoop (assignmentsFrom ps) n env).1 = false := by
  induction ps generalizing n env with
  | nil =>
    obtain ⟨p, hp, -⟩ := hquote
    exact absurd hp (List.not_mem_nil)
  | cons p ps ih =>
    rw [List.forall_mem_cons] at h
    have hrest : assignmentsFrom (p :: ps) = [32] ++ (envAssignment p ++ assignmentsFrom ps) := by
      simp [assignmentsFrom]
    rw [hrest]
    by_cases hp : quoteByte ∈ p.2
    · exact envLoop_quoted_quote (by simp) h.1 hp _ n env
    · rw [envLoop_pair (scanPair_plain (by simp) h.1 hp _)]
      apply ih h.2
      obtain ⟨q, hq, hmem⟩ := hquote
      rcases List.mem_cons.mp hq with rfl | hq
      · exact absurd hmem hp
      · exact ⟨q, hq, hmem⟩

/-- Each name of a list has one value. -/
def OneValueEach (ps : List (Bytes × Bytes)) : Prop :=
  ∀ p ∈ ps, ∀ q ∈ ps, p.1 = q.1 → p.2 = q.2

theorem setAll_concat (ps : List (Bytes × Bytes)) (q : Bytes × Bytes) (env : Environ) :
    setAll (ps ++ [q]) env = setenv q.1 q.2 (setAll ps env) := by
  rw [setAll, List.foldl_append]
  rfl

theorem setAll_eq {ps : List (Bytes × Bytes)} (h : OneValueEach ps) (env : Environ) :
    ∀ p ∈ ps, setAll ps env p.1 = some p.2 := by
  induction ps using List.reverseRecOn with
  | nil => simp
  | append_singleton ps q ih =>
    intro p hp
    rw [setAll_concat, setenv, Function.update_apply]
    split_ifs with hname
    · rw [h q (by simp) p hp hname.symm]
    · have hmem : p ∈ ps := by
        rcases List.mem_append.mp hp with hp | hp
        · exact hp
        · exact absurd (congrArg Prod.fst (List.mem_singleton.mp hp)) hname
      exact ih (fun a ha b hb => h a (List.mem_append_left _ ha) b (List.mem_append_left _ hb)) p hmem

/-- The list survives: the reader succeeds, and sets each name to its value. -/
def Survives (ps : List (Bytes × Bytes)) (env : Environ) : Prop :=
  (extractAndSetEnv (some (aflTargetEnv ps)) env).1 = true ∧
    ∀ p ∈ ps, (extractAndSetEnv (some (aflTargetEnv ps)) env).2 p.1 = some p.2

/-- The lists that survive: at least one pair, no quote in a value, and one value for each
name. -/
structure Quotable (ps : List (Bytes × Bytes)) : Prop where
  ne_nil : ps ≠ []
  unquoted : ∀ p ∈ ps, quoteByte ∉ p.2
  consistent : OneValueEach ps

/-- The pairs that the runner may be given. -/
structure IsEnvPair (p : Bytes × Bytes) : Prop where
  name : IsEnvName p.1
  value : 0 ∉ p.2

theorem escapeQuotes_nonzero {val : Bytes} (h : 0 ∉ val) : 0 ∉ escapeQuotes val := by
  intro hmem
  obtain ⟨b, hb, hzero⟩ := List.mem_flatMap.mp hmem
  split_ifs at hzero with hquote
  · exact absurd hzero (by decide)
  · rw [← List.mem_singleton.mp hzero] at hb
    exact h hb

theorem envAssignment_nonzero {p : Bytes × Bytes} (h : IsEnvPair p) : 0 ∉ envAssignment p := by
  have hname : 0 ∉ p.1 := fun hmem => (isNameByte_ne (h.name.bytes 0 hmem)).2.2 rfl
  have hvalue := escapeQuotes_nonzero h.value
  simp [envAssignment, quoteForAflTargetEnv, hname, hvalue, quoteByte]

/-- The whole text is read. -/
theorem cstr_aflTargetEnv {ps : List (Bytes × Bytes)} (h : ∀ p ∈ ps, IsEnvPair p) :
    cstr (aflTargetEnv ps) = aflTargetEnv ps := by
  rw [cstr, List.takeWhile_eq_self_iff]
  intro b hb
  rw [decide_eq_true_eq]
  rintro rfl
  cases ps with
  | nil => exact absurd hb (by simp [aflTargetEnv])
  | cons p ps =>
    rw [List.forall_mem_cons] at h
    rw [aflTargetEnv_cons, List.mem_append] at hb
    rcases hb with hb | hb
    · exact envAssignment_nonzero h.1 hb
    · obtain ⟨q, hq, hmem⟩ := List.mem_flatMap.mp hb
      rcases List.mem_cons.mp hmem with hzero | hmem
      · exact absurd hzero (by decide)
      · exact envAssignment_nonzero (h.2 q hq) hmem

theorem extractAndSetEnv_aflTargetEnv {ps : List (Bytes × Bytes)} (h : ∀ p ∈ ps, IsEnvPair p)
    (hquote : ∀ p ∈ ps, quoteByte ∉ p.2) (env : Environ) :
    extractAndSetEnv (some (aflTargetEnv ps)) env = (decide (ps ≠ []), setAll ps env) := by
  show envLoop (cstr (aflTargetEnv ps)) 0 env = _
  rw [cstr_aflTargetEnv h]
  cases ps with
  | nil => exact envLoop_nil 0 env
  | cons p ps =>
    rw [List.forall_mem_cons] at h hquote
    have hrest : ∀ q ∈ ps, IsEnvName q.1 ∧ quoteByte ∉ q.2 :=
      fun q hq => ⟨(h.2 q hq).name, hquote.2 q hq⟩
    have hscan : scanPair (envAssignment p ++ assignmentsFrom ps) = .pair p.1 p.2 (assignmentsFrom ps) :=
      @scanPair_plain [] (by simp) p h.1.name hquote.1 _
    rw [aflTargetEnv_cons, envLoop_pair hscan, envLoop_assignments hrest]
    simp [setAll]

theorem extractAndSetEnv_quote {ps : List (Bytes × Bytes)} (h : ∀ p ∈ ps, IsEnvPair p)
    (hquote : ∃ p ∈ ps, quoteByte ∈ p.2) (env : Environ) :
    (extractAndSetEnv (some (aflTargetEnv ps)) env).1 = false := by
  show (envLoop (cstr (aflTargetEnv ps)) 0 env).1 = false
  rw [cstr_aflTargetEnv h]
  obtain ⟨q, hq, hmem⟩ := hquote
  cases ps with
  | nil => exact absurd hq List.not_mem_nil
  | cons p ps =>
    rw [List.forall_mem_cons] at h
    rw [aflTargetEnv_cons]
    by_cases hp : quoteByte ∈ p.2
    · exact @envLoop_quoted_quote [] (by simp) p h.1.name hp _ 0 env
    · have hscan : scanPair (envAssignment p ++ assignmentsFrom ps) =
          .pair p.1 p.2 (assignmentsFrom ps) := @scanPair_plain [] (by simp) p h.1.name hp _
      rw [envLoop_pair hscan]
      apply envLoop_assignments_quote fun q hq => (h.2 q hq).name
      rcases List.mem_cons.mp hq with rfl | hq
      · exact absurd hmem hp
      · exact ⟨q, hq, hmem⟩

theorem survives_iff {ps : List (Bytes × Bytes)} (h : ∀ p ∈ ps, IsEnvPair p) (env : Environ) :
    Survives ps env ↔ Quotable ps := by
  constructor
  · rintro ⟨hret, hset⟩
    have hquote : ∀ p ∈ ps, quoteByte ∉ p.2 := by
      intro p hp hmem
      rw [extractAndSetEnv_quote h ⟨p, hp, hmem⟩] at hret
      exact absurd hret (by decide)
    rw [extractAndSetEnv_aflTargetEnv h hquote] at hret
    refine ⟨by simpa using hret, hquote, fun p hp q hq hname => ?_⟩
    have hvalue := hset p hp
    rw [hname, hset q hq] at hvalue
    exact (Option.some.inj hvalue).symm
  · rintro ⟨hne, hquote, hconsistent⟩
    rw [Survives, extractAndSetEnv_aflTargetEnv h hquote]
    exact ⟨decide_eq_true hne, setAll_eq hconsistent env⟩

/-! ## Reading any text -/

/-- A text that starts, behind any spaces, with a name, `=` and a value: a quoted one, or
one that ends at a space or with the text. -/
inductive StartsWithPair (text name val rest : Bytes) : Prop
  | quoted (spaces : Bytes) (q : UInt8) (blank : ∀ b ∈ spaces, b = 32) (isName : IsEnvName name)
      (quote : q = 39 ∨ q = 34) (free : q ∉ val)
      (text_eq : text = spaces ++ (name ++ 61 :: q :: (val ++ q :: rest)))
  | plain (spaces : Bytes) (blank : ∀ b ∈ spaces, b = 32) (isName : IsEnvName name)
      (ne_nil : val ≠ []) (head : ∀ b, val.head? = some b → b ≠ 39 ∧ b ≠ 34) (free : 32 ∉ val)
      (text_eq : text = spaces ++ (name ++ 61 :: (val ++ 32 :: rest)))
  | last (spaces : Bytes) (blank : ∀ b ∈ spaces, b = 32) (isName : IsEnvName name)
      (ne_nil : val ≠ []) (head : ∀ b, val.head? = some b → b ≠ 39 ∧ b ≠ 34) (free : 32 ∉ val)
      (rest_eq : rest = []) (text_eq : text = spaces ++ (name ++ 61 :: val))

/-- The texts that are read to their end: pairs, and at most one byte behind them. -/
inductive EnvText : Bytes → Prop
  | done {text : Bytes} (short : (text.dropWhile (· = 32)).length ≤ 1) : EnvText text
  | pair {text name val rest : Bytes} (starts : StartsWithPair text name val rest)
      (tail : EnvText rest) : EnvText text

theorem scanName_bytes {text name rest : Bytes} (h : scanName text = some (name, rest)) :
    ∀ b ∈ name, isNameByte b = true := by
  induction text generalizing name rest with
  | nil =>
    cases h
    simp
  | cons c text ih =>
    rw [scanName] at h
    split_ifs at h with hstop hname
    · cases h
      simp
    · obtain ⟨⟨name', rest'⟩, hrec, heq⟩ := Option.map_eq_some_iff.mp h
      cases heq
      rw [List.forall_mem_cons]
      exact ⟨by simpa using hname, ih hrec⟩

/-- A text is what stands in front of the first `q`, and the rest from there on. -/
theorem split_at_byte (q : UInt8) (text : Bytes) :
    q ∉ text.takeWhile (· ≠ q) ∧ (text.dropWhile (· ≠ q) = [] ∧ text.takeWhile (· ≠ q) = text ∨
      ∃ rest, text.dropWhile (· ≠ q) = q :: rest ∧ text = text.takeWhile (· ≠ q) ++ q :: rest) := by
  refine ⟨fun hmem => ?_, ?_⟩
  · have := List.mem_takeWhile_imp hmem
    simp at this
  · have happend := List.takeWhile_append_dropWhile (p := (· ≠ q)) (l := text)
    cases hdrop : text.dropWhile (· ≠ q) with
    | nil =>
      rw [hdrop, List.append_nil] at happend
      exact .inl ⟨rfl, happend⟩
    | cons c rest =>
      have hc : c = q := by
        have := List.head?_dropWhile_not (· ≠ q) text
        rw [hdrop] at this
        simpa using this
      subst hc
      rw [hdrop] at happend
      exact .inr ⟨rest, rfl, happend.symm⟩

/-- A value without quotes ends at a space, or with the text. -/
theorem scanValue_plain {val : Bytes} (hne : val ≠ []) (hhead : ∀ b, val.head? = some b → b ≠ 39 ∧ b ≠ 34)
    (hfree : 32 ∉ val) (name rest : Bytes) :
    scanValue name (val ++ 32 :: rest) = .pair name val rest ∧ scanValue name val = .pair name val [] := by
  obtain ⟨c, tail, rfl⟩ := List.exists_cons_of_ne_nil hne
  have hspace : c ≠ 32 := by
    rintro rfl
    exact hfree (by simp)
  have hquote : ¬ ((c = 39 || c = 34) = true) := by
    simpa using hhead c rfl
  have hall : ∀ b ∈ c :: tail, decide (b ≠ 32) = true := by
    intro b hb
    rw [decide_eq_true_eq]
    rintro rfl
    exact hfree hb
  obtain ⟨htake, hdrop⟩ := takeWhile_ne_append hfree rest
  constructor
  · rw [List.cons_append] at htake hdrop ⊢
    rw [scanValue, if_neg hspace, if_neg hquote, htake, hdrop]
    rfl
  · rw [scanValue, if_neg hspace, if_neg hquote, List.takeWhile_eq_self_iff.mpr hall,
      List.dropWhile_eq_nil_iff.mpr hall]
    rfl

/-- A scanned value is a value of a pair. -/
theorem startsWithPair_of_scanValue {name value name' val rest : Bytes}
    (h : scanValue name value = .pair name' val rest) {spaces : Bytes}
    (hblank : ∀ b ∈ spaces, b = 32) (hname : IsEnvName name) :
    name' = name ∧ StartsWithPair (spaces ++ (name ++ 61 :: value)) name val rest := by
  cases value with
  | nil => cases h
  | cons c value =>
    rw [scanValue] at h
    split_ifs at h with hspace hquote hnil
    · obtain ⟨hfree, hdrop | ⟨tail, hdrop, hvalue⟩⟩ := split_at_byte c value
      · rw [hdrop.1] at h
        cases h
      · rw [hdrop] at h
        cases h
        refine ⟨rfl, .quoted spaces c hblank hname (by simpa using hquote) hfree ?_⟩
        rw [← hvalue]
    · cases h
      have hsplit := split_at_byte 32 (c :: value)
      have hne : (c :: value).takeWhile (· ≠ 32) ≠ [] := by
        rw [List.takeWhile_cons_of_pos (by simpa using hspace)]
        simp
      have hhead : ∀ b, ((c :: value).takeWhile (· ≠ 32)).head? = some b → b ≠ 39 ∧ b ≠ 34 := by
        intro b hb
        rw [List.takeWhile_cons_of_pos (by simpa using hspace)] at hb
        obtain rfl : c = b := by simpa using hb
        simpa using hquote
      obtain ⟨hfree, ⟨hdrop, hvalue⟩ | ⟨tail, hdrop, hvalue⟩⟩ := hsplit
      · refine ⟨rfl, .last spaces hblank hname hne hhead hfree (by rw [hdrop]; rfl) ?_⟩
        rw [hvalue]
      · refine ⟨rfl, .plain spaces hblank hname hne hhead hfree ?_⟩
        rw [hdrop, List.tail_cons, ← hvalue]

/-- The scan finds a pair exactly where the text has one. -/
theorem scanPair_iff {text name val rest : Bytes} :
    scanPair text = .pair name val rest ↔ StartsWithPair text name val rest := by
  constructor
  · intro h
    have hblank : ∀ b ∈ text.takeWhile (· = 32), b = 32 := fun b hb => by
      simpa using List.mem_takeWhile_imp hb
    have happend := List.takeWhile_append_dropWhile (p := (· = 32)) (l := text)
    rw [scanPair] at h
    split at h
    · cases h
    · cases h
    · rename_i c d tail htail
      rw [htail] at happend
      split_ifs at h with hbad
      split at h
      · cases h
      · cases h
      · rename_i name' e value hname
        split_ifs at h with he
        rw [ne_eq, not_not] at he
        subst he
        have htext := length_scanName hname
        have hisName : IsEnvName name' := by
          cases name' with
          | nil =>
            obtain rfl : c = 61 := (List.cons.inj htext).1
            exact absurd rfl hbad
          | cons b name' =>
            obtain rfl : c = b := (List.cons.inj htext).1
            refine ⟨by simp, scanName_bytes hname, fun b hb => ?_⟩
            obtain rfl : c = b := by simpa using hb
            rw [Bool.or_eq_true, not_or] at hbad
            simpa using hbad.2
        rw [htext] at happend
        obtain ⟨rfl, hstarts⟩ := startsWithPair_of_scanValue h hblank hisName
        rwa [happend] at hstarts
  · intro h
    cases h with
    | quoted spaces q hblank hname hquote hfree htext =>
      rw [htext, scanPair_append hblank hname, scanValue_quoted hquote hfree]
    | plain spaces hblank hname hne hhead hfree htext =>
      rw [htext, scanPair_append hblank hname, (scanValue_plain hne hhead hfree name rest).1]
    | last spaces hblank hname hne hhead hfree hrest htext =>
      rw [htext, hrest, scanPair_append hblank hname, (scanValue_plain hne hhead hfree name rest).2]

theorem scanPair_stop {text : Bytes} : scanPair text = .stop ↔ (text.dropWhile (· = 32)).length ≤ 1 := by
  rw [scanPair]
  split
  · rename_i htail
    simp [htail]
  · rename_i htail
    simp [htail]
  · rename_i c d tail htail
    have hlen : ¬ (text.dropWhile (· = 32)).length ≤ 1 := by
      rw [htail]
      simp
    refine iff_of_false ?_ hlen
    split_ifs
    · simp
    · split
      · simp
      · simp
      · rename_i name e value hname
        split_ifs
        · simp
        · intro hstop
          cases value with
          | nil => cases hstop
          | cons b value =>
            rw [scanValue] at hstop
            split_ifs at hstop
            split at hstop <;> cases hstop

/-- A text that is read to its end makes the reader succeed, once a variable is set. -/
theorem envLoop_of_envText {text : Bytes} (h : EnvText text) {n : ℕ} (hn : n ≠ 0) (env : Environ) :
    (envLoop text n env).1 = true := by
  induction h generalizing n env with
  | done hshort =>
    rw [envLoop_stop (scanPair_stop.mpr hshort)]
    exact decide_eq_true hn
  | pair hstarts _ ih =>
    rw [envLoop_pair (scanPair_iff.mpr hstarts)]
    exact ih (Nat.succ_ne_zero n) _

theorem envLoop_of_not_envText {text : Bytes} (h : ¬ EnvText text) (n : ℕ) (env : Environ) :
    (envLoop text n env).1 = false := by
  induction hlen : text.length using Nat.strong_induction_on generalizing text n env with
  | _ len ih =>
    cases hscan : scanPair text with
    | stop => exact absurd (.done (scanPair_stop.mp hscan)) h
    | fail => rw [envLoop_fail hscan]
    | pair name val rest =>
      have hrest : ¬ EnvText rest := fun hrest => h (.pair (scanPair_iff.mp hscan) hrest)
      rw [envLoop_pair hscan]
      exact ih rest.length (hlen ▸ length_scanPair hscan) hrest (n + 1) _ rfl

/-- A variable that is set stays set. -/
theorem envLoop_isSome {key : Bytes} {env : Environ} (h : (env key).isSome = true) (text : Bytes)
    (n : ℕ) : ((envLoop text n env).2 key).isSome = true := by
  induction hlen : text.length using Nat.strong_induction_on generalizing text n env with
  | _ len ih =>
    cases hscan : scanPair text with
    | stop => rwa [envLoop_stop hscan]
    | fail => rwa [envLoop_fail hscan]
    | pair name val rest =>
      rw [envLoop_pair hscan]
      refine ih rest.length (hlen ▸ length_scanPair hscan) ?_ rest (n + 1) rfl
      rw [setenv, Function.update_apply]
      split_ifs
      · rfl
      · exact h

/-- A failing reader leaves the environment as it was. -/
def AllOrNothing (envStr : Bytes) : Prop :=
  ∀ env, (extractAndSetEnv (some envStr) env).1 = false →
    (extractAndSetEnv (some envStr) env).2 = env

/-- What follows the first pair of the text, if there is one, is read to its end. -/
def FirstPairReads (text : Bytes) : Prop :=
  ∀ name val rest, StartsWithPair text name val rest → EnvText rest

theorem allOrNothing_iff (envStr : Bytes) : AllOrNothing envStr ↔ FirstPairReads (cstr envStr) := by
  constructor
  · intro h name val rest hstarts
    by_contra hrest
    have hscan := scanPair_iff.mpr hstarts
    -- In an empty environment the variable of the first pair is new.
    have hfalse : (extractAndSetEnv (some envStr) fun _ => none).1 = false := by
      rw [extractAndSetEnv, envLoop_pair hscan]
      exact envLoop_of_not_envText hrest _ _
    have hset : ((extractAndSetEnv (some envStr) fun _ => none).2 name).isSome = true := by
      rw [extractAndSetEnv, envLoop_pair hscan]
      apply envLoop_isSome
      rw [setenv, Function.update_self]
      rfl
    rw [h _ hfalse] at hset
    exact Bool.noConfusion hset
  · intro h env hfalse
    rw [extractAndSetEnv] at hfalse ⊢
    cases hscan : scanPair (cstr envStr) with
    | stop => rw [envLoop_stop hscan]
    | fail => rw [envLoop_fail hscan]
    | pair name val rest =>
      have htext := h name val rest (scanPair_iff.mp hscan)
      rw [envLoop_pair hscan, envLoop_of_envText htext (by decide)] at hfalse
      exact absurd hfalse (by decide)

/-- A list of pairs survives the hand-over exactly when it has one, no value has a quote and
each name has one value; and a text is set as a whole or not at all exactly when what follows
its first pair is read to the end. -/
theorem targetEnv_iff {ps : List (Bytes × Bytes)} (h : ∀ p ∈ ps, IsEnvPair p) (env : Environ)
    (envStr : Bytes) :
    (Survives ps env ↔ Quotable ps) ∧ (AllOrNothing envStr ↔ FirstPairReads (cstr envStr)) :=
  ⟨survives_iff h env, allOrNothing_iff envStr⟩

/-- `ALFRESCO_USER=admin`. -/
def adminPair : Bytes × Bytes := (ascii "ALFRESCO_USER", ascii "admin")

/-- The user, a password with a blank, and the user once more. -/
def blankPassword : List (Bytes × Bytes) :=
  [adminPair, (ascii "ALFRESCO_PASS", ascii "a b"), adminPair]

theorem isEnvPair_blankPassword : ∀ p ∈ blankPassword, IsEnvPair p := by
  have hname {c : UInt8} {name val : Bytes} (hall : (c :: name).all isNameByte = true)
      (hfirst : isDigitByte c = false) (hval : 0 ∉ val) : IsEnvPair (c :: name, val) := by
    refine ⟨⟨List.cons_ne_nil _ _, List.all_eq_true.mp hall, fun b hb => ?_⟩, hval⟩
    obtain rfl := Option.some.inj hb
    exact hfirst
  have huser : IsEnvPair adminPair := hname (by decide) (by decide) (by decide)
  intro p hp
  simp only [blankPassword, List.mem_cons, List.not_mem_nil, or_false] at hp
  obtain rfl | rfl | rfl := hp
  · exact huser
  · exact hname (by decide) (by decide) (by decide)
  · exact huser

/-- These pairs survive, and a text of two pairs is set as a whole or not at all. -/
theorem targetEnv_blankPassword :
    Survives blankPassword (fun _ => none) ∧ AllOrNothing (ascii "A=1 B='2 3'") := by
  have h := targetEnv_iff isEnvPair_blankPassword (fun _ => none) (ascii "A=1 B='2 3'")
  have hconsistent : OneValueEach blankPassword := by
    unfold OneValueEach
    decide
  refine ⟨h.1.mpr ⟨by decide, by decide, hconsistent⟩, h.2.mpr ?_⟩
  intro name val rest hstarts
  have hscan := scanPair_iff.mpr hstarts
  rw [show scanPair (cstr (ascii "A=1 B='2 3'")) = .pair (ascii "A") (ascii "1") (ascii "B='2 3'")
    by decide] at hscan
  cases hscan
  have hsecond : StartsWithPair (ascii "B='2 3'") (ascii "B") (ascii "2 3") [] :=
    scanPair_iff.mp (by decide)
  exact .pair hsecond (.done (by decide))

/-- The user, and a password with a quote. -/
def quotedPassword : List (Bytes × Bytes) := [adminPair, (ascii "ALFRESCO_PASS", ascii "it's")]

/-- A password with a quote is not handed over, and the user in front of it is set although
the reader fails. -/
theorem targetEnv_quote :
    ¬ Survives quotedPassword (fun _ => none) ∧ ¬ AllOrNothing (aflTargetEnv quotedPassword) := by
  have hrun : extractAndSetEnv (some (aflTargetEnv quotedPassword)) (fun _ => none) =
      (false, setenv (ascii "ALFRESCO_PASS") (ascii "it")
        (setenv (ascii "ALFRESCO_USER") (ascii "admin") fun _ => none)) := by
    rw [extractAndSetEnv,
      envLoop_pair (show scanPair (cstr (aflTargetEnv quotedPassword)) =
        .pair (ascii "ALFRESCO_USER") (ascii "admin") (ascii " ALFRESCO_PASS='it'\\''s'")
        by decide),
      envLoop_pair (show scanPair (ascii " ALFRESCO_PASS='it'\\''s'") =
        .pair (ascii "ALFRESCO_PASS") (ascii "it") (ascii "\\''s'") by decide),
      envLoop_fail (show scanPair (ascii "\\''s'") = .fail by decide)]
  constructor
  · intro h
    have hret := h.1
    rw [hrun] at hret
    exact Bool.noConfusion hret
  · intro h
    have henv := h _ (congrArg Prod.fst hrun)
    rw [hrun] at henv
    have huser := congrFun henv (ascii "ALFRESCO_PASS")
    simp [setenv] at huser

end AflNv
