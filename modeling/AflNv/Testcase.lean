import AflNv.CBase

/-!
# Handing a test case to the target

`write_to_testcase` and `write_with_gap` of `src/afl-fuzz-run.c`: the buffer goes
through the `afl_custom_post_process` functions of the custom mutators and is
then given to the target.

A buffer is the list of the bytes up to its length.  Where the code hands over
more bytes than a buffer holds (`min_length`), the model takes them from `slack`.
-/

namespace AflNv

/-- What one `afl_custom_post_process` makes of a buffer.  A NULL buffer and an
empty result are a request not to execute the test case. -/
inductive PostProcessed where
  | skip
  /-- The new bytes are in the buffer that was passed. -/
  | inPlace (buf : Bytes)
  /-- The new bytes are in a buffer of the mutator. -/
  | fresh (buf : Bytes)
  deriving DecidableEq

/-- The functions of a custom mutator that the modelled code calls. -/
structure CustomMutator where
  /-- `afl_custom_post_process`; `none` is NULL.  It makes no random changes. -/
  postProcess : Option (Bytes → PostProcessed)
  /-- Whether there is an `afl_custom_trim`. -/
  hasTrim : Bool

/-- What decides how a test case is handed over. -/
structure TestcaseCfg where
  customMutators : List CustomMutator
  minLength : ℕ
  maxLength : ℕ
  aflPostProcessKeepOriginal : Bool
  /-- What memory holds behind the end of a buffer, by the offset in it. -/
  slack : ℕ → UInt8

/-- No custom mutators and the limits of `afl_state_init`. -/
def TestcaseCfg.plain : TestcaseCfg where
  customMutators := []
  minLength := 1
  maxLength := 1048576
  aflPostProcessKeepOriginal := false
  slack := fun _ => 0

/-- The first `n` bytes at the address of a buffer. -/
def resize (slack : ℕ → UInt8) (n : ℕ) (buf : Bytes) : Bytes :=
  buf.take n ++ (List.range (n - buf.length)).map fun i => slack (buf.length + i)

@[simp] theorem length_resize (slack : ℕ → UInt8) (n : ℕ) (buf : Bytes) :
    (resize slack n buf).length = n := by
  rw [resize, List.length_append, List.length_take, List.length_map, List.length_range]
  omega

@[simp] theorem resize_length (slack : ℕ → UInt8) (buf : Bytes) :
    resize slack buf.length buf = buf := by
  rw [resize, List.take_length, Nat.sub_self, List.range_zero, List.map_nil, List.append_nil]

/-! ## Post-processing -/

/-- The variables of the loop over the custom mutators. -/
structure PostBuf where
  /-- The buffer the loop started with. -/
  given : Bytes
  /-- `new_mem`, when it is another buffer. -/
  copy : Option Bytes
  /-- `new_size`. -/
  size : ℕ

/-- What `new_mem` points to. -/
def PostBuf.newMem (b : PostBuf) : Bytes := b.copy.getD b.given

/-- One mutator. -/
def postProcessStep (b : PostBuf) (m : CustomMutator) : PostBuf :=
  match m.postProcess with
  | none => b
  | some postProcess =>
    match postProcess (b.newMem.take b.size) with
    | .skip | .inPlace [] | .fresh [] => { b with size := 0 }
    | .inPlace buf =>
      let mem := buf ++ b.newMem.drop buf.length
      match b.copy with
      | none => { b with given := mem, size := buf.length }
      | some _ => { b with copy := some mem, size := buf.length }
    | .fresh buf => { b with copy := some buf, size := buf.length }

/-- The loop over the custom mutators. -/
def postProcessAll (cfg : TestcaseCfg) (buf : Bytes) : PostBuf :=
  cfg.customMutators.foldl postProcessStep ⟨buf, none, buf.length⟩

/-- No custom mutator post-processes. -/
def TestcaseCfg.NoPostProcess (cfg : TestcaseCfg) : Prop :=
  ∀ m ∈ cfg.customMutators, m.postProcess = none

theorem postProcessAll_of_noPostProcess {cfg : TestcaseCfg} (h : cfg.NoPostProcess)
    (buf : Bytes) : postProcessAll cfg buf = ⟨buf, none, buf.length⟩ := by
  suffices key : ∀ ms : List CustomMutator, (∀ m ∈ ms, m.postProcess = none) →
      ∀ b : PostBuf, ms.foldl postProcessStep b = b from key _ h _
  intro ms
  induction ms with
  | nil => exact fun _ _ => rfl
  | cons m ms ih =>
    intro hms b
    have hm : postProcessStep b m = b := by
      simp only [postProcessStep, hms m List.mem_cons_self]
    rw [List.foldl_cons, hm, ih fun m' hm' => hms m' (List.mem_cons_of_mem m hm')]

/-- The limits on the length of a test case; `fix` lifts the lower one. -/
def clampLength (cfg : TestcaseCfg) (fix : Bool) (n : ℕ) : ℕ :=
  if n < cfg.minLength ∧ fix = false then cfg.minLength
  else if n > cfg.maxLength then cfg.maxLength
  else n

/-! ## The two writers -/

/-- What `write_to_testcase` leaves. -/
structure Written where
  /-- The first `len` bytes at `*mem`. -/
  mem : Bytes
  /-- The returned length. -/
  len : ℕ
  /-- The bytes the target gets; `none` when nothing is handed over. -/
  delivered : Option Bytes

/-- `write_to_testcase`. -/
def writeToTestcase (cfg : TestcaseCfg) (mem : Bytes) (fix : Bool) : Written :=
  if cfg.customMutators.isEmpty then
    let len := clampLength cfg fix mem.length
    let out := resize cfg.slack len mem
    ⟨out, len, some out⟩
  else
    let b := postProcessAll cfg mem
    if b.size = 0 ∧ fix = false then ⟨[], 0, none⟩
    else
      let newSize := clampLength cfg fix (if b.size = 0 then mem.length else b.size)
      let out := resize cfg.slack newSize b.newMem
      if cfg.aflPostProcessKeepOriginal then ⟨b.given.take mem.length, mem.length, some out⟩
      else ⟨out, newSize, some out⟩

/-- A buffer without a part of it. -/
def gapped (mem : Bytes) (skipAt skipLen : ℕ) : Bytes :=
  mem.take skipAt ++ mem.drop (skipAt + skipLen)

/-- `write_with_gap`: what the target gets.  The mutators work on a copy here. -/
def writeWithGap (cfg : TestcaseCfg) (mem : Bytes) (skipAt skipLen : ℕ) : Bytes :=
  let b := postProcessAll cfg (gapped mem skipAt skipLen)
  b.newMem.take b.size

theorem length_gapped {mem : Bytes} {skipAt skipLen : ℕ} (h : skipAt + skipLen ≤ mem.length) :
    (gapped mem skipAt skipLen).length = mem.length - skipLen := by
  rw [gapped, List.length_append, List.length_take, List.length_drop]
  omega

theorem writeWithGap_of_noPostProcess {cfg : TestcaseCfg} (h : cfg.NoPostProcess) (mem : Bytes)
    (skipAt skipLen : ℕ) :
    writeWithGap cfg mem skipAt skipLen = gapped mem skipAt skipLen := by
  rw [writeWithGap, postProcessAll_of_noPostProcess h]
  exact List.take_length

/-- Without post-processing a buffer within the limits is executed as it is. -/
theorem writeToTestcase_of_noPostProcess {cfg : TestcaseCfg} (h : cfg.NoPostProcess)
    {mem : Bytes} (hmax : mem.length ≤ cfg.maxLength) :
    (writeToTestcase cfg mem true).delivered = some mem := by
  have hclamp : clampLength cfg true mem.length = mem.length := by
    rw [clampLength, if_neg (by simp), if_neg (by omega)]
  rw [writeToTestcase]
  by_cases hempty : cfg.customMutators.isEmpty = true
  · simp only [hempty, if_true, hclamp, resize_length]
  · have hsize : (if mem.length = 0 then mem.length else mem.length) = mem.length := ite_id _
    simp only [hempty, Bool.false_eq_true, if_false, postProcessAll_of_noPostProcess h,
      Bool.true_eq_false, and_false, hsize, hclamp, PostBuf.newMem, Option.getD_none,
      resize_length]
    split_ifs <;> rfl

end AflNv
