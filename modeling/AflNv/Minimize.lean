import AflNv.Trim

/-!
# Minimization of one test case

`afl-tmin` runs its input once and learns from it what to keep: the hang, the crash, or the
checksum of the trace.  `minimize` then normalizes blocks, and passes over the input with three
stages until a pass changes nothing: blocks are deleted, symbols are replaced by `0`, and so are
single characters.  Each change is kept if `tmin_run_target` says so.

* `Reduces` is what every stage keeps.
* `deleteLoop_tried` says that a round over the blocks that deletes nothing has tried them all.
* `tmin_spec` is about the whole: what is written behaves as the input, of which it leaves out bytes
  and replaces others by `0`, and no aligned block of the final length can be left out of it.

The trimming by a custom mutator, which takes the place of the stages, is left out.
-/

namespace AflNv

namespace Tmin

/-! ## The target -/

/-- What `afl_fsrv_run_target` returns, where it is not fatal. -/
inductive RunResult where
  | ok
  | crash
  | tmout
  deriving DecidableEq

/-- One execution; the checksum is that of the classified and masked trace. -/
structure Execution where
  result : RunResult
  cksum : UInt64
  anythingSet : Bool
  deriving DecidableEq

structure Mode where
  hangMode : Bool
  crashMode : Bool
  exactMode : Bool
  origCksum : UInt64
  deriving DecidableEq

/-- `tmin_run_target`, behind the first run. -/
def tminRunTarget (m : Mode) (x : Execution) : Bool :=
  if m.hangMode then x.result = .tmout
  else
    match x.result with
    | .tmout => false
    | .crash =>
      if m.crashMode then
        if !m.exactMode then true else m.origCksum = x.cksum
      else false
    | .ok => if m.crashMode then false else m.origCksum = x.cksum

/-- The dry run of `main`; `none` where it is fatal. -/
def dryRun (hangMode exactMode : Bool) (x : Execution) : Option Mode :=
  let exactMode := exactMode && !hangMode
  match hangMode, x.result with
  | true, .tmout => some ⟨true, false, exactMode, 0⟩
  | true, _ => none
  | false, .tmout => none
  | false, .crash => some ⟨false, true, exactMode, if exactMode then x.cksum else 0⟩
  | false, .ok => if x.anythingSet then some ⟨false, false, exactMode, x.cksum⟩ else none

/-- What the tool wants of `x` if `y` is the first run. -/
def Alike (exactMode : Bool) (x y : Execution) : Prop :=
  x.result = y.result ∧
    (y.result = .ok ∨ y.result = .crash ∧ exactMode = true → x.cksum = y.cksum)

/-- The input of the dry run decides what is accepted later. -/
theorem tminRunTarget_iff {hangMode exactMode : Bool} {y : Execution} {m : Mode}
    (h : dryRun hangMode exactMode y = some m) (x : Execution) :
    tminRunTarget m x = true ↔ Alike exactMode x y := by
  unfold dryRun at h
  split at h <;> rename_i hresult
  · cases h
    simp [tminRunTarget, Alike, hresult]
  · cases h
  · cases h
  · cases h
    cases hx : x.result <;> cases exactMode <;>
      simp [tminRunTarget, Alike, hresult, hx, eq_comm]
  · split_ifs at h
    cases h
    cases hx : x.result <;> simp [tminRunTarget, Alike, hresult, hx, eq_comm]

/-! ## The stages -/

/-- `in_data` and `changed_any`. -/
structure Data where
  inData : Bytes
  changedAny : Bool

/-- The symbols in the order of their turns. -/
def symbols : List UInt8 := (List.range 256).map UInt8.ofNat

theorem symbols_nodup : symbols.Nodup := by
  refine List.Nodup.map_on (fun i hi j hj hij => ?_) List.nodup_range
  have hnat := congrArg UInt8.toNat hij
  rwa [UInt8.toNat_ofNat_of_lt' (List.mem_range.mp hi),
    UInt8.toNat_ofNat_of_lt' (List.mem_range.mp hj)] at hnat

/-- `tmp_buf` in the turn of the symbol `b`. -/
def zeroed (b : UInt8) (data : Bytes) : Bytes := data.map fun c => if c = b then 48 else c

section Stages

variable (accept : Bytes → Bool)

/-- Run the target on a change, and keep the change if it is no dud. -/
def attempt (s : Data) (tmpBuf : Bytes) : Data :=
  if accept tmpBuf then ⟨tmpBuf, true⟩ else s

/-- `memset(.. + pos, '0', n)` -/
def fill (data : Bytes) (pos n : ℕ) : Bytes :=
  data.take pos ++ List.replicate n 48 ++ data.drop (pos + n)

/-- Block normalization from `set_pos` on; `set_len` is positive. -/
def normalizeBlocks (setLen setPos inLen : ℕ) (s : Data) : Data :=
  if setPos < inLen ∧ 0 < setLen then
    let useLen := min setLen (inLen - setPos)
    if ((s.inData.drop setPos).take useLen).all (· = 48) then
      normalizeBlocks setLen (setPos + setLen) inLen s
    else
      normalizeBlocks setLen (setPos + setLen) inLen
        (attempt accept s (fill s.inData setPos useLen))
  else s
termination_by inLen - setPos

/-- The data without the block at `pos`. -/
def cut (data : Bytes) (n pos : ℕ) : Bytes := data.take pos ++ data.drop (pos + n)

/-- One round of block deletion from `del_pos` on; `del_len` is positive. -/
def deleteLoop (delLen delPos : ℕ) (prevDel : Bool) (s : Data) : Data :=
  if delPos < s.inData.length ∧ 0 < delLen then
    let tailLen := s.inData.length - delPos - delLen
    if prevDel = false ∧ tailLen ≠ 0 ∧
        (s.inData.drop (delPos - delLen)).take delLen = (s.inData.drop delPos).take delLen then
      deleteLoop delLen (delPos + delLen) prevDel s
    else
      let tmpBuf := cut s.inData delLen delPos
      if accept tmpBuf then deleteLoop delLen delPos true ⟨tmpBuf, true⟩
      else deleteLoop delLen (delPos + delLen) false s
  else s
termination_by s.inData.length - delPos
decreasing_by
  · omega
  · simp only [cut, List.length_append, List.length_take, List.length_drop]
    omega
  · omega

/-- Block deletion, with blocks of half the length in every round; the length is at least 1. -/
def deleteBlocks (delLenLimit : ℕ+) (delLen : ℕ) (s : Data) : Data :=
  let s' := deleteLoop accept (max 1 delLen) 0 true s
  if (delLenLimit : ℕ) < max 1 delLen ∧ 1 ≤ s'.inData.length then
    deleteBlocks delLenLimit (max 1 delLen / 2) s'
  else s'
termination_by delLen
decreasing_by
  have hpos := delLenLimit.pos
  omega

/-- Alphabet minimization; `alpha_map` is of the data at its beginning. -/
def minimizeSymbols (s : Data) : Data :=
  (symbols.filter fun b => b ≠ 48 ∧ b ∈ s.inData).foldl
    (fun s b => attempt accept s (zeroed b s.inData)) s

/-- Character minimization. -/
def minimizeChars (s : Data) : Data :=
  (List.range s.inData.length).foldl (fun s i =>
    if s.inData[i]? = some 48 then s else attempt accept s (s.inData.set i 48)) s

/-! ## What a stage keeps -/

/-- A byte of the result is the byte of the input, or `0` in its place. -/
def Kept (y x : UInt8) : Prop := y = x ∨ y = 48

instance kept_refl : Std.Refl Kept := ⟨fun _ => .inl rfl⟩

instance kept_trans : IsTrans UInt8 Kept where
  trans := by
    rintro z y x (rfl | rfl) hyx
    · exact hyx
    · exact .inr rfl

/-- What the changes make smaller: the length, and the number of bytes other than `0`. -/
def size (data : Bytes) : ℕ := data.length + data.countP (· ≠ 48)

/-- What every stage keeps. -/
structure Reduces (s s' : Data) : Prop where
  accepted : accept s.inData = true → accept s'.inData = true
  kept : List.SublistForall₂ Kept s'.inData s.inData
  progress : s'.inData = s.inData ∧ s'.changedAny = s.changedAny ∨
    s'.changedAny = true ∧ size s'.inData < size s.inData

variable {accept}

theorem Reduces.refl (s : Data) : Reduces accept s s :=
  ⟨id, List.SublistForall₂.is_refl.refl _, .inl ⟨rfl, rfl⟩⟩

theorem Reduces.trans {s s' s'' : Data} (h : Reduces accept s s') (h' : Reduces accept s' s'') :
    Reduces accept s s'' where
  accepted := h'.accepted ∘ h.accepted
  kept := List.SublistForall₂.is_trans.trans _ _ _ h'.kept h.kept
  progress := by
    obtain ⟨hdata, hchanged⟩ | ⟨hchanged, hsize⟩ := h.progress
    · rw [← hdata, ← hchanged]
      exact h'.progress
    · obtain ⟨hdata', hchanged'⟩ | ⟨hchanged', hsize'⟩ := h'.progress
      · exact .inr ⟨hchanged'.trans hchanged, hdata' ▸ hsize⟩
      · exact .inr ⟨hchanged', hsize'.trans hsize⟩

theorem Reduces.of_accept {s : Data} {tmpBuf : Bytes} (haccept : accept tmpBuf = true)
    (hkept : List.SublistForall₂ Kept tmpBuf s.inData) (hsize : size tmpBuf < size s.inData) :
    Reduces accept s ⟨tmpBuf, true⟩ :=
  ⟨fun _ => haccept, hkept, .inr ⟨rfl, hsize⟩⟩

theorem attempt_reduces {s : Data} {tmpBuf : Bytes}
    (hkept : List.SublistForall₂ Kept tmpBuf s.inData) (hsize : size tmpBuf < size s.inData) :
    Reduces accept s (attempt accept s tmpBuf) := by
  unfold attempt
  split_ifs with haccept
  · exact .of_accept haccept hkept hsize
  · exact .refl s

/-! ### Bytes that are replaced -/

theorem size_cons (b : UInt8) (data : Bytes) :
    size (b :: data) = size data + 1 + if b = 48 then 0 else 1 := by
  unfold size
  rw [List.countP_cons, List.length_cons]
  by_cases hb : b = 48 <;> simp [hb] <;> omega

theorem size_le_of_kept {b a : Bytes} (h : List.Forall₂ Kept b a) : size b ≤ size a := by
  induction h with
  | nil => exact Nat.le_refl _
  | @cons y x ys xs hyx _ ih =>
    rw [size_cons, size_cons]
    rcases hyx with rfl | rfl
    · omega
    · rw [if_pos rfl]
      omega

theorem size_lt_of_kept {b a : Bytes} (h : List.Forall₂ Kept b a) (hne : b ≠ a) :
    size b < size a := by
  induction h with
  | nil => exact absurd rfl hne
  | @cons y x ys xs hyx htail ih =>
    rw [size_cons, size_cons]
    by_cases hhead : y = x
    · subst hhead
      have hlt := ih fun htail => hne (htail ▸ rfl)
      omega
    · obtain rfl := hyx.resolve_left hhead
      have hle := size_le_of_kept htail
      rw [if_pos rfl, if_neg (Ne.symm hhead)]
      omega

theorem attempt_replaced {s : Data} {tmpBuf : Bytes} (h : List.Forall₂ Kept tmpBuf s.inData)
    (hne : tmpBuf ≠ s.inData) : Reduces accept s (attempt accept s tmpBuf) :=
  attempt_reduces (List.sublistForall₂_iff.mpr ⟨s.inData, h, List.Sublist.refl _⟩)
    (size_lt_of_kept h hne)

theorem kept_map {f : UInt8 → UInt8} (h : ∀ b, Kept (f b) b) (a : Bytes) :
    List.Forall₂ Kept (a.map f) a := by
  rw [List.forall₂_map_left_iff]
  exact List.forall₂_same.mpr fun b _ => h b

theorem fill_eq {data : Bytes} {pos n : ℕ} (hfit : pos + n ≤ data.length) :
    fill data pos n =
      data.take pos ++ ((data.drop pos).take n).map (fun _ => 48) ++ data.drop (pos + n) := by
  have hlength : ((data.drop pos).take n).length = n := by
    rw [List.length_take, List.length_drop]
    omega
  rw [fill, List.map_const', hlength]

theorem slices_eq (data : Bytes) (pos n : ℕ) :
    data.take pos ++ (data.drop pos).take n ++ data.drop (pos + n) = data := by
  rw [List.append_assoc, ← List.drop_drop, List.take_append_drop, List.take_append_drop]

theorem kept_fill {data : Bytes} {pos n : ℕ} (hfit : pos + n ≤ data.length) :
    List.Forall₂ Kept (fill data pos n) data := by
  rw [fill_eq hfit]
  conv => rhs; rw [← slices_eq data pos n]
  have hsame (l : Bytes) : List.Forall₂ Kept l l := List.forall₂_same.mpr fun _ _ => .inl rfl
  exact List.rel_append (List.rel_append (hsame _) (kept_map (fun _ => .inr rfl) _)) (hsame _)

theorem fill_ne {data : Bytes} {pos n : ℕ} (hfit : pos + n ≤ data.length)
    (hother : ((data.drop pos).take n).all (· = 48) = false) : fill data pos n ≠ data := by
  intro hsame
  rw [fill_eq hfit] at hsame
  have hblock := congrArg (fun l => (l.drop pos).take n) hsame
  have hpos : (data.take pos).length = pos := by
    rw [List.length_take]
    omega
  have hlength : (((data.drop pos).take n).map fun _ => (48 : UInt8)).length = n := by
    rw [List.length_map, List.length_take, List.length_drop]
    omega
  rw [List.append_assoc, List.drop_append_of_le_length (by rw [hpos]), List.drop_of_length_le
    (by rw [hpos]), List.nil_append, List.take_append_of_le_length (by rw [hlength]),
    List.take_of_length_le (by rw [hlength])] at hblock
  rw [← hblock] at hother
  simp at hother

theorem kept_set (data : Bytes) (i : ℕ) : List.Forall₂ Kept (data.set i 48) data := by
  induction data generalizing i with
  | nil => exact .nil
  | cons b data ih =>
    cases i with
    | zero => exact .cons (.inr rfl) (List.forall₂_same.mpr fun _ _ => .inl rfl)
    | succ i => exact .cons (.inl rfl) (ih i)

/-! ### The stages -/

variable (accept) in
theorem normalizeBlocks_reduces (setLen setPos : ℕ) {inLen : ℕ} {s : Data}
    (hlength : s.inData.length = inLen) :
    Reduces accept s (normalizeBlocks accept setLen setPos inLen s) ∧
      (normalizeBlocks accept setLen setPos inLen s).inData.length = inLen := by
  fun_induction normalizeBlocks accept setLen setPos inLen s with
  | case1 setPos s hpos useLen hzero ih => exact ih hlength
  | case2 setPos s hpos useLen hzero ih =>
    have hfit : setPos + useLen ≤ s.inData.length := by omega
    have hkept := kept_fill hfit
    have hattempt : Reduces accept s (attempt accept s (fill s.inData setPos useLen)) :=
      attempt_replaced hkept (fill_ne hfit (Bool.eq_false_iff.mpr hzero))
    have hsame : (attempt accept s (fill s.inData setPos useLen)).inData.length = inLen := by
      unfold attempt
      split_ifs
      · exact hkept.length_eq.trans hlength
      · exact hlength
    obtain ⟨hreduces, hlast⟩ := ih hsame
    exact ⟨hattempt.trans hreduces, hlast⟩
  | case3 setPos s hpos => exact ⟨.refl s, hlength⟩

theorem cut_sublist (data : Bytes) (n pos : ℕ) : (cut data n pos).Sublist data := by
  conv => rhs; rw [← List.take_append_drop pos data]
  refine List.Sublist.append_left ?_ _
  rw [← List.drop_drop]
  exact List.drop_sublist ..

theorem size_cut_lt {data : Bytes} {n pos : ℕ} (hpos : pos < data.length) (hn : 0 < n) :
    size (cut data n pos) < size data := by
  have hcount := (cut_sublist data n pos).countP_le (p := (· ≠ 48))
  have hlength : (cut data n pos).length < data.length := by
    rw [cut, List.length_append, List.length_take, List.length_drop]
    omega
  unfold size
  omega

theorem deleteLoop_reduces (delLen delPos : ℕ) (prevDel : Bool) (s : Data) :
    Reduces accept s (deleteLoop accept delLen delPos prevDel s) := by
  fun_induction deleteLoop accept delLen delPos prevDel s with
  | case1 delPos prevDel s hpos tailLen hskip ih => exact ih
  | case2 delPos prevDel s hpos tailLen hskip tmpBuf haccept ih =>
    have hsub : List.SublistForall₂ Kept tmpBuf s.inData :=
      List.sublistForall₂_iff.mpr ⟨tmpBuf, List.forall₂_same.mpr fun _ _ => .inl rfl,
        cut_sublist ..⟩
    exact (Reduces.of_accept haccept hsub (size_cut_lt hpos.1 hpos.2)).trans ih
  | case3 delPos prevDel s hpos tailLen hskip tmpBuf haccept ih => exact ih
  | case4 delPos prevDel s hpos => exact .refl s

theorem deleteBlocks_reduces (delLenLimit : ℕ+) (delLen : ℕ) (s : Data) :
    Reduces accept s (deleteBlocks accept delLenLimit delLen s) := by
  fun_induction deleteBlocks accept delLenLimit delLen s with
  | case1 delLen s s' hmore ih => exact (deleteLoop_reduces ..).trans ih
  | case2 delLen s s' hdone => exact deleteLoop_reduces ..

variable (accept) in
theorem attempt_inData (s : Data) (tmpBuf : Bytes) :
    (attempt accept s tmpBuf).inData = tmpBuf ∨ (attempt accept s tmpBuf).inData = s.inData := by
  unfold attempt
  split_ifs
  · exact .inl rfl
  · exact .inr rfl

theorem zeroed_ne {b : UInt8} {data : Bytes} (hb : b ≠ 48) (hin : b ∈ data) :
    zeroed b data ≠ data := by
  intro hsame
  have hnot : b ∉ zeroed b data := by
    simp only [zeroed, List.mem_map, not_exists, not_and]
    intro c _
    split_ifs with hc
    · exact Ne.symm hb
    · exact hc
  rw [hsame] at hnot
  exact hnot hin

theorem mem_zeroed {b c : UInt8} {data : Bytes} (hne : c ≠ b) (hin : c ∈ data) :
    c ∈ zeroed b data :=
  List.mem_map.mpr ⟨c, hin, if_neg hne⟩

/-- The symbols that wait for their turn are still in the data. -/
theorem symbols_reduces (symbols : List UInt8) {s : Data} (hnodup : symbols.Nodup)
    (hzero : 48 ∉ symbols) (hin : ∀ b ∈ symbols, b ∈ s.inData) :
    Reduces accept s (symbols.foldl (fun s b => attempt accept s (zeroed b s.inData)) s) := by
  induction symbols generalizing s with
  | nil => exact .refl s
  | cons b symbols ih =>
    obtain ⟨hb, hnodup⟩ := List.nodup_cons.mp hnodup
    rw [List.mem_cons, not_or] at hzero
    have hkept : List.Forall₂ Kept (zeroed b s.inData) s.inData := by
      refine kept_map (fun c => ?_) _
      split_ifs
      · exact .inr rfl
      · exact .inl rfl
    have hturn : Reduces accept s (attempt accept s (zeroed b s.inData)) :=
      attempt_replaced hkept (zeroed_ne (Ne.symm hzero.1) (hin b List.mem_cons_self))
    refine hturn.trans (ih hnodup hzero.2 fun c hc => ?_)
    have hcin := hin c (List.mem_cons_of_mem _ hc)
    obtain hdata | hdata := attempt_inData accept s (zeroed b s.inData)
    · rw [hdata]
      exact mem_zeroed (fun heq => hb (heq ▸ hc)) hcin
    · rw [hdata]
      exact hcin

theorem minimizeSymbols_reduces (s : Data) : Reduces accept s (minimizeSymbols accept s) := by
  refine symbols_reduces _ (List.Nodup.filter _ symbols_nodup) (fun hzero => ?_) fun b hb => ?_
  · simp at hzero
  · exact (of_decide_eq_true (List.mem_filter.mp hb).2).2

theorem chars_reduces (positions : List ℕ) {s : Data}
    (hin : ∀ i ∈ positions, i < s.inData.length) :
    Reduces accept s (positions.foldl (fun s i =>
      if s.inData[i]? = some 48 then s else attempt accept s (s.inData.set i 48)) s) := by
  induction positions generalizing s with
  | nil => exact .refl s
  | cons i positions ih =>
    rw [List.foldl_cons]
    split_ifs with hzero
    · exact ih fun j hj => hin j (List.mem_cons_of_mem _ hj)
    · have hne : s.inData.set i 48 ≠ s.inData := by
        intro hsame
        rw [← hsame, List.getElem?_set_self (hin i List.mem_cons_self)] at hzero
        exact hzero rfl
      refine (attempt_replaced (kept_set _ _) hne).trans (ih fun j hj => ?_)
      have hj := hin j (List.mem_cons_of_mem _ hj)
      obtain hdata | hdata := attempt_inData accept s (s.inData.set i 48)
      · rw [hdata, List.length_set]
        exact hj
      · rw [hdata]
        exact hj

theorem minimizeChars_reduces (s : Data) : Reduces accept s (minimizeChars accept s) :=
  chars_reduces _ fun _ hi => List.mem_range.mp hi

variable (accept) in
theorem pass_reduces (delLenLimit : ℕ+) (delLen : ℕ) (inData : Bytes) :
    Reduces accept ⟨inData, false⟩ (minimizeChars accept (minimizeSymbols accept
      (deleteBlocks accept delLenLimit delLen ⟨inData, false⟩))) :=
  (deleteBlocks_reduces ..).trans ((minimizeSymbols_reduces _).trans (minimizeChars_reduces _))

/-! ### The blocks that are tried -/

theorem Reduces.size_le {s s' : Data} (h : Reduces accept s s') :
    size s'.inData ≤ size s.inData := by
  obtain ⟨hdata, -⟩ | ⟨-, hsize⟩ := h.progress
  · rw [hdata]
  · exact hsize.le

theorem Reduces.inData_eq {s s' : Data} (h : Reduces accept s s')
    (hunchanged : s'.changedAny = false) : s'.inData = s.inData := by
  obtain ⟨hdata, -⟩ | ⟨hchanged, -⟩ := h.progress
  · exact hdata
  · rw [hchanged] at hunchanged
    cases hunchanged

/-- Data that is the same at the end was the same all the time. -/
theorem Reduces.inData_eq_of_eq {s s' s'' : Data} (h : Reduces accept s s')
    (h' : Reduces accept s' s'') (hsame : s''.inData = s.inData) : s'.inData = s.inData := by
  obtain ⟨hdata, -⟩ | ⟨-, hsize⟩ := h.progress
  · exact hdata
  · have hle := h'.size_le
    rw [hsame] at hle
    omega

/-- Without either of two equal blocks in a row the data is the same. -/
theorem cut_prev {data : Bytes} {n pos : ℕ} (hpos : n ≤ pos)
    (hsame : (data.drop (pos - n)).take n = (data.drop pos).take n) :
    cut data n (pos - n) = cut data n pos := by
  obtain ⟨first, rfl⟩ := Nat.exists_eq_add_of_le' hpos
  rw [Nat.add_sub_cancel] at hsame ⊢
  rw [cut, cut, List.take_add, hsame, List.append_assoc,
    ← List.drop_drop (i := n) (j := first + n), List.take_append_drop]

theorem deleteLoop_tried {delLen : ℕ} (delPos : ℕ) (prevDel : Bool) {s : Data}
    (hlen : 0 < delLen)
    (hprev : prevDel = false →
      delLen ≤ delPos ∧ accept (cut s.inData delLen (delPos - delLen)) = false)
    (hsame : (deleteLoop accept delLen delPos prevDel s).inData = s.inData) (k : ℕ)
    (hk : delPos + k * delLen < s.inData.length) :
    accept (cut s.inData delLen (delPos + k * delLen)) = false := by
  fun_induction deleteLoop accept delLen delPos prevDel s generalizing k with
  | case1 delPos prevDel s hpos tailLen hskip ih =>
    obtain ⟨hle, hrejected⟩ := hprev hskip.1
    rw [cut_prev hle hskip.2.2] at hrejected
    cases k with
    | zero => rwa [Nat.zero_mul]
    | succ k =>
      rw [Nat.succ_mul, Nat.add_comm _ delLen, ← Nat.add_assoc] at hk ⊢
      refine ih (fun _ => ⟨Nat.le_add_left .., ?_⟩) hsame k hk
      rwa [Nat.add_sub_cancel]
  | case2 delPos prevDel s hpos tailLen hskip tmpBuf haccept ih =>
    have hle : size s.inData ≤ size tmpBuf :=
      hsame ▸ (deleteLoop_reduces delLen delPos true ⟨tmpBuf, true⟩).size_le
    exact absurd (size_cut_lt hpos.1 hpos.2) (Nat.not_lt.mpr hle)
  | case3 delPos prevDel s hpos tailLen hskip tmpBuf haccept ih =>
    have hrejected : accept tmpBuf = false := Bool.eq_false_iff.mpr haccept
    cases k with
    | zero => rwa [Nat.zero_mul]
    | succ k =>
      rw [Nat.succ_mul, Nat.add_comm _ delLen, ← Nat.add_assoc] at hk ⊢
      refine ih (fun _ => ⟨Nat.le_add_left .., ?_⟩) hsame k hk
      rwa [Nat.add_sub_cancel]
  | case4 delPos prevDel s hpos => omega

/-- No aligned block of some length up to the limit can be left out. -/
def BlockMinimal (accept : Bytes → Bool) (delLenLimit : ℕ) (data : Bytes) : Prop :=
  ∃ n, 0 < n ∧ n ≤ delLenLimit ∧ ∀ k, k * n < data.length → accept (cut data n (k * n)) = false

theorem deleteBlocks_minimal (delLenLimit : ℕ+) (delLen : ℕ) {s : Data}
    (hsame : (deleteBlocks accept delLenLimit delLen s).inData = s.inData) :
    BlockMinimal accept delLenLimit s.inData := by
  fun_induction deleteBlocks accept delLenLimit delLen s with
  | case1 delLen s s' hmore ih =>
    have hround : s'.inData = s.inData :=
      (deleteLoop_reduces ..).inData_eq_of_eq (deleteBlocks_reduces ..) hsame
    rw [← hround] at hsame ⊢
    exact ih hsame
  | case2 delLen s s' hdone =>
    by_cases hempty : s.inData.length = 0
    · exact ⟨1, Nat.one_pos, delLenLimit.pos, fun k hk => by omega⟩
    · have hlimit : max 1 delLen ≤ delLenLimit := by
        rw [show s'.inData = s.inData from hsame] at hdone
        omega
      refine ⟨max 1 delLen, by omega, hlimit, fun k hk => ?_⟩
      have htried := deleteLoop_tried 0 true (by omega) (fun h => by cases h) hsame k
      rw [Nat.zero_add] at htried
      exact htried hk

/-! ## The whole -/

section Passes

variable (accept : Bytes → Bool)

/-- The passes; `later` is whether there was one before. -/
def passes (delLenLimit : ℕ+) (later : Bool) (inData : Bytes) : Bytes :=
  let s := deleteBlocks accept delLenLimit (lenP2 (inData.length / 16)) ⟨inData, false⟩
  if later && !s.changedAny then s.inData
  else
    let s' := minimizeChars accept (minimizeSymbols accept s)
    if s'.changedAny then passes delLenLimit true s'.inData else s'.inData
termination_by size inData
decreasing_by
  rename_i hchanged
  obtain ⟨-, hunchanged⟩ | ⟨-, hsize⟩ :=
    (pass_reduces accept delLenLimit _ inData).progress
  · exact absurd (hunchanged.symm.trans hchanged) Bool.false_ne_true
  · exact hsize

/-- The input is longer than one byte. -/
def minimize (delLenLimit : ℕ+) (inData : Bytes) : Bytes :=
  if inData.length ≤ 1 then inData
  else
    let setLen := max 4 (lenP2 (inData.length / 128))
    let s := normalizeBlocks accept setLen 0 inData.length ⟨inData, false⟩
    passes accept delLenLimit false s.inData

end Passes

theorem passes_spec (delLenLimit : ℕ+) (later : Bool) {inData : Bytes}
    (haccept : accept inData = true) :
    let out := passes accept delLenLimit later inData
    accept out = true ∧ List.SublistForall₂ Kept out inData ∧
      BlockMinimal accept delLenLimit out := by
  dsimp only
  fun_induction passes accept delLenLimit later inData with
  | case1 later inData s hlast =>
    rw [Bool.and_eq_true, Bool.not_eq_true'] at hlast
    have hreduces : Reduces accept ⟨inData, false⟩ s := deleteBlocks_reduces ..
    have hsame := hreduces.inData_eq hlast.2
    refine ⟨hreduces.accepted haccept, hreduces.kept, ?_⟩
    rw [hsame]
    exact deleteBlocks_minimal _ _ hsame
  | case2 later inData s hlast s' hchanged ih =>
    have hreduces : Reduces accept ⟨inData, false⟩ s' := pass_reduces ..
    obtain ⟨hout, hkept, hminimal⟩ := ih (hreduces.accepted haccept)
    exact ⟨hout, List.SublistForall₂.is_trans.trans _ _ _ hkept hreduces.kept, hminimal⟩
  | case3 later inData s hlast s' hchanged =>
    have hreduces : Reduces accept ⟨inData, false⟩ s' := pass_reduces ..
    have hsame := hreduces.inData_eq (Bool.eq_false_iff.mpr hchanged)
    refine ⟨hreduces.accepted haccept, hreduces.kept, ?_⟩
    rw [hsame]
    exact deleteBlocks_minimal _ _
      ((deleteBlocks_reduces ..).inData_eq_of_eq
        ((minimizeSymbols_reduces _).trans (minimizeChars_reduces _)) hsame)

theorem minimize_spec (accept : Bytes → Bool) (delLenLimit : ℕ+) {inData : Bytes}
    (haccept : accept inData = true) :
    let out := minimize accept delLenLimit inData
    accept out = true ∧ List.SublistForall₂ Kept out inData ∧
      (1 < inData.length → BlockMinimal accept delLenLimit out) := by
  dsimp only
  unfold minimize
  split_ifs with hshort
  · exact ⟨haccept, List.SublistForall₂.is_refl.refl _, fun hlong => by omega⟩
  · have hreduces := (normalizeBlocks_reduces accept
      (max 4 (lenP2 (inData.length / 128))) 0 (s := ⟨inData, false⟩) rfl).1
    obtain ⟨hout, hkept, hminimal⟩ :=
      passes_spec delLenLimit false (hreduces.accepted haccept)
    exact ⟨hout, List.SublistForall₂.is_trans.trans _ _ _ hkept hreduces.kept, fun _ => hminimal⟩

end Stages

/-- `main`, with `-H`, `AFL_TMIN_EXACT` and `-l`; `none` where the dry run is fatal. -/
def tmin (hangMode exactMode : Bool) (run : Bytes → Execution) (delLenLimit : ℕ+)
    (inData : Bytes) : Option Bytes :=
  (dryRun hangMode exactMode (run inData)).map fun m =>
    minimize (fun data => tminRunTarget m (run data)) delLenLimit inData

/-- What is written behaves as the input; it is the input with bytes left out and bytes replaced
by `0`; and for some length up to the limit none of its blocks can be left out. -/
theorem tmin_spec {hangMode exactMode : Bool} {run : Bytes → Execution} {delLenLimit : ℕ+}
    {inData out : Bytes} (h : tmin hangMode exactMode run delLenLimit inData = some out) :
    Alike exactMode (run out) (run inData) ∧
      List.SublistForall₂ Kept out inData ∧
      (1 < inData.length → ∃ n, 0 < n ∧ n ≤ (delLenLimit : ℕ) ∧
        ∀ k, k * n < out.length → ¬ Alike exactMode (run (cut out n (k * n))) (run inData)) := by
  obtain ⟨m, hmode, rfl⟩ := Option.map_eq_some_iff.mp h
  have haccepted := (tminRunTarget_iff hmode (run inData)).mpr ⟨rfl, fun _ => rfl⟩
  obtain ⟨hout, hkept, hminimal⟩ :=
    minimize_spec (fun data => tminRunTarget m (run data)) delLenLimit haccepted
  refine ⟨(tminRunTarget_iff hmode _).mp hout, hkept, fun hlong => ?_⟩
  obtain ⟨n, hn, hlimit, htried⟩ := hminimal hlong
  exact ⟨n, hn, hlimit, fun k hk halike =>
    Bool.eq_false_iff.mp (htried k hk) ((tminRunTarget_iff hmode _).mpr halike)⟩

/-- A target that crashes on an `A` and a `B`. -/
def crashOnAB (data : Bytes) : Execution := ⟨if 65 ∈ data ∧ 66 ∈ data then .crash else .ok, 0, true⟩

/-- Neither of the two bytes that are left can go. -/
theorem tmin_crashOnAB :
    tmin false false crashOnAB 1 (ascii "cAccBc") = some (ascii "AB") ∧
      Alike false (crashOnAB (ascii "AB")) (crashOnAB (ascii "cAccBc")) ∧
      List.SublistForall₂ Kept (ascii "AB") (ascii "cAccBc") ∧
      ∃ n, 0 < n ∧ n ≤ 1 ∧ ∀ k, k * n < 2 →
        ¬ Alike false (crashOnAB (cut (ascii "AB") n (k * n))) (crashOnAB (ascii "cAccBc")) := by
  have hout : tmin false false crashOnAB 1 (ascii "cAccBc") = some (ascii "AB") := by
    decide +kernel
  obtain ⟨halike, hkept, hblocks⟩ := tmin_spec hout
  exact ⟨hout, halike, hkept, hblocks (by decide)⟩

end Tmin

end AflNv
