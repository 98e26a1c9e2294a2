import AflNv.Lib.JsonCodec

/-!
# A string that is printed without escapes

A program that prints `"` around a text instead of quoting it writes an object all the same, as
long as the text needs no escape.  `rawDict` is the text of an object with one such member, between
members that are written properly.

* `read_rawDict_of_clean`: without a quote and a backslash in it, the text comes back.
* `read_rawDict_iff`: with one of them it never does.  A quote that is read costs a backslash of
  the text, so a text with a quote in it would need more backslashes than it has
  (`special_le_of_read`).  A text without a quote is one string, and an escape in it makes that
  string shorter (`scanString_raw`).
-/

namespace AflNv.Lib.JsonCodec

variable {F : Type}

/-! ## Every quote and backslash that is read costs a backslash -/

/-- The characters of a string that cannot stand for themselves. -/
def special (s : Text) : ℕ := s.count 34 + s.count 92

theorem special_cons_le (c : ℕ) (s : Text) : special (c :: s) ≤ special s + 1 := by
  simp only [special, List.count_cons, beq_iff_eq]
  split_ifs <;> omega

theorem special_cons_of_ne {c : ℕ} (hquote : c ≠ 34) (hslash : c ≠ 92) (s : Text) :
    special (c :: s) = special s := by
  simp only [special, List.count_cons_of_ne hquote, List.count_cons_of_ne hslash]

theorem count_le_of_suffix {text rest : Text} (h : rest <:+ text) (c : ℕ) :
    rest.count c ≤ text.count c := h.sublist.count_le c

theorem special_le_of_scanString {n : ℕ} {text s rest : Text}
    (h : scanString n text = some (s, rest)) : special s + rest.count 92 ≤ text.count 92 := by
  induction n generalizing text s rest with
  | zero => cases h
  | succ n ih =>
    cases text with
    | nil => cases h
    | cons c text =>
      rw [scanString] at h
      split_ifs at h with hquote hslash hctrl
      · obtain ⟨rfl, rfl⟩ := Prod.mk.inj (Option.some.inj h)
        have hrest := count_le_of_suffix (List.suffix_cons c text) 92
        simpa [special] using hrest
      · cases hesc : scanEscape text with
        | none =>
          rw [hesc] at h
          cases h
        | some r =>
          obtain ⟨e, tail⟩ := r
          rw [hesc] at h
          obtain ⟨⟨s', rest'⟩, hscan, heq⟩ := Option.map_eq_some_iff.mp h
          obtain ⟨rfl, rfl⟩ := Prod.mk.inj heq
          have htail := count_le_of_suffix (scanEscape_spec hesc).2.1 92
          have hcons := special_cons_le e s'
          have hrec := ih hscan
          rw [hslash, List.count_cons_self]
          dsimp only
          omega
      · obtain ⟨⟨s', rest'⟩, hscan, heq⟩ := Option.map_eq_some_iff.mp h
        obtain ⟨rfl, rfl⟩ := Prod.mk.inj heq
        rw [special_cons_of_ne hquote hslash, List.count_cons_of_ne hslash]
        exact ih hscan

/-- A name or a number is not a string. -/
theorem atom_ne_str {N : Floats F} {text s rest : Text} : atom N text ≠ some (.str s, rest) := by
  intro h
  rw [atom] at h
  cases hname : (names N).find? fun name => name.1.isPrefixOf text with
  | some name =>
    rw [hname] at h
    have hmem := List.mem_of_find?_eq_some hname
    have hstr : name.2 = .str s := (Prod.mk.inj (Option.some.inj h)).1
    simp only [names, List.mem_cons, List.not_mem_nil, or_false] at hmem
    rcases hmem with rfl | rfl | rfl | rfl | rfl | rfl <;> cases hstr
  | none =>
    rw [hname] at h
    obtain ⟨v, hnum, heq⟩ := Option.map_eq_some_iff.mp h
    obtain rfl : v = .str s := (Prod.mk.inj heq).1
    rw [number] at hnum
    split_ifs at hnum
    · cases (Option.some.inj hnum)
    · cases (Option.some.inj hnum)

theorem special_le_of_value {N : Floats F} {n : ℕ} {text s rest : Text}
    (h : value N n text = some (.str s, rest)) : special s ≤ text.count 92 := by
  cases n with
  | zero => cases h
  | succ n =>
    cases text with
    | nil => cases h
    | cons c text =>
      rw [value] at h
      split_ifs at h with hquote hbrace hbracket
      · obtain ⟨⟨s', rest'⟩, hscan, heq⟩ := Option.map_eq_some_iff.mp h
        obtain ⟨hs, rfl⟩ := Prod.mk.inj heq
        obtain rfl := Value.str.inj hs
        have hle := special_le_of_scanString hscan
        have htext := count_le_of_suffix (List.suffix_cons c text) 92
        dsimp only
        omega
      · split at h
        · cases (Prod.mk.inj (Option.some.inj h)).1
        · obtain ⟨r, -, heq⟩ := Option.map_eq_some_iff.mp h
          cases (Prod.mk.inj heq).1
      · split at h
        · cases (Prod.mk.inj (Option.some.inj h)).1
        · obtain ⟨r, -, heq⟩ := Option.map_eq_some_iff.mp h
          cases (Prod.mk.inj heq).1
      · exact absurd h atom_ne_str

/-- The members read so far hold no string with more than `k` special characters. -/
def SpecialLe (k : ℕ) (acc : List (Text × Value F)) : Prop :=
  ∀ key s, (key, Value.str s) ∈ acc → special s ≤ k

theorem SpecialLe.setItem {k : ℕ} {acc : List (Text × Value F)} (h : SpecialLe k acc) {key : Text}
    {v : Value F} (hv : ∀ s, v = .str s → special s ≤ k) : SpecialLe k (setItem acc key v) := by
  intro key' s hmem
  unfold JsonCodec.setItem at hmem
  split_ifs at hmem
  · obtain ⟨m, hm, heq⟩ := List.mem_map.mp hmem
    split_ifs at heq
    · exact hv s (Prod.mk.inj heq).2
    · exact h key' s (heq ▸ hm)
  · rcases List.mem_append.mp hmem with hmem | hmem
    · exact h key' s hmem
    · exact hv s (Prod.mk.inj (List.mem_singleton.mp hmem)).2.symm

theorem SpecialLe.members {N : Floats F} {k n : ℕ} {text rest : Text} (hplain : Plain text)
    {acc ms : List (Text × Value F)} (hacc : SpecialLe k acc) (hk : text.count 92 ≤ k)
    (h : members N n text acc = some (ms, rest)) : SpecialLe k ms := by
  induction n generalizing text acc with
  | zero => cases h
  | succ n ih =>
    rw [JsonCodec.members] at h
    obtain ⟨text₁, h₁, h⟩ := Option.bind_eq_some_iff.mp h
    obtain ⟨⟨key, text₂⟩, h₂, h⟩ := Option.bind_eq_some_iff.mp h
    obtain ⟨text₃, h₃, h⟩ := Option.bind_eq_some_iff.mp h
    obtain ⟨⟨v, text₄⟩, h₄, h⟩ := Option.bind_eq_some_iff.mp h
    have hs₁ := suffix_token h₁
    have hs₂ := (scanString_spec h₂ (hplain.of_suffix hs₁)).2.1
    have hskip := (suffix_skipWs text₃).trans ((suffix_token h₃).trans (hs₂.trans hs₁))
    have hs₄ := (value_wf N (hplain.of_suffix hskip) h₄).2
    have hvalue : ∀ s, v = .str s → special s ≤ k := by
      intro s hs
      subst hs
      exact (special_le_of_value h₄).trans ((count_le_of_suffix hskip 92).trans hk)
    have hset : SpecialLe k (JsonCodec.setItem acc key v) := hacc.setItem hvalue
    cases htoken : token 44 text₄ with
    | some tail =>
      have hrec : JsonCodec.members N n tail (JsonCodec.setItem acc key v) = some (ms, rest) := by
        simpa only [htoken] using h
      have hsuffix := (suffix_token htoken).trans (hs₄.trans hskip)
      exact ih (hplain.of_suffix hsuffix) hset ((count_le_of_suffix hsuffix 92).trans hk) hrec
    | none =>
      have hend : (token 125 text₄ >>= fun rest => some (JsonCodec.setItem acc key v, rest)) =
          some (ms, rest) := by
        simpa only [htoken] using h
      obtain ⟨tail, -, heq⟩ := Option.bind_eq_some_iff.mp hend
      exact (Prod.mk.inj (Option.some.inj heq)).1 ▸ hset

/-- A member of an object that is read holds at most as many quotes and backslashes as the text
has backslashes. -/
theorem specialLe_of_value {N : Floats F} {n : ℕ} {text rest : Text} (hplain : Plain text)
    {ms : List (Text × Value F)} (h : value N n (123 :: text) = some (.dict ms, rest)) :
    SpecialLe (text.count 92) ms := by
  cases n with
  | zero => cases h
  | succ n =>
    rw [value, if_neg (by decide), if_pos rfl] at h
    cases htoken : token 125 text with
    | some tail =>
      rw [htoken] at h
      obtain rfl := Value.dict.inj (Prod.mk.inj (Option.some.inj h)).1
      exact fun _ _ hmem => absurd hmem List.not_mem_nil
    | none =>
      rw [htoken] at h
      obtain ⟨⟨ms', rest'⟩, hmembers, heq⟩ := Option.map_eq_some_iff.mp h
      obtain rfl := Value.dict.inj (Prod.mk.inj heq).1
      exact SpecialLe.members hplain (fun _ _ hmem => absurd hmem List.not_mem_nil)
        (Nat.le_refl _) hmembers

/-! ## A text without a quote is one string -/

/-- A front part without the character `x` lies before the first `x`. -/
theorem append_of_notMem {x : ℕ} {l tail raw rest : Text} (hx : x ∉ l)
    (h : l ++ tail = raw ++ x :: rest) : ∃ raw', raw = l ++ raw' ∧ tail = raw' ++ x :: rest := by
  rcases List.append_eq_append_iff.mp h with ⟨as, hraw, htail⟩ | ⟨bs, hl, hrest⟩
  · exact ⟨as, hraw, htail⟩
  · cases bs with
    | nil => exact ⟨[], by simpa using hl.symm, by simpa using hrest.symm⟩
    | cons b bs =>
      obtain rfl := (List.cons.inj hrest).1
      exact absurd (hl ▸ List.mem_append_right raw List.mem_cons_self) hx

theorem hexValue_quote {c n : ℕ} (h : hexValue c = some n) : 34 ≠ c := by
  intro hc
  rw [← hc] at h
  cases h

/-- Four hexadecimal digits are no quotes. -/
theorem hex4_eq_some {text tail : Text} {u : ℕ} (h : hex4 text = some (u, tail)) :
    ∃ l, text = l ++ tail ∧ 34 ∉ l := by
  rw [hex4.eq_def] at h
  split at h
  · rename_i a b c d rest
    split at h
    · rename_i ha hb hc hd
      obtain ⟨-, rfl⟩ := Prod.mk.inj (Option.some.inj h)
      refine ⟨[a, b, c, d], rfl, ?_⟩
      simp [hexValue_quote ha, hexValue_quote hb, hexValue_quote hc, hexValue_quote hd]
    · cases h
  · cases h

theorem scanLow_eq_some {text tail : Text} {lo : ℕ} (h : scanLow text = some (lo, tail)) :
    ∃ l, text = l ++ tail ∧ 34 ∉ l := by
  rw [scanLow.eq_def] at h
  split at h
  · rename_i rest
    split at h
    · rename_i u rest' hhex
      split_ifs at h
      obtain ⟨-, rfl⟩ := Prod.mk.inj (Option.some.inj h)
      obtain ⟨l, rfl, hl⟩ := hex4_eq_some hhex
      exact ⟨92 :: 117 :: l, rfl, by simpa using hl⟩
    · cases h
  · cases h

/-- What an escape takes up is a quote, or holds none. -/
theorem scanEscape_eq_some {text tail : Text} {e : ℕ} (h : scanEscape text = some (e, tail)) :
    ∃ l, l ≠ [] ∧ text = l ++ tail ∧ (l = [34] ∨ 34 ∉ l) := by
  cases text with
  | nil => cases h
  | cons c text =>
    rw [scanEscape] at h
    split_ifs at h with hc
    · subst hc
      cases hhex : hex4 text with
      | none =>
        rw [hhex] at h
        cases h
      | some r =>
        obtain ⟨u, rest⟩ := r
        rw [hhex] at h
        dsimp only at h
        obtain ⟨l, rfl, hl⟩ := hex4_eq_some hhex
        have hfront : 34 ∉ 117 :: l := by simpa using hl
        split_ifs at h
        · cases hscan : scanLow rest with
          | none =>
            rw [hscan] at h
            obtain ⟨-, rfl⟩ := Prod.mk.inj (Option.some.inj h)
            exact ⟨117 :: l, List.cons_ne_nil _ _, rfl, .inr hfront⟩
          | some r =>
            obtain ⟨lo, rest'⟩ := r
            rw [hscan] at h
            obtain ⟨-, rfl⟩ := Prod.mk.inj (Option.some.inj h)
            obtain ⟨l', rfl, hl'⟩ := scanLow_eq_some hscan
            refine ⟨117 :: l ++ l', by simp, by simp, .inr ?_⟩
            rw [List.mem_append, not_or]
            exact ⟨hfront, hl'⟩
        · obtain ⟨-, rfl⟩ := Prod.mk.inj (Option.some.inj h)
          exact ⟨117 :: l, List.cons_ne_nil _ _, rfl, .inr hfront⟩
    · obtain ⟨e', -, heq⟩ := Option.map_eq_some_iff.mp h
      obtain ⟨-, rfl⟩ := Prod.mk.inj heq
      refine ⟨[c], List.cons_ne_nil _ _, rfl, ?_⟩
      by_cases hquote : c = 34
      · exact .inl (by rw [hquote])
      · exact .inr (by simpa using Ne.symm hquote)

/-- A text without a quote that does not end in a backslash is one string, and it is shorter than
the text if there is a backslash in it. -/
theorem scanString_raw {n : ℕ} {raw rest s tail : Text} (hquote : 34 ∉ raw)
    (hlast : raw.getLast? ≠ some 92) (h : scanString n (raw ++ 34 :: rest) = some (s, tail)) :
    tail = rest ∧ s.length ≤ raw.length ∧ (92 ∈ raw → s.length < raw.length) := by
  induction n generalizing raw s with
  | zero => cases h
  | succ n ih =>
    cases raw with
    | nil =>
      obtain ⟨rfl, rfl⟩ := Prod.mk.inj (Option.some.inj h)
      exact ⟨rfl, Nat.le_refl _, fun hmem => absurd hmem List.not_mem_nil⟩
    | cons c raw =>
      rw [List.mem_cons, not_or] at hquote
      rw [List.cons_append, scanString, if_neg (Ne.symm hquote.1)] at h
      have hlast_of_suffix : ∀ raw', raw' <:+ c :: raw → raw'.getLast? ≠ some 92 := by
        intro raw' hsuffix hlast'
        obtain ⟨l, hl⟩ := hsuffix
        refine hlast ?_
        rw [← hl, List.getLast?_append, hlast', Option.some_or]
      split_ifs at h with hslash hctrl
      · subst hslash
        cases hesc : scanEscape (raw ++ 34 :: rest) with
        | none =>
          rw [hesc] at h
          cases h
        | some r =>
          obtain ⟨e, tail'⟩ := r
          rw [hesc] at h
          obtain ⟨⟨s', tail''⟩, hscan, heq⟩ := Option.map_eq_some_iff.mp h
          obtain ⟨rfl, rfl⟩ := Prod.mk.inj heq
          obtain ⟨l, hne, hl, hkind⟩ := scanEscape_eq_some hesc
          have hfront : 34 ∉ l := by
            refine hkind.resolve_left ?_
            intro hsingle
            rw [hsingle] at hl
            cases raw with
            | nil => exact hlast rfl
            | cons d raw => exact hquote.2 ((List.cons.inj hl).1 ▸ List.mem_cons_self)
          obtain ⟨raw', hraw, rfl⟩ := append_of_notMem hfront hl.symm
          have hlen := congrArg List.length hraw
          have hpos := List.length_pos_iff.mpr hne
          rw [List.length_append] at hlen
          obtain ⟨htail, hle, -⟩ := ih (fun hmem => hquote.2 (hraw ▸ List.mem_append_right l hmem))
            (hlast_of_suffix raw' ⟨92 :: l, by rw [hraw, List.cons_append]⟩) hscan
          simp only [List.length_cons]
          exact ⟨htail, by omega, fun _ => by omega⟩
      · obtain ⟨⟨s', tail'⟩, hscan, heq⟩ := Option.map_eq_some_iff.mp h
        obtain ⟨rfl, rfl⟩ := Prod.mk.inj heq
        obtain ⟨htail, hle, hlt⟩ := ih hquote.2 (hlast_of_suffix raw (List.suffix_cons c raw)) hscan
        simp only [List.length_cons]
        refine ⟨htail, by omega, fun hmem => ?_⟩
        have hmem' := (List.mem_cons.mp hmem).resolve_left (Ne.symm hslash)
        have hlt' := hlt hmem'
        omega

/-! ## The object -/

variable (N : Floats F) (w : Style)

/-- The members in front of another one, each with its comma. -/
def leading (ms : List (Text × Value F)) : Text :=
  ms.flatMap fun m => quote w m.1 ++ 58 :: (w.gap ++ (dumps N w m.2 ++ 44 :: w.gap))

/-- The text of an object whose member `key` is `raw` between quotes. -/
def rawDict (ms₁ : List (Text × Value F)) (key raw : Text) (ms₂ : List (Text × Value F)) : Text :=
  123 :: (leading N w ms₁ ++
    (quote w key ++ 58 :: (w.gap ++ 34 :: (raw ++ 34 :: dumpsMembers N w ms₂))))

theorem leading_cons (m : Text × Value F) (ms : List (Text × Value F)) (tail : Text) :
    leading N w (m :: ms) ++ tail = quote w m.1 ++ 58 :: (w.gap ++ (dumps N w m.2 ++
      44 :: (w.gap ++ (leading N w ms ++ tail)))) := by
  simp only [leading, List.flatMap_cons, List.append_assoc, List.cons_append]

theorem dumpsMembers_eq (m : Text × Value F) (ms : List (Text × Value F)) :
    dumpsMembers N w (m :: ms) = 44 :: (w.gap ++ (dumps N w (.dict (m :: ms))).tail) := rfl

/-- An object, seen from one of its members. -/
theorem dumps_append (ms₁ : List (Text × Value F)) (key : Text) (v : Value F)
    (ms₂ : List (Text × Value F)) :
    dumps N w (.dict (ms₁ ++ (key, v) :: ms₂)) = 123 :: (leading N w ms₁ ++
      (quote w key ++ 58 :: (w.gap ++ (dumps N w v ++ dumpsMembers N w ms₂)))) := by
  induction ms₁ with
  | nil => rfl
  | cons m ms₁ ih =>
    obtain ⟨m', ms', hms'⟩ := List.exists_cons_of_ne_nil
      (show ms₁ ++ (key, v) :: ms₂ ≠ [] from List.append_ne_nil_of_right_ne_nil _ (List.cons_ne_nil _ _))
    have hmembers : dumpsMembers N w (ms₁ ++ (key, v) :: ms₂) = 44 :: (w.gap ++
        (leading N w ms₁ ++
          (quote w key ++ 58 :: (w.gap ++ (dumps N w v ++ dumpsMembers N w ms₂))))) := by
      rw [hms', dumpsMembers_eq, ← hms', ih, List.tail_cons]
    rw [leading_cons, List.cons_append]
    show 123 :: (quote w m.1 ++ 58 :: (w.gap ++ (dumps N w m.2 ++
      dumpsMembers N w (ms₁ ++ (key, v) :: ms₂)))) = _
    rw [hmembers]

theorem escape_of_plain {c : ℕ} (hlo : 32 ≤ c) (hhi : c ≤ 126) (hquote : c ≠ 34) (hslash : c ≠ 92) :
    escape w c = [c] := by
  have hctrl : ¬ (c < 32 ∨ (w.ensureAscii = true ∧ 126 < c)) := by omega
  rw [escape, if_neg hquote, if_neg hslash, if_neg (by omega), if_neg (by omega), if_neg (by omega),
    if_neg (by omega), if_neg (by omega), if_neg hctrl]

/-- A printable ASCII text. -/
def Printable (raw : Text) : Prop := ∀ c ∈ raw, 32 ≤ c ∧ c ≤ 126

theorem flatMap_escape_of_clean {raw : Text} (hraw : Printable raw) (hquote : 34 ∉ raw)
    (hslash : 92 ∉ raw) : raw.flatMap (escape w) = raw := by
  have hone : ∀ c ∈ raw, escape w c = [c] := by
    intro c hc
    exact escape_of_plain w (hraw c hc).1 (hraw c hc).2 (fun h => hquote (h ▸ hc))
      fun h => hslash (h ▸ hc)
  rw [List.flatMap_congr hone, List.flatMap_singleton']

theorem rawDict_eq_dumps {raw : Text} (hraw : Printable raw) (hquote : 34 ∉ raw)
    (hslash : 92 ∉ raw) (ms₁ : List (Text × Value F)) (key : Text)
    (ms₂ : List (Text × Value F)) :
    rawDict N w ms₁ key raw ms₂ = dumps N w (.dict (ms₁ ++ (key, .str raw) :: ms₂)) := by
  have hvalue : dumps N w (.str raw) = 34 :: (raw ++ [34]) := by
    rw [dumps, quote, flatMap_escape_of_clean w hraw hquote hslash]
  rw [dumps_append, rawDict, hvalue]
  simp only [List.cons_append, List.append_assoc, List.nil_append]

/-! ## Reading the object -/

/-- What comes behind a member. -/
def moreMembers (n : ℕ) (text : Text) (acc : List (Text × Value F)) :
    Option (List (Text × Value F) × Text) :=
  match token 44 text with
  | some rest => members N n rest acc
  | none => do
    let rest ← token 125 text
    some (acc, rest)

variable {N w}

theorem members_eq {key : Text} (hkey : IsStr key) {t text : Text}
    (ht : skipWs t = quote w key ++ 58 :: text) (n : ℕ) (acc : List (Text × Value F)) :
    members N (n + 1) t acc =
      (value N n (skipWs text)).bind fun r => moreMembers N n r.2 (setItem acc key r.1) := by
  have hlen := length_le_escaped w key
  rw [quote, List.cons_append] at ht
  have hquote := token_of_skipWs (c := 34) ht
  rw [if_pos rfl] at hquote
  have hcolon : token 58 (58 :: text) = some text := rfl
  rw [members, hquote]
  simp only [Option.bind_eq_bind, Option.bind_some]
  rw [scanString_quote w hkey _ (by simp only [List.length_append]; omega)]
  simp only [Option.bind_some]
  rw [hcolon]
  rfl

theorem moreMembers_dumps (acc : List (Text × Value F)) {ms : List (Text × Value F)}
    (hms : WfMembers ms)
    (hnodup : (acc.map Prod.fst ++ ms.map Prod.fst).Nodup) (rest : Text) {n : ℕ}
    (hn : (dumpsMembers N w ms).length ≤ n) :
    moreMembers N n (dumpsMembers N w ms ++ rest) acc = some (acc ++ ms, rest) := by
  cases ms with
  | nil =>
    rw [List.append_nil]
    rfl
  | cons m ms =>
    obtain ⟨key, v⟩ := m
    obtain ⟨-, hkeys, hdisjoint⟩ := List.nodup_append.mp hnodup
    have htoken : token 44 (dumpsMembers N w ((key, v) :: ms) ++ rest) = some (w.gap ++
        (quote w key ++ 58 :: (w.gap ++ (dumps N w v ++ (dumpsMembers N w ms ++ rest))))) := by
      simp only [dumpsMembers, List.cons_append, List.append_assoc]
      rfl
    have hlen : (quote w key).length + (dumps N w v).length + (dumpsMembers N w ms).length ≤ n := by
      simp only [dumpsMembers, List.length_cons, List.length_append] at hn
      omega
    rw [moreMembers, htoken]
    dsimp only
    refine members_dumps N w key v ms hms.1 hms.2.1 hms.2.2 hkeys ?_ ?_ hlen
    · exact fun k hk hmem => hdisjoint k hk k hmem rfl
    · rw [skipWs_gap]
      rfl

/-- The members in front are read one after the other. -/
theorem members_leading (acc : List (Text × Value F)) {ms : List (Text × Value F)}
    (hms : WfMembers ms)
    (hnodup : (acc.map Prod.fst ++ ms.map Prod.fst).Nodup) {t tail : Text}
    (htail : skipWs tail = tail) (ht : skipWs t = leading N w ms ++ tail) {n : ℕ}
    (hn : (leading N w ms).length ≤ n) :
    ∃ m t', n - (leading N w ms).length ≤ m ∧ skipWs t' = tail ∧
      members N n t acc = members N m t' (acc ++ ms) := by
  induction ms generalizing acc t n with
  | nil => exact ⟨n, t, Nat.sub_le _ _, ht, by rw [List.append_nil]⟩
  | cons m ms ih =>
    obtain ⟨key, v⟩ := m
    have hlen := congrArg List.length (leading_cons N w (key, v) ms [])
    simp only [List.length_append, List.length_cons, List.length_nil] at hlen
    obtain ⟨n, rfl⟩ := Nat.exists_eq_succ_of_ne_zero (show n ≠ 0 by omega)
    rw [leading_cons] at ht
    have hskip : skipWs (w.gap ++ (leading N w ms ++ tail)) = leading N w ms ++ tail := by
      rw [skipWs_gap]
      cases ms with
      | nil => exact htail
      | cons m ms =>
        rw [leading_cons]
        rfl
    have hnew : key ∉ acc.map Prod.fst := by
      intro hmem
      exact (List.nodup_append.mp hnodup).2.2 key hmem key List.mem_cons_self rfl
    have hnodup' : ((acc ++ [(key, v)]).map Prod.fst ++ ms.map Prod.fst).Nodup := by
      simpa using hnodup
    have hcomma : Ends (44 :: (w.gap ++ (leading N w ms ++ tail))) := fun c hc => by
      obtain rfl : 44 = c := Option.some.inj hc
      rfl
    obtain ⟨m, t', hm, ht', hrec⟩ := ih _ hms.2.2 hnodup' hskip (n := n) (by omega)
    refine ⟨m, t', by omega, ht', ?_⟩
    rw [members_eq hms.1 ht, skipWs_gap, skipWs_dumps,
      value_dumps N w v hms.2.1 hcomma (by omega), Option.bind_some, setItem_new hnew]
    show members N n (w.gap ++ (leading N w ms ++ tail)) (acc ++ [(key, v)]) = _
    rw [hrec, List.append_assoc]
    rfl

/-- A member that can be printed without escapes, between well-formed members. -/
structure RawMember (ms₁ : List (Text × Value F)) (key raw : Text) (ms₂ : List (Text × Value F)) :
    Prop where
  front : WfMembers ms₁
  back : WfMembers ms₂
  str : IsStr key
  nodup : (ms₁.map Prod.fst ++ key :: ms₂.map Prod.fst).Nodup
  printable : Printable raw
  last : raw.getLast? ≠ some 92

theorem isStr_of_printable {raw : Text} (h : Printable raw) : IsStr raw := by
  induction raw with
  | nil => exact isStr_nil
  | cons c raw ih =>
    obtain ⟨hc, hraw⟩ := List.forall_mem_cons.mp h
    have hstr := ih hraw
    have hlow := (char_of_lt (show c < 0xD800 by omega)).1
    refine ⟨List.forall_mem_cons.mpr ⟨by omega, hstr.range⟩,
      List.isChain_cons.mpr ⟨?_, hstr.unpaired⟩⟩
    intro d hd hpair
    exact absurd hpair.1 (by rw [hlow]; decide)

namespace RawMember

variable {ms₁ ms₂ : List (Text × Value F)} {key raw : Text}

/-- The object with another string in place of the raw one. -/
theorem wf (h : RawMember ms₁ key raw ms₂) {s : Text} (hs : IsStr s) :
    (Value.dict (ms₁ ++ (key, .str s) :: ms₂)).Wf := by
  refine ⟨by simpa using h.nodup, wfMembers_iff.mpr ?_⟩
  intro m hm
  rcases List.mem_append.mp hm with hm | hm
  · exact wfMembers_iff.mp h.front m hm
  · rcases List.mem_cons.mp hm with rfl | hm
    · exact ⟨h.str, hs⟩
    · exact wfMembers_iff.mp h.back m hm

/-- A text that needs no escape comes back. -/
theorem read_of_clean (h : RawMember ms₁ key raw ms₂) (hquote : 34 ∉ raw) (hslash : 92 ∉ raw) :
    read N (rawDict N w ms₁ key raw ms₂) = some (.dict (ms₁ ++ (key, .str raw) :: ms₂)) := by
  rw [rawDict_eq_dumps N w h.printable hquote hslash]
  exact read_dumps N w (h.wf (isStr_of_printable h.printable))

/-- The object is read up to the raw text, then the text as a string, then what is left. -/
theorem exists_of_value (h : RawMember ms₁ key raw ms₂) {n : ℕ}
    (hn : (rawDict N w ms₁ key raw ms₂).length ≤ n) {v : Value F} {rest : Text}
    (hvalue : value N n (rawDict N w ms₁ key raw ms₂) = some (v, rest)) :
    ∃ m s tail ms, scanString ((raw ++ 34 :: dumpsMembers N w ms₂).length + 1)
        (raw ++ 34 :: dumpsMembers N w ms₂) = some (s, tail) ∧
      (dumpsMembers N w ms₂).length ≤ m ∧
      moreMembers N m tail (ms₁ ++ [(key, .str s)]) = some (ms, rest) ∧ v = .dict ms := by
  have hbody : skipWs (quote w key ++ 58 :: (w.gap ++ 34 :: (raw ++ 34 :: dumpsMembers N w ms₂))) =
      quote w key ++ 58 :: (w.gap ++ 34 :: (raw ++ 34 :: dumpsMembers N w ms₂)) := rfl
  have hopen : ∃ rest, leading N w ms₁ ++ (quote w key ++
      58 :: (w.gap ++ 34 :: (raw ++ 34 :: dumpsMembers N w ms₂))) = 34 :: rest := by
    cases ms₁ with
    | nil => exact ⟨_, rfl⟩
    | cons m ms => exact ⟨_, by rw [leading_cons]; rfl⟩
  obtain ⟨open', hopen⟩ := hopen
  simp only [rawDict, List.length_cons, List.length_append] at hn
  obtain ⟨n, rfl⟩ := Nat.exists_eq_succ_of_ne_zero (show n ≠ 0 by omega)
  have htoken : token 125 (34 :: open') = none := rfl
  rw [rawDict, value, if_neg (by decide), if_pos rfl, hopen, htoken] at hvalue
  dsimp only at hvalue
  rw [← hopen] at hvalue
  obtain ⟨⟨ms, rest'⟩, hmembers, heq⟩ := Option.map_eq_some_iff.mp hvalue
  obtain ⟨rfl, rfl⟩ := Prod.mk.inj heq
  have hnodup := h.nodup
  have hfront := (List.nodup_append.mp hnodup).1
  have hskip : skipWs (leading N w ms₁ ++ (quote w key ++
      58 :: (w.gap ++ 34 :: (raw ++ 34 :: dumpsMembers N w ms₂)))) =
      leading N w ms₁ ++ (quote w key ++
      58 :: (w.gap ++ 34 :: (raw ++ 34 :: dumpsMembers N w ms₂))) := by
    rw [hopen]
    rfl
  obtain ⟨m, t, hm, ht, hrec⟩ := members_leading [] h.front (by simpa using hfront) hbody
    hskip (n := n) (by omega)
  rw [hrec, List.nil_append] at hmembers
  obtain ⟨m, rfl⟩ := Nat.exists_eq_succ_of_ne_zero (show m ≠ 0 by omega)
  rw [members_eq h.str ht, skipWs_gap] at hmembers
  obtain ⟨⟨v, rest⟩, hstring, hmore⟩ := Option.bind_eq_some_iff.mp hmembers
  obtain ⟨m, rfl⟩ := Nat.exists_eq_succ_of_ne_zero (show m ≠ 0 by omega)
  have hskip' : skipWs (34 :: (raw ++ 34 :: dumpsMembers N w ms₂)) =
      34 :: (raw ++ 34 :: dumpsMembers N w ms₂) := rfl
  rw [hskip', value, if_pos rfl] at hstring
  obtain ⟨⟨s, tail⟩, hscan, heq⟩ := Option.map_eq_some_iff.mp hstring
  obtain ⟨rfl, rfl⟩ := Prod.mk.inj heq
  have hnew : key ∉ ms₁.map Prod.fst := by
    intro hmem
    exact (List.nodup_append.mp hnodup).2.2 key hmem key List.mem_cons_self rfl
  dsimp only at hmore
  rw [setItem_new hnew] at hmore
  exact ⟨m + 1, s, tail, ms, hscan, by omega, hmore, rfl⟩

/-- Without a quote, the object is read with what the raw text denotes. -/
theorem value_of_no_quote (h : RawMember ms₁ key raw ms₂) (hquote : 34 ∉ raw) {n : ℕ}
    (hn : (rawDict N w ms₁ key raw ms₂).length ≤ n) {v : Value F} {rest : Text}
    (hvalue : value N n (rawDict N w ms₁ key raw ms₂) = some (v, rest)) :
    ∃ s, v = .dict (ms₁ ++ (key, .str s) :: ms₂) ∧ (92 ∈ raw → s.length < raw.length) := by
  obtain ⟨m, s, tail, ms, hscan, hm, hmore, rfl⟩ := h.exists_of_value hn hvalue
  obtain ⟨rfl, -, hlt⟩ := scanString_raw hquote h.last hscan
  have hdumps := moreMembers_dumps (N := N) (w := w) (ms₁ ++ [(key, .str s)]) h.back
    (by simpa using h.nodup) [] hm
  rw [List.append_nil] at hdumps
  obtain ⟨rfl, -⟩ := Prod.mk.inj (Option.some.inj (hdumps.symm.trans hmore))
  exact ⟨s, by rw [List.append_assoc]; rfl, hlt⟩

/-- A quote that nothing but a comma or a brace could follow breaks the object. -/
theorem read_of_quote (h : RawMember ms₁ key raw ms₂) {a b : Text} {c : ℕ}
    (hraw : raw = a ++ 34 :: c :: b) (hquote : 34 ∉ a) (hslash : 92 ∉ a) (hws : isWs c = false)
    (hcomma : c ≠ 44) (hbrace : c ≠ 125) : read N (rawDict N w ms₁ key raw ms₂) = none := by
  rw [Option.eq_none_iff_forall_ne_some]
  intro v hread
  obtain ⟨⟨v', rest⟩, hvalue, -⟩ := Option.bind_eq_some_iff.mp hread
  obtain ⟨m, s, tail, ms, hscan, -, hmore, -⟩ := h.exists_of_value (Nat.le_refl _) hvalue
  have hprint : Printable a := fun d hd => h.printable d (hraw ▸ List.mem_append_left _ hd)
  have htail : tail = c :: (b ++ 34 :: dumpsMembers N w ms₂) := by
    have hsplit : raw ++ 34 :: dumpsMembers N w ms₂ =
        a.flatMap (escape w) ++ 34 :: c :: (b ++ 34 :: dumpsMembers N w ms₂) := by
      rw [flatMap_escape_of_clean w hprint hquote hslash, hraw, List.append_assoc]
      rfl
    have hlen := congrArg List.length hraw
    rw [List.length_append, List.length_cons] at hlen
    have hfull := scanString_flatMap w (isStr_of_printable hprint)
      (c :: (b ++ 34 :: dumpsMembers N w ms₂))
      (n := (raw ++ 34 :: dumpsMembers N w ms₂).length + 1) (by rw [List.length_append]; omega)
    rw [← hsplit] at hfull
    exact (Prod.mk.inj (Option.some.inj (hscan.symm.trans hfull))).2
  have htoken : ∀ d, c ≠ d → token d tail = none := by
    intro d hd
    rw [htail, token_of_skipWs (skipWs_cons hws _), if_neg hd]
  rw [moreMembers, htoken 44 hcomma] at hmore
  dsimp only at hmore
  rw [htoken 125 hbrace] at hmore
  cases hmore

theorem lookup_member (h : RawMember ms₁ key raw ms₂) (s : Text) :
    (ms₁ ++ (key, .str s) :: ms₂).lookup key = some (.str s) := by
  have hnew : ms₁.lookup key = none := by
    rw [List.lookup_eq_none_iff]
    intro m hm
    refine bne_iff_ne.mpr fun heq => ?_
    exact (List.nodup_append.mp h.nodup).2.2 m.1 (List.mem_map_of_mem hm) key
      List.mem_cons_self heq.symm
  rw [List.lookup_append, hnew, Option.none_or, List.lookup_cons_self]

/-- The raw text comes back exactly when it holds no quote and no backslash. -/
theorem read_iff (h : RawMember ms₁ key raw ms₂) (hplain : Plain (rawDict N w ms₁ key raw ms₂))
    (hcount : (rawDict N w ms₁ key raw ms₂).count 92 = raw.count 92) :
    (∃ ms, read N (rawDict N w ms₁ key raw ms₂) = some (.dict ms) ∧
      ms.lookup key = some (.str raw)) ↔ 34 ∉ raw ∧ 92 ∉ raw := by
  constructor
  · intro hread
    obtain ⟨ms, hread, hlookup⟩ := hread
    obtain ⟨⟨v, rest⟩, hvalue, hrest⟩ := Option.bind_eq_some_iff.mp hread
    dsimp only at hrest
    split_ifs at hrest
    obtain rfl := Option.some.inj hrest
    have hvalue' : value N (rawDict N w ms₁ key raw ms₂).length (rawDict N w ms₁ key raw ms₂) =
        some (.dict ms, rest) := hvalue
    have hquote : 34 ∉ raw := by
      obtain ⟨l₁, l₂, rfl, -⟩ := List.lookup_eq_some_iff.mp hlookup
      have hle := specialLe_of_value (hplain.of_suffix (List.suffix_cons _ _)) hvalue' key raw
        (List.mem_append_right l₁ List.mem_cons_self)
      have htail := count_le_of_suffix (List.suffix_cons 123 (leading N w ms₁ ++
        (quote w key ++ 58 :: (w.gap ++ 34 :: (raw ++ 34 :: dumpsMembers N w ms₂))))) 92
      rw [show 123 :: (leading N w ms₁ ++ (quote w key ++ 58 :: (w.gap ++
        34 :: (raw ++ 34 :: dumpsMembers N w ms₂)))) = rawDict N w ms₁ key raw ms₂ from rfl,
        hcount] at htail
      rw [← List.count_eq_zero]
      unfold special at hle
      omega
    refine ⟨hquote, fun hslash => ?_⟩
    obtain ⟨s, hs, hlt⟩ := h.value_of_no_quote hquote (Nat.le_refl _) hvalue'
    obtain rfl := Value.dict.inj hs
    rw [h.lookup_member] at hlookup
    obtain rfl := Value.str.inj (Option.some.inj hlookup)
    exact Nat.lt_irrefl _ (hlt hslash)
  · intro hclean
    exact ⟨_, h.read_of_clean hclean.1 hclean.2, h.lookup_member raw⟩

end RawMember

end AflNv.Lib.JsonCodec
