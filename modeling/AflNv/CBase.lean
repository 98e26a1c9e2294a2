import Mathlib.Data.Rat.Defs

/-!
# Bytes, C strings, doubles and cJSON values

The data the NV extension exchanges with the C library.  A buffer or a C
string is a list of bytes; a C string holds the bytes before its terminating
NUL.  Integer types keep their width where the code relies on it
(`UInt32`, `UInt64`); counters are `Nat`, since none can reach `2 ^ 64`.

`CLib` collects what the model takes as a parameter: the JSON parser, and the
results that C leaves undefined.
-/

namespace AflNv

/-- A buffer, a file content or a C string without its NUL. -/
abbrev Bytes := List UInt8

/-! Instances with names: a definition that needs one of them holds the same term in every
module. -/

instance instLawfulBEqBytes : LawfulBEq Bytes := inferInstance

instance atLeastTwo_two : Nat.AtLeastTwo 2 := inferInstance

instance atLeastTwo_five : Nat.AtLeastTwo 5 := inferInstance

instance atLeastTwo_ten : Nat.AtLeastTwo 10 := inferInstance

instance atLeastTwo_twenty : Nat.AtLeastTwo 20 := inferInstance

instance atLeastTwo_hundred : Nat.AtLeastTwo 100 := inferInstance

/-- The bytes of an ASCII literal of the source. -/
def ascii (s : String) : Bytes := s.toList.map fun c => UInt8.ofNat c.toNat

theorem forall_mem_of_all {text : Bytes} {P : UInt8 → Prop} [DecidablePred P]
    (h : (text.all fun b => decide (P b)) = true) : ∀ b ∈ text, P b := fun b hb =>
  of_decide_eq_true (List.all_eq_true.mp h b hb)

/-- The C string a buffer holds: everything before the first NUL. -/
def cstr (buf : Bytes) : Bytes := buf.takeWhile (· ≠ 0)

/-- `isspace` in the C locale. -/
def isspace (b : UInt8) : Bool := b = 32 || (9 ≤ b && b ≤ 13)

/-- `toupper` in the C locale. -/
def toupper (b : UInt8) : UInt8 := if 97 ≤ b && b ≤ 122 then b - 32 else b

/-- The newline byte. -/
def nl : UInt8 := 10

/-- Trim leading and trailing white space. -/
def trimSpace (s : Bytes) : Bytes :=
  ((s.dropWhile isspace).reverse.dropWhile isspace).reverse

/-- The value of a C `double` that `strtod` can produce: a finite one is a
rational number, an overflowing one is an infinity. -/
inductive CDouble where
  | finite (q : ℚ)
  | inf (neg : Bool)
  deriving DecidableEq

namespace CDouble

/-- `d > 0`. -/
def isPos : CDouble → Bool
  | .finite q => 0 < q
  | .inf neg => !neg

/-- `d != 0`. -/
def isNonzero : CDouble → Bool
  | .finite q => q ≠ 0
  | .inf _ => true

/-- Truncation toward zero. -/
def trunc (q : ℚ) : ℤ := q.num.tdiv q.den

/-- The `valueint` that `cJSON_SetNumberHelper` derives from a number. -/
def valueint : CDouble → ℤ
  | .finite q =>
    if q ≥ 2147483647 then 2147483647
    else if q ≤ -2147483648 then -2147483648
    else trunc q
  | .inf false => 2147483647
  | .inf true => -2147483648

end CDouble

/-- A parsed JSON value.  Object members keep their order and duplicates. -/
inductive CJson where
  | null
  | bool (b : Bool)
  | number (valuedouble : CDouble)
  | string (valuestring : Bytes)
  | array (items : List CJson)
  | object (members : List (Bytes × CJson))

namespace CJson

/-- `cJSON_GetObjectItemCaseSensitive`: the first member of that name.  A
value that is not an object has no named children. -/
def getObjectItemCaseSensitive (root : CJson) (name : Bytes) : Option CJson :=
  match root with
  | .object members => (members.find? fun m => m.1 = name).map Prod.snd
  | _ => none

/-- `cJSON_IsNumber(item) ? item->valueint : 0`. -/
def valueintOrZero : Option CJson → ℤ
  | some (.number d) => d.valueint
  | _ => 0

/-- `cJSON_IsString(item) && item->valuestring ? item->valuestring : dflt`. -/
def valuestringOr (dflt : Bytes) : Option CJson → Bytes
  | some (.string s) => s
  | _ => dflt

/-- `cJSON_IsTrue(item) || (cJSON_IsNumber(item) && item->valuedouble != 0)`. -/
def isTruthy : Option CJson → Bool
  | some (.bool b) => b
  | some (.number d) => d.isNonzero
  | _ => false

end CJson

/-- The parts of the C library that are parameters of the model. -/
structure CLib where
  /-- `cJSON_Parse` on a C string; `none` is a NULL result. -/
  cJSONParse : Bytes → Option CJson
  /-- The result of converting a double to `u64` when it does not fit. -/
  undefU64 : CDouble → UInt64
  /-- The result of converting a double to `u32` when it does not fit. -/
  undefU32 : CDouble → UInt32
  /-- The result of converting a double to `int` when it does not fit. -/
  undefInt : CDouble → ℤ

namespace CLib

/-- A parser that accepts finitely many texts. -/
def ofDocs (docs : List (Bytes × CJson)) : CLib where
  cJSONParse := fun text => (docs.find? fun doc => doc.1 = text).map Prod.snd
  undefU64 := fun _ => 0
  undefU32 := fun _ => 0
  undefInt := fun _ => 0

variable (lib : CLib)

/-- `(u64)d`. -/
def toU64 : CDouble → UInt64
  | .finite q =>
    if -1 < q ∧ q < 2 ^ 64 then UInt64.ofNat (CDouble.trunc q).toNat
    else lib.undefU64 (.finite q)
  | d => lib.undefU64 d

/-- `(u32)d`. -/
def toU32 : CDouble → UInt32
  | .finite q =>
    if -1 < q ∧ q < 2 ^ 32 then UInt32.ofNat (CDouble.trunc q).toNat
    else lib.undefU32 (.finite q)
  | d => lib.undefU32 d

/-- `(int)d`. -/
def toInt : CDouble → ℤ
  | .finite q =>
    if -2147483649 < q ∧ q < 2147483648 then CDouble.trunc q
    else lib.undefInt (.finite q)
  | d => lib.undefInt d

/-- `cJSON_IsNumber(item) ? (u64)item->valuedouble : 0`. -/
def u64OrZero : Option CJson → UInt64
  | some (.number d) => lib.toU64 d
  | _ => 0

/-- `cJSON_IsNumber(item) && item->valuedouble > 0 ? (u64)item->valuedouble : 0`. -/
def posU64OrZero : Option CJson → UInt64
  | some (.number d) => if d.isPos then lib.toU64 d else 0
  | _ => 0

/-- `cJSON_IsNumber(item) ? (u32)item->valuedouble : 0`. -/
def u32OrZero : Option CJson → UInt32
  | some (.number d) => lib.toU32 d
  | _ => 0

/-- `cJSON_IsNumber(item) ? (int)item->valuedouble : 0`. -/
def intOrZero : Option CJson → ℤ
  | some (.number d) => lib.toInt d
  | _ => 0

end CLib

end AflNv
