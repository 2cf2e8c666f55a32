import Mathlib.Data.List.TakeWhile
import TypedStream.Proofs.Codec.Integers
import TypedStream.Retype
import TypedStream.Ty

/-!
# Re-typing through text

An integer may become a text in one version of a schema and an integer of another kind in a later
one. Rendered, padded with white space, trimmed and parsed, it comes to what converting it at once
comes to (`Retype.agree_parseInt`): itself, if the new kind holds it, and otherwise a conversion
error. So a step that takes the way over a text is read as if it had been narrowed directly
(`Retype.text_detour_agrees`).
-/

namespace TypedStream

-- ---------------------------------------------------------------------------
-- White space
-- ---------------------------------------------------------------------------

/-- Nothing but white space. -/
def Blank (text : String) : Prop := ∀ c ∈ text.toList, isBlank c = true

instance (text : String) : Decidable (Blank text) :=
  decidable_of_iff (text.toList.all isBlank = true) List.all_eq_true

theorem trimBlanks_around {before after : List Char} (hbefore : ∀ c ∈ before, isBlank c = true)
    (hafter : ∀ c ∈ after, isBlank c = true) (cs : List Char) :
    trimBlanks (before ++ cs ++ after) = trimBlanks cs := by
  have hreverse : ∀ c ∈ after.reverse, isBlank c = true := by simpa using hafter
  unfold trimBlanks
  rw [List.append_assoc, List.dropWhile_append_of_pos hbefore, List.dropWhile_append]
  split
  · next hnil =>
    -- Nothing but white space at all, which is gone after the first pass.
    rw [List.isEmpty_iff.mp hnil, List.dropWhile_eq_nil_iff.mpr hafter]
  · rw [List.reverse_append, List.dropWhile_append_of_pos hreverse]

theorem dropWhile_blank {cs : List Char} (h : ∀ c ∈ cs, isBlank c = false) :
    cs.dropWhile isBlank = cs :=
  List.dropWhile_eq_self_iff.mpr fun _ => by simp [h]

theorem trimBlanks_eq_self {cs : List Char} (h : ∀ c ∈ cs, isBlank c = false) :
    trimBlanks cs = cs := by
  have hreverse : ∀ c ∈ cs.reverse, isBlank c = false := by simpa using h
  rw [trimBlanks, dropWhile_blank h, dropWhile_blank hreverse, List.reverse_reverse]

theorem not_isBlank_digit {c : Char} (h : c.isDigit = true) : isBlank c = false := by
  obtain ⟨hlow, hhigh⟩ := Char.isDigit_iff_toNat.mp h
  have hzero : '0'.toNat = 48 := rfl
  have hnine : '9'.toNat = 57 := rfl
  simp only [isBlank, Bool.or_eq_false_iff, Bool.and_eq_false_iff, decide_eq_false_iff_not,
    beq_eq_false_iff_ne]
  omega

-- ---------------------------------------------------------------------------
-- Ranges
-- ---------------------------------------------------------------------------

namespace IntKind

theorem lo_nonpos (kind : IntKind) : kind.lo ≤ 0 := by cases kind <;> decide

theorem hi_nonneg (kind : IntKind) : 0 ≤ kind.hi := by cases kind <;> decide

theorem holds_zero (kind : IntKind) : kind.Holds 0 := ⟨kind.lo_nonpos, kind.hi_nonneg⟩

/-- What a kind holds it holds with every number in between it and zero. -/
theorem Holds.between {kind : IntKind} {v w : Int} (h : kind.Holds w)
    (hv : w ≤ v ∧ v ≤ 0 ∨ 0 ≤ v ∧ v ≤ w) : kind.Holds v := by
  have hlo := kind.lo_nonpos
  have hhi := kind.hi_nonneg
  obtain ⟨h₁, h₂⟩ := h
  constructor <;> omega

theorem not_holds_negative {kind : IntKind} (hk : kind.signed = false) {v : Int} (hv : v < 0) :
    ¬ kind.Holds v := by
  have hzero : kind.lo = 0 := by rw [lo, hk]; rfl
  rintro ⟨hlo, -⟩
  omega

theorem natAbs_le {kind : IntKind} {v : Int} (h : kind.Holds v) : v.natAbs ≤ sizeLimit := by
  obtain ⟨h₁, h₂⟩ := h
  cases kind <;> simp [lo, hi, signed, count, sizeLimit] at h₁ h₂ ⊢ <;> omega

end IntKind

namespace Retype

-- ---------------------------------------------------------------------------
-- Digits
-- ---------------------------------------------------------------------------

/-- A magnitude on one side of zero. -/
def toward (negative : Bool) (n : Nat) : Int := if negative then -n else n

/-- Why a number beyond the end of a kind is refused. -/
def beyond (negative : Bool) : TextFault := if negative then .tooSmall else .tooLarge

theorem holds_toward_of_le {kind : IntKind} {negative : Bool} {m n : Nat} (hle : m ≤ n)
    (h : kind.Holds (toward negative n)) : kind.Holds (toward negative m) := by
  refine h.between ?_
  cases negative <;> simp only [toward, Bool.false_eq_true, ite_true, ite_false] <;> omega

theorem digit?_of_isDigit {c : Char} (h : c.isDigit = true) :
    digit? c = some (c.toNat - '0'.toNat) := by
  obtain ⟨hlow, hhigh⟩ := Char.isDigit_iff_toNat.mp h
  exact if_pos ⟨hlow, hhigh⟩

theorem le_ofDigitChars (cs : List Char) (n : Nat) : n ≤ Nat.ofDigitChars 10 cs n := by
  rw [Nat.ofDigitChars_eq_ofDigitChars_zero]
  have hpow := Nat.one_le_pow cs.length 10 (by decide)
  have hscale := Nat.mul_le_mul_right n hpow
  omega

section
variable {kind : IntKind} {negative : Bool} {c : Char} {cs : List Char} {n : Nat}

/-- One digit more is taken as long as the kind holds what it leads to. -/
theorem digits_cons (hc : c.isDigit = true) (h : kind.Holds (toward negative n)) :
    digits kind negative (c :: cs) (toward negative n) =
      if kind.Holds (toward negative (10 * n + (c.toNat - '0'.toNat))) then
        digits kind negative cs (toward negative (10 * n + (c.toNat - '0'.toNat)))
      else .error (beyond negative) := by
  have hlo := kind.lo_nonpos
  have hhi := kind.hi_nonneg
  rw [digits, digit?_of_isDigit hc]
  -- Only the end of the kind that the digits move towards can be passed.
  cases negative with
  | false =>
    have hnext : (n : Int) * 10 + (c.toNat - '0'.toNat : Nat) =
        (10 * n + (c.toNat - '0'.toNat) : Nat) := by omega
    have hend : ∀ m : Nat, kind.hi < m ↔ ¬ kind.Holds m := fun m => by
      unfold IntKind.Holds
      omega
    simp only [toward, beyond, Bool.false_eq_true, ite_false, hnext, hend, ite_not]
  | true =>
    have hnext : -(n : Int) * 10 - (c.toNat - '0'.toNat : Nat) =
        -(10 * n + (c.toNat - '0'.toNat) : Nat) := by omega
    have hend : ∀ m : Nat, -(m : Int) < kind.lo ↔ ¬ kind.Holds (-m) := fun m => by
      unfold IntKind.Holds
      omega
    simp only [toward, beyond, ite_true, hnext, hend, ite_not]

/-- Digits are read to their number, if the kind holds it; the first digit that leads out of the
kind decides otherwise, since later ones only lead further out. -/
theorem digits_eq (hcs : ∀ c ∈ cs, c.isDigit = true) (h : kind.Holds (toward negative n)) :
    digits kind negative cs (toward negative n) =
      if kind.Holds (toward negative (Nat.ofDigitChars 10 cs n)) then
        .ok (toward negative (Nat.ofDigitChars 10 cs n))
      else .error (beyond negative) := by
  induction cs generalizing n with
  | nil => rw [digits, Nat.ofDigitChars_nil, if_pos h]
  | cons c cs ih =>
    obtain ⟨hc, hcs⟩ := List.forall_mem_cons.mp hcs
    rw [digits_cons hc h, Nat.ofDigitChars_cons]
    by_cases hnext : kind.Holds (toward negative (10 * n + (c.toNat - '0'.toNat)))
    · rw [if_pos hnext, ih hcs hnext]
    · rw [if_neg hnext, if_neg fun hlast =>
        hnext (holds_toward_of_le (le_ofDigitChars cs _) hlast)]

end

theorem isDigit_toDigits (n : Nat) : ∀ c ∈ Nat.toDigits 10 n, c.isDigit = true :=
  fun _ => Nat.isDigit_of_mem_toDigits (by decide) (by decide)

theorem digits_toDigits (kind : IntKind) (negative : Bool) (n : Nat) :
    digits kind negative (Nat.toDigits 10 n) 0 =
      if kind.Holds (toward negative n) then .ok (toward negative n)
      else .error (beyond negative) := by
  have hzero : toward negative 0 = 0 := by cases negative <;> rfl
  have hstart : kind.Holds (toward negative 0) := hzero ▸ kind.holds_zero
  have hdigits := digits_eq (isDigit_toDigits n) hstart
  rwa [hzero, Nat.ofDigitChars_ten_toDigits] at hdigits

-- ---------------------------------------------------------------------------
-- Rendered integers
-- ---------------------------------------------------------------------------

theorem toList_formatInt (v : Int) :
    (formatInt v).toList =
      if v < 0 then '-' :: Nat.toDigits 10 v.natAbs else Nat.toDigits 10 v.natAbs := by
  rw [formatInt, Int.toString_eq_repr]
  cases v with
  | ofNat n => exact Nat.toList_repr
  | negSucc n =>
    rw [if_pos (Int.negSucc_lt_zero n), Int.natAbs_negSucc]
    show ("-" ++ (n + 1).repr).toList = _
    rw [String.toList_append, Nat.toList_repr]
    rfl

theorem not_isBlank_formatInt (v : Int) : ∀ c ∈ (formatInt v).toList, isBlank c = false := by
  have hdigits : ∀ c ∈ Nat.toDigits 10 v.natAbs, isBlank c = false := fun c hc =>
    not_isBlank_digit (isDigit_toDigits _ c hc)
  rw [toList_formatInt]
  split
  · exact List.forall_mem_cons.mpr ⟨by decide, hdigits⟩
  · exact hdigits

/-- Why the text of an integer that a kind does not hold is refused. -/
def misfit (kind : IntKind) (v : Int) : TextFault :=
  if 0 ≤ v then .tooLarge else if kind.signed then .tooSmall else .invalidDigit

theorem intOfChars_digits (kind : IntKind) {c : Char} (hc : c.isDigit = true) (cs : List Char) :
    intOfChars kind (c :: cs) = digits kind false (c :: cs) 0 := by
  have hplus : c ≠ '+' := by rintro rfl; exact absurd hc (by decide)
  have hminus : c ≠ '-' := by rintro rfl; exact absurd hc (by decide)
  unfold intOfChars
  split <;> simp_all

theorem intOfChars_minus (kind : IntKind) {cs : List Char} (hcs : cs ≠ []) :
    intOfChars kind ('-' :: cs) =
      if kind.signed then digits kind true cs 0 else .error .invalidDigit := by
  cases cs with
  | nil => contradiction
  | cons c cs => rfl

theorem intOfChars_formatInt (kind : IntKind) (v : Int) :
    intOfChars kind (formatInt v).toList =
      if kind.Holds v then .ok v else .error (misfit kind v) := by
  rw [toList_formatInt]
  by_cases hv : v < 0
  · have habs : toward true v.natAbs = v := by simp only [toward, ite_true]; omega
    rw [if_pos hv, intOfChars_minus kind Nat.toDigits_ne_nil, digits_toDigits, habs, misfit,
      if_neg (Int.not_le.mpr hv)]
    cases hk : kind.signed with
    | true => rfl
    | false => exact (if_neg (IntKind.not_holds_negative hk hv)).symm
  · have habs : toward false v.natAbs = v := by
      simp only [toward, Bool.false_eq_true, ite_false]; omega
    obtain ⟨c, cs, hcs⟩ := List.exists_cons_of_ne_nil (Nat.toDigits_ne_nil (n := v.natAbs) (b := 10))
    have hc : c.isDigit = true := isDigit_toDigits v.natAbs c (by simp [hcs])
    rw [if_neg hv, hcs, intOfChars_digits kind hc, ← hcs, digits_toDigits, habs, misfit,
      if_pos (Int.not_lt.mp hv)]
    rfl

theorem parse_eq (type : String) (read : List Char → Except TextFault α) (text : String) :
    parse type read text =
      (read (trimBlanks text.toList)).mapError
        fun fault => .conversion (.unparsable text type fault) := by
  unfold parse
  cases read (trimBlanks text.toList) <;> rfl

/-- An error over a text, with another text quoted. -/
def quoting (text : String) : Error → Error
  | .conversion (.unparsable _ type fault) => .conversion (.unparsable text type fault)
  | error => error

/-- White space around a text is not looked at; it only shows where an error quotes the text. -/
theorem parse_around {before after : String} (hbefore : Blank before) (hafter : Blank after)
    (type : String) (read : List Char → Except TextFault α) (text : String) :
    parse type read (before ++ text ++ after) =
      (parse type read text).mapError (quoting (before ++ text ++ after)) := by
  rw [parse_eq, parse_eq, String.toList_append, String.toList_append,
    trimBlanks_around hbefore hafter]
  cases read (trimBlanks text.toList) <;> rfl

theorem parseInt_formatInt (kind : IntKind) (v : Int) :
    parseInt kind (formatInt v) =
      if kind.Holds v then .ok v
      else .error (.conversion (.unparsable (formatInt v) kind.name (misfit kind v))) := by
  rw [parseInt, parse_eq, trimBlanks_eq_self (not_isBlank_formatInt v), intOfChars_formatInt]
  split <;> rfl

-- ---------------------------------------------------------------------------
-- Two ways to one value
-- ---------------------------------------------------------------------------

/-- Two ways to convert a value: both come to the same result, or it can be converted by neither. -/
structure Agree (a b : Except Error α) : Prop where
  ok : ∀ result, a = .ok result ↔ b = .ok result
  refused : (∀ result, b ≠ .ok result) →
    ∃ cause cause', a = .error (.conversion cause) ∧ b = .error (.conversion cause')

theorem agree_ok (result : α) : Agree (.ok result) (.ok result) :=
  ⟨fun _ => Iff.rfl, fun h => absurd rfl (h result)⟩

theorem agree_refused (cause cause' : Inconvertible) :
    Agree (.error (.conversion cause) : Except Error α) (.error (.conversion cause')) :=
  ⟨fun _ => by simp, fun _ => ⟨cause, cause', rfl, rfl⟩⟩

theorem agree_parseInt (kind : IntKind) (v : Int) {before after : String}
    (hbefore : Blank before) (hafter : Blank after) :
    Agree (parseInt kind (before ++ formatInt v ++ after)) (toKind kind v) := by
  rw [parseInt, parse_around hbefore hafter, ← parseInt, parseInt_formatInt, toKind]
  by_cases h : kind.Holds v
  · rw [if_pos h, if_pos h]
    exact agree_ok v
  · rw [if_neg h, if_neg h]
    exact agree_refused ..

/-- What becomes of an integer step that is a text in the following version and an integer again
in the one after. The bytes of the oldest version are read as a text, which is written down and
read in turn; what follows the step stays as it is. -/
def detour (old new : IntKind) (bytes : Bytes) : Except Error (Value × Bytes) := do
  let (text, rest) ← (Legacy.formatted old).run bytes
  (Legacy.parsed new).run (Ty.string.codec.encode text ++ rest)

theorem length_utf8Encode_le (cs : List Char) : cs.utf8Encode.size ≤ 4 * cs.length := by
  induction cs with
  | nil => simp
  | cons c cs ih =>
    have hc := c.utf8Size_le_four
    have hsize : [c].utf8Encode.size = c.utf8Size := by simp [List.utf8Encode]
    rw [List.utf8Encode_cons, ByteArray.size_append, List.length_cons]
    omega

theorem length_formatInt_le {kind : IntKind} {v : Int} (h : kind.Holds v) :
    (formatInt v).toList.length ≤ 21 := by
  have hdigits : (Nat.toDigits 10 v.natAbs).length ≤ 20 :=
    (Nat.length_toDigits_le_iff (by decide) (by decide)).mpr
      (Nat.lt_of_le_of_lt (IntKind.natAbs_le h) (by decide))
  rw [toList_formatInt]
  split
  · exact Nat.succ_le_succ hdigits
  · exact Nat.le_succ_of_le hdigits

theorem length_utf8_formatInt {kind : IntKind} {v : Int} (h : kind.Holds v) :
    (utf8 (formatInt v)).length < sizeLimit := by
  have hchars := length_formatInt_le h
  have hbytes := length_utf8Encode_le (formatInt v).toList
  have hsize : (utf8 (formatInt v)).length = (formatInt v).toList.utf8Encode.size := by
    rw [String.utf8Encode_toList]
    exact Array.length_toList
  simp only [sizeLimit]
  omega

theorem run_lift (result : Except Error α) (bytes : Bytes) :
    (Legacy.lift result).run bytes = result.map fun value => (value, bytes) := by
  cases result <;> rfl

section
variable {old : IntKind} {bytes rest : Bytes} {v : Int}

theorem run_integer (h : (Codec.int old).read.run bytes = .ok (v, rest)) (new : IntKind) :
    (Legacy.integer old new).run bytes = (toKind new v).map fun m => (.int m, rest) := by
  rw [Legacy.integer, Decoder.run_bind_ok h, Decoder.run_bind, run_lift]
  cases toKind new v <;> rfl

theorem run_formatted (h : (Codec.int old).read.run bytes = .ok (v, rest)) :
    (Legacy.formatted old).run bytes = .ok (.string (formatInt v), rest) :=
  Decoder.run_bind_ok h

end

theorem run_parsed (kind : IntKind) {text : String} (htext : (utf8 text).length < sizeLimit)
    (rest : Bytes) :
    (Legacy.parsed kind).run (Ty.string.codec.encode (.string text) ++ rest) =
      (parseInt kind text).map fun m => (.int m, rest) := by
  have hread := (Codec.carries_string fun _ => True).read ⟨(rfl : text = text), htext⟩ rest
  rw [Legacy.parsed, show Ty.string.codec.encode (.string text) = Codec.string.encode text from rfl,
    Decoder.run_bind_ok hread, Decoder.run_bind, run_lift]
  cases parseInt kind text <;> rfl

theorem Agree.map {a b : Except Error α} (h : Agree a b) (f : α → β) :
    Agree (a.map f) (b.map f) := by
  cases b with
  | ok result =>
    rw [(h.ok result).mpr rfl]
    exact agree_ok (f result)
  | error error =>
    obtain ⟨cause, cause', rfl, hb⟩ := h.refused fun result => by simp
    cases hb
    exact agree_refused cause cause'

theorem detour_eq {old : IntKind} {bytes rest : Bytes} {v : Int}
    (h : (Codec.int old).read.run bytes = .ok (v, rest)) (new : IntKind) :
    detour old new bytes = (parseInt new (formatInt v)).map fun m => (.int m, rest) := by
  have hlength := length_utf8_formatInt (Codec.holds_of_run_int h)
  unfold detour
  rw [run_formatted h]
  exact run_parsed new hlength rest

/-- Converting an integer to another kind by way of a text agrees with converting it at once: the
text of an integer, with white space around it or not, is read as that integer if the kind holds
it, and otherwise either conversion is an error. White space around any text makes no difference
but to the text that an error quotes. So bytes in which an integer step can be read come to the
same value, and leave the same bytes behind, whether or not a version in between held the step as a
text; bytes in which it cannot be read fail either way, with one error. -/
theorem text_detour_agrees (old new : IntKind) :
    (∀ (v : Int) (before after : String), Blank before → Blank after →
      Agree (parseInt new (before ++ formatInt v ++ after)) (toKind new v)) ∧
    (∀ before text after : String, Blank before → Blank after →
      parseInt new (before ++ text ++ after) =
        (parseInt new text).mapError (quoting (before ++ text ++ after))) ∧
    (∀ bytes v rest, (Codec.int old).read.run bytes = .ok (v, rest) →
      Agree (detour old new bytes) ((Legacy.integer old new).run bytes)) ∧
    ∀ bytes error, (Codec.int old).read.run bytes = .error error →
      detour old new bytes = .error error ∧
        (Legacy.integer old new).run bytes = .error error := by
  refine ⟨fun v before after hbefore hafter => agree_parseInt new v hbefore hafter,
    fun before text after hbefore hafter => parse_around hbefore hafter ..,
    fun bytes v rest h => ?_, fun bytes error h => ⟨?_, Decoder.run_bind_error h⟩⟩
  · have hblank : Blank "" := by decide
    have hagree := agree_parseInt new v hblank hblank
    rw [String.empty_append, String.append_empty] at hagree
    rw [detour_eq h, run_integer h]
    exact hagree.map _
  · have hformat : (Legacy.formatted old).run bytes = .error error := Decoder.run_bind_error h
    unfold detour
    rw [hformat]
    rfl

/-- The least number of 32 bits, and the one below it. -/
theorem text_detour_agrees_edge :
    Blank "\t" ∧ Blank "\u3000\n" ∧
    Agree (parseInt .i32 ("\t" ++ formatInt (-2147483649) ++ "\u3000\n"))
      (toKind .i32 (-2147483649)) ∧
    parseInt .i32 ("\t" ++ "+-7" ++ "\u3000\n") =
      (parseInt .i32 "+-7").mapError (quoting ("\t" ++ "+-7" ++ "\u3000\n")) ∧
    (Codec.int .i64).read.run ((Codec.int .i64).encode (-2147483648) ++ [7]) =
      .ok (-2147483648, [7]) ∧
    Agree (detour .i64 .i32 ((Codec.int .i64).encode (-2147483648) ++ [7]))
      ((Legacy.integer .i64 .i32).run ((Codec.int .i64).encode (-2147483648) ++ [7])) ∧
    (Codec.int .i64).read.run [128] = .error .endOfStream ∧
    detour .i64 .i32 [128] = .error .endOfStream ∧
    (Legacy.integer .i64 .i32).run [128] = .error .endOfStream := by
  obtain ⟨htext, hspace, hstep, hfailed⟩ := text_detour_agrees .i64 .i32
  have hbefore : Blank "\t" := by decide
  have hafter : Blank "\u3000\n" := by decide
  have hread := (Codec.carries_int .i64 fun _ => True).read
    ⟨(rfl : (-2147483648 : Int) = -2147483648), by decide⟩ [7]
  have hshort : (Codec.int .i64).read.run [128] = .error .endOfStream := rfl
  exact ⟨hbefore, hafter, htext _ _ _ hbefore hafter, hspace _ _ _ hbefore hafter, hread,
    hstep _ _ _ hread, hshort, hfailed _ _ hshort⟩

end Retype

end TypedStream
