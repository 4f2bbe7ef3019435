import Mathlib.Data.List.DropRight
import MyCppCode.Foundation.Machine
import MyCppCode.Foundation.Varint
import MyCppCode.RssB.Main

/-!
# Column — the value of a time column, from its raw bytes

The X protocol of MySQL sends a `DATETIME` as a sequence of numbers in groups of seven bits.
`mysqlx_raw_as_u64_vector` takes the bytes apart again, and `mysqlx_column_2_time_point` makes a time of
the numbers.  A pointer into the bytes is an offset here; reading outside the bytes or the vector is
undefined behaviour, as is a shift by 64 or more.
-/

namespace MyCppCode
namespace RssB

open Foundation

/-! ## `mysqlx_raw_as_u64_vector` -/

/-- The inner loop, from a state in which `ptr`, `v` and `shift` have these values; it returns the final
values of `v` and `ptr`. -/
def readValue (bytes : List UInt8) (ptr : Nat) (v : UInt64) (shift : Nat) :
    Except Halt (UInt64 × Nat) :=
  match bytes[ptr]? with
  | none => .error .undefinedBehaviour
  | some byte =>
      if shift < 64 then
        let v := v ||| (byte &&& 0x7f).toUInt64 <<< UInt64.ofNat shift
        -- `is_carry && ptr != end && shift <= 63`
        if byte &&& 0x80 = 0x80 ∧ ptr + 1 ≠ bytes.length ∧ shift + 7 ≤ 63 then
          readValue bytes (ptr + 1) v (shift + 7)
        else
          .ok (v, ptr + 1)
      else
        .error .undefinedBehaviour
termination_by 64 - shift

/-- Where there is a byte to read, the loop ends behind it and inside the data. -/
theorem exists_readValue {bytes : List UInt8} {ptr : Nat} (v : UInt64) {shift : Nat}
    (hptr : ptr < bytes.length) (hshift : shift < 64) :
    ∃ r, readValue bytes ptr v shift = .ok r ∧ ptr < r.2 ∧ r.2 ≤ bytes.length := by
  fun_induction readValue bytes ptr v shift with
  | case1 ptr v shift hnone =>
      rw [List.getElem?_eq_none_iff] at hnone
      omega
  | case2 ptr v shift byte hbyte hlt v' hloop ih =>
      obtain ⟨r, hr, hlt, hle⟩ := ih (by omega) (by omega)
      exact ⟨r, hr, by omega, hle⟩
  | case3 ptr v shift byte hbyte hlt v' hloop =>
      exact ⟨_, rfl, Nat.lt_succ_self ptr, hptr⟩
  | case4 ptr v shift byte hbyte hge => omega

theorem ptr_lt_of_readValue {bytes : List UInt8} {ptr : Nat} {v : UInt64} {shift : Nat}
    {r : UInt64 × Nat} (h : readValue bytes ptr v shift = .ok r) :
    ptr < bytes.length ∧ shift < 64 := by
  rw [readValue] at h
  split at h
  · cases h
  · rename_i byte hbyte
    refine ⟨(List.getElem?_eq_some_iff.1 hbyte).1, ?_⟩
    split at h
    · assumption
    · cases h

/-- The pointer moves on, to the end at most. -/
theorem readValue_ptr {bytes : List UInt8} {ptr : Nat} {v : UInt64} {shift : Nat} {r : UInt64 × Nat}
    (h : readValue bytes ptr v shift = .ok r) : ptr < r.2 ∧ r.2 ≤ bytes.length := by
  obtain ⟨hptr, hshift⟩ := ptr_lt_of_readValue h
  obtain ⟨r', hr', hspec⟩ := exists_readValue v hptr hshift
  cases h.symm.trans hr'
  exact hspec

/-- The outer loop; `out` holds the values so far. -/
def readValues (bytes : List UInt8) (ptr : Nat) (out : List UInt64) : Except Halt (List UInt64) :=
  if ptr = bytes.length then
    .ok out
  else
    match _hr : readValue bytes ptr 0 0 with
    | .error e => .error e
    | .ok r => readValues bytes r.2 (out ++ [r.1])
termination_by bytes.length - ptr
decreasing_by
  have hptr := readValue_ptr _hr
  omega

def mysqlxRawAsU64Vector (bytes : List UInt8) : Except Halt (List UInt64) :=
  readValues bytes 0 []

/-! ## What it reads -/

/-- Whatever the bytes are, the loops end without reading past them. -/
theorem exists_readValues {bytes : List UInt8} {ptr : Nat} (out : List UInt64)
    (hptr : ptr ≤ bytes.length) : ∃ out', readValues bytes ptr out = .ok out' := by
  fun_induction readValues bytes ptr out with
  | case1 out => exact ⟨out, rfl⟩
  | case2 ptr out hne e herror =>
      have hlt : ptr < bytes.length := by omega
      have hshift : 0 < 64 := by decide
      obtain ⟨r, hr, -⟩ := exists_readValue 0 hlt hshift
      cases herror.symm.trans hr
  | case3 ptr out hne r hr ih => exact ih (readValue_ptr hr).2

/-- `bs` are the bytes of `v`, ten of them at most. -/
structure IsEncoding (v : UInt64) (bs : List UInt8) : Prop where
  encodes : Varint.Encodes v.toNat bs
  length_le : bs.length ≤ 10

theorem isEncoding_encode (v : UInt64) : IsEncoding v (Varint.encode v.toNat) := by
  refine ⟨Varint.encodes_encode v.toNat, Varint.length_encode_le (k := 9) ?_⟩
  have h := v.toNat_lt
  omega

/-- One round of the inner loop. -/
theorem readValue_cons (pre rest : List UInt8) (b : UInt8) (v : UInt64) {shift : Nat}
    (hshift : shift < 64) :
    readValue (pre ++ b :: rest) pre.length v shift =
      if 128 ≤ b.toNat ∧ rest ≠ [] ∧ shift + 7 ≤ 63 then
        readValue (pre ++ b :: rest) (pre.length + 1)
          (v ||| (b &&& 0x7f).toUInt64 <<< UInt64.ofNat shift) (shift + 7)
      else
        .ok (v ||| (b &&& 0x7f).toUInt64 <<< UInt64.ofNat shift, pre.length + 1) := by
  have hget : (pre ++ b :: rest)[pre.length]? = some b := by simp
  have hend : pre.length + 1 ≠ (pre ++ b :: rest).length ↔ rest ≠ [] := by
    simp
  rw [readValue, hget]
  simp only [if_pos hshift, Varint.and_carry_iff, hend]

/-- The inner loop over the bytes of a number, of which `k` have been read.  The tenth byte is shifted by
63, so the limit on `shift` does not cut a number off. -/
theorem readValue_encodes {n : Nat} {bs : List UInt8} (h : Varint.Encodes n bs) (pre post : List UInt8)
    {k : Nat} {v : UInt64} (hk : k + bs.length ≤ 10) (hv : v.toNat < 2 ^ (7 * k))
    (hn : v.toNat + n * 2 ^ (7 * k) < 2 ^ 64) :
    ∃ v', readValue (pre ++ bs ++ post) pre.length v (7 * k) = .ok (v', (pre ++ bs).length) ∧
      v'.toNat = v.toNat + n * 2 ^ (7 * k) := by
  induction h generalizing pre k v with
  | last b hb =>
      rw [List.length_singleton] at hk
      have hgroup : (b &&& 0x7f).toUInt64.toNat = b.toNat := by
        rw [UInt8.toNat_toUInt64, Varint.toNat_and_value, Nat.mod_eq_of_lt hb]
      refine ⟨v ||| (b &&& 0x7f).toUInt64 <<< UInt64.ofNat (7 * k), ?_, ?_⟩
      · rw [List.append_assoc, List.singleton_append, readValue_cons _ _ _ _ (by omega),
          if_neg (by omega), List.length_append, List.length_singleton]
      · rw [Varint.toNat_or_shiftLeft (by omega) hv (by rw [hgroup]; omega), hgroup]
  | more b hb hrest ih =>
      rename_i n bs
      rw [List.length_cons] at hk
      have hbs : 0 < bs.length := List.length_pos_iff.2 hrest.ne_nil
      have hgroup : (b &&& 0x7f).toUInt64.toNat = b.toNat % 128 := by
        rw [UInt8.toNat_toUInt64, Varint.toNat_and_value]
      have hpow : 2 ^ (7 * (k + 1)) = 128 * 2 ^ (7 * k) := by
        rw [Nat.mul_add, pow_add]
        omega
      -- the bits of this byte and of all that follow fit into `v`
      have hsum : (b.toNat % 128 + 128 * n) * 2 ^ (7 * k) =
          b.toNat % 128 * 2 ^ (7 * k) + n * 2 ^ (7 * (k + 1)) := by
        rw [hpow, Nat.add_mul, Nat.mul_assoc, Nat.mul_left_comm n]
      let v₁ := v ||| (b &&& 0x7f).toUInt64 <<< UInt64.ofNat (7 * k)
      have hv₁ : v₁.toNat = v.toNat + b.toNat % 128 * 2 ^ (7 * k) := by
        rw [← hgroup]
        exact Varint.toNat_or_shiftLeft (by omega) hv (by rw [hgroup]; omega)
      have hbound : v₁.toNat < 2 ^ (7 * (k + 1)) := by
        have hle : b.toNat % 128 * 2 ^ (7 * k) ≤ 127 * 2 ^ (7 * k) :=
          Nat.mul_le_mul_right _ (by omega)
        omega
      obtain ⟨v', hread, hv'⟩ := ih (pre ++ [b]) (k := k + 1) (v := v₁) (by omega) hbound (by omega)
      refine ⟨v', ?_, by omega⟩
      have hstep : readValue (pre ++ (b :: bs) ++ post) pre.length v (7 * k) =
          readValue (pre ++ [b] ++ bs ++ post) (pre ++ [b]).length v₁ (7 * (k + 1)) := by
        rw [List.append_assoc, List.cons_append, readValue_cons _ _ _ _ (by omega), if_pos]
        · simp [v₁, Nat.mul_add]
        · refine ⟨hb, ?_, by omega⟩
          simp [hrest.ne_nil]
      rw [hstep, hread]
      simp

/-- The outer loop over the bytes of a list of numbers. -/
theorem readValues_encodings {values : List UInt64} {encodings : List (List UInt8)}
    (h : List.Forall₂ IsEncoding values encodings) (pre : List UInt8) (out : List UInt64) :
    readValues (pre ++ encodings.flatten) pre.length out = .ok (out ++ values) := by
  induction h generalizing pre out with
  | nil => simp [readValues]
  | @cons v bs values encodings hhead htail ih =>
      have hne : pre.length ≠ (pre ++ (bs :: encodings).flatten).length := by
        have hpos : 0 < bs.length := List.length_pos_iff.2 hhead.encodes.ne_nil
        simp only [List.flatten_cons, List.length_append]
        omega
      obtain ⟨v', hread, hv'⟩ := readValue_encodes hhead.encodes pre encodings.flatten (k := 0)
        (v := 0) (by have := hhead.length_le; omega) (by decide)
        (by have := v.toNat_lt; simpa using this)
      obtain rfl : v' = v := by
        rw [← UInt64.toNat_inj, hv']
        simp
      have hflat : pre ++ (bs :: encodings).flatten = pre ++ bs ++ encodings.flatten := by
        simp
      rw [← hflat] at hread
      rw [readValues, if_neg hne]
      split
      · rename_i e herror
        cases herror.symm.trans hread
      · rename_i r hr
        cases hr.symm.trans hread
        rw [hflat, ih (pre ++ bs), List.append_assoc, List.singleton_append]

/-- Any encodings of a list of numbers, the shortest ones among them, are read as that list; and any bytes
at all are read to their end and not beyond. -/
theorem mysqlxRawAsU64Vector_spec :
    (∀ (values : List UInt64) (encodings : List (List UInt8)),
      List.Forall₂ IsEncoding values encodings →
        mysqlxRawAsU64Vector encodings.flatten = .ok values) ∧
    (∀ values : List UInt64,
      mysqlxRawAsU64Vector (values.flatMap fun v => Varint.encode v.toNat) = .ok values) ∧
    ∀ bytes : List UInt8, ∃ out, mysqlxRawAsU64Vector bytes = .ok out := by
  have hall : ∀ (values : List UInt64) (encodings : List (List UInt8)),
      List.Forall₂ IsEncoding values encodings →
        mysqlxRawAsU64Vector encodings.flatten = .ok values := by
    intro values encodings h
    exact readValues_encodings h [] []
  refine ⟨hall, ?_, ?_⟩
  · intro values
    rw [List.flatMap_def]
    refine hall values _ ?_
    rw [List.forall₂_map_right_iff]
    exact List.forall₂_same.2 fun v _ => isEncoding_encode v
  · intro bytes
    exact exists_readValues [] (Nat.zero_le _)

/-- Zero in two bytes, and the largest value in ten. -/
theorem mysqlxRawAsU64Vector_max :
    mysqlxRawAsU64Vector ([[0x80, 0x00], Varint.encode 18446744073709551615].flatten) =
      .ok [0, 18446744073709551615] := by
  have hzero : IsEncoding 0 [0x80, 0x00] :=
    ⟨Varint.Encodes.more 0x80 (by decide) (Varint.Encodes.last 0x00 (by decide)), by decide⟩
  have hmax : IsEncoding 18446744073709551615 (Varint.encode 18446744073709551615) :=
    isEncoding_encode 18446744073709551615
  exact mysqlxRawAsU64Vector_spec.1 [0, 18446744073709551615] _
    (.cons hzero (.cons hmax .nil))

/-! ## `mysqlx_column_2_time_point` -/

/-- The members of `struct tm` that the function sets, and the one that `mktime` reads besides. -/
structure Tm where
  tm_year : Int
  tm_mon : Int
  tm_mday : Int
  tm_hour : Int
  tm_min : Int
  tm_sec : Int
  tm_isdst : Int
  deriving DecidableEq, Repr

/-- `vu64[i]`. -/
def element (vu64 : List UInt64) (i : Nat) : Except Halt Nat :=
  match vu64[i]? with
  | some v => .ok v.toNat
  | none => .error .undefinedBehaviour

/-- The assignments to the global `tm2`; `size_t` and `uint64_t` are the same type here. -/
def setTm2 (tm2 : Tm) (vu64 : List UInt64) : Except Halt Tm := do
  let year ← element vu64 0
  let mon ← element vu64 1
  let mday ← element vu64 2
  let hour ← element vu64 3
  let min ← element vu64 4
  let sec ← element vu64 5
  .ok
    { tm2 with
      tm_year := SizeT.toInt (SizeT.sub year 1900)
      tm_mon := SizeT.toInt (SizeT.sub mon 1)
      tm_mday := SizeT.toInt mday
      tm_hour := SizeT.toInt hour
      tm_min := SizeT.toInt min
      tm_sec := SizeT.toInt sec }

/-- `mktime` brings the members of its argument into their ranges and returns the time in seconds; the
function returns a time point, and leaves `tm2` for the next call. -/
def mysqlxColumn2TimePoint (mktime : Tm → Tm × Int) (tm2 : Tm) (bytes : List UInt8) :
    Except Halt (Tm × Int) := do
  let vu64 ← mysqlxRawAsU64Vector bytes
  let tm2 ← setTm2 tm2 vu64
  .ok ((mktime tm2).1, (mktime tm2).2 * second)

/-! ## The encoding of a `DATETIME` -/

/-- A value of type `DATETIME` or `TIMESTAMP`. -/
structure DateTime where
  year : Fin 10000
  month : Fin 13
  day : Fin 32
  hour : Fin 24
  minute : Fin 60
  second : Fin 60
  microsecond : Fin 1000000
  deriving DecidableEq, Repr

def DateTime.date (value : DateTime) : List Nat := [value.year, value.month, value.day]

def DateTime.time (value : DateTime) : List Nat :=
  [value.hour, value.minute, value.second, value.microsecond]

/-- The fields `fields` may be sent for `value`: the date, and as much of the time as is followed by zeros
only. -/
structure DateTime.Sent (value : DateTime) (fields : List Nat) : Prop where
  exists_count : ∃ k, fields = value.date ++ value.time.take k ∧ ∀ f ∈ value.time.drop k, f = 0

/-- The fields of an encoder that leaves out all it may. -/
def DateTime.shortest (value : DateTime) : List Nat := value.date ++ value.time.rdropWhile (· = 0)

/-- `tm2` as it should be for `value`, with the fields that are not sent taken as zero. -/
def DateTime.tm (value : DateTime) (tm2 : Tm) : Tm :=
  { tm2 with
    tm_year := value.year - 1900
    tm_mon := value.month - 1
    tm_mday := value.day
    tm_hour := value.hour
    tm_min := value.minute
    tm_sec := value.second }

/-- The call on the bytes of `encodings` returns the time of `value`. -/
def ReadsAs (mktime : Tm → Tm × Int) (tm2 : Tm) (encodings : List (List UInt8)) (value : DateTime) :
    Prop :=
  mysqlxColumn2TimePoint mktime tm2 encodings.flatten =
    .ok ((mktime (value.tm tm2)).1, (mktime (value.tm tm2)).2 * second)

variable {mktime : Tm → Tm × Int} {tm2 : Tm} {value : DateTime} {fields : List Nat}
  {encodings : List (List UInt8)}

/-- The call decodes the fields and assigns them. -/
theorem mysqlxColumn2TimePoint_eq
    (h : List.Forall₂ IsEncoding (fields.map UInt64.ofNat) encodings) :
    mysqlxColumn2TimePoint mktime tm2 encodings.flatten =
      (setTm2 tm2 (fields.map UInt64.ofNat) >>= fun tm2 =>
        .ok ((mktime tm2).1, (mktime tm2).2 * second)) := by
  rw [mysqlxColumn2TimePoint, mysqlxRawAsU64Vector, ← List.nil_append encodings.flatten]
  rw [show (0 : Nat) = ([] : List UInt8).length from rfl, readValues_encodings h [] []]
  rfl

/-- With fewer than six elements one of the assignments reads outside the vector. -/
theorem setTm2_of_short {vu64 : List UInt64} (h : vu64.length < 6) :
    setTm2 tm2 vu64 = .error .undefinedBehaviour := by
  match vu64, h with
  | [], _ => rfl
  | [_], _ => rfl
  | [_, _], _ => rfl
  | [_, _, _], _ => rfl
  | [_, _, _, _], _ => rfl
  | [_, _, _, _, _], _ => rfl
  | _ :: _ :: _ :: _ :: _ :: _ :: _, h =>
      simp only [List.length_cons] at h
      omega

/-- The conversions of a field of a date, which go through 64 bits without a sign. -/
theorem toInt_sub {a b : Nat} (ha : a < 10000) (hb : b < 10000) :
    SizeT.toInt (SizeT.sub a b) = (a : Int) - b := by
  unfold SizeT.toInt SizeT.sub
  rw [Int.bmod_def]
  omega

theorem toNat_ofNat_field {n : Nat} (h : n < 10000) : (UInt64.ofNat n).toNat = n := by
  rw [UInt64.toNat_ofNat']
  omega

theorem setTm2_of_long (rest : List Nat) :
    setTm2 tm2 ((value.date ++ value.time.take 3 ++ rest).map UInt64.ofNat) =
      .ok (value.tm tm2) := by
  have hyear := value.year.isLt
  have hmonth := value.month.isLt
  have hday := value.day.isLt
  have hhour := value.hour.isLt
  have hminute := value.minute.isLt
  have hsecond := value.second.isLt
  have hvalue : setTm2 tm2 ((value.date ++ value.time.take 3 ++ rest).map UInt64.ofNat) =
      .ok
        { tm2 with
          tm_year := SizeT.toInt (SizeT.sub (UInt64.ofNat value.year).toNat 1900)
          tm_mon := SizeT.toInt (SizeT.sub (UInt64.ofNat value.month).toNat 1)
          tm_mday := SizeT.toInt (UInt64.ofNat value.day).toNat
          tm_hour := SizeT.toInt (UInt64.ofNat value.hour).toNat
          tm_min := SizeT.toInt (UInt64.ofNat value.minute).toNat
          tm_sec := SizeT.toInt (UInt64.ofNat value.second).toNat } := rfl
  rw [hvalue, toNat_ofNat_field hyear, toNat_ofNat_field (by omega), toNat_ofNat_field (by omega),
    toNat_ofNat_field (by omega), toNat_ofNat_field (by omega), toNat_ofNat_field (by omega),
    toInt_sub hyear (by decide), toInt_sub (by omega) (by decide), SizeT.toInt_of_lt (by omega),
    SizeT.toInt_of_lt (by omega), SizeT.toInt_of_lt (by omega), SizeT.toInt_of_lt (by omega)]
  rfl

/-- Fields of which at least six are sent begin with the date and the time up to the second. -/
theorem DateTime.Sent.eq_append (h : value.Sent fields) (hlen : 6 ≤ fields.length) :
    ∃ rest, fields = value.date ++ value.time.take 3 ++ rest := by
  obtain ⟨k, rfl, -⟩ := h.exists_count
  have hk : 3 ≤ k := by
    simp only [DateTime.date, List.length_append, List.length_cons, List.length_nil,
      List.length_take] at hlen
    omega
  refine ⟨(value.time.take k).drop 3, ?_⟩
  have htake : value.time.take 3 = (value.time.take k).take 3 := by
    rw [List.take_take, Nat.min_eq_left hk]
  rw [List.append_assoc, htake, List.take_append_drop]

theorem readsAs_iff (hsent : value.Sent fields)
    (hbytes : List.Forall₂ IsEncoding (fields.map UInt64.ofNat) encodings) :
    ReadsAs mktime tm2 encodings value ↔ 6 ≤ fields.length := by
  rw [ReadsAs, mysqlxColumn2TimePoint_eq hbytes]
  constructor
  · intro hread
    by_contra hshort
    rw [setTm2_of_short (by rw [List.length_map]; omega)] at hread
    cases hread
  · intro hlen
    obtain ⟨rest, rfl⟩ := hsent.eq_append hlen
    rw [setTm2_of_long]
    rfl

/-! ## The times that the program stores -/

/-- A time zone: `localtime` of a time in seconds.  Zones are whole minutes away from UTC. -/
structure Zone where
  localtime : Int → DateTime
  second_eq : ∀ t, ((localtime t).second : Int) = t % 60
  microsecond_eq : ∀ t, (localtime t).microsecond = 0

/-- The date of a day, counted from 1 January 1970.  The years begin in March, so that a leap day is the
last of its year, and go round every 400. -/
def civil (days : Int) : Int × Int × Int :=
  let era := (days + 719468) / 146097
  let dayOfEra := (days + 719468) % 146097
  let yearOfEra := (dayOfEra - dayOfEra / 1460 + dayOfEra / 36524 - dayOfEra / 146096) / 365
  let dayOfYear := dayOfEra - (365 * yearOfEra + yearOfEra / 4 - yearOfEra / 100)
  let marchMonth := (5 * dayOfYear + 2) / 153
  let day := dayOfYear - (153 * marchMonth + 2) / 5 + 1
  let month := if marchMonth < 10 then marchMonth + 3 else marchMonth - 9
  (yearOfEra + era * 400 + if month ≤ 2 then 1 else 0, month, day)

/-- UTC, for the years that a column can hold. -/
def Zone.utc : Zone where
  localtime t :=
    let date := civil (t / 86400)
    { year := ⟨date.1.toNat % 10000, Nat.mod_lt _ (by decide)⟩
      month := ⟨date.2.1.toNat % 13, Nat.mod_lt _ (by decide)⟩
      day := ⟨date.2.2.toNat % 32, Nat.mod_lt _ (by decide)⟩
      hour := ⟨(t / 3600 % 24).toNat, by omega⟩
      minute := ⟨(t / 60 % 60).toNat, by omega⟩
      second := ⟨(t % 60).toNat, by omega⟩
      microsecond := 0 }
  second_eq t := by
    show ((t % 60).toNat : Int) = t % 60
    omega
  microsecond_eq _ := rfl

example : Zone.utc.localtime 1709209845 = ⟨2024, 2, 29, 12, 30, 45, 0⟩ := by decide

/-- The `next_execute` that `update_2_db` stores. -/
def Zone.nextExecute (zone : Zone) (src : RssSource) (success newData : Bool) (now : Int) : DateTime :=
  zone.localtime (toTimeT (src.update success newData now).nextExecute)

/-- What is left out of the shortest encoding may be left out. -/
theorem shortest_sent (value : DateTime) : value.Sent value.shortest := by
  let sent := value.time.rdropWhile (· = 0)
  let zeros := (value.time.reverse.takeWhile (· = 0)).reverse
  have hsplit : value.time = sent ++ zeros := by
    simp only [sent, zeros, List.rdropWhile]
    rw [← List.reverse_append, List.takeWhile_append_dropWhile, List.reverse_reverse]
  have htake : value.time.take sent.length = sent := by
    have h := congrArg (List.take sent.length) hsplit
    rwa [List.take_left] at h
  have hdrop : value.time.drop sent.length = zeros := by
    have h := congrArg (List.drop sent.length) hsplit
    rwa [List.drop_left] at h
  refine ⟨sent.length, by rw [htake]; rfl, ?_⟩
  intro f hf
  rw [hdrop] at hf
  simpa using List.mem_takeWhile_imp (List.mem_reverse.1 hf)

theorem length_shortest_of_full_minute (hsecond : value.second = 0) (hmicro : value.microsecond = 0) :
    value.shortest.length < 6 := by
  have htime : value.time = [(value.hour : Nat), ↑value.minute] ++ [0] ++ [0] := by
    rw [DateTime.time, hsecond, hmicro]
    rfl
  have hdrop : value.time.rdropWhile (· = 0) =
      List.rdropWhile (· = 0) [(value.hour : Nat), ↑value.minute] := by
    rw [htime, List.rdropWhile_concat_pos _ _ _ (by decide), List.rdropWhile_concat_pos _ _ _ (by decide)]
  have hle := (List.rdropWhile_prefix (· = 0) [(value.hour : Nat), ↑value.minute]).length_le
  rw [DateTime.shortest, hdrop, List.length_append]
  simp only [DateTime.date, List.length_cons, List.length_nil] at hle ⊢
  omega

/-- A full hour is a full minute in every zone. -/
theorem second_nextExecute (zone : Zone) (src : RssSource) (success newData : Bool) (now : Int) :
    (zone.nextExecute src success newData now).second = 0 := by
  let hours := roundHours (now + (src.update success newData now).gap * hour)
  have hseconds : toTimeT (src.update success newData now).nextExecute = hours * 3600 := by
    show (hours * (3600 * second)).tdiv second = hours * 3600
    rw [← Int.mul_assoc]
    exact Int.mul_tdiv_cancel _ (by decide)
  have hzero : ((zone.nextExecute src success newData now).second : Int) = 0 := by
    rw [Zone.nextExecute, zone.second_eq, hseconds]
    omega
  exact_mod_cast hzero

/-- A `DATETIME` is read as its value exactly when at least six fields of it are sent; a `next_execute`
that the program has stored is not, if the fields that may be left out are left out. -/
theorem mysqlxColumn2TimePoint_spec (mktime : Tm → Tm × Int) (tm2 : Tm) :
    (∀ value : DateTime, value.Sent value.shortest) ∧
    (∀ (value : DateTime) (fields : List Nat) (encodings : List (List UInt8)), value.Sent fields →
      List.Forall₂ IsEncoding (fields.map UInt64.ofNat) encodings →
        (ReadsAs mktime tm2 encodings value ↔ 6 ≤ fields.length)) ∧
    ∀ (zone : Zone) (src : RssSource) (success newData : Bool) (now : Int)
      (encodings : List (List UInt8)),
      List.Forall₂ IsEncoding
        ((zone.nextExecute src success newData now).shortest.map UInt64.ofNat) encodings →
      mysqlxColumn2TimePoint mktime tm2 encodings.flatten = .error .undefinedBehaviour := by
  refine ⟨shortest_sent, fun value fields encodings => readsAs_iff, ?_⟩
  intro zone src success newData now encodings hbytes
  have hshort : (zone.nextExecute src success newData now).shortest.length < 6 :=
    length_shortest_of_full_minute (second_nextExecute zone src success newData now)
      (zone.microsecond_eq _)
  rw [mysqlxColumn2TimePoint_eq hbytes, setTm2_of_short (by rw [List.length_map]; exact hshort)]
  rfl

/-- The bytes of a year; every other field below 128 is one byte. -/
theorem isEncoding_2024 : IsEncoding 2024 [0xe8, 0x0f] :=
  ⟨Varint.Encodes.more 0xe8 (by decide) (Varint.Encodes.last 0x0f (by decide)), by decide⟩

/-- A source that is due again in an hour. -/
def hourly : RssSource where
  id := 1
  name := "https://36kr.com".toList
  path := "/feed".toList
  status := 0
  lastExecute := 0
  nextExecute := 0
  gap := 1
  active := true

/-- 15:30:10 on 1 January 2024, with six fields, and what `mktime` makes of it at UTC; and the full hour that
is stored at 14:10 on that day, in its shortest encoding. -/
theorem mysqlxColumn2TimePoint_spec_2024 :
    ReadsAs (fun tm => (tm, 1704123010)) ⟨0, 0, 0, 0, 0, 0, 0⟩
        [[0xe8, 0x0f], [0x01], [0x01], [0x0f], [0x1e], [0x0a]] ⟨2024, 1, 1, 15, 30, 10, 0⟩ ∧
      Zone.utc.nextExecute hourly true false (1704118200 * second) = ⟨2024, 1, 1, 15, 0, 0, 0⟩ ∧
      mysqlxColumn2TimePoint (fun tm => (tm, 1704121200)) ⟨0, 0, 0, 0, 0, 0, 0⟩
        [[0xe8, 0x0f], [0x01], [0x01], [0x0f]].flatten = .error .undefinedBehaviour := by
  have hday : IsEncoding 1 [0x01] := ⟨Varint.Encodes.last 0x01 (by decide), by decide⟩
  have hhour : IsEncoding 15 [0x0f] := ⟨Varint.Encodes.last 0x0f (by decide), by decide⟩
  have hminute : IsEncoding 30 [0x1e] := ⟨Varint.Encodes.last 0x1e (by decide), by decide⟩
  have hsecond : IsEncoding 10 [0x0a] := ⟨Varint.Encodes.last 0x0a (by decide), by decide⟩
  have hstored : Zone.utc.nextExecute hourly true false (1704118200 * second) =
      ⟨2024, 1, 1, 15, 0, 0, 0⟩ := by decide
  have hshortest : (Zone.utc.nextExecute hourly true false (1704118200 * second)).shortest =
      [2024, 1, 1, 15] := by
    rw [hstored]
    decide
  refine ⟨?_, hstored, ?_⟩
  · refine ((mysqlxColumn2TimePoint_spec _ _).2.1 _ [2024, 1, 1, 15, 30, 10] _
      ⟨3, by decide, by decide⟩ ?_).2 (by decide)
    exact .cons isEncoding_2024 (.cons hday (.cons hday (.cons hhour (.cons hminute
      (.cons hsecond .nil)))))
  · refine (mysqlxColumn2TimePoint_spec _ _).2.2 Zone.utc hourly true false (1704118200 * second) _ ?_
    rw [hshortest]
    exact .cons isEncoding_2024 (.cons hday (.cons hday (.cons hhour .nil)))

/-- 15:00:00 on 1 January 2024, a full hour, sent with four fields. -/
theorem mysqlxColumn2TimePoint_full_hour :
    DateTime.Sent ⟨2024, 1, 1, 15, 0, 0, 0⟩ [2024, 1, 1, 15] ∧
      mysqlxColumn2TimePoint (fun tm => (tm, 0)) ⟨0, 0, 0, 0, 0, 0, 0⟩
        [0xe8, 0x0f, 0x01, 0x01, 0x0f] = .error .undefinedBehaviour := by
  have hday : IsEncoding 1 [0x01] := ⟨Varint.Encodes.last 0x01 (by decide), by decide⟩
  have hhour : IsEncoding 15 [0x0f] := ⟨Varint.Encodes.last 0x0f (by decide), by decide⟩
  have hbytes : List.Forall₂ IsEncoding ([2024, 1, 1, 15].map UInt64.ofNat)
      [[0xe8, 0x0f], [0x01], [0x01], [0x0f]] :=
    .cons isEncoding_2024 (.cons hday (.cons hday (.cons hhour .nil)))
  refine ⟨⟨1, by decide, by decide⟩, ?_⟩
  exact (mysqlxColumn2TimePoint_eq hbytes).trans (by rw [setTm2_of_short (by decide)]; rfl)

end RssB
end MyCppCode
