import NodeVcdiff.Base128
import NodeVcdiff.Incremental

/-!
# `varint_bigendian.cc`

Variable-length integers in the format of VCDIFF, for the two signed types they are used with.
-/

namespace OpenVcdiff

open Base128 (Continued IsNumber value valueFrom)
open Incremental (Parsed Parser)

/-- The types `VarintBE` is instantiated with. -/
inductive SignedIntegerType where
  | int32
  | int64
  deriving DecidableEq, Repr

namespace VarintBE

variable (T : SignedIntegerType)

/-- `VarintBE::kMaxVal`. -/
def kMaxVal : SignedIntegerType → ℕ
  | .int32 => 0x7FFFFFFF
  | .int64 => 0x7FFFFFFFFFFFFFFF

/-- `VarintBE::kMaxBytes`. -/
def kMaxBytes : SignedIntegerType → ℕ
  | .int32 => 5
  | .int64 => 9

/-- The loop of `VarintBE::Parse`. -/
def parseFrom : ℕ → Parser UInt8 ℕ
  | _, [] => .endOfData
  | result, b :: rest =>
    let result := result + (b &&& 0x7F).toNat
    if b &&& 0x80 = 0 then .success result rest
    else if result > kMaxVal T >>> 7 then .error
    else parseFrom (result <<< 7) rest

/-- `VarintBE::Parse`. -/
def parse : Parser UInt8 ℕ := parseFrom T 0

/-- The loop of `VarintBE::EncodeInternal`, which writes backwards into a buffer that has `slots`
bytes left. -/
def fill : (slots : ℕ) → ℕ → List UInt8 → List UInt8
  | 0, _, buf => buf
  | slots + 1, v, buf =>
    if v = 0 then buf else fill slots (v >>> 7) (UInt8.ofNat ((v &&& 0x7F) ||| 0x80) :: buf)

/-- `VarintBE::EncodeInternal`: the bytes written. Nothing is written of a negative value. -/
def encode (v : ℤ) : List UInt8 :=
  if v < 0 then []
  else fill (kMaxBytes T - 1) (v.toNat >>> 7) [UInt8.ofNat (v.toNat &&& 0x7F)]

/-- The loop of `VarintBE::Length`, for at most `rounds` rounds. -/
def lengthFrom : (rounds : ℕ) → ℕ → ℕ
  | 0, _ => 0
  | rounds + 1, v => if v >>> 7 = 0 then 1 else lengthFrom rounds (v >>> 7) + 1

/-- `VarintBE::Length`. -/
def length (v : ℤ) : ℕ := if v < 0 then 0 else lengthFrom (kMaxBytes T) v.toNat

/-! ## Bits and digits -/

theorem and_127 (n : ℕ) : n &&& 0x7F = n % 128 := Nat.and_two_pow_sub_one_eq_mod n 7

theorem shiftRight_7 (n : ℕ) : n >>> 7 = n / 128 := Nat.shiftRight_eq_div_pow n 7

theorem or_128 {n : ℕ} (h : n < 128) : n ||| 0x80 = n + 128 := by
  rw [Nat.or_comm, Nat.add_comm]
  exact (Nat.two_pow_add_eq_or_of_lt (i := 7) h 1).symm

theorem toNat_and_127 (b : UInt8) : (b &&& 0x7F).toNat = b.toNat % 128 := by
  rw [UInt8.toNat_and]
  exact and_127 b.toNat

theorem and_128_eq_zero_iff (b : UInt8) : b &&& 0x80 = 0 ↔ ¬Continued b := by
  have hbits : ∀ n < 256, n &&& 0x80 = 0 ↔ n < 128 := by decide +kernel
  rw [← UInt8.toNat_inj, UInt8.toNat_and]
  exact (hbits _ b.toNat_lt).trans Nat.not_le.symm

theorem kMaxVal_eq : ∃ q, kMaxVal T = 128 * q + 127 ∧ kMaxVal T >>> 7 = q := by
  cases T with
  | int32 => exact ⟨0xFFFFFF, rfl, rfl⟩
  | int64 => exact ⟨0xFFFFFFFFFFFFFF, rfl, rfl⟩

variable {T}

theorem parseFrom_of_not_continued {v : ℕ} {b : UInt8} {rest : List UInt8} (hb : ¬Continued b) :
    parseFrom T v (b :: rest) = .success (v + b.toNat) rest := by
  have hlow : b.toNat % 128 = b.toNat := Nat.mod_eq_of_lt (Nat.not_le.mp hb)
  rw [parseFrom, if_pos ((and_128_eq_zero_iff b).mpr hb), toNat_and_127, hlow]

theorem parseFrom_of_continued {v : ℕ} {b : UInt8} {rest : List UInt8} (hb : Continued b) :
    parseFrom T v (b :: rest) = if kMaxVal T >>> 7 < v + b.toNat % 128 then .error
      else parseFrom T (128 * (v + b.toNat % 128)) rest := by
  have hne : ¬(b &&& 0x80 = 0) := fun h => (and_128_eq_zero_iff b).mp h hb
  rw [parseFrom, if_neg hne, toNat_and_127, Nat.shiftLeft_eq, Nat.mul_comm _ (2 ^ 7)]

/-! ## What is accepted -/

/-- What the loop finds after digits worth `v`. -/
theorem parseFrom_success_iff (v : ℕ) (hv : 128 * v ≤ kMaxVal T) (d : List UInt8) (n : ℕ)
    (rest : List UInt8) : parseFrom T (128 * v) d = .success n rest ↔
      ∃ used, d = used ++ rest ∧ (∃ m, IsNumber used m) ∧ n = valueFrom v used ∧ n ≤ kMaxVal T := by
  obtain ⟨q, hq, hshift⟩ := kMaxVal_eq T
  induction d generalizing v with
  | nil =>
    constructor
    · intro h; cases h
    · rintro ⟨used, hd, ⟨m, hm⟩, -⟩
      exact absurd (List.append_eq_nil_iff.mp hd.symm).1 hm.ne_nil
  | cons b d ih =>
    by_cases hb : Continued b
    · rw [parseFrom_of_continued hb, hshift]
      constructor
      · intro h
        split at h
        · cases h
        · next hle =>
          obtain ⟨used, rfl, ⟨m, hm⟩, hn, hmax⟩ := (ih _ (by omega)).mp h
          exact ⟨b :: used, rfl, ⟨_, hm.cons hb⟩, hn, hmax⟩
      · rintro ⟨used, hd, ⟨m, hm⟩, hn, hmax⟩
        obtain ⟨high, low, rfl, hhigh, hlow⟩ := hm.form
        cases high with
        | nil =>
          obtain ⟨rfl, -⟩ := List.cons.inj hd
          exact absurd hb hlow
        | cons b' high =>
          obtain ⟨rfl, rfl⟩ := List.cons.inj hd
          rw [List.cons_append, Base128.valueFrom_cons] at hn
          -- the digits that follow only add to what is checked here
          have hle : 128 * (128 * v + b.toNat % 128) ≤ n := by
            rw [hn, Base128.valueFrom_append]
            refine Nat.le_trans ?_ (Nat.le_add_right _ _)
            exact Nat.mul_le_mul_left _ (Base128.le_valueFrom _ high)
          rw [if_neg (by omega)]
          refine (ih _ (by omega)).mpr ⟨high ++ [low], rfl, ⟨_, ⟨high, low, rfl, ?_, hlow⟩, rfl⟩, hn,
            hmax⟩
          exact fun c hc => hhigh c (List.mem_cons_of_mem _ hc)
    · rw [parseFrom_of_not_continued hb]
      have hlt : b.toNat < 128 := Nat.not_le.mp hb
      have hmod : b.toNat % 128 = b.toNat := Nat.mod_eq_of_lt hlt
      constructor
      · intro h
        obtain ⟨rfl, rfl⟩ := Parsed.success.inj h
        refine ⟨[b], rfl, ⟨_, Base128.isNumber_singleton hb⟩, ?_, by omega⟩
        show _ = 128 * v + b.toNat % 128
        rw [hmod]
      · rintro ⟨used, hd, ⟨m, hm⟩, hn, -⟩
        obtain ⟨rfl, rfl⟩ := (Base128.isNumber_singleton hb).eq_of_append hm hd
        rw [hn]
        show _ = Parsed.success (128 * v + b.toNat % 128) _
        rw [hmod]

/-- The input ends inside a number that fits so far. -/
theorem parseFrom_endOfData_iff (v : ℕ) (d : List UInt8) (hv : 128 * v ≤ kMaxVal T) :
    parseFrom T (128 * v) d = .endOfData ↔
      (∀ b ∈ d, Continued b) ∧ 128 * valueFrom v d ≤ kMaxVal T := by
  obtain ⟨q, hq, hshift⟩ := kMaxVal_eq T
  induction d generalizing v with
  | nil => exact ⟨fun _ => ⟨by simp, hv⟩, fun _ => rfl⟩
  | cons b d ih =>
    by_cases hb : Continued b
    · rw [parseFrom_of_continued hb, hshift, Base128.valueFrom_cons, List.forall_mem_cons]
      have hge := Base128.le_valueFrom (128 * v + b.toNat % 128) d
      split
      · constructor
        · intro h; cases h
        · rintro ⟨-, h⟩; omega
      · rw [ih _ (by omega)]
        exact ⟨fun h => ⟨⟨hb, h.1⟩, h.2⟩, fun h => ⟨h.1.2, h.2⟩⟩
    · rw [parseFrom_of_not_continued hb]
      constructor
      · intro h; cases h
      · rintro ⟨h, -⟩
        exact absurd (h b List.mem_cons_self) hb

/-- What is parsed is a number that the type can hold, to its end. -/
theorem parse_success_iff {d : List UInt8} {n : ℕ} {rest : List UInt8} :
    parse T d = .success n rest ↔ ∃ used, d = used ++ rest ∧ IsNumber used n ∧ n ≤ kMaxVal T := by
  have h := parseFrom_success_iff (T := T) 0 (Nat.zero_le _) d n rest
  rw [Nat.mul_zero] at h
  refine h.trans ⟨?_, ?_⟩
  · rintro ⟨used, hd, ⟨m, hm⟩, hn, hmax⟩
    exact ⟨used, hd, ⟨hm.form, hn.symm⟩, hmax⟩
  · rintro ⟨used, hd, hm, hmax⟩
    exact ⟨used, hd, ⟨n, hm⟩, hm.worth.symm, hmax⟩

theorem parse_endOfData_iff {d : List UInt8} :
    parse T d = .endOfData ↔ (∀ b ∈ d, Continued b) ∧ 128 * value d ≤ kMaxVal T := by
  have h := parseFrom_endOfData_iff (T := T) 0 d (Nat.zero_le _)
  rwa [Nat.mul_zero] at h

/-- What follows a number is left alone, and what is missing can be supplied later. -/
theorem stable_parse : (parse T).Stable := by
  have hfrom : ∀ v, (parseFrom T v).Stable := by
    intro v d e h
    induction d generalizing v with
    | nil => exact absurd rfl h
    | cons b d ih =>
      rw [List.cons_append]
      by_cases hb : Continued b
      · rw [parseFrom_of_continued hb] at h ⊢
        rw [parseFrom_of_continued hb]
        by_cases hlarge : kMaxVal T >>> 7 < v + b.toNat % 128
        · rw [if_pos hlarge, if_pos hlarge]
          rfl
        · rw [if_neg hlarge] at h ⊢
          rw [if_neg hlarge]
          exact ih _ h
      · rw [parseFrom_of_not_continued hb, parseFrom_of_not_continued hb]
        rfl
  exact hfrom 0

/-- The digits that have arrived are worth too much for another one to fit. -/
theorem parseFrom_error_iff (v : ℕ) (d : List UInt8) (hv : 128 * v ≤ kMaxVal T) :
    parseFrom T (128 * v) d = .error ↔ ∃ high rest, d = high ++ rest ∧
      (∀ b ∈ high, Continued b) ∧ kMaxVal T < 128 * valueFrom v high := by
  obtain ⟨q, hq, hshift⟩ := kMaxVal_eq T
  induction d generalizing v with
  | nil =>
    constructor
    · intro h; cases h
    · rintro ⟨high, rest, hd, -, hlarge⟩
      rw [(List.append_eq_nil_iff.mp hd.symm).1] at hlarge
      exact absurd hv (Nat.not_le.mpr hlarge)
  | cons b d ih =>
    by_cases hb : Continued b
    · rw [parseFrom_of_continued hb, hshift]
      by_cases hlarge : q < 128 * v + b.toNat % 128
      · rw [if_pos hlarge]
        refine ⟨fun _ => ⟨[b], d, rfl, by simpa using hb, ?_⟩, fun _ => rfl⟩
        show _ < 128 * (128 * v + b.toNat % 128)
        omega
      · rw [if_neg hlarge, ih _ (by omega)]
        constructor
        · rintro ⟨high, rest, rfl, hhigh, hmax⟩
          exact ⟨b :: high, rest, rfl, List.forall_mem_cons.mpr ⟨hb, hhigh⟩, hmax⟩
        · rintro ⟨high, rest, hd, hhigh, hmax⟩
          cases high with
          | nil => exact absurd hv (Nat.not_le.mpr hmax)
          | cons b' high =>
            obtain ⟨rfl, rfl⟩ := List.cons.inj hd
            exact ⟨high, rest, rfl, (List.forall_mem_cons.mp hhigh).2, hmax⟩
    · rw [parseFrom_of_not_continued hb]
      constructor
      · intro h; cases h
      · rintro ⟨high, rest, hd, hhigh, hmax⟩
        cases high with
        | nil => exact absurd hv (Nat.not_le.mpr hmax)
        | cons b' high =>
          obtain ⟨rfl, -⟩ := List.cons.inj hd
          exact absurd (hhigh b List.mem_cons_self) hb

theorem leaves_parse : (parse T).Leaves := by
  intro d n rest h
  obtain ⟨used, rfl, -⟩ := parse_success_iff.mp h
  exact List.suffix_append used rest

/-- The three outcomes. Parsing goes on before the end of a number as long as another digit may
still fit, and an error is reported as soon as none does. -/
theorem parse_spec (d : List UInt8) :
    (∀ n rest, parse T d = .success n rest ↔
      ∃ used, d = used ++ rest ∧ IsNumber used n ∧ n ≤ kMaxVal T) ∧
    (parse T d = .endOfData ↔ (∀ b ∈ d, Continued b) ∧ 128 * value d ≤ kMaxVal T) ∧
    (parse T d = .error ↔ ∃ high rest, d = high ++ rest ∧ (∀ b ∈ high, Continued b) ∧
      kMaxVal T < 128 * value high) := by
  refine ⟨fun n rest => parse_success_iff, parse_endOfData_iff, ?_⟩
  have h := parseFrom_error_iff (T := T) 0 d (Nat.zero_le _)
  rwa [Nat.mul_zero] at h

/-! ## What is written -/

/-- The loop writes the digits of `v` in front of what is there, if they fit. -/
theorem fill_spec (slots v : ℕ) (hv : v < 128 ^ slots) (buf : List UInt8) : ∃ high,
    fill slots v buf = high ++ buf ∧ (∀ b ∈ high, Continued b) ∧ value high = v ∧
      high.length ≤ slots ∧ (high = [] ∨ 128 ^ high.length ≤ 128 * v) := by
  induction slots generalizing v buf with
  | zero =>
    obtain rfl : v = 0 := by rw [Nat.pow_zero] at hv; omega
    exact ⟨[], rfl, by simp, rfl, Nat.le_refl _, .inl rfl⟩
  | succ slots ih =>
    by_cases h0 : v = 0
    · subst h0
      exact ⟨[], if_pos rfl, by simp, rfl, Nat.zero_le _, .inl rfl⟩
    · have hlt : v / 128 < 128 ^ slots := by
        rw [Nat.pow_succ] at hv
        exact Nat.div_lt_of_lt_mul (by omega)
      rw [fill, if_neg h0, shiftRight_7, and_127, or_128 (Nat.mod_lt _ (by omega))]
      obtain ⟨high, heq, hhigh, hval, hlen, hmin⟩ := ih (v / 128) hlt
        (UInt8.ofNat (v % 128 + 128) :: buf)
      have hbyte : (UInt8.ofNat (v % 128 + 128)).toNat = v % 128 + 128 := by
        rw [UInt8.toNat_ofNat']
        omega
      refine ⟨high ++ [UInt8.ofNat (v % 128 + 128)], ?_, ?_, ?_, ?_, ?_⟩
      · rw [heq, List.append_assoc, List.singleton_append]
      · intro b hb
        rcases List.mem_append.mp hb with hb | hb
        · exact hhigh b hb
        · obtain rfl := List.mem_singleton.mp hb
          unfold Continued
          omega
      · rw [value, Base128.valueFrom_append]
        show 128 * value high + (UInt8.ofNat (v % 128 + 128)).toNat % 128 = v
        omega
      · rw [List.length_append, List.length_singleton]
        omega
      · right
        rw [List.length_append, List.length_singleton, Nat.pow_succ]
        rcases hmin with rfl | hmin
        · rw [List.length_nil, Nat.pow_zero]
          omega
        · omega

theorem length_fill_le (slots v : ℕ) (buf : List UInt8) :
    (fill slots v buf).length ≤ slots + buf.length := by
  induction slots generalizing v buf with
  | zero => exact Nat.le_add_left _ _
  | succ slots ih =>
    unfold fill
    split
    · exact Nat.le_add_left _ _
    · have := ih (v >>> 7) (UInt8.ofNat ((v &&& 0x7F) ||| 0x80) :: buf)
      rw [List.length_cons] at this
      omega

/-- Whatever the value is, what is written fits into the buffer. -/
theorem length_encode_le (v : ℤ) : (encode T v).length ≤ kMaxBytes T := by
  unfold encode
  split
  · exact Nat.zero_le _
  · have := length_fill_le (kMaxBytes T - 1) (v.toNat >>> 7) [UInt8.ofNat (v.toNat &&& 0x7F)]
    have hslots : kMaxBytes T - 1 + 1 = kMaxBytes T := by cases T <;> rfl
    rw [List.length_singleton, hslots] at this
    exact this

/-- What is written of a value is a number of the value. It fits into the buffer, and no shorter
number has the value. -/
theorem encode_spec {n : ℕ} (hn : n ≤ kMaxVal T) :
    IsNumber (encode T n) n ∧ (encode T n).length ≤ kMaxBytes T ∧
      ∀ bytes, IsNumber bytes n → (encode T n).length ≤ bytes.length := by
  have hlt : n / 128 < 128 ^ (kMaxBytes T - 1) := by
    cases T with
    | int32 => have : n ≤ 0x7FFFFFFF := hn; show n / 128 < 128 ^ 4; omega
    | int64 => have : n ≤ 0x7FFFFFFFFFFFFFFF := hn; show n / 128 < 128 ^ 8; omega
  have hslots : kMaxBytes T - 1 + 1 = kMaxBytes T := by cases T <;> rfl
  have hbyte : (UInt8.ofNat (n % 128)).toNat = n % 128 := by rw [UInt8.toNat_ofNat']; omega
  obtain ⟨high, heq, hhigh, hval, hlen, hmin⟩ := fill_spec (kMaxBytes T - 1) (n / 128) hlt
    [UInt8.ofNat (n % 128)]
  have henc : encode T n = high ++ [UInt8.ofNat (n % 128)] := by
    rw [encode, if_neg (by omega), Int.toNat_natCast, shiftRight_7, and_127, heq]
  have hnum : IsNumber (encode T n) n := by
    refine ⟨⟨high, _, henc, hhigh, ?_⟩, ?_⟩
    · unfold Continued
      omega
    · rw [henc, value, Base128.valueFrom_append]
      show 128 * value high + (UInt8.ofNat (n % 128)).toNat % 128 = n
      omega
  refine ⟨hnum, ?_, ?_⟩
  · rw [henc, List.length_append, List.length_singleton]
    omega
  · intro bytes hbytes
    rw [henc, List.length_append, List.length_singleton]
    by_contra hshort
    have hlt := Base128.value_lt bytes
    rw [hbytes.worth] at hlt
    have hpos : 0 < bytes.length := List.length_pos_iff.mpr hbytes.ne_nil
    rcases hmin with rfl | hmin
    · exact hshort hpos
    · have hle : 128 ^ bytes.length ≤ 128 ^ high.length :=
        Nat.pow_le_pow_right (by omega) (by omega)
      omega

/-- The loop counts the bytes that are written. -/
theorem length_fill (slots v : ℕ) (hv : v < 128 ^ slots) (buf : List UInt8) (rounds : ℕ) (w : ℕ)
    (hw : w / 128 = v) (hr : slots < rounds) :
    (fill slots v buf).length + 1 = lengthFrom rounds w + buf.length := by
  induction slots generalizing v buf rounds w with
  | zero =>
    obtain rfl : v = 0 := by rw [Nat.pow_zero] at hv; omega
    cases rounds with
    | zero => omega
    | succ rounds =>
      rw [lengthFrom, shiftRight_7, if_pos hw, fill]
      omega
  | succ slots ih =>
    cases rounds with
    | zero => omega
    | succ rounds =>
      rw [lengthFrom, shiftRight_7, hw]
      by_cases h0 : v = 0
      · rw [fill, if_pos h0, if_pos h0]
        omega
      · have hlt : v / 128 < 128 ^ slots := by
          rw [Nat.pow_succ] at hv
          exact Nat.div_lt_of_lt_mul (by omega)
        rw [fill, if_neg h0, if_neg h0, shiftRight_7, ih _ hlt _ rounds v rfl (by omega),
          List.length_cons]
        omega

/-- `VarintBE::Length` is the length of what is written. -/
theorem length_encode {n : ℕ} (hn : n ≤ kMaxVal T) : (encode T n).length = length T n := by
  have hlt : n / 128 < 128 ^ (kMaxBytes T - 1) := by
    cases T with
    | int32 => have : n ≤ 0x7FFFFFFF := hn; show n / 128 < 128 ^ 4; omega
    | int64 => have : n ≤ 0x7FFFFFFFFFFFFFFF := hn; show n / 128 < 128 ^ 8; omega
  have hslots : kMaxBytes T - 1 < kMaxBytes T := by cases T <;> decide
  have := length_fill (kMaxBytes T - 1) (n / 128) hlt [UInt8.ofNat (n % 128)] (kMaxBytes T) n rfl
    hslots
  rw [List.length_singleton] at this
  rw [encode, length, if_neg (by omega), if_neg (by omega), Int.toNat_natCast, shiftRight_7,
    and_127]
  omega

/-- What was written is read back, whatever follows it. -/
theorem reads_encode {n : ℕ} (hn : n ≤ kMaxVal T) : (parse T).Reads (encode T n) n :=
  fun _ => parse_success_iff.mpr ⟨_, rfl, (encode_spec hn).1, hn⟩

theorem encode_ne_nil {n : ℕ} (hn : n ≤ kMaxVal T) : encode T n ≠ [] := (encode_spec hn).1.ne_nil

/-- A value and its encoding: it is read back in front of any data, its first bytes alone are not
taken for a number, `VarintBE::Length` is its length, and no other encoding is shorter. -/
theorem encode_parse {n : ℕ} (hn : n ≤ kMaxVal T) :
    (∀ rest, parse T (encode T n ++ rest) = .success n rest) ∧
    (∀ d e, d ++ e = encode T n → e ≠ [] → parse T d = .endOfData) ∧
    (encode T n).length = length T n ∧ (encode T n).length ≤ kMaxBytes T ∧
    ∀ bytes rest, parse T (bytes ++ rest) = .success n rest →
      (encode T n).length ≤ bytes.length := by
  obtain ⟨-, hbuf, hmin⟩ := encode_spec hn
  refine ⟨reads_encode hn, fun d e => (reads_encode hn).endOfData stable_parse, length_encode hn,
    hbuf, ?_⟩
  intro bytes _ h
  obtain ⟨used, hd, hused, -⟩ := parse_success_iff.mp h
  rw [List.append_left_inj] at hd
  exact hmin bytes (hd ▸ hused)

theorem encode_parse_300 :
    (∀ rest, parse .int32 (encode .int32 (300 : ℕ) ++ rest) = .success 300 rest) ∧
    (∀ d e, d ++ e = encode .int32 (300 : ℕ) → e ≠ [] → parse .int32 d = .endOfData) ∧
    (encode .int32 (300 : ℕ)).length = length .int32 (300 : ℕ) ∧
    (encode .int32 (300 : ℕ)).length ≤ kMaxBytes .int32 ∧
    ∀ bytes rest, parse .int32 (bytes ++ rest) = .success 300 rest →
      (encode .int32 (300 : ℕ)).length ≤ bytes.length :=
  encode_parse (by decide)

end VarintBE

end OpenVcdiff
