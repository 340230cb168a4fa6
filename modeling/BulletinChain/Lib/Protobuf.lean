import BulletinChain.Lib.Codec

-- The wire format of protocol buffers: a message is a run of fields, each with a number and a value.
namespace Protobuf

open Scale Decoder

-- A number in base 128, the lowest digit first. Every byte but the last has its top bit set.
def varint (n : Nat) : List UInt8 :=
  if n < 128 then
    [UInt8.ofNat n]
  else
    UInt8.ofNat (n % 128 + 128) :: varint (n / 128)
termination_by n
decreasing_by omega

inductive Value
  | varint (n : Nat)
  | fixed64 (bs : List UInt8)
  | bytes (bs : List UInt8)
  | fixed32 (bs : List UInt8)

structure Field where
  number : Nat
  value  : Value

namespace Field

-- The wire type of a field is in the three low bits of its key.
def encode : Field → List UInt8
  | ⟨k, .varint n⟩   => Protobuf.varint (8 * k) ++ Protobuf.varint n
  | ⟨k, .fixed64 bs⟩ => Protobuf.varint (8 * k + 1) ++ bs
  | ⟨k, .bytes bs⟩   => Protobuf.varint (8 * k + 2) ++ Protobuf.varint bs.length ++ bs
  | ⟨k, .fixed32 bs⟩ => Protobuf.varint (8 * k + 5) ++ bs

structure Valid (f : Field) : Prop where
  number_pos : 0 < f.number
  number_lt  : f.number < 2 ^ 61
  value      : match f.value with
    | .varint n   => n < 2 ^ 64
    | .fixed64 bs => bs.length = 8
    | .bytes bs   => bs.length < 2 ^ 64
    | .fixed32 bs => bs.length = 4

theorem Valid.varint (hp : 0 < k) (hk : k < 2 ^ 61) (hn : n < 2 ^ 64) : Valid ⟨k, .varint n⟩ :=
  ⟨hp, hk, hn⟩

theorem Valid.bytes (hp : 0 < k) (hk : k < 2 ^ 61) (hb : bs.length < 2 ^ 64) : Valid ⟨k, .bytes bs⟩ :=
  ⟨hp, hk, hb⟩

end Field

namespace Decode

-- A number of at most `k` bytes.
def digits : Nat → Decoder Nat
  | 0     => fail
  | k + 1 => do
    let b ← byte
    if b.toNat < 128 then
      return b.toNat
    else
      let n ← digits k
      return b.toNat - 128 + 128 * n

-- A `u64` takes at most ten bytes, of which the last has room for more than the number may need.
def varint : Decoder Nat := do
  let n ← digits 10
  if n < 2 ^ 64 then return n else fail

def bytes (len : Nat) : Decoder (List UInt8) := fun bs =>
  if len ≤ bs.length then some (bs.take len, bs.drop len) else none

def field : Decoder Field := do
  let key ← varint
  let number := key / 8
  if number = 0 then
    fail
  else
    match key % 8 with
    | 0 => return ⟨number, .varint (← varint)⟩
    | 1 => return ⟨number, .fixed64 (← bytes 8)⟩
    | 2 => return ⟨number, .bytes (← bytes (← varint))⟩
    | 5 => return ⟨number, .fixed32 (← bytes 4)⟩
    | _ => fail

-- Every field takes a byte, so that there are at most as many fields as bytes.
def fieldsUpTo : Nat → List UInt8 → Option (List Field)
  | _,     []      => some []
  | 0,     _ :: _  => none
  | k + 1, b :: bs => do
    let (f, rest) ← field (b :: bs)
    let fs ← fieldsUpTo k rest
    return f :: fs

-- The fields of a message, which are to take all of its bytes.
def fields (bs : List UInt8) : Option (List Field) :=
  fieldsUpTo bs.length bs

-- A message, read from its fields one after the other.
def message (read : α → Field → Option α) (init : α) (bs : List UInt8) : Option α := do
  let fs ← fields bs
  fs.foldlM read init

end Decode

theorem varint_of_lt (h : n < 128) : varint n = [UInt8.ofNat n] := by
  rw [varint, if_pos h]

theorem varint_of_le (h : 128 ≤ n) :
    varint n = UInt8.ofNat (n % 128 + 128) :: varint (n / 128) := by
  rw [varint, if_neg (Nat.not_lt.mpr h)]

theorem length_varint (n : Nat) : (varint n).length = Nat.log 128 n + 1 := by
  induction n using Nat.strongRecOn
  case ind n hi =>
    by_cases h : n < 128
    · rw [varint_of_lt h, Nat.log_of_lt h, List.length_singleton]
    · have h := Nat.not_lt.mp h
      rw [varint_of_le h, List.length_cons, hi _ (by omega), Nat.log_of_one_lt_of_le (by decide) h]

theorem length_varint_pos (n : Nat) : 0 < (varint n).length := by
  rw [length_varint]
  exact Nat.succ_pos _

theorem length_varint_le (h : n < 128 ^ (k + 1)) : (varint n).length ≤ k + 1 := by
  rw [length_varint]
  exact Nat.log_lt_of_lt_pow' (Nat.succ_ne_zero k) h

theorem lt_length_varint (h : 128 ^ k ≤ n) : k < (varint n).length := by
  rw [length_varint, Nat.lt_succ_iff]
  exact Nat.le_log_of_pow_le (by decide) h

theorem length_varint_eq (hl : 128 ^ k ≤ n) (hu : n < 128 ^ (k + 1)) :
    (varint n).length = k + 1 := by
  rw [length_varint, Nat.log_eq_of_pow_le_of_lt_pow hl hu]

open Decode

theorem digits_varint (h : (varint n).length ≤ k) (rest : List UInt8) :
    digits k (varint n ++ rest) = some (n, rest) := by
  induction k generalizing n
  case zero => exact absurd (length_varint_pos n) (Nat.not_lt.mpr h)
  case succ k hi =>
    by_cases hn : n < 128
    · have hb : (UInt8.ofNat n).toNat = n := by simp; omega
      rw [varint_of_lt hn, List.singleton_append, digits, bind_of_some (byte_cons _ _), hb,
        if_pos hn, pure_apply]
    · have hn := Nat.not_lt.mp hn
      have hb : (UInt8.ofNat (n % 128 + 128)).toNat = n % 128 + 128 := by simp; omega
      rw [varint_of_le hn, List.length_cons] at h
      rw [varint_of_le hn, List.cons_append, digits, bind_of_some (byte_cons _ _), hb,
        if_neg (by omega), bind_of_some (hi (Nat.le_of_succ_le_succ h)), pure_apply]
      congr 2
      omega

-- The standard decoder inverts the encoding of every `u64`.
theorem varint_varint (h : n < 2 ^ 64) (rest : List UInt8) :
    Decode.varint (varint n ++ rest) = some (n, rest) := by
  have hl : (varint n).length ≤ 10 := length_varint_le (Nat.lt_trans h (by decide))
  rw [Decode.varint, bind_of_some (digits_varint hl rest), if_pos h, pure_apply]

-- Numbers of any size are told apart, whatever follows them.
theorem varint_append_inj (h : varint a ++ x = varint b ++ y) : a = b ∧ x = y := by
  have ha := digits_varint (Nat.le_max_left (varint a).length (varint b).length) x
  have hb := digits_varint (Nat.le_max_right (varint a).length (varint b).length) y
  rw [h, hb] at ha
  cases ha
  exact ⟨rfl, rfl⟩

theorem bytes_append (bs rest : List UInt8) :
    bytes bs.length (bs ++ rest) = some (bs, rest) := by
  simp [bytes]

theorem field_encode {f : Field} (h : f.Valid) (rest : List UInt8) :
    field (f.encode ++ rest) = some (f, rest) := by
  obtain ⟨k, value⟩ := f
  have ⟨hp, hk, hv⟩ := h
  -- the key gives the number and the wire type back
  have key (w : Nat) (hw : w < 8) (rest : List UInt8) :
      Decode.varint (varint (8 * k + w) ++ rest) = some (8 * k + w, rest) :=
    varint_varint (by simp only at hk; omega) rest
  have hn (w : Nat) (hw : w < 8) : (8 * k + w) / 8 = k := by omega
  have ht (w : Nat) (hw : w < 8) : (8 * k + w) % 8 = w := by omega
  have hz : k ≠ 0 := Nat.ne_of_gt hp
  cases value
  case varint n =>
    have hk : Decode.varint (varint (8 * k) ++ (varint n ++ rest)) = some (8 * k, varint n ++ rest) :=
      key 0 (by decide) _
    rw [Field.encode, List.append_assoc, field, bind_of_some hk]
    simp only [show 8 * k / 8 = k by omega, show 8 * k % 8 = 0 by omega, if_neg hz]
    rw [bind_of_some (varint_varint hv rest), pure_apply]
  case fixed64 bs =>
    rw [Field.encode, List.append_assoc, field, bind_of_some (key 1 (by decide) _)]
    simp only [hn 1, ht 1, Nat.reduceLT, if_neg hz]
    rw [← hv, bind_of_some (bytes_append bs rest), pure_apply]
  case bytes bs =>
    rw [Field.encode, List.append_assoc, List.append_assoc, field, bind_of_some (key 2 (by decide) _)]
    simp only [hn 2, ht 2, Nat.reduceLT, if_neg hz]
    rw [bind_of_some (varint_varint hv _), bind_of_some (bytes_append bs rest), pure_apply]
  case fixed32 bs =>
    rw [Field.encode, List.append_assoc, field, bind_of_some (key 5 (by decide) _)]
    simp only [hn 5, ht 5, Nat.reduceLT, if_neg hz]
    rw [← hv, bind_of_some (bytes_append bs rest), pure_apply]

theorem length_encode_pos (f : Field) : 0 < f.encode.length := by
  obtain ⟨k, value⟩ := f
  cases value <;> simp only [Field.encode, List.length_append]
  case bytes => exact Nat.add_pos_left (Nat.add_pos_left (length_varint_pos _) _) _
  all_goals exact Nat.add_pos_left (length_varint_pos _) _

theorem fields_encode {fs : List Field} (h : ∀ f ∈ fs, f.Valid) :
    fields (fs.flatMap Field.encode) = some fs := by
  have hu (k : Nat) (hk : (fs.flatMap Field.encode).length ≤ k) :
      fieldsUpTo k (fs.flatMap Field.encode) = some fs := by
    induction fs generalizing k
    case nil => simp [fieldsUpTo]
    case cons f fs hi =>
      have ⟨hf, hs⟩ := List.forall_mem_cons.mp h
      rw [List.flatMap_cons] at hk ⊢
      have hp := length_encode_pos f
      have hd := field_encode hf (fs.flatMap Field.encode)
      cases k
      case zero   => rw [List.length_append] at hk; omega
      case succ k =>
        cases he : f.encode ++ fs.flatMap Field.encode
        case nil       => simp at he; simp [he.left] at hp
        case cons b bs =>
          rw [he] at hd
          simp only [List.length_append] at hk
          simp [fieldsUpTo, hd, hi hs k (by omega)]
  exact hu _ le_rfl

theorem message_encode {read : α → Field → Option α} {init : α} {fs : List Field}
    (h : ∀ f ∈ fs, f.Valid) :
    message read init (fs.flatMap Field.encode) = fs.foldlM read init := by
  rw [message, fields_encode h]
  rfl

end Protobuf
