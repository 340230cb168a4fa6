import Mathlib.Data.Vector.Basic
import BulletinChain.Lib.BoundedVec
import BulletinChain.Lib.Scale

-- Decoding SCALE: integers, records, enumerations, options and bounded vectors.
namespace Scale

-- Reads a value off the front of some bytes, and leaves the others.
abbrev Decoder := StateT (List UInt8) Option

-- An encoding, and the decoder that reads it back, for values that it can tell apart: a number must fit
-- its bytes.
structure Codec (α : Type) where
  encode : α → List UInt8
  decode : Decoder α
  Valid  : α → Prop
  decode_encode {a : α} (h : Valid a) (rest : List UInt8) : decode (encode a ++ rest) = some (a, rest)

-- Every value takes `n` bytes.
structure Codec.Sized (c : Codec α) (n : Nat) : Prop where
  length_encode : ∀ a, (c.encode a).length = n
  length_decode : ∀ {bs a rest}, c.decode bs = some (a, rest) → bs.length = n + rest.length

-- Whatever the bytes are, `n` of them are a value.
def Codec.Total (c : Codec α) (n : Nat) : Prop :=
  ∀ bs, n ≤ bs.length → ∃ a rest, c.decode bs = some (a, rest)

-- Whatever is read can be written again.
def Codec.Sound (c : Codec α) : Prop :=
  ∀ bs a rest, c.decode bs = some (a, rest) → c.Valid a

-- What is read is written with the same bytes again.
def Codec.Exact (c : Codec α) : Prop :=
  ∀ bs a rest, c.decode bs = some (a, rest) → bs = c.encode a ++ rest

-- An array of `n` bytes: any of them are a value, and a value is any of them.
structure Codec.IsArray (c : Codec α) (n : Nat) : Prop where
  sized : c.Sized n
  total : c.Total n
  valid : ∀ a, c.Valid a

namespace Decoder

def fail : Decoder α :=
  fun _ => none

def byte : Decoder UInt8
  | []      => none
  | b :: bs => some (b, bs)

-- `k` bytes as a little-endian number.
def uint : Nat → Decoder Nat
  | 0     => pure 0
  | k + 1 => do
    let b ← byte
    let n ← uint k
    return b.toNat + 256 * n

-- A compact `u32`. A number has only one encoding: one that is longer than it needs is refused.
def compact : Decoder Nat := do
  let b ← byte
  match b.toNat % 4 with
  | 0 => return b.toNat / 4
  | 1 =>
    let n ← uint 1
    let x := (b.toNat + 256 * n) / 4
    if 2 ^ 6 ≤ x then return x else fail
  | 2 =>
    let n ← uint 3
    let x := (b.toNat + 256 * n) / 4
    if 2 ^ 14 ≤ x then return x else fail
  | _ =>
    if b.toNat / 4 = 0 then
      let x ← uint 4
      if 2 ^ 30 ≤ x then return x else fail
    else
      fail

def many (d : Decoder α) : (k : Nat) → Decoder (List.Vector α k)
  | 0     => pure .nil
  | k + 1 => do
    let a ← d
    let as ← many d k
    return a ::ᵥ as

theorem bind_eq_some {d : Decoder α} {f : α → Decoder β} :
    (d >>= f) bs = some r ↔ ∃ a mid, d bs = some (a, mid) ∧ f a mid = some r := by
  change (d bs).bind (fun p => f p.1 p.2) = some r ↔ _
  simp [Option.bind_eq_some_iff]

theorem bind_of_some {d : Decoder α} {f : α → Decoder β} (h : d bs = some (a, rest)) :
    (d >>= f) bs = f a rest := by
  change (d bs).bind (fun p => f p.1 p.2) = _
  rw [h, Option.bind_some]

theorem pure_eq_some : (pure a : Decoder α) bs = some r ↔ r = (a, bs) := by
  change some (a, bs) = some r ↔ _
  simp [eq_comm]

theorem pure_apply (a : α) (bs : List UInt8) : (pure a : Decoder α) bs = some (a, bs) :=
  rfl

theorem byte_cons (b : UInt8) (bs : List UInt8) : byte (b :: bs) = some (b, bs) :=
  rfl

theorem length_of_byte (h : byte bs = some (b, rest)) : bs.length = 1 + rest.length := by
  cases bs
  case nil  => cases h
  case cons => cases h; simp [Nat.add_comm]

theorem length_of_uint (h : uint k bs = some (n, rest)) : bs.length = k + rest.length := by
  induction k generalizing bs n
  case zero      => cases h; simp
  case succ k hi =>
    have ⟨b, mid, hb, h⟩ := bind_eq_some.mp h
    have ⟨m, rest', hm, h⟩ := bind_eq_some.mp h
    cases pure_eq_some.mp h
    have hb := length_of_byte hb
    have hm := hi hm
    omega

theorem uint_lt (h : uint k bs = some (n, rest)) : n < 256 ^ k := by
  induction k generalizing bs n
  case zero      => cases h; simp
  case succ k hi =>
    have ⟨b, mid, _, h⟩ := bind_eq_some.mp h
    have ⟨m, _, hm, h⟩ := bind_eq_some.mp h
    cases pure_eq_some.mp h
    have hm := hi hm
    have hb := b.toNat_lt
    rw [Nat.pow_succ']
    omega

theorem uint_of_length (h : k ≤ bs.length) : ∃ n rest, uint k bs = some (n, rest) := by
  induction k generalizing bs
  case zero      => exact ⟨0, bs, rfl⟩
  case succ k hi =>
    cases bs
    case nil       => simp at h
    case cons b bs =>
      have ⟨n, rest, hn⟩ := hi (Nat.le_of_succ_le_succ h)
      refine ⟨b.toNat + 256 * n, rest, ?_⟩
      rw [uint, bind_of_some (byte_cons b bs), bind_of_some hn, pure_apply]

end Decoder

open Decoder

theorem littleEndian_succ (k n : Nat) :
    littleEndian (k + 1) n = UInt8.ofNat n :: littleEndian k (n / 256) := by
  simp only [littleEndian, List.range_succ_eq_map, List.map_cons, List.map_map, Nat.pow_zero,
    Nat.div_one]
  congr 2
  funext i
  simp [Nat.pow_succ', Nat.div_div_eq_div_mul]

@[simp]
theorem length_littleEndian : (littleEndian k n).length = k := by
  simp [littleEndian]

-- What is read back is the part of the number that fits.
theorem uint_littleEndian (k n : Nat) (rest : List UInt8) :
    uint k (littleEndian k n ++ rest) = some (n % 256 ^ k, rest) := by
  induction k generalizing n
  case zero      => simp [uint, littleEndian, pure_apply, Nat.mod_one]
  case succ k hi =>
    rw [littleEndian_succ, uint, List.cons_append, bind_of_some (byte_cons _ _),
      bind_of_some (hi (n / 256)), pure_apply, Nat.pow_succ', Nat.mod_mul]
    simp

theorem littleEndian_inj (hm : m < 256 ^ k) (hn : n < 256 ^ k)
    (h : littleEndian k m = littleEndian k n) : m = n := by
  have hu := uint_littleEndian k m []
  rw [h, uint_littleEndian, Nat.mod_eq_of_lt hm, Nat.mod_eq_of_lt hn] at hu
  exact (Prod.mk.inj (Option.some.inj hu)).left.symm

theorem decode_compact (h : n < 2 ^ 32) (rest : List UInt8) :
    Decoder.compact (compact n ++ rest) = some (n, rest) := by
  have read (k m : Nat) (f : Nat → Decoder Nat) :
      (uint k >>= f) (littleEndian k m ++ rest) = f (m % 256 ^ k) rest :=
    bind_of_some (uint_littleEndian k m rest)
  simp only [compact]
  split
  case isTrue h₁ =>
    rw [littleEndian_succ, Decoder.compact, List.cons_append, bind_of_some (byte_cons _ _)]
    have hb : (UInt8.ofNat (4 * n)).toNat = 4 * n := by simp; omega
    simp only [hb, show 4 * n % 4 = 0 by omega]
    simp [littleEndian, pure_apply]
  case isFalse h₁ =>
    split
    case isTrue h₂ =>
      rw [littleEndian_succ, Decoder.compact, List.cons_append, bind_of_some (byte_cons _ _)]
      have hb : (UInt8.ofNat (4 * n + 1)).toNat = (4 * n + 1) % 256 := by simp
      have hx : ((4 * n + 1) % 256 + 256 * ((4 * n + 1) / 256 % 256 ^ 1)) / 4 = n := by omega
      simp only [hb, show (4 * n + 1) % 256 % 4 = 1 by omega, read, hx]
      rw [if_pos (by omega), pure_apply]
    case isFalse h₂ =>
      split
      case isTrue h₃ =>
        rw [littleEndian_succ, Decoder.compact, List.cons_append, bind_of_some (byte_cons _ _)]
        have hb : (UInt8.ofNat (4 * n + 2)).toNat = (4 * n + 2) % 256 := by simp
        have hx : ((4 * n + 2) % 256 + 256 * ((4 * n + 2) / 256 % 256 ^ 3)) / 4 = n := by omega
        simp only [hb, show (4 * n + 2) % 256 % 4 = 2 by omega, read, hx]
        rw [if_pos (by omega), pure_apply]
      case isFalse h₃ =>
        have hl : Nat.log 256 n = 3 := Nat.log_eq_of_pow_le_of_lt_pow (by omega) (by omega)
        rw [hl, littleEndian_succ, Decoder.compact, List.append_assoc, List.cons_append,
          bind_of_some (byte_cons _ _)]
        have hb : (UInt8.ofNat (4 * (3 + 1 - 4) + 3)).toNat = 3 := by decide
        have hx : n % 256 ^ 4 = n := by omega
        simp only [hb, show 3 % 4 = 3 by decide, show 3 / 4 = 0 by decide]
        simp only [littleEndian, List.range_zero, List.map_nil, List.nil_append, if_true]
        rw [← littleEndian, show 3 + 1 = 4 from rfl, read, hx, if_pos (by omega), pure_apply]

-- A length prefixed string followed by at most 64 bytes is read in one way only, whatever its length.

theorem compact_of_le (h : 2 ^ 30 ≤ n) : compact n =
    littleEndian 1 (4 * (Nat.log 256 n + 1 - 4) + 3) ++ littleEndian (Nat.log 256 n + 1) n := by
  simp only [compact]
  rw [if_neg (by omega), if_neg (by omega), if_neg (by omega)]

theorem length_compact_le (h : n < 2 ^ 30) : (compact n).length ≤ 4 := by
  simp only [compact]
  split
  case isTrue  => simp [length_littleEndian]
  case isFalse =>
    split
    case isTrue  => simp [length_littleEndian]
    case isFalse => simp [length_littleEndian]

-- The numbers of bytes of two long lengths agree modulo 64, and are too far apart if they differ.
theorem log_le_of_compact (hm : 2 ^ 30 ≤ m) (hn : 2 ^ 30 ≤ n) (h : compact m ++ x = compact n ++ y)
    (hx : x.length ≤ m + 64) (hy : n ≤ y.length) : Nat.log 256 n ≤ Nat.log 256 m := by
  by_contra hlt
  have hlm : 3 ≤ Nat.log 256 m := Nat.le_log_of_pow_le (by decide) (Nat.le_trans (by decide) hm)
  rw [compact_of_le hm, compact_of_le hn] at h
  have hl := congrArg List.length h
  simp only [List.length_append, length_littleEndian] at hl
  rw [littleEndian_succ, littleEndian_succ] at h
  have hb := congrArg UInt8.toNat (List.cons.inj h).left
  simp only [UInt8.toNat_ofNat'] at hb
  have hd : Nat.log 256 m + 64 ≤ Nat.log 256 n := by omega
  have hp : 256 ^ (Nat.log 256 m + 2) ≤ n :=
    Nat.le_trans (Nat.pow_le_pow_right (by decide) (by omega)) (Nat.pow_log_le_self 256 (by omega))
  have hs : m < 256 ^ (Nat.log 256 m + 1) := Nat.lt_pow_succ_log_self (by decide) m
  have hk : Nat.log 256 m + 1 < 256 ^ (Nat.log 256 m + 1) := Nat.lt_pow_self (by decide)
  rw [Nat.pow_succ _ (Nat.log 256 m + 1)] at hp
  omega

theorem encodeBytes_append_inj {a b x y : List UInt8} (h : encodeBytes a ++ x = encodeBytes b ++ y)
    (hx : x.length ≤ 64) (hy : y.length ≤ 64) : a = b ∧ x = y := by
  simp only [encodeBytes, List.append_assoc] at h
  suffices hl : a.length = b.length by
    rw [hl] at h
    exact List.append_inj (List.append_cancel_left h) hl
  have ht := congrArg List.length h
  simp only [List.length_append] at ht
  by_cases hs : a.length < 2 ^ 32 ∧ b.length < 2 ^ 32
  · have hd := decode_compact hs.left (a ++ x)
    rw [h, decode_compact hs.right] at hd
    exact (congrArg Prod.fst (Option.some.inj hd)).symm
  · have ha : 2 ^ 30 ≤ a.length := by
      by_contra hn
      have := length_compact_le (Nat.not_le.mp hn)
      omega
    have hb : 2 ^ 30 ≤ b.length := by
      by_contra hn
      have := length_compact_le (Nat.not_le.mp hn)
      omega
    have hle := log_le_of_compact ha hb h (by simp; omega) (by simp)
    have hge := log_le_of_compact hb ha h.symm (by simp; omega) (by simp)
    have hlog := Nat.le_antisymm hge hle
    rw [compact_of_le ha, compact_of_le hb, hlog, List.append_assoc, List.append_assoc] at h
    have hd := uint_littleEndian (Nat.log 256 b.length + 1) a.length (a ++ x)
    rw [List.append_cancel_left h, uint_littleEndian] at hd
    have he := (congrArg Prod.fst (Option.some.inj hd)).symm
    have hlt := Nat.lt_pow_succ_log_self (by decide : 1 < 256) a.length
    rw [hlog] at hlt
    rwa [Nat.mod_eq_of_lt hlt,
      Nat.mod_eq_of_lt (Nat.lt_pow_succ_log_self (by decide) b.length)] at he

theorem toList_loop (bs : ByteArray) (i : Nat) (r : List UInt8) :
    ByteArray.toList.loop bs i r = r.reverse ++ bs.data.toList.drop i := by
  fun_induction ByteArray.toList.loop bs i r
  case case1 i r h hi =>
    have hl : i < bs.data.toList.length := h
    rw [hi, List.reverse_cons, List.append_assoc, List.drop_eq_getElem_cons hl, List.singleton_append]
    congr 2
    exact getElem!_pos bs.data i h
  case case2 i r h =>
    have hl : bs.data.toList.length ≤ i := Nat.not_lt.mp h
    rw [List.drop_eq_nil_of_le hl, List.append_nil]

theorem encodeString_append_inj {p q : String} {x y : List UInt8}
    (h : encodeString p ++ x = encodeString q ++ y) (hx : x.length ≤ 64) (hy : y.length ≤ 64) :
    p = q ∧ x = y := by
  have ⟨hp, h⟩ := encodeBytes_append_inj h hx hy
  simp only [ByteArray.toList, toList_loop, List.reverse_nil, List.drop_zero, List.nil_append] at hp
  exact ⟨String.toByteArray_inj.mp (ByteArray.ext (Array.toList_inj.mp hp)), h⟩

namespace Codec

-- What a storage read makes of the bytes of a value. Bytes that are left over do not matter.
def read (c : Codec α) (raw : List UInt8) : Option α :=
  (c.decode raw).map Prod.fst

theorem read_encode {c : Codec α} (h : c.Valid a) : c.read (c.encode a) = some a := by
  have hd := c.decode_encode h []
  rw [List.append_nil] at hd
  rw [read, hd, Option.map_some]

theorem read_eq_some {c : Codec α} : c.read raw = some a ↔ ∃ rest, c.decode raw = some (a, rest) := by
  simp [read]

def byte : Codec UInt8 where
  encode b := [b]
  decode   := Decoder.byte
  Valid _  := True
  decode_encode _ _ := rfl

def uint (k : Nat) : Codec Nat where
  encode   := littleEndian k
  decode   := Decoder.uint k
  Valid n  := n < 256 ^ k
  decode_encode h rest := by rw [uint_littleEndian, Nat.mod_eq_of_lt h]

def pair (c : Codec α) (d : Codec β) : Codec (α × β) where
  encode p := c.encode p.1 ++ d.encode p.2
  decode   := do
    let a ← c.decode
    let b ← d.decode
    return (a, b)
  Valid p  := c.Valid p.1 ∧ d.Valid p.2
  decode_encode h rest := by
    rw [List.append_assoc, bind_of_some (c.decode_encode h.left _),
      bind_of_some (d.decode_encode h.right _), pure_apply]

-- The second of a pair may be read from anything.
theorem decode_pair {c : Codec α} {d : Codec β} (ha : c.Valid a) (hb : d.decode bs = some (b, rest)) :
    (c.pair d).decode (c.encode a ++ bs) = some ((a, b), rest) :=
  bind_eq_some.mpr ⟨a, bs, c.decode_encode ha bs, bind_eq_some.mpr ⟨b, rest, hb, rfl⟩⟩

-- The fields of a record, as the record.
def iso (c : Codec α) (f : α → β) (g : β → α) (h : ∀ b, f (g b) = b) : Codec β where
  encode b := c.encode (g b)
  decode   := do return f (← c.decode)
  Valid b  := c.Valid (g b)
  decode_encode hb rest := by rw [bind_of_some (c.decode_encode hb rest), pure_apply, h]

-- An enumeration without fields: one byte, the position of the variant.
def enum [DecidableEq α] (variants : List α) (hl : variants.length ≤ 256) : Codec α where
  encode a := [UInt8.ofNat (variants.idxOf a)]
  decode   := do
    let b ← Decoder.byte
    match variants[b.toNat]? with
    | some a => return a
    | none   => fail
  Valid a  := a ∈ variants
  decode_encode {a} h rest := by
    have hi := List.idxOf_lt_length_iff.mpr h
    have hb : (UInt8.ofNat (variants.idxOf a)).toNat = variants.idxOf a := by simp; omega
    rw [List.singleton_append, bind_of_some (byte_cons _ _), hb, List.getElem?_idxOf h]
    rfl

def option (c : Codec α) : Codec (Option α) where
  encode
    | none   => [0]
    | some a => 1 :: c.encode a
  decode   := do
    let b ← Decoder.byte
    match b with
    | 0 => return none
    | 1 => return some (← c.decode)
    | _ => fail
  Valid o  := ∀ a ∈ o, c.Valid a
  decode_encode {o} h rest := by
    cases o
    case none   => rfl
    case some a =>
      rw [List.cons_append, bind_of_some (byte_cons _ _)]
      exact bind_of_some (c.decode_encode (h a rfl) rest)

def vector (c : Codec α) (k : Nat) : Codec (List.Vector α k) where
  encode v := v.toList.flatMap c.encode
  decode   := Decoder.many c.decode k
  Valid v  := ∀ a ∈ v.toList, c.Valid a
  decode_encode {v} h rest := by
    induction v using List.Vector.inductionOn
    case nil             => rfl
    case cons k a v hi =>
      rw [List.Vector.toList_cons] at h ⊢
      have ha := c.decode_encode (h a List.mem_cons_self) (v.toList.flatMap c.encode ++ rest)
      have hi := hi fun a ha => h a (List.mem_cons_of_mem _ ha)
      rw [List.flatMap_cons, List.append_assoc, many, bind_of_some ha, bind_of_some hi, pure_apply]

-- The length, and then the elements, unless there are too many.
def boundedVec (c : Codec α) (bound : Nat) (hb : bound < 2 ^ 32) : Codec (BoundedVec α bound) where
  encode v := Scale.compact v.val.length ++ v.val.flatMap c.encode
  decode   := do
    let k ← Decoder.compact
    if h : k ≤ bound then
      let as ← many c.decode k
      return ⟨as.toList, as.toList_length.trans_le h⟩
    else
      fail
  Valid v  := ∀ a ∈ v.val, c.Valid a
  decode_encode {v} h rest := by
    have hl := decode_compact (v.bounded.trans_lt hb) (v.val.flatMap c.encode ++ rest)
    have hv : many c.decode v.val.length (v.val.flatMap c.encode ++ rest) = some (⟨v.val, rfl⟩, rest) :=
      (vector c v.val.length).decode_encode (a := ⟨v.val, rfl⟩) h rest
    rw [List.append_assoc, bind_of_some hl, dif_pos v.bounded, bind_of_some hv, pure_apply]
    rfl

variable {c : Codec α} {d : Codec β}

namespace Sized

theorem byte : Codec.byte.Sized 1 :=
  ⟨fun _ => rfl, length_of_byte⟩

theorem uint (k : Nat) : (Codec.uint k).Sized k :=
  ⟨fun _ => length_littleEndian, length_of_uint⟩

theorem pair (hc : c.Sized m) (hd : d.Sized n) : (c.pair d).Sized (m + n) where
  length_encode p := by simp [Codec.pair, hc.length_encode, hd.length_encode]
  length_decode h := by
    have ⟨a, mid, ha, h⟩ := bind_eq_some.mp h
    have ⟨b, rest, hb, h⟩ := bind_eq_some.mp h
    cases pure_eq_some.mp h
    have ha := hc.length_decode ha
    have hb := hd.length_decode hb
    omega

theorem iso (hc : c.Sized n) (h : ∀ b : β, f (g b) = b) : (c.iso f g h).Sized n where
  length_encode b := hc.length_encode (g b)
  length_decode h := by
    have ⟨a, mid, ha, h⟩ := bind_eq_some.mp h
    cases pure_eq_some.mp h
    exact hc.length_decode ha

theorem enum [DecidableEq α] {variants : List α} (hl : variants.length ≤ 256) :
    (Codec.enum variants hl).Sized 1 where
  length_encode _ := rfl
  length_decode h := by
    have ⟨b, mid, hb, h⟩ := bind_eq_some.mp h
    cases ha : variants[b.toNat]? <;> rw [ha] at h
    case none   => cases h
    case some a =>
      cases pure_eq_some.mp h
      exact length_of_byte hb

theorem vector (hc : c.Sized n) (k : Nat) : (c.vector k).Sized (k * n) where
  length_encode v := by simp [Codec.vector, hc.length_encode]
  length_decode {bs v rest} h := by
    induction k generalizing bs
    case zero      => cases h; simp
    case succ k hi =>
      have ⟨a, mid, ha, h⟩ := bind_eq_some.mp h
      have ⟨as, rest, has, h⟩ := bind_eq_some.mp h
      cases pure_eq_some.mp h
      have ha := hc.length_decode ha
      have hi := hi has
      rw [Nat.succ_mul]
      omega

end Sized

namespace Total

theorem byte : Codec.byte.Total 1 := by
  intro bs h
  cases bs
  case nil       => simp at h
  case cons b bs => exact ⟨b, bs, rfl⟩

theorem uint (k : Nat) : (Codec.uint k).Total k :=
  fun _ => uint_of_length

theorem pair (hs : c.Sized m) (hc : c.Total m) (hd : d.Total n) : (c.pair d).Total (m + n) := by
  intro bs h
  have ⟨a, mid, ha⟩ := hc bs (by omega)
  have hl := hs.length_decode ha
  have ⟨b, rest, hb⟩ := hd mid (by omega)
  exact ⟨(a, b), rest, bind_eq_some.mpr ⟨a, mid, ha, bind_eq_some.mpr ⟨b, rest, hb, rfl⟩⟩⟩

theorem iso (hc : c.Total n) (h : ∀ b : β, f (g b) = b) : (c.iso f g h).Total n := by
  intro bs hn
  have ⟨a, rest, ha⟩ := hc bs hn
  exact ⟨f a, rest, bind_eq_some.mpr ⟨a, rest, ha, rfl⟩⟩

theorem vector (hs : c.Sized n) (hc : c.Total n) (k : Nat) : (c.vector k).Total (k * n) := by
  induction k
  case zero      => exact fun bs _ => ⟨.nil, bs, rfl⟩
  case succ k hi =>
    intro bs h
    rw [Nat.succ_mul] at h
    have ⟨a, mid, ha⟩ := hc bs (by omega)
    have hl := hs.length_decode ha
    have ⟨v, rest, hv⟩ := hi mid (by omega)
    exact ⟨a ::ᵥ v, rest, bind_eq_some.mpr ⟨a, mid, ha, bind_eq_some.mpr ⟨v, rest, hv, rfl⟩⟩⟩

end Total

namespace Sound

theorem of_valid (h : ∀ a, c.Valid a) : c.Sound :=
  fun _ a _ _ => h a

theorem uint (k : Nat) : (Codec.uint k).Sound :=
  fun _ _ _ => uint_lt

theorem pair (hc : c.Sound) (hd : d.Sound) : (c.pair d).Sound := by
  intro bs p rest h
  have ⟨a, mid, ha, h⟩ := bind_eq_some.mp h
  have ⟨b, _, hb, h⟩ := bind_eq_some.mp h
  cases pure_eq_some.mp h
  exact ⟨hc _ _ _ ha, hd _ _ _ hb⟩

theorem iso (hc : c.Sound) (h : ∀ b : β, f (g b) = b) (hg : ∀ a, g (f a) = a) :
    (c.iso f g h).Sound := by
  intro bs b rest h
  have ⟨a, _, ha, h⟩ := bind_eq_some.mp h
  cases pure_eq_some.mp h
  exact show c.Valid (g (f a)) from (hg a).symm ▸ hc _ _ _ ha

theorem vector (hc : c.Sound) (k : Nat) : (c.vector k).Sound := by
  intro bs v rest h
  induction k generalizing bs
  case zero      => cases h; nofun
  case succ k hi =>
    have ⟨a, mid, ha, h⟩ := bind_eq_some.mp h
    have ⟨v, _, hv, h⟩ := bind_eq_some.mp h
    cases pure_eq_some.mp h
    intro b hb
    rw [List.Vector.toList_cons] at hb
    cases hb
    case head    => exact hc _ _ _ ha
    case tail hb => exact hi _ _ hv b hb

theorem boundedVec (hc : c.Sound) (hb : bound < 2 ^ 32) : (c.boundedVec bound hb).Sound := by
  intro bs w rest h
  obtain ⟨k, mid, _, h⟩ := bind_eq_some.mp h
  split at h
  case isTrue =>
    obtain ⟨v, _, hv, h⟩ := bind_eq_some.mp h
    cases pure_eq_some.mp h
    exact hc.vector k _ _ _ hv
  case isFalse => cases h

end Sound

namespace Exact

theorem byte : Codec.byte.Exact := by
  intro bs b rest h
  cases bs <;> cases h
  rfl

theorem uint (k : Nat) : (Codec.uint k).Exact := by
  intro bs n rest h
  change Decoder.uint k bs = _ at h
  induction k generalizing bs n
  case zero      => cases h; rfl
  case succ k hi =>
    obtain ⟨b, mid, hb, h⟩ := bind_eq_some.mp h
    obtain ⟨m, _, hm, h⟩ := bind_eq_some.mp h
    cases pure_eq_some.mp h
    have hl := b.toNat_lt
    have hb : bs = b :: mid := byte bs b mid hb
    have hd : (b.toNat + 256 * m) / 256 = m := by omega
    have ho : UInt8.ofNat (b.toNat + 256 * m) = b := by
      apply UInt8.toNat_inj.mp
      simp
    change _ = littleEndian (k + 1) _ ++ _
    rw [littleEndian_succ, hd, ho, hb, hi _ _ hm]
    rfl

theorem pair (hc : c.Exact) (hd : d.Exact) : (c.pair d).Exact := by
  intro bs p rest h
  obtain ⟨a, mid, ha, h⟩ := bind_eq_some.mp h
  obtain ⟨b, _, hb, h⟩ := bind_eq_some.mp h
  cases pure_eq_some.mp h
  rw [hc _ _ _ ha, hd _ _ _ hb]
  exact (List.append_assoc ..).symm

theorem iso (hc : c.Exact) (h : ∀ b : β, f (g b) = b) (hg : ∀ a, g (f a) = a) :
    (c.iso f g h).Exact := by
  intro bs b rest h
  obtain ⟨a, _, ha, h⟩ := bind_eq_some.mp h
  cases pure_eq_some.mp h
  change bs = c.encode (g (f a)) ++ _
  rw [hg, hc _ _ _ ha]

theorem vector (hc : c.Exact) (k : Nat) : (c.vector k).Exact := by
  intro bs v rest h
  induction k generalizing bs
  case zero      => cases h; rfl
  case succ k hi =>
    obtain ⟨a, mid, ha, h⟩ := bind_eq_some.mp h
    obtain ⟨v, _, hv, h⟩ := bind_eq_some.mp h
    cases pure_eq_some.mp h
    change bs = (a ::ᵥ v).toList.flatMap c.encode ++ _
    rw [List.Vector.toList_cons, List.flatMap_cons, List.append_assoc, hc _ _ _ ha, hi _ _ hv]
    rfl

end Exact

theorem read_valid (hc : c.Sound) (h : c.read raw = some a) : c.Valid a :=
  have ⟨_, h⟩ := read_eq_some.mp h
  hc _ _ _ h

theorem encode_inj (ha : c.Valid a) (hb : c.Valid b) : c.encode a = c.encode b ↔ a = b := by
  refine ⟨fun h => ?_, congrArg _⟩
  have hr := read_encode ha
  rw [h, read_encode hb] at hr
  exact (Option.some.inj hr).symm

theorem isArray_vector (k : Nat) : (byte.vector k).IsArray k where
  sized     := by simpa using Sized.byte.vector k
  total     := by simpa using Total.vector Sized.byte Total.byte k
  valid _ _ := fun _ => trivial

-- A vector read in another layout has the same length, and so is as many elements of another size.

variable {bound : Nat} {hb : bound < 2 ^ 32} {v : BoundedVec α bound} {w : BoundedVec β bound}

theorem reread_eq_some :
    (d.boundedVec bound hb).read ((c.boundedVec bound hb).encode v) = some w ↔
      ∃ as : List.Vector β v.val.length, (d.vector v.val.length).read (v.val.flatMap c.encode) = some as ∧
        as.toList = w.val := by
  have hl := decode_compact (v.bounded.trans_lt hb) (v.val.flatMap c.encode)
  simp only [read_eq_some, boundedVec, bind_of_some hl, dif_pos v.bounded, bind_eq_some, pure_eq_some]
  constructor
  case mp =>
    rintro ⟨rest, as, _, h, he⟩
    cases he
    exact ⟨as, ⟨rest, h⟩, rfl⟩
  case mpr =>
    rintro ⟨as, ⟨rest, h⟩, he⟩
    exact ⟨rest, as, rest, h, by simp [he]⟩

-- Larger elements need more bytes than there are.
theorem reread_eq_none (hc : c.Sized m) (hd : d.Sized n) (h : m < n) (hv : v.val ≠ []) :
    (d.boundedVec bound hb).read ((c.boundedVec bound hb).encode v) = none := by
  rw [Option.eq_none_iff_forall_ne_some]
  intro w hw
  have ⟨as, has, _⟩ := reread_eq_some.mp hw
  have ⟨rest, has⟩ := read_eq_some.mp has
  have hl := (hd.vector _).length_decode has
  have he : (v.val.flatMap c.encode).length = v.val.length * m :=
    (hc.vector _).length_encode ⟨v.val, rfl⟩
  have := Nat.mul_lt_mul_of_pos_left h (List.length_pos_iff.mpr hv)
  omega

-- Elements that are no larger, and of which no bytes are refused, can always be read.
theorem reread_isSome (hc : c.Sized m) (hd : d.Sized n) (ht : d.Total n) (h : n ≤ m) :
    ∃ w, (d.boundedVec bound hb).read ((c.boundedVec bound hb).encode v) = some w := by
  have he : (v.val.flatMap c.encode).length = v.val.length * m :=
    (hc.vector _).length_encode ⟨v.val, rfl⟩
  have hn := Nat.mul_le_mul_left v.val.length h
  have ⟨as, rest, has⟩ := Total.vector hd ht v.val.length (v.val.flatMap c.encode) (by omega)
  exact ⟨⟨as.toList, as.toList_length.trans_le v.bounded⟩,
    reread_eq_some.mpr ⟨as, read_eq_some.mpr ⟨rest, has⟩, rfl⟩⟩

theorem reread_length
    (h : (d.boundedVec bound hb).read ((c.boundedVec bound hb).encode v) = some w) :
    w.val.length = v.val.length := by
  have ⟨as, _, h⟩ := reread_eq_some.mp h
  rw [← h, as.toList_length]

-- What is read are the elements whose bytes come first.
theorem reread_iff (hd : d.Exact) (hw : (d.boundedVec bound hb).Valid w) :
    (d.boundedVec bound hb).read ((c.boundedVec bound hb).encode v) = some w ↔
      w.val.length = v.val.length ∧ w.val.flatMap d.encode <+: v.val.flatMap c.encode := by
  constructor
  case mp =>
    intro h
    refine ⟨reread_length h, ?_⟩
    obtain ⟨as, has, ha⟩ := reread_eq_some.mp h
    obtain ⟨rest, has⟩ := read_eq_some.mp has
    rw [← ha]
    exact ⟨rest, (hd.vector _ _ _ _ has).symm⟩
  case mpr =>
    rintro ⟨hl, rest, hr⟩
    refine reread_eq_some.mpr ⟨⟨w.val, hl⟩, read_eq_some.mpr ⟨rest, ?_⟩, rfl⟩
    rw [← hr]
    exact (d.vector v.val.length).decode_encode (a := ⟨w.val, hl⟩) hw rest

end Codec
end Scale
