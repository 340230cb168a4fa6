import BulletinChain.Lib.Protobuf

-- The bytes of a CID of version 1: the codec, and the code, the length and the bytes of a digest.
namespace Cid

open Protobuf

def v1 (codec code : Nat) (digest : List UInt8) : List UInt8 :=
  varint 1 ++ (varint codec ++ (varint code ++ (varint digest.length ++ digest)))

theorem v1_inj (h : v1 codec code digest = v1 codec' code' digest') :
    codec = codec' ∧ code = code' ∧ digest = digest' := by
  have ⟨_, h⟩ := varint_append_inj h
  have ⟨hc, h⟩ := varint_append_inj h
  have ⟨hm, h⟩ := varint_append_inj h
  exact ⟨hc, hm, (varint_append_inj h).right⟩

theorem length_v1 : (v1 codec code digest).length =
    1 + ((varint codec).length + ((varint code).length + ((varint digest.length).length + digest.length))) := by
  rw [v1, List.length_append, List.length_append, List.length_append, List.length_append,
    varint_of_lt (n := 1) (by decide), List.length_singleton]

open Scale Decoder in
def decodeV1 : Decoder (Nat × Nat × List UInt8) := do
  let version ← Decode.varint
  if version = 1 then
    let codec ← Decode.varint
    let code ← Decode.varint
    let length ← Decode.varint
    let digest ← Decode.bytes length
    return (codec, code, digest)
  else
    fail

open Scale Decoder in
theorem decodeV1_v1 (hc : codec < 2 ^ 64) (hm : code < 2 ^ 64) (hd : digest.length < 2 ^ 64)
    (rest : List UInt8) : decodeV1 (v1 codec code digest ++ rest) = some ((codec, code, digest), rest) := by
  simp only [v1, List.append_assoc]
  rw [decodeV1, bind_of_some (varint_varint (by decide) _), if_pos rfl,
    bind_of_some (varint_varint hc _), bind_of_some (varint_varint hm _),
    bind_of_some (varint_varint hd _), bind_of_some (bytes_append digest rest), pure_apply]

end Cid

-- The messages of DAG-PB and of UnixFS. A parser keeps the last value of a field, and all values of a
-- repeated one in their order. It skips the fields that it does not know.
namespace DagPb

open Protobuf

structure PBLink where
  hash  : Option (List UInt8)
  name  : Option (List UInt8)
  tsize : Option Nat

structure PBNode where
  links : List PBLink
  data  : Option (List UInt8)

inductive DataType
  | raw
  | directory
  | file
  | metadata
  | symlink
  | hamtShard

def DataType.number : DataType → Nat
  | raw       => 0
  | directory => 1
  | file      => 2
  | metadata  => 3
  | symlink   => 4
  | hamtShard => 5

def DataType.ofNumber : Nat → Option DataType
  | 0 => some raw
  | 1 => some directory
  | 2 => some file
  | 3 => some metadata
  | 4 => some symlink
  | 5 => some hamtShard
  | _ => none

-- The message `Data` of UnixFS.
structure UnixFs where
  type       : DataType
  data       : Option (List UInt8)
  filesize   : Option Nat
  blocksizes : List Nat
  hashType   : Option Nat
  fanout     : Option Nat

namespace PBLink

def read (l : PBLink) : Field → Option PBLink
  | ⟨1, .bytes bs⟩ => some { l with hash := some bs }
  | ⟨2, .bytes bs⟩ => some { l with name := some bs }
  | ⟨3, .varint n⟩ => some { l with tsize := some n }
  | f              => if f.number ≤ 3 then none else some l

def decode : List UInt8 → Option PBLink :=
  Decode.message read ⟨none, none, none⟩

def fields (l : PBLink) : List Field :=
  l.hash.toList.map (⟨1, .bytes ·⟩) ++ l.name.toList.map (⟨2, .bytes ·⟩) ++
    l.tsize.toList.map (⟨3, .varint ·⟩)

def encode (l : PBLink) : List UInt8 :=
  l.fields.flatMap Field.encode

structure Valid (l : PBLink) : Prop where
  hash  : ∀ bs ∈ l.hash, bs.length < 2 ^ 64
  name  : ∀ bs ∈ l.name, bs.length < 2 ^ 64
  tsize : ∀ n ∈ l.tsize, n < 2 ^ 64

theorem Valid.fields {l : PBLink} (h : l.Valid) : ∀ f ∈ l.fields, f.Valid := by
  obtain ⟨hash, name, tsize⟩ := l
  intro f hf
  simp only [PBLink.fields, List.mem_append, List.mem_map, Option.mem_toList] at hf
  obtain (⟨bs, hb, hf⟩ | ⟨bs, hb, hf⟩) | ⟨n, hn, hf⟩ := hf <;> subst hf
  · exact .bytes (by decide) (by decide) (h.hash bs hb)
  · exact .bytes (by decide) (by decide) (h.name bs hb)
  · exact .varint (by decide) (by decide) (h.tsize n hn)

theorem decode_encode {l : PBLink} (h : l.Valid) : decode l.encode = some l := by
  rw [decode, encode, message_encode h.fields]
  obtain ⟨_ | _, _ | _, _ | _⟩ := l <;> rfl

end PBLink

namespace PBNode

def read (n : PBNode) : Field → Option PBNode
  | ⟨1, .bytes bs⟩ => some { n with data := some bs }
  | ⟨2, .bytes bs⟩ => (PBLink.decode bs).map fun l => { n with links := n.links ++ [l] }
  | f              => if f.number ≤ 2 then none else some n

def decode : List UInt8 → Option PBNode :=
  Decode.message read ⟨[], none⟩

-- The canonical order has the links before the data.
def fields (n : PBNode) : List Field :=
  n.links.map (fun l => ⟨2, .bytes l.encode⟩) ++ n.data.toList.map (⟨1, .bytes ·⟩)

def encode (n : PBNode) : List UInt8 :=
  n.fields.flatMap Field.encode

structure Valid (n : PBNode) : Prop where
  links  : ∀ l ∈ n.links, l.Valid
  length : ∀ l ∈ n.links, l.encode.length < 2 ^ 64
  data   : ∀ bs ∈ n.data, bs.length < 2 ^ 64

theorem Valid.fields {n : PBNode} (h : n.Valid) : ∀ f ∈ n.fields, f.Valid := by
  intro f hf
  simp only [PBNode.fields, List.mem_append, List.mem_map, Option.mem_toList] at hf
  obtain ⟨l, hl, hf⟩ | ⟨bs, hb, hf⟩ := hf <;> subst hf
  · exact .bytes (by decide) (by decide) (h.length l hl)
  · exact .bytes (by decide) (by decide) (h.data bs hb)

theorem foldlM_read_links {ls : List PBLink} (h : ∀ l ∈ ls, l.Valid) (n : PBNode) :
    (ls.map fun l => (⟨2, .bytes l.encode⟩ : Field)).foldlM read n =
      some { n with links := n.links ++ ls } := by
  induction ls generalizing n
  case nil          => simp
  case cons l ls hi =>
    have ⟨hl, hs⟩ := List.forall_mem_cons.mp h
    rw [List.map_cons, List.foldlM_cons, read, PBLink.decode_encode hl, Option.map_some]
    simp [hi hs]

theorem decode_encode {n : PBNode} (h : n.Valid) : decode n.encode = some n := by
  rw [decode, encode, message_encode h.fields, fields, List.foldlM_append,
    foldlM_read_links h.links]
  obtain ⟨links, _ | _⟩ := n <;> rfl

end PBNode

namespace UnixFs

-- The fields that were read so far, of which the type is required.
structure Partial where
  type       : Option DataType
  data       : Option (List UInt8)
  filesize   : Option Nat
  blocksizes : List Nat
  hashType   : Option Nat
  fanout     : Option Nat

def read (p : Partial) : Field → Option Partial
  | ⟨1, .varint n⟩ => (DataType.ofNumber n).map fun t => { p with type := some t }
  | ⟨2, .bytes bs⟩ => some { p with data := some bs }
  | ⟨3, .varint n⟩ => some { p with filesize := some n }
  | ⟨4, .varint n⟩ => some { p with blocksizes := p.blocksizes ++ [n] }
  | ⟨5, .varint n⟩ => some { p with hashType := some n }
  | ⟨6, .varint n⟩ => some { p with fanout := some n }
  | f              => if f.number ≤ 6 then none else some p

def Partial.complete (p : Partial) : Option UnixFs :=
  p.type.map fun type => { p with type }

def decode (bs : List UInt8) : Option UnixFs := do
  let p ← Decode.message read ⟨none, none, none, [], none, none⟩ bs
  p.complete

def fields (u : UnixFs) : List Field :=
  ⟨1, .varint u.type.number⟩ :: (u.data.toList.map (⟨2, .bytes ·⟩) ++
    u.filesize.toList.map (⟨3, .varint ·⟩) ++ u.blocksizes.map (⟨4, .varint ·⟩) ++
    u.hashType.toList.map (⟨5, .varint ·⟩) ++ u.fanout.toList.map (⟨6, .varint ·⟩))

def encode (u : UnixFs) : List UInt8 :=
  u.fields.flatMap Field.encode

structure Valid (u : UnixFs) : Prop where
  data       : ∀ bs ∈ u.data, bs.length < 2 ^ 64
  filesize   : ∀ n ∈ u.filesize, n < 2 ^ 64
  blocksizes : ∀ n ∈ u.blocksizes, n < 2 ^ 64
  hashType   : ∀ n ∈ u.hashType, n < 2 ^ 64
  fanout     : ∀ n ∈ u.fanout, n < 2 ^ 64

theorem Valid.fields {u : UnixFs} (h : u.Valid) : ∀ f ∈ u.fields, f.Valid := by
  intro f hf
  simp only [UnixFs.fields, List.mem_cons, List.mem_append, List.mem_map, Option.mem_toList] at hf
  obtain hf | ((((⟨x, hx, hf⟩ | ⟨x, hx, hf⟩) | ⟨x, hx, hf⟩) | ⟨x, hx, hf⟩) | ⟨x, hx, hf⟩) := hf <;>
    subst hf
  · exact .varint (by decide) (by decide) (by cases u.type <;> decide)
  · exact .bytes (by decide) (by decide) (h.data x hx)
  · exact .varint (by decide) (by decide) (h.filesize x hx)
  · exact .varint (by decide) (by decide) (h.blocksizes x hx)
  · exact .varint (by decide) (by decide) (h.hashType x hx)
  · exact .varint (by decide) (by decide) (h.fanout x hx)

theorem foldlM_read_blocksizes (ns : List Nat) (p : Partial) :
    (ns.map fun n => (⟨4, .varint n⟩ : Field)).foldlM read p =
      some { p with blocksizes := p.blocksizes ++ ns } := by
  induction ns generalizing p
  case nil          => simp
  case cons n ns hi =>
    rw [List.map_cons, List.foldlM_cons, read]
    simp [hi]

theorem decode_encode {u : UnixFs} (h : u.Valid) : decode u.encode = some u := by
  rw [decode, encode, message_encode h.fields]
  obtain ⟨type, data, filesize, blocksizes, hashType, fanout⟩ := u
  have ht : DataType.ofNumber type.number = some type := by cases type <;> rfl
  simp only [fields, List.foldlM_cons, List.foldlM_append, read, ht]
  cases data <;> cases filesize <;>
    simp only [Option.toList_none, Option.toList_some, List.map_nil, List.map_cons, List.foldlM_nil,
      List.foldlM_cons, read, Option.map_some, Option.bind_eq_bind, Option.bind_some, Option.pure_def,
      foldlM_read_blocksizes] <;>
    cases hashType <;> cases fanout <;> rfl

end UnixFs
end DagPb
