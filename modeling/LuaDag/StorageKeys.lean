import LuaDag.Radix

/-! Keys of the database rows (`storage::keys`). All integers are big-endian, so that the byte
order of the keys is the order of what they encode and the rows of a prefix lie together. -/
namespace LuaDag

abbrev Octet := Fin 256
abbrev U32 := Fin (2 ^ 32)
abbrev U64 := Fin (2 ^ 64)

instance octet_neZero : NeZero 256 := ⟨by decide⟩

structure Bytes32 where
  bytes : List Octet
  length_eq : bytes.length = 32

theorem Bytes32.bytes_injective : Function.Injective Bytes32.bytes := by
  intro a b h
  cases a
  cases b
  cases h
  rfl

instance : LinearOrder Bytes32 := LinearOrder.lift' Bytes32.bytes Bytes32.bytes_injective

namespace Keys

abbrev Key := List Octet

/- `to_be_bytes`. -/
def u64ToBeBytes (n : U64) : Key := Radix.bigEndian 256 8 n
def u32ToBeBytes (n : U32) : Key := Radix.bigEndian 256 4 n

def vertex (round : U64) (author : Bytes32) : Key := u64ToBeBytes round ++ author.bytes

def slot (slot : U64) : Key := u64ToBeBytes slot
def height (h : U64) : Key := u64ToBeBytes h
def epoch (e : U64) : Key := u64ToBeBytes e
def hash (h : Bytes32) : Key := h.bytes
def blobId (id : Bytes32) : Key := id.bytes

def blobChunk (blobId : Bytes32) (index : U32) : Key := blobId.bytes ++ u32ToBeBytes index

def votebook (validator : Bytes32) (targetEpoch : U64) : Key :=
  validator.bytes ++ u64ToBeBytes targetEpoch

theorem u64_ordered : Radix.Ordered 8 u64ToBeBytes :=
  ⟨fun _ => Radix.length_bigEndian _ _, fun m n => Radix.bigEndian_lt_iff m.isLt n.isLt⟩

theorem u32_ordered : Radix.Ordered 4 u32ToBeBytes :=
  ⟨fun _ => Radix.length_bigEndian _ _, fun m n => Radix.bigEndian_lt_iff m.isLt n.isLt⟩

theorem bytes_ordered : Radix.Ordered 32 Bytes32.bytes :=
  ⟨Bytes32.length_eq, fun _ _ => Iff.rfl⟩

/-- Every key encoder has its width, tells its arguments apart and orders the keys as numbers
and tuples are ordered. A scan for a round gives the vertices of that round by author, a scan
for a blob its chunks by index. -/
theorem storage_key_order :
    (Radix.Ordered 40 (fun p : U64 ×ₗ Bytes32 => vertex (ofLex p).1 (ofLex p).2) ∧
      Radix.Ordered 8 slot ∧ Radix.Ordered 8 height ∧ Radix.Ordered 8 epoch ∧
      Radix.Ordered 36 (fun p : Bytes32 ×ₗ U32 => blobChunk (ofLex p).1 (ofLex p).2) ∧
      Radix.Ordered 40 (fun p : Bytes32 ×ₗ U64 => votebook (ofLex p).1 (ofLex p).2)) ∧
    (Function.Injective2 vertex ∧ Function.Injective slot ∧ Function.Injective height ∧
      Function.Injective epoch ∧ Function.Injective2 blobChunk ∧ Function.Injective2 votebook) ∧
    (∀ (round : U64) (rows : Finset (U64 ×ₗ Bytes32)),
      Radix.scan (u64ToBeBytes round) (rows.image fun p => vertex (ofLex p).1 (ofLex p).2) =
        (rows.filter fun p => (ofLex p).1 = round).sort.map
          fun p => vertex (ofLex p).1 (ofLex p).2) ∧
    ∀ (id : Bytes32) (rows : Finset (Bytes32 ×ₗ U32)),
      Radix.scan id.bytes (rows.image fun p => blobChunk (ofLex p).1 (ofLex p).2) =
        (rows.filter fun p => (ofLex p).1 = id).sort.map
          fun p => blobChunk (ofLex p).1 (ofLex p).2 := by
  refine ⟨⟨u64_ordered.pair bytes_ordered, u64_ordered, u64_ordered, u64_ordered,
    bytes_ordered.pair u32_ordered, bytes_ordered.pair u64_ordered⟩,
    ⟨u64_ordered.injective2 bytes_ordered, u64_ordered.injective, u64_ordered.injective,
      u64_ordered.injective, bytes_ordered.injective2 u32_ordered,
      bytes_ordered.injective2 u64_ordered⟩, ?_, ?_⟩
  · intro round rows
    exact u64_ordered.scan_pair bytes_ordered round rows
  · intro id rows
    exact bytes_ordered.scan_pair u32_ordered id rows

/-- Across a byte boundary. -/
example : slot 1 < slot 2 ∧ slot 2 < slot 256 := by decide

end Keys
end LuaDag
