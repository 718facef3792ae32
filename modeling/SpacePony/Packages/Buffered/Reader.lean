import SpacePony.Support.Endian
import SpacePony.Support.Pieces
import SpacePony.Support.Raise

/-!
# Packages — buffered — Reader

`reader.pony`: bytes that arrive in chunks, and the methods that take integers, blocks and lines
from the front of them.
-/

namespace SpacePony.Buffered

open Endian Pieces

abbrev Bytes := List Byte

/-- The target that the program is compiled for: the width of a `USize`. -/
class Target where
  w : Nat
  word : w = 32 ∨ w = 64

/-- A target of 64 bits. -/
abbrev lp64 : Target := ⟨64, .inr rfl⟩

variable [Target]

/-- The number of values of a `USize`. -/
abbrev usize : Nat := 2 ^ Target.w

/-- `class Reader`. -/
structure Reader where
  chunks : List (Piece Byte) := []
  available : Nat := 0
deriving DecidableEq

/-- A method of the reader that may raise an error. -/
abbrev Rd := ExceptT Unit (StateM Reader)

namespace Reader

/-- `Reader.size`. -/
def size (r : Reader) : Nat := r.available

/-- `Reader.clear`. -/
def clear : Rd Unit := set ({ } : Reader)

/-- `Reader.append`. -/
def append (data : Bytes) : Rd Unit := modify fun r =>
  { chunks := r.chunks ++ [(data, 0)], available := (r.available + data.length) % usize }

/-- The list of chunks after a head is changed or shifted out. -/
def setChunks (cs : List (Piece Byte)) : Rd Unit := modify fun r => { r with chunks := cs }

/-- The loop of `skip` over the chunks, with `rem` bytes to go. -/
def skipLoop : List (Piece Byte) → Nat → Rd Unit
  | [], rem => if rem > 0 then throw () else pure ()
  | (data, offset) :: cs, rem =>
    if rem > 0 then do
      let avail := data.length - offset
      if avail > rem then
        setChunks ((data, offset + rem) :: cs)
      else
        setChunks cs
        skipLoop cs (rem - avail)
    else pure ()

/-- `Reader.skip`. -/
def skip (n : Nat) : Rd Unit := do
  let r ← get
  if r.available ≥ n then
    set { r with available := r.available - n }
    skipLoop r.chunks n
  else throw ()

/-- `Array.copy_to`, the destination after it. -/
def copyTo (data dst : Bytes) (srcIdx dstIdx len : Nat) : Bytes :=
  if srcIdx < data.length ∧ dstIdx ≤ dst.length then
    let count := min len (data.length - srcIdx)
    dst.take dstIdx ++ ((data.drop srcIdx).take count ++ dst.drop (dstIdx + count))
  else dst

/-- `String.append` of a part of an array. -/
def appendTo (data dst : Bytes) (offset len : Nat) : Bytes :=
  dst ++ (data.drop offset).take len

/-- The loop over the chunks that `block` and `line` have: `len - i` bytes are to go, and `put` adds
a part of a chunk to the output. -/
def takeLoop (put : (data out : Bytes) → (offset i copyLen : Nat) → Bytes) (len : Nat) :
    List (Piece Byte) → Nat → Bytes → Rd Bytes
  | [], i, out => if i < len then throw () else pure out
  | (data, offset) :: cs, i, out =>
    if i < len then do
      let avail := data.length - offset
      let need := len - i
      let copyLen := min need avail
      let out := put data out offset i copyLen
      if avail > need then
        setChunks ((data, offset + need) :: cs)
        pure out
      else
        setChunks cs
        takeLoop put len cs (i + copyLen) out
    else pure out

/-- `Reader.block`.  The memory of the output before it is written is shown as zeros. -/
def block (len : Nat) : Rd Bytes := do
  let r ← get
  if r.available < len then throw ()
  else
    set { r with available := r.available - len }
    takeLoop copyTo len r.chunks 0 (List.replicate len 0)

/-- `Array.find`: the first place at `offset` or after it. -/
def find (data : Bytes) (byte : Byte) (offset : Nat) : Option Nat :=
  ((data.drop offset).idxOf? byte).map (· + offset)

/-- The loop of `_distance_of` over the chunks. -/
def distanceFrom (byte : Byte) : List (Piece Byte) → Nat → Option Nat
  | [], _ => none
  | (data, offset) :: cs, searchLen =>
    match find data byte offset with
    | some i => some ((searchLen + i + 1 + (usize - offset)) % usize)
    | none => distanceFrom byte cs ((searchLen + (data.length - offset)) % usize)

/-- `Reader._distance_of`. -/
def distanceOf (byte : Byte) : Rd Nat := do
  let r ← get
  match distanceFrom byte r.chunks 0 with
  | some len => pure len
  | none => throw ()

/-- `Reader._byte`. -/
def byte : Rd Byte := do
  let r ← get
  match r.chunks with
  | [] => throw ()
  | (data, offset) :: cs =>
    match data[offset]? with
    | none => throw ()
    | some x =>
      set (σ := Reader)
        { chunks := if offset + 1 < data.length then (data, offset + 1) :: cs else cs
          available := r.available - 1 }
      pure x

/-- `Reader.u8`. -/
def u8 : Rd Byte := do
  let r ← get
  if r.available ≥ 1 then byte else throw ()

/-- `Reader.i8`. -/
def i8 : Rd Int := do
  let x ← u8
  pure x.toInt

/-- `Reader.read_until`. -/
def readUntil (separator : Byte) : Rd Bytes := do
  let len ← distanceOf separator
  let b ← block (len - 1)
  let _ ← u8
  pure b

/-- The line feed. -/
abbrev lf : Byte := 0x0A

/-- The carriage return. -/
abbrev cr : Byte := 0x0D

/-- The number of bytes that `line` cuts off from the line it took. -/
def truncLen (keepLineBreaks : Bool) (len : Nat) (out : Bytes) : Nat :=
  if keepLineBreaks then 0
  else if len ≥ 2 ∧ out[len - 2]? = some cr then 2
  else 1

/-- `Reader.line`. -/
def line (keepLineBreaks : Bool) : Rd Bytes := do
  let len ← distanceOf lf
  let r ← get
  set { r with available := (r.available + (usize - len)) % usize }
  let out ← takeLoop (fun data out offset _ copyLen => appendTo data out offset copyLen) len
    r.chunks 0 []
  pure (out.take (len - truncLen keepLineBreaks len out))

/-! ### Integers -/

/-- `Array.read_u16` and its siblings: an integer as it stands in memory. -/
def readNative (target : ByteOrder) (n : Nat) (data : Bytes) (offset : Nat) :
    Option (BitVec (8 * n)) :=
  if (offset + n) % usize ≤ data.length then some (ofBytes target n ((data.drop offset).take n))
  else none

/-- The bytes that a number of calls of `u8` give. -/
def u8s : Nat → Rd Bytes
  | 0 => pure []
  | n + 1 => do
      let b ← u8
      let bs ← u8s n
      pure (b :: bs)

/-- The reads of an integer of `n` bytes: from the head chunk when it has them all, else byte by
byte. -/
def readUint (target order : ByteOrder) (n : Nat) : Rd (BitVec (8 * n)) := do
  let r ← get
  if r.available ≥ n then
    match r.chunks with
    | [] => throw ()
    | (data, offset) :: cs =>
      if data.length - offset ≥ n then
        match readNative target n data offset with
        | none => throw ()
        | some x =>
          set (σ := Reader)
            { chunks := if offset + n < data.length then (data, offset + n) :: cs else cs
              available := r.available - n }
          pure (convert order target x)
      else
        let bs ← u8s n
        pure (joinBytes order n bs)
  else throw ()

section
variable (target : ByteOrder)

def u16Be : Rd (BitVec 16) := readUint target .be 2
def u16Le : Rd (BitVec 16) := readUint target .le 2
def u32Be : Rd (BitVec 32) := readUint target .be 4
def u32Le : Rd (BitVec 32) := readUint target .le 4
def u64Be : Rd (BitVec 64) := readUint target .be 8
def u64Le : Rd (BitVec 64) := readUint target .le 8
def u128Be : Rd (BitVec 128) := readUint target .be 16
def u128Le : Rd (BitVec 128) := readUint target .le 16

end

/-! ### Peeks -/

/-- The loop of `_peek_byte` over the chunks. -/
def peekByteFrom : List (Piece Byte) → Nat → Option Byte
  | [], _ => none
  | (data, nodeOffset) :: cs, offset =>
    let offset := (offset + nodeOffset) % usize
    if offset ≥ data.length then peekByteFrom cs (offset - data.length) else data[offset]?

/-- `Reader.peek_u8`. -/
def peekU8 (r : Reader) (offset : Nat) : Option Byte := peekByteFrom r.chunks offset

/-- The peeks at an integer of `2 ^ k` bytes: two peeks at integers half as wide. -/
def peekUint (r : Reader) (order : ByteOrder) : (k : Nat) → Nat → Option (BitVec (8 * 2 ^ k))
  | 0, offset => peekU8 r offset
  | k + 1, offset => do
      let x ← peekUint r order k offset
      let y ← peekUint r order k ((offset + 2 ^ k) % usize)
      match order with
      | .be => pure ((x.setWidth (8 * 2 ^ (k + 1)) <<< (8 * 2 ^ k)) ||| y.setWidth (8 * 2 ^ (k + 1)))
      | .le => pure (x.setWidth (8 * 2 ^ (k + 1)) ||| (y.setWidth (8 * 2 ^ (k + 1)) <<< (8 * 2 ^ k)))

section
variable (r : Reader) (offset : Nat)

def peekU16Be : Option (BitVec 16) := r.peekUint .be 1 offset
def peekU16Le : Option (BitVec 16) := r.peekUint .le 1 offset
def peekU32Be : Option (BitVec 32) := r.peekUint .be 2 offset
def peekU32Le : Option (BitVec 32) := r.peekUint .le 2 offset
def peekU64Be : Option (BitVec 64) := r.peekUint .be 3 offset
def peekU64Le : Option (BitVec 64) := r.peekUint .le 3 offset
def peekU128Be : Option (BitVec 128) := r.peekUint .be 4 offset
def peekU128Le : Option (BitVec 128) := r.peekUint .le 4 offset

end

end Reader

/-! ### Calls -/

/-- The widths of the integers of more than one byte. -/
inductive Width where
  | w16
  | w32
  | w64
  | w128
deriving DecidableEq

/-- The width in bytes is two to this power. -/
def Width.log : Width → Nat
  | .w16 => 1
  | .w32 => 2
  | .w64 => 3
  | .w128 => 4

/-- `bytewidth`. -/
def Width.bytes (w : Width) : Nat := 2 ^ w.log

/-- A call of a method of the reader; `signed` asks for the `i` methods. -/
inductive Op where
  | append (data : Bytes)
  | clear
  | skip (n : Nat)
  | block (len : Nat)
  | readUntil (separator : Byte)
  | line (keepLineBreaks : Bool)
  | byte (signed : Bool)
  | read (signed : Bool) (order : ByteOrder) (w : Width)
  | peekByte (signed : Bool) (offset : Nat)
  | peek (signed : Bool) (order : ByteOrder) (w : Width) (offset : Nat)
deriving DecidableEq

/-- What a call returns. -/
inductive Res where
  | none
  | bytes (bs : Bytes)
  | uint (n : Nat) (x : BitVec n)
  | int (x : Int)
deriving DecidableEq

/-- An integer, as the `u` methods or as the `i` methods return it. -/
def Res.ofBits (signed : Bool) {n : Nat} (x : BitVec n) : Res :=
  if signed then .int x.toInt else .uint n x

/-- An error of a peek is an error of the call. -/
def Rd.ofOption {α : Type} : Option α → Rd α
  | none => throw ()
  | some a => pure a

/-- The reads of wider integers, each under its name. -/
def Op.readBits (target : ByteOrder) (signed : Bool) : ByteOrder → Width → Rd Res
  | .be, .w16 => Res.ofBits signed <$> Reader.u16Be target
  | .le, .w16 => Res.ofBits signed <$> Reader.u16Le target
  | .be, .w32 => Res.ofBits signed <$> Reader.u32Be target
  | .le, .w32 => Res.ofBits signed <$> Reader.u32Le target
  | .be, .w64 => Res.ofBits signed <$> Reader.u64Be target
  | .le, .w64 => Res.ofBits signed <$> Reader.u64Le target
  | .be, .w128 => Res.ofBits signed <$> Reader.u128Be target
  | .le, .w128 => Res.ofBits signed <$> Reader.u128Le target

/-- The peeks at wider integers, each under its name. -/
def Op.peekBits (signed : Bool) (r : Reader) (offset : Nat) : ByteOrder → Width → Option Res
  | .be, .w16 => Res.ofBits signed <$> r.peekU16Be offset
  | .le, .w16 => Res.ofBits signed <$> r.peekU16Le offset
  | .be, .w32 => Res.ofBits signed <$> r.peekU32Be offset
  | .le, .w32 => Res.ofBits signed <$> r.peekU32Le offset
  | .be, .w64 => Res.ofBits signed <$> r.peekU64Be offset
  | .le, .w64 => Res.ofBits signed <$> r.peekU64Le offset
  | .be, .w128 => Res.ofBits signed <$> r.peekU128Be offset
  | .le, .w128 => Res.ofBits signed <$> r.peekU128Le offset

/-- What a call does. -/
def Op.run (target : ByteOrder) : Op → Rd Res
  | .append data => do
      Reader.append data
      pure .none
  | .clear => do
      Reader.clear
      pure .none
  | .skip n => do
      Reader.skip n
      pure .none
  | .block len => Res.bytes <$> Reader.block len
  | .readUntil separator => Res.bytes <$> Reader.readUntil separator
  | .line keepLineBreaks => Res.bytes <$> Reader.line keepLineBreaks
  | .byte false => (Res.uint 8 ·) <$> Reader.u8
  | .byte true => Res.int <$> Reader.i8
  | .read signed order w => Op.readBits target signed order w
  | .peekByte signed offset => do
      Rd.ofOption (Res.ofBits signed <$> (← get).peekU8 offset)
  | .peek signed order w offset => do
      Rd.ofOption (Op.peekBits signed (← get) offset order w)

end SpacePony.Buffered
