import SpacePony.Compiler.Ast.Lexint
import SpacePony.Compiler.Ast.Token
import SpacePony.Support.XorFold

/-!
# Compiler — the hash of a syntax tree

`ast_hash` of `ast/ast.c` folds the hash words of all nodes of a tree with exclusive or, over
the hash functions of `ds/fun.c`.

* `astHash_eq`: the hash is the exclusive or of the token ids and of the words of the literals
  that occur an odd number of times (`Ast.literals`, `XorFold.oddSet`): order and even
  multiplicities are lost, and so is what `Ast.literals` does not tell apart (the fractional
  part of a float, the two halves of an integer).
* `astHash_eq_iff`: two trees hash alike exactly when their odd literals cancel against the
  ids.
-/

namespace SpacePony.Syntax

open XorFold

/-! ### Hash functions -/

/-- The bytes of a C string, a character for each byte, without its terminator. -/
abbrev CStr := List Char

/-- `ponyint_hash_int64`. -/
def hashInt64 (key : UInt64) : UInt64 :=
  let key := ~~~key + (key <<< 21)
  let key := key ^^^ (key >>> 24)
  let key := (key + (key <<< 3)) + (key <<< 8)
  let key := key ^^^ (key >>> 14)
  let key := (key + (key <<< 2)) + (key <<< 4)
  let key := key ^^^ (key >>> 28)
  key + (key <<< 31)

/-- `ROTL64`. -/
def rotl64 (x b : UInt64) : UInt64 := (x <<< b) ||| (x >>> (64 - b))

/-- The four words of `siphash24`. -/
structure SipState where
  v0 : UInt64
  v1 : UInt64
  v2 : UInt64
  v3 : UInt64

/-- `SIPROUND64`. -/
def sipRound64 (s : SipState) : SipState :=
  let v0 := s.v0 + s.v1
  let v1 := rotl64 s.v1 13 ^^^ v0
  let v0 := rotl64 v0 32
  let v2 := s.v2 + s.v3
  let v3 := rotl64 s.v3 16 ^^^ v2
  let v0 := v0 + v3
  let v3 := rotl64 v3 21 ^^^ v0
  let v2 := v2 + v1
  let v1 := rotl64 v1 17 ^^^ v2
  let v2 := rotl64 v2 32
  ⟨v0, v1, v2, v3⟩

/-- Bytes as a little-endian word. -/
def littleEndian : List UInt8 → UInt64
  | [] => 0
  | b :: bs => b.toUInt64 ||| (littleEndian bs <<< 8)

/-- The loop of `siphash24` over whole words, and its tail: `len` is the length of the input. -/
def sipBlocks (len : Nat) : Nat → List UInt8 → SipState → SipState
  | 0, bytes, s =>
    let b := (UInt64.ofNat len <<< 56) ||| littleEndian bytes
    let s := sipRound64 (sipRound64 { s with v3 := s.v3 ^^^ b })
    { s with v0 := s.v0 ^^^ b }
  | n + 1, bytes, s =>
    let m := littleEndian (bytes.take 8)
    let s := sipRound64 (sipRound64 { s with v3 := s.v3 ^^^ m })
    sipBlocks len n (bytes.drop 8) { s with v0 := s.v0 ^^^ m }

/-- `siphash24` with `the_key`. -/
def siphash24 (bytes : List UInt8) : UInt64 :=
  let k0 : UInt64 := 0x8A109C6B22D309FE
  let k1 : UInt64 := 0x9F923FCCB57235E1
  let s := sipBlocks bytes.length (bytes.length / 8) bytes
    ⟨k0 ^^^ 0x736f6d6570736575, k1 ^^^ 0x646f72616e646f6d,
      k0 ^^^ 0x6c7967656e657261, k1 ^^^ 0x7465646279746573⟩
  let s := { s with v2 := s.v2 ^^^ 0xff }
  let s := sipRound64 (sipRound64 (sipRound64 (sipRound64 s)))
  s.v0 ^^^ s.v1 ^^^ s.v2 ^^^ s.v3

/-- `ponyint_hash_str` on a 64-bit platform: the bytes that `strlen` counts. -/
def hashStr (s : CStr) : UInt64 :=
  siphash24 ((s.takeWhile (· ≠ '\x00')).map fun c => UInt8.ofNat c.toNat)

/-! ### Trees -/

/-- A C `double`, by its bits. -/
structure Double where
  bits : UInt64
  deriving DecidableEq

/-- The magnitude of a finite double without its fractional part. -/
def Double.truncAbs (d : Double) : Nat :=
  let exponent := (d.bits.toNat / 2 ^ 52) % 2 ^ 11
  let fraction := d.bits.toNat % 2 ^ 52
  let mantissa := if exponent = 0 then fraction else 2 ^ 52 + fraction
  if 1075 ≤ exponent then mantissa * 2 ^ (exponent - 1075)
  else mantissa / 2 ^ (1075 - max exponent 1)

/-- `(uint64_t)d`.  C leaves the result open when the integral part does not fit; `undefined` is
what the platform gives there. -/
def Double.castUint64 (undefined : Double → UInt64) (d : Double) : UInt64 :=
  let finite := (d.bits.toNat / 2 ^ 52) % 2 ^ 11 ≠ 2047
  let negative := 2 ^ 63 ≤ d.bits.toNat
  if finite ∧ d.truncAbs < 2 ^ 64 ∧ (negative → d.truncAbs = 0) then UInt64.ofNat d.truncAbs
  else undefined d

/-- The union of `token_t`. -/
inductive TokenValue where
  | blank
  | string (s : CStr)
  | real (d : Double)
  | integer (n : Lexint)
  deriving DecidableEq

/-- What the `data` pointer of a node leads to: the nice name of an id, or the definition of a
nominal type, of which only its package is read here. -/
inductive NodeData where
  | niceName (s : CStr)
  | definition (package : Nat)
  deriving DecidableEq

/-- `ast_t`: token id and value, `data`, the type, and the children in order. -/
inductive Ast where
  | node (id : TokenId) (value : TokenValue) (data : Option NodeData) (type : Option Ast)
      (children : List Ast)

namespace Ast

/-- `ast_blank`. -/
def blank (id : TokenId) : Ast := .node id .blank none none []

/-- `ast_settype`. -/
def setType : Ast → Ast → Ast
  | .node id value data _ children, type => .node id value data (some type) children

/-- `ast_append` of several children to a node. -/
def append : Ast → List Ast → Ast
  | .node id value data type children, more => .node id value data type (children ++ more)

end Ast

/-- The string that `ast_hash` reads from a `TK_ID` or a `TK_STRING`: `ast_data`, else
`ast_name`. -/
def hashedName (value : TokenValue) (data : Option NodeData) : Option CStr :=
  match data, value with
  | some (.niceName s), _ => some s
  | _, .string s => some s
  | _, _ => none

/-- `ast_int`. -/
def TokenValue.int : TokenValue → Lexint
  | .integer n => n
  | _ => ⟨0, 0⟩

/-- `ast_float`. -/
def TokenValue.float : TokenValue → Double
  | .real d => d
  | _ => ⟨0⟩

section
variable (undefined : Double → UInt64)

/-- The switch of `ast_hash`. -/
def tokenHash (id : TokenId) (value : TokenValue) (data : Option NodeData) : UInt64 :=
  match id with
  | .tkId | .tkString =>
    match hashedName value data with
    | some s => hashStr s
    | none => 0
  | .tkInt => hashInt64 value.int.low ^^^ hashInt64 value.int.high
  | .tkFloat => hashInt64 (value.float.castUint64 undefined)
  | _ => 0

mutual
/-- `ast_hash`. -/
def astHash : Ast → UInt64
  | .node id value data type children =>
    typeHash type ^^^ tokenHash undefined id value data ^^^ id.val ^^^ childrenHash children

/-- The part of `ast_hash` for `ast_type`. -/
def typeHash : Option Ast → UInt64
  | none => 0
  | some type => astHash type

/-- The loop of `ast_hash` over the children. -/
def childrenHash : List Ast → UInt64
  | [] => 0
  | child :: siblings => astHash child ^^^ childrenHash siblings
end

/-! ### What the hash keeps -/

/-- A literal as the hash sees it: a 64-bit word or a string. -/
inductive Literal where
  | word (w : UInt64)
  | text (s : CStr)
  deriving DecidableEq

/-- The hash word of a literal. -/
def Literal.hash : Literal → UInt64
  | .word w => hashInt64 w
  | .text s => hashStr s

/-- The literals of one token. -/
def tokenLiterals (id : TokenId) (value : TokenValue) (data : Option NodeData) : List Literal :=
  match id with
  | .tkId | .tkString =>
    match hashedName value data with
    | some s => [.text s]
    | none => []
  | .tkInt => [.word value.int.low, .word value.int.high]
  | .tkFloat => [.word (value.float.castUint64 undefined)]
  | _ => []

mutual
/-- The literals of a tree: those of its type, of its token and of its children. -/
def literals : Ast → List Literal
  | .node id value data type children =>
    typeLiterals type ++ tokenLiterals undefined id value data ++ childrenLiterals children

/-- The literals of a type. -/
def typeLiterals : Option Ast → List Literal
  | none => []
  | some type => literals type

/-- The literals of a list of children. -/
def childrenLiterals : List Ast → List Literal
  | [] => []
  | child :: siblings => literals child ++ childrenLiterals siblings
end

mutual
/-- The token ids of a tree, in the same order. -/
def ids : Ast → List TokenId
  | .node id _ _ type children => typeIds type ++ id :: childrenIds children

/-- The token ids of a type. -/
def typeIds : Option Ast → List TokenId
  | none => []
  | some type => ids type

/-- The token ids of a list of children. -/
def childrenIds : List Ast → List TokenId
  | [] => []
  | child :: siblings => ids child ++ childrenIds siblings
end

/-- The token ids of a tree, folded. -/
def idWord (a : Ast) : UInt64 := xorList TokenId.val (ids a)

theorem tokenHash_eq (id : TokenId) (value : TokenValue) (data : Option NodeData) :
    tokenHash undefined id value data =
      xorList Literal.hash (tokenLiterals undefined id value data) := by
  unfold tokenHash tokenLiterals
  split
  · cases hashedName value data <;> simp [xorList, Literal.hash]
  · cases hashedName value data <;> simp [xorList, Literal.hash]
  · simp [xorList, Literal.hash]
  · simp [xorList, Literal.hash]
  · simp [xorList]

mutual
theorem astHash_eq_fold (a : Ast) : astHash undefined a =
      xorList Literal.hash (literals undefined a) ^^^ xorList TokenId.val (ids a) := by
  match a with
  | .node id value data type children =>
    simp only [astHash, literals, ids, xorList_append, xorList, tokenHash_eq,
      typeHash_eq_fold type, childrenHash_eq_fold children]
    ac_rfl

theorem typeHash_eq_fold (type : Option Ast) : typeHash undefined type =
      xorList Literal.hash (typeLiterals undefined type) ^^^
        xorList TokenId.val (typeIds type) := by
  match type with
  | none => simp [typeHash, typeLiterals, typeIds, xorList]
  | some type => simpa only [typeHash, typeLiterals, typeIds] using astHash_eq_fold type

theorem childrenHash_eq_fold (children : List Ast) : childrenHash undefined children =
      xorList Literal.hash (childrenLiterals undefined children) ^^^
        xorList TokenId.val (childrenIds children) := by
  match children with
  | [] => simp [childrenHash, childrenLiterals, childrenIds, xorList]
  | child :: siblings =>
    simp only [childrenHash, childrenLiterals, childrenIds, xorList_append,
      astHash_eq_fold child, childrenHash_eq_fold siblings]
    ac_rfl
end

/-- The literals that occur an odd number of times in a tree. -/
def oddLiterals (a : Ast) : Finset Literal := oddSet (literals undefined a)

/-- **What the hash of a tree keeps**: its odd literals, and its token ids folded. -/
theorem astHash_eq (a : Ast) :
    astHash undefined a = xorSet Literal.hash (oddLiterals undefined a) ^^^ idWord a := by
  rw [astHash_eq_fold, xorList_eq_xorSet_oddSet, oddLiterals, idWord]

/-- The words of the literals that are odd in exactly one of the two trees cancel against the
token ids. -/
def Cancel (a b : Ast) : Prop :=
  xorSet Literal.hash (symmDiff (oddLiterals undefined a) (oddLiterals undefined b)) =
    idWord a ^^^ idWord b

/-- Two trees hash alike exactly when the words their leaves fold in cancel. -/
theorem astHash_eq_iff (a b : Ast) :
    astHash undefined a = astHash undefined b ↔ Cancel undefined a b := by
  rw [astHash_eq, astHash_eq, xor_eq_xor_iff, Cancel, xorSet_symmDiff]

/-- The two trees have the same odd literals and their token ids fold alike. -/
def SameLiterals (a b : Ast) : Prop :=
  oddLiterals undefined a = oddLiterals undefined b ∧ idWord a = idWord b

variable {undefined}

theorem SameLiterals.cancel {a b : Ast} (h : SameLiterals undefined a b) :
    Cancel undefined a b := by
  rw [Cancel, h.1, h.2, symmDiff_self, UInt64.xor_self]
  rfl

theorem xorList_val_lt (l : List TokenId) : (xorList TokenId.val l).toNat < 2 ^ 8 := by
  induction l with
  | nil => simp [xorList]
  | cons id l ih =>
    rw [xorList, UInt64.toNat_xor]
    exact Nat.xor_lt_two_pow id.val_lt ih

/-- Where the words of the literals are independent, trees cancel only if they have the same
odd literals. -/
theorem Cancel.sameLiterals {a b : Ast} {s : Finset Literal}
    (hs : Independent Literal.hash (2 ^ 8) s)
    (ha : (literals undefined a).toFinset ⊆ s) (hb : (literals undefined b).toFinset ⊆ s)
    (h : Cancel undefined a b) : SameLiterals undefined a b := by
  have hlt : (idWord a ^^^ idWord b).toNat < 2 ^ 8 := by
    rw [UInt64.toNat_xor]
    exact Nat.xor_lt_two_pow (xorList_val_lt _) (xorList_val_lt _)
  have hodd : oddLiterals undefined a = oddLiterals undefined b :=
    hs.symmDiff_eq_empty ((oddSet_subset _).trans ha) ((oddSet_subset _).trans hb)
      (by rw [h]; exact hlt)
  refine ⟨hodd, eq_of_xor_eq_zero ?_⟩
  rw [← h, hodd, symmDiff_self]
  rfl

end

end SpacePony.Syntax
