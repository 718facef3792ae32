import Mathlib.Data.List.Basic
import Mathlib.Tactic

/-!
# Support — Byte orders

Integers of `n` bytes and the lists of their bytes, in both orders.  The bytes of an integer spell
it (`ofLe_toLe`, `ofBe_toBe`).
-/

namespace SpacePony.Endian

open Nat List
open BitVec (toNat_ofNat eq_of_toNat_eq)

/-- A byte. -/
abbrev Byte := BitVec 8

/-- The number that the bytes spell, the lowest first. -/
def leNat : List Byte → Nat
  | [] => 0
  | b :: bs => b.toNat + 256 * leNat bs

/-- The `n` lowest bytes of a number, the lowest first. -/
def leBytes : Nat → Nat → List Byte
  | 0, _ => []
  | n + 1, x => BitVec.ofNat 8 x :: leBytes n (x / 256)

section
variable {n x : Nat} {bs cs : List Byte}

@[simp] theorem length_leBytes : ∀ n x, (leBytes n x).length = n
  | 0, _ => rfl
  | n + 1, x => by rw [leBytes, length_cons, length_leBytes n]

theorem leNat_append : leNat (bs ++ cs) = leNat bs + 256 ^ bs.length * leNat cs := by
  induction bs with
  | nil => simp [leNat]
  | cons b bs ih =>
    simp only [cons_append, leNat, ih, length_cons, pow_succ]
    ring

theorem leNat_lt : ∀ bs, leNat bs < 256 ^ bs.length
  | [] => by simp [leNat]
  | b :: bs => by
      have ih := leNat_lt bs
      rw [leNat, length_cons, pow_succ]
      omega

/-- The bytes of a number spell it, up to its width. -/
theorem leNat_leBytes : ∀ n x, leNat (leBytes n x) = x % 256 ^ n
  | 0, x => by rw [leBytes, leNat, pow_zero, mod_one]
  | n + 1, x => by rw [leBytes, leNat, leNat_leBytes n, toNat_ofNat, pow_succ' 256 n, mod_mul]

/-- A number spelt by `n` bytes has these bytes. -/
theorem leBytes_leNat : ∀ bs, leBytes bs.length (leNat bs) = bs
  | [] => rfl
  | b :: bs => by
      have hlow : BitVec.ofNat 8 (leNat (b :: bs)) = b := by
        apply eq_of_toNat_eq
        rw [leNat, toNat_ofNat]
        omega
      have hhigh : leNat (b :: bs) / 256 = leNat bs := by
        rw [leNat]
        omega
      rw [length_cons, leBytes, hlow, hhigh, leBytes_leNat bs]

theorem pow_byte (n : Nat) : 2 ^ (8 * n) = 256 ^ n := by
  rw [pow_mul, show 2 ^ 8 = 256 by rfl]

end

/-! ### Integers of `n` bytes -/

/-- The integer that the bytes spell, the lowest first. -/
def ofLe (n : Nat) (bs : List Byte) : BitVec (8 * n) := BitVec.ofNat _ (leNat bs)

/-- The integer that the bytes spell, the highest first. -/
def ofBe (n : Nat) (bs : List Byte) : BitVec (8 * n) := ofLe n bs.reverse

/-- The bytes of an integer, the lowest first. -/
def toLe {n : Nat} (x : BitVec (8 * n)) : List Byte := leBytes n x.toNat

/-- The bytes of an integer, the highest first. -/
def toBe {n : Nat} (x : BitVec (8 * n)) : List Byte := (toLe x).reverse

/-- The integer with its bytes in the other order. -/
def bswap {n : Nat} (x : BitVec (8 * n)) : BitVec (8 * n) := ofBe n (toLe x)

section
variable {n : Nat} {bs : List Byte} (x : BitVec (8 * n))

@[simp] theorem length_toLe : (toLe x).length = n := length_leBytes n _

@[simp] theorem length_toBe : (toBe x).length = n := by rw [toBe, length_reverse, length_toLe]

/-- **The bytes of an integer spell it**, the lowest first. -/
@[simp] theorem ofLe_toLe : ofLe n (toLe x) = x := by
  apply eq_of_toNat_eq
  rw [ofLe, toLe, toNat_ofNat, leNat_leBytes, ← pow_byte, mod_mod, mod_eq_of_lt x.isLt]

/-- **The bytes of an integer spell it**, the highest first. -/
@[simp] theorem ofBe_toBe : ofBe n (toBe x) = x := by
  rw [ofBe, toBe, reverse_reverse, ofLe_toLe]

variable {x}

theorem toLe_ofLe (h : bs.length = n) : toLe (ofLe n bs) = bs := by
  subst h
  rw [toLe, ofLe, toNat_ofNat, mod_eq_of_lt, leBytes_leNat]
  rw [pow_byte]
  exact leNat_lt bs

/-- The swapped integer is spelt by the same bytes, read the other way. -/
theorem bswap_ofLe (h : bs.length = n) : bswap (ofLe n bs) = ofBe n bs := by
  rw [bswap, toLe_ofLe h]

theorem bswap_ofBe (h : bs.length = n) : bswap (ofBe n bs) = ofLe n bs := by
  rw [bswap, ofBe, ofBe, toLe_ofLe (by rw [length_reverse, h]), reverse_reverse]

theorem toLe_bswap : toLe (bswap x) = toBe x := by
  rw [bswap, ofBe, toLe_ofLe (by rw [length_reverse, length_toLe]), toBe]

theorem toBe_bswap : toBe (bswap x) = toLe x := by
  rw [toBe, toLe_bswap, toBe, reverse_reverse]

end

/-! ### Bytes shifted to their places -/

/-- The bytes at the shifts `8 * i`, `8 * (i + 1)`, …, combined by `or`. -/
def joinLeFrom (n : Nat) : Nat → List Byte → BitVec (8 * n)
  | _, [] => 0
  | i, b :: bs => (b.setWidth (8 * n) <<< (8 * i)) ||| joinLeFrom n (i + 1) bs

/-- The bytes combined by `or`, the lowest first. -/
def joinLe (n : Nat) (bs : List Byte) : BitVec (8 * n) := joinLeFrom n 0 bs

/-- The bytes combined by `or`, the highest first. -/
def joinBe (n : Nat) : List Byte → BitVec (8 * n)
  | [] => 0
  | b :: bs => (b.setWidth (8 * n) <<< (8 * bs.length)) ||| joinBe n bs

section
variable {n i j : Nat} {bs : List Byte}

theorem ofNat_shiftLeft (m k x : Nat) : BitVec.ofNat m x <<< k = BitVec.ofNat m (x * 2 ^ k) := by
  apply eq_of_toNat_eq
  rw [BitVec.toNat_shiftLeft, toNat_ofNat, toNat_ofNat, shiftLeft_eq, mod_mul_mod]

/-- A high part above a low part: `or` is addition. -/
theorem shiftLeft_or_ofNat {m k x y : Nat} (hy : y < 2 ^ k) :
    (BitVec.ofNat m x <<< k) ||| BitVec.ofNat m y = BitVec.ofNat m (x * 2 ^ k + y) := by
  have hor : x * 2 ^ k + y = x <<< k ||| y := by rw [← shiftLeft_eq, shiftLeft_add_eq_or_of_lt hy]
  rw [hor, BitVec.ofNat_or, ofNat_shiftLeft, shiftLeft_eq]

theorem setWidth_eq_ofNat {k m : Nat} (b : BitVec k) : b.setWidth m = BitVec.ofNat m b.toNat := by
  apply eq_of_toNat_eq
  rw [BitVec.toNat_setWidth, toNat_ofNat]

theorem joinLeFrom_eq (i : Nat) (bs : List Byte) :
    joinLeFrom n i bs = BitVec.ofNat (8 * n) (leNat bs * 2 ^ (8 * i)) := by
  induction bs generalizing i with
  | nil => simp [joinLeFrom, leNat]
  | cons b bs ih =>
    have hb : b.toNat * 2 ^ (8 * i) < 2 ^ (8 * (i + 1)) := by
      have hlt : b.toNat < 256 := b.isLt
      rw [pow_byte, pow_byte, pow_succ']
      exact mul_lt_mul_of_pos_right hlt (by positivity)
    rw [joinLeFrom, ih, setWidth_eq_ofNat, ofNat_shiftLeft, BitVec.or_comm, ← ofNat_shiftLeft,
      shiftLeft_or_ofNat hb, leNat]
    congr 1
    rw [show 8 * (i + 1) = 8 + 8 * i by ring, pow_add]
    ring

/-- Combining the bytes by `or` spells the integer. -/
theorem joinLe_eq (bs : List Byte) : joinLe n bs = ofLe n bs := by
  rw [joinLe, joinLeFrom_eq, mul_zero, pow_zero, mul_one, ofLe]

theorem joinBe_eq (bs : List Byte) : joinBe n bs = ofBe n bs := by
  induction bs with
  | nil => simp [joinBe, ofBe, ofLe, leNat]
  | cons b bs ih =>
    have hlt : leNat bs.reverse < 2 ^ (8 * bs.length) := by
      rw [pow_byte, ← length_reverse]
      exact leNat_lt _
    rw [joinBe, ih, ofBe, ofLe, setWidth_eq_ofNat, shiftLeft_or_ofNat hlt, ofBe, ofLe,
      reverse_cons, leNat_append, length_reverse, pow_byte]
    congr 1
    rw [leNat, leNat]
    ring

theorem toNat_ofLe (h : bs.length = n) : (ofLe n bs).toNat = leNat bs := by
  subst h
  rw [ofLe, toNat_ofNat, mod_eq_of_lt]
  rw [pow_byte]
  exact leNat_lt bs

variable {k m : Nat} {as cs : List Byte}

/-- Two integers of `m` bytes, side by side in a wider one, the lower first. -/
theorem ofLe_append (ha : as.length = m) (hc : cs.length = m) :
    (ofLe m as).setWidth (8 * k) ||| ((ofLe m cs).setWidth (8 * k) <<< (8 * m)) =
      ofLe k (as ++ cs) := by
  have hlt : leNat as < 2 ^ (8 * m) := by
    rw [pow_byte, ← ha]
    exact leNat_lt as
  rw [setWidth_eq_ofNat, setWidth_eq_ofNat, toNat_ofLe ha, toNat_ofLe hc, BitVec.or_comm,
    shiftLeft_or_ofNat hlt, ofLe, leNat_append, pow_byte, ha]
  congr 1
  ring

/-- Two integers of `m` bytes, side by side in a wider one, the higher first. -/
theorem ofBe_append (ha : as.length = m) (hc : cs.length = m) :
    ((ofBe m as).setWidth (8 * k) <<< (8 * m)) ||| (ofBe m cs).setWidth (8 * k) =
      ofBe k (as ++ cs) := by
  rw [ofBe, ofBe, ofBe, reverse_append, BitVec.or_comm,
    ofLe_append (by rwa [length_reverse]) (by rwa [length_reverse])]

end

/-! ### The order as a parameter -/

/-- The order of the bytes of an integer. -/
inductive ByteOrder where
  | le
  | be
deriving DecidableEq

/-- The integer that the bytes spell. -/
def ofBytes : ByteOrder → (n : Nat) → List Byte → BitVec (8 * n)
  | .le => ofLe
  | .be => ofBe

/-- The bytes of an integer. -/
def toBytes {n : Nat} : ByteOrder → BitVec (8 * n) → List Byte
  | .le => toLe
  | .be => toBe

/-- The bytes shifted to their places and combined by `or`. -/
def joinBytes : ByteOrder → (n : Nat) → List Byte → BitVec (8 * n)
  | .le => joinLe
  | .be => joinBe

/-- An integer of one order, brought into the other order when the two differ. -/
def convert {n : Nat} (e f : ByteOrder) (x : BitVec (8 * n)) : BitVec (8 * n) :=
  if e = f then x else bswap x

section
variable {n : Nat} {bs : List Byte} (e f : ByteOrder) (x : BitVec (8 * n))

@[simp] theorem length_toBytes : (toBytes e x).length = n := by
  cases e
  · exact length_toLe x
  · exact length_toBe x

/-- **The bytes of an integer spell it.** -/
@[simp] theorem ofBytes_toBytes : ofBytes e n (toBytes e x) = x := by
  cases e
  · exact ofLe_toLe x
  · exact ofBe_toBe x

theorem ofBytes_singleton (b : Byte) : ofBytes e 1 [b] = b := by
  have hb : ofLe 1 [b] = b := by
    apply eq_of_toNat_eq
    rw [toNat_ofLe (length_singleton), leNat, leNat, mul_zero, add_zero]
  cases e
  · exact hb
  · exact hb

/-- Two halves read apart and put together are the number read at once. -/
theorem ofBytes_append {m k : Nat} {as cs : List Byte} (ha : as.length = m) (hc : cs.length = m) :
    (match e with
      | .be => ((ofBytes e m as).setWidth (8 * k) <<< (8 * m)) ||| (ofBytes e m cs).setWidth (8 * k)
      | .le => (ofBytes e m as).setWidth (8 * k) ||| ((ofBytes e m cs).setWidth (8 * k) <<< (8 * m)))
      = ofBytes e k (as ++ cs) := by
  cases e
  · exact ofLe_append ha hc
  · exact ofBe_append ha hc

theorem joinBytes_eq : joinBytes e n bs = ofBytes e n bs := by
  cases e
  · exact joinLe_eq bs
  · exact joinBe_eq bs

theorem convert_ofBytes (h : bs.length = n) : convert e f (ofBytes f n bs) = ofBytes e n bs := by
  cases e <;> cases f
  · rfl
  · exact bswap_ofBe h
  · exact bswap_ofLe h
  · rfl

theorem toBytes_convert : toBytes f (convert e f x) = toBytes e x := by
  cases e <;> cases f
  · rfl
  · exact toBe_bswap
  · exact toLe_bswap
  · rfl

end

end SpacePony.Endian
