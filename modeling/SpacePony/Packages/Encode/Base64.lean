import Mathlib.Data.List.Basic
import Mathlib.Tactic

/-!
# Packages — encode — Base64

`Base64.encode` with its variants and `Base64.decode`.  Texts and data are lists of bytes; the size
that `encode` and `decode` reserve is left out.  `decode_whole_iff` says when decoding gives whole
bytes, the leading bits of what was read.
-/

namespace SpacePony.Base64

open Option Nat List

/-! ### Encoding -/

/-- `_enc_byte`. -/
def encByte (i at62 at63 : UInt8) : Option UInt8 :=
  if i = 62 then some at62
  else if i = 63 then some at63
  else if i < 26 then some (65 + i)
  else if i < 52 then some ((97 - 26) + i)
  else if i < 62 then some ((48 - 52) + i)
  else none

section
variable (at62 at63 pad : UInt8) (lineblocks : Nat) (linesep : List UInt8)

/-- What is left of `encode`'s output: the blocks of three bytes, `blocks` of them on the line so
far, then one or two bytes and the end of the line. -/
def encodeFrom : List UInt8 → Nat → Option (List UInt8)
  | in1 :: in2 :: in3 :: data, blocks => do
    let out1 ← encByte (in1 >>> 2) at62 at63
    let out2 ← encByte (((in1 &&& 0x03) <<< 4) + (in2 >>> 4)) at62 at63
    let out3 ← encByte (((in2 &&& 0x0f) <<< 2) + (in3 >>> 6)) at62 at63
    let out4 ← encByte (in3 &&& 0x3f) at62 at63
    let full := lineblocks > 0 ∧ blocks + 1 = lineblocks
    let out ← encodeFrom data (if full then 0 else blocks + 1)
    some ([out1, out2, out3, out4] ++ (if full then linesep else []) ++ out)
  | [in1, in2], _ => do
    let out1 ← encByte (in1 >>> 2) at62 at63
    let out2 ← encByte (((in1 &&& 0x03) <<< 4) + (in2 >>> 4)) at62 at63
    let out3 ← encByte ((in2 &&& 0x0f) <<< 2) at62 at63
    some ([out1, out2, out3, pad] ++ if lineblocks > 0 then linesep else [])
  | [in1], _ => do
    let out1 ← encByte (in1 >>> 2) at62 at63
    let out2 ← encByte (((in1 &&& 0x03) <<< 4) + ((0 : UInt8) >>> 4)) at62 at63
    some ([out1, out2, pad, pad] ++ if lineblocks > 0 then linesep else [])
  | [], _ => some (if lineblocks > 0 then linesep else [])

end

/-- `encode`: an error leaves the output empty. -/
def encode (data : List UInt8) (at62 at63 pad : UInt8) (linelen : Nat) (linesep : List UInt8) :
    List UInt8 :=
  (encodeFrom at62 at63 pad (linelen / 4) linesep data 0).getD []

def crlf : List UInt8 := [13, 10]

/-- `encode_pem`. -/
def encodePem (data : List UInt8) : List UInt8 := encode data 43 47 61 64 crlf

/-- `encode_mime`. -/
def encodeMime (data : List UInt8) : List UInt8 := encode data 43 47 61 76 crlf

/-- `encode_url`. -/
def encodeUrl (data : List UInt8) (pad : Bool) : List UInt8 :=
  encode data 45 95 (if pad then 61 else 0) 0 crlf

/-! ### Decoding -/

/-- The parameters of `decode`. -/
structure Alphabet where
  (at62 at63 pad : UInt8)

/-- What `decode` does about a character. -/
inductive Kind where
  | skip
  | stop
  | value (v : UInt8)
  | fail
deriving DecidableEq

/-- The cases of `decode`, in their order. -/
def Alphabet.kind (a : Alphabet) (input : UInt8) : Kind :=
  if input = 32 ∨ input = 9 ∨ input = 13 ∨ input = 10 then .skip
  else if input = a.pad then .stop
  else if input = a.at62 then .value 62
  else if input = a.at63 then .value 63
  else if 65 ≤ input ∧ input ≤ 90 then .value (input - 65)
  else if 97 ≤ input ∧ input ≤ 122 then .value ((input - 97) + 26)
  else if 48 ≤ input ∧ input ≤ 57 then .value ((input - 48) + 52)
  else .fail

/-- The variables of `decode`. -/
structure Decoder where
  (state input output : UInt8)
  out : List UInt8

/-- Take in the value of a character. -/
def Decoder.push (s : Decoder) (value : UInt8) : Option Decoder :=
  if s.state = 0 then some { s with output := value <<< 2, state := 1 }
  else if s.state = 1 then
    some { s with
      out := s.out ++ [s.output ||| (value >>> 4)], output := (value &&& 0x0f) <<< 4, state := 2 }
  else if s.state = 2 then
    some { s with
      out := s.out ++ [s.output ||| (value >>> 2)], output := (value &&& 0x03) <<< 6, state := 3 }
  else if s.state = 3 then some { s with out := s.out ++ [s.output ||| value], state := 0 }
  else none

/-- The loop of `decode`. -/
def decodeFrom (a : Alphabet) : List UInt8 → Decoder → Option Decoder
  | [], s => some s
  | input :: data, s =>
    let s := { s with input := input }
    match a.kind input with
    | .skip => decodeFrom a data s
    | .stop => some s
    | .value v => (s.push v).bind (decodeFrom a data)
    | .fail => none

/-- What `decode` does after its loop. -/
def finish (a : Alphabet) (s : Decoder) : Option (List UInt8) :=
  if s.output ≠ 0 then
    if s.input = a.pad then none
    else if s.state = 1 ∨ s.state = 2 then some (s.out ++ [s.output])
    else some s.out
  else some s.out

/-- `decode`. -/
def decode (data : List UInt8) (a : Alphabet) : Option (List UInt8) :=
  (decodeFrom a data ⟨0, 0, 0, []⟩).bind (finish a)

/-- The defaults, of RFC 4648. -/
def standard : Alphabet := ⟨43, 47, 61⟩

def url : Alphabet := ⟨45, 95, 61⟩

/-- `decode_url`. -/
def decodeUrl (data : List UInt8) : Option (List UInt8) := decode data url

/-! ### Whole bytes -/

/-- The number that digits are in a base, the highest first. -/
def number (base : Nat) (ds : List UInt8) : Nat := ds.foldl (fun n d => base * n + d.toNat) 0

@[simp] theorem number_concat (base : Nat) (ds : List UInt8) (d : UInt8) :
    number base (ds ++ [d]) = base * number base ds + d.toNat := by
  simp [number]

variable {a : Alphabet} {s : Decoder} {vs : List UInt8} {v : UInt8}

/-- A value behind bits that it does not reach. -/
theorem toNat_or {x y : UInt8} (i : Nat) (hx : x.toNat % 2 ^ i = 0) (hy : y.toNat < 2 ^ i) :
    (x ||| y).toNat = x.toNat + y.toNat := by
  rw [UInt8.toNat_or, ← div_add_mod x.toNat (2 ^ i), hx, add_zero, ← two_pow_add_eq_or_of_lt hy]

theorem toNat_and (k : Nat) (mask : UInt8) (hm : mask.toNat = 2 ^ k - 1) :
    (v &&& mask).toNat = v.toNat % 2 ^ k := by
  rw [UInt8.toNat_and, hm, and_two_pow_sub_one_eq_mod]

theorem toNat_shiftLeft (k : UInt8) (hk : k.toNat < 8) (hv : v.toNat * 2 ^ k.toNat < 256) :
    (v <<< k).toNat = v.toNat * 2 ^ k.toNat := by
  rw [UInt8.toNat_shiftLeft, mod_eq_of_lt hk, shiftLeft_eq, mod_eq_of_lt hv]

theorem toNat_shiftRight (k : UInt8) (hk : k.toNat < 8) :
    (v >>> k).toNat = v.toNat / 2 ^ k.toNat := by
  rw [UInt8.toNat_shiftRight, mod_eq_of_lt hk, shiftRight_eq_div_pow]

/-- The low `m` bits of a value, shifted. -/
theorem toNat_mask {k mask : UInt8} (m : Nat) (hm : mask.toNat = 2 ^ m - 1) (hk : k.toNat < 8)
    (hmk : m + k.toNat ≤ 8) : ((v &&& mask) <<< k).toNat = v.toNat % 2 ^ m * 2 ^ k.toNat := by
  have hand := toNat_and (v := v) m mask hm
  have hlt : v.toNat % 2 ^ m * 2 ^ k.toNat < 256 := by
    calc v.toNat % 2 ^ m * 2 ^ k.toNat < 2 ^ m * 2 ^ k.toNat :=
          Nat.mul_lt_mul_of_pos_right (Nat.mod_lt _ (Nat.two_pow_pos _)) (Nat.two_pow_pos _)
      _ ≤ 2 ^ 8 := by rw [← pow_add]; exact Nat.pow_le_pow_right (by decide) hmk
  rw [toNat_shiftLeft k hk (by rwa [hand]), hand]

/-- **What has been read** after the values `vs`: the bytes are their leading bits, and the bits
that make no byte are at the top of `output`. -/
structure Reads (vs : List UInt8) (s : Decoder) : Prop where
  state : s.state.toNat = vs.length % 4
  length : s.out.length = 6 * vs.length / 8
  bits : number 256 s.out = number 64 vs / 2 ^ (6 * vs.length % 8)
  rest : s.state ≠ 0 →
    s.output.toNat = number 64 vs % 2 ^ (6 * vs.length % 8) * 2 ^ (8 - 6 * vs.length % 8)

/-- A byte is complete: `r` bits of the value are left over. -/
theorem Reads.next (h : Reads vs s) {byte output state : UInt8} {r : Nat}
    (hr : 6 * vs.length % 8 = r + 2) (hbyte : byte.toNat = s.output.toNat + v.toNat / 2 ^ r)
    (hstate : state.toNat = (vs.length + 1) % 4)
    (houtput : state ≠ 0 → output.toNat = v.toNat % 2 ^ r * 2 ^ (8 - r)) :
    Reads (vs ++ [v]) { s with state := state, output := output, out := s.out ++ [byte] } := by
  have hr' : 6 * (vs.length + 1) % 8 = r := by omega
  have hrest := h.rest fun h0 => by
    have hs := h.state
    rw [h0] at hs
    have : 0 = vs.length % 4 := hs
    omega
  have hbits := h.bits
  rw [hr] at hrest hbits
  refine ⟨?_, ?_, ?_, fun h0 => ?_⟩
  · rwa [length_append]
  · have hlength := h.length
    simp only [length_append, length_singleton]
    omega
  · rw [number_concat, length_append, length_singleton, hr', number_concat, hbits, hbyte, hrest]
    have hle : r = 0 ∨ r = 2 ∨ r = 4 := by omega
    rcases hle with rfl | rfl | rfl <;> omega
  · rw [length_append, length_singleton, hr', number_concat, houtput h0]
    have hle : r = 0 ∨ r = 2 ∨ r = 4 := by omega
    rcases hle with rfl | rfl | rfl <;> omega

/-- The bits left over and the bits of the next value that complete a byte. -/
theorem Reads.byte (h : Reads vs s) (hv : v.toNat < 64) {k : UInt8}
    (hk : 6 * vs.length % 8 = k.toNat + 2) (h0 : s.state ≠ 0) :
    (s.output ||| (v >>> k)).toNat = s.output.toNat + v.toNat / 2 ^ k.toNat := by
  have hk4 : k.toNat = 0 ∨ k.toNat = 2 ∨ k.toNat = 4 := by omega
  have hrest := h.rest h0
  rw [hk] at hrest
  rw [toNat_or (8 - (k.toNat + 2)) (by rw [hrest, mul_mod_left]), toNat_shiftRight k (by omega)]
  rw [toNat_shiftRight k (by omega)]
  rcases hk4 with e | e | e <;> rw [e] <;> omega

theorem Reads.push (h : Reads vs s) (hv : v.toNat < 64) :
    ∃ s', s.push v = some s' ∧ Reads (vs ++ [v]) s' ∧ s'.input = s.input := by
  have hstate := h.state
  have hlt := mod_lt vs.length (show 4 > 0 by decide)
  unfold Decoder.push
  interval_cases hmod : vs.length % 4
  · have h0 : s.state = 0 := UInt8.toNat_inj.1 hstate
    obtain ⟨-, hlength, hbits, -⟩ := h
    have hr : 6 * vs.length % 8 = 0 := by omega
    have hr' : 6 * (vs.length + 1) % 8 = 6 := by omega
    rw [hr] at hbits
    rw [if_pos h0]
    refine ⟨_, rfl, ⟨?_, ?_, ?_, fun _ => ?_⟩, rfl⟩
    · rw [length_append, length_singleton]
      show 1 = _
      omega
    · rw [length_append, length_singleton, hlength]
      omega
    · rw [length_append, length_singleton, hr', number_concat, hbits]
      omega
    rw [length_append, length_singleton, hr', number_concat]
    show (v <<< 2).toNat = _
    rw [toNat_shiftLeft 2 (by decide) (by simp; omega)]
    simp
    omega
  · have h1 : s.state = 1 := UInt8.toNat_inj.1 hstate
    have h0 : s.state ≠ 0 := by rw [h1]; decide
    rw [if_neg h0, if_pos h1]
    exact ⟨_, rfl, h.next (r := 4) (by omega) (h.byte hv (k := 4) (by simp; omega) h0)
      (by simp; omega) fun _ => toNat_mask (k := 4) 4 rfl (by decide) (by decide), rfl⟩
  · have h2 : s.state = 2 := UInt8.toNat_inj.1 hstate
    have h0 : s.state ≠ 0 := by rw [h2]; decide
    rw [if_neg h0, if_neg (by rw [h2]; decide), if_pos h2]
    exact ⟨_, rfl, h.next (r := 2) (by omega) (h.byte hv (k := 2) (by simp; omega) h0)
      (by simp; omega) fun _ => toNat_mask (k := 6) 2 rfl (by decide) (by decide), rfl⟩
  · have h3 : s.state = 3 := UInt8.toNat_inj.1 hstate
    have h0 : s.state ≠ 0 := by rw [h3]; decide
    rw [if_neg h0, if_neg (by rw [h3]; decide), if_neg (by rw [h3]; decide), if_pos h3]
    exact ⟨_, rfl, h.next (r := 0) (by omega)
      (by simpa using h.byte hv (k := 0) (by simp; omega) h0) (by simp; omega)
      fun h => absurd rfl h, rfl⟩

/-- The value of a character. -/
def Alphabet.value? (a : Alphabet) (input : UInt8) : Option UInt8 :=
  match a.kind input with
  | .value v => some v
  | _ => none

theorem kind_lt {input : UInt8} (h : a.kind input = .value v) : v.toNat < 64 := by
  unfold Alphabet.kind at h
  split at h
  · cases h
  split at h
  · cases h
  split at h
  · cases h
    decide
  split at h
  · cases h
    decide
  -- letters and digits: the subtraction does not wrap
  have hsub : ∀ {lo hi : UInt8} {n : Nat}, lo ≤ input ∧ input ≤ hi → hi.toNat - lo.toNat ≤ n →
      (input - lo).toNat ≤ n := by
    intro lo hi n ⟨hlo, hhi⟩ hn
    rw [UInt8.toNat_sub_of_le _ _ hlo]
    rw [UInt8.le_iff_toNat_le] at hhi
    omega
  split at h
  · cases h
    have := hsub (n := 25) ‹_› (by decide)
    omega
  split at h
  · cases h
    have := hsub (n := 25) ‹_› (by decide)
    rw [UInt8.toNat_add, show (26 : UInt8).toNat = 26 from rfl]
    omega
  split at h
  · cases h
    have := hsub (n := 9) ‹_› (by decide)
    rw [UInt8.toNat_add, show (52 : UInt8).toNat = 52 from rfl]
    omega
  · cases h

/-- The characters before the first padding character. -/
def before (a : Alphabet) (data : List UInt8) : List UInt8 :=
  data.takeWhile fun b => decide (a.kind b ≠ .stop)

/-- The characters that are read, up to the first padding character. -/
def read (a : Alphabet) (data : List UInt8) : List UInt8 := data.take ((before a data).length + 1)

theorem decodeFrom_fail (data : List UInt8) (s : Decoder)
    (h : ∃ b ∈ before a data, a.kind b = .fail) : decodeFrom a data s = none := by
  induction data generalizing s with
  | nil => simp [before] at h
  | cons input data ih =>
    rw [decodeFrom]
    cases hk : a.kind input with
    | skip => exact ih _ (by simpa [before, hk] using h)
    | stop => simp [before, hk] at h
    | value v =>
      have hs : ∀ s', decodeFrom a data s' = none := fun s' => ih s' (by simpa [before, hk] using h)
      cases hp : Decoder.push { s with input := input } v <;> simp [hs, hp]
    | fail => rfl

/-- **The loop** over characters of the alphabet and whitespace. -/
theorem decodeFrom_reads (data : List UInt8) (h : Reads vs s)
    (hall : ∀ b ∈ before a data, a.kind b ≠ .fail) : ∃ s', decodeFrom a data s = some s' ∧
      Reads (vs ++ (before a data).filterMap a.value?) s' ∧
      s'.input = (read a data).getLast?.getD s.input := by
  induction data generalizing s vs with
  | nil => exact ⟨s, rfl, by simpa [before] using h, rfl⟩
  | cons input data ih =>
    have h' : Reads vs { s with input := input } := ⟨h.state, h.length, h.bits, h.rest⟩
    rw [decodeFrom]
    cases hk : a.kind input with
    | skip =>
      obtain ⟨s', hs', hr, hi⟩ := ih h' (by simpa [before, hk] using hall)
      refine ⟨s', hs', by simpa [before, hk, Alphabet.value?] using hr, ?_⟩
      simpa [read, before, hk, getLast?_cons] using hi
    | stop =>
      exact ⟨_, rfl, by simpa [before, hk] using h', by simp [read, before, hk]⟩
    | value v =>
      obtain ⟨s₁, hs₁, hr₁, hi₁⟩ := h'.push (kind_lt hk)
      obtain ⟨s', hs', hr, hi⟩ := ih hr₁ (by simpa [before, hk] using hall)
      refine ⟨s', by simp [hs₁, hs'], by simpa [before, hk, Alphabet.value?] using hr, ?_⟩
      simpa [read, before, hk, getLast?_cons, hi₁] using hi
    | fail => exact absurd hk (hall input (by simp [before, hk]))

/-- The values that are read. -/
def values (a : Alphabet) (data : List UInt8) : List UInt8 := (before a data).filterMap a.value?

/-- The bytes are the whole bytes among the leading bits of the values. -/
def Leading (vs out : List UInt8) : Prop :=
  out.length = 6 * vs.length / 8 ∧ number 256 out = number 64 vs / 2 ^ (6 * vs.length % 8)

/-- **Only whole bytes**: what is asked of decoding. -/
structure Whole (a : Alphabet) (data : List UInt8) : Prop where
  fail : (∃ b ∈ before a data, a.kind b = .fail) → decode data a = none
  leading : (∀ b ∈ before a data, a.kind b ≠ .fail) →
    decode data a = none ∨ ∃ out, decode data a = some out ∧ Leading (values a data) out

/-- **When decoding gives only whole bytes**: some character is not of the alphabet, or the bits of
the values that make no byte are zero or are two, or the last character read is the padding. -/
theorem decode_whole_iff (a : Alphabet) (data : List UInt8) : Whole a data ↔
    (∃ b ∈ before a data, a.kind b = .fail) ∨
      number 64 (values a data) % 2 ^ (6 * (values a data).length % 8) = 0 ∨
      (values a data).length % 4 = 3 ∨ (read a data).getLast? = some a.pad := by
  have hstart : Reads [] ⟨0, 0, 0, []⟩ := ⟨rfl, rfl, rfl, fun h => absurd rfl h⟩
  by_cases hfail : ∃ b ∈ before a data, a.kind b = .fail
  · refine iff_of_true ⟨fun h => ?_, fun h => ?_⟩ (.inl hfail)
    · rw [decode, decodeFrom_fail data _ h, bind_none]
    · obtain ⟨b, hb, hk⟩ := hfail
      exact absurd hk (h b hb)
  have hall : ∀ b ∈ before a data, a.kind b ≠ .fail := fun b hb hk => hfail ⟨b, hb, hk⟩
  obtain ⟨s, hs, hr, hi⟩ := decodeFrom_reads data hstart hall
  rw [nil_append] at hr
  change Reads (values a data) s at hr
  have hd : decode data a = finish a s := by rw [decode, hs, bind_some]
  have hlead : Leading (values a data) s.out := ⟨hr.length, hr.bits⟩
  have hstate := hr.state
  rw [or_iff_right hfail]
  constructor
  · intro h
    by_contra hne
    obtain ⟨hbits, hthree, hlast⟩ := not_or.1 hne |>.imp_right not_or.1
    have hzero : (values a data).length % 4 ≠ 0 := by
      intro h0
      rw [show 6 * (values a data).length % 8 = 0 by omega, pow_zero, Nat.mod_one] at hbits
      exact hbits rfl
    have hstate' : s.state = 1 ∨ s.state = 2 := by
      rw [← UInt8.toNat_inj, ← UInt8.toNat_inj]
      simp
      omega
    have houtput : s.output ≠ 0 := by
      intro h0
      have hrest := hr.rest fun h => by
        rw [h] at hstate
        exact hzero hstate.symm
      rw [h0] at hrest
      exact (Nat.mul_ne_zero hbits (Nat.two_pow_pos _).ne') hrest.symm
    have hpad : s.input ≠ a.pad := by
      intro hp
      cases hg : (read a data).getLast? with
      | some b => exact hlast (by rw [hg, ← hp, hi, hg, getD_some])
      | none =>
        have hnil : data = [] := by simpa [read] using getLast?_eq_none_iff.1 hg
        subst hnil
        exact hzero rfl
    have hfin : decode data a = some (s.out ++ [s.output]) := by
      rw [hd, finish, if_pos houtput, if_neg hpad, if_pos hstate']
    rcases h.leading hall with hn | ⟨out, ho, hlen, -⟩
    · cases hn.symm.trans hfin
    cases ho.symm.trans hfin
    rw [length_append, hlead.1, length_singleton] at hlen
    omega
  intro h
  refine ⟨fun h => absurd h hfail, fun _ => ?_⟩
  rw [hd, finish]
  split
  · rename_i houtput
    split
    · exact .inl rfl
    rename_i hpad
    split
    · rename_i hst
      -- a rest of 6 or 4 bits that is not zero, and no padding
      exfalso
      have h0 : s.state ≠ 0 := by rcases hst with e | e <;> rw [e] <;> decide
      rcases h with hbits | hthree | hlast
      · have hrest := hr.rest h0
        rw [hbits, Nat.zero_mul] at hrest
        exact houtput (UInt8.toNat_inj.1 hrest)
      · rw [hthree] at hstate
        rcases hst with e | e <;> rw [e] at hstate <;> cases hstate
      · rw [hlast, getD_some] at hi
        exact hpad hi
    · exact .inr ⟨_, rfl, hlead⟩
  · exact .inr ⟨_, rfl, hlead⟩

/-- "Zh" is decoded to two bytes. -/
theorem decode_whole_zh : ¬Whole standard [90, 104] := by
  intro h
  have hall : ∀ b ∈ before standard [90, 104], standard.kind b ≠ .fail :=
    forall_mem_cons.2 ⟨by decide, forall_mem_singleton.2 (by decide)⟩
  rcases h.leading hall with hn | ⟨out, ho, hlen, -⟩
  · cases hn
  · cases ho
    cases hlen

end SpacePony.Base64
